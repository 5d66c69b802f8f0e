import Jepsen.Control.Remote

/-!
# A cluster of etcd

`ETCD::setup` starts etcd on a node, by a command line that says which node this is and who is in
the cluster.  The archive that it installs before is left to `installArchive`.
-/

namespace Jepsen

namespace ControlHelper

structure StartDaemonOptions where
  env : Option Bytes := none
  background : Option Bool := none
  chdir : Option Bytes := none
  logfile : Option Bytes := none
  make_pidfile : Option Bool := none
  match_executable : Option Bool := none
  match_process_name : Option Bool := none
  pidfile : Option Bytes := none
  process_name : Option Bytes := none

def dot : UInt8 := 46

/-- `boost::filesystem::path::stem`, of a path that does not end in a slash. -/
def stem (path : Bytes) : Bytes :=
  let name := (path.splitOn slash).getLastD []
  if name = ascii "." ∨ name = ascii ".." ∨ dot ∉ name then name
  else [dot].intercalate (name.splitOn dot).dropLast

/-- What is written to the log file. -/
def startEcho (opts : StartDaemonOptions) (bin args : Bytes) : Option Bytes := do
  let logfile ← opts.logfile
  return ascii "echo `date +'%Y-%m-%d %H:%M:%S'`" ++ ascii " Jepsen starting" ++
    opts.env.elim [] (ascii " " ++ ·) ++ ascii " " ++ stem bin ++ args ++ ascii " >> " ++ logfile

/-- `--name`, where the process is matched by it. -/
def matchName (opts : StartDaemonOptions) (bin : Bytes) : Bytes :=
  if opts.match_process_name.getD false then ascii " --name " ++ opts.process_name.getD (stem bin)
  else []

def startCommand (opts : StartDaemonOptions) (bin args : Bytes) : Option Bytes := do
  let pidfile ← opts.pidfile
  let chdir ← opts.chdir
  let logfile ← opts.logfile
  return opts.env.getD [] ++ ascii " start-stop-daemon --start " ++
    (if opts.background.getD true then ascii " --background --no-close " else []) ++
    (if opts.make_pidfile.getD true then ascii " --make-pidfile" else []) ++
    (if opts.match_executable.getD true then ascii " --exec " ++ bin ++ ascii " " else []) ++
    matchName opts bin ++ ascii " --pidfile " ++ pidfile ++ ascii " --chdir " ++ chdir ++
    ascii " --oknodo " ++ ascii " --startas " ++ bin ++ ascii " -- " ++ args ++
    ascii " >> " ++ logfile ++ ascii " 2>&1"

/-- The lines for `sudoExecute`, and whether the last of them is reached: `value` throws where an
option is not set. -/
def startDaemon (opts : StartDaemonOptions) (bin args : Bytes) : List Bytes × Bool :=
  match startEcho opts bin args with
  | none => ([], false)
  | some echo =>
    match startCommand opts bin args with
    | none => ([echo], false)
    | some command => ([echo, command], true)

theorem startDaemon_eq {opts : StartDaemonOptions} {bin args echo command : Bytes}
    (hecho : startEcho opts bin args = some echo)
    (hcommand : startCommand opts bin args = some command) :
    startDaemon opts bin args = ([echo, command], true) := by
  rw [startDaemon, hecho, hcommand]

end ControlHelper

/-- The members of an `ETCD`, of its `DB` too. -/
structure ETCD where
  nodes : List Bytes
  ip_map : List (Bytes × Bytes) := [(ascii "47.108.193.81", ascii "172.24.234.239"),
    (ascii "47.108.227.187", ascii "172.24.234.240"),
    (ascii "47.108.208.93", ascii "172.24.234.241")]

namespace ETCD

open ControlHelper (StartDaemonOptions startDaemon)

def kDir : Bytes := ascii "/opt/etcd"

def kBinary : Bytes := ascii "etcd"

def kLogFile : Bytes := kDir ++ ascii "/etcd.log"

def kPidFile : Bytes := kDir ++ ascii "/etcd.pid"

variable (etcd : ETCD)

/-- `ip_map[node]`, which is empty for a node that is not in the map. -/
def address (node : Bytes) : Bytes := (etcd.ip_map.lookup node).getD []

def nodeURL (node : Bytes) (port : Nat) (loopback : Bool) : Bytes :=
  let base := ascii "http://" ++ etcd.address node ++ ascii ":" ++ ascii (toString port)
  if loopback then ascii "http://127.0.0.1:" ++ ascii (toString port) ++ ascii "," ++ base
  else base

def peerURL (node : Bytes) (loopback : Bool) : Bytes := etcd.nodeURL node 2380 loopback

def clientURL (node : Bytes) (loopback : Bool) : Bytes := etcd.nodeURL node 2379 loopback

/-- The name of the node at an index. -/
def nodeName (idx : Nat) : Bytes := ascii "n" ++ ascii (toString idx)

/-- There is no first node where there are no nodes. -/
def initialCluster : Option Bytes :=
  match etcd.nodes with
  | [] => none
  | node :: nodes => some ((nodes.zipIdx 1).foldl
      (fun initial_cluster p ↦ initial_cluster ++ ascii "," ++ nodeName p.2 ++ ascii "=" ++
        etcd.peerURL p.1 false) (ascii "n0=" ++ etcd.peerURL node false))

/-- The template, filled in. -/
def args (name listen_peer_url listen_client_url initial_cluster : Bytes) : Bytes :=
  ascii " --log-output stderr" ++ ascii " --name " ++ name ++
    ascii " --listen-peer-urls " ++ listen_peer_url ++
    ascii " --listen-client-urls " ++ listen_client_url ++
    ascii " --advertise-client-urls " ++ listen_client_url ++
    ascii " --initial-cluster-state new" ++
    ascii " --initial-advertise-peer-urls " ++ listen_peer_url ++
    ascii " --initial-cluster " ++ initial_cluster

def setupOptions : StartDaemonOptions :=
  { logfile := some kLogFile, pidfile := some kPidFile, chdir := some kDir }

/-- From the search for the node on.  A node that is not found has the index after the last. -/
def setup (node : Bytes) : Option (List Bytes × Bool) :=
  etcd.initialCluster.map fun initial_cluster ↦
    startDaemon setupOptions kBinary (args (nodeName (etcd.nodes.idxOf node))
      (etcd.peerURL node false) (etcd.clientURL node true) initial_cluster)

end ETCD

/-! ## What etcd reads -/

def comma : UInt8 := 44

def equalsSign : UInt8 := 61

/-- The arguments that start-stop-daemon hands on: between the two dashes and the redirection. -/
def daemonArgs (command : Bytes) : List Bytes :=
  (((command.splitOn blank).filter (· ≠ [])).dropWhile (· ≠ ascii "--")).tail.takeWhile
    (· ≠ ascii ">>")

def flags : List Bytes → List (Bytes × Bytes)
  | flag :: value :: rest => (flag, value) :: flags rest
  | _ => []

/-- A member of a cluster: its name, and the URL of its peer port. -/
def memberOf (entry : Bytes) : Bytes × Bytes :=
  (entry.takeWhile (· ≠ equalsSign), (entry.dropWhile (· ≠ equalsSign)).tail)

structure EtcdConfig where
  name : Bytes
  listened : Bytes
  advertised : Bytes
  cluster : List (Bytes × Bytes)

def readConfig (command : Bytes) : Option EtcdConfig := do
  let given := flags (daemonArgs command)
  let name ← given.lookup (ascii "--name")
  let listened ← given.lookup (ascii "--listen-peer-urls")
  let advertised ← given.lookup (ascii "--initial-advertise-peer-urls")
  let initial_cluster ← given.lookup (ascii "--initial-cluster")
  return ⟨name, listened, advertised, (initial_cluster.splitOn comma).map memberOf⟩

/-- What the etcd reads that `setup` starts on a node. -/
def ETCD.config (etcd : ETCD) (node : Bytes) : Option EtcdConfig := do
  let (lines, _) ← etcd.setup node
  readConfig (← lines[1]?)

/-! ## Texts -/

theorem ascii_toString_injective {i j : Nat} (h : ascii (toString i) = ascii (toString j)) :
    i = j := by
  have hread (r : Nat) : (ascii (toString r)).map (fun c ↦ Char.ofNat c.toNat) =
      Nat.toDigits 10 r := by
    have hlist : (toString r).toList = Nat.toDigits 10 r := Nat.toList_repr
    rw [ascii, hlist, List.map_map]
    refine (List.map_congr_left fun d hd ↦ ?_).trans (List.map_id _)
    have hdigit := Ssh.toNat_of_mem_toDigits hd
    have hbyte : d.toNat.toUInt8.toNat = d.toNat := Nat.mod_eq_of_lt (by omega)
    show Char.ofNat d.toNat.toUInt8.toNat = d
    rw [hbyte, Char.ofNat_toNat]
  have hdigits : Nat.toDigits 10 i = Nat.toDigits 10 j := by rw [← hread i, ← hread j, h]
  rw [← Nat.ofDigitChars_toDigits (b := 10) (n := i) (by decide) (by decide), hdigits,
    Nat.ofDigitChars_toDigits (by decide) (by decide)]

theorem notMem_toString {c : UInt8} (hc : ∀ n < 10, c ≠ 48 + n.toUInt8) (r : Nat) :
    c ∉ ascii (toString r) := by
  intro hmem
  obtain ⟨n, hn, rfl⟩ := Ssh.digit_of_mem_toString hmem
  exact hc n hn rfl

theorem foldl_comma (entry : Bytes) (entries : List Bytes) :
    entries.foldl (fun list e ↦ list ++ comma :: e) entry =
      [comma].intercalate (entry :: entries) := by
  induction entries generalizing entry with
  | nil => exact List.intercalate_singleton.symm
  | cons e entries ih =>
    rw [List.foldl_cons, ih, List.intercalate_cons_cons]
    cases entries with
    | nil => simp
    | cons e' entries => simp [List.intercalate_cons_cons]

theorem notMem_intercalate {c sep : UInt8} (hsep : c ≠ sep) {entries : List Bytes}
    (h : ∀ e ∈ entries, c ∉ e) : c ∉ [sep].intercalate entries := by
  induction entries with
  | nil => exact List.not_mem_nil
  | cons e entries ih =>
    obtain ⟨he, hentries⟩ := List.forall_mem_cons.mp h
    cases entries with
    | nil =>
      rw [List.intercalate_singleton]
      exact he
    | cons e' entries =>
      rw [List.intercalate_cons_cons, List.mem_append, List.mem_append, List.mem_singleton]
      exact not_or.mpr ⟨not_or.mpr ⟨he, hsep⟩, ih hentries⟩

/-- The name ends where the equals sign is. -/
theorem memberOf_entry {name url : Bytes} (h : equalsSign ∉ name) :
    memberOf (name ++ equalsSign :: url) = (name, url) := by
  have hname : ∀ c ∈ name, decide (c ≠ equalsSign) = true :=
    fun c hc ↦ decide_eq_true fun heq ↦ h (heq ▸ hc)
  unfold memberOf
  rw [List.takeWhile_append_of_pos hname, List.dropWhile_append_of_pos hname]
  simp

/-- An address that is one word of a line, and one item of a list. -/
def PlainAddress (address : Bytes) : Prop := blank ∉ address ∧ comma ∉ address

/-- A word that the daemon gets as it is. -/
structure ArgWord (w : Bytes) : Prop where
  no_blank : blank ∉ w
  ne_nil : w ≠ []
  no_redirect : w ≠ ascii ">>"

theorem ArgWord.of_all {w : Bytes}
    (h : (w.all (· ≠ blank) && w ≠ [] && w ≠ ascii ">>") = true) : ArgWord w := by
  simp only [Bool.and_eq_true, List.all_eq_true, decide_eq_true_eq] at h
  exact ⟨fun hblank ↦ h.1.1 blank hblank rfl, h.1.2, h.2⟩

/-- Between the dashes and the redirection is what the daemon gets. -/
theorem daemonArgs_pieces {start args : List Bytes} (hstart : ∀ w ∈ start, w ≠ ascii "--")
    (hargs : ∀ w ∈ args, ArgWord w) (rest : List Bytes) :
    ((((start ++ ascii "--" :: [] :: (args ++ ascii ">>" :: rest)).filter (· ≠ [])).dropWhile
      (· ≠ ascii "--")).tail.takeWhile (· ≠ ascii ">>")) = args := by
  have hne : args.filter (· ≠ []) = args :=
    List.filter_eq_self.mpr fun w hw ↦ decide_eq_true (hargs w hw).ne_nil
  have hdrop : ∀ w ∈ start.filter (· ≠ []), decide (w ≠ ascii "--") = true :=
    fun w hw ↦ decide_eq_true (hstart w (List.mem_filter.mp hw).1)
  have htake : ∀ w ∈ args, decide (w ≠ ascii ">>") = true :=
    fun w hw ↦ decide_eq_true (hargs w hw).no_redirect
  rw [List.filter_append, List.dropWhile_append_of_pos hdrop]
  show ((args ++ ascii ">>" :: rest).filter (· ≠ [])).takeWhile (· ≠ ascii ">>") = args
  rw [List.filter_append, hne, List.takeWhile_append_of_pos htake]
  show args ++ [] = args
  exact List.append_nil args

namespace ETCD

variable {etcd : ETCD}

theorem nodeName_injective {i j : Nat} (h : nodeName i = nodeName j) : i = j :=
  ascii_toString_injective (List.append_cancel_left h)

theorem notMem_nodeName {c : UInt8} (hc : ∀ n < 10, c ≠ 48 + n.toUInt8) (hn : c ∉ ascii "n")
    (idx : Nat) : c ∉ nodeName idx := by
  unfold nodeName
  rw [List.mem_append, not_or]
  exact ⟨hn, notMem_toString hc idx⟩

theorem argWord_nodeName (idx : Nat) : ArgWord (nodeName idx) where
  no_blank := notMem_nodeName (by decide) (by decide) idx
  ne_nil := List.cons_ne_nil _ _
  no_redirect h := absurd (List.cons.inj h).1 (by decide)

section

variable (h : ∀ e ∈ etcd.ip_map, PlainAddress e.2)

include h

theorem plain_address (node : Bytes) : PlainAddress (etcd.address node) := by
  unfold address
  cases hlookup : etcd.ip_map.lookup node with
  | none => exact ⟨List.not_mem_nil, List.not_mem_nil⟩
  | some a =>
    obtain ⟨l₁, l₂, hmap, -⟩ := List.lookup_eq_some_iff.mp hlookup
    exact h (node, a) (hmap ▸ List.mem_append_right l₁ List.mem_cons_self)

theorem plain_peerURL (node : Bytes) : PlainAddress (etcd.peerURL node false) := by
  obtain ⟨hblank, hcomma⟩ := plain_address h node
  have hport := fun c hc ↦ notMem_toString (c := c) hc 2380
  unfold peerURL nodeURL
  simp only [Bool.false_eq_true, if_false, PlainAddress, List.mem_append, not_or]
  exact ⟨⟨⟨⟨by decide, hblank⟩, by decide⟩, hport _ (by decide)⟩,
    ⟨⟨by decide, hcomma⟩, by decide⟩, hport _ (by decide)⟩

theorem argWord_peerURL (node : Bytes) : ArgWord (etcd.peerURL node false) where
  no_blank := (plain_peerURL h node).1
  ne_nil := List.cons_ne_nil _ _
  no_redirect h := absurd (List.cons.inj h).1 (by decide)

theorem argWord_clientURL (node : Bytes) : ArgWord (etcd.clientURL node true) where
  no_blank := by
    have hport := notMem_toString (c := blank) (by decide) 2379
    unfold clientURL nodeURL
    simp only [if_true, List.mem_append, not_or]
    exact ⟨⟨⟨by decide, hport⟩, by decide⟩,
      ⟨⟨by decide, (plain_address h node).1⟩, by decide⟩, hport⟩
  ne_nil := List.cons_ne_nil _ _
  no_redirect h := absurd (List.cons.inj h).1 (by decide)

/-- The entry of a node in the list of all. -/
def entry (etcd : ETCD) (p : Bytes × Nat) : Bytes :=
  nodeName p.2 ++ equalsSign :: etcd.peerURL p.1 false

theorem comma_notMem_entry (p : Bytes × Nat) : comma ∉ etcd.entry p := by
  have hname := notMem_nodeName (c := comma) (by decide) (by decide) p.2
  have hurl := (plain_peerURL h p.1).2
  simp only [entry, List.mem_append, List.mem_cons, not_or]
  exact ⟨hname, by decide, hurl⟩

theorem blank_notMem_entry (p : Bytes × Nat) : blank ∉ etcd.entry p := by
  have hname := notMem_nodeName (c := blank) (by decide) (by decide) p.2
  have hurl := (plain_peerURL h p.1).1
  simp only [entry, List.mem_append, List.mem_cons, not_or]
  exact ⟨hname, by decide, hurl⟩

omit h in
theorem initialCluster_eq (hnodes : etcd.nodes ≠ []) :
    etcd.initialCluster = some ([comma].intercalate (etcd.nodes.zipIdx.map etcd.entry)) := by
  obtain ⟨node, nodes, heq⟩ := List.exists_cons_of_ne_nil hnodes
  have hstep : (fun list (p : Bytes × Nat) ↦ list ++ ascii "," ++ nodeName p.2 ++ ascii "=" ++
      etcd.peerURL p.1 false) = fun list p ↦ list ++ comma :: etcd.entry p := by
    funext list p
    simp [entry, ascii, comma, equalsSign]
  have hname : nodeName 0 = ascii "n0" := by decide
  have hfirst : ascii "n0=" ++ etcd.peerURL node false = etcd.entry (node, 0) := by
    rw [entry, hname]
    rfl
  rw [initialCluster, heq, List.zipIdx_cons, List.map_cons, ← foldl_comma, List.foldl_map, ← hstep,
    ← hfirst]

/-- The nodes by their names. -/
def members (etcd : ETCD) : List (Bytes × Bytes) :=
  etcd.nodes.zipIdx.map fun p ↦ (nodeName p.2, etcd.peerURL p.1 false)

/-- The members are read back from the list. -/
theorem members_initialCluster (hnodes : etcd.nodes ≠ []) :
    (([comma].intercalate (etcd.nodes.zipIdx.map etcd.entry)).splitOn comma).map memberOf =
      etcd.members := by
  rw [members, List.splitOn_intercalate comma _ (by simpa using hnodes), List.map_map]
  · refine List.map_congr_left fun p _ ↦ ?_
    exact memberOf_entry (notMem_nodeName (by decide) (by decide) p.2)
  · intro e he
    obtain ⟨p, -, rfl⟩ := List.mem_map.mp he
    exact comma_notMem_entry h p

theorem argWord_initialCluster (hnodes : etcd.nodes ≠ []) :
    ArgWord ([comma].intercalate (etcd.nodes.zipIdx.map etcd.entry)) := by
  obtain ⟨node, nodes, heq⟩ := List.exists_cons_of_ne_nil hnodes
  have hhead : ∃ rest, [comma].intercalate (etcd.nodes.zipIdx.map etcd.entry) = 110 :: rest := by
    rw [heq, List.zipIdx_cons, List.map_cons]
    cases (nodes.zipIdx (0 + 1)).map etcd.entry with
    | nil =>
      rw [List.intercalate_singleton]
      exact ⟨_, rfl⟩
    | cons e entries =>
      rw [List.intercalate_cons_cons]
      exact ⟨_, rfl⟩
  obtain ⟨rest, hrest⟩ := hhead
  refine ⟨?_, ?_, ?_⟩
  · apply notMem_intercalate (by decide)
    intro e he
    obtain ⟨p, -, rfl⟩ := List.mem_map.mp he
    exact blank_notMem_entry h p
  · rw [hrest]
    exact List.cons_ne_nil _ _
  · rw [hrest]
    intro hredirect
    exact absurd (List.cons.inj hredirect).1 (by decide)

end

/-! ## The command -/

/-- What etcd is given, word by word. -/
def argPieces (name peer client cluster : Bytes) : List Bytes :=
  [ascii "--log-output", ascii "stderr", ascii "--name", name, ascii "--listen-peer-urls", peer,
    ascii "--listen-client-urls", client, ascii "--advertise-client-urls", client,
    ascii "--initial-cluster-state", ascii "new", ascii "--initial-advertise-peer-urls", peer,
    ascii "--initial-cluster", cluster]

/-- What start-stop-daemon is given, with an empty word between two blanks. -/
def startPieces : List Bytes :=
  [[], ascii "start-stop-daemon", ascii "--start", [], ascii "--background", ascii "--no-close", [],
    ascii "--make-pidfile", ascii "--exec", kBinary, [], ascii "--pidfile", kPidFile,
    ascii "--chdir", kDir, ascii "--oknodo", [], ascii "--startas", kBinary]

def commandPieces (name peer client cluster : Bytes) : List Bytes :=
  startPieces ++ ascii "--" :: [] :: (argPieces name peer client cluster ++
    ascii ">>" :: [kLogFile, ascii "2>&1"])

set_option maxRecDepth 8000 in
theorem startCommand_eq (name peer client cluster : Bytes) :
    ControlHelper.startCommand setupOptions kBinary (args name peer client cluster) =
      some ([blank].intercalate (commandPieces name peer client cluster)) := by
  apply congrArg some
  unfold args
  simp only [List.append_assoc]
  rfl

theorem argWords (name peer client cluster : Bytes) (hname : ArgWord name) (hpeer : ArgWord peer)
    (hclient : ArgWord client) (hcluster : ArgWord cluster) :
    ∀ w ∈ argPieces name peer client cluster, ArgWord w := by
  simp only [argPieces, List.forall_mem_cons]
  exact ⟨.of_all (by decide), .of_all (by decide), .of_all (by decide), hname,
    .of_all (by decide), hpeer, .of_all (by decide), hclient, .of_all (by decide), hclient,
    .of_all (by decide), .of_all (by decide), .of_all (by decide), hpeer, .of_all (by decide),
    hcluster, List.forall_mem_nil _⟩

/-- The flags are read back from the command. -/
theorem readConfig_command {name peer client cluster : Bytes} (hname : ArgWord name)
    (hpeer : ArgWord peer) (hclient : ArgWord client) (hcluster : ArgWord cluster) :
    readConfig ([blank].intercalate (commandPieces name peer client cluster)) =
      some ⟨name, peer, peer, (cluster.splitOn comma).map memberOf⟩ := by
  have hwords := argWords name peer client cluster hname hpeer hclient hcluster
  have hblank : ∀ w ∈ commandPieces name peer client cluster, blank ∉ w := by
    have hstart : ∀ w ∈ startPieces, blank ∉ w := by
      simp only [startPieces, List.forall_mem_cons]
      decide
    simp only [commandPieces, List.forall_mem_append, List.forall_mem_cons]
    exact ⟨hstart, by decide, by decide, fun w hw ↦ (hwords w hw).no_blank, by decide, by decide,
      by decide, List.forall_mem_nil _⟩
  have hdashes : ∀ w ∈ startPieces, w ≠ ascii "--" := by
    simp only [startPieces, List.forall_mem_cons]
    decide
  have hargs : daemonArgs ([blank].intercalate (commandPieces name peer client cluster)) =
      argPieces name peer client cluster := by
    rw [daemonArgs, List.splitOn_intercalate blank hblank (List.cons_ne_nil _ _)]
    exact daemonArgs_pieces hdashes hwords _
  rw [readConfig, hargs]
  rfl

/-! ## The cluster -/

theorem setup_eq (hnodes : etcd.nodes ≠ []) (node : Bytes) :
    ∃ echo, etcd.setup node = some ([echo, [blank].intercalate (commandPieces
      (nodeName (etcd.nodes.idxOf node)) (etcd.peerURL node false) (etcd.clientURL node true)
      ([comma].intercalate (etcd.nodes.zipIdx.map etcd.entry)))], true) := by
  have hecho (args : Bytes) :
      ∃ echo, ControlHelper.startEcho setupOptions kBinary args = some echo := ⟨_, rfl⟩
  obtain ⟨echo, hecho⟩ := hecho (args (nodeName (etcd.nodes.idxOf node)) (etcd.peerURL node false)
    (etcd.clientURL node true) ([comma].intercalate (etcd.nodes.zipIdx.map etcd.entry)))
  have hcommand := startCommand_eq (nodeName (etcd.nodes.idxOf node)) (etcd.peerURL node false)
    (etcd.clientURL node true) ([comma].intercalate (etcd.nodes.zipIdx.map etcd.entry))
  have hdaemon := ControlHelper.startDaemon_eq hecho hcommand
  refine ⟨echo, ?_⟩
  rw [setup, initialCluster_eq hnodes, Option.map_some, hdaemon]

theorem config_of_setup {node echo command : Bytes} {finished : Bool}
    (hsetup : etcd.setup node = some ([echo, command], finished)) :
    etcd.config node = readConfig command := by
  rw [config, hsetup]
  rfl

theorem config_eq (h : ∀ e ∈ etcd.ip_map, PlainAddress e.2) (hnodes : etcd.nodes ≠ [])
    (node : Bytes) :
    etcd.config node = some ⟨nodeName (etcd.nodes.idxOf node), etcd.peerURL node false,
      etcd.peerURL node false, etcd.members⟩ := by
  have hread := readConfig_command (argWord_nodeName (etcd.nodes.idxOf node))
    (argWord_peerURL h node) (argWord_clientURL h node) (argWord_initialCluster h hnodes)
  rw [members_initialCluster h hnodes] at hread
  obtain ⟨echo, hsetup⟩ := setup_eq hnodes node
  rw [config_of_setup hsetup]
  exact hread

/-- A node finds itself in the cluster. -/
def Joins (c : EtcdConfig) : Prop := (c.name, c.advertised) ∈ c.cluster

theorem joins_iff (h : ∀ e ∈ etcd.ip_map, PlainAddress e.2) (hnodes : etcd.nodes ≠ [])
    {node : Bytes} {c : EtcdConfig} (hc : etcd.config node = some c) :
    Joins c ↔ node ∈ etcd.nodes := by
  rw [config_eq h hnodes, Option.some.injEq] at hc
  subst hc
  show (nodeName (etcd.nodes.idxOf node), etcd.peerURL node false) ∈ etcd.members ↔ _
  rw [members, List.mem_map, ← List.idxOf_lt_length_iff]
  constructor
  · rintro ⟨p, hp, heq⟩
    rw [← nodeName_injective (Prod.mk.inj heq).1]
    exact (List.getElem?_eq_some_iff.mp (List.mem_zipIdx_iff_getElem?.mp hp)).1
  · intro hlt
    refine ⟨(node, etcd.nodes.idxOf node), List.mem_zipIdx_iff_getElem?.mpr ?_, rfl⟩
    exact List.getElem?_eq_some_iff.mpr ⟨hlt, List.getElem_idxOf hlt⟩

/-- Every member is a node that is set up under this name. -/
def Complete (etcd : ETCD) (c : EtcdConfig) : Prop :=
  ∀ m ∈ c.cluster, ∃ node ∈ etcd.nodes, ∃ c', etcd.config node = some c' ∧
    m = (c'.name, c'.advertised)

-- The node at an index is set up under the name of this index where it does not come before.
theorem complete_iff (h : ∀ e ∈ etcd.ip_map, PlainAddress e.2) (hnodes : etcd.nodes ≠ [])
    {node : Bytes} {c : EtcdConfig} (hc : etcd.config node = some c) :
    Complete etcd c ↔ etcd.nodes.Nodup := by
  rw [config_eq h hnodes, Option.some.injEq] at hc
  subst hc
  constructor
  · intro hcomplete
    have hfirst : ∀ i (hi : i < etcd.nodes.length), etcd.nodes.idxOf etcd.nodes[i] = i := by
      intro i hi
      have hmem : (nodeName i, etcd.peerURL etcd.nodes[i] false) ∈ etcd.members :=
        List.mem_map.mpr ⟨(etcd.nodes[i], i),
          List.mem_zipIdx_iff_getElem?.mpr (List.getElem?_eq_getElem hi), rfl⟩
      obtain ⟨node', hnode', c', hc', heq⟩ := hcomplete _ hmem
      rw [config_eq h hnodes, Option.some.injEq] at hc'
      subst hc'
      obtain rfl := nodeName_injective (Prod.mk.inj heq).1
      rw [List.getElem_idxOf]
    refine List.pairwise_iff_getElem.mpr fun i j hi hj hlt heq ↦ ?_
    have hi' := hfirst i hi
    rw [heq, hfirst j hj] at hi'
    omega
  · intro hnodup m hm
    obtain ⟨p, hp, rfl⟩ := List.mem_map.mp hm
    obtain ⟨hi, hnode⟩ := List.getElem?_eq_some_iff.mp (List.mem_zipIdx_iff_getElem?.mp hp)
    refine ⟨p.1, hnode ▸ List.getElem_mem hi, _, config_eq h hnodes p.1, ?_⟩
    have hidx : etcd.nodes.idxOf p.1 = p.2 := by
      rw [← hnode]
      exact hnodup.idxOf_getElem p.2 hi
    rw [hidx]

/-- The nodes form one cluster: each etcd reads the same list of members, listens where it says that
it does, and is in the list where its node is one of the nodes; and the list is of no others where
no node comes twice. -/
theorem setup_forms_cluster (etcd : ETCD) (h : ∀ e ∈ etcd.ip_map, PlainAddress e.2)
    (hnodes : etcd.nodes ≠ []) :
    ∀ node, ∃ c, etcd.config node = some c ∧ c.cluster = etcd.members ∧
      c.listened = c.advertised ∧ (Joins c ↔ node ∈ etcd.nodes) ∧
      (Complete etcd c ↔ etcd.nodes.Nodup) := by
  intro node
  have hc := config_eq h hnodes node
  exact ⟨_, hc, rfl, rfl, joins_iff h hnodes hc, complete_iff h hnodes hc⟩

/-- The three nodes of the test. -/
def testEtcd : ETCD where
  nodes := [ascii "47.108.193.81", ascii "47.108.227.187", ascii "47.108.208.93"]

theorem setup_forms_cluster_test :
    ∃ c, testEtcd.config (ascii "47.108.193.81") = some c ∧ c.cluster = testEtcd.members ∧
      c.listened = c.advertised ∧ Joins c ∧ testEtcd.Complete c := by
  have haddress : ∀ e ∈ testEtcd.ip_map, PlainAddress e.2 :=
    List.forall_mem_cons.mpr ⟨⟨by decide, by decide⟩, List.forall_mem_cons.mpr
      ⟨⟨by decide, by decide⟩, List.forall_mem_cons.mpr
        ⟨⟨by decide, by decide⟩, List.forall_mem_nil _⟩⟩⟩
  obtain ⟨c, hc, hcluster, hlistened, hjoins, hcomplete⟩ := setup_forms_cluster testEtcd haddress
    (List.cons_ne_nil _ _) (ascii "47.108.193.81")
  exact ⟨c, hc, hcluster, hlistened, hjoins.mpr (by decide), hcomplete.mpr (by decide)⟩

end ETCD

end Jepsen
