import Jepsen.Control.Archive
import Jepsen.Control.Serve

/-!
# The helpers over SSH

`ControlHelper` as it runs over a connection: it writes command lines, and reads what comes back.
Where the shell of the host understands the lines, the helpers do what they do on the node itself.
-/

namespace Jepsen

open Library Library.Eval

namespace Ssh

variable {σ β : Type}

/-! ## Command lines -/

/-- The line that the helpers write for a command. -/
def line : Command → Bytes
  | .stat file => ascii "stat " ++ file
  | .mkdir dir => ascii "mkdir -p " ++ dir
  | .rm file => ascii "rm -rf " ++ file
  | .mv operands => [blank].intercalate (ascii "mv" :: operands)
  | .ls dir => ascii "ls -A " ++ dir
  | .wget file url => ascii "wget " ++ (ascii "-O " ++ file) ++ ascii " " ++ url
  | .tar file dir => ascii "tar --no-same-owner --no-same-permissions --extract --file " ++ file ++
      ascii " -C " ++ dir
  | .unzip file => ascii "unzip " ++ file

def words : Command → List Bytes
  | .stat file => [file]
  | .mkdir dir => [dir]
  | .rm file => [file]
  | .mv operands => operands
  | .ls dir => [dir]
  | .wget file url => [file, url]
  | .tar file dir => [file, dir]
  | .unzip file => [file]

/-- A process that does what the command does.  The helpers read what `ls` writes, and no other. -/
structure Does (cmd : Command) (e : Exit × FileSystem β) (r : Reply × FileSystem β) : Prop where
  succeeded : e.1.succeeded = Jepsen.SSHChannel.close r.1.exitcode
  out : ∀ dir, cmd = .ls dir → e.1.out = r.1.out
  files : e.2 = r.2

/-- A shell runs the commands of plain words, and `sudo` has them run all the same. -/
structure Understands (shell : Bytes → FileSystem β → Exit × FileSystem β) (node : Node β)
    (download : Download β) (password : Bytes) : Prop where
  execute (cmd : Command) (hplain : ∀ w ∈ words cmd, PlainWord w) (o : FileSystem β) :
    Does cmd (shell (line cmd) o) (node.run download cmd o)
  sudoExecute (cmd : Command) (hplain : ∀ w ∈ words cmd, PlainWord w) (o : FileSystem β) :
    Does cmd (shell (SSHRemote.sudoLine password (line cmd)) o) (node.run download cmd o)

/-! ## The helpers -/

namespace ControlHelper

open Jepsen.ControlHelper (Build kTempDir kWgetCacheDir tmpName zipUrl sourceOf newline)

variable (lib : Libssh2 σ) (fuel : Nat) (spec : ConnSpec)

/-- Drops what comes back. -/
def sudoExecute (cmd : Bytes) : Act σ Unit := do
  let _ ← SSHRemote.sudoExecute lib fuel spec cmd
  return ()

/-- `exists`. -/
def fileExists (filename : Bytes) : Act σ Bool := do
  let (ok, _) ← SSHRemote.execute lib fuel spec (ascii "stat " ++ filename)
  return ok

/-- "Clearing caced copy of" -/
def clear (dest_file : Bytes) (force : Bool) : Act σ Unit :=
  if force then sudoExecute lib fuel spec (ascii "rm -rf " ++ dest_file) else return ()

def destFile (build : Build) (url : Bytes) : Act σ Bytes :=
  match Jepsen.ControlHelper.destFile build url with
  | .error e => throw (.thrown e)
  | .ok dest_file => return dest_file

def cachedWget (build : Build) (url : Bytes) (force : Bool) : Act σ Bytes := do
  let dest_file ← destFile build url
  let wget_opts := ascii "-O " ++ dest_file
  clear lib fuel spec dest_file force
  if !(← fileExists lib fuel spec dest_file) then
    sudoExecute lib fuel spec (ascii "mkdir -p " ++ kWgetCacheDir)
    sudoExecute lib fuel spec (ascii "wget " ++ wget_opts ++ ascii " " ++ url)
    return dest_file
  else
    return dest_file

def tmpDir : List Nat → Act σ Bytes
  | [] => throw .waiting
  | r :: draws => do
    if ← fileExists lib fuel spec (tmpName r) then
      tmpDir draws
    else
      sudoExecute lib fuel spec (ascii "mkdir -p " ++ tmpName r)
      return tmpName r

def unpack (url file tmp_dir : Bytes) : Act σ Unit :=
  if zipUrl url then
    sudoExecute lib fuel spec (ascii "unzip " ++ file)
  else
    sudoExecute lib fuel spec
      (ascii "tar --no-same-owner --no-same-permissions --extract --file " ++ file ++
        ascii " -C " ++ tmp_dir)

def installArchive (build : Build) (draws : List Nat) (url dest : Bytes) (force : Bool) :
    Act σ Bool := do
  let file ← cachedWget lib fuel spec build url force
  let tmp_dir ← tmpDir lib fuel spec draws
  unpack lib fuel spec url file tmp_dir
  let (_, out, _) ← SSHRemote.execute lib fuel spec (ascii "ls -A " ++ tmp_dir)
  let tmp := sourceOf tmp_dir (out.splitOn newline)
  sudoExecute lib fuel spec (ascii "mv " ++ tmp ++ ascii " " ++ dest)
  sudoExecute lib fuel spec (ascii "rm -rf " ++ tmp_dir)
  return true

end ControlHelper

/-! ## Plain words -/

theorem plainByte_alphabet : ∀ d < 64, plainByte (Base64Coder.alphabet d) = true := by decide

theorem plainByte_digit : ∀ n < 10, plainByte (48 + n.toUInt8) = true := by decide

theorem plain_rfc4648 (url : Bytes) : ∀ c ∈ Base64Coder.rfc4648 url, plainByte c = true := by
  intro c hc
  rcases Jepsen.ControlHelper.mem_rfc4648 hc with rfl | ⟨d, hd, rfl⟩
  · decide
  · exact plainByte_alphabet d (Base64Coder.sextets_lt url d hd)

theorem toNat_of_mem_toDigits {r : Nat} {d : Char} (h : d ∈ Nat.toDigits 10 r) :
    48 ≤ d.toNat ∧ d.toNat ≤ 57 := by
  have hdigit := Nat.isDigit_of_mem_toDigits (by decide) (by decide) h
  simp only [Char.isDigit, Bool.and_eq_true, decide_eq_true_eq, UInt32.le_iff_toNat_le] at hdigit
  exact hdigit

theorem digit_of_mem_toString {r : Nat} {c : UInt8} (hc : c ∈ ascii (toString r)) :
    ∃ n < 10, c = 48 + n.toUInt8 := by
  obtain ⟨d, hd, rfl⟩ := List.mem_map.mp hc
  have hmem : d ∈ Nat.toDigits 10 r := by
    rw [← Nat.toList_repr]
    exact hd
  have hdigit := toNat_of_mem_toDigits hmem
  obtain ⟨n, hn⟩ := Nat.exists_eq_add_of_le hdigit.1
  refine ⟨n, by omega, ?_⟩
  rw [hn]
  exact UInt8.ofNat_add 48 n

theorem plain_toString (r : Nat) : ∀ c ∈ ascii (toString r), plainByte c = true := by
  intro c hc
  obtain ⟨n, hn, rfl⟩ := digit_of_mem_toString hc
  exact plainByte_digit n hn

theorem plainWord_kWgetCacheDir : PlainWord Jepsen.ControlHelper.kWgetCacheDir :=
  .of_all (by decide) (by decide) (by decide)

theorem plainWord_destFile {build : Jepsen.ControlHelper.Build} {url file : Bytes}
    (h : Jepsen.ControlHelper.destFile build url = .ok file) : PlainWord file := by
  rw [Jepsen.ControlHelper.eq_of_destFile h]
  exact plainWord_kWgetCacheDir.entry (plain_rfc4648 url)

theorem plainWord_tmpName (r : Nat) : PlainWord (Jepsen.ControlHelper.tmpName r) := by
  have hdir : PlainWord Jepsen.ControlHelper.kTempDir :=
    .of_all (by decide) (by decide) (by decide)
  exact hdir.entry (plain_toString r)

theorem plainWord_tmpDir {node : Node β} {download : Download β} {draws : List Nat} {dir : Bytes}
    {o o' : FileSystem β}
    (h : Jepsen.ControlHelper.tmpDir node download draws o = some (dir, o')) : PlainWord dir := by
  induction draws with
  | nil => exact absurd h (by simp [Jepsen.ControlHelper.tmpDir])
  | cons r draws ih =>
    rw [Jepsen.ControlHelper.tmpDir] at h
    split at h
    · exact ih h
    · rw [← (Prod.mk.inj (Option.some.inj h)).1]
      exact plainWord_tmpName r

theorem plainWords_one {w : Bytes} (h : PlainWord w) : ∀ w' ∈ [w], PlainWord w' :=
  List.forall_mem_singleton.mpr h

theorem plainWords_pair {w w' : Bytes} (h : PlainWord w) (h' : PlainWord w') :
    ∀ w'' ∈ [w, w'], PlainWord w'' :=
  List.forall_mem_cons.mpr ⟨h, plainWords_one h'⟩

theorem line_mv (source dest : Bytes) :
    line (.mv [source, dest]) = ascii "mv " ++ source ++ ascii " " ++ dest := by
  simp [line, List.intercalate, ascii, blank]

/-! ## On the node, and over SSH -/

/-- A remote of a node: libssh2 keeps its promises, and the shell of the host knows the commands. -/
structure Reaches (lib : Libssh2 σ) (shell : Bytes → FileSystem β → Exit × FileSystem β)
    (At : Nat → Phase → FileSystem β → σ → Prop) (patience : σ → Nat) (node : Node β)
    (download : Download β) (spec : ConnSpec) (sock : Int) : Prop where
  carries : Carries lib shell At patience
  understands : Understands shell node download spec.password
  sock : sock ≠ kSocketInit

/-- The files after the archive is unpacked. -/
def unpacked (node : Node β) (download : Download β) (url file dir : Bytes) (o : FileSystem β) :
    FileSystem β :=
  if Jepsen.ControlHelper.zipUrl url then Jepsen.SSHRemote.sudoExecute node download (.unzip file) o
  else Jepsen.SSHRemote.sudoExecute node download (.tar file dir) o

namespace Reaches

variable {lib : Libssh2 σ} {shell : Bytes → FileSystem β → Exit × FileSystem β}
  {At : Nat → Phase → FileSystem β → σ → Prop} {patience : σ → Nat} {node : Node β}
  {download : Download β} {spec : ConnSpec} {sock : Int} {session : Nat} {o : FileSystem β}

theorem execute (h : Reaches lib shell At patience node download spec sock) (cmd : Command)
    (hplain : ∀ w ∈ words cmd, PlainWord w) :
    Total (Connected sock session (At session .ready o))
      (fun n ↦ SSHRemote.execute lib n spec (line cmd)) fun r ↦
        Connected sock session fun s ↦
          (r.1 = (Jepsen.SSHRemote.execute node download cmd o).1.1 ∧
            ∀ dir, cmd = .ls dir → r.2.1 = (Jepsen.SSHRemote.execute node download cmd o).1.2) ∧
          At session .ready (Jepsen.SSHRemote.execute node download cmd o).2 s := by
  have hdoes := h.understands.execute cmd hplain o
  refine (total_execute h.carries h.sock spec (line cmd) [] []).mono fun r c hc ↦
    ⟨hc.sock, hc.session, ?_⟩
  obtain ⟨rfl, hat⟩ := hc.world
  rw [hdoes.files] at hat
  exact ⟨⟨hdoes.succeeded, hdoes.out⟩, hat⟩

theorem sudoExecute (h : Reaches lib shell At patience node download spec sock) (cmd : Command)
    (hplain : ∀ w ∈ words cmd, PlainWord w) :
    Total (Connected sock session (At session .ready o))
      (fun n ↦ ControlHelper.sudoExecute lib n spec (line cmd)) fun _ ↦
        Connected sock session
          (At session .ready (Jepsen.SSHRemote.sudoExecute node download cmd o)) := by
  have hdoes := h.understands.sudoExecute cmd hplain o
  refine (total_execute h.carries h.sock spec _ [] []).bind fun _ ↦ .pure fun c hc ↦
    ⟨hc.sock, hc.session, ?_⟩
  have hat := hc.world.2
  rw [hdoes.files] at hat
  exact hat

theorem fileExists (h : Reaches lib shell At patience node download spec sock) {file : Bytes}
    (hfile : PlainWord file) :
    Total (Connected sock session (At session .ready o))
      (fun n ↦ ControlHelper.fileExists lib n spec file) fun r ↦
        Connected sock session fun s ↦
          r = Jepsen.ControlHelper.fileExists node download file o ∧ At session .ready o s := by
  have hstat : (Jepsen.SSHRemote.execute node download (.stat file) o).2 = o := by
    simp only [Jepsen.SSHRemote.execute, Node.run]
    split <;> rfl
  refine (h.execute (.stat file) (plainWords_one hfile)).bind fun r ↦
    .pure fun c hc ↦ ⟨hc.sock, hc.session, hc.world.1.1, ?_⟩
  rw [← hstat]
  exact hc.world.2

theorem clear (h : Reaches lib shell At patience node download spec sock) {file : Bytes}
    (hfile : PlainWord file) (force : Bool) :
    Total (Connected sock session (At session .ready o))
      (fun n ↦ ControlHelper.clear lib n spec file force) fun _ ↦
        Connected sock session
          (At session .ready (Jepsen.ControlHelper.cleared node download file force o)) := by
  cases force with
  | true => exact h.sudoExecute (.rm file) (plainWords_one hfile)
  | false => exact .pure fun _ hc ↦ hc

theorem cachedWget (h : Reaches lib shell At patience node download spec sock)
    {build : Jepsen.ControlHelper.Build} {url file : Bytes} {force : Bool} {o' : FileSystem β}
    (hurl : PlainWord url)
    (hget : Jepsen.ControlHelper.cachedWget build node download url force o = .ok (file, o')) :
    Total (Connected sock session (At session .ready o))
      (fun n ↦ ControlHelper.cachedWget lib n spec build url force) fun r ↦
        Connected sock session fun s ↦ r = file ∧ At session .ready o' s := by
  have hdest := Jepsen.ControlHelper.destFile_of_cachedWget hget
  have hfile := plainWord_destFile hdest
  rw [Jepsen.ControlHelper.cachedWget, hdest] at hget
  have hlocal : (fun n ↦ ControlHelper.cachedWget lib n spec build url force) = fun n ↦ do
      ControlHelper.clear lib n spec file force
      if !(← ControlHelper.fileExists lib n spec file) then
        ControlHelper.sudoExecute lib n spec (line (.mkdir Jepsen.ControlHelper.kWgetCacheDir))
        ControlHelper.sudoExecute lib n spec (line (.wget file url))
        return file
      else
        return file := by
    funext n
    simp only [ControlHelper.cachedWget, ControlHelper.destFile, hdest, pure_bind]
    rfl
  rw [hlocal]
  apply (h.clear hfile force).bind
  intro _
  apply (h.fileExists hfile).bind
  intro ok
  apply total_of_and
  rintro rfl
  simp only [bind, Except.bind] at hget
  split at hget
  · rename_i hex
    obtain ⟨-, rfl⟩ := Prod.mk.inj (Except.ok.inj hget)
    simp only [hex, if_true]
    apply (h.sudoExecute (.mkdir Jepsen.ControlHelper.kWgetCacheDir)
      (plainWords_one plainWord_kWgetCacheDir)).bind
    intro _
    apply (h.sudoExecute (.wget file url) (plainWords_pair hfile hurl)).bind
    intro _
    exact .pure fun c hc ↦ ⟨hc.sock, hc.session, rfl, hc.world⟩
  · rename_i hex
    obtain ⟨-, rfl⟩ := Prod.mk.inj (Except.ok.inj hget)
    simp only [hex]
    exact .pure fun c hc ↦ ⟨hc.sock, hc.session, rfl, hc.world⟩

theorem tmpDir (h : Reaches lib shell At patience node download spec sock) {draws : List Nat}
    {dir : Bytes} {o' : FileSystem β}
    (hdir : Jepsen.ControlHelper.tmpDir node download draws o = some (dir, o')) :
    Total (Connected sock session (At session .ready o))
      (fun n ↦ ControlHelper.tmpDir lib n spec draws) fun r ↦
        Connected sock session fun s ↦ r = dir ∧ At session .ready o' s := by
  induction draws with
  | nil => exact absurd hdir (by simp [Jepsen.ControlHelper.tmpDir])
  | cons r draws ih =>
    have hname := plainWord_tmpName r
    rw [Jepsen.ControlHelper.tmpDir] at hdir
    apply (h.fileExists hname).bind
    intro ok
    apply total_of_and
    rintro rfl
    split at hdir
    · rename_i hex
      simp only [hex, if_true]
      exact ih hdir
    · rename_i hex
      obtain ⟨rfl, rfl⟩ := Prod.mk.inj (Option.some.inj hdir)
      simp only [hex]
      apply (h.sudoExecute (.mkdir (Jepsen.ControlHelper.tmpName r))
        (plainWords_one hname)).bind
      intro _
      exact .pure fun c hc ↦ ⟨hc.sock, hc.session, rfl, hc.world⟩

theorem unpack (h : Reaches lib shell At patience node download spec sock) {url file dir : Bytes}
    (hfile : PlainWord file) (hdir : PlainWord dir) :
    Total (Connected sock session (At session .ready o))
      (fun n ↦ ControlHelper.unpack lib n spec url file dir) fun _ ↦
        Connected sock session (At session .ready (unpacked node download url file dir o)) := by
  unfold ControlHelper.unpack unpacked
  split
  · exact h.sudoExecute (.unzip file) (plainWords_one hfile)
  · exact h.sudoExecute (.tar file dir) (plainWords_pair hfile hdir)

theorem mv (h : Reaches lib shell At patience node download spec sock) {source dest : Bytes}
    (hsource : PlainWord source) (hdest : PlainWord dest) :
    Total (Connected sock session (At session .ready o))
      (fun n ↦ ControlHelper.sudoExecute lib n spec
        (ascii "mv " ++ source ++ ascii " " ++ dest)) fun _ ↦
        Connected sock session (At session .ready (Jepsen.SSHRemote.sudoExecute node download
          (.mv (operandsOf (source ++ blank :: dest))) o)) := by
  rw [Jepsen.ControlHelper.operandsOf_pair hsource.ne_nil hsource.blank_notMem hdest, ← line_mv]
  exact h.sudoExecute (.mv [source, dest]) (plainWords_pair hsource hdest)

/-- What is moved from the temporary directory has a plain name. -/
def PlainContents (build : Jepsen.ControlHelper.Build) (node : Node β) (download : Download β)
    (draws : List Nat) (url : Bytes) (force : Bool) (o : FileSystem β) : Prop :=
  ∀ file o₁ dir o₂,
    Jepsen.ControlHelper.cachedWget build node download url force o = .ok (file, o₁) →
    Jepsen.ControlHelper.tmpDir node download draws o₁ = some (dir, o₂) →
    PlainWord (Jepsen.ControlHelper.sourceOf dir ((Jepsen.SSHRemote.execute node download (.ls dir)
      (unpacked node download url file dir o₂)).1.2.splitOn Jepsen.ControlHelper.newline))

theorem installArchive (h : Reaches lib shell At patience node download spec sock)
    {build : Jepsen.ControlHelper.Build} {draws : List Nat} {url dest : Bytes} {force b : Bool}
    {o' : FileSystem β} (hurl : PlainWord url) (hdest : PlainWord dest)
    (hcontents : PlainContents build node download draws url force o)
    (hnode : Jepsen.ControlHelper.installArchive build node download draws url dest force o =
      .ok (some (b, o'))) :
    Total (Connected sock session (At session .ready o))
      (fun n ↦ ControlHelper.installArchive lib n spec build draws url dest force) fun r ↦
        Connected sock session fun s ↦ r = b ∧ At session .ready o' s := by
  rw [Jepsen.ControlHelper.installArchive] at hnode
  cases hget : Jepsen.ControlHelper.cachedWget build node download url force o with
  | error e =>
    rw [hget] at hnode
    exact absurd hnode (by simp [bind, Except.bind])
  | ok p =>
    obtain ⟨file, o₁⟩ := p
    rw [hget] at hnode
    simp only [bind, Except.bind] at hnode
    cases hdir : Jepsen.ControlHelper.tmpDir node download draws o₁ with
    | none =>
      rw [hdir] at hnode
      exact absurd hnode (by simp [pure, Except.pure])
    | some p =>
      obtain ⟨dir, o₂⟩ := p
      rw [hdir] at hnode
      obtain ⟨hb, ho⟩ := Prod.mk.inj (Option.some.inj (Except.ok.inj hnode))
      have hfile := plainWord_destFile (Jepsen.ControlHelper.destFile_of_cachedWget hget)
      have htmp := plainWord_tmpDir hdir
      have hsource := hcontents file o₁ dir o₂ hget hdir
      apply (h.cachedWget hurl hget).bind
      intro file'
      apply total_of_and
      rintro rfl
      apply (h.tmpDir hdir).bind
      intro dir'
      apply total_of_and
      rintro rfl
      apply (h.unpack hfile htmp).bind
      intro _
      apply (h.execute (.ls dir') (plainWords_one htmp)).bind
      rintro ⟨ok, out, err⟩
      apply total_of_and
      rintro ⟨-, hout⟩
      obtain rfl := hout dir' rfl
      apply (h.mv hsource hdest).bind
      intro _
      apply (h.sudoExecute (.rm dir') (plainWords_one htmp)).bind
      intro _
      exact .pure fun c hc ↦ ⟨hc.sock, hc.session, hb, ho ▸ hc.world⟩

end Reaches

/-- The pieces of a line between its blanks. -/
def pieces : Command → List Bytes
  | .stat file => [ascii "stat", file]
  | .mkdir dir => [ascii "mkdir", ascii "-p", dir]
  | .rm file => [ascii "rm", ascii "-rf", file]
  | .mv operands => ascii "mv" :: operands
  | .ls dir => [ascii "ls", ascii "-A", dir]
  | .wget file url => [ascii "wget", ascii "-O", file, url]
  | .tar file dir => [ascii "tar", ascii "--no-same-owner", ascii "--no-same-permissions",
      ascii "--extract", ascii "--file", file, ascii "-C", dir]
  | .unzip file => [ascii "unzip", file]

/-- The command that a line of these pieces calls. -/
def parse : List Bytes → Option Command
  | [] => none
  | program :: operands =>
    if program = ascii "mv" then some (.mv operands)
    else match operands with
    | [w] =>
      if program = ascii "stat" then some (.stat w)
      else if program = ascii "unzip" then some (.unzip w)
      else none
    | [option, w] =>
      if program = ascii "mkdir" ∧ option = ascii "-p" then some (.mkdir w)
      else if program = ascii "rm" ∧ option = ascii "-rf" then some (.rm w)
      else if program = ascii "ls" ∧ option = ascii "-A" then some (.ls w)
      else none
    | [option, file, url] =>
      if program = ascii "wget" ∧ option = ascii "-O" then some (.wget file url) else none
    | [owner, permissions, extract, option, file, change, dir] =>
      if program = ascii "tar" ∧ owner = ascii "--no-same-owner" ∧
          permissions = ascii "--no-same-permissions" ∧ extract = ascii "--extract" ∧
          option = ascii "--file" ∧ change = ascii "-C" then some (.tar file dir)
      else none
    | _ => none

/-- What comes before the line that `sudoExecute` was given. -/
def sudoStart (password : Bytes) : Bytes :=
  ascii "echo " ++ password ++ ascii " | sudo bash -c \""

/-- Without the call of `sudo`. -/
def unsudo (password cmd : Bytes) : Bytes :=
  if (sudoStart password).isPrefixOf cmd then (cmd.drop (sudoStart password).length).dropLast
  else cmd

/-- It knows the commands of the helpers, and no others. -/
def nodeShell (node : Node β) (download : Download β) (password cmd : Bytes) (o : FileSystem β) :
    Exit × FileSystem β :=
  match parse ((unsudo password cmd).splitOn blank) with
  | some cmd =>
    (⟨(node.run download cmd o).1.exitcode, none, (node.run download cmd o).1.out, []⟩,
      (node.run download cmd o).2)
  | none => (⟨127, none, [], []⟩, o)

theorem line_eq (cmd : Command) : line cmd = [blank].intercalate (pieces cmd) := by
  cases cmd <;> simp [line, pieces, List.intercalate, ascii, blank]

theorem blank_notMem_pieces {cmd : Command} (h : ∀ w ∈ words cmd, PlainWord w) :
    ∀ w ∈ pieces cmd, blank ∉ w := by
  have hwords : ∀ w ∈ words cmd, blank ∉ w := fun w hw ↦ (h w hw).blank_notMem
  cases cmd with
  | mv operands => exact List.forall_mem_cons.mpr ⟨by decide, hwords⟩
  | _ =>
    simp only [words, pieces, List.forall_mem_cons] at hwords ⊢
    simp only [hwords]
    decide

/-- A line is read back as its command. -/
theorem parse_line {cmd : Command} (h : ∀ w ∈ words cmd, PlainWord w) :
    parse ((line cmd).splitOn blank) = some cmd := by
  have hne : pieces cmd ≠ [] := by cases cmd <;> simp [pieces]
  rw [line_eq, List.splitOn_intercalate blank (blank_notMem_pieces h) hne]
  cases cmd <;> rfl

theorem unsudo_line (password : Bytes) (cmd : Command) : unsudo password (line cmd) = line cmd := by
  refine if_neg ?_
  cases cmd <;> simp [sudoStart, line, ascii]

theorem unsudo_sudoLine (password cmd : Bytes) :
    unsudo password (SSHRemote.sudoLine password cmd) = cmd := by
  have hline : SSHRemote.sudoLine password cmd = sudoStart password ++ (cmd ++ ascii "\"") := by
    simp [SSHRemote.sudoLine, sudoStart]
  have hquote : ascii "\"" = [34] := by decide
  rw [hline, unsudo, if_pos (by simp), List.drop_left, hquote, List.dropLast_concat]

theorem nodeShell_of_parse {node : Node β} {download : Download β} {password l : Bytes}
    {cmd : Command} (h : parse ((unsudo password l).splitOn blank) = some cmd) (o : FileSystem β) :
    Does cmd (nodeShell node download password l o) (node.run download cmd o) := by
  simp only [nodeShell, h]
  exact ⟨by simp [Exit.succeeded, Jepsen.SSHChannel.close], fun _ _ ↦ rfl, rfl⟩

theorem understands_nodeShell (node : Node β) (download : Download β) (password : Bytes) :
    Understands (nodeShell node download password) node download password where
  execute cmd hplain := nodeShell_of_parse (by rw [unsudo_line]; exact parse_line hplain)
  sudoExecute cmd hplain := nodeShell_of_parse (by rw [unsudo_sudoLine]; exact parse_line hplain)

theorem reaches_node (node : Node β) (download : Download β) (spec : ConnSpec) :
    Reaches (Simulated.libssh2 (nodeShell node download spec.password))
      (nodeShell node download spec.password) Simulated.At Simulated.patience node download spec
      3 :=
  ⟨Simulated.carries _, understands_nodeShell node download spec.password, by decide⟩

/-! ## A tar file that is installed -/

section

open Jepsen.ControlHelper (etcdFiles etcdNode kWgetCacheDir newline sourceOf tmpDir_eq tmpName
  tmpPath)

theorem plainContents_etcd : Reaches.PlainContents ⟨false, true⟩ etcdNode .succeeded [7]
    (ascii "http://n1/db.tar") false (etcdFiles (ascii "aHR0cDovL24xL2RiLnRhcg==")) := by
  intro file o₁ dir o₂ hget hdir
  have hcached : Jepsen.ControlHelper.cachedWget ⟨false, true⟩ etcdNode .succeeded
      (ascii "http://n1/db.tar") false (etcdFiles (ascii "aHR0cDovL24xL2RiLnRhcg==")) =
        .ok (kWgetCacheDir ++ ascii "/aHR0cDovL24xL2RiLnRhcg==",
          etcdFiles (ascii "aHR0cDovL24xL2RiLnRhcg==")) := rfl
  obtain ⟨rfl, rfl⟩ := Prod.mk.inj (Except.ok.inj (hcached.symm.trans hget))
  rw [show [7] = [] ++ 7 :: [] from rfl,
    tmpDir_eq etcdNode .succeeded [] (List.forall_mem_nil _) rfl] at hdir
  obtain ⟨rfl, rfl⟩ := Prod.mk.inj (Option.some.inj hdir)
  have hsource : sourceOf (tmpName 7) ((Jepsen.SSHRemote.execute etcdNode .succeeded
      (.ls (tmpName 7)) (unpacked etcdNode .succeeded (ascii "http://n1/db.tar")
        (kWgetCacheDir ++ ascii "/aHR0cDovL24xL2RiLnRhcg==") (tmpName 7) (Tree.mkdir (tmpPath 7)
          (etcdFiles (ascii "aHR0cDovL24xL2RiLnRhcg=="))))).1.2.splitOn newline) =
        ascii "/tmp/jepsen/7/etcd" := by
    decide +kernel
  rw [hsource]
  exact .of_all (by decide) (by decide) (by decide)

end

end Ssh

end Jepsen
