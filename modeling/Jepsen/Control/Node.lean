import Jepsen.Library.Tree
import Jepsen.Utils.Base64

/-!
# A node and its remote

A node is a tree of files and the programs that `ControlHelper` runs on it.  A command is taken as
the program and the words that the source puts after it; a line in which a name of an archive stands
is cut at its blanks, as a shell cuts it.  What else a shell does with a line, and who runs it, is
left out.  What a download brings, and what the two archive programs unpack, is up to the node.
-/

namespace Jepsen

open Library

abbrev Path := List Bytes

abbrev FileSystem (β : Type) := Option (Tree Bytes β)

def slash : UInt8 := 47

def blank : UInt8 := 32

/-- One component of a path.  Links are not followed. -/
def walk (p : Path) (name : Bytes) : Path :=
  if name = [] ∨ name = ascii "." then p
  else if name = ascii ".." then p.dropLast
  else p ++ [name]

/-- The path that a file name stands for in the directory `cwd`. -/
def resolve (cwd : Path) (file : Bytes) : Path :=
  (file.splitOn slash).foldl walk (if file.head? = some slash then [] else cwd)

inductive Command where
  | stat (file : Bytes)
  | mkdir (dir : Bytes)
  | rm (file : Bytes)
  | mv (operands : List Bytes)
  | ls (dir : Bytes)
  | wget (file url : Bytes)
  | tar (file dir : Bytes)
  | unzip (file : Bytes)

structure Reply where
  exitcode : Int
  out : Bytes := []

/-- How a `wget -O` ends.  One that fails may leave something in the file. -/
inductive Download (β : Type) where
  | succeeded
  | failed (left : Option β)

/-- `full` is what a server has at a URL.  The archive programs get the content of the archive and
the entries of the directory they unpack into. -/
structure Node (β : Type) where
  login : Path
  full : Bytes → β
  untar : β → List (Bytes × Tree Bytes β) → Option (List (Bytes × Tree Bytes β))
  unzip : β → List (Bytes × Tree Bytes β) → Option (List (Bytes × Tree Bytes β))

namespace Node

variable {β : Type}

def done (o : FileSystem β) : Reply × FileSystem β := ({ exitcode := 0 }, o)

def refused (o : FileSystem β) : Reply × FileSystem β := ({ exitcode := 1 }, o)

/-- Whether `mv` can put `t` in a place. -/
def fits (t : Tree Bytes β) : FileSystem β → Bool
  | none => true
  | some (.file _) => ¬Tree.IsDir (some t)
  | some (.dir es) => Tree.IsDir (some t) ∧ es.isEmpty

/-- Into `dest` where that is a directory, and else to its name. -/
def mv (source dest : Path) (needsDir : Bool) (o : FileSystem β) : Reply × FileSystem β :=
  let target := if Tree.IsDir (Tree.reach dest o) then dest ++ source.getLast?.toList else dest
  match Tree.reach source o with
  | none => refused o
  | some t =>
    if source <+: target ∨ ¬Tree.IsDir (Tree.reach target.dropLast o) ∨
        fits t (Tree.reach target o) = false ∨
        needsDir = true ∧ ¬Tree.IsDir (some t) ∧ ¬Tree.IsDir (Tree.reach dest o) then
      refused o
    else
      done (Tree.alter (fun _ ↦ some t) target (Tree.alter (fun _ ↦ none) source o))

/-- Several sources go into `dest`, which has to be a directory. -/
def mvInto (sources : List Path) (dest : Path) (o : FileSystem β) : Reply × FileSystem β :=
  if Tree.IsDir (Tree.reach dest o) then
    sources.foldl (fun before source ↦
      let after := mv source dest false before.2
      (if before.1.exitcode = 0 then after.1 else before.1, after.2)) (done o)
  else
    refused o

/-- What `mv` does depends on the number of its operands. -/
def mvOperands (login : Path) : List Bytes → FileSystem β → Reply × FileSystem β
  | [], o => refused o
  | [_], o => refused o
  | [source, dest], o =>
    mv (resolve login source) (resolve login dest) (dest.getLast? = some slash) o
  | source :: operands, o =>
    mvInto ((source :: operands.dropLast).map (resolve login))
      (resolve login (operands.getLastD [])) o

/-- A file can be written where its directory is there and has no directory of that name. -/
def store (file : Path) (content : β) (o : FileSystem β) : Option (FileSystem β) :=
  if Tree.IsDir (Tree.reach file.dropLast o) ∧ ¬Tree.IsDir (Tree.reach file o) then
    some (Tree.alter (fun _ ↦ some (.file content)) file o)
  else
    none

def unpack (program : β → List (Bytes × Tree Bytes β) → Option (List (Bytes × Tree Bytes β)))
    (file dir : Path) (o : FileSystem β) : Reply × FileSystem β :=
  match Tree.reach file o, Tree.reach dir o with
  | some (.file content), some (.dir es) =>
    match program content es with
    | some es => done (Tree.alter (fun _ ↦ some (.dir es)) dir o)
    | none => refused o
  | _, _ => refused o

def listing (es : List (Bytes × Tree Bytes β)) : Bytes := es.flatMap fun e ↦ e.1 ++ [10]

/-- What a command does on the node, when the download that it makes ends as `download` says. -/
def run (node : Node β) (download : Download β) : Command → FileSystem β → Reply × FileSystem β
  | .stat file, o => if (Tree.reach (resolve node.login file) o).isSome then done o else refused o
  | .mkdir dir, o => done (Tree.mkdir (resolve node.login dir) o)
  | .rm file, o =>
    if resolve node.login file = [] then refused o
    else done (Tree.alter (fun _ ↦ none) (resolve node.login file) o)
  | .mv operands, o => mvOperands node.login operands o
  | .ls dir, o =>
    match Tree.reach (resolve node.login dir) o with
    | some (.dir es) => ({ exitcode := 0, out := listing es }, o)
    | some (.file _) => ({ exitcode := 0, out := dir ++ [10] }, o)
    | none => refused o
  | .wget file url, o =>
    match download with
    | .succeeded => (store (resolve node.login file) (node.full url) o).elim (refused o) done
    | .failed left =>
      refused ((left.bind fun left ↦ store (resolve node.login file) left o).getD o)
  | .tar file dir, o =>
    unpack node.untar (resolve node.login file) (resolve node.login dir) o
  | .unzip file, o => unpack node.unzip (resolve node.login file) node.login o

end Node

/-- `SSHChannel::close`: whether a command that no signal ended was successful. -/
def SSHChannel.close (exitcode : Int) : Bool := exitcode = 0

namespace SSHRemote

variable {β : Type} (node : Node β) (download : Download β)

def execute (cmd : Command) (o : FileSystem β) : (Bool × Bytes) × FileSystem β :=
  let (reply, o) := node.run download cmd o
  ((SSHChannel.close reply.exitcode, reply.out), o)

/-- Every caller drops the status. -/
def sudoExecute (cmd : Command) (o : FileSystem β) : FileSystem β :=
  (execute node download cmd o).2

end SSHRemote

/-- Without a directory to move them into, several sources stay where they are. -/
theorem Node.mvOperands_refused {β : Type} {login : Path} {dest : Bytes} {o : FileSystem β}
    (h : ¬Tree.IsDir (Tree.reach (resolve login dest) o)) (w₁ w₂ : Bytes) (ws : List Bytes) :
    (mvOperands login (w₁ :: w₂ :: (ws ++ [dest])) o).2 = o := by
  have hlast : (w₂ :: (ws ++ [dest])).getLastD [] = dest := by
    rw [← List.cons_append, List.getLastD_concat]
  rw [mvOperands, mvInto, hlast, if_neg h]
  · rfl
  · simp
  · simp

/-! ## Words -/

/-- A byte that a shell takes as it is, also between double quotes. -/
def plainByte (c : UInt8) : Bool :=
  48 ≤ c && c ≤ 57 || 65 ≤ c && c ≤ 90 || 97 ≤ c && c ≤ 122 || (ascii "/._-+=:%,@").contains c

/-- A word that is one word of a line, and no option. -/
structure PlainWord (w : Bytes) : Prop where
  ne_nil : w ≠ []
  no_option : w.head? ≠ some 45
  plain : ∀ c ∈ w, plainByte c = true

theorem PlainWord.of_all {w : Bytes} (hne : w ≠ []) (hoption : w.head? ≠ some 45)
    (hplain : w.all plainByte = true) : PlainWord w :=
  ⟨hne, hoption, List.all_eq_true.mp hplain⟩

theorem PlainWord.append {w w' : Bytes} (h : PlainWord w) (h' : ∀ c ∈ w', plainByte c = true) :
    PlainWord (w ++ w') where
  ne_nil := List.append_ne_nil_of_left_ne_nil h.ne_nil _
  no_option := by
    rw [List.head?_append_of_ne_nil _ h.ne_nil]
    exact h.no_option
  plain c hc := (List.mem_append.mp hc).elim (h.plain c) (h' c)

theorem PlainWord.entry {dir name : Bytes} (hdir : PlainWord dir)
    (hname : ∀ c ∈ name, plainByte c = true) : PlainWord (dir ++ slash :: name) :=
  hdir.append (List.forall_mem_cons.mpr ⟨by decide, hname⟩)

theorem PlainWord.blank_notMem {w : Bytes} (h : PlainWord w) : blank ∉ w := by
  intro hw
  exact absurd (h.plain blank hw) (by decide)

/-- The words that a shell makes of the rest of a line. -/
def operandsOf (rest : Bytes) : List Bytes := (rest.splitOn blank).filter (· ≠ [])

theorem operandsOf_append (w rest : Bytes) :
    operandsOf (w ++ blank :: rest) = operandsOf w ++ operandsOf rest := by
  simp only [operandsOf, List.splitOn_eq_splitOnP]
  rw [List.splitOnP_append_cons _ _ (by simp), List.filter_append]

theorem operandsOf_word {w : Bytes} (hne : w ≠ []) (h : blank ∉ w) : operandsOf w = [w] := by
  have hsplit : w.splitOn blank = [w] := by
    rw [List.splitOn_eq_splitOnP]
    refine List.splitOnP_eq_singleton fun c hc ↦ ?_
    exact beq_eq_false_iff_ne.mpr fun hcb ↦ h (hcb ▸ hc)
  rw [operandsOf, hsplit]
  simp [hne]

-- What is not blank is in some word.
theorem operandsOf_ne_nil {rest : Bytes} {c : UInt8} (hc : c ∈ rest) (hne : c ≠ blank) :
    operandsOf rest ≠ [] := by
  suffices ∃ w ∈ rest.splitOn blank, w ≠ [] by
    obtain ⟨w, hw, hwne⟩ := this
    exact List.ne_nil_of_mem (List.mem_filter.mpr ⟨hw, by simpa using hwne⟩)
  rw [List.splitOn_eq_splitOnP]
  induction rest with
  | nil => exact absurd hc (by simp)
  | cons y rest ih =>
    rw [List.splitOnP_cons_eq_if_modifyHead]
    split
    · next hy =>
      rcases List.mem_cons.mp hc with rfl | hc
      · exact absurd (by simpa using hy) hne
      · obtain ⟨w, hw, hwne⟩ := ih hc
        exact ⟨w, List.mem_cons_of_mem _ hw, hwne⟩
    · obtain ⟨w, ws, hws⟩ := List.exists_cons_of_ne_nil (List.splitOnP_ne_nil (· == blank) rest)
      rw [hws]
      exact ⟨y :: w, by simp, by simp⟩

/-! ## Paths -/

/-- A name that stands for an entry of a directory. -/
structure ProperName (name : Bytes) : Prop where
  ne_nil : name ≠ []
  ne_dot : name ≠ ascii "."
  ne_dots : name ≠ ascii ".."
  no_slash : slash ∉ name

theorem ProperName.walk {name : Bytes} (h : ProperName name) (p : Path) :
    walk p name = p ++ [name] := by
  rw [Jepsen.walk, if_neg (by simp [h.ne_nil, h.ne_dot]), if_neg h.ne_dots]

theorem resolve_append (cwd : Path) {dir : Bytes} (hdir : dir ≠ []) (name : Bytes) :
    resolve cwd (dir ++ slash :: name) = (name.splitOn slash).foldl walk (resolve cwd dir) := by
  obtain ⟨c, dir, rfl⟩ := List.exists_cons_of_ne_nil hdir
  simp only [resolve, List.splitOn_eq_splitOnP]
  rw [List.splitOnP_append_cons _ _ (by simp), List.foldl_append]
  rfl

theorem splitOn_slash {name : Bytes} (h : slash ∉ name) : name.splitOn slash = [name] := by
  rw [List.splitOn_eq_splitOnP]
  refine List.splitOnP_eq_singleton fun c hc ↦ ?_
  exact beq_eq_false_iff_ne.mpr fun hcs ↦ h (hcs ▸ hc)

theorem resolve_name (cwd : Path) {dir name : Bytes} (hdir : dir ≠ []) (h : ProperName name) :
    resolve cwd (dir ++ slash :: name) = resolve cwd dir ++ [name] := by
  rw [resolve_append cwd hdir, splitOn_slash h.no_slash, List.foldl_cons, List.foldl_nil, h.walk]

-- A slash at the end changes nothing.
theorem resolve_slash (cwd : Path) {dir : Bytes} (hdir : dir ≠ []) :
    resolve cwd (dir ++ [slash]) = resolve cwd dir := by
  rw [resolve_append cwd hdir]
  rfl

end Jepsen
