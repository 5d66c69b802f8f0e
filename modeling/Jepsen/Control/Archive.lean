import Jepsen.Control.Cache

/-!
# Installing an archive

`ControlHelper::installArchive` unpacks a cached archive in a fresh directory and moves what it
finds there.  The numbers that `rand` hands out are an argument.  `LOG4CPLUS_ASSERT` only writes to
the log, and is left out.
-/

namespace Jepsen

open Library

namespace ControlHelper

variable {β : Type}

def newline : UInt8 := 10

/-- The directory for a number, as `std::to_string` writes it. -/
def tmpName (r : Nat) : Bytes := kTempDir ++ ascii "/" ++ ascii (toString r)

/-- `none` while every directory that has come up is there already. -/
def tmpDir (node : Node β) (download : Download β) :
    List Nat → FileSystem β → Option (Bytes × FileSystem β)
  | [], _ => none
  | r :: draws, o =>
    if fileExists node download (tmpName r) o then tmpDir node download draws o
    else some (tmpName r, SSHRemote.sudoExecute node download (.mkdir (tmpName r)) o)

/-- `std::regex_match(url, std::regex(".*\\.zip$"))`, where the dot is no line end. -/
def zipUrl (url : Bytes) : Bool :=
  (ascii ".zip").isSuffixOf url && (url.take (url.length - 4)).all fun c ↦ c ≠ newline ∧ c ≠ 13

/-- What is moved, from the pieces of the listing: the only entry, or the directory. -/
def sourceOf (tmp_dir : Bytes) (result : List Bytes) : Bytes :=
  if result.length = 1 ∨ result.length = 2 ∧ result[1]? = some [] then
    tmp_dir ++ ascii "/" ++ result.headD []
  else tmp_dir

def installArchive (build : Build) (node : Node β) (download : Download β) (draws : List Nat)
    (url dest : Bytes) (force : Bool) (o : FileSystem β) :
    Except Failure (Option (Bool × FileSystem β)) := do
  let (file, o) ← cachedWget build node download url force o
  match tmpDir node download draws o with
  | none => return none
  | some (tmp_dir, o) =>
    let o := if zipUrl url then SSHRemote.sudoExecute node download (.unzip file) o
      else SSHRemote.sudoExecute node download (.tar file tmp_dir) o
    let ((_, out), o) := SSHRemote.execute node download (.ls tmp_dir) o
    let source := sourceOf tmp_dir (out.splitOn newline)
    let o := SSHRemote.sudoExecute node download (.mv (operandsOf (source ++ blank :: dest))) o
    let o := SSHRemote.sudoExecute node download (.rm tmp_dir) o
    return some (true, o)

/-! ## The archive and its place -/

/-- What an archive is installed as: its only top-level entry, or a directory of all of them. -/
def contentOf : List (Bytes × Tree Bytes β) → Tree Bytes β
  | [(_, t)] => t
  | es => .dir es

def tmpPath (r : Nat) : Path := [ascii "tmp", ascii "jepsen", ascii (toString r)]

/-- `dest` holds the archive, and the temporary directory is gone. -/
def Installed (es : List (Bytes × Tree Bytes β)) (tmp dest : Path) (o : FileSystem β) : Prop :=
  Tree.reach dest o = some (contentOf es) ∧ Tree.reach tmp o = none

-- A number is written in digits.
theorem digit_of_mem_ascii {r : Nat} {c : UInt8} (hc : c ∈ ascii (toString r)) :
    48 ≤ c.toNat ∧ c.toNat ≤ 57 := by
  obtain ⟨d, hd, rfl⟩ := List.mem_map.mp hc
  have hd' : d ∈ Nat.toDigits 10 r := by
    rw [← Nat.toList_repr]; exact hd
  have hdigit := Nat.isDigit_of_mem_toDigits (by decide) (by decide) hd'
  simp only [Char.isDigit, Bool.and_eq_true, decide_eq_true_eq, UInt32.le_iff_toNat_le] at hdigit
  change 48 ≤ d.toNat ∧ d.toNat ≤ 57 at hdigit
  rw [Nat.toUInt8_eq, UInt8.toNat_ofNat']
  omega

theorem properName_digits (r : Nat) : ProperName (ascii (toString r)) := by
  have hne : ascii (toString r) ≠ [] := by
    intro h
    have hnil : (toString r).toList = [] := List.map_eq_nil_iff.mp h
    exact Nat.toDigits_ne_nil (Nat.toList_repr.symm.trans hnil)
  have hdot : 46 ∉ ascii (toString r) := fun h ↦ absurd (digit_of_mem_ascii h) (by decide)
  refine ⟨hne, fun h ↦ ?_, fun h ↦ ?_, fun h ↦ ?_⟩
  · exact hdot (h ▸ by decide)
  · exact hdot (h ▸ by decide)
  · exact absurd (digit_of_mem_ascii h) (by decide)

theorem resolve_tmpName (cwd : Path) (r : Nat) : resolve cwd (tmpName r) = tmpPath r := by
  have hne : kTempDir ≠ [] := by decide
  have h := resolve_name cwd hne (properName_digits r)
  have hdir : resolve cwd kTempDir = [ascii "tmp", ascii "jepsen"] := by
    have hwalk : (kTempDir.splitOn slash).foldl walk [] = [ascii "tmp", ascii "jepsen"] := by decide
    exact hwalk
  rw [hdir] at h
  exact h

-- The numbers that come up until one is free.
theorem tmpDir_eq (node : Node β) (download : Download β) {taken : List Nat} {r : Nat}
    (draws : List Nat) {o : FileSystem β} (htaken : ∀ t ∈ taken, Tree.reach (tmpPath t) o ≠ none)
    (hr : Tree.reach (tmpPath r) o = none) :
    tmpDir node download (taken ++ r :: draws) o =
      some (tmpName r, Tree.mkdir (tmpPath r) o) := by
  have hexists : ∀ n, fileExists node download (tmpName n) o = (Tree.reach (tmpPath n) o).isSome :=
    fun n ↦ by rw [fileExists_eq, resolve_tmpName]
  -- The numbers that are taken are drawn and rejected one after the other.
  induction taken with
  | nil =>
    rw [List.nil_append, tmpDir, hexists, hr, if_neg (by simp), SSHRemote.sudoExecute_mkdir,
      resolve_tmpName]
  | cons t taken ih =>
    obtain ⟨ht, htaken⟩ := List.forall_mem_cons.mp htaken
    rw [List.cons_append, tmpDir, hexists, if_pos (Option.isSome_iff_ne_none.mpr ht)]
    exact ih htaken

/-! ## The listing -/

theorem splitOn_newline_cons {name : Bytes} (h : newline ∉ name) (rest : Bytes) :
    (name ++ newline :: rest).splitOn newline = name :: rest.splitOn newline := by
  simp only [List.splitOn_eq_splitOnP]
  refine List.splitOnP_append_cons_of_forall_mem (fun c hc ↦ ?_) newline (by simp) rest
  exact beq_eq_false_iff_ne.mpr fun hcn ↦ h (hcn ▸ hc)

/-- One piece for each entry, and an empty one at the end. -/
theorem splitOn_listing {es : List (Bytes × Tree Bytes β)} (h : ∀ e ∈ es, newline ∉ e.1) :
    (Node.listing es).splitOn newline = es.map Prod.fst ++ [[]] := by
  induction es with
  | nil => rfl
  | cons e es ih =>
    obtain ⟨he, hes⟩ := List.forall_mem_cons.mp h
    have hlist : Node.listing (e :: es) = e.1 ++ newline :: Node.listing es := by
      simp [Node.listing, newline]
    rw [hlist, splitOn_newline_cons he, ih hes]
    rfl

-- An empty listing splits into one empty piece, which is taken for the only entry.
theorem sourceOf_nil (dir : Bytes) : sourceOf dir [[]] = dir ++ [slash] := by
  simp [sourceOf]
  rfl

theorem sourceOf_one (dir name : Bytes) : sourceOf dir [name, []] = dir ++ slash :: name := by
  simp [sourceOf]
  rfl

-- With more than one entry, the directory itself is moved.
theorem sourceOf_many (dir : Bytes) (e₁ e₂ : Bytes × Tree Bytes β)
    (es : List (Bytes × Tree Bytes β)) :
    sourceOf dir ((e₁ :: e₂ :: es).map Prod.fst ++ [[]]) = dir := by
  simp [sourceOf]

theorem sourceOf_ne_nil (r : Nat) (result : List Bytes) : sourceOf (tmpName r) result ≠ [] := by
  have hne : tmpName r ≠ [] := by simp [tmpName, ascii]
  unfold sourceOf
  split
  · exact List.append_ne_nil_of_left_ne_nil (List.append_ne_nil_of_left_ne_nil hne _) _
  · exact hne

-- It is the content of the directory, wherever there is one entry, none, or several.
theorem reach_source (cwd : Path) (r : Nat) {es : List (Bytes × Tree Bytes β)}
    (hes : ∀ e ∈ es, ProperName e.1 ∧ newline ∉ e.1) {o : FileSystem β}
    (h : Tree.reach (tmpPath r) o = some (.dir es)) :
    let source := resolve cwd (sourceOf (tmpName r) ((Node.listing es).splitOn newline))
    tmpPath r <+: source ∧ Tree.reach source o = some (contentOf es) := by
  have hne : tmpName r ≠ [] := by simp [tmpName, ascii]
  rw [splitOn_listing fun e he ↦ (hes e he).2]
  match es, hes, h with
  | [], _, h =>
    simp only [List.map_nil, List.nil_append, sourceOf_nil, resolve_slash cwd hne, resolve_tmpName]
    exact ⟨List.prefix_refl _, h⟩
  | [(name, t)], hes, h =>
    simp only [List.map_cons, List.map_nil, List.cons_append, List.nil_append, sourceOf_one,
      resolve_name cwd hne (hes (name, t) (by simp)).1, resolve_tmpName]
    refine ⟨List.prefix_append _ _, ?_⟩
    rw [Tree.reach_append, h]
    simp [Tree.reach, Tree.child, Tree.entries, contentOf]
  | e₁ :: e₂ :: es, _, h =>
    simp only [sourceOf_many, resolve_tmpName]
    exact ⟨List.prefix_refl _, h⟩

/-! ## The line of the move -/

theorem blank_notMem_tmpName (r : Nat) : blank ∉ tmpName r := by
  have hdigits : blank ∉ ascii (toString r) := fun h ↦
    absurd (digit_of_mem_ascii h) (by decide)
  simp only [tmpName, List.mem_append, not_or]
  exact ⟨⟨by decide, by decide⟩, hdigits⟩

/-- Two words are the two operands. -/
theorem operandsOf_pair {source dest : Bytes} (hne : source ≠ []) (hsource : blank ∉ source)
    (hdest : PlainWord dest) : operandsOf (source ++ blank :: dest) = [source, dest] := by
  rw [operandsOf_append, operandsOf_word hne hsource,
    operandsOf_word hdest.ne_nil hdest.blank_notMem]
  rfl

/-- A name with a blank in it makes three of them, or more. -/
theorem operandsOf_blank {r : Nat} {name dest : Bytes} (hblank : blank ∈ name)
    (hlast : name.getLast? ≠ some blank) (hdest : PlainWord dest) :
    ∃ w₁ w₂ ws, operandsOf ((tmpName r ++ slash :: name) ++ blank :: dest) =
      w₁ :: w₂ :: (ws ++ [dest]) := by
  obtain ⟨a, b, rfl⟩ := List.append_of_mem hblank
  have hsplit : (tmpName r ++ slash :: (a ++ blank :: b)) ++ blank :: dest =
      (tmpName r ++ slash :: a) ++ blank :: (b ++ blank :: dest) := by
    simp
  have hfirst : operandsOf (tmpName r ++ slash :: a) ≠ [] :=
    operandsOf_ne_nil (c := slash) (by simp) (by decide)
  -- the name does not end in a blank, so that something stands behind the one it has
  have hb : b ≠ [] := by
    rintro rfl
    exact hlast List.getLast?_concat
  have hsecond : operandsOf b ≠ [] := by
    refine operandsOf_ne_nil (List.getLast_mem hb) fun h ↦ hlast ?_
    rw [List.getLast?_append_of_ne_nil _ (by simp), List.getLast?_cons_of_ne_nil hb,
      List.getLast?_eq_getLast_of_ne_nil hb, h]
  rw [hsplit, operandsOf_append, operandsOf_append, operandsOf_word hdest.ne_nil hdest.blank_notMem]
  obtain ⟨w₁, ws₁, h₁⟩ := List.exists_cons_of_ne_nil hfirst
  obtain ⟨w₂, ws₂, h₂⟩ := List.exists_cons_of_ne_nil hsecond
  rw [h₁, h₂]
  cases ws₁ with
  | nil => exact ⟨w₁, w₂, ws₂, rfl⟩
  | cons w ws₁ => exact ⟨w₁, w, ws₁ ++ w₂ :: ws₂, by simp⟩

theorem blank_notMem_sourceOf (r : Nat) {es : List (Bytes × Tree Bytes β)}
    (hes : ∀ e ∈ es, newline ∉ e.1) (h : ∀ e, es = [e] → blank ∉ e.1) :
    blank ∉ sourceOf (tmpName r) ((Node.listing es).splitOn newline) := by
  have htmp := blank_notMem_tmpName r
  have hslash : blank ≠ slash := by decide
  rw [splitOn_listing hes]
  match es, h with
  | [], _ =>
    rw [List.map_nil, List.nil_append, sourceOf_nil]
    simp [htmp, hslash]
  | [e], h =>
    rw [List.map_singleton, List.singleton_append, sourceOf_one]
    simp [htmp, hslash, h e rfl]
  | e₁ :: e₂ :: es, _ =>
    rw [sourceOf_many]
    exact htmp

section

variable {p q tmp dest source : Path} {o : FileSystem β} {t : Tree Bytes β}

-- Nothing is below what is not there, and nothing below a file.
theorem not_prefix_of_absent (hp : Tree.reach p o = none) (hq : Tree.reach q o ≠ none) :
    ¬p <+: q := by
  rintro ⟨s, rfl⟩
  rw [Tree.reach_append, hp, Tree.reach_none] at hq
  exact hq rfl

theorem not_prefix_of_file {content : β} (hp : Tree.reach p o = some (.file content))
    (hq : Tree.IsDir (Tree.reach q o)) : ¬p <+: q := by
  rintro ⟨s, rfl⟩
  rw [Tree.reach_append, hp] at hq
  cases s with
  | nil => exact Tree.not_isDir_file content hq
  | cons n s =>
    exact Tree.isDir_reach_ne_none hq (Tree.reach_none s)

theorem eq_concat_of_absent (hdest : Tree.reach dest o = none) (ho : Tree.reach q o ≠ none) :
    ∃ p n, dest = p ++ [n] := by
  have hne : dest ≠ [] := by
    rintro rfl
    exact not_prefix_of_absent hdest ho List.nil_prefix
  exact ⟨dest.dropLast, dest.getLast hne, (List.dropLast_concat_getLast hne).symm⟩

/-- A move to a place where nothing is: it needs the directory of the place, and a directory as
what is moved where the name ends in a slash. -/
theorem reach_mv {needsDir : Bool} (hsource : Tree.reach source o = some t)
    (hdest : Tree.reach dest o = none) :
    Tree.reach dest (Node.mv source dest needsDir o).2 =
      if ¬source <+: dest ∧ Tree.IsDir (Tree.reach dest.dropLast o) ∧
          (needsDir = true → Tree.IsDir (some t)) then some t else none := by
  have hfound : Tree.reach source o ≠ none := by simp [hsource]
  obtain ⟨p, n, rfl⟩ := eq_concat_of_absent hdest hfound
  simp only [Node.mv, hsource, hdest, Tree.not_isDir_none, if_false, List.dropLast_concat]
  split
  · next h =>
    rw [if_neg]
    · exact hdest
    · rintro ⟨hpre, hparent, hdir⟩
      rcases h with h | h | h | ⟨hneeds, h, -⟩
      · exact hpre h
      · exact h hparent
      · exact absurd h (by simp [Node.fits])
      · exact h (hdir hneeds)
  · next h =>
    simp only [not_or, not_not, not_and, not_false_eq_true] at h
    obtain ⟨hpre, hparent, -, hdir⟩ := h
    rw [if_pos ⟨hpre, hparent, fun hneeds ↦ by
      by_contra hfile
      exact hdir hneeds hfile trivial⟩]
    have hpre' : ¬source <+: p := fun h ↦ hpre (h.trans (List.prefix_append p [n]))
    exact Tree.reach_alter ((Tree.isDir_reach_alter hpre').mpr hparent)

/-- The move out of the temporary directory, and the removal of the directory. -/
theorem installed_iff {es : List (Bytes × Tree Bytes β)} {needsDir : Bool}
    (htmp : tmp <+: source) (hsource : Tree.reach source o = some t)
    (hdest : ¬tmp <+: dest → Tree.reach dest o = none) :
    Installed es tmp dest (Tree.alter (fun _ ↦ none) tmp (Node.mv source dest needsDir o).2) ↔
      ¬tmp <+: dest ∧ Tree.IsDir (Tree.reach dest.dropLast o) ∧
        (needsDir = true → Tree.IsDir (some t)) ∧ t = contentOf es := by
  -- The last `rm` takes the temporary directory away, and `dest` with it where it lies below.
  have hgone := Tree.reach_remove tmp (Node.mv source dest needsDir o).2
  unfold Installed
  rw [and_iff_left hgone]
  by_cases hpre : tmp <+: dest
  · obtain ⟨s, rfl⟩ := hpre
    rw [Tree.reach_append, hgone, Tree.reach_none]
    simp
  · have hdest := hdest hpre
    have hdest' : ¬dest <+: tmp := by
      obtain ⟨s, rfl⟩ := htmp
      refine not_prefix_of_absent hdest fun h ↦ ?_
      rw [Tree.reach_append, h, Tree.reach_none] at hsource
      exact absurd hsource (by simp)
    have hnot : ¬source <+: dest := fun h ↦ hpre (htmp.trans h)
    rw [Tree.reach_alter_of_diverge hpre hdest', reach_mv hsource hdest]
    simp only [hnot, hpre, not_false_eq_true, true_and]
    split
    · next h => rw [Option.some.injEq]; exact ⟨fun heq ↦ ⟨h.1, h.2, heq⟩, fun h ↦ h.2.2⟩
    · next h => exact ⟨fun h' ↦ absurd h' (by simp), fun h' ↦ absurd ⟨h'.1, h'.2.1⟩ h⟩

-- The last `rm` takes what lies below the temporary directory.
theorem not_installed_of_prefix {es : List (Bytes × Tree Bytes β)} (hpre : tmp <+: dest) :
    ¬Installed es tmp dest (Tree.alter (fun _ ↦ none) tmp o) := by
  rintro ⟨hcontent, hgone⟩
  obtain ⟨s, rfl⟩ := hpre
  rw [Tree.reach_append, hgone, Tree.reach_none] at hcontent
  exact absurd hcontent (by simp)

-- Where nothing is moved, nothing is installed.
theorem not_installed_of_vacant {es : List (Bytes × Tree Bytes β)} (htmp : Tree.reach tmp o ≠ none)
    (hdest : ¬tmp <+: dest → Tree.reach dest o = none) :
    ¬Installed es tmp dest (Tree.alter (fun _ ↦ none) tmp o) := by
  by_cases hpre : tmp <+: dest
  · exact not_installed_of_prefix hpre
  · rintro ⟨hcontent, -⟩
    have hdest' : ¬dest <+: tmp := not_prefix_of_absent (hdest hpre) htmp
    rw [Tree.reach_alter_of_diverge hpre hdest', hdest hpre] at hcontent
    exact absurd hcontent (by simp)

/-! ## Up to the move -/

/-- The temporary directory holds these entries.  Outside of it, there is still nothing at `dest`,
and the directory for it as before. -/
structure Prepared (tmp dest : Path) (before : FileSystem β) (es : List (Bytes × Tree Bytes β))
    (o : FileSystem β) : Prop where
  holds : Tree.reach tmp o = some (.dir es)
  vacant : ¬tmp <+: dest → Tree.reach dest o = none
  parent : ¬tmp <+: dest →
    (Tree.IsDir (Tree.reach dest.dropLast o) ↔ Tree.IsDir (Tree.reach dest.dropLast before))

variable {r : Nat} {before : FileSystem β} {es : List (Bytes × Tree Bytes β)}

theorem not_prefix_dropLast (h : ¬p <+: q) : ¬p <+: q.dropLast :=
  fun hp ↦ h (hp.trans (List.dropLast_prefix q))

theorem prepared_mkdir (hparent : Tree.IsDir (Tree.reach [ascii "tmp", ascii "jepsen"] o))
    (htmp : Tree.reach (tmpPath r) o = none) (hdest : Tree.reach dest o = none) :
    Prepared (tmpPath r) dest o [] (Tree.mkdir (tmpPath r) o) := by
  have hmkdir : Tree.mkdir (tmpPath r) o = Tree.alter (·.or (some (.dir []))) (tmpPath r) o :=
    Tree.mkdir_eq_alter hparent
  rw [hmkdir]
  refine ⟨?_, fun h ↦ ?_, fun h ↦ Tree.isDir_reach_alter (not_prefix_dropLast h)⟩
  · refine (Tree.reach_alter hparent).trans ?_
    change Option.or (Tree.reach (tmpPath r) o) _ = _
    rw [htmp]
    rfl
  · have hdest' : ¬dest <+: tmpPath r := by
      intro hpre
      rcases List.prefix_concat_iff.mp
        (show dest <+: [ascii "tmp", ascii "jepsen"] ++ [ascii (toString r)] from hpre) with rfl | hpre
      · exact h (List.prefix_refl _)
      · exact not_prefix_of_absent hdest (Tree.isDir_reach_ne_none hparent) hpre
    rw [Tree.reach_alter_of_diverge h hdest', hdest]

-- `tar` puts the entries of the archive in.
theorem Prepared.tar {file : Path} {content : β} (h : Prepared tmp dest before [] o)
    (hfile : Tree.reach file o = some (.file content))
    {program : β → List (Bytes × Tree Bytes β) → Option (List (Bytes × Tree Bytes β))}
    (hprogram : program content [] = some es) :
    Prepared tmp dest before es (Node.unpack program file tmp o).2 := by
  have hthere : Tree.reach tmp o ≠ none := by rw [h.holds]; simp
  have hunpack : (Node.unpack program file tmp o).2 =
      Tree.alter (fun _ ↦ some (.dir es)) tmp o := by
    simp only [Node.unpack, hfile, h.holds, hprogram]
    rfl
  rw [hunpack]
  refine ⟨Tree.reach_alter_of_ne_none hthere, fun hpre ↦ ?_, fun hpre ↦ ?_⟩
  · have hdest' : ¬dest <+: tmp := not_prefix_of_absent (h.vacant hpre) hthere
    rw [Tree.reach_alter_of_diverge hpre hdest', h.vacant hpre]
  · rw [Tree.isDir_reach_alter (not_prefix_dropLast hpre), h.parent hpre]

/-- A program that unpacks in the directory `dir` and touches these names only. -/
def Touches (program : β → List (Bytes × Tree Bytes β) → Option (List (Bytes × Tree Bytes β)))
    (content : β) (names : List Bytes) : Prop :=
  ∀ es es', program content es = some es' → ∀ n ∉ names,
    Tree.child n (some (.dir es')) = Tree.child n (some (.dir es))

-- Below the directory, what has another name is as before.
theorem reach_unpack_below {file dir : Path} {content : β} {names : List Bytes}
    {program : β → List (Bytes × Tree Bytes β) → Option (List (Bytes × Tree Bytes β))}
    (hfile : Tree.reach file o = some (.file content)) (htouches : Touches program content names)
    {n : Bytes} (hn : n ∉ names) (s : Path) :
    Tree.reach (dir ++ n :: s) (Node.unpack program file dir o).2 =
      Tree.reach (dir ++ n :: s) o := by
  -- Only a directory is unpacked into, and only the names of the archive change in it.
  cases hdir : Tree.reach dir o with
  | none => simp only [Node.unpack, hdir, hfile]; rfl
  | some t =>
    cases t with
    | file b => simp only [Node.unpack, hdir, hfile]; rfl
    | dir es =>
      cases hprogram : program content es with
      | none => simp only [Node.unpack, hdir, hfile, hprogram]; rfl
      | some es' =>
        have hunpack : (Node.unpack program file dir o).2 =
            Tree.alter (fun _ ↦ some (.dir es')) dir o := by
          simp only [Node.unpack, hdir, hfile, hprogram]
          rfl
        rw [hunpack, Tree.reach_append, Tree.reach_alter_of_ne_none (by rw [hdir]; simp),
          Tree.reach_append, hdir]
        exact congrArg (Tree.reach s) (htouches es es' hprogram n hn)

-- Elsewhere, everything is as before.
theorem unpack_elsewhere
    (program : β → List (Bytes × Tree Bytes β) → Option (List (Bytes × Tree Bytes β)))
    (file dir : Path) (o : FileSystem β) :
    (Node.unpack program file dir o).2 = o ∨
      ∃ es, (Node.unpack program file dir o).2 = Tree.alter (fun _ ↦ some (.dir es)) dir o := by
  unfold Node.unpack
  split
  · split
    · next es _ => exact .inr ⟨es, rfl⟩
    · exact .inl rfl
  · exact .inl rfl

-- `unzip` leaves the temporary directory empty, unless the archive's names lead there.
theorem Prepared.unzip {file login : Path} {content : β} {names : List Bytes}
    (h : Prepared tmp dest before [] o) (hlogin : Tree.IsDir (Tree.reach login o))
    (htmp : ¬tmp <+: login) (hfile : Tree.reach file o = some (.file content))
    {program : β → List (Bytes × Tree Bytes β) → Option (List (Bytes × Tree Bytes β))}
    (htouches : Touches program content names)
    (htmp' : ∀ n ∈ names, ¬login ++ [n] <+: tmp) (hdest : ∀ n ∈ names, ¬login ++ [n] <+: dest) :
    Prepared tmp dest before [] (Node.unpack program file login o).2 := by
  have hout : ∀ {q : Path} {n : Bytes} {s : Path}, (∀ n ∈ names, ¬login ++ [n] <+: q) →
      q = login ++ n :: s → n ∉ names := by
    rintro q n s hq rfl hn
    exact hq n hn ⟨s, by rw [List.append_assoc]; rfl⟩
  -- A path that does not lead to the login directory is as before, below it or not.
  have hsame : ∀ {q : Path}, (∀ n ∈ names, ¬login ++ [n] <+: q) → ¬q <+: login →
      Tree.reach q (Node.unpack program file login o).2 = Tree.reach q o := by
    intro q hq hqlogin
    by_cases hbelow : login <+: q
    · obtain ⟨s, hs⟩ := hbelow
      cases s with
      | nil => exact absurd ⟨[], by rw [← hs, List.append_nil, List.append_nil]⟩ hqlogin
      | cons n s =>
        rw [← hs]
        exact reach_unpack_below hfile htouches (hout hq hs.symm) s
    · rcases unpack_elsewhere program file login o with heq | ⟨es', heq⟩
      · rw [heq]
      · rw [heq, Tree.reach_alter_of_diverge hbelow hqlogin]
  refine ⟨?_, fun hpre ↦ ?_, fun hpre ↦ ?_⟩
  · rw [hsame htmp' htmp, h.holds]
  · have hvacant := h.vacant hpre
    rw [hsame hdest (not_prefix_of_absent hvacant (Tree.isDir_reach_ne_none hlogin)), hvacant]
  · rw [← h.parent hpre]
    by_cases hlead : dest.dropLast <+: login
    · rcases unpack_elsewhere program file login o with heq | ⟨es', heq⟩
      · rw [heq]
      · rw [heq]
        by_cases hback : login <+: dest.dropLast
        · obtain rfl := hback.eq_of_length (le_antisymm hback.length_le hlead.length_le)
          rw [Tree.reach_alter_of_ne_none (Tree.isDir_reach_ne_none hlogin)]
          exact iff_of_true (Tree.isDir_dir es') hlogin
        · exact Tree.isDir_reach_alter hback
    · rw [hsame (fun n hn ↦ not_prefix_dropLast (hdest n hn)) hlead]

end

/-! ## The whole call -/

theorem mem_of_mem_splitOn {name c : Bytes} {x : UInt8} (hc : c ∈ name.splitOn slash) (hx : x ∈ c) :
    x ∈ name := by
  rw [List.splitOn_eq_splitOnP] at hc
  induction name generalizing c with
  | nil =>
    rw [List.splitOnP_nil, List.mem_singleton] at hc
    exact hc ▸ hx
  | cons y name ih =>
    rw [List.splitOnP_cons_eq_if_modifyHead] at hc
    split at hc
    · rcases List.mem_cons.mp hc with rfl | hc
      · exact absurd hx (by simp)
      · exact List.mem_cons_of_mem y (ih hc hx)
    · obtain ⟨d, ds, hds⟩ := List.exists_cons_of_ne_nil (List.splitOnP_ne_nil (· == slash) name)
      rw [hds] at hc ih
      rcases List.mem_cons.mp hc with rfl | hc
      · rcases List.mem_cons.mp hx with rfl | hx
        · exact List.mem_cons_self
        · exact List.mem_cons_of_mem y (ih List.mem_cons_self hx)
      · exact List.mem_cons_of_mem y (ih (List.mem_cons_of_mem d hc) hx)

theorem prefix_foldl_walk (p : Path) {names : List Bytes} (h : ∀ name ∈ names, name ≠ ascii "..") :
    p <+: names.foldl walk p := by
  induction names generalizing p with
  | nil => exact List.prefix_refl p
  | cons name names ih =>
    obtain ⟨hname, hnames⟩ := List.forall_mem_cons.mp h
    refine List.IsPrefix.trans ?_ (ih (walk p name) hnames)
    unfold walk
    split
    · exact List.prefix_refl p
    · exact List.prefix_append p [name]

-- Wherever the encoding puts the file, it is below the cache directory.
theorem cacheDir_prefix {build : Build} {url file : Bytes} (cwd : Path)
    (h : destFile build url = .ok file) : cacheDir <+: resolve cwd file := by
  rw [eq_of_destFile h, resolve_append cwd (by decide), resolve_kWgetCacheDir]
  refine prefix_foldl_walk cacheDir fun name hname hdots ↦ ?_
  exact dot_not_mem_rfc4648 url (mem_of_mem_splitOn hname (hdots ▸ by decide))

theorem destFile_of_cachedWget {build : Build} {node : Node β} {download : Download β}
    {url file : Bytes} {force : Bool} {o o' : FileSystem β}
    (h : cachedWget build node download url force o = .ok (file, o')) :
    destFile build url = .ok file := by
  unfold cachedWget at h
  cases hfile : destFile build url with
  | error e => rw [hfile] at h; exact absurd h (by simp [bind, Except.bind])
  | ok f =>
    rw [hfile] at h
    simp only [bind, Except.bind] at h
    split at h <;> rw [(Prod.mk.inj (Except.ok.inj h)).1]

/-- What the caller relies on: `dest` is one word of a line; the archive is in the cache, with
proper names; there is nothing at `dest`, and `r` is the first number whose directory is free.
`unzip` unpacks where the login is, and is asked to leave the temporary directory and `dest` alone.
The name of an only entry goes through a shell: it is made of plain words and of blanks before
them. -/
structure Ready (node : Node β) (url dest file : Bytes) (content : β)
    (es : List (Bytes × Tree Bytes β)) (taken : List Nat) (r : Nat) (o : FileSystem β) : Prop where
  cached : Tree.reach (resolve node.login file) o = some (.file content)
  archive : (if zipUrl url then node.unzip else node.untar) content [] = some es
  ne_nil : es ≠ []
  names : ∀ e ∈ es, ProperName e.1 ∧ newline ∉ e.1
  vacant : Tree.reach (resolve node.login dest) o = none
  login : Tree.IsDir (Tree.reach node.login o)
  taken : ∀ t ∈ taken, Tree.reach (tmpPath t) o ≠ none
  free : Tree.reach (tmpPath r) o = none
  touches : zipUrl url = true → Touches node.unzip content (es.map Prod.fst)
  elsewhere : zipUrl url = true → ∀ n ∈ es.map Prod.fst,
    ¬node.login ++ [n] <+: tmpPath r ∧ ¬node.login ++ [n] <+: resolve node.login dest
  dest : PlainWord dest
  words : ∀ e, es = [e] → (∀ w ∈ operandsOf e.1, PlainWord w) ∧ e.1.getLast? ≠ some blank

/-- What the code needs besides: no zip file, unless its only entry is an empty directory; no blank
in the name of the only entry of another archive; a directory for `dest`, and not the temporary
one; and a directory to install where `dest` ends in a slash. -/
structure Installable (node : Node β) (url dest : Bytes) (es : List (Bytes × Tree Bytes β))
    (r : Nat) (o : FileSystem β) : Prop where
  zip : zipUrl url = true → ∃ name, es = [(name, .dir [])]
  word : zipUrl url = false → ∀ e, es = [e] → blank ∉ e.1
  parent : Tree.IsDir (Tree.reach (resolve node.login dest).dropLast o)
  apart : ¬tmpPath r <+: resolve node.login dest
  slash : dest.getLast? = some slash → Tree.IsDir (some (contentOf es))

-- A zip file is installed as an empty directory.
theorem contentOf_eq_empty {es : List (Bytes × Tree Bytes β)} (h : es ≠ []) :
    .dir [] = contentOf es ↔ ∃ name, es = [(name, .dir [])] := by
  match es, h with
  | [(name, t)], _ =>
    simp only [contentOf, List.cons.injEq, Prod.mk.injEq, and_true]
    exact ⟨fun ht ↦ ⟨name, rfl, ht.symm⟩, fun h ↦ h.choose_spec.2.symm⟩
  | e₁ :: e₂ :: es, _ => simp [contentOf]

theorem Ready.prepared {node : Node β} {url dest file : Bytes} {content : β}
    {es : List (Bytes × Tree Bytes β)} {taken : List Nat} {r : Nat} {o : FileSystem β}
    {build : Build} (h : Ready node url dest file content es taken r o)
    (hfile : destFile build url = .ok file) (download : Download β) :
    Prepared (tmpPath r) (resolve node.login dest) o (if zipUrl url then [] else es)
      (if zipUrl url then SSHRemote.sudoExecute node download (.unzip file)
          (Tree.mkdir (tmpPath r) o)
        else SSHRemote.sudoExecute node download (.tar file (tmpName r))
          (Tree.mkdir (tmpPath r) o)) := by
  have hthere : Tree.reach (resolve node.login file) o ≠ none := by rw [h.cached]; simp
  have hparent : Tree.IsDir (Tree.reach [ascii "tmp", ascii "jepsen"] o) := by
    obtain ⟨s, hs⟩ := cacheDir_prefix node.login hfile
    rw [← hs] at hthere
    exact Tree.isDir_reach_of_append (q := s) hthere
  have hmkdir := prepared_mkdir hparent h.free h.vacant
  have heq : Tree.mkdir (tmpPath r) o = Tree.alter (·.or (some (.dir []))) (tmpPath r) o :=
    Tree.mkdir_eq_alter hparent
  -- The archive is still in the cache, which lies beside the temporary directory.
  have hcached : Tree.reach (resolve node.login file) (Tree.mkdir (tmpPath r) o) =
      some (.file content) := by
    rw [heq, Tree.reach_alter_of_diverge (not_prefix_of_absent h.free hthere), h.cached]
    intro hpre
    rcases List.prefix_concat_iff.mp (show resolve node.login file <+:
      [ascii "tmp", ascii "jepsen"] ++ [ascii (toString r)] from hpre) with heq' | hpre
    · exact hthere (heq' ▸ h.free)
    · exact not_prefix_of_file h.cached hparent hpre
  have hlogin : ¬tmpPath r <+: node.login :=
    not_prefix_of_absent h.free (Tree.isDir_reach_ne_none h.login)
  have htarRun : SSHRemote.sudoExecute node download (.tar file (tmpName r))
      (Tree.mkdir (tmpPath r) o) =
      (Node.unpack node.untar (resolve node.login file) (tmpPath r) (Tree.mkdir (tmpPath r) o)).2 := by
    rw [← resolve_tmpName node.login r]
    rfl
  cases hzip : zipUrl url with
  | true =>
    -- `unzip` works in the login directory, which is still there.
    have hloginDir : Tree.IsDir (Tree.reach node.login (Tree.mkdir (tmpPath r) o)) := by
      rw [heq]; exact (Tree.isDir_reach_alter hlogin).mpr h.login
    exact hmkdir.unzip hloginDir hlogin hcached (h.touches hzip)
      (fun n hn ↦ (h.elsewhere hzip n hn).1) fun n hn ↦ (h.elsewhere hzip n hn).2
  | false =>
    have harchive := h.archive
    rw [hzip] at harchive
    rw [if_neg (by simp), if_neg (by simp), htarRun]
    exact hmkdir.tar hcached harchive

/-- An archive with one directory, which holds one file. -/
def archiveOf (name : Bytes) : List (Bytes × Tree Bytes Bytes) :=
  [(name, .dir [(ascii "bin", .file (ascii "v3"))])]

def unpackAs (name content : Bytes) (es : List (Bytes × Tree Bytes Bytes)) :
    Option (List (Bytes × Tree Bytes Bytes)) :=
  if content = ascii "archive" then some (Tree.setEntry name
    (some (.dir [(ascii "bin", .file (ascii "v3"))])) es) else none

def nodeOf (name : Bytes) : Node Bytes :=
  ⟨[ascii "root"], fun _ ↦ ascii "archive", unpackAs name, unpackAs name⟩

def etcdArchive : List (Bytes × Tree Bytes Bytes) := archiveOf (ascii "etcd")

def etcdNode : Node Bytes := nodeOf (ascii "etcd")

/-- The archive is in the cache under the encoding `name` of its URL. -/
def etcdFiles (name : Bytes) : FileSystem Bytes :=
  some (.dir [(ascii "opt", .dir []), (ascii "root", .dir []),
    (ascii "tmp", .dir [(ascii "jepsen", .dir [(ascii "wget-cache",
      .dir [(name, .file (ascii "archive"))])])])])

theorem ready_etcd : Ready etcdNode (ascii "http://n1/db.tar") (ascii "/opt/etcd")
    (kWgetCacheDir ++ ascii "/aHR0cDovL24xL2RiLnRhcg==") (ascii "archive") etcdArchive [] 7
    (etcdFiles (ascii "aHR0cDovL24xL2RiLnRhcg==")) where
  cached := rfl
  archive := rfl
  ne_nil := by simp [etcdArchive, archiveOf]
  names := by
    intro e he
    obtain rfl := List.mem_singleton.mp he
    exact ⟨⟨by decide, by decide, by decide, by decide⟩, by decide⟩
  vacant := rfl
  login := ⟨_, rfl⟩
  taken := by simp
  free := rfl
  touches h := absurd h (by decide)
  elsewhere h := absurd h (by decide)
  dest := .of_all (by decide) (by decide) (by decide)
  words := by
    rintro e he
    obtain rfl := List.singleton_inj.mp he
    have hetcd : PlainWord (ascii "etcd") := .of_all (by decide) (by decide) (by decide)
    have hwords : operandsOf (ascii "etcd") = [ascii "etcd"] :=
      operandsOf_word hetcd.ne_nil hetcd.blank_notMem
    refine ⟨fun w hw ↦ ?_, by decide⟩
    obtain rfl := List.mem_singleton.mp (hwords ▸ hw)
    exact hetcd

end ControlHelper

end Jepsen
