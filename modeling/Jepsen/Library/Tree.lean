import Mathlib.Data.List.Infix
import Mathlib.Tactic.Common

/-!
# Trees with named entries

A file system: a tree whose directories list named entries, and a place in it that may be vacant
(`none`).  `reach` follows a path down, `alter` changes what is at the end of a path, and `mkdir`
makes a path of directories.  `alter` is known from what it does at its own path (`reach_alter`) and
that it leaves every path alone that does not go through there (`reach_alter_of_diverge`).
-/

namespace Library

inductive Tree (ν β : Type) where
  | file (content : β)
  | dir (entries : List (ν × Tree ν β))

namespace Tree

variable {ν β : Type}

def entries : Option (Tree ν β) → List (ν × Tree ν β)
  | some (.dir es) => es
  | _ => []

def IsDir (o : Option (Tree ν β)) : Prop := ∃ es, o = some (.dir es)

instance : (o : Option (Tree ν β)) → Decidable (IsDir o)
  | some (.dir es) => .isTrue ⟨es, rfl⟩
  | some (.file _) => .isFalse (by simp [IsDir])
  | none => .isFalse (by simp [IsDir])

@[simp] theorem isDir_dir (es : List (ν × Tree ν β)) : IsDir (some (dir es)) := ⟨es, rfl⟩

@[simp] theorem not_isDir_none : ¬IsDir (none : Option (Tree ν β)) := by simp [IsDir]

@[simp] theorem not_isDir_file (b : β) : ¬IsDir (some (file b) : Option (Tree ν β)) := by
  simp [IsDir]

variable [DecidableEq ν]

def child (n : ν) (o : Option (Tree ν β)) : Option (Tree ν β) := (entries o).lookup n

/-- What the path leads to. -/
def reach : List ν → Option (Tree ν β) → Option (Tree ν β)
  | [], o => o
  | n :: p, o => reach p (child n o)

/-- The entries with `c` for the name `n`. -/
def setEntry (n : ν) (c : Option (Tree ν β)) (es : List (ν × Tree ν β)) : List (ν × Tree ν β) :=
  es.filter (·.1 ≠ n) ++ c.toList.map (n, ·)

/-- Without effect where there is no directory. -/
def setChild (n : ν) (c : Option (Tree ν β)) : Option (Tree ν β) → Option (Tree ν β)
  | some (.dir es) => some (.dir (setEntry n c es))
  | o => o

def alter (f : Option (Tree ν β) → Option (Tree ν β)) :
    List ν → Option (Tree ν β) → Option (Tree ν β)
  | [], o => f o
  | n :: p, o => setChild n (alter f p (child n o)) o

/-- `mkdir -p`: a file on the way stays. -/
def mkdir : List ν → Option (Tree ν β) → Option (Tree ν β)
  | [], o => o.or (some (.dir []))
  | n :: p, o => setChild n (mkdir p (child n o)) (o.or (some (.dir [])))

/-! ## Entries -/

variable {n m : ν} {p q : List ν} {c o : Option (Tree ν β)}
  {f : Option (Tree ν β) → Option (Tree ν β)}

theorem lookup_filter_self (es : List (ν × Tree ν β)) :
    (es.filter (·.1 ≠ n)).lookup n = none := by
  refine List.lookup_eq_none_iff.mpr fun e he ↦ ?_
  have hne : e.1 ≠ n := by simpa using (List.mem_filter.mp he).2
  simpa using Ne.symm hne

theorem lookup_filter_ne (h : m ≠ n) (es : List (ν × Tree ν β)) :
    (es.filter (·.1 ≠ n)).lookup m = es.lookup m := by
  induction es with
  | nil => rfl
  | cons e es ih =>
    by_cases he : e.1 = n
    · have hm : (m == e.1) = false := beq_eq_false_iff_ne.mpr (he ▸ h)
      rw [List.filter_cons_of_neg (by simpa using he), ih, List.lookup_cons, hm]
    · rw [List.filter_cons_of_pos (by simpa using he), List.lookup_cons, List.lookup_cons, ih]

theorem lookup_setEntry (es : List (ν × Tree ν β)) :
    (setEntry n c es).lookup m = if m = n then c else es.lookup m := by
  rw [setEntry, List.lookup_append]
  by_cases h : m = n
  · subst h
    rw [lookup_filter_self, if_pos rfl, Option.none_or]
    cases c <;> simp
  · have hm : (m == n) = false := beq_eq_false_iff_ne.mpr h
    rw [lookup_filter_ne h, if_neg h]
    cases c <;> simp [List.lookup_cons, hm]

@[simp] theorem child_none : child n (none : Option (Tree ν β)) = none := rfl

theorem child_of_not_isDir (h : ¬IsDir o) : child n o = none := by
  cases o with
  | none => rfl
  | some t =>
    cases t with
    | file b => rfl
    | dir es => exact absurd (isDir_dir es) h

theorem setChild_of_not_isDir (h : ¬IsDir o) : setChild n c o = o := by
  cases o with
  | none => rfl
  | some t =>
    cases t with
    | file b => rfl
    | dir es => exact absurd (isDir_dir es) h

theorem child_setChild (h : IsDir o) : child n (setChild n c o) = c := by
  obtain ⟨es, rfl⟩ := h
  exact (lookup_setEntry es).trans (if_pos rfl)

theorem child_setChild_ne (h : m ≠ n) : child m (setChild n c o) = child m o := by
  by_cases ho : IsDir o
  · obtain ⟨es, rfl⟩ := ho
    exact (lookup_setEntry es).trans (if_neg h)
  · rw [setChild_of_not_isDir ho]

@[simp] theorem isDir_setChild : IsDir (setChild n c o) ↔ IsDir o := by
  by_cases ho : IsDir o
  · obtain ⟨es, rfl⟩ := ho
    simp [setChild]
  · rw [setChild_of_not_isDir ho]

/-! ## Paths -/

@[simp] theorem reach_none (p : List ν) : reach p (none : Option (Tree ν β)) = none := by
  induction p with
  | nil => rfl
  | cons n p ih => exact ih

theorem reach_append (p q : List ν) (o : Option (Tree ν β)) :
    reach (p ++ q) o = reach q (reach p o) := by
  induction p generalizing o with
  | nil => rfl
  | cons n p ih => exact ih (child n o)

theorem isDir_of_reach (h : reach (n :: p) o ≠ none) : IsDir o := by
  by_contra ho
  rw [reach, child_of_not_isDir ho, reach_none] at h
  exact h rfl

theorem isDir_reach_ne_none (h : IsDir (reach p o)) : reach p o ≠ none := by
  obtain ⟨es, hes⟩ := h
  simp [hes]

-- Above something there is a directory.
theorem isDir_reach_of_append (h : reach (p ++ n :: q) o ≠ none) : IsDir (reach p o) := by
  rw [reach_append] at h
  exact isDir_of_reach h

/-! ## Changes -/

theorem reach_alter (h : IsDir (reach p o)) :
    reach (p ++ [n]) (alter f (p ++ [n]) o) = f (reach (p ++ [n]) o) := by
  induction p generalizing o with
  | nil => exact child_setChild h
  | cons m p ih =>
    have ho := isDir_of_reach (isDir_reach_ne_none h)
    rw [List.cons_append, reach, alter, child_setChild ho]
    exact ih h

theorem reach_alter_of_ne_none (h : reach p o ≠ none) : reach p (alter f p o) = f (reach p o) := by
  rcases List.eq_nil_or_concat' p with rfl | ⟨p, n, rfl⟩
  · rfl
  · exact reach_alter (isDir_reach_of_append h)

/-- What is removed is gone. -/
theorem reach_remove (p : List ν) (o : Option (Tree ν β)) :
    reach p (alter (fun _ ↦ none) p o) = none := by
  induction p generalizing o with
  | nil => rfl
  | cons n p ih =>
    by_cases ho : IsDir o
    · rw [alter, reach, child_setChild ho, ih]
    · rw [alter, setChild_of_not_isDir ho, reach, child_of_not_isDir ho, reach_none]

theorem reach_alter_of_diverge (hpq : ¬p <+: q) (hqp : ¬q <+: p) :
    reach q (alter f p o) = reach q o := by
  induction p generalizing q o with
  | nil => exact absurd (List.nil_prefix) hpq
  | cons n p ih =>
    cases q with
    | nil => exact absurd (List.nil_prefix) hqp
    | cons m q =>
      -- The paths part at this name or further down.
      rw [alter, reach, reach]
      by_cases h : m = n
      · subst h
        by_cases ho : IsDir o
        · rw [child_setChild ho]
          exact ih (fun h ↦ hpq (List.cons_prefix_cons.mpr ⟨rfl, h⟩))
            (fun h ↦ hqp (List.cons_prefix_cons.mpr ⟨rfl, h⟩))
        · rw [setChild_of_not_isDir ho]
      · rw [child_setChild_ne h]

theorem isDir_reach_alter (hpq : ¬p <+: q) : IsDir (reach q (alter f p o)) ↔ IsDir (reach q o) := by
  induction p generalizing q o with
  | nil => exact absurd (List.nil_prefix) hpq
  | cons n p ih =>
    cases q with
    | nil => exact isDir_setChild
    | cons m q =>
      rw [alter, reach, reach]
      by_cases h : m = n
      · subst h
        by_cases ho : IsDir o
        · rw [child_setChild ho]
          exact ih fun h ↦ hpq (List.cons_prefix_cons.mpr ⟨rfl, h⟩)
        · rw [setChild_of_not_isDir ho]
      · rw [child_setChild_ne h]

/-! ## New directories -/

theorem child_or_dir (n : ν) (o : Option (Tree ν β)) :
    child n (o.or (some (dir []))) = child n o := by
  cases o <;> rfl

-- Below the last of them nothing is new.
theorem reach_mkdir_below (p : List ν) (n : ν) (q : List ν) (o : Option (Tree ν β)) :
    reach (p ++ n :: q) (mkdir p o) = reach (p ++ n :: q) o := by
  induction p generalizing o with
  | nil => exact congrArg (reach q) (child_or_dir n o)
  | cons m p ih =>
    rw [List.cons_append, mkdir, reach, reach]
    by_cases ho : IsDir (o.or (some (dir [])))
    · rw [child_setChild ho, ih]
    · rw [setChild_of_not_isDir ho, child_or_dir]

/-- Where the parent is there, `mkdir` makes the last directory only. -/
theorem mkdir_eq_alter (h : IsDir (reach p o)) :
    mkdir (p ++ [n]) o = alter (·.or (some (dir []))) (p ++ [n]) o := by
  induction p generalizing o with
  | nil =>
    obtain ⟨es, rfl⟩ := h
    rfl
  | cons m p ih =>
    obtain ⟨es, rfl⟩ := isDir_of_reach (isDir_reach_ne_none h)
    rw [List.cons_append, mkdir, alter, Option.some_or, ih h]

end Tree

end Library
