import Jepsen.Generator.Outcome
import Jepsen.Library.Simulation

/-!
# Trees that behave alike

A null pointer, an empty list and a time limit or stagger over one of these have nothing to offer.
`Same` relates trees that differ only in which of these stand for nothing, and in how many of them
an `Any` holds.  Copies of such trees are such trees, and `generator::op` answers the same on both,
so that no sequence of calls tells them apart.
-/

namespace Jepsen

open Library
open GeneratorPtr (copyOne copyEach copyOrNull members writeBack writeBackEach Rebuilt)

namespace GeneratorPtr

/-- No update of the tree is null, nor a copy of an update. -/
def lasting : GeneratorPtr → Bool
  | .nullptr => false
  | .list [] => false
  | .timeLimit _ _ g => lasting g
  | .stagger _ _ g => lasting g
  | _ => true

-- A list is lasting for its length alone.
theorem lasting_list_eq {gs gs' : List GeneratorPtr} (h : gs.length = gs'.length) :
    (GeneratorPtr.list gs').lasting = (GeneratorPtr.list gs).lasting := by
  cases gs with
  | nil =>
    obtain rfl := List.eq_nil_of_length_eq_zero h.symm
    rfl
  | cons =>
    cases gs' with
    | nil => exact absurd h (by simp)
    | cons => rfl

theorem Rebuilt.lasting_eq {polled copied : Bool} {g g' : GeneratorPtr}
    (h : Rebuilt polled copied g g') : g'.lasting = g.lasting := by
  induction h with
  | refl => rfl
  | emptyList => rfl
  | list hlen => exact lasting_list_eq hlen
  | timeLimitNull _ ih | staggerNull _ ih | timeLimit _ ih | stagger _ ih => exact ih
  | _ => rfl

theorem solid_of_lasting {g : GeneratorPtr} (h : g.lasting = true) : g.solid = true := by
  induction g with
  | nullptr => exact absurd h (by decide)
  | timeLimit limit cutoff g ih => exact ih h
  | stagger dt nt g ih => exact ih h
  | _ => rfl

-- A copy may lose solidity, as that of a time limit over nothing does, but never gains it.
theorem Rebuilt.solid_of_solid {polled copied : Bool} {g g' : GeneratorPtr}
    (hr : Rebuilt polled copied g g') (h : g'.solid = true) : g.solid = true := by
  induction hr with
  | refl => exact h
  | emptyList | timeLimitNull | staggerNull => exact absurd h (by decide)
  | timeLimit _ ih | stagger _ ih => exact ih h
  | _ => rfl

theorem copyEach_cons {g c : GeneratorPtr} {gs : List GeneratorPtr} (h : copyOne g = .ok c) :
    copyEach (g :: gs) = copyEach gs >>= fun cs ↦ .ok (c :: cs) := by
  rw [copyEach, h]
  rfl

-- Copies of two parts of the members are independent.
theorem copyEach_append (gs gs' : List GeneratorPtr) :
    copyEach (gs ++ gs') = do
      let cs ← copyEach gs
      let cs' ← copyEach gs'
      return cs ++ cs' := by
  induction gs with
  | nil =>
    change copyEach gs' = copyEach gs' >>= pure
    rw [bind_pure]
  | cons g gs ih =>
    rw [List.cons_append, copyEach, copyEach, ih]
    simp only [bind_assoc, pure_bind, List.cons_append]

theorem copyEach_split (gs : List GeneratorPtr) (g : GeneratorPtr) (gs' : List GeneratorPtr) :
    copyEach (gs ++ g :: gs') = do
      let cs ← copyEach gs
      let c ← copyOne g
      let cs' ← copyEach gs'
      return cs ++ c :: cs' := by
  rw [copyEach_append, copyEach]
  simp only [bind_assoc, pure_bind]

theorem solid_of_copyOne {g g' : GeneratorPtr} (hcopy : copyOne g = .ok g')
    (h : g.solid = true) : g'.solid = true := by
  have hfit : Fit (fun _ ↦ True) g := fit_of_forall (fun _ _ ↦ trivial) g
  exact ((hfit.copyOne (.inl trivial)).ok hcopy).solid h

end GeneratorPtr

/-- What makes an offer is lasting, and so is its successor. -/
theorem Answers.lasting {g : GeneratorPtr} {ctx : Context} {a : Answer} (ha : Answers g ctx a)
    (hoff : a.Offer) : g.lasting = true ∧ a.gen2.lasting = true := by
  have hnil (self : GeneratorPtr) : ¬ (nil self).Offer := fun h ↦ (Answer.offer_iff.mp h).1 rfl
  induction ha with
  | nullptr | onThreadsNil | timeLimitOver | timeLimitNil | staggerNil =>
    exact absurd hoff (hnil _)
  | timeLimitPending _ h _ ih | timeLimit _ h _ _ _ ih => exact ih h
  -- a pending answer of a `Stagger` hands the node itself on
  | staggerPending ha h _ _ ih => exact ⟨(ih h).1, ha.rebuilt.lasting_eq.trans (ih h).1⟩
  | stagger _ h _ _ _ ih => exact ih h
  | operation => exact absurd rfl (Answer.offer_iff.mp hoff).2
  | function _ ih => exact ⟨rfl, (ih hoff).2⟩
  | listPop _ _ _ _ _ _ ih₂ => exact ⟨rfl, (ih₂ hoff).2⟩
  | listSingle _ _ ih => exact ⟨rfl, (ih hoff).2⟩
  | validateLast _ h ih => exact absurd hoff h
  | mixDrop _ _ _ _ _ _ ih₂ => exact ⟨rfl, (ih₂ hoff).2⟩
  | listEmpty | mixEmpty | anyNil | userNil => exact absurd hoff (hnil _)
  | _ => exact ⟨rfl, rfl⟩

theorem Answers.solid {g : GeneratorPtr} {ctx : Context} {a : Answer} (ha : Answers g ctx a)
    (hoff : a.Offer) : g.solid = true ∧ a.gen2.solid = true :=
  (ha.lasting hoff).imp GeneratorPtr.solid_of_lasting GeneratorPtr.solid_of_lasting

/-- What is not lasting has nothing to offer, and is left as it was. -/
theorem op_of_not_lasting {n : Nat} {g : GeneratorPtr} (h : g.lasting = false) (hn : g.fuel ≤ n)
    (ctx : Context) (draws : Draws) : op n g ctx draws = .ok (nil g, draws) := by
  induction g generalizing n with
  | nullptr =>
    cases n with
    | zero => exact absurd hn (by decide)
    | succ n => rfl
  -- an empty list asks a null pointer
  | list gs =>
    cases gs with
    | nil =>
      obtain ⟨n, rfl⟩ : ∃ m, n = m + 2 := ⟨n - 2, by simp only [GeneratorPtr.fuel] at hn; omega⟩
      rfl
    | cons => exact absurd h (by simp [GeneratorPtr.lasting])
  | timeLimit limit cutoff g ih =>
    simp only [GeneratorPtr.fuel] at hn
    obtain ⟨n, rfl⟩ : ∃ m, n = m + 1 := ⟨n - 1, by omega⟩
    have heq : op (n + 1) (.timeLimit limit cutoff g) ctx draws = _ :=
      Eval.bind_apply_ok (ih h (by omega))
    exact heq.trans rfl
  | stagger dt nt g ih =>
    simp only [GeneratorPtr.fuel] at hn
    obtain ⟨n, rfl⟩ : ∃ m, n = m + 1 := ⟨n - 1, by omega⟩
    have heq : op (n + 1) (.stagger dt nt g) ctx draws = _ :=
      Eval.bind_apply_ok (ih h (by omega))
    exact heq.trans rfl
  | _ => exact absurd h (by simp [GeneratorPtr.lasting])

/-- The same tree, up to what has nothing to offer. -/
inductive Same : GeneratorPtr → GeneratorPtr → Prop
  | refl (g) : Same g g
  | empty {g g' : GeneratorPtr} (h : g.lasting = false) (h' : g'.lasting = false) : Same g g'
  | list {gs gs' : List GeneratorPtr} (hlen : gs.length = gs'.length)
      (h : ∀ i (hi : i < gs.length) (hi' : i < gs'.length), Same gs[i] gs'[i]) :
      Same (.list gs) (.list gs')
  | validate {g g'} (h : Same g g') : Same (.validate g) (.validate g')
  | onThreads {g g' filter} (h : Same g g') : Same (.onThreads g filter) (.onThreads g' filter)
  | timeLimit {limit cutoff g g'} (h : Same g g') :
      Same (.timeLimit limit cutoff g) (.timeLimit limit cutoff g')
  | stagger {dt next_time g g'} (h : Same g g') :
      Same (.stagger dt next_time g) (.stagger dt next_time g')
  | mix {idx} {gs gs' : List GeneratorPtr} (hsolid : ∀ g ∈ gs, g.solid = true)
      (hsolid' : ∀ g ∈ gs', g.solid = true) (hlen : gs.length = gs'.length)
      (h : ∀ i (hi : i < gs.length) (hi' : i < gs'.length), Same gs[i] gs'[i]) :
      Same (.mix idx gs) (.mix idx gs')
  | any {gs gs' : List GeneratorPtr} (hsolid : ∀ g ∈ gs, g.solid = true)
      (hsolid' : ∀ g ∈ gs', g.solid = true)
      (hlen : (gs.filter GeneratorPtr.lasting).length = (gs'.filter GeneratorPtr.lasting).length)
      (h : ∀ i (hi : i < (gs.filter GeneratorPtr.lasting).length)
        (hi' : i < (gs'.filter GeneratorPtr.lasting).length),
        Same (gs.filter GeneratorPtr.lasting)[i] (gs'.filter GeneratorPtr.lasting)[i]) :
      Same (.any gs) (.any gs')

namespace Same

theorem symm {g g' : GeneratorPtr} (h : Same g g') : Same g' g := by
  induction h with
  | refl => exact .refl _
  | empty h h' => exact .empty h' h
  | list hlen _ ih => exact .list hlen.symm fun i hi hi' ↦ ih i hi' hi
  | validate _ ih => exact .validate ih
  | onThreads _ ih => exact .onThreads ih
  | timeLimit _ ih => exact .timeLimit ih
  | stagger _ ih => exact .stagger ih
  | mix hsolid hsolid' hlen _ ih =>
    exact .mix hsolid' hsolid hlen.symm fun i hi hi' ↦ ih i hi' hi
  | any hsolid hsolid' hlen _ ih =>
    exact .any hsolid' hsolid hlen.symm fun i hi hi' ↦ ih i hi' hi

theorem ofList {gs gs' : List GeneratorPtr} (h : Pointwise Same gs gs') :
    Same (.list gs) (.list gs') :=
  .list h.1 h.2

theorem lasting_eq {g g' : GeneratorPtr} (h : Same g g') : g.lasting = g'.lasting := by
  induction h with
  | refl => rfl
  | empty h h' => rw [h, h']
  | list hlen => exact (GeneratorPtr.lasting_list_eq hlen).symm
  | timeLimit _ ih | stagger _ ih => exact ih
  | _ => rfl

-- Without null members an `Any` is rebuilt member by member.
theorem ofAny {gs gs' : List GeneratorPtr} (h : Pointwise Same gs gs')
    (hsolid : ∀ g ∈ gs, g.solid = true) (hsolid' : ∀ g ∈ gs', g.solid = true) :
    Same (.any gs) (.any gs') := by
  have hfilter := h.filter (p := GeneratorPtr.lasting) (q := GeneratorPtr.lasting)
    fun _ _ h ↦ h.lasting_eq.symm
  exact .any hsolid hsolid' hfilter.1 hfilter.2

end Same

/-- Members that stand for each other in a `Mix`, which copies them without a test for null. -/
abbrev Alike (g g' : GeneratorPtr) : Prop := Same g g' ∧ g.solid = true ∧ g'.solid = true

namespace Same

theorem ofMix {idx : Nat} {gs gs' : List GeneratorPtr} (h : Pointwise Alike gs gs') :
    Same (.mix idx gs) (.mix idx gs') := by
  refine .mix (fun g hg ↦ ?_) (fun g hg ↦ ?_) h.1 fun i hi hi' ↦ (h.2 i hi hi').1
  · obtain ⟨g', -, hgg'⟩ := h.exists_right hg
    exact hgg'.2.1
  · obtain ⟨g', -, hgg'⟩ := h.exists_left hg
    exact hgg'.2.2

-- Unlike a list, a `Mix` is alike to itself even when it holds a null pointer.
theorem mix_inv {idx : Nat} {gs : List GeneratorPtr} {g' : GeneratorPtr}
    (h : Same (.mix idx gs) g') :
    ∃ gs', g' = .mix idx gs' ∧ (gs = gs' ∨ Pointwise Alike gs gs') := by
  cases h with
  | refl => exact ⟨gs, rfl, .inl rfl⟩
  | empty h => exact absurd h (by simp [GeneratorPtr.lasting])
  | @mix _ _ gs' hsolid hsolid' hlen h =>
    exact ⟨gs', rfl, .inr ⟨hlen, fun i hi hi' ↦
      ⟨h i hi hi', hsolid _ (List.getElem_mem hi), hsolid' _ (List.getElem_mem hi')⟩⟩⟩

end Same

/-- A member of an `Any` that is as good as none. -/
def Idle (g : GeneratorPtr) : Prop := g.solid = true ∧ g.lasting = false

/-- The members of two `Any` nodes: alike, up to idle ones. -/
abbrev SameMembers : List GeneratorPtr → List GeneratorPtr → Prop :=
  Padded Idle Idle fun g g' ↦ Same g g' ∧ g.lasting = true ∧ g'.lasting = true

theorem SameMembers.same_any {gs gs' : List GeneratorPtr} (h : SameMembers gs gs') :
    Same (.any gs) (.any gs') := by
  have hfilter := h.filter (p := GeneratorPtr.lasting) (q := GeneratorPtr.lasting)
    (fun _ h ↦ h.2) (fun _ h ↦ h.2) fun _ _ h ↦ h.2
  refine .any (h.forall_left (fun _ h ↦ h.1) fun _ _ h ↦ GeneratorPtr.solid_of_lasting h.2.1)
    (h.flip.forall_left (fun _ h ↦ h.1) fun _ _ h ↦ GeneratorPtr.solid_of_lasting h.2.2)
    hfilter.1 fun i hi hi' ↦ (hfilter.2 i hi hi').1

theorem SameMembers.single {g g' : GeneratorPtr} (h : Same g g') (hs : g.solid = true)
    (hs' : g'.solid = true) : SameMembers [g] [g'] := by
  have heq := h.lasting_eq
  cases hlast : g.lasting with
  | true => exact .cons ⟨h, hlast, heq ▸ hlast⟩ .nil
  | false => exact .left ⟨hs, hlast⟩ (.right ⟨hs', heq ▸ hlast⟩ .nil)

/-! ## Copies -/

namespace Same

-- A copy of nothing is nothing, whichever tree stands for it.
theorem copyOne_idle {g : GeneratorPtr} (h : g.lasting = false) (hne : g ≠ .nullptr) :
    ∃ c, copyOne g = .ok c ∧ c.lasting = false := by
  induction g with
  | nullptr => exact absurd rfl hne
  | list gs =>
    cases gs with
    | nil => exact ⟨.list [], rfl, rfl⟩
    | cons => exact absurd h (by simp [GeneratorPtr.lasting])
  | timeLimit limit cutoff g ih =>
    rw [GeneratorPtr.copyOne]
    by_cases hnull : g = .nullptr
    · exact ⟨.nullptr, if_pos (GeneratorPtr.isNull_iff.mpr hnull), rfl⟩
    · obtain ⟨c, hc, hlast⟩ := ih h hnull
      refine ⟨.timeLimit limit cutoff c, ?_, hlast⟩
      rw [if_neg (by simpa using hnull), hc]
      rfl
  | stagger dt nt g ih =>
    rw [GeneratorPtr.copyOne]
    by_cases hnull : g = .nullptr
    · exact ⟨.nullptr, if_pos (GeneratorPtr.isNull_iff.mpr hnull), rfl⟩
    · obtain ⟨c, hc, hlast⟩ := ih h hnull
      refine ⟨GeneratorFactory.createStaggerAt dt nt c, ?_, hlast⟩
      rw [if_neg (by simpa using hnull), hc]
      rfl
  | _ => exact absurd h (by simp [GeneratorPtr.lasting])

/-- A null member is its own copy where the code tests for null. -/
theorem copyMember {g g' : GeneratorPtr} (h : Same g g')
    (hcopy : g ≠ .nullptr → g' ≠ .nullptr → Agree Same (copyOne g) (copyOne g')) :
    Agree Same (if g.isNull then .ok .nullptr else copyOne g)
      (if g'.isNull then .ok .nullptr else copyOne g') := by
  by_cases hg : g = .nullptr
  · rw [if_pos (GeneratorPtr.isNull_iff.mpr hg)]
    by_cases hg' : g' = .nullptr
    · rw [if_pos (GeneratorPtr.isNull_iff.mpr hg')]
      exact Same.refl _
    -- only one of the two is null, so that the other one is copied, to nothing
    · have hlast : g'.lasting = false := by rw [← h.lasting_eq, hg]; rfl
      obtain ⟨c, hc, hlast⟩ := copyOne_idle hlast hg'
      rw [if_neg (by simpa using hg'), hc]
      exact Same.empty rfl hlast
  · rw [if_neg (by simpa using hg)]
    by_cases hg' : g' = .nullptr
    · have hlast : g.lasting = false := by rw [h.lasting_eq, hg']; rfl
      obtain ⟨c, hc, hlast⟩ := copyOne_idle hlast hg
      rw [if_pos (GeneratorPtr.isNull_iff.mpr hg'), hc]
      exact Same.empty hlast rfl
    · rw [if_neg (by simpa using hg')]
      exact hcopy hg hg'

theorem copyOrNull {gs gs' : List GeneratorPtr}
    (h : Pointwise (fun g g' ↦ Same g g' ∧
      (g ≠ .nullptr → g' ≠ .nullptr → Agree Same (copyOne g) (copyOne g'))) gs gs') :
    Agree (Pointwise Same) (GeneratorPtr.copyOrNull gs) (GeneratorPtr.copyOrNull gs') := by
  induction gs generalizing gs' with
  | nil =>
    obtain rfl := List.eq_nil_of_length_eq_zero h.1.symm
    exact Pointwise.nil
  | cons g gs ih =>
    obtain ⟨g', gs', hg, hgs, rfl⟩ := h.uncons
    exact (copyMember hg.1 hg.2).bind fun c c' hc ↦ (ih hgs).bind fun cs cs' hcs ↦
      Pointwise.cons hc hcs

/-- What the copies of two members of an `Any` are to each other. -/
theorem copyEach {gs gs' : List GeneratorPtr}
    (h : Padded Idle Idle (fun g g' ↦ Agree Same (copyOne g) (copyOne g') ∧
      g.lasting = true ∧ g'.lasting = true) gs gs') :
    Agree (fun cs cs' ↦ SameMembers cs cs' ∧ cs.length = gs.length ∧ cs'.length = gs'.length)
      (GeneratorPtr.copyEach gs) (GeneratorPtr.copyEach gs') := by
  suffices Agree SameMembers (GeneratorPtr.copyEach gs) (GeneratorPtr.copyEach gs') from
    this.mono fun cs cs' hcs hcs' h ↦
      ⟨h, (GeneratorPtr.copyEach_rebuilt true hcs).1.symm,
        (GeneratorPtr.copyEach_rebuilt true hcs').1.symm⟩
  -- a member that stands alone is copied to one that stands alone
  have hidle {g : GeneratorPtr} (h : Idle g) : ∃ c, copyOne g = .ok c ∧ Idle c := by
    obtain ⟨c, hc, hlast⟩ := copyOne_idle h.2 (GeneratorPtr.ne_nullptr_of_solid h.1)
    exact ⟨c, hc, GeneratorPtr.solid_of_copyOne hc h.1, hlast⟩
  induction h with
  | nil => exact Padded.nil
  | cons h _ ih =>
    refine (h.1.mono fun c c' hc hc' hs ↦ ⟨hs, ?_, ?_⟩).bind fun c c' hc ↦
      ih.bind fun cs cs' hcs ↦ Padded.cons hc hcs
    · have hr : GeneratorPtr.Rebuilt true true _ c := GeneratorPtr.copyOne_rebuilt hc
      rw [hr.lasting_eq, h.2.1]
    · have hr : GeneratorPtr.Rebuilt true true _ c' := GeneratorPtr.copyOne_rebuilt hc'
      rw [hr.lasting_eq, h.2.2]
  | left h _ ih =>
    obtain ⟨c, hc, hi⟩ := hidle h
    rw [GeneratorPtr.copyEach_cons hc]
    exact ih.cons_left fun cs cs' hcs ↦ Padded.left hi hcs
  | right h _ ih =>
    obtain ⟨c, hc, hi⟩ := hidle h
    rw [GeneratorPtr.copyEach_cons hc]
    exact (ih.symm.cons_left (T := fun cs' cs ↦ SameMembers cs cs')
      fun cs' cs hcs ↦ Padded.right hi hcs).symm

/-- What the copies of two members of a `Mix` are to each other. -/
theorem copyAlike {gs gs' : List GeneratorPtr}
    (h : Pointwise (fun g g' ↦ Agree Same (copyOne g) (copyOne g') ∧
      g.solid = true ∧ g'.solid = true) gs gs') :
    Agree (Pointwise Alike) (GeneratorPtr.copyEach gs) (GeneratorPtr.copyEach gs') := by
  induction gs generalizing gs' with
  | nil =>
    obtain rfl := List.eq_nil_of_length_eq_zero h.1.symm
    exact Pointwise.nil
  | cons g gs ih =>
    obtain ⟨g', gs', hg, hgs, rfl⟩ := h.uncons
    have hcopy := hg.1.mono (S := Alike) fun c c' hc hc' hs ↦
      ⟨hs, GeneratorPtr.solid_of_copyOne hc hg.2.1, GeneratorPtr.solid_of_copyOne hc' hg.2.2⟩
    exact hcopy.bind fun c c' hc ↦ (ih hgs).bind fun cs cs' hcs ↦ Pointwise.cons hc hcs

-- The wrappers that test their generator for null before they copy it.
theorem copyWrapped {g g' : GeneratorPtr} {wrap : GeneratorPtr → GeneratorPtr}
    (hwrap : ∀ c c', Same c c' → Same (wrap c) (wrap c')) (h : Same g g')
    (hcopy : g ≠ .nullptr → g' ≠ .nullptr → Agree Same (copyOne g) (copyOne g')) :
    Agree Same (if g.isNull then .ok (wrap .nullptr) else do return wrap (← copyOne g))
      (if g'.isNull then .ok (wrap .nullptr) else do return wrap (← copyOne g')) := by
  -- The null test can be made on the child instead of on its wrapper.
  have hif (g : GeneratorPtr) :
      (if g.isNull then .ok (wrap .nullptr) else do return wrap (← copyOne g)) =
        ((if g.isNull then .ok .nullptr else copyOne g) >>= fun c ↦ .ok (wrap c) :
          Except Fault GeneratorPtr) := by
    split
    · rfl
    · rfl
  rw [hif, hif]
  exact (copyMember h hcopy).bind hwrap

theorem of_lasting {g g' : GeneratorPtr} (h : Same g g') (hlast : g.lasting = true) :
    g ≠ .nullptr ∧ g' ≠ .nullptr := by
  constructor
  · rintro rfl
    exact absurd hlast (by decide)
  · rintro rfl
    rw [h.lasting_eq] at hlast
    exact absurd hlast (by decide)

/-- Copies of trees that behave alike are such trees. -/
theorem copyOne {g g' : GeneratorPtr} (h : Same g g') (hne : g ≠ .nullptr)
    (hne' : g' ≠ .nullptr) : Agree Same (GeneratorPtr.copyOne g) (GeneratorPtr.copyOne g') := by
  induction h with
  | refl => exact .refl .refl _
  | empty h h' =>
    obtain ⟨c, hc, hlast⟩ := copyOne_idle h hne
    obtain ⟨c', hc', hlast'⟩ := copyOne_idle h' hne'
    rw [hc, hc']
    exact Same.empty hlast hlast'
  | list hlen h ih =>
    rw [GeneratorPtr.copyOne, GeneratorPtr.copyOne]
    exact (Same.copyOrNull ⟨hlen, fun i hi hi' ↦ ⟨h i hi hi', ih i hi hi'⟩⟩).bind
      fun _ _ hcs ↦ .ofList hcs
  | validate h ih =>
    rw [GeneratorPtr.copyOne, GeneratorPtr.copyOne]
    exact copyWrapped (fun _ _ ↦ .validate) h ih
  | onThreads h ih =>
    rw [GeneratorPtr.copyOne, GeneratorPtr.copyOne]
    exact copyWrapped (fun _ _ ↦ .onThreads) h ih
  | @timeLimit limit cutoff g g' h ih =>
    by_cases hlast : g.lasting = true
    · obtain ⟨hg, hg'⟩ := h.of_lasting hlast
      rw [GeneratorPtr.copyOne, GeneratorPtr.copyOne, if_neg (by simpa using hg),
        if_neg (by simpa using hg')]
      exact (ih hg hg').bind fun _ _ ↦ .timeLimit
    -- a time limit over nothing is nothing itself
    · have hidle : (GeneratorPtr.timeLimit limit cutoff g).lasting = false :=
        eq_false_of_ne_true hlast
      obtain ⟨c, hc, hc₁⟩ := copyOne_idle hidle hne
      obtain ⟨c', hc', hc₂⟩ := copyOne_idle ((Same.timeLimit h).lasting_eq ▸ hidle) hne'
      rw [hc, hc']
      exact Same.empty hc₁ hc₂
  | @stagger dt nt g g' h ih =>
    by_cases hlast : g.lasting = true
    · obtain ⟨hg, hg'⟩ := h.of_lasting hlast
      rw [GeneratorPtr.copyOne, GeneratorPtr.copyOne, if_neg (by simpa using hg),
        if_neg (by simpa using hg')]
      exact (ih hg hg').bind fun _ _ ↦ .stagger
    · have hidle : (GeneratorPtr.stagger dt nt g).lasting = false :=
        eq_false_of_ne_true hlast
      obtain ⟨c, hc, hc₁⟩ := copyOne_idle hidle hne
      obtain ⟨c', hc', hc₂⟩ := copyOne_idle ((Same.stagger h).lasting_eq ▸ hidle) hne'
      rw [hc, hc']
      exact Same.empty hc₁ hc₂
  -- the copies of the members are dropped
  | mix hsolid hsolid' hlen h ih =>
    rw [GeneratorPtr.copyOne, GeneratorPtr.copyOne]
    refine (Same.copyAlike ⟨hlen, fun i hi hi' ↦ ?_⟩).bind fun _ _ _ ↦
      .mix hsolid hsolid' hlen h
    have hg := hsolid _ (List.getElem_mem hi)
    have hg' := hsolid' _ (List.getElem_mem hi')
    exact ⟨ih i hi hi' (GeneratorPtr.ne_nullptr_of_solid hg)
      (GeneratorPtr.ne_nullptr_of_solid hg'), hg, hg'⟩
  | any hsolid hsolid' hlen h ih =>
    rw [GeneratorPtr.copyOne, GeneratorPtr.copyOne]
    refine (Same.copyEach (Padded.of_filter (p := GeneratorPtr.lasting)
      (q := GeneratorPtr.lasting) (fun g hg hlast ↦ ⟨hsolid g hg, hlast⟩)
      (fun g hg hlast ↦ ⟨hsolid' g hg, hlast⟩) ⟨hlen, fun i hi hi' hlast hlast' ↦ ?_⟩)).bind
      fun _ _ hcs ↦ hcs.1.same_any
    obtain ⟨hg, hg'⟩ := (h i hi hi').of_lasting hlast
    exact ⟨ih i hi hi' hg hg', hlast, hlast'⟩

end Same

/-! ## What a call on copies leaves -/

namespace GeneratorPtr

@[simp] theorem length_writeBackEach (gs cs : List GeneratorPtr) :
    (writeBackEach gs cs).length = gs.length := by
  induction gs generalizing cs with
  | nil => rfl
  | cons g gs ih => simp [writeBackEach, ih]

theorem writeBackEach_eq_zipWith {gs cs : List GeneratorPtr} (h : gs.length = cs.length) :
    writeBackEach gs cs = List.zipWith writeBack gs cs := by
  induction gs generalizing cs with
  | nil => rfl
  | cons g gs ih =>
    cases cs with
    | nil => exact absurd h (by simp)
    | cons c cs => exact congrArg _ (ih (by simpa using h))

end GeneratorPtr

namespace Same

variable {g g' c c' : GeneratorPtr}

theorem child (h : Same g g') : Same g.child g'.child := by
  have hidle {g : GeneratorPtr} (h : g.lasting = false) : g.child.lasting = false := by
    cases g with
    | nullptr => rfl
    | list gs => rfl
    | timeLimit limit cutoff g => exact h
    | stagger dt nt g => exact h
    | _ => exact absurd h (by simp [GeneratorPtr.lasting])
  cases h with
  | refl => exact .refl _
  | empty h h' => exact .empty (hidle h) (hidle h')
  | validate h | onThreads h | timeLimit h | stagger h => exact h
  | _ => exact .refl _

-- The trees that are alike to a list with members are lists.
theorem list_inv {gs : List GeneratorPtr} (h : Same (.list gs) g')
    (hlast : (GeneratorPtr.list gs).lasting = true) :
    ∃ gs', g' = .list gs' ∧ Pointwise Same gs gs' := by
  cases h with
  | refl => exact ⟨gs, rfl, .refl .refl gs⟩
  | empty h => exact absurd hlast (by simp [h])
  | list hlen h => exact ⟨_, rfl, hlen, h⟩

theorem pointwise_of_list {gs gs' : List GeneratorPtr} (h : Same (.list gs) (.list gs')) :
    Pointwise Same gs gs' := by
  cases h with
  | refl => exact .refl .refl gs
  | list hlen h => exact ⟨hlen, h⟩
  | empty h h' =>
    have hnil {gs : List GeneratorPtr} (h : (GeneratorPtr.list gs).lasting = false) : gs = [] := by
      cases gs with
      | nil => rfl
      | cons => exact absurd h (by simp [GeneratorPtr.lasting])
    rw [hnil h, hnil h']
    exact .nil

-- Unlike a list, an `Any` is alike to itself even when it holds a null pointer.
theorem any_inv {gs : List GeneratorPtr} (h : Same (.any gs) g') :
    ∃ gs', g' = .any gs' ∧
      (gs = gs' ∨ (∀ g ∈ gs, g.solid = true) ∧ ∀ g ∈ gs', g.solid = true) ∧
      Pointwise Same (gs.filter GeneratorPtr.lasting) (gs'.filter GeneratorPtr.lasting) := by
  cases h with
  | refl => exact ⟨gs, rfl, .inl rfl, .refl .refl _⟩
  | empty h => exact absurd h (by simp [GeneratorPtr.lasting])
  | any hsolid hsolid' hlen h => exact ⟨_, rfl, .inr ⟨hsolid, hsolid'⟩, hlen, h⟩

theorem writeBack_any {gs gs' cs cs' : List GeneratorPtr}
    (hsolid : ∀ g ∈ gs, g.solid = true) (hsolid' : ∀ g ∈ gs', g.solid = true)
    (hr : Pointwise (Rebuilt true true) gs cs) (hr' : Pointwise (Rebuilt true true) gs' cs')
    (h : ∀ i (hi : i < (gs.filter GeneratorPtr.lasting).length)
      (hi' : i < (gs'.filter GeneratorPtr.lasting).length)
      (hj : i < (cs.filter GeneratorPtr.lasting).length)
      (hj' : i < (cs'.filter GeneratorPtr.lasting).length),
      Same (GeneratorPtr.writeBack (gs.filter GeneratorPtr.lasting)[i]
          (cs.filter GeneratorPtr.lasting)[i])
        (GeneratorPtr.writeBack (gs'.filter GeneratorPtr.lasting)[i]
          (cs'.filter GeneratorPtr.lasting)[i]))
    (hlen : (gs.filter GeneratorPtr.lasting).length = (gs'.filter GeneratorPtr.lasting).length) :
    Same (.any (writeBackEach gs cs)) (.any (writeBackEach gs' cs')) := by
  have hkept {gs cs : List GeneratorPtr} (hr : Pointwise (Rebuilt true true) gs cs)
      (hsolid : ∀ g ∈ gs, g.solid = true) : ∀ g ∈ writeBackEach gs cs, g.solid = true :=
    (GeneratorPtr.writeBackEach_rebuilt hr).forall_mem (fun _ _ hgg' ↦ hgg'.solid_of_polled rfl)
      hsolid
  -- writing back commutes with leaving the idle members out
  have hfilter {gs cs : List GeneratorPtr} (hr : Pointwise (Rebuilt true true) gs cs) :
      (writeBackEach gs cs).filter GeneratorPtr.lasting =
        List.zipWith GeneratorPtr.writeBack (gs.filter GeneratorPtr.lasting)
          (cs.filter GeneratorPtr.lasting) := by
    rw [GeneratorPtr.writeBackEach_eq_zipWith hr.1]
    exact hr.filter_zipWith fun g c hgc ↦ ⟨hgc.lasting_eq, hgc.writeBack.lasting_eq⟩
  have hlens {gs cs : List GeneratorPtr} (hr : Pointwise (Rebuilt true true) gs cs) :
      (gs.filter GeneratorPtr.lasting).length = (cs.filter GeneratorPtr.lasting).length :=
    (hr.filter (p := GeneratorPtr.lasting) (q := GeneratorPtr.lasting)
      fun g c hgc ↦ hgc.lasting_eq).1
  have hpointwise : Pointwise Same ((writeBackEach gs cs).filter GeneratorPtr.lasting)
      ((writeBackEach gs' cs').filter GeneratorPtr.lasting) := by
    rw [hfilter hr, hfilter hr']
    refine ⟨by simp [← hlens hr, ← hlens hr', hlen], fun i hi hi' ↦ ?_⟩
    rw [List.getElem_zipWith, List.getElem_zipWith]
    exact h i _ _ _ _
  exact .any (hkept hr hsolid) (hkept hr' hsolid') hpointwise.1 hpointwise.2

theorem writeBack_idle (h : Same g g') (hidle : g.lasting = false) (hr : Rebuilt true true g c)
    (hr' : Rebuilt true true g' c') :
    Same (GeneratorPtr.writeBack g c) (GeneratorPtr.writeBack g' c') :=
  .empty (hr.writeBack.lasting_eq.trans hidle)
    (hr'.writeBack.lasting_eq.trans (h.lasting_eq ▸ hidle))

/-- What a call assigned in the members of a `Mix` is the same in trees that behave alike. -/
theorem writeBack (h : Same g g') (hc : Same c c') (hr : Rebuilt true true g c)
    (hr' : Rebuilt true true g' c') :
    Same (GeneratorPtr.writeBack g c) (GeneratorPtr.writeBack g' c') := by
  induction g generalizing g' c c' with
  | nullptr => exact h.writeBack_idle rfl hr hr'
  | operation o | function f | user leaf calls =>
    cases h with
    | refl => exact .refl _
    | empty h => exact absurd h (by simp [GeneratorPtr.lasting])
  | mix idx gs =>
    obtain ⟨gs', rfl, -⟩ := h.mix_inv
    -- the members of the copy are those of the tree, which shares them
    have hmix : ∃ cs, c = .mix idx cs := by
      cases hr with
      | refl => exact ⟨gs, rfl⟩
      | mix => exact ⟨_, rfl⟩
    obtain ⟨cs, rfl⟩ := hmix
    obtain ⟨cs', rfl, -⟩ := hc.mix_inv
    exact hc
  | list gs ih =>
    by_cases hlast : (GeneratorPtr.list gs).lasting = true
    · obtain ⟨gs', rfl, hgs⟩ := h.list_inv hlast
      have hlist : ∃ cs, c = .list cs := by
        cases hr with
        | refl => exact ⟨gs, rfl⟩
        | emptyList => exact absurd hlast (by decide)
        | list => exact ⟨_, rfl⟩
      obtain ⟨cs, rfl⟩ := hlist
      -- both copies are lists as long as their originals
      obtain ⟨cs', rfl, hcs⟩ := hc.list_inv (hr.lasting_eq.trans hlast)
      have hm : Pointwise (Rebuilt true true) gs cs := hr.members
      have hm' : Pointwise (Rebuilt true true) gs' cs' := hr'.members
      change Same (.list (writeBackEach gs cs)) (.list (writeBackEach gs' cs'))
      rw [GeneratorPtr.writeBackEach_eq_zipWith hm.1, GeneratorPtr.writeBackEach_eq_zipWith hm'.1]
      refine .ofList ⟨by simp [← hm.1, ← hm'.1, hgs.1], fun i hi hi' ↦ ?_⟩
      simp only [List.length_zipWith] at hi hi'
      rw [List.getElem_zipWith, List.getElem_zipWith]
      exact ih _ (List.getElem_mem _) (hgs.2 i (by omega) (by omega))
        (hcs.2 i (by omega) (by omega)) (hm.2 i (by omega) (by omega))
        (hm'.2 i (by omega) (by omega))
    · exact h.writeBack_idle (eq_false_of_ne_true hlast) hr hr'
  | validate g ih =>
    cases h with
    | refl => exact .validate (ih (.refl _) hc.child hr.child hr'.child)
    | empty h => exact absurd h (by simp [GeneratorPtr.lasting])
    | validate h => exact .validate (ih h hc.child hr.child hr'.child)
  | onThreads g filter ih =>
    cases h with
    | refl => exact .onThreads (ih (.refl _) hc.child hr.child hr'.child)
    | empty h => exact absurd h (by simp [GeneratorPtr.lasting])
    | onThreads h => exact .onThreads (ih h hc.child hr.child hr'.child)
  | timeLimit limit cutoff g ih =>
    cases h with
    | refl => exact .timeLimit (ih (.refl _) hc.child hr.child hr'.child)
    | empty h h' => exact (Same.empty h h').writeBack_idle h hr hr'
    | timeLimit h => exact .timeLimit (ih h hc.child hr.child hr'.child)
  | stagger dt nt g ih =>
    cases h with
    | refl => exact .stagger (ih (.refl _) hc.child hr.child hr'.child)
    | empty h h' => exact (Same.empty h h').writeBack_idle h hr hr'
    | stagger h => exact .stagger (ih h hc.child hr.child hr'.child)
  | any gs ih =>
    obtain ⟨gs', rfl, hgs, hfilter⟩ := h.any_inv
    have hany {gs : List GeneratorPtr} {c : GeneratorPtr} (hr : Rebuilt true true (.any gs) c) :
        ∃ cs, c = .any cs := by
      cases hr with
      | refl => exact ⟨gs, rfl⟩
      | any => exact ⟨_, rfl⟩
    obtain ⟨cs, rfl⟩ := hany hr
    obtain ⟨cs', rfl, hcs, hcfilter⟩ := hc.any_inv
    have hm : Pointwise (Rebuilt true true) gs cs := hr.anyMembers
    have hm' : Pointwise (Rebuilt true true) gs' cs' := hr'.anyMembers
    have hf := hm.filter (p := GeneratorPtr.lasting) (q := GeneratorPtr.lasting)
      fun _ _ h ↦ h.lasting_eq
    have hf' := hm'.filter (p := GeneratorPtr.lasting) (q := GeneratorPtr.lasting)
      fun _ _ h ↦ h.lasting_eq
    by_cases hsolid : (∀ g ∈ gs, g.solid = true) ∧ ∀ g ∈ gs', g.solid = true
    · exact writeBack_any hsolid.1 hsolid.2 hm hm' (fun i hi hi' hj hj' ↦
        ih _ (List.mem_of_mem_filter (List.getElem_mem hi)) (hfilter.2 i hi hi')
          (hcfilter.2 i hj hj') (hf.2 i hi hj) (hf'.2 i hi' hj')) hfilter.1
    · -- only a tree that was not changed may hold a null pointer in an `Any`
      obtain rfl := hgs.resolve_right hsolid
      obtain rfl : cs = cs' := by
        refine hcs.resolve_right fun hcs ↦ hsolid ?_
        have hback : ∀ g ∈ gs, g.solid = true := by
          intro g hg
          obtain ⟨c, hc, hgc⟩ := hm.exists_right hg
          exact hgc.solid_of_solid (hcs.1 c hc)
        exact ⟨hback, hback⟩
      exact .refl _

-- The members of a `Mix` that behave alike, after a call on copies of them.
theorem writeBackEach_alike {gs gs' cs cs' : List GeneratorPtr} (h : Pointwise Alike gs gs')
    (hc : Pointwise Same cs cs') (hr : Pointwise (Rebuilt true true) gs cs)
    (hr' : Pointwise (Rebuilt true true) gs' cs') :
    Pointwise Alike (writeBackEach gs cs) (writeBackEach gs' cs') := by
  have hlist : Same (.list (writeBackEach gs cs)) (.list (writeBackEach gs' cs')) :=
    (Same.ofList (h.mono fun _ _ _ h ↦ h.1)).writeBack (.ofList hc) (.ofList hr) (.ofList hr')
  have hback := GeneratorPtr.writeBackEach_rebuilt hr
  have hback' := GeneratorPtr.writeBackEach_rebuilt hr'
  have hpointwise := hlist.pointwise_of_list
  refine ⟨hpointwise.1, fun i hi hi' ↦ ⟨hpointwise.2 i hi hi', ?_, ?_⟩⟩
  · have hi₀ : i < gs.length := hback.1 ▸ hi
    exact (hback.2 i hi₀ hi).solid_of_polled rfl (h.2 i hi₀ (h.1 ▸ hi₀)).2.1
  · have hi₀ : i < gs'.length := hback'.1 ▸ hi'
    exact (hback'.2 i hi₀ hi').solid_of_polled rfl (h.2 i (h.1.symm ▸ hi₀) hi₀).2.2

end Same

end Jepsen
