import Jepsen.Generator.Answers

/-!
# Trees that can be asked

What `generator::op` needs of a tree: that no function of it answers nil (`NilFree`), enough fuel
for its size (`fuel`), and, so that the call does not fault, that it is `Fit`.  Calls and copies
leave a fit tree fit, and no larger.
-/

namespace Jepsen

open Library
open GeneratorPtr (copyOne copyEach copyOrNull Rebuilt)

/-! ## Functions that have nothing more to offer -/

/-- The function never answers nil. -/
def FunctionGenerator.NeverNil (f : FunctionGenerator) : Prop :=
  ∀ ctx k, (f.func ctx k).type ≠ .kNil

/-- `f` is a leaf of the tree. -/
inductive FunctionIn (f : FunctionGenerator) : GeneratorPtr → Prop
  | function : FunctionIn f (.function f)
  | list {gs : List GeneratorPtr} {g} (hg : g ∈ gs) (h : FunctionIn f g) : FunctionIn f (.list gs)
  | validate {g} (h : FunctionIn f g) : FunctionIn f (.validate g)
  | onThreads {g filter} (h : FunctionIn f g) : FunctionIn f (.onThreads g filter)
  | timeLimit {limit cutoff g} (h : FunctionIn f g) : FunctionIn f (.timeLimit limit cutoff g)
  | stagger {dt next_time g} (h : FunctionIn f g) : FunctionIn f (.stagger dt next_time g)
  | mix {idx} {gs : List GeneratorPtr} {g} (hg : g ∈ gs) (h : FunctionIn f g) :
      FunctionIn f (.mix idx gs)
  | any {gs : List GeneratorPtr} {g} (hg : g ∈ gs) (h : FunctionIn f g) : FunctionIn f (.any gs)

def NilFree (g : GeneratorPtr) : Prop := ∀ f, FunctionIn f g → f.NeverNil

/-! ## How deep a call goes -/

namespace GeneratorPtr

mutual

/-- Enough fuel to ask the tree, when its functions do not answer nil. -/
def fuel : GeneratorPtr → Nat
  | .nullptr => 1
  | .operation _ => 1
  | .function _ => 3
  | .list gs => 2 + fuelEach gs
  | .validate g => 1 + fuel g
  | .onThreads g _ => 1 + fuel g
  | .timeLimit _ _ g => 1 + fuel g
  | .stagger _ _ g => 1 + fuel g
  | .mix _ gs => 1 + fuelEach gs
  | .any gs => 1 + fuelEach gs
  | .user _ _ => 1

def fuelEach : List GeneratorPtr → Nat
  | [] => 0
  | g :: gs => fuel g + fuelEach gs

end

theorem fuel_pos (g : GeneratorPtr) : 0 < g.fuel := by
  cases g <;> simp only [fuel] <;> omega

theorem fuelEach_le {gs gs' : List GeneratorPtr}
    (h : Pointwise (fun g g' ↦ g'.fuel ≤ g.fuel) gs gs') : fuelEach gs' ≤ fuelEach gs := by
  induction gs generalizing gs' with
  | nil =>
    obtain rfl := List.eq_nil_of_length_eq_zero h.1.symm
    exact le_rfl
  | cons g gs ih =>
    obtain ⟨g', gs', hg, hgs, rfl⟩ := h.uncons
    simp only [fuelEach]
    exact Nat.add_le_add hg (ih hgs)

theorem Rebuilt.fuel_le {polled copied : Bool} {g g' : GeneratorPtr}
    (h : Rebuilt polled copied g g') : g'.fuel ≤ g.fuel := by
  induction h with
  | refl => exact le_rfl
  | emptyList | timeLimitNull | staggerNull => simp only [fuel]; omega
  | list hlen _ ih | mix _ hlen _ ih | any hlen _ ih =>
    have := fuelEach_le ⟨hlen, ih⟩
    simp only [fuel]
    omega
  | validate _ ih | onThreads _ ih | timeLimit _ ih | stagger _ ih =>
    simp only [fuel]
    omega
  | user => exact le_rfl

theorem fuel_le_fuelEach {g : GeneratorPtr} {gs : List GeneratorPtr} (h : g ∈ gs) :
    g.fuel ≤ fuelEach gs := by
  induction gs with
  | nil => exact absurd h (by simp)
  | cons g' gs ih =>
    simp only [fuelEach]
    rcases List.mem_cons.mp h with rfl | h
    · omega
    · have := ih h
      omega

theorem fuelEach_eraseIdx {gs : List GeneratorPtr} {i : Nat} {g : GeneratorPtr}
    (h : gs[i]? = some g) : g.fuel + fuelEach (gs.eraseIdx i) = fuelEach gs := by
  induction gs generalizing i with
  | nil => exact absurd h (by simp)
  | cons g' gs ih =>
    cases i with
    | zero =>
      obtain rfl : g' = g := by simpa using h
      rfl
    | succ i =>
      have := ih (i := i) (by simpa using h)
      simp only [List.eraseIdx_cons_succ, fuelEach]
      omega

/-! ## Trees that can be copied -/

/-- No copy of the tree is null, nor a copy of a copy. -/
def solid : GeneratorPtr → Bool
  | .nullptr => false
  | .timeLimit _ _ g => solid g
  | .stagger _ _ g => solid g
  | _ => true

theorem ne_nullptr_of_solid {g : GeneratorPtr} (h : g.solid = true) : g ≠ .nullptr := by
  rintro rfl
  exact absurd h (by decide)

theorem Rebuilt.solid_of_polled {polled copied : Bool} {g g' : GeneratorPtr}
    (hr : Rebuilt polled copied g g') (hc : copied = false) (h : g.solid = true) :
    g'.solid = true := by
  induction hr with
  | refl => exact h
  | emptyList | timeLimitNull | staggerNull => exact absurd hc (by simp)
  | timeLimit _ ih => exact ih hc h
  | stagger _ ih => exact ih hc h
  | _ => rfl

end GeneratorPtr

/-! ## Trees that always offer -/

/-- The tree offers an operation in every context. -/
inductive Offers : GeneratorPtr → Prop
  | function {f : FunctionGenerator} (hf : f.NeverNil) : Offers (.function f)
  | listOperation {o : Operation} {rest : List GeneratorPtr} (ho : o.type ≠ .kNil)
      (hrest : rest ≠ []) : Offers (.list (.operation o :: rest))
  | list {first rest} (h : Offers first) : Offers (.list (first :: rest))
  | validate {g} (h : Offers g) : Offers (.validate g)
  | onThreads {g filter} (h : Offers g) : Offers (.onThreads g filter)
  | stagger {dt next_time g} (h : Offers g) : Offers (.stagger dt next_time g)
  | mix {idx} {gs : List GeneratorPtr} {g} (hg : g ∈ gs) (h : Offers g) : Offers (.mix idx gs)
  | any {gs : List GeneratorPtr} {g} (hg : g ∈ gs) (h : Offers g) : Offers (.any gs)

theorem Offers.rebuilt {polled copied : Bool} {g g' : GeneratorPtr} (h : Offers g)
    (hr : Rebuilt polled copied g g') : Offers g' := by
  induction h generalizing polled copied g' with
  | function hf =>
    cases hr
    exact .function hf
  -- A list that is rebuilt keeps its length, so that the operation still has others behind it.
  | listOperation ho hrest =>
    cases hr with
    | refl => exact .listOperation ho hrest
    | list hlen h =>
      obtain ⟨first, rest, hfirst, hothers, rfl⟩ := Pointwise.uncons ⟨hlen, h⟩
      cases hfirst
      refine .listOperation ho fun hnil ↦ hrest (List.eq_nil_of_length_eq_zero ?_)
      rw [hothers.1, hnil, List.length_nil]
  | list _ ih =>
    cases hr with
    | refl => exact .list (ih (.refl _ : Rebuilt false false _ _))
    | list hlen h =>
      obtain ⟨first, rest, hfirst, -, rfl⟩ := Pointwise.uncons ⟨hlen, h⟩
      exact .list (ih hfirst)
  | validate h ih =>
    cases hr with
    | refl => exact .validate h
    | validate hr => exact .validate (ih hr)
  | onThreads h ih =>
    cases hr with
    | refl => exact .onThreads h
    | onThreads hr => exact .onThreads (ih hr)
  | stagger h ih =>
    cases hr with
    | refl => exact .stagger h
    | staggerNull hr => exact ih hr
    | stagger hr => exact .stagger (ih hr)
  | mix hg h ih =>
    cases hr with
    | refl => exact .mix hg h
    | mix _ hlen hr =>
      obtain ⟨g', hg', hr⟩ := Pointwise.exists_right ⟨hlen, hr⟩ hg
      exact .mix hg' (ih hr)
  | any hg h ih =>
    cases hr with
    | refl => exact .any hg h
    | any hlen hr =>
      obtain ⟨g', hg', hr⟩ := Pointwise.exists_right ⟨hlen, hr⟩ hg
      exact .any hg' (ih hr)

theorem MayFill.ne_nil {ctx : Context} {o r : Operation} (h : MayFill ctx o r)
    (ho : o.type ≠ .kNil) : r.type ≠ .kNil := by
  obtain ⟨p, -, rfl⟩ := h
  by_cases hp : p = kInvalidProcess
  · simp [fillIn, hp]
  · by_cases hinit : o.type = .kInit
    · simp [fillIn, hp, hinit]
    · simp [fillIn, hp, hinit, ho]

theorem Answers.operation_ne_nil {o : Operation} {ctx : Context} {a : Answer}
    (ha : Answers (.operation o) ctx a) (ho : o.type ≠ .kNil) : a.op.type ≠ .kNil := by
  cases ha with
  | pending hfill => exact hfill.ne_nil ho
  | operation hfill => exact hfill.ne_nil ho

theorem Answers.list_operation_ne_nil {o : Operation} {g : GeneratorPtr} {ctx : Context}
    {a : Answer} (ha : Answers (.list [.operation o, g]) ctx a) (ho : o.type ≠ .kNil) :
    a.op.type ≠ .kNil := by
  cases ha with
  | listPop ha _ hnil => exact absurd hnil (ha.operation_ne_nil ho)
  | listFront ha => exact ha.operation_ne_nil ho

theorem mem_or_mem_eraseIdx {α : Type} {xs : List α} {i : Nat} {x y : α} (hx : xs[i]? = some x)
    (hy : y ∈ xs) : y = x ∨ y ∈ xs.eraseIdx i := by
  obtain ⟨j, hj, rfl⟩ := List.getElem_of_mem hy
  by_cases hji : j = i
  · subst hji
    exact .inl (List.getElem?_eq_some_iff.mp hx).2
  · exact .inr (List.mem_eraseIdx_iff_getElem.mpr ⟨j, hj, hji, rfl⟩)

theorem Offers.offer {g : GeneratorPtr} {ctx : Context} {a : Answer} (h : Offers g)
    (ha : Answers g ctx a) : a.Offer := by
  induction ha with
  | nullptr | pending | operation | listEmpty | userNil | user => cases h
  | mixEmpty => cases h with | mix hg => exact absurd hg (by simp)
  | function _ ih =>
    cases h with
    | function hf => exact ih (.listOperation (hf _ _) (by simp))
  -- the first member offers, and so is not used up
  | listPop ha hgen hnil _ _ ih₁ =>
    cases h with
    | listOperation ho => exact absurd hnil (ha.operation_ne_nil ho)
    | list h => exact absurd hgen (Answer.offer_iff.mp (ih₁ h)).2
  | listFront ha _ _ _ ih =>
    refine Answer.offer_iff.mpr ⟨?_, by simp⟩
    cases h with
    | listOperation ho => exact ha.operation_ne_nil ho
    | list h => exact (Answer.offer_iff.mp (ih h)).1
  | listSingle _ _ ih =>
    cases h with
    | listOperation _ hrest => exact absurd rfl hrest
    | list h => exact ih h
  | validate _ hoff => exact Answer.offer_iff.mpr ⟨(Answer.offer_iff.mp hoff).1, by simp⟩
  | onThreads _ hoff => exact Answer.offer_iff.mpr ⟨(Answer.offer_iff.mp hoff).1, by simp⟩
  | validateLast _ hoff ih => cases h with | validate h => exact absurd (ih h) hoff
  | onThreadsNil _ hoff ih => cases h with | onThreads h => exact absurd (ih h) hoff
  | timeLimitPending | timeLimit | timeLimitOver | timeLimitNil => cases h
  | staggerPending _ hoff => exact Answer.offer_iff.mpr ⟨(Answer.offer_iff.mp hoff).1, by simp⟩
  | stagger _ hoff => exact Answer.offer_iff.mpr ⟨(Answer.offer_iff.mp hoff).1, by simp⟩
  | staggerNil _ hoff ih => cases h with | stagger h => exact absurd (ih h) hoff
  | mix _ _ hoff => exact Answer.offer_iff.mpr ⟨(Answer.offer_iff.mp hoff).1, by simp⟩
  | mixDrop hgen _ hoff hcopy _ ih₁ ih₂ =>
    cases h with
    | mix hg h =>
      -- The member that offers is another one, since the asked one did not.
      have hother := (mem_or_mem_eraseIdx hgen hg).resolve_left fun heq ↦ hoff (ih₁ (heq ▸ h))
      obtain ⟨g', hg', hr⟩ := (GeneratorPtr.copyEach_rebuilt false hcopy).exists_right hother
      exact ih₂ (.mix hg' (h.rebuilt hr))
  | any _ _ hbest => exact Answer.offer_iff.mpr ⟨(Answer.offer_iff.mp hbest.offer).1, by simp⟩
  | anyNil hlen has hnone ih =>
    cases h with
    | any hg h =>
      obtain ⟨i, hi, rfl⟩ := List.getElem_of_mem hg
      exact absurd (ih i hi (hlen ▸ hi) h) (hnone _ (List.getElem_mem (hlen ▸ hi)))

/-! ## Fit trees -/

/-- Asking the tree faults in the ways that `E` tolerates only. -/
inductive Fit (E : Fault → Prop) : GeneratorPtr → Prop
  | nullptr : Fit E .nullptr
  | operation {o} : Fit E (.operation o)
  | function {f} : Fit E (.function f)
  | list {gs} (h : ∀ g ∈ gs, Fit E g) : Fit E (.list gs)
  | validate {g} (h : Fit E g) : Fit E (.validate g)
  | onThreads {g filter} (h : Fit E g) : Fit E (.onThreads g filter)
  | timeLimit {limit cutoff g} (h : Fit E g) : Fit E (.timeLimit limit cutoff g)
  | stagger {dt next_time g} (hdt : E .divisionByZero ∨ dt ≠ 0) (h : Fit E g) :
      Fit E (.stagger dt next_time g)
  | mix {idx} {gs : List GeneratorPtr} (hidx : E .outOfRange ∨ idx < gs.length)
      (hsolid : E .nullPointer ∨ ∀ g ∈ gs, g.solid = true)
      (hoffers : E .divisionByZero ∨ ∃ g ∈ gs, Offers g) (h : ∀ g ∈ gs, Fit E g) :
      Fit E (.mix idx gs)
  | any {gs : List GeneratorPtr} (hsolid : E .nullPointer ∨ ∀ g ∈ gs, g.solid = true)
      (h : ∀ g ∈ gs, Fit E g) : Fit E (.any gs)
  | user {leaf calls} : Fit E (.user leaf calls)

variable {E : Fault → Prop}

/-- Every tree is fit when every fault but missing fuel is tolerated. -/
theorem fit_of_forall (hE : ∀ e, e ≠ .outOfFuel → E e) (g : GeneratorPtr) : Fit E g := by
  -- Where every fault but the lack of fuel is tolerated, there is nothing to ask of the tree.
  induction g with
  | nullptr => exact .nullptr
  | operation o => exact .operation
  | function f => exact .function
  | list gs ih => exact .list ih
  | validate g ih => exact .validate ih
  | onThreads g filter ih => exact .onThreads ih
  | timeLimit limit cutoff g ih => exact .timeLimit ih
  | stagger dt nt g ih => exact .stagger (.inl (hE _ (by decide))) ih
  | mix idx gs ih =>
    exact .mix (.inl (hE _ (by decide))) (.inl (hE _ (by decide))) (.inl (hE _ (by decide))) ih
  | any gs ih => exact .any (.inl (hE _ (by decide))) ih
  | user leaf calls => exact .user

/-- A call leaves a fit tree fit. -/
theorem Fit.polled {polled copied : Bool} {g g' : GeneratorPtr} (hr : Rebuilt polled copied g g')
    (hc : copied = false) (h : Fit E g) : Fit E g' := by
  induction hr with
  | refl => exact h
  | emptyList | timeLimitNull | staggerNull => exact absurd hc (by simp)
  | list hlen _ ih =>
    cases h with
    | list h =>
      exact .list (Pointwise.forall_mem_of_getElem hlen (fun i hi hi' ↦ ih i hi hi' hc) h)
  | validate _ ih => cases h with | validate h => exact .validate (ih hc h)
  | onThreads _ ih => cases h with | onThreads h => exact .onThreads (ih hc h)
  | timeLimit _ ih => cases h with | timeLimit h => exact .timeLimit (ih hc h)
  | stagger _ ih => cases h with | stagger hdt h => exact .stagger hdt (ih hc h)
  | mix _ hlen hr ih =>
    cases h with
    | mix hidx hsolid hoffers h =>
      refine .mix (hlen ▸ hidx) (hsolid.imp id ?_) (hoffers.imp id ?_) ?_
      · exact Pointwise.forall_mem_of_getElem hlen
          fun i hi hi' ↦ (hr i hi hi').solid_of_polled rfl
      -- the member that offers is rebuilt with the others
      · rintro ⟨g, hg, ho⟩
        obtain ⟨g', hg', hgg'⟩ := Pointwise.exists_right ⟨hlen, hr⟩ hg
        exact ⟨g', hg', ho.rebuilt hgg'⟩
      · exact Pointwise.forall_mem_of_getElem hlen (fun i hi hi' ↦ ih i hi hi' rfl) h
  | any hlen hr ih =>
    cases h with
    | any hsolid h =>
      refine .any (hsolid.imp id ?_) ?_
      · exact Pointwise.forall_mem_of_getElem hlen fun i hi hi' ↦ (hr i hi hi').solid_of_polled hc
      · exact Pointwise.forall_mem_of_getElem hlen (fun i hi hi' ↦ ih i hi hi' hc) h
  | user => exact .user

/-! ## Copies of fit trees -/

/-- What a copy of a fit tree is. -/
structure Copied (E : Fault → Prop) (g g' : GeneratorPtr) : Prop where
  rebuilt : Rebuilt true true g g'
  fit : Fit E g'
  solid : g.solid = true → g'.solid = true

theorem copyEach_outcome {R : GeneratorPtr → GeneratorPtr → Prop} {gs : List GeneratorPtr}
    (h : ∀ g ∈ gs, Outcome E (R g) (copyOne g)) : Outcome E (Pointwise R gs) (copyEach gs) := by
  induction gs with
  | nil => exact Pointwise.nil
  | cons g gs ih =>
    obtain ⟨hg, hgs⟩ := List.forall_mem_cons.mp h
    exact hg.bind fun g' hg' ↦ (ih hgs).bind fun gs' hgs' ↦ Pointwise.cons hg' hgs'

theorem copyOrNull_outcome {R : GeneratorPtr → GeneratorPtr → Prop} {gs : List GeneratorPtr}
    (hnull : R .nullptr .nullptr) (h : ∀ g ∈ gs, g ≠ .nullptr → Outcome E (R g) (copyOne g)) :
    Outcome E (Pointwise R gs) (copyOrNull gs) := by
  induction gs with
  | nil => exact Pointwise.nil
  | cons g gs ih =>
    obtain ⟨hg, hgs⟩ := List.forall_mem_cons.mp h
    -- A null member stays null in the copy.
    have hhead : Outcome E (R g) (if g.isNull then .ok .nullptr else copyOne g) := by
      by_cases hn : g = .nullptr
      · subst hn
        exact hnull
      · rw [if_neg (by simpa using hn)]
        exact hg hn
    exact hhead.bind fun g' hg' ↦ (ih hgs).bind fun gs' hgs' ↦ Pointwise.cons hg' hgs'

theorem Copied.nullptr : Copied E .nullptr .nullptr := ⟨.refl _, .nullptr, id⟩

theorem Fit.copyOne {g : GeneratorPtr} (h : Fit E g) (hne : E .nullPointer ∨ g ≠ .nullptr) :
    Outcome E (Copied E g) (GeneratorPtr.copyOne g) := by
  suffices Outcome E (fun g' ↦ Fit E g' ∧ (g.solid = true → g'.solid = true))
      (GeneratorPtr.copyOne g) from
    this.mono fun g' hok hg' ↦ ⟨GeneratorPtr.copyOne_rebuilt hok, hg'.1, hg'.2⟩
  induction g with
  | nullptr => exact hne.resolve_right (by simp)
  | operation o => exact ⟨h, id⟩
  | function f => exact ⟨h, id⟩
  | user leaf calls => exact ⟨h, id⟩
  | list gs ih =>
    cases h with
    | list h =>
      rw [GeneratorPtr.copyOne]
      have hcopy : Outcome E
          (Pointwise (fun g g' ↦ Fit E g' ∧ (g.solid = true → g'.solid = true)) gs)
          (GeneratorPtr.copyOrNull gs) :=
        copyOrNull_outcome ⟨.nullptr, id⟩ fun g hg hn ↦ ih g hg (h g hg) (.inr hn)
      exact hcopy.bind fun gs' hgs' ↦ ⟨.list (hgs'.forall_right fun _ _ h ↦ h.1), fun _ ↦ rfl⟩
  | validate g ih =>
    cases h with
    | validate h =>
      rw [GeneratorPtr.copyOne]
      split
      · exact ⟨.validate .nullptr, id⟩
      · rename_i hn
        exact (ih h (.inr (by simpa using hn))).bind fun g' hg' ↦ ⟨.validate hg'.1, fun _ ↦ rfl⟩
  | onThreads g filter ih =>
    cases h with
    | onThreads h =>
      rw [GeneratorPtr.copyOne]
      split
      · exact ⟨.onThreads .nullptr, fun _ ↦ rfl⟩
      · rename_i hn
        exact (ih h (.inr (by simpa using hn))).bind fun g' hg' ↦ ⟨.onThreads hg'.1, fun _ ↦ rfl⟩
  | timeLimit limit cutoff g ih =>
    cases h with
    | timeLimit h =>
      rw [GeneratorPtr.copyOne]
      split
      · rename_i hn
        obtain rfl := GeneratorPtr.isNull_iff.mp hn
        exact ⟨.nullptr, id⟩
      · rename_i hn
        exact (ih h (.inr (by simpa using hn))).bind fun g' hg' ↦ ⟨.timeLimit hg'.1, hg'.2⟩
  | stagger dt nt g ih =>
    cases h with
    | stagger hdt h =>
      rw [GeneratorPtr.copyOne]
      split
      · rename_i hn
        obtain rfl := GeneratorPtr.isNull_iff.mp hn
        exact ⟨.nullptr, id⟩
      · rename_i hn
        exact (ih h (.inr (by simpa using hn))).bind fun g' hg' ↦ ⟨.stagger hdt hg'.1, hg'.2⟩
  | mix idx gs ih =>
    have hfit := h
    cases h with
    | mix _ hsolid _ h =>
      rw [GeneratorPtr.copyOne]
      exact (copyEach_outcome fun g hg ↦ ih g hg (h g hg)
        (hsolid.imp id fun hs ↦ GeneratorPtr.ne_nullptr_of_solid (hs g hg))).bind
          fun _ _ ↦ ⟨hfit, id⟩
  | any gs ih =>
    cases h with
    | any hsolid h =>
      rw [GeneratorPtr.copyOne]
      refine (copyEach_outcome fun g hg ↦ ih g hg (h g hg)
        (hsolid.imp id fun hs ↦ GeneratorPtr.ne_nullptr_of_solid (hs g hg))).bind
          fun gs' hgs' ↦ ⟨.any (hsolid.imp id ?_) ?_, fun _ ↦ rfl⟩
      · exact hgs'.forall_mem fun _ _ h hs ↦ h.2 hs
      · exact hgs'.forall_right fun _ _ h ↦ h.1

theorem Fit.copyEach {gs : List GeneratorPtr} (h : ∀ g ∈ gs, Fit E g)
    (hsolid : E .nullPointer ∨ ∀ g ∈ gs, g.solid = true) :
    Outcome E (Pointwise (Copied E) gs) (GeneratorPtr.copyEach gs) :=
  copyEach_outcome fun g hg ↦ (h g hg).copyOne
    (hsolid.imp id fun hs ↦ GeneratorPtr.ne_nullptr_of_solid (hs g hg))

theorem Fit.copyOrNull {gs : List GeneratorPtr} (h : ∀ g ∈ gs, Fit E g) :
    Outcome E (Pointwise (Copied E) gs) (GeneratorPtr.copyOrNull gs) :=
  copyOrNull_outcome .nullptr fun g hg hn ↦ (h g hg).copyOne (.inr hn)

end Jepsen
