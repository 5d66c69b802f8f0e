import Jepsen.Generator.Fit

/-!
# Null pointers

`nullptr` is a generator that has nothing to offer, and `generator::op`, `generator::update` and
`ListGenerator::copyOne` test for it.  The members of an `Any` or a `Mix` are copied without a test,
so that a null member is a virtual call through null.  A tree can be copied exactly when no such
member is null.
-/

namespace Jepsen

open Library
open GeneratorPtr (copyOne copyEach copyOrNull Rebuilt)

/-- No copy of the tree meets a null member of an `Any` or a `Mix`. -/
inductive Copyable : GeneratorPtr → Prop
  | operation {o} : Copyable (.operation o)
  | function {f} : Copyable (.function f)
  | list {gs : List GeneratorPtr} (h : ∀ g ∈ gs, g ≠ .nullptr → Copyable g) : Copyable (.list gs)
  | validate {g} (h : g ≠ .nullptr → Copyable g) : Copyable (.validate g)
  | onThreads {g filter} (h : g ≠ .nullptr → Copyable g) : Copyable (.onThreads g filter)
  | timeLimit {limit cutoff g} (h : g ≠ .nullptr → Copyable g) :
      Copyable (.timeLimit limit cutoff g)
  | stagger {dt next_time g} (h : g ≠ .nullptr → Copyable g) : Copyable (.stagger dt next_time g)
  | mix {idx} {gs : List GeneratorPtr} (h : ∀ g ∈ gs, Copyable g) : Copyable (.mix idx gs)
  | any {gs : List GeneratorPtr} (h : ∀ g ∈ gs, Copyable g) : Copyable (.any gs)
  | user {leaf calls} : Copyable (.user leaf calls)

namespace Copyable

theorem ne_nullptr {g : GeneratorPtr} (h : Copyable g) : g ≠ .nullptr := by
  rintro rfl
  cases h

-- A call keeps the shape of its receiver, null pointers included.
theorem polled {polled copied : Bool} {g g' : GeneratorPtr} (hr : Rebuilt polled copied g g')
    (hc : copied = false) (h : Copyable g) : Copyable g' := by
  induction hr with
  | refl => exact h
  | emptyList | timeLimitNull | staggerNull => exact absurd hc (by simp)
  | list hlen hr ih =>
    cases h with
    | list h =>
      exact .list (Pointwise.forall_mem_of_getElem hlen (fun i hi hi' hg hne ↦
        ih i hi hi' hc (hg ((hr i hi hi').ne_nullptr hne))) h)
  | validate hr ih =>
    cases h with | validate h => exact .validate fun hne ↦ ih hc (h (hr.ne_nullptr hne))
  | onThreads hr ih =>
    cases h with | onThreads h => exact .onThreads fun hne ↦ ih hc (h (hr.ne_nullptr hne))
  | timeLimit hr ih =>
    cases h with | timeLimit h => exact .timeLimit fun hne ↦ ih hc (h (hr.ne_nullptr hne))
  | stagger hr ih =>
    cases h with | stagger h => exact .stagger fun hne ↦ ih hc (h (hr.ne_nullptr hne))
  | mix _ hlen _ ih =>
    cases h with
    | mix h =>
      exact .mix (Pointwise.forall_mem_of_getElem hlen (fun i hi hi' ↦ ih i hi hi' rfl) h)
  | any hlen _ ih =>
    cases h with
    | any h =>
      exact .any (Pointwise.forall_mem_of_getElem hlen (fun i hi hi' ↦ ih i hi hi' hc) h)
  | user => exact .user

end Copyable

theorem copyEach_ok_iff {gs : List GeneratorPtr}
    (h : ∀ g ∈ gs, (∃ g', copyOne g = .ok g') ↔ Copyable g) :
    (∃ gs', copyEach gs = .ok gs') ↔ ∀ g ∈ gs, Copyable g := by
  induction gs with
  | nil => exact ⟨fun _ ↦ by simp, fun _ ↦ ⟨[], rfl⟩⟩
  | cons g gs ih =>
    obtain ⟨hg, hgs⟩ := List.forall_mem_cons.mp h
    rw [List.forall_mem_cons, ← hg, ← ih hgs]
    constructor
    · rintro ⟨gs', hcopy⟩
      obtain ⟨g₁, gs₁, h₁, h₂, -⟩ := GeneratorPtr.copyEach_cons_ok.mp hcopy
      exact ⟨⟨g₁, h₁⟩, gs₁, h₂⟩
    · rintro ⟨⟨g₁, h₁⟩, gs₁, h₂⟩
      exact ⟨g₁ :: gs₁, GeneratorPtr.copyEach_cons_ok.mpr ⟨g₁, gs₁, h₁, h₂, rfl⟩⟩

theorem copyOrNull_ok_iff {gs : List GeneratorPtr}
    (h : ∀ g ∈ gs, (∃ g', copyOne g = .ok g') ↔ Copyable g) :
    (∃ gs', copyOrNull gs = .ok gs') ↔ ∀ g ∈ gs, g ≠ .nullptr → Copyable g := by
  induction gs with
  | nil => exact ⟨fun _ ↦ by simp, fun _ ↦ ⟨[], rfl⟩⟩
  | cons g gs ih =>
    obtain ⟨hg, hgs⟩ := List.forall_mem_cons.mp h
    rw [List.forall_mem_cons, ← hg, ← ih hgs]
    constructor
    · rintro ⟨gs', hcopy⟩
      obtain ⟨g₁, gs₁, h₁, h₂, -⟩ := GeneratorPtr.copyOrNull_cons_ok.mp hcopy
      exact ⟨fun hne ↦ ⟨g₁, h₁.resolve_left fun hnull ↦ hne hnull.1⟩, gs₁, h₂⟩
    -- A null member needs no copy.
    · rintro ⟨h₁, gs₁, h₂⟩
      by_cases hnull : g = .nullptr
      · exact ⟨_, GeneratorPtr.copyOrNull_cons_ok.mpr ⟨.nullptr, gs₁, .inl ⟨hnull, rfl⟩, h₂, rfl⟩⟩
      · obtain ⟨g₁, h₁⟩ := h₁ hnull
        exact ⟨_, GeneratorPtr.copyOrNull_cons_ok.mpr ⟨g₁, gs₁, .inr h₁, h₂, rfl⟩⟩

theorem copyWrapped_ok_iff {gen empty : GeneratorPtr} {wrap : GeneratorPtr → GeneratorPtr} :
    (∃ g', (if gen.isNull then .ok empty else do return wrap (← copyOne gen)) =
        (.ok g' : Except Fault GeneratorPtr)) ↔
      (gen ≠ .nullptr → ∃ g', copyOne gen = .ok g') := by
  constructor
  · rintro ⟨g', h⟩ hne
    rcases GeneratorPtr.copyWrapped_eq_ok.mp h with ⟨hnull, -⟩ | ⟨c, hc, -⟩
    · exact absurd hnull hne
    · exact ⟨c, hc⟩
  · intro h
    by_cases hnull : gen = .nullptr
    · exact ⟨empty, GeneratorPtr.copyWrapped_eq_ok.mpr (.inl ⟨hnull, rfl⟩)⟩
    · obtain ⟨c, hc⟩ := h hnull
      exact ⟨wrap c, GeneratorPtr.copyWrapped_eq_ok.mpr (.inr ⟨c, hc, rfl⟩)⟩

theorem copyMembers_ok_iff {copies : Except Fault (List GeneratorPtr)}
    {build : List GeneratorPtr → GeneratorPtr} :
    (∃ g', (do return build (← copies)) = (.ok g' : Except Fault GeneratorPtr)) ↔
      ∃ gs, copies = .ok gs := by
  constructor
  · rintro ⟨g', h⟩
    obtain ⟨gs, h, -⟩ := GeneratorPtr.except_map_eq_ok.mp h
    exact ⟨gs, h⟩
  · rintro ⟨gs, h⟩
    exact ⟨build gs, GeneratorPtr.except_map_eq_ok.mpr ⟨gs, h, rfl⟩⟩

/-- `copyOne` meets no null pointer exactly on the trees that can be copied. -/
theorem copyOne_ok_iff {g : GeneratorPtr} : (∃ g', copyOne g = .ok g') ↔ Copyable g := by
  induction g with
  | nullptr =>
    refine ⟨fun h ↦ ?_, fun h ↦ absurd rfl h.ne_nullptr⟩
    obtain ⟨g', h⟩ := h
    cases h
  | operation o => exact ⟨fun _ ↦ .operation, fun _ ↦ ⟨_, rfl⟩⟩
  | function f => exact ⟨fun _ ↦ .function, fun _ ↦ ⟨_, rfl⟩⟩
  | user leaf calls => exact ⟨fun _ ↦ .user, fun _ ↦ ⟨_, rfl⟩⟩
  | list gs ih =>
    rw [GeneratorPtr.copyOne, copyMembers_ok_iff, copyOrNull_ok_iff ih]
    exact ⟨.list, fun h ↦ by cases h with | list h => exact h⟩
  | validate g ih =>
    rw [GeneratorPtr.copyOne, copyWrapped_ok_iff, ih]
    exact ⟨.validate, fun h ↦ by cases h with | validate h => exact h⟩
  | onThreads g filter ih =>
    rw [GeneratorPtr.copyOne, copyWrapped_ok_iff, ih]
    exact ⟨.onThreads, fun h ↦ by cases h with | onThreads h => exact h⟩
  | timeLimit limit cutoff g ih =>
    rw [GeneratorPtr.copyOne, copyWrapped_ok_iff, ih]
    exact ⟨.timeLimit, fun h ↦ by cases h with | timeLimit h => exact h⟩
  | stagger dt nt g ih =>
    rw [GeneratorPtr.copyOne, copyWrapped_ok_iff, ih]
    exact ⟨.stagger, fun h ↦ by cases h with | stagger h => exact h⟩
  | mix idx gs ih =>
    rw [GeneratorPtr.copyOne, copyMembers_ok_iff, copyEach_ok_iff ih]
    exact ⟨.mix, fun h ↦ by cases h with | mix h => exact h⟩
  | any gs ih =>
    rw [GeneratorPtr.copyOne, copyMembers_ok_iff, copyEach_ok_iff ih]
    exact ⟨.any, fun h ↦ by cases h with | any h => exact h⟩

/-- A null pointer is all that a copy can fault on. -/
theorem copyOne_outcome (g : GeneratorPtr) :
    Outcome (· = .nullPointer) (fun _ ↦ True) (copyOne g) := by
  have hwrapped {g empty : GeneratorPtr} {wrap : GeneratorPtr → GeneratorPtr}
      (h : Outcome (· = .nullPointer) (fun _ ↦ True) (copyOne g)) :
      Outcome (· = .nullPointer) (fun _ ↦ True)
        (if g.isNull then .ok empty else do return wrap (← copyOne g)) := by
    split
    · exact trivial
    · exact h.bind fun _ _ ↦ trivial
  induction g with
  | nullptr => exact rfl
  | operation o | function f | user leaf calls => exact trivial
  | list gs ih =>
    rw [GeneratorPtr.copyOne]
    exact (copyOrNull_outcome (R := fun _ _ ↦ True) trivial fun g hg _ ↦ ih g hg).bind
      fun _ _ ↦ trivial
  | validate g ih | onThreads g filter ih | timeLimit limit cutoff g ih | stagger dt nt g ih =>
    rw [GeneratorPtr.copyOne]
    exact hwrapped ih
  | mix idx gs ih =>
    rw [GeneratorPtr.copyOne]
    exact (copyEach_outcome (R := fun _ _ ↦ True) ih).bind fun _ _ ↦ trivial
  | any gs ih =>
    rw [GeneratorPtr.copyOne]
    exact (copyEach_outcome (R := fun _ _ ↦ True) ih).bind fun _ _ ↦ trivial

theorem copyEach_error {gs : List GeneratorPtr} {e : Fault} (h : copyEach gs = .error e) :
    e = .nullPointer :=
  (copyEach_outcome (R := fun _ _ ↦ True) fun g _ ↦ copyOne_outcome g).error h

end Jepsen
