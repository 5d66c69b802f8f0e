import Jepsen.Generator.Basic
import Jepsen.Library.Pointwise

/-!
# Rebuilt trees

`copyOne` and `update` build a new tree of (nearly) the same shape, and a call of `op` leaves its
receiver with some fields assigned.  `Rebuilt polled copied g g'` is what these may do to a tree, so
that a property of trees is shown to survive them by one induction: a `TimeLimit` or `Stagger` has
another time, and a user's leaf may record a call.  Only where the tree is a new one (`copied`), a
wrapper around null may collapse, and a list that is empty may become null.  Only a call of `op`
(`polled`) may change the members of a `Mix`, which its copies share.
-/

namespace Jepsen

open Library

namespace GeneratorPtr

inductive Rebuilt (polled : Bool) : Bool → GeneratorPtr → GeneratorPtr → Prop
  | refl {copied} (g) : Rebuilt polled copied g g
  | emptyList : Rebuilt polled true (.list []) .nullptr
  | list {copied} {gs gs' : List GeneratorPtr} (hlen : gs.length = gs'.length)
      (h : ∀ i (hi : i < gs.length) (hi' : i < gs'.length), Rebuilt polled copied gs[i] gs'[i]) :
      Rebuilt polled copied (.list gs) (.list gs')
  | validate {copied g g'} : Rebuilt polled copied g g' →
      Rebuilt polled copied (.validate g) (.validate g')
  | onThreads {copied g g' filter} : Rebuilt polled copied g g' →
      Rebuilt polled copied (.onThreads g filter) (.onThreads g' filter)
  | timeLimitNull {limit cutoff g} : Rebuilt polled true g .nullptr →
      Rebuilt polled true (.timeLimit limit cutoff g) .nullptr
  | timeLimit {copied limit cutoff cutoff' g g'} : Rebuilt polled copied g g' →
      Rebuilt polled copied (.timeLimit limit cutoff g) (.timeLimit limit cutoff' g')
  | staggerNull {dt next_time g} : Rebuilt polled true g .nullptr →
      Rebuilt polled true (.stagger dt next_time g) .nullptr
  | stagger {copied dt next_time next_time' g g'} : Rebuilt polled copied g g' →
      Rebuilt polled copied (.stagger dt next_time g) (.stagger dt next_time' g')
  | mix {copied idx} {gs gs' : List GeneratorPtr} (hpolled : polled = true)
      (hlen : gs.length = gs'.length)
      (h : ∀ i (hi : i < gs.length) (hi' : i < gs'.length), Rebuilt polled false gs[i] gs'[i]) :
      Rebuilt polled copied (.mix idx gs) (.mix idx gs')
  | any {copied} {gs gs' : List GeneratorPtr} (hlen : gs.length = gs'.length)
      (h : ∀ i (hi : i < gs.length) (hi' : i < gs'.length), Rebuilt polled copied gs[i] gs'[i]) :
      Rebuilt polled copied (.any gs) (.any gs')
  | user {copied leaf calls calls'} : Rebuilt polled copied (.user leaf calls) (.user leaf calls')

variable {polled copied : Bool}

theorem Rebuilt.ofList {gs gs' : List GeneratorPtr} (h : Pointwise (Rebuilt polled copied) gs gs') :
    Rebuilt polled copied (.list gs) (.list gs') :=
  .list h.1 h.2

theorem Rebuilt.ofMix {idx : Nat} {gs gs' : List GeneratorPtr}
    (h : Pointwise (Rebuilt true false) gs gs') :
    Rebuilt true copied (.mix idx gs) (.mix idx gs') :=
  .mix rfl h.1 h.2

theorem Rebuilt.ofAny {gs gs' : List GeneratorPtr} (h : Pointwise (Rebuilt polled copied) gs gs') :
    Rebuilt polled copied (.any gs) (.any gs') :=
  .any h.1 h.2

theorem Rebuilt.members {gs : List GeneratorPtr} {g' : GeneratorPtr}
    (h : Rebuilt polled copied (.list gs) g') :
    Pointwise (Rebuilt polled copied) gs g'.members := by
  cases h with
  | refl => exact .refl .refl gs
  | emptyList => exact .nil
  | list hlen h => exact ⟨hlen, h⟩

theorem Rebuilt.mixMembers {idx : Nat} {gs : List GeneratorPtr} {g' : GeneratorPtr}
    (h : Rebuilt polled copied (.mix idx gs) g') :
    Pointwise (Rebuilt polled false) gs g'.members := by
  cases h with
  | refl => exact .refl .refl gs
  | mix _ hlen h => exact ⟨hlen, h⟩

theorem Rebuilt.anyMembers {gs : List GeneratorPtr} {g' : GeneratorPtr}
    (h : Rebuilt polled copied (.any gs) g') : Pointwise (Rebuilt polled copied) gs g'.members := by
  cases h with
  | refl => exact .refl .refl gs
  | any hlen h => exact ⟨hlen, h⟩

theorem Rebuilt.child {g g' : GeneratorPtr} (h : Rebuilt polled copied g g') :
    Rebuilt polled copied g.child g'.child := by
  cases h with
  | validate h | onThreads h | timeLimitNull h | timeLimit h | staggerNull h | stagger h => exact h
  | _ => exact .refl _

/-- What a call leaves is a special case of a copy that was then called. -/
theorem Rebuilt.weaken {g g' : GeneratorPtr} (h : Rebuilt polled copied g g') :
    Rebuilt polled true g g' := by
  induction h with
  | refl => exact .refl _
  | emptyList => exact .emptyList
  | list hlen _ ih => exact .list hlen ih
  | validate _ ih => exact .validate ih
  | onThreads _ ih => exact .onThreads ih
  | timeLimitNull h => exact .timeLimitNull h
  | timeLimit _ ih => exact .timeLimit ih
  | staggerNull h => exact .staggerNull h
  | stagger _ ih => exact .stagger ih
  | mix hpolled hlen h => exact .mix hpolled hlen h
  | any hlen _ ih => exact .any hlen ih
  | user => exact .user

theorem Rebuilt.ne_nullptr {g g' : GeneratorPtr} (h : Rebuilt polled copied g g')
    (hg' : g' ≠ .nullptr) : g ≠ .nullptr := by
  rintro rfl
  cases h
  exact hg' rfl

/-- Where no copy is made, nothing is lost. -/
theorem Rebuilt.symm {g g' : GeneratorPtr} (h : Rebuilt polled copied g g') (hc : copied = false) :
    Rebuilt polled copied g' g := by
  induction h with
  | refl => exact .refl _
  | emptyList | timeLimitNull | staggerNull => exact absurd hc (by simp)
  | list hlen _ ih => exact .list hlen.symm fun i hi hi' ↦ ih i hi' hi hc
  | validate _ ih => exact .validate (ih hc)
  | onThreads _ ih => exact .onThreads (ih hc)
  | timeLimit _ ih => exact .timeLimit (ih hc)
  | stagger _ ih => exact .stagger (ih hc)
  | mix hpolled hlen _ ih => exact .mix hpolled hlen.symm fun i hi hi' ↦ ih i hi' hi rfl
  | any hlen _ ih => exact .any hlen.symm fun i hi hi' ↦ ih i hi' hi hc
  | user => exact .user

theorem Rebuilt.trans {g g' g'' : GeneratorPtr} (h : Rebuilt polled copied g g')
    (h' : Rebuilt polled copied g' g'') : Rebuilt polled copied g g'' := by
  induction h generalizing g'' with
  | refl => exact h'
  | emptyList =>
    cases h'
    exact .emptyList
  -- A list that was rebuilt may become null later, where it is empty.
  | @list copied gs gs' hlen _ ih =>
    cases h' with
    | refl => exact .ofList ⟨hlen, fun i hi hi' ↦ ih i hi hi' (.refl _)⟩
    | emptyList =>
      obtain rfl := List.eq_nil_of_length_eq_zero hlen
      exact .emptyList
    | list hlen' h' =>
      exact .list (hlen.trans hlen') fun i hi hi'' ↦ ih i hi (by omega) (h' i (by omega) hi'')
  | validate h ih =>
    cases h' with
    | refl => exact .validate h
    | validate h' => exact .validate (ih h')
  | onThreads h ih =>
    cases h' with
    | refl => exact .onThreads h
    | onThreads h' => exact .onThreads (ih h')
  | timeLimitNull h =>
    cases h'
    exact .timeLimitNull h
  | timeLimit h ih =>
    cases h' with
    | refl => exact .timeLimit h
    | timeLimitNull h' => exact .timeLimitNull (ih h')
    | timeLimit h' => exact .timeLimit (ih h')
  | staggerNull h =>
    cases h'
    exact .staggerNull h
  | stagger h ih =>
    cases h' with
    | refl => exact .stagger h
    | staggerNull h' => exact .staggerNull (ih h')
    | stagger h' => exact .stagger (ih h')
  | mix hpolled hlen _ ih =>
    cases h' with
    | refl => exact .mix hpolled hlen fun i hi hi' ↦ ih i hi hi' (.refl _)
    | mix _ hlen' h' =>
      exact .mix hpolled (hlen.trans hlen') fun i hi hi'' ↦
        ih i hi (by omega) (h' i (by omega) hi'')
  | any hlen _ ih =>
    cases h' with
    | refl => exact .any hlen fun i hi hi' ↦ ih i hi hi' (.refl _)
    | any hlen' h' =>
      exact .any (hlen.trans hlen') fun i hi hi'' ↦ ih i hi (by omega) (h' i (by omega) hi'')
  | user =>
    cases h' with
    | refl => exact .user
    | user => exact .user

theorem pointwise_rebuilt_trans {gs gs' gs'' : List GeneratorPtr}
    (h : Pointwise (Rebuilt polled true) gs gs') (h' : Pointwise (Rebuilt polled copied) gs' gs'') :
    Pointwise (Rebuilt polled true) gs gs'' :=
  h.trans h' fun _ _ _ _ hcopy hpoll ↦ hcopy.trans hpoll.weaken

/-! ## `writeBack` -/

theorem writeBackEach_pointwise {gs copies : List GeneratorPtr} (hlen : gs.length = copies.length)
    (h : ∀ i (hi : i < gs.length) (hi' : i < copies.length),
      Rebuilt true false gs[i] (writeBack gs[i] copies[i])) :
    Pointwise (Rebuilt true false) gs (writeBackEach gs copies) := by
  induction gs generalizing copies with
  | nil => exact .nil
  | cons g gs ih =>
    cases copies with
    | nil => exact absurd hlen (by simp)
    | cons copy copies =>
      refine .cons (h 0 (by simp) (by simp)) (ih (by simpa using hlen) fun i hi hi' ↦ ?_)
      exact h (i + 1) (by simpa using hi) (by simpa using hi')

/-- A tree into which the assignments of a call on a copy are written back is a rebuilt tree. -/
theorem Rebuilt.writeBack {g copy : GeneratorPtr} (h : Rebuilt true copied g copy) :
    Rebuilt true false g (writeBack g copy) := by
  induction g generalizing copy with
  | nullptr => exact .refl _
  | operation o => exact .refl _
  | function f => exact .refl _
  | user leaf calls => exact .refl _
  | list gs ih =>
    have hmembers := h.members
    exact .ofList (writeBackEach_pointwise hmembers.1 fun i hi hi' ↦
      ih _ (List.getElem_mem hi) (hmembers.2 i hi hi'))
  | mix idx gs ih => exact .ofMix h.mixMembers
  | any gs ih =>
    have hmembers := h.anyMembers
    exact .ofAny (writeBackEach_pointwise hmembers.1 fun i hi hi' ↦
      ih _ (List.getElem_mem hi) (hmembers.2 i hi hi'))
  | validate g ih => exact .validate (ih h.child)
  | onThreads g filter ih => exact .onThreads (ih h.child)
  | timeLimit limit cutoff g ih => exact .timeLimit (ih h.child)
  | stagger dt nt g ih => exact .stagger (ih h.child)

theorem writeBackEach_rebuilt {gs copies : List GeneratorPtr}
    (h : Pointwise (Rebuilt true copied) gs copies) :
    Pointwise (Rebuilt true false) gs (writeBackEach gs copies) :=
  writeBackEach_pointwise h.1 fun i hi hi' ↦ (h.2 i hi hi').writeBack

/-! ## `copyOne` -/

theorem except_bind_eq_ok {ε α β : Type} {x : Except ε α} {f : α → Except ε β} {b : β} :
    (x >>= f) = .ok b ↔ ∃ a, x = .ok a ∧ f a = .ok b := by
  cases x with
  | error e => simp [bind, Except.bind]
  | ok a => simp [bind, Except.bind]

theorem except_map_eq_ok {ε α β : Type} {x : Except ε α} {f : α → β} {b : β} :
    (x >>= fun a ↦ (pure (f a) : Except ε β)) = .ok b ↔ ∃ a, x = .ok a ∧ b = f a := by
  cases x with
  | error e => simp [bind, Except.bind]
  | ok a => simp [bind, Except.bind, pure, Except.pure, eq_comm]

/-- A copy of a wrapper: `empty` where it holds null, and else around a copy. -/
theorem copyWrapped_eq_ok {gen empty g' : GeneratorPtr} {wrap : GeneratorPtr → GeneratorPtr} :
    (if gen.isNull then .ok empty else do return wrap (← copyOne gen)) =
        (.ok g' : Except Fault GeneratorPtr) ↔
      gen = .nullptr ∧ g' = empty ∨ ∃ c, copyOne gen = .ok c ∧ g' = wrap c := by
  by_cases hnull : gen = .nullptr
  · subst hnull
    simp [isNull, copyOne, eq_comm]
  · rw [if_neg (by simpa using hnull), except_map_eq_ok]
    simp [hnull]

theorem copyEach_cons_ok {g : GeneratorPtr} {gs gs' : List GeneratorPtr} :
    copyEach (g :: gs) = .ok gs' ↔
      ∃ g₁ gs₁, copyOne g = .ok g₁ ∧ copyEach gs = .ok gs₁ ∧ gs' = g₁ :: gs₁ := by
  simp only [copyEach, except_bind_eq_ok, pure, Except.pure, Except.ok.injEq, eq_comm (b := gs')]
  constructor
  · rintro ⟨g₁, h₁, gs₁, h₂, h₃⟩
    exact ⟨g₁, gs₁, h₁, h₂, h₃⟩
  · rintro ⟨g₁, gs₁, h₁, h₂, h₃⟩
    exact ⟨g₁, h₁, gs₁, h₂, h₃⟩

theorem copyOrNull_cons_ok {g : GeneratorPtr} {gs gs' : List GeneratorPtr} :
    copyOrNull (g :: gs) = .ok gs' ↔
      ∃ g₁ gs₁, (g = .nullptr ∧ g₁ = .nullptr ∨ copyOne g = .ok g₁) ∧ copyOrNull gs = .ok gs₁ ∧
        gs' = g₁ :: gs₁ := by
  -- A null member is kept as it is, and any other one is copied.
  have hhead (g₁ : GeneratorPtr) : (if g.isNull then .ok .nullptr else copyOne g) = .ok g₁ ↔
      (g = .nullptr ∧ g₁ = .nullptr ∨ copyOne g = .ok g₁) := by
    by_cases hg : g = .nullptr
    · simp [hg, copyOne, isNull, eq_comm]
    · simp [hg]
  simp only [copyOrNull, except_bind_eq_ok, hhead, pure, Except.pure, Except.ok.injEq,
    eq_comm (b := gs')]
  constructor
  · rintro ⟨g₁, h₁, gs₁, h₂, h₃⟩
    exact ⟨g₁, gs₁, h₁, h₂, h₃⟩
  · rintro ⟨g₁, gs₁, h₁, h₂, h₃⟩
    exact ⟨g₁, h₁, gs₁, h₂, h₃⟩

theorem copyEach_pointwise {R : GeneratorPtr → GeneratorPtr → Prop} {gs gs' : List GeneratorPtr}
    (hR : ∀ g ∈ gs, ∀ g', copyOne g = .ok g' → R g g') (h : copyEach gs = .ok gs') :
    Pointwise R gs gs' := by
  induction gs generalizing gs' with
  | nil =>
    obtain rfl : [] = gs' := by simpa [copyEach] using h
    exact .nil
  | cons g gs ih =>
    obtain ⟨g₁, gs₁, h₁, h₂, rfl⟩ := copyEach_cons_ok.mp h
    obtain ⟨hg, hgs⟩ := List.forall_mem_cons.mp hR
    exact .cons (hg g₁ h₁) (ih hgs h₂)

theorem copyOrNull_pointwise {R : GeneratorPtr → GeneratorPtr → Prop} {gs gs' : List GeneratorPtr}
    (hnull : R .nullptr .nullptr) (hR : ∀ g ∈ gs, ∀ g', copyOne g = .ok g' → R g g')
    (h : copyOrNull gs = .ok gs') : Pointwise R gs gs' := by
  induction gs generalizing gs' with
  | nil =>
    obtain rfl : [] = gs' := by simpa [copyOrNull] using h
    exact .nil
  | cons g gs ih =>
    obtain ⟨g₁, gs₁, h₁, h₂, rfl⟩ := copyOrNull_cons_ok.mp h
    obtain ⟨hg, hgs⟩ := List.forall_mem_cons.mp hR
    rcases h₁ with ⟨rfl, rfl⟩ | h₁
    · exact .cons hnull (ih hgs h₂)
    · exact .cons (hg g₁ h₁) (ih hgs h₂)

theorem copyOne_rebuilt {g g' : GeneratorPtr} (h : copyOne g = .ok g') :
    Rebuilt polled true g g' := by
  induction g generalizing g' with
  | nullptr => simp [copyOne] at h
  | operation o =>
    obtain rfl : .operation o = g' := by simpa [copyOne] using h
    exact .refl _
  | function f =>
    obtain rfl : .function f = g' := by simpa [copyOne] using h
    exact .refl _
  | user leaf calls =>
    obtain rfl : .user leaf calls = g' := by simpa [copyOne] using h
    exact .refl _
  | list gs ih =>
    rw [copyOne] at h
    obtain ⟨gs', h₁, rfl⟩ := except_map_eq_ok.mp h
    exact .ofList (copyOrNull_pointwise (.refl _) (fun g hg g' ↦ ih g hg) h₁)
  | validate g ih =>
    rw [copyOne] at h
    rcases copyWrapped_eq_ok.mp h with ⟨rfl, rfl⟩ | ⟨g₁, h₁, rfl⟩
    · exact .refl _
    · exact .validate (ih h₁)
  | onThreads g f ih =>
    rw [copyOne] at h
    rcases copyWrapped_eq_ok.mp h with ⟨rfl, rfl⟩ | ⟨g₁, h₁, rfl⟩
    · exact .refl _
    · exact .onThreads (ih h₁)
  | timeLimit limit cutoff g ih =>
    rw [copyOne] at h
    rcases copyWrapped_eq_ok.mp h with ⟨rfl, rfl⟩ | ⟨g₁, h₁, rfl⟩
    · exact .timeLimitNull (.refl _)
    · exact .timeLimit (ih h₁)
  | stagger dt nt g ih =>
    rw [copyOne] at h
    rcases copyWrapped_eq_ok.mp h with ⟨rfl, rfl⟩ | ⟨g₁, h₁, rfl⟩
    · exact .staggerNull (.refl _)
    · exact .stagger (ih h₁)
  | mix idx gs ih =>
    rw [copyOne] at h
    obtain ⟨gs', h₁, rfl⟩ := except_map_eq_ok.mp h
    exact .refl _
  | any gs ih =>
    rw [copyOne] at h
    obtain ⟨gs', h₁, rfl⟩ := except_map_eq_ok.mp h
    exact .ofAny (copyEach_pointwise (fun g hg g' ↦ ih g hg) h₁)

theorem copyEach_rebuilt (polled : Bool) {gs gs' : List GeneratorPtr} (h : copyEach gs = .ok gs') :
    Pointwise (Rebuilt polled true) gs gs' :=
  copyEach_pointwise (fun _ _ _ ↦ copyOne_rebuilt) h

theorem copyOrNull_rebuilt (polled : Bool) {gs gs' : List GeneratorPtr}
    (h : copyOrNull gs = .ok gs') : Pointwise (Rebuilt polled true) gs gs' :=
  copyOrNull_pointwise (.refl _) (fun _ _ _ ↦ copyOne_rebuilt) h

/-! ## `update` -/

theorem updateEach_pointwise {R : GeneratorPtr → GeneratorPtr → Prop} {ctx : Context}
    {event : Operation} {gs gs' : List GeneratorPtr}
    (hR : ∀ g ∈ gs, ∀ g', update g ctx event = .ok g' → R g g')
    (h : updateEach gs ctx event = .ok gs') : Pointwise R gs gs' := by
  induction gs generalizing gs' with
  | nil =>
    obtain rfl : [] = gs' := by simpa [updateEach] using h
    exact .nil
  | cons g gs ih =>
    rw [updateEach] at h
    obtain ⟨g₁, h₁, h⟩ := except_bind_eq_ok.mp h
    obtain ⟨gs₁, h₂, rfl⟩ := except_map_eq_ok.mp h
    obtain ⟨hg, hgs⟩ := List.forall_mem_cons.mp hR
    exact .cons (hg g₁ h₁) (ih hgs h₂)

theorem update_rebuilt {g g' : GeneratorPtr} {ctx : Context} {event : Operation}
    (h : update g ctx event = .ok g') : Rebuilt false true g g' := by
  induction g generalizing g' ctx with
  | nullptr =>
    obtain rfl := Except.ok.inj h
    exact .refl _
  | operation o =>
    obtain rfl := Except.ok.inj h
    exact .refl _
  | function f =>
    obtain rfl := Except.ok.inj h
    exact .refl _
  | user leaf calls =>
    obtain rfl := Except.ok.inj h
    exact .user
  | list gs ih =>
    cases gs with
    | nil =>
      obtain rfl := Except.ok.inj h
      exact .emptyList
    | cons g gs =>
      rw [update] at h
      obtain ⟨upd, h₁, h⟩ := except_bind_eq_ok.mp h
      obtain ⟨copy, h₂, rfl⟩ := except_map_eq_ok.mp h
      obtain ⟨g₁, gs₁, -, h₃, rfl⟩ := copyOrNull_cons_ok.mp h₂
      exact .ofList (.cons (ih g (by simp) h₁) (copyOrNull_rebuilt false h₃))
  | validate g ih =>
    rw [update] at h
    obtain ⟨g₁, h₁, rfl⟩ := except_map_eq_ok.mp h
    exact .validate (ih h₁)
  | onThreads g f ih =>
    rw [update] at h
    split at h
    · obtain ⟨g₁, h₁, rfl⟩ := except_map_eq_ok.mp h
      exact .onThreads (ih h₁)
    · obtain rfl := Except.ok.inj h
      exact .refl _
  | timeLimit limit cutoff g ih =>
    rw [update] at h
    obtain ⟨g₁, h₁, rfl⟩ := except_map_eq_ok.mp h
    exact .timeLimit (ih h₁)
  | stagger dt nt g ih =>
    rw [update] at h
    obtain ⟨g₁, h₁, rfl⟩ := except_map_eq_ok.mp h
    exact .stagger (ih h₁)
  | mix idx gs ih =>
    obtain rfl := Except.ok.inj h
    exact .refl _
  | any gs ih =>
    rw [update] at h
    obtain ⟨gs', h₁, rfl⟩ := except_map_eq_ok.mp h
    exact .ofAny (updateEach_pointwise (fun g hg g' ↦ ih g hg) h₁)

end GeneratorPtr

end Jepsen
