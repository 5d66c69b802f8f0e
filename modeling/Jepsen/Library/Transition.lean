import Mathlib.Logic.Basic
import Mathlib.Tactic.Basic
import Mathlib.Tactic.Common

/-!
# Labelled transition systems

Runs of a system whose steps carry a label, the rule that carries an invariant from one step to a
whole run, and forward simulations in which a concrete step is matched by a run of the abstract
system (a stuttering step is matched by the empty run).
-/

namespace Library

variable {σ α τ β : Type}

/-- A labelled transition system, given by its steps. -/
abbrev Lts (σ α : Type) := σ → α → σ → Prop

/-- The steps that also meet a condition on the state before and the label. -/
def Lts.restrict (R : Lts σ α) (C : σ → α → Prop) : Lts σ α := fun s a s' ↦ C s a ∧ R s a s'

inductive Run (R : Lts σ α) : σ → List α → σ → Prop
  | nil (s : σ) : Run R s [] s
  | cons {s s' s'' : σ} {a : α} {as : List α} :
      R s a s' → Run R s' as s'' → Run R s (a :: as) s''

namespace Run

variable {R : Lts σ α}

theorem single {s s' : σ} {a : α} (h : R s a s') : Run R s [a] s' :=
  .cons h (.nil s')

theorem append {s s' s'' : σ} {as bs : List α} (h₁ : Run R s as s') (h₂ : Run R s' bs s'') :
    Run R s (as ++ bs) s'' := by
  induction h₁ with
  | nil => exact h₂
  | cons hstep _ ih => exact .cons hstep (ih h₂)

theorem snoc {s s' s'' : σ} {as : List α} {a : α} (h₁ : Run R s as s') (h₂ : R s' a s'') :
    Run R s (as ++ [a]) s'' :=
  h₁.append (single h₂)

theorem split {s s'' : σ} {as bs : List α} (h : Run R s (as ++ bs) s'') :
    ∃ s', Run R s as s' ∧ Run R s' bs s'' := by
  induction as generalizing s with
  | nil => exact ⟨s, .nil s, h⟩
  | cons a as ih =>
    cases h with
    | cons hstep hrest =>
      obtain ⟨s', h₁, h₂⟩ := ih hrest
      exact ⟨s', .cons hstep h₁, h₂⟩

/-- What every step preserves, every run preserves. -/
theorem preserves {P : σ → Prop} (hstep : ∀ s a s', R s a s' → P s → P s')
    {s s' : σ} {as : List α} (h : Run R s as s') (hs : P s) : P s' := by
  induction h with
  | nil => exact hs
  | cons h₁ _ ih => exact ih (hstep _ _ _ h₁ hs)

/-- An invariant that also speaks of the labels so far. -/
theorem records {P : List α → σ → Prop}
    (hstep : ∀ as s a s', P as s → R s a s' → P (as ++ [a]) s')
    {s s' : σ} {as bs : List α} (h : Run R s as s') (hs : P bs s) : P (bs ++ as) s' := by
  induction h generalizing bs with
  | nil => rwa [List.append_nil]
  | @cons _ _ _ a as h₁ _ ih =>
    rw [List.append_cons]
    exact ih (hstep _ _ _ _ hs h₁)

/-- Where every step takes one off a measure, the measure counts the steps. -/
theorem length_add {P : σ → Prop} {μ : σ → Nat}
    (hstep : ∀ s a s', R s a s' → P s → P s' ∧ μ s' + 1 = μ s)
    {s s' : σ} {as : List α} (h : Run R s as s') (hs : P s) :
    P s' ∧ as.length + μ s' = μ s := by
  induction h with
  | nil => exact ⟨hs, Nat.zero_add _⟩
  | cons h₁ _ ih =>
    obtain ⟨hs₁, hμ⟩ := hstep _ _ _ h₁ hs
    obtain ⟨hs₂, hlen⟩ := ih hs₁
    rw [List.length_cons]
    exact ⟨hs₂, by omega⟩

/-- Where every step takes at least its cost off a measure, the measure bounds what a run costs. -/
theorem cost_le {P : σ → Prop} {μ : σ → Nat} {costly : α → Bool}
    (hstep : ∀ s a s', R s a s' → P s → P s' ∧ (if costly a then 1 else 0) + μ s' ≤ μ s)
    {s s' : σ} {as : List α} (h : Run R s as s') (hs : P s) :
    P s' ∧ as.countP costly + μ s' ≤ μ s := by
  induction h with
  | nil => exact ⟨hs, Nat.le_of_eq (Nat.zero_add _)⟩
  | cons h₁ _ ih =>
    obtain ⟨hs₁, hμ⟩ := hstep _ _ _ h₁ hs
    obtain ⟨hs₂, hcount⟩ := ih hs₁
    rw [List.countP_cons]
    exact ⟨hs₂, by omega⟩

/-- Where some step takes something off a measure until `Q` holds, some run comes to `Q`. -/
theorem exists_of_progress {P Q : σ → Prop} (μ : σ → Nat)
    (hprogress : ∀ s, P s → Q s ∨ ∃ a s', R s a s' ∧ P s' ∧ μ s' < μ s) {s : σ} (hs : P s) :
    ∃ as s', Run R s as s' ∧ P s' ∧ Q s' := by
  induction hn : μ s using Nat.strongRecOn generalizing s with
  | ind n ih =>
    cases hprogress s hs with
    | inl hq => exact ⟨[], s, .nil s, hs, hq⟩
    | inr hstep =>
      obtain ⟨a, s₁, h₁, hs₁, hμ⟩ := hstep
      obtain ⟨as, s', hrun, hs', hq⟩ := ih (μ s₁) (hn ▸ hμ) hs₁ rfl
      exact ⟨a :: as, s', .cons h₁ hrun, hs', hq⟩

/-- A relation in which every step is matched by one with the same label carries every run over. -/
theorem follows {A : Lts τ α} {S : σ → τ → Prop}
    (hstep : ∀ s a s' t, R s a s' → S s t → ∃ t', A t a t' ∧ S s' t')
    {s s' : σ} {as : List α} {t : τ} (h : Run R s as s') (hs : S s t) :
    ∃ t', Run A t as t' ∧ S s' t' := by
  induction h generalizing t with
  | nil => exact ⟨t, .nil t, hs⟩
  | cons h₁ _ ih =>
    obtain ⟨t₁, hstep₁, hs₁⟩ := hstep _ _ _ _ h₁ hs
    obtain ⟨t', hrun, hs'⟩ := ih hs₁
    exact ⟨t', .cons hstep₁ hrun, hs'⟩

/-- A simulation relation that every concrete step keeps, up to an abstract run, is kept by every
concrete run. -/
theorem simulates {A : Lts τ β} {S : σ → τ → Prop}
    (hstep : ∀ s a s' t, R s a s' → S s t → ∃ bs t', Run A t bs t' ∧ S s' t')
    {s s' : σ} {as : List α} {t : τ} (h : Run R s as s') (hs : S s t) :
    ∃ bs t', Run A t bs t' ∧ S s' t' := by
  induction h generalizing t with
  | nil => exact ⟨[], t, .nil t, hs⟩
  | cons h₁ _ ih =>
    obtain ⟨bs, t₁, hrun₁, hs₁⟩ := hstep _ _ _ _ h₁ hs
    obtain ⟨cs, t₂, hrun₂, hs₂⟩ := ih hs₁
    exact ⟨bs ++ cs, t₂, hrun₁.append hrun₂, hs₂⟩

end Run

/-- The states that runs from `init` end in. -/
def Reachable (R : Lts σ α) (init s : σ) : Prop := ∃ as, Run R init as s

namespace Reachable

variable {R : Lts σ α} {init s s' : σ}

theorem refl (R : Lts σ α) (init : σ) : Reachable R init init := ⟨[], .nil init⟩

theorem step {a : α} (h : Reachable R init s) (hstep : R s a s') : Reachable R init s' :=
  ⟨h.choose ++ [a], h.choose_spec.snoc hstep⟩

/-- An invariant that holds at the start and that every step keeps holds in every reachable
state. -/
theorem invariant {P : σ → Prop} (hinit : P init) (hstep : ∀ s a s', R s a s' → P s → P s')
    (h : Reachable R init s) : P s :=
  h.choose_spec.preserves hstep hinit

end Reachable

end Library
