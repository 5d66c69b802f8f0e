import Jepsen.Library.Eval
import Jepsen.Library.Transition

/-!
# Computations and systems with the same behaviour

`Sim timeout R x y` runs two computations from one state: they end in one state with answers that
`R` relates, or with the same failure, except that `x` may run out of fuel where `y` does not.  It
is `Approx` with a relation in the place of equality, and has one rule for each way to build a
computation.

`Bisimilar` is the corresponding notion for the states of a labelled transition system.
-/

namespace Library

/-- The same failure, or answers that `R` relates. -/
def Agree {ε α β : Type} (R : α → β → Prop) : Except ε α → Except ε β → Prop
  | .error e, .error e' => e = e'
  | .ok a, .ok b => R a b
  | _, _ => False

namespace Agree

variable {ε α β γ δ : Type} {R : α → β → Prop} {x : Except ε α} {y : Except ε β}

theorem refl {S : α → α → Prop} (h : ∀ a, S a a) (x : Except ε α) : Agree S x x := by
  cases x with
  | error e => exact rfl
  | ok a => exact h a

theorem ok {a : α} (h : Agree R x y) (hx : x = .ok a) : ∃ b, y = .ok b ∧ R a b := by
  subst hx
  cases y with
  | error e => exact absurd h id
  | ok b => exact ⟨b, rfl, h⟩

theorem error {e : ε} (h : Agree R x y) (hx : x = .error e) : y = .error e := by
  subst hx
  cases y with
  | error e' => exact congrArg _ h.symm
  | ok b => exact absurd h id

theorem mono {S : α → β → Prop} (h : Agree R x y)
    (hRS : ∀ a b, x = .ok a → y = .ok b → R a b → S a b) : Agree S x y := by
  cases x with
  | error e =>
    cases y with
    | error e' => exact h
    | ok b => exact h
  | ok a =>
    cases y with
    | error e' => exact h
    | ok b => exact hRS a b rfl rfl h

theorem bind {S : γ → δ → Prop} {f : α → Except ε γ} {g : β → Except ε δ} (h : Agree R x y)
    (hf : ∀ a b, R a b → Agree S (f a) (g b)) : Agree S (x >>= f) (y >>= g) := by
  cases x with
  | error e =>
    cases y with
    | error e' => exact h
    | ok b => exact absurd h id
  | ok a =>
    cases y with
    | error e' => exact absurd h id
    | ok b => exact hf a b h

/-- A further member on the left. -/
theorem cons_left {γ : Type} {S : List α → γ → Prop} {T : List α → γ → Prop} {a : α}
    {xs : Except ε (List α)} {y : Except ε γ} (h : Agree S xs y)
    (hST : ∀ as c, S as c → T (a :: as) c) :
    Agree T (xs >>= fun as ↦ Except.ok (a :: as)) y := by
  cases xs with
  | error e =>
    cases y with
    | error e' => exact h
    | ok c => exact absurd h id
  | ok as =>
    cases y with
    | error e' => exact absurd h id
    | ok c => exact hST as c h

theorem symm (h : Agree R x y) : Agree (fun b a ↦ R a b) y x := by
  cases x with
  | error e =>
    cases y with
    | error e' => exact Eq.symm h
    | ok b => exact h
  | ok a =>
    cases y with
    | error e' => exact h
    | ok b => exact h

end Agree

namespace Eval

variable {σ ε α β γ δ : Type} {timeout : ε}

/-- `y` does what `x` does, up to `R`, except that `x` may run out of fuel where `y` does not. -/
def Sim (timeout : ε) (R : α → β → Prop) (x : Eval σ ε α) (y : Eval σ ε β) : Prop :=
  ∀ s, x s = .error timeout ∨ Agree (fun p q ↦ R p.1 q.1 ∧ p.2 = q.2) (x s) (y s)

namespace Sim

variable {R : α → β → Prop} {x : Eval σ ε α} {y : Eval σ ε β}

theorem pure {a : α} {b : β} (h : R a b) :
    Sim timeout R (pure a : Eval σ ε α) (pure b : Eval σ ε β) :=
  fun _ ↦ .inr ⟨h, rfl⟩

theorem throw (e : ε) : Sim timeout R (throw e : Eval σ ε α) (throw e : Eval σ ε β) :=
  fun _ ↦ .inr rfl

theorem lift {x : Except ε α} {y : Except ε β} (h : Agree R x y) :
    Sim timeout R (liftM x : Eval σ ε α) (liftM y : Eval σ ε β) := by
  intro s
  cases x with
  | error e =>
    cases y with
    | error e' => exact .inr h
    | ok b => exact absurd h id
  | ok a =>
    cases y with
    | error e' => exact absurd h id
    | ok b => exact .inr ⟨h, rfl⟩

theorem bind {S : γ → δ → Prop} {f : α → Eval σ ε γ} {g : β → Eval σ ε δ}
    (h : Sim timeout R x y) (hf : ∀ a b, R a b → Sim timeout S (f a) (g b)) :
    Sim timeout S (x >>= f) (y >>= g) := by
  intro s
  rcases h s with hx | hxy
  · exact .inl (bind_apply_error hx)
  · cases hx : x s with
    | error e => exact .inr (by rw [bind_apply_error hx, bind_apply_error (hxy.error hx)]; rfl)
    | ok p =>
      obtain ⟨⟨b, s'⟩, hy, hR, hs⟩ := hxy.ok hx
      obtain rfl : p.2 = s' := hs
      rw [bind_apply_ok hx, bind_apply_ok hy]
      exact hf p.1 b hR p.2

theorem of_approx {S : α → α → Prop} {x y : Eval σ ε α} (hS : ∀ a, S a a)
    (h : Approx timeout x y) : Sim timeout S x y := by
  intro s
  refine (h s).imp id fun heq ↦ ?_
  rw [heq]
  exact .refl (fun p ↦ ⟨hS p.1, rfl⟩) _

/-- A first part on the left that changes nothing. -/
theorem bind_left {S : γ → β → Prop} {f : α → Eval σ ε γ} {y : Eval σ ε β} {a : α}
    (hx : ∀ s, x s = .error timeout ∨ x s = .ok (a, s)) (h : Sim timeout S (f a) y) :
    Sim timeout S (x >>= f) y := by
  intro s
  rcases hx s with hx | hx
  · exact .inl (bind_apply_error hx)
  · rw [bind_apply_ok hx]
    exact h s

/-- A first part on the right that changes nothing. -/
theorem bind_right {S : α → γ → Prop} {g : β → Eval σ ε γ} {b : β}
    (hy : ∀ s, y s = .ok (b, s)) (h : Sim timeout S x (g b)) : Sim timeout S x (y >>= g) := by
  intro s
  rw [bind_apply_ok (hy s)]
  exact h s

theorem map_left {S : γ → β → Prop} {f : α → γ} (h : Sim timeout R x y)
    (hf : ∀ a b, R a b → S (f a) b) : Sim timeout S (x >>= fun a ↦ Pure.pure (f a)) y := by
  have hbind := h.bind (f := fun a ↦ (Pure.pure (f a) : Eval σ ε γ)) (g := Pure.pure)
    fun a b hR ↦ pure (hf a b hR)
  rwa [bind_pure] at hbind

theorem map_right {S : α → γ → Prop} {f : β → γ} (h : Sim timeout R x y)
    (hf : ∀ a b, R a b → S a (f b)) : Sim timeout S x (y >>= fun b ↦ Pure.pure (f b)) := by
  have hbind := h.bind (f := Pure.pure) (g := fun b ↦ (Pure.pure (f b) : Eval σ ε γ))
    fun a b hR ↦ pure (hf a b hR)
  rwa [bind_pure] at hbind

/-- The related answers may be known to satisfy more. -/
theorem mono {S : α → β → Prop} (h : Sim timeout R x y)
    (hRS : ∀ s a b s', x s = .ok (a, s') → y s = .ok (b, s') → R a b → S a b) :
    Sim timeout S x y := by
  refine fun s ↦ (h s).imp id fun hxy ↦ hxy.mono fun p q hx hy hR ↦ ⟨?_, hR.2⟩
  obtain ⟨b, s'⟩ := q
  obtain rfl : p.2 = s' := hR.2
  exact hRS s p.1 b p.2 hx hy hR.1

end Sim

end Eval

/-! ## Bisimilarity -/

section

variable {σ α : Type}

/-- Every step of a state is a step of the related one with the same label, to related states. -/
def Simulates (R : Lts σ α) (B : σ → σ → Prop) : Prop :=
  ∀ s t a s', B s t → R s a s' → ∃ t', R t a t' ∧ B s' t'

/-- No sequence of steps tells the states apart. -/
def Bisimilar (R : Lts σ α) (s t : σ) : Prop :=
  ∃ B : σ → σ → Prop, (∀ s t, B s t → B t s) ∧ Simulates R B ∧ B s t

end

end Library
