import Mathlib.Logic.Basic
import Mathlib.Tactic.Basic
import Mathlib.Tactic.Common

/-!
# State-and-failure computations with a fuel failure

`Eval σ ε α` threads a state `σ` and may stop with a failure `ε`.  `Yields E Q x` bounds the
failures of `x` by `E` and its answers by `Q`, with one rule for each way to build a computation.

A recursive function that need not terminate is approximated by the members of a chain: the first
one always fails with a chosen `timeout`, and each next one calls the previous.  `Approx` is the
flat order of such a chain, and its rules show that more fuel never changes an answer.
-/

namespace Library

abbrev Eval (σ ε : Type) := StateT σ (Except ε)

/-- A failure satisfies `E`, an answer `Q`. -/
def Outcome {ε α : Type} (E : ε → Prop) (Q : α → Prop) : Except ε α → Prop
  | .error e => E e
  | .ok a => Q a

namespace Outcome

variable {ε α β : Type} {E : ε → Prop} {Q : α → Prop}

theorem bind {R : β → Prop} {x : Except ε α} {f : α → Except ε β} (hx : Outcome E Q x)
    (hf : ∀ a, Q a → Outcome E R (f a)) : Outcome E R (x >>= f) := by
  cases x with
  | error e => exact hx
  | ok a => exact hf a hx

theorem mono {R : α → Prop} {x : Except ε α} (hx : Outcome E Q x)
    (h : ∀ a, x = .ok a → Q a → R a) : Outcome E R x := by
  cases x with
  | error e => exact hx
  | ok a => exact h a rfl hx

theorem ok {x : Except ε α} {a : α} (h : Outcome E Q x) (hx : x = .ok a) : Q a := by
  rwa [hx] at h

theorem error {x : Except ε α} {e : ε} (h : Outcome E Q x) (hx : x = .error e) : E e := by
  rwa [hx] at h

end Outcome

namespace Eval

variable {σ ε α β : Type}

@[simp] theorem pure_apply (a : α) (s : σ) : (pure a : Eval σ ε α) s = .ok (a, s) := rfl

@[simp] theorem throw_apply (e : ε) (s : σ) : (throw e : Eval σ ε α) s = .error e := rfl

@[simp] theorem lift_apply_ok (a : α) (s : σ) :
    (liftM (Except.ok a : Except ε α) : Eval σ ε α) s = .ok (a, s) := rfl

@[simp] theorem lift_apply_error (e : ε) (s : σ) :
    (liftM (Except.error e : Except ε α) : Eval σ ε α) s = .error e := rfl

theorem bind_apply_ok {x : Eval σ ε α} {f : α → Eval σ ε β} {s s' : σ} {a : α}
    (h : x s = .ok (a, s')) : (x >>= f) s = f a s' := by
  simp only [bind, StateT.bind, Except.bind, h]

theorem bind_apply_error {x : Eval σ ε α} {f : α → Eval σ ε β} {s : σ} {e : ε}
    (h : x s = .error e) : (x >>= f) s = .error e := by
  simp only [bind, StateT.bind, Except.bind, h]

/-- A sequence answers exactly when its first part answers and the rest answers from there. -/
theorem bind_eq_ok {x : Eval σ ε α} {f : α → Eval σ ε β} {s : σ} {r : β × σ} :
    (x >>= f) s = .ok r ↔ ∃ a s', x s = .ok (a, s') ∧ f a s' = .ok r := by
  cases h : x s with
  | error e => simp [bind_apply_error h]
  | ok p =>
    obtain ⟨a, s'⟩ := p
    simp [bind_apply_ok h]

theorem bind_eq_error {x : Eval σ ε α} {f : α → Eval σ ε β} {s : σ} {e : ε} :
    (x >>= f) s = .error e ↔
      x s = .error e ∨ ∃ a s', x s = .ok (a, s') ∧ f a s' = .error e := by
  cases h : x s with
  | error e' => simp [bind_apply_error h]
  | ok p =>
    obtain ⟨a, s'⟩ := p
    simp [bind_apply_ok h]

theorem lift_eq_ok {x : Except ε α} {s : σ} {r : α × σ} :
    (liftM x : Eval σ ε α) s = .ok r ↔ ∃ a, x = .ok a ∧ r = (a, s) := by
  cases x <;> simp [eq_comm]

theorem lift_eq_error {x : Except ε α} {s : σ} {e : ε} :
    (liftM x : Eval σ ε α) s = .error e ↔ x = .error e := by
  cases x <;> simp

theorem lift_bind_apply_ok {x : Except ε α} {a : α} (h : x = .ok a) (f : α → Eval σ ε β) (s : σ) :
    ((liftM x : Eval σ ε α) >>= f) s = f a s :=
  bind_apply_ok (lift_eq_ok.mpr ⟨a, h, rfl⟩)

theorem lift_bind_eq_ok {x : Except ε α} {f : α → Eval σ ε β} {s : σ} {r : β × σ} :
    ((liftM x : Eval σ ε α) >>= f) s = .ok r ↔ ∃ a, x = .ok a ∧ f a s = .ok r := by
  cases x with
  | error e => simp [bind_apply_error (lift_apply_error e s)]
  | ok a => simp [lift_bind_apply_ok rfl]

/-! ## Outcomes -/

/-- Every failure of `x` satisfies `E`, and every answer `Q`. -/
def Yields (E : ε → Prop) (Q : α → Prop) (x : Eval σ ε α) : Prop :=
  ∀ s, Outcome E (fun p ↦ Q p.1) (x s)

namespace Yields

variable {E : ε → Prop} {Q : α → Prop}

theorem pure {a : α} (h : Q a) : Yields E Q (pure a : Eval σ ε α) :=
  fun _ ↦ h

theorem throw {e : ε} (h : E e) : Yields E Q (throw e : Eval σ ε α) :=
  fun _ ↦ h

theorem lift {x : Except ε α} (h : Outcome E Q x) : Yields E Q (liftM x : Eval σ ε α) := by
  intro s
  cases x with
  | error e => exact h
  | ok a => exact h

theorem bind {R : β → Prop} {x : Eval σ ε α} {f : α → Eval σ ε β} (hx : Yields E Q x)
    (hf : ∀ a, Q a → Yields E R (f a)) : Yields E R (x >>= f) :=
  fun s ↦ (hx s).bind fun p hp ↦ hf p.1 hp p.2

theorem lift_bind {R : β → Prop} {x : Except ε α} {a : α} {f : α → Eval σ ε β} (hx : x = .ok a)
    (hf : Yields E R (f a)) : Yields E R ((liftM x : Eval σ ε α) >>= f) := by
  intro s
  rw [lift_bind_apply_ok hx]
  exact hf s

/-- The answers may be bounded by what is known of them otherwise. -/
theorem of_ok {x : Eval σ ε α} (hx : Yields E (fun _ ↦ True) x)
    (h : ∀ s a s', x s = .ok (a, s') → Q a) : Yields E Q x :=
  fun s ↦ (hx s).mono fun p hp _ ↦ h s p.1 p.2 hp

theorem error {x : Eval σ ε α} (hx : Yields E Q x) {s : σ} {e : ε} (h : x s = .error e) : E e :=
  (hx s).error h

end Yields

/-! ## The flat order -/

/-- `x` is `y`, except that it may run out of fuel where `y` does not. -/
def Approx (timeout : ε) (x y : Eval σ ε α) : Prop :=
  ∀ s, x s = .error timeout ∨ x s = y s

variable {timeout : ε}

theorem Approx.refl (x : Eval σ ε α) : Approx timeout x x :=
  fun _ ↦ .inr rfl

theorem Approx.bot (y : Eval σ ε α) : Approx timeout (throw timeout) y :=
  fun _ ↦ .inl rfl

theorem Approx.bind {x y : Eval σ ε α} {f g : α → Eval σ ε β}
    (hx : Approx timeout x y) (hf : ∀ a, Approx timeout (f a) (g a)) :
    Approx timeout (x >>= f) (y >>= g) := by
  intro s
  rcases hx s with h | h
  · exact .inl (bind_apply_error h)
  · cases hy : y s with
    | error e => exact .inr (by rw [bind_apply_error (h.trans hy), bind_apply_error hy])
    | ok p =>
      obtain ⟨a, s'⟩ := p
      rw [bind_apply_ok (h.trans hy), bind_apply_ok hy]
      exact hf a s'

theorem Approx.trans {x y z : Eval σ ε α} (h : Approx timeout x y) (h' : Approx timeout y z) :
    Approx timeout x z := by
  intro s
  rcases h s with hx | hx
  · exact .inl hx
  · exact (h' s).imp hx.trans hx.trans

/-- Every answer of the approximation is the answer of what it approximates. -/
theorem Approx.eq_of_ne {x y : Eval σ ε α} (h : Approx timeout x y) {s : σ}
    (hne : x s ≠ .error timeout) : y s = x s :=
  ((h s).resolve_left hne).symm

end Eval

end Library
