import Jepsen.Library.Triple

/-!
# Computations that draw

A family of computations over a stream of draws `Gives` the answers that some first draws lead to,
whatever comes after them.  It `Never` answers where, on some stream, no number is large enough.
-/

namespace Library

/-- A stream with some elements in front. -/
def prepend {δ : Type} : List δ → (Nat → δ) → Nat → δ
  | [], s => s
  | d :: ds, s => fun i ↦ i.casesOn d (prepend ds s)

theorem prepend_append {δ : Type} (ds ds' : List δ) (s : Nat → δ) :
    prepend (ds ++ ds') s = prepend ds (prepend ds' s) := by
  induction ds with
  | nil => rfl
  | cons d ds ih =>
    rw [List.cons_append, prepend, ih]
    rfl

namespace Eval

variable {δ ε α β : Type}

/-- Some first draws are answered by `a`, and nothing else is drawn. -/
def Gives (x : Nat → Eval (Nat → δ) ε α) (a : α) : Prop :=
  ∃ ds, ∀ s, Returns x (prepend ds s) (a, s)

/-- On some stream, there is no answer from some number on. -/
def Never (x : Nat → Eval (Nat → δ) ε α) : Prop :=
  ∃ s n, ∀ m, n ≤ m → ∀ r, x m s ≠ .ok r

variable {x : Nat → Eval (Nat → δ) ε α} {f : Nat → α → Eval (Nat → δ) ε β} {a : α} {b : β}

namespace Gives

theorem const {y : Eval (Nat → δ) ε α} (ds : List δ) (h : ∀ s, y (prepend ds s) = .ok (a, s)) :
    Gives (fun _ ↦ y) a :=
  ⟨ds, fun s ↦ ⟨0, fun _ _ ↦ h s⟩⟩

theorem pure : Gives (fun _ ↦ (Pure.pure a : Eval (Nat → δ) ε α)) a :=
  const [] fun _ ↦ rfl

theorem lift {y : Except ε α} (h : y = .ok a) :
    Gives (fun _ ↦ (liftM y : Eval (Nat → δ) ε α)) a := by
  subst h
  exact const [] fun _ ↦ rfl

theorem bind (hx : Gives x a) (hf : Gives (fun n ↦ f n a) b) :
    Gives (fun n ↦ x n >>= f n) b := by
  obtain ⟨ds, hx⟩ := hx
  obtain ⟨ds', hf⟩ := hf
  refine ⟨ds ++ ds', fun s ↦ ?_⟩
  rw [prepend_append]
  exact (hx (prepend ds' s)).bind (hf s)

theorem exists_bind (hx : Gives x a) (hf : ∃ b, Gives (fun n ↦ f n a) b) :
    ∃ b, Gives (fun n ↦ x n >>= f n) b := by
  obtain ⟨b, hf⟩ := hf
  exact ⟨b, hx.bind hf⟩

theorem of_succ (h : Gives (fun n ↦ x (n + 1)) a) : Gives x a := by
  obtain ⟨ds, h⟩ := h
  refine ⟨ds, fun s ↦ ?_⟩
  obtain ⟨n, h⟩ := h s
  refine ⟨n + 1, fun m hm ↦ ?_⟩
  obtain ⟨m, rfl⟩ := Nat.exists_eq_add_of_le' (Nat.le_of_add_left_le hm)
  exact h m (by omega)

/-- What is given is answered on some stream, and leaves any stream of one's choice. -/
theorem exists_ok (h : Gives x a) (s : Nat → δ) : ∃ n s', x n s' = .ok (a, s) := by
  obtain ⟨ds, h⟩ := h
  obtain ⟨n, h⟩ := h s
  exact ⟨n, prepend ds s, h n (Nat.le_refl n)⟩

end Gives

namespace Never

theorem of_fails (s : Nat → δ) (h : ∀ m r, x m s ≠ .ok r) : Never x :=
  ⟨s, 0, fun m _ ↦ h m⟩

theorem of_error [Nonempty δ] {y : Except ε α} {e : ε} (h : y = .error e) :
    Never (fun _ ↦ (liftM y : Eval (Nat → δ) ε α)) := by
  obtain ⟨d⟩ := ‹Nonempty δ›
  exact .of_fails (fun _ ↦ d) fun _ r hr ↦ by
    rw [h] at hr
    exact absurd hr (by simp)

theorem bind (hx : Never x) : Never (fun n ↦ x n >>= f n) := by
  obtain ⟨s, n, hx⟩ := hx
  refine ⟨s, n, fun m hm r h ↦ ?_⟩
  obtain ⟨a, s', ha, -⟩ := bind_eq_ok.mp h
  exact hx m hm (a, s') ha

theorem bind_of_gives (hx : Gives x a) (hf : Never fun n ↦ f n a) :
    Never (fun n ↦ x n >>= f n) := by
  obtain ⟨ds, hx⟩ := hx
  obtain ⟨s, n', hf⟩ := hf
  obtain ⟨n, hx⟩ := hx s
  refine ⟨prepend ds s, n + n', fun m hm r h ↦ ?_⟩
  have hrest : (x m >>= f m) (prepend ds s) = f m a s := bind_apply_ok (hx m (by omega))
  exact hf m (by omega) r (hrest.symm.trans h)

theorem of_succ (h : Never fun n ↦ x (n + 1)) : Never x := by
  obtain ⟨s, n, h⟩ := h
  refine ⟨s, n + 1, fun m hm r ↦ ?_⟩
  obtain ⟨m, rfl⟩ := Nat.exists_eq_add_of_le' (Nat.le_of_add_left_le hm)
  exact h m (by omega) r

end Never

end Eval

end Library
