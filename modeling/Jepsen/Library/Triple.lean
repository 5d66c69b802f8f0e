import Jepsen.Library.Eval
import Mathlib.Order.Basic
import Mathlib.Order.WellFounded

/-!
# Pre- and postconditions

`Triple E P x Q`: from a state with `P` the computation answers with `Q`, or fails with `E`.

A loop that need not end is cut off after a number of rounds, and what is built from such loops gets
the number as an argument.  Such a family `Returns` what every large enough number gives, and
`Total P x Q` says that it does, with `Q`, from every state with `P`.  The rule for `iterate` asks for
a well-founded relation that every round goes down in.
-/

namespace Library

namespace Eval

variable {σ ε α β γ : Type}

/-- From a state with `P`, every failure of `x` satisfies `E`, and every answer `Q`. -/
def Triple (E : ε → Prop) (P : σ → Prop) (x : Eval σ ε α) (Q : α → σ → Prop) : Prop :=
  ∀ s, P s → Outcome E (fun r ↦ Q r.1 r.2) (x s)

namespace Triple

variable {E : ε → Prop} {P : σ → Prop} {Q : α → σ → Prop}

theorem pure {a : α} (h : ∀ s, P s → Q a s) : Triple E P (pure a : Eval σ ε α) Q :=
  h

theorem throw {e : ε} (h : E e) : Triple E P (throw e : Eval σ ε α) Q :=
  fun _ _ ↦ h

theorem bind {R : β → σ → Prop} {x : Eval σ ε α} {f : α → Eval σ ε β} (hx : Triple E P x Q)
    (hf : ∀ a, Triple E (Q a) (f a) R) : Triple E P (x >>= f) R :=
  fun s hs ↦ (hx s hs).bind fun r hr ↦ hf r.1 r.2 hr

theorem mono {R : α → σ → Prop} {x : Eval σ ε α} (hx : Triple E P x Q)
    (h : ∀ a s, Q a s → R a s) : Triple E P x R :=
  fun s hs ↦ (hx s hs).mono fun r _ hr ↦ h r.1 r.2 hr

theorem pre {P' : σ → Prop} {x : Eval σ ε α} (hx : Triple E P x Q) (h : ∀ s, P' s → P s) :
    Triple E P' x Q :=
  fun s hs ↦ hx s (h s hs)

theorem get_bind {R : α → σ → Prop} {f : σ → Eval σ ε α}
    (h : ∀ s, P s → Triple E (· = s) (f s) R) : Triple E P (get >>= f) R :=
  fun s hs ↦ h s hs s rfl

/-- What is known besides the state may be used to choose the computation. -/
theorem of_and {p : Prop} {x : Eval σ ε α} (h : p → Triple E P x Q) :
    Triple E (fun s ↦ p ∧ P s) x Q :=
  fun s hs ↦ h hs.1 s hs.2

theorem ok {x : Eval σ ε α} (hx : Triple E P x Q) {s s' : σ} {a : α} (hs : P s)
    (h : x s = .ok (a, s')) : Q a s' :=
  (hx s hs).ok h

end Triple

/-- Goes round until `body` answers with `.inr`, in at most `rounds` rounds. -/
def iterate (timeout : ε) (body : β → Eval σ ε (β ⊕ γ)) : Nat → β → Eval σ ε γ
  | 0, _ => throw timeout
  | rounds + 1, b => do
    match ← body b with
    | .inl b => iterate timeout body rounds b
    | .inr c => return c

variable {timeout : ε} {body : β → Eval σ ε (β ⊕ γ)}

theorem iterate_inl {rounds : Nat} {b b' : β} {s s' : σ} (h : body b s = .ok (.inl b', s')) :
    iterate timeout body (rounds + 1) b s = iterate timeout body rounds b' s' := by
  rw [iterate, bind_apply_ok h]

theorem iterate_inr {rounds : Nat} {b : β} {c : γ} {s s' : σ} (h : body b s = .ok (.inr c, s')) :
    iterate timeout body (rounds + 1) b s = .ok (c, s') := by
  rw [iterate, bind_apply_ok h]
  rfl

/-- A loop keeps what every round keeps. -/
theorem Triple.iterate {E : ε → Prop} {I : β → σ → Prop} {Q : γ → σ → Prop} (htimeout : E timeout)
    (h : ∀ b, Triple E (I b) (body b) (Sum.elim I Q)) (rounds : Nat) (b : β) :
    Triple E (I b) (iterate timeout body rounds b) Q := by
  induction rounds generalizing b with
  | zero => exact .throw htimeout
  | succ rounds ih =>
    apply (h b).bind
    intro r
    cases r with
    | inl b' => exact ih b'
    | inr c => exact .pure fun _ hs ↦ hs

/-! ## Families -/

/-- Every large enough `n` gives this answer. -/
def Returns (x : Nat → Eval σ ε α) (s : σ) (r : α × σ) : Prop :=
  ∃ n₀, ∀ n, n₀ ≤ n → x n s = .ok r

theorem Returns.unique {x : Nat → Eval σ ε α} {s : σ} {r r' : α × σ} (h : Returns x s r)
    (h' : Returns x s r') : r = r' := by
  obtain ⟨n, hn⟩ := h
  obtain ⟨n', hn'⟩ := h'
  have heq := (hn (n + n') (by omega)).symm.trans (hn' (n + n') (by omega))
  exact Except.ok.inj heq

theorem Returns.bind {x : Nat → Eval σ ε α} {f : Nat → α → Eval σ ε β} {s s' : σ} {a : α}
    {r : β × σ} (hx : Returns x s (a, s')) (hf : Returns (fun n ↦ f n a) s' r) :
    Returns (fun n ↦ x n >>= f n) s r := by
  obtain ⟨n₁, hn₁⟩ := hx
  obtain ⟨n₂, hn₂⟩ := hf
  refine ⟨n₁ + n₂, fun n hn ↦ ?_⟩
  show (x n >>= f n) s = _
  rw [bind_apply_ok (hn₁ n (by omega))]
  exact hn₂ n (by omega)

/-- From a state with `P`, the family returns, with `Q`. -/
def Total (P : σ → Prop) (x : Nat → Eval σ ε α) (Q : α → σ → Prop) : Prop :=
  ∀ s, P s → ∃ a s', Returns x s (a, s') ∧ Q a s'

namespace Total

variable {P : σ → Prop} {Q : α → σ → Prop}

theorem const {x : Eval σ ε α} (h : ∀ s, P s → ∃ a s', x s = .ok (a, s') ∧ Q a s') :
    Total P (fun _ ↦ x) Q := by
  intro s hs
  obtain ⟨a, s', heq, hq⟩ := h s hs
  exact ⟨a, s', ⟨0, fun _ _ ↦ heq⟩, hq⟩

theorem pure {a : α} (h : ∀ s, P s → Q a s) : Total P (fun _ ↦ (pure a : Eval σ ε α)) Q :=
  const fun s hs ↦ ⟨a, s, rfl, h s hs⟩

theorem bind {R : β → σ → Prop} {x : Nat → Eval σ ε α} {f : Nat → α → Eval σ ε β}
    (hx : Total P x Q) (hf : ∀ a, Total (Q a) (fun n ↦ f n a) R) :
    Total P (fun n ↦ x n >>= f n) R := by
  intro s hs
  obtain ⟨a, s', hxa, hq⟩ := hx s hs
  obtain ⟨b, s'', hfb, hr⟩ := hf a s' hq
  exact ⟨b, s'', hxa.bind hfb, hr⟩

theorem mono {R : α → σ → Prop} {x : Nat → Eval σ ε α} (hx : Total P x Q)
    (h : ∀ a s, Q a s → R a s) : Total P x R := by
  intro s hs
  obtain ⟨a, s', hreturns, hq⟩ := hx s hs
  exact ⟨a, s', hreturns, h a s' hq⟩

theorem pre {P' : σ → Prop} {x : Nat → Eval σ ε α} (hx : Total P x Q) (h : ∀ s, P' s → P s) :
    Total P' x Q :=
  fun s hs ↦ hx s (h s hs)

/-- What is read of the state is the state. -/
theorem get_bind {R : α → σ → Prop} {f : Nat → σ → Eval σ ε α}
    (h : ∀ s, P s → Total (· = s) (fun n ↦ f n s) R) : Total P (fun n ↦ get >>= f n) R :=
  fun s hs ↦ h s hs s rfl

/-- What is known besides the state may be used to choose the computation. -/
theorem of_and {p : Prop} {x : Nat → Eval σ ε α} (h : p → Total P x Q) :
    Total (fun s ↦ p ∧ P s) x Q :=
  fun s hs ↦ h hs.1 s hs.2

variable {body : Nat → β → Eval σ ε (β ⊕ γ)} {I : β → σ → Prop} {R : γ → σ → Prop}
  {lt : β × σ → β × σ → Prop}

/-- A loop whose rounds go down in a well-founded relation comes to its end. -/
theorem iterate (hwf : WellFounded lt)
    (h : ∀ b s₀, Total (fun s ↦ I b s ∧ s = s₀) (fun n ↦ body n b)
      (Sum.elim (fun b' s' ↦ I b' s' ∧ lt (b', s') (b, s₀)) R)) (b : β) :
    Total (I b) (fun n ↦ Eval.iterate timeout (body n) n b) R := by
  -- The rounds that are left and the number that a round gets are counted apart.
  have hrounds : ∀ p : β × σ, I p.1 p.2 → ∃ c s' n₀, (∀ rounds n, n₀ ≤ rounds → n₀ ≤ n →
      Eval.iterate timeout (body n) rounds p.1 p.2 = .ok (c, s')) ∧ R c s' := by
    intro p
    induction p using hwf.induction with
    | _ p ih =>
      intro hp
      obtain ⟨r, s', ⟨n₁, hbody⟩, hr⟩ := h p.1 p.2 p.2 ⟨hp, rfl⟩
      cases r with
      | inr c =>
        refine ⟨c, s', n₁ + 1, fun rounds n hrounds hn ↦ ?_, hr⟩
        obtain ⟨k, rfl⟩ := Nat.exists_eq_add_of_le' hrounds
        exact iterate_inr (hbody n (by omega))
      | inl b' =>
        obtain ⟨c, s'', n₂, hrest, hq⟩ := ih (b', s') hr.2 hr.1
        refine ⟨c, s'', n₁ + n₂ + 1, fun rounds n hrounds hn ↦ ?_, hq⟩
        obtain ⟨k, rfl⟩ := Nat.exists_eq_add_of_le' hrounds
        show Eval.iterate timeout (body n) (k + (n₁ + n₂) + 1) p.1 p.2 = _
        rw [iterate_inl (hbody n (by omega))]
        exact hrest _ n (by omega) (by omega)
  intro s hs
  obtain ⟨c, s', n₀, heq, hr⟩ := hrounds (b, s) hs
  exact ⟨c, s', ⟨n₀, fun n hn ↦ heq n n hn hn⟩, hr⟩

end Total

end Eval

end Library
