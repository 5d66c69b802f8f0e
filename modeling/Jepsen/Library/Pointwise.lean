import Mathlib.Algebra.Order.BigOperators.Group.List
import Mathlib.Data.List.Forall2
import Mathlib.Tactic.Common

/-!
# Pointwise related lists

`Pointwise R xs ys` relates two lists of one length position by position.  It is `List.Forall₂`
stated by positions, so that it may stand in a premise of an inductive relation.

`Padded P Q R xs ys` relates them up to elements that `P` lets stand alone on the left and `Q` on
the right.
-/

namespace Library

variable {α β : Type}

theorem forall_mem_set {P : α → Prop} {xs : List α} {i : Nat} {x : α} (h : ∀ y ∈ xs, P y)
    (hx : P x) : ∀ y ∈ xs.set i x, P y := by
  intro y hy
  rcases List.mem_or_eq_of_mem_set hy with hy | rfl
  · exact h y hy
  · exact hx

def Pointwise (R : α → β → Prop) (xs : List α) (ys : List β) : Prop :=
  xs.length = ys.length ∧ ∀ i (hx : i < xs.length) (hy : i < ys.length), R xs[i] ys[i]

namespace Pointwise

variable {R : α → β → Prop}

theorem iff_forall₂ {xs : List α} {ys : List β} : Pointwise R xs ys ↔ List.Forall₂ R xs ys := by
  rw [List.forall₂_iff_get]
  rfl

theorem nil : Pointwise R [] [] := iff_forall₂.mpr .nil

theorem cons {x : α} {y : β} {xs : List α} {ys : List β} (h : R x y) (hs : Pointwise R xs ys) :
    Pointwise R (x :: xs) (y :: ys) :=
  iff_forall₂.mpr (.cons h (iff_forall₂.mp hs))

theorem mono {S : α → β → Prop} {xs : List α} {ys : List β} (hs : Pointwise R xs ys)
    (h : ∀ x ∈ xs, ∀ y, R x y → S x y) : Pointwise S xs ys :=
  ⟨hs.1, fun i hx hy ↦ h _ (List.getElem_mem hx) _ (hs.2 i hx hy)⟩

/-- An element on the right stands at a position that the left has too. -/
theorem exists_getElem {xs : List α} {ys : List β} (hlen : xs.length = ys.length) {y : β}
    (hy : y ∈ ys) : ∃ i, ∃ (_ : i < xs.length) (hi : i < ys.length), ys[i] = y := by
  obtain ⟨i, hi, rfl⟩ := List.getElem_of_mem hy
  exact ⟨i, by rw [hlen]; exact hi, hi, rfl⟩

/-- Every element on the right is related to one on the left. -/
theorem exists_left {xs : List α} {ys : List β} (hs : Pointwise R xs ys) {y : β} (hy : y ∈ ys) :
    ∃ x ∈ xs, R x y := by
  obtain ⟨i, hx, hi, rfl⟩ := exists_getElem hs.1 hy
  exact ⟨xs[i], List.getElem_mem hx, hs.2 i hx hi⟩

/-- Every element on the left is related to one on the right. -/
theorem exists_right {xs : List α} {ys : List β} (hs : Pointwise R xs ys) {x : α} (hx : x ∈ xs) :
    ∃ y ∈ ys, R x y := by
  obtain ⟨i, hi, rfl⟩ := List.getElem_of_mem hx
  exact ⟨ys.get ⟨i, hs.1 ▸ hi⟩, List.get_mem _ _, hs.2 i hi (hs.1 ▸ hi)⟩

/-- What the relation carries from left to right carries over to all elements. -/
theorem forall_mem {P : α → Prop} {Q : β → Prop} {xs : List α} {ys : List β}
    (hs : Pointwise R xs ys) (hR : ∀ x y, R x y → P x → Q y) (h : ∀ x ∈ xs, P x) :
    ∀ y ∈ ys, Q y := by
  intro y hy
  obtain ⟨x, hx, hxy⟩ := hs.exists_left hy
  exact hR x y hxy (h x hx)

/-- The same for a relation that is only given by positions. -/
theorem forall_mem_of_getElem {P : α → Prop} {Q : β → Prop} {xs : List α} {ys : List β}
    (hlen : xs.length = ys.length)
    (hstep : ∀ i (hx : i < xs.length) (hy : i < ys.length), P xs[i] → Q ys[i])
    (h : ∀ x ∈ xs, P x) : ∀ y ∈ ys, Q y :=
  forall_mem (R := fun x y ↦ P x → Q y) ⟨hlen, hstep⟩ (fun _ _ hxy ↦ hxy) h

/-- What the relation says of its right side holds of all elements there. -/
theorem forall_right {Q : β → Prop} {xs : List α} {ys : List β} (hs : Pointwise R xs ys)
    (h : ∀ x y, R x y → Q y) : ∀ y ∈ ys, Q y := by
  intro y hy
  obtain ⟨x, -, hxy⟩ := hs.exists_left hy
  exact h x y hxy

theorem refl {S : α → α → Prop} (h : ∀ x, S x x) (xs : List α) : Pointwise S xs xs :=
  ⟨rfl, fun _ _ _ ↦ h _⟩

theorem trans {γ : Type} {S : β → γ → Prop} {T : α → γ → Prop} {xs : List α} {ys : List β}
    {zs : List γ} (hs : Pointwise R xs ys) (ht : Pointwise S ys zs)
    (h : ∀ x ∈ xs, ∀ y z, R x y → S y z → T x z) : Pointwise T xs zs := by
  refine ⟨hs.1.trans ht.1, fun i hx hz ↦ ?_⟩
  have hy : i < ys.length := hs.1 ▸ hx
  exact h _ (List.getElem_mem hx) _ _ (hs.2 i hx hy) (ht.2 i hy hz)

theorem uncons {x : α} {xs : List α} {ys : List β} (hs : Pointwise R (x :: xs) ys) :
    ∃ y ys', R x y ∧ Pointwise R xs ys' ∧ ys = y :: ys' := by
  obtain ⟨y, ys', h, hrest, rfl⟩ := List.forall₂_cons_left_iff.mp (iff_forall₂.mp hs)
  exact ⟨y, ys', h, iff_forall₂.mpr hrest, rfl⟩

/-- One list of witnesses for all positions. -/
theorem choose {γ : Type} {S : α → γ → Prop} {T : β → γ → Prop} {xs : List α} {ys : List β}
    (hs : Pointwise (fun x y ↦ ∃ z, S x z ∧ T y z) xs ys) :
    ∃ zs, Pointwise S xs zs ∧ Pointwise T ys zs := by
  induction xs generalizing ys with
  | nil =>
    obtain rfl := List.eq_nil_of_length_eq_zero hs.1.symm
    exact ⟨[], .nil, .nil⟩
  | cons x xs ih =>
    obtain ⟨y, ys, ⟨z, hx, hy⟩, hrest, rfl⟩ := hs.uncons
    obtain ⟨zs, hxs, hys⟩ := ih hrest
    exact ⟨z :: zs, .cons hx hxs, .cons hy hys⟩

theorem exists_right_of_forall {xs : List α} (hall : ∀ x ∈ xs, ∃ y, R x y) :
    ∃ ys, Pointwise R xs ys := by
  induction xs with
  | nil => exact ⟨[], .nil⟩
  | cons x xs ih =>
    obtain ⟨⟨y, hy⟩, hxs⟩ := List.forall_mem_cons.mp hall
    obtain ⟨ys, hys⟩ := ih hxs
    exact ⟨y :: ys, .cons hy hys⟩

/-- A choice at every position, with a given one at one of them. -/
theorem exists_of_mem {xs : List α} {x : α} {y : β} (hall : ∀ x ∈ xs, ∃ y, R x y) (hx : x ∈ xs)
    (hy : R x y) : ∃ ys, Pointwise R xs ys ∧ y ∈ ys := by
  induction xs with
  | nil => exact absurd hx (by simp)
  | cons x' xs ih =>
    obtain ⟨⟨y', hy'⟩, hxs⟩ := List.forall_mem_cons.mp hall
    by_cases hmem : x ∈ xs
    · obtain ⟨ys, hys, hyin⟩ := ih hxs hmem
      exact ⟨y' :: ys, .cons hy' hys, List.mem_cons_of_mem y' hyin⟩
    · obtain rfl := (List.mem_cons.mp hx).resolve_right hmem
      obtain ⟨ys, hys⟩ := exists_right_of_forall hxs
      exact ⟨y :: ys, .cons hy hys, List.mem_cons_self⟩

theorem tail {x : α} {y : β} {xs : List α} {ys : List β} (hs : Pointwise R (x :: xs) (y :: ys)) :
    Pointwise R xs ys := by
  obtain ⟨_, _, -, hrest, heq⟩ := hs.uncons
  obtain ⟨-, rfl⟩ := List.cons.inj heq
  exact hrest

/-- An element taken out on the left is put back at its place. -/
theorem insertIdx {xs : List α} {ys : List β} {i : Nat} {x : α} {y : β} (hx : xs[i]? = some x)
    (h : R x y) (hs : Pointwise R (xs.eraseIdx i) ys) : Pointwise R xs (ys.insertIdx i y) := by
  induction xs generalizing i ys with
  | nil => exact absurd hx (by simp)
  | cons x' xs ih =>
    cases i with
    | zero =>
      obtain rfl : x' = x := by simpa using hx
      exact .cons h hs
    | succ i =>
      obtain ⟨y', ys', h', hs', rfl⟩ := uncons hs
      exact .cons h' (ih (by simpa using hx) hs')

theorem insertIdx_both {xs : List α} {ys : List β} {i : Nat} {x : α} {y : β} (hi : i ≤ xs.length)
    (h : R x y) (hs : Pointwise R xs ys) : Pointwise R (xs.insertIdx i x) (ys.insertIdx i y) := by
  refine .insertIdx ?_ h ?_
  · rw [List.getElem?_insertIdx_self, if_pos hi]
  · rwa [List.eraseIdx_insertIdx_self]

theorem eraseIdx {xs : List α} {ys : List β} (hs : Pointwise R xs ys) (i : Nat) :
    Pointwise R (xs.eraseIdx i) (ys.eraseIdx i) := by
  induction xs generalizing i ys with
  | nil =>
    obtain rfl := List.eq_nil_of_length_eq_zero hs.1.symm
    exact .nil
  | cons x xs ih =>
    obtain ⟨y, ys, hxy, hrest, rfl⟩ := hs.uncons
    cases i with
    | zero => exact hrest
    | succ i => exact .cons hxy (ih hrest i)

theorem set {S : α → α → Prop} (hrefl : ∀ x, S x x) {xs : List α} {i : Nat} {x y : α}
    (hx : xs[i]? = some x) (h : S x y) : Pointwise S xs (xs.set i y) := by
  refine ⟨List.length_set.symm, fun j hj hj' ↦ ?_⟩
  by_cases hij : i = j
  · subst hij
    rw [List.getElem_set_self, (List.getElem?_eq_some_iff.mp hx).2]
    exact h
  · rw [List.getElem_set_ne hij]
    exact hrefl _

theorem set_both {xs : List α} {ys : List β} (hs : Pointwise R xs ys) (i : Nat) {x : α} {y : β}
    (h : R x y) : Pointwise R (xs.set i x) (ys.set i y) := by
  refine ⟨by simpa using hs.1, fun j hj hj' ↦ ?_⟩
  rw [List.getElem_set, List.getElem_set]
  split
  · exact h
  · exact hs.2 j (by simpa using hj) (by simpa using hj')

theorem map_right {γ : Type} {S : α → γ → Prop} {f : β → γ} {xs : List α} {ys : List β} :
    Pointwise S xs (ys.map f) ↔ Pointwise (fun x y ↦ S x (f y)) xs ys := by
  simp only [Pointwise, List.length_map, List.getElem_map]

/-! ### Sums over related lists -/

section

variable {M : Type} [AddCommMonoid M] [PartialOrder M] [IsOrderedAddMonoid M] {f : α → M}

theorem sum_le {xs ys : List α} (hs : Pointwise (fun x y ↦ f y ≤ f x) xs ys) :
    (ys.map f).sum ≤ (xs.map f).sum := by
  apply List.Forall₂.sum_le_sum
  rw [List.forall₂_map_left_iff, List.forall₂_map_right_iff]
  exact (iff_forall₂.mp hs).flip

theorem sum_eq {xs ys : List α} (hs : Pointwise (fun x y ↦ f y = f x) xs ys) :
    (ys.map f).sum = (xs.map f).sum :=
  le_antisymm (sum_le (hs.mono fun _ _ _ h ↦ h.le)) <| by
    apply List.Forall₂.sum_le_sum
    rw [List.forall₂_map_left_iff, List.forall₂_map_right_iff]
    exact iff_forall₂.mp (hs.mono fun _ _ _ h ↦ h.ge)

/-- What one element gives up, all together do. -/
theorem sum_set_le {xs : List α} {i : Nat} {x y : α} {n : M} (hx : xs[i]? = some x)
    (h : f y + n ≤ f x) : ((xs.set i y).map f).sum + n ≤ (xs.map f).sum := by
  induction xs generalizing i with
  | nil => exact absurd hx (by simp)
  | cons x₀ xs ih =>
    cases i with
    | zero =>
      cases Option.some.inj hx
      rw [List.set_cons_zero, List.map_cons, List.map_cons, List.sum_cons, List.sum_cons,
        add_right_comm]
      exact add_le_add h le_rfl
    | succ i =>
      rw [List.set_cons_succ, List.map_cons, List.map_cons, List.sum_cons, List.sum_cons, add_assoc]
      exact add_le_add le_rfl (ih hx)

end

/-- A filter that looks at nothing the relation forgets keeps related lists related. -/
theorem filter {p : α → Bool} {q : β → Bool} {xs : List α} {ys : List β} (hs : Pointwise R xs ys)
    (h : ∀ x y, R x y → q y = p x) : Pointwise R (xs.filter p) (ys.filter q) := by
  induction xs generalizing ys with
  | nil =>
    obtain rfl := List.eq_nil_of_length_eq_zero hs.1.symm
    exact .nil
  | cons x xs ih =>
    obtain ⟨y, ys, hxy, hrest, rfl⟩ := hs.uncons
    cases hp : p x with
    | false =>
      have hq := (h x y hxy).trans hp
      rw [List.filter_cons_of_neg (by simp [hp]), List.filter_cons_of_neg (by simp [hq])]
      exact ih hrest
    | true =>
      rw [List.filter_cons_of_pos hp, List.filter_cons_of_pos ((h x y hxy).trans hp)]
      exact .cons hxy (ih hrest)

theorem filter_zipWith {γ : Type} {f : α → β → γ} {p : α → Bool} {q : β → Bool} {r : γ → Bool}
    {xs : List α} {ys : List β} (hs : Pointwise R xs ys)
    (h : ∀ x y, R x y → q y = p x ∧ r (f x y) = p x) :
    (List.zipWith f xs ys).filter r = List.zipWith f (xs.filter p) (ys.filter q) := by
  induction xs generalizing ys with
  | nil => rfl
  | cons x xs ih =>
    obtain ⟨y, ys, hxy, hrest, rfl⟩ := hs.uncons
    obtain ⟨hq, hr⟩ := h x y hxy
    cases hp : p x with
    | false => simp [hq, hr, hp, ih hrest]
    | true => simp [hq, hr, hp, ih hrest]

end Pointwise

inductive Padded (P : α → Prop) (Q : β → Prop) (R : α → β → Prop) : List α → List β → Prop
  | nil : Padded P Q R [] []
  | cons {x y xs ys} (h : R x y) (hs : Padded P Q R xs ys) : Padded P Q R (x :: xs) (y :: ys)
  | left {x xs ys} (h : P x) (hs : Padded P Q R xs ys) : Padded P Q R (x :: xs) ys
  | right {y xs ys} (h : Q y) (hs : Padded P Q R xs ys) : Padded P Q R xs (y :: ys)

namespace Padded

variable {P : α → Prop} {Q : β → Prop} {R : α → β → Prop} {xs xs₁ xs₂ : List α}
  {ys ys₁ ys₂ : List β}

theorem append (h₁ : Padded P Q R xs₁ ys₁) (h₂ : Padded P Q R xs₂ ys₂) :
    Padded P Q R (xs₁ ++ xs₂) (ys₁ ++ ys₂) := by
  induction h₁ with
  | nil => exact h₂
  | cons h _ ih => exact .cons h ih
  | left h _ ih => exact .left h ih
  | right h _ ih => exact .right h ih

theorem map {γ δ : Type} {P' : γ → Prop} {Q' : δ → Prop} {R' : γ → δ → Prop} {f : α → γ}
    {g : β → δ} (hs : Padded P Q R xs ys) (hP : ∀ x, P x → P' (f x)) (hQ : ∀ y, Q y → Q' (g y))
    (hR : ∀ x y, R x y → R' (f x) (g y)) : Padded P' Q' R' (xs.map f) (ys.map g) := by
  induction hs with
  | nil => exact .nil
  | cons h _ ih => exact .cons (hR _ _ h) ih
  | left h _ ih => exact .left (hP _ h) ih
  | right h _ ih => exact .right (hQ _ h) ih

theorem mono {S : α → β → Prop} (hs : Padded P Q R xs ys) (h : ∀ x y, R x y → S x y) :
    Padded P Q S xs ys := by
  induction hs with
  | nil => exact .nil
  | cons hR _ ih => exact .cons (h _ _ hR) ih
  | left hP _ ih => exact .left hP ih
  | right hQ _ ih => exact .right hQ ih

/-- What holds of every element of two padded lists. -/
theorem forall_left {S : α → Prop} (hs : Padded P Q R xs ys) (hP : ∀ x, P x → S x)
    (hR : ∀ x y, R x y → S x) : ∀ x ∈ xs, S x := by
  induction hs with
  | nil => simp
  | cons h _ ih => exact List.forall_mem_cons.mpr ⟨hR _ _ h, ih⟩
  | left h _ ih => exact List.forall_mem_cons.mpr ⟨hP _ h, ih⟩
  | right _ _ ih => exact ih

theorem flip (hs : Padded P Q R xs ys) : Padded Q P (fun y x ↦ R x y) ys xs := by
  induction hs with
  | nil => exact .nil
  | cons h _ ih => exact .cons h ih
  | left h _ ih => exact .right h ih
  | right h _ ih => exact .left h ih

variable {p : α → Bool} {q : β → Bool}

/-- Lists are padded when they agree once the padding is filtered out. -/
theorem of_filter (hP : ∀ x ∈ xs, p x = false → P x) (hQ : ∀ y ∈ ys, q y = false → Q y)
    (h : Pointwise (fun x y ↦ p x = true → q y = true → R x y) (xs.filter p) (ys.filter q)) :
    Padded P Q R xs ys := by
  induction xs generalizing ys with
  | nil =>
    induction ys with
    | nil => exact .nil
    | cons y ys ih =>
      obtain ⟨hy, hys⟩ := List.forall_mem_cons.mp hQ
      have hnil : (y :: ys).filter q = [] := by
        have hlen := h.1
        rw [List.filter_nil, List.length_nil] at hlen
        exact List.eq_nil_of_length_eq_zero hlen.symm
      have hq : q y = false := by simpa using List.filter_eq_nil_iff.mp hnil y (by simp)
      rw [List.filter_cons_of_neg (by simp [hq])] at h
      exact .right (hy hq) (ih hys h)
  -- Entries that are filtered out pad one side each; the others stand against each other.
  | cons x xs ih =>
    obtain ⟨hx, hxs⟩ := List.forall_mem_cons.mp hP
    cases hp : p x with
    | false =>
      rw [List.filter_cons_of_neg (by simp [hp])] at h
      exact .left (hx hp) (ih hxs hQ h)
    | true =>
      induction ys with
      | nil =>
        rw [List.filter_cons_of_pos hp, List.filter_nil] at h
        exact absurd h.1 (by simp)
      | cons y ys ih' =>
        obtain ⟨hy, hys⟩ := List.forall_mem_cons.mp hQ
        cases hq : q y with
        | false =>
          have hskip : (y :: ys).filter q = ys.filter q := List.filter_cons_of_neg (by simp [hq])
          exact .right (hy hq) (ih' hys (hskip ▸ h))
        | true =>
          rw [List.filter_cons_of_pos hp, List.filter_cons_of_pos hq] at h
          obtain ⟨y', ys', hxy, hrest, heq⟩ := h.uncons
          obtain ⟨rfl, rfl⟩ := List.cons.inj heq
          exact .cons (hxy hp hq) (ih hxs hys hrest)

theorem filter (hs : Padded P Q R xs ys) (hP : ∀ x, P x → p x = false)
    (hQ : ∀ y, Q y → q y = false) (hR : ∀ x y, R x y → p x = true ∧ q y = true) :
    Pointwise R (xs.filter p) (ys.filter q) := by
  induction hs with
  | nil => exact .nil
  | cons h _ ih =>
    rw [List.filter_cons_of_pos (hR _ _ h).1, List.filter_cons_of_pos (hR _ _ h).2]
    exact .cons h ih
  | left h _ ih =>
    rw [List.filter_cons_of_neg (by simp [hP _ h])]
    exact ih
  | right h _ ih =>
    rw [List.filter_cons_of_neg (by simp [hQ _ h])]
    exact ih

end Padded

end Library
