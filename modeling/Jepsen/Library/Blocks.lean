import Mathlib.Data.List.SplitBy
import Mathlib.Tactic.Common

/-!
# Numbered blocks

`blocks f k xs` writes a block for each element of `xs`, one after the other, and hands the blocks
the numbers `k`, `k + 1`, and so on.  Where an entry knows the number of its block, the entries of
one number are one block, and the numbers never go back.

`runs key xs` cuts a list into its maximal runs of elements of one key.
-/

namespace Library

variable {α β : Type}

def blocks (f : Nat → α → List β) : Nat → List α → List β
  | _, [] => []
  | k, x :: xs => f k x ++ blocks f (k + 1) xs

variable {f : Nat → α → List β} {label : β → Nat}

theorem mem_blocks {b : β} {k : Nat} {xs : List α} :
    b ∈ blocks f k xs ↔ ∃ i x, xs[i]? = some x ∧ b ∈ f (k + i) x := by
  induction xs generalizing k with
  | nil => simp [blocks]
  | cons x xs ih =>
    rw [blocks, List.mem_append, ih]
    constructor
    · rintro (h | ⟨i, y, hy, h⟩)
      · exact ⟨0, x, rfl, h⟩
      · exact ⟨i + 1, y, hy, by rwa [Nat.add_comm i, ← Nat.add_assoc]⟩
    · rintro ⟨i, y, hy, h⟩
      cases i with
      | zero =>
        obtain rfl := Option.some.inj hy
        exact .inl h
      | succ i => exact .inr ⟨i, y, hy, by rwa [Nat.add_assoc, Nat.add_comm 1]⟩

-- An entry of number `j` lies in the block of the element at `j - k`.
theorem mem_blocks_label (hlabel : ∀ k x, ∀ b ∈ f k x, label b = k) {b : β} {k : Nat}
    {xs : List α} (h : b ∈ blocks f k xs) :
    ∃ x, k ≤ label b ∧ xs[label b - k]? = some x ∧ b ∈ f (label b) x := by
  obtain ⟨i, x, hx, hb⟩ := mem_blocks.mp h
  obtain hi := hlabel _ _ _ hb
  exact ⟨x, by omega, by rwa [hi, Nat.add_sub_cancel_left], by rwa [hi]⟩

theorem blocks_filter_of_lt (hlabel : ∀ k x, ∀ b ∈ f k x, label b = k) {j k : Nat} (hj : j < k)
    (xs : List α) : (blocks f k xs).filter (label · = j) = [] := by
  refine List.filter_eq_nil_iff.mpr fun b hb ↦ ?_
  obtain ⟨x, hk, -⟩ := mem_blocks_label hlabel hb
  simpa using (by omega : label b ≠ j)

/-- The entries of one number are one block. -/
theorem blocks_filter (hlabel : ∀ k x, ∀ b ∈ f k x, label b = k) (k i : Nat) (xs : List α) :
    (blocks f k xs).filter (label · = k + i) = (xs[i]?).elim [] (f (k + i)) := by
  induction xs generalizing k i with
  | nil => rfl
  | cons x xs ih =>
    rw [blocks, List.filter_append]
    cases i with
    | zero =>
      have hhead : (f k x).filter (label · = k) = f k x :=
        List.filter_eq_self.mpr fun b hb ↦ by simpa using hlabel k x b hb
      simpa [hhead] using blocks_filter_of_lt hlabel (Nat.lt_succ_self k) xs
    | succ i =>
      have hhead : (f k x).filter (label · = k + (i + 1)) = [] :=
        List.filter_eq_nil_iff.mpr fun b hb ↦ by simp [hlabel k x b hb]
      have htail := ih (k + 1) i
      rw [Nat.add_assoc, Nat.add_comm 1 i] at htail
      rw [hhead, htail, List.nil_append, List.getElem?_cons_succ]

/-- The numbers never go back. -/
theorem blocks_pairwise (hlabel : ∀ k x, ∀ b ∈ f k x, label b = k) (k : Nat) (xs : List α) :
    (blocks f k xs).Pairwise (label · ≤ label ·) := by
  induction xs generalizing k with
  | nil => exact .nil
  | cons x xs ih =>
    refine List.pairwise_append.mpr ⟨?_, ih (k + 1), fun a ha b hb ↦ ?_⟩
    · exact List.pairwise_of_forall_mem_list fun a ha b hb ↦ by
        rw [hlabel k x a ha, hlabel k x b hb]
    · obtain ⟨y, hk, -⟩ := mem_blocks_label hlabel hb
      rw [hlabel k x a ha]
      omega

-- Where every block has one entry of a kind, there are as many of them as blocks.
theorem blocks_countP {p : β → Bool} (hp : ∀ k x, (f k x).countP p = 1) (k : Nat) (xs : List α) :
    (blocks f k xs).countP p = xs.length := by
  induction xs generalizing k with
  | nil => rfl
  | cons x xs ih => rw [blocks, List.countP_append, hp, ih, List.length_cons, Nat.add_comm]

/-! ## Runs -/

variable {κ : Type} [DecidableEq κ] (key : α → κ)

/-- The maximal runs of elements with one key. -/
def runs (xs : List α) : List (List α) := xs.splitBy fun a b ↦ key a = key b

@[simp] theorem flatten_runs (xs : List α) : (runs key xs).flatten = xs :=
  List.flatten_splitBy _ xs

theorem ne_nil_of_mem_runs {xs r : List α} (h : r ∈ runs key xs) : r ≠ [] :=
  List.ne_nil_of_mem_splitBy h

-- Neighbours of one key make a run of one key.
theorem forall_key_of_isChain {a : α} {r : List α}
    (h : (a :: r).IsChain fun a b ↦ decide (key a = key b)) : ∀ b ∈ a :: r, key b = key a := by
  induction r generalizing a with
  | nil => simp
  | cons c r ih =>
    obtain ⟨hac, hr⟩ := List.isChain_cons_cons.mp h
    have hac : key a = key c := by simpa using hac
    intro b hb
    rcases List.mem_cons.mp hb with rfl | hb
    · rfl
    · rw [ih hr b hb, hac]

theorem key_eq_of_mem_runs {xs r : List α} (h : r ∈ runs key xs) {a b : α} (ha : a ∈ r)
    (hb : b ∈ r) : key a = key b := by
  have hr := List.isChain_of_mem_splitBy h
  cases r with
  | nil => exact absurd ha (by simp)
  | cons c r =>
    rw [forall_key_of_isChain key hr a ha, forall_key_of_isChain key hr b hb]

/-- A run ends where the key changes. -/
theorem runs_isChain (xs : List α) :
    (runs key xs).IsChain fun r s ↦ ∀ a ∈ r, ∀ b ∈ s, key a ≠ key b := by
  have h := List.isChain_getLast_head_splitBy (fun a b ↦ decide (key a = key b)) xs
  refine List.IsChain.imp_of_mem_imp (fun r s hr hs hrs a ha b hb ↦ ?_) h
  obtain ⟨hr', hs', hne⟩ := hrs
  have hne : key (r.getLast hr') ≠ key (s.head hs') := by simpa using hne
  rwa [key_eq_of_mem_runs key hr ha (List.getLast_mem hr'),
    key_eq_of_mem_runs key hs hb (List.head_mem hs')]

end Library
