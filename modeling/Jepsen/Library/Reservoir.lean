import Mathlib.Probability.Distributions.Uniform
import Mathlib.Tactic.Ring

/-!
# Sampling among the least

A pass over items with keys keeps an item of the least key seen so far.  Where the next item has
the same key as the one that is kept, a draw decides, so weighted that all items of this key have
the same chance.  The program is written for any monad with draws; with independent uniform draws
(`PMF`) every item of the least key is kept with the same probability.
-/

namespace Library

namespace Reservoir

open ENNReal

variable {κ β : Type} [LinearOrder κ]

/-- The item that is kept, its key, and how many items of this key were met. -/
structure Held (κ β : Type) where
  key : κ
  weight : Nat
  item : β

section Program

variable {m : Type → Type} [Monad m]

/-- The next item is `item`.  `draw w` draws a number below `w`. -/
def offer (draw : Nat → m Nat) (key : κ) (item : β) : Option (Held κ β) → m (Option (Held κ β))
  | none => return some ⟨key, 1, item⟩
  | some held =>
    if held.key = key then do
      let t ← draw (held.weight + 1)
      return some ⟨key, held.weight + 1, if t < held.weight then held.item else item⟩
    else if held.key < key then
      return some held
    else
      return some ⟨key, 1, item⟩

/-- The pass.  An entry without an item changes nothing. -/
def sample (draw : Nat → m Nat) :
    List (Option (κ × β)) → Option (Held κ β) → m (Option (Held κ β))
  | [], held => return held
  | none :: entries, held => sample draw entries held
  | some (key, item) :: entries, held => do
    let held ← offer draw key item held
    sample draw entries held

end Program

/-! ## Uniform draws -/

/-- A uniform draw of a number below `w`, and 0 when there is none. -/
noncomputable def uniform (w : Nat) : PMF Nat :=
  if h : 0 < w then PMF.uniformOfFinset (Finset.range w) (Finset.nonempty_range_iff.mpr h.ne')
  else PMF.pure 0

-- One draw among `w + 1` numbers that tells only whether it is below `w`.
theorem uniform_bind_apply {γ δ : Type} (w : Nat) (f : γ → PMF δ) (x y : γ) (d : δ) :
    ((uniform (w + 1)).bind fun t ↦ f (if t < w then x else y)) d =
      ((w : ℝ≥0∞) * f x d + f y d) * (w + 1 : ℝ≥0∞)⁻¹ := by
  have hdraw (t : Nat) : uniform (w + 1) t = if t ∈ Finset.range (w + 1) then (w + 1 : ℝ≥0∞)⁻¹
      else 0 := by
    rw [uniform, dif_pos (Nat.succ_pos w), PMF.uniformOfFinset_apply, Finset.card_range]
    simp
  have hkeep : ∀ t ∈ Finset.range w, f (if t < w then x else y) d = f x d := by
    intro t ht
    rw [if_pos (Finset.mem_range.mp ht)]
  calc ((uniform (w + 1)).bind fun t ↦ f (if t < w then x else y)) d
      = ∑ t ∈ Finset.range (w + 1), (w + 1 : ℝ≥0∞)⁻¹ * f (if t < w then x else y) d := by
        rw [PMF.bind_apply, tsum_eq_sum (s := Finset.range (w + 1)) fun t ht ↦ by
          rw [hdraw, if_neg ht, zero_mul]]
        exact Finset.sum_congr rfl fun t ht ↦ by rw [hdraw, if_pos ht]
    _ = ((w : ℝ≥0∞) * f x d + f y d) * (w + 1 : ℝ≥0∞)⁻¹ := by
        rw [← Finset.mul_sum, Finset.sum_range_succ, Finset.sum_congr rfl hkeep,
          Finset.sum_const, Finset.card_range, if_neg (lt_irrefl w), nsmul_eq_mul, mul_comm]

/-! ## The chances of an item -/

/-- How much the kept item counts among the items of the key `key`. -/
def heldWeight (key : κ) : Option (Held κ β) → Nat
  | none => 0
  | some held => if held.key = key then held.weight else 0

/-- How much of this falls to `item`. -/
def heldShare [DecidableEq β] (key : κ) (item : β) : Option (Held κ β) → Nat
  | none => 0
  | some held => if held.key = key ∧ held.item = item then held.weight else 0

/-- The entries with the key `key`. -/
def countKey (key : κ) (entries : List (Option (κ × β))) : Nat :=
  entries.countP fun e ↦ e.any fun p ↦ p.1 = key

/-- No key is less than `key`. -/
def Least (key : κ) (entries : List (Option (κ × β))) (held : Option (Held κ β)) : Prop :=
  (∀ p, some p ∈ entries → key ≤ p.1) ∧ ∀ h, held = some h → key ≤ h.key

/-- The item that is kept in the end. -/
noncomputable def final (entries : List (Option (κ × β))) (held : Option (Held κ β)) :
    PMF (Option β) :=
  (sample uniform entries held).map (Option.map Held.item)

theorem final_cons (k : κ) (x : β) (entries : List (Option (κ × β))) (held : Option (Held κ β)) :
    final (some (k, x) :: entries) held = (offer uniform k x held).bind (final entries) :=
  PMF.map_bind _ _ _

/-- The chance of `item`, as a share of all items of the key `key`. -/
def Shares [DecidableEq β] (key : κ) (item : β) (entries : List (Option (κ × β)))
    (held : Option (Held κ β)) :
    Prop :=
  final entries held (some item) * ((heldWeight key held + countKey key entries : Nat) : ℝ≥0∞) =
    ((heldShare key item held + entries.count (some (key, item)) : Nat) : ℝ≥0∞)

theorem Least.cons {key k : κ} {x : β} {entries : List (Option (κ × β))}
    {held : Option (Held κ β)} (h : Least key (some (k, x) :: entries) held) {held' : Held κ β}
    (hkey : key ≤ held'.key) : Least key entries (some held') :=
  ⟨fun p hp ↦ h.1 p (List.mem_cons_of_mem _ hp), fun _ heq ↦ Option.some.inj heq ▸ hkey⟩

theorem countKey_cons (key k : κ) (x : β) (entries : List (Option (κ × β))) :
    countKey key (some (k, x) :: entries) =
      (if k = key then 1 else 0) + countKey key entries := by
  simp [countKey, List.countP_cons, add_comm]

variable [DecidableEq β]

theorem shares_nil (key : κ) (item : β) (held : Option (Held κ β)) : Shares key item [] held := by
  have hfinal : final [] held = PMF.pure (held.map Held.item) := PMF.pure_map _ _
  rw [Shares, hfinal, PMF.pure_apply]
  cases held with
  | none => simp [heldWeight, heldShare, countKey]
  | some held =>
    by_cases hkey : held.key = key
    · by_cases hitem : held.item = item
      · simp [heldWeight, heldShare, countKey, hkey, hitem]
      · simp [heldWeight, heldShare, countKey, hkey, hitem, Ne.symm hitem]
    · simp [heldWeight, heldShare, countKey, hkey]

theorem count_cons_some (key k : κ) (item x : β) (entries : List (Option (κ × β))) :
    (some (k, x) :: entries).count (some (key, item)) =
      (if k = key ∧ x = item then 1 else 0) + entries.count (some (key, item)) := by
  simp [List.count_cons, add_comm]

/-- The kept item stays kept, and the next one does not count. -/
theorem Shares.keep {key k : κ} {item x : β} {entries : List (Option (κ × β))}
    {held : Option (Held κ β)} (hoffer : offer uniform k x held = PMF.pure held) (hk : k ≠ key)
    (h : Shares key item entries held) : Shares key item (some (k, x) :: entries) held := by
  rw [Shares, final_cons, hoffer, PMF.pure_bind, countKey_cons, count_cons_some, if_neg hk,
    if_neg fun hkx ↦ hk hkx.1, zero_add, zero_add]
  exact h

/-- The next item is kept, and the one before did not count. -/
theorem Shares.take {key k : κ} {item x : β} {entries : List (Option (κ × β))}
    {held : Option (Held κ β)} (hoffer : offer uniform k x held = PMF.pure (some ⟨k, 1, x⟩))
    (hweight : heldWeight key held = 0) (hshare : heldShare key item held = 0)
    (h : Shares key item entries (some ⟨k, 1, x⟩)) :
    Shares key item (some (k, x) :: entries) held := by
  rw [Shares, final_cons, hoffer, PMF.pure_bind, countKey_cons, count_cons_some, hweight, hshare,
    zero_add, zero_add]
  exact h

/-- The draw leaves to either item what it counts. -/
theorem Shares.draw {key k : κ} {item x : β} {entries : List (Option (κ × β))} {held : Held κ β}
    (hk : held.key = k) (hkeep : Shares key item entries (some ⟨k, held.weight + 1, held.item⟩))
    (htake : Shares key item entries (some ⟨k, held.weight + 1, x⟩)) :
    Shares key item (some (k, x) :: entries) (some held) := by
  have hoffer : offer uniform k x (some held) = (uniform (held.weight + 1)).bind fun t ↦
      PMF.pure (some ⟨k, held.weight + 1, if t < held.weight then held.item else x⟩) :=
    if_pos hk
  have hfinal : (offer uniform k x (some held)).bind (final entries) =
      (uniform (held.weight + 1)).bind fun t ↦
        final entries (some ⟨k, held.weight + 1, if t < held.weight then held.item else x⟩) := by
    rw [hoffer, PMF.bind_bind]
    exact congrArg _ (funext fun t ↦ PMF.pure_bind _ _)
  -- Whichever item is kept, the weight of the key grows by one.
  have htotal (it : β) : heldWeight key (some ⟨k, held.weight + 1, it⟩) + countKey key entries =
      heldWeight key (some held) + countKey key (some (k, x) :: entries) := by
    rw [countKey_cons]
    simp only [heldWeight, hk]
    split <;> omega
  -- The kept item counts `weight` times and the next one once, among `weight + 1`.
  have hshares : held.weight * (heldShare key item (some ⟨k, held.weight + 1, held.item⟩) +
        entries.count (some (key, item))) +
      (heldShare key item (some ⟨k, held.weight + 1, x⟩) + entries.count (some (key, item))) =
      (heldShare key item (some held) + (some (k, x) :: entries).count (some (key, item))) *
        (held.weight + 1) := by
    rw [count_cons_some]
    simp only [heldShare, hk]
    split_ifs <;> ring
  have hcancel : ((held.weight : ℝ≥0∞) + 1) * ((held.weight : ℝ≥0∞) + 1)⁻¹ = 1 :=
    ENNReal.mul_inv_cancel (by simp) (by simp)
  rw [Shares, htotal] at hkeep htake
  rw [Shares, final_cons, hfinal,
    uniform_bind_apply held.weight (fun it ↦ final entries (some ⟨k, held.weight + 1, it⟩)),
    mul_right_comm, add_mul, mul_assoc (held.weight : ℝ≥0∞), hkeep, htake]
  calc _ = ((held.weight * (heldShare key item (some ⟨k, held.weight + 1, held.item⟩) +
          entries.count (some (key, item))) +
        (heldShare key item (some ⟨k, held.weight + 1, x⟩) + entries.count (some (key, item))) :
          Nat) : ℝ≥0∞) * ((held.weight : ℝ≥0∞) + 1)⁻¹ := by push_cast; rfl
    _ = ((heldShare key item (some held) + (some (k, x) :: entries).count (some (key, item)) :
          Nat) : ℝ≥0∞) * (((held.weight : ℝ≥0∞) + 1) * ((held.weight : ℝ≥0∞) + 1)⁻¹) := by
        rw [hshares, ← mul_assoc]
        push_cast
        rfl
    _ = _ := by rw [hcancel, mul_one]

/-- Each item of the least key is kept in proportion to what it counts among the items of this
key. -/
theorem sample_uniform (key : κ) (item : β) (entries : List (Option (κ × β)))
    (held : Option (Held κ β)) (hleast : Least key entries held) :
    Shares key item entries held := by
  induction entries generalizing held with
  | nil => exact shares_nil key item held
  | cons e entries ih =>
    cases e with
    | none =>
      have h := ih held ⟨fun p hp ↦ hleast.1 p (List.mem_cons_of_mem _ hp), hleast.2⟩
      simpa [Shares, final, sample, countKey] using h
    | some p =>
      obtain ⟨k, x⟩ := p
      have hk : key ≤ k := hleast.1 (k, x) (by simp)
      cases held with
      | none => exact .take rfl rfl rfl (ih _ (hleast.cons hk))
      | some held =>
        have hheld : key ≤ held.key := hleast.2 held rfl
        by_cases heq : held.key = k
        -- a tie: the draw decides
        · exact .draw heq (ih _ (hleast.cons hk)) (ih _ (hleast.cons hk))
        · by_cases hlt : held.key < k
          · have hoffer : offer uniform k x (some held) = PMF.pure (some held) := by
              rw [offer, if_neg heq, if_pos hlt]
              rfl
            exact .keep hoffer (hheld.trans_lt hlt).ne' (ih _ (hleast.cons hheld))
          -- Only an item with another key is dropped: the least key is never above `k`.
          · have hne : held.key ≠ key := by
              refine fun he ↦ heq (le_antisymm (he ▸ hk) (not_lt.mp hlt))
            have hoffer : offer uniform k x (some held) = PMF.pure (some ⟨k, 1, x⟩) := by
              rw [offer, if_neg heq, if_neg hlt]
              rfl
            refine .take hoffer (if_neg hne) (if_neg fun h ↦ hne h.1) (ih _ (hleast.cons hk))

end Reservoir

end Library
