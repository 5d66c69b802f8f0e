import Mathlib.Data.Nat.Bitwise
import Mathlib.Tactic.Common

/-!
# Bit strings

`bits w x` is the low `w` bits of `x`, the highest first, and `flat w xs` the bit string of a list
of digits of `w` bits.  A list of digits is known from its bit string, also where a rest that is
too short for another digit follows.

A shift register that is never masked keeps a bit string in its low bits: `bits_push` puts a digit
behind it, and `bits_pop` takes a digit off its front, whatever the bits above hold.
-/

namespace Library

def bits : Nat → Nat → List Bool
  | 0, _ => []
  | w + 1, x => x.testBit w :: bits w x

@[simp] theorem length_bits (w x : Nat) : (bits w x).length = w := by
  induction w with
  | zero => rfl
  | succ w ih => rw [bits, List.length_cons, ih]

theorem bits_zero (w : Nat) : bits w 0 = List.replicate w false := by
  induction w with
  | zero => rfl
  | succ w ih => rw [bits, ih, Nat.zero_testBit, List.replicate_succ]

theorem bits_congr {w x y : Nat} (h : ∀ i < w, x.testBit i = y.testBit i) :
    bits w x = bits w y := by
  induction w with
  | zero => rfl
  | succ w ih =>
    rw [bits, bits, h w (Nat.lt_succ_self w), ih fun i hi ↦ h i (Nat.lt_succ_of_lt hi)]

theorem testBit_eq_of_bits_eq {w x y : Nat} (h : bits w x = bits w y) :
    ∀ i < w, x.testBit i = y.testBit i := by
  induction w with
  | zero => intro i hi; omega
  | succ w ih =>
    obtain ⟨hw, htail⟩ := List.cons.inj h
    intro i hi
    rcases Nat.lt_succ_iff_lt_or_eq.mp hi with hi | rfl
    · exact ih htail i hi
    · exact hw

theorem bits_mod {w v : Nat} (h : w ≤ v) (x : Nat) : bits w (x % 2 ^ v) = bits w x :=
  bits_congr fun i hi ↦ by simp [Nat.testBit_mod_two_pow, Nat.lt_of_lt_of_le hi h]

theorem bits_injective {w x y : Nat} (hx : x < 2 ^ w) (hy : y < 2 ^ w)
    (h : bits w x = bits w y) : x = y := by
  refine Nat.eq_of_testBit_eq fun i ↦ ?_
  by_cases hi : i < w
  · exact testBit_eq_of_bits_eq h i hi
  · have hw : 2 ^ w ≤ 2 ^ i := Nat.pow_le_pow_right (by decide) (by omega)
    rw [Nat.testBit_lt_two_pow (by omega), Nat.testBit_lt_two_pow (by omega)]

theorem bits_add (m n x : Nat) : bits (m + n) x = bits m (x / 2 ^ n) ++ bits n x := by
  induction m with
  | zero => rw [Nat.zero_add]; rfl
  | succ m ih =>
    rw [Nat.succ_add, bits, bits, ih, Nat.testBit_div_two_pow]
    rfl

theorem bits_split (m n x : Nat) : bits (m + n) x = bits m (x / 2 ^ n) ++ bits n (x % 2 ^ n) := by
  rw [bits_add, bits_mod (Nat.le_refl n)]

theorem bits_append {n y : Nat} (hy : y < 2 ^ n) (m x : Nat) :
    bits m x ++ bits n y = bits (m + n) (x * 2 ^ n + y) := by
  have hpos : 0 < 2 ^ n := Nat.two_pow_pos n
  have hdiv : (x * 2 ^ n + y) / 2 ^ n = x := by
    rw [Nat.add_comm, Nat.add_mul_div_right _ _ hpos, Nat.div_eq_of_lt hy, Nat.zero_add]
  have hmod : (x * 2 ^ n + y) % 2 ^ n = y := by
    rw [Nat.add_comm, Nat.add_mul_mod_self_right, Nat.mod_eq_of_lt hy]
  rw [bits_add, hdiv, ← bits_mod (Nat.le_refl n) (x * 2 ^ n + y), hmod]

/-! ## The shift register -/

-- Shifted and filled up: in a register of `width` bits as on numbers.
theorem shiftLeft_mod_or {w width : Nat} (hw : w ≤ width) (acc : Nat) {x : Nat} (hx : x < 2 ^ w) :
    acc <<< w % 2 ^ width ||| x = (acc * 2 ^ w + x) % 2 ^ width := by
  have hpow : 2 ^ width = 2 ^ w * 2 ^ (width - w) := by rw [← Nat.pow_add]; congr 1; omega
  have hlow : acc <<< w % 2 ^ width = 2 ^ w * (acc % 2 ^ (width - w)) := by
    rw [Nat.shiftLeft_eq, Nat.mul_comm, hpow, Nat.mul_mod_mul_left]
  have hfit : 2 ^ w * (acc % 2 ^ (width - w)) + x < 2 ^ width := by
    have hhigh : acc % 2 ^ (width - w) + 1 ≤ 2 ^ (width - w) := Nat.mod_lt _ (Nat.two_pow_pos _)
    have hmul := Nat.mul_le_mul_left (2 ^ w) hhigh
    rw [← hpow, Nat.mul_add] at hmul
    omega
  rw [hlow, ← Nat.two_pow_add_eq_or_of_lt hx, ← Nat.mod_eq_of_lt hfit, ← hlow, Nat.mod_add_mod,
    Nat.shiftLeft_eq]

theorem bits_push {n w width : Nat} (hwidth : n + w ≤ width) (acc : Nat) {x : Nat}
    (hx : x < 2 ^ w) :
    bits (n + w) ((acc * 2 ^ w + x) % 2 ^ width) = bits n acc ++ bits w x := by
  rw [bits_mod hwidth, bits_append hx]

theorem bits_pop (w n acc : Nat) :
    bits (w + n) acc = bits w (acc / 2 ^ n % 2 ^ w) ++ bits n acc := by
  rw [bits_mod (Nat.le_refl w), bits_add]

/-! ## Lists of digits -/

def flat (w : Nat) (xs : List Nat) : List Bool := xs.flatMap (bits w)

@[simp] theorem flat_nil (w : Nat) : flat w [] = [] := rfl

@[simp] theorem flat_cons (w x : Nat) (xs : List Nat) :
    flat w (x :: xs) = bits w x ++ flat w xs := rfl

@[simp] theorem flat_append (w : Nat) (xs ys : List Nat) :
    flat w (xs ++ ys) = flat w xs ++ flat w ys := List.flatMap_append

@[simp] theorem length_flat (w : Nat) (xs : List Nat) : (flat w xs).length = w * xs.length := by
  induction xs with
  | nil => rfl
  | cons x xs ih =>
    rw [flat_cons, List.length_append, ih, length_bits, List.length_cons, Nat.mul_succ,
      Nat.add_comm]

/-- The digits of a bit string, and the rest that is no digit, are known from the bit string. -/
theorem flat_append_inj {w : Nat} {xs ys : List Nat} {l l' : List Bool}
    (hxs : ∀ x ∈ xs, x < 2 ^ w) (hys : ∀ y ∈ ys, y < 2 ^ w) (hl : l.length < w)
    (hl' : l'.length < w) (h : flat w xs ++ l = flat w ys ++ l') : xs = ys ∧ l = l' := by
  -- A rest is shorter than a digit, so the two lists run out of digits together.
  induction xs generalizing ys with
  | nil =>
    cases ys with
    | nil => exact ⟨rfl, h⟩
    | cons y ys =>
      have hlen := congrArg List.length h
      simp only [flat_nil, flat_cons, List.nil_append, List.length_append, length_bits] at hlen
      omega
  | cons x xs ih =>
    obtain ⟨hx, hxs⟩ := List.forall_mem_cons.mp hxs
    cases ys with
    | nil =>
      have hlen := congrArg List.length h
      simp only [flat_nil, flat_cons, List.nil_append, List.length_append, length_bits] at hlen
      omega
    | cons y ys =>
      obtain ⟨hy, hys⟩ := List.forall_mem_cons.mp hys
      rw [flat_cons, flat_cons, List.append_assoc, List.append_assoc] at h
      obtain ⟨hhead, htail⟩ := List.append_inj h (by rw [length_bits, length_bits])
      obtain ⟨rfl, hrest⟩ := ih hxs hys htail
      exact ⟨by rw [bits_injective hx hy hhead], hrest⟩

end Library
