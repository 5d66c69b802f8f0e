import Mathlib.Algebra.Order.Ring.Nat
import Mathlib.Data.Nat.Log
import Mathlib.Tactic.Common

/-!
# Rounding

Rounding to the closest number, and to the even one of two: of a fraction to a natural number, and
of an integer to a number of significant bits, which is the conversion to a floating-point number.
-/

namespace Library

/-- The closest natural number to a fraction, and the even one of two. -/
def roundEven (num den : Nat) : Nat :=
  let q := num / den
  let r := num % den
  if 2 * r < den ∨ (2 * r = den ∧ q % 2 = 0) then q else q + 1

/-- The closest number of at most `p` significant bits. -/
def roundBits (p n : Nat) : Nat :=
  if n < 2 ^ p then n
  else
    let unit := 2 ^ (n.log2 + 1 - p)
    roundEven n unit * unit

def roundInt (p : Nat) (n : Int) : Int := n.sign * roundBits p n.natAbs

theorem roundEven_mul {q d : Nat} (hd : 0 < d) : roundEven (q * d) d = q := by
  unfold roundEven
  rw [Nat.mul_div_cancel q hd, Nat.mul_mod_left]
  exact if_pos (.inl (by omega))

/-- A number that has only `p` significant bits stays as it is. -/
theorem roundBits_mul_two_pow {p m : Nat} (h : m < 2 ^ p) (k : Nat) :
    roundBits p (m * 2 ^ k) = m * 2 ^ k := by
  unfold roundBits
  split
  · rfl
  · rename_i hlong
    have hlog : (m * 2 ^ k).log2 < p + k := by
      rw [Nat.log2_lt (by omega), pow_add]
      exact Nat.mul_lt_mul_of_pos_right h (Nat.two_pow_pos k)
    obtain ⟨j, hj⟩ : ∃ j, k = (m * 2 ^ k).log2 + 1 - p + j :=
      ⟨_, (Nat.add_sub_of_le (by omega)).symm⟩
    have hsplit : m * 2 ^ k = m * 2 ^ j * 2 ^ ((m * 2 ^ k).log2 + 1 - p) := by
      rw [mul_assoc, ← pow_add, Nat.add_comm j, ← hj]
    dsimp only
    rw [show roundEven (m * 2 ^ k) _ = m * 2 ^ j from
      (congrArg (roundEven · _) hsplit).trans (roundEven_mul (Nat.two_pow_pos _))]
    exact hsplit.symm

theorem roundInt_mul_two_pow {p : Nat} {m : Int} (h : m.natAbs < 2 ^ p) (k : Nat) :
    roundInt p (m * 2 ^ k) = m * 2 ^ k := by
  have habs : (m * 2 ^ k).natAbs = m.natAbs * 2 ^ k := by
    rw [Int.natAbs_mul, Int.natAbs_pow]
    rfl
  rw [roundInt, habs, roundBits_mul_two_pow h, ← habs, Int.sign_mul_natAbs]

end Library
