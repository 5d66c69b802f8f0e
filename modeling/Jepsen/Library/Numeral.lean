import Mathlib.Algebra.Group.Int.Defs
import Mathlib.Tactic.Common

/-!
# Decimal numerals

How C reads a decimal integer off the front of a text: blanks, a sign, and as many digits as there
are.  A printed integer is read back, whatever follows that is no digit.
-/

namespace Library.Numeral

/-- `isspace` in the C locale. -/
def isSpace (c : Char) : Bool :=
  c = ' ' || c = '\t' || c = '\n' || c = '\x0b' || c = '\x0c' || c = '\r'

/-- Digits in front of a text, as a number. -/
def readNat (cs : List Char) : Option Nat :=
  match cs.takeWhile Char.isDigit with
  | [] => none
  | digits => some (Nat.ofDigitChars 10 digits 0)

/-- A number with its sign in front of a text. -/
def readSigned : List Char → Option Int
  | '-' :: cs => (readNat cs).map fun n ↦ -(n : Int)
  | '+' :: cs => (readNat cs).map fun n ↦ (n : Int)
  | cs => (readNat cs).map fun n ↦ (n : Int)

/-- The number that `strtol` reads in base 10, without its bounds. -/
def readInt (cs : List Char) : Option Int := readSigned (cs.dropWhile isSpace)

theorem readNat_toDigits (n : Nat) {rest : List Char}
    (hrest : ∀ c ∈ rest.head?, c.isDigit = false) :
    readNat (Nat.toDigits 10 n ++ rest) = some n := by
  have hdigits : ∀ c ∈ Nat.toDigits 10 n, c.isDigit = true :=
    fun c hc ↦ Nat.isDigit_of_mem_toDigits (by decide) (by decide) hc
  have htake : (Nat.toDigits 10 n ++ rest).takeWhile Char.isDigit = Nat.toDigits 10 n := by
    rw [List.takeWhile_append_of_pos hdigits]
    cases rest with
    | nil => simp
    | cons c rest => simp [hrest c (by simp)]
  unfold readNat
  rw [htake]
  split
  · rename_i hnil
    exact absurd hnil Nat.toDigits_ne_nil
  · rw [Nat.ofDigitChars_ten_toDigits]

-- A digit is neither a blank nor a sign.
theorem isSpace_of_isDigit {c : Char} (h : c.isDigit = true) : isSpace c = false := by
  cases hs : isSpace c with
  | false => rfl
  | true =>
    simp only [isSpace, Bool.or_eq_true, decide_eq_true_eq] at hs
    rcases hs with ((((rfl | rfl) | rfl) | rfl) | rfl) | rfl <;> exact absurd h (by decide)

theorem readSigned_of_isDigit {c : Char} {cs : List Char} (h : c.isDigit = true) :
    readSigned (c :: cs) = (readNat (c :: cs)).map fun n ↦ (n : Int) := by
  unfold readSigned
  split
  · rename_i heq
    cases heq
    exact absurd h (by decide)
  · rename_i heq
    cases heq
    exact absurd h (by decide)
  · rfl

theorem readInt_natCast (n : Nat) {rest : List Char}
    (hrest : ∀ c ∈ rest.head?, c.isDigit = false) :
    readInt (Nat.toDigits 10 n ++ rest) = some (n : Int) := by
  have hnat := readNat_toDigits n hrest
  cases hdigits : Nat.toDigits 10 n with
  | nil => exact absurd hdigits Nat.toDigits_ne_nil
  | cons c cs =>
    have hc : c.isDigit = true :=
      Nat.isDigit_of_mem_toDigits (by decide) (by decide) (hdigits ▸ List.mem_cons_self)
    rw [hdigits, List.cons_append] at hnat
    unfold readInt
    rw [List.cons_append, List.dropWhile_cons_of_neg (by simp [isSpace_of_isDigit hc]),
      readSigned_of_isDigit hc, hnat]
    rfl

theorem readInt_toString (n : Int) {rest : List Char}
    (hrest : ∀ c ∈ rest.head?, c.isDigit = false) :
    readInt ((toString n).toList ++ rest) = some n := by
  cases n with
  | ofNat n =>
    have hlist : (toString (Int.ofNat n)).toList = Nat.toDigits 10 n := Nat.toList_repr
    rw [hlist]
    exact readInt_natCast n hrest
  | negSucc n =>
    have hlist : (toString (Int.negSucc n)).toList = '-' :: Nat.toDigits 10 (n + 1) := by
      show ("-" ++ Nat.repr (n + 1)).toList = _
      rw [String.toList_append, Nat.toList_repr]
      rfl
    have hread : readInt ('-' :: (Nat.toDigits 10 (n + 1) ++ rest)) =
        (readNat (Nat.toDigits 10 (n + 1) ++ rest)).map fun n ↦ -(n : Int) := rfl
    rw [hlist, List.cons_append, hread, readNat_toDigits (n + 1) hrest]
    rfl

theorem readInt_self (n : Int) : readInt (toString n).toList = some n := by
  rw [← List.append_nil (toString n).toList]
  exact readInt_toString n fun c hc ↦ absurd hc (by simp)

end Library.Numeral
