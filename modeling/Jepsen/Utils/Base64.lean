import Jepsen.Library.Bits

/-!
# `Base64Coder`

Both directions as the source has them: an `unsigned int` that is shifted and never masked, and the
number of its bits that are still to be written.  The encoder writes into a string of the padded
length, and a write outside of it, like an assertion that fails, is an error here.
-/

namespace Jepsen

open Library

/-- `std::string`, by its bytes. -/
abbrev Bytes := List UInt8

def ascii (s : String) : Bytes := s.toList.map fun c ↦ c.toNat.toUInt8

/-- How a `char` becomes an `int`.  Where `char` is signed, half of the bytes become negative. -/
def promote (signed : Bool) (c : UInt8) : Int :=
  if signed ∧ 128 ≤ c.toNat then c.toNat - 256 else c.toNat

/-- `std::isspace` in the "C" locale. -/
def isspace (c : Int) : Bool := c = 32 ∨ 9 ≤ c ∧ c ≤ 13

/-- `numeric_limits<string::size_type>::max()`. -/
def sizeMax : Nat := 2 ^ 64 - 1

/-- What stops the coder: an exception, a write outside of the string, an assertion. -/
inductive Failure where
  | lengthError (what : String)
  | invalidArgument (what : String)
  | outOfBounds
  | assertion
  deriving DecidableEq, Repr

/-- `assert`, which a build with `NDEBUG` leaves out. -/
def assertThat (ndebug cond : Bool) : Except Failure Unit :=
  if ndebug || cond then .ok () else .error .assertion

theorem assertThat_eq (ndebug : Bool) (p : Prop) [Decidable p] :
    assertThat ndebug (decide p) = if ndebug = true ∨ p then .ok () else .error .assertion := by
  simp [assertThat]

namespace Base64Coder

def b64Table : Bytes :=
  ascii "ABCDEFGHIJKLMNOPQRSTUVWXYZabcdefghijklmnopqrstuvwxyz0123456789+/"

def reverseTable : List UInt8 :=
  [64, 64, 64, 64, 64, 64, 64, 64, 64, 64, 64, 64, 64, 64, 64, 64, 64, 64, 64, 64, 64, 64,
   64, 64, 64, 64, 64, 64, 64, 64, 64, 64, 64, 64, 64, 64, 64, 64, 64, 64, 64, 64, 64, 62,
   64, 64, 64, 63, 52, 53, 54, 55, 56, 57, 58, 59, 60, 61, 64, 64, 64, 64, 64, 64, 64, 0,
   1,  2,  3,  4,  5,  6,  7,  8,  9,  10, 11, 12, 13, 14, 15, 16, 17, 18, 19, 20, 21, 22,
   23, 24, 25, 64, 64, 64, 64, 64, 64, 26, 27, 28, 29, 30, 31, 32, 33, 34, 35, 36, 37, 38,
   39, 40, 41, 42, 43, 44, 45, 46, 47, 48, 49, 50, 51, 64, 64, 64, 64, 64]

def pad : UInt8 := 61

/-! ## Encoding -/

structure Output where
  retval : Bytes
  outpos : Nat

/-- `retval[outpos++] = c`. -/
def Output.write (out : Output) (c : UInt8) : Except Failure Output :=
  if out.outpos < out.retval.length then .ok ⟨out.retval.set out.outpos c, out.outpos + 1⟩
  else .error .outOfBounds

/-- `b64_table[x & 0x3fu]`. -/
def symbol (x : UInt32) : UInt8 := b64Table.getD (x &&& 0x3f).toNat 0

/-- `while (bits_collected >= 6)`. -/
def drain (accumulator : UInt32) : Nat → Output → Except Failure (Nat × Output)
  | bitsCollected + 6, out => do
    let out ← out.write (symbol (accumulator >>> bitsCollected.toUInt32))
    drain accumulator bitsCollected out
  | bitsCollected, out => .ok (bitsCollected, out)

structure Encoder where
  accumulator : UInt32 := 0
  bitsCollected : Nat := 0
  out : Output

def Encoder.feed (signed : Bool) (e : Encoder) (c : UInt8) : Except Failure Encoder := do
  let accumulator := (e.accumulator <<< 8) ||| (UInt32.ofInt (promote signed c) &&& 0xff)
  let (bitsCollected, out) ← drain accumulator (e.bitsCollected + 8) e.out
  return { accumulator, bitsCollected, out }

/-- "Any trailing bits that are missing." -/
def Encoder.tail (ndebug : Bool) (e : Encoder) : Except Failure Output :=
  if 0 < e.bitsCollected then do
    assertThat ndebug (e.bitsCollected < 6)
    e.out.write (symbol (e.accumulator <<< (6 - e.bitsCollected).toUInt32))
  else
    .ok e.out

/-- The sizes are of type `size_t`, also the difference in the first of the last two assertions. -/
def base64Encode (ndebug signed : Bool) (bindata : Bytes) : Except Failure Bytes :=
  if sizeMax / 4 * 3 < bindata.length then
    .error (.lengthError "Converting too large a string to base64.")
  else do
    let binlen := bindata.length
    let retval := List.replicate ((binlen + 2) % 2 ^ 64 / 3 * 4 % 2 ^ 64) pad
    let e ← bindata.foldlM (Encoder.feed signed) { out := ⟨retval, 0⟩ }
    let out ← e.tail ndebug
    assertThat ndebug ((out.retval.length + 2 ^ 64 - 2) % 2 ^ 64 ≤ out.outpos)
    assertThat ndebug (out.outpos ≤ out.retval.length)
    return out.retval

/-! ## Decoding -/

structure Decoder where
  accumulator : UInt32 := 0
  bitsCollected : Nat := 0
  retval : Bytes := []

def Decoder.feed (signed : Bool) (d : Decoder) (i : UInt8) : Except Failure Decoder :=
  let c := promote signed i
  -- "Skip whitespace and padding. Be liberal in what you accept."
  if isspace c ∨ c = pad.toNat then
    .ok d
  else if c > 127 ∨ c < 0 ∨ reverseTable.getD c.toNat 0 > 63 then
    .error (.invalidArgument
      "This contains characters not legal in a base64 encoded string.")
  else
    let accumulator := (d.accumulator <<< 6) ||| (reverseTable.getD c.toNat 0).toUInt32
    let bitsCollected := d.bitsCollected + 6
    if 8 ≤ bitsCollected then
      let bitsCollected := bitsCollected - 8
      let byte := ((accumulator >>> bitsCollected.toUInt32) &&& 0xff).toUInt8
      .ok { accumulator, bitsCollected, retval := d.retval ++ [byte] }
    else
      .ok { d with accumulator, bitsCollected }

def base64Decode (signed : Bool) (ascdata : Bytes) : Except Failure Bytes := do
  let d ← ascdata.foldlM (Decoder.feed signed) {}
  return d.retval

/-! ## RFC 4648 -/

/-- The alphabet of RFC 4648, section 4. -/
def alphabet (i : Nat) : UInt8 :=
  if i < 26 then (65 + i).toUInt8
  else if i < 52 then (97 + (i - 26)).toUInt8
  else if i < 62 then (48 + (i - 52)).toUInt8
  else if i = 62 then 43 else 47

/-- The groups of six bits of each group of three bytes, the last one filled up with zero bits. -/
def sextets : Bytes → List Nat
  | a :: b :: c :: s =>
    a.toNat / 4 :: (a.toNat % 4 * 16 + b.toNat / 16) :: (b.toNat % 16 * 4 + c.toNat / 64) ::
      c.toNat % 64 :: sextets s
  | [a, b] => [a.toNat / 4, a.toNat % 4 * 16 + b.toNat / 16, b.toNat % 16 * 4]
  | [a] => [a.toNat / 4, a.toNat % 4 * 16]
  | [] => []

/-- The encoding of RFC 4648, padded to a multiple of four characters. -/
def rfc4648 (s : Bytes) : Bytes :=
  (sextets s).map alphabet ++ List.replicate ((3 - s.length % 3) % 3) pad

example : rfc4648 (ascii "fooba") = ascii "Zm9vYmE=" := by decide

example : base64Encode true true (ascii "fooba") = .ok (ascii "Zm9vYmE=") := by decide

/-! ## The groups of six bits -/

-- Two bytes share a group: its bits are the low bits of one and the high bits of the other.
theorem flat_group (a b c : UInt8) :
    flat 6 [a.toNat / 4, a.toNat % 4 * 16 + b.toNat / 16, b.toNat % 16 * 4 + c.toNat / 64,
      c.toNat % 64] = flat 8 [a.toNat, b.toNat, c.toNat] := by
  have hb := b.toNat_lt
  have hc := c.toNat_lt
  have h₁ : bits 8 a.toNat = bits 6 (a.toNat / 4) ++ bits 2 (a.toNat % 4) := bits_split 6 2 _
  have h₂ : bits 8 b.toNat = bits 4 (b.toNat / 16) ++ bits 4 (b.toNat % 16) := bits_split 4 4 _
  have h₃ : bits 8 c.toNat = bits 2 (c.toNat / 64) ++ bits 6 (c.toNat % 64) := bits_split 2 6 _
  have h₁₂ : bits 2 (a.toNat % 4) ++ bits 4 (b.toNat / 16) =
      bits 6 (a.toNat % 4 * 16 + b.toNat / 16) := bits_append (n := 4) (by omega) 2 _
  have h₂₃ : bits 4 (b.toNat % 16) ++ bits 2 (c.toNat / 64) =
      bits 6 (b.toNat % 16 * 4 + c.toNat / 64) := bits_append (n := 2) (by omega) 4 _
  simp only [flat_cons, flat_nil, List.append_nil, h₁, h₂, h₃, ← h₁₂, ← h₂₃, List.append_assoc]

/-- The groups hold the bits of the string and fewer than six zero bits. -/
theorem flat_sextets (s : Bytes) :
    ∃ n < 6, flat 6 (sextets s) = flat 8 (s.map UInt8.toNat) ++ List.replicate n false := by
  induction s using sextets.induct with
  | case1 a b c s ih =>
    obtain ⟨n, hn, hs⟩ := ih
    refine ⟨n, hn, ?_⟩
    calc flat 6 (sextets (a :: b :: c :: s))
        = flat 6 [a.toNat / 4, a.toNat % 4 * 16 + b.toNat / 16,
            b.toNat % 16 * 4 + c.toNat / 64, c.toNat % 64] ++ flat 6 (sextets s) := by
          rw [← flat_append]; rfl
      _ = flat 8 [a.toNat, b.toNat, c.toNat] ++
            (flat 8 (s.map UInt8.toNat) ++ List.replicate n false) := by rw [flat_group, hs]
      _ = _ := by rw [← List.append_assoc, ← flat_append]; rfl
  -- A group that is not full is one with zeros behind it, of which some digits are left out.
  | case2 a b =>
    have h := flat_group a b 0
    refine ⟨2, by decide, (List.append_left_inj (bits 6 0)).mp ?_⟩
    simpa [sextets, bits_zero] using h
  | case3 a =>
    have h := flat_group a 0 0
    refine ⟨4, by decide, (List.append_left_inj (bits 6 0 ++ bits 6 0)).mp ?_⟩
    simpa [sextets, bits_zero] using h
  | case4 => exact ⟨0, by decide, rfl⟩

theorem sextets_lt (s : Bytes) : ∀ d ∈ sextets s, d < 64 := by
  induction s using sextets.induct with
  | case1 a b c s ih =>
    have ha := a.toNat_lt
    have hb := b.toNat_lt
    have hc := c.toNat_lt
    simp only [sextets, List.forall_mem_cons]
    exact ⟨by omega, by omega, by omega, by omega, ih⟩
  | case2 a b =>
    have ha := a.toNat_lt
    have hb := b.toNat_lt
    simp only [sextets, List.forall_mem_cons]
    exact ⟨by omega, by omega, by omega, by simp⟩
  | case3 a =>
    have ha := a.toNat_lt
    simp only [sextets, List.forall_mem_cons]
    exact ⟨by omega, by omega, by simp⟩
  | case4 => simp [sextets]

-- The padding completes the last four characters.
theorem length_sextets (s : Bytes) :
    (sextets s).length + (3 - s.length % 3) % 3 = (s.length + 2) / 3 * 4 := by
  induction s using sextets.induct with
  | case1 a b c s ih => simp only [sextets, List.length_cons]; omega
  | case2 a b => simp [sextets]
  | case3 a => simp [sextets]
  | case4 => simp [sextets]

/-! ## The register -/

theorem toNat_push (acc x : UInt32) {w : Nat} (hw : w < 32) (hx : x.toNat < 2 ^ w) :
    (acc <<< w.toUInt32 ||| x).toNat = (acc.toNat * 2 ^ w + x.toNat) % 2 ^ 32 := by
  have hw' : w % 2 ^ 32 % 32 = w := by omega
  rw [UInt32.toNat_or, UInt32.toNat_shiftLeft, Nat.toUInt32_eq, UInt32.toNat_ofNat', hw',
    shiftLeft_mod_or (by omega) _ hx]

theorem toNat_shiftRight (acc : UInt32) {n : Nat} (hn : n < 32) :
    (acc >>> n.toUInt32).toNat = acc.toNat / 2 ^ n := by
  have hn' : n % 2 ^ 32 % 32 = n := by omega
  rw [UInt32.toNat_shiftRight, Nat.toUInt32_eq, UInt32.toNat_ofNat', hn', Nat.shiftRight_eq_div_pow]

theorem b64Table_eq : ∀ i < 64, b64Table.getD i 0 = alphabet i := by decide

theorem symbol_eq (x : UInt32) : symbol x = alphabet (x.toNat % 64) := by
  have hmask : (x &&& 0x3f).toNat = x.toNat % 64 := by
    rw [UInt32.toNat_and]
    exact Nat.and_two_pow_sub_one_eq_mod x.toNat 6
  rw [symbol, hmask, b64Table_eq _ (Nat.mod_lt _ (by decide))]

-- The mask undoes the sign.
theorem toNat_promote (signed : Bool) (c : UInt8) :
    (UInt32.ofInt (promote signed c) &&& 0xff).toNat = c.toNat := by
  have hc := c.toNat_lt
  rw [UInt32.toNat_and]
  refine (Nat.and_two_pow_sub_one_eq_mod _ 8).trans ?_
  unfold promote UInt32.ofInt
  split
  · rw [UInt32.toNat_ofNat']; omega
  · rw [UInt32.toNat_ofNat']; omega

/-! ## The encoder -/

/-- The string holds these characters, and padding up to the length `size`. -/
structure Output.Holds (out : Output) (size : Nat) (digits : List Nat) : Prop where
  fits : digits.length ≤ size
  outpos : out.outpos = digits.length
  retval : out.retval = digits.map alphabet ++ List.replicate (size - digits.length) pad
  lt : ∀ d ∈ digits, d < 64

theorem Output.Holds.length {out : Output} {size : Nat} {digits : List Nat}
    (h : out.Holds size digits) : out.retval.length = size := by
  have hfits := h.fits
  rw [h.retval, List.length_append, List.length_map, List.length_replicate]
  omega

theorem Output.Holds.write {out : Output} {size : Nat} {digits : List Nat}
    (h : out.Holds size digits) (hsize : digits.length < size) {d : Nat} (hd : d < 64) :
    ∃ out', out.write (alphabet d) = .ok out' ∧ out'.Holds size (digits ++ [d]) := by
  refine ⟨⟨out.retval.set out.outpos (alphabet d), out.outpos + 1⟩, ?_, ?_, ?_, ?_, ?_⟩
  · rw [Output.write, if_pos (by rw [h.outpos, h.length]; exact hsize)]
  · rw [List.length_append]; exact hsize
  · simp [h.outpos]
  · obtain ⟨n, hn⟩ : ∃ n, size - digits.length = n + 1 := ⟨size - digits.length - 1, by omega⟩
    have hn' : size - (digits ++ [d]).length = n := by
      rw [List.length_append, List.length_singleton]; omega
    rw [h.retval, h.outpos, hn, hn', List.replicate_succ, List.set_append_right _ _ (by simp),
      List.length_map, Nat.sub_self, List.set_cons_zero, List.map_append, List.append_assoc]
    rfl
  · intro x hx
    rcases List.mem_append.mp hx with hx | hx
    · exact h.lt x hx
    · rwa [List.mem_singleton.mp hx]

/-- The loop drains all digits, and stays inside of the string as long as the string is long enough
for the bits that have come in. -/
theorem drain_spec {size : Nat} {input : List Bool} (hinput : input.length ≤ 6 * size)
    (acc : UInt32) {n : Nat} (hn : n < 32) {out : Output} {digits : List Nat}
    (hout : out.Holds size digits) (hbits : input = flat 6 digits ++ bits n acc.toNat) :
    ∃ n' out' digits', drain acc n out = .ok (n', out') ∧ n' < 6 ∧ out'.Holds size digits' ∧
      input = flat 6 digits' ++ bits n' acc.toNat := by
  -- Each digit takes six bits off the front of what is collected.
  induction n using Nat.strong_induction_on generalizing out digits with
  | h n ih =>
    by_cases hlt : n < 6
    · refine ⟨n, out, digits, ?_, hlt, hout, hbits⟩
      rw [drain]
      intro m hm
      omega
    · obtain ⟨m, rfl⟩ : ∃ m, n = m + 6 := ⟨n - 6, by omega⟩
      have hsize : digits.length < size := by
        rw [hbits, List.length_append, length_flat, length_bits] at hinput
        omega
      obtain ⟨out₁, hwrite, hout₁⟩ := hout.write hsize (Nat.mod_lt (acc.toNat / 2 ^ m) (by decide))
      obtain ⟨n', out', digits', hdrain, hrest⟩ := ih m (by omega) (by omega) hout₁ (by
        rw [hbits, Nat.add_comm m 6, bits_pop, flat_append]
        simp)
      refine ⟨n', out', digits', ?_, hrest⟩
      rw [drain, symbol_eq, toNat_shiftRight acc (by omega), hwrite]
      exact hdrain

/-- The encoder has written the bits of `input` that make whole digits and keeps the others. -/
structure Encoder.Holds (e : Encoder) (size : Nat) (input : Bytes) : Prop where
  bits_lt : e.bitsCollected < 6
  digits : ∃ digits, e.out.Holds size digits ∧
    flat 8 (input.map UInt8.toNat) = flat 6 digits ++ bits e.bitsCollected e.accumulator.toNat

theorem Encoder.Holds.feed {e : Encoder} {size : Nat} {input : Bytes} (h : e.Holds size input)
    (signed : Bool) (c : UInt8) (hsize : 8 * (input.length + 1) ≤ 6 * size) :
    ∃ e', e.feed signed c = .ok e' ∧ e'.Holds size (input ++ [c]) := by
  obtain ⟨hlt, digits, hout, hbits⟩ := h
  obtain ⟨acc, hacc⟩ : ∃ acc, acc =
    e.accumulator <<< 8 ||| (UInt32.ofInt (promote signed c) &&& 0xff) := ⟨_, rfl⟩
  -- The mask takes away what the sign extension of a `char` has put in.
  have hpush : acc.toNat = (e.accumulator.toNat * 2 ^ 8 + c.toNat) % 2 ^ 32 := by
    have hc := toNat_promote signed c
    rw [hacc, ← hc]
    exact toNat_push (w := 8) _ _ (by decide) (by rw [hc]; exact c.toNat_lt)
  have hinput : (flat 8 ((input ++ [c]).map UInt8.toNat)).length ≤ 6 * size := by
    simp
    omega
  obtain ⟨n', out', digits', hdrain, hn', hout', hbits'⟩ :=
    drain_spec hinput acc (n := e.bitsCollected + 8) (by omega) hout (by
      rw [hpush, bits_push (by omega) _ c.toNat_lt, List.map_append, flat_append, hbits,
        List.append_assoc]
      simp)
  refine ⟨⟨acc, n', out'⟩, ?_, hn', digits', hout', hbits'⟩
  rw [Encoder.feed, ← hacc, hdrain]
  rfl

theorem Encoder.Holds.foldlM {e : Encoder} {size : Nat} {input : Bytes} (h : e.Holds size input)
    (signed : Bool) (s : Bytes) (hsize : 8 * (input ++ s).length ≤ 6 * size) :
    ∃ e', s.foldlM (Encoder.feed signed) e = .ok e' ∧ e'.Holds size (input ++ s) := by
  induction s generalizing e input with
  | nil => exact ⟨e, rfl, by rwa [List.append_nil]⟩
  | cons c s ih =>
    rw [List.append_cons] at hsize ⊢
    obtain ⟨e₁, hfeed, h₁⟩ := h.feed signed c (by
      rw [List.length_append, List.length_append] at hsize
      simp only [List.length_singleton] at hsize
      omega)
    obtain ⟨e', hrest, h'⟩ := ih h₁ hsize
    refine ⟨e', ?_, h'⟩
    rw [List.foldlM_cons, hfeed]
    exact hrest

/-- The trailing bits, filled up with zeros, are the last group. -/
theorem Encoder.Holds.tail {e : Encoder} {size : Nat} {s : Bytes} (h : e.Holds size s)
    (ndebug : Bool) (hsize : (sextets s).length ≤ size) :
    ∃ out, e.tail ndebug = .ok out ∧ out.Holds size (sextets s) := by
  obtain ⟨hlt, digits, hout, hbits⟩ := h
  obtain ⟨n, hn, hs⟩ := flat_sextets s
  -- Digits with the bits of the string and a few zeros are the groups.
  have hunique : ∀ {ds : List Nat} {m : Nat}, m < 6 → (∀ d ∈ ds, d < 64) →
      flat 6 ds = flat 8 (s.map UInt8.toNat) ++ List.replicate m false → ds = sextets s := by
    intro ds m hm hds hflat
    have hlen := congrArg List.length hflat
    have hlen' := congrArg List.length hs
    simp only [length_flat, List.length_append, List.length_replicate] at hlen hlen'
    obtain rfl : m = n := by omega
    have hnil : ([] : List Bool).length < 6 := by decide
    exact (flat_append_inj hds (sextets_lt s) hnil hnil (by rw [hflat, hs])).1
  unfold Encoder.tail
  by_cases hpos : 0 < e.bitsCollected
  · obtain ⟨m, hm⟩ : ∃ m, m = 6 - e.bitsCollected := ⟨_, rfl⟩
    have hpush := toNat_push e.accumulator 0 (w := m) (by omega) (Nat.two_pow_pos m)
    rw [UInt32.or_zero] at hpush
    have hflat : flat 6 (digits ++ [(e.accumulator <<< m.toUInt32).toNat % 64]) =
        flat 8 (s.map UInt8.toNat) ++ List.replicate m false := by
      have hlast : bits 6 ((e.accumulator <<< m.toUInt32).toNat % 2 ^ 6) =
          bits e.bitsCollected e.accumulator.toNat ++ bits m 0 := by
        rw [bits_mod (Nat.le_refl 6), hpush,
          ← bits_push (show e.bitsCollected + m ≤ 32 by omega) _ (Nat.two_pow_pos m)]
        congr 1
        omega
      rw [flat_append, hbits, List.append_assoc, ← bits_zero, ← hlast]
      simp
    have hds := hunique (by omega) (by
      intro d hd
      rcases List.mem_append.mp hd with hd | hd
      · exact hout.lt d hd
      · rw [List.mem_singleton.mp hd]; exact Nat.mod_lt _ (by decide)) hflat
    obtain ⟨out, hwrite, hout'⟩ := hout.write (by
      rw [← hds, List.length_append] at hsize; exact hsize)
      (Nat.mod_lt (e.accumulator <<< m.toUInt32).toNat (by decide : 0 < 64))
    refine ⟨out, ?_, by rwa [hds] at hout'⟩
    rw [if_pos hpos, ← hm, symbol_eq, hwrite]
    simp [assertThat, hlt]
    rfl
  · have hzero : e.bitsCollected = 0 := by omega
    refine ⟨e.out, by rw [if_neg hpos], ?_⟩
    rw [hzero] at hbits
    rwa [hunique (m := 0) (by decide) hout.lt (by simpa [bits] using hbits.symm)] at hout

/-- A build without assertions encodes every string as RFC 4648 does, and so does a build with
assertions, except for the empty string: there `retval.size() - 2` wraps around. -/
theorem base64Encode_eq (ndebug signed : Bool) {s : Bytes} (hs : s.length ≤ sizeMax / 4 * 3) :
    base64Encode ndebug signed s =
      if ndebug = true ∨ s ≠ [] then .ok (rfc4648 s) else .error .assertion := by
  obtain ⟨size, hsize⟩ : ∃ size, size = (s.length + 2) / 3 * 4 := ⟨_, rfl⟩
  -- The length guard keeps the size computation from wrapping.
  have hmod : (s.length + 2) % 2 ^ 64 / 3 * 4 % 2 ^ 64 = size := by
    simp only [sizeMax] at hs
    omega
  have hlen := length_sextets s
  rw [← hsize] at hlen
  have hstart : Encoder.Holds { out := ⟨List.replicate size pad, 0⟩ } size [] :=
    ⟨Nat.succ_pos 5, [], ⟨Nat.zero_le _, rfl, rfl, by simp⟩, rfl⟩
  obtain ⟨e, hfold, he⟩ := hstart.foldlM signed s (by rw [List.nil_append]; omega)
  obtain ⟨out, htail, hout⟩ := he.tail ndebug (by rw [List.nil_append]; omega)
  rw [List.nil_append] at hout
  have hretval : out.retval = rfc4648 s := by
    rw [hout.retval, rfc4648, ← hlen, Nat.add_sub_cancel_left]
  have hfits : out.outpos ≤ out.retval.length := by
    rw [hout.length, hout.outpos]; exact hout.fits
  -- The last assertion compares with the size less two, which wraps for the empty string.
  have hclose : (out.retval.length + 2 ^ 64 - 2) % 2 ^ 64 ≤ out.outpos ↔ s ≠ [] := by
    rw [hout.length, hout.outpos, ← List.length_pos_iff]
    simp only [sizeMax] at hs
    omega
  rw [hretval] at hfits hclose
  rw [base64Encode, if_neg (by omega)]
  simp only [hmod, hfold, bind, Except.bind, htail, assertThat_eq, hretval, hclose, hfits, or_true,
    if_true]
  by_cases hok : ndebug = true ∨ s ≠ []
  · rw [if_pos hok, if_pos hok]; rfl
  · rw [if_neg hok, if_neg hok]

/-! ## The decoder -/

/-- `=` and ASCII whitespace, which the decoder passes by. -/
def Skipped (c : UInt8) : Prop := c = pad ∨ c = 32 ∨ 9 ≤ c.toNat ∧ c.toNat ≤ 13

instance (c : UInt8) : Decidable (Skipped c) := inferInstanceAs (Decidable (_ ∨ _ ∨ _))

theorem Decoder.feed_skipped (signed : Bool) (d : Decoder) {c : UInt8} (hc : Skipped c) :
    d.feed signed c = .ok d := by
  have hspace : isspace (promote signed c) = true ∨ promote signed c = pad.toNat := by
    -- Whatever is skipped is ASCII, and has the same value as a signed `char`.
    have hlt : c.toNat < 128 := by
      rcases hc with rfl | rfl | hc
      · decide
      · decide
      · omega
    have hpromote : promote signed c = c.toNat := if_neg (by omega)
    rw [hpromote]
    rcases hc with rfl | rfl | hc
    · exact .inr rfl
    · exact .inl rfl
    · left
      simp only [isspace, decide_eq_true_eq]
      omega
  rw [Decoder.feed, if_pos hspace]

theorem reverseTable_alphabet : ∀ signed, ∀ d < 64,
    (isspace (promote signed (alphabet d)) = false ∧ promote signed (alphabet d) ≠ pad.toNat) ∧
      promote signed (alphabet d) ≤ 127 ∧ 0 ≤ promote signed (alphabet d) ∧
      reverseTable.getD (promote signed (alphabet d)).toNat 0 = d.toUInt8 := by
  decide

theorem not_skipped_alphabet : ∀ d < 64, ¬Skipped (alphabet d) := by decide

/-- The decoder has the bits of `digits` that make whole bytes and keeps the others. -/
structure Decoder.Holds (d : Decoder) (digits : List Nat) : Prop where
  bits_lt : d.bitsCollected < 8
  bits_eq : flat 6 digits =
    flat 8 (d.retval.map UInt8.toNat) ++ bits d.bitsCollected d.accumulator.toNat

theorem toNat_lowByte (x : UInt32) : (x &&& 0xff).toUInt8.toNat = x.toNat % 2 ^ 8 := by
  rw [UInt32.toNat_toUInt8, UInt32.toNat_and]
  have hmask : x.toNat &&& UInt32.toNat 0xff = x.toNat % 2 ^ 8 :=
    Nat.and_two_pow_sub_one_eq_mod x.toNat 8
  rw [hmask, Nat.mod_mod]

theorem Decoder.Holds.feed {d : Decoder} {digits : List Nat} (h : d.Holds digits) (signed : Bool)
    {x : Nat} (hx : x < 64) :
    ∃ d', d.feed signed (alphabet x) = .ok d' ∧ d'.Holds (digits ++ [x]) := by
  obtain ⟨hlt, hflat⟩ := h
  obtain ⟨hskip, hle, hge, hrev⟩ := reverseTable_alphabet signed x hx
  have htoNat : x.toUInt8.toUInt32.toNat = x := by
    rw [UInt8.toNat_toUInt32, Nat.toUInt8_eq, UInt8.toNat_ofNat']
    omega
  have hle63 : ¬x.toUInt8 > 63 := by
    have hx' : x.toUInt8.toNat ≤ 63 := by
      rw [Nat.toUInt8_eq, UInt8.toNat_ofNat']
      omega
    exact UInt8.not_lt.mpr (UInt8.le_iff_toNat_le.mpr hx')
  obtain ⟨acc, hacc⟩ : ∃ acc, acc = d.accumulator <<< 6 ||| x.toUInt8.toUInt32 := ⟨_, rfl⟩
  have hpush : acc.toNat = (d.accumulator.toNat * 2 ^ 6 + x) % 2 ^ 32 := by
    rw [hacc]
    refine (toNat_push (w := 6) _ _ (by decide) (by rw [htoNat]; exact hx)).trans ?_
    rw [htoNat]
  have hbits : flat 6 (digits ++ [x]) =
      flat 8 (d.retval.map UInt8.toNat) ++ bits (d.bitsCollected + 6) acc.toNat := by
    rw [hpush, bits_push (by omega) _ hx, flat_append, hflat, List.append_assoc]
    simp
  rw [Decoder.feed]
  simp only [hskip.1, hskip.2, hrev, ← hacc, Int.not_lt.mpr hle, Int.not_lt.mpr hge, hle63,
    Bool.false_eq_true, or_self, if_false]
  -- A byte is full after the second, third and fourth digit of a group.
  by_cases hfull : 8 ≤ d.bitsCollected + 6
  · rw [if_pos hfull]
    refine ⟨_, rfl, by dsimp only; omega, ?_⟩
    obtain ⟨n, hn⟩ : ∃ n, d.bitsCollected + 6 = 8 + n := ⟨d.bitsCollected - 2, by omega⟩
    rw [hbits, hn, bits_pop]
    simp only [Nat.add_sub_cancel_left, List.map_append, List.map_cons, List.map_nil, toNat_lowByte,
      toNat_shiftRight acc (by omega : n < 32), flat_append, flat_cons, flat_nil, List.append_nil,
      List.append_assoc]
  · rw [if_neg hfull]
    exact ⟨_, rfl, by dsimp only; omega, hbits⟩

theorem Decoder.Holds.foldlM {d : Decoder} {digits : List Nat} (h : d.Holds digits) (signed : Bool)
    {text : Bytes} {more : List Nat} (hmore : ∀ x ∈ more, x < 64)
    (htext : text.filter (¬Skipped ·) = more.map alphabet) :
    ∃ d', text.foldlM (Decoder.feed signed) d = .ok d' ∧ d'.Holds (digits ++ more) := by
  induction text generalizing d digits more with
  | nil =>
    obtain rfl : more = [] := List.map_eq_nil_iff.mp htext.symm
    exact ⟨d, rfl, by rwa [List.append_nil]⟩
  | cons c text ih =>
    rw [List.foldlM_cons]
    by_cases hc : Skipped c
    · rw [d.feed_skipped signed hc]
      exact ih h hmore (by rwa [List.filter_cons_of_neg (by simpa using hc)] at htext)
    · rw [List.filter_cons_of_pos (by simpa using hc)] at htext
      obtain ⟨x, more', rfl, rfl, hrest⟩ := List.map_eq_cons_iff.mp htext.symm
      obtain ⟨hx, hmore'⟩ := List.forall_mem_cons.mp hmore
      obtain ⟨d₁, hfeed, h₁⟩ := h.feed signed hx
      rw [hfeed, List.append_cons]
      exact ih h₁ hmore' hrest.symm

/-- The characters of `s` in their order, with skipped characters put in anywhere. -/
inductive Scattered : Bytes → Bytes → Prop
  | nil : Scattered [] []
  | keep {c s t} (h : Scattered s t) : Scattered (c :: s) (c :: t)
  | insert {c s t} (hc : Skipped c) (h : Scattered s t) : Scattered s (c :: t)

theorem Scattered.refl (s : Bytes) : Scattered s s := by
  induction s with
  | nil => exact .nil
  | cons c s ih => exact .keep ih

theorem Scattered.filter {s t : Bytes} (h : Scattered s t) :
    t.filter (¬Skipped ·) = s.filter (¬Skipped ·) := by
  induction h with
  | nil => rfl
  | keep h ih => rw [List.filter_cons, List.filter_cons, ih]
  | insert hc h ih => rw [List.filter_cons_of_neg (by simpa using hc), ih]

theorem filter_rfc4648 (s : Bytes) :
    (rfc4648 s).filter (¬Skipped ·) = (sextets s).map alphabet := by
  have hkeep : ((sextets s).map alphabet).filter (¬Skipped ·) = (sextets s).map alphabet := by
    refine List.filter_eq_self.mpr fun c hc ↦ ?_
    obtain ⟨d, hd, rfl⟩ := List.mem_map.mp hc
    simpa using not_skipped_alphabet d (sextets_lt s d hd)
  have hdrop : (List.replicate ((3 - s.length % 3) % 3) pad).filter (¬Skipped ·) = [] :=
    List.filter_eq_nil_iff.mpr fun c hc ↦ by
      rw [List.eq_of_mem_replicate hc]; decide
  rw [rfc4648, List.filter_append, hkeep, hdrop, List.append_nil]

/-- The decoder gets the string back from its encoding. -/
theorem base64Decode_eq (signed : Bool) {s text : Bytes} (h : Scattered (rfc4648 s) text) :
    base64Decode signed text = .ok s := by
  have hstart : Decoder.Holds {} [] := ⟨by decide, rfl⟩
  obtain ⟨d, hfold, hlt, hflat⟩ := hstart.foldlM signed (sextets_lt s)
    (h.filter.trans (filter_rfc4648 s))
  rw [List.nil_append] at hflat
  obtain ⟨n, hn, hs⟩ := flat_sextets s
  have hbytes : ∀ t : Bytes, ∀ x ∈ t.map UInt8.toNat, x < 2 ^ 8 := by
    intro t x hx
    obtain ⟨c, -, rfl⟩ := List.mem_map.mp hx
    exact c.toNat_lt
  -- The rest is too short for a byte, so that the bytes are those that were encoded.
  have hretval := (flat_append_inj (hbytes d.retval) (hbytes s) (by simpa using hlt)
    (by simp; omega) (hflat.symm.trans hs)).1
  have hinj : d.retval = s :=
    (List.map_inj_right fun _ _ hab ↦ UInt8.toNat_inj.mp hab).mp hretval
  rw [base64Decode, hfold, ← hinj]
  rfl

/-- Base64 is correct and invertible. -/
theorem base64_correct (signed : Bool) (s : Bytes) (hs : s.length ≤ sizeMax / 4 * 3) :
    base64Encode true signed s = .ok (rfc4648 s) ∧
      ∀ text, Scattered (rfc4648 s) text → base64Decode signed text = .ok s :=
  ⟨(base64Encode_eq true signed hs).trans (if_pos (.inl rfl)), fun _ h ↦ base64Decode_eq signed h⟩

theorem base64_correct_bytes :
    base64Encode true true [0, 255, 128, 62] = .ok (rfc4648 [0, 255, 128, 62]) ∧
      ∀ text, Scattered (rfc4648 [0, 255, 128, 62]) text →
        base64Decode true text = .ok [0, 255, 128, 62] :=
  base64_correct true [0, 255, 128, 62] (by decide)

/-- A build with assertions encodes every string but the empty one. -/
theorem base64Encode_asserts (signed : Bool) (s : Bytes) (hs : s.length ≤ sizeMax / 4 * 3) :
    (∃ text, base64Encode false signed s = .ok text) ↔ s ≠ [] := by
  rw [base64Encode_eq false signed hs]
  by_cases hnil : s = [] <;> simp [hnil]

theorem base64Encode_asserts_url :
    (∃ text, base64Encode false true (ascii "http://n1/db.zip") = .ok text) ↔
      ascii "http://n1/db.zip" ≠ [] :=
  base64Encode_asserts true (ascii "http://n1/db.zip") (by decide)

/-- The encoding of the empty string has size 0, and `0 - 2` is no position in it. -/
theorem base64Encode_aborts : base64Encode false true [] = .error .assertion := by decide

end Base64Coder

end Jepsen
