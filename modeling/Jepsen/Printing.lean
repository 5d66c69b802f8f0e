import Jepsen.Library.Rounding
import Jepsen.Operation
import Mathlib.Algebra.Group.Int.Defs
import Mathlib.Algebra.Group.Nat.Defs

/-!
# Printing operations

`Operation::toString`, which the runner and the workers call on an operation before they do
anything with it.  A payload holds integers of up to 64 bits and is printed through `asInt` and
`asUInt`, so it prints when its integers have at most 32.
-/

namespace Jepsen

/-! ## Ranges -/

/-- What a signed or an unsigned integer of `bits` bits holds. -/
def IntRange (bits : Nat) (n : Int) : Prop := -2 ^ (bits - 1) ≤ n ∧ n < 2 ^ (bits - 1)

def UIntRange (bits : Nat) (n : Nat) : Prop := n < 2 ^ bits

instance (bits : Nat) (n : Int) : Decidable (IntRange bits n) := inferInstanceAs (Decidable (_ ∧ _))

instance (bits n : Nat) : Decidable (UIntRange bits n) := inferInstanceAs (Decidable (_ < _))

namespace OPInfo

mutual

/-- The values at the ends of a payload, from left to right. -/
def leaves : OPInfo → List OPInfo
  | .array elems => leavesElems elems
  | .object members => leavesMembers members
  | v => [v]
termination_by structural v => v

def leavesElems : List OPInfo → List OPInfo
  | [] => []
  | v :: elems => v.leaves ++ leavesElems elems
termination_by structural elems => elems

def leavesMembers : List (String × OPInfo) → List OPInfo
  | [] => []
  | (_, v) :: members => v.leaves ++ leavesMembers members
termination_by structural members => members

end

/-- A value is no integer, or one of `bits` bits. -/
def Fits (bits : Nat) : OPInfo → Prop
  | .int n => IntRange bits n
  | .uint n => UIntRange bits n
  | _ => True

/-- The integers of a payload have `bits` bits.  jsoncpp's own have 64. -/
def Within (bits : Nat) (v : OPInfo) : Prop := ∀ l ∈ v.leaves, l.Fits bits

instance (bits : Nat) : DecidablePred (Fits bits)
  | .int n => inferInstanceAs (Decidable (IntRange bits n))
  | .uint n => inferInstanceAs (Decidable (UIntRange bits n))
  | .null | .real _ | .string _ | .boolean _ | .array _ | .object _ =>
    inferInstanceAs (Decidable True)

instance (bits : Nat) : DecidablePred (Within bits) := fun v ↦
  inferInstanceAs (Decidable (∀ l ∈ v.leaves, l.Fits bits))

end OPInfo

/-! ## Printing -/

/-- The two conversions of jsoncpp that `toString` calls, and what they do with a number that the
32-bit type holds or does not hold. -/
structure Conversions where
  asInt : Int → Except String Int
  asUInt : Nat → Except String Nat
  asInt_eq : ∀ n, IntRange 32 n → asInt n = .ok n
  asUInt_eq : ∀ n, UIntRange 32 n → asUInt n = .ok n
  asInt_throws : ∀ n, ¬IntRange 32 n → ∃ what, asInt n = .error what
  asUInt_throws : ∀ n, ¬UIntRange 32 n → ∃ what, asUInt n = .error what

/-- `std::to_string` of a double, which is the `%f` of its exact value. -/
def realToString (bits : UInt64) : String :=
  let sign := if bits.toNat / 2 ^ 63 = 1 then "-" else ""
  let exponent := bits.toNat / 2 ^ 52 % 2 ^ 11
  let fraction := bits.toNat % 2 ^ 52
  if exponent = 2 ^ 11 - 1 then
    sign ++ if fraction = 0 then "inf" else "nan"
  else
    -- the value is `significand * 2 ^ (scale - 1075)`
    let significand := if exponent = 0 then fraction else fraction + 2 ^ 52
    let scale := if exponent = 0 then 1 else exponent
    let millionths := Library.roundEven (significand * 10 ^ 6 * 2 ^ scale) (2 ^ 1075)
    let decimals := toString (millionths % 10 ^ 6)
    sign ++ toString (millionths / 10 ^ 6) ++ "." ++
      String.ofList (List.replicate (6 - decimals.length) '0') ++ decimals

namespace OPInfo

variable (J : Conversions)

mutual

/-- `Operation::toString(OPInfo&)`.  The members of an object stand in the order of its keys. -/
def toString : OPInfo → Except String String
  | .null => return "nil"
  | .int n => return ToString.toString (← J.asInt n)
  | .uint n => return ToString.toString (← J.asUInt n)
  | .real bits => return realToString bits
  | .string s => return s
  | .boolean b => return if b then "true" else "false"
  | .object members => return "\x7b" ++ ", ".intercalate (← toStringMembers members) ++ "\x7d"
  | .array elems => return "[" ++ " ".intercalate (← toStringElems elems) ++ "]"
termination_by structural v => v

def toStringElems : List OPInfo → Except String (List String)
  | [] => return []
  | v :: elems => return (← v.toString) :: (← toStringElems elems)
termination_by structural elems => elems

def toStringMembers : List (String × OPInfo) → Except String (List String)
  | [] => return []
  | (key, v) :: members => return (key ++ ":" ++ (← v.toString)) :: (← toStringMembers members)
termination_by structural members => members

end

end OPInfo

/-- `TypeStr`. -/
def OpType.typeStr : OpType → String
  | .kInit => ":init"
  | .kInvoke => ":invoke"
  | .kSuccess => ":ok"
  | .kFailed => ":fail"
  | .kInfo => ":info"
  | .kExit => ":exit"
  | .kNil => ":nil"
  | .kPending => ":pending"

def Operation.toString (J : Conversions) (op : Operation) : Except String String := do
  let value ← op.op.toString J
  let process := if op.process = kNemesisProcess then "Nemesis" else ToString.toString op.process
  return "\x7b:type " ++ op.type.typeStr ++ ", :f " ++ op.func ++ ", :value " ++ value ++
    ", :process " ++ process ++ ", :time " ++ ToString.toString op.time ++ "\x7d"

/-! ## What is thrown -/

def thrown {α : Type} : Except String α → Option String
  | .ok _ => none
  | .error what => some what

theorem thrown_eq_none_iff {α : Type} {x : Except String α} : thrown x = none ↔ ∃ a, x = .ok a := by
  cases x <;> simp [thrown]

theorem thrown_eq_none_iff_of {α : Type} {x : Except String α} {a : α} {p : Prop}
    (h : p → x = .ok a)
    (h' : ¬p → ∃ what, x = .error what) : thrown x = none ↔ p := by
  rw [thrown_eq_none_iff]
  refine ⟨fun ⟨b, hb⟩ ↦ ?_, fun hp ↦ ⟨a, h hp⟩⟩
  by_contra hp
  obtain ⟨what, hwhat⟩ := h' hp
  exact absurd (hb.symm.trans hwhat) (by simp)

@[simp] theorem thrown_pure {α : Type} (a : α) : thrown (pure a : Except String α) = none := rfl

@[simp] theorem thrown_map {α β : Type} (g : α → β) (x : Except String α) :
    thrown (g <$> x) = thrown x := by
  cases x <;> rfl

@[simp] theorem thrown_bind_map {α β γ : Type} (g : α → β → γ) (x : Except String α)
    (y : Except String β) : thrown (x >>= fun a ↦ g a <$> y) = (thrown x).or (thrown y) := by
  cases x <;> cases y <;> rfl

namespace OPInfo

variable (J : Conversions)

/-- What printing a value throws by itself. -/
def ownThrow : OPInfo → Option String
  | .int n => thrown (J.asInt n)
  | .uint n => thrown (J.asUInt n)
  | _ => none

theorem ownThrow_eq_none_iff (v : OPInfo) : v.ownThrow J = none ↔ v.Fits 32 := by
  cases v with
  | int n => exact thrown_eq_none_iff_of (J.asInt_eq n) (J.asInt_throws n)
  | uint n => exact thrown_eq_none_iff_of (J.asUInt_eq n) (J.asUInt_throws n)
  | null => simp [ownThrow, Fits]
  | real bits => simp [ownThrow, Fits]
  | string s => simp [ownThrow, Fits]
  | boolean b => simp [ownThrow, Fits]
  | array elems => simp [ownThrow, Fits]
  | object members => simp [ownThrow, Fits]

mutual

/-- Printing a payload throws what its first integer that is out of range throws. -/
theorem thrown_toString : ∀ v : OPInfo, thrown (v.toString J) = v.leaves.findSome? (ownThrow J)
  | .null => by simp [toString, leaves, ownThrow]
  | .int n => by simp [toString, leaves, ownThrow]
  | .uint n => by simp [toString, leaves, ownThrow]
  | .real bits => by simp [toString, leaves, ownThrow]
  | .string s => by simp [toString, leaves, ownThrow]
  | .boolean b => by simp [toString, leaves, ownThrow]
  | .array elems => by
    have ih := thrown_toStringElems elems
    simpa [toString, leaves] using ih
  | .object members => by
    have ih := thrown_toStringMembers members
    simpa [toString, leaves] using ih

theorem thrown_toStringElems : ∀ elems : List OPInfo,
    thrown (toStringElems J elems) = (leavesElems elems).findSome? (ownThrow J)
  | [] => by simp [toStringElems, leavesElems]
  | v :: elems => by
    have ihHead := thrown_toString v
    have ihTail := thrown_toStringElems elems
    simp [toStringElems, leavesElems, List.findSome?_append, ihHead, ihTail]

theorem thrown_toStringMembers : ∀ members : List (String × OPInfo),
    thrown (toStringMembers J members) = (leavesMembers members).findSome? (ownThrow J)
  | [] => by simp [toStringMembers, leavesMembers]
  | (key, v) :: members => by
    have ihHead := thrown_toString v
    have ihTail := thrown_toStringMembers members
    simp [toStringMembers, leavesMembers, List.findSome?_append, ihHead, ihTail]

end

theorem toString_returns_iff (v : OPInfo) : (∃ s, v.toString J = .ok s) ↔ v.Within 32 := by
  rw [← thrown_eq_none_iff, thrown_toString, List.findSome?_eq_none_iff]
  exact forall₂_congr fun l _ ↦ l.ownThrow_eq_none_iff J

end OPInfo

namespace Operation

variable {J : Conversions} {op : Operation}

theorem thrown_toString : thrown (op.toString J) = thrown (op.op.toString J) := by
  unfold Operation.toString
  cases op.op.toString J <;> rfl

theorem toString_of_within (h : op.op.Within 32) : ∃ s, op.toString J = .ok s := by
  rw [← thrown_eq_none_iff, thrown_toString, thrown_eq_none_iff]
  exact (op.op.toString_returns_iff J).mpr h

theorem within_of_toString {s : String} (h : op.toString J = .ok s) : op.op.Within 32 := by
  rw [← op.op.toString_returns_iff J, ← thrown_eq_none_iff, ← thrown_toString, h]
  rfl

theorem toString_of_not_within (h : ¬op.op.Within 32) : ∃ what, op.toString J = .error what := by
  cases hline : op.toString J with
  | error what => exact ⟨what, rfl⟩
  | ok line => exact absurd (within_of_toString hline) h

end Operation

/-- An operation prints exactly when the integers of its payload have 32 bits. -/
theorem Operation.toString_total_iff (J : Conversions) (op : Operation) :
    (∃ s, op.toString J = .ok s) ↔ op.op.Within 32 :=
  ⟨fun ⟨_, h⟩ ↦ within_of_toString h, toString_of_within⟩

/-- The conversions with the texts of jsoncpp's exceptions. -/
def Conversions.jsoncpp : Conversions where
  asInt n := if IntRange 32 n then .ok n else .error "LargestInt out of Int range"
  asUInt n := if UIntRange 32 n then .ok n else .error "LargestUInt out of UInt range"
  asInt_eq _ h := if_pos h
  asUInt_eq _ h := if_pos h
  asInt_throws _ h := ⟨_, if_neg h⟩
  asUInt_throws _ h := ⟨_, if_neg h⟩

/-- A write of a number that has 64 bits and not 32. -/
theorem OperationFactory.write_toString_throws :
    (OperationFactory.write (.string "x") (.int 2147483648)).op.Within 64 ∧
      (OperationFactory.write (.string "x") (.int 2147483648)).toString .jsoncpp =
        .error "LargestInt out of Int range" := by
  decide

end Jepsen
