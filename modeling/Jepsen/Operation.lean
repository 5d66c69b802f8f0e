import Mathlib.Data.Int.Notation
import Mathlib.Tactic.Common

/-!
# Operations

`Operation` is what generators offer, workers execute and the history records.  The payload is a
jsoncpp value.  Processes, threads and times are C++ integers that the program only compares,
counts and adds, so they are unbounded here; results speak about runs whose numbers fit.
-/

namespace Jepsen

def kNemesisProcess : Int := -1
def kInvalidProcess : Int := -2
def kInvalidTime : Int := -3

/-- `Json::Value`, the type of `Operation::OPInfo`.  A real is kept as its bit pattern. -/
inductive OPInfo where
  | null
  | int (n : Int)
  | uint (n : Nat)
  | real (bits : UInt64)
  | string (s : String)
  | boolean (b : Bool)
  | array (elems : List OPInfo)
  | object (members : List (String × OPInfo))
  deriving Repr, Inhabited

/-- `Operation::Type`. -/
inductive OpType where
  | kInit | kInvoke | kSuccess | kFailed | kInfo | kExit | kNil | kPending
  deriving DecidableEq, Repr

structure Operation where
  type : OpType := .kInit
  func : String := ""
  op : OPInfo := .null
  helper : OPInfo := .null
  time : Int := 0
  process : Int := kInvalidProcess
  deriving Repr, Inhabited

namespace OperationFactory

def write (key value : OPInfo) : Operation :=
  { type := .kInvoke, func := "write", op := .array [key, value] }

def read (key : OPInfo) : Operation :=
  { type := .kInvoke, func := "read", op := .array [key, .null] }

def cas (key value old : OPInfo) : Operation :=
  { type := .kInvoke, func := "cas", op := .array [key, value, old] }

def exit : Operation := { type := .kExit, func := "exit" }

def pending : Operation := { type := .kPending, func := "pending" }

def fakePartition : Operation :=
  { type := .kInvoke, func := "partition", op := .object [("class", .string "partition")],
    process := kNemesisProcess }

end OperationFactory

namespace OpType

/-- The types that `runCases` neither discards nor takes for the end of the generator: an
operation of such a type goes to a worker. -/
def Dispatchable (type : OpType) : Prop := type ≠ .kNil ∧ type ≠ .kExit ∧ type ≠ .kPending

instance (type : OpType) : Decidable type.Dispatchable := inferInstanceAs (Decidable (_ ∧ _))

/-- The types with which a worker may report an operation as done. -/
def IsCompletion (type : OpType) : Prop := type = .kSuccess ∨ type = .kFailed ∨ type = .kInfo

instance (type : OpType) : Decidable type.IsCompletion := inferInstanceAs (Decidable (_ ∨ _ ∨ _))

end OpType

/-- An answer of a generator that is an operation: neither `:nil` nor `:pending`. -/
def Operation.Real (op : Operation) : Prop := op.type ≠ .kNil ∧ op.type ≠ .kPending

instance (op : Operation) : Decidable op.Real := inferInstanceAs (Decidable (_ ∧ _))

theorem OpType.Dispatchable.real {op : Operation} (h : op.type.Dispatchable) : op.Real :=
  ⟨h.1, h.2.2⟩

end Jepsen
