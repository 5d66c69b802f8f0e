import Jepsen.Library.Numeral
import Jepsen.Printing

/-!
# The etcd client

`ETCDClient::invoke` over a store of texts.  jsoncpp writes keys and values as texts, and what a
read finds is taken for a number again, so that a client throws on payloads that are no texts and on
values that are no numbers.
-/

namespace Jepsen

open Library

namespace OPInfo

/-- `Json::Value::operator[]` with an index: the element, and the value with the elements that the
operator creates.  Nothing but an array or null has elements. -/
def index : OPInfo → Nat → Option (OPInfo × OPInfo)
  | .null, i => some (.null, .array (List.replicate (i + 1) .null))
  | .array elems, i =>
    some (elems.getD i .null, .array (elems ++ List.replicate (i + 1 - elems.length) .null))
  | _, _ => none

/-- The assignment to an element. -/
def setIndex : OPInfo → Nat → OPInfo → OPInfo
  | .array elems, i, v => .array (elems.set i v)
  | v, _, _ => v

/-- `Json::Value::asString`, with jsoncpp's text of a real. -/
def asString (realText : UInt64 → String) : OPInfo → Option String
  | .null => some ""
  | .string s => some s
  | .boolean b => some (if b then "true" else "false")
  | .int n => some (ToString.toString n)
  | .uint n => some (ToString.toString n)
  | .real bits => some (realText bits)
  | .array _ => none
  | .object _ => none

end OPInfo

/-- `std::stoi`, which throws where there is no number or none of type `int`. -/
def stoi (s : String) : Option Int :=
  (Numeral.readInt s.toList).bind fun n ↦ if IntRange 32 n then some n else none

theorem stoi_toString {n : Int} (h : IntRange 32 n) : stoi (toString n) = some n := by
  unfold stoi
  rw [Numeral.readInt_self n]
  exact if_pos h

namespace Etcd

/-- The calls of `etcd::Client`. -/
inductive Request where
  | put (key val : String)
  | get (key : String)
  | modifyIf (key val old : String)

/-- `etcd::Response`: `is_ok()` and `value().as_string()`. -/
structure Response where
  isOk : Bool
  value : String := ""

abbrev Store := String → Option String

/-- What a cluster may answer that serves one request at a time.  It may be unavailable, and then it
does nothing. -/
inductive Cluster : Store → Request → Response → Store → Prop
  | put {store key val} :
      Cluster store (.put key val) ⟨true, ""⟩ (Function.update store key (some val))
  | get {store key val} (h : store key = some val) :
      Cluster store (.get key) ⟨true, val⟩ store
  | missing {store key} (h : store key = none) : Cluster store (.get key) ⟨false, ""⟩ store
  | modified {store key val old} (h : store key = some old) :
      Cluster store (.modifyIf key val old) ⟨true, ""⟩ (Function.update store key (some val))
  | compared {store key val old} (h : store key ≠ some old) :
      Cluster store (.modifyIf key val old) ⟨false, ""⟩ store
  | unavailable {store request} : Cluster store request ⟨false, ""⟩ store

end Etcd

open Etcd

namespace ETCDClient

variable (realText : UInt64 → String) (serve : Store → Request → Etcd.Response × Store)

/-- `write` -/
def put (op : Operation) (store : Store) : Option (Operation × Store) := do
  let (key, info) ← op.op.index 0
  let key ← key.asString realText
  let (val, info) ← info.index 1
  let val ← val.asString realText
  let (response, store) := serve store (.put key val)
  return ({ op with op := info, type := if response.isOk then .kSuccess else .kFailed }, store)

/-- `read` -/
def get (op : Operation) (store : Store) : Option (Operation × Store) := do
  let (key, info) ← op.op.index 0
  let key ← key.asString realText
  let (response, store) := serve store (.get key)
  if response.isOk then
    let n ← stoi response.value
    let (_, info) ← info.index 1
    return ({ op with op := info.setIndex 1 (.int n), type := .kSuccess }, store)
  else
    return ({ op with op := info, type := .kFailed }, store)

/-- `cas` -/
def modifyIf (op : Operation) (store : Store) : Option (Operation × Store) := do
  let (key, info) ← op.op.index 0
  let key ← key.asString realText
  let (val, info) ← info.index 1
  let val ← val.asString realText
  let (old, info) ← info.index 2
  let old ← old.asString realText
  let (response, store) := serve store (.modifyIf key val old)
  return ({ op with op := info, type := if response.isOk then .kSuccess else .kFailed }, store)

/-- `none` where an exception leaves `invoke`.  The `bool` that it returns is ignored. -/
def invoke (op : Operation) (store : Store) : Option (Operation × Store) :=
  if op.type ≠ .kInvoke then some (op, store)
  else if op.func = "write" then put realText serve op store
  else if op.func = "read" then get realText serve op store
  else if op.func = "cas" then modifyIf realText serve op store
  else some (op, store)

/-! ## What `invoke` makes of a request -/

section

variable {realText serve} {op : Operation} {store : Store} {k v o : OPInfo} {key val old : String}

-- The elements are there already.
theorem put_eq (hop : op.op = .array [k, v]) (hkey : k.asString realText = some key)
    (hval : v.asString realText = some val) :
    put realText serve op store =
      let r := serve store (.put key val)
      some ({ op with type := if r.1.isOk then .kSuccess else .kFailed }, r.2) := by
  simp [put, hop, OPInfo.index, hkey, hval]

theorem get_eq (hop : op.op = .array [k, v]) (hkey : k.asString realText = some key) :
    get realText serve op store =
      let r := serve store (.get key)
      if r.1.isOk then
        (stoi r.1.value).map fun n ↦
          ({ op with op := .array [k, .int n], type := .kSuccess }, r.2)
      else some ({ op with type := .kFailed }, r.2) := by
  have hindex : (OPInfo.array [k, v]).index 1 = some (v, .array [k, v]) := rfl
  have hfirst : op.op.index 0 = some (k, .array [k, v]) := by rw [hop]; rfl
  unfold get
  rw [hfirst]
  dsimp only [Option.bind_eq_bind, Option.bind_some]
  rw [hkey, Option.bind_some, hindex]
  cases (serve store (.get key)).1.isOk with
  | true => cases hn : stoi (serve store (.get key)).1.value <;> rfl
  | false => simp [← hop]

theorem modifyIf_eq (hop : op.op = .array [k, v, o]) (hkey : k.asString realText = some key)
    (hval : v.asString realText = some val) (hold : o.asString realText = some old) :
    modifyIf realText serve op store =
      let r := serve store (.modifyIf key val old)
      some ({ op with type := if r.1.isOk then .kSuccess else .kFailed }, r.2) := by
  simp [modifyIf, hop, OPInfo.index, hkey, hval, hold]

end

end ETCDClient

end Jepsen
