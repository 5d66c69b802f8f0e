import Jepsen.Context
import Jepsen.Library.Rounding

/-!
# Generator trees

`GeneratorPtr` is the tree behind a `std::shared_ptr<Generator>`, with the null pointer as a tree
of its own.  `copyOne` and `update` are the virtual methods of the same names together with the
free function `generator::update`; calling a method through a null pointer is the fault
`nullPointer`.
-/

namespace Jepsen

open Library

/-- `FunctionGenerator` with its `FuncType`.  The `Nat` stands for everything else a user's function
reads: the generator of random numbers, or state it captured. -/
inductive FunctionGenerator where
  | kWithCtx (func_with_context : Context → Nat → Operation)
  | kBase (func_base : Nat → Operation)

def FunctionGenerator.func : FunctionGenerator → Context → Nat → Operation
  | .kWithCtx f, ctx, k => f ctx k
  | .kBase f, _, k => f k

/-- A call on a leaf of a class that a user derives from `Generator`: an answer that was discarded
on this object, the answer whose successor this object is, or an event. -/
inductive LeafCall where
  | polled (ctx : Context) (draw : Nat)
  | taken (ctx : Context) (draw : Nat)
  | updated (ctx : Context) (event : Operation)

/-- A user's leaf class.  The calls made so far are all the state its object can have. -/
structure UserLeaf where
  next : List LeafCall → Context → Nat → Operation

inductive GeneratorPtr where
  | nullptr
  | operation (operation : Operation)
  | function (func : FunctionGenerator)
  | list (generators : List GeneratorPtr)
  | validate (gen : GeneratorPtr)
  | onThreads (gen : GeneratorPtr) (filter : ThreadFilter)
  | timeLimit (limit cutoff : Int) (gen : GeneratorPtr)
  | stagger (dt next_time : Int) (gen : GeneratorPtr)
  | mix (idx : Nat) (gens : List GeneratorPtr)
  | any (gens : List GeneratorPtr)
  | user (leaf : UserLeaf) (calls : List LeafCall)

namespace GeneratorPtr

/-- Induction over a tree, with the hypothesis for every member of a `list`, `mix` or `any`. -/
@[elab_as_elim, induction_eliminator]
theorem induct {motive : GeneratorPtr → Prop} (nullptr : motive .nullptr)
    (operation : ∀ o, motive (.operation o)) (function : ∀ f, motive (.function f))
    (list : ∀ gs, (∀ g ∈ gs, motive g) → motive (.list gs))
    (validate : ∀ g, motive g → motive (.validate g))
    (onThreads : ∀ g f, motive g → motive (.onThreads g f))
    (timeLimit : ∀ limit cutoff g, motive g → motive (.timeLimit limit cutoff g))
    (stagger : ∀ dt nt g, motive g → motive (.stagger dt nt g))
    (mix : ∀ idx gs, (∀ g ∈ gs, motive g) → motive (.mix idx gs))
    (any : ∀ gs, (∀ g ∈ gs, motive g) → motive (.any gs))
    (user : ∀ leaf calls, motive (.user leaf calls)) (g : GeneratorPtr) : motive g :=
  @GeneratorPtr.rec motive (fun gs ↦ ∀ g ∈ gs, motive g)
    nullptr operation function list validate onThreads timeLimit stagger mix any user
    (by simp) (fun _ _ h hs ↦ List.forall_mem_cons.mpr ⟨h, hs⟩) g

/-- `gen.get() == nullptr` -/
def isNull : GeneratorPtr → Bool
  | .nullptr => true
  | _ => false

@[simp] theorem isNull_iff {g : GeneratorPtr} : g.isNull = true ↔ g = .nullptr := by
  cases g <;> simp [isNull]

@[simp] theorem isNull_eq_false_iff {g : GeneratorPtr} : g.isNull = false ↔ g ≠ .nullptr := by
  rw [← Bool.not_eq_true, isNull_iff]

end GeneratorPtr

/-! ## Constructors -/

/-- `seconds * 1e9` is a product of doubles. -/
def sec2nanos (seconds : Int) : Int := roundInt 53 (roundInt 53 seconds * 1000000000)

/-- The product is exact for some 146 years. -/
theorem sec2nanos_eq {seconds : Int} (h : seconds.natAbs * 5 ^ 9 < 2 ^ 53) :
    sec2nanos seconds = seconds * 1000000000 := by
  have hshort : roundInt 53 seconds = seconds := by
    simpa using roundInt_mul_two_pow (m := seconds) (by omega : seconds.natAbs < 2 ^ 53) 0
  have hproduct : seconds * 1000000000 = seconds * 5 ^ 9 * 2 ^ 9 := by omega
  rw [sec2nanos, hshort, hproduct]
  refine roundInt_mul_two_pow ?_ 9
  rwa [Int.natAbs_mul]

/-- The filter of `clients`. -/
def isClient : ThreadFilter := fun id ↦ id != kNemesisProcess

/-- The filter of `nemesis`. -/
def isNemesis : ThreadFilter := fun id ↦ id == kNemesisProcess

namespace GeneratorFactory

def createNullptrGenerator : GeneratorPtr := .nullptr

def createGenerator (operations : List Operation) : GeneratorPtr :=
  .list (operations.map .operation)

def createValidate (gen : GeneratorPtr) : GeneratorPtr := .validate gen

def createOnThreads (gen : GeneratorPtr) (filter : ThreadFilter) : GeneratorPtr :=
  .onThreads gen filter

def createTimeLimit (dt : Int) (gen : GeneratorPtr) : GeneratorPtr :=
  .timeLimit dt kInvalidTime gen

/-- `createStagger(dt, gen)`.  The constructor leaves `next_time` uninitialised, so its value is a
parameter. -/
def createStagger (uninitialised dt : Int) (gen : GeneratorPtr) : GeneratorPtr :=
  .stagger dt uninitialised gen

/-- `createStagger(dt, next_time, gen)`.  The constructor behind it ignores its second argument. -/
def createStaggerAt (dt _next_time : Int) (gen : GeneratorPtr) : GeneratorPtr :=
  .stagger dt kInvalidTime gen

def createMix (idx : Nat) (gens : List GeneratorPtr) : GeneratorPtr := .mix idx gens

def createAny (gens : List GeneratorPtr) : GeneratorPtr := .any gens

end GeneratorFactory

open GeneratorFactory

def clients (client_gen : GeneratorPtr) : GeneratorPtr := createOnThreads client_gen isClient

def nemesis (nemesis_gen : GeneratorPtr) : GeneratorPtr := createOnThreads nemesis_gen isNemesis

def timeLimit (dt : Int) (gen : GeneratorPtr) : GeneratorPtr := createTimeLimit (sec2nanos dt) gen

def stagger (uninitialised dt : Int) (gen : GeneratorPtr) : GeneratorPtr :=
  createStagger uninitialised (2 * sec2nanos dt) gen

def any : List GeneratorPtr → GeneratorPtr
  | [] => .nullptr
  | [gen] => gen
  | gens => createAny gens

/-- `clients(client_gen, nemesis_gen)` -/
def clientsAndNemesis (client_gen nemesis_gen : GeneratorPtr) : GeneratorPtr :=
  any [clients client_gen, nemesis nemesis_gen]

/-- `nemesis(nemesis_gen, client_gen)` -/
def nemesisAndClients (nemesis_gen client_gen : GeneratorPtr) : GeneratorPtr :=
  any [nemesis nemesis_gen, clients client_gen]

/-! ## Copies -/

namespace GeneratorPtr

mutual

def copyOne : GeneratorPtr → Except Fault GeneratorPtr
  | .nullptr => .error .nullPointer
  | .operation o => .ok (.operation o)
  | .function f => .ok (.function f)
  | .list gs => do return .list (← copyOrNull gs)
  | .validate gen =>
    if gen.isNull then .ok (createValidate .nullptr)
    else do return createValidate (← copyOne gen)
  | .onThreads gen filter =>
    if gen.isNull then .ok (createOnThreads .nullptr filter)
    else do return createOnThreads (← copyOne gen) filter
  | .timeLimit limit cutoff gen =>
    if gen.isNull then .ok .nullptr
    else do return .timeLimit limit cutoff (← copyOne gen)
  | .stagger dt next_time gen =>
    if gen.isNull then .ok .nullptr
    else do return createStaggerAt dt next_time (← copyOne gen)
  | .mix idx gs => do
    -- the copies are dropped: the new `Mix` shares the members of the old one
    let _ ← copyEach gs
    return createMix idx gs
  | .any gs => do return createAny (← copyEach gs)
  | .user leaf calls => .ok (.user leaf calls)

/-- The members of a `Mix` or an `Any`, each copied without a test for null. -/
def copyEach : List GeneratorPtr → Except Fault (List GeneratorPtr)
  | [] => .ok []
  | g :: gs => do
    let g' ← copyOne g
    let gs' ← copyEach gs
    return g' :: gs'

/-- The members of a list, where a null pointer is its own copy. -/
def copyOrNull : List GeneratorPtr → Except Fault (List GeneratorPtr)
  | [] => .ok []
  | g :: gs => do
    let g' ← (if g.isNull then .ok .nullptr else copyOne g)
    let gs' ← copyOrNull gs
    return g' :: gs'

end

/-- The generators that a container holds. -/
def members : GeneratorPtr → List GeneratorPtr
  | .list gs => gs
  | .mix _ gs => gs
  | .any gs => gs
  | _ => []

/-- The generator that a wrapper holds. -/
def child : GeneratorPtr → GeneratorPtr
  | .validate gen => gen
  | .onThreads gen _ => gen
  | .timeLimit _ _ gen => gen
  | .stagger _ _ gen => gen
  | _ => .nullptr

mutual

/-- A tree after a call on a copy of it, which the call left as `copy`: what the call assigned in
the members of a `Mix`, which the copy shares, is assigned in the tree too. -/
def writeBack : GeneratorPtr → GeneratorPtr → GeneratorPtr
  | .nullptr, _ => .nullptr
  | .operation o, _ => .operation o
  | .function f, _ => .function f
  | .list gs, copy => .list (writeBackEach gs copy.members)
  | .validate gen, copy => .validate (writeBack gen copy.child)
  | .onThreads gen filter, copy => .onThreads (writeBack gen copy.child) filter
  | .timeLimit limit cutoff gen, copy => .timeLimit limit cutoff (writeBack gen copy.child)
  | .stagger dt next_time gen, copy => .stagger dt next_time (writeBack gen copy.child)
  | .mix idx _, copy => .mix idx copy.members
  | .any gs, copy => .any (writeBackEach gs copy.members)
  | .user leaf calls, _ => .user leaf calls

def writeBackEach : List GeneratorPtr → List GeneratorPtr → List GeneratorPtr
  | [], _ => []
  | gen :: gens, copies => writeBack gen (copies.headD .nullptr) :: writeBackEach gens copies.tail

end

mutual

/-- `generator::update` and the `update` methods. -/
def update : GeneratorPtr → Context → Operation → Except Fault GeneratorPtr
  | .nullptr, _, _ => .ok .nullptr
  | .operation o, _, _ => copyOne (.operation o)
  | .function f, _, _ => copyOne (.function f)
  | .list [], _, _ => .ok createNullptrGenerator
  | .list (g :: gs), ctx, event => do
    let upd ← update g ctx event
    let copy ← copyOrNull (g :: gs)
    return .list (upd :: copy.tail)
  | .validate gen, ctx, event => do return createValidate (← update gen ctx event)
  | .onThreads gen filter, ctx, event => do
    if filter (ctx.processToThread event.process) then
      return createOnThreads (← update gen (onThreadsContext filter ctx) event) filter
    else
      return createOnThreads gen filter
  | .timeLimit limit cutoff gen, ctx, event => do
    return .timeLimit limit cutoff (← update gen ctx event)
  | .stagger dt next_time gen, ctx, event => do
    return createStaggerAt dt next_time (← update gen ctx event)
  | .mix idx gs, _, _ => .ok (createMix idx gs)
  | .any gs, ctx, event => do return createAny (← updateEach gs ctx event)
  | .user leaf calls, ctx, event => .ok (.user leaf (calls ++ [.updated ctx event]))

def updateEach : List GeneratorPtr → Context → Operation → Except Fault (List GeneratorPtr)
  | [], _, _ => .ok []
  | g :: gs, ctx, event => do
    let g' ← update g ctx event
    let gs' ← updateEach gs ctx event
    return g' :: gs'

end

end GeneratorPtr

end Jepsen
