import Jepsen.Generator.Basic

/-!
# Asking a generator

`generator::op` and the `op` methods.  Every method takes the function it re-enters as `ask`, and
`op` closes the recursion with fuel: `op n` answers what the source answers when its recursion is
less than `n` calls deep.  `TimeLimit` and `Stagger` assign their own fields, so an `Answer` holds,
next to the pair that the source returns, the receiver as the call leaves it.
-/

namespace Jepsen

open Library GeneratorFactory
open GeneratorPtr (copyOne copyEach copyOrNull members writeBackEach)

structure Answer where
  op : Operation
  gen2 : GeneratorPtr
  self : GeneratorPtr

/-- `nil`, answered by `self`. -/
def nil (self : GeneratorPtr) : Answer := ⟨{ type := .kNil }, .nullptr, self⟩

def notNil (op : Operation) (gen : GeneratorPtr) : Bool := op.type ≠ .kNil && !gen.isNull

abbrev Ask := GeneratorPtr → Context → Gen Answer

/-- The fields `fillInOperation` sets once it has drawn `process`. -/
def fillIn (time process : Int) (op : Operation) : Operation :=
  if process ≠ kInvalidProcess then
    { op with
      process := if op.process = kInvalidProcess then process else op.process
      time := if op.time = 0 then time else op.time
      type := if op.type = .kInit then .kInvoke else op.type }
  else
    { op with type := .kPending }

def fillInOperation (ctx : Context) (op : Operation) : Gen Operation := do
  let process ← ctx.randomFreeProcess
  return fillIn ctx.time process op

/-- `generator::mix`. -/
def mix (gens : List GeneratorPtr) : Gen GeneratorPtr := do
  let r ← rand
  if gens.length = 0 then
    throw .divisionByZero
  else
    return createMix (r % gens.length) gens

/-- The tuple that `Any::op` folds with `soonestOpMap`: an operation, its weight and the index of
the member that offers it. -/
structure Soonest where
  op : Operation
  weight : Nat
  idx : Int

def soonestOpMap (m₁ m₂ : Soonest) : Gen Soonest := do
  if m₁.op.type = .kNil ∨ m₁.op.type = .kPending then
    return m₂
  else if m₂.op.type = .kNil ∨ m₂.op.type = .kPending then
    return m₁
  else if m₁.op.time = m₂.op.time then
    let w := m₁.weight + m₂.weight
    let r ← rand
    if w = 0 then
      throw .divisionByZero
    else if r % w < m₁.weight then
      return { m₁ with weight := w }
    else
      return { m₂ with weight := w }
  else
    return if m₁.op.time < m₂.op.time then m₁ else m₂

/-! ## The methods -/

def OperationGenerator.op (operation : Operation) (ctx : Context) : Gen Answer := do
  let ret_op ← fillInOperation ctx operation
  if ret_op.type = .kPending then
    return ⟨ret_op, .operation operation, .operation operation⟩
  else
    return ⟨ret_op, .nullptr, .operation operation⟩

def FunctionGenerator.op (ask : Ask) (func : FunctionGenerator) (ctx : Context) : Gen Answer := do
  let k ← rand
  let ret_op := func.func ctx k
  let copy ← copyOne (.function func)
  let a ← ask (.list [.operation ret_op, copy]) ctx
  return { a with self := .function func }

def ListGenerator.op (ask : Ask) : List GeneratorPtr → Context → Gen Answer
  | [], ctx => do
    let a ← ask createNullptrGenerator ctx
    return { a with self := .list [] }
  | first_gen :: rest, ctx => do
    let a ← ask first_gen ctx
    let self : GeneratorPtr := .list (a.self :: rest)
    let copy ← copyOrNull (a.self :: rest)
    if a.gen2.isNull ∧ a.op.type = .kNil then
      let b ← ask (.list copy.tail) ctx
      return { b with self := .list (a.self :: writeBackEach rest (members b.self)) }
    else if copy.length > 1 then
      return ⟨a.op, .list (a.gen2 :: copy.tail), self⟩
    else
      return ⟨a.op, a.gen2, self⟩

def Validate.op (ask : Ask) (gen : GeneratorPtr) (ctx : Context) : Gen Answer := do
  let a ← ask gen ctx
  if !a.gen2.isNull ∧ a.op.type ≠ .kNil then
    return ⟨a.op, createValidate a.gen2, .validate a.self⟩
  else
    return ⟨a.op, a.gen2, .validate a.self⟩

def OnThreads.op (ask : Ask) (gen : GeneratorPtr) (filter : ThreadFilter) (ctx : Context) :
    Gen Answer := do
  let a ← ask gen (onThreadsContext filter ctx)
  if notNil a.op a.gen2 then
    return ⟨a.op, createOnThreads a.gen2 filter, .onThreads a.self filter⟩
  else
    return nil (.onThreads a.self filter)

/-- `cutoff` after a real operation with the time `time`: the first one sets it. -/
def TimeLimit.fix (limit cutoff time : Int) : Int :=
  if cutoff = kInvalidTime then time + limit else cutoff

theorem TimeLimit.fix_of_ne {limit cutoff time : Int} (h : cutoff ≠ kInvalidTime) :
    TimeLimit.fix limit cutoff time = cutoff :=
  if_neg h

def TimeLimit.op (ask : Ask) (limit cutoff : Int) (gen : GeneratorPtr) (ctx : Context) :
    Gen Answer := do
  let a ← ask gen ctx
  if notNil a.op a.gen2 then
    if a.op.type = .kPending then
      return ⟨a.op, .timeLimit limit cutoff a.gen2, .timeLimit limit cutoff a.self⟩
    else
      let cutoff := fix limit cutoff a.op.time
      if a.op.time < cutoff then
        return ⟨a.op, .timeLimit limit cutoff a.gen2, .timeLimit limit cutoff a.self⟩
      else
        return nil (.timeLimit limit cutoff a.self)
  else
    return nil (.timeLimit limit cutoff a.self)

/-- `next_time` after an offer in a context with the time `time`: the first one sets it. -/
def Stagger.fix (next_time time : Int) : Int :=
  if next_time = kInvalidTime then time else next_time

theorem Stagger.fix_of_ne {next_time time : Int} (h : next_time ≠ kInvalidTime) :
    Stagger.fix next_time time = next_time :=
  if_neg h

def Stagger.op (ask : Ask) (dt next_time : Int) (gen : GeneratorPtr) (ctx : Context) :
    Gen Answer := do
  let a ← ask gen ctx
  if notNil a.op a.gen2 then
    let next_time := fix next_time ctx.time
    if a.op.type = .kPending then
      -- `make_shared<Stagger>(*this)` shares the receiver's `gen` and drops `gen2`
      return ⟨a.op, .stagger dt next_time a.self, .stagger dt next_time a.self⟩
    else
      let r ← rand
      if dt = 0 then
        throw .divisionByZero
      else
        let next_gen := createStaggerAt dt (next_time + (r : Int).tmod dt) a.gen2
        return ⟨{ a.op with time := max next_time a.op.time }, next_gen,
          .stagger dt next_time a.self⟩
  else
    return nil (.stagger dt next_time a.self)

def Mix.op (ask : Ask) (idx : Nat) (gens : List GeneratorPtr) (ctx : Context) : Gen Answer := do
  if gens.isEmpty then
    return nil (.mix idx gens)
  else
    match gens[idx]? with
    | none => throw .outOfRange
    | some gen =>
      let a ← ask gen ctx
      if notNil a.op a.gen2 then
        let gens := gens.set idx a.self
        let copy ← copyEach gens
        let next ← Jepsen.mix (copy.set idx a.gen2)
        return ⟨a.op, next, .mix idx gens⟩
      else
        let others := gens.eraseIdx idx
        let copy ← copyEach others
        let next ← Jepsen.mix copy
        let b ← ask next ctx
        return { b with
          self := .mix idx ((writeBackEach others (members b.self)).insertIdx idx a.self) }

/-- The locals of the loop in `Any::op`. -/
structure Any.Loop where
  cur : Soonest := ⟨{ type := .kNil }, 1, -1⟩
  res_gen : GeneratorPtr := .nullptr
  res_op : Operation := { type := .kNil }
  res_idx : Int := -1

/-- The loop's body, once member `i` has answered `a`. -/
def Any.consider (loop : Any.Loop) (i : Nat) (a : Answer) : Gen Any.Loop := do
  if notNil a.op a.gen2 then
    let cur ← soonestOpMap loop.cur ⟨a.op, 1, i⟩
    if cur.idx = i then
      return ⟨cur, a.gen2, a.op, i⟩
    else
      return { loop with cur := cur }
  else
    return loop

/-- The loop from member `i` on, with the answers of the members it polled. -/
def Any.poll (ask : Ask) (ctx : Context) : Nat → List GeneratorPtr → Any.Loop →
    Gen (Any.Loop × List Answer)
  | _, [], loop => return (loop, [])
  | i, gen :: gens, loop => do
    let a ← ask gen ctx
    let loop ← Any.consider loop i a
    let (loop, answers) ← Any.poll ask ctx (i + 1) gens loop
    return (loop, a :: answers)

def Any.op (ask : Ask) (gens : List GeneratorPtr) (ctx : Context) : Gen Answer := do
  let (loop, answers) ← Any.poll ask ctx 0 gens {}
  let gens := answers.map Answer.self
  if notNil loop.res_op loop.res_gen then
    let copy ← copyEach gens
    return ⟨loop.res_op, createAny (copy.set loop.res_idx.toNat loop.res_gen), .any gens⟩
  else
    return nil (.any gens)

def UserLeaf.op (leaf : UserLeaf) (calls : List LeafCall) (ctx : Context) : Gen Answer := do
  let k ← rand
  let next := leaf.next calls ctx k
  let self : GeneratorPtr := .user leaf (calls ++ [.polled ctx k])
  if next.type = .kNil then
    return nil self
  else
    let ret_op ← fillInOperation ctx next
    return ⟨ret_op, .user leaf (calls ++ [.taken ctx k]), self⟩

/-- `generator::op`, with its recursive calls left to `ask`. -/
def opBody (ask : Ask) : Ask
  | .nullptr, _ => return nil .nullptr
  | .operation operation, ctx => OperationGenerator.op operation ctx
  | .function func, ctx => FunctionGenerator.op ask func ctx
  | .list generators, ctx => ListGenerator.op ask generators ctx
  | .validate gen, ctx => Validate.op ask gen ctx
  | .onThreads gen filter, ctx => OnThreads.op ask gen filter ctx
  | .timeLimit limit cutoff gen, ctx => TimeLimit.op ask limit cutoff gen ctx
  | .stagger dt next_time gen, ctx => Stagger.op ask dt next_time gen ctx
  | .mix idx gens, ctx => Mix.op ask idx gens ctx
  | .any gens, ctx => Any.op ask gens ctx
  | .user leaf calls, ctx => UserLeaf.op leaf calls ctx

def op : Nat → Ask
  | 0 => fun _ _ ↦ throw .outOfFuel
  | n + 1 => opBody (op n)

/-- A `Mix` asks the member that it is at. -/
theorem op_mix {idx : Nat} {gens : List GeneratorPtr} {gen : GeneratorPtr}
    (hgen : gens[idx]? = some gen) (ctx : Context) (n : Nat) :
    op (n + 1) (.mix idx gens) ctx = op n gen ctx >>= fun a ↦
      if notNil a.op a.gen2 then do
        let copy ← copyEach (gens.set idx a.self)
        let next ← mix (copy.set idx a.gen2)
        return ⟨a.op, next, .mix idx (gens.set idx a.self)⟩
      else do
        let copy ← copyEach (gens.eraseIdx idx)
        let next ← mix copy
        let b ← op n next ctx
        return { b with
          self := .mix idx
            ((writeBackEach (gens.eraseIdx idx) (members b.self)).insertIdx idx a.self) } := by
  change Mix.op (op n) idx gens ctx = _
  have hne : gens.isEmpty = false := by
    rw [List.isEmpty_eq_false_iff]
    rintro rfl
    exact absurd hgen (by simp)
  rw [Mix.op, hne, hgen]
  rfl

end Jepsen
