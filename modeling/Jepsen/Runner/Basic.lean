import Jepsen.Generator.Op
import Jepsen.Library.Transition
import Mathlib.Logic.Function.Basic

/-!
# The runner

`Runner::runCases` with its workers, as a labelled transition system.  The runner's thread and the
workers' threads share only the queues: an inbox for each worker, and the completions, of which
moodycamel's queue promises an order among the elements of one producer only, so that it is one
queue for each worker here.  Either branch of the loop may be taken at any moment, since the wait
for a completion may time out at any moment; `poll_timeout` only says when, and is left out.
-/

namespace Jepsen

open Library

/-- The operation a worker took: its client is working on it, or has returned it. -/
inductive Job where
  | invoking (op : Operation)
  | returned (op : Operation)

def Job.op : Job → Operation
  | .invoking op => op
  | .returned op => op

structure WorkerState where
  inbox : List Operation := []
  job : Option Job := none
  completions : List Operation := []
  running : Bool := true

/-- The branch of the loop that appended a history entry. -/
inductive EntryKind where
  | dispatch | completion
  deriving DecidableEq, Repr

structure Entry where
  kind : EntryKind
  op : Operation

structure Runner where
  concurrency : Nat
  generator : GeneratorPtr
  ctx : Context
  outstanding : Int
  history : List Entry
  worker : Int → WorkerState
  flag : Bool

/-- What may happen next.  `finish` is the return of a client's `invoke`, with the operation as the
client leaves it; a clock reading is an argument of the two branches of the loop. -/
inductive Action where
  | take (thread : Int)
  | finish (thread : Int) (ret : Operation)
  | enqueue (thread : Int)
  | complete (thread : Int) (time : Int)
  | ask (time : Int) (draws : Draws) (fuel : Nat)

/-- `ctx.workers` after the set-up of the workers: every thread runs the process of its number. -/
def Context.initWorkers (concurrency : Nat) : Workers :=
  let clients : Workers :=
    (List.range concurrency).foldl (fun ws (i : Nat) ↦ ws.insert (i : Int) (i : Int)) ∅
  clients.insert kNemesisProcess kNemesisProcess

namespace Runner

/-- The state in which the loop of `runCases` starts. -/
def start (concurrency : Nat) (generator : GeneratorPtr) (time : Int) : Runner where
  concurrency := concurrency
  generator := generator
  ctx := { Context.new concurrency time with workers := Context.initWorkers concurrency }
  outstanding := 0
  history := []
  worker := fun _ ↦ {}
  flag := true

def setGenerator (generator : GeneratorPtr) : GeneratorPtr :=
  GeneratorFactory.createValidate generator

def setWorker (s : Runner) (thread : Int) (w : WorkerState) : Runner :=
  { s with worker := Function.update s.worker thread w }

/-! ## The workers -/

/-- `in->try_dequeue(op)`.  After an exit operation the worker leaves its loop. -/
def take (s : Runner) (thread : Int) : Option Runner :=
  let w := s.worker thread
  if thread ∈ Context.threads s.concurrency ∧ w.running ∧ w.job.isNone then
    match w.inbox with
    | [] => none
    | op :: inbox =>
      if op.type = .kExit then
        some (s.setWorker thread { w with inbox := inbox, running := false })
      else
        some (s.setWorker thread { w with inbox := inbox, job := some (.invoking op) })
  else
    none

/-- The client returns.  It may have changed everything in the operation but its process. -/
def finish (s : Runner) (thread : Int) (ret : Operation) : Option Runner :=
  let w := s.worker thread
  match w.job with
  | some (.invoking op) =>
    some (s.setWorker thread { w with job := some (.returned { ret with process := op.process }) })
  | _ => none

/-- `out->enqueue(op)` -/
def enqueue (s : Runner) (thread : Int) : Option Runner :=
  let w := s.worker thread
  match w.job with
  | some (.returned op) =>
    some (s.setWorker thread { w with job := none, completions := w.completions ++ [op] })
  | _ => none

/-! ## The two branches of the loop -/

/-- The context in which the completion of `op` is handled. -/
def completionContext (s : Runner) (op : Operation) (time : Int) : Context :=
  { s.ctx with
    time := time
    freeThreads := insert (s.ctx.processToThread op.process) s.ctx.freeThreads }

/-- The branch that handles the completed operation `op`. -/
def receive (s : Runner) (op : Operation) (time : Int) : Option Runner :=
  let thread := s.ctx.processToThread op.process
  let op := { op with time := time }
  let ctx := s.completionContext op time
  match s.generator.update ctx op with
  | .error _ => none
  | .ok generator =>
    let ctx :=
      if op.process ≠ kNemesisProcess ∧ op.type = .kInfo then
        { ctx with workers := ctx.workers.insert thread (ctx.nextProcess thread) }
      else
        ctx
    some { s with
      generator := generator
      ctx := ctx
      outstanding := s.outstanding - 1
      history := s.history ++ [⟨.completion, op⟩] }

def complete (s : Runner) (thread : Int) (time : Int) : Option Runner :=
  let w := s.worker thread
  match s.flag, w.completions with
  | true, op :: completions =>
    (s.setWorker thread { w with completions := completions }).receive op time
  | _, _ => none

/-- The context in which the generator is asked. -/
def askContext (s : Runner) (time : Int) : Context := { s.ctx with time := time }

/-- The context after the dispatch of `op`. -/
def dispatchContext (s : Runner) (op : Operation) : Context :=
  { s.ctx with
    time := op.time
    freeThreads := s.ctx.freeThreads.erase (s.ctx.processToThread op.process) }

/-- The dispatch of `op`.  A thread without worker is a null `WorkerPtr`, where the run ends. -/
def dispatch (s : Runner) (op : Operation) (gen2 : GeneratorPtr) : Option Runner :=
  let thread := s.ctx.processToThread op.process
  if thread ∈ Context.threads s.concurrency then
    let w := s.worker thread
    match gen2.update (s.dispatchContext op) op with
    | .error _ => none
    | .ok generator =>
      some { s.setWorker thread { w with inbox := w.inbox ++ [op] } with
        generator := generator
        ctx := s.dispatchContext op
        outstanding := s.outstanding + 1
        history := s.history ++ [⟨.dispatch, op⟩] }
  else
    none

/-- The end of the loop: every worker is sent an exit operation. -/
def exit (s : Runner) : Runner :=
  { s with
    worker := fun t ↦
      if t ∈ Context.threads s.concurrency then
        { s.worker t with inbox := (s.worker t).inbox ++ [OperationFactory.exit] }
      else
        s.worker t
    flag := false }

/-- The branch that asks the generator.  A call that fails or needs more fuel is no step. -/
def ask (s : Runner) (time : Int) (draws : Draws) (fuel : Nat) : Option Runner :=
  if s.flag then
    match op fuel s.generator (s.askContext time) draws with
    | .error _ => none
    | .ok (a, _) =>
      let s := { s with ctx := s.askContext time, generator := a.self }
      match a.op.type with
      | .kNil | .kExit => if s.outstanding > 0 then some s else some s.exit
      | .kPending => some s
      | _ => if time < a.op.time then some s else s.dispatch a.op a.gen2
  else
    none

/-- The loop and its workers, one action at a time.  A log call that throws is left to `Runner.Logs`. -/
def step (s : Runner) : Action → Option Runner
  | .take thread => s.take thread
  | .finish thread ret => s.finish thread ret
  | .enqueue thread => s.enqueue thread
  | .complete thread time => s.complete thread time
  | .ask time draws fuel => s.ask time draws fuel

def Step : Lts Runner Action := fun s a s' ↦ s.step a = some s'

/-- The state after a schedule of actions, if every one of them can be taken. -/
def run : Runner → List Action → Option Runner
  | s, [] => some s
  | s, a :: schedule => (s.step a).bind fun s ↦ s.run schedule

theorem run_steps {s s' : Runner} {schedule : List Action} (h : s.run schedule = some s') :
    Run Step s schedule s' := by
  induction schedule generalizing s with
  | nil => exact Option.some.inj h ▸ .nil s
  | cons a schedule ih =>
    obtain ⟨s₁, hstep, hrest⟩ := Option.bind_eq_some_iff.mp h
    exact .cons hstep (ih hrest)

theorem reachable_of_run {s s' : Runner} {schedule : List Action}
    (h : s.run schedule = some s') : Reachable Step s s' :=
  ⟨schedule, run_steps h⟩

end Runner

end Jepsen
