import Jepsen.Runner.Basic

/-!
# What a step of the runner does

`Moves` has one rule for every way through `Runner.step`, with the guards that hold there.  A worker
is a queue of operations in flight; taking, finishing and enqueuing keep the processes of the
operations in it and their order, so that only the runner's own two branches matter below.
-/

namespace Jepsen

open Library

namespace Runner

/-- The operations in the hands of worker `thread`, oldest first: waiting in `completions`, being
executed, and waiting in the inbox (but for the exit operation). -/
def inFlight (s : Runner) (thread : Int) : List Operation :=
  let w := s.worker thread
  w.completions ++ (w.job.map Job.op).toList ++ w.inbox.filter (fun op ↦ op.type ≠ .kExit)

/-- One rule for every way through a step. -/
inductive Moves : Runner → Action → Runner → Prop
  /-- A worker takes, finishes or enqueues an operation, or stops. -/
  | work {s : Runner} {a : Action} {t : Int} {w : WorkerState}
      (hflight : ∀ t', ((s.setWorker t w).inFlight t').map Operation.process =
        (s.inFlight t').map Operation.process) :
      Moves s a (s.setWorker t w)
  | complete {s : Runner} {t time : Int} {op : Operation} {rest : List Operation}
      {generator : GeneratorPtr} (hflag : s.flag = true)
      (hcomp : (s.worker t).completions = op :: rest)
      (hupd : s.generator.update (s.completionContext op time) { op with time := time } =
        .ok generator) :
      Moves s (.complete t time)
        { s.setWorker t { s.worker t with completions := rest } with
          generator := generator
          ctx :=
            if op.process ≠ kNemesisProcess ∧ op.type = .kInfo then
              { s.completionContext op time with
                workers := s.ctx.workers.insert (s.ctx.processToThread op.process)
                  (s.ctx.nextProcess (s.ctx.processToThread op.process)) }
            else
              s.completionContext op time
          outstanding := s.outstanding - 1
          history := s.history ++ [⟨.completion, { op with time := time }⟩] }
  /-- The answer is discarded: nothing left but operations outstanding, pending, or too early. -/
  | discard {s : Runner} {time : Int} {draws draws' : Draws} {fuel : Nat} {a : Answer}
      (hflag : s.flag = true)
      (hask : op fuel s.generator (s.askContext time) draws = .ok (a, draws'))
      (hwhy : a.op.type.Dispatchable → time < a.op.time) :
      Moves s (.ask time draws fuel) { s with ctx := s.askContext time, generator := a.self }
  | exit {s : Runner} {time : Int} {draws draws' : Draws} {fuel : Nat} {a : Answer}
      (hflag : s.flag = true)
      (hask : op fuel s.generator (s.askContext time) draws = .ok (a, draws'))
      (hend : a.op.type = .kNil ∨ a.op.type = .kExit) (hout : s.outstanding ≤ 0) :
      Moves s (.ask time draws fuel)
        { s with ctx := s.askContext time, generator := a.self }.exit
  | dispatch {s : Runner} {time : Int} {draws draws' : Draws} {fuel : Nat} {a : Answer}
      {t : Int} {generator : GeneratorPtr} (hflag : s.flag = true)
      (hask : op fuel s.generator (s.askContext time) draws = .ok (a, draws'))
      (hreal : a.op.type.Dispatchable) (htime : a.op.time ≤ time)
      (ht : t = s.ctx.processToThread a.op.process) (hmem : t ∈ Context.threads s.concurrency)
      (hupd : a.gen2.update (s.dispatchContext a.op) a.op = .ok generator) :
      Moves s (.ask time draws fuel)
        { s.setWorker t { s.worker t with inbox := (s.worker t).inbox ++ [a.op] } with
          generator := generator
          ctx := s.dispatchContext a.op
          outstanding := s.outstanding + 1
          history := s.history ++ [⟨.dispatch, a.op⟩] }

theorem inFlight_setWorker (s : Runner) (t : Int) (w : WorkerState) (t' : Int) :
    (s.setWorker t w).inFlight t' = if t' = t then
      w.completions ++ (w.job.map Job.op).toList ++ w.inbox.filter (fun op ↦ op.type ≠ .kExit)
    else s.inFlight t' := by
  by_cases h : t' = t
  · subst h
    simp [inFlight, setWorker]
  · simp [inFlight, setWorker, h]

/-- A worker that hands its operations on keeps them, and their order. -/
theorem Moves.workOn {s : Runner} {a : Action} {t : Int} {w : WorkerState}
    (h : (w.completions ++ (w.job.map Job.op).toList ++
      w.inbox.filter (fun op ↦ op.type ≠ .kExit)).map Operation.process =
        (s.inFlight t).map Operation.process) : Moves s a (s.setWorker t w) := by
  refine .work fun t' ↦ ?_
  rw [inFlight_setWorker]
  split
  · rename_i htt
    rw [h, htt]
  · rfl

theorem take_moves {s s' : Runner} {t : Int} {a : Action} (h : s.take t = some s') :
    Moves s a s' := by
  unfold take at h
  dsimp only at h
  split at h
  · rename_i hguard
    have hjob := Option.isNone_iff_eq_none.mp hguard.2.2
    cases hin : (s.worker t).inbox with
    | nil => simp [hin] at h
    | cons op inbox =>
      simp only [hin] at h
      split at h
      · rename_i hexit
        obtain rfl := Option.some.inj h
        exact .workOn (by simp [inFlight, hin, hexit])
      · rename_i hop
        obtain rfl := Option.some.inj h
        exact .workOn (by simp [inFlight, hin, hjob, hop, Job.op])
  · exact absurd h (by simp)

theorem finish_moves {s s' : Runner} {t : Int} {ret : Operation} {a : Action}
    (h : s.finish t ret = some s') : Moves s a s' := by
  unfold finish at h
  dsimp only at h
  split at h
  · rename_i op hjob
    obtain rfl := Option.some.inj h
    exact .workOn (by simp [inFlight, hjob, Job.op])
  · exact absurd h (by simp)

theorem enqueue_moves {s s' : Runner} {t : Int} {a : Action} (h : s.enqueue t = some s') :
    Moves s a s' := by
  unfold enqueue at h
  dsimp only at h
  split at h
  · rename_i op hjob
    obtain rfl := Option.some.inj h
    exact .workOn (by simp [inFlight, hjob, Job.op])
  · exact absurd h (by simp)

theorem complete_moves {s s' : Runner} {t time : Int} (h : s.complete t time = some s') :
    Moves s (.complete t time) s' := by
  unfold complete at h
  dsimp only at h
  split at h
  · rename_i op rest hflag hcomp
    unfold receive at h
    dsimp only at h
    split at h
    · exact absurd h (by simp)
    · rename_i generator hupd
      obtain rfl := Option.some.inj h
      exact .complete hflag hcomp hupd
  · exact absurd h (by simp)

theorem dispatch_moves {s s' : Runner} {time : Int} {draws draws' : Draws} {fuel : Nat}
    {a : Answer} (hflag : s.flag = true)
    (hask : Jepsen.op fuel s.generator (s.askContext time) draws = .ok (a, draws'))
    (hreal : a.op.type.Dispatchable) (htime : a.op.time ≤ time)
    (h : { s with ctx := s.askContext time, generator := a.self }.dispatch a.op a.gen2 = some s') :
    Moves s (.ask time draws fuel) s' := by
  unfold dispatch at h
  dsimp only at h
  split at h
  · rename_i hmem
    split at h
    · exact absurd h (by simp)
    · rename_i generator hupd
      obtain rfl := Option.some.inj h
      exact .dispatch hflag hask hreal htime rfl hmem hupd
  · exact absurd h (by simp)

theorem ask_moves {s s' : Runner} {time : Int} {draws : Draws} {fuel : Nat}
    (h : s.ask time draws fuel = some s') : Moves s (.ask time draws fuel) s' := by
  unfold ask at h
  split at h
  · rename_i hflag
    split at h
    · exact absurd h (by simp)
    · rename_i a draws' hask
      dsimp only at h
      -- `:nil` and `:exit` fall into one case of the switch.
      have hend (he : a.op.type = .kNil ∨ a.op.type = .kExit)
          (h : (if s.outstanding > 0 then
              some { s with ctx := s.askContext time, generator := a.self }
            else some { s with ctx := s.askContext time, generator := a.self }.exit) = some s') :
          Moves s (.ask time draws fuel) s' := by
        split at h
        · obtain rfl := Option.some.inj h
          exact .discard hflag hask fun hd ↦ he.elim (absurd · hd.1) (absurd · hd.2.1)
        · rename_i hout
          obtain rfl := Option.some.inj h
          exact .exit hflag hask he (not_lt.mp hout)
      split at h
      · rename_i hnil
        exact hend (.inl hnil) h
      · rename_i hexit
        exact hend (.inr hexit) h
      · rename_i hp
        obtain rfl := Option.some.inj h
        exact .discard hflag hask fun hd ↦ absurd hp hd.2.2
      · rename_i hnil hexit hp
        split at h
        -- an operation that is not due yet is thrown away, and asked for again
        · rename_i hlt
          obtain rfl := Option.some.inj h
          exact .discard hflag hask fun _ ↦ hlt
        · rename_i hle
          exact dispatch_moves hflag hask ⟨hnil, hexit, hp⟩ (not_lt.mp hle) h
  · exact absurd h (by simp)

theorem step_moves {s s' : Runner} {a : Action} (h : s.step a = some s') : Moves s a s' := by
  cases a with
  | take t => exact take_moves h
  | finish t ret => exact finish_moves h
  | enqueue t => exact enqueue_moves h
  | complete t time => exact complete_moves h
  | ask time draws fuel => exact ask_moves h

end Runner

end Jepsen
