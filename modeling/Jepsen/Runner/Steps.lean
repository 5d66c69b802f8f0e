import Jepsen.Runner.Identity
import Jepsen.Worker

/-!
# The steps of the runner, worker by worker

What a step does to the worker states.  Each way of taking one is written out as an equation, where
`Moves` only keeps the processes of the operations in flight.
-/

namespace Jepsen

open Library Context

namespace Runner

variable {s s' : Runner} {t time : Int}

theorem take_eq (h : s.take t = some s') : ∃ op inbox, (s.worker t).inbox = op :: inbox ∧
    (s.worker t).job = none ∧
    s' = s.setWorker t
      (if op.type = .kExit then { s.worker t with inbox := inbox, running := false }
      else { s.worker t with inbox := inbox, job := some (.invoking op) }) := by
  unfold take at h
  dsimp only at h
  split at h
  · rename_i hguard
    cases hin : (s.worker t).inbox with
    | nil => simp [hin] at h
    | cons op inbox =>
      refine ⟨op, inbox, rfl, Option.isNone_iff_eq_none.mp hguard.2.2, ?_⟩
      simp only [hin] at h
      split at h
      · rename_i hexit
        rw [if_pos hexit]
        exact (Option.some.inj h).symm
      · rename_i hop
        rw [if_neg hop]
        exact (Option.some.inj h).symm
  · exact absurd h (by simp)

theorem finish_eq {ret : Operation} (h : s.finish t ret = some s') :
    ∃ op, (s.worker t).job = some (.invoking op) ∧
      s' = s.setWorker t { s.worker t with
        job := some (.returned { ret with process := op.process }) } := by
  unfold finish at h
  dsimp only at h
  split at h
  · rename_i op hjob
    exact ⟨op, hjob, (Option.some.inj h).symm⟩
  · exact absurd h (by simp)

theorem enqueue_eq (h : s.enqueue t = some s') :
    ∃ op, (s.worker t).job = some (.returned op) ∧
      s' = s.setWorker t { s.worker t with
        job := none, completions := (s.worker t).completions ++ [op] } := by
  unfold enqueue at h
  dsimp only at h
  split at h
  · rename_i op hjob
    exact ⟨op, hjob, (Option.some.inj h).symm⟩
  · exact absurd h (by simp)

/-- What the runner's branch for completions changes, apart from the generator and the clock. -/
structure Completed (s : Runner) (t time : Int) (op : Operation) (s' : Runner) : Prop where
  completions : ∃ rest, (s.worker t).completions = op :: rest ∧
    s'.worker = (s.setWorker t { s.worker t with completions := rest }).worker
  history : s'.history = s.history ++ [⟨.completion, { op with time := time }⟩]
  concurrency : s'.concurrency = s.concurrency
  workers : s'.ctx.workers =
    if op.process ≠ kNemesisProcess ∧ op.type = .kInfo then
      s.ctx.workers.insert (s.ctx.processToThread op.process)
        (s.ctx.nextProcess (s.ctx.processToThread op.process))
    else s.ctx.workers
  looping : s.flag = true
  flag : s'.flag = true

theorem complete_eq (h : s.complete t time = some s') : ∃ op, Completed s t time op s' := by
  unfold complete at h
  dsimp only at h
  split at h
  · rename_i op rest hflag hcomp
    unfold receive at h
    dsimp only at h
    split at h
    · exact absurd h (by simp)
    · rename_i generator hupd
      have hs := Option.some.inj h
      subst hs
      refine ⟨op, ⟨rest, hcomp, rfl⟩, rfl, rfl, ?_, hflag, hflag⟩
      dsimp only
      split <;> rfl
  · exact absurd h (by simp)

/-- What the runner's other branch changes: nothing but the generator and the clock, or the loop
ends, or an operation is dispatched. -/
inductive Asked (s : Runner) (time : Int) (draws : Draws) (fuel : Nat) (s' : Runner) : Prop
  | idle (flag : s'.flag = true) (history : s'.history = s.history)
      (concurrency : s'.concurrency = s.concurrency) (workers : s'.ctx.workers = s.ctx.workers)
      (worker : s'.worker = s.worker)
  | exit (outstanding : s.outstanding ≤ 0) (outstanding' : s'.outstanding = s.outstanding)
      (history : s'.history = s.history) (concurrency : s'.concurrency = s.concurrency)
      (workers : s'.ctx.workers = s.ctx.workers) (worker : s'.worker = s.exit.worker)
      (flag : s'.flag = false)
  | dispatch {a : Answer} {draws' : Draws} {t : Int} (flag : s'.flag = true)
      (hask : op fuel s.generator (s.askContext time) draws = .ok (a, draws'))
      (hreal : a.op.type.Dispatchable) (ht : t = s.ctx.processToThread a.op.process)
      (history : s'.history = s.history ++ [⟨.dispatch, a.op⟩])
      (concurrency : s'.concurrency = s.concurrency)
      (workers : s'.ctx.workers = s.ctx.workers)
      (worker : s'.worker =
        (s.setWorker t { s.worker t with inbox := (s.worker t).inbox ++ [a.op] }).worker)

theorem asked_end {draws : Draws} {fuel : Nat} {a : Answer} (hflag : s.flag = true)
    (h : (if s.outstanding > 0 then some { s with ctx := s.askContext time, generator := a.self }
      else some { s with ctx := s.askContext time, generator := a.self }.exit) = some s') :
    Asked s time draws fuel s' := by
  split at h
  · rw [← Option.some.inj h]
    exact .idle hflag rfl rfl rfl rfl
  · rename_i hout
    rw [← Option.some.inj h]
    exact .exit (by omega) rfl rfl rfl rfl rfl rfl

theorem ask_eq {draws : Draws} {fuel : Nat} (h : s.ask time draws fuel = some s') :
    s.flag = true ∧ Asked s time draws fuel s' := by
  unfold ask at h
  split at h
  · rename_i hflag
    refine ⟨hflag, ?_⟩
    split at h
    · exact absurd h (by simp)
    · rename_i a draws' hask
      dsimp only at h
      split at h
      · exact asked_end hflag h
      · exact asked_end hflag h
      · rw [← Option.some.inj h]
        exact .idle hflag rfl rfl rfl rfl
      · rename_i hnil hexit hp
        split at h
        · rw [← Option.some.inj h]
          exact .idle hflag rfl rfl rfl rfl
        · unfold dispatch at h
          dsimp only at h
          split at h
          · split at h
            · exact absurd h (by simp)
            · rw [← Option.some.inj h]
              exact .dispatch hflag hask ⟨hnil, hexit, hp⟩ rfl rfl rfl rfl rfl
          · exact absurd h (by simp)
  · exact absurd h (by simp)

theorem take_guard (h : s.take t = some s') :
    t ∈ threads s.concurrency ∧ (s.worker t).running = true := by
  unfold take at h
  dsimp only at h
  split at h
  · rename_i hguard
    exact ⟨hguard.1, hguard.2.1⟩
  · exact absurd h (by simp)

end Runner

/-! ## What is in flight -/

namespace Runner

variable {s : Runner} {t t' : Int} {op op' : Operation}

theorem mem_inFlight : op ∈ s.inFlight t ↔ op ∈ (s.worker t).completions ∨
    (∃ job, (s.worker t).job = some job ∧ job.op = op) ∨
    op ∈ (s.worker t).inbox ∧ op.type ≠ .kExit := by
  simp [inFlight]

-- The flight of a worker that hands its operations on.
theorem flight_setWorker {w : WorkerState}
    (h : (w.completions ++ (w.job.map Job.op).toList ++
      w.inbox.filter (fun op ↦ op.type ≠ .kExit)).map Operation.process =
        (s.inFlight t).map Operation.process) (t' : Int) :
    ((s.setWorker t w).inFlight t').map Operation.process =
      (s.inFlight t').map Operation.process := by
  rw [inFlight_setWorker]
  by_cases htt : t' = t
  · rw [if_pos htt, h, htt]
  · rw [if_neg htt]

theorem setWorker_other {w : WorkerState} (h : t' ≠ t) :
    (s.setWorker t w).worker t' = s.worker t' :=
  Function.update_of_ne h _ _

theorem inFlight_congr {s' : Runner} (h : s'.worker = s.worker) (t : Int) :
    s'.inFlight t = s.inFlight t := by
  unfold inFlight
  rw [h]

namespace Occupancy

/-- A thread has one operation in flight, of its own process. -/
theorem alone (h : Occupancy s) (hop : op ∈ s.inFlight t) :
    t ∈ s.busy ∧ s.inFlight t = [op] ∧ s.ctx.workers.lookup t = some op.process := by
  have hbusy : t ∈ s.busy := by
    by_contra hidle
    rw [h.idle t hidle] at hop
    exact absurd hop (by simp)
  obtain ⟨p, hp, hmap⟩ := h.busy t hbusy
  obtain ⟨o, ho, hproc⟩ := List.map_eq_singleton_iff.mp hmap
  rw [ho, List.mem_singleton] at hop
  subst hop
  exact ⟨hbusy, ho, by rw [hp, hproc]⟩

theorem thread_unique (h : Occupancy s) (hop : op ∈ s.inFlight t) (hop' : op' ∈ s.inFlight t')
    (hproc : op.process = op'.process) : t = t' := by
  apply h.processes.distinct t t' op.process (h.alone hop).2.2
  rw [hproc]
  exact (h.alone hop').2.2

-- No process of a free thread is in flight.
theorem not_inFlight_of_free (h : Occupancy s) {p : Int} (hfree : t ∈ s.ctx.freeThreads)
    (hp : s.ctx.workers.lookup t = some p) (t' : Int) :
    p ∉ (s.inFlight t').map Operation.process := by
  intro hmem
  obtain ⟨o, ho, hproc⟩ := List.mem_map.mp hmem
  obtain ⟨hbusy, -, hlookup⟩ := h.alone ho
  rw [hproc] at hlookup
  rw [h.processes.distinct t' t p hlookup hp] at hbusy
  exact (mem_busy.mp hbusy).2 hfree

end Occupancy

end Runner

end Jepsen
