import Jepsen.Runner.Moves
import Jepsen.Runner.Processes

/-!
# Who is busy

The invariant of the loop of `runCases`: a thread is free exactly when no operation for it is in
flight, a busy thread has one, of the process that the thread runs, and `outstanding` counts the
busy threads.  Every step keeps it in which an operation is dispatched only for the process of a
free thread.
-/

namespace Jepsen

open Library Context

namespace Runner

/-- The threads that are not free. -/
def busy (s : Runner) : Finset Int := threads s.concurrency \ s.ctx.freeThreads

theorem mem_busy {s : Runner} {t : Int} :
    t ∈ s.busy ↔ t ∈ threads s.concurrency ∧ t ∉ s.ctx.freeThreads :=
  Finset.mem_sdiff

structure Occupancy (s : Runner) : Prop where
  processes : Processes s.concurrency s.ctx.workers
  free : s.ctx.freeThreads ⊆ threads s.concurrency
  idle : ∀ t, t ∉ s.busy → s.inFlight t = []
  busy : ∀ t ∈ s.busy, ∃ p, s.ctx.workers.lookup t = some p ∧
    (s.inFlight t).map Operation.process = [p]
  outstanding : s.outstanding = s.busy.card

/-- An operation that the step dispatches carries the process of a free thread. -/
def FreshDispatch (s : Runner) : Action → Prop
  | .ask time draws fuel => ∀ a draws',
      op fuel s.generator (s.askContext time) draws = .ok (a, draws') →
      a.op.type.Dispatchable → ∃ t ∈ s.ctx.freeThreads, s.ctx.workers.lookup t = some a.op.process
  | _ => True

theorem occupancy_start (n : Nat) (g : GeneratorPtr) (time : Int) :
    Occupancy (start n g time) := by
  have hbusy : (start n g time).busy = ∅ := Finset.sdiff_self _
  refine ⟨Processes.init n, Finset.Subset.refl _, fun _ _ ↦ rfl, fun t ht ↦ ?_, ?_⟩
  · exact absurd (hbusy ▸ ht) (by simp)
  · rw [hbusy]
    rfl

namespace Occupancy

variable {s : Runner}

/-- The thread of a completed operation is busy with this operation alone. -/
theorem of_completion (h : Occupancy s) {t : Int} {op : Operation} {rest : List Operation}
    (hcomp : (s.worker t).completions = op :: rest) :
    t ∈ s.busy ∧ s.ctx.workers.lookup t = some op.process ∧ rest = [] ∧
      (s.worker t).job.map Job.op = none ∧
      (s.worker t).inbox.filter (fun op ↦ op.type ≠ .kExit) = [] := by
  have hmem : t ∈ s.busy := by
    by_contra hidle
    have := h.idle t hidle
    simp [inFlight, hcomp] at this
  obtain ⟨p, hp, hmap⟩ := h.busy t hmem
  simp only [inFlight, hcomp, List.cons_append, List.map_cons, List.cons.injEq,
    List.map_eq_nil_iff, List.append_eq_nil_iff, Option.toList_eq_nil_iff] at hmap
  exact ⟨hmem, hmap.1 ▸ hp, hmap.2.1.1, hmap.2.1.2, hmap.2.2⟩

theorem thread_of_completion (h : Occupancy s) {t : Int} {op : Operation} {rest : List Operation}
    (hcomp : (s.worker t).completions = op :: rest) : s.ctx.processToThread op.process = t :=
  h.processes.threadOf (h.of_completion hcomp).2.1

theorem work (h : Occupancy s) {t : Int} {w : WorkerState}
    (hflight : ∀ t', ((s.setWorker t w).inFlight t').map Operation.process =
      (s.inFlight t').map Operation.process) : Occupancy (s.setWorker t w) where
  processes := h.processes
  free := h.free
  idle t' ht' := by
    have := hflight t'
    rw [h.idle t' ht', List.map_nil, List.map_eq_nil_iff] at this
    exact this
  busy t' ht' := by
    obtain ⟨p, hp, hmap⟩ := h.busy t' ht'
    exact ⟨p, hp, (hflight t').trans hmap⟩
  outstanding := h.outstanding

theorem busy_release {s' : Runner} {t : Int} (hn : s'.concurrency = s.concurrency)
    (hfree : s'.ctx.freeThreads = insert t s.ctx.freeThreads) : s'.busy = s.busy.erase t := by
  rw [Runner.busy, Runner.busy, hn, hfree, Finset.sdiff_insert]

theorem busy_engage {s' : Runner} {t : Int} (hn : s'.concurrency = s.concurrency)
    (ht : t ∈ threads s.concurrency) (hfree : s'.ctx.freeThreads = s.ctx.freeThreads.erase t) :
    s'.busy = insert t s.busy := by
  rw [Runner.busy, Runner.busy, hn, hfree, Finset.sdiff_erase ht]

/-- A busy thread becomes free, and only it may run another process afterwards. -/
theorem release (h : Occupancy s) {s' : Runner} {t : Int} (ht : t ∈ s.busy)
    (hn : s'.concurrency = s.concurrency)
    (hfree : s'.ctx.freeThreads = insert t s.ctx.freeThreads)
    (hproc : Processes s.concurrency s'.ctx.workers)
    (hother : ∀ t' ≠ t, s'.ctx.workers.lookup t' = s.ctx.workers.lookup t')
    (hflight : ∀ t', s'.inFlight t' = if t' = t then [] else s.inFlight t')
    (hout : s'.outstanding = s.outstanding - 1) : Occupancy s' where
  processes := by rwa [hn]
  free := by
    rw [hn, hfree]
    exact Finset.insert_subset (mem_busy.mp ht).1 h.free
  idle t' ht' := by
    rw [hflight]
    split
    · rfl
    · rename_i hne
      rw [busy_release hn hfree] at ht'
      exact h.idle t' fun hb ↦ ht' (Finset.mem_erase.mpr ⟨hne, hb⟩)
  busy t' ht' := by
    rw [busy_release hn hfree] at ht'
    obtain ⟨hne, hb⟩ := Finset.mem_erase.mp ht'
    rw [hflight, if_neg hne, hother t' hne]
    exact h.busy t' hb
  outstanding := by
    have hpos : 0 < s.busy.card := Finset.card_pos.mpr ⟨t, ht⟩
    rw [hout, h.outstanding, busy_release hn hfree, Finset.card_erase_of_mem ht]
    omega

/-- A free thread gets an operation of its process. -/
theorem engage (h : Occupancy s) {s' : Runner} {t : Int} {op : Operation}
    (ht : t ∈ s.ctx.freeThreads) (hp : s.ctx.workers.lookup t = some op.process)
    (hn : s'.concurrency = s.concurrency)
    (hfree : s'.ctx.freeThreads = s.ctx.freeThreads.erase t)
    (hworkers : s'.ctx.workers = s.ctx.workers)
    (hflight : ∀ t', s'.inFlight t' = if t' = t then [op] else s.inFlight t')
    (hout : s'.outstanding = s.outstanding + 1) : Occupancy s' where
  processes := by
    rw [hn, hworkers]
    exact h.processes
  free := by
    rw [hn, hfree]
    exact (Finset.erase_subset _ _).trans h.free
  idle t' ht' := by
    rw [busy_engage hn (h.free ht) hfree, Finset.mem_insert, not_or] at ht'
    rw [hflight, if_neg ht'.1]
    exact h.idle t' ht'.2
  busy t' ht' := by
    rw [hflight, hworkers]
    split
    · rename_i htt
      exact ⟨op.process, htt ▸ hp, rfl⟩
    · rename_i hne
      rw [busy_engage hn (h.free ht) hfree] at ht'
      exact h.busy t' ((Finset.mem_insert.mp ht').resolve_left hne)
  outstanding := by
    have hnot : t ∉ s.busy := fun hb ↦ (mem_busy.mp hb).2 ht
    rw [hout, h.outstanding, busy_engage hn (h.free ht) hfree, Finset.card_insert_of_notMem hnot]
    omega

/-- The workers after the completion of `op` is handled. -/
theorem processes_completion (h : Occupancy s) {t : Int} {op : Operation} {rest : List Operation}
    (hcomp : (s.worker t).completions = op :: rest) (htn : op.process ≠ kNemesisProcess) :
    Processes s.concurrency (s.ctx.workers.insert t (s.ctx.nextProcess t)) := by
  obtain ⟨-, hp, -⟩ := h.of_completion hcomp
  have htn' : t ≠ kNemesisProcess := fun e ↦ htn ((h.processes.eq_nemesis_iff hp).mpr e)
  rw [h.processes.nextProcess_eq htn' hp]
  exact h.processes.rename htn' hp

/-- Under the condition on its dispatch, a step dispatches to a free thread that runs the
operation's process. -/
theorem thread_of_dispatch (h : Occupancy s) {time : Int} {draws draws' : Draws} {fuel : Nat}
    {a : Answer} (hfresh : s.FreshDispatch (.ask time draws fuel))
    (hask : op fuel s.generator (s.askContext time) draws = .ok (a, draws'))
    (hreal : a.op.type.Dispatchable) :
    s.ctx.processToThread a.op.process ∈ s.ctx.freeThreads ∧
      s.ctx.workers.lookup (s.ctx.processToThread a.op.process) = some a.op.process := by
  obtain ⟨t, ht, hp⟩ := hfresh a draws' hask hreal
  rw [h.processes.threadOf hp]
  exact ⟨ht, hp⟩

theorem step {s' : Runner} {a : Action} (h : Occupancy s) (hfresh : s.FreshDispatch a)
    (hs : s.step a = some s') : Occupancy s' := by
  cases step_moves hs with
  | work hflight => exact h.work hflight
  | @complete t time op rest generator hflag hcomp hupd =>
    obtain ⟨ht, hp, rfl, hjob, hinbox⟩ := h.of_completion hcomp
    have hthread := h.thread_of_completion hcomp
    -- The worker had this completion and nothing else in flight.
    have hflight (t' : Int) : (s.setWorker t { s.worker t with completions := [] }).inFlight t' =
        if t' = t then [] else s.inFlight t' := by
      rw [inFlight_setWorker, hjob, hinbox]
      rfl
    rw [hthread]
    split
    · rename_i hinfo
      exact h.release ht rfl (by rw [← hthread]; rfl) (h.processes_completion hcomp hinfo.1)
        (fun t' hne ↦ AList.lookup_insert_ne hne) hflight rfl
    · exact h.release ht rfl (by rw [← hthread]; rfl) h.processes (fun _ _ ↦ rfl) hflight rfl
  | discard hflag hask hwhy => exact ⟨h.processes, h.free, h.idle, h.busy, h.outstanding⟩
  -- `exit` puts an `:exit` into every inbox, which is not in flight.
  | @exit time draws draws' fuel a hflag hask hend hout =>
    have hflight (t' : Int) :
        { s with ctx := s.askContext time, generator := a.self }.exit.inFlight t' =
          s.inFlight t' := by
      simp only [inFlight, Runner.exit]
      split <;> simp [OperationFactory.exit]
    refine ⟨h.processes, h.free, fun t ht ↦ ?_, fun t ht ↦ ?_, h.outstanding⟩
    · rw [hflight]
      exact h.idle t ht
    · rw [hflight]
      exact h.busy t ht
  | @dispatch time draws draws' fuel a t generator hflag hask hreal htime ht hmem hupd =>
    obtain ⟨hfree, hp⟩ := h.thread_of_dispatch hfresh hask hreal
    rw [← ht] at hfree hp
    -- The thread is free, so the new operation is its only one.
    have hidle := h.idle t fun hb ↦ (mem_busy.mp hb).2 hfree
    refine h.engage hfree hp rfl (by rw [ht]; rfl) rfl (fun t' ↦ ?_) rfl
    change (s.setWorker t _).inFlight t' = _
    rw [inFlight_setWorker]
    split
    · simp only [inFlight, List.append_eq_nil_iff] at hidle
      rw [hidle.1.1, hidle.1.2, List.filter_append, hidle.2,
        List.filter_singleton, decide_eq_true hreal.2.1]
      rfl
    · rfl

end Occupancy

end Runner

end Jepsen
