import Jepsen.Library.Calls
import Jepsen.Runner.Dispatch

/-!
# The history

The runner refines a pool of threads that call and return: a dispatch is a call of the free thread
that runs the operation's process, a completion is a return, and every other step leaves the pool
alone.  The history is the log of the pool, so it inherits the shape of its log.
-/

namespace Jepsen

open Library Context GeneratorFactory

namespace Runner

def reading : Calls.Reading Entry Int where
  proc e := e.op.process
  isCall e := e.kind = .dispatch

/-- The pool that the runner's threads form. -/
def pool (s : Runner) : Calls.Pool Int Int Entry where
  owner t := s.ctx.workers.lookup t
  busy := s.busy
  log := s.history

variable {s s' : Runner} {a : Action}

theorem ret_of_complete (h : s.Occupancy) (h' : s'.Occupancy) {t time : Int} {op : Operation}
    {rest : List Operation} (hcomp : (s.worker t).completions = op :: rest)
    (hbusy : s'.busy = s.busy.erase t)
    (hother : ∀ t' ≠ t, s'.ctx.workers.lookup t' = s.ctx.workers.lookup t')
    (hhist : s'.history = s.history ++ [⟨.completion, { op with time := time }⟩]) :
    Calls.Step reading s.pool t s'.pool := by
  obtain ⟨ht, hp, -⟩ := h.of_completion hcomp
  have hpool : s'.pool = ⟨fun t ↦ s'.ctx.workers.lookup t, s.busy.erase t,
      s.history ++ [⟨.completion, { op with time := time }⟩]⟩ := by
    rw [pool, hbusy, hhist]
  rw [hpool]
  exact .ret ht hp rfl hother h'.processes.distinct

theorem call_of_dispatch {t : Int} {op : Operation} (ht : t ∈ s.ctx.freeThreads)
    (hp : s.ctx.workers.lookup t = some op.process) (hbusy : s'.busy = insert t s.busy)
    (hworkers : s'.ctx.workers = s.ctx.workers)
    (hhist : s'.history = s.history ++ [⟨.dispatch, op⟩]) :
    Calls.Step reading s.pool t s'.pool := by
  have hpool : s'.pool = { s.pool with
      busy := insert t s.busy, log := s.history ++ [⟨.dispatch, op⟩] } := by
    rw [pool, hbusy, hhist, hworkers]
    rfl
  rw [hpool]
  exact .call (fun hb ↦ (mem_busy.mp hb).2 ht) hp rfl

/-- Every step of the runner is a step of its pool, or none. -/
theorem step_pool (h : s.Occupancy) (hfresh : s.FreshDispatch a) (hs : s.step a = some s') :
    ∃ ts, Run (Calls.Step reading) s.pool ts s'.pool := by
  have h' := h.step hfresh hs
  -- Only a completion and a dispatch are steps of the pool; the others leave it as it is.
  cases step_moves hs with
  | work => exact ⟨[], .nil _⟩
  | discard => exact ⟨[], .nil _⟩
  | exit => exact ⟨[], .nil _⟩
  | @complete t time op rest generator hflag hcomp hupd =>
    have hthread := h.thread_of_completion hcomp
    refine ⟨[t], .single (ret_of_complete h h' hcomp ?_ (fun t' hne ↦ ?_) rfl)⟩
    · refine Occupancy.busy_release rfl ?_
      rw [← hthread]
      split <;> rfl
    · dsimp only
      rw [hthread]
      split
      · exact AList.lookup_insert_ne hne
      · rfl
  | @dispatch time draws draws' fuel ans t generator hflag hask hreal htime ht hmem hupd =>
    obtain ⟨hfree, hp⟩ := h.thread_of_dispatch hfresh hask hreal
    rw [← ht] at hfree hp
    refine ⟨[t], .single (call_of_dispatch hfree hp ?_ rfl rfl)⟩
    refine Occupancy.busy_engage rfl (h.free hfree) ?_
    rw [ht]
    rfl

/-- The runner refines its pool. -/
theorem pool_reachable {n : Nat} {g : GeneratorPtr} {time : Int} (hg : AllLeaves ProcessUnset [] g)
    (h : Reachable Step (start n g time) s) :
    Reachable (Calls.Step reading) (start n g time).pool s.pool := by
  have hstep (s : Runner) (a : Action) (s' : Runner) (u : Calls.Pool Int Int Entry)
      (hs : Step s a s') (hu : s.Invariant ProcessUnset n ∧ u = s.pool) :
      ∃ ts u', Run (Calls.Step reading) u ts u' ∧
        (s'.Invariant ProcessUnset n ∧ u' = s'.pool) := by
    obtain ⟨hinv, rfl⟩ := hu
    obtain ⟨ts, hts⟩ := step_pool hinv.occupancy (hinv.freshDispatch (fun _ _ ↦ id) a) hs
    exact ⟨ts, s'.pool, hts, hinv.step (fun _ _ ↦ id) hs, rfl⟩
  obtain ⟨as, hrun⟩ := h
  obtain ⟨ts, _, hpool, -, rfl⟩ :=
    hrun.simulates hstep ⟨.start hg n time, rfl⟩
  exact ⟨ts, hpool⟩

theorem ordered_of_reachable {n : Nat} {g : GeneratorPtr} {time : Int}
    (hg : AllLeaves ProcessUnset [] g) (h : Reachable Step (start n g time) s) :
    Calls.Ordered reading s.pool := by
  refine (pool_reachable hg h).invariant ?_ fun _ _ _ hs hord ↦ hord.step hs
  have hbusy : (start n g time).busy = ∅ := Finset.sdiff_self _
  have hpool : (start n g time).pool = ⟨fun t ↦ (initWorkers n).lookup t, ∅, []⟩ := by
    rw [pool, hbusy]
    rfl
  rw [hpool]
  exact .init (Processes.init n).distinct

/-- The loop ends only with nothing outstanding. -/
theorem outstanding_of_exit {n : Nat} {g : GeneratorPtr} {time : Int}
    (h : Reachable Step (start n g time) s) : s.flag = false → s.outstanding ≤ 0 := by
  refine h.invariant (P := fun s ↦ s.flag = false → s.outstanding ≤ 0) (fun _ ↦ le_rfl)
    fun s a s' hs hinv ↦ ?_
  cases step_moves hs with
  | work => exact hinv
  | discard => exact hinv
  | complete hflag => exact fun hexit ↦ absurd (hflag.symm.trans hexit) (by simp)
  | exit hflag hask hend hout => exact fun _ ↦ hout
  | dispatch hflag => exact fun hexit ↦ absurd (hflag.symm.trans hexit) (by simp)

/-- The history of a process alternates between dispatches and completions, what is dispatched and
not completed is outstanding, and after the loop every dispatch has its completion. -/
theorem history_wellFormed (n : Nat) (g : GeneratorPtr) (time : Int) (s : Runner)
    (hg : AllLeaves ProcessUnset [] g) (h : Reachable Step (start n g time) s) :
    (∀ p, let own := s.history.filter fun e ↦ e.op.process = p
      ∀ i (hi : i < own.length), own[i].kind = if i % 2 = 0 then .dispatch else .completion) ∧
    (s.history.countP (fun e ↦ e.kind = .dispatch) : Int) -
      s.history.countP (fun e ↦ e.kind = .completion) = s.outstanding ∧
    (s.flag = false → ∀ pre e post, s.history = pre ++ e :: post → e.kind = .dispatch →
      ∃ mid r post', post = mid ++ r :: post' ∧ r.kind = .completion ∧
        r.op.process = e.op.process ∧ ∀ x ∈ mid, x.op.process ≠ e.op.process) := by
  have hord := ordered_of_reachable hg h
  have hocc := (invariant_of_reachable (fun _ _ ↦ id) hg h).occupancy
  have hkind (e : Entry) : e.kind = .completion ↔ reading.isCall e = false := by
    cases he : e.kind <;> simp [reading, he]
  refine ⟨fun p i hi ↦ ?_, ?_, fun hexit pre e post hsplit he ↦ ?_⟩
  -- Along one process, calls and returns alternate.
  · have halt : reading.isCall (s.history.filter fun e ↦ e.op.process = p)[i] = (i % 2 == 0) :=
      hord.alternates p i hi
    split
    · rename_i heven
      simpa [reading, heven] using halt
    · rename_i hodd
      exact (hkind _).mpr (halt.trans (beq_eq_false_iff_ne.mpr hodd))
  -- What is called and not returned is what is outstanding.
  · have hcount := hord.count
    have hcompleted : s.history.countP (fun e ↦ e.kind = .completion) =
        s.pool.log.countP (fun e ↦ !reading.isCall e) :=
      List.countP_congr fun e _ ↦ by simp [hkind]
    have hbusy : (s.pool.busy.card : Int) = s.outstanding := hocc.outstanding.symm
    have hdispatched : s.history.countP (fun e ↦ e.kind = .dispatch) =
        s.pool.log.countP reading.isCall := rfl
    omega
  -- The runner exits only with nothing outstanding, so that every call has its return.
  · have hidle : s.pool.busy = ∅ := by
      have hout := outstanding_of_exit h hexit
      rw [hocc.outstanding] at hout
      exact Finset.card_eq_zero.mp (Nat.le_zero.mp (Int.ofNat_le.mp hout))
    obtain ⟨mid, r, post', hpost, hr, hproc, hmid⟩ :=
      hord.matched hidle hsplit (by simpa [reading] using he)
    exact ⟨mid, r, post', hpost, (hkind r).mpr hr, hproc, hmid⟩

/-- The run of one read by one client, to its end. -/
theorem history_wellFormed_read : ∃ s,
    (start 1 (setGenerator (createGenerator [OperationFactory.read .null])) 0).run
      [.ask 0 (fun _ ↦ 1) 6, .take 0, .finish 0 { type := .kSuccess }, .enqueue 0, .complete 0 5,
        .ask 6 (fun _ ↦ 1) 6] = some s ∧ s.flag = false ∧ s.history.length = 2 ∧
    (s.history.countP (fun e ↦ e.kind = .dispatch) : Int) -
      s.history.countP (fun e ↦ e.kind = .completion) = s.outstanding := by
  have hleaves : AllLeaves ProcessUnset []
      (setGenerator (createGenerator [OperationFactory.read .null])) :=
    .validate (.list (by simpa [OperationFactory.read] using .operation (.inl rfl)))
  have hrun : ((start 1 (setGenerator (createGenerator [OperationFactory.read .null])) 0).run
      [.ask 0 (fun _ ↦ 1) 6, .take 0, .finish 0 { type := .kSuccess }, .enqueue 0, .complete 0 5,
        .ask 6 (fun _ ↦ 1) 6]).map (fun s ↦ (s.flag, s.history.length)) = some (false, 2) := by
    decide +kernel
  obtain ⟨s, hs, hend⟩ := Option.map_eq_some_iff.mp hrun
  obtain ⟨hflag, hlen⟩ := Prod.mk.inj hend
  exact ⟨s, hs, hflag, hlen, (history_wellFormed 1 _ 0 s hleaves (reachable_of_run hs)).2.1⟩

end Runner

end Jepsen
