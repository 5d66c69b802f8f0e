import Jepsen.Runner.Dispatch

/-!
# The identity of processes

A client thread takes a new process exactly when an operation of it completes with `:info`.  The new
process is the next larger one of the thread's residue class, so that the old one never comes back.
-/

namespace Jepsen

open Library Context GeneratorFactory

/-- Process `p` is over: whoever runs a process of its residue class runs a larger one. -/
def Past (n : Nat) (ws : Workers) (p : Int) : Prop :=
  ∀ t q, t ≠ kNemesisProcess → ws.lookup t = some q → q % n = p % n → p < q

theorem Past.rename {n : Nat} {ws : Workers} {t p r : Int} (hr : Past n ws r)
    (ht : t ≠ kNemesisProcess) (hp : ws.lookup t = some p) : Past n (ws.insert t (p + n)) r := by
  intro t' q ht' hq hmod
  by_cases htt : t' = t
  · subst htt
    obtain rfl : p + n = q := by simpa using hq
    have := hr t' p ht hp (by rwa [Int.add_emod_right] at hmod)
    omega
  · rw [AList.lookup_insert_ne htt] at hq
    exact hr t' q ht' hq hmod

theorem Processes.past_renamed {n : Nat} {ws : Workers} (h : Processes n ws) {t p : Int}
    (ht : t ≠ kNemesisProcess) (hp : ws.lookup t = some p) : Past n (ws.insert t (p + n)) p := by
  intro t' q ht' hq hmod
  have hbound := (mem_threads.mp (h.mem_of_lookup hp)).resolve_left ht
  have htt : t' = t := by
    rw [← ((h.rename ht hp).client t' q ht' hq).2, ← (h.client t p ht hp).2, hmod]
  subst htt
  obtain rfl : p + n = q := by simpa using hq
  omega

/-- No free thread runs a process that is over. -/
theorem Processes.ne_of_past {n : Nat} {ws : Workers} (h : Processes n ws) {t p r : Int}
    (hp : ws.lookup t = some p) (hr : Past n ws r) (hrn : r ≠ kNemesisProcess) : p ≠ r := by
  rintro rfl
  have ht : t ≠ kNemesisProcess := fun e ↦ hrn ((h.eq_nemesis_iff hp).mpr e)
  exact absurd (hr t p ht hp rfl) (lt_irrefl p)

/-- The completion of a client's operation with `:info`. -/
def Entry.Retires (e : Entry) : Prop :=
  e.kind = .completion ∧ e.op.type = .kInfo ∧ e.op.process ≠ kNemesisProcess

namespace Runner

/-- What a step does to the workers and the history. -/
inductive Records (s : Runner) (a : Action) (s' : Runner) : Prop
  | silent (hworkers : s'.ctx.workers = s.ctx.workers) (hhist : s'.history = s.history)
  | dispatched {t : Int} {op : Operation} (hp : s.ctx.workers.lookup t = some op.process)
      (hworkers : s'.ctx.workers = s.ctx.workers)
      (hhist : s'.history = s.history ++ [⟨.dispatch, op⟩])
  | completed {op : Operation} (hhist : s'.history = s.history ++ [⟨.completion, op⟩])
      (hworkers : s'.ctx.workers = s.ctx.workers)
      (hinfo : ¬ (op.process ≠ kNemesisProcess ∧ op.type = .kInfo))
  | retired {t time : Int} {op : Operation} {rest : List Operation} (ha : a = .complete t time)
      (hcomp : (s.worker t).completions = op :: rest)
      (hinfo : op.process ≠ kNemesisProcess ∧ op.type = .kInfo) (ht : t ≠ kNemesisProcess)
      (hp : s.ctx.workers.lookup t = some op.process)
      (hworkers : s'.ctx.workers = s.ctx.workers.insert t (op.process + s.concurrency))
      (hhist : s'.history = s.history ++ [⟨.completion, { op with time := time }⟩])

variable {s s' : Runner} {a : Action}

theorem step_records (h : s.Occupancy) (hfresh : s.FreshDispatch a) (hs : s.step a = some s') :
    Records s a s' := by
  cases step_moves hs with
  | work => exact .silent rfl rfl
  | discard => exact .silent rfl rfl
  | exit => exact .silent rfl rfl
  | dispatch hflag hask hreal =>
    exact .dispatched (h.thread_of_dispatch hfresh hask hreal).2 rfl rfl
  | @complete t time op rest generator hflag hcomp hupd =>
    obtain ⟨-, hp, -⟩ := h.of_completion hcomp
    -- `:info` of a client is the one completion that renames the process of the thread.
    by_cases hinfo : op.process ≠ kNemesisProcess ∧ op.type = .kInfo
    · have ht : t ≠ kNemesisProcess := fun e ↦ hinfo.1 ((h.processes.eq_nemesis_iff hp).mpr e)
      refine .retired rfl hcomp hinfo ht hp ?_ rfl
      dsimp only
      rw [if_pos hinfo, h.thread_of_completion hcomp, h.processes.nextProcess_eq ht hp]
    · refine .completed rfl ?_ hinfo
      dsimp only
      rw [if_neg hinfo]
      rfl

/-- A process that has retired is over, and was not dispatched since. -/
structure Retirement (s : Runner) : Prop where
  past : ∀ e ∈ s.history, e.Retires → Past s.concurrency s.ctx.workers e.op.process
  fresh : s.history.Pairwise fun e d ↦
    e.Retires → d.kind = .dispatch → d.op.process ≠ e.op.process

/-- A new entry that is no dispatch of a retired process keeps the order of the others. -/
theorem Retirement.pairwise_snoc (h : s.Retirement) {e : Entry}
    (he : ∀ d ∈ s.history, d.Retires → e.kind = .dispatch → e.op.process ≠ d.op.process) :
    (s.history ++ [e]).Pairwise fun e d ↦
      e.Retires → d.kind = .dispatch → d.op.process ≠ e.op.process :=
  List.pairwise_append.mpr ⟨h.fresh, List.pairwise_singleton _ _, fun d hd e' he' ↦ by
    rw [List.mem_singleton.mp he']
    exact he d hd⟩

theorem Retirement.step (h : s.Retirement) (hocc : s.Occupancy) (hfresh : s.FreshDispatch a)
    (hs : s.step a = some s') : s'.Retirement := by
  have hn := step_concurrency hs
  cases step_records hocc hfresh hs with
  | silent hworkers hhist =>
    refine ⟨?_, ?_⟩
    · rw [hhist, hworkers, hn]
      exact h.past
    · rw [hhist]
      exact h.fresh
  | @dispatched t op hp hworkers hhist =>
    refine ⟨?_, ?_⟩
    · rw [hhist, hworkers, hn]
      refine List.forall_mem_append.mpr ⟨h.past, fun e he hret ↦ ?_⟩
      rw [List.mem_singleton.mp he] at hret
      exact absurd hret.1 (by simp)
    · rw [hhist]
      exact h.pairwise_snoc fun d hd hret _ ↦
        hocc.processes.ne_of_past hp (h.past d hd hret) hret.2.2
  | @completed op hhist hworkers hinfo =>
    refine ⟨?_, ?_⟩
    · rw [hhist, hworkers, hn]
      refine List.forall_mem_append.mpr ⟨h.past, fun e he hret ↦ ?_⟩
      rw [List.mem_singleton.mp he] at hret
      exact absurd ⟨hret.2.2, hret.2.1⟩ hinfo
    · rw [hhist]
      exact h.pairwise_snoc fun d hd hret hdispatch ↦ absurd hdispatch (by simp)
  -- A retired process is past for its thread, and a renamed thread never comes back to it.
  | @retired t time op rest ha hcomp hinfo ht hp hworkers hhist =>
    refine ⟨?_, ?_⟩
    · rw [hhist, hworkers, hn]
      refine List.forall_mem_append.mpr ⟨fun e he hret ↦ (h.past e he hret).rename ht hp, ?_⟩
      intro e he _
      rw [List.mem_singleton.mp he]
      exact hocc.processes.past_renamed ht hp
    · rw [hhist]
      exact h.pairwise_snoc fun d hd hret hdispatch ↦ absurd hdispatch (by simp)

theorem retirement_of_reachable {n : Nat} {g : GeneratorPtr} {time : Int}
    (hg : AllLeaves ProcessUnset [] g) (h : Reachable Step (start n g time) s) :
    s.Invariant ProcessUnset n ∧ s.Retirement := by
  have hstart : (start n g time).Retirement := ⟨fun e he ↦ absurd he (by simp [start]), .nil⟩
  refine h.invariant (P := fun s ↦ s.Invariant ProcessUnset n ∧ s.Retirement)
    ⟨.start hg n time, hstart⟩ fun s a s' hs hinv ↦ ⟨hinv.1.step (fun _ _ ↦ id) hs, ?_⟩
  exact hinv.2.step hinv.1.occupancy (hinv.1.freshDispatch (fun _ _ ↦ id) a) hs

/-- Threads and processes determine each other, a client's process tells its thread, a retired
process does not come back, and only a client's `:info` changes the process of a thread. -/
theorem process_identity (n : Nat) (g : GeneratorPtr) (time : Int) (s : Runner)
    (hg : AllLeaves ProcessUnset [] g) (h : Reachable Step (start n g time) s) :
    (∀ t, t ∈ s.ctx.workers ↔ t ∈ threads n) ∧
    (∀ t t' p, s.ctx.workers.lookup t = some p → s.ctx.workers.lookup t' = some p → t = t') ∧
    (∀ t p, s.ctx.workers.lookup t = some p → s.ctx.processToThread p = t ∧
      if t = kNemesisProcess then p = kNemesisProcess else 0 ≤ p ∧ p % n = t) ∧
    (s.history.Pairwise fun e d ↦ e.kind = .completion → e.op.type = .kInfo →
      e.op.process ≠ kNemesisProcess → d.kind = .dispatch → d.op.process ≠ e.op.process) ∧
    (∀ a s' t, Step s a s' → s'.ctx.workers.lookup t ≠ s.ctx.workers.lookup t →
      ∃ now op rest, a = .complete t now ∧ (s.worker t).completions = op :: rest ∧
        op.type = .kInfo ∧ op.process ≠ kNemesisProcess) := by
  obtain ⟨⟨rfl, hocc, hleaves⟩, hret⟩ := retirement_of_reachable hg h
  refine ⟨hocc.processes.keys, hocc.processes.distinct, fun t p hp ↦ ?_, ?_, ?_⟩
  · refine ⟨hocc.processes.threadOf hp, ?_⟩
    split
    · rename_i ht
      exact (hocc.processes.eq_nemesis_iff hp).mpr ht
    · rename_i ht
      exact hocc.processes.client t p ht hp
  · exact hret.fresh.imp fun h hcompletion hinfo hclient ↦ h ⟨hcompletion, hinfo, hclient⟩
  -- Only the case that retires a process changes the table.
  · intro a s' t hs hne
    have hfresh := freshDispatch_of_allLeaves hocc hleaves a
    cases step_records hocc hfresh hs with
    | silent hworkers => exact absurd (by rw [hworkers]) hne
    | dispatched _ hworkers => exact absurd (by rw [hworkers]) hne
    | completed _ hworkers => exact absurd (by rw [hworkers]) hne
    | @retired t' now op rest ha hcomp hinfo ht hp hworkers hhist =>
      obtain rfl : t = t' := by
        by_contra htt
        exact hne (by rw [hworkers, AList.lookup_insert_ne htt])
      exact ⟨now, op, rest, ha, hcomp, hinfo.2, hinfo.1⟩

/-- A read of the only client completes with `:info`, and the client goes on under process 1. -/
theorem process_identity_info : ∃ s,
    (start 1 (setGenerator (createGenerator [OperationFactory.read .null])) 0).run
      [.ask 0 (fun _ ↦ 1) 6, .take 0, .finish 0 { type := .kInfo }, .enqueue 0, .complete 0 5] =
        some s ∧ s.ctx.workers.lookup 0 = some 1 ∧ s.ctx.processToThread 1 = 0 := by
  have hleaves : AllLeaves ProcessUnset []
      (setGenerator (createGenerator [OperationFactory.read .null])) :=
    .validate (.list (by simpa [OperationFactory.read] using .operation (.inl rfl)))
  have hrun : ((start 1 (setGenerator (createGenerator [OperationFactory.read .null])) 0).run
      [.ask 0 (fun _ ↦ 1) 6, .take 0, .finish 0 { type := .kInfo }, .enqueue 0, .complete 0 5]).map
        (fun s ↦ s.ctx.workers.lookup 0) = some (some 1) := by
    decide +kernel
  obtain ⟨s, hs, hp⟩ := Option.map_eq_some_iff.mp hrun
  obtain ⟨-, -, hthread, -⟩ := process_identity 1 _ 0 s hleaves (reachable_of_run hs)
  exact ⟨s, hs, hp, (hthread 0 1 hp).1⟩

end Runner

end Jepsen
