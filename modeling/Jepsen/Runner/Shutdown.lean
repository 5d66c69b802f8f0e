import Jepsen.Runner.Steps

/-!
# The end of the loop

The loop ends with an exit operation in every inbox, and `runCases` returns when every worker has
left its own loop.  A worker that was busy or had stopped at that moment, or an exit operation in an
inbox before, would keep it from returning.
-/

namespace Jepsen

open Library Context GeneratorFactory

/-- A worker once the loop has ended: the exit operation is all that it has, or it has stopped. -/
def WorkerState.Leaving (w : WorkerState) : Prop :=
  w = ⟨[OperationFactory.exit], none, [], true⟩ ∨ w = ⟨[], none, [], false⟩

namespace Runner

variable {s s' : Runner} {a : Action} {t : Int}

structure Shutdown (s : Runner) : Prop where
  awake : s.flag = true → ∀ t, (s.worker t).running = true ∧
    ∀ op ∈ (s.worker t).inbox, op.type ≠ .kExit
  ended : s.flag = false → s.outstanding ≤ 0
  leaving : s.flag = false → ∀ t ∈ threads s.concurrency, (s.worker t).Leaving

theorem shutdown_start (n : Nat) (g : GeneratorPtr) (time : Int) : (start n g time).Shutdown where
  awake _ _ := ⟨rfl, fun _ hop ↦ absurd hop (by simp [start])⟩
  ended h := absurd h (by simp [start])
  leaving h := absurd h (by simp [start])

namespace Shutdown

theorem inFlight_of_ended (hocc : s.Occupancy) (hout : s.outstanding ≤ 0) (t : Int) :
    s.inFlight t = [] := by
  have hcard : s.busy.card = 0 := by
    have := hocc.outstanding
    omega
  exact hocc.idle t (by simp [Finset.card_eq_zero.mp hcard])

-- A worker with nothing in flight and no exit operation is empty.
theorem empty_of_idle {w : WorkerState} (hrunning : w.running = true)
    (hinbox : ∀ op ∈ w.inbox, op.type ≠ .kExit)
    (hidle : w.completions ++ (w.job.map Job.op).toList ++
      w.inbox.filter (fun op ↦ op.type ≠ .kExit) = []) : w = ⟨[], none, [], true⟩ := by
  rw [List.append_eq_nil_iff, List.append_eq_nil_iff] at hidle
  obtain ⟨⟨hcompletions, hjob⟩, hfilter⟩ := hidle
  have hnil : w.inbox = [] := by
    rw [List.filter_eq_self.mpr fun op hop ↦ decide_eq_true (hinbox op hop)] at hfilter
    exact hfilter
  cases w with
  | mk inbox job completions running =>
    simp only [Option.toList_eq_nil_iff, Option.map_eq_none_iff] at hjob
    subst hcompletions hjob hnil hrunning
    rfl

theorem job_of_ended (hocc : s.Occupancy) (h : s.Shutdown) (hflag : s.flag = false) (t : Int) :
    (s.worker t).job = none := by
  have hidle := inFlight_of_ended hocc (h.ended hflag) t
  simp only [inFlight, List.append_eq_nil_iff, Option.toList_eq_nil_iff,
    Option.map_eq_none_iff] at hidle
  exact hidle.1.2

/-- After the loop a worker that takes an operation takes the exit operation, and stops. -/
theorem take_of_ended (h : s.Shutdown) (hflag : s.flag = false) (hs : s.take t = some s') :
    t ∈ threads s.concurrency ∧ (s.worker t).running = true ∧
      s' = s.setWorker t ⟨[], none, [], false⟩ := by
  obtain ⟨ht, hrunning⟩ := take_guard hs
  obtain ⟨op, inbox, hinbox, -, heq⟩ := take_eq hs
  refine ⟨ht, hrunning, ?_⟩
  cases h.leaving hflag t ht with
  | inl hw =>
    rw [hw] at hinbox heq
    obtain ⟨rfl, rfl⟩ := List.cons.inj hinbox
    rw [heq]
    rfl
  | inr hw =>
    rw [hw] at hrunning
    exact absurd hrunning (by simp)

/-- What a step does to a worker while the loop runs. -/
theorem awake_setWorker {w : WorkerState}
    (h : ∀ t, (s.worker t).running = true ∧ ∀ op ∈ (s.worker t).inbox, op.type ≠ .kExit)
    (hw : w.running = true ∧ ∀ op ∈ w.inbox, op.type ≠ .kExit) (t' : Int) :
    ((s.setWorker t w).worker t').running = true ∧
      ∀ op ∈ ((s.setWorker t w).worker t').inbox, op.type ≠ .kExit := by
  by_cases htt : t' = t
  · rw [htt, setWorker_worker]
    exact hw
  · rw [setWorker_other htt]
    exact h t'

-- While the loop runs, only the condition on the workers is to be kept.
theorem of_looping (hflag : s.flag = true)
    (h : ∀ t, (s.worker t).running = true ∧ ∀ op ∈ (s.worker t).inbox, op.type ≠ .kExit) :
    s.Shutdown where
  awake _ := h
  ended hend := absurd (hflag.symm.trans hend) (by simp)
  leaving hend := absurd (hflag.symm.trans hend) (by simp)

theorem take (h : s.Shutdown) (hs : s.take t = some s') : s'.Shutdown := by
  cases hflag : s.flag with
  | true =>
    obtain ⟨op, inbox, hinbox, -, heq⟩ := take_eq hs
    obtain ⟨hrunning, hops⟩ := h.awake hflag t
    rw [hinbox, List.forall_mem_cons] at hops
    rw [if_neg hops.1] at heq
    subst heq
    exact of_looping hflag (awake_setWorker (h.awake hflag) ⟨hrunning, hops.2⟩)
  | false =>
    obtain ⟨-, -, heq⟩ := h.take_of_ended hflag hs
    subst heq
    refine ⟨fun hend ↦ absurd (hflag.symm.trans hend) (by simp), h.ended, fun _ t' ht' ↦ ?_⟩
    by_cases htt : t' = t
    · rw [htt, setWorker_worker]
      exact .inr rfl
    · rw [setWorker_other htt]
      exact h.leaving hflag t' ht'

/-- A worker that is at work keeps its inbox, and the loop has not ended. -/
theorem work (h : s.Shutdown) (hocc : s.Occupancy) {job : Job} {w : WorkerState}
    (hjob : (s.worker t).job = some job) (hinbox : w.inbox = (s.worker t).inbox)
    (hrunning : w.running = (s.worker t).running) : (s.setWorker t w).Shutdown := by
  cases hflag : s.flag with
  | true =>
    refine of_looping hflag (awake_setWorker (h.awake hflag) ?_)
    rw [hinbox, hrunning]
    exact h.awake hflag t
  | false => exact absurd (hjob.symm.trans (h.job_of_ended hocc hflag t)) (by simp)

theorem step (h : s.Shutdown) (hocc : s.Occupancy) (hs : s.step a = some s') : s'.Shutdown := by
  cases a with
  | take t => exact h.take hs
  | finish t ret =>
    obtain ⟨op, hjob, heq⟩ := finish_eq hs
    subst heq
    exact h.work hocc hjob rfl rfl
  | enqueue t =>
    obtain ⟨op, hjob, heq⟩ := enqueue_eq hs
    subst heq
    exact h.work hocc hjob rfl rfl
  | complete t time =>
    obtain ⟨op, hc⟩ := complete_eq hs
    obtain ⟨rest, -, hworker⟩ := hc.completions
    refine of_looping hc.flag ?_
    rw [hworker]
    exact awake_setWorker (h.awake hc.looping) (h.awake hc.looping t)
  | ask time draws fuel =>
    obtain ⟨hflag, hasked⟩ := ask_eq hs
    cases hasked with
    | idle hflag' _ _ _ hworker =>
      refine of_looping hflag' ?_
      rw [hworker]
      exact h.awake hflag
    | @dispatch ans draws' t hflag' _ hreal _ _ _ _ hworker =>
      refine of_looping hflag' ?_
      rw [hworker]
      obtain ⟨hrunning, hops⟩ := h.awake hflag t
      refine awake_setWorker (h.awake hflag) ⟨hrunning, fun op hop ↦ ?_⟩
      cases List.mem_append.mp hop with
      | inl hop => exact hops op hop
      | inr hop =>
        rw [List.mem_singleton.mp hop]
        exact hreal.2.1
    | exit hout hout' _ hn _ hworker hflag' =>
      refine ⟨fun hend ↦ absurd (hflag'.symm.trans hend) (by simp),
        fun _ ↦ by omega, fun _ t ht ↦ ?_⟩
      rw [hn] at ht
      obtain ⟨hrunning, hops⟩ := h.awake hflag t
      have hempty := empty_of_idle hrunning hops (inFlight_of_ended hocc hout t)
      have hexit : s'.worker t =
          { s.worker t with inbox := (s.worker t).inbox ++ [OperationFactory.exit] } := by
        rw [hworker]
        exact if_pos ht
      rw [hexit, hempty]
      exact .inl rfl

end Shutdown

theorem shutdown_of_reachable {n : Nat} {g : GeneratorPtr} {time : Int}
    (hg : AllLeaves ProcessUnset [] g) (h : Reachable Step (start n g time) s) :
    s.Invariant ProcessUnset n ∧ s.Shutdown := by
  refine h.invariant (P := fun s ↦ s.Invariant ProcessUnset n ∧ s.Shutdown)
    ⟨.start hg n time, shutdown_start n g time⟩ fun s a s' hs hinv ↦ ?_
  exact ⟨hinv.1.step (fun _ _ ↦ id) hs, hinv.2.step hinv.1.occupancy hs⟩

/-! ## The workers that are left -/

/-- The workers that have not left their loop. -/
def awake (s : Runner) : Finset Int := (threads s.concurrency).filter fun t ↦ (s.worker t).running

theorem mem_awake : t ∈ s.awake ↔ t ∈ threads s.concurrency ∧ (s.worker t).running = true :=
  Finset.mem_filter

-- One worker less.
theorem awake_stop {w : WorkerState} (hw : w.running = false) :
    (s.setWorker t w).awake = s.awake.erase t := by
  ext t'
  rw [Finset.mem_erase, mem_awake, mem_awake]
  show t' ∈ threads s.concurrency ∧ _ ↔ _
  by_cases htt : t' = t
  · rw [htt, setWorker_worker]
    simp [hw]
  · rw [setWorker_other htt]
    simp [htt]

/-- The only steps after the loop: a worker takes the exit operation. -/
theorem step_of_ended (hocc : s.Occupancy) (h : s.Shutdown) (hflag : s.flag = false)
    (hs : s.step a = some s') : ∃ t ∈ s.awake, a = .take t ∧
      s' = s.setWorker t ⟨[], none, [], false⟩ ∧ s'.awake = s.awake.erase t := by
  cases a with
  | take t =>
    obtain ⟨ht, hrunning, heq⟩ := h.take_of_ended hflag hs
    refine ⟨t, mem_awake.mpr ⟨ht, hrunning⟩, rfl, heq, ?_⟩
    rw [heq]
    exact awake_stop rfl
  | finish t ret =>
    obtain ⟨op, hjob, -⟩ := finish_eq hs
    exact absurd (hjob.symm.trans (h.job_of_ended hocc hflag t)) (by simp)
  | enqueue t =>
    obtain ⟨op, hjob, -⟩ := enqueue_eq hs
    exact absurd (hjob.symm.trans (h.job_of_ended hocc hflag t)) (by simp)
  | complete t time =>
    obtain ⟨op, hc⟩ := complete_eq hs
    exact absurd (hflag.symm.trans hc.looping) (by simp)
  | ask time draws fuel => exact absurd (hflag.symm.trans (ask_eq hs).1) (by simp)

theorem take_of_awake (h : s.Shutdown) (hflag : s.flag = false) (ht : t ∈ s.awake) :
    s.take t = some (s.setWorker t ⟨[], none, [], false⟩) := by
  obtain ⟨hmem, hrunning⟩ := mem_awake.mp ht
  cases h.leaving hflag t hmem with
  | inl hw => simp [Runner.take, hw, hmem, OperationFactory.exit]
  | inr hw =>
    rw [hw] at hrunning
    exact absurd hrunning (by simp)

end Runner

end Jepsen
