import Jepsen.Runner.Dispatch
import Jepsen.Runner.Steps

/-!
# The log of the runner

`runCases` and its workers print every operation that goes through their hands, and an operation
with an integer of more than 32 bits does not print: the exception leaves the loop that logs it.
`LoggedStep` has the steps whose log lines print.  Where the leaves of the generator print and the
clients answer with what prints, so does all that the runner holds.
-/

namespace Jepsen

open Library Context

/-- The operations in the hands of a worker, the exit operation among them. -/
def WorkerState.hands (w : WorkerState) : List Operation :=
  w.inbox ++ (w.job.map Job.op).toList ++ w.completions

/-- The operation of a leaf prints. -/
def Printed : LeafProperty := fun _ o ↦ o.op.Within 32

theorem Filled.payload {ctx : Context} {o r : Operation} (h : Filled ctx o r) : r.op = o.op := by
  obtain ⟨_, time, ⟨p, -, rfl⟩, -, rfl⟩ := h
  unfold fillIn
  split <;> rfl

namespace Runner

variable {s s' : Runner} {a : Action} {t : Int}

/-- What a step prints does print: the operation that a worker takes and the one that its client
leaves; the completion; an answer that is neither nil, exit nor pending, whether it is due or not;
and, where the loop ends, the history. -/
def Logs (s : Runner) : Action → Prop
  | .take t => ∀ op ∈ (s.worker t).inbox.head?, op.op.Within 32
  | .finish _ ret => ret.op.Within 32
  | .enqueue _ => True
  | .complete t _ => ∀ op ∈ (s.worker t).completions.head?, op.op.Within 32
  | .ask time draws fuel =>
    ∀ a draws', op fuel s.generator (s.askContext time) draws = .ok (a, draws') →
      (a.op.type.Dispatchable → a.op.op.Within 32) ∧
      (a.op.type = .kNil ∨ a.op.type = .kExit → s.outstanding ≤ 0 →
        ∀ e ∈ s.history, e.op.op.Within 32)

def LoggedStep : Lts Runner Action := Step.restrict Logs

/-- All that the workers and the history hold prints. -/
structure Printable (s : Runner) : Prop where
  hands : ∀ t, ∀ op ∈ (s.worker t).hands, op.op.Within 32
  history : ∀ e ∈ s.history, e.op.op.Within 32

theorem mem_hands_exit {op : Operation} (h : op ∈ (s.exit.worker t).hands) :
    op ∈ (s.worker t).hands ∨ op = OperationFactory.exit := by
  unfold exit at h
  dsimp only at h
  split at h
  · simp only [WorkerState.hands] at h ⊢
    grind
  · exact .inl h

namespace Printable

theorem start (n : Nat) (g : GeneratorPtr) (time : Int) : (start n g time).Printable where
  hands t := by simp [Runner.start, WorkerState.hands]
  history := by simp [Runner.start]

-- A worker that hands on what prints.
theorem setWorker (h : s.Printable) {w : WorkerState}
    (hw : ∀ op ∈ w.hands, op.op.Within 32) : (s.setWorker t w).Printable where
  hands t' := by
    by_cases htt : t' = t
    · subst htt
      simpa [Runner.setWorker] using hw
    · rw [setWorker_other htt]
      exact h.hands t'
  history := h.history

theorem logs_ask (h : s.Printable) (hg : AllLeaves Printed [] s.generator) (time : Int)
    (draws : Draws) (fuel : Nat) : s.Logs (.ask time draws fuel) := by
  intro a draws' hask
  refine ⟨fun hreal ↦ ?_, fun _ _ ↦ h.history⟩
  rcases ((op_answers _ _ _ _ _ _ hask).sourced hg).1 with hnil | ⟨sub, o, ho, hfill⟩
  · exact absurd hnil hreal.1
  · rw [hfill.payload]
    exact ho

theorem step (h : s.Printable) (hs : s.LoggedStep a s') : s'.Printable := by
  obtain ⟨hlog, hs⟩ := hs
  cases a with
  | take t =>
    obtain ⟨op, inbox, hinbox, hjob, rfl⟩ := take_eq hs
    have hhands := h.hands t
    simp only [WorkerState.hands, hinbox, hjob] at hhands
    refine h.setWorker fun o ho ↦ hhands o ?_
    split at ho
    · simp only [WorkerState.hands, hjob] at ho
      grind
    · simp only [WorkerState.hands] at ho
      grind [Job.op]
  | finish t ret =>
    obtain ⟨op, hjob, rfl⟩ := finish_eq hs
    have hhands := h.hands t
    simp only [WorkerState.hands, hjob] at hhands
    -- the client's own operation is in the place of the one it was given
    refine h.setWorker fun o ho ↦ ?_
    simp only [WorkerState.hands, List.mem_append, Option.map_some, Option.toList_some,
      List.mem_singleton] at ho
    obtain (ho | rfl) | ho := ho
    · exact hhands o (by simp [ho])
    · exact hlog
    · exact hhands o (by simp [ho])
  | enqueue t =>
    obtain ⟨op, hjob, rfl⟩ := enqueue_eq hs
    have hhands := h.hands t
    simp only [WorkerState.hands, hjob] at hhands
    refine h.setWorker fun o ho ↦ hhands o ?_
    simp only [WorkerState.hands] at ho
    grind [Job.op]
  | complete t time =>
    obtain ⟨op, hc⟩ := complete_eq hs
    obtain ⟨rest, hcomp, hworker⟩ := hc.completions
    have hhands := h.hands t
    simp only [WorkerState.hands, hcomp] at hhands
    have hset := h.setWorker (t := t) (w := { s.worker t with completions := rest })
      fun o ho ↦ hhands o (by simp only [WorkerState.hands] at ho; grind)
    refine ⟨fun t' ↦ by rw [hworker]; exact hset.hands t', ?_⟩
    rw [hc.history]
    refine List.forall_mem_append.mpr ⟨h.history, List.forall_mem_singleton.mpr ?_⟩
    exact hhands op (by simp)
  | ask time draws fuel =>
    cases (ask_eq hs).2 with
    | idle flag history concurrency workers worker =>
      exact ⟨fun t ↦ by rw [worker]; exact h.hands t, by rw [history]; exact h.history⟩
    | exit outstanding outstanding' history concurrency workers worker =>
      refine ⟨fun t o ho ↦ ?_, by rw [history]; exact h.history⟩
      rw [worker] at ho
      rcases mem_hands_exit ho with ho | rfl
      · exact h.hands t o ho
      · decide
    | @dispatch a draws' t flag hask hreal ht history concurrency workers worker =>
      have hprints : a.op.op.Within 32 := (hlog a draws' hask).1 hreal
      have hset := h.setWorker (t := t)
        (w := { s.worker t with inbox := (s.worker t).inbox ++ [a.op] }) fun o ho ↦ by
          have hhands := h.hands t o
          simp only [WorkerState.hands, List.append_assoc, List.mem_append,
            List.mem_singleton] at ho hhands
          rcases ho with ho | rfl | ho
          · exact hhands (.inl ho)
          · exact hprints
          · exact hhands (.inr ho)
      refine ⟨fun t' ↦ by rw [worker]; exact hset.hands t', ?_⟩
      rw [history]
      exact List.forall_mem_append.mpr ⟨h.history, List.forall_mem_singleton.mpr hprints⟩

end Printable

end Runner

end Jepsen
