import Jepsen.Generator.Events
import Jepsen.Runner.Dispatch

/-!
# The events of a run

Every entry of the history was handed to the generator when it was made, in a context in which its
thread still runs its process: a completion is delivered before the thread's process is renumbered.
So each leaf has received the entries of the threads that the filters above it accept.
-/

namespace Jepsen

open Library Context GeneratorFactory

/-- The thread of the worker that runs `process`, among `n` clients. -/
def workerThread (n : Nat) (process : Int) : Int :=
  if process = kNemesisProcess then kNemesisProcess else process % n

theorem Processes.workerThread_eq {n : Nat} {ws : Workers} (h : Processes n ws) {t p : Int}
    (hp : ws.lookup t = some p) : workerThread n p = t := by
  unfold workerThread
  split
  · rename_i hn
    exact ((h.eq_nemesis_iff hp).mp hn).symm
  · rename_i hn
    exact (h.client t p (fun ht ↦ hn ((h.eq_nemesis_iff hp).mpr ht)) hp).2

/-- The entries of the threads that all filters accept. -/
def heard (n : Nat) (path : List ThreadFilter) (history : List Entry) : List Operation :=
  (history.filter fun e ↦ ∀ f ∈ path, f (workerThread n e.op.process)).map Entry.op

theorem heard_snoc (n : Nat) (path : List ThreadFilter) (history : List Entry) (e : Entry) :
    heard n path (history ++ [e]) = heard n path history ++
      if ∀ f ∈ path, f (workerThread n e.op.process) then [e.op] else [] := by
  unfold heard
  rw [List.filter_append, List.map_append]
  congr 1
  by_cases h : ∀ f ∈ path, f (workerThread n e.op.process)
  · rw [if_pos h, List.filter_cons_of_pos (by simpa using h)]
    rfl
  · rw [if_neg h, List.filter_cons_of_neg (by simpa using h)]
    rfl

/-- A leaf has received, after what `P` allows, exactly the entries that its filters accept. -/
def Received.upTo (P : Received) (n : Nat) (history : List Entry) : Received :=
  fun path leaf es ↦ ∃ before, P path leaf before ∧ es = before ++ heard n path history

theorem Received.upTo_snoc {P : Received} {n : Nat} {history : List Entry} {e : Entry}
    {path : List ThreadFilter} {leaf : UserLeaf} {es : List Operation}
    (h : (P.upTo n history).deliver (workerThread n e.op.process) e.op path leaf es) :
    P.upTo n (history ++ [e]) path leaf es := by
  unfold Received.deliver at h
  split at h
  · rename_i hall
    obtain ⟨_, rfl, before, hP, rfl⟩ := h
    exact ⟨before, hP, by rw [heard_snoc, if_pos hall, List.append_assoc]⟩
  · rename_i hnot
    obtain ⟨before, hP, rfl⟩ := h
    exact ⟨before, hP, by rw [heard_snoc, if_neg hnot, List.append_nil]⟩

namespace Runner

variable {P : Received} {n : Nat} {s s' : Runner} {a : Action}

/-- An entry whose thread runs its process reaches the leaves. -/
theorem routed_snoc {g g' : GeneratorPtr} {ctx : Context} {history : List Entry} {e : Entry}
    {t : Int}
    (h : Routed (P.upTo n history) [] g) (hp : Processes n ctx.workers)
    (ht : ctx.workers.lookup t = some e.op.process)
    (hup : GeneratorPtr.update g ctx e.op = .ok g') : Routed (P.upTo n (history ++ [e])) [] g' := by
  refine (h.update hp.distinct ht (by simp) hup).mono fun sub leaf es hes ↦ ?_
  rw [← hp.workerThread_eq ht] at hes
  exact Received.upTo_snoc hes

theorem step_routed (h : Routed (P.upTo n s.history) [] s.generator)
    (hinv : s.Invariant ProcessUnset n) (hs : s.step a = some s') :
    Routed (P.upTo n s'.history) [] s'.generator := by
  obtain ⟨rfl, hocc, hleaves⟩ := hinv
  -- An update goes with each new entry of the history, and with no other step.
  cases step_moves hs with
  | work => exact h
  | discard _ hask => exact (h.answers (op_answers _ _ _ _ _ _ hask)).2
  | exit _ hask => exact (h.answers (op_answers _ _ _ _ _ _ hask)).2
  | @complete t time op rest generator _ hcomp hupd =>
    have hp : Processes s.concurrency (s.completionContext op time).workers := hocc.processes
    exact routed_snoc (e := ⟨.completion, { op with time := time }⟩) h hp
      (hocc.of_completion hcomp).2.1 hupd
  | @dispatch time draws draws' fuel ans t generator _ hask hreal _ ht _ hupd =>
    have hgen2 := (h.answers (op_answers _ _ _ _ _ _ hask)).1.resolve_left hreal.1
    have hthread := hocc.thread_of_dispatch (freshDispatch_of_allLeaves hocc hleaves _) hask hreal
    have hp : Processes s.concurrency (s.dispatchContext ans.op).workers := hocc.processes
    exact routed_snoc (e := ⟨.dispatch, ans.op⟩) hgen2 hp hthread.2 hupd

/-- The thread of an entry is the worker that the operation goes to, or comes from. -/
theorem workerThread_of_step (hinv : s.Invariant ProcessUnset n) (hs : s.step a = some s')
    {e : Entry} (he : s'.history = s.history ++ [e]) :
    (∀ t time, a = .complete t time → workerThread n e.op.process = t) ∧
    (∀ time draws fuel, a = .ask time draws fuel →
      (s'.worker (workerThread n e.op.process)).inbox =
        (s.worker (workerThread n e.op.process)).inbox ++ [e.op]) := by
  obtain ⟨rfl, hocc, hleaves⟩ := hinv
  cases step_moves hs with
  | work => exact absurd he (by simp [setWorker])
  | discard | exit => exact absurd he (by simp [Runner.exit])
  | @complete t time op rest generator _ hcomp =>
    obtain rfl : _ = e := by simpa using he
    refine ⟨?_, by simp⟩
    rintro _ _ ⟨⟩
    exact hocc.processes.workerThread_eq (hocc.of_completion hcomp).2.1
  | @dispatch time draws draws' fuel ans t generator _ hask hreal _ ht =>
    obtain rfl : _ = e := by simpa using he
    have hthread := hocc.thread_of_dispatch (freshDispatch_of_allLeaves hocc hleaves _) hask hreal
    refine ⟨by simp, fun _ _ _ _ ↦ ?_⟩
    rw [hocc.processes.workerThread_eq hthread.2, ← ht]
    simp [setWorker]

/-- Each leaf receives exactly the dispatches and completions of the threads that all filters above
it accept, each once and in the order of the history; an entry belongs to the worker that its
operation goes to or comes from; and below filters that accept a thread the process that it runs is
found. -/
theorem events_routed (n : Nat) (g : GeneratorPtr) (time : Int) (s : Runner) (P : Received)
    (hg : Routed P [] g) (h : Reachable Step (start n g time) s) :
    Routed (fun path leaf es ↦ ∃ before, P path leaf before ∧
      es = before ++ heard n path s.history) [] s.generator ∧
    (∀ a s' e, s.step a = some s' → s'.history = s.history ++ [e] →
      (∀ t now, a = .complete t now → workerThread n e.op.process = t) ∧
      (∀ now draws fuel, a = .ask now draws fuel →
        (s'.worker (workerThread n e.op.process)).inbox =
          (s.worker (workerThread n e.op.process)).inbox ++ [e.op])) ∧
    ∀ path t p, s.ctx.workers.lookup t = some p → (∀ f ∈ path, f t) →
      (∀ op now, ((s.completionContext op now).restrict path).processToThread p = t) ∧
      ∀ op, ((s.dispatchContext op).restrict path).processToThread p = t := by
  have hleaves : AllLeaves ProcessUnset [] g := hg.allLeaves fun _ _ ho ↦ .inl ho
  have hstart : Routed (P.upTo n (start n g time).history) [] (start n g time).generator :=
    hg.mono fun sub leaf es hP ↦ ⟨es, hP, (List.append_nil es).symm⟩
  have hinv := invariant_of_reachable (fun _ _ ↦ id) hleaves h
  refine ⟨?_, fun a s' e hs he ↦ workerThread_of_step hinv hs he, fun path t p ht hpath ↦ ?_⟩
  · refine (h.invariant (P := fun s ↦ s.Invariant ProcessUnset n ∧
      Routed (P.upTo n s.history) [] s.generator) ⟨.start hleaves n time, hstart⟩ ?_).2
    exact fun _ _ _ hs hr ↦ ⟨hr.1.step (fun _ _ ↦ id) hs, step_routed hr.2 hr.1 hs⟩
  · have hd : Distinct s.ctx := hinv.occupancy.processes.distinct
    -- The contexts of an update have the table of the state.
    have hc (op : Operation) (now : Int) : Distinct (s.completionContext op now) := hd
    have hd (op : Operation) : Distinct (s.dispatchContext op) := hd
    exact ⟨fun op now ↦ processToThread_restrict (hc op now) ht hpath,
      fun op ↦ processToThread_restrict (hd op) ht hpath⟩

/-- A leaf of a user's class that reads for ever. -/
def reader : UserLeaf := ⟨fun _ _ _ ↦ OperationFactory.read .null⟩

/-- Two nested `clients` over a user's leaf: the leaf hears of the read, and of the completion after
which the client's process is renumbered. -/
theorem events_routed_info : ∃ s, Reachable Step
      (start 1 (setGenerator (clients (clients (.user reader [])))) 0) s ∧
    s.history.length = 2 ∧ s.ctx.workers.lookup 0 = some 1 ∧
    Routed (fun path _ es ↦ es = heard 1 path s.history) [] s.generator := by
  have hrun : ((start 1 (setGenerator (clients (clients (.user reader [])))) 0).run
      [.ask 0 (fun _ ↦ 0) 7, .take 0, .finish 0 { type := .kInfo }, .enqueue 0,
        .complete 0 3]).map (fun s ↦ (s.history.length, s.ctx.workers.lookup 0)) =
          some (2, some 1) := by
    decide +kernel
  obtain ⟨s, hs, hend⟩ := Option.map_eq_some_iff.mp hrun
  obtain ⟨hlen, hlookup⟩ := Prod.mk.inj hend
  have hg : Routed (fun _ _ es ↦ es = []) []
      (setGenerator (clients (clients (.user reader [])))) :=
    .validate (.onThreads (.onThreads (.user rfl fun _ _ _ ↦ rfl)))
  have hreach := reachable_of_run hs
  refine ⟨s, hreach, hlen, hlookup, (events_routed 1 _ 0 s _ hg hreach).1.mono ?_⟩
  rintro sub leaf es ⟨before, rfl, rfl⟩
  rfl

end Runner

end Jepsen
