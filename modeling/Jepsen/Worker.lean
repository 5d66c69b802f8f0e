import Jepsen.Printing
import Jepsen.Runner.Basic

/-!
# The workers

`Worker::runAsync` over an inbox, for any worker class, and the two classes of the source with an
arbitrary client behind them.  An invocation that throws ends the thread, and so does an operation
that the log cannot print; an invocation that leaves the type of the operation as it is makes the
worker report it as it is.
-/

namespace Jepsen

open Library

/-- What a returning `invoke` leaves behind.  The workers ignore `ret`. -/
structure Invocation (κ ω : Type) where
  ret : Bool
  op : Operation
  client : κ
  world : ω

/-- A class derived from `Client` or `Nemesis`, with objects in `κ` that act on a world `ω`.  An
invocation answers `none` when an exception leaves it. -/
structure ClientClass (κ ω : Type) where
  createOne : ω → κ × ω
  openNode : κ → String → ω → κ × ω
  close : κ → ω → ω
  invoke : κ → Operation → ω → Option (Invocation κ ω)
  keeps_process : ∀ c op world r, invoke c op world = some r → r.op.process = op.process

/-- The virtual methods that `runAsync` calls on a worker in the state `α`. -/
structure WorkerClass (α : Type) where
  invoke : α → Operation → Option (Operation × α)
  close : α → α
  keeps_process : ∀ w op r, invoke w op = some r → r.1.process = op.process

/-- How the loop of `runAsync` ends, or that it still polls an empty inbox. -/
inductive Ending where
  | exited | threw | polling
  deriving DecidableEq, Repr

/-- What became of an inbox: the operations enqueued to `out`, in order, and the worker, as it was
before the invocation when one throws. -/
structure Shift (α : Type) where
  out : List Operation
  ending : Ending
  self : α

/-- The loop prints an operation when it takes it and again when the invocation is over. -/
def WorkerClass.runAsync {α : Type} (W : WorkerClass α) (J : Conversions) :
    α → List Operation → Shift α
  | w, [] => ⟨[], .polling, w⟩
  | w, op :: inbox =>
    match op.toString J with
    | .error _ => ⟨[], .threw, w⟩
    | .ok _ =>
      if op.type = .kExit then
        ⟨[], .exited, W.close w⟩
      else
        match W.invoke w op with
        | none => ⟨[], .threw, w⟩
        | some (op, w) =>
          match op.toString J with
          | .error _ => ⟨[], .threw, w⟩
          | .ok _ =>
            let rest := W.runAsync J w inbox
            { rest with out := op :: rest.out }

/-! ## The two classes -/

structure ClientWorker (κ ω : Type) where
  node : String
  process : Int := kInvalidProcess
  client : Option κ := none
  world : ω

namespace ClientWorker

variable {κ ω : Type} (C : ClientClass κ ω)

def close (w : ClientWorker κ ω) : ClientWorker κ ω :=
  match w.client with
  | none => w
  | some client => { w with client := none, world := C.close client w.world }

/-- "Close and restart a client", for another process. -/
def restart (w : ClientWorker κ ω) (op : Operation) : ClientWorker κ ω :=
  if w.process = kInvalidProcess ∨ w.process ≠ op.process then
    let w := w.close C
    let (client, world) := C.createOne w.world
    let (client, world) := C.openNode client w.node world
    { w with client := some client, world := world, process := op.process }
  else
    w

def invoke (w : ClientWorker κ ω) (op : Operation) : Option (Operation × ClientWorker κ ω) :=
  let w := w.restart C op
  match w.client with
  | none => none
  | some client =>
    (C.invoke client op w.world).map fun r ↦
      (r.op, { w with client := some r.client, world := r.world })

def cls : WorkerClass (ClientWorker κ ω) where
  invoke := invoke C
  close := close C
  keeps_process w op r h := by
    unfold invoke at h
    dsimp only at h
    split at h
    · exact absurd h (by simp)
    · obtain ⟨i, hi, rfl⟩ := Option.map_eq_some_iff.mp h
      exact C.keeps_process _ _ _ _ hi

end ClientWorker

structure NemesisWorker (κ ω : Type) where
  client : κ
  world : ω

namespace NemesisWorker

variable {κ ω : Type} (C : ClientClass κ ω)

def invoke (w : NemesisWorker κ ω) (op : Operation) : Option (Operation × NemesisWorker κ ω) :=
  (C.invoke w.client op w.world).map fun r ↦ (r.op, ⟨r.client, r.world⟩)

def cls : WorkerClass (NemesisWorker κ ω) where
  invoke := invoke C
  close w := w
  keeps_process w op r h := by
    obtain ⟨i, hi, rfl⟩ := Option.map_eq_some_iff.mp h
    exact C.keeps_process _ _ _ _ hi

end NemesisWorker

/-! ## What comes back -/

namespace WorkerClass

variable {α : Type} (W : WorkerClass α) {J : Conversions}

/-- Every invocation on the way returns, with the type of a completion, and the operations print
before and after. -/
def Completes : α → List Operation → Prop
  | _, [] => True
  | w, op :: ops => op.op.Within 32 ∧ ∃ r, W.invoke w op = some r ∧ r.1.type.IsCompletion ∧
      r.1.op.Within 32 ∧ Completes r.2 ops

/-- Every operation came back once, in order and completed, and the worker has stopped. -/
def AllBack (shift : Shift α) (ops : List Operation) : Prop :=
  shift.out.map Operation.process = ops.map Operation.process ∧
    (∀ op ∈ shift.out, op.type.IsCompletion) ∧ shift.ending = .exited

section

variable {W} {w : α} {op : Operation} {inbox : List Operation}

theorem runAsync_unprinted (hin : ¬op.op.Within 32) :
    W.runAsync J w (op :: inbox) = ⟨[], .threw, w⟩ := by
  obtain ⟨what, hwhat⟩ := Operation.toString_of_not_within (J := J) hin
  rw [runAsync, hwhat]

theorem runAsync_exit (hop : op.type = .kExit) (hin : op.op.Within 32) :
    W.runAsync J w (op :: inbox) = ⟨[], .exited, W.close w⟩ := by
  obtain ⟨line, hline⟩ := Operation.toString_of_within (J := J) hin
  simp only [runAsync, hline, if_pos hop]

theorem runAsync_threw (hop : op.type ≠ .kExit) (h : W.invoke w op = none) :
    W.runAsync J w (op :: inbox) = ⟨[], .threw, w⟩ := by
  cases hline : op.toString J <;> simp only [runAsync, hline, if_neg hop, h]

theorem runAsync_unreported (hop : op.type ≠ .kExit) (hin : op.op.Within 32) {r : Operation × α}
    (h : W.invoke w op = some r) (hout : ¬r.1.op.Within 32) :
    W.runAsync J w (op :: inbox) = ⟨[], .threw, r.2⟩ := by
  obtain ⟨line, hline⟩ := Operation.toString_of_within (J := J) hin
  obtain ⟨what, hwhat⟩ := Operation.toString_of_not_within (J := J) hout
  simp only [runAsync, hline, if_neg hop, h, hwhat]

theorem runAsync_cons (hop : op.type ≠ .kExit) (hin : op.op.Within 32) {r : Operation × α}
    (h : W.invoke w op = some r) (hout : r.1.op.Within 32) :
    W.runAsync J w (op :: inbox) =
      { W.runAsync J r.2 inbox with out := r.1 :: (W.runAsync J r.2 inbox).out } := by
  obtain ⟨line, hline⟩ := Operation.toString_of_within (J := J) hin
  obtain ⟨line', hline'⟩ := Operation.toString_of_within (J := J) hout
  simp only [runAsync, hline, if_neg hop, h, hline']

/-- What one turn of the loop does with an operation that is not the last. -/
theorem runAsync_cases (W : WorkerClass α) (J : Conversions) (w : α) (hop : op.type ≠ .kExit)
    (inbox : List Operation) :
    (W.runAsync J w (op :: inbox) = ⟨[], .threw, w⟩ ∧
        (op.op.Within 32 → W.invoke w op = none)) ∨
      ∃ r, W.invoke w op = some r ∧ op.op.Within 32 ∧
        ((W.runAsync J w (op :: inbox) = ⟨[], .threw, r.2⟩ ∧ ¬r.1.op.Within 32) ∨
          (W.runAsync J w (op :: inbox) = { W.runAsync J r.2 inbox with
            out := r.1 :: (W.runAsync J r.2 inbox).out } ∧ r.1.op.Within 32)) := by
  by_cases hin : op.op.Within 32
  · cases h : W.invoke w op with
    | none => exact .inl ⟨runAsync_threw hop h, fun _ ↦ rfl⟩
    | some r =>
      by_cases hout : r.1.op.Within 32
      · exact .inr ⟨r, rfl, hin, .inr ⟨runAsync_cons hop hin h hout, hout⟩⟩
      · exact .inr ⟨r, rfl, hin, .inl ⟨runAsync_unreported hop hin h hout, hout⟩⟩
  · exact .inl ⟨runAsync_unprinted hin, fun h ↦ absurd h hin⟩

end

variable {W}

theorem allBack_iff_completes {ops : List Operation} (hops : ∀ op ∈ ops, op.type ≠ .kExit)
    (w : α) : AllBack (W.runAsync J w (ops ++ [OperationFactory.exit])) ops ↔
      W.Completes w ops := by
  induction ops generalizing w with
  | nil =>
    rw [List.nil_append, runAsync_exit rfl (by decide)]
    exact ⟨fun _ ↦ trivial, fun _ ↦ ⟨rfl, by simp, rfl⟩⟩
  | cons op ops ih =>
    obtain ⟨hop, hops⟩ := List.forall_mem_cons.mp hops
    rw [List.cons_append, Completes]
    obtain ⟨heq, hlost⟩ | ⟨r, hinv, hin, ⟨heq, hout⟩ | ⟨heq, hout⟩⟩ :=
      runAsync_cases W J w hop (ops ++ [OperationFactory.exit])
    · rw [heq]
      refine ⟨fun ⟨_, _, hend⟩ ↦ Ending.noConfusion hend, fun ⟨hin, r, hinv, _⟩ ↦ ?_⟩
      simp [hlost hin] at hinv
    · rw [heq]
      refine ⟨fun ⟨_, _, hend⟩ ↦ Ending.noConfusion hend, fun ⟨_, r', hinv', _, hout', _⟩ ↦ ?_⟩
      obtain rfl := Option.some.inj (hinv.symm.trans hinv')
      exact absurd hout' hout
    · rw [heq]
      have hproc := W.keeps_process w op r hinv
      constructor
      · rintro ⟨hmap, htypes, hend⟩
        obtain ⟨htype, htypes⟩ := List.forall_mem_cons.mp htypes
        obtain ⟨-, hmap⟩ := List.cons.inj hmap
        exact ⟨hin, r, hinv, htype, hout, (ih hops r.2).mp ⟨hmap, htypes, hend⟩⟩
      · rintro ⟨-, r', hinv', htype, -, hrest⟩
        obtain rfl := Option.some.inj (hinv.symm.trans hinv')
        obtain ⟨hmap, htypes, hend⟩ := (ih hops r.2).mpr hrest
        exact ⟨by rw [List.map_cons, List.map_cons, hproc, hmap],
          List.forall_mem_cons.mpr ⟨htype, htypes⟩, hend⟩

end WorkerClass

/-- The operations handed to a worker all come back, completed, exactly when every invocation of its
client returns with the type of a completion and every operation prints before and after. -/
theorem worker_completes_iff {κ ω : Type} (C : ClientClass κ ω) (J : Conversions)
    (ops : List Operation) (hops : ∀ op ∈ ops, op.type ≠ .kExit) :
    (∀ w, WorkerClass.AllBack
        ((ClientWorker.cls C).runAsync J w (ops ++ [OperationFactory.exit])) ops ↔
      (ClientWorker.cls C).Completes w ops) ∧
    (∀ w, WorkerClass.AllBack
        ((NemesisWorker.cls C).runAsync J w (ops ++ [OperationFactory.exit])) ops ↔
      (NemesisWorker.cls C).Completes w ops) :=
  ⟨WorkerClass.allBack_iff_completes hops, WorkerClass.allBack_iff_completes hops⟩

/-- `NoopClient`: its `invoke` leaves the operation as it is. -/
def NoopClient : ClientClass Unit Unit where
  createOne _ := ((), ())
  openNode _ _ _ := ((), ())
  close _ _ := ()
  invoke _ op _ := some ⟨true, op, (), ()⟩
  keeps_process _ _ _ _ h := by rw [← Option.some.inj h]

/-- `NoopNemesis`: every operation succeeds. -/
def NoopNemesis : ClientClass Unit Unit where
  createOne _ := ((), ())
  openNode _ _ _ := ((), ())
  close _ _ := ()
  invoke _ op _ := some ⟨true, { op with type := .kSuccess }, (), ()⟩
  keeps_process _ _ _ _ h := by rw [← Option.some.inj h]

/-- Two operations of the nemesis come back from a `NoopNemesis`. -/
theorem worker_completes_noopNemesis :
    WorkerClass.AllBack ((NemesisWorker.cls NoopNemesis).runAsync .jsoncpp ⟨(), ()⟩
      ([OperationFactory.fakePartition, OperationFactory.fakePartition] ++
        [OperationFactory.exit]))
      [OperationFactory.fakePartition, OperationFactory.fakePartition] :=
  ((worker_completes_iff NoopNemesis .jsoncpp _ (by decide)).2 ⟨(), ()⟩).mpr
    ⟨by decide, _, rfl, by decide, by decide, by decide, _, rfl, by decide, by decide, trivial⟩

/-- A client whose reads throw, as `ETCDClient::invoke` does on a value that is no number. -/
def ThrowingClient : ClientClass Unit Unit where
  createOne _ := ((), ())
  openNode _ _ _ := ((), ())
  close _ _ := ()
  invoke _ op _ :=
    if op.func = "read" then none else some ⟨true, { op with type := .kSuccess }, (), ()⟩
  keeps_process _ _ _ _ h := by
    split at h
    · exact absurd h (by simp)
    · rw [← Option.some.inj h]

/-- A client that answers every operation with success and with the number `n`. -/
def NumberClient (n : Int) : ClientClass Unit Unit where
  createOne _ := ((), ())
  openNode _ _ _ := ((), ())
  close _ _ := ()
  invoke _ op _ := some ⟨true, { op with type := .kSuccess, op := .int n }, (), ()⟩
  keeps_process _ _ _ _ h := by rw [← Option.some.inj h]

/-- A `NoopClient` reports a read that is still an invocation; a read that throws is lost with
everything after it, and so is one that succeeds with a number of more than 32 bits. -/
theorem worker_not_completed :
    (((ClientWorker.cls NoopClient).runAsync .jsoncpp ⟨"n1", kInvalidProcess, none, ()⟩
      [OperationFactory.read .null, OperationFactory.exit]).out.map Operation.type =
        [.kInvoke]) ∧
    (∀ C ∈ [ThrowingClient, NumberClient 2147483648],
      ((ClientWorker.cls C).runAsync .jsoncpp ⟨"n1", kInvalidProcess, none, ()⟩
        [OperationFactory.read .null, OperationFactory.write .null .null,
          OperationFactory.exit]).out.length = 0 ∧
      ((ClientWorker.cls C).runAsync .jsoncpp ⟨"n1", kInvalidProcess, none, ()⟩
        [OperationFactory.read .null, OperationFactory.write .null .null,
          OperationFactory.exit]).ending = .threw) := by
  decide

/-! ## The workers of the runner -/

namespace Runner

theorem setWorker_setWorker (s : Runner) (t : Int) (w w' : WorkerState) :
    (s.setWorker t w).setWorker t w' = s.setWorker t w' := by
  simp [setWorker]

@[simp] theorem setWorker_worker (s : Runner) (t : Int) (w : WorkerState) :
    (s.setWorker t w).worker t = w := by
  simp [setWorker]

/-- One operation goes through a worker of the runner. -/
theorem run_worker_op {s : Runner} {t : Int} (ht : t ∈ Context.threads s.concurrency)
    {op op' : Operation} {inbox completions : List Operation} (hop : op.type ≠ .kExit)
    (hproc : op'.process = op.process)
    (hw : s.worker t = ⟨op :: inbox, none, completions, true⟩) :
    Run Step s [.take t, .finish t op', .enqueue t]
      (s.setWorker t ⟨inbox, none, completions ++ [op'], true⟩) := by
  have htake : s.take t = some (s.setWorker t ⟨inbox, some (.invoking op), completions, true⟩) := by
    simp [take, hw, ht, hop]
  have hfinish : (s.setWorker t ⟨inbox, some (.invoking op), completions, true⟩).finish t op' =
      some (s.setWorker t ⟨inbox, some (.returned op'), completions, true⟩) := by
    simp [finish, setWorker_setWorker, ← hproc]
  have henqueue : (s.setWorker t ⟨inbox, some (.returned op'), completions, true⟩).enqueue t =
      some (s.setWorker t ⟨inbox, none, completions ++ [op'], true⟩) := by
    simp [enqueue, setWorker_setWorker]
  exact .cons htake (.cons hfinish (.single henqueue))

/-- The runner's own account of a worker allows what `runAsync` does until it exits. -/
theorem run_runAsync {α : Type} (W : WorkerClass α) (J : Conversions) {s : Runner} {t : Int}
    (ht : t ∈ Context.threads s.concurrency) (w : α) {ops completions : List Operation}
    (hops : ∀ op ∈ ops, op.type ≠ .kExit)
    (hw : s.worker t = ⟨ops ++ [OperationFactory.exit], none, completions, true⟩)
    (hend : (W.runAsync J w (ops ++ [OperationFactory.exit])).ending = .exited) :
    ∃ as, Run Step s as (s.setWorker t
      ⟨[], none, completions ++ (W.runAsync J w (ops ++ [OperationFactory.exit])).out, false⟩) := by
  induction ops generalizing s w completions with
  | nil =>
    rw [List.nil_append, WorkerClass.runAsync_exit rfl (by decide)]
    refine ⟨[.take t], .single ?_⟩
    simp [Step, Runner.step, take, hw, ht, OperationFactory.exit]
  | cons op ops ih =>
    obtain ⟨hop, hops⟩ := List.forall_mem_cons.mp hops
    rw [List.cons_append] at hw hend ⊢
    obtain ⟨heq, -⟩ | ⟨r, hinv, -, ⟨heq, -⟩ | ⟨heq, -⟩⟩ :=
      WorkerClass.runAsync_cases W J w hop (ops ++ [OperationFactory.exit])
    · rw [heq] at hend
      exact Ending.noConfusion hend
    · rw [heq] at hend
      exact Ending.noConfusion hend
    · rw [heq] at hend ⊢
      -- One operation is three steps of the runner's worker: taken, invoked, reported.
      have hfirst := run_worker_op ht hop (W.keeps_process w op r hinv) hw
      obtain ⟨as, hrest⟩ := @ih (s.setWorker t ⟨ops ++ [OperationFactory.exit], none,
        completions ++ [r.1], true⟩) ht r.2 _ hops (setWorker_worker s t _) hend
      rw [setWorker_setWorker, List.append_assoc, List.singleton_append] at hrest
      exact ⟨_, hfirst.append hrest⟩

end Runner

end Jepsen
