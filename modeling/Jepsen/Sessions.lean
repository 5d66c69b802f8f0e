import Jepsen.Library.Blocks
import Jepsen.Worker

/-!
# Client sessions

What a `ClientWorker` does to its client objects.  The objects are numbered as `createOne` hands
them out, and the calls on them are written down by a class that stands between the worker and any
other class: the worker behaves the same with it.  From then on a session is a block of calls on one
object, and the worker has one session for each maximal run of operations of one process.
-/

namespace Jepsen

open Library

/-- What happens to a client object, by its number. -/
inductive ClientCall where
  | created (id : Nat)
  | opened (id : Nat) (node : String)
  | invoked (id : Nat) (op : Operation)
  | closed (id : Nat)

def ClientCall.id : ClientCall → Nat
  | .created id | .opened id _ | .invoked id _ | .closed id => id

structure Audit (ω : Type) where
  world : ω
  created : Nat := 0
  calls : List ClientCall := []

namespace Audit

variable {ω : Type}

def write (a : Audit ω) (world : ω) (call : ClientCall) : Audit ω :=
  { a with world, calls := a.calls ++ [call] }

@[simp] theorem write_world (a : Audit ω) (world : ω) (call : ClientCall) :
    (a.write world call).world = world := rfl

@[simp] theorem write_created (a : Audit ω) (world : ω) (call : ClientCall) :
    (a.write world call).created = a.created := rfl

@[simp] theorem write_calls (a : Audit ω) (world : ω) (call : ClientCall) :
    (a.write world call).calls = a.calls ++ [call] := rfl

end Audit

variable {κ ω : Type}

/-- The class `C` with its objects numbered and the calls on them written down. -/
def ClientClass.audited (C : ClientClass κ ω) : ClientClass (Nat × κ) (Audit ω) where
  createOne a :=
    let (client, world) := C.createOne a.world
    ((a.created, client), { a.write world (.created a.created) with created := a.created + 1 })
  openNode client node a :=
    let (c, world) := C.openNode client.2 node a.world
    ((client.1, c), a.write world (.opened client.1 node))
  close client a := a.write (C.close client.2 a.world) (.closed client.1)
  invoke client op a :=
    (C.invoke client.2 op a.world).map fun r ↦
      ⟨r.ret, r.op, (client.1, r.client), a.write r.world (.invoked client.1 op)⟩
  keeps_process c op a r h := by
    obtain ⟨r', hr', rfl⟩ := Option.map_eq_some_iff.mp h
    exact C.keeps_process _ _ _ _ hr'

def Shift.map {α β : Type} (f : α → β) (s : Shift α) : Shift β := ⟨s.out, s.ending, f s.self⟩

/-- The worker without the numbers and the record. -/
def ClientWorker.erase (w : ClientWorker (Nat × κ) (Audit ω)) : ClientWorker κ ω :=
  ⟨w.node, w.process, w.client.map Prod.snd, w.world.world⟩

namespace ClientWorker

variable (C : ClientClass κ ω) (w : ClientWorker (Nat × κ) (Audit ω))

theorem erase_close : (w.close C.audited).erase = w.erase.close C := by
  obtain ⟨node, process, client, world⟩ := w
  cases client <;> rfl

theorem erase_restart (op : Operation) :
    (w.restart C.audited op).erase = w.erase.restart C op := by
  unfold restart
  by_cases h : w.process = kInvalidProcess ∨ w.process ≠ op.process
  · rw [if_pos h, if_pos (show w.erase.process = _ ∨ w.erase.process ≠ _ from h), ← erase_close]
    rfl
  · rw [if_neg h, if_neg (show ¬(w.erase.process = _ ∨ w.erase.process ≠ _) from h)]

theorem erase_invoke (op : Operation) :
    (w.invoke C.audited op).map (Prod.map id erase) = w.erase.invoke C op := by
  unfold invoke
  rw [← erase_restart]
  obtain ⟨node, process, client, world⟩ := w.restart C.audited op
  cases client with
  | none => rfl
  | some client => simp [ClientClass.audited, erase, Function.comp_def]

/-- Listening changes nothing: the worker reports the same operations and ends the same way. -/
theorem erase_runAsync (J : Conversions) (inbox : List Operation) :
    (cls C).runAsync J w.erase inbox = ((cls C.audited).runAsync J w inbox).map erase := by
  induction inbox generalizing w with
  | nil => rfl
  | cons op inbox ih =>
    -- The audited worker goes through the same states, with its record on top.
    by_cases hop : op.type = .kExit
    · by_cases hin : op.op.Within 32
      · rw [WorkerClass.runAsync_exit hop hin, WorkerClass.runAsync_exit hop hin]
        exact congrArg (Shift.mk [] .exited) (erase_close C w).symm
      · rw [WorkerClass.runAsync_unprinted hin, WorkerClass.runAsync_unprinted hin]
        rfl
    · have hinv := erase_invoke C w op
      obtain ⟨heq, hlost⟩ | ⟨r, hr, hin, ⟨heq, hout⟩ | ⟨heq, hout⟩⟩ :=
        WorkerClass.runAsync_cases (cls C.audited) J w hop inbox
      · rw [heq]
        by_cases hin : op.op.Within 32
        · rw [show w.invoke C.audited op = none from hlost hin] at hinv
          rw [WorkerClass.runAsync_threw (W := cls C) hop hinv.symm]
          rfl
        · rw [WorkerClass.runAsync_unprinted hin]
          rfl
      · rw [show w.invoke C.audited op = some r from hr] at hinv
        rw [heq, WorkerClass.runAsync_unreported (W := cls C) hop hin hinv.symm hout]
        rfl
      · rw [show w.invoke C.audited op = some r from hr] at hinv
        rw [heq, WorkerClass.runAsync_cons (W := cls C) hop hin hinv.symm hout]
        simp only [Prod.map, ih, id]
        rfl

end ClientWorker

/-! ## Serving a list of operations -/

/-- The worker after it has invoked the operations one by one, if none of them throws. -/
def WorkerClass.serve {α : Type} (W : WorkerClass α) : α → List Operation → Option α
  | w, [] => some w
  | w, op :: ops => (W.invoke w op).bind fun r ↦ W.serve r.2 ops

theorem WorkerClass.serve_append {α : Type} (W : WorkerClass α) (w : α)
    (ops ops' : List Operation) :
    W.serve w (ops ++ ops') = (W.serve w ops).bind fun w ↦ W.serve w ops' := by
  induction ops generalizing w with
  | nil => rfl
  | cons op ops ih =>
    rw [List.cons_append, serve, serve, Option.bind_assoc]
    exact congrArg _ (funext fun r ↦ ih r.2)

/-- The operations print, and so does what each of the invocations leaves. -/
def WorkerClass.Prints {α : Type} (W : WorkerClass α) : α → List Operation → Prop
  | _, [] => True
  | w, op :: ops => op.op.Within 32 ∧ ∀ r, W.invoke w op = some r →
      r.1.op.Within 32 ∧ W.Prints r.2 ops

instance WorkerClass.decidablePrints {α : Type} (W : WorkerClass α) :
    ∀ w ops, Decidable (W.Prints w ops)
  | _, [] => .isTrue trivial
  | w, op :: ops =>
    match h : W.invoke w op with
    | none => decidable_of_iff (op.op.Within 32) (by simp [Prints, h])
    | some r =>
      have := W.decidablePrints r.2 ops
      decidable_of_iff (op.op.Within 32 ∧ r.1.op.Within 32 ∧ W.Prints r.2 ops)
        (by simp [Prints, h])

section

variable {α : Type} {W : WorkerClass α} (J : Conversions) {w w' : α} {ops : List Operation}
  (inbox : List Operation) {exit : Operation}

/-- Where every operation on the way prints, the loop serves its inbox up to what ends it. -/
theorem WorkerClass.runAsync_served (h : W.serve w ops = some w')
    (hops : ∀ op ∈ ops, op.type ≠ .kExit) (hexit : exit.type = .kExit) (hprints : W.Prints w ops)
    (hlast : exit.op.Within 32) :
    (W.runAsync J w (ops ++ exit :: inbox)).ending = .exited ∧
      (W.runAsync J w (ops ++ exit :: inbox)).self = W.close w' := by
  induction ops generalizing w with
  | nil =>
    obtain rfl := Option.some.inj h
    rw [List.nil_append, runAsync_exit hexit hlast]
    exact ⟨rfl, rfl⟩
  | cons op ops ih =>
    obtain ⟨hop, hops⟩ := List.forall_mem_cons.mp hops
    obtain ⟨r, hr, hrest⟩ := Option.bind_eq_some_iff.mp h
    obtain ⟨hout, hprints'⟩ := hprints.2 r hr
    rw [List.cons_append, runAsync_cons hop hprints.1 hr hout]
    exact ih hrest hops hprints'

/-- Where one of them does not, the loop has served some of its inbox and closes nothing. -/
theorem WorkerClass.runAsync_unserved (hops : ∀ op ∈ ops, op.type ≠ .kExit)
    (h : ¬(W.Prints w ops ∧ exit.op.Within 32)) :
    (W.runAsync J w (ops ++ exit :: inbox)).ending = .threw ∧
      ∃ done, done <+: ops ∧
        W.serve w done = some (W.runAsync J w (ops ++ exit :: inbox)).self := by
  induction ops generalizing w with
  | nil =>
    have hlast : ¬exit.op.Within 32 := fun hlast ↦ h ⟨trivial, hlast⟩
    rw [List.nil_append, runAsync_unprinted hlast]
    exact ⟨rfl, [], List.prefix_rfl, rfl⟩
  | cons op ops ih =>
    obtain ⟨hop, hops⟩ := List.forall_mem_cons.mp hops
    rw [List.cons_append]
    obtain ⟨heq, -⟩ | ⟨r, hr, hin, ⟨heq, -⟩ | ⟨heq, hout⟩⟩ :=
      runAsync_cases W J w hop (ops ++ exit :: inbox)
    · rw [heq]
      exact ⟨rfl, [], List.nil_prefix, rfl⟩
    · rw [heq]
      exact ⟨rfl, [op], by simp, by simp [serve, hr]⟩
    · rw [heq]
      have hrest : ¬(W.Prints r.2 ops ∧ exit.op.Within 32) := by
        rintro ⟨hprints, hlast⟩
        refine h ⟨⟨hin, fun r' hr' ↦ ?_⟩, hlast⟩
        obtain rfl := Option.some.inj (hr.symm.trans hr')
        exact ⟨hout, hprints⟩
      obtain ⟨hend, done, hdone, hserve⟩ := ih hops hrest
      refine ⟨hend, op :: done, by simpa using hdone, ?_⟩
      rw [serve, hr]
      exact hserve

end

theorem ClientClass.audited_invoke {C : ClientClass κ ω} {c : κ} {op : Operation} {a : Audit ω}
    {r : Invocation κ ω} (h : C.invoke c op a.world = some r) (id : Nat) :
    C.audited.invoke (id, c) op a =
      some ⟨r.ret, r.op, (id, r.client), a.write r.world (.invoked id op)⟩ := by
  simp [audited, h]

/-- No invocation throws. -/
def ClientClass.Quiet (C : ClientClass κ ω) : Prop :=
  ∀ c op world, (C.invoke c op world).isSome

/-- The calls of a session that is still open. -/
def sessionSoFar (node : String) (id : Nat) (ops : List Operation) : List ClientCall :=
  .created id :: .opened id node :: ops.map (.invoked id)

/-- The calls of a session: one object is opened, serves the operations and is closed. -/
def session (node : String) (id : Nat) (ops : List Operation) : List ClientCall :=
  sessionSoFar node id ops ++ [.closed id]

namespace ClientWorker

variable {C : ClientClass κ ω} {w : ClientWorker (Nat × κ) (Audit ω)} {node : String} {id : Nat}
  {process : Int} {calls : List ClientCall}

/-- The worker keeps the client `id` open for `process`. -/
structure Serving (node : String) (id : Nat) (process : Int) (calls : List ClientCall)
    (w : ClientWorker (Nat × κ) (Audit ω)) : Prop where
  node : w.node = node
  process : w.process = process
  client : ∃ c, w.client = some (id, c)
  created : w.world.created = id + 1
  calls : w.world.calls = calls

/-- Once its client is closed, the worker has made these calls, and the next object is `id`. -/
structure Between (C : ClientClass κ ω) (node : String) (id : Nat) (calls : List ClientCall)
    (w : ClientWorker (Nat × κ) (Audit ω)) : Prop where
  node : w.node = node
  client : (w.close C.audited).client = none
  created : (w.close C.audited).world.created = id
  calls : (w.close C.audited).world.calls = calls

theorem Serving.between (h : Serving node id process calls w) :
    Between C node (id + 1) (calls ++ [.closed id]) w := by
  obtain ⟨c, hc⟩ := h.client
  have hclose : w.close C.audited =
      { w with client := none, world := C.audited.close (id, c) w.world } := by
    rw [close, hc]
  exact ⟨h.node, by rw [hclose], by rw [hclose]; exact h.created,
    by rw [hclose, ← h.calls]; rfl⟩

theorem between_start (node : String) (process : Int) (world : ω) :
    Between C node 0 [] ⟨node, process, none, { world }⟩ :=
  ⟨rfl, rfl, rfl, rfl⟩

-- An operation of the process that the client is open for stays with the client.
theorem Serving.invoke (hC : C.Quiet) (h : Serving node id process calls w)
    (hprocess : process ≠ kInvalidProcess) {op : Operation} (hop : op.process = process) :
    ∃ r, (cls C.audited).invoke w op = some r ∧
      Serving node id process (calls ++ [.invoked id op]) r.2 := by
  obtain ⟨c, hc⟩ := h.client
  -- The process has not changed, so that the client stays.
  have hrestart : w.restart C.audited op = w := by
    rw [restart, if_neg]
    rw [h.process, hop]
    simp [hprocess]
  obtain ⟨r, hr⟩ := Option.isSome_iff_exists.mp (hC c op w.world.world)
  have hinv : (cls C.audited).invoke w op = some
      (r.op, { w with client := some (id, r.client),
                      world := w.world.write r.world (.invoked id op) }) := by
    have hcall := ClientClass.audited_invoke hr id
    simp only [cls, ClientWorker.invoke, hrestart, hc, hcall, Option.map_some]
  exact ⟨_, hinv, h.node, h.process, ⟨_, rfl⟩, h.created, by rw [← h.calls]; rfl⟩

theorem Serving.serve (hC : C.Quiet) (h : Serving node id process calls w)
    (hprocess : process ≠ kInvalidProcess) {ops : List Operation}
    (hops : ∀ op ∈ ops, op.process = process) :
    ∃ w', (cls C.audited).serve w ops = some w' ∧
      Serving node id process (calls ++ ops.map (.invoked id)) w' := by
  induction ops generalizing w calls with
  | nil => exact ⟨w, rfl, by simpa using h⟩
  | cons op ops ih =>
    obtain ⟨hop, hops⟩ := List.forall_mem_cons.mp hops
    obtain ⟨r, hr, hnext⟩ := h.invoke hC hprocess hop
    obtain ⟨w', hw', hlast⟩ := ih hnext hops
    refine ⟨w', by rw [WorkerClass.serve, hr]; exact hw', ?_⟩
    rwa [List.append_assoc, List.singleton_append] at hlast

-- An operation of another process closes the client and opens the next one.
theorem Between.restart (h : Between C node id calls w) {op : Operation}
    (hop : w.process = kInvalidProcess ∨ w.process ≠ op.process) :
    Serving node id op.process (calls ++ sessionSoFar node id []) (w.restart C.audited op) := by
  rw [ClientWorker.restart, if_pos hop]
  have hnode : (w.close C.audited).node = node := by
    rw [← h.node]
    unfold close
    split <;> rfl
  refine ⟨hnode, rfl, ⟨_, congrArg (fun k ↦ some (k, _)) h.created⟩, ?_, ?_⟩
  · exact congrArg (· + 1) h.created
  · change (w.close C.audited).world.calls ++ [.created (w.close C.audited).world.created] ++
      [.opened (w.close C.audited).world.created (w.close C.audited).node] = _
    rw [h.calls, h.created, hnode, List.append_assoc]
    rfl

theorem restart_restart (op : Operation) (h : op.process ≠ kInvalidProcess) :
    (w.restart C.audited op).restart C.audited op = w.restart C.audited op := by
  have hprocess : (w.restart C.audited op).process = op.process := by
    unfold restart
    split
    · rfl
    · next hsame => simpa using (not_or.mp hsame).2
  rw [restart, if_neg]
  simp [hprocess, h]

/-- A run of one process is a session on the next object. -/
theorem Between.serve (hC : C.Quiet) (h : Between C node id calls w) {op : Operation}
    {ops : List Operation} (hw : w.process = kInvalidProcess ∨ w.process ≠ op.process)
    (hprocess : op.process ≠ kInvalidProcess) (hops : ∀ o ∈ ops, o.process = op.process) :
    ∃ w', (cls C.audited).serve w (op :: ops) = some w' ∧
      Serving node id op.process (calls ++ sessionSoFar node id (op :: ops)) w' := by
  obtain ⟨w', hw', hserving⟩ := (h.restart hw).serve hC hprocess
    (List.forall_mem_cons.mpr ⟨rfl, hops⟩)
  refine ⟨w', ?_, ?_⟩
  · rw [← hw', WorkerClass.serve, WorkerClass.serve]
    -- The first operation opens the session; the restart does nothing more afterwards.
    have hinv : (cls C.audited).invoke w op =
        (cls C.audited).invoke (w.restart C.audited op) op := by
      simp only [cls, ClientWorker.invoke, restart_restart op hprocess]
    rw [hinv]
  · simpa [sessionSoFar] using hserving

/-- One session for each run. -/
theorem Between.serve_runs (hC : C.Quiet) (h : Between C node id calls w)
    {rs : List (List Operation)}
    (hruns : ∀ r ∈ rs, r ≠ [] ∧ ∀ op ∈ r, op.process ≠ kInvalidProcess ∧
      ∀ op' ∈ r, op'.process = op.process)
    (hchange : rs.IsChain fun r s ↦ ∀ a ∈ r, ∀ b ∈ s, a.process ≠ b.process)
    (hfirst : ∀ r ∈ rs.head?, ∀ op ∈ r, w.process = kInvalidProcess ∨ w.process ≠ op.process) :
    ∃ w', (cls C.audited).serve w rs.flatten = some w' ∧
      Between C node (id + rs.length) (calls ++ blocks (session node) id rs) w' := by
  induction rs generalizing w id calls with
  | nil => exact ⟨w, rfl, by simpa [blocks] using h⟩
  | cons r rs ih =>
    obtain ⟨⟨hne, hr⟩, htail⟩ := List.forall_mem_cons.mp hruns
    obtain ⟨op, ops, rfl⟩ := List.exists_cons_of_ne_nil hne
    obtain ⟨hprocess, hsame⟩ := hr op (by simp)
    obtain ⟨w₁, hw₁, hserving⟩ := h.serve hC (hfirst _ rfl op (by simp)) hprocess
      fun o ho ↦ hsame o (List.mem_cons_of_mem _ ho)
    -- The next run has another process, and with it another client.
    have hnext : ∀ r ∈ rs.head?, ∀ o ∈ r,
        w₁.process = kInvalidProcess ∨ w₁.process ≠ o.process := by
      intro r hr o ho
      obtain ⟨rs', rfl⟩ : ∃ rs', rs = r :: rs' := by
        cases rs with
        | nil => exact absurd hr (by simp)
        | cons r' rs' => exact ⟨rs', by rw [Option.some.inj hr]⟩
      rw [hserving.process]
      exact .inr ((List.isChain_cons_cons.mp hchange).1 op (by simp) o ho)
    obtain ⟨w₂, hw₂, hlast⟩ := ih hserving.between htail hchange.tail hnext
    refine ⟨w₂, ?_, ?_⟩
    · rw [List.flatten_cons, WorkerClass.serve_append, hw₁]
      exact hw₂
    · rw [blocks, session, List.length_cons, Nat.add_comm rs.length, ← Nat.add_assoc]
      simpa only [List.append_assoc] using hlast

end ClientWorker

/-! ## The calls in sessions -/

/-- The operations, cut where the process changes and nowhere else. -/
structure ProcessRuns (ops : List Operation) (rs : List (List Operation)) : Prop where
  flatten : rs.flatten = ops
  ne_nil : ∀ r ∈ rs, r ≠ []
  one_process : ∀ r ∈ rs, ∀ op ∈ r, ∀ op' ∈ r, op.process = op'.process
  change : rs.IsChain fun r s ↦ ∀ op ∈ r, ∀ op' ∈ s, op.process ≠ op'.process

theorem processRuns_runs (ops : List Operation) :
    ProcessRuns ops (runs Operation.process ops) where
  flatten := flatten_runs _ ops
  ne_nil _ hr := ne_nil_of_mem_runs _ hr
  one_process _ hr _ ho _ ho' := key_eq_of_mem_runs _ hr ho ho'
  change := runs_isChain _ ops

def ClientCall.closes (id : Nat) : ClientCall → Bool
  | .closed i => i = id
  | _ => false

/-- Client sessions match processes: the calls are one session for each run of operations of one
process, and each session has an object of its own.  The other fields follow for each object. -/
structure InSessions (node : String) (ops : List Operation) (calls : List ClientCall) : Prop where
  sessions : ∃ rs, ProcessRuns ops rs ∧ calls = blocks (session node) 0 rs
  one_process : ∀ id op op', .invoked id op ∈ calls → .invoked id op' ∈ calls →
    op.process = op'.process
  open_at_invoke : ∀ before id op later, calls = before ++ .invoked id op :: later →
    .opened id node ∈ before ∧ .closed id ∉ before
  closed_once : ∀ id node', .opened id node' ∈ calls → calls.countP (·.closes id) = 1
  fresh_after_change : ∀ id id' op op',
    [ClientCall.invoked id op, .invoked id' op'].Sublist calls → op.process ≠ op'.process → id < id'

theorem session_id (node : String) (id : Nat) (ops : List Operation) :
    ∀ call ∈ session node id ops, call.id = id := by
  intro call hcall
  simp only [session, sessionSoFar, List.cons_append, List.mem_cons, List.mem_append, List.mem_map,
    List.not_mem_nil, or_false] at hcall
  obtain rfl | rfl | ⟨op, -, rfl⟩ | rfl := hcall <;> rfl

theorem invoked_mem_session {node : String} {id : Nat} {ops : List Operation} {op : Operation} :
    .invoked id op ∈ session node id ops ↔ op ∈ ops := by
  simp [session, sessionSoFar]

-- In a session the object is open at every invocation.
theorem open_of_session_eq {node : String} {id : Nat} {ops : List Operation} {op : Operation}
    {before later : List ClientCall} (h : session node id ops = before ++ .invoked id op :: later) :
    .opened id node ∈ before ∧ .closed id ∉ before := by
  -- A session begins with `created` and `opened`, which stand before every invocation.
  rcases before with _ | ⟨c, _ | ⟨d, before⟩⟩
  · exact absurd (List.cons.inj h).1 (by simp)
  · exact absurd (List.cons.inj (List.cons.inj h).2).1 (by simp)
  · obtain ⟨rfl, h₁⟩ := List.cons.inj h
    obtain ⟨rfl, h₂⟩ := List.cons.inj h₁
    have hbefore : .closed id ∉ before := by
      intro hmem
      rcases List.append_eq_append_iff.mp h₂ with ⟨l, hl, htail⟩ | ⟨l, hl, -⟩
      · cases l with
        | nil => exact absurd (List.cons.inj htail).1 (by simp)
        | cons c l => exact absurd (List.cons.inj htail).2 (by simp)
      · have : .closed id ∈ ops.map (ClientCall.invoked id) := hl ▸ List.mem_append_left l hmem
        simp at this
    exact ⟨by simp, by simpa using hbefore⟩

section

variable {node : String} {ops : List Operation} {rs : List (List Operation)}

-- The calls on one object are one session, or none.
theorem filter_id_sessions (id : Nat) :
    (blocks (session node) 0 rs).filter (·.id = id) = (rs[id]?).elim [] (session node id) := by
  simpa using blocks_filter (session_id node) 0 id rs

theorem exists_session {call : ClientCall} (h : call ∈ blocks (session node) 0 rs) :
    ∃ r ∈ rs, call ∈ session node call.id r ∧
      (blocks (session node) 0 rs).filter (·.id = call.id) = session node call.id r := by
  obtain ⟨r, -, hr, hcall⟩ := mem_blocks_label (session_id node) h
  rw [Nat.sub_zero] at hr
  exact ⟨r, List.mem_of_getElem? hr, hcall, by rw [filter_id_sessions, hr]; rfl⟩

theorem ProcessRuns.inSessions (h : ProcessRuns ops rs) :
    InSessions node ops (blocks (session node) 0 rs) := by
  have hone : ∀ id op op', .invoked id op ∈ blocks (session node) 0 rs →
      .invoked id op' ∈ blocks (session node) 0 rs → op.process = op'.process := by
    intro id op op' hop hop'
    obtain ⟨r, hr, hmem, hown⟩ := exists_session hop
    have hmem' : .invoked id op' ∈ (blocks (session node) 0 rs).filter (·.id = id) :=
      List.mem_filter.mpr ⟨hop', by simp [ClientCall.id]⟩
    rw [ClientCall.id] at hmem hown
    rw [hown] at hmem'
    exact h.one_process r hr op (invoked_mem_session.mp hmem) op' (invoked_mem_session.mp hmem')
  refine ⟨⟨rs, h, rfl⟩, hone, fun before id op later hcalls ↦ ?_, fun id node' hopened ↦ ?_,
    fun id id' op op' hsub hne ↦ ?_⟩
  · have hmem : .invoked id op ∈ blocks (session node) 0 rs := by
      rw [hcalls]
      simp
    obtain ⟨r, hr, -, hown⟩ := exists_session hmem
    rw [hcalls, List.filter_append, List.filter_cons_of_pos (by simp)] at hown
    obtain ⟨hopen, hclosed⟩ := open_of_session_eq hown.symm
    exact ⟨(List.mem_filter.mp hopen).1,
      fun hmem ↦ hclosed (List.mem_filter.mpr ⟨hmem, by simp [ClientCall.id]⟩)⟩
  · obtain ⟨r, hr, -, hown⟩ := exists_session hopened
    have hcount : (blocks (session node) 0 rs).countP (·.closes id) =
        ((blocks (session node) 0 rs).filter (·.id = id)).countP (·.closes id) := by
      rw [List.countP_filter]
      refine List.countP_congr fun call _ ↦ ?_
      cases call <;> grind [ClientCall.closes, ClientCall.id]
    rw [hcount]
    rw [ClientCall.id] at hown
    rw [hown]
    simp [session, sessionSoFar, ClientCall.closes, List.countP_map, Function.comp_def]
  · have hle := (blocks_pairwise (session_id node) 0 rs).sublist hsub
    have hid : id ≠ id' := by
      rintro rfl
      exact hne (hone id op op' (hsub.subset (by simp)) (hsub.subset (by simp)))
    exact lt_of_le_of_ne (by simpa [ClientCall.id] using hle) hid

end

/-! ## Sessions and the log -/

def ClientCall.creates : ClientCall → Bool
  | .created _ => true
  | _ => false

def ClientCall.ends : ClientCall → Bool
  | .closed _ => true
  | _ => false

theorem session_countP {p : ClientCall → Bool} (hp : ∀ id op, p (.invoked id op) = false)
    (node : String) (id : Nat) (ops : List Operation) :
    (session node id ops).countP p = [.created id, .opened id node, .closed id].countP p := by
  have hops : (ops.map (ClientCall.invoked id)).countP p = 0 := by
    simp [List.countP_map, Function.comp_def, hp]
  simp [session, sessionSoFar, List.countP_cons, hops]

-- A worker that has invoked has a client.
theorem ClientWorker.serve_client {C : ClientClass κ ω} {w w' : ClientWorker κ ω}
    {ops : List Operation} (h : (cls C).serve w ops = some w') (hops : ops ≠ []) :
    ∃ c, w'.client = some c := by
  induction ops generalizing w with
  | nil => exact absurd rfl hops
  | cons op ops ih =>
    obtain ⟨r, hr, hrest⟩ := Option.bind_eq_some_iff.mp h
    cases ops with
    | nil =>
      obtain rfl := Option.some.inj hrest
      simp only [cls, ClientWorker.invoke] at hr
      split at hr
      · exact absurd hr (by simp)
      · obtain ⟨i, -, rfl⟩ := Option.map_eq_some_iff.mp hr
        exact ⟨_, rfl⟩
    | cons op' ops => exact ih hrest (by simp)

/-- Calls that still lack the last `close` are no sessions. -/
theorem not_inSessions_of_open {node : String} {ops : List Operation} {rs : List (List Operation)}
    {calls : List ClientCall} {id : Nat} (h : calls ++ [.closed id] = blocks (session node) 0 rs) :
    ¬InSessions node ops calls := by
  intro hcalls
  obtain ⟨rs', -, hrs'⟩ := hcalls.sessions
  have hcreated (rs : List (List Operation)) :
      (blocks (session node) 0 rs).countP ClientCall.creates = rs.length :=
    blocks_countP (session_countP (fun _ _ ↦ rfl) node) 0 rs
  have hclosed (rs : List (List Operation)) :
      (blocks (session node) 0 rs).countP ClientCall.ends = rs.length :=
    blocks_countP (session_countP (fun _ _ ↦ rfl) node) 0 rs
  have hcreated' := hcreated rs
  have hclosed' := hclosed rs
  rw [← h, List.countP_append, hrs', hcreated rs'] at hcreated'
  rw [← h, List.countP_append, hrs', hclosed rs'] at hclosed'
  simp [ClientCall.creates, ClientCall.ends] at hcreated' hclosed'
  omega

theorem not_inSessions_nil {node : String} {ops : List Operation} (hops : ops ≠ []) :
    ¬InSessions node ops [] := by
  intro h
  obtain ⟨rs, hrs, hcalls⟩ := h.sessions
  have hlength := congrArg (List.countP ClientCall.creates) hcalls
  rw [blocks_countP (session_countP (fun _ _ ↦ rfl) node) 0 rs] at hlength
  have hnil : rs = [] := List.length_eq_zero_iff.mp hlength.symm
  exact hops (by rw [← hrs.flatten, hnil, List.flatten_nil])

namespace ClientWorker

variable {C : ClientClass κ ω} {node : String} {world : ω} {ops : List Operation}

/-- What the worker has done when it has served `ops`: one session for each run, the last one still
open. -/
theorem start_serve (node : String) (world : ω) (hC : C.Quiet)
    (hops : ∀ op ∈ ops, op.process ≠ kInvalidProcess) :
    ∃ w', (cls C.audited).serve ⟨node, kInvalidProcess, none, { world }⟩ ops = some w' ∧
      (w'.close C.audited).world.calls =
        blocks (session node) 0 (runs Operation.process ops) := by
  have hrs := processRuns_runs ops
  obtain ⟨w, hw, hlast⟩ := (between_start (C := C) node kInvalidProcess world).serve_runs hC
    (fun r hr ↦ ⟨hrs.ne_nil r hr, fun op hop ↦
      ⟨hops op (hrs.flatten ▸ List.mem_flatten_of_mem hr hop),
        fun op' hop' ↦ hrs.one_process r hr op' hop' op hop⟩⟩)
    hrs.change (fun _ _ _ _ ↦ .inl rfl)
  rw [hrs.flatten] at hw
  exact ⟨w, hw, hlast.calls⟩

/-- A loop that threw has not closed the client it opened last, or has opened none. -/
theorem not_inSessions_of_served (hC : C.Quiet)
    (hops : ∀ op ∈ ops, op.process ≠ kInvalidProcess) (hne : ops ≠ []) {done : List Operation}
    (hdone : done <+: ops) {w' : ClientWorker (Nat × κ) (Audit ω)}
    (h : (cls C.audited).serve ⟨node, kInvalidProcess, none, { world }⟩ done = some w') :
    ¬InSessions node ops w'.world.calls := by
  by_cases hnil : done = []
  · subst hnil
    obtain rfl := Option.some.inj h
    exact not_inSessions_nil hne
  · obtain ⟨c, hc⟩ := serve_client h hnil
    obtain ⟨w, hw, hcalls⟩ := start_serve node world hC
      fun op hop ↦ hops op (hdone.subset hop)
    obtain rfl := Option.some.inj (h.symm.trans hw)
    rw [close, hc] at hcalls
    exact not_inSessions_of_open hcalls

end ClientWorker

/-- A worker whose clients do not throw has one session for each run of one process, as long as all
that the log prints does print; else the loop ends before it closes the client it has opened. -/
theorem clientWorker_sessions (C : ClientClass κ ω) (hC : C.Quiet) (J : Conversions)
    (node : String) (world : ω) (ops inbox : List Operation) (exit : Operation)
    (hexit : exit.type = .kExit)
    (hops : ∀ op ∈ ops, op.type ≠ .kExit ∧ op.process ≠ kInvalidProcess) :
    let W := ClientWorker.cls C.audited
    let w := ⟨node, kInvalidProcess, none, { world }⟩
    let shift := W.runAsync J w (ops ++ exit :: inbox)
    (InSessions node ops shift.self.world.calls ↔
        ops = [] ∨ (W.Prints w ops ∧ exit.op.Within 32)) ∧
      (shift.ending = .exited ↔ W.Prints w ops ∧ exit.op.Within 32) := by
  intro W w shift
  have hprocess : ∀ op ∈ ops, op.process ≠ kInvalidProcess := fun op hop ↦ (hops op hop).2
  have htype : ∀ op ∈ ops, op.type ≠ .kExit := fun op hop ↦ (hops op hop).1
  by_cases h : W.Prints w ops ∧ exit.op.Within 32
  · obtain ⟨w', hw', hcalls⟩ := ClientWorker.start_serve node world hC hprocess
    obtain ⟨hending, hself⟩ := WorkerClass.runAsync_served J inbox hw' htype hexit
      h.1 h.2
    -- The last session ends with the `close` after the loop.
    have hsessions : InSessions node ops shift.self.world.calls := by
      rw [show shift.self = w'.close C.audited from hself, hcalls]
      exact (processRuns_runs ops).inSessions
    exact ⟨iff_of_true hsessions (.inr h), iff_of_true hending h⟩
  · obtain ⟨hending, done, hdone, hserve⟩ :=
      WorkerClass.runAsync_unserved J inbox htype h
    refine ⟨?_, iff_of_false (by rw [show shift.ending = .threw from hending]; decide) h⟩
    by_cases hne : ops = []
    · subst hne
      obtain rfl := List.prefix_nil.mp hdone
      refine iff_of_true ?_ (.inl rfl)
      rw [show shift.self = w from (Option.some.inj hserve).symm]
      exact (processRuns_runs []).inSessions
    · exact iff_of_false (ClientWorker.not_inSessions_of_served hC hprocess hne hdone hserve)
        (by rintro (hnil | hall); exacts [hne hnil, h hall])

/-- Process 0 crashes after two operations, and its thread goes on as process 5. -/
def crashOperations : List Operation :=
  [{ OperationFactory.read .null with process := 0 },
    { OperationFactory.write .null .null with process := 0 },
    { OperationFactory.read .null with process := 5 }]

theorem clientWorker_sessions_crash :
    InSessions "n1" crashOperations
      ((ClientWorker.cls NoopClient.audited).runAsync .jsoncpp
        ⟨"n1", kInvalidProcess, none, { world := () }⟩
        (crashOperations ++ [OperationFactory.exit])).self.world.calls :=
  (clientWorker_sessions NoopClient (fun _ _ _ ↦ rfl) .jsoncpp "n1" () crashOperations []
    OperationFactory.exit rfl (by decide)).1.mpr (.inr ⟨by decide, by decide⟩)

/-- A read, and a write of a number of more than 32 bits, for process 0. -/
def longWrite : List Operation :=
  [{ OperationFactory.read .null with process := 0 },
    { OperationFactory.write (.string "x") (.int 2147483648) with process := 0 }]

/-- Neither client throws; the write and the answer to the read do, and the client that was opened
for them is never closed. -/
theorem clientWorker_sessions_long :
    (let calls := ((ClientWorker.cls NoopClient.audited).runAsync .jsoncpp
        ⟨"n1", kInvalidProcess, none, { world := () }⟩
        (longWrite ++ [OperationFactory.exit])).self.world.calls;
      NoopClient.Quiet ∧ .opened 0 "n1" ∈ calls ∧ calls.countP (·.closes 0) = 0 ∧
        ¬InSessions "n1" longWrite calls) ∧
    (let calls := ((ClientWorker.cls (NumberClient 2147483648).audited).runAsync .jsoncpp
        ⟨"n1", kInvalidProcess, none, { world := () }⟩
        (crashOperations ++ [OperationFactory.exit])).self.world.calls;
      (NumberClient 2147483648).Quiet ∧ .opened 0 "n1" ∈ calls ∧
        calls.countP (·.closes 0) = 0 ∧ ¬InSessions "n1" crashOperations calls) := by
  have hopen {ops : List Operation} {calls : List ClientCall} (h : .opened 0 "n1" ∈ calls)
      (hcount : calls.countP (·.closes 0) = 0) : ¬InSessions "n1" ops calls := by
    intro hcalls
    exact absurd (hcount.symm.trans (hcalls.closed_once 0 "n1" h)) (by decide)
  have hwrite : .opened 0 "n1" ∈ ((ClientWorker.cls NoopClient.audited).runAsync .jsoncpp
      ⟨"n1", kInvalidProcess, none, { world := () }⟩
      (longWrite ++ [OperationFactory.exit])).self.world.calls := .tail _ (.head _)
  have hread : .opened 0 "n1" ∈ ((ClientWorker.cls (NumberClient 2147483648).audited).runAsync
      .jsoncpp ⟨"n1", kInvalidProcess, none, { world := () }⟩
      (crashOperations ++ [OperationFactory.exit])).self.world.calls := .tail _ (.head _)
  exact ⟨⟨fun _ _ _ ↦ rfl, hwrite, by decide, hopen hwrite (by decide)⟩,
    fun _ _ _ ↦ rfl, hread, by decide, hopen hread (by decide)⟩

end Jepsen
