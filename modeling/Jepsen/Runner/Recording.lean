import Jepsen.Runner.Steps
import Jepsen.Runner.Testbed

/-!
# What the history says about the database

The history that the runner records, with a call for every dispatch to a client and a return for
every completion that is not `:info`, is linearizable when the database answers one request at a
time.  What makes it a history of calls and returns at all is that a client thread takes a new
process after `:info`: the crashed one is still in its call, and never makes another.
-/

namespace Jepsen

open Library Context GeneratorFactory

/-! ## The runner over the database is a system with atomic effects -/

namespace Testbed

variable {σ : Type} {D : Database σ} {b : Testbed σ}

theorem recorded_snoc (history : List Entry) (e : Entry) :
    recorded (history ++ [e]) = recorded history ++ e.event.toList := by
  rw [recorded, List.filterMap_append, recorded]
  cases h : e.event <;> simp [h]

/-- An operation of a client that its worker is through with, and the runner has not seen yet. -/
def Done (w : WorkerState) (op : Operation) : Prop :=
  op ∈ w.completions ∨ w.job = some (.returned op)

/-- `s` is the state of the database's calls that belongs to the runner and the database. -/
structure Tracks (b : Testbed σ) (s : Linear.System σ Int (String × OPInfo) Response) : Prop where
  object : s.object = b.database
  history : s.history = recorded b.runner.history
  exclusive : ∀ p, s.pending p = none ∨ s.answer p = none
  requests : ∀ p x, b.requests p = some x → ∃ i, s.pending p = some (i, x)
  answers : ∀ p y, b.answers p = some y → ∃ i, s.answer p = some (i, y)
  waiting : ∀ t op, op ∈ (b.runner.worker t).inbox → op.type ≠ .kExit →
    op.process ≠ kNemesisProcess →
    b.requests op.process = none ∧ ∃ i, s.pending op.process = some (i, op.payload)
  done : ∀ t op, Done (b.runner.worker t) op → op.process ≠ kNemesisProcess → op.type ≠ .kInfo →
    b.answers op.process = none ∧ ∃ i, s.answer op.process = some (i, op.result)
  /-- Only clients with an operation in flight, and crashed ones, are in a call. -/
  live : ∀ p, s.pending p ≠ none ∨ s.answer p ≠ none → p ≠ kNemesisProcess ∧
    ((∃ t, p ∈ (b.runner.inFlight t).map Operation.process) ∨
      Past b.runner.concurrency b.runner.ctx.workers p)

namespace Tracks

variable {s : Linear.System σ Int (String × OPInfo) Response}

theorem start (D : Database σ) (n : Nat) (g : GeneratorPtr) (time : Int) :
    Tracks (Testbed.start D n g time) (Linear.System.start D) where
  object := rfl
  history := rfl
  exclusive _ := .inl rfl
  requests _ _ h := absurd h (by simp [Testbed.start])
  answers _ _ h := absurd h (by simp [Testbed.start])
  waiting _ _ h := absurd h (by simp [Testbed.start, Runner.start])
  done _ _ h := by cases h <;> simp_all [Testbed.start, Runner.start]
  live _ h := by simp [Linear.System.start] at h

/-- A step of worker `t` alone, which hands its operation on. -/
theorem setWorker (h : Tracks b s) {t : Int} {w : WorkerState}
    {requests : Int → Option (String × OPInfo)} {answers : Int → Option Response}
    (hflight : (w.completions ++ (w.job.map Job.op).toList ++
      w.inbox.filter (fun op ↦ op.type ≠ .kExit)).map Operation.process =
        (b.runner.inFlight t).map Operation.process)
    (hrequests : ∀ p x, requests p = some x → ∃ i, s.pending p = some (i, x))
    (hanswers : ∀ p y, answers p = some y → b.answers p = some y)
    (hother : ∀ t' ≠ t, ∀ op ∈ b.runner.inFlight t', requests op.process = b.requests op.process)
    (hwaiting : ∀ op ∈ w.inbox, op.type ≠ .kExit → op.process ≠ kNemesisProcess →
      requests op.process = none ∧ ∃ i, s.pending op.process = some (i, op.payload))
    (hdone : ∀ op, Done w op → op.process ≠ kNemesisProcess → op.type ≠ .kInfo →
      answers op.process = none ∧ ∃ i, s.answer op.process = some (i, op.result)) :
    Tracks { b with
      runner := b.runner.setWorker t w, requests := requests, answers := answers } s where
  object := h.object
  history := h.history
  exclusive := h.exclusive
  requests := hrequests
  answers p y hy := h.answers p y (hanswers p y hy)
  waiting t' op hop hexit hclient := by
    by_cases htt : t' = t
    · subst htt
      rw [Runner.setWorker_worker] at hop
      exact hwaiting op hop hexit hclient
    · rw [Runner.setWorker_other htt] at hop
      obtain ⟨hnone, hpending⟩ := h.waiting t' op hop hexit hclient
      have hfly : op ∈ b.runner.inFlight t' := Runner.mem_inFlight.mpr (.inr (.inr ⟨hop, hexit⟩))
      exact ⟨(hother t' htt op hfly).trans hnone, hpending⟩
  done t' op hop hclient hinfo := by
    by_cases htt : t' = t
    · subst htt
      rw [Runner.setWorker_worker] at hop
      exact hdone op hop hclient hinfo
    · rw [Runner.setWorker_other htt] at hop
      obtain ⟨hnone, hanswer⟩ := h.done t' op hop hclient hinfo
      refine ⟨?_, hanswer⟩
      show answers op.process = none
      cases hy : answers op.process with
      | none => rfl
      | some y => exact absurd ((hanswers _ y hy).symm.trans hnone) (by simp)
  live p hp := by
    obtain ⟨hclient, hlive⟩ := h.live p hp
    refine ⟨hclient, hlive.imp (fun ⟨t', ht'⟩ ↦ ⟨t', ?_⟩) id⟩
    rw [Runner.flight_setWorker hflight]
    exact ht'

theorem take (h : Tracks b s) (hocc : b.runner.Occupancy) {t : Int} {r : Runner}
    (hs : b.runner.take t = some r) :
    Tracks { b with runner := r, requests := send r t b.requests } s := by
  obtain ⟨op, inbox, hin, hjob, rfl⟩ := Runner.take_eq hs
  have hinbox : ∀ o ∈ inbox, o ∈ (b.runner.worker t).inbox := fun o ho ↦ by
    rw [hin]
    exact List.mem_cons_of_mem _ ho
  by_cases hexit : op.type = .kExit
  · -- The worker leaves its loop, and nothing is sent.
    rw [if_pos hexit]
    have hsend : send (b.runner.setWorker t { b.runner.worker t with
        inbox := inbox, running := false }) t b.requests = b.requests := by
      simp [send, hjob]
    rw [hsend]
    exact h.setWorker (by simp [Runner.inFlight, hin, hexit]) h.requests (fun _ _ hy ↦ hy)
      (fun _ _ _ _ ↦ rfl) (fun o ho ↦ h.waiting t o (hinbox o ho)) (fun o ho ↦ h.done t o ho)
  · rw [if_neg hexit]
    have hmem : op ∈ b.runner.inFlight t :=
      Runner.mem_inFlight.mpr (.inr (.inr ⟨by rw [hin]; exact List.mem_cons_self .., hexit⟩))
    -- It was the only operation in flight for the worker.
    have halone := (hocc.alone hmem).2.1
    have hrest : inbox.filter (fun o ↦ o.type ≠ .kExit) = [] := by
      have hlen := congrArg List.length halone
      rw [Runner.inFlight, hin, List.filter_cons_of_pos (by simpa using hexit)] at hlen
      simp only [List.length_append, List.length_cons, List.length_nil] at hlen
      apply List.eq_nil_of_length_eq_zero
      omega
    have hdone : ∀ o, Done { b.runner.worker t with
        inbox := inbox, job := some (.invoking op) } o → Done (b.runner.worker t) o := by
      intro o ho
      cases ho with
      | inl ho => exact .inl ho
      | inr ho => exact absurd ho (by simp)
    have hwait : ∀ o ∈ inbox, o.type ≠ .kExit → False := by
      intro o ho hne
      have hmem' : o ∈ inbox.filter (fun o ↦ o.type ≠ .kExit) :=
        List.mem_filter.mpr ⟨ho, by simpa using hne⟩
      rw [hrest] at hmem'
      exact absurd hmem' (by simp)
    have hflight : ((b.runner.worker t).completions ++
        ((some (Job.invoking op)).map Job.op).toList ++
        inbox.filter (fun o ↦ o.type ≠ .kExit)).map Operation.process =
          (b.runner.inFlight t).map Operation.process := by
      simp [Runner.inFlight, hin, hjob, hexit, Job.op]
    by_cases hclient : op.process = kNemesisProcess
    · have hsend : send (b.runner.setWorker t { b.runner.worker t with
          inbox := inbox, job := some (.invoking op) }) t b.requests = b.requests := by
        simp [send, hclient]
      rw [hsend]
      exact h.setWorker hflight h.requests (fun _ _ hy ↦ hy) (fun _ _ _ _ ↦ rfl)
        (fun o ho hne ↦ (hwait o ho hne).elim) (fun o ho ↦ h.done t o (hdone o ho))
    · have hsend : send (b.runner.setWorker t { b.runner.worker t with
          inbox := inbox, job := some (.invoking op) }) t b.requests =
            Function.update b.requests op.process (some op.payload) := by
        simp [send, hclient]
      rw [hsend]
      have hfirst : op ∈ (b.runner.worker t).inbox := by
        rw [hin]
        exact List.mem_cons_self ..
      obtain ⟨-, hpending⟩ := h.waiting t op hfirst hexit hclient
      refine h.setWorker hflight (fun p x hx ↦ ?_) (fun _ _ hy ↦ hy) (fun t' htt o ho ↦ ?_)
        (fun o ho hne ↦ (hwait o ho hne).elim) (fun o ho ↦ h.done t o (hdone o ho))
      · by_cases hp : p = op.process
        · subst hp
          rw [Function.update_self] at hx
          rw [← Option.some.inj hx]
          exact hpending
        · rw [Function.update_of_ne hp] at hx
          exact h.requests p x hx
      · rw [Function.update_of_ne]
        exact fun hproc ↦ htt (hocc.thread_unique ho hmem hproc)

/-- The client returns: with an answer of the database, or without one. -/
theorem finish (h : Tracks b s) {t : Int} {op ret : Operation} {r : Runner}
    {answers : Int → Option Response} (hs : b.runner.finish t ret = some r)
    (hanswers : ∀ p y, answers p = some y → b.answers p = some y)
    (hjob : (b.runner.worker t).job = some (.invoking op))
    (hret : op.process = kNemesisProcess ∨ ret.type = .kInfo ∨
      answers op.process = none ∧ b.answers op.process = some ret.result) :
    Tracks { b with runner := r, answers := answers } s := by
  obtain ⟨op', hjob', rfl⟩ := Runner.finish_eq hs
  have hop : op' = op := Job.invoking.inj (Option.some.inj (hjob'.symm.trans hjob))
  subst hop
  refine h.setWorker (by simp [Runner.inFlight, hjob, Job.op]) h.requests hanswers
    (fun _ _ _ _ ↦ rfl) (fun o ho ↦ h.waiting t o ho) (fun o ho hclient hinfo ↦ ?_)
  cases ho with
  | inl ho =>
    obtain ⟨hnone, hanswer⟩ := h.done t o (.inl ho) hclient hinfo
    refine ⟨?_, hanswer⟩
    cases hy : answers o.process with
    | none => rfl
    | some y => exact absurd ((hanswers _ y hy).symm.trans hnone) (by simp)
  | inr ho =>
    have ho := Job.returned.inj (Option.some.inj ho)
    subst ho
    cases hret with
    | inl hnemesis => exact absurd hnemesis hclient
    | inr hret =>
      cases hret with
      | inl hret => exact absurd hret hinfo
      | inr hanswer => exact ⟨hanswer.1, h.answers op'.process ret.result hanswer.2⟩

theorem enqueue (h : Tracks b s) {t : Int} {r : Runner} (hs : b.runner.enqueue t = some r) :
    Tracks { b with runner := r } s := by
  obtain ⟨op, hjob, rfl⟩ := Runner.enqueue_eq hs
  refine h.setWorker (by simp [Runner.inFlight, hjob, Job.op]) h.requests (fun _ _ hy ↦ hy)
    (fun _ _ _ _ ↦ rfl) (fun o ho ↦ h.waiting t o ho) (fun o ho ↦ ?_)
  apply h.done t o
  cases ho with
  | inl ho =>
    cases List.mem_append.mp ho with
    | inl ho => exact .inl ho
    | inr ho =>
      rw [List.mem_singleton.mp ho]
      exact .inr hjob
  | inr ho => exact absurd ho (by simp)

theorem serve (h : Tracks b s) {p : Int} {x : String × OPInfo} {y : Response} {database : σ}
    (hrequest : b.requests p = some x) (happly : D.apply b.database x y database) :
    ∃ s', Linear.Step D s p s' ∧ Tracks { b with
      database := database
      requests := Function.update b.requests p none
      answers := Function.update b.answers p (some y) } s' := by
  obtain ⟨i, hpending⟩ := h.requests p x hrequest
  have hanswer : s.answer p = none := (h.exclusive p).resolve_left (by rw [hpending]; simp)
  refine ⟨_, .effect hpending (h.object ▸ happly), rfl, h.history, ?_, ?_, ?_, ?_, ?_, ?_⟩
  · intro q
    by_cases hq : q = p
    · exact .inl (by rw [hq]; exact Function.update_self _ _ _)
    · show Function.update s.pending p none q = none ∨ Function.update s.answer p _ q = none
      rw [Function.update_of_ne hq, Function.update_of_ne hq]
      exact h.exclusive q
  · intro q x' hx'
    dsimp only at hx' ⊢
    by_cases hq : q = p
    · rw [hq, Function.update_self] at hx'
      exact absurd hx' (by simp)
    · rw [Function.update_of_ne hq] at hx' ⊢
      exact h.requests q x' hx'
  · intro q y' hy'
    dsimp only at hy' ⊢
    by_cases hq : q = p
    · subst hq
      rw [Function.update_self] at hy' ⊢
      exact ⟨i, by rw [Option.some.inj hy']⟩
    · rw [Function.update_of_ne hq] at hy' ⊢
      exact h.answers q y' hy'
  · -- A request that is served is none that waits in an inbox.
    intro t op hop hexit hclient
    obtain ⟨hnone, hpend⟩ := h.waiting t op hop hexit hclient
    have hq : op.process ≠ p := by
      intro hq
      rw [hq, hrequest] at hnone
      exact absurd hnone (by simp)
    dsimp only
    rw [Function.update_of_ne hq, Function.update_of_ne hq]
    exact ⟨hnone, hpend⟩
  · intro t op hop hclient hinfo
    obtain ⟨hnone, hans⟩ := h.done t op hop hclient hinfo
    have hq : op.process ≠ p := by
      intro hq
      rw [hq, hanswer] at hans
      exact absurd hans (by simp)
    dsimp only
    rw [Function.update_of_ne hq, Function.update_of_ne hq]
    exact ⟨hnone, hans⟩
  · intro q hq'
    by_cases hq : q = p
    · subst hq
      exact h.live q (.inl (by rw [hpending]; simp))
    · apply h.live q
      dsimp only at hq'
      rw [Function.update_of_ne hq, Function.update_of_ne hq] at hq'
      exact hq'

end Tracks

section

variable {t time : Int} {op : Operation} {r : Runner}

-- A completion takes its operation out of flight.
theorem inFlight_completed (hocc : b.runner.Occupancy)
    (hc : Runner.Completed b.runner t time op r) (t' : Int) :
    r.inFlight t' = if t' = t then [] else b.runner.inFlight t' := by
  obtain ⟨rest, hcomp, hworker⟩ := hc.completions
  obtain ⟨-, -, rfl, hjob, hinbox⟩ := hocc.of_completion hcomp
  rw [Runner.inFlight_congr hworker, Runner.inFlight_setWorker, hjob, hinbox]
  rfl

theorem inFlight_of_completed (hc : Runner.Completed b.runner t time op r) :
    op ∈ b.runner.inFlight t := by
  obtain ⟨rest, hcomp, -⟩ := hc.completions
  apply Runner.mem_inFlight.mpr
  rw [hcomp]
  exact .inl (List.mem_cons_self ..)

theorem worker_completed (hc : Runner.Completed b.runner t time op r) (t' : Int) :
    (r.worker t').inbox = (b.runner.worker t').inbox ∧
      ∀ o, Done (r.worker t') o → Done (b.runner.worker t') o := by
  obtain ⟨rest, hcomp, hworker⟩ := hc.completions
  rw [hworker]
  by_cases htt : t' = t
  · subst htt
    rw [Runner.setWorker_worker]
    refine ⟨rfl, fun o ho ↦ ?_⟩
    cases ho with
    | inl ho => exact .inl (by rw [hcomp]; exact List.mem_cons_of_mem _ ho)
    | inr ho => exact .inr ho
  · rw [Runner.setWorker_other htt]
    exact ⟨rfl, fun _ ho ↦ ho⟩

-- No other operation of the process is done.
theorem done_ne_completed (hocc : b.runner.Occupancy)
    (hc : Runner.Completed b.runner t time op r) {t' : Int} {o : Operation}
    (ho : Done (r.worker t') o) : o.process ≠ op.process := by
  intro hproc
  have ho' : o ∈ r.inFlight t' := by
    apply Runner.mem_inFlight.mpr
    cases ho with
    | inl ho => exact .inl ho
    | inr ho => exact .inr (.inl ⟨_, ho, rfl⟩)
  rw [inFlight_completed hocc hc] at ho'
  by_cases htt : t' = t
  · rw [if_pos htt] at ho'
    exact absurd ho' (by simp)
  · rw [if_neg htt] at ho'
    exact htt (hocc.thread_unique ho' (inFlight_of_completed hc) hproc)

theorem nextProcess_completed (hocc : b.runner.Occupancy)
    (hc : Runner.Completed b.runner t time op r) (hclient : op.process ≠ kNemesisProcess)
    (hinfo : op.type = .kInfo) : t ≠ kNemesisProcess ∧
      b.runner.ctx.workers.lookup t = some op.process ∧
      r.ctx.workers = b.runner.ctx.workers.insert t (op.process + b.runner.concurrency) := by
  obtain ⟨rest, hcomp, -⟩ := hc.completions
  have hp := (hocc.of_completion hcomp).2.1
  have ht : t ≠ kNemesisProcess := fun e ↦ hclient ((hocc.processes.eq_nemesis_iff hp).mpr e)
  refine ⟨ht, hp, ?_⟩
  rw [hc.workers, if_pos ⟨hclient, hinfo⟩, hocc.thread_of_completion hcomp,
    hocc.processes.nextProcess_eq ht hp]

/-- A process in a call is still in flight, or crashed, unless it is the one that returned. -/
theorem live_completed (hocc : b.runner.Occupancy) (hc : Runner.Completed b.runner t time op r)
    {p : Int} (hclient : p ≠ kNemesisProcess) (hp : p = op.process → op.type = .kInfo)
    (h : (∃ t', p ∈ (b.runner.inFlight t').map Operation.process) ∨
      Past b.runner.concurrency b.runner.ctx.workers p) :
    (∃ t', p ∈ (r.inFlight t').map Operation.process) ∨ Past r.concurrency r.ctx.workers p := by
  rw [hc.concurrency]
  cases h with
  | inl hfly =>
    obtain ⟨t', ht'⟩ := hfly
    by_cases htt : t' = t
    · -- This was its last operation: the thread goes on as another process.
      subst htt
      rw [(hocc.alone (inFlight_of_completed hc)).2.1] at ht'
      have hop : p = op.process := List.mem_singleton.mp ht'
      subst hop
      obtain ⟨ht, hlookup, hworkers⟩ := nextProcess_completed hocc hc hclient (hp rfl)
      rw [hworkers]
      exact .inr (hocc.processes.past_renamed ht hlookup)
    · refine .inl ⟨t', ?_⟩
      rw [inFlight_completed hocc hc, if_neg htt]
      exact ht'
  | inr hpast =>
    by_cases hinfo : op.process ≠ kNemesisProcess ∧ op.type = .kInfo
    · obtain ⟨ht, hlookup, hworkers⟩ := nextProcess_completed hocc hc hinfo.1 hinfo.2
      rw [hworkers]
      exact .inr (hpast.rename ht hlookup)
    · rw [hc.workers, if_neg hinfo]
      exact .inr hpast

end

namespace Tracks

variable {s : Linear.System σ Int (String × OPInfo) Response} {t time : Int} {op : Operation}
  {r : Runner}

/-- The completion of the nemesis, or of a crashed client, is no event. -/
theorem silent (h : Tracks b s) (hocc : b.runner.Occupancy)
    (hc : Runner.Completed b.runner t time op r)
    (hop : op.process = kNemesisProcess ∨ op.type = .kInfo) : Tracks { b with runner := r } s where
  object := h.object
  history := by
    have hevent : Entry.event ⟨.completion, { op with time := time }⟩ = none := by
      cases hop with
      | inl hnemesis => simp [Entry.event, hnemesis]
      | inr hinfo => simp [Entry.event, hinfo]
    show s.history = recorded r.history
    rw [hc.history, recorded_snoc, hevent, h.history]
    exact (List.append_nil _).symm
  exclusive := h.exclusive
  requests := h.requests
  answers := h.answers
  waiting t' o ho := by
    rw [(worker_completed hc t').1] at ho
    exact h.waiting t' o ho
  done t' o ho := h.done t' o ((worker_completed hc t').2 o ho)
  live p hp := by
    obtain ⟨hclient, hlive⟩ := h.live p hp
    refine ⟨hclient, live_completed hocc hc hclient (fun heq ↦ ?_) hlive⟩
    exact hop.resolve_left fun hnemesis ↦ hclient (heq.trans hnemesis)

/-- The completion of a client's operation is its return. -/
theorem returns (h : Tracks b s) (hocc : b.runner.Occupancy)
    (hc : Runner.Completed b.runner t time op r) (hclient : op.process ≠ kNemesisProcess)
    (hinfo : op.type ≠ .kInfo) :
    ∃ s', Linear.Step D s op.process s' ∧ Tracks { b with runner := r } s' := by
  have hdone : Done (b.runner.worker t) op := by
    obtain ⟨rest, hcomp, -⟩ := hc.completions
    exact .inl (by rw [hcomp]; exact List.mem_cons_self ..)
  obtain ⟨hnone, i, hanswer⟩ := h.done t op hdone hclient hinfo
  have hpending : s.pending op.process = none :=
    (h.exclusive op.process).resolve_right (by rw [hanswer]; simp)
  refine ⟨_, .ret hanswer, h.object, ?_, ?_, h.requests, ?_, ?_, ?_, ?_⟩
  · have hevent : Entry.event ⟨.completion, { op with time := time }⟩ =
        some (.ret op.process op.result) := by
      simp [Entry.event, hclient, hinfo, Operation.result]
    show _ = recorded r.history
    rw [hc.history, recorded_snoc, hevent, h.history]
    rfl
  · intro q
    by_cases hq : q = op.process
    · exact .inl (by rw [hq]; exact hpending)
    · show s.pending q = none ∨ Function.update s.answer op.process none q = none
      rw [Function.update_of_ne hq]
      exact h.exclusive q
  · intro q y hy
    have hq : q ≠ op.process := by
      intro hq
      dsimp only at hy
      rw [hq, hnone] at hy
      exact absurd hy (by simp)
    dsimp only
    rw [Function.update_of_ne hq]
    exact h.answers q y hy
  · intro t' o ho
    rw [(worker_completed hc t').1] at ho
    exact h.waiting t' o ho
  · intro t' o ho
    dsimp only
    rw [Function.update_of_ne (done_ne_completed hocc hc ho)]
    exact h.done t' o ((worker_completed hc t').2 o ho)
  · intro q hq'
    have hq : q ≠ op.process := by
      intro hq
      subst hq
      dsimp only at hq'
      rw [Function.update_self, hpending] at hq'
      simp at hq'
    dsimp only at hq'
    rw [Function.update_of_ne hq] at hq'
    obtain ⟨hqclient, hlive⟩ := h.live q hq'
    exact ⟨hqclient, live_completed hocc hc hqclient (fun heq ↦ absurd heq hq) hlive⟩

-- The loop sent no operation to a worker, except perhaps the exit operations.
theorem idle (h : Tracks b s) (hhist : r.history = b.runner.history)
    (hn : r.concurrency = b.runner.concurrency) (hworkers : r.ctx.workers = b.runner.ctx.workers)
    (hworker : ∀ t, r.worker t = b.runner.worker t ∨ r.worker t =
      { b.runner.worker t with
        inbox := (b.runner.worker t).inbox ++ [OperationFactory.exit] }) :
    Tracks { b with runner := r } s where
  object := h.object
  history := by
    show s.history = recorded r.history
    rw [hhist]
    exact h.history
  exclusive := h.exclusive
  requests := h.requests
  answers := h.answers
  waiting t o ho hexit := by
    apply h.waiting t o _ hexit
    cases hworker t with
    | inl hw => rwa [← hw]
    | inr hw =>
      dsimp only at ho
      rw [hw] at ho
      refine (List.mem_append.mp ho).resolve_right fun hmem ↦ hexit ?_
      rw [List.mem_singleton.mp hmem]
      rfl
  done t o ho := by
    apply h.done t o
    cases hworker t with
    | inl hw => rwa [← hw]
    | inr hw =>
      dsimp only at ho
      rw [hw] at ho
      exact ho
  live p hp := by
    show _ ∧ ((∃ t, p ∈ (r.inFlight t).map _) ∨ Past r.concurrency r.ctx.workers p)
    rw [hn, hworkers]
    obtain ⟨hclient, hlive⟩ := h.live p hp
    refine ⟨hclient, hlive.imp (fun ⟨t, ht⟩ ↦ ⟨t, ?_⟩) id⟩
    have hfly : r.inFlight t = b.runner.inFlight t := by
      unfold Runner.inFlight
      cases hworker t with
      | inl hw => rw [hw]
      | inr hw => simp [hw, OperationFactory.exit]
    rw [hfly]
    exact ht

section Dispatch

variable {a : Answer}

/-- A free thread's process is in no call: it has no operation in flight and has not crashed. -/
theorem not_live (h : Tracks b s) (hocc : b.runner.Occupancy) {p : Int}
    (hfree : t ∈ b.runner.ctx.freeThreads) (hp : b.runner.ctx.workers.lookup t = some p) :
    s.pending p = none ∧ s.answer p = none := by
  by_contra hnot
  have hsome : s.pending p ≠ none ∨ s.answer p ≠ none := by
    by_contra hnone
    rw [not_or, not_not, not_not] at hnone
    exact hnot hnone
  obtain ⟨hclient, hlive⟩ := h.live p hsome
  cases hlive with
  | inl hfly =>
    obtain ⟨t', ht'⟩ := hfly
    exact hocc.not_inFlight_of_free hfree hp t' ht'
  | inr hpast => exact hocc.processes.ne_of_past hp hpast hclient rfl

theorem inFlight_dispatched (hreal : a.op.type.Dispatchable)
    (hworker : r.worker = (b.runner.setWorker t { b.runner.worker t with
      inbox := (b.runner.worker t).inbox ++ [a.op] }).worker) (t' : Int) :
    r.inFlight t' = if t' = t then b.runner.inFlight t ++ [a.op] else b.runner.inFlight t' := by
  rw [Runner.inFlight_congr hworker, Runner.inFlight_setWorker]
  by_cases htt : t' = t
  · rw [if_pos htt, if_pos htt]
    simp [Runner.inFlight, hreal.2.1]
  · rw [if_neg htt, if_neg htt]

/-- A dispatch to a client is a call of its process, and a dispatch to the nemesis no event. -/
theorem dispatch (h : Tracks b s) (hocc : b.runner.Occupancy)
    (hfree : t ∈ b.runner.ctx.freeThreads)
    (hp : b.runner.ctx.workers.lookup t = some a.op.process) (hreal : a.op.type.Dispatchable)
    (hhist : r.history = b.runner.history ++ [⟨.dispatch, a.op⟩])
    (hn : r.concurrency = b.runner.concurrency) (hworkers : r.ctx.workers = b.runner.ctx.workers)
    (hworker : r.worker = (b.runner.setWorker t { b.runner.worker t with
      inbox := (b.runner.worker t).inbox ++ [a.op] }).worker) :
    ∃ ps s', Run (Linear.Step D) s ps s' ∧ Tracks { b with runner := r } s' := by
  obtain ⟨hpending, hanswer⟩ := h.not_live hocc hfree hp
  have hnone : b.requests a.op.process = none := by
    cases hx : b.requests a.op.process with
    | none => rfl
    | some x =>
      obtain ⟨i, hi⟩ := h.requests _ x hx
      exact absurd (hi.symm.trans hpending) (by simp)
  have hinbox : ∀ t' o, o ∈ (r.worker t').inbox → o ∈ (b.runner.worker t').inbox ∨ o = a.op := by
    intro t' o ho
    rw [hworker] at ho
    by_cases htt : t' = t
    · subst htt
      rw [Runner.setWorker_worker] at ho
      exact (List.mem_append.mp ho).imp id List.mem_singleton.mp
    · rw [Runner.setWorker_other htt] at ho
      exact .inl ho
  have hdone : ∀ t' o, Done (r.worker t') o → Done (b.runner.worker t') o := by
    intro t' o ho
    rw [hworker] at ho
    by_cases htt : t' = t
    · subst htt
      rw [Runner.setWorker_worker] at ho
      exact ho
    · rwa [Runner.setWorker_other htt] at ho
  have hlive : ∀ p, (∃ t', p ∈ (b.runner.inFlight t').map Operation.process) ∨
      Past b.runner.concurrency b.runner.ctx.workers p →
      (∃ t', p ∈ (r.inFlight t').map Operation.process) ∨
        Past r.concurrency r.ctx.workers p := by
    rw [hn, hworkers]
    refine fun p hl ↦ hl.imp (fun ⟨t', ht'⟩ ↦ ⟨t', ?_⟩) id
    rw [inFlight_dispatched hreal hworker]
    by_cases htt : t' = t
    · rw [if_pos htt, List.map_append]
      exact List.mem_append_left _ (htt ▸ ht')
    · rw [if_neg htt]
      exact ht'
  by_cases hclient : a.op.process = kNemesisProcess
  · have hevent : Entry.event ⟨.dispatch, a.op⟩ = none := by simp [Entry.event, hclient]
    refine ⟨[], s, .nil s, h.object, ?_, h.exclusive, h.requests, h.answers, ?_, ?_, ?_⟩
    · rw [h.history]
      show _ = recorded r.history
      rw [hhist, recorded_snoc, hevent]
      exact (List.append_nil _).symm
    · intro t' o ho hexit ho'
      cases hinbox t' o ho with
      | inl ho => exact h.waiting t' o ho hexit ho'
      | inr ho => exact absurd (ho ▸ hclient) ho'
    · exact fun t' o ho ↦ h.done t' o (hdone t' o ho)
    · exact fun p hp' ↦ ⟨(h.live p hp').1, hlive p (h.live p hp').2⟩
  · have hevent : Entry.event ⟨.dispatch, a.op⟩ = some (.call a.op.process a.op.payload) := by
      simp [Entry.event, hclient]
    refine ⟨_, _, .single (.call (x := a.op.payload) hpending hanswer), h.object, ?_, ?_, ?_,
      h.answers, ?_, ?_, ?_⟩
    · show _ = recorded r.history
      rw [hhist, recorded_snoc, hevent, h.history]
      rfl
    · intro q
      by_cases hq : q = a.op.process
      · exact .inr (by rw [hq]; exact hanswer)
      · show Function.update s.pending _ _ q = none ∨ s.answer q = none
        rw [Function.update_of_ne hq]
        exact h.exclusive q
    · intro q x hx
      have hq : q ≠ a.op.process := by
        intro hq
        dsimp only at hx
        rw [hq, hnone] at hx
        exact absurd hx (by simp)
      dsimp only
      rw [Function.update_of_ne hq]
      exact h.requests q x hx
    · intro t' o ho hexit ho'
      cases hinbox t' o ho with
      | inl ho =>
        obtain ⟨hreq, i, hpend⟩ := h.waiting t' o ho hexit ho'
        have hq : o.process ≠ a.op.process := by
          intro hq
          rw [hq, hpending] at hpend
          exact absurd hpend (by simp)
        refine ⟨hreq, i, ?_⟩
        dsimp only
        rw [Function.update_of_ne hq]
        exact hpend
      | inr ho =>
        subst ho
        exact ⟨hnone, _, Function.update_self _ _ _⟩
    · exact fun t' o ho ↦ h.done t' o (hdone t' o ho)
    · intro q hq'
      by_cases hq : q = a.op.process
      · refine ⟨hq ▸ hclient, .inl ⟨t, ?_⟩⟩
        rw [inFlight_dispatched hreal hworker, if_pos rfl, hq]
        simp
      · dsimp only at hq'
        rw [Function.update_of_ne hq] at hq'
        exact ⟨(h.live q hq').1, hlive q (h.live q hq').2⟩

end Dispatch

/-- The database's calls move along with every step of the runner and the database. -/
theorem step (h : Tracks b s) {n : Nat} (hinv : b.runner.Invariant ProcessUnset n)
    {a : Option Action} {b' : Testbed σ} (hs : Step D b a b') :
    ∃ ps s', Run (Linear.Step D) s ps s' ∧ Tracks b' s' := by
  have hocc := hinv.occupancy
  cases hs with
  | take hs => exact ⟨[], s, .nil s, h.take hocc hs⟩
  | serve hrequest happly =>
    obtain ⟨s', hstep, hs'⟩ := h.serve hrequest happly
    exact ⟨_, s', .single hstep, hs'⟩
  | @answered _ t op ret r hjob hanswer hs =>
    refine ⟨[], s, .nil s, h.finish hs (fun p y hy ↦ ?_) hjob
      (.inr (.inr ⟨Function.update_self _ _ _, hanswer⟩))⟩
    by_cases hp : p = op.process
    · rw [hp, Function.update_self] at hy
      exact absurd hy (by simp)
    · rwa [Function.update_of_ne hp] at hy
  | crashed hinfo hs =>
    obtain ⟨op, hjob, -⟩ := Runner.finish_eq hs
    exact ⟨[], s, .nil s, h.finish hs (fun _ _ hy ↦ hy) hjob (.inr (.inl hinfo))⟩
  | nemesis hjob hnemesis hs =>
    exact ⟨[], s, .nil s, h.finish hs (fun _ _ hy ↦ hy) hjob (.inl hnemesis)⟩
  | enqueue hs => exact ⟨[], s, .nil s, h.enqueue hs⟩
  | complete hs =>
    obtain ⟨op, hc⟩ := Runner.complete_eq hs
    by_cases hop : op.process = kNemesisProcess ∨ op.type = .kInfo
    · exact ⟨[], s, .nil s, h.silent hocc hc hop⟩
    · rw [not_or] at hop
      obtain ⟨s', hstep, hs'⟩ := h.returns hocc hc hop.1 hop.2
      exact ⟨_, s', .single hstep, hs'⟩
  | @ask _ time draws fuel r hs =>
    cases (Runner.ask_eq hs).2 with
    | idle _ hhist hn hworkers hworker =>
      exact ⟨[], s, .nil s, h.idle hhist hn hworkers fun t ↦ .inl (congrFun hworker t)⟩
    | exit _ _ hhist hn hworkers hworker _ =>
      refine ⟨[], s, .nil s, h.idle hhist hn hworkers fun t ↦ ?_⟩
      rw [hworker]
      by_cases ht : t ∈ threads b.runner.concurrency
      · exact .inr (if_pos ht)
      · exact .inl (if_neg ht)
    | @dispatch a draws' t _ hask hreal ht hhist hn hworkers hworker =>
      have hfresh := hinv.freshDispatch (fun _ _ ↦ id) (.ask time draws fuel)
      obtain ⟨hfree, hp⟩ := hocc.thread_of_dispatch hfresh hask hreal
      rw [← ht] at hfree hp
      exact h.dispatch hocc hfree hp hreal hhist hn hworkers hworker

end Tracks

/-- The runner knows of the database only through what its clients hand back. -/
theorem Step.runner {a : Option Action} {b' : Testbed σ} (hs : Step D b a b') :
    b'.runner = b.runner ∨ ∃ a, Runner.Step b.runner a b'.runner := by
  cases hs with
  | serve => exact .inl rfl
  | take h => exact .inr ⟨.take _, h⟩
  | answered _ _ h | crashed _ h | nemesis _ _ h => exact .inr ⟨.finish _ _, h⟩
  | enqueue h => exact .inr ⟨.enqueue _, h⟩
  | complete h => exact .inr ⟨.complete _ _, h⟩
  | ask h => exact .inr ⟨.ask _ _ _, h⟩

/-- The runner over the database refines the system of atomic effects. -/
theorem tracks_of_reachable {n : Nat} {g : GeneratorPtr} {time : Int}
    (hg : AllLeaves ProcessUnset [] g) (h : Reachable (Step D) (start D n g time) b) :
    ∃ s, Reachable (Linear.Step D) (Linear.System.start D) s ∧ Tracks b s := by
  have hstep : ∀ (b : Testbed σ) a b' s, Step D b a b' →
      b.runner.Invariant ProcessUnset n ∧ Tracks b s →
      ∃ ps s', Run (Linear.Step D) s ps s' ∧
        (b'.runner.Invariant ProcessUnset n ∧ Tracks b' s') := by
    intro b a b' s hs htracks
    obtain ⟨ps, s', hrun, hs'⟩ := htracks.2.step htracks.1 hs
    refine ⟨ps, s', hrun, ?_, hs'⟩
    cases hs.runner with
    | inl hr => rw [hr]; exact htracks.1
    | inr hr => exact htracks.1.step (fun _ _ ↦ id) hr.choose_spec
  obtain ⟨as, hrun⟩ := h
  obtain ⟨ps, s, hrun', -, hs⟩ := hrun.simulates hstep ⟨.start hg n time, .start D n g time⟩
  exact ⟨s, ⟨ps, hrun'⟩, hs⟩

/-! ## The recorded history -/

/-- Whatever the schedule, and whichever clients crash: over a database that serves the requests one
at a time, the history that the runner records is linearizable. -/
theorem history_linearizable (D : Database σ) (n : Nat) (g : GeneratorPtr) (time : Int)
    (b : Testbed σ) (hg : AllLeaves ProcessUnset [] g)
    (h : Reachable (Step D) (start D n g time) b) :
    Linear.Linearizable D (recorded b.runner.history) := by
  obtain ⟨s, hs, htracks⟩ := tracks_of_reachable hg h
  rw [← htracks.history]
  exact Linear.linearizable_of_reachable hs

/-- One register, which is written and read. -/
def register (s : OPInfo) : String × OPInfo → Option (Response × OPInfo)
  | ("write", .array [key, value]) => some ((.kSuccess, .array [key, value]), value)
  | ("read", .array [key, _]) => some ((.kSuccess, .array [key, s]), s)
  | (_, op) => some ((.kFailed, op), s)

/-- The process of an event, and the number that it hands back. -/
def readBack : Linear.Event Int (String × OPInfo) Response → Int × Option Int
  | .ret p (_, .array [_, .int n]) => (p, some n)
  | e => (e.client, none)

/-- The only client writes 7 and crashes.  Its next process reads 7: the write has taken effect
after the crash, while the read was under way. -/
theorem history_linearizable_crash : ∃ b,
    (start (sequential OPInfo.null register) 1 (Runner.setGenerator (createGenerator
      [OperationFactory.write .null (.int 7), OperationFactory.read .null])) 0).moves register
      [.act (.ask 0 (fun _ ↦ 1) 6), .act (.take 0), .act (.finish 0 { type := .kInfo }),
        .act (.enqueue 0), .act (.complete 0 5), .act (.ask 6 (fun _ ↦ 1) 6), .act (.take 0),
        .serve 0, .serve 1, .answer 0, .act (.enqueue 0), .act (.complete 0 9)] = some b ∧
    (recorded b.runner.history).map readBack = [(0, none), (1, none), (1, some 7)] ∧
    Linear.Linearizable (sequential OPInfo.null register) (recorded b.runner.history) := by
  have hleaves : AllLeaves ProcessUnset [] (Runner.setGenerator (createGenerator
      [OperationFactory.write .null (.int 7), OperationFactory.read .null])) := by
    refine .validate (.list fun g hg ↦ ?_)
    obtain ⟨o, ho, rfl⟩ := List.mem_map.mp hg
    have hunset : ∀ o ∈ [OperationFactory.write .null (.int 7), OperationFactory.read .null],
        o.process = kInvalidProcess := by decide
    exact .operation (.inl (hunset o ho))
  have hrun : ((start (sequential OPInfo.null register) 1 (Runner.setGenerator (createGenerator
      [OperationFactory.write .null (.int 7), OperationFactory.read .null])) 0).moves register
      [.act (.ask 0 (fun _ ↦ 1) 6), .act (.take 0), .act (.finish 0 { type := .kInfo }),
        .act (.enqueue 0), .act (.complete 0 5), .act (.ask 6 (fun _ ↦ 1) 6), .act (.take 0),
        .serve 0, .serve 1, .answer 0, .act (.enqueue 0), .act (.complete 0 9)]).map
      (fun b ↦ (recorded b.runner.history).map readBack) =
        some [(0, none), (1, none), (1, some 7)] := by
    decide +kernel
  obtain ⟨b, hb, hread⟩ := Option.map_eq_some_iff.mp hrun
  exact ⟨b, hb, hread, history_linearizable _ 1 _ 0 b hleaves (run_of_moves (fun _ _ _ _ h ↦ h) hb)⟩

end Testbed

end Jepsen
