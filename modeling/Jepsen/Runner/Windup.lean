import Jepsen.Generator.Late
import Jepsen.Generator.Sturdy
import Jepsen.Runner.Lifecycle
import Jepsen.Runner.Logging
import Jepsen.Runner.Validity
import Mathlib.Algebra.BigOperators.Group.Finset.Basic

/-!
# Coming to the end

A run over a sturdy tree of which something finite is left for late asks always comes to its end, as
long as what is logged prints, clients return and the generator is asked late enough.  `work` counts
what is left to do: a step of a worker or the handling of a completion takes from it, an ask that
finds nothing outstanding dispatches an operation or ends the loop, and no other ask adds to it.
-/

namespace Jepsen

open Library Context GeneratorFactory

/-- A leaf that some thread can invoke at any time, and that prints. -/
def Timely (n : Nat) : LeafProperty := fun path o ↦
  Served n path o ∧ Untimed path o ∧ Printed path o

/-- The steps that the operations in the hands of a worker still need. -/
def WorkerState.load (w : WorkerState) : Nat :=
  4 * w.inbox.length +
    (match w.job with
      | none => 0
      | some (.invoking _) => 3
      | some (.returned _) => 2) +
    w.completions.length

def Action.isAsk : Action → Bool
  | .ask _ _ _ => true
  | _ => false

theorem Filled.invoke {ctx : Context} {o r : Operation} (h : Filled ctx o r)
    (ho : o.type = .kInit ∨ o.type = .kInvoke) (hr : r.type ≠ .kPending) : r.type = .kInvoke := by
  obtain ⟨_, time, ⟨p, -, rfl⟩, -, rfl⟩ := h
  by_cases hp : p = kInvalidProcess
  · exact absurd (by simp [fillIn, hp]) hr
  · rcases ho with ho | ho <;> simp [fillIn, hp, ho]

namespace Runner

variable {s s' : Runner} {t : Int}

def load (s : Runner) : Nat := ∑ t ∈ threads s.concurrency, (s.worker t).load

/-- What is left to do: an operation of the generator takes its dispatch and the four steps of a
worker, and at the end every worker takes its exit operation. -/
noncomputable def work (s : Runner) : Nat :=
  if s.flag then
    5 * s.generator.lateSupply.toNat + s.load + (threads s.concurrency).card + 1
  else
    s.awake.card

/-- The generator is asked when all that it waits for is past. -/
def LateAsk (s : Runner) : Action → Prop
  | .ask time _ _ => s.generator.latest ≤ time
  | _ => True

/-- What the way to the end rests on. -/
structure Settling (n : Nat) (s : Runner) : Prop where
  invariant : s.Invariant (Timely n) n
  shutdown : s.Shutdown
  sturdy : Sturdy s.generator
  finite : s.generator.lateSupply ≠ ⊤
  printable : s.Printable

/-! ## What an ask does -/

theorem ask_cases {time : Int} {draws : Draws} {fuel : Nat}
    (h : s.ask time draws fuel = some s') :
    s.flag = true ∧ ∃ a draws', op fuel s.generator (s.askContext time) draws = .ok (a, draws') ∧
      (s' = { s with ctx := s.askContext time, generator := a.self } ∨
        s' = { s with ctx := s.askContext time, generator := a.self }.exit ∨
        a.op.type.Dispatchable ∧
          { s with ctx := s.askContext time, generator := a.self }.dispatch a.op a.gen2 =
            some s') := by
  unfold ask at h
  split at h
  · rename_i hflag
    refine ⟨hflag, ?_⟩
    split at h
    · exact absurd h (by simp)
    · rename_i a draws' hask
      refine ⟨a, draws', hask, ?_⟩
      dsimp only at h
      split at h
      · split at h
        · exact .inl (Option.some.inj h).symm
        · exact .inr (.inl (Option.some.inj h).symm)
      · split at h
        · exact .inl (Option.some.inj h).symm
        · exact .inr (.inl (Option.some.inj h).symm)
      · exact .inl (Option.some.inj h).symm
      · rename_i hnil hexit hp
        split at h
        · exact .inl (Option.some.inj h).symm
        · exact .inr (.inr ⟨⟨hnil, hexit, hp⟩, h⟩)
  · exact absurd h (by simp)

theorem dispatch_eq {op : Operation} {gen2 : GeneratorPtr} (h : s.dispatch op gen2 = some s') :
    ∃ t ∈ threads s.concurrency, ∃ generator,
      gen2.update (s.dispatchContext op) op = .ok generator ∧
      s' = { s.setWorker t { s.worker t with inbox := (s.worker t).inbox ++ [op] } with
        generator := generator
        ctx := s.dispatchContext op
        outstanding := s.outstanding + 1
        history := s.history ++ [⟨.dispatch, op⟩] } := by
  unfold dispatch at h
  dsimp only at h
  split at h
  · rename_i hmem
    split at h
    · exact absurd h (by simp)
    · rename_i generator hupd
      exact ⟨_, hmem, generator, hupd, (Option.some.inj h).symm⟩
  · exact absurd h (by simp)

/-! ## The load of the workers -/

theorem load_setWorker (ht : t ∈ threads s.concurrency) (w : WorkerState) :
    (s.setWorker t w).load + (s.worker t).load = s.load + w.load := by
  have hrest : ∑ t' ∈ (threads s.concurrency).erase t, ((s.setWorker t w).worker t').load =
      ∑ t' ∈ (threads s.concurrency).erase t, (s.worker t').load := by
    apply Finset.sum_congr rfl
    intro t' ht'
    rw [setWorker_other (Finset.ne_of_mem_erase ht')]
  have hleft := Finset.sum_erase_add (threads s.concurrency)
    (fun t' ↦ ((s.setWorker t w).worker t').load) ht
  have hright := Finset.sum_erase_add (threads s.concurrency) (fun t' ↦ (s.worker t').load) ht
  simp only [setWorker_worker] at hleft
  show (∑ t' ∈ threads s.concurrency, ((s.setWorker t w).worker t').load) + _ =
    (∑ t' ∈ threads s.concurrency, (s.worker t').load) + _
  rw [← hleft, ← hright, hrest]
  omega

theorem load_congr (hn : s'.concurrency = s.concurrency) (hworker : s'.worker = s.worker) :
    s'.load = s.load := by
  unfold load
  rw [hn, hworker]

theorem mem_threads_of_inFlight (hocc : s.Occupancy) (h : s.inFlight t ≠ []) :
    t ∈ threads s.concurrency := by
  by_contra hmem
  exact h (hocc.idle t fun hbusy ↦ hmem (mem_busy.mp hbusy).1)

/-! ## Steps on the way -/

theorem Occupancy.staffed (h : s.Occupancy) (time : Int) : (s.askContext time).Staffed := by
  intro t ht
  have hkey := (h.processes.keys t).mpr (h.free ht)
  exact Option.isSome_iff_exists.mp (AList.lookup_isSome.mpr hkey)

theorem step_generator {a : Action} (hs : s.step a = some s') (hocc : s.Occupancy)
    (h : Sturdy s.generator) :
    Sturdy s'.generator ∧ s'.generator.lateSupply ≤ s.generator.lateSupply := by
  cases step_moves hs with
  | work => exact ⟨h, le_rfl⟩
  | complete _ _ hupd => exact ⟨(h.update.ok hupd).1, GeneratorPtr.lateSupply_update hupd⟩
  | @discard time _ _ _ _ _ hask | @exit time _ _ _ _ _ hask =>
    exact ⟨(h.called (hocc.staffed time) hask).1,
      (op_answers _ _ _ _ _ _ hask).lateSupply_le.2⟩
  | @dispatch time _ _ _ _ _ _ _ hask _ _ _ _ hupd =>
    have hgen2 := (h.called (hocc.staffed time) hask).2
    exact ⟨(hgen2.update.ok hupd).1, (GeneratorPtr.lateSupply_update hupd).trans
      (op_answers _ _ _ _ _ _ hask).lateSupply_le.1⟩

namespace Settling

variable {n : Nat} {a : Action}

theorem start {g : GeneratorPtr} (hg : AllLeaves (Timely n) [] g) (hsturdy : Sturdy g)
    (hfinite : g.lateSupply ≠ ⊤) (time : Int) : (Runner.start n g time).Settling n where
  invariant := .start hg n time
  shutdown := shutdown_start n g time
  sturdy := hsturdy
  finite := hfinite
  printable := .start n g time

theorem step (h : s.Settling n) (hs : s.LoggedStep a s') : s'.Settling n where
  invariant := h.invariant.step (fun _ _ h ↦ h.1.1) hs.2
  shutdown := h.shutdown.step h.invariant.occupancy hs.2
  sturdy := (step_generator hs.2 h.invariant.occupancy h.sturdy).1
  finite := ne_top_of_le_ne_top h.finite
    (step_generator hs.2 h.invariant.occupancy h.sturdy).2
  printable := h.printable.step hs

theorem untimed (h : s.Settling n) : AllLeaves Untimed [] s.generator :=
  h.invariant.leaves.mono fun _ _ h ↦ h.2.1

theorem logs_ask (h : s.Settling n) (time : Int) (draws : Draws) (fuel : Nat) :
    s.Logs (.ask time draws fuel) :=
  h.printable.logs_ask (h.invariant.leaves.mono fun _ _ h ↦ h.2.2) time draws fuel

/-! ### What a step costs -/

theorem work_looping (hflag : s.flag = true) : s.work =
    5 * s.generator.lateSupply.toNat + s.load + (threads s.concurrency).card + 1 :=
  if_pos hflag

/-- A step that only hands an operation on takes from the load of a worker. -/
theorem work_lt (h : s.Settling n) (hflag : s.flag = true) (hflag' : s'.flag = true)
    (hn : s'.concurrency = s.concurrency)
    (hgen : s'.generator.lateSupply ≤ s.generator.lateSupply) {w : WorkerState}
    (ht : t ∈ threads s.concurrency) (hworker : s'.worker = (s.setWorker t w).worker)
    (hw : w.load + 1 = (s.worker t).load) : 1 + s'.work ≤ s.work := by
  have hload : s'.load = (s.setWorker t w).load := load_congr hn hworker
  have hset := load_setWorker ht w
  have hle := ENat.toNat_le_toNat hgen h.finite
  rw [work_looping hflag, work_looping hflag', hn]
  omega

/-- A dispatch takes an operation off the generator, which costs more than its four steps. -/
theorem dispatch_lt (h : s.Settling n) (hflag : s.flag = true) {time : Int}
    {draws draws' : Draws} {fuel : Nat} {ans : Answer} (hlate : s.generator.latest ≤ time)
    (hask : op fuel s.generator (s.askContext time) draws = .ok (ans, draws'))
    (hreal : ans.op.type.Dispatchable)
    (hs : { s with ctx := s.askContext time, generator := ans.self }.dispatch ans.op ans.gen2 =
      some s') : s'.work + 1 ≤ s.work := by
  obtain ⟨t, ht, generator, hupd, heq⟩ := dispatch_eq hs
  have hlt := (op_answers _ _ _ _ _ _ hask).lateSupply_lt h.untimed hlate hreal.real
  have hle : s'.generator.lateSupply + 1 ≤ s.generator.lateSupply := by
    rw [heq]
    exact (add_le_add (GeneratorPtr.lateSupply_update hupd) le_rfl).trans hlt
  have hne : s'.generator.lateSupply ≠ ⊤ := ne_top_of_le_ne_top h.finite (le_self_add.trans hle)
  have hnat := ENat.toNat_le_toNat hle h.finite
  rw [ENat.toNat_add hne (by decide), ENat.toNat_one] at hnat
  -- one more operation in one inbox
  have hset := load_setWorker (s := s) ht
    { s.worker t with inbox := (s.worker t).inbox ++ [ans.op] }
  have hload : s'.load =
      (s.setWorker t { s.worker t with inbox := (s.worker t).inbox ++ [ans.op] }).load := by
    rw [heq]
    exact load_congr rfl rfl
  have hinbox : WorkerState.load { s.worker t with inbox := (s.worker t).inbox ++ [ans.op] } =
      (s.worker t).load + 4 := by
    simp only [WorkerState.load, List.length_append, List.length_singleton]
    omega
  have hn : s'.concurrency = s.concurrency := by rw [heq]; rfl
  rw [work_looping hflag, work_looping (by rw [heq]; exact hflag), hn]
  omega

/-- At the end of the loop every worker gets an exit operation, which is one step. -/
theorem exit_lt (hflag : s.flag = true) (ctx : Context) (generator : GeneratorPtr) :
    { s with ctx := ctx, generator := generator }.exit.work + 1 ≤ s.work := by
  have hcard : { s with ctx := ctx, generator := generator }.exit.awake.card ≤
      (threads s.concurrency).card := Finset.card_filter_le _ _
  have hwork : { s with ctx := ctx, generator := generator }.exit.work =
      { s with ctx := ctx, generator := generator }.exit.awake.card :=
    if_neg (by simp [Runner.exit])
  rw [work_looping hflag, hwork]
  omega

theorem ask_le (h : s.Settling n) {time : Int} {draws : Draws} {fuel : Nat}
    (hlate : s.generator.latest ≤ time) (hs : s.ask time draws fuel = some s') :
    s'.work ≤ s.work := by
  have hgen := ENat.toNat_le_toNat (step_generator (a := .ask time draws fuel) hs
    h.invariant.occupancy h.sturdy).2 h.finite
  obtain ⟨hflag, a, draws', hask, hcase⟩ := ask_cases hs
  rcases hcase with heq | heq | ⟨hreal, hdispatch⟩
  · have hload : s'.load = s.load := by
      rw [heq]
      exact load_congr rfl rfl
    have hn : s'.concurrency = s.concurrency := by rw [heq]
    rw [work_looping hflag, work_looping (by rw [heq]; exact hflag), hload, hn]
    omega
  · have hlt := exit_lt hflag (s.askContext time) a.self
    rw [heq]
    omega
  · have hlt := h.dispatch_lt hflag hlate hask hreal hdispatch
    omega

/-- What a step costs: a late ask nothing, every other step at least one. -/
theorem cost (h : s.Settling n) (hlate : s.LateAsk a) (hs : s.step a = some s') :
    (if !a.isAsk then 1 else 0) + s'.work ≤ s.work := by
  have hocc := h.invariant.occupancy
  have hgen := (step_generator hs hocc h.sturdy).2
  have hn := step_concurrency hs
  cases hflag : s.flag with
  | false =>
    obtain ⟨t, ht, ha, heq, hawake⟩ := step_of_ended hocc h.shutdown hflag hs
    have hcard := Finset.card_erase_add_one ht
    have hwork : s.work = s.awake.card := if_neg (by simp [hflag])
    have hwork' : s'.work = s'.awake.card := by
      rw [heq]
      exact if_neg (by simp [setWorker, hflag])
    rw [hwork, hwork', hawake, ha]
    show 1 + _ ≤ _
    omega
  | true =>
    cases a with
    | take t =>
      obtain ⟨ht, -⟩ := take_guard hs
      obtain ⟨op, inbox, hinbox, hjob, heq⟩ := take_eq hs
      have hops := (h.shutdown.awake hflag t).2
      rw [hinbox, List.forall_mem_cons] at hops
      rw [if_neg hops.1] at heq
      apply h.work_lt hflag (by rw [heq]; exact hflag) hn hgen ht (by rw [heq])
      simp only [WorkerState.load, hinbox, hjob, List.length_cons]
      omega
    | finish t ret =>
      obtain ⟨op, hjob, heq⟩ := finish_eq hs
      have hmem : op ∈ s.inFlight t := mem_inFlight.mpr (.inr (.inl ⟨_, hjob, rfl⟩))
      have ht := mem_threads_of_inFlight hocc (List.ne_nil_of_mem hmem)
      apply h.work_lt hflag (by rw [heq]; exact hflag) hn hgen ht (by rw [heq])
      simp only [WorkerState.load, hjob]
      omega
    | enqueue t =>
      obtain ⟨op, hjob, heq⟩ := enqueue_eq hs
      have hmem : op ∈ s.inFlight t := mem_inFlight.mpr (.inr (.inl ⟨_, hjob, rfl⟩))
      have ht := mem_threads_of_inFlight hocc (List.ne_nil_of_mem hmem)
      apply h.work_lt hflag (by rw [heq]; exact hflag) hn hgen ht (by rw [heq])
      simp only [WorkerState.load, hjob, List.length_append, List.length_singleton]
      omega
    | complete t time =>
      obtain ⟨op, hc⟩ := complete_eq hs
      obtain ⟨rest, hcomp, hworker⟩ := hc.completions
      have hmem : op ∈ s.inFlight t := mem_inFlight.mpr (.inl (by simp [hcomp]))
      have ht := mem_threads_of_inFlight hocc (List.ne_nil_of_mem hmem)
      apply h.work_lt hflag hc.flag hn hgen ht hworker
      simp only [WorkerState.load, hcomp, List.length_cons]
      omega
    | ask time draws fuel =>
      show 0 + _ ≤ _
      have hle := h.ask_le hlate hs
      omega

/-! ### What can go on -/

theorem logs_take (h : s.Settling n) (t : Int) : s.Logs (.take t) := fun o ho ↦
  h.printable.hands t o (by simp [WorkerState.hands, List.mem_of_mem_head? ho])

/-- As long as something is outstanding, a worker or the handling of a completion goes on. -/
theorem work_possible (h : s.Settling n) (hflag : s.flag = true) (hout : 0 < s.outstanding) :
    ∃ a s', a.isAsk = false ∧ s.LoggedStep a s' := by
  have hocc := h.invariant.occupancy
  have hbusy : s.busy.Nonempty := by
    apply Finset.card_pos.mp
    have hcount := hocc.outstanding
    omega
  obtain ⟨t, ht⟩ := hbusy
  obtain ⟨p, -, hmap⟩ := hocc.busy t ht
  obtain ⟨op, hop, -⟩ := List.map_eq_singleton_iff.mp hmap
  have hmem : op ∈ s.inFlight t := by
    rw [hop]
    exact List.mem_singleton_self op
  rcases mem_inFlight.mp hmem with hcomp | ⟨job, hjob, -⟩ | ⟨hinbox, hexit⟩
  · cases hc : (s.worker t).completions with
    | nil => exact absurd (hc ▸ hcomp) (by simp)
    | cons op' rest =>
      have hcomplete : ∃ s', s.complete t 0 = some s' := by
        simp only [complete, hflag, hc]
        unfold receive
        dsimp only
        split
        · rename_i e herror
          obtain ⟨generator, hupd⟩ :=
            h.sturdy.updated (s.completionContext op' 0) { op' with time := 0 }
          exact absurd (herror.symm.trans hupd) (by simp)
        · exact ⟨_, rfl⟩
      obtain ⟨s', hs'⟩ := hcomplete
      have hlog : s.Logs (.complete t 0) := fun o ho ↦
        h.printable.hands t o (by simp [WorkerState.hands, List.mem_of_mem_head? ho])
      exact ⟨.complete t 0, s', rfl, hlog, hs'⟩
  · cases job with
    | invoking op' =>
      have hlog : s.Logs (.finish t op') :=
        h.printable.hands t op' (by simp [WorkerState.hands, hjob, Job.op])
      exact ⟨.finish t op', _, rfl, hlog, by simp only [Step, Runner.step, finish, hjob]; rfl⟩
    | returned op' =>
      exact ⟨.enqueue t, _, rfl, trivial, by simp only [Step, Runner.step, enqueue, hjob]; rfl⟩
  · cases hc : (s.worker t).inbox with
    | nil => exact absurd (hc ▸ hinbox) (by simp)
    | cons op' inbox =>
      obtain ⟨hrunning, hops⟩ := h.shutdown.awake hflag t
      -- the operation in the inbox is the only one, so that the worker has no other
      have hjob : (s.worker t).job = none := by
        cases hj : (s.worker t).job with
        | none => rfl
        | some job =>
          have hlen := congrArg List.length hop
          simp only [inFlight, hj, hc, List.length_append, Option.map_some, Option.toList_some,
            List.length_singleton, List.filter_cons] at hlen
          rw [hc, List.forall_mem_cons] at hops
          rw [if_pos (decide_eq_true hops.1), List.length_cons] at hlen
          omega
      have htake : ∃ s', s.take t = some s' := by
        rw [hc, List.forall_mem_cons] at hops
        simp only [take, hc, hrunning, hjob, (mem_busy.mp ht).1, Option.isNone_none, true_and,
          if_true, if_neg hops.1]
        exact ⟨_, rfl⟩
      obtain ⟨s', hs'⟩ := htake
      exact ⟨.take t, s', rfl, h.logs_take t, hs'⟩

/-- A late ask that finds nothing outstanding dispatches an operation or ends the loop. -/
theorem ask_advances (h : s.Settling n) (hflag : s.flag = true) (hout : s.outstanding = 0)
    {time : Int} (hlate : s.generator.latest ≤ time) (draws : Draws) {fuel : Nat}
    (hfuel : s.generator.fuel ≤ fuel) :
    ∃ s', s.LoggedStep (.ask time draws fuel) s' ∧ s'.work < s.work := by
  have hocc := h.invariant.occupancy
  have hlog := h.logs_ask time draws fuel
  suffices ∃ s', s.ask time draws fuel = some s' ∧ s'.work < s.work by
    obtain ⟨s', hs', hlt⟩ := this
    exact ⟨s', ⟨hlog, hs'⟩, hlt⟩
  obtain ⟨⟨a, draws'⟩, hask⟩ := h.sturdy.answered (hocc.staffed time) hfuel draws
  have ha := op_answers _ _ _ _ _ _ hask
  unfold ask
  rw [if_pos hflag, hask]
  dsimp only
  rcases (ha.sourced h.invariant.leaves).1 with hnil | ⟨sub, o, ho, hfill⟩
  · rw [hnil, hout]
    exact ⟨_, rfl, exit_lt hflag (s.askContext time) a.self⟩
  · have hserved : Served n sub o := ho.1
    have hproc : Processes n (s.askContext time).workers :=
      h.invariant.concurrency ▸ hocc.processes
    have hfree : (s.askContext time).freeThreads = threads n :=
      h.invariant.concurrency ▸ hocc.all_free hout
    have hinvoke := hfill.invoke hserved.2.1 (hfill.not_pending hproc hfree hserved)
    have hreal : a.op.type.Dispatchable := by
      rw [hinvoke]
      decide
    have htime := ha.time_le_of_late h.untimed hlate hreal.real
    have hfresh := h.invariant.freshDispatch (fun _ _ h ↦ h.1.1) (.ask time draws fuel)
    obtain ⟨hmem, -⟩ := hocc.thread_of_dispatch hfresh hask hreal
    have hdue : ¬ time < a.op.time := not_lt.mpr htime
    have hdispatch : ∃ s', { s with ctx := s.askContext time, generator := a.self }.dispatch a.op
        a.gen2 = some s' := by
      unfold dispatch
      dsimp only
      have hthread : (s.askContext time).processToThread a.op.process ∈ threads s.concurrency :=
        hocc.free hmem
      rw [if_pos hthread]
      split
      · rename_i e herror
        have hsturdy := (h.sturdy.called (hocc.staffed time) hask).2
        obtain ⟨generator, hupd⟩ := hsturdy.updated
          ({ s with ctx := s.askContext time, generator := a.self }.dispatchContext a.op) a.op
        exact absurd (herror.symm.trans hupd) (by simp)
      · exact ⟨_, rfl⟩
    obtain ⟨s', hs'⟩ := hdispatch
    rw [hinvoke]
    dsimp only
    rw [if_neg hdue]
    exact ⟨s', hs', h.dispatch_lt hflag hlate hask hreal hs'⟩

theorem ended_possible (h : s.Settling n) (hflag : s.flag = false) (hawake : s.awake ≠ ∅) :
    ∃ a s', a.isAsk = false ∧ s.LoggedStep a s' := by
  obtain ⟨t, ht⟩ := Finset.nonempty_iff_ne_empty.mpr hawake
  exact ⟨.take t, _, rfl, h.logs_take t, take_of_awake h.shutdown hflag ht⟩

end Settling

/-- The loop has ended and every worker has left its own, so that `runCases` returns. -/
def Settled (s : Runner) : Prop := s.flag = false ∧ s.awake = ∅

/-- There is nothing more to do, or a step other than an ask is possible, or every late ask does
something. -/
def Advances (s : Runner) : Prop :=
  s.Settled ∨ (∃ a s', a.isAsk = false ∧ s.LoggedStep a s') ∨
    ∀ time draws fuel, s.generator.latest ≤ time → s.generator.fuel ≤ fuel →
      ∃ s', s.LoggedStep (.ask time draws fuel) s' ∧ s'.work < s.work

theorem Settling.advances {n : Nat} (h : s.Settling n) : s.Advances := by
  cases hflag : s.flag with
  | false =>
    by_cases hawake : s.awake = ∅
    · exact .inl ⟨hflag, hawake⟩
    · exact .inr (.inl (h.ended_possible hflag hawake))
  | true =>
    have hcount := h.invariant.occupancy.outstanding
    by_cases hout : s.outstanding = 0
    · exact .inr (.inr fun time draws fuel hlate hfuel ↦
        h.ask_advances hflag hout hlate draws hfuel)
    · exact .inr (.inl (h.work_possible hflag (by omega)))

theorem Settling.exists_settled {n : Nat} (h : s.Settling n) :
    ∃ schedule s', Run LoggedStep s schedule s' ∧ s'.Settling n ∧ s'.Settled := by
  apply Run.exists_of_progress work _ h
  intro s h
  rcases h.advances with hsettled | ⟨a, s', ha, hs⟩ | hask
  · exact .inl hsettled
  · have hlate : s.LateAsk a := by
      cases a with
      | ask => exact absurd ha (by simp [Action.isAsk])
      | _ => trivial
    have hcost := h.cost hlate hs.2
    rw [ha] at hcost
    refine .inr ⟨a, s', hs, h.step hs, ?_⟩
    show _ < _
    simp only [Bool.not_false, if_true] at hcost
    omega
  · obtain ⟨s', hs, hlt⟩ := hask s.generator.latest (fun _ ↦ 0) s.generator.fuel le_rfl le_rfl
    exact .inr ⟨_, s', hs, h.step hs, hlt⟩

/-- The generator of `test_runner.cpp`: reads and writes of the letters from `a` to `n`, beside the
operations of the nemesis, for five seconds.  The indices of `keys` and the value come from
`rand()`, of which the functions here see one number. -/
def testRunner (idx : Nat) (uninitialised : Int) : GeneratorPtr :=
  let r : FunctionGenerator := .kBase fun k ↦ OperationFactory.read (.int (97 + k % 14))
  let w : FunctionGenerator := .kBase fun k ↦
    OperationFactory.write (.int (97 + k % 14)) (.uint (k / 14 % 14))
  let n : FunctionGenerator := .kBase fun _ ↦ OperationFactory.fakePartition
  setGenerator (timeLimit 5 (nemesisAndClients (.function n)
    (stagger uninitialised 1 (createMix idx [.function r, .function w]))))

theorem printed_read (path : List ThreadFilter) (k : Nat) :
    Printed path (OperationFactory.read (.int (97 + k % 14))) := by
  simp only [Printed, OperationFactory.read, OPInfo.Within, OPInfo.leaves, OPInfo.leavesElems,
    OPInfo.Fits, IntRange, List.forall_mem_append, List.forall_mem_singleton]
  simp
  omega

theorem printed_write (path : List ThreadFilter) (k : Nat) :
    Printed path (OperationFactory.write (.int (97 + k % 14)) (.uint (k / 14 % 14))) := by
  simp only [Printed, OperationFactory.write, OPInfo.Within, OPInfo.leaves, OPInfo.leavesElems,
    OPInfo.Fits, IntRange, UIntRange, List.forall_mem_append, List.forall_mem_singleton]
  simp
  omega

theorem timely_testRunner {n : Nat} (hn : 0 < n) (idx : Nat) (uninitialised : Int) :
    AllLeaves (Timely n) [] (testRunner idx uninitialised) := by
  have hclient (o : Operation) (hprocess : o.process = kInvalidProcess) (htype : o.type = .kInvoke)
      (htime : o.time = 0) (hprints : Printed [isClient] o) : Timely n [isClient] o :=
    ⟨⟨.inl hprocess, .inr htype, 0, mem_threads.mpr (.inr ⟨le_rfl, by omega⟩), by decide⟩, htime,
      hprints⟩
  apply AllLeaves.validate
  apply AllLeaves.timeLimit
  apply AllLeaves.any
  intro g hg
  cases List.mem_cons.mp hg with
  | inl heq =>
    subst heq
    refine .onThreads (.function fun ctx k ↦ ?_)
    have hprints : OperationFactory.fakePartition.op.Within 32 := by decide
    exact ⟨⟨.inr ⟨rfl, by simp⟩, .inr rfl, kNemesisProcess, mem_threads.mpr (.inl rfl), by decide⟩,
      rfl, hprints⟩
  | inr hg =>
    obtain rfl := List.mem_singleton.mp hg
    refine .onThreads (.stagger (.mix fun g hg ↦ ?_))
    cases List.mem_cons.mp hg with
    | inl heq =>
      subst heq
      exact .function fun ctx k ↦ hclient _ rfl rfl rfl (printed_read _ k)
    | inr hg =>
      obtain rfl := List.mem_singleton.mp hg
      exact .function fun ctx k ↦ hclient _ rfl rfl rfl (printed_write _ k)

theorem sturdy_testRunner {idx : Nat} (hidx : idx < 2) (uninitialised : Int) :
    Sturdy (testRunner idx uninitialised) := by
  have hinvoke : OpType.kInvoke ≠ .kNil := by decide
  apply Sturdy.validate
  apply Sturdy.timeLimit
  apply Sturdy.any (by simp [clients, nemesis, createOnThreads, GeneratorPtr.lasting])
  intro g hg
  cases List.mem_cons.mp hg with
  | inl heq =>
    subst heq
    exact .onThreads (.function fun _ _ ↦ hinvoke)
  | inr hg =>
    obtain rfl := List.mem_singleton.mp hg
    apply Sturdy.onThreads
    apply Sturdy.stagger (by decide)
    apply Sturdy.mix hidx (by simp [GeneratorPtr.lasting])
    · exact ⟨_, List.mem_cons_self .., .function fun _ _ ↦ hinvoke⟩
    · intro g hg
      cases List.mem_cons.mp hg with
      | inl heq =>
        subst heq
        exact .function fun _ _ ↦ hinvoke
      | inr hg =>
        obtain rfl := List.mem_singleton.mp hg
        exact .function fun _ _ ↦ hinvoke

theorem lateSupply_testRunner (idx : Nat) (uninitialised : Int) :
    (testRunner idx uninitialised).lateSupply = 1 := rfl

end Runner

/-! ## The end of a whole test -/

namespace Harness

/-- What a step of the loop prints does print.  No other step of a test prints an operation. -/
def Logs : Phase → Event → Prop
  | .running r, .act a => r.Logs a
  | _, _ => True

def LoggedStep (h : Harness) : Lts Phase Event := h.Step.restrict Logs

variable {h : Harness}

theorem logged_preparing {t t' : Plan Call} {cs : List Call} (hrun : Run Plan.Step t cs t') :
    Run h.LoggedStep (.preparing t) (cs.map .call) (.preparing t') := by
  induction hrun with
  | nil => exact .nil _
  | cons hs _ ih => exact .cons ⟨trivial, .prepare hs⟩ ih

theorem logged_running {r r' : Runner} {as : List Action}
    (hrun : Run Runner.LoggedStep r as r') :
    Run h.LoggedStep (.running r) (as.map .act) (.running r') := by
  induction hrun with
  | nil => exact .nil _
  | cons hs _ ih => exact .cons ⟨hs.1, .act hs.2⟩ ih

theorem logged_cleaning {t t' : Plan Call} {cs : List Call} (hrun : Run Plan.Step t cs t') :
    Run h.LoggedStep (.cleaning t) (cs.map .call) (.cleaning t') := by
  induction hrun with
  | nil => exact .nil _
  | cons hs _ ih => exact .cons ⟨trivial, .cleanUp hs⟩ ih

/-- The loop of a test is one of `runCases`. -/
def InLoop (h : Harness) : Phase → Prop
  | .running r => ∃ time,
      Reachable Runner.LoggedStep (Runner.start h.concurrency h.generator time) r
  | _ => True

theorem inLoop_of_run {es : List Event} {p : Phase} (hrun : Run h.LoggedStep h.start es p) :
    h.InLoop p := by
  refine hrun.preserves (P := h.InLoop) (fun p e p' hs hp ↦ ?_) trivial
  obtain ⟨hlog, hs⟩ := hs
  cases hs with
  | prepare | joined | cleanUp => trivial
  | @runCases t time => exact ⟨time, .refl _ _⟩
  | act hs =>
    obtain ⟨time, hr⟩ := hp
    exact ⟨time, hr.step ⟨hlog, hs⟩⟩

theorem exists_over_of_cleaning (t : Plan Call) :
    ∃ es p, Run h.LoggedStep (.cleaning t) es p ∧ p.Over := by
  obtain ⟨cs, t', hclean, hdone⟩ := Plan.exists_run t
  exact ⟨_, _, logged_cleaning hclean, hdone⟩

theorem exists_over_of_loop (hg : AllLeaves (Timely h.concurrency) [] h.generator)
    (hsturdy : Sturdy h.generator) (hfinite : h.generator.lateSupply ≠ ⊤) {time : Int} {r : Runner}
    (hloop : Reachable Runner.LoggedStep (Runner.start h.concurrency h.generator time) r) :
    ∃ es p, Run h.LoggedStep (.running r) es p ∧ p.Over := by
  have hr : r.Settling h.concurrency := hloop.invariant (.start hg hsturdy hfinite time)
    fun _ _ _ hs hr ↦ hr.step hs
  obtain ⟨schedule, r', hrun, -, hflag, hawake⟩ := hr.exists_settled
  have hjoined : Run h.LoggedStep (.running r') [.joined] (.cleaning h.cleanUp) :=
    .single ⟨trivial, .joined hflag hawake⟩
  obtain ⟨es, p, hclean, hover⟩ := exists_over_of_cleaning (h := h) h.cleanUp
  exact ⟨_, p, ((logged_running hrun).append hjoined).append hclean, hover⟩

/-- The test of `test_runner.cpp`. -/
def testRunner : Harness where
  nodes := ["47.108.193.81", "47.108.227.187", "47.108.208.93"]
  concurrency := 5
  generator := Runner.testRunner 0 0
  primaries := some ["47.108.193.81"]
  leaveDbRunning := true

end Harness

end Jepsen
