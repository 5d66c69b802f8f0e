import Jepsen.Generator.Inner
import Jepsen.Runner.Dispatch

/-!
# Validity of what is dispatched, and waiting

`Validate` only logs the problems of an operation, so what reaches a worker is as valid as the leaf
it was filled in from.  The second half shows that the loop never waits for nothing: with nothing
outstanding, a leaf that some thread may run is not pending.
-/

namespace Jepsen

open Library Context GeneratorFactory

namespace Context

/-- `process` is the current process of a free thread. -/
def CurrentFree (ctx : Context) (process : Int) : Prop :=
  ∃ t ∈ ctx.freeThreads, ctx.workers.lookup t = some process

instance (ctx : Context) (process : Int) : Decidable (ctx.CurrentFree process) :=
  inferInstanceAs (Decidable (∃ t ∈ ctx.freeThreads, _))

/-- What `Validate` is there for: an invocation by the process of a free thread. -/
def Valid (ctx : Context) (op : Operation) : Prop :=
  op.type = .kInvoke ∧ ctx.CurrentFree op.process

instance (ctx : Context) (op : Operation) : Decidable (ctx.Valid op) :=
  inferInstanceAs (Decidable (_ ∧ _))

/-- A leaf operation that the context fills in to a valid one. -/
def Clean (ctx : Context) (o : Operation) : Prop :=
  (o.type = .kInit ∨ o.type = .kInvoke) ∧
    (o.process = kInvalidProcess ∨ ctx.CurrentFree o.process)

end Context

theorem Filled.valid_iff {ctx : Context} {sub : List ThreadFilter} {o r : Operation}
    (h : Filled (ctx.restrict sub) o r) (hr : r.type.Dispatchable) :
    ctx.Valid r ↔ ctx.Clean o := by
  obtain ⟨t, ht, p, -, hlookup, hproc, htype⟩ := h.of_dispatchable hr
  rw [Context.Valid, Context.Clean, hproc, htype]
  refine and_congr ?_ ?_
  · by_cases hinit : o.type = .kInit <;> simp [hinit]
  · by_cases hunset : o.process = kInvalidProcess
    · rw [if_pos hunset]
      exact ⟨fun _ ↦ .inl hunset, fun _ ↦ ⟨t, ht, hlookup⟩⟩
    · rw [if_neg hunset]
      exact ⟨.inr, fun h ↦ h.resolve_left hunset⟩

/-- The leaf can be invoked by some thread of a run with `n` clients. -/
def Served (n : Nat) : LeafProperty := fun path o ↦
  ProcessUnset path o ∧ (o.type = .kInit ∨ o.type = .kInvoke) ∧
    ∃ t ∈ threads n, ∀ f ∈ path, f t

theorem Filled.not_pending {n : Nat} {ctx : Context} {sub : List ThreadFilter} {o r : Operation}
    (h : Filled (ctx.restrict sub) o r) (hp : Processes n ctx.workers)
    (hfree : ctx.freeThreads = threads n) (ho : Served n sub o) : r.type ≠ .kPending := by
  obtain ⟨-, htype, t, ht, hsub⟩ := ho
  obtain ⟨_, time, ⟨p, hdraw, rfl⟩, -, rfl⟩ := h
  have hvalid : p ≠ kInvalidProcess := by
    rcases hdraw with ⟨hempty, -⟩ | ⟨t', -, hlookup⟩
    · have hmem : t ∈ (ctx.restrict sub).freeThreads := mem_restrict.mpr ⟨hfree ▸ ht, hsub⟩
      rw [hempty] at hmem
      exact absurd hmem (by simp)
    · exact hp.ne_invalid (lookup_restrict.mp hlookup).1
  rcases htype with htype | htype <;> simp [fillIn, hvalid, htype]

namespace Runner

variable {s s' : Runner} {a : Action}

/-- Every operation that the ask may come to, and fill in for a free thread, is clean or never
dispatched. -/
def CleanAsk (s : Runner) : Action → Prop
  | .ask now _ _ => ∀ sub o, MayAsk (s.askContext now) s.generator sub (.operation o) →
      ((s.askContext now).restrict sub).freeThreads.Nonempty → o.type.Dispatchable →
        (s.askContext now).Clean o
  | _ => True

/-- What is answered is filled in from an operation that the ask comes to, and is valid exactly when
that operation is clean. -/
theorem exists_asked {now : Int} {draws draws' : Draws} {fuel : Nat} {ans : Answer}
    (hask : op fuel s.generator (s.askContext now) draws = .ok (ans, draws'))
    (hreal : ans.op.type.Dispatchable) :
    ∃ sub o, MayAsk (s.askContext now) s.generator sub (.operation o) ∧
      ((s.askContext now).restrict sub).freeThreads.Nonempty ∧ o.type.Dispatchable ∧
      ((s.askContext now).Valid ans.op ↔ (s.askContext now).Clean o) := by
  have hmay := (op_answers _ _ _ _ _ _ hask).mayAsk.resolve_left hreal.1
  obtain ⟨sub, o, hmay, hfill⟩ := hmay
  obtain ⟨t, ht, p, hsub, -, -, htype⟩ := hfill.of_dispatchable hreal
  refine ⟨sub, o, hmay, ⟨t, mem_restrict.mpr ⟨ht, hsub⟩⟩, ?_, hfill.valid_iff hreal⟩
  by_cases hinit : o.type = .kInit
  · rw [hinit]
    decide
  · rw [if_neg hinit] at htype
    rwa [← htype]

theorem CleanAsk.valid {now : Int} {draws draws' : Draws} {fuel : Nat} {ans : Answer}
    (h : s.CleanAsk (.ask now draws fuel))
    (hask : op fuel s.generator (s.askContext now) draws = .ok (ans, draws'))
    (hreal : ans.op.type.Dispatchable) : (s.askContext now).Valid ans.op := by
  obtain ⟨sub, o, hmay, hfree, ho, hvalid⟩ := exists_asked hask hreal
  exact hvalid.mpr (h sub o hmay hfree ho)

/-- Where the leaves leave their process to the context, and are invocations, every ask is clean. -/
theorem cleanAsk_of_allLeaves (h : AllLeaves (fun _ o ↦
    (o.type = .kInit ∨ o.type = .kInvoke) ∧ o.process = kInvalidProcess) [] s.generator)
    (a : Action) : s.CleanAsk a := by
  cases a with
  | ask now draws fuel =>
    intro sub o hmay _ _
    cases hmay.allLeaves h with
    | operation ho => exact ⟨ho.1, .inl ho.2⟩
  | _ => trivial

theorem freshDispatch_of_cleanAsk (h : s.CleanAsk a) : s.FreshDispatch a := by
  cases a with
  | ask now draws fuel => exact fun ans draws' hask hreal ↦ (h.valid hask hreal).2
  | _ => trivial

theorem occupancy_of_cleanAsk {n : Nat} {g : GeneratorPtr} {time : Int}
    (h : Reachable (Step.restrict CleanAsk) (start n g time) s) : s.Occupancy :=
  h.invariant (occupancy_start n g time) fun _ _ _ hs hocc ↦
    hocc.step (freshDispatch_of_cleanAsk hs.1) hs.2

/-- In a run that asks for clean operations only, no worker ever has two operations, and what is
answered is valid and goes to an idle thread of the run. -/
theorem valid_of_cleanAsk (n : Nat) (g : GeneratorPtr) (time : Int) (s : Runner)
    (h : Reachable (Step.restrict CleanAsk) (start n (setGenerator g) time) s) :
    (∀ t, (s.inFlight t).length ≤ 1) ∧
    ∀ now draws fuel ans draws', s.CleanAsk (.ask now draws fuel) →
      op fuel s.generator (s.askContext now) draws = .ok (ans, draws') →
      ans.op.type.Dispatchable →
      (s.askContext now).Valid ans.op ∧
      s.ctx.processToThread ans.op.process ∈ threads s.concurrency ∧
      s.inFlight (s.ctx.processToThread ans.op.process) = [] := by
  have hocc := occupancy_of_cleanAsk h
  refine ⟨fun t ↦ ?_, fun now draws fuel ans draws' hclean hask hreal ↦
    ⟨hclean.valid hask hreal, ?_⟩⟩
  · by_cases ht : t ∈ s.busy
    · obtain ⟨p, -, hmap⟩ := hocc.busy t ht
      rw [← List.length_map, hmap]
      rfl
    · rw [hocc.idle t ht]
      exact Nat.zero_le 1
  · obtain ⟨hfree, -⟩ := hocc.thread_of_dispatch (freshDispatch_of_cleanAsk hclean) hask hreal
    exact ⟨hocc.free hfree, hocc.idle _ fun hb ↦ (mem_busy.mp hb).2 hfree⟩

/-- The first ask of a run over one read. -/
theorem valid_of_cleanAsk_read : ∃ ans d,
    op 6 (setGenerator (createGenerator [OperationFactory.read .null])) ((start 1 (setGenerator
      (createGenerator [OperationFactory.read .null])) 0).askContext 0) (fun _ ↦ 1) =
        .ok (ans, d) ∧
    ((start 1 (setGenerator (createGenerator [OperationFactory.read .null])) 0).askContext
      0).Valid ans.op := by
  obtain ⟨ans, d, hask, hreal⟩ : ∃ ans d,
      op 6 (setGenerator (createGenerator [OperationFactory.read .null])) ((start 1 (setGenerator
        (createGenerator [OperationFactory.read .null])) 0).askContext 0) (fun _ ↦ 1) =
          .ok (ans, d) ∧ ans.op.type.Dispatchable := ⟨_, _, rfl, by decide⟩
  have hclean := cleanAsk_of_allLeaves (s := start 1 (setGenerator (createGenerator
    [OperationFactory.read .null])) 0) (.validate (.list fun g hg ↦ by
      obtain rfl := List.mem_singleton.mp hg
      exact .operation ⟨.inr rfl, rfl⟩)) (.ask 0 (fun _ ↦ 1) 6)
  exact ⟨ans, d, hask,
    ((valid_of_cleanAsk 1 _ 0 _ (.refl _ _)).2 0 (fun _ ↦ 1) 6 ans d hclean hask hreal).1⟩

/-- A list of two operations of the nemesis, both dispatched to it before it completes one. -/
theorem fakePartition_dispatched_twice : ∃ s s',
    Reachable Step (start 1 (setGenerator (createGenerator
      [OperationFactory.fakePartition, OperationFactory.fakePartition])) 0) s ∧
    s.step (.ask 0 (fun _ ↦ 0) 7) = some s' ∧ (s'.inFlight kNemesisProcess).length = 2 ∧
    ∃ a d, op 7 s.generator (s.askContext 0) (fun _ ↦ 0) = .ok (a, d) ∧
      a.op.type.Dispatchable ∧ ¬ (s.askContext 0).Valid a.op := by
  obtain ⟨s, hs, s', hs', hlen, hask⟩ : ∃ s, (start 1 (setGenerator (createGenerator
      [OperationFactory.fakePartition, OperationFactory.fakePartition])) 0).run
        [.ask 0 (fun _ ↦ 0) 7] = some s ∧ ∃ s', s.step (.ask 0 (fun _ ↦ 0) 7) = some s' ∧
      (s'.inFlight kNemesisProcess).length = 2 ∧
      ∃ a d, op 7 s.generator (s.askContext 0) (fun _ ↦ 0) = .ok (a, d) ∧
        a.op.type.Dispatchable ∧ ¬ (s.askContext 0).Valid a.op :=
    ⟨_, rfl, _, rfl, rfl, _, _, rfl, by decide, by decide⟩
  exact ⟨s, s', reachable_of_run hs, hs', hlen, hask⟩

/-! ## Waiting -/

/-- With nothing outstanding every thread is free. -/
theorem Occupancy.all_free (h : s.Occupancy) (hout : s.outstanding = 0) :
    s.ctx.freeThreads = threads s.concurrency := by
  have hcard : s.busy.card = 0 := by
    have := h.outstanding
    omega
  exact h.free.antisymm (Finset.sdiff_eq_empty_iff_subset.mp (Finset.card_eq_zero.mp hcard))

/-- Pending is answered only while an operation is in flight. -/
theorem not_pending_of_outstanding_eq_zero (n : Nat) (g : GeneratorPtr) (time : Int) (s : Runner)
    (hg : AllLeaves (Served n) [] g) (h : Reachable Step (start n g time) s) (now : Int)
    (draws draws' : Draws) (fuel : Nat) (ans : Answer)
    (hask : op fuel s.generator (s.askContext now) draws = .ok (ans, draws')) :
    (s.outstanding = 0 → ans.op.type ≠ .kPending) ∧
    (ans.op.type = .kPending → 0 < s.outstanding ∧ ∃ t, s.inFlight t ≠ []) := by
  obtain ⟨rfl, hocc, hleaves⟩ := invariant_of_reachable (fun _ _ h ↦ h.1) hg h
  have hidle : s.outstanding = 0 → ans.op.type ≠ .kPending := by
    intro hout
    rcases ((op_answers _ _ _ _ _ _ hask).sourced hleaves).1 with hnil | ⟨sub, o, ho, hfill⟩
    · rw [hnil]
      decide
    · have hserved : Served s.concurrency sub o := ho
      have hproc : Processes s.concurrency (s.askContext now).workers := hocc.processes
      exact hfill.not_pending hproc (hocc.all_free hout) hserved
  refine ⟨hidle, fun hpending ↦ ?_⟩
  -- A generator that waits does so for a busy thread.
  have hbusy : s.busy.Nonempty := by
    by_contra hempty
    refine hidle ?_ hpending
    rw [hocc.outstanding, Finset.not_nonempty_iff_eq_empty.mp hempty]
    rfl
  obtain ⟨t, ht⟩ := hbusy
  obtain ⟨p, -, hmap⟩ := hocc.busy t ht
  refine ⟨?_, t, fun hnone ↦ by simp [hnone] at hmap⟩
  rw [hocc.outstanding]
  exact Int.natCast_pos.mpr (Finset.card_pos.mpr ⟨t, ht⟩)

/-- The first ask of a run over one read is not pending. -/
theorem not_pending_read : ∃ ans draws', op 6 (setGenerator
      (createGenerator [OperationFactory.read .null])) ((start 1 (setGenerator
        (createGenerator [OperationFactory.read .null])) 0).askContext 0) (fun _ ↦ 1) =
          .ok (ans, draws') ∧ ans.op.type ≠ .kPending := by
  have hleaves : AllLeaves (Served 1) []
      (setGenerator (createGenerator [OperationFactory.read .null])) := by
    refine .validate (.list fun g hg ↦ ?_)
    obtain rfl := List.mem_singleton.mp hg
    exact .operation ⟨.inl rfl, .inr rfl, 0, by decide, by simp⟩
  obtain ⟨ans, draws', hask⟩ : ∃ ans draws', op 6 (setGenerator
      (createGenerator [OperationFactory.read .null])) ((start 1 (setGenerator
        (createGenerator [OperationFactory.read .null])) 0).askContext 0) (fun _ ↦ 1) =
          .ok (ans, draws') := ⟨_, _, rfl⟩
  exact ⟨ans, draws', hask, (not_pending_of_outstanding_eq_zero 1 _ 0 _ hleaves (.refl _ _) 0 _ _ 6
    ans hask).1 rfl⟩

end Runner

end Jepsen
