import Jepsen.Generator.Leaves
import Jepsen.Runner.Occupancy

/-!
# What is dispatched

An operation that the loop dispatches was filled in from a leaf of the generator, with the process
of a free thread unless the leaf presets one.  Trees whose leaves preset no process, or only the
nemesis below a `nemesis` wrapper, therefore keep the occupancy of the threads; for other trees it
depends on the leaf that each dispatched operation comes from.
-/

namespace Jepsen

open Library Context GeneratorFactory

/-- The leaf leaves its process unset, or is the nemesis' and lies below a `nemesis` wrapper. -/
def ProcessUnset : LeafProperty := fun path o ↦
  o.process = kInvalidProcess ∨ (o.process = kNemesisProcess ∧ isNemesis ∈ path)

theorem Filled.of_dispatchable {ctx : Context} {sub : List ThreadFilter} {o r : Operation}
    (h : Filled (ctx.restrict sub) o r) (hr : r.type.Dispatchable) :
    ∃ t ∈ ctx.freeThreads, ∃ p, (∀ f ∈ sub, f t) ∧ ctx.workers.lookup t = some p ∧
      r.process = (if o.process = kInvalidProcess then p else o.process) ∧
      r.type = (if o.type = .kInit then .kInvoke else o.type) := by
  obtain ⟨_, time, ⟨p, hdraw, rfl⟩, -, rfl⟩ := h
  by_cases hinvalid : p = kInvalidProcess
  · exact absurd (by simp [fillIn, hinvalid]) hr.2.2
  · obtain ⟨-, rfl⟩ | ⟨t, ht, hlookup⟩ := hdraw
    · exact absurd rfl hinvalid
    · obtain ⟨hfree, hsub⟩ := mem_restrict.mp ht
      exact ⟨t, hfree, p, hsub, (lookup_restrict.mp hlookup).1, by simp [fillIn, hinvalid]⟩

/-- An operation of a leaf that sets no process goes to a free thread under its process. -/
theorem Filled.fresh {n : Nat} {ctx : Context} {sub : List ThreadFilter} {o r : Operation}
    (hp : Processes n ctx.workers) (h : Filled (ctx.restrict sub) o r)
    (hr : r.type.Dispatchable) (ho : ProcessUnset sub o) :
    ∃ t ∈ ctx.freeThreads, ctx.workers.lookup t = some r.process := by
  obtain ⟨t, ht, p, hsub, hlookup, hproc, -⟩ := h.of_dispatchable hr
  refine ⟨t, ht, ?_⟩
  rcases ho with hunset | ⟨hnemesis, hmem⟩
  · rw [hproc, if_pos hunset, hlookup]
  · -- only the nemesis thread is free below a nemesis wrapper
    have htn : t = kNemesisProcess := by simpa [isNemesis] using hsub _ hmem
    rw [hproc, if_neg (by rw [hnemesis]; decide), hnemesis, htn, hp.nemesis]

namespace Runner

variable {s s' : Runner} {a : Action}

theorem step_concurrency (hs : s.step a = some s') : s'.concurrency = s.concurrency := by
  cases step_moves hs <;> rfl

/-- Whatever holds of all leaves of the generator holds of them after a step. -/
theorem step_allLeaves {P : LeafProperty} (h : AllLeaves P [] s.generator)
    (hs : s.step a = some s') : AllLeaves P [] s'.generator := by
  cases step_moves hs with
  | work => exact h
  | complete _ _ hupd => exact h.rebuilt (GeneratorPtr.update_rebuilt hupd)
  | discard _ hask => exact h.rebuilt (op_answers _ _ _ _ _ _ hask).rebuilt
  | exit _ hask => exact h.rebuilt (op_answers _ _ _ _ _ _ hask).rebuilt
  | dispatch _ hask _ _ _ _ hupd =>
    exact ((op_answers _ _ _ _ _ _ hask).sourced h).2.rebuilt (GeneratorPtr.update_rebuilt hupd)

theorem freshDispatch_of_allLeaves (hocc : s.Occupancy)
    (h : AllLeaves ProcessUnset [] s.generator) (a : Action) : s.FreshDispatch a := by
  cases a with
  | ask time draws fuel =>
    intro ans draws' hask hreal
    rcases ((op_answers _ _ _ _ _ _ hask).sourced h).1 with hnil | ⟨sub, o, ho, hfill⟩
    · exact absurd hnil hreal.1
    · have hproc : Processes s.concurrency (s.askContext time).workers := hocc.processes
      have hunset : ProcessUnset sub o := ho
      obtain ⟨t, ht, hlookup⟩ := hfill.fresh hproc hreal hunset
      exact ⟨t, ht, hlookup⟩
  | _ => trivial

/-- The loop's invariant for a generator whose leaves all have `P`. -/
structure Invariant (P : LeafProperty) (n : Nat) (s : Runner) : Prop where
  concurrency : s.concurrency = n
  occupancy : s.Occupancy
  leaves : AllLeaves P [] s.generator

theorem Invariant.start {P : LeafProperty} {g : GeneratorPtr} (hg : AllLeaves P [] g) (n : Nat)
    (time : Int) : (Runner.start n g time).Invariant P n :=
  ⟨rfl, occupancy_start n g time, hg⟩

theorem Invariant.freshDispatch {P : LeafProperty} {n : Nat} (h : s.Invariant P n)
    (hP : ∀ path o, P path o → ProcessUnset path o) (a : Action) : s.FreshDispatch a :=
  freshDispatch_of_allLeaves h.occupancy (h.leaves.mono hP) a

theorem Invariant.step {P : LeafProperty} {n : Nat} (h : s.Invariant P n)
    (hP : ∀ path o, P path o → ProcessUnset path o) (hs : s.step a = some s') :
    s'.Invariant P n where
  concurrency := (step_concurrency hs).trans h.concurrency
  occupancy := h.occupancy.step (h.freshDispatch hP a) hs
  leaves := step_allLeaves h.leaves hs

theorem invariant_of_reachable {P : LeafProperty} (hP : ∀ path o, P path o → ProcessUnset path o)
    {n : Nat} {g : GeneratorPtr} {time : Int} (hg : AllLeaves P [] g)
    (h : Reachable Step (start n g time) s) : s.Invariant P n :=
  h.invariant (.start hg n time) fun _ _ _ hs hinv ↦ hinv.step hP hs

/-- In every reachable state a thread is free exactly when nothing is in flight for it, a busy
thread has one operation, of its process, `outstanding` counts the busy threads, and what is
dispatched next goes to a free thread. -/
theorem free_iff_idle (n : Nat) (g : GeneratorPtr) (time : Int) (s : Runner)
    (hg : AllLeaves ProcessUnset [] g) (h : Reachable Step (start n g time) s) :
    (∀ t ∈ threads n, t ∈ s.ctx.freeThreads ↔ s.inFlight t = []) ∧
    (∀ t ∈ threads n, t ∉ s.ctx.freeThreads →
      ∃ op, s.inFlight t = [op] ∧ s.ctx.workers.lookup t = some op.process) ∧
    s.outstanding = (threads n \ s.ctx.freeThreads).card ∧
    (∀ now draws fuel ans draws',
      op fuel s.generator (s.askContext now) draws = .ok (ans, draws') →
      ans.op.type.Dispatchable →
      s.ctx.processToThread ans.op.process ∈ threads n ∧
      s.ctx.processToThread ans.op.process ∈ s.ctx.freeThreads ∧
      s.ctx.workers.lookup (s.ctx.processToThread ans.op.process) = some ans.op.process) := by
  obtain ⟨rfl, hocc, hleaves⟩ := invariant_of_reachable (fun _ _ ↦ id) hg h
  -- A thread that is not free has one operation, which its worker process runs.
  have hbusy : ∀ t ∈ threads s.concurrency, t ∉ s.ctx.freeThreads →
      ∃ op, s.inFlight t = [op] ∧ s.ctx.workers.lookup t = some op.process := by
    intro t ht hfree
    obtain ⟨p, hp, hmap⟩ := hocc.busy t (mem_busy.mpr ⟨ht, hfree⟩)
    obtain ⟨op, hop, rfl⟩ := List.map_eq_singleton_iff.mp hmap
    exact ⟨op, hop, hp⟩
  refine ⟨fun t ht ↦ ⟨fun hfree ↦ ?_, fun hidle ↦ ?_⟩, hbusy, hocc.outstanding, ?_⟩
  · exact hocc.idle t fun hb ↦ (mem_busy.mp hb).2 hfree
  · by_contra hfree
    obtain ⟨op, hop, -⟩ := hbusy t ht hfree
    exact absurd (hidle.symm.trans hop) (by simp)
  · intro now draws fuel ans draws' hask hreal
    have hthread := hocc.thread_of_dispatch (freshDispatch_of_allLeaves hocc hleaves _) hask hreal
    exact ⟨hocc.free hthread.1, hthread⟩

/-- After one dispatch to the first client. -/
theorem free_iff_idle_read : ∃ s,
    (start 2 (setGenerator (createGenerator [OperationFactory.read .null])) 0).run
      [.ask 0 (fun _ ↦ 1) 6] = some s ∧ (0 : Int) ∉ s.ctx.freeThreads ∧
    (∀ t ∈ threads 2, t ∈ s.ctx.freeThreads ↔ s.inFlight t = []) ∧
    s.outstanding = (threads 2 \ s.ctx.freeThreads).card := by
  have hleaves : AllLeaves ProcessUnset []
      (setGenerator (createGenerator [OperationFactory.read .null])) :=
    .validate (.list (by simpa [OperationFactory.read] using .operation (.inl rfl)))
  obtain ⟨s, hs, hbusy⟩ : ∃ s,
      (start 2 (setGenerator (createGenerator [OperationFactory.read .null])) 0).run
        [.ask 0 (fun _ ↦ 1) 6] = some s ∧ (0 : Int) ∉ s.ctx.freeThreads := ⟨_, rfl, by decide⟩
  obtain ⟨hfree, -, hout, -⟩ := free_iff_idle 2 _ 0 s hleaves (reachable_of_run hs)
  exact ⟨s, hs, hbusy, hfree, hout⟩

end Runner

end Jepsen
