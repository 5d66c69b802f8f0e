import Jepsen.Generator.Leaves

/-!
# Confinement to threads

Every `OnThreads` on the way to a leaf takes threads away from the context, in the free threads and
in the workers alike.  An operation that is answered carries the process of a free thread that all
the filters of its leaf accept; while there is none, the leaf answers `:pending` and keeps what it
has to offer.
-/

namespace Jepsen

open Library GeneratorFactory
open GeneratorPtr (copyOne copyOrNull)

/-- The leaf sets no process. -/
def Unassigned : LeafProperty := fun _ o ↦ o.process = kInvalidProcess

namespace Context

theorem Staffed.restrict {ctx : Context} (h : ctx.Staffed) (path : List ThreadFilter) :
    (ctx.restrict path).Staffed := by
  induction path generalizing ctx with
  | nil => exact h
  | cons filter path ih => exact ih (h.onThreadsContext filter)

/-- No thread is free below the filters when none is free that they all accept. -/
theorem restrict_freeThreads_eq_empty {ctx : Context} {path : List ThreadFilter}
    (h : ∀ t ∈ ctx.freeThreads, ¬ ∀ f ∈ path, f t) : (ctx.restrict path).freeThreads = ∅ := by
  refine Finset.eq_empty_of_forall_notMem fun t ht ↦ ?_
  obtain ⟨hfree, hpath⟩ := mem_restrict.mp ht
  exact h t hfree hpath

theorem randomFreeProcess_idle {ctx : Context} (h : ctx.freeThreads = ∅) (draws : Draws) :
    ctx.randomFreeProcess draws = .ok (kInvalidProcess, draws) := by
  unfold randomFreeProcess
  rw [if_neg (by simp [h])]
  rfl

end Context

/-- Without a free thread `fillInOperation` makes any operation pending. -/
theorem fillInOperation_idle {ctx : Context} (h : ctx.freeThreads = ∅) (o : Operation)
    (draws : Draws) : fillInOperation ctx o draws = .ok ({ o with type := .kPending }, draws) := by
  unfold fillInOperation
  rw [Eval.bind_apply_ok (Context.randomFreeProcess_idle h draws)]
  rfl

/-- A real operation of a leaf without process is for a free thread that the filters accept. -/
theorem Filled.thread {ctx : Context} {sub : List ThreadFilter} {o r : Operation}
    (h : Filled (ctx.restrict sub) o r) (hr : r.Real) (ho : o.process = kInvalidProcess) :
    ∃ t ∈ ctx.freeThreads, (∀ f ∈ sub, f t) ∧ ctx.workers.lookup t = some r.process := by
  obtain ⟨_, time, ⟨p, hdraw, rfl⟩, -, rfl⟩ := h
  by_cases hinvalid : p = kInvalidProcess
  · exact absurd (by simp [fillIn, hinvalid]) hr.2
  · obtain ⟨-, rfl⟩ | ⟨t, ht, hlookup⟩ := hdraw
    · exact absurd rfl hinvalid
    · obtain ⟨hfree, hsub⟩ := Context.mem_restrict.mp ht
      refine ⟨t, hfree, hsub, ?_⟩
      rw [(Context.lookup_restrict.mp hlookup).1]
      simp [fillIn, hinvalid, ho]

variable {ctx : Context}

section

variable {n : Nat} {draws : Draws}

theorem op_operation_idle (h : ctx.freeThreads = ∅) (o : Operation) :
    op (n + 1) (.operation o) ctx draws =
      .ok (⟨{ o with type := .kPending }, .operation o, .operation o⟩, draws) := by
  have heq : op (n + 1) (.operation o) ctx draws = _ :=
    Eval.bind_apply_ok (fillInOperation_idle h o draws)
  rw [heq, if_pos rfl]
  rfl

/-- What the function answered is kept at the front of a list. -/
theorem op_function_idle (h : ctx.freeThreads = ∅) (f : FunctionGenerator) :
    op (n + 3) (.function f) ctx draws =
      .ok (⟨{ f.func ctx (draws 0) with type := .kPending },
        .list [.operation (f.func ctx (draws 0)), .function f], .function f⟩,
        fun i ↦ draws (i + 1)) := by
  -- The operation waits, so that the list of it and the function is what comes back.
  have hlist : op (n + 2) (.list [.operation (f.func ctx (draws 0)), .function f]) ctx
      (fun i ↦ draws (i + 1)) = _ := Eval.bind_apply_ok (op_operation_idle h _)
  have hcopy (o : Operation) (d : Draws) :
      (liftM (copyOrNull [.operation o, .function f]) : Gen _) d =
        .ok ([.operation o, .function f], d) := rfl
  have heq : op (n + 3) (.function f) ctx draws = _ := Eval.bind_apply_ok (rand_eq_ok.mpr rfl)
  have hself (d : Draws) : (liftM (copyOne (.function f)) : Gen _) d = .ok (.function f, d) := rfl
  rw [Eval.bind_apply_ok (hcopy _ _)] at hlist
  rw [heq, Eval.bind_apply_ok (hself _), Eval.bind_apply_ok hlist]
  rfl

end

/-- A real operation comes from a leaf of the tree, filled in for a thread that all filters of the
leaf accept. -/
theorem Answers.confined {g : GeneratorPtr} {a : Answer} (ha : Answers g ctx a)
    (hg : AllLeaves Unassigned [] g) (hdist : ctx.Distinct) (hreal : a.op.Real) :
    ∃ path o, Leaf g path o ∧ Filled (ctx.restrict path) o a.op ∧
      ∃ t ∈ ctx.freeThreads, (∀ f ∈ path, f t) ∧ ctx.workers.lookup t = some a.op.process ∧
        ctx.processToThread a.op.process = t := by
  have hleaves : AllLeaves (fun path o ↦ Leaf g path o) [] g :=
    allLeaves_of_leaf fun sub o hleaf ↦ by simpa using hleaf
  rcases (ha.sourced hleaves).1 with hnil | ⟨path, o, hleaf, hfill⟩
  · exact absurd hnil hreal.1
  · rw [List.nil_append] at hleaf
    -- The leaf left the process open, and so a free thread of the context gave its own.
    have ho : o.process = kInvalidProcess := hg.of_leaf hleaf
    obtain ⟨t, ht, hpath, hlookup⟩ := hfill.thread hreal ho
    exact ⟨path, o, hleaf, hfill, t, ht, hpath, hlookup,
      Context.processToThread_of_lookup hdist hlookup⟩

/-- The leaves of `nemesis(n, c)` lie below the filter of their part. -/
theorem leaf_nemesisAndClients {nemesis_gen client_gen : GeneratorPtr} {path : List ThreadFilter}
    {o : Operation} (h : Leaf (nemesisAndClients nemesis_gen client_gen) path o) :
    ∃ sub, path = isNemesis :: sub ∧ Leaf nemesis_gen sub o ∨
      path = isClient :: sub ∧ Leaf client_gen sub o := by
  have h : Leaf (.any [.onThreads nemesis_gen isNemesis, .onThreads client_gen isClient]) path o :=
    h
  cases h with
  | any hg h =>
    rcases List.mem_pair.mp hg with rfl | rfl
    · cases h with | onThreads h => exact ⟨_, .inl ⟨rfl, h⟩⟩
    · cases h with | onThreads h => exact ⟨_, .inr ⟨rfl, h⟩⟩

/-- An operation that is answered carries the process of a free thread that all filters of its leaf
accept; the look-up of a free thread's process never fails; and a leaf that no such thread is free
for keeps its operation.  So it is with `nemesis(n, c)`, whose `n` reaches the nemesis alone. -/
theorem process_confined (g : GeneratorPtr) (ctx : Context) (hg : AllLeaves Unassigned [] g)
    (hfree : ctx.Staffed) (hdist : ctx.Distinct) :
    (∀ n draws a draws', op n g ctx draws = .ok (a, draws') → a.op.Real →
      ∃ path o, Leaf g path o ∧ Filled (ctx.restrict path) o a.op ∧
        ∃ t ∈ ctx.freeThreads, (∀ f ∈ path, f t) ∧ ctx.workers.lookup t = some a.op.process ∧
          ctx.processToThread a.op.process = t) ∧
    (∀ path draws, ∃ r, (ctx.restrict path).randomFreeProcess draws = .ok r) ∧
    (∀ path, (∀ t ∈ ctx.freeThreads, ¬ ∀ f ∈ path, f t) → ∀ n draws,
      (∀ o, op (n + 1) (.operation o) (ctx.restrict path) draws =
        .ok (⟨{ o with type := .kPending }, .operation o, .operation o⟩, draws)) ∧
      ∀ f, ∃ o a, o = f.func (ctx.restrict path) (draws 0) ∧
        op (n + 3) (.function f) (ctx.restrict path) draws = .ok (a, fun i ↦ draws (i + 1)) ∧
        a.op.type = .kPending ∧ a.gen2 = .list [.operation o, .function f]) ∧
    (∀ nemesis_gen client_gen, g = nemesisAndClients nemesis_gen client_gen →
      ∀ n draws a draws', op n g ctx draws = .ok (a, draws') → a.op.Real →
        ∃ sub o, (Leaf nemesis_gen sub o ∧ Filled (ctx.restrict (isNemesis :: sub)) o a.op ∧
            ctx.processToThread a.op.process = kNemesisProcess) ∨
          (Leaf client_gen sub o ∧ Filled (ctx.restrict (isClient :: sub)) o a.op ∧
            ctx.processToThread a.op.process ≠ kNemesisProcess)) := by
  refine ⟨fun n draws a draws' hop hreal ↦ ?_, fun path draws ↦ ?_, fun path hidle n draws ↦ ?_, ?_⟩
  · exact (op_answers n g ctx draws a draws' hop).confined hg hdist hreal
  · cases hr : (ctx.restrict path).randomFreeProcess draws with
    | error e => exact absurd (hfree.restrict path) (Context.randomFreeProcess_error hr).2
    | ok r => exact ⟨r, rfl⟩
  · have hempty := Context.restrict_freeThreads_eq_empty hidle
    exact ⟨fun o ↦ op_operation_idle hempty o,
      fun f ↦ ⟨_, _, rfl, op_function_idle hempty f, rfl, rfl⟩⟩
  · rintro nemesis_gen client_gen rfl n draws a draws' hop hreal
    obtain ⟨path, o, hleaf, hfill, t, -, hpath, -, hthread⟩ :=
      (op_answers n _ ctx draws a draws' hop).confined hg hdist hreal
    obtain ⟨sub, ⟨rfl, hsub⟩ | ⟨rfl, hsub⟩⟩ := leaf_nemesisAndClients hleaf
    · have ht : isNemesis t := hpath _ (by simp)
      exact ⟨sub, o, .inl ⟨hsub, hfill, hthread.trans (by simpa [isNemesis] using ht)⟩⟩
    · have ht : isClient t := hpath _ (by simp)
      exact ⟨sub, o, .inr ⟨hsub, hfill, by rw [hthread]; simpa [isClient] using ht⟩⟩

/-- Only a client is free: the read is answered, for this client, and the fault waits. -/
theorem process_confined_read : ∃ a d,
    op 5 (nemesisAndClients
        (createGenerator [{ type := .kInvoke, func := "partition" }, { func := "heal" }])
        (createGenerator [OperationFactory.read .null, OperationFactory.read .null]))
      (.oneClient 5) (fun _ ↦ 0) = .ok (a, d) ∧ a.op.func = "read" ∧
    ∃ t ∈ (Context.oneClient 5).freeThreads,
      (Context.oneClient 5).workers.lookup t = some a.op.process := by
  have hleaves : AllLeaves Unassigned [] (nemesisAndClients
      (createGenerator [{ type := .kInvoke, func := "partition" }, { func := "heal" }])
      (createGenerator [OperationFactory.read .null, OperationFactory.read .null])) := by
    refine .any fun g hg ↦ ?_
    rcases List.mem_pair.mp hg with rfl | rfl
    · exact .onThreads (.list (by simpa using ⟨.operation rfl, .operation rfl⟩))
    · exact .onThreads (.list (by simpa using .operation rfl))
  obtain ⟨⟨a, d⟩, ha⟩ : ∃ r, op 5 (nemesisAndClients
      (createGenerator [{ type := .kInvoke, func := "partition" }, { func := "heal" }])
      (createGenerator [OperationFactory.read .null, OperationFactory.read .null]))
      (.oneClient 5) (fun _ ↦ 0) = .ok r := ⟨_, rfl⟩
  have hread : a.op.func = "read" ∧ a.op.Real := by
    cases ha
    decide
  have hconfined := process_confined _ (.oneClient 5) hleaves (Context.staffed_oneClient 5)
    (Context.distinct_oneClient 5)
  obtain ⟨-, -, -, -, t, ht, -, hlookup, -⟩ := hconfined.1 5 _ a d ha hread.2
  exact ⟨a, d, ha, hread.1, t, ht, hlookup⟩

end Jepsen
