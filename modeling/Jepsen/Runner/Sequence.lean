import Jepsen.Generator.Sequence
import Jepsen.Runner.Moves

/-!
# What a run dispatches, in order

A class of generators that answer their flattening one operation at a time, and stay in the class,
makes a run dispatch a prefix of the flattening.  Nested lists are such a class, and a run over one
ends only when the whole of it is dispatched.  Stacked lists are one too, but they never come to
their end.
-/

namespace Jepsen

open Library
open GeneratorPtr (Rebuilt)

/-- What a dispatched operation is compared on. -/
def Operation.payload (o : Operation) : String × OPInfo := (o.func, o.op)

/-- The functions and payloads of the dispatches in a history. -/
def dispatches (history : List Entry) : List (String × OPInfo) :=
  history.filterMap fun e ↦ if e.kind = .dispatch then some e.op.payload else none

theorem dispatches_completion (history : List Entry) (op : Operation) :
    dispatches (history ++ [⟨.completion, op⟩]) = dispatches history := by
  simp [dispatches]

theorem dispatches_dispatch (history : List Entry) (op : Operation) :
    dispatches (history ++ [⟨.dispatch, op⟩]) = dispatches history ++ [op.payload] := by
  simp [dispatches]

/-- The operation that an answer takes is dispatchable when the answer is. -/
theorem Takes.split {l rest : List Operation} {r : Operation} (h : Takes l r rest)
    (hr : r.type.Dispatchable) : ∃ used, l = used ++ rest ∧
      (used.filter fun o ↦ o.type.Dispatchable).map Operation.payload = [r.payload] := by
  obtain ⟨pre, o, rfl, hpre, -, hfunc, hop, htype⟩ := h
  have hskip : (pre.filter fun o ↦ o.type.Dispatchable) = [] :=
    List.filter_eq_nil_iff.mpr fun x hx ↦ by simp [hpre x hx, OpType.Dispatchable]
  -- An operation is taken for what it becomes: `:init` is filled in as `:invoke`.
  have ho : o.type.Dispatchable := by
    by_cases hinit : o.type = .kInit
    · rw [hinit]
      decide
    · rwa [htype, if_neg hinit] at hr
  refine ⟨pre ++ [o], by simp, ?_⟩
  rw [List.filter_append, hskip, List.filter_singleton, decide_eq_true ho]
  simp [Operation.payload, hfunc, hop]

namespace Runner

/-- What has been dispatched so far. -/
def dispatched (s : Runner) : List (String × OPInfo) := dispatches s.history

/-- The trees of the class `K` offer their flattening in order. -/
structure InOrder (K : GeneratorPtr → Prop) : Prop where
  rebuilt : ∀ {polled copied g g'}, K g → Rebuilt polled copied g g' → K g'
  next : ∀ {g ctx a}, K g → Answers g ctx a → a.op.type.Dispatchable →
    K a.gen2 ∧ Takes g.flatten a.op a.gen2.flatten

/-- The part `used` of the sequence `l` is dispatched and the generator still holds the rest. -/
structure Progress (K : GeneratorPtr → Prop) (l : List Operation) (s : Runner) : Prop where
  generator : K s.generator
  split : ∃ used, l = used ++ s.generator.flatten ∧
    s.dispatched = (used.filter fun o ↦ o.type.Dispatchable).map Operation.payload

variable {s s' : Runner} {a : Action}

theorem Progress.step {K : GeneratorPtr → Prop} (hK : InOrder K) {l : List Operation}
    (h : s.Progress K l) (hs : s.step a = some s') : s'.Progress K l := by
  obtain ⟨hgen, used, hl, hused⟩ := h
  cases step_moves hs with
  | work => exact ⟨hgen, used, hl, hused⟩
  | complete hflag hcomp hupd =>
    have hr := GeneratorPtr.update_rebuilt hupd
    exact ⟨hK.rebuilt hgen hr, used, by rwa [hr.flatten_eq],
      (dispatches_completion _ _).trans hused⟩
  | discard hflag hask hwhy =>
    have hr := (op_answers _ _ _ _ _ _ hask).rebuilt
    exact ⟨hK.rebuilt hgen hr, used, by rwa [hr.flatten_eq], hused⟩
  | exit hflag hask hend hout =>
    have hr := (op_answers _ _ _ _ _ _ hask).rebuilt
    exact ⟨hK.rebuilt hgen hr, used, hl.trans (congrArg (used ++ ·) hr.flatten_eq.symm), hused⟩
  | dispatch hflag hask hreal htime ht hmem hupd =>
    obtain ⟨hnext, htakes⟩ := hK.next hgen (op_answers _ _ _ _ _ _ hask) hreal
    have hr := GeneratorPtr.update_rebuilt hupd
    -- What the generator gives up for this operation is dispatched as one.
    obtain ⟨taken, hsplit, htaken⟩ := htakes.split hreal
    refine ⟨hK.rebuilt hnext hr, used ++ taken, ?_, ?_⟩
    · rw [hl, hsplit, hr.flatten_eq, List.append_assoc]
    · rw [List.filter_append, List.map_append, ← hused, htaken]
      exact dispatches_dispatch _ _

theorem progress_of_reachable {K : GeneratorPtr → Prop} (hK : InOrder K) {n : Nat}
    {g : GeneratorPtr} {time : Int} (hg : K g) (h : Reachable Step (start n g time) s) :
    s.Progress K g.flatten :=
  h.invariant ⟨hg, [], rfl, rfl⟩ fun _ _ _ hs hp ↦ hp.step hK hs

theorem Progress.isPrefix {K : GeneratorPtr → Prop} {l : List Operation} (h : s.Progress K l)
    (hl : ∀ o ∈ l, o.type.Dispatchable) : s.dispatched <+: l.map Operation.payload := by
  obtain ⟨-, used, rfl, hused⟩ := h
  have hall : (used.filter fun o ↦ o.type.Dispatchable) = used :=
    List.filter_eq_self.mpr fun o ho ↦ decide_eq_true (hl o (List.mem_append_left _ ho))
  rw [hused, hall, List.map_append]
  exact List.prefix_append _ _

/-- Only a sequence of dispatchable operations is dispatched as a whole, and nothing is left. -/
theorem Progress.whole {K : GeneratorPtr → Prop} {l : List Operation} (h : s.Progress K l)
    (hwhole : s.dispatched = l.map Operation.payload) :
    (∀ o ∈ l, o.type.Dispatchable) ∧ s.generator.flatten = [] := by
  obtain ⟨-, used, rfl, hused⟩ := h
  have hlen := congrArg List.length (hused.symm.trans hwhole)
  simp only [List.length_map, List.length_append] at hlen
  have hle := List.length_filter_le (fun o : Operation ↦ decide o.type.Dispatchable) used
  have hrest : s.generator.flatten = [] := List.eq_nil_of_length_eq_zero (by omega)
  have hall := List.length_filter_eq_length_iff.mp
    (show (used.filter fun o ↦ decide o.type.Dispatchable).length = used.length by omega)
  rw [hrest, List.append_nil]
  exact ⟨fun o ho ↦ of_decide_eq_true (hall o ho), rfl⟩

/-! ## Nested lists -/

theorem inOrder_nested : InOrder Nested where
  rebuilt := Nested.rebuilt
  next hg ha hreal := by
    cases ha.nested hg with
    | ended hnil => exact absurd hnil hreal.1
    | pending hp => exact absurd hp hreal.2.2
    | next _ hgen htakes => exact ⟨hgen, htakes⟩

/-- When the loop has ended, no dispatchable operation heads what is left of a nested list. -/
theorem flatten_of_exit {n : Nat} {g : GeneratorPtr} {time : Int} (hg : Nested g)
    (h : Reachable Step (start n g time) s) :
    s.flag = false → (∀ o ∈ s.generator.flatten, o.type.Dispatchable) →
      s.generator.flatten = [] := by
  refine (h.invariant (P := fun s ↦ Nested s.generator ∧ (s.flag = false →
      (∀ o ∈ s.generator.flatten, o.type.Dispatchable) → s.generator.flatten = []))
    ⟨hg, fun (hflag : true = false) ↦ absurd hflag (by decide)⟩ fun s a s' hs hinv ↦ ?_).2
  obtain ⟨hgen, hexit⟩ := hinv
  cases step_moves hs with
  | work => exact ⟨hgen, hexit⟩
  | complete hflag hcomp hupd =>
    exact ⟨hgen.rebuilt (GeneratorPtr.update_rebuilt hupd),
      fun hend ↦ absurd (hflag.symm.trans hend) (by simp)⟩
  | discard hflag hask hwhy =>
    exact ⟨hgen.rebuilt (op_answers _ _ _ _ _ _ hask).rebuilt,
      fun hend ↦ absurd (hflag.symm.trans hend) (by simp)⟩
  | dispatch hflag hask hreal htime ht hmem hupd =>
    exact ⟨(inOrder_nested.next hgen (op_answers _ _ _ _ _ _ hask) hreal).1.rebuilt
      (GeneratorPtr.update_rebuilt hupd), fun hend ↦ absurd (hflag.symm.trans hend) (by simp)⟩
  | @exit time draws draws' fuel a hflag hask hend hout =>
    have hr := (op_answers _ _ _ _ _ _ hask).rebuilt
    refine ⟨hgen.rebuilt hr, fun _ (hdisp : ∀ o ∈ a.self.flatten, o.type.Dispatchable) ↦ ?_⟩
    change a.self.flatten = []
    rw [hr.flatten_eq] at hdisp ⊢
    cases (op_answers _ _ _ _ _ _ hask).nested hgen with
    | ended _ _ hl => exact List.eq_nil_iff_forall_not_mem.mpr fun o ho ↦ (hdisp o ho).1 (hl o ho)
    | pending hp => exact absurd hp (by rcases hend with he | he <;> rw [he] <;> decide)
    | next hnil _ htakes =>
      obtain ⟨pre, o, hsplit, -, -, -, -, htype⟩ := htakes
      have ho := hdisp o (by simp [hsplit])
      have hae := hend.resolve_left hnil
      -- The next operation would be dispatched, but the answer was the end.
      rw [htype] at hae
      split at hae
      · exact absurd hae (by decide)
      · exact absurd hae ho.2.1

/-- A run over nested lists that has ended has dispatched all of them. -/
theorem Progress.of_exit {n : Nat} {g : GeneratorPtr} {time : Int} {l : List Operation}
    (hp : s.Progress Nested l) (hg : Nested g) (h : Reachable Step (start n g time) s)
    (hexit : s.flag = false) (hl : ∀ o ∈ l, o.type.Dispatchable) :
    s.dispatched = l.map Operation.payload := by
  obtain ⟨-, used, rfl, hused⟩ := hp
  have hrest := flatten_of_exit hg h hexit fun o ho ↦ hl o (List.mem_append_right _ ho)
  have hall : (used.filter fun o ↦ o.type.Dispatchable) = used :=
    List.filter_eq_self.mpr fun o ho ↦ decide_eq_true (hl o (List.mem_append_left _ ho))
  rw [hused, hall, hrest, List.append_nil]

/-- A run over nested lists dispatches their operations from left to right, and all of them before
it ends. -/
theorem dispatched_prefix_flatten (n : Nat) (g : GeneratorPtr) (time : Int) (s : Runner)
    (hg : Nested g) (hleaf : ∀ o ∈ g.flatten, o.type.Dispatchable)
    (h : Reachable Step (start n (setGenerator g) time) s) :
    s.dispatched <+: g.flatten.map Operation.payload ∧
    (s.flag = false → s.dispatched = g.flatten.map Operation.payload) := by
  have hprogress : s.Progress Nested g.flatten :=
    progress_of_reachable (g := setGenerator g) inOrder_nested (.validate hg) h
  exact ⟨hprogress.isPrefix hleaf, fun hexit ↦ hprogress.of_exit (.validate hg) h hexit hleaf⟩

/-- Two operations in nested lists, with an empty list between them. -/
theorem dispatched_prefix_flatten_nested : ∃ s,
    (start 1 (setGenerator (.list [.list [.operation (OperationFactory.read .null)], .list [],
      .operation (OperationFactory.write .null .null)])) 0).run
        [.ask 0 (fun _ ↦ 1) 8] = some s ∧
    s.dispatched <+: [("read", .array [.null, .null]), ("write", .array [.null, .null])] ∧
    s.dispatched ≠ [] := by
  have hnested : Nested (.list [.list [.operation (OperationFactory.read .null)], .list [],
      .operation (OperationFactory.write .null .null)]) :=
    .list (by simpa using ⟨.list (by simpa using .operation _), .list (by simp), .operation _⟩)
  obtain ⟨s, hs, hone⟩ : ∃ s,
      (start 1 (setGenerator (.list [.list [.operation (OperationFactory.read .null)], .list [],
        .operation (OperationFactory.write .null .null)])) 0).run
          [.ask 0 (fun _ ↦ 1) 8] = some s ∧ s.dispatched.length = 1 := ⟨_, rfl, rfl⟩
  refine ⟨s, hs, ?_, fun hnil ↦ by simp [hnil] at hone⟩
  exact (dispatched_prefix_flatten 1 _ 0 s hnested (by decide) (reachable_of_run hs)).1

end Runner

end Jepsen
