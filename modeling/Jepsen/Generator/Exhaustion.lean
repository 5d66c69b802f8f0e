import Jepsen.Generator.Outcome

/-!
# Functions that answer nil

`generator::op` turns a function into a list of its answer and the function itself.  When the answer
is nil the list drops it and asks the function again, so that nil is skipped and never reached as an
answer: the call ends with the first answer that is not nil, and not at all when there is none.
-/

namespace Jepsen

open Library Context
open GeneratorPtr (copyOne copyEach copyOrNull members writeBackEach Rebuilt)

/-- A function that answers nil is at its end. -/
def FunctionGenerator.Exhausts (f : FunctionGenerator) : Prop :=
  ∀ ctx draws, (f.func ctx (draws 0)).type = .kNil →
    ∃ n a d, Jepsen.op n (.function f) ctx draws = .ok (a, d) ∧
      a.op.type = .kNil ∧ a.gen2 = .nullptr

/-- Some thread is free, and every free thread has a worker with a process. -/
structure Context.Serving (ctx : Context) : Prop where
  free : ctx.freeThreads.Nonempty
  staffed : ctx.Staffed
  valid : ∀ t p, ctx.workers.lookup t = some p → p ≠ kInvalidProcess

section

variable {f : FunctionGenerator} {ctx : Context} {draws d : Draws} {o : Operation}

theorem op_function (n : Nat) (f : FunctionGenerator) (ctx : Context) (draws : Draws) :
    op (n + 1) (.function f) ctx draws =
      (op n (.list [.operation (f.func ctx (draws 0)), .function f]) ctx >>=
        fun a ↦ pure { a with self := .function f }) fun i ↦ draws (i + 1) :=
  rfl

/-! ## Asking past a nil answer -/

/-- A list that starts with a nil answer drops it and asks the function again. -/
theorem op_list_nil {a : Answer} {n : Nat} (ha : op (n + 1) (.operation o) ctx draws = .ok (a, d))
    (hgen : a.gen2 = .nullptr) (hnil : a.op.type = .kNil) (hself : a.self = .operation o) :
    op (n + 2) (.list [.operation o, .function f]) ctx draws =
      (op (n + 1) (.list [.function f]) ctx >>= fun b ↦
        pure { b with self := .list [.operation o, .function f] }) d := by
  have heq : op (n + 2) (.list [.operation o, .function f]) ctx draws = _ := Eval.bind_apply_ok ha
  have hcopy : (liftM (copyOrNull [.operation o, .function f]) : Gen _) d =
      .ok ([.operation o, .function f], d) := rfl
  rw [heq, hself, Eval.bind_apply_ok hcopy, if_pos ⟨GeneratorPtr.isNull_iff.mpr hgen, hnil⟩]
  rfl

/-- A list of one function answers what the function answers, unless it answers nil. -/
theorem op_list_function {a : Answer} {n : Nat} (ha : op n (.function f) ctx draws = .ok (a, d))
    (hkeep : ¬ (a.gen2.isNull ∧ a.op.type = .kNil)) :
    op (n + 1) (.list [.function f]) ctx draws = .ok (⟨a.op, a.gen2, .list [a.self]⟩, d) := by
  have hself : a.self = .function f := by
    cases op_answers n _ ctx draws a d ha
    rfl
  have heq : op (n + 1) (.list [.function f]) ctx draws = _ := Eval.bind_apply_ok ha
  have hcopy : (liftM (copyOrNull [.function f]) : Gen _) d = .ok ([.function f], d) := rfl
  rw [heq, hself, Eval.bind_apply_ok hcopy, if_neg hkeep]
  rfl

theorem op_list_function_error {e : Fault} {n : Nat}
    (h : op n (.function f) ctx draws = .error e) :
    op (n + 1) (.list [.function f]) ctx draws = .error e :=
  Eval.bind_apply_error h

/-- A nil operation, when a thread is free. -/
theorem op_operation_nil (h : ctx.Serving) (ho : o.type = .kNil) (n : Nat) (draws : Draws) :
    ∃ a, op (n + 1) (.operation o) ctx draws = .ok (a, fun i ↦ draws (i + 1)) ∧
      a.gen2 = .nullptr ∧ a.op.type = .kNil ∧ a.self = .operation o := by
  obtain ⟨t, -, p, hp, hdraw⟩ := randomFreeProcess_staffed h.staffed h.free draws
  have htype : (fillIn ctx.time p o).type = .kNil := by
    simp [fillIn, h.valid t p hp, ho]
  have hfill : fillInOperation ctx o draws = .ok (fillIn ctx.time p o, fun i ↦ draws (i + 1)) :=
    (Eval.bind_apply_ok hdraw).trans rfl
  refine ⟨⟨fillIn ctx.time p o, .nullptr, .operation o⟩, ?_, rfl, htype, rfl⟩
  have heq : op (n + 1) (.operation o) ctx draws = _ := Eval.bind_apply_ok hfill
  rw [heq, if_neg (by rw [htype]; decide)]
  rfl

theorem op_function_skip_error (h : ctx.Serving) (hnil : (f.func ctx (draws 0)).type = .kNil)
    {n : Nat} {e : Fault} (he : op n (.function f) ctx (fun i ↦ draws (i + 2)) = .error e) :
    op (n + 3) (.function f) ctx draws = .error e := by
  obtain ⟨a, ha, hgen, htype, hself⟩ := op_operation_nil h hnil n fun i ↦ draws (i + 1)
  have hlist : op (n + 2) (.list [.operation (f.func ctx (draws 0)), .function f]) ctx
      (fun i ↦ draws (i + 1)) = .error e := by
    rw [op_list_nil ha hgen htype hself]
    exact Eval.bind_apply_error (op_list_function_error he)
  rw [op_function]
  exact Eval.bind_apply_error hlist

theorem op_function_skip (h : ctx.Serving) (hnil : (f.func ctx (draws 0)).type = .kNil)
    {n : Nat} {a : Answer} (ha : op n (.function f) ctx (fun i ↦ draws (i + 2)) = .ok (a, d))
    (hkeep : a.op.type ≠ .kNil) :
    ∃ b, op (n + 3) (.function f) ctx draws = .ok (b, d) ∧ b.op = a.op := by
  obtain ⟨c, hc, hgen, htype, hself⟩ := op_operation_nil h hnil n fun i ↦ draws (i + 1)
  have hrest := op_list_function ha fun hpop ↦ hkeep hpop.2
  -- The operation is `:nil`, so the list goes on to the function and takes two draws in all.
  have hlist : op (n + 2) (.list [.operation (f.func ctx (draws 0)), .function f]) ctx
      (fun i ↦ draws (i + 1)) =
        .ok (⟨a.op, a.gen2, .list [.operation (f.func ctx (draws 0)), .function f]⟩, d) := by
    rw [op_list_nil hc hgen htype hself, Eval.bind_apply_ok hrest]
    rfl
  refine ⟨⟨a.op, a.gen2, .function f⟩, ?_, rfl⟩
  rw [op_function, Eval.bind_apply_ok hlist]
  rfl

theorem op_function_real (h : ctx.Staffed) (ho : (f.func ctx (draws 0)).type ≠ .kNil) :
    ∃ a d, op 3 (.function f) ctx draws = .ok (a, d) ∧ a.op.type ≠ .kNil := by
  have hyields := op_list_operation_yields (E := fun _ ↦ False) (n := 0) (.inr h) ho f
  cases hr : op 2 (.list [.operation (f.func ctx (draws 0)), .function f]) ctx
      fun i ↦ draws (i + 1) with
  | error e => exact absurd (hyields.error hr) id
  | ok r =>
    refine ⟨⟨r.1.op, r.1.gen2, .function f⟩, r.2, ?_, ?_⟩
    · rw [op_function, Eval.bind_apply_ok hr]
      rfl
    · exact (op_answers 2 _ ctx _ r.1 r.2 hr).list_operation_ne_nil ho

/-! ## The whole stream of answers -/

/-- The function is asked with every other draw, until it does not answer nil. -/
theorem answered_function_iff (h : ctx.Serving) :
    (∃ n r, op n (.function f) ctx draws = .ok r) ↔
      ∃ i, (f.func ctx (draws (2 * i))).type ≠ .kNil := by
  constructor
  · rintro ⟨n, r, hr⟩
    by_contra hall
    suffices op n (.function f) ctx draws = .error .outOfFuel by
      rw [this] at hr
      exact absurd hr (by simp)
    have hnil : ∀ i, (f.func ctx (draws (2 * i))).type = .kNil := fun i ↦
      not_not.mp fun hi ↦ hall ⟨i, hi⟩
    clear hall hr
    -- Each `:nil` costs three units of fuel, so that no fuel is enough for all of them.
    induction n using Nat.strong_induction_on generalizing draws with
    | _ n ih =>
      match n with
      | 0 => rfl
      | 1 => rfl
      | 2 => rfl
      | n + 3 =>
        refine op_function_skip_error h (hnil 0) (ih n (by omega) fun i ↦ ?_)
        exact hnil (i + 1)
  · rintro ⟨i, hi⟩
    suffices ∃ n a d, op n (.function f) ctx draws = .ok (a, d) ∧ a.op.type ≠ .kNil by
      obtain ⟨n, a, d, hok, -⟩ := this
      exact ⟨n, (a, d), hok⟩
    -- By induction on the number of `:nil`s before the first real operation.
    induction i generalizing draws with
    | zero => exact ⟨3, op_function_real h.staffed hi⟩
    | succ i ih =>
      by_cases hnil : (f.func ctx (draws 0)).type = .kNil
      · obtain ⟨n, a, d, hok, htype⟩ := @ih (fun i ↦ draws (i + 2)) hi
        obtain ⟨b, hb, hop⟩ := op_function_skip h hnil hok htype
        exact ⟨n + 3, b, d, hb, hop ▸ htype⟩
      · exact ⟨3, op_function_real h.staffed hnil⟩

end

/-- A list that `op` makes of a function. -/
inductive OfFunction : GeneratorPtr → Prop
  | function {f} : OfFunction (.function f)
  | next {f} : OfFunction (.list [.function f])
  | list {o f} : OfFunction (.list [.operation o, .function f])

/-- A function is never at its end. -/
theorem OfFunction.gen2_ne_nullptr {g : GeneratorPtr} {ctx : Context} {a : Answer}
    (h : OfFunction g) (ha : Answers g ctx a) : a.gen2 ≠ .nullptr := by
  induction ha with
  | function _ ih => exact ih .list
  -- only the operation in front can be used up, and then the function is asked
  | @listPop first rest ctx a first' copy b _ hgen _ hcopy _ ih₁ ih₂ =>
    cases h with
    | next => exact absurd hgen (ih₁ .function)
    | list =>
      obtain ⟨_, rest', -, hrest, heq⟩ := GeneratorPtr.copyOrNull_cons_ok.mp hcopy
      obtain rfl := Except.ok.inj hrest
      obtain ⟨rfl, rfl⟩ := List.cons.inj heq
      exact ih₂ .next
  | listFront => simp
  | listSingle _ _ ih => cases h with | next => exact ih .function
  | _ => cases h

theorem exhausts_iff_neverNil {f : FunctionGenerator} : f.Exhausts ↔ f.NeverNil := by
  constructor
  · intro h ctx k hnil
    obtain ⟨n, a, d, ha, -, hgen⟩ := h ctx (fun _ ↦ k) hnil
    exact OfFunction.function.gen2_ne_nullptr (op_answers n _ ctx _ a d ha) hgen
  · exact fun h ctx draws hnil ↦ absurd hnil (h ctx (draws 0))

/-- A function that has nothing to offer. -/
def nothing : FunctionGenerator := .kBase fun _ ↦ { type := .kNil }

/-- A function that offers a read whenever it is asked. -/
def reads : FunctionGenerator := .kBase fun _ ↦ OperationFactory.read .null

theorem reads_neverNil : reads.NeverNil := by
  intro ctx k hnil
  cases hnil

theorem serving_oneClient (time : Int) : (oneClient time).Serving where
  free := ⟨0, by simp [oneClient]⟩
  staffed := staffed_oneClient time
  valid t p hp := by
    rw [(lookup_oneClient hp).2]
    decide

end Jepsen
