import Jepsen.Generator.Sequence

/-!
# When a wrapper hands on what it is offered

`OnThreads`, `TimeLimit`, `Stagger` and `Any` take an operation that comes with a null successor for
the end of their generator, and drop it.  Each statement gives the answer of the wrapped generator
and says exactly when the wrapper returns its operation.
-/

namespace Jepsen

open Library GeneratorFactory
open GeneratorPtr (copyEach Rebuilt)

theorem Answer.offer_iff_of_real {a : Answer} (h : a.op.Real) :
    notNil a.op a.gen2 = true ↔ a.gen2 ≠ .nullptr :=
  Answer.offer_iff.trans (and_iff_right h.1)

theorem nil_not_real (self : GeneratorPtr) : ¬ (nil self).op.Real := fun h ↦ h.1 rfl

variable {n : Nat} {g : GeneratorPtr} {ctx : Context} {draws d : Draws} {a : Answer}

theorem onThreads_returns_iff {filter : ThreadFilter}
    (hask : op n g (onThreadsContext filter ctx) draws = .ok (a, d)) (hreal : a.op.Real) :
    (∃ b d', op (n + 1) (.onThreads g filter) ctx draws = .ok (b, d') ∧ b.op = a.op) ↔
      a.gen2 ≠ .nullptr := by
  rw [← Answer.offer_iff_of_real hreal]
  have heq : op (n + 1) (.onThreads g filter) ctx draws = _ := Eval.bind_apply_ok hask
  rw [heq]
  by_cases hoff : notNil a.op a.gen2 = true
  · rw [if_pos hoff]
    exact ⟨fun _ ↦ hoff, fun _ ↦ ⟨_, _, rfl, rfl⟩⟩
  · rw [if_neg hoff]
    refine ⟨fun ⟨b, d', hb, hop⟩ ↦ ?_, fun h ↦ absurd h hoff⟩
    exact absurd (pure_answer hb ▸ hop ▸ hreal) (nil_not_real _)

theorem timeLimit_returns_iff {limit cutoff : Int} (hask : op n g ctx draws = .ok (a, d))
    (hreal : a.op.Real) (htime : a.op.time < TimeLimit.fix limit cutoff a.op.time) :
    (∃ b d', op (n + 1) (.timeLimit limit cutoff g) ctx draws = .ok (b, d') ∧ b.op = a.op) ↔
      a.gen2 ≠ .nullptr := by
  rw [← Answer.offer_iff_of_real hreal]
  have heq : op (n + 1) (.timeLimit limit cutoff g) ctx draws = _ := Eval.bind_apply_ok hask
  rw [heq]
  by_cases hoff : notNil a.op a.gen2 = true
  · rw [if_pos hoff, if_neg hreal.2, if_pos htime]
    exact ⟨fun _ ↦ hoff, fun _ ↦ ⟨_, _, rfl, rfl⟩⟩
  · rw [if_neg hoff]
    refine ⟨fun ⟨b, d', hb, hop⟩ ↦ ?_, fun h ↦ absurd h hoff⟩
    exact absurd (pure_answer hb ▸ hop ▸ hreal) (nil_not_real _)

/-- `Stagger` may raise the operation's time.  With `dt = 0` it divides by zero. -/
theorem stagger_returns_iff {dt next_time : Int} (hask : op n g ctx draws = .ok (a, d))
    (hreal : a.op.Real) :
    (∃ b d' t, op (n + 1) (.stagger dt next_time g) ctx draws = .ok (b, d') ∧
      b.op = { a.op with time := t }) ↔ a.gen2 ≠ .nullptr ∧ dt ≠ 0 := by
  rw [← Answer.offer_iff_of_real hreal]
  have heq : op (n + 1) (.stagger dt next_time g) ctx draws = _ := Eval.bind_apply_ok hask
  rw [heq]
  by_cases hoff : notNil a.op a.gen2 = true
  · rw [if_pos hoff]
    dsimp only
    rw [if_neg hreal.2, Eval.bind_apply_ok (rand_eq_ok.mpr rfl)]
    by_cases hdt : dt = 0
    · simp [hdt]
    · rw [if_neg hdt]
      exact ⟨fun _ ↦ ⟨hoff, hdt⟩, fun _ ↦ ⟨_, _, _, rfl, rfl⟩⟩
  · rw [if_neg hoff]
    refine ⟨fun ⟨b, d', t, hb, hop⟩ ↦ ?_, fun h ↦ absurd h.1 hoff⟩
    have hnil : a.op.type = .kNil := by
      rw [← pure_answer hb] at hop
      exact (congrArg Operation.type hop).symm
    exact absurd hnil hreal.1

/-- When some member offers a real operation, `Any` answers a real one exactly when a member's real
operation comes with a successor and the members can be copied. -/
theorem any_returns_iff {gens : List GeneratorPtr} {loop : Any.Loop} {answers : List Answer}
    (hpoll : Any.poll (op n) ctx 0 gens {} draws = .ok ((loop, answers), d)) :
    (∃ b d', op (n + 1) (.any gens) ctx draws = .ok (b, d') ∧ b.op.Real) ↔
      (∃ a ∈ answers, a.op.Real ∧ a.gen2 ≠ .nullptr) ∧
        ∃ copy, copyEach (answers.map Answer.self) = .ok copy := by
  have heq : op (n + 1) (.any gens) ctx draws = _ := Eval.bind_apply_ok hpoll
  obtain ⟨-, htracks⟩ := Any.tracks_init.poll (R := fun _ _ ↦ True) (fun _ _ _ _ _ ↦ trivial) hpoll
  rw [List.nil_append] at htracks
  rw [heq]
  dsimp only
  rcases htracks with ⟨-, hgen, hnone⟩ | ⟨i, b, hbest, hop, hgen, hidx, -⟩
  · rw [if_neg (by simp [notNil, hgen, GeneratorPtr.isNull])]
    constructor
    · rintro ⟨b, d', hb, hreal⟩
      exact absurd (pure_answer hb ▸ hreal) (nil_not_real _)
    · rintro ⟨⟨c, hc, hreal, hnext⟩, -⟩
      exact absurd ((Answer.offer_iff_of_real hreal).mpr hnext) (hnone c hc)
  · have hoff := hbest.offer
    rw [if_pos (by rw [hop, hgen]; exact hoff), hop]
    constructor
    · rintro ⟨c, d', hc, hreal⟩
      obtain ⟨copy, hcopy, hret⟩ := Eval.lift_bind_eq_ok.mp hc
      have hbreal : b.op.Real := by
        rw [← pure_answer hret] at hreal
        exact hreal
      exact ⟨⟨b, hbest.mem, hbreal, (Answer.offer_iff_of_real hbreal).mp hoff⟩, copy, hcopy⟩
    · rintro ⟨⟨c, hc, hreal, hnext⟩, copy, hcopy⟩
      have hbreal : b.op.Real := by
        refine ⟨(Answer.offer_iff.mp hoff).1, fun hp ↦ ?_⟩
        exact hreal.2 (hbest.pending hp c hc ((Answer.offer_iff_of_real hreal).mpr hnext))
      rw [Eval.lift_bind_apply_ok hcopy]
      exact ⟨_, _, rfl, hbreal⟩

/-! ## Trees with a wrapper on top -/

namespace GeneratorPtr

/-- The wrappers that drop an operation without successor. -/
def isWrapper : GeneratorPtr → Bool
  | .onThreads _ _ => true
  | .timeLimit _ _ _ => true
  | .stagger _ _ _ => true
  | _ => false

theorem Rebuilt.isWrapper {polled copied : Bool} {g g' : GeneratorPtr}
    (hr : Rebuilt polled copied g g')
    (h : g.isWrapper = true) (hne : g.flatten ≠ []) : g'.isWrapper = true := by
  cases hr with
  | timeLimitNull hr => exact absurd hr.flatten_eq.symm hne
  | staggerNull hr => exact absurd hr.flatten_eq.symm hne
  | refl => exact h
  | emptyList => exact h
  | _ => first | rfl | exact h

end GeneratorPtr

theorem Answers.isWrapper {g : GeneratorPtr} {ctx : Context} {a : Answer} (ha : Answers g ctx a)
    (h : g.isWrapper = true) (hreal : a.op.Real) : a.gen2.isWrapper = true := by
  cases ha with
  | onThreads | timeLimitPending | timeLimit | staggerPending | stagger => rfl
  | onThreadsNil | timeLimitOver | timeLimitNil | staggerNil =>
    exact absurd hreal (nil_not_real _)
  | _ => exact absurd h (by simp [GeneratorPtr.isWrapper])

end Jepsen
