import Jepsen.Generator.Rebuild
import Jepsen.Generator.Select

/-!
# What a generator may answer

`Answers g ctx a` is the big-step reading of `generator::op`: some draws make the call on `g` in
`ctx` return `a`.  There is one rule for every way through a method.  `op_answers` shows that every
answer of `op` is derived by these rules, so that a property of all answers is an induction over the
derivation.
-/

namespace Jepsen

open Library GeneratorFactory
open GeneratorPtr (copyOne copyEach copyOrNull members writeBackEach Rebuilt)

/-- `fillInOperation` may turn `op` into `r`. -/
def MayFill (ctx : Context) (op r : Operation) : Prop :=
  ∃ process, ctx.MayDraw process ∧ r = fillIn ctx.time process op

theorem fillInOperation_ok {ctx : Context} {op r : Operation} {draws draws' : Draws}
    (h : fillInOperation ctx op draws = .ok (r, draws')) : MayFill ctx op r := by
  obtain ⟨p, d, hp, h⟩ := Eval.bind_eq_ok.mp h
  simp only [Eval.pure_apply, Except.ok.injEq, Prod.mk.injEq] at h
  exact ⟨p, Context.randomFreeProcess_ok hp, h.1.symm⟩

inductive Answers : GeneratorPtr → Context → Answer → Prop
  | nullptr {ctx} : Answers .nullptr ctx (nil .nullptr)
  | pending {o ctx r} (hfill : MayFill ctx o r) (hr : r.type = .kPending) :
      Answers (.operation o) ctx ⟨r, .operation o, .operation o⟩
  | operation {o ctx r} (hfill : MayFill ctx o r) (hr : r.type ≠ .kPending) :
      Answers (.operation o) ctx ⟨r, .nullptr, .operation o⟩
  | function {f ctx k a} (ha : Answers (.list [.operation (f.func ctx k), .function f]) ctx a) :
      Answers (.function f) ctx { a with self := .function f }
  | listEmpty {ctx} : Answers (.list []) ctx (nil (.list []))
  | listPop {first rest ctx a first' copy b} (ha : Answers first ctx a) (hgen : a.gen2 = .nullptr)
      (hnil : a.op.type = .kNil) (hcopy : copyOrNull (a.self :: rest) = .ok (first' :: copy))
      (hb : Answers (.list copy) ctx b) :
      Answers (.list (first :: rest)) ctx
        { b with self := .list (a.self :: writeBackEach rest (members b.self)) }
  | listFront {first rest ctx a first' copy} (ha : Answers first ctx a)
      (hkeep : ¬ (a.gen2 = .nullptr ∧ a.op.type = .kNil))
      (hcopy : copyOrNull (a.self :: rest) = .ok (first' :: copy)) (hrest : rest ≠ []) :
      Answers (.list (first :: rest)) ctx
        ⟨a.op, .list (a.gen2 :: copy), .list (a.self :: rest)⟩
  | listSingle {first ctx a} (ha : Answers first ctx a)
      (hkeep : ¬ (a.gen2 = .nullptr ∧ a.op.type = .kNil)) :
      Answers (.list [first]) ctx ⟨a.op, a.gen2, .list [a.self]⟩
  | validate {gen ctx a} (ha : Answers gen ctx a) (hoff : a.Offer) :
      Answers (.validate gen) ctx ⟨a.op, .validate a.gen2, .validate a.self⟩
  | validateLast {gen ctx a} (ha : Answers gen ctx a) (hoff : ¬ a.Offer) :
      Answers (.validate gen) ctx ⟨a.op, a.gen2, .validate a.self⟩
  | onThreads {gen filter ctx a} (ha : Answers gen (onThreadsContext filter ctx) a)
      (hoff : a.Offer) :
      Answers (.onThreads gen filter) ctx
        ⟨a.op, .onThreads a.gen2 filter, .onThreads a.self filter⟩
  | onThreadsNil {gen filter ctx a} (ha : Answers gen (onThreadsContext filter ctx) a)
      (hoff : ¬ a.Offer) :
      Answers (.onThreads gen filter) ctx (nil (.onThreads a.self filter))
  | timeLimitPending {limit cutoff gen ctx a} (ha : Answers gen ctx a) (hoff : a.Offer)
      (hp : a.op.type = .kPending) :
      Answers (.timeLimit limit cutoff gen) ctx
        ⟨a.op, .timeLimit limit cutoff a.gen2, .timeLimit limit cutoff a.self⟩
  | timeLimit {limit cutoff gen ctx a cutoff'} (ha : Answers gen ctx a) (hoff : a.Offer)
      (hp : a.op.type ≠ .kPending)
      (hcut : cutoff' = TimeLimit.fix limit cutoff a.op.time)
      (hlt : a.op.time < cutoff') :
      Answers (.timeLimit limit cutoff gen) ctx
        ⟨a.op, .timeLimit limit cutoff' a.gen2, .timeLimit limit cutoff' a.self⟩
  | timeLimitOver {limit cutoff gen ctx a cutoff'} (ha : Answers gen ctx a) (hoff : a.Offer)
      (hp : a.op.type ≠ .kPending)
      (hcut : cutoff' = TimeLimit.fix limit cutoff a.op.time)
      (hle : cutoff' ≤ a.op.time) :
      Answers (.timeLimit limit cutoff gen) ctx (nil (.timeLimit limit cutoff' a.self))
  | timeLimitNil {limit cutoff gen ctx a} (ha : Answers gen ctx a) (hoff : ¬ a.Offer) :
      Answers (.timeLimit limit cutoff gen) ctx (nil (.timeLimit limit cutoff a.self))
  | staggerPending {dt next_time gen ctx a next_time'} (ha : Answers gen ctx a) (hoff : a.Offer)
      (hp : a.op.type = .kPending)
      (hnext : next_time' = Stagger.fix next_time ctx.time) :
      Answers (.stagger dt next_time gen) ctx
        ⟨a.op, .stagger dt next_time' a.self, .stagger dt next_time' a.self⟩
  | stagger {dt next_time gen ctx a next_time'} (ha : Answers gen ctx a) (hoff : a.Offer)
      (hp : a.op.type ≠ .kPending)
      (hnext : next_time' = Stagger.fix next_time ctx.time)
      (hdt : dt ≠ 0) :
      Answers (.stagger dt next_time gen) ctx
        ⟨{ a.op with time := max next_time' a.op.time }, .stagger dt kInvalidTime a.gen2,
          .stagger dt next_time' a.self⟩
  | staggerNil {dt next_time gen ctx a} (ha : Answers gen ctx a) (hoff : ¬ a.Offer) :
      Answers (.stagger dt next_time gen) ctx (nil (.stagger dt next_time a.self))
  | mixEmpty {idx ctx} : Answers (.mix idx []) ctx (nil (.mix idx []))
  | mix {idx} {gens : List GeneratorPtr} {gen ctx a copy idx'}
      (hgen : gens[idx]? = some gen) (ha : Answers gen ctx a) (hoff : a.Offer)
      (hcopy : copyEach (gens.set idx a.self) = .ok copy) :
      Answers (.mix idx gens) ctx
        ⟨a.op, .mix idx' (copy.set idx a.gen2), .mix idx (gens.set idx a.self)⟩
  | mixDrop {idx} {gens : List GeneratorPtr} {gen ctx a copy idx' b}
      (hgen : gens[idx]? = some gen)
      (ha : Answers gen ctx a) (hoff : ¬ a.Offer)
      (hcopy : copyEach (gens.eraseIdx idx) = .ok copy)
      (hb : Answers (.mix idx' copy) ctx b) :
      Answers (.mix idx gens) ctx
        { b with
          self := .mix idx
            ((writeBackEach (gens.eraseIdx idx) (members b.self)).insertIdx idx a.self) }
  | any {gens : List GeneratorPtr} {ctx} {as : List Answer} {i a copy}
      (hlen : gens.length = as.length)
      (has : ∀ j (hj : j < gens.length) (hj' : j < as.length), Answers gens[j] ctx as[j])
      (hbest : SoonestOffer as i a) (hcopy : copyEach (as.map Answer.self) = .ok copy) :
      Answers (.any gens) ctx ⟨a.op, .any (copy.set i a.gen2), .any (as.map Answer.self)⟩
  | anyNil {gens : List GeneratorPtr} {ctx} {as : List Answer} (hlen : gens.length = as.length)
      (has : ∀ j (hj : j < gens.length) (hj' : j < as.length), Answers gens[j] ctx as[j])
      (hnone : ∀ b ∈ as, ¬ b.Offer) :
      Answers (.any gens) ctx (nil (.any (as.map Answer.self)))
  | userNil {leaf calls ctx k} (hnil : (leaf.next calls ctx k).type = .kNil) :
      Answers (.user leaf calls) ctx (nil (.user leaf (calls ++ [.polled ctx k])))
  | user {leaf calls ctx k r} (hnil : (leaf.next calls ctx k).type ≠ .kNil)
      (hfill : MayFill ctx (leaf.next calls ctx k) r) :
      Answers (.user leaf calls) ctx
        ⟨r, .user leaf (calls ++ [.taken ctx k]), .user leaf (calls ++ [.polled ctx k])⟩

/-! ## Every answer is derived -/

/-- Every answer of `ask` satisfies `R`. -/
def Meets (ask : Ask) (R : GeneratorPtr → Context → Answer → Prop) : Prop :=
  ∀ g ctx draws a draws', ask g ctx draws = .ok (a, draws') → R g ctx a

theorem pure_answer {a b : Answer} {draws draws' : Draws}
    (h : (pure a : Gen Answer) draws = .ok (b, draws')) : a = b := by
  simp only [Eval.pure_apply, Except.ok.injEq, Prod.mk.injEq] at h
  exact h.1

theorem mix_ok {gens : List GeneratorPtr} {draws draws' : Draws} {m : GeneratorPtr}
    (h : mix gens draws = .ok (m, draws')) : ∃ idx < gens.length, m = .mix idx gens := by
  obtain ⟨r, d, -, h⟩ := Eval.bind_eq_ok.mp h
  split at h
  · exact absurd h (by simp)
  · rename_i hlen
    simp only [Eval.pure_apply, Except.ok.injEq, Prod.mk.injEq] at h
    exact ⟨r % gens.length, Nat.mod_lt r (Nat.pos_of_ne_zero hlen), h.1.symm⟩

section

variable {ask : Ask} {ctx : Context} {a : Answer} {draws draws' : Draws}

theorem OperationGenerator.op_answers {o : Operation}
    (h : OperationGenerator.op o ctx draws = .ok (a, draws')) : Answers (.operation o) ctx a := by
  obtain ⟨r, d, hr, h⟩ := Eval.bind_eq_ok.mp h
  have hfill := fillInOperation_ok hr
  split at h
  · rename_i hp
    exact pure_answer h ▸ .pending hfill hp
  · rename_i hp
    exact pure_answer h ▸ .operation hfill hp

theorem UserLeaf.op_answers {leaf : UserLeaf} {calls : List LeafCall}
    (h : UserLeaf.op leaf calls ctx draws = .ok (a, draws')) :
    Answers (.user leaf calls) ctx a := by
  obtain ⟨k, d, -, h⟩ := Eval.bind_eq_ok.mp h
  split at h
  · rename_i hnil
    exact pure_answer h ▸ .userNil hnil
  · rename_i hnil
    obtain ⟨r, d', hr, h⟩ := Eval.bind_eq_ok.mp h
    exact pure_answer h ▸ .user hnil (fillInOperation_ok hr)

variable (hask : Meets ask Answers)
include hask

theorem FunctionGenerator.op_answers {f : FunctionGenerator}
    (h : FunctionGenerator.op ask f ctx draws = .ok (a, draws')) : Answers (.function f) ctx a := by
  obtain ⟨k, d₁, -, h₁⟩ := Eval.bind_eq_ok.mp h
  obtain ⟨copy, hcopy, h₂⟩ := Eval.lift_bind_eq_ok.mp h₁
  obtain rfl : copy = .function f := (Except.ok.inj hcopy).symm
  obtain ⟨b, d₃, hb, h⟩ := Eval.bind_eq_ok.mp h₂
  exact pure_answer h ▸ .function (hask _ _ _ _ _ hb)

theorem ListGenerator.op_answers {gens : List GeneratorPtr}
    (hnull : ∀ ctx draws a draws', ask .nullptr ctx draws = .ok (a, draws') → a = nil .nullptr)
    (h : ListGenerator.op ask gens ctx draws = .ok (a, draws')) : Answers (.list gens) ctx a := by
  cases gens with
  | nil =>
    obtain ⟨b, d₁, hb, h⟩ := Eval.bind_eq_ok.mp h
    obtain rfl := hnull _ _ _ _ hb
    exact pure_answer h ▸ .listEmpty
  | cons first rest =>
    obtain ⟨b, d₁, hb, h⟩ := Eval.bind_eq_ok.mp h
    obtain ⟨copy, hcopy, h⟩ := Eval.lift_bind_eq_ok.mp h
    have hanswer := hask _ _ _ _ _ hb
    obtain ⟨first', rest', -, -, rfl⟩ := GeneratorPtr.copyOrNull_cons_ok.mp hcopy
    have hlen := (GeneratorPtr.copyOrNull_rebuilt true hcopy).1
    simp only [List.length_cons, Nat.add_right_cancel_iff] at hlen
    split at h
    -- the first member is used up, and the rest is asked in its place
    · rename_i hpop
      obtain ⟨c, d₃, hc, h⟩ := Eval.bind_eq_ok.mp h
      exact pure_answer h ▸ .listPop hanswer (GeneratorPtr.isNull_iff.mp hpop.1) hpop.2 hcopy
        (hask _ _ _ _ _ hc)
    -- it is kept, in front of the rest where there is one
    · rename_i hkeep
      rw [GeneratorPtr.isNull_iff] at hkeep
      split at h
      · rename_i hlong
        refine pure_answer h ▸ .listFront hanswer hkeep hcopy fun hrest ↦ ?_
        rw [hrest, List.length_nil] at hlen
        rw [List.length_cons, ← hlen] at hlong
        exact absurd hlong (by decide)
      · rename_i hshort
        rw [List.length_cons, ← hlen] at hshort
        obtain rfl : rest = [] := List.eq_nil_of_length_eq_zero (by omega)
        exact pure_answer h ▸ .listSingle hanswer hkeep

theorem Validate.op_answers {gen : GeneratorPtr}
    (h : Validate.op ask gen ctx draws = .ok (a, draws')) : Answers (.validate gen) ctx a := by
  obtain ⟨b, d₁, hb, h⟩ := Eval.bind_eq_ok.mp h
  have hoffer : (!b.gen2.isNull ∧ b.op.type ≠ .kNil) ↔ b.Offer := by
    rw [Answer.offer_iff, and_comm]
    simp
  split at h
  · rename_i ho
    exact pure_answer h ▸ .validate (hask _ _ _ _ _ hb) (hoffer.mp ho)
  · rename_i ho
    exact pure_answer h ▸ .validateLast (hask _ _ _ _ _ hb) (hoffer.not.mp ho)

theorem OnThreads.op_answers {gen : GeneratorPtr} {filter : ThreadFilter}
    (h : OnThreads.op ask gen filter ctx draws = .ok (a, draws')) :
    Answers (.onThreads gen filter) ctx a := by
  obtain ⟨b, d₁, hb, h⟩ := Eval.bind_eq_ok.mp h
  split at h
  · rename_i ho
    exact pure_answer h ▸ .onThreads (hask _ _ _ _ _ hb) ho
  · rename_i ho
    exact pure_answer h ▸ .onThreadsNil (hask _ _ _ _ _ hb) ho

theorem TimeLimit.op_answers {limit cutoff : Int} {gen : GeneratorPtr}
    (h : TimeLimit.op ask limit cutoff gen ctx draws = .ok (a, draws')) :
    Answers (.timeLimit limit cutoff gen) ctx a := by
  obtain ⟨b, d₁, hb, h⟩ := Eval.bind_eq_ok.mp h
  have hanswer := hask _ _ _ _ _ hb
  split at h
  · rename_i ho
    split at h
    · rename_i hp
      exact pure_answer h ▸ .timeLimitPending hanswer ho hp
    · rename_i hp
      dsimp only at h
      split at h
      -- within the limit
      · rename_i hlt
        exact pure_answer h ▸ .timeLimit hanswer ho hp rfl hlt
      · rename_i hge
        exact pure_answer h ▸ .timeLimitOver hanswer ho hp rfl (not_lt.mp hge)
  · rename_i ho
    exact pure_answer h ▸ .timeLimitNil hanswer ho

theorem Stagger.op_answers {dt next_time : Int} {gen : GeneratorPtr}
    (h : Stagger.op ask dt next_time gen ctx draws = .ok (a, draws')) :
    Answers (.stagger dt next_time gen) ctx a := by
  obtain ⟨b, d₁, hb, h⟩ := Eval.bind_eq_ok.mp h
  have hanswer := hask _ _ _ _ _ hb
  split at h
  · rename_i ho
    split at h
    · rename_i hp
      exact pure_answer h ▸ .staggerPending hanswer ho hp rfl
    · rename_i hp
      obtain ⟨r, d₂, -, h⟩ := Eval.bind_eq_ok.mp h
      split at h
      -- `dt` is the divisor of the draw
      · exact absurd h (by simp)
      · rename_i hdt
        exact pure_answer h ▸ .stagger hanswer ho hp rfl hdt
  · rename_i ho
    exact pure_answer h ▸ .staggerNil hanswer ho

theorem Mix.op_answers {idx : Nat} {gens : List GeneratorPtr}
    (h : Mix.op ask idx gens ctx draws = .ok (a, draws')) : Answers (.mix idx gens) ctx a := by
  unfold Mix.op at h
  split at h
  · rename_i hempty
    obtain rfl := List.isEmpty_iff.mp hempty
    exact pure_answer h ▸ .mixEmpty
  · cases hgen : gens[idx]? with
    | none => simp [hgen] at h
    | some gen =>
      simp only [hgen] at h
      obtain ⟨b, d₁, hb, h⟩ := Eval.bind_eq_ok.mp h
      have hanswer := hask _ _ _ _ _ hb
      split at h
      · rename_i ho
        obtain ⟨copy, hcopy, h⟩ := Eval.lift_bind_eq_ok.mp h
        obtain ⟨next, d₃, hnext, h⟩ := Eval.bind_eq_ok.mp h
        obtain ⟨idx', -, rfl⟩ := mix_ok hnext
        exact pure_answer h ▸ .mix hgen hanswer ho hcopy
      · rename_i ho
        obtain ⟨copy, hcopy, h⟩ := Eval.lift_bind_eq_ok.mp h
        obtain ⟨next, d₃, hnext, h⟩ := Eval.bind_eq_ok.mp h
        obtain ⟨idx', -, rfl⟩ := mix_ok hnext
        obtain ⟨c, d₄, hc, h⟩ := Eval.bind_eq_ok.mp h
        exact pure_answer h ▸ .mixDrop hgen hanswer ho hcopy (hask _ _ _ _ _ hc)

theorem Any.op_answers {gens : List GeneratorPtr}
    (h : Any.op ask gens ctx draws = .ok (a, draws')) : Answers (.any gens) ctx a := by
  obtain ⟨⟨loop, answers⟩, d₁, hp, h⟩ := Eval.bind_eq_ok.mp h
  obtain ⟨⟨hlen, has⟩, htracks⟩ := Any.tracks_init.poll
    (R := fun g a ↦ Answers g ctx a) (fun g d a d' hg ↦ hask g ctx d a d' hg) hp
  -- The loop tracks the soonest offer of the answers so far, from none at the start.
  rw [List.nil_append] at htracks
  dsimp only at h
  rcases htracks with ⟨-, hgen, hnone⟩ | ⟨i, b, hbest, hop, hgen, hidx, -⟩
  · rw [if_neg (by simp [notNil, hgen, GeneratorPtr.isNull])] at h
    exact pure_answer h ▸ .anyNil hlen has hnone
  · rw [if_pos (by rw [hop, hgen]; exact hbest.offer)] at h
    obtain ⟨copy, hcopy, h⟩ := Eval.lift_bind_eq_ok.mp h
    rw [hop, hgen, hidx] at h
    exact pure_answer h ▸ .any hlen has hbest hcopy

end

theorem op_nullptr {n : Nat} {ctx : Context} {draws draws' : Draws} {a : Answer}
    (h : op n .nullptr ctx draws = .ok (a, draws')) : a = nil .nullptr := by
  cases n with
  | zero => exact absurd h (by simp [op])
  | succ n => exact (pure_answer h).symm

/-- Every answer of `generator::op` is derived by the rules of `Answers`. -/
theorem op_answers (n : Nat) : Meets (op n) Answers := by
  -- By induction on the fuel: a call asks its members with one unit less.
  induction n with
  | zero =>
    intro g ctx draws a draws' h
    exact absurd h (by simp [op])
  | succ n ih =>
    intro g ctx draws a draws' h
    cases g with
    | nullptr => exact op_nullptr h ▸ .nullptr
    | operation o => exact OperationGenerator.op_answers h
    | function f => exact FunctionGenerator.op_answers ih h
    | list gens => exact ListGenerator.op_answers ih (fun _ _ _ _ ↦ op_nullptr) h
    | validate gen => exact Validate.op_answers ih h
    | onThreads gen filter => exact OnThreads.op_answers ih h
    | timeLimit limit cutoff gen => exact TimeLimit.op_answers ih h
    | stagger dt next_time gen => exact Stagger.op_answers ih h
    | mix idx gens => exact Mix.op_answers ih h
    | any gens => exact Any.op_answers ih h
    | user leaf calls => exact UserLeaf.op_answers h

/-- A call leaves its receiver with some fields assigned. -/
theorem Answers.rebuilt {g : GeneratorPtr} {ctx : Context} {a : Answer} (ha : Answers g ctx a) :
    Rebuilt true false g a.self := by
  induction ha with
  -- The rest was copied and asked, and what it became is written back into its members.
  | listPop _ _ _ hcopy _ ih₁ ih₂ =>
    have hrest := (GeneratorPtr.copyOrNull_rebuilt true hcopy).tail
    have hshared := GeneratorPtr.pointwise_rebuilt_trans hrest ih₂.members
    exact .ofList (.cons ih₁ (GeneratorPtr.writeBackEach_rebuilt hshared))
  | listFront _ _ _ _ ih => exact .ofList (.cons ih (.refl .refl _))
  | listSingle _ _ ih => exact .ofList (.cons ih .nil)
  | validate _ _ ih | validateLast _ _ ih => exact .validate ih
  | onThreads _ _ ih | onThreadsNil _ _ ih => exact .onThreads ih
  | timeLimitPending _ _ _ ih | timeLimitNil _ _ ih => exact .timeLimit ih
  | timeLimit _ _ _ _ _ ih | timeLimitOver _ _ _ _ _ ih => exact .timeLimit ih
  | staggerPending _ _ _ _ ih => exact .stagger ih
  | stagger _ _ _ _ _ ih => exact .stagger ih
  | staggerNil _ _ ih => exact .stagger ih
  | mix hgen _ _ _ ih => exact .ofMix (.set .refl hgen ih)
  | mixDrop hgen _ _ hcopy _ ih₁ ih₂ =>
    have hshared := GeneratorPtr.pointwise_rebuilt_trans (GeneratorPtr.copyEach_rebuilt true hcopy)
      ih₂.mixMembers
    exact .ofMix (.insertIdx hgen ih₁ (GeneratorPtr.writeBackEach_rebuilt hshared))
  | any hlen _ _ _ ih => exact .ofAny (Pointwise.map_right.mpr ⟨hlen, ih⟩)
  | anyNil hlen _ _ ih => exact .ofAny (Pointwise.map_right.mpr ⟨hlen, ih⟩)
  | userNil => exact .user
  | user => exact .user
  | _ => exact .refl _

end Jepsen
