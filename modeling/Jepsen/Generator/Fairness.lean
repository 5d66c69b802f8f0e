import Jepsen.Generator.Select
import Jepsen.Library.Reservoir

/-!
# How `Any` breaks ties

The loop of `Any::op` is written here once more for any monad with draws: with the draws of the code
it is the code's loop, and with independent uniform draws a distribution.  The real offers of the
members are a pass of `Library.Reservoir`, whose keys are the times, so that all soonest offers have
the same chance.
-/

namespace Jepsen

open Library Library.Reservoir

section Program

variable {m : Type → Type} [Monad m]

/-- `soonestOpMap` with its `rand() % w` drawn by `draw w`. -/
def soonestOpMapWith (draw : Nat → m Nat) (m₁ m₂ : Soonest) : m Soonest :=
  if m₁.op.type = .kNil ∨ m₁.op.type = .kPending then
    return m₂
  else if m₂.op.type = .kNil ∨ m₂.op.type = .kPending then
    return m₁
  else if m₁.op.time = m₂.op.time then do
    let w := m₁.weight + m₂.weight
    let t ← draw w
    return if t < m₁.weight then { m₁ with weight := w } else { m₂ with weight := w }
  else
    return if m₁.op.time < m₂.op.time then m₁ else m₂

/-- `Any.consider` with the draws of `draw`. -/
def Any.considerWith (draw : Nat → m Nat) (loop : Any.Loop) (i : Nat) (a : Answer) :
    m Any.Loop :=
  if notNil a.op a.gen2 then do
    let cur ← soonestOpMapWith draw loop.cur ⟨a.op, 1, i⟩
    return if cur.idx = i then ⟨cur, a.gen2, a.op, i⟩ else { loop with cur := cur }
  else
    return loop

/-- `Any.poll` with the draws of `draw`. -/
def Any.pollWith (draw : Nat → m Nat) (ask : GeneratorPtr → Context → m Answer) (ctx : Context) :
    Nat → List GeneratorPtr → Any.Loop → m (Any.Loop × List Answer)
  | _, [], loop => return (loop, [])
  | i, gen :: gens, loop => do
    let a ← ask gen ctx
    let loop ← Any.considerWith draw loop i a
    let (loop, answers) ← Any.pollWith draw ask ctx (i + 1) gens loop
    return (loop, a :: answers)

/-- The loop over answers that are known, from member `i` on. -/
def Any.select (draw : Nat → m Nat) : Nat → List Answer → Any.Loop → m Any.Loop
  | _, [], loop => return loop
  | i, a :: answers, loop => do
    let loop ← Any.considerWith draw loop i a
    Any.select draw (i + 1) answers loop

end Program

/-- `rand() % w` -/
def randMod (w : Nat) : Gen Nat := do
  let r ← rand
  if w = 0 then
    throw .divisionByZero
  else
    return r % w

theorem soonestOpMap_eq (m₁ m₂ : Soonest) :
    soonestOpMap m₁ m₂ = soonestOpMapWith randMod m₁ m₂ := by
  unfold soonestOpMap soonestOpMapWith randMod
  split
  · rfl
  · split
    · rfl
    · split
      · rw [bind_assoc]
        refine bind_congr fun r ↦ ?_
        by_cases hw : m₁.weight + m₂.weight = 0
        · rw [if_pos hw, if_pos hw]
          rfl
        · rw [if_neg hw, if_neg hw, pure_bind]
          split <;> rfl
      · rfl

/-- The code's loop is the loop with the code's draws. -/
theorem consider_eq (loop : Any.Loop) (i : Nat) (a : Answer) :
    Any.consider loop i a = Any.considerWith randMod loop i a := by
  unfold Any.consider Any.considerWith
  rw [soonestOpMap_eq]
  split
  · refine bind_congr fun cur ↦ ?_
    split <;> rfl
  · rfl

theorem poll_eq (ask : Ask) (ctx : Context) (i : Nat) (gens : List GeneratorPtr)
    (loop : Any.Loop) :
    Any.poll ask ctx i gens loop = Any.pollWith randMod ask ctx i gens loop := by
  induction gens generalizing i loop with
  | nil => rfl
  | cons gen gens ih =>
    unfold Any.poll Any.pollWith
    refine bind_congr fun a ↦ ?_
    rw [consider_eq]
    exact bind_congr fun loop ↦ by rw [ih]

/-- The answers of the members, one after the other. -/
noncomputable def polled (ask : GeneratorPtr → Context → PMF Answer) (ctx : Context) :
    List GeneratorPtr → PMF (List Answer)
  | [] => pure []
  | gen :: gens => do
    let a ← ask gen ctx
    let answers ← polled ask ctx gens
    return a :: answers

/-- Independent draws may be made after all members have answered. -/
theorem pollWith_eq (draw : Nat → PMF Nat) (ask : GeneratorPtr → Context → PMF Answer)
    (ctx : Context) (i : Nat) (gens : List GeneratorPtr) (loop : Any.Loop) :
    Any.pollWith draw ask ctx i gens loop = do
      let answers ← polled ask ctx gens
      let loop ← Any.select draw i answers loop
      return (loop, answers) := by
  induction gens generalizing i loop with
  | nil => simp [Any.pollWith, polled, Any.select]
  | cons gen gens ih =>
    simp only [Any.pollWith, polled, Any.select, bind_assoc, pure_bind, ih]
    refine bind_congr fun a ↦ ?_
    exact PMF.bind_comm _ _ _

/-! ## The pass over the real offers -/

/-- The member whose real operation is the result of the loop. -/
def Any.Loop.selected (loop : Any.Loop) : Option Int :=
  if loop.res_op.Real then some loop.res_idx else none

/-- The real operation that is the result so far, by its time. -/
def Any.Loop.held (loop : Any.Loop) : Option (Held Int Int) :=
  if loop.res_op.Real then some ⟨loop.cur.op.time, loop.cur.weight, loop.res_idx⟩ else none

/-- A real offer. -/
def Answer.RealOffer (a : Answer) : Prop := a.Offer ∧ a.op.type ≠ .kPending

instance (a : Answer) : Decidable a.RealOffer := inferInstanceAs (Decidable (_ ∧ _))

theorem Answer.RealOffer.real {a : Answer} (h : a.RealOffer) : a.op.Real :=
  ⟨(Answer.offer_iff.mp h.1).1, h.2⟩

/-- The answers of the members from `i` on as a pass of the library sees them. -/
def realOffers : Nat → List Answer → List (Option (Int × Int))
  | _, [] => []
  | i, a :: answers =>
    (if a.RealOffer then some (a.op.time, (i : Int)) else none) :: realOffers (i + 1) answers

/-- The tuple that the loop folds and the result it tracks agree, before member `i`. -/
structure Any.Loop.Aligned (i : Nat) (loop : Any.Loop) : Prop where
  op : loop.res_op = loop.cur.op
  idx : loop.res_idx = loop.cur.idx
  lt : loop.cur.idx < i

theorem Any.Loop.Aligned.mono {i j : Nat} {loop : Any.Loop} (h : loop.Aligned i) (hij : i ≤ j) :
    loop.Aligned j :=
  ⟨h.op, h.idx, by have := h.lt; omega⟩

section Pass

variable {m : Type → Type} [Monad m] [LawfulMonad m] (draw : Nat → m Nat) {β : Type}
variable {loop : Any.Loop} {i : Nat}

-- The continuation `f` sees of the loop only what is held.
theorem considerWith_skip (h : loop.Aligned i) {a : Answer} (ha : ¬ a.RealOffer)
    (f : Any.Loop → m β) (g : Option (Held Int Int) → m β)
    (hfg : ∀ l, l.Aligned (i + 1) → f l = g l.held) :
    (Any.considerWith draw loop i a >>= f) = g loop.held := by
  unfold Any.considerWith
  split
  · rename_i hoff
    have hp : a.op.type = .kPending := by
      by_contra hp
      exact ha ⟨hoff, hp⟩
    unfold soonestOpMapWith
    by_cases hcur : loop.cur.op.type = .kNil ∨ loop.cur.op.type = .kPending
    · have hnone : loop.held = none := if_neg (by rw [h.op, Operation.Real]; tauto)
      rw [if_pos hcur, pure_bind, if_pos rfl, pure_bind, hfg _ ⟨rfl, rfl, by simp⟩, hnone]
      exact congrArg g (if_neg fun hr ↦ hr.2 hp)
    · have hidx : loop.cur.idx ≠ i := by have := h.lt; omega
      rw [if_neg hcur, if_pos (.inr hp), pure_bind, if_neg hidx, pure_bind]
      exact hfg _ (h.mono (Nat.le_succ i))
  · rw [pure_bind]
    exact hfg _ (h.mono (Nat.le_succ i))

theorem considerWith_offer (h : loop.Aligned i) {a : Answer} (ha : a.RealOffer)
    (f : Any.Loop → m β) (g : Option (Held Int Int) → m β)
    (hfg : ∀ l, l.Aligned (i + 1) → f l = g l.held) :
    (Any.considerWith draw loop i a >>= f) = offer draw a.op.time (i : Int) loop.held >>= g := by
  have hidx : loop.cur.idx ≠ i := by have := h.lt; omega
  -- What the loop holds after it has taken the answer, and after it has kept its own.
  have htaken (w : Nat) : f ⟨⟨a.op, w, i⟩, a.gen2, a.op, i⟩ = g (some ⟨a.op.time, w, i⟩) := by
    rw [hfg _ ⟨rfl, rfl, by simp⟩]
    exact congrArg g (if_pos ha.real)
  have hoff : notNil a.op a.gen2 = true := ha.1
  rw [Any.considerWith, if_pos hoff, bind_assoc]
  unfold soonestOpMapWith
  by_cases hcur : loop.cur.op.type = .kNil ∨ loop.cur.op.type = .kPending
  · have hnone : loop.held = none := if_neg (by rw [h.op, Operation.Real]; tauto)
    rw [if_pos hcur, pure_bind, if_pos rfl, pure_bind, hnone, offer, pure_bind]
    exact htaken 1
  · have hreal : loop.res_op.Real := by rw [h.op, Operation.Real]; tauto
    have hkept (w : Nat) : f { loop with cur := { loop.cur with weight := w } } =
        g (some ⟨loop.cur.op.time, w, loop.res_idx⟩) := by
      refine (hfg { loop with cur := { loop.cur with weight := w } }
        ⟨h.op, h.idx, (h.mono (Nat.le_succ i)).lt⟩).trans ?_
      exact congrArg g (if_pos hreal)
    have hsome : loop.held = some ⟨loop.cur.op.time, loop.cur.weight, loop.res_idx⟩ :=
      if_pos hreal
    have hnot : ¬ (a.op.type = .kNil ∨ a.op.type = .kPending) := by
      have := ha.real
      rw [Operation.Real] at this
      tauto
    rw [if_neg hcur, if_neg hnot, hsome, offer]
    -- The three cases of the sampler: the same time, an earlier one held, a later one held.
    by_cases htie : loop.cur.op.time = a.op.time
    · rw [if_pos htie, if_pos htie, bind_assoc, bind_assoc]
      refine bind_congr fun t ↦ ?_
      by_cases ht : t < loop.cur.weight
      · rw [if_pos ht, if_pos ht, pure_bind, pure_bind, if_neg hidx, pure_bind, hkept, htie]
      · rw [if_neg ht, if_neg ht, pure_bind, pure_bind, if_pos rfl, pure_bind]
        exact htaken _
    · rw [if_neg htie, if_neg htie]
      by_cases hlt : loop.cur.op.time < a.op.time
      · rw [if_pos hlt, if_pos hlt, pure_bind, pure_bind, if_neg hidx, pure_bind]
        exact hkept loop.cur.weight
      · rw [if_neg hlt, if_neg hlt, pure_bind, pure_bind, if_pos rfl, pure_bind]
        exact htaken 1

/-- What the loop holds is what a pass over the real offers keeps. -/
theorem select_held (answers : List Answer) (h : loop.Aligned i) (f : Any.Loop → m β)
    (g : Option (Held Int Int) → m β) (hfg : ∀ l j, l.Aligned j → f l = g l.held) :
    (Any.select draw i answers loop >>= f) =
      sample draw (realOffers i answers) loop.held >>= g := by
  induction answers generalizing i loop with
  | nil => simpa [Any.select, realOffers, sample] using hfg loop i h
  | cons a answers ih =>
    rw [Any.select, bind_assoc, realOffers]
    by_cases ha : a.RealOffer
    · rw [if_pos ha, sample, bind_assoc]
      exact considerWith_offer draw h ha _ _ fun l hl ↦ ih hl
    · rw [if_neg ha, sample]
      exact considerWith_skip draw h ha _ (fun held ↦ sample draw _ held >>= g) fun l hl ↦ ih hl

end Pass

/-! ## The chance of a member -/

/-- The members whose real offers have the time `time`. -/
def tied (time : Int) (answers : List Answer) : Nat :=
  answers.countP fun a ↦ a.RealOffer ∧ a.op.time = time

theorem countKey_realOffers (time : Int) (i : Nat) (answers : List Answer) :
    countKey time (realOffers i answers) = tied time answers := by
  induction answers generalizing i with
  | nil => rfl
  | cons a answers ih =>
    have htail : countKey time (realOffers (i + 1) answers) = tied time answers := ih (i + 1)
    unfold countKey tied at htail
    unfold countKey tied realOffers
    rw [List.countP_cons, List.countP_cons, htail]
    by_cases ha : a.RealOffer
    · simp [ha]
    · simp [ha]

theorem count_realOffers_of_lt {i j : Nat} (h : j < i) (time : Int) (answers : List Answer) :
    (realOffers i answers).count (some (time, (j : Int))) = 0 := by
  induction answers generalizing i with
  | nil => rfl
  | cons a answers ih =>
    rw [realOffers, List.count_cons_of_ne, ih (Nat.lt_succ_of_lt h)]
    split
    · simp only [ne_eq, Option.some.injEq, Prod.mk.injEq]
      omega
    · simp

-- Each member makes one offer under its own number.
theorem count_realOffers {answers : List Answer} {j : Nat} {a : Answer} (h : answers[j]? = some a)
    (ha : a.RealOffer) (i : Nat) :
    (realOffers i answers).count (some (a.op.time, ((i + j : Nat) : Int))) = 1 := by
  induction answers generalizing i j with
  | nil => simp at h
  | cons b answers ih =>
    rw [realOffers]
    cases j with
    | zero =>
      obtain rfl : b = a := by simpa using h
      rw [if_pos ha, Nat.add_zero, List.count_cons_self,
        count_realOffers_of_lt (Nat.lt_succ_self i)]
    | succ j =>
      -- the entries carry their positions, which start at `i`
      have hidx : i + (j + 1) = i + 1 + j := by omega
      rw [hidx, List.count_cons_of_ne, ih (by simpa using h)]
      split
      · simp only [ne_eq, Option.some.injEq, Prod.mk.injEq]
        omega
      · simp

theorem mem_realOffers {p : Int × Int} {i : Nat} {answers : List Answer}
    (h : some p ∈ realOffers i answers) : ∃ b ∈ answers, b.RealOffer ∧ p.1 = b.op.time := by
  induction answers generalizing i with
  | nil => simp [realOffers] at h
  | cons a answers ih =>
    rw [realOffers] at h
    rcases List.mem_cons.mp h with h | h
    · by_cases ha : a.RealOffer
      · rw [if_pos ha, Option.some.injEq] at h
        exact ⟨a, by simp, ha, by rw [h]⟩
      · simp [ha] at h
    · obtain ⟨b, hb, hreal, htime⟩ := ih h
      exact ⟨b, List.mem_cons_of_mem _ hb, hreal, htime⟩

theorem map_selected (answers : List Answer) :
    (Any.select uniform 0 answers {}).map Any.Loop.selected =
      final (realOffers 0 answers) none := by
  refine select_held uniform answers (i := 0) ⟨rfl, rfl, by decide⟩ _ _ fun l j _ ↦ ?_
  simp only [Function.comp, Any.Loop.selected, Any.Loop.held]
  split <;> rfl

/-- `Any` breaks ties fairly.  Its loop is `pollWith` with the draws of the code; with independent
uniform draws in their place the loop polls all members and then selects among their answers; and
there each of the soonest real offers has the same chance. -/
theorem ties_broken_fairly :
    (∀ (ask : Ask) (ctx : Context) (gens : List GeneratorPtr),
      Any.poll ask ctx 0 gens {} = Any.pollWith randMod ask ctx 0 gens {}) ∧
    (∀ (ask : GeneratorPtr → Context → PMF Answer) (ctx : Context) (gens : List GeneratorPtr),
      Any.pollWith uniform ask ctx 0 gens {} = do
        let answers ← polled ask ctx gens
        let loop ← Any.select uniform 0 answers {}
        return (loop, answers)) ∧
    ∀ (answers : List Answer) (i : Nat) (a : Answer), answers[i]? = some a → a.RealOffer →
      (∀ b ∈ answers, b.RealOffer → a.op.time ≤ b.op.time) →
      (Any.select uniform 0 answers {}).map Any.Loop.selected (some (i : Int)) =
        (tied a.op.time answers : ENNReal)⁻¹ := by
  refine ⟨fun ask ctx gens ↦ poll_eq ask ctx 0 gens {},
    fun ask ctx gens ↦ pollWith_eq uniform ask ctx 0 gens {}, fun answers i a hi ha hmin ↦ ?_⟩
  have hleast : Least a.op.time (realOffers 0 answers) none := by
    refine ⟨fun p hp ↦ ?_, by simp⟩
    obtain ⟨b, hb, hreal, htime⟩ := mem_realOffers hp
    exact htime ▸ hmin b hb hreal
  -- The offer stands once among the entries, so that its share is one of all that tie.
  have hone := count_realOffers hi ha 0
  have hshares := sample_uniform a.op.time (i : Int) _ _ hleast
  rw [Nat.zero_add] at hone
  rw [Shares, countKey_realOffers, hone] at hshares
  rw [map_selected]
  exact ENNReal.eq_inv_of_mul_eq_one_left (by simpa [heldWeight, heldShare] using hshares)

/-- A member that offers to read at the time `time`, and then to read once more. -/
def readAt (time : Int) : Answer :=
  ⟨{ OperationFactory.read .null with time := time, process := 0 },
    .list [.operation (OperationFactory.read .null)], .nullptr⟩

/-- Two of four members tie behind a later pair. -/
theorem ties_broken_fairly_reads :
    (Any.select uniform 0 [readAt 9, readAt 9, readAt 5, readAt 5] {}).map Any.Loop.selected
      (some 2) = 2⁻¹ := by
  have h := ties_broken_fairly.2.2 [readAt 9, readAt 9, readAt 5, readAt 5] 2 (readAt 5) rfl
    (by decide) (by decide)
  have htied : tied 5 [readAt 9, readAt 9, readAt 5, readAt 5] = 2 := by decide
  exact h.trans (by rw [show (readAt 5).op.time = 5 from rfl, htied]; rfl)

end Jepsen
