import Jepsen.Generator.Same

/-!
# What can be observed of a generator

An observer asks a generator, in a context and with random draws of its choice, and goes on with
the successor in the answer or with the asked generator as the call left it.  Trees that `Same`
relates cannot be told apart in this way.
-/

namespace Jepsen

open Library
open GeneratorPtr (copyOne copyEach copyOrNull members writeBackEach Rebuilt)

/-- Answers that cannot be told apart. -/
structure SameAnswer (a b : Answer) : Prop where
  op : a.op = b.op
  null : a.gen2 = .nullptr ↔ b.gen2 = .nullptr
  gen2 : Same a.gen2 b.gen2
  self : Same a.self b.self

namespace SameAnswer

theorem refl (a : Answer) : SameAnswer a a := ⟨rfl, .rfl, .refl _, .refl _⟩

theorem offer_iff {a b : Answer} (h : SameAnswer a b) : a.Offer ↔ b.Offer := by
  rw [Answer.offer_iff, Answer.offer_iff, h.op]
  exact and_congr_right fun _ ↦ not_congr h.null

theorem nil {g g' : GeneratorPtr} (h : Same g g') : SameAnswer (nil g) (nil g') :=
  ⟨rfl, .rfl, .refl _, h⟩

theorem notNil_eq {a b : Answer} (h : SameAnswer a b) :
    notNil a.op a.gen2 = notNil b.op b.gen2 :=
  Bool.eq_iff_iff.mpr h.offer_iff

theorem isNull_eq {a b : Answer} (h : SameAnswer a b) : a.gen2.isNull = b.gen2.isNull := by
  rw [Bool.eq_iff_iff, GeneratorPtr.isNull_iff, GeneratorPtr.isNull_iff]
  exact h.null

end SameAnswer

/-- What has nothing to offer answers nil at once, or runs out of fuel. -/
theorem op_idle {g : GeneratorPtr} (h : g.lasting = false) (n : Nat) (ctx : Context)
    (draws : Draws) :
    op n g ctx draws = .error .outOfFuel ∨ op n g ctx draws = .ok (nil g, draws) := by
  have happrox := op_refines (Nat.le_add_right n g.fuel) g ctx draws
  rw [op_of_not_lasting h (Nat.le_add_left _ _)] at happrox
  exact happrox

section

variable {ask ask' : Ask} {ctx : Context}

/-- `ask` answers `g` as `ask'` answers `g'`, unless it runs out of fuel. -/
abbrev AskedAlike (ask ask' : Ask) (ctx : Context) (g g' : GeneratorPtr) : Prop :=
  Eval.Sim .outOfFuel SameAnswer (ask g ctx) (ask' g' ctx)

/-! ## Wrappers -/

-- Each method asks the inner generator once, and goes on with what `SameAnswer` keeps of it.
theorem Validate.op_sim {g g' : GeneratorPtr} (h : AskedAlike ask ask' ctx g g') :
    Eval.Sim .outOfFuel SameAnswer (Validate.op ask g ctx) (Validate.op ask' g' ctx) := by
  refine h.bind fun a b hab ↦ ?_
  rw [hab.isNull_eq, hab.op]
  split
  · exact .pure ⟨rfl, by simp [GeneratorFactory.createValidate], .validate hab.gen2,
      .validate hab.self⟩
  · exact .pure ⟨rfl, hab.null, hab.gen2, .validate hab.self⟩

theorem OnThreads.op_sim {g g' : GeneratorPtr} {filter : ThreadFilter}
    (h : AskedAlike ask ask' (onThreadsContext filter ctx) g g') :
    Eval.Sim .outOfFuel SameAnswer (OnThreads.op ask g filter ctx)
      (OnThreads.op ask' g' filter ctx) := by
  refine h.bind fun a b hab ↦ ?_
  rw [hab.notNil_eq]
  split
  · exact .pure ⟨hab.op, by simp [GeneratorFactory.createOnThreads], .onThreads hab.gen2,
      .onThreads hab.self⟩
  · exact .pure (.nil (.onThreads hab.self))

theorem TimeLimit.op_sim {limit cutoff : Int} {g g' : GeneratorPtr}
    (h : AskedAlike ask ask' ctx g g') :
    Eval.Sim .outOfFuel SameAnswer (TimeLimit.op ask limit cutoff g ctx)
      (TimeLimit.op ask' limit cutoff g' ctx) := by
  refine h.bind fun a b hab ↦ ?_
  rw [hab.notNil_eq, hab.op]
  split
  · split
    · exact .pure ⟨rfl, by simp, .timeLimit hab.gen2, .timeLimit hab.self⟩
    · dsimp only
      split
      · exact .pure ⟨rfl, by simp, .timeLimit hab.gen2, .timeLimit hab.self⟩
      · exact .pure (.nil (.timeLimit hab.self))
  · exact .pure (.nil (.timeLimit hab.self))

theorem Stagger.op_sim {dt next_time : Int} {g g' : GeneratorPtr}
    (h : AskedAlike ask ask' ctx g g') :
    Eval.Sim .outOfFuel SameAnswer (Stagger.op ask dt next_time g ctx)
      (Stagger.op ask' dt next_time g' ctx) := by
  refine h.bind fun a b hab ↦ ?_
  rw [hab.notNil_eq, hab.op]
  split
  · dsimp only
    split
    -- a pending answer keeps the receiver's generator, and no number is drawn
    · exact .pure ⟨rfl, by simp, .stagger hab.self, .stagger hab.self⟩
    · refine (Eval.Sim.of_approx (fun _ ↦ rfl) (.refl rand)).bind fun r r' hr ↦ ?_
      obtain rfl : r = r' := hr
      split
      · exact .throw _
      · exact .pure ⟨rfl, by simp [GeneratorFactory.createStaggerAt], .stagger hab.gen2,
          .stagger hab.self⟩
  · exact .pure (.nil (.stagger hab.self))

/-! ## Lists -/

theorem ListGenerator.op_sim (ha : Meets ask Answers) (ha' : Meets ask' Answers)
    {first first' : GeneratorPtr} {rest rest' : List GeneratorPtr}
    (hfirst : AskedAlike ask ask' ctx first first') (hrest : Pointwise Same rest rest')
    (hcopies : ∀ copy copy', Pointwise (Rebuilt true true) rest copy →
      Pointwise (Rebuilt true true) rest' copy' → Pointwise Same copy copy' →
      AskedAlike ask ask' ctx (.list copy) (.list copy')) :
    Eval.Sim .outOfFuel SameAnswer (ListGenerator.op ask (first :: rest) ctx)
      (ListGenerator.op ask' (first' :: rest') ctx) := by
  refine hfirst.bind fun a b hab ↦ ?_
  have hself : Pointwise Same (a.self :: rest) (b.self :: rest') := .cons hab.self hrest
  have hcopy : Agree (Pointwise Same) (copyOrNull (a.self :: rest))
      (copyOrNull (b.self :: rest')) :=
    Same.copyOrNull (hself.mono fun _ _ _ h ↦ ⟨h, h.copyOne⟩)
  -- the copies are still rebuilt from the lists, which `writeBack` needs
  have hmore := hcopy.mono (S := fun copy copy' ↦ Pointwise Same copy copy' ∧
    Pointwise (Rebuilt true true) (a.self :: rest) copy ∧
      Pointwise (Rebuilt true true) (b.self :: rest') copy')
    fun _ _ hc hc' h ↦ ⟨h, GeneratorPtr.copyOrNull_rebuilt true hc,
      GeneratorPtr.copyOrNull_rebuilt true hc'⟩
  refine (Eval.Sim.lift hmore).bind fun copy copy' hcc ↦ ?_
  obtain ⟨hcopies₁, hr, hr'⟩ := hcc
  obtain ⟨c, copy, -, hrc, rfl⟩ := hr.uncons
  obtain ⟨c', copy', -, hrc', rfl⟩ := hr'.uncons
  obtain ⟨_, _, hcc, hcs, heq⟩ := hcopies₁.uncons
  obtain ⟨rfl, rfl⟩ := List.cons.inj heq
  rw [hab.isNull_eq, hab.op]
  split
  -- the first member is done, and the rest is asked
  · refine ((hcopies copy copy' hrc hrc' hcs).mono fun s x y s' hx hy hxy ↦
      (⟨hxy, ha _ ctx s x s' hx, ha' _ ctx s y s' hy⟩ :
        SameAnswer x y ∧ Answers (.list copy) ctx x ∧ Answers (.list copy') ctx y)).bind
      fun x y hxy ↦ .pure ⟨hxy.1.op, hxy.1.null, hxy.1.gen2, ?_⟩
    obtain ⟨hxy, hx, hy⟩ := hxy
    have hback : Same (.list (writeBackEach rest x.self.members))
        (.list (writeBackEach rest' y.self.members)) :=
      (Same.ofList hrest).writeBack hxy.self ((Rebuilt.ofList hrc).trans hx.rebuilt.weaken)
        ((Rebuilt.ofList hrc').trans hy.rebuilt.weaken)
    exact .ofList (.cons hab.self hback.pointwise_of_list)
  · have hlen : copy.length = copy'.length := hcs.1
    simp only [List.length_cons, hlen, List.tail_cons]
    split
    · exact .pure ⟨rfl, by simp, .ofList (.cons hab.gen2 hcs), .ofList hself⟩
    · exact .pure ⟨rfl, hab.null, hab.gen2, .ofList hself⟩

/-! ## `Mix` -/

theorem mix_sim {gs gs' : List GeneratorPtr} (h : Pointwise Alike gs gs') :
    Eval.Sim .outOfFuel (fun m m' ↦ ∃ i, m = .mix i gs ∧ m' = .mix i gs') (mix gs) (mix gs') := by
  refine (Eval.Sim.of_approx (fun _ ↦ rfl) (.refl rand)).bind fun r r' hr ↦ ?_
  obtain rfl : r = r' := hr
  rw [h.1]
  split
  · exact .throw _
  · exact .pure ⟨_, rfl, rfl⟩

-- What an answer that was not discarded says about solidity, for the members of a `Mix`.
theorem SameAnswer.alike {g g' : GeneratorPtr} {a b : Answer} (hab : SameAnswer a b)
    (h : Alike g g') (ha : Answers g ctx a) (hb : Answers g' ctx b) :
    Alike a.self b.self ∧ (a.Offer → Alike a.gen2 b.gen2) :=
  ⟨⟨hab.self, ha.rebuilt.solid_of_polled rfl h.2.1, hb.rebuilt.solid_of_polled rfl h.2.2⟩,
    fun hoff ↦ ⟨hab.gen2, (ha.solid hoff).2, (hb.solid (hab.offer_iff.mp hoff)).2⟩⟩

/-- The members that a `Mix` has not asked, after a call on the `Mix` of their copies. -/
theorem writeBackEach_mix {i : Nat} {gs gs' cs cs' : List GeneratorPtr} {a b : Answer}
    (h : Pointwise Alike gs gs') (hr : Pointwise (Rebuilt true true) gs cs)
    (hr' : Pointwise (Rebuilt true true) gs' cs') (hab : SameAnswer a b)
    (ha : Answers (.mix i cs) ctx a) (hb : Answers (.mix i cs') ctx b) :
    Pointwise Alike (writeBackEach gs (members a.self)) (writeBackEach gs' (members b.self)) := by
  have hself : ∃ ms, a.self = .mix i ms := by
    have hrebuilt := ha.rebuilt
    generalize a.self = self at hrebuilt ⊢
    cases hrebuilt with
    | refl => exact ⟨cs, rfl⟩
    | mix => exact ⟨_, rfl⟩
  have hms : Pointwise (Rebuilt true true) cs (members a.self) :=
    ha.rebuilt.mixMembers.mono fun _ _ _ h ↦ h.weaken
  have hms' : Pointwise (Rebuilt true true) cs' (members b.self) :=
    hb.rebuilt.mixMembers.mono fun _ _ _ h ↦ h.weaken
  obtain ⟨ms, hself⟩ := hself
  obtain ⟨ms', hself', hms₀⟩ := (hself ▸ hab.self).mix_inv
  rw [hself] at hms ⊢
  rw [hself'] at hms' ⊢
  refine Same.writeBackEach_alike h ?_ (GeneratorPtr.pointwise_rebuilt_trans hr hms)
    (GeneratorPtr.pointwise_rebuilt_trans hr' hms')
  rcases hms₀ with rfl | hms₀
  · exact .refl .refl ms
  · exact hms₀.mono fun _ _ _ h ↦ h.1

theorem Mix.op_sim (ha : Meets ask Answers) (ha' : Meets ask' Answers) {idx : Nat}
    {gs gs' : List GeneratorPtr} (h : Pointwise Alike gs gs')
    (hmember : ∀ i (hi : i < gs.length) (hi' : i < gs'.length),
      AskedAlike ask ask' ctx gs[i] gs'[i])
    (hothers : ∀ i copy copy', idx < gs'.length →
      Pointwise (Rebuilt true true) (gs'.eraseIdx idx) copy' →
      Pointwise Alike copy copy' → AskedAlike ask ask' ctx (.mix i copy) (.mix i copy')) :
    Eval.Sim .outOfFuel SameAnswer (Mix.op ask idx gs ctx) (Mix.op ask' idx gs' ctx) := by
  -- members that are alike have copies that are alike
  have hcopies {gs gs' : List GeneratorPtr} (h : Pointwise Alike gs gs') :
      Agree (fun cs cs' ↦ Pointwise Alike cs cs' ∧ Pointwise (Rebuilt true true) gs cs ∧
        Pointwise (Rebuilt true true) gs' cs') (copyEach gs) (copyEach gs') := by
    have hcopy := Same.copyAlike (h.mono fun g _ g' hgg' ↦
      ⟨hgg'.1.copyOne (GeneratorPtr.ne_nullptr_of_solid hgg'.2.1)
        (GeneratorPtr.ne_nullptr_of_solid hgg'.2.2), hgg'.2⟩)
    exact hcopy.mono fun _ _ hc hc' hcc ↦
      ⟨hcc, GeneratorPtr.copyEach_rebuilt true hc, GeneratorPtr.copyEach_rebuilt true hc'⟩
  have hempty : gs'.isEmpty = gs.isEmpty := by
    rw [Bool.eq_iff_iff, List.isEmpty_iff_length_eq_zero, List.isEmpty_iff_length_eq_zero, h.1]
  unfold Mix.op
  rw [hempty]
  split
  · exact .pure (.nil (.ofMix h))
  · by_cases hidx : idx < gs.length
    · have hidx' : idx < gs'.length := h.1 ▸ hidx
      rw [List.getElem?_eq_getElem hidx, List.getElem?_eq_getElem hidx']
      dsimp only
      refine ((hmember idx hidx hidx').mono fun s a b s' hopa hopb hab ↦
        (⟨hab, hab.alike (h.2 idx hidx hidx') (ha _ ctx s a s' hopa) (ha' _ ctx s b s' hopb)⟩ :
          SameAnswer a b ∧ Alike a.self b.self ∧ (a.Offer → Alike a.gen2 b.gen2))).bind
        fun a b hab ↦ ?_
      obtain ⟨hab, hself, hgen2⟩ := hab
      rw [hab.notNil_eq]
      split
      · rename_i hoff
        have hset := h.set_both idx hself
        refine (Eval.Sim.lift (hcopies hset)).bind fun cs cs' hcs ↦ ?_
        have hnext := hcs.1.set_both idx (hgen2 (hab.offer_iff.mpr hoff))
        refine (mix_sim hnext).bind fun m m' hm ↦ ?_
        obtain ⟨i, rfl, rfl⟩ := hm
        exact .pure ⟨hab.op, by simp, .ofMix hnext, .ofMix hset⟩
      · have hrest := h.eraseIdx idx
        refine (Eval.Sim.lift (hcopies hrest)).bind fun cs cs' hcs ↦ ?_
        obtain ⟨hcs, hr, hr'⟩ := hcs
        refine (mix_sim hcs).bind fun m m' hm ↦ ?_
        obtain ⟨i, rfl, rfl⟩ := hm
        refine ((hothers i cs cs' hidx' hr' hcs).mono fun s x y s' hopx hopy hxy ↦
          (⟨hxy, writeBackEach_mix hrest hr hr' hxy (ha _ ctx s x s' hopx)
            (ha' _ ctx s y s' hopy)⟩ : SameAnswer x y ∧ _)).bind fun x y hxy ↦ ?_
        -- the member that was asked is put back at its place
        have hplace : idx ≤ (writeBackEach (gs.eraseIdx idx) (members x.self)).length := by
          rw [GeneratorPtr.length_writeBackEach, List.length_eraseIdx, if_pos hidx]
          omega
        exact .pure ⟨hxy.1.op, hxy.1.null, hxy.1.gen2,
          .ofMix (hxy.2.insertIdx_both hplace hself)⟩
    · have hidx' : ¬ idx < gs'.length := h.1 ▸ hidx
      rw [List.getElem?_eq_none (by omega), List.getElem?_eq_none (by omega)]
      exact .throw _

end

/-! ## `Any` -/

/-- The answers of two members of an `Any` that behave alike. -/
structure MatchedAnswer (a b : Answer) : Prop where
  same : SameAnswer a b
  lasting : a.self.lasting = true
  lasting' : b.self.lasting = true
  solid : a.Offer → a.gen2.solid = true ∧ b.gen2.solid = true

/-- The nil answer of an idle member. -/
def IdleAnswer (a : Answer) : Prop := ∃ g, Idle g ∧ a = nil g

abbrev MatchedAnswers : List Answer → List Answer → Prop :=
  Padded IdleAnswer IdleAnswer MatchedAnswer

namespace Any

/-- The loop holds the answer `a`, which came after the answers `before`. -/
structure Holds (loop : Loop) (before : List Answer) (a : Answer) : Prop where
  cur_idx : loop.cur.idx = before.length
  res_idx : loop.res_idx = before.length
  res_op : loop.res_op = a.op
  res_gen : loop.res_gen = a.gen2

/-- The loops of two `Any` nodes hold answers of members that behave alike, or none. -/
inductive Together : List Answer → List Answer → Loop → Loop → Prop
  | none {done done' : List Answer} {loop loop' : Loop} (h : MatchedAnswers done done')
      (hop : loop.cur.op = loop'.cur.op) (hweight : loop.cur.weight = loop'.cur.weight)
      (hidx : loop.cur.idx = -1) (hidx' : loop'.cur.idx = -1) (hgen : loop.res_gen = .nullptr)
      (hgen' : loop'.res_gen = .nullptr) : Together done done' loop loop'
  | some {before before' after after' : List Answer} {a b : Answer} {loop loop' : Loop}
      (hbefore : MatchedAnswers before before') (hab : MatchedAnswer a b)
      (hafter : MatchedAnswers after after')
      (hop : loop.cur.op = loop'.cur.op) (hweight : loop.cur.weight = loop'.cur.weight)
      (h : Holds loop before a) (h' : Holds loop' before' b) :
      Together (before ++ a :: after) (before' ++ b :: after') loop loop'

namespace Together

variable {done done' : List Answer} {loop loop' : Loop}

theorem matched (h : Together done done' loop loop') : MatchedAnswers done done' := by
  cases h with
  | none h => exact h
  | some hbefore hab hafter => exact hbefore.append (.cons hab hafter)

theorem op (h : Together done done' loop loop') : loop.cur.op = loop'.cur.op := by
  cases h with
  | none _ hop => exact hop
  | some _ _ _ hop => exact hop

theorem weight (h : Together done done' loop loop') : loop.cur.weight = loop'.cur.weight := by
  cases h with
  | none _ _ hweight => exact hweight
  | some _ _ _ _ hweight => exact hweight

/-- The loops hold on to what they hold. -/
theorem keep {done₁ done₁' : List Answer} {m m' : Soonest} (h : Together done done' loop loop')
    (hmore : MatchedAnswers done₁ done₁') (hop : m.op = m'.op) (hweight : m.weight = m'.weight)
    (hidx : m.idx = loop.cur.idx) (hidx' : m'.idx = loop'.cur.idx) :
    Together (done ++ done₁) (done' ++ done₁') { loop with cur := m } { loop' with cur := m' } := by
  cases h with
  | none h _ _ hi hi' hgen hgen' =>
    exact .none (h.append hmore) hop hweight (hidx.trans hi) (hidx'.trans hi') hgen hgen'
  | some hbefore hab hafter _ _ h h' =>
    rw [List.append_assoc, List.cons_append, List.append_assoc, List.cons_append]
    exact .some hbefore hab (hafter.append hmore) hop hweight
      ⟨hidx.trans h.cur_idx, h.res_idx, h.res_op, h.res_gen⟩
      ⟨hidx'.trans h'.cur_idx, h'.res_idx, h'.res_op, h'.res_gen⟩

/-- No member before the next one has its index. -/
theorem idx_ne (h : Together done done' loop loop') :
    loop.cur.idx ≠ done.length ∧ loop'.cur.idx ≠ done'.length := by
  cases h with
  | none _ _ _ hidx hidx' =>
    rw [hidx, hidx']
    omega
  | some _ _ _ _ _ h h' =>
    rw [h.cur_idx, h'.cur_idx]
    simp only [List.length_append, List.length_cons]
    omega

end Together

-- Both calls draw the same number, and so make the same choice.
theorem soonestOpMap_sim {m₁ m₂ m₁' m₂' : Soonest} (h₁ : m₁.op = m₁'.op)
    (hw₁ : m₁.weight = m₁'.weight) (h₂ : m₂.op = m₂'.op) (hw₂ : m₂.weight = m₂'.weight) :
    Eval.Sim .outOfFuel (fun m m' ↦ m.op = m'.op ∧ m.weight = m'.weight ∧
      (m.idx = m₁.idx ∧ m'.idx = m₁'.idx ∨ m.idx = m₂.idx ∧ m'.idx = m₂'.idx))
      (soonestOpMap m₁ m₂) (soonestOpMap m₁' m₂') := by
  obtain ⟨op₁, w₁, i₁⟩ := m₁
  obtain ⟨op₂, w₂, i₂⟩ := m₂
  obtain rfl : op₁ = m₁'.op := h₁
  obtain rfl : w₁ = m₁'.weight := hw₁
  obtain rfl : op₂ = m₂'.op := h₂
  obtain rfl : w₂ = m₂'.weight := hw₂
  unfold soonestOpMap
  split
  · exact .pure ⟨rfl, rfl, .inr ⟨rfl, rfl⟩⟩
  · split
    · exact .pure ⟨rfl, rfl, .inl ⟨rfl, rfl⟩⟩
    · split
      -- A tie takes one draw on both sides, and the weights agree, so that it falls the same way.
      · refine (Eval.Sim.of_approx (fun _ ↦ rfl) (.refl rand)).bind fun r r' hr ↦ ?_
        obtain rfl : r = r' := hr
        split
        · exact .throw _
        · split
          · exact .pure ⟨rfl, rfl, .inl ⟨rfl, rfl⟩⟩
          · exact .pure ⟨rfl, rfl, .inr ⟨rfl, rfl⟩⟩
      · split
        · exact .pure ⟨rfl, rfl, .inl ⟨rfl, rfl⟩⟩
        · exact .pure ⟨rfl, rfl, .inr ⟨rfl, rfl⟩⟩

theorem Together.consider {done done' : List Answer} {loop loop' : Loop} {a b : Answer}
    (h : Together done done' loop loop') (hab : MatchedAnswer a b) :
    Eval.Sim .outOfFuel (Together (done ++ [a]) (done' ++ [b]))
      (Any.consider loop done.length a) (Any.consider loop' done'.length b) := by
  unfold Any.consider
  rw [hab.same.notNil_eq]
  split
  · have hm₂ : (⟨a.op, 1, done.length⟩ : Soonest).op = (⟨b.op, 1, done'.length⟩ : Soonest).op :=
      hab.same.op
    refine (soonestOpMap_sim h.op h.weight hm₂ rfl).bind fun m m' hm ↦ ?_
    obtain ⟨hop, hweight, ⟨hidx, hidx'⟩ | ⟨hidx, hidx'⟩⟩ := hm
    -- both loops hold on to the member before
    · rw [if_neg (hidx ▸ h.idx_ne.1), if_neg (hidx' ▸ h.idx_ne.2)]
      exact .pure (h.keep (.cons hab .nil) hop hweight hidx hidx')
    · rw [if_pos hidx, if_pos hidx']
      exact .pure (.some h.matched hab .nil hop hweight ⟨hidx, rfl, hab.same.op ▸ rfl, rfl⟩
        ⟨hidx', rfl, rfl, rfl⟩)
  · exact .pure (h.keep (.cons hab .nil) h.op h.weight rfl rfl)

/-- The loops over two lists of members, with the idle ones anywhere. -/
theorem Together.poll {ask ask' : Ask} {ctx : Context} {gs gs' : List GeneratorPtr}
    (hs : Padded
      (fun g ↦ Idle g ∧ ∀ s, ask g ctx s = .error .outOfFuel ∨ ask g ctx s = .ok (nil g, s))
      (fun g ↦ Idle g ∧ ∀ s, ask' g ctx s = .ok (nil g, s))
      (fun g g' ↦ Eval.Sim .outOfFuel MatchedAnswer (ask g ctx) (ask' g' ctx)) gs gs')
    {done done' : List Answer} {loop loop' : Loop} (h : Together done done' loop loop') :
    Eval.Sim .outOfFuel (fun p q ↦ Together (done ++ p.2) (done' ++ q.2) p.1 q.1)
      (Any.poll ask ctx done.length gs loop) (Any.poll ask' ctx done'.length gs' loop') := by
  -- The induction is on the members; one that stands alone moves the index of its own loop only.
  induction hs generalizing done done' loop loop' with
  | nil => exact .pure (by simpa using h)
  | cons hgg' _ ih =>
    refine hgg'.bind fun a b hab ↦ (h.consider hab).bind fun loop loop' h ↦ ?_
    have hpoll := ih h
    simp only [List.length_append, List.length_singleton] at hpoll
    refine hpoll.bind fun p q hpq ↦ .pure ?_
    simpa using hpq
  -- an idle member answers nil, which the loop passes over
  | @left g gs gs' hg _ ih =>
    refine Eval.Sim.bind_left hg.2 ?_
    have hkeep : Together (done ++ [nil g]) (done' ++ []) loop loop' :=
      h.keep (.left ⟨g, hg.1, rfl⟩ .nil) h.op h.weight rfl rfl
    have hpoll := ih hkeep
    simp only [List.length_append, List.length_singleton, List.append_nil] at hpoll
    have hmap : Eval.Sim .outOfFuel (fun p q ↦ Together (done ++ p.2) (done' ++ q.2) p.1 q.1)
        (Any.poll ask ctx (done.length + 1) gs loop >>= fun p ↦ pure (p.1, nil g :: p.2))
        (Any.poll ask' ctx done'.length gs' loop') :=
      hpoll.map_left fun p q hpq ↦ by simpa using hpq
    exact hmap
  | @right g gs gs' hg _ ih =>
    refine Eval.Sim.bind_right hg.2 ?_
    have hkeep : Together (done ++ []) (done' ++ [nil g]) loop loop' :=
      h.keep (.right ⟨g, hg.1, rfl⟩ .nil) h.op h.weight rfl rfl
    have hpoll := ih hkeep
    simp only [List.length_append, List.length_singleton, List.append_nil] at hpoll
    have hmap : Eval.Sim .outOfFuel (fun p q ↦ Together (done ++ p.2) (done' ++ q.2) p.1 q.1)
        (Any.poll ask ctx done.length gs loop)
        (Any.poll ask' ctx (done'.length + 1) gs' loop' >>= fun q ↦ pure (q.1, nil g :: q.2)) :=
      hpoll.map_right fun p q hpq ↦ by simpa using hpq
    exact hmap

-- The members as the loop leaves them.
theorem sameMembers_self {as bs : List Answer} (h : MatchedAnswers as bs) :
    SameMembers (as.map Answer.self) (bs.map Answer.self) := by
  have hidle {a : Answer} (h : IdleAnswer a) : Idle a.self := by
    obtain ⟨g, hg, rfl⟩ := h
    exact hg
  exact h.map (fun _ ↦ hidle) (fun _ ↦ hidle)
    fun a b hab ↦ ⟨hab.same.self, hab.lasting, hab.lasting'⟩

-- Copying these is safe in both nodes, or faults in both.
theorem copyEach_self {as bs : List Answer} (h : MatchedAnswers as bs) :
    Agree (fun cs cs' ↦ SameMembers cs cs' ∧ cs.length = as.length ∧ cs'.length = bs.length)
      (copyEach (as.map Answer.self)) (copyEach (bs.map Answer.self)) := by
  have hcopies := Same.copyEach ((sameMembers_self h).mono fun g g' hgg' ↦ by
    obtain ⟨hs, hlast, hlast'⟩ := hgg'
    obtain ⟨hne, hne'⟩ := hs.of_lasting hlast
    exact ⟨hs.copyOne hne hne', hlast, hlast'⟩)
  simpa using hcopies

/-- The members of the `Any` that is returned. -/
theorem copyEach_chosen {before before' after after' : List Answer} {a b : Answer}
    (hbefore : MatchedAnswers before before') (hab : MatchedAnswer a b)
    (hafter : MatchedAnswers after after') (hoff : a.Offer) :
    Agree (fun cs cs' ↦
        SameMembers (cs.set before.length a.gen2) (cs'.set before'.length b.gen2))
      (copyEach ((before ++ a :: after).map Answer.self))
      (copyEach ((before' ++ b :: after').map Answer.self)) := by
  rw [List.map_append, List.map_cons, GeneratorPtr.copyEach_split, List.map_append, List.map_cons,
    GeneratorPtr.copyEach_split]
  obtain ⟨hne, hne'⟩ := hab.same.self.of_lasting hab.lasting
  refine (copyEach_self hbefore).bind fun cs cs' hcs ↦ (hab.same.self.copyOne hne hne').bind
    fun c c' _ ↦ (copyEach_self hafter).bind fun ds ds' hds ↦ ?_
  obtain ⟨hcs, hlen, hlen'⟩ := hcs
  -- the successor takes the place of the copy of the member that offered
  have hset {cs ds : List GeneratorPtr} (c g : GeneratorPtr) {k : Nat} (hlen : cs.length = k) :
      (cs ++ c :: ds).set k g = cs ++ ([g] ++ ds) := by
    subst hlen
    simp
  change SameMembers ((cs ++ c :: ds).set _ _) ((cs' ++ c' :: ds').set _ _)
  rw [hset _ _ hlen, hset _ _ hlen']
  obtain ⟨hsolid, hsolid'⟩ := hab.solid hoff
  exact hcs.append ((SameMembers.single hab.same.gen2 hsolid hsolid').append hds.1)

-- One call on two `Any` nodes.
theorem op_sim {ask ask' : Ask} {ctx : Context} {gs gs' : List GeneratorPtr}
    (hs : Padded
      (fun g ↦ Idle g ∧ ∀ s, ask g ctx s = .error .outOfFuel ∨ ask g ctx s = .ok (nil g, s))
      (fun g ↦ Idle g ∧ ∀ s, ask' g ctx s = .ok (nil g, s))
      (fun g g' ↦ Eval.Sim .outOfFuel MatchedAnswer (ask g ctx) (ask' g' ctx)) gs gs') :
    Eval.Sim .outOfFuel SameAnswer (Any.op ask gs ctx) (Any.op ask' gs' ctx) := by
  have hinit : Together [] [] {} {} := .none .nil rfl rfl rfl rfl rfl rfl
  refine (hinit.poll hs).bind fun p q hpq ↦ ?_
  obtain ⟨loop, as⟩ := p
  obtain ⟨loop', bs⟩ := q
  change Together as bs loop loop' at hpq
  have hself := (sameMembers_self hpq.matched).same_any
  dsimp only
  cases hpq with
  | none h _ _ _ _ hgen hgen' =>
    rw [hgen, hgen', if_neg (by simp [notNil, GeneratorPtr.isNull]),
      if_neg (by simp [notNil, GeneratorPtr.isNull])]
    exact .pure (.nil hself)
  | some hbefore hab hafter _ _ h h' =>
    rw [h.res_op, h.res_gen, h.res_idx, h'.res_op, h'.res_gen, h'.res_idx, hab.same.notNil_eq]
    split
    · rename_i hoff
      have hoff := hab.same.offer_iff.mpr hoff
      refine (Eval.Sim.lift (copyEach_chosen hbefore hab hafter hoff)).bind fun cs cs' hcs ↦ ?_
      exact .pure ⟨hab.same.op, by simp [GeneratorFactory.createAny], hcs.same_any, hself⟩
    · exact .pure (.nil hself)

end Any

/-! ## The bisimulation -/

/-- Trees that behave alike are answered alike, with enough fuel for the one on the right. -/
theorem Same.op_sim (n : Nat) {g g' : GeneratorPtr} {k : Nat} (h : Same g g') (hk : g'.fuel ≤ k)
    (ctx : Context) : AskedAlike (op n) (op (n + k)) ctx g g' := by
  -- The induction is on the fuel of the left call; the right one has as much more as its tree needs
  -- to answer nil, so that a member that stands alone there costs no step.
  induction n generalizing g g' ctx with
  | zero => exact fun draws ↦ .inl rfl
  | succ n ih =>
    have hidle {g g' : GeneratorPtr} (h : g.lasting = false) (h' : g'.lasting = false)
        (hk : g'.fuel ≤ k) : AskedAlike (op (n + 1)) (op (n + 1 + k)) ctx g g' := by
      intro draws
      refine (op_idle h (n + 1) ctx draws).imp id fun hop ↦ ?_
      rw [hop, op_of_not_lasting h' (by omega)]
      exact ⟨SameAnswer.nil (.empty h h'), rfl⟩
    have hfuel : n + 1 + k = n + k + 1 := by omega
    cases h with
    | refl => exact .of_approx .refl (op_refines (by omega) g ctx)
    | empty h h' => exact hidle h h' hk
    | @list gs gs' hlen h =>
      cases gs with
      | nil =>
        obtain rfl := List.eq_nil_of_length_eq_zero hlen.symm
        exact hidle rfl rfl hk
      | cons first rest =>
        obtain ⟨first', rest', hfirst, hrest, rfl⟩ := Pointwise.uncons ⟨hlen, h⟩
        rw [hfuel]
        simp only [GeneratorPtr.fuel, GeneratorPtr.fuelEach] at hk
        refine ListGenerator.op_sim (op_answers n) (op_answers (n + k))
          (ih hfirst (by omega) ctx) hrest fun copy copy' _ hr' hcs ↦ ih (.ofList hcs) ?_ ctx
        have hle := GeneratorPtr.fuelEach_le (hr'.mono fun _ _ _ h ↦ h.fuel_le)
        simp only [GeneratorPtr.fuel]
        omega
    | validate h =>
      simp only [GeneratorPtr.fuel] at hk
      rw [hfuel]
      exact Validate.op_sim (ih h (by omega) ctx)
    | onThreads h =>
      simp only [GeneratorPtr.fuel] at hk
      rw [hfuel]
      exact OnThreads.op_sim (ih h (by omega) _)
    | timeLimit h =>
      simp only [GeneratorPtr.fuel] at hk
      rw [hfuel]
      exact TimeLimit.op_sim (ih h (by omega) ctx)
    | stagger h =>
      simp only [GeneratorPtr.fuel] at hk
      rw [hfuel]
      exact Stagger.op_sim (ih h (by omega) ctx)
    | @mix idx gs gs' hsolid hsolid' hlen h =>
      simp only [GeneratorPtr.fuel] at hk
      rw [hfuel]
      refine Mix.op_sim (op_answers n) (op_answers (n + k)) ⟨hlen, fun i hi hi' ↦
          ⟨h i hi hi', hsolid _ (List.getElem_mem hi), hsolid' _ (List.getElem_mem hi')⟩⟩
        (fun i hi hi' ↦ ?_) fun i copy copy' hidx' hr' hcc ↦ ih (.ofMix hcc) ?_ ctx
      · exact ih (h i hi hi')
          (le_trans (GeneratorPtr.fuel_le_fuelEach (List.getElem_mem hi')) (by omega)) ctx
      · have hle := GeneratorPtr.fuelEach_le (hr'.mono fun _ _ _ h ↦ h.fuel_le)
        have hdrop := GeneratorPtr.fuelEach_eraseIdx (List.getElem?_eq_getElem hidx')
        simp only [GeneratorPtr.fuel]
        omega
    | @any gs gs' hsolid hsolid' hlen h =>
      simp only [GeneratorPtr.fuel] at hk
      rw [hfuel]
      have hfuel' {g' : GeneratorPtr} (hg' : g' ∈ gs') : g'.fuel ≤ k :=
        le_trans (GeneratorPtr.fuel_le_fuelEach hg') (by omega)
      refine Any.op_sim (Padded.of_filter (p := GeneratorPtr.lasting) (q := GeneratorPtr.lasting)
        (fun g hg hlast ↦ ⟨⟨hsolid g hg, hlast⟩, op_idle hlast n ctx⟩)
        (fun g' hg' hlast ↦ ⟨⟨hsolid' g' hg', hlast⟩, fun draws ↦
          op_of_not_lasting hlast (le_trans (hfuel' hg') (by omega)) ctx draws⟩)
        ⟨hlen, fun i hi hi' hlast hlast' ↦ ?_⟩)
      have hg' := List.mem_of_mem_filter (List.getElem_mem hi')
      refine (ih (h i hi hi') (hfuel' hg') ctx).mono fun s a b s' ha hb hab ↦ ?_
      have ha := op_answers n _ ctx s a s' ha
      have hb := op_answers (n + k) _ ctx s b s' hb
      exact ⟨hab, ha.rebuilt.lasting_eq.trans hlast, hb.rebuilt.lasting_eq.trans hlast',
        fun hoff ↦ ⟨(ha.solid hoff).2, (hb.solid (hab.offer_iff.mp hoff)).2⟩⟩

/-- What an observer sees of a call: the context and the draws it chose, and the operation and the
draws that are left, or the fault. -/
structure Observation where
  ctx : Context
  draws : Draws
  outcome : Except Fault (Operation × Draws)

/-- The observer goes on with the successor in the answer (`kept`), or with the asked generator. -/
inductive Observe : Lts GeneratorPtr (Bool × Observation)
  | kept {g n ctx draws draws' a} (h : op n g ctx draws = .ok (a, draws')) :
      Observe g (true, ⟨ctx, draws, .ok (a.op, draws')⟩) a.gen2
  | discarded {g n ctx draws draws' a} (h : op n g ctx draws = .ok (a, draws')) :
      Observe g (false, ⟨ctx, draws, .ok (a.op, draws')⟩) a.self
  | faulted {g n ctx draws e kept} (h : op n g ctx draws = .error e) (he : e ≠ .outOfFuel) :
      Observe g (kept, ⟨ctx, draws, .error e⟩) g

-- The simulation for a call that is answered.
theorem Same.op_ok {n : Nat} {g g' : GeneratorPtr} {ctx : Context} {draws draws' : Draws}
    {a : Answer} (h : Same g g') (hop : op n g ctx draws = .ok (a, draws')) :
    ∃ m b, op m g' ctx draws = .ok (b, draws') ∧ SameAnswer a b := by
  have hsim := (h.op_sim n le_rfl ctx draws).resolve_left (by simp [hop])
  obtain ⟨⟨b, s⟩, hb, hab, hs⟩ := hsim.ok hop
  obtain rfl : draws' = s := hs
  exact ⟨n + g'.fuel, b, hb, hab⟩

/-- No observer tells trees that behave alike apart. -/
theorem Same.bisimilar {g g' : GeneratorPtr} (h : Same g g') : Bisimilar Observe g g' := by
  refine ⟨Same, fun _ _ ↦ Same.symm, fun g g' obs g₁ h hobs ↦ ?_, h⟩
  cases hobs with
  | kept hop =>
    obtain ⟨m, b, hb, hab⟩ := h.op_ok hop
    exact ⟨b.gen2, hab.op ▸ .kept hb, hab.gen2⟩
  | discarded hop =>
    obtain ⟨m, b, hb, hab⟩ := h.op_ok hop
    exact ⟨b.self, hab.op ▸ .discarded hb, hab.self⟩
  | @faulted _ n ctx draws e kept hop he =>
    have hsim := (h.op_sim n le_rfl ctx draws).resolve_left (by simpa [hop] using he)
    exact ⟨g', .faulted (hsim.error hop) he, h⟩

end Jepsen
