import Jepsen.Generator.Behaviour
import Jepsen.Generator.Null

/-!
# What rebuilding keeps

`copyOne` and `update` rebuild a tree through the constructors.  The one for a `Stagger` with a
`next_time` ignores it, so that a rebuilt `Stagger` starts anew; null members are called through.
Everything else is kept: without a `Stagger` that has a `next_time` to lose, the new tree cannot be
told from the old one.
-/

namespace Jepsen

open Library GeneratorFactory
open GeneratorPtr (copyOne copyEach copyOrNull update)

/-- A copy of the tree loses nothing: no `Stagger` outside of a `Mix` has a `next_time`, unless it
has nothing to offer, and no null pointer is in the way. -/
inductive Keeps : GeneratorPtr → Prop
  | operation {o} : Keeps (.operation o)
  | function {f} : Keeps (.function f)
  | list {gs : List GeneratorPtr} (h : ∀ g ∈ gs, g ≠ .nullptr → Keeps g) : Keeps (.list gs)
  | validate {g} (h : g ≠ .nullptr → Keeps g) : Keeps (.validate g)
  | onThreads {g filter} (h : g ≠ .nullptr → Keeps g) : Keeps (.onThreads g filter)
  | timeLimit {limit cutoff g} (h : g ≠ .nullptr → Keeps g) : Keeps (.timeLimit limit cutoff g)
  | stagger {dt next_time g} (hnext : next_time = kInvalidTime ∨ g.lasting = false)
      (h : g ≠ .nullptr → Keeps g) : Keeps (.stagger dt next_time g)
  | mix {idx} {gs : List GeneratorPtr} (h : ∀ g ∈ gs, Copyable g) : Keeps (.mix idx gs)
  | any {gs : List GeneratorPtr} (hsolid : ∀ g ∈ gs, g.solid = true) (h : ∀ g ∈ gs, Keeps g) :
      Keeps (.any gs)

/-- An update of the tree with `event` loses nothing, where it rebuilds or copies a subtree. -/
inductive KeepsOn (event : Operation) : GeneratorPtr → Context → Prop
  | nullptr {ctx} : KeepsOn event .nullptr ctx
  | operation {o ctx} : KeepsOn event (.operation o) ctx
  | function {f ctx} : KeepsOn event (.function f) ctx
  | empty {ctx} : KeepsOn event (.list []) ctx
  | list {g gs ctx} (h : KeepsOn event g ctx) (hcopy : g ≠ .nullptr → Copyable g)
      (hrest : ∀ g ∈ gs, g ≠ .nullptr → Keeps g) : KeepsOn event (.list (g :: gs)) ctx
  | validate {g ctx} (h : KeepsOn event g ctx) : KeepsOn event (.validate g) ctx
  | onThreads {g filter ctx} (h : filter (ctx.processToThread event.process) = true →
      KeepsOn event g (onThreadsContext filter ctx)) : KeepsOn event (.onThreads g filter) ctx
  | timeLimit {limit cutoff g ctx} (h : KeepsOn event g ctx) :
      KeepsOn event (.timeLimit limit cutoff g) ctx
  | stagger {dt next_time g ctx} (hnext : next_time = kInvalidTime ∨ g.lasting = false)
      (h : KeepsOn event g ctx) : KeepsOn event (.stagger dt next_time g) ctx
  | mix {idx gs ctx} : KeepsOn event (.mix idx gs) ctx
  | any {gs : List GeneratorPtr} {ctx} (hlast : ∀ g ∈ gs, g.lasting = true)
      (h : ∀ g ∈ gs, KeepsOn event g ctx) : KeepsOn event (.any gs) ctx

/-- The tree can be rebuilt by `rebuild`, as one that behaves alike. -/
def RebuiltAlike (g : GeneratorPtr) (rebuild : Except Fault GeneratorPtr) : Prop :=
  ∃ g', rebuild = .ok g' ∧ Same g g'

-- Members are rebuilt one by one, with a test for null in a list and without one elsewhere.
theorem copyEach_alike {gs : List GeneratorPtr} (h : ∀ g ∈ gs, RebuiltAlike g (copyOne g)) :
    ∃ cs, copyEach gs = .ok cs ∧ Pointwise Same gs cs := by
  induction gs with
  | nil => exact ⟨[], rfl, .nil⟩
  | cons g gs ih =>
    obtain ⟨⟨c, hc, hs⟩, hgs⟩ := List.forall_mem_cons.mp h
    obtain ⟨cs, hcs, hss⟩ := ih hgs
    exact ⟨c :: cs, GeneratorPtr.copyEach_cons_ok.mpr ⟨c, cs, hc, hcs, rfl⟩, .cons hs hss⟩

theorem copyOrNull_alike {gs : List GeneratorPtr}
    (h : ∀ g ∈ gs, g ≠ .nullptr → RebuiltAlike g (copyOne g)) :
    ∃ cs, copyOrNull gs = .ok cs ∧ Pointwise Same gs cs := by
  induction gs with
  | nil => exact ⟨[], rfl, .nil⟩
  | cons g gs ih =>
    obtain ⟨hg, hgs⟩ := List.forall_mem_cons.mp h
    obtain ⟨cs, hcs, hss⟩ := ih hgs
    by_cases hnull : g = .nullptr
    · exact ⟨.nullptr :: cs, GeneratorPtr.copyOrNull_cons_ok.mpr
        ⟨.nullptr, cs, .inl ⟨hnull, rfl⟩, hcs, rfl⟩, .cons (hnull ▸ .refl _) hss⟩
    · obtain ⟨c, hc, hs⟩ := hg hnull
      exact ⟨c :: cs, GeneratorPtr.copyOrNull_cons_ok.mpr ⟨c, cs, .inr hc, hcs, rfl⟩, .cons hs hss⟩

/-- A wrapper is rebuilt around a copy, or as `empty` where it holds null. -/
theorem copyWrapped_alike {gen empty : GeneratorPtr} (wrap : GeneratorPtr → GeneratorPtr)
    {wrap' : GeneratorPtr → GeneratorPtr}
    (hempty : Same (wrap .nullptr) empty) (h : gen ≠ .nullptr → RebuiltAlike gen (copyOne gen))
    (hwrap : ∀ c, copyOne gen = .ok c → Same gen c → Same (wrap gen) (wrap' c)) :
    RebuiltAlike (wrap gen)
      (if gen.isNull then .ok empty else do return wrap' (← copyOne gen)) := by
  by_cases hnull : gen = .nullptr
  · subst hnull
    exact ⟨empty, rfl, hempty⟩
  · obtain ⟨c, hc, hs⟩ := h hnull
    rw [if_neg (by simpa using hnull), hc]
    exact ⟨wrap' c, rfl, hwrap c hc hs⟩

/-- A `Stagger` around a tree that behaves alike, with the constructor that drops `next_time`. -/
theorem same_stagger {dt next_time : Int} {g g' : GeneratorPtr} (h : Same g g')
    (hnext : next_time = kInvalidTime ∨ g.lasting = false) :
    Same (.stagger dt next_time g) (createStaggerAt dt next_time g') := by
  rcases hnext with rfl | hidle
  · exact .stagger h
  · exact .empty hidle (h.lasting_eq ▸ hidle)

theorem Keeps.copyOne {g : GeneratorPtr} (h : Keeps g) :
    RebuiltAlike g (GeneratorPtr.copyOne g) := by
  induction h with
  | operation | function => exact ⟨_, rfl, .refl _⟩
  | list _ ih =>
    obtain ⟨cs, hcs, hs⟩ := copyOrNull_alike ih
    rw [GeneratorPtr.copyOne, hcs]
    exact ⟨.list cs, rfl, .ofList hs⟩
  | validate _ ih =>
    rw [GeneratorPtr.copyOne]
    exact copyWrapped_alike .validate (.refl _) ih fun _ _ ↦ .validate
  | onThreads _ ih =>
    rw [GeneratorPtr.copyOne]
    exact copyWrapped_alike (fun g ↦ .onThreads g _) (.refl _) ih fun _ _ ↦ .onThreads
  | timeLimit _ ih =>
    rw [GeneratorPtr.copyOne]
    exact copyWrapped_alike (.timeLimit _ _) (.empty rfl rfl) ih fun _ _ ↦ .timeLimit
  | stagger hnext _ ih =>
    rw [GeneratorPtr.copyOne]
    exact copyWrapped_alike (.stagger _ _) (.empty rfl rfl) ih
      fun _ _ hs ↦ same_stagger hs hnext
  -- the copies of the members are made and dropped
  | mix h =>
    obtain ⟨cs, hcs⟩ := (copyEach_ok_iff fun g _ ↦ copyOne_ok_iff).mpr h
    rw [GeneratorPtr.copyOne, hcs]
    exact ⟨_, rfl, .refl _⟩
  | any hsolid _ ih =>
    obtain ⟨cs, hcs, hs⟩ := copyEach_alike ih
    rw [GeneratorPtr.copyOne, hcs]
    refine ⟨.any cs, rfl, Same.ofAny hs hsolid fun c hc ↦ ?_⟩
    have hcopied := GeneratorPtr.copyEach_pointwise (fun _ _ _ h ↦ h) hcs
    obtain ⟨g, hg, hgc⟩ := hcopied.exists_left hc
    exact GeneratorPtr.solid_of_copyOne hgc (hsolid g hg)

theorem updateEach_alike {gs : List GeneratorPtr} {ctx : Context} {event : Operation}
    (h : ∀ g ∈ gs, RebuiltAlike g (update g ctx event)) :
    ∃ us, GeneratorPtr.updateEach gs ctx event = .ok us ∧ Pointwise Same gs us := by
  induction gs with
  | nil => exact ⟨[], rfl, .nil⟩
  | cons g gs ih =>
    obtain ⟨⟨u, hu, hs⟩, hgs⟩ := List.forall_mem_cons.mp h
    obtain ⟨us, hus, hss⟩ := ih hgs
    refine ⟨u :: us, ?_, .cons hs hss⟩
    rw [GeneratorPtr.updateEach, hu, hus]
    rfl

theorem KeepsOn.update {event : Operation} {g : GeneratorPtr} {ctx : Context}
    (h : KeepsOn event g ctx) : RebuiltAlike g (GeneratorPtr.update g ctx event) := by
  induction h with
  | nullptr | operation | function | mix => exact ⟨_, rfl, .refl _⟩
  | empty => exact ⟨.nullptr, rfl, .empty rfl rfl⟩
  | @list g gs ctx _ hcopy hrest ih =>
    obtain ⟨u, hu, hs⟩ := ih
    obtain ⟨cs, hcs, hss⟩ := copyOrNull_alike fun g hg hne ↦ (hrest g hg hne).copyOne
    -- `ListGenerator::update` copies the whole list, and replaces its front
    have hhead : ∃ c, g = .nullptr ∧ c = .nullptr ∨ copyOne g = .ok c := by
      by_cases hnull : g = .nullptr
      · exact ⟨.nullptr, .inl ⟨hnull, rfl⟩⟩
      · obtain ⟨c, hc⟩ := copyOne_ok_iff.mpr (hcopy hnull)
        exact ⟨c, .inr hc⟩
    obtain ⟨c, hc⟩ := hhead
    rw [GeneratorPtr.update, hu, GeneratorPtr.copyOrNull_cons_ok.mpr ⟨c, cs, hc, hcs, rfl⟩]
    exact ⟨.list (u :: cs), rfl, .ofList (.cons hs hss)⟩
  | validate _ ih =>
    obtain ⟨u, hu, hs⟩ := ih
    rw [GeneratorPtr.update, hu]
    exact ⟨_, rfl, .validate hs⟩
  | onThreads _ ih =>
    rw [GeneratorPtr.update]
    split
    · rename_i hf
      obtain ⟨u, hu, hs⟩ := ih hf
      rw [hu]
      exact ⟨_, rfl, .onThreads hs⟩
    -- the filter keeps the event out
    · exact ⟨_, rfl, .refl _⟩
  | timeLimit _ ih =>
    obtain ⟨u, hu, hs⟩ := ih
    rw [GeneratorPtr.update, hu]
    exact ⟨_, rfl, .timeLimit hs⟩
  | stagger hnext _ ih =>
    obtain ⟨u, hu, hs⟩ := ih
    rw [GeneratorPtr.update, hu]
    exact ⟨_, rfl, same_stagger hs hnext⟩
  | any hlast _ ih =>
    obtain ⟨us, hus, hs⟩ := updateEach_alike ih
    rw [GeneratorPtr.update, hus]
    refine ⟨.any us, rfl, Same.ofAny hs (fun g hg ↦ GeneratorPtr.solid_of_lasting (hlast g hg))
      fun u hu ↦ GeneratorPtr.solid_of_lasting ?_⟩
    obtain ⟨g, hg, hgu⟩ := hs.exists_left hu
    exact hgu.lasting_eq ▸ hlast g hg

/-! ## What a rebuilt `Stagger` loses -/

/-- What a `Stagger` answers at `next_time` when its child answers `a`. -/
def Stagger.answered (next_time : Int) (a : Answer) : Operation :=
  if ¬ a.Offer then { type := .kNil }
  else if a.op.type = .kPending then a.op
  else { a.op with time := max next_time a.op.time }

-- One call on a `Stagger`, read off its body.
theorem op_stagger {n : Nat} {dt next_time : Int} {gen : GeneratorPtr} {ctx : Context}
    {draws d d' : Draws} {a b : Answer} (ha : op n gen ctx draws = .ok (a, d))
    (hb : op (n + 1) (.stagger dt next_time gen) ctx draws = .ok (b, d')) :
    b.op = Stagger.answered (Stagger.fix next_time ctx.time) a := by
  -- The inner answer is known; only the time of a real operation changes.
  have heq : op (n + 1) (.stagger dt next_time gen) ctx draws = _ := Eval.bind_apply_ok ha
  rw [heq] at hb
  by_cases hoff : a.Offer
  · have hif : notNil a.op a.gen2 = true := hoff
    rw [if_pos hif] at hb
    rw [Stagger.answered, if_neg (not_not.mpr hoff)]
    dsimp only at hb
    by_cases hp : a.op.type = .kPending
    · rw [if_pos hp] at hb ⊢
      obtain ⟨rfl, -⟩ := Prod.mk.inj (Except.ok.inj hb)
      rfl
    · rw [if_neg hp] at hb ⊢
      obtain ⟨r, d₁, -, hb⟩ := Eval.bind_eq_ok.mp hb
      split at hb
      · cases hb
      · obtain ⟨rfl, -⟩ := Prod.mk.inj (Except.ok.inj hb)
        rfl
  · have hif : ¬ notNil a.op a.gen2 = true := hoff
    rw [if_neg hif] at hb
    obtain ⟨rfl, -⟩ := Prod.mk.inj (Except.ok.inj hb)
    rw [Stagger.answered, if_pos hoff]
    rfl

theorem Stagger.answered_eq_iff {t t' : Int} {a : Answer} :
    Stagger.answered t a = Stagger.answered t' a ↔
      (a.Offer → a.op.type ≠ .kPending → max t a.op.time = max t' a.op.time) := by
  unfold Stagger.answered
  by_cases hoff : a.Offer
  · rw [if_neg (not_not.mpr hoff), if_neg (not_not.mpr hoff)]
    by_cases hp : a.op.type = .kPending
    · rw [if_pos hp, if_pos hp]
      exact iff_of_true rfl fun _ h ↦ absurd hp h
    · rw [if_neg hp, if_neg hp]
      refine ⟨fun h _ _ ↦ congrArg Operation.time h, fun h ↦ ?_⟩
      rw [h hoff hp]
  · rw [if_pos hoff, if_pos hoff]
    exact iff_of_true rfl fun h ↦ absurd h hoff

/-- A copy or an update of a tree that has no `next_time` to lose, and no null member in the way,
cannot be told from the tree.  A `Stagger` that is rebuilt without its `next_time` answers a call as
before exactly if the child offers nothing real, or its offer is not moved by the difference. -/
theorem rebuilding_keeps_content (g : GeneratorPtr) :
    (Keeps g → ∃ g', copyOne g = .ok g' ∧ Bisimilar Observe g g') ∧
    (∀ ctx event, KeepsOn event g ctx →
      ∃ g', update g ctx event = .ok g' ∧ Bisimilar Observe g g') ∧
    ∀ dt next_time gen gen', next_time ≠ kInvalidTime → Same gen gen' →
      ∀ n m ctx draws a b b' d d₁ d₂, op n gen ctx draws = .ok (a, d) →
        op (n + 1) (.stagger dt next_time gen) ctx draws = .ok (b, d₁) →
        op m (createStaggerAt dt next_time gen') ctx draws = .ok (b', d₂) →
        (b.op = b'.op ↔ (a.Offer → a.op.type ≠ .kPending →
          max next_time a.op.time = max ctx.time a.op.time)) := by
  have hbisimilar {g : GeneratorPtr} {rebuild : Except Fault GeneratorPtr}
      (h : RebuiltAlike g rebuild) : ∃ g', rebuild = .ok g' ∧ Bisimilar Observe g g' := by
    obtain ⟨g', hg', hs⟩ := h
    exact ⟨g', hg', hs.bisimilar⟩
  refine ⟨fun h ↦ hbisimilar h.copyOne, fun ctx event h ↦ hbisimilar h.update, ?_⟩
  intro dt next_time gen gen' hnext hsame n m ctx draws a b b' d d₁ d₂ ha hb hb'
  obtain ⟨k, a', ha', haa'⟩ := hsame.op_ok ha
  cases m with
  | zero => cases hb'
  | succ m =>
    -- the child of the rebuilt `Stagger` answers the same, whatever fuel it was given
    obtain ⟨a₁, d₃, ha₁, -⟩ := Eval.bind_eq_ok.mp hb'
    obtain ⟨rfl, rfl⟩ := Prod.mk.inj (op_unique ha₁ ha')
    have hop := op_stagger ha hb
    have hop' := op_stagger ha₁ hb'
    have hanswered (t : Int) : Stagger.answered t a₁ = Stagger.answered t a := by
      unfold Stagger.answered
      simp only [haa'.offer_iff, haa'.op]
    rw [hop, hop', hanswered, Stagger.fix_of_ne hnext, Stagger.answered_eq_iff]
    rfl

/-- A `Stagger` over two reads that is due after 5 s. -/
def dueLater : GeneratorPtr :=
  .stagger (2 * sec2nanos 1) (sec2nanos 5)
    (createGenerator [OperationFactory.read .null, OperationFactory.read .null])

/-- A time limit over two reads is rebuilt without loss; the `Stagger` answers after 1 s what its
copy does not. -/
theorem rebuilding_keeps_content_reads :
    (∃ g', copyOne (timeLimit 10 (createGenerator
        [OperationFactory.read .null, OperationFactory.read .null])) = .ok g' ∧
      Bisimilar Observe (timeLimit 10 (createGenerator
        [OperationFactory.read .null, OperationFactory.read .null])) g') ∧
    (∃ g', update (timeLimit 10 (createGenerator
        [OperationFactory.read .null, OperationFactory.read .null])) (.oneClient 5)
        (OperationFactory.read .null) = .ok g' ∧
      Bisimilar Observe (timeLimit 10 (createGenerator
        [OperationFactory.read .null, OperationFactory.read .null])) g') ∧
    ∃ g' a b d d', copyOne dueLater = .ok g' ∧
      op 4 dueLater (.oneClient (sec2nanos 1)) (fun _ ↦ 0) = .ok (a, d) ∧
      op 4 g' (.oneClient (sec2nanos 1)) (fun _ ↦ 0) = .ok (b, d') ∧ ¬ a.op = b.op := by
  have hkeeps : Keeps (timeLimit 10 (createGenerator
      [OperationFactory.read .null, OperationFactory.read .null])) := by
    refine .timeLimit fun _ ↦ .list fun g hg _ ↦ ?_
    obtain ⟨o, -, rfl⟩ := List.mem_map.mp hg
    exact .operation
  have hkeepsOn : KeepsOn (OperationFactory.read .null) (timeLimit 10 (createGenerator
      [OperationFactory.read .null, OperationFactory.read .null])) (.oneClient 5) := by
    refine .timeLimit (.list .operation (fun _ ↦ .operation) fun g hg _ ↦ ?_)
    obtain rfl : g = .operation (OperationFactory.read .null) := List.mem_singleton.mp hg
    exact .operation
  obtain ⟨hcopy, hupdate, -⟩ := rebuilding_keeps_content (timeLimit 10 (createGenerator
    [OperationFactory.read .null, OperationFactory.read .null]))
  obtain ⟨a, d, ha, hoff, hreal, htime⟩ : ∃ a d, op 3
      (createGenerator [OperationFactory.read .null, OperationFactory.read .null])
      (.oneClient (sec2nanos 1)) (fun _ ↦ 0) = .ok (a, d) ∧ a.Offer ∧ a.op.type ≠ .kPending ∧
      a.op.time = sec2nanos 1 := ⟨_, _, rfl, by decide, by decide, rfl⟩
  obtain ⟨b, d₁, hb⟩ : ∃ b d₁, op 4 dueLater (.oneClient (sec2nanos 1)) (fun _ ↦ 0) =
      .ok (b, d₁) := ⟨_, _, rfl⟩
  obtain ⟨b', d₂, hb'⟩ : ∃ b' d₂, op 4 (createStaggerAt (2 * sec2nanos 1) (sec2nanos 5)
      (createGenerator [OperationFactory.read .null, OperationFactory.read .null]))
      (.oneClient (sec2nanos 1)) (fun _ ↦ 0) = .ok (b', d₂) := ⟨_, _, rfl⟩
  refine ⟨hcopy hkeeps, hupdate _ _ hkeepsOn, _, b, b', d₁, d₂, rfl, hb, hb', fun h ↦ ?_⟩
  have hmax := ((rebuilding_keeps_content dueLater).2.2 _ _ _ _ (by decide) (.refl _) 3 4 _ _ _ _ _
    _ _ _ ha hb hb').mp h hoff hreal
  rw [htime] at hmax
  exact absurd hmax (by decide)

/-- The copy of a `Stagger` that is due after 5 s makes its offer at once. -/
theorem copy_drops_next_time :
    ∃ g' a b d d', copyOne dueLater = .ok g' ∧
      op 4 dueLater (.oneClient (sec2nanos 1)) (fun _ ↦ 0) = .ok (a, d) ∧
      op 4 g' (.oneClient (sec2nanos 1)) (fun _ ↦ 0) = .ok (b, d') ∧
      a.op.time = sec2nanos 5 ∧ b.op.time = sec2nanos 1 :=
  ⟨_, _, _, _, _, rfl, rfl, rfl, rfl, rfl⟩

end Jepsen
