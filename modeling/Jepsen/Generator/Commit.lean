import Jepsen.Generator.Null
import Jepsen.Generator.Outcome

/-!
# What `Any` commits to

`Any::op` answers a soonest offer of its members: a real operation with the least time if there is
one, else a pending one.  In the `Any` it returns, the member that made the offer is the offer's
successor and every other member a copy.  It copies members without a test for null, so that it
faults where one of them is null and another has something to offer.
-/

namespace Jepsen

open Library GeneratorFactory
open GeneratorPtr (copyOne copyEach Rebuilt)

/-- The answer `b` hands on the answer `a` of member `i`, and moves on this member alone. -/
structure Commits (answers : List Answer) (i : Nat) (a b : Answer) : Prop where
  get : answers[i]? = some a
  offer : a.Offer
  op : b.op = a.op
  gen2 : ∃ copies, Pointwise (fun c c' ↦ copyOne c.self = .ok c') answers copies ∧
    b.gen2 = .any (copies.set i a.gen2)

/-- What an `Any` is to answer when its members answer `answers`. -/
structure SelectsSoonest (answers : List Answer) (b : Answer) : Prop where
  real : (∃ a ∈ answers, a.Offer ∧ a.op.Real) →
    ∃ i a, Commits answers i a b ∧ a.op.Real ∧
      ∀ c ∈ answers, c.Offer → c.op.Real → a.op.time ≤ c.op.time
  pending : (∃ a ∈ answers, a.Offer) → (∀ a ∈ answers, a.Offer → a.op.type = .kPending) →
    ∃ i a, Commits answers i a b ∧ a.op.type = .kPending
  nil : (∀ a ∈ answers, ¬ a.Offer) → b.op.type = .kNil

section

variable {n : Nat} {gens : List GeneratorPtr} {ctx : Context} {draws d : Draws} {loop : Any.Loop}
  {answers : List Answer}

/-- When every member answers, the loop comes to its end. -/
theorem anyPoll_returns (h : ∀ g ∈ gens, ∀ d, ∃ r, op n g ctx d = .ok r)
    (draws : Draws) :
    ∃ loop answers d, Any.poll (op n) ctx 0 gens {} draws = .ok ((loop, answers), d) := by
  have hmember : ∀ g ∈ gens, Eval.Yields (fun _ ↦ False) (Answers g ctx) (op n g ctx) := by
    intro g hg d
    obtain ⟨⟨a, d'⟩, hr⟩ := h g hg d
    rw [hr]
    exact op_answers n g ctx d a d' hr
  cases hp : Any.poll (op n) ctx 0 gens {} draws with
  | error e => exact absurd ((Any.poll_yields hmember 0 {}).error hp) id
  | ok r => exact ⟨r.1.1, r.1.2, r.2, rfl⟩

/-- Each answer in the loop is an answer of the member at its position. -/
theorem anyPoll_members
    (hpoll : Any.poll (op n) ctx 0 gens {} draws = .ok ((loop, answers), d)) :
    Pointwise (fun g a ↦ ∃ d d', op n g ctx d = .ok (a, d')) gens answers :=
  (Any.tracks_init.poll (fun _ d _ d' h ↦ ⟨d, d', h⟩) hpoll).1

/-- The members can be copied after the loop as well as before. -/
theorem copyEach_polled_iff
    (hpoll : Any.poll (op n) ctx 0 gens {} draws = .ok ((loop, answers), d)) :
    (∃ copies, copyEach (answers.map Answer.self) = .ok copies) ↔ ∀ g ∈ gens, Copyable g := by
  have hself : Pointwise (fun g g' ↦ Rebuilt true false g g') gens (answers.map Answer.self) := by
    refine Pointwise.map_right.mpr ((anyPoll_members hpoll).mono fun g _ a ha ↦ ?_)
    obtain ⟨d, d', ha⟩ := ha
    exact (op_answers n g ctx d a d' ha).rebuilt
  rw [copyEach_ok_iff fun g _ ↦ copyOne_ok_iff]
  constructor
  · intro h g hg
    obtain ⟨g', hg', hr⟩ := hself.exists_right hg
    exact (h g' hg').polled (hr.symm rfl) rfl
  · exact hself.forall_mem fun _ _ hr hg ↦ hg.polled hr rfl

theorem Commits.of_copies {i : Nat} {a : Answer} {copies : List GeneratorPtr} {self : GeneratorPtr}
    (hget : answers[i]? = some a) (hoff : a.Offer)
    (hcopy : copyEach (answers.map Answer.self) = .ok copies) :
    Commits answers i a ⟨a.op, .any (copies.set i a.gen2), self⟩ where
  get := hget
  offer := hoff
  op := rfl
  gen2 := by
    have hcopies : Pointwise (fun g g' ↦ copyOne g = .ok g') (answers.map Answer.self) copies :=
      GeneratorPtr.copyEach_pointwise (fun _ _ _ h ↦ h) hcopy
    refine ⟨copies, ⟨?_, fun i hi hi' ↦ ?_⟩, rfl⟩
    · simpa using hcopies.1
    · have h := hcopies.2 i (by simpa using hi) hi'
      rwa [List.getElem_map] at h

/-- A soonest offer is what an `Any` is to commit to. -/
theorem SoonestOffer.selects {i : Nat} {a b : Answer} (h : SoonestOffer answers i a)
    (hb : Commits answers i a b) : SelectsSoonest answers b where
  real hreal := by
    obtain ⟨c, hc, hoff, hcr⟩ := hreal
    have hp : a.op.type ≠ .kPending := fun hp ↦ hcr.2 (h.pending hp c hc hoff)
    exact ⟨i, a, hb, ⟨(Answer.offer_iff.mp h.offer).1, hp⟩,
      fun c hc hoff hcr ↦ h.soonest hp c hc hoff hcr.2⟩
  pending _ hall := ⟨i, a, hb, hall a h.mem h.offer⟩
  nil hnone := absurd h.offer (hnone a h.mem)

end

/-- When the members answer, `Any` answers a soonest offer and moves on its member alone, exactly if
nothing is offered or no null member is in the way of a copy. -/
theorem any_selects_soonest_iff (n : Nat) (gens : List GeneratorPtr) (ctx : Context)
    (draws : Draws) :
    ((∀ g ∈ gens, ∀ d, ∃ r, op n g ctx d = .ok r) →
      ∃ loop answers d, Any.poll (op n) ctx 0 gens {} draws = .ok ((loop, answers), d)) ∧
    ∀ loop answers d, Any.poll (op n) ctx 0 gens {} draws = .ok ((loop, answers), d) →
      Pointwise (fun g a ↦ ∃ d d', op n g ctx d = .ok (a, d')) gens answers ∧
      ((∃ b d', op (n + 1) (.any gens) ctx draws = .ok (b, d') ∧ SelectsSoonest answers b) ↔
        ((∃ a ∈ answers, a.Offer) → ∀ g ∈ gens, Copyable g)) := by
  refine ⟨fun h ↦ anyPoll_returns h draws, fun loop answers d hpoll ↦
    ⟨anyPoll_members hpoll, ?_⟩⟩
  have heq : op (n + 1) (.any gens) ctx draws = _ := Eval.bind_apply_ok hpoll
  obtain ⟨-, htracks⟩ := Any.tracks_init.poll (R := fun _ _ ↦ True) (fun _ _ _ _ _ ↦ trivial) hpoll
  rw [List.nil_append] at htracks
  -- From the polled answers on, only the copy of the members can fail.
  rw [heq, ← copyEach_polled_iff hpoll]
  dsimp only
  rcases htracks with ⟨-, hgen, hnone⟩ | ⟨i, a, hbest, hop, hgen, hidx, -⟩
  · rw [if_neg (by simp [notNil, hgen, GeneratorPtr.isNull])]
    -- Without an offer the answer is `:nil`, and nothing is copied.
    have hnil (h : ∃ a ∈ answers, a.Offer) : False := by
      obtain ⟨a, ha, hoff⟩ := h
      exact hnone a ha hoff
    refine ⟨fun _ h ↦ absurd h hnil, fun _ ↦ ⟨_, _, rfl, ?_, fun h ↦ absurd h hnil, fun _ ↦ rfl⟩⟩
    rintro ⟨a, ha, hoff, -⟩
    exact absurd hoff (hnone a ha)
  · rw [if_pos (by rw [hop, hgen]; exact hbest.offer), hop, hgen, hidx]
    constructor
    · rintro ⟨b, d', hb, -⟩ -
      obtain ⟨copies, hcopy, -⟩ := Eval.lift_bind_eq_ok.mp hb
      exact ⟨copies, hcopy⟩
    · intro h
      obtain ⟨copies, hcopy⟩ := h ⟨a, hbest.mem, hbest.offer⟩
      rw [Eval.lift_bind_apply_ok hcopy]
      exact ⟨_, _, rfl, hbest.selects (.of_copies hbest.get hbest.offer hcopy)⟩

/-- Two lists of reads, asked with a client free. -/
theorem any_selects_soonest_iff_reads : ∃ answers b d,
    op 4 (.any [createGenerator [OperationFactory.read .null, OperationFactory.read .null],
        createGenerator [OperationFactory.read .null, OperationFactory.read .null]])
      (.oneClient 5) (fun _ ↦ 1) = .ok (b, d) ∧ SelectsSoonest answers b ∧
    ∃ a ∈ answers, a.Offer ∧ a.op.Real := by
  obtain ⟨loop, answers, d, hpoll, hoffer⟩ : ∃ loop answers d,
      Any.poll (op 3) (.oneClient 5) 0
        [createGenerator [OperationFactory.read .null, OperationFactory.read .null],
          createGenerator [OperationFactory.read .null, OperationFactory.read .null]] {}
        (fun _ ↦ 1) = .ok ((loop, answers), d) ∧ ∃ a ∈ answers, a.Offer ∧ a.op.Real :=
    ⟨_, _, _, rfl, _, .head _, by decide, by decide⟩
  have hcopyable : ∀ g ∈ [createGenerator [OperationFactory.read .null, OperationFactory.read .null],
      createGenerator [OperationFactory.read .null, OperationFactory.read .null]], Copyable g := by
    intro g hg
    obtain rfl : g = createGenerator [OperationFactory.read .null, OperationFactory.read .null] := by
      simpa using hg
    refine .list fun g hg _ ↦ ?_
    obtain ⟨o, -, rfl⟩ := List.mem_map.mp hg
    exact .operation
  obtain ⟨b, d', hb, hselects⟩ := (((any_selects_soonest_iff 3 _ (.oneClient 5) (fun _ ↦ 1)).2
    loop answers d hpoll).2).mpr fun _ ↦ hcopyable
  exact ⟨answers, b, d', hb, hselects, hoffer⟩

/-- A null member, as `any({})` returns it, next to a list of reads: the list makes an offer, and
the copy of the null member faults. -/
theorem any_faults_on_null :
    (∃ loop answers d, Any.poll (op 3) (.oneClient 5) 0
        [any [], createGenerator [OperationFactory.read .null, OperationFactory.read .null]] {}
        (fun _ ↦ 0) = .ok ((loop, answers), d) ∧ ∃ a ∈ answers, a.Offer ∧ a.op.Real) ∧
    op 4 (any [any [], createGenerator [OperationFactory.read .null, OperationFactory.read .null]])
      (.oneClient 5) (fun _ ↦ 0) = .error .nullPointer :=
  ⟨⟨_, _, _, rfl, _, .tail _ (.head _), by decide, by decide⟩, rfl⟩

end Jepsen
