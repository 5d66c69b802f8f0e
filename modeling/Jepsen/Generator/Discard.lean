import Jepsen.Generator.Answers

/-!
# Discarding an answer

A generator that is asked again after its answer was discarded answers as before, unless the first
call assigned a field of an object of its tree: the `cutoff` of a `TimeLimit` on the first real
operation, or the `next_time` of a `Stagger` on the first offer.  `MayAssign` follows a call to
these assignments, also through the copies that lists and `Mix` ask in place of their members.
-/

namespace Jepsen

open Library GeneratorFactory
open GeneratorPtr (copyOne copyEach copyOrNull members writeBack writeBackEach Rebuilt)

/-- Some call on `g` in `ctx` may assign a field of an object inside at least `depth` of the `Mix`
nodes on the way to it.  All objects of the tree that is asked count (depth 0); a copy shares with
it the objects inside a `Mix` (depth 1), and a new `Mix` around copies those inside a `Mix` of a
member (depth 2). -/
inductive MayAssign : Nat → GeneratorPtr → Context → Prop
  | cutoff {limit gen ctx a} (ha : Answers gen ctx a) (hoff : a.Offer)
      (hp : a.op.type ≠ .kPending) : MayAssign 0 (.timeLimit limit kInvalidTime gen) ctx
  | nextTime {dt gen ctx a} (ha : Answers gen ctx a) (hoff : a.Offer) :
      MayAssign 0 (.stagger dt kInvalidTime gen) ctx
  | user {leaf calls ctx} : MayAssign 0 (.user leaf calls) ctx
  | listFirst {depth first rest ctx} (h : MayAssign depth first ctx) :
      MayAssign depth (.list (first :: rest)) ctx
  | listRest {depth first rest ctx a first' copy} (ha : Answers first ctx a)
      (hgen : a.gen2 = .nullptr) (hnil : a.op.type = .kNil)
      (hcopy : copyOrNull (a.self :: rest) = .ok (first' :: copy))
      (h : MayAssign (max depth 1) (.list copy) ctx) : MayAssign depth (.list (first :: rest)) ctx
  | validate {depth gen ctx} (h : MayAssign depth gen ctx) : MayAssign depth (.validate gen) ctx
  | onThreads {depth gen filter ctx} (h : MayAssign depth gen (onThreadsContext filter ctx)) :
      MayAssign depth (.onThreads gen filter) ctx
  | timeLimit {depth limit cutoff gen ctx} (h : MayAssign depth gen ctx) :
      MayAssign depth (.timeLimit limit cutoff gen) ctx
  | stagger {depth dt next_time gen ctx} (h : MayAssign depth gen ctx) :
      MayAssign depth (.stagger dt next_time gen) ctx
  | mixMember {depth idx} {gens : List GeneratorPtr} {gen ctx} (hgen : gens[idx]? = some gen)
      (h : MayAssign (depth - 1) gen ctx) : MayAssign depth (.mix idx gens) ctx
  | mixRest {depth idx} {gens : List GeneratorPtr} {gen ctx a copy idx'}
      (hgen : gens[idx]? = some gen) (ha : Answers gen ctx a) (hoff : ¬ a.Offer)
      (hcopy : copyEach (gens.eraseIdx idx) = .ok copy)
      (h : MayAssign (max depth 2) (.mix idx' copy) ctx) : MayAssign depth (.mix idx gens) ctx
  | any {depth} {gens : List GeneratorPtr} {gen ctx} (hgen : gen ∈ gens)
      (h : MayAssign depth gen ctx) : MayAssign depth (.any gens) ctx

/-! ## Copies that were not touched -/

namespace GeneratorPtr

theorem writeBackEach_eq {gs copies : List GeneratorPtr} (hlen : gs.length = copies.length)
    (h : ∀ i (hi : i < gs.length) (hi' : i < copies.length),
      writeBack gs[i] copies[i] = gs[i]) : writeBackEach gs copies = gs := by
  induction gs generalizing copies with
  | nil => rfl
  | cons g gs ih =>
    cases copies with
    | nil => exact absurd hlen (by simp)
    | cons copy copies =>
      have hhead : writeBack g copy = g := h 0 (by simp) (by simp)
      have htail : writeBackEach gs copies = gs := ih (by simpa using hlen) fun i hi hi' ↦
        h (i + 1) (by simpa using hi) (by simpa using hi')
      rw [writeBackEach, List.headD_cons, List.tail_cons, hhead, htail]

/-- A copy whose `Mix` members were left alone writes nothing back. -/
theorem Rebuilt.writeBack_eq {g copy : GeneratorPtr} (h : Rebuilt false true g copy) :
    GeneratorPtr.writeBack g copy = g := by
  induction g generalizing copy with
  | nullptr => rfl
  | operation o => rfl
  | function f => rfl
  | user leaf calls => rfl
  | list gs ih =>
    have hmembers := h.members
    rw [GeneratorPtr.writeBack, writeBackEach_eq hmembers.1 fun i hi hi' ↦
      ih _ (List.getElem_mem hi) (hmembers.2 i hi hi')]
  | any gs ih =>
    have hmembers := h.anyMembers
    rw [GeneratorPtr.writeBack, writeBackEach_eq hmembers.1 fun i hi hi' ↦
      ih _ (List.getElem_mem hi) (hmembers.2 i hi hi')]
  -- where nothing was polled, a `Mix` has not changed
  | mix idx gs ih =>
    cases h with
    | refl => rfl
    | mix hpolled => exact absurd hpolled (by decide)
  | validate g ih => exact congrArg GeneratorPtr.validate (ih h.child)
  | onThreads g filter ih => exact congrArg (GeneratorPtr.onThreads · filter) (ih h.child)
  | timeLimit limit cutoff g ih =>
    exact congrArg (GeneratorPtr.timeLimit limit cutoff) (ih h.child)
  | stagger dt nt g ih => exact congrArg (GeneratorPtr.stagger dt nt) (ih h.child)

theorem writeBackEach_of_rebuilt {gs copies : List GeneratorPtr}
    (h : Pointwise (Rebuilt false true) gs copies) : writeBackEach gs copies = gs :=
  writeBackEach_eq h.1 fun i hi hi' ↦ (h.2 i hi hi').writeBack_eq

end GeneratorPtr

theorem set_getElem?_self {α : Type} {xs : List α} {i : Nat} {x : α} (h : xs[i]? = some x) :
    xs.set i x = xs := by
  obtain ⟨hi, rfl⟩ := List.getElem?_eq_some_iff.mp h
  exact List.set_getElem_self hi

theorem insertIdx_eraseIdx_self {α : Type} {xs : List α} {i : Nat} {x : α} (h : xs[i]? = some x) :
    (xs.eraseIdx i).insertIdx i x = xs := by
  obtain ⟨hi, rfl⟩ := List.getElem?_eq_some_iff.mp h
  exact List.insertIdx_eraseIdx_getElem hi

theorem map_self_eq {gens : List GeneratorPtr} {as : List Answer} (hlen : gens.length = as.length)
    (h : ∀ j (hj : j < gens.length) (hj' : j < as.length), as[j].self = gens[j]) :
    as.map Answer.self = gens :=
  List.ext_getElem (by simp [hlen]) fun j hj hj' ↦ by
    rw [List.getElem_map, h j hj' (by simpa using hj)]

/-! ## Calls that assign nothing -/

/-- A call that may not assign a shared field leaves the tree as it was (depth 0), up to what a copy
may lose anyway (depth 1), also when the tree is a new `Mix` around copies (depth 2). -/
theorem Answers.self_of_not_mayAssign {g : GeneratorPtr} {ctx : Context} {a : Answer}
    (ha : Answers g ctx a) :
    (¬ MayAssign 0 g ctx → a.self = g) ∧ (¬ MayAssign 1 g ctx → Rebuilt false false g a.self) ∧
      (∀ idx gs, g = .mix idx gs → ¬ MayAssign 2 g ctx →
        Pointwise (Rebuilt false false) gs (members a.self)) := by
  induction ha with
  | @listPop first rest ctx a first' copy b ha hgen hnil hcopy hb ih₁ ih₂ =>
    have hrest := (GeneratorPtr.copyOrNull_rebuilt false hcopy).tail
    have hshared (depth : Nat) (hd : max depth 1 = 1)
        (h : ¬ MayAssign depth (.list (first :: rest)) ctx) :
        writeBackEach rest (members b.self) = rest := by
      have hself : Rebuilt false false (.list copy) b.self :=
        ih₂.2.1 fun hc ↦ h (.listRest ha hgen hnil hcopy (by rwa [hd]))
      exact GeneratorPtr.writeBackEach_of_rebuilt
        (GeneratorPtr.pointwise_rebuilt_trans hrest hself.members)
    refine ⟨fun h ↦ ?_, fun h ↦ ?_, fun _ _ heq ↦ by cases heq⟩
    · rw [hshared 0 rfl h, ih₁.1 fun hc ↦ h (.listFirst hc)]
    · rw [hshared 1 rfl h]
      exact .ofList (.cons (ih₁.2.1 fun hc ↦ h (.listFirst hc)) (.refl .refl _))
  | listFront _ _ _ _ ih =>
    refine ⟨fun h ↦ ?_, fun h ↦ ?_, fun _ _ heq ↦ by cases heq⟩
    · rw [ih.1 fun hc ↦ h (.listFirst hc)]
    · exact .ofList (.cons (ih.2.1 fun hc ↦ h (.listFirst hc)) (.refl .refl _))
  | listSingle _ _ ih =>
    refine ⟨fun h ↦ ?_, fun h ↦ ?_, fun _ _ heq ↦ by cases heq⟩
    · rw [ih.1 fun hc ↦ h (.listFirst hc)]
    · exact .ofList (.cons (ih.2.1 fun hc ↦ h (.listFirst hc)) .nil)
  | validate _ _ ih | validateLast _ _ ih =>
    refine ⟨fun h ↦ ?_, fun h ↦ ?_, fun _ _ heq ↦ by cases heq⟩
    · rw [ih.1 fun hc ↦ h (.validate hc)]
    · exact .validate (ih.2.1 fun hc ↦ h (.validate hc))
  | onThreads _ _ ih | onThreadsNil _ _ ih =>
    refine ⟨fun h ↦ ?_, fun h ↦ ?_, fun _ _ heq ↦ by cases heq⟩
    · simp only [nil, ih.1 fun hc ↦ h (.onThreads hc)]
    · exact .onThreads (ih.2.1 fun hc ↦ h (.onThreads hc))
  | timeLimitPending _ _ _ ih | timeLimitNil _ _ ih =>
    refine ⟨fun h ↦ ?_, fun h ↦ ?_, fun _ _ heq ↦ by cases heq⟩
    · simp only [nil, ih.1 fun hc ↦ h (.timeLimit hc)]
    · exact .timeLimit (ih.2.1 fun hc ↦ h (.timeLimit hc))
  | @timeLimit limit cutoff gen ctx a cutoff' ha hoff hp hcut _ ih
  | @timeLimitOver limit cutoff gen ctx a cutoff' ha hoff hp hcut _ ih =>
    refine ⟨fun h ↦ ?_, fun h ↦ ?_, fun _ _ heq ↦ by cases heq⟩
    · have hset : cutoff ≠ kInvalidTime := by
        rintro rfl
        exact h (.cutoff ha hoff hp)
      simp only [nil, ih.1 fun hc ↦ h (.timeLimit hc), hcut, TimeLimit.fix_of_ne hset]
    · exact .timeLimit (ih.2.1 fun hc ↦ h (.timeLimit hc))
  | @staggerPending dt next_time gen ctx a next_time' ha hoff _ hnext ih
  | @stagger dt next_time gen ctx a next_time' ha hoff _ hnext _ ih =>
    refine ⟨fun h ↦ ?_, fun h ↦ ?_, fun _ _ heq ↦ by cases heq⟩
    · have hset : next_time ≠ kInvalidTime := by
        rintro rfl
        exact h (.nextTime ha hoff)
      simp only [ih.1 fun hc ↦ h (.stagger hc), hnext, Stagger.fix_of_ne hset]
    · exact .stagger (ih.2.1 fun hc ↦ h (.stagger hc))
  | staggerNil _ _ ih =>
    refine ⟨fun h ↦ ?_, fun h ↦ ?_, fun _ _ heq ↦ by cases heq⟩
    · simp only [nil, ih.1 fun hc ↦ h (.stagger hc)]
    · exact .stagger (ih.2.1 fun hc ↦ h (.stagger hc))
  | @mix idx gens gen ctx a copy idx' hgen _ _ _ ih =>
    refine ⟨fun h ↦ ?_, fun h ↦ ?_, fun _ _ heq h ↦ ?_⟩
    · simp only [ih.1 fun hc ↦ h (.mixMember hgen hc), set_getElem?_self hgen]
    · simp only [ih.1 fun hc ↦ h (.mixMember hgen hc), set_getElem?_self hgen]
      exact .refl _
    · obtain ⟨rfl, rfl⟩ := GeneratorPtr.mix.inj heq
      exact .set .refl hgen (ih.2.1 fun hc ↦ h (.mixMember hgen hc))
  | @mixDrop idx gens gen ctx a copy idx' b hgen ha hoff hcopy hb ih₁ ih₂ =>
    have hcopied := GeneratorPtr.copyEach_rebuilt false hcopy
    have hshared (depth : Nat) (hd : max depth 2 = 2) (h : ¬ MayAssign depth (.mix idx gens) ctx) :
        writeBackEach (gens.eraseIdx idx) (members b.self) = gens.eraseIdx idx := by
      have hself : Pointwise (Rebuilt false false) copy (members b.self) := by
        refine ih₂.2.2 idx' copy rfl fun hc ↦ ?_
        rw [← hd] at hc
        exact h (.mixRest hgen ha hoff hcopy hc)
      exact GeneratorPtr.writeBackEach_of_rebuilt
        (GeneratorPtr.pointwise_rebuilt_trans hcopied hself)
    refine ⟨fun h ↦ ?_, fun h ↦ ?_, fun _ _ heq h ↦ ?_⟩
    · simp only [hshared 0 rfl h, ih₁.1 fun hc ↦ h (.mixMember hgen hc),
        insertIdx_eraseIdx_self hgen]
    · simp only [hshared 1 rfl h, ih₁.1 fun hc ↦ h (.mixMember hgen hc),
        insertIdx_eraseIdx_self hgen]
      exact .refl _
    · obtain ⟨rfl, rfl⟩ := GeneratorPtr.mix.inj heq
      simp only [hshared 2 rfl h]
      exact .insertIdx hgen (ih₁.2.1 fun hc ↦ h (.mixMember hgen hc)) (.refl .refl _)
  | any hlen _ _ _ ih | anyNil hlen _ _ ih =>
    refine ⟨fun h ↦ ?_, fun h ↦ ?_, fun _ _ heq ↦ by cases heq⟩
    · simp only [nil, map_self_eq hlen fun j hj hj' ↦
        (ih j hj hj').1 fun hc ↦ h (.any (List.getElem_mem hj) hc)]
    · exact .ofAny (Pointwise.map_right.mpr ⟨hlen, fun j hj hj' ↦
        (ih j hj hj').2.1 fun hc ↦ h (.any (List.getElem_mem hj) hc)⟩)
  | userNil | user =>
    exact ⟨fun h ↦ absurd .user h, fun _ ↦ .user, fun _ _ heq ↦ by cases heq⟩
  | mixEmpty => exact ⟨fun _ ↦ rfl, fun _ ↦ .refl _, fun _ _ heq _ ↦ by cases heq; exact .nil⟩
  | _ => exact ⟨fun _ ↦ rfl, fun _ ↦ .refl _, fun _ _ heq ↦ by cases heq⟩

/-! ## Trees whose times are set -/

/-- No object inside at least `depth` of the `Mix` nodes on the way to it is a `TimeLimit` or
`Stagger` that waits for its first offer, or a user's leaf. -/
inductive Settled : Nat → GeneratorPtr → Prop
  | nullptr {depth} : Settled depth .nullptr
  | operation {depth o} : Settled depth (.operation o)
  | function {depth f} : Settled depth (.function f)
  | list {depth gs} (h : ∀ g ∈ gs, Settled depth g) : Settled depth (.list gs)
  | validate {depth g} (h : Settled depth g) : Settled depth (.validate g)
  | onThreads {depth g filter} (h : Settled depth g) : Settled depth (.onThreads g filter)
  | timeLimit {depth limit cutoff g} (hcut : depth = 0 → cutoff ≠ kInvalidTime)
      (h : Settled depth g) : Settled depth (.timeLimit limit cutoff g)
  | stagger {depth dt next_time g} (hnext : depth = 0 → next_time ≠ kInvalidTime)
      (h : Settled depth g) : Settled depth (.stagger dt next_time g)
  | mix {depth idx gs} (h : ∀ g ∈ gs, Settled (depth - 1) g) : Settled depth (.mix idx gs)
  | any {depth gs} (h : ∀ g ∈ gs, Settled depth g) : Settled depth (.any gs)
  | user {depth leaf calls} (hdepth : depth ≠ 0) : Settled depth (.user leaf calls)

namespace Settled

theorem mono {depth depth' : Nat} {g : GeneratorPtr} (h : Settled depth g) (hle : depth ≤ depth') :
    Settled depth' g := by
  induction h generalizing depth' with
  | nullptr => exact .nullptr
  | operation => exact .operation
  | function => exact .function
  | list _ ih => exact .list fun g hg ↦ ih g hg hle
  | validate _ ih => exact .validate (ih hle)
  | onThreads _ ih => exact .onThreads (ih hle)
  | timeLimit hcut _ ih => exact .timeLimit (fun h ↦ hcut (by omega)) (ih hle)
  | stagger hnext _ ih => exact .stagger (fun h ↦ hnext (by omega)) (ih hle)
  | mix _ ih => exact .mix fun g hg ↦ ih g hg (by omega)
  | any _ ih => exact .any fun g hg ↦ ih g hg hle
  | user hdepth => exact .user (by omega)

/-- What a copy loses is not inside a `Mix`. -/
theorem rebuilt {depth : Nat} {copied : Bool} {g g' : GeneratorPtr} (hr : Rebuilt false copied g g')
    (h : Settled depth g) (hdepth : 1 ≤ depth) : Settled depth g' := by
  induction hr with
  | refl => exact h
  | emptyList | timeLimitNull | staggerNull => exact .nullptr
  | list hlen _ ih =>
    cases h with
    | list h =>
      exact .list (Pointwise.forall_mem_of_getElem hlen ih h)
  | validate _ ih => cases h with | validate h => exact .validate (ih h)
  | onThreads _ ih => cases h with | onThreads h => exact .onThreads (ih h)
  | timeLimit _ ih => cases h with | timeLimit _ h => exact .timeLimit (by omega) (ih h)
  | stagger _ ih => cases h with | stagger _ h => exact .stagger (by omega) (ih h)
  | mix hpolled => exact absurd hpolled (by decide)
  | any hlen _ ih =>
    cases h with
    | any h =>
      exact .any (Pointwise.forall_mem_of_getElem hlen ih h)
  | user => exact .user (by omega)

theorem forall_rebuilt {depth : Nat} {gs gs' : List GeneratorPtr}
    (hr : Pointwise (Rebuilt false true) gs gs') (h : ∀ g ∈ gs, Settled depth g)
    (hdepth : 1 ≤ depth) : ∀ g ∈ gs', Settled depth g := by
  intro g' hg'
  obtain ⟨g, hg, hgg'⟩ := hr.exists_left hg'
  exact (h g hg).rebuilt hgg' hdepth

/-- In a settled tree no call assigns anything, in any context. -/
theorem not_mayAssign {depth : Nat} {g : GeneratorPtr} (h : Settled depth g) (ctx : Context) :
    ¬ MayAssign depth g ctx := by
  intro ha
  induction ha with
  | cutoff => cases h with | timeLimit hcut => exact hcut rfl rfl
  | nextTime => cases h with | stagger hnext => exact hnext rfl rfl
  | user => cases h with | user hdepth => exact hdepth rfl
  | listFirst _ ih => cases h with | list h => exact ih (h _ (by simp))
  | @listRest depth first rest ctx a first' copy _ _ _ hcopy _ ih =>
    cases h with
    | list h =>
      have hrest := (GeneratorPtr.copyOrNull_rebuilt false hcopy).tail
      -- At depth 1 or more a copy is as settled as what it is a copy of.
      refine ih (.list (forall_rebuilt hrest (fun g hg ↦ ?_) (by omega)))
      exact (h g (List.mem_cons_of_mem _ hg)).mono (by omega)
  | validate _ ih => cases h with | validate h => exact ih h
  | onThreads _ ih => cases h with | onThreads h => exact ih h
  | timeLimit _ ih => cases h with | timeLimit _ h => exact ih h
  | stagger _ ih => cases h with | stagger _ h => exact ih h
  | mixMember hgen _ ih => cases h with | mix h => exact ih (h _ (List.mem_of_getElem? hgen))
  | mixRest hgen _ _ hcopy _ ih =>
    cases h with
    | mix h =>
      have hcopied := GeneratorPtr.copyEach_rebuilt false hcopy
      refine ih (.mix (forall_rebuilt hcopied (fun g hg ↦ ?_) (by omega)))
      exact (h g (List.mem_of_mem_eraseIdx hg)).mono (by omega)
  | any hgen _ ih => cases h with | any h => exact ih (h _ hgen)

end Settled

/-! ## Asking again -/

/-- What the caller of `generator::op` gets.  The receiver, as the call leaves it, is not part
of it. -/
def returned (r : Except Fault (Answer × Draws)) : Except Fault (Operation × GeneratorPtr) :=
  r.map fun p ↦ (p.1.op, p.1.gen2)

/-- Whatever `g` answered in `c₁`, discarding it has no effect on what `g` answers in `c₂`. -/
def Discardable (g : GeneratorPtr) (c₁ c₂ : Context) : Prop :=
  ∀ n d₁ a d₁', op n g c₁ d₁ = .ok (a, d₁') →
    ∀ m d₂, returned (op m a.self c₂ d₂) = returned (op m g c₂ d₂)

theorem discardable_of_not_mayAssign {g : GeneratorPtr} {c₁ : Context} (h : ¬ MayAssign 0 g c₁)
    (c₂ : Context) : Discardable g c₁ c₂ := by
  intro n d₁ a d₁' ha m d₂
  rw [(op_answers n g c₁ d₁ a d₁' ha).self_of_not_mayAssign.1 h]

/-- `gen` offers `b₁` in the first call, which leaves it as it was, and answers `b₂` in the
second. -/
structure AskedTwice (n : Nat) (gen : GeneratorPtr) (c₁ c₂ : Context) (d₁ d₂ : Draws)
    (b₁ b₂ : Answer) : Prop where
  quiet : ¬ MayAssign 0 gen c₁
  first : ∃ e, op n gen c₁ d₁ = .ok (b₁, e)
  second : ∃ e, op n gen c₂ d₂ = .ok (b₂, e)
  offer : b₁.Offer

section

variable {n : Nat} {gen : GeneratorPtr} {ctx : Context} {draws e e' : Draws} {a b : Answer}

theorem timeLimit_returned {limit cutoff : Int} (hb : op n gen ctx draws = .ok (b, e)) :
    returned (op (n + 1) (.timeLimit limit cutoff gen) ctx draws) =
      .ok (if b.Offer then
        if b.op.type = .kPending then (b.op, .timeLimit limit cutoff b.gen2)
        else if b.op.time < TimeLimit.fix limit cutoff b.op.time then
          (b.op, .timeLimit limit (TimeLimit.fix limit cutoff b.op.time) b.gen2)
        else ({ type := .kNil }, .nullptr)
      else ({ type := .kNil }, .nullptr)) := by
  have heq : op (n + 1) (.timeLimit limit cutoff gen) ctx draws = _ := Eval.bind_apply_ok hb
  rw [heq]
  by_cases hoff : notNil b.op b.gen2 = true
  · rw [if_pos hoff, if_pos (show b.Offer from hoff)]
    split
    · rfl
    · dsimp only
      split <;> rfl
  · rw [if_neg hoff, if_neg (show ¬ b.Offer from hoff)]
    rfl

theorem stagger_returned {dt next_time : Int} (hb : op n gen ctx draws = .ok (b, e)) :
    returned (op (n + 1) (.stagger dt next_time gen) ctx draws) =
      if b.Offer then
        if b.op.type = .kPending then
          .ok (b.op, .stagger dt (Stagger.fix next_time ctx.time) b.self)
        else if dt = 0 then .error .divisionByZero
        else .ok ({ b.op with time := max (Stagger.fix next_time ctx.time) b.op.time },
          .stagger dt kInvalidTime b.gen2)
      else .ok ({ type := .kNil }, .nullptr) := by
  have heq : op (n + 1) (.stagger dt next_time gen) ctx draws = _ := Eval.bind_apply_ok hb
  rw [heq]
  by_cases hoff : notNil b.op b.gen2 = true
  · rw [if_pos hoff, if_pos (show b.Offer from hoff)]
    dsimp only
    split
    · rfl
    · rw [Eval.bind_apply_ok (rand_eq_ok.mpr rfl)]
      split <;> rfl
  · rw [if_neg hoff, if_neg (show ¬ b.Offer from hoff)]
    rfl

/-- What a `TimeLimit` is after its generator offered a real operation. -/
theorem timeLimit_self {limit cutoff : Int} (hb : op n gen ctx draws = .ok (b, e)) (hoff : b.Offer)
    (hp : b.op.type ≠ .kPending)
    (ha : op (n + 1) (.timeLimit limit cutoff gen) ctx draws = .ok (a, e')) :
    a.self = .timeLimit limit (TimeLimit.fix limit cutoff b.op.time) b.self := by
  have heq : op (n + 1) (.timeLimit limit cutoff gen) ctx draws = _ := Eval.bind_apply_ok hb
  rw [heq, if_pos (show notNil b.op b.gen2 = true from hoff), if_neg hp] at ha
  split at ha
  · exact congrArg Answer.self (pure_answer ha).symm
  · exact congrArg Answer.self (pure_answer ha).symm

/-- What a `Stagger` is after its generator offered an operation. -/
theorem stagger_self {dt next_time : Int} (hb : op n gen ctx draws = .ok (b, e)) (hoff : b.Offer)
    (ha : op (n + 1) (.stagger dt next_time gen) ctx draws = .ok (a, e')) :
    a.self = .stagger dt (Stagger.fix next_time ctx.time) b.self := by
  have heq : op (n + 1) (.stagger dt next_time gen) ctx draws = _ := Eval.bind_apply_ok hb
  rw [heq, if_pos (show notNil b.op b.gen2 = true from hoff)] at ha
  dsimp only at ha
  split at ha
  · exact congrArg Answer.self (pure_answer ha).symm
  · rw [Eval.bind_apply_ok (rand_eq_ok.mpr rfl)] at ha
    split at ha
    · exact absurd ha (by simp)
    · exact congrArg Answer.self (pure_answer ha).symm

end

section

variable {n : Nat} {gen : GeneratorPtr} {c₁ c₂ : Context} {d₁ d₂ e : Draws} {a b₁ b₂ : Answer}

theorem AskedTwice.self_eq (h : AskedTwice n gen c₁ c₂ d₁ d₂ b₁ b₂) : b₁.self = gen := by
  obtain ⟨e, he⟩ := h.first
  exact (op_answers n gen c₁ d₁ b₁ e he).self_of_not_mayAssign.1 h.quiet

/-- The times for which a cutoff set by a discarded operation at `t₁` goes unnoticed by an operation
at `t₂`. -/
theorem timeLimit_fix_agree_iff {limit t₁ t₂ : Int} {o : Operation} {gen2 : GeneratorPtr} :
    ((if t₂ < t₁ + limit then (o, GeneratorPtr.timeLimit limit (t₁ + limit) gen2)
      else ({ type := .kNil }, .nullptr)) =
      if t₂ < t₂ + limit then (o, GeneratorPtr.timeLimit limit (t₂ + limit) gen2)
      else ({ type := .kNil }, .nullptr)) ↔
      t₁ = t₂ ∨ limit ≤ 0 ∧ t₁ + limit ≤ t₂ := by
  by_cases hlt : t₂ < t₁ + limit
  · rw [if_pos hlt]
    by_cases hlimit : limit ≤ 0
    · rw [if_neg (show ¬ t₂ < t₂ + limit by omega)]
      simp only [Prod.mk.injEq, reduceCtorEq, and_false, false_iff]
      omega
    · rw [if_pos (show t₂ < t₂ + limit by omega)]
      simp only [Prod.mk.injEq, GeneratorPtr.timeLimit.injEq, true_and, and_true]
      omega
  · rw [if_neg hlt]
    by_cases hlimit : limit ≤ 0
    · rw [if_neg (show ¬ t₂ < t₂ + limit by omega)]
      simp only [true_iff]
      omega
    · rw [if_pos (show t₂ < t₂ + limit by omega)]
      simp only [Prod.mk.injEq, reduceCtorEq, and_false, false_iff]
      omega

/-- A `TimeLimit` that waits for its first operation, asked twice: the real operation that was
discarded goes unnoticed exactly when the second answer is no offer, or a real one that has the same
time or comes after both cutoffs (or when the cutoff becomes the mark for an unset one). -/
theorem timeLimit_discard_iff {limit : Int} (h : AskedTwice n gen c₁ c₂ d₁ d₂ b₁ b₂)
    (hp : b₁.op.type ≠ .kPending)
    (ha : op (n + 1) (.timeLimit limit kInvalidTime gen) c₁ d₁ = .ok (a, e)) :
    returned (op (n + 1) a.self c₂ d₂) =
        returned (op (n + 1) (.timeLimit limit kInvalidTime gen) c₂ d₂) ↔
      ¬ b₂.Offer ∨ b₁.op.time + limit = kInvalidTime ∨ b₂.op.type ≠ .kPending ∧
        (b₁.op.time = b₂.op.time ∨ limit ≤ 0 ∧ b₁.op.time + limit ≤ b₂.op.time) := by
  obtain ⟨e₁, h₁⟩ := h.first
  obtain ⟨e₂, h₂⟩ := h.second
  rw [timeLimit_self h₁ h.offer hp ha, h.self_eq, timeLimit_returned h₂, timeLimit_returned h₂]
  have hfix (t : Int) : TimeLimit.fix limit kInvalidTime t = t + limit := if_pos rfl
  rw [hfix, hfix, Except.ok.injEq]
  by_cases hoff : b₂.Offer
  · rw [if_pos hoff, if_pos hoff]
    by_cases hmark : b₁.op.time + limit = kInvalidTime
    · rw [hmark, hfix]
      simp
    · rw [TimeLimit.fix_of_ne hmark]
      by_cases hp₂ : b₂.op.type = .kPending
      · rw [if_pos hp₂, if_pos hp₂]
        simp [hoff, hmark, hp₂]
      · rw [if_neg hp₂, if_neg hp₂, timeLimit_fix_agree_iff]
        simp [hoff, hmark, hp₂]
  · simp [hoff]

/-- The same for a `Stagger`, whose `next_time` is set by any offer. -/
theorem stagger_discard_iff {dt : Int} (h : AskedTwice n gen c₁ c₂ d₁ d₂ b₁ b₂)
    (ha : op (n + 1) (.stagger dt kInvalidTime gen) c₁ d₁ = .ok (a, e)) :
    returned (op (n + 1) a.self c₂ d₂) =
        returned (op (n + 1) (.stagger dt kInvalidTime gen) c₂ d₂) ↔
      ¬ b₂.Offer ∨ c₁.time = kInvalidTime ∨
        if b₂.op.type = .kPending then c₁.time = c₂.time
        else dt = 0 ∨ max c₁.time b₂.op.time = max c₂.time b₂.op.time := by
  obtain ⟨e₁, h₁⟩ := h.first
  obtain ⟨e₂, h₂⟩ := h.second
  rw [stagger_self h₁ h.offer ha, h.self_eq, stagger_returned h₂, stagger_returned h₂]
  have hfix (t : Int) : Stagger.fix kInvalidTime t = t := if_pos rfl
  rw [hfix, hfix]
  by_cases hoff : b₂.Offer
  · rw [if_pos hoff, if_pos hoff]
    by_cases hmark : c₁.time = kInvalidTime
    · rw [hmark, hfix]
      simp
    · rw [Stagger.fix_of_ne hmark]
      by_cases hp₂ : b₂.op.type = .kPending
      · rw [if_pos hp₂, if_pos hp₂, if_pos hp₂]
        simp [hoff, hmark]
      · rw [if_neg hp₂, if_neg hp₂, if_neg hp₂]
        by_cases hdt : dt = 0
        · simp [hdt]
        · rw [if_neg hdt, if_neg hdt]
          simp [hoff, hmark, hdt]
  · simp [hoff]

end

/-- Discarding an answer has no effect when the call assigns nothing, and at a `TimeLimit` or
`Stagger` that does assign its own field, it has none exactly when the second call agrees on the
time. -/
theorem discard_no_effect_unless_assigned (c₁ c₂ : Context) :
    (∀ g, ¬ MayAssign 0 g c₁ → Discardable g c₁ c₂) ∧
    (∀ n gen d₁ d₂ b₁ b₂ limit a e, AskedTwice n gen c₁ c₂ d₁ d₂ b₁ b₂ →
      b₁.op.type ≠ .kPending →
      op (n + 1) (.timeLimit limit kInvalidTime gen) c₁ d₁ = .ok (a, e) →
      (returned (op (n + 1) a.self c₂ d₂) =
          returned (op (n + 1) (.timeLimit limit kInvalidTime gen) c₂ d₂) ↔
        ¬ b₂.Offer ∨ b₁.op.time + limit = kInvalidTime ∨ b₂.op.type ≠ .kPending ∧
          (b₁.op.time = b₂.op.time ∨ limit ≤ 0 ∧ b₁.op.time + limit ≤ b₂.op.time))) ∧
    (∀ n gen d₁ d₂ b₁ b₂ dt a e, AskedTwice n gen c₁ c₂ d₁ d₂ b₁ b₂ →
      op (n + 1) (.stagger dt kInvalidTime gen) c₁ d₁ = .ok (a, e) →
      (returned (op (n + 1) a.self c₂ d₂) =
          returned (op (n + 1) (.stagger dt kInvalidTime gen) c₂ d₂) ↔
        ¬ b₂.Offer ∨ c₁.time = kInvalidTime ∨
          if b₂.op.type = .kPending then c₁.time = c₂.time
          else dt = 0 ∨ max c₁.time b₂.op.time = max c₂.time b₂.op.time)) :=
  ⟨fun _ h ↦ discardable_of_not_mayAssign h c₂,
    fun _ _ _ _ _ _ _ _ _ h hp ha ↦ timeLimit_discard_iff h hp ha,
    fun _ _ _ _ _ _ _ _ _ h ha ↦ stagger_discard_iff h ha⟩

/-! ## Two reads under a time limit -/

def twoReads : GeneratorPtr :=
  createGenerator [OperationFactory.read .null, OperationFactory.read .null]

def clientFree (seconds : Int) : Context := .oneClient (sec2nanos seconds)

/-- The answer of `twoReads` to `clientFree seconds`. -/
def firstRead (seconds : Int) : Answer :=
  ⟨{ OperationFactory.read .null with process := 0, time := sec2nanos seconds },
    .list [.nullptr, .operation (OperationFactory.read .null)], twoReads⟩

theorem settled_twoReads : Settled 0 twoReads := by
  refine .list fun g hg ↦ ?_
  obtain ⟨o, -, rfl⟩ := List.mem_map.mp hg
  exact .operation

theorem askedTwice_twoReads :
    AskedTwice 2 twoReads (clientFree 1) (clientFree 20) (fun _ ↦ 0) (fun _ ↦ 0)
      (firstRead 1) (firstRead 20) :=
  ⟨settled_twoReads.not_mayAssign _, ⟨_, rfl⟩, ⟨_, rfl⟩, by decide⟩

theorem discard_no_effect_unless_assigned_twoReads :
    Discardable twoReads (clientFree 1) (clientFree 20) ∧
    returned (op 3 (.timeLimit (sec2nanos 10) (sec2nanos 11) twoReads) (clientFree 20) fun _ ↦ 0) ≠
      returned (op 3 (.timeLimit (sec2nanos 10) kInvalidTime twoReads) (clientFree 20) fun _ ↦ 0) ∧
    returned (op 3 (.stagger 10 (sec2nanos 1) twoReads) (clientFree 20) fun _ ↦ 0) =
      returned (op 3 (.stagger 10 kInvalidTime twoReads) (clientFree 20) fun _ ↦ 0) := by
  have h := discard_no_effect_unless_assigned (clientFree 1) (clientFree 20)
  have hlimit := h.2.1 _ _ _ _ _ _ (sec2nanos 10) _ _ askedTwice_twoReads (by decide) rfl
  have hstagger := h.2.2 _ _ _ _ _ _ 10 _ _ askedTwice_twoReads rfl
  exact ⟨h.1 _ (settled_twoReads.not_mayAssign _), hlimit.not.mpr (by decide),
    hstagger.mpr (by decide)⟩

/-- `timeLimit(10, ..)` asked after 1 s sets its cutoff to 11 s, although the read it answers is
thrown away; asked again after 20 s it is exhausted. -/
theorem timeLimit_poll_sets_cutoff :
    (clientFree 1).time ≤ (clientFree 20).time ∧
      ¬ Discardable (timeLimit 10 twoReads) (clientFree 1) (clientFree 20) := by
  refine ⟨by decide, fun h ↦ ?_⟩
  have heq := h 3 (fun _ ↦ 0) _ _ rfl 3 (fun _ ↦ 0)
  have hasked : returned (op 3 (.timeLimit (sec2nanos 10) (sec2nanos 11) twoReads) (clientFree 20)
      fun _ ↦ 0) = .ok ({ type := .kNil }, .nullptr) := rfl
  have hfresh : returned (op 3 (timeLimit 10 twoReads) (clientFree 20) fun _ ↦ 0) =
      .ok ((firstRead 20).op, .timeLimit (sec2nanos 10) (sec2nanos 30) (firstRead 20).gen2) := rfl
  have hgen : GeneratorPtr.nullptr = .timeLimit _ _ _ :=
    congrArg Prod.snd (Except.ok.inj (hasked.symm.trans (heq.trans hfresh)))
  exact absurd hgen (by simp)

end Jepsen
