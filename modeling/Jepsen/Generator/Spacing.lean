import Jepsen.Generator.Discard
import Jepsen.Generator.Leaves
import Jepsen.Library.Transition
import Mathlib.Algebra.BigOperators.Group.List.Basic
import Mathlib.Algebra.Ring.Int.Defs

/-!
# The spacing of a `Stagger`

`stagger` is to schedule each operation no earlier than the delays drawn before it allow.  Its
`next_time` is uninitialised in a new node and open again in each successor, so no delay is ever
carried over: an operation has the scheduled time only if its inner generator gave it that time.
-/

namespace Jepsen

open Library GeneratorFactory
open GeneratorPtr (update Rebuilt)

/-! ## Inner generators that answer at once -/

/-- No `Stagger` occurs in a tree. -/
inductive Unstaggered : GeneratorPtr → Prop
  | nullptr : Unstaggered .nullptr
  | operation {o} : Unstaggered (.operation o)
  | function {f} : Unstaggered (.function f)
  | list {gs} (h : ∀ g ∈ gs, Unstaggered g) : Unstaggered (.list gs)
  | validate {g} (h : Unstaggered g) : Unstaggered (.validate g)
  | onThreads {g filter} (h : Unstaggered g) : Unstaggered (.onThreads g filter)
  | timeLimit {limit cutoff g} (h : Unstaggered g) : Unstaggered (.timeLimit limit cutoff g)
  | mix {idx gs} (h : ∀ g ∈ gs, Unstaggered g) : Unstaggered (.mix idx gs)
  | any {gs} (h : ∀ g ∈ gs, Unstaggered g) : Unstaggered (.any gs)
  | user {leaf calls} : Unstaggered (.user leaf calls)

theorem Unstaggered.rebuilt {polled copied : Bool} {g g' : GeneratorPtr}
    (hr : Rebuilt polled copied g g') (h : Unstaggered g) : Unstaggered g' := by
  induction hr with
  | refl => exact h
  | emptyList | timeLimitNull | staggerNull => exact .nullptr
  | list hlen _ ih =>
    cases h with
    | list h =>
      exact .list (Pointwise.forall_mem_of_getElem hlen ih h)
  | validate _ ih => cases h with | validate h => exact .validate (ih h)
  | onThreads _ ih => cases h with | onThreads h => exact .onThreads (ih h)
  | timeLimit _ ih => cases h with | timeLimit h => exact .timeLimit (ih h)
  | stagger _ ih => cases h
  | mix _ hlen _ ih =>
    cases h with
    | mix h =>
      exact .mix (Pointwise.forall_mem_of_getElem hlen ih h)
  | any hlen _ ih =>
    cases h with
    | any h =>
      exact .any (Pointwise.forall_mem_of_getElem hlen ih h)
  | user => exact .user

theorem forall_unstaggered_rebuilt {gs gs' : List GeneratorPtr}
    (hr : Pointwise (Rebuilt true true) gs gs') (h : ∀ g ∈ gs, Unstaggered g) :
    ∀ g ∈ gs', Unstaggered g :=
  hr.forall_mem (fun _ _ ↦ Unstaggered.rebuilt) h

theorem MayFill.time_eq {ctx : Context} {o r : Operation} (h : MayFill ctx o r) (ho : o.time = 0)
    (hr : r.type ≠ .kPending) : r.time = ctx.time := by
  obtain ⟨p, -, rfl⟩ := h
  by_cases hp : p = kInvalidProcess
  · exact absurd (by simp [fillIn, hp]) hr
  · simp [fillIn, hp, ho]

/-- Without a `Stagger` a real operation has the time of the request. -/
theorem Answers.time_eq {g : GeneratorPtr} {ctx : Context} {a : Answer} (ha : Answers g ctx a)
    {path : List ThreadFilter} (h : AllLeaves Untimed path g) (hg : Unstaggered g) :
    (a.op.Real → a.op.time = ctx.time) ∧ Unstaggered a.gen2 := by
  have hnil : ¬ Operation.Real { type := .kNil } := by decide
  induction ha generalizing path with
  | nullptr | listEmpty | onThreadsNil | timeLimitOver | timeLimitNil | mixEmpty | anyNil
  | userNil => exact ⟨fun hr ↦ absurd hr hnil, .nullptr⟩
  | pending _ hp => exact ⟨fun hr ↦ absurd hp hr.2, .operation⟩
  -- the leaf has no time of its own, and gets the one of the context
  | operation hfill hp =>
    cases h with | operation ho => exact ⟨fun _ ↦ hfill.time_eq ho hp, .nullptr⟩
  | @function f ctx k a _ ih =>
    cases h with
    | function h =>
      exact ih (.list (by simpa using ⟨.operation (h ctx k), .function h⟩))
        (.list (by simpa using ⟨.operation, .function⟩))
  | listPop ha _ _ hcopy _ _ ih₂ =>
    cases h with
    | list h =>
      cases hg with
      | list hg =>
        have hrest := (GeneratorPtr.copyOrNull_rebuilt true hcopy).tail
        exact ih₂ (.list (AllLeaves.forall_rebuilt hrest (List.forall_mem_cons.mp h).2))
          (.list (forall_unstaggered_rebuilt hrest (List.forall_mem_cons.mp hg).2))
  | listFront ha _ hcopy _ ih =>
    cases h with
    | list h =>
      cases hg with
      | list hg =>
        obtain ⟨htime, hgen2⟩ := ih (List.forall_mem_cons.mp h).1 (List.forall_mem_cons.mp hg).1
        have hrest := (GeneratorPtr.copyOrNull_rebuilt true hcopy).tail
        exact ⟨htime, .list (List.forall_mem_cons.mpr
          ⟨hgen2, forall_unstaggered_rebuilt hrest (List.forall_mem_cons.mp hg).2⟩)⟩
  | listSingle _ _ ih =>
    cases h with
    | list h =>
      cases hg with
      | list hg => exact ih (h _ (by simp)) (hg _ (by simp))
  | validate _ _ ih =>
    cases h with
    | validate h =>
      cases hg with
      | validate hg => exact ⟨(ih h hg).1, .validate (ih h hg).2⟩
  | validateLast _ _ ih =>
    cases h with
    | validate h =>
      cases hg with
      | validate hg => exact ih h hg
  | onThreads _ _ ih =>
    cases h with
    | onThreads h =>
      cases hg with
      | onThreads hg => exact ⟨(ih h hg).1, .onThreads (ih h hg).2⟩
  | timeLimitPending _ _ _ ih | timeLimit _ _ _ _ _ ih =>
    cases h with
    | timeLimit h =>
      cases hg with
      | timeLimit hg => exact ⟨(ih h hg).1, .timeLimit (ih h hg).2⟩
  -- there is no `Stagger` inside
  | staggerPending | stagger | staggerNil => cases hg
  | @mix idx _ _ _ _ _ _ hgen ha _ hcopy ih =>
    cases h with
    | mix h =>
      cases hg with
      | mix hg =>
        have hmem := List.mem_of_getElem? hgen
        obtain ⟨htime, hgen2⟩ := ih (h _ hmem) (hg _ hmem)
        have hcopied := forall_unstaggered_rebuilt (GeneratorPtr.copyEach_rebuilt true hcopy)
          (forall_mem_set (i := idx) hg ((hg _ hmem).rebuilt ha.rebuilt))
        exact ⟨htime, .mix (forall_mem_set hcopied hgen2)⟩
  | mixDrop _ _ _ hcopy _ _ ih₂ =>
    cases h with
    | mix h =>
      cases hg with
      | mix hg =>
        have hcopied := GeneratorPtr.copyEach_rebuilt true hcopy
        exact ih₂ (.mix (AllLeaves.forall_rebuilt hcopied
            fun g hmem ↦ h g (List.mem_of_mem_eraseIdx hmem)))
          (.mix (forall_unstaggered_rebuilt hcopied
            fun g hmem ↦ hg g (List.mem_of_mem_eraseIdx hmem)))
  | @any gens ctx as i a copy hlen has hbest hcopy ih =>
    cases h with
    | any h =>
      cases hg with
      | any hg =>
        have hall : ∀ b ∈ as, ((b.op.Real → b.op.time = ctx.time) ∧ Unstaggered b.gen2) ∧
            Unstaggered b.self := by
          intro b hb
          obtain ⟨j, hj, hj', rfl⟩ := Pointwise.exists_getElem hlen hb
          have hmem := List.getElem_mem hj
          exact ⟨ih j hj hj' (h _ hmem) (hg _ hmem), (hg _ hmem).rebuilt (has j hj hj').rebuilt⟩
        have hcopied := forall_unstaggered_rebuilt (GeneratorPtr.copyEach_rebuilt true hcopy)
          (List.forall_mem_map.mpr fun b hb ↦ (hall b hb).2)
        obtain ⟨⟨htime, hgen2⟩, -⟩ := hall a hbest.mem
        exact ⟨htime, .any (forall_mem_set hcopied hgen2)⟩
  | user _ hfill =>
    cases h with
    | user h => exact ⟨fun hr ↦ hfill.time_eq (h _ _ _) hr.2, .user⟩

/-! ## Runs of a `Stagger` -/

/-- One call on a generator built by `stagger`.  A committed operation comes with the time of its
request, the time that the inner generator gave it, the delay that was drawn and its own time. -/
inductive Pace where
  | committed (now inner delay time : Int)
  | other (now : Int)
  | updated

inductive Paces : Lts GeneratorPtr Pace
  | commit {n dt next_time gen ctx draws b draws₁ a draws₂}
      (hinner : op n gen ctx draws = .ok (b, draws₁))
      (hask : op (n + 1) (.stagger dt next_time gen) ctx draws = .ok (a, draws₂))
      (hreal : a.op.Real) :
      Paces (.stagger dt next_time gen)
        (.committed ctx.time b.op.time ((draws₁ 0 : Int).tmod dt) a.op.time) a.gen2
  | commitPending {n g ctx draws a draws'} (hask : op n g ctx draws = .ok (a, draws'))
      (hnot : ¬ a.op.Real) : Paces g (.other ctx.time) a.gen2
  | discard {n g ctx draws a draws'} (hask : op n g ctx draws = .ok (a, draws')) :
      Paces g (.other ctx.time) a.self
  | update {g ctx event g'} (hup : update g ctx event = .ok g') : Paces g .updated g'

namespace Pace

def request : Pace → Option Int
  | .committed now _ _ _ => some now
  | .other now => some now
  | .updated => none

def delay : Pace → Int
  | .committed _ _ delay _ => delay
  | _ => 0

/-- Neither a commit nor an update. -/
def Idle : Pace → Prop
  | .other _ => True
  | _ => False

def requests (ps : List Pace) : List Int := ps.filterMap request

/-- The time at which an operation that is requested at `now` is due, after the calls `ps`. -/
def due (ps : List Pace) (now : Int) : Int :=
  max now ((requests ps).headD now + (ps.map delay).sum)

end Pace

/-- What the calls `ps` leave of `stagger`: a node whose `next_time` is still the uninitialised
value, or open, or the time of a request.  A value that is not open stays until the first commit or
update.  The inner generator has no `Stagger` if it had none at the start (`plain`). -/
inductive Paced (uninitialised dt : Int) (plain : Prop) (ps : List Pace) : GeneratorPtr → Prop
  | ended : Paced uninitialised dt plain ps .nullptr
  | stagger {next_time gen} (hgen : plain → Unstaggered gen) (hleaves : AllLeaves Untimed [] gen)
      (hnext : next_time = uninitialised ∧ (∀ p ∈ ps, p.Idle) ∨
        (next_time = kInvalidTime ∨ next_time ∈ Pace.requests ps) ∧
          ((∀ p ∈ ps, p.Idle) → uninitialised = kInvalidTime)) :
      Paced uninitialised dt plain ps (.stagger dt next_time gen)

section Run

variable {uninitialised dt : Int} {plain : Prop} {ps : List Pace}

theorem Paced.unset {gen : GeneratorPtr} {p : Pace} (hgen : plain → Unstaggered gen)
    (hleaves : AllLeaves Untimed [] gen) (hp : ¬ p.Idle) :
    Paced uninitialised dt plain (ps ++ [p]) (.stagger dt kInvalidTime gen) :=
  .stagger hgen hleaves (.inr ⟨.inl rfl, fun h ↦ absurd (h p (by simp)) hp⟩)

-- A request leaves `next_time` as it was, or fixes it to its own time.
theorem Paced.requested {next_time now : Int} {gen gen' : GeneratorPtr}
    (h : Paced uninitialised dt plain ps (.stagger dt next_time gen))
    (hr : Rebuilt true false gen gen') :
    Paced uninitialised dt plain (ps ++ [.other now]) (.stagger dt next_time gen') ∧
      Paced uninitialised dt plain (ps ++ [.other now])
        (.stagger dt (Stagger.fix next_time now) gen') := by
  have hrequests : Pace.requests (ps ++ [.other now]) = Pace.requests ps ++ [now] := by
    simp [Pace.requests, Pace.request]
  cases h with
  | stagger hgen hleaves hnext =>
    have hgen' (hp : plain) : Unstaggered gen' := (hgen hp).rebuilt hr
    have hidle : (∀ p ∈ ps ++ [.other now], Pace.Idle p) ↔ ∀ p ∈ ps, p.Idle := by
      simp [or_imp, forall_and, Pace.Idle]
    have hkept :
        Paced uninitialised dt plain (ps ++ [.other now]) (.stagger dt next_time gen') := by
      refine .stagger hgen' (hleaves.rebuilt hr) ?_
      rw [hidle, hrequests]
      exact hnext.imp_right (And.imp_left (Or.imp_right (List.mem_append_left _)))
    refine ⟨hkept, ?_⟩
    -- An open schedule is set to the time of this request.
    by_cases hopen : next_time = kInvalidTime
    · rw [Stagger.fix, if_pos hopen]
      refine .stagger hgen' (hleaves.rebuilt hr) (.inr ⟨.inr (by simp [hrequests]), fun h ↦ ?_⟩)
      exact hnext.elim (fun h' ↦ h'.1 ▸ hopen) fun h' ↦ h'.2 (hidle.mp h)
    · rwa [Stagger.fix_of_ne hopen]

theorem Paced.step {g g' : GeneratorPtr} {p : Pace} (h : Paced uninitialised dt plain ps g)
    (hp : Paces g p g') : Paced uninitialised dt plain (ps ++ [p]) g' := by
  cases hp with
  | commit hinner hask hreal =>
    cases h with
    | stagger hgen hleaves _ =>
      cases op_answers _ _ _ _ _ _ hask with
      | staggerPending _ _ hpend => exact absurd hpend hreal.2
      | stagger hb =>
        exact .unset (fun hplain ↦ (hb.time_eq hleaves (hgen hplain)).2)
          (hb.sourced hleaves).2 id
      | staggerNil => exact absurd rfl hreal.1
  | commitPending hask hnot =>
    have ha := op_answers _ _ _ _ _ _ hask
    cases h with
    | ended =>
      cases ha
      exact .ended
    | stagger hgen hleaves hnext =>
      cases ha with
      | staggerPending hb _ _ hfix =>
        rw [hfix]
        exact (Paced.requested (.stagger hgen hleaves hnext) hb.rebuilt).2
      | stagger _ hoff hpend => exact absurd ⟨(Answer.offer_iff.mp hoff).1, hpend⟩ hnot
      | staggerNil => exact .ended
  | discard hask =>
    have ha := op_answers _ _ _ _ _ _ hask
    cases h with
    | ended =>
      cases ha
      exact .ended
    | @stagger next_time gen hgen hleaves hnext =>
      have hnode : Paced uninitialised dt plain ps (.stagger dt next_time gen) :=
        .stagger hgen hleaves hnext
      cases ha with
      | staggerPending hb _ _ hfix =>
        rw [hfix]
        exact (hnode.requested hb.rebuilt).2
      | stagger hb _ _ hfix =>
        rw [hfix]
        exact (hnode.requested hb.rebuilt).2
      | staggerNil hb => exact (hnode.requested hb.rebuilt).1
  | update hup =>
    cases h with
    | ended =>
      obtain rfl := Except.ok.inj hup
      exact .ended
    | stagger hgen hleaves _ =>
      rw [update] at hup
      obtain ⟨gen', hgen', rfl⟩ := GeneratorPtr.except_map_eq_ok.mp hup
      have hr := GeneratorPtr.update_rebuilt hgen'
      exact .unset (fun hplain ↦ (hgen hplain).rebuilt hr) (hleaves.rebuilt hr) id

theorem Paced.run {g g' : GeneratorPtr} {ps' : List Pace} (h : Paced uninitialised dt plain ps g)
    (hrun : Run Paces g ps' g') : Paced uninitialised dt plain (ps ++ ps') g' := by
  induction hrun generalizing ps with
  | nil => rwa [List.append_nil]
  | @cons g₀ g₁ g₂ p ps' hp _ ih =>
    have hnext := ih (h.step hp)
    rwa [List.append_assoc] at hnext

/-- The time of an operation is the later of `next_time` and what the inner generator answers. -/
theorem stagger_op_real {n : Nat} {next_time : Int} {gen : GeneratorPtr} {ctx : Context}
    {draws draws₁ draws₂ : Draws} {a b : Answer}
    (hinner : op n gen ctx draws = .ok (b, draws₁))
    (hask : op (n + 1) (.stagger dt next_time gen) ctx draws = .ok (a, draws₂))
    (hreal : a.op.Real) :
    b.op.Real ∧ a.op.time = max (Stagger.fix next_time ctx.time) b.op.time := by
  rw [op, opBody, Stagger.op, Eval.bind_apply_ok hinner] at hask
  split at hask
  · rename_i hoff
    split at hask
    · rename_i hp
      rw [← pure_answer hask] at hreal
      exact absurd hp hreal.2
    · rename_i hp
      obtain ⟨r, d, -, hask⟩ := Eval.bind_eq_ok.mp hask
      split at hask
      · exact absurd hask (by simp)
      · exact ⟨⟨(Answer.offer_iff.mp hoff).1, hp⟩, by rw [← pure_answer hask]⟩
  · exact absurd (by rw [← pure_answer hask]; rfl) hreal.1

end Run

theorem Pace.le_of_mem {now t : Int} (hmono : (requests ps ++ [now]).Pairwise (· ≤ ·))
    (ht : t ∈ requests ps) : t ≤ now :=
  (List.pairwise_append.mp hmono).2.2 t ht now (by simp)

-- Before the first commit nothing delays an operation.
theorem Pace.due_idle {ps : List Pace} {now : Int}
    (hmono : (requests ps ++ [now]).Pairwise (· ≤ ·)) (hidle : ∀ p ∈ ps, p.Idle) :
    due ps now = now := by
  have hsum : (ps.map delay).sum = 0 := by
    refine List.sum_eq_zero fun d hd ↦ ?_
    obtain ⟨p, hp, rfl⟩ := List.mem_map.mp hd
    cases p with
    | committed => exact absurd (hidle _ hp) id
    | _ => rfl
  have hhead : (requests ps).headD now ≤ now := by
    cases h : requests ps with
    | nil => simp
    | cons t ts => exact Pace.le_of_mem hmono (by simp [h])
  rw [due, hsum, add_zero, max_eq_left hhead]

/-- In a run of `stagger` an operation has the time that is due if and only if the inner generator
gave it this time already, and, as long as nothing was committed or updated, the uninitialised
`next_time` is not later than the request.  An inner generator without a `Stagger` gives an
operation the time of its request; so this means that every delay drawn before is over by then. -/
theorem stagger_on_schedule_iff (uninitialised dt : Int) (gen : GeneratorPtr)
    (hleaves : AllLeaves Untimed [] gen) (ps : List Pace) (g g' : GeneratorPtr)
    (now inner delay time : Int) (hrun : Run Paces (stagger uninitialised dt gen) ps g)
    (hcommit : Paces g (.committed now inner delay time) g')
    (hmono : (Pace.requests ps ++ [now]).Pairwise (· ≤ ·)) :
    (time = Pace.due ps now ↔ inner = Pace.due ps now ∧
      ((∀ p ∈ ps, p.Idle) → uninitialised = kInvalidTime ∨ uninitialised ≤ now)) ∧
    (Unstaggered gen → inner = now) := by
  have hnode : Paced uninitialised (2 * sec2nanos dt) (Unstaggered gen) []
      (stagger uninitialised dt gen) := .stagger id hleaves (.inl ⟨rfl, by simp⟩)
  have hpaced := hnode.run hrun
  have hdue : now ≤ Pace.due ps now := le_max_left _ _
  cases hcommit with
  | @commit _ _ next_time _ ctx _ _ _ _ _ hinner hask hreal =>
    obtain ⟨hinnerReal, htime⟩ := stagger_op_real hinner hask hreal
    have hb := op_answers _ _ _ _ _ _ hinner
    cases hpaced with
    | stagger hgen hleaves' hnext =>
      have hle := hb.time_le hleaves' hinnerReal
      refine ⟨?_, fun hplain ↦ (hb.time_eq hleaves' (hgen hplain)).1 hinnerReal⟩
      rcases hnext with ⟨hnext, hidle⟩ | ⟨hnext, hunset⟩
      · have hnow := Pace.due_idle hmono hidle
        rw [← hnext]
        by_cases hopen : next_time = kInvalidTime
        · rw [htime, Stagger.fix, if_pos hopen, max_eq_right hle]
          exact ⟨fun h ↦ ⟨h, fun _ ↦ .inl hopen⟩, And.left⟩
        · rw [htime, Stagger.fix_of_ne hopen, hnow]
          have hout (h : (∀ p ∈ ps, p.Idle) → next_time = kInvalidTime ∨ next_time ≤ ctx.time) :
              next_time ≤ ctx.time := (h hidle).resolve_left hopen
          constructor
          · intro h
            exact ⟨by omega, fun _ ↦ .inr (by omega)⟩
          · rintro ⟨h, h'⟩
            have := hout h'
            omega
      · have hfix : Stagger.fix next_time ctx.time ≤ ctx.time := by
          by_cases hopen : next_time = kInvalidTime
          · rw [Stagger.fix, if_pos hopen]
          · rw [Stagger.fix_of_ne hopen]
            exact Pace.le_of_mem hmono (hnext.resolve_left hopen)
        rw [htime, max_eq_right (hfix.trans hle)]
        exact ⟨fun h ↦ ⟨h, fun hidle ↦ .inl (hunset hidle)⟩, And.left⟩

def threeReads : GeneratorPtr :=
  createGenerator [OperationFactory.read .null, OperationFactory.read .null,
    OperationFactory.read .null]

/-- What `threeReads` is after its first read. -/
def twoLeft : GeneratorPtr :=
  .list [.nullptr, .operation (OperationFactory.read .null),
    .operation (OperationFactory.read .null)]

/-- What `threeReads` is after its second read. -/
def oneLeft : GeneratorPtr := .list [.nullptr, .operation (OperationFactory.read .null)]

-- Every draw delays the next read by a second.
def secondDraws : Draws := fun _ ↦ 1000000000

theorem paces_first :
    Paces (stagger 0 1 threeReads) (.committed 0 0 (sec2nanos 1) 0)
      (.stagger (2 * sec2nanos 1) kInvalidTime twoLeft) := by
  have hinner : op 2 threeReads (clientFree 0) secondDraws =
      .ok (⟨(firstRead 0).op, twoLeft, threeReads⟩, secondDraws) := rfl
  have hask : op 3 (stagger 0 1 threeReads) (clientFree 0) secondDraws =
      .ok (⟨(firstRead 0).op, .stagger (2 * sec2nanos 1) kInvalidTime twoLeft,
        stagger 0 1 threeReads⟩, secondDraws) := rfl
  exact .commit hinner hask (by decide)

theorem paces_second (seconds : Int) (h : seconds = 0 ∨ seconds = 2) :
    Paces (.stagger (2 * sec2nanos 1) kInvalidTime twoLeft)
      (.committed (sec2nanos seconds) (sec2nanos seconds) (sec2nanos 1) (sec2nanos seconds))
      (.stagger (2 * sec2nanos 1) kInvalidTime oneLeft) := by
  have hinner : op 3 twoLeft (clientFree seconds) secondDraws =
      .ok (⟨(firstRead seconds).op, oneLeft, twoLeft⟩, secondDraws) := by
    rcases h with rfl | rfl <;> rfl
  have hask : op 4 (.stagger (2 * sec2nanos 1) kInvalidTime twoLeft) (clientFree seconds)
      secondDraws = .ok (⟨(firstRead seconds).op, .stagger (2 * sec2nanos 1) kInvalidTime oneLeft,
        .stagger (2 * sec2nanos 1) (sec2nanos seconds) twoLeft⟩, secondDraws) := by
    rcases h with rfl | rfl <;> rfl
  exact .commit hinner hask (by simp [firstRead, Operation.Real, OperationFactory.read])

theorem stagger_on_schedule_iff_reads :
    sec2nanos 2 = Pace.due [.committed 0 0 (sec2nanos 1) 0] (sec2nanos 2) := by
  have hleaves : AllLeaves Untimed [] threeReads :=
    .list fun g hg ↦ by
      simp only [List.map_cons, List.map_nil, List.mem_cons, List.not_mem_nil, or_false,
        or_self] at hg
      exact hg ▸ .operation rfl
  exact (stagger_on_schedule_iff 0 1 threeReads hleaves _ _ _ _ _ _ _ (.single paces_first)
    (paces_second 2 (.inr rfl)) (by decide)).1.mpr ⟨by decide, fun h ↦
      absurd (h (.committed 0 0 (sec2nanos 1) 0) (by simp)) id⟩

/-- `stagger(1, ..)` asked twice at time 0: the delay of a second that the first read draws does not
move the second read. -/
theorem stagger_drops_delay :
    Paces (stagger 0 1 threeReads) (.committed 0 0 (sec2nanos 1) 0)
        (.stagger (2 * sec2nanos 1) kInvalidTime twoLeft) ∧
      Paces (.stagger (2 * sec2nanos 1) kInvalidTime twoLeft)
        (.committed 0 0 (sec2nanos 1) 0) (.stagger (2 * sec2nanos 1) kInvalidTime oneLeft) ∧
      0 ≠ Pace.due [.committed 0 0 (sec2nanos 1) 0] 0 :=
  ⟨paces_first, paces_second 0 (.inl rfl), by decide⟩

end Jepsen
