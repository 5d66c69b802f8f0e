import Jepsen.Generator.Answers

/-!
# Lists in sequence

A list offers its first member until that is exhausted, at every depth.  `flatten` reads the leaf
operations of nested lists from left to right; an answer takes the first of them that is not nil,
and copies and updates leave the sequence as it is.  A wrapper around a list drops an operation that
comes without successor, which for a flat list is the last one.
-/

namespace Jepsen

open Library
open GeneratorPtr (copyOrNull Rebuilt)

namespace GeneratorPtr

mutual

/-- The leaf operations of nested lists, from left to right, seen through the wrappers. -/
def flatten : GeneratorPtr → List Operation
  | .operation o => [o]
  | .list gs => flattenEach gs
  | .validate g => flatten g
  | .onThreads g _ => flatten g
  | .timeLimit _ _ g => flatten g
  | .stagger _ _ g => flatten g
  | .nullptr => []
  | .function _ => []
  | .mix _ _ => []
  | .any _ => []
  | .user _ _ => []

def flattenEach : List GeneratorPtr → List Operation
  | [] => []
  | g :: gs => flatten g ++ flattenEach gs

end

theorem flattenEach_eq (gs : List GeneratorPtr) : flattenEach gs = (gs.map flatten).flatten := by
  induction gs with
  | nil => rfl
  | cons g gs ih => rw [flattenEach, ih, List.map_cons, List.flatten_cons]

theorem flattenEach_operations (ops : List Operation) :
    flattenEach (ops.map .operation) = ops := by
  induction ops with
  | nil => rfl
  | cons o ops ih => rw [List.map_cons, flattenEach, ih, flatten, List.singleton_append]

theorem Rebuilt.flatten_eq {polled copied : Bool} {g g' : GeneratorPtr}
    (h : Rebuilt polled copied g g') : g'.flatten = g.flatten := by
  induction h with
  | list hlen _ ih =>
    rw [flatten, flatten, flattenEach_eq, flattenEach_eq]
    refine congrArg List.flatten (List.ext_getElem (by simpa using hlen.symm) fun i hi hi' ↦ ?_)
    rw [List.getElem_map, List.getElem_map]
    exact ih i (by simpa using hi') (by simpa using hi)
  | validate _ ih => exact ih
  | onThreads _ ih => exact ih
  | timeLimitNull _ ih => exact ih
  | timeLimit _ ih => exact ih
  | staggerNull _ ih => exact ih
  | stagger _ ih => exact ih
  | _ => rfl

theorem copyOrNull_operations (ops : List Operation) :
    copyOrNull (ops.map .operation) = .ok (ops.map .operation) := by
  induction ops with
  | nil => rfl
  | cons o ops ih => exact copyOrNull_cons_ok.mpr ⟨_, _, .inr rfl, ih, rfl⟩

end GeneratorPtr

/-! ## What an answer takes -/

/-- `r` carries the function and payload of the leaf operation `o`. -/
def Serves (o r : Operation) : Prop :=
  r.func = o.func ∧ r.op = o.op ∧ r.type = if o.type = .kInit then .kInvoke else o.type

theorem MayFill.serves {ctx : Context} {o r : Operation} (h : MayFill ctx o r)
    (hr : r.type ≠ .kPending) : Serves o r := by
  obtain ⟨p, -, rfl⟩ := h
  by_cases hp : p = kInvalidProcess
  · exact absurd (by simp [fillIn, hp]) hr
  · simp [Serves, fillIn, hp]

theorem Serves.nil_iff {o r : Operation} (h : Serves o r) : r.type = .kNil ↔ o.type = .kNil := by
  rw [h.2.2]
  split
  · rename_i hinit
    simp [hinit]
  · rfl

/-- `r` serves the first operation of `l` that is not nil, and `rest` comes after it. -/
def Takes (l : List Operation) (r : Operation) (rest : List Operation) : Prop :=
  ∃ pre o, l = pre ++ o :: rest ∧ (∀ x ∈ pre, x.type = .kNil) ∧ o.type ≠ .kNil ∧ Serves o r

theorem Takes.append {l rest : List Operation} {r : Operation} (h : Takes l r rest)
    (l' : List Operation) : Takes (l ++ l') r (rest ++ l') := by
  obtain ⟨pre, o, rfl, hpre, ho⟩ := h
  exact ⟨pre, o, by simp, hpre, ho⟩

theorem Takes.skip {l l' rest : List Operation} {r : Operation} (h : Takes l r rest)
    (hl' : ∀ x ∈ l', x.type = .kNil) : Takes (l' ++ l) r rest := by
  obtain ⟨pre, o, rfl, hpre, ho⟩ := h
  exact ⟨l' ++ pre, o, by simp, List.forall_mem_append.mpr ⟨hl', hpre⟩, ho⟩

/-- Lists of operations and lists, to any depth, with nulls and `Validate` anywhere. -/
inductive Nested : GeneratorPtr → Prop
  | nullptr : Nested .nullptr
  | operation (o : Operation) : Nested (.operation o)
  | list {gs : List GeneratorPtr} (h : ∀ g ∈ gs, Nested g) : Nested (.list gs)
  | validate {g : GeneratorPtr} (h : Nested g) : Nested (.validate g)

theorem Nested.rebuilt {polled copied : Bool} {g g' : GeneratorPtr} (h : Nested g)
    (hr : Rebuilt polled copied g g') : Nested g' := by
  induction hr with
  | refl => exact h
  | emptyList => exact .nullptr
  | list hlen _ ih =>
    cases h with
    | list h =>
      exact .list (Pointwise.forall_mem_of_getElem hlen ih h)
  | validate _ ih => cases h with | validate h => exact .validate (ih h)
  | _ => cases h

/-- What a tree may answer that offers the operations `l` one after the other: nothing more,
pending, or the first operation. -/
inductive Sequel (K : GeneratorPtr → Prop) (l : List Operation) (a : Answer) : Prop
  | ended (hnil : a.op.type = .kNil) (hgen : a.gen2 = .nullptr) (hl : ∀ o ∈ l, o.type = .kNil)
  | pending (hp : a.op.type = .kPending)
  | next (hnil : a.op.type ≠ .kNil) (hgen : K a.gen2) (htakes : Takes l a.op a.gen2.flatten)

/-- What `op` makes of the members after the first one. -/
theorem copy_rest {first first' : GeneratorPtr} {rest copy : List GeneratorPtr}
    (h : copyOrNull (first :: rest) = .ok (first' :: copy)) :
    Rebuilt true true (.list rest) (.list copy) := by
  have hrest := (GeneratorPtr.copyOrNull_rebuilt true h).tail
  exact .ofList hrest

/-- Nested lists answer their flattening in order. -/
theorem Answers.nested {g : GeneratorPtr} {ctx : Context} {a : Answer} (ha : Answers g ctx a)
    (hg : Nested g) : Sequel Nested g.flatten a := by
  induction ha with
  | nullptr => exact .ended rfl rfl (by simp [GeneratorPtr.flatten])
  | pending hfill hr => exact .pending hr
  | @operation o ctx r hfill hr =>
    have hserves := hfill.serves hr
    by_cases hnil : o.type = .kNil
    · exact .ended (hserves.nil_iff.mpr hnil) rfl (by simpa [GeneratorPtr.flatten] using hnil)
    · exact .next (mt hserves.nil_iff.mp hnil) .nullptr ⟨[], o, rfl, by simp, hnil, hserves⟩
  | listEmpty => exact .ended rfl rfl (by simp [GeneratorPtr.flatten, GeneratorPtr.flattenEach])
  | @listPop first rest ctx a first' copy b ha hgen hnil hcopy hb ih₁ ih₂ =>
    cases hg with
    | list hmem =>
      obtain ⟨hfirst, hrest⟩ := List.forall_mem_cons.mp hmem
      have hcopied := copy_rest hcopy
      -- The first member is used up, so that all it had left was `:nil`.
      have hskip : ∀ o ∈ first.flatten, o.type = .kNil := by
        cases ih₁ hfirst with
        | ended _ _ hl => exact hl
        | pending hp => exact absurd (hnil.symm.trans hp) (by decide)
        | next hne => exact absurd hnil hne
      have hflat : (GeneratorPtr.list (first :: rest)).flatten =
          first.flatten ++ (GeneratorPtr.list copy).flatten :=
        congrArg (first.flatten ++ ·) hcopied.flatten_eq.symm
      rw [hflat]
      cases ih₂ (Nested.rebuilt (.list hrest) hcopied) with
      | ended hnil hgen hl => exact .ended hnil hgen (List.forall_mem_append.mpr ⟨hskip, hl⟩)
      | pending hp => exact .pending hp
      | next hnil hgen htakes => exact .next hnil hgen (htakes.skip hskip)
  | @listFront first rest ctx a first' copy ha hkeep hcopy hne ih =>
    cases hg with
    | list hmem =>
      obtain ⟨hfirst, hrest⟩ := List.forall_mem_cons.mp hmem
      have hcopied := copy_rest hcopy
      cases ih hfirst with
      | ended hnil hgen => exact absurd ⟨hgen, hnil⟩ hkeep
      | pending hp => exact .pending hp
      | next hnil hgen htakes =>
        cases Nested.rebuilt (.list hrest) hcopied with
        | list hcopy =>
          refine .next hnil (.list (List.forall_mem_cons.mpr ⟨hgen, hcopy⟩)) ?_
          have hflat : (GeneratorPtr.list (a.gen2 :: copy)).flatten =
              a.gen2.flatten ++ (GeneratorPtr.list rest).flatten :=
            congrArg (a.gen2.flatten ++ ·) hcopied.flatten_eq
          rw [hflat]
          exact htakes.append _
  | @listSingle first ctx a ha hkeep ih =>
    cases hg with
    | list hmem =>
      simp only [GeneratorPtr.flatten, GeneratorPtr.flattenEach, List.append_nil]
      cases ih (hmem first (by simp)) with
      | ended hnil hgen => exact absurd ⟨hgen, hnil⟩ hkeep
      | pending hp => exact .pending hp
      | next hnil hgen htakes => exact .next hnil hgen htakes
  | validate ha hoff ih =>
    cases hg with
    | validate hg =>
      cases ih hg with
      | ended hnil => exact absurd hnil (Answer.offer_iff.mp hoff).1
      | pending hp => exact .pending hp
      | next hnil hgen htakes => exact .next hnil (.validate hgen) htakes
  | validateLast ha hoff ih =>
    cases hg with
    | validate hg =>
      cases ih hg with
      | ended hnil hgen hl => exact .ended hnil hgen hl
      | pending hp => exact .pending hp
      | next hnil hgen htakes => exact .next hnil hgen htakes
  | _ => cases hg

/-! ## Wrappers around a list -/

/-- The list of the operations `ops`, perhaps after the null that an answered first one left. -/
inductive Flat : GeneratorPtr → Prop
  | operations {ops : List Operation} (h : ops ≠ []) : Flat (.list (ops.map .operation))
  | rest {ops : List Operation} (h : ops ≠ []) : Flat (.list (.nullptr :: ops.map .operation))

namespace Flat

theorem nested {g : GeneratorPtr} (h : Flat g) : Nested g := by
  have hops (ops : List Operation) : ∀ m ∈ ops.map GeneratorPtr.operation, Nested m := by
    simpa using fun o _ ↦ Nested.operation o
  cases h with
  | operations => exact .list (hops _)
  | rest => exact .list (List.forall_mem_cons.mpr ⟨.nullptr, hops _⟩)

theorem flatten_ne_nil {g : GeneratorPtr} (h : Flat g) : g.flatten ≠ [] := by
  cases h <;>
    simpa [GeneratorPtr.flatten, GeneratorPtr.flattenEach, GeneratorPtr.flattenEach_operations]

theorem eq_of_rebuilt {polled copied : Bool} {g g' : GeneratorPtr} (h : Flat g)
    (hr : Rebuilt polled copied g g') : g' = g := by
  -- A member is an operation or null, neither of which can be rebuilt into another.
  have hmember {m m' : GeneratorPtr} (hm : m = .nullptr ∨ ∃ o, m = .operation o)
      (hmm : Rebuilt polled copied m m') : m' = m := by
    rcases hm with rfl | ⟨o, rfl⟩ <;> cases hmm <;> rfl
  have hlist (gs : List GeneratorPtr) (hgs : gs ≠ [])
      (hall : ∀ m ∈ gs, m = .nullptr ∨ ∃ o, m = .operation o)
      (hr : Rebuilt polled copied (.list gs) g') :
      g' = .list gs := by
    cases hr with
    | refl => rfl
    | emptyList => exact absurd rfl hgs
    | list hlen hpoint =>
      refine congrArg GeneratorPtr.list (List.ext_getElem hlen.symm fun i hi hi' ↦ ?_)
      exact hmember (hall _ (List.getElem_mem hi')) (hpoint i hi' hi)
  cases h with
  | operations h => exact hlist _ (by simpa using h) (by simp) hr
  | rest h => exact hlist _ (by simp) (by simp) hr

/-- The copy that `op` makes of the operations after the first member. -/
theorem copy_eq {g g' : GeneratorPtr} {ops : List Operation} {gs copy : List GeneratorPtr}
    (hgs : gs = ops.map .operation) (h : copyOrNull (g :: gs) = .ok (g' :: copy)) : copy = gs := by
  obtain ⟨_, _, -, hcopy, heq⟩ := GeneratorPtr.copyOrNull_cons_ok.mp h
  rw [(List.cons.inj heq).2, hgs]
  rw [hgs, GeneratorPtr.copyOrNull_operations] at hcopy
  exact (Except.ok.inj hcopy).symm

theorem answer_operations {ops : List Operation} {gs : List GeneratorPtr}
    (hgs : gs = ops.map .operation) {ctx : Context} {a : Answer} (ha : Answers (.list gs) ctx a)
    (hreal : a.op.Real) : a.gen2 = .nullptr ∨ Flat a.gen2 := by
  induction ops generalizing gs a with
  | nil =>
    subst hgs
    cases ha with
    | listEmpty => exact absurd rfl hreal.1
  | cons o ops ih =>
    rw [List.map_cons] at hgs
    generalize hrest : ops.map GeneratorPtr.operation = rest at hgs
    subst hgs
    cases ha with
    | listPop hb hgen hnil hcopy hc =>
      obtain rfl := copy_eq hrest.symm hcopy
      have hnext := ih hrest.symm hc hreal
      exact hnext
    | listFront hb hkeep hcopy hne =>
      obtain rfl := copy_eq hrest.symm hcopy
      cases hb with
      | pending hfill hp => exact absurd hp hreal.2
      | operation =>
        subst hrest
        exact .inr (.rest (by simpa using hne))
    | listSingle hb hkeep =>
      cases hb with
      | pending hfill hp => exact absurd hp hreal.2
      | operation => exact .inl rfl

/-- A flat list answers a real operation with a flat list or, for the last one, with null. -/
theorem answer {g : GeneratorPtr} {ctx : Context} {a : Answer} (h : Flat g)
    (ha : Answers g ctx a) (hreal : a.op.Real) : a.gen2 = .nullptr ∨ Flat a.gen2 := by
  cases h with
  | operations h => exact answer_operations rfl ha hreal
  | @rest ops h =>
    generalize hrest : ops.map GeneratorPtr.operation = rest at ha ⊢
    cases ha with
    | listPop hb hgen hnil hcopy hc =>
      obtain rfl := copy_eq hrest.symm hcopy
      have hnext := answer_operations hrest.symm hc hreal
      exact hnext
    | listFront hb hkeep =>
      cases hb
      exact absurd ⟨rfl, rfl⟩ hkeep
    | listSingle hb hkeep =>
      cases hb
      exact absurd ⟨rfl, rfl⟩ hkeep

end Flat

/-- A flat list under any number of `OnThreads`, `TimeLimit` and `Stagger`. -/
inductive Stacked : GeneratorPtr → Prop
  | flat {g} (h : Flat g) : Stacked g
  | onThreads {g filter} (h : Stacked g) : Stacked (.onThreads g filter)
  | timeLimit {limit cutoff g} (h : Stacked g) : Stacked (.timeLimit limit cutoff g)
  | stagger {dt next_time g} (h : Stacked g) : Stacked (.stagger dt next_time g)

theorem Stacked.flatten_ne_nil {g : GeneratorPtr} (h : Stacked g) : g.flatten ≠ [] := by
  induction h with
  | flat h => exact h.flatten_ne_nil
  | onThreads _ ih => exact ih
  | timeLimit _ ih => exact ih
  | stagger _ ih => exact ih

theorem Stacked.rebuilt {polled copied : Bool} {g g' : GeneratorPtr} (h : Stacked g)
    (hr : Rebuilt polled copied g g') : Stacked g' := by
  induction h generalizing g' with
  | flat h => exact h.eq_of_rebuilt hr ▸ .flat h
  | onThreads h ih =>
    cases hr with
    | refl => exact .onThreads h
    | onThreads hr => exact .onThreads (ih hr)
  | timeLimit h ih =>
    cases hr with
    | refl => exact .timeLimit h
    | timeLimitNull hr => exact absurd hr.flatten_eq.symm h.flatten_ne_nil
    | timeLimit hr => exact .timeLimit (ih hr)
  | stagger h ih =>
    cases hr with
    | refl => exact .stagger h
    | staggerNull hr => exact absurd hr.flatten_eq.symm h.flatten_ne_nil
    | stagger hr => exact .stagger (ih hr)

/-- A real answer of a stacked list takes its first operation, and comes with the rest of the stack
or with null. -/
theorem Answers.stacked {g : GeneratorPtr} {ctx : Context} {a : Answer} (hg : Stacked g)
    (ha : Answers g ctx a) (hreal : a.op.Real) :
    Takes g.flatten a.op a.gen2.flatten ∧ (a.gen2 = .nullptr ∨ Stacked a.gen2) := by
  induction hg generalizing ctx a with
  | flat h =>
    cases ha.nested h.nested with
    | ended hnil => exact absurd hnil hreal.1
    | pending hp => exact absurd hp hreal.2
    | next _ _ htakes => exact ⟨htakes, (h.answer ha hreal).imp id .flat⟩
  | onThreads h ih =>
    cases ha with
    | onThreads hb hoff =>
      obtain ⟨htakes, hgen⟩ := ih hb hreal
      exact ⟨htakes, .inr (.onThreads (hgen.resolve_left (Answer.offer_iff.mp hoff).2))⟩
    | onThreadsNil => exact absurd rfl hreal.1
  | timeLimit h ih =>
    cases ha with
    | timeLimitPending hb hoff hp => exact absurd hp hreal.2
    | timeLimit hb hoff =>
      obtain ⟨htakes, hgen⟩ := ih hb hreal
      exact ⟨htakes, .inr (.timeLimit (hgen.resolve_left (Answer.offer_iff.mp hoff).2))⟩
    | timeLimitOver | timeLimitNil => exact absurd rfl hreal.1
  | stagger h ih =>
    cases ha with
    | staggerPending hb hoff hp => exact absurd hp hreal.2
    | stagger hb hoff hp =>
      obtain ⟨htakes, hgen⟩ := ih hb ⟨(Answer.offer_iff.mp hoff).1, hp⟩
      exact ⟨htakes, .inr (.stagger (hgen.resolve_left (Answer.offer_iff.mp hoff).2))⟩
    | staggerNil => exact absurd rfl hreal.1

end Jepsen
