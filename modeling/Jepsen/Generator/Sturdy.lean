import Jepsen.Generator.Absent
import Jepsen.Generator.Null

/-!
# Trees that never fault

A `Sturdy` tree can be asked, copied and updated again and again: no call on it or on what is made
of it meets a null pointer, an index out of range or a division by zero.  A `Mix` needs a member
that offers without end, since one whose members have all been dropped divides by zero.
-/

namespace Jepsen

open Library Context GeneratorFactory
open GeneratorPtr (copyOne copyEach copyOrNull fuelEach Rebuilt)

/-- An answer that is nil leaves nothing to ask. -/
theorem Answers.gen2_of_nil {g : GeneratorPtr} {ctx : Context} {a : Answer} (ha : Answers g ctx a)
    (hnil : a.op.type = .kNil) : a.gen2 = .nullptr := by
  induction ha with
  | nullptr | operation | listEmpty | onThreadsNil | timeLimitOver | timeLimitNil | staggerNil
  | mixEmpty | anyNil | userNil => rfl
  | pending _ hr => exact absurd (hr.symm.trans hnil) (by decide)
  | function _ ih => exact ih hnil
  | listPop _ _ _ _ _ _ ih₂ => exact ih₂ hnil
  | listFront _ hkeep _ _ ih => exact absurd ⟨ih hnil, hnil⟩ hkeep
  | listSingle _ _ ih => exact ih hnil
  | validateLast _ _ ih => exact ih hnil
  | mixDrop _ _ _ _ _ _ ih₂ => exact ih₂ hnil
  | validate _ hoff | onThreads _ hoff | timeLimitPending _ hoff | timeLimit _ hoff
  | staggerPending _ hoff | stagger _ hoff | mix _ _ hoff =>
    exact absurd hnil (Answer.offer_iff.mp hoff).1
  | any _ _ hbest => exact absurd hnil (Answer.offer_iff.mp hbest.offer).1
  | user hnext hfill => exact absurd hnil (hfill.ne_nil hnext)

/-! ## Offers without end -/

/-- The tree offers an operation in every context, and goes on to do so. -/
inductive Endless : GeneratorPtr → Prop
  | function {f : FunctionGenerator} (hf : f.NeverNil) : Endless (.function f)
  | list {gs : List GeneratorPtr} {g} (hg : g ∈ gs) (h : Endless g) : Endless (.list gs)
  | validate {g} (h : Endless g) : Endless (.validate g)
  | onThreads {g filter} (h : Endless g) : Endless (.onThreads g filter)
  | stagger {dt next_time g} (h : Endless g) : Endless (.stagger dt next_time g)
  | mix {idx} {gs : List GeneratorPtr} {g} (hg : g ∈ gs) (h : Endless g) : Endless (.mix idx gs)
  | any {gs : List GeneratorPtr} {g} (hg : g ∈ gs) (h : Endless g) : Endless (.any gs)

theorem Endless.rebuilt {polled copied : Bool} {g g' : GeneratorPtr} (h : Endless g)
    (hr : Rebuilt polled copied g g') : Endless g' := by
  induction hr with
  | refl => exact h
  | emptyList => cases h with | list hg _ => exact absurd hg (by simp)
  | timeLimitNull | timeLimit | user => cases h
  | list hlen _ ih =>
    cases h with
    | list hg h =>
      obtain ⟨i, hi, hi', rfl⟩ := Pointwise.exists_getElem hlen.symm hg
      exact .list (List.getElem_mem hi) (ih i hi' hi h)
  | validate _ ih => cases h with | validate h => exact .validate (ih h)
  | onThreads _ ih => cases h with | onThreads h => exact .onThreads (ih h)
  | staggerNull _ ih => cases h with | stagger h => exact ih h
  | stagger _ ih => cases h with | stagger h => exact .stagger (ih h)
  | mix _ hlen _ ih =>
    cases h with
    | mix hg h =>
      obtain ⟨i, hi, hi', rfl⟩ := Pointwise.exists_getElem hlen.symm hg
      exact .mix (List.getElem_mem hi) (ih i hi' hi h)
  | any hlen _ ih =>
    cases h with
    | any hg h =>
      obtain ⟨i, hi, hi', rfl⟩ := Pointwise.exists_getElem hlen.symm hg
      exact .any (List.getElem_mem hi) (ih i hi' hi h)

/-- Some member of the tree that is rebuilt offers without end. -/
theorem exists_endless {polled copied : Bool} {gs gs' : List GeneratorPtr}
    (hr : Pointwise (Rebuilt polled copied) gs gs') (h : ∃ g ∈ gs, Endless g) :
    ∃ g ∈ gs', Endless g := by
  obtain ⟨g, hg, hend⟩ := h
  obtain ⟨g', hg', hgg'⟩ := hr.exists_right hg
  exact ⟨g', hg', hend.rebuilt hgg'⟩

/-- A member is replaced by one that offers without end if it did. -/
theorem exists_endless_set {gs copy : List GeneratorPtr} {i : Nat} {g g' : GeneratorPtr}
    (hg : gs[i]? = some g) (hr : Pointwise (Rebuilt true true) gs copy)
    (hg' : Endless g → Endless g') (h : ∃ g ∈ gs, Endless g) :
    ∃ c ∈ copy.set i g', Endless c := by
  obtain ⟨e, he, hend⟩ := h
  obtain ⟨j, hj, rfl⟩ := List.mem_iff_getElem.mp he
  have hj' : j < copy.length := hr.1 ▸ hj
  have hjset : j < (copy.set i g').length := by
    rw [List.length_set]
    exact hj'
  refine ⟨_, List.getElem_mem hjset, ?_⟩
  rw [List.getElem_set]
  split
  · rename_i hij
    subst hij
    rw [List.getElem?_eq_getElem hj] at hg
    exact hg' (Option.some.inj hg ▸ hend)
  · exact hend.rebuilt (hr.2 j hj hj')

/-- A tree that offers without end answers with an offer, and its successor offers on. -/
theorem Answers.endless_gen2 {g : GeneratorPtr} {ctx : Context} {a : Answer} (ha : Answers g ctx a)
    (h : Endless g) : a.Offer ∧ Endless a.gen2 := by
  induction ha with
  | nullptr | pending | operation | timeLimitPending | timeLimit | timeLimitOver | timeLimitNil
  | userNil | user => cases h
  | function _ ih => exact ih (.list (List.mem_cons_of_mem _ (by simp)) h)
  | listEmpty => cases h with | list hg => exact absurd hg (by simp)
  | @listPop first rest ctx a first' copy b ha hgen hnil hcopy hb ih₁ ih₂ =>
    have hcopied := (GeneratorPtr.copyOrNull_rebuilt true hcopy).tail
    apply ih₂
    cases h with
    | list hg h =>
      cases List.mem_cons.mp hg with
      | inl heq => exact absurd hnil (Answer.offer_iff.mp (ih₁ (heq ▸ h)).1).1
      | inr hg =>
        obtain ⟨g', hg', hend⟩ := exists_endless hcopied ⟨_, hg, h⟩
        exact .list hg' hend
  | @listFront first rest ctx a first' copy ha hkeep hcopy hrest ih =>
    have hcopied := (GeneratorPtr.copyOrNull_rebuilt true hcopy).tail
    refine ⟨Answer.offer_iff.mpr ⟨fun hnil ↦ hkeep ⟨ha.gen2_of_nil hnil, hnil⟩, by simp⟩, ?_⟩
    cases h with
    | list hg h =>
      cases List.mem_cons.mp hg with
      | inl heq => exact .list (List.mem_cons_self ..) (ih (heq ▸ h)).2
      | inr hg =>
        obtain ⟨g', hg', hend⟩ := exists_endless hcopied ⟨_, hg, h⟩
        exact .list (List.mem_cons_of_mem _ hg') hend
  | listSingle _ _ ih =>
    cases h with
    | list hg h => exact ih (List.mem_singleton.mp hg ▸ h)
  | validate _ hoff ih =>
    cases h with
    | validate h => exact ⟨Answer.offer_iff.mpr ⟨(Answer.offer_iff.mp hoff).1, by simp⟩,
        .validate (ih h).2⟩
  | validateLast _ hoff ih => cases h with | validate h => exact absurd (ih h).1 hoff
  | onThreads _ hoff ih =>
    cases h with
    | onThreads h => exact ⟨Answer.offer_iff.mpr ⟨(Answer.offer_iff.mp hoff).1, by simp⟩,
        .onThreads (ih h).2⟩
  | onThreadsNil _ hoff ih => cases h with | onThreads h => exact absurd (ih h).1 hoff
  | staggerPending ha hoff =>
    cases h with
    | stagger h => exact ⟨Answer.offer_iff.mpr ⟨(Answer.offer_iff.mp hoff).1, by simp⟩,
        .stagger (h.rebuilt ha.rebuilt)⟩
  | stagger _ hoff _ _ _ ih =>
    cases h with
    | stagger h => exact ⟨Answer.offer_iff.mpr ⟨(Answer.offer_iff.mp hoff).1, by simp⟩,
        .stagger (ih h).2⟩
  | staggerNil _ hoff ih => cases h with | stagger h => exact absurd (ih h).1 hoff
  | mixEmpty => cases h with | mix hg => exact absurd hg (by simp)
  | @mix idx gens gen ctx a copy idx' hgen ha hoff hcopy ih =>
    refine ⟨Answer.offer_iff.mpr ⟨(Answer.offer_iff.mp hoff).1, by simp⟩, ?_⟩
    have hself := (Pointwise.set Rebuilt.refl hgen ha.rebuilt).mono fun _ _ _ hr ↦ hr.weaken
    have hcopied := hself.trans (GeneratorPtr.copyEach_rebuilt true hcopy)
      fun _ _ _ _ h h' ↦ h.trans h'
    cases h with
    | mix hg h =>
      obtain ⟨g', hg', hend⟩ := exists_endless_set hgen hcopied (fun h ↦ (ih h).2) ⟨_, hg, h⟩
      exact .mix hg' hend
  | @mixDrop idx gens gen ctx a copy idx' b hgen ha hoff hcopy hb ih₁ ih₂ =>
    apply ih₂
    cases h with
    | mix hg h =>
      -- the member that was asked made no offer
      have hother := (mem_or_mem_eraseIdx hgen hg).resolve_left
        fun heq ↦ hoff (ih₁ (heq ▸ h)).1
      obtain ⟨g', hg', hend⟩ := exists_endless (GeneratorPtr.copyEach_rebuilt true hcopy)
        ⟨_, hother, h⟩
      exact .mix hg' hend
  | @any gens ctx as i a copy hlen has hbest hcopy ih =>
    refine ⟨Answer.offer_iff.mpr ⟨(Answer.offer_iff.mp hbest.offer).1, by simp⟩, ?_⟩
    have hself : Pointwise (Rebuilt true true) gens (as.map Answer.self) :=
      Pointwise.map_right.mpr ⟨hlen, fun j hj hj' ↦ (has j hj hj').rebuilt.weaken⟩
    have hcopied := hself.trans (GeneratorPtr.copyEach_rebuilt true hcopy)
      fun _ _ _ _ h h' ↦ h.trans h'
    have hget := List.getElem?_eq_some_iff.mp hbest.get
    have hi : i < gens.length := hlen ▸ hget.1
    cases h with
    | any hg h =>
      obtain ⟨g', hg', hend⟩ := exists_endless_set (List.getElem?_eq_getElem hi) hcopied
        (fun h ↦ hget.2 ▸ (ih i hi hget.1 h).2) ⟨_, hg, h⟩
      exact .any hg' hend
  | @anyNil gens ctx as hlen has hnone ih =>
    cases h with
    | any hg h =>
      obtain ⟨j, hj, rfl⟩ := List.mem_iff_getElem.mp hg
      have hj' : j < as.length := hlen ▸ hj
      exact absurd (ih j hj hj' h).1 (hnone _ (List.getElem_mem hj'))

/-! ## Sturdy trees -/

inductive Sturdy : GeneratorPtr → Prop
  | nullptr : Sturdy .nullptr
  | operation {o} : Sturdy (.operation o)
  | function {f : FunctionGenerator} (hf : f.NeverNil) : Sturdy (.function f)
  | list {gs} (h : ∀ g ∈ gs, Sturdy g) : Sturdy (.list gs)
  | validate {g} (h : Sturdy g) : Sturdy (.validate g)
  | onThreads {g filter} (h : Sturdy g) : Sturdy (.onThreads g filter)
  | timeLimit {limit cutoff g} (h : Sturdy g) : Sturdy (.timeLimit limit cutoff g)
  | stagger {dt next_time g} (hdt : dt ≠ 0) (h : Sturdy g) : Sturdy (.stagger dt next_time g)
  | mix {idx} {gs : List GeneratorPtr} (hidx : idx < gs.length)
      (hlast : ∀ g ∈ gs, g.lasting = true) (hend : ∃ g ∈ gs, Endless g) (h : ∀ g ∈ gs, Sturdy g) :
      Sturdy (.mix idx gs)
  | any {gs : List GeneratorPtr} (hlast : ∀ g ∈ gs, g.lasting = true) (h : ∀ g ∈ gs, Sturdy g) :
      Sturdy (.any gs)
  | user {leaf calls} : Sturdy (.user leaf calls)

theorem forall_lasting {polled copied : Bool} {gs gs' : List GeneratorPtr}
    (hr : Pointwise (Rebuilt polled copied) gs gs') (h : ∀ g ∈ gs, g.lasting = true) :
    ∀ g ∈ gs', g.lasting = true :=
  hr.forall_mem (fun _ _ hr h ↦ hr.lasting_eq.trans h) h

theorem Sturdy.rebuilt {polled copied : Bool} {g g' : GeneratorPtr} (h : Sturdy g)
    (hr : Rebuilt polled copied g g') : Sturdy g' := by
  induction hr with
  | refl => exact h
  | emptyList | timeLimitNull | staggerNull => exact .nullptr
  | list hlen _ ih =>
    cases h with
    | list h =>
      exact .list (Pointwise.forall_mem_of_getElem hlen (fun i hi hi' h ↦ ih i hi hi' h) h)
  | validate _ ih => cases h with | validate h => exact .validate (ih h)
  | onThreads _ ih => cases h with | onThreads h => exact .onThreads (ih h)
  | timeLimit _ ih => cases h with | timeLimit h => exact .timeLimit (ih h)
  | stagger _ ih => cases h with | stagger hdt h => exact .stagger hdt (ih h)
  | mix _ hlen hr ih =>
    cases h with
    | mix hidx hlast hend h =>
      apply Sturdy.mix (hlen ▸ hidx) (forall_lasting ⟨hlen, hr⟩ hlast)
        (exists_endless ⟨hlen, hr⟩ hend)
      exact Pointwise.forall_mem_of_getElem hlen (fun i hi hi' h ↦ ih i hi hi' h) h
  | any hlen hr ih =>
    cases h with
    | any hlast h =>
      refine .any (forall_lasting ⟨hlen, hr⟩ hlast) ?_
      exact Pointwise.forall_mem_of_getElem hlen (fun i hi hi' h ↦ ih i hi hi' h) h
  | user => exact .user

theorem forall_sturdy {polled copied : Bool} {gs gs' : List GeneratorPtr}
    (hr : Pointwise (Rebuilt polled copied) gs gs') (h : ∀ g ∈ gs, Sturdy g) :
    ∀ g ∈ gs', Sturdy g :=
  hr.forall_mem (fun _ _ hr h ↦ h.rebuilt hr) h

theorem ne_nullptr_of_lasting {g : GeneratorPtr} (h : g.lasting = true) : g ≠ .nullptr :=
  GeneratorPtr.ne_nullptr_of_solid (GeneratorPtr.solid_of_lasting h)

theorem Sturdy.copyable {g : GeneratorPtr} (h : Sturdy g) (hne : g ≠ .nullptr) : Copyable g := by
  induction h with
  | nullptr => exact absurd rfl hne
  | operation => exact .operation
  | function => exact .function
  | list _ ih => exact .list ih
  | validate _ ih => exact .validate ih
  | onThreads _ ih => exact .onThreads ih
  | timeLimit _ ih => exact .timeLimit ih
  | stagger _ _ ih => exact .stagger ih
  | mix _ hlast _ _ ih => exact .mix fun g hg ↦ ih g hg (ne_nullptr_of_lasting (hlast g hg))
  | any hlast _ ih => exact .any fun g hg ↦ ih g hg (ne_nullptr_of_lasting (hlast g hg))
  | user => exact .user

/-- No fault is tolerated. -/
abbrev NoFault : Fault → Prop := fun _ ↦ False

theorem Sturdy.copyOne {g : GeneratorPtr} (h : Sturdy g) (hne : g ≠ .nullptr) :
    Outcome NoFault (Rebuilt true true g) (GeneratorPtr.copyOne g) := by
  obtain ⟨g', hcopy⟩ := copyOne_ok_iff.mpr (h.copyable hne)
  rw [hcopy]
  exact GeneratorPtr.copyOne_rebuilt hcopy

theorem Sturdy.copyEach {gs : List GeneratorPtr} (h : ∀ g ∈ gs, Sturdy g)
    (hlast : ∀ g ∈ gs, g.lasting = true) :
    Outcome NoFault (Pointwise (Rebuilt true true) gs) (GeneratorPtr.copyEach gs) :=
  copyEach_outcome fun g hg ↦ (h g hg).copyOne (ne_nullptr_of_lasting (hlast g hg))

theorem Sturdy.copyOrNull {gs : List GeneratorPtr} (h : ∀ g ∈ gs, Sturdy g) :
    Outcome NoFault (Pointwise (Rebuilt true true) gs) (GeneratorPtr.copyOrNull gs) :=
  copyOrNull_outcome (.refl _) fun g hg ↦ (h g hg).copyOne

/-- A sturdy tree may be updated, and is sturdy afterwards. -/
theorem Sturdy.update {g : GeneratorPtr} {ctx : Context} {event : Operation} (h : Sturdy g) :
    Outcome NoFault (fun g' ↦ Sturdy g' ∧ (g.lasting = true → g'.lasting = true))
      (GeneratorPtr.update g ctx event) := by
  induction h generalizing ctx with
  | nullptr => exact ⟨.nullptr, id⟩
  | operation => exact ⟨.operation, id⟩
  | function hf => exact ⟨.function hf, id⟩
  | user => exact ⟨.user, id⟩
  | mix hidx hlast hend h => exact ⟨.mix hidx hlast hend h, id⟩
  | @list gs h ih =>
    cases gs with
    | nil => exact ⟨.nullptr, fun hlast ↦ absurd hlast (by decide)⟩
    | cons g gs =>
      rw [GeneratorPtr.update]
      refine (ih g (List.mem_cons_self ..)).bind fun upd hupd ↦
        (Sturdy.copyOrNull h).bind fun copy hcopy ↦ ⟨.list ?_, fun _ ↦ rfl⟩
      obtain ⟨first, copy, -, hcopied, rfl⟩ := hcopy.uncons
      exact List.forall_mem_cons.mpr
        ⟨hupd.1, forall_sturdy hcopied (List.forall_mem_cons.mp h).2⟩
  | validate _ ih =>
    rw [GeneratorPtr.update]
    exact ih.bind fun g' hg' ↦ ⟨.validate hg'.1, fun _ ↦ rfl⟩
  | @onThreads g filter h ih =>
    rw [GeneratorPtr.update]
    split
    · exact ih.bind fun g' hg' ↦ ⟨.onThreads hg'.1, fun _ ↦ rfl⟩
    · exact ⟨.onThreads h, fun _ ↦ rfl⟩
  | timeLimit _ ih =>
    rw [GeneratorPtr.update]
    exact ih.bind fun g' hg' ↦ ⟨.timeLimit hg'.1, hg'.2⟩
  | stagger hdt _ ih =>
    rw [GeneratorPtr.update]
    exact ih.bind fun g' hg' ↦ ⟨.stagger hdt hg'.1, hg'.2⟩
  | any hlast h ih =>
    rw [GeneratorPtr.update]
    refine (updateEach_outcome fun g hg ↦ ih g hg).bind fun gs' hgs' ↦ ⟨.any ?_ ?_, fun _ ↦ rfl⟩
    · exact hgs'.forall_mem (fun _ _ hg' hg ↦ hg'.2 hg) hlast
    · exact hgs'.forall_right fun _ _ hg' ↦ hg'.1

theorem Sturdy.updated {g : GeneratorPtr} (h : Sturdy g) (ctx : Context) (event : Operation) :
    ∃ g', GeneratorPtr.update g ctx event = .ok g' := by
  have houtcome := @Sturdy.update g ctx event h
  cases hupd : GeneratorPtr.update g ctx event with
  | error e =>
    rw [hupd] at houtcome
    exact houtcome.elim
  | ok g' => exact ⟨g', rfl⟩

/-! ## Asking a sturdy tree -/

/-- The call faults in no way, and leaves a sturdy successor. -/
def AsksWell (ask : Ask) (g : GeneratorPtr) (ctx : Context) : Prop :=
  Eval.Yields NoFault (fun a ↦ Answers g ctx a ∧ Sturdy a.gen2) (ask g ctx)

section

variable {ask : Ask} {ctx : Context}

theorem OperationGenerator.op_sturdy (hs : ctx.Staffed) (o : Operation) :
    Eval.Yields NoFault (fun a ↦ Sturdy a.gen2) (OperationGenerator.op o ctx) := by
  refine (fillInOperation_yields (.inr hs) o).bind fun r _ ↦ ?_
  split
  · exact .pure .operation
  · exact .pure .nullptr

theorem UserLeaf.op_sturdy (hs : ctx.Staffed) (leaf : UserLeaf) (calls : List LeafCall) :
    Eval.Yields NoFault (fun a ↦ Sturdy a.gen2) (UserLeaf.op leaf calls ctx) := by
  refine rand_yields.bind fun k _ ↦ ?_
  dsimp only
  split
  · exact .pure .nullptr
  · exact (fillInOperation_yields (.inr hs) _).bind fun _ _ ↦ .pure .user

theorem ListGenerator.op_sturdy {first : GeneratorPtr} {rest : List GeneratorPtr}
    (h : ∀ g ∈ first :: rest, Sturdy g) (hfirst : AsksWell ask first ctx)
    (hrest : ∀ a copy, Answers first ctx a → a.op.type = .kNil →
      Pointwise (Rebuilt true true) rest copy →
      Eval.Yields NoFault (fun b ↦ Sturdy b.gen2) (ask (.list copy) ctx)) :
    Eval.Yields NoFault (fun b ↦ Sturdy b.gen2) (ListGenerator.op ask (first :: rest) ctx) := by
  obtain ⟨h₁, h₂⟩ := List.forall_mem_cons.mp h
  refine hfirst.bind fun a ha ↦ ?_
  have hself : ∀ g ∈ a.self :: rest, Sturdy g :=
    List.forall_mem_cons.mpr ⟨h₁.rebuilt ha.1.rebuilt, h₂⟩
  refine (Eval.Yields.lift (Sturdy.copyOrNull hself)).bind fun copy hcopy ↦ ?_
  obtain ⟨first', copy, -, hcopied, rfl⟩ := hcopy.uncons
  split
  · rename_i hpop
    exact (hrest a copy ha.1 hpop.2 hcopied).bind fun b hb ↦ .pure hb
  · split
    · exact .pure (.list (List.forall_mem_cons.mpr ⟨ha.2, forall_sturdy hcopied h₂⟩))
    · exact .pure ha.2

theorem Stagger.op_sturdy {dt next_time : Int} {gen : GeneratorPtr} (hdt : dt ≠ 0)
    (h : Sturdy gen) (hgen : AsksWell ask gen ctx) :
    Eval.Yields NoFault (fun a ↦ Sturdy a.gen2) (Stagger.op ask dt next_time gen ctx) := by
  refine hgen.bind fun a ha ↦ ?_
  split
  · dsimp only
    split
    · exact .pure (.stagger hdt (h.rebuilt ha.1.rebuilt))
    · exact rand_yields.bind fun r _ ↦ .pure (.stagger hdt ha.2)
  · exact .pure .nullptr

/-- A `Mix` with a member that offers without end keeps it, whichever member it drops. -/
theorem Mix.op_sturdy {idx : Nat} {gens : List GeneratorPtr} (h : Sturdy (.mix idx gens))
    (hmember : ∀ g ∈ gens, AsksWell ask g ctx)
    (hothers : ∀ g idx' copy, gens[idx]? = some g → Sturdy (.mix idx' copy) →
      Pointwise (Rebuilt true true) (gens.eraseIdx idx) copy →
      Eval.Yields NoFault (fun b ↦ Sturdy b.gen2) (ask (.mix idx' copy) ctx)) :
    Eval.Yields NoFault (fun a ↦ Sturdy a.gen2) (Mix.op ask idx gens ctx) := by
  cases h with
  | mix hidx hlast hend h =>
    have hgen := List.getElem?_eq_getElem hidx
    have hmem := List.getElem_mem hidx
    unfold Mix.op
    rw [if_neg (by simpa using List.ne_nil_of_mem hmem), hgen]
    refine (hmember _ hmem).bind fun a ha ↦ ?_
    split
    -- the member makes an offer, and its successor stands in its place
    · rename_i hoff
      have hself := Pointwise.set Rebuilt.refl hgen ha.1.rebuilt
      refine (Eval.Yields.lift (Sturdy.copyEach (forall_sturdy hself h)
        (forall_lasting hself hlast))).bind fun copy hcopy ↦ ?_
      have hcopied := (hself.mono fun _ _ _ hr ↦ hr.weaken).trans hcopy
        fun _ _ _ _ hr hr' ↦ hr.trans hr'
      obtain ⟨e, he, hend'⟩ :=
        exists_endless_set hgen hcopied (fun h ↦ (ha.1.endless_gen2 h).2) hend
      refine (mix_yields (.inr (List.ne_nil_of_mem he))).bind fun m hm ↦ ?_
      obtain ⟨idx', hlt, rfl⟩ := hm
      exact .pure (.mix hlt (forall_mem_set (forall_lasting hcopied hlast) (ha.1.lasting hoff).2)
        ⟨e, he, hend'⟩ (forall_mem_set (forall_sturdy hcopied h) ha.2))
    -- it has nothing to offer, and was not the one that offers without end
    · rename_i hoff
      have hsub (g : GeneratorPtr) (hg : g ∈ gens.eraseIdx idx) : g ∈ gens :=
        List.mem_of_mem_eraseIdx hg
      refine (Eval.Yields.lift (Sturdy.copyEach (fun g hg ↦ h g (hsub g hg))
        fun g hg ↦ hlast g (hsub g hg))).bind fun copy hcopy ↦ ?_
      obtain ⟨g, hg, hg'⟩ := hend
      have hother := (mem_or_mem_eraseIdx hgen hg).resolve_left
        fun heq ↦ hoff (ha.1.endless_gen2 (heq ▸ hg')).1
      obtain ⟨e, he, hend'⟩ := exists_endless hcopy ⟨g, hother, hg'⟩
      refine (mix_yields (.inr (List.ne_nil_of_mem he))).bind fun m hm ↦ ?_
      obtain ⟨idx', hlt, rfl⟩ := hm
      have hnext : Sturdy (.mix idx' copy) :=
        .mix hlt (forall_lasting hcopy fun g hg ↦ hlast g (hsub g hg)) ⟨e, he, hend'⟩
          (forall_sturdy hcopy fun g hg ↦ h g (hsub g hg))
      exact (hothers _ idx' copy hgen hnext hcopy).bind fun b hb ↦ .pure hb

/-- The loop of `Any::op` holds nothing, or a sturdy successor. -/
def Any.Loop.Holds (loop : Any.Loop) : Prop :=
  notNil loop.res_op loop.res_gen = true → Sturdy loop.res_gen ∧ loop.res_gen.lasting = true

theorem Any.consider_sturdy {loop : Any.Loop} (hloop : loop.Holds) (i : Nat) {a : Answer}
    {g : GeneratorPtr} (ha : Answers g ctx a ∧ Sturdy a.gen2) :
    Eval.Yields NoFault Any.Loop.Holds (Any.consider loop i a) := by
  refine (Any.consider_yields loop i a).of_ok fun draws loop' draws' h ↦ ?_
  unfold Any.consider at h
  split at h
  · rename_i hoff
    obtain ⟨cur, d, -, h⟩ := Eval.bind_eq_ok.mp h
    split at h
    · obtain ⟨rfl, -⟩ := Prod.mk.inj (Except.ok.inj h)
      exact fun _ ↦ ⟨ha.2, (ha.1.lasting hoff).2⟩
    · obtain ⟨rfl, -⟩ := Prod.mk.inj (Except.ok.inj h)
      exact hloop
  · obtain ⟨rfl, -⟩ := Prod.mk.inj (Except.ok.inj h)
    exact hloop

theorem Any.poll_sturdy {gens : List GeneratorPtr} (h : ∀ g ∈ gens, AsksWell ask g ctx) (i : Nat)
    {loop : Any.Loop} (hloop : loop.Holds) :
    Eval.Yields NoFault
      (fun p ↦ p.1.Holds ∧ Pointwise (Rebuilt true false) gens (p.2.map Answer.self))
      (Any.poll ask ctx i gens loop) := by
  induction gens generalizing i loop with
  | nil => exact .pure ⟨hloop, .nil⟩
  | cons g gens ih =>
    obtain ⟨hg, hgens⟩ := List.forall_mem_cons.mp h
    exact hg.bind fun a ha ↦ (Any.consider_sturdy hloop i ha).bind fun loop hloop ↦
      (ih hgens (i + 1) hloop).bind fun p hp ↦ .pure ⟨hp.1, .cons ha.1.rebuilt hp.2⟩

theorem Any.op_sturdy {gens : List GeneratorPtr} (h : Sturdy (.any gens))
    (hmember : ∀ g ∈ gens, AsksWell ask g ctx) :
    Eval.Yields NoFault (fun a ↦ Sturdy a.gen2) (Any.op ask gens ctx) := by
  cases h with
  | any hlast h =>
    have hstart : Any.Loop.Holds {} := fun hoff ↦ absurd hoff (by decide)
    refine (Any.poll_sturdy hmember 0 hstart).bind fun p hp ↦ ?_
    obtain ⟨loop, answers⟩ := p
    obtain ⟨hloop, hself⟩ := hp
    dsimp only
    split
    · rename_i hoff
      refine (Eval.Yields.lift (Sturdy.copyEach (forall_sturdy hself h)
        (forall_lasting hself hlast))).bind fun copy hcopy ↦ ?_
      obtain ⟨hres, hreslast⟩ := hloop hoff
      have hlast' := forall_lasting hcopy (forall_lasting hself hlast)
      have hsturdy := forall_sturdy hcopy (forall_sturdy hself h)
      exact .pure (.any (forall_mem_set hlast' hreslast) (forall_mem_set hsturdy hres))
    · exact .pure .nullptr

end

/-- Asking a sturdy tree with enough fuel faults in no way, and leaves a sturdy successor. -/
theorem Sturdy.asksWell (n : Nat) {g : GeneratorPtr} {ctx : Context} (h : Sturdy g)
    (hfuel : g.fuel ≤ n) (hs : ctx.Staffed) : AsksWell (op n) g ctx := by
  suffices Eval.Yields NoFault (fun a ↦ Sturdy a.gen2) (op n g ctx) from
    fun draws ↦ (this draws).mono fun r hr hsturdy ↦ ⟨op_answers n g ctx draws _ _ hr, hsturdy⟩
  induction n generalizing g ctx with
  | zero => exact absurd g.fuel_pos (by omega)
  | succ n ih =>
    have hask {g : GeneratorPtr} {ctx : Context} (h : Sturdy g) (hfuel : g.fuel ≤ n)
        (hs : ctx.Staffed) : AsksWell (op n) g ctx :=
      fun draws ↦ (ih h hfuel hs draws).mono fun r hr hsturdy ↦
        ⟨op_answers n g ctx draws _ _ hr, hsturdy⟩
    cases h with
    | nullptr => exact .pure .nullptr
    | operation => exact OperationGenerator.op_sturdy hs _
    | user => exact UserLeaf.op_sturdy hs _ _
    | @function f hf =>
      refine rand_yields.bind fun k _ ↦ ?_
      -- the operation of the function is a real one, so that the list is not asked twice
      have hn : 2 ≤ n := by
        simp only [GeneratorPtr.fuel] at hfuel
        omega
      obtain ⟨m, rfl⟩ : ∃ m, n = m + 1 := ⟨n - 1, by omega⟩
      have hlist : Eval.Yields NoFault (fun a ↦ Sturdy a.gen2)
          (op (m + 1) (.list [.operation (f.func ctx k), .function f]) ctx) := by
        obtain ⟨l, rfl⟩ : ∃ l, m = l + 1 := ⟨m - 1, by omega⟩
        have hfirst : AsksWell (op (l + 1)) (.operation (f.func ctx k)) ctx :=
          fun draws ↦ (OperationGenerator.op_sturdy hs _ draws).mono fun r hr hsturdy ↦
            ⟨op_answers (l + 1) _ ctx draws _ _ hr, hsturdy⟩
        refine ListGenerator.op_sturdy ?_ hfirst fun a copy ha hnil _ ↦ ?_
        · simpa using ⟨Sturdy.operation, Sturdy.function hf⟩
        · exact absurd hnil (ha.operation_ne_nil (hf ctx k))
      have hcopy : Outcome NoFault (fun copy ↦ copy = .function f)
          (GeneratorPtr.copyOne (.function f)) := by
        rw [GeneratorPtr.copyOne]
        rfl
      refine (Eval.Yields.lift hcopy).bind fun copy hcopy ↦ ?_
      rw [hcopy]
      exact hlist.bind fun a ha ↦ .pure ha
    | @list gens h =>
      cases gens with
      | nil =>
        have hnull : GeneratorPtr.nullptr.fuel ≤ n := by
          simp only [GeneratorPtr.fuel, fuelEach] at hfuel ⊢
          omega
        exact (hask .nullptr hnull hs).bind fun a ha ↦ .pure ha.2
      | cons first rest =>
        have hpos := first.fuel_pos
        simp only [GeneratorPtr.fuel, fuelEach] at hfuel
        refine ListGenerator.op_sturdy h (hask (h first (List.mem_cons_self ..)) (by omega) hs)
          fun a copy _ _ hcopied ↦ ih (.list ?_) ?_ hs
        · exact forall_sturdy hcopied (List.forall_mem_cons.mp h).2
        · have hle := GeneratorPtr.fuelEach_le (hcopied.mono fun _ _ _ hr ↦ hr.fuel_le)
          simp only [GeneratorPtr.fuel]
          omega
    | validate h =>
      simp only [GeneratorPtr.fuel] at hfuel
      refine (hask h (by omega) hs).bind fun a ha ↦ ?_
      split
      · exact .pure (.validate ha.2)
      · exact .pure ha.2
    | onThreads h =>
      simp only [GeneratorPtr.fuel] at hfuel
      refine (hask h (by omega) (hs.onThreadsContext _)).bind fun a ha ↦ ?_
      split
      · exact .pure (.onThreads ha.2)
      · exact .pure .nullptr
    | timeLimit h =>
      simp only [GeneratorPtr.fuel] at hfuel
      refine (hask h (by omega) hs).bind fun a ha ↦ ?_
      split
      · split
        · exact .pure (.timeLimit ha.2)
        · dsimp only
          split
          · exact .pure (.timeLimit ha.2)
          · exact .pure .nullptr
      · exact .pure .nullptr
    | stagger hdt h =>
      simp only [GeneratorPtr.fuel] at hfuel
      exact Stagger.op_sturdy hdt h (hask h (by omega) hs)
    | @mix idx gens hidx hlast hend h =>
      simp only [GeneratorPtr.fuel] at hfuel
      refine Mix.op_sturdy (.mix hidx hlast hend h) (fun g hg ↦ hask (h g hg) ?_ hs)
        fun g idx' copy hgen hnext hcopied ↦ ih hnext ?_ hs
      · have hle := GeneratorPtr.fuel_le_fuelEach hg
        omega
      · have hle := GeneratorPtr.fuelEach_le (hcopied.mono fun _ _ _ hr ↦ hr.fuel_le)
        have hdrop := GeneratorPtr.fuelEach_eraseIdx hgen
        have hpos := g.fuel_pos
        simp only [GeneratorPtr.fuel]
        omega
    | @any gens hlast h =>
      simp only [GeneratorPtr.fuel] at hfuel
      refine Any.op_sturdy (.any hlast h) fun g hg ↦ hask (h g hg) ?_ hs
      have hle := GeneratorPtr.fuel_le_fuelEach hg
      omega

/-- A call on a sturdy tree is answered, whatever is drawn. -/
theorem Sturdy.answered {g : GeneratorPtr} {ctx : Context} (h : Sturdy g) (hs : ctx.Staffed)
    {n : Nat} (hfuel : g.fuel ≤ n) (draws : Draws) : ∃ r, op n g ctx draws = .ok r := by
  have hyields := h.asksWell n hfuel hs draws
  cases hr : op n g ctx draws with
  | error e =>
    rw [hr] at hyields
    exact hyields.elim
  | ok r => exact ⟨r, rfl⟩

/-- With any fuel, what a call on a sturdy tree leaves is sturdy. -/
theorem Sturdy.called {g : GeneratorPtr} {ctx : Context} (h : Sturdy g) (hs : ctx.Staffed) {n : Nat}
    {draws draws' : Draws} {a : Answer} (hop : op n g ctx draws = .ok (a, draws')) :
    Sturdy a.self ∧ Sturdy a.gen2 := by
  have ha := op_answers n g ctx draws a draws' hop
  refine ⟨h.rebuilt ha.rebuilt, ?_⟩
  have hmore := op_mono hop (Nat.le_max_left n g.fuel)
  exact ((h.asksWell _ (Nat.le_max_right n g.fuel) hs draws).ok hmore).2

end Jepsen
