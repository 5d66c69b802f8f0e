import Jepsen.Generator.Fit

/-!
# Outcomes of a call

A call of `generator::op` has one outcome, whatever fuel it is given beyond what it needs.  What it
needs not to fault is said method by method, under any choice `E` of the faults that are tolerated.
-/

namespace Jepsen

open Library Context
open GeneratorPtr (copyOne copyEach copyOrNull members writeBackEach Rebuilt fuelEach)

/-! ## More fuel never changes an answer -/

/-- `ask` is `ask'`, except that it may run out of fuel. -/
def Refines (ask ask' : Ask) : Prop :=
  ∀ g ctx, Eval.Approx .outOfFuel (ask g ctx) (ask' g ctx)

theorem Any.poll_approx {ask ask' : Ask} (h : Refines ask ask') (ctx : Context) (i : Nat)
    (gens : List GeneratorPtr) (loop : Any.Loop) :
    Eval.Approx .outOfFuel (Any.poll ask ctx i gens loop) (Any.poll ask' ctx i gens loop) := by
  induction gens generalizing i loop with
  | nil => exact .refl _
  | cons g gens ih =>
    exact (h g ctx).bind fun a ↦ (Eval.Approx.refl _).bind fun loop ↦
      (ih (i + 1) loop).bind fun _ ↦ .refl _

theorem opBody_approx {ask ask' : Ask} (h : Refines ask ask') :
    Refines (opBody ask) (opBody ask') := by
  intro g ctx
  cases g with
  | nullptr => exact .refl _
  | operation o => exact .refl _
  | user leaf calls => exact .refl _
  | function f =>
    exact (Eval.Approx.refl _).bind fun k ↦ (Eval.Approx.refl _).bind fun copy ↦
      (h _ ctx).bind fun _ ↦ .refl _
  | list gens =>
    cases gens with
    | nil => exact (h _ ctx).bind fun _ ↦ .refl _
    | cons first rest =>
      refine (h first ctx).bind fun a ↦ (Eval.Approx.refl _).bind fun copy ↦ ?_
      by_cases hpop : a.gen2.isNull ∧ a.op.type = .kNil
      · rw [if_pos hpop, if_pos hpop]
        exact (h _ ctx).bind fun _ ↦ .refl _
      · rw [if_neg hpop, if_neg hpop]
        exact .refl _
  | validate gen => exact (h gen ctx).bind fun _ ↦ .refl _
  | onThreads gen filter => exact (h gen _).bind fun _ ↦ .refl _
  | timeLimit limit cutoff gen => exact (h gen ctx).bind fun _ ↦ .refl _
  | stagger dt next_time gen => exact (h gen ctx).bind fun _ ↦ .refl _
  | mix idx gens =>
    change Eval.Approx _ (Mix.op ask idx gens ctx) (Mix.op ask' idx gens ctx)
    unfold Mix.op
    split
    · exact .refl _
    · cases gens[idx]? with
      | none => exact .refl _
      | some gen =>
        refine (h gen ctx).bind fun a ↦ ?_
        by_cases hoff : notNil a.op a.gen2 = true
        · rw [if_pos hoff, if_pos hoff]
          exact .refl _
        · rw [if_neg hoff, if_neg hoff]
          exact (Eval.Approx.refl _).bind fun copy ↦ (Eval.Approx.refl _).bind fun next ↦
            (h next ctx).bind fun _ ↦ .refl _
  | any gens => exact (Any.poll_approx h ctx 0 gens {}).bind fun _ ↦ .refl _

theorem op_refines_succ (n : Nat) : Refines (op n) (op (n + 1)) := by
  induction n with
  | zero => exact fun g ctx ↦ .bot _
  | succ n ih => exact opBody_approx ih

theorem op_refines {n m : Nat} (h : n ≤ m) : Refines (op n) (op m) := by
  induction h with
  | refl => exact fun g ctx ↦ .refl _
  | step _ ih => exact fun g ctx ↦ (ih g ctx).trans (op_refines_succ _ g ctx)

theorem op_mono {n m : Nat} {g : GeneratorPtr} {ctx : Context} {draws : Draws}
    {r : Answer × Draws} (h : op n g ctx draws = .ok r) (hnm : n ≤ m) :
    op m g ctx draws = .ok r :=
  ((op_refines hnm g ctx).eq_of_ne (by simp [h])).trans h

/-- A call has one answer, whatever its fuel. -/
theorem op_unique {n m : Nat} {g : GeneratorPtr} {ctx : Context} {draws : Draws}
    {r r' : Answer × Draws} (h : op n g ctx draws = .ok r) (h' : op m g ctx draws = .ok r') :
    r = r' :=
  Except.ok.inj ((op_mono h (Nat.le_max_left n m)).symm.trans (op_mono h' (Nat.le_max_right n m)))

/-! ## What a call tolerates -/

section

variable {E : Fault → Prop} {ask : Ask} {n : Nat} {ctx : Context}

theorem fillInOperation_yields (h : E .outOfRange ∨ ctx.Staffed) (o : Operation) :
    Eval.Yields E (fun _ ↦ True) (fillInOperation ctx o) := by
  have hdraw : Eval.Yields E (fun _ ↦ True) ctx.randomFreeProcess := by
    intro draws
    cases hr : ctx.randomFreeProcess draws with
    | error e =>
      obtain ⟨rfl, hs⟩ := randomFreeProcess_error hr
      exact h.resolve_right hs
    | ok r => exact trivial
  exact hdraw.bind fun _ _ ↦ .pure trivial

theorem OperationGenerator.op_yields (h : E .outOfRange ∨ ctx.Staffed) (o : Operation) :
    Eval.Yields E (fun _ ↦ True) (OperationGenerator.op o ctx) := by
  refine (fillInOperation_yields h o).bind fun r _ ↦ ?_
  split
  · exact .pure trivial
  · exact .pure trivial

theorem rand_yields : Eval.Yields E (fun _ ↦ True) rand := fun _ ↦ trivial

theorem UserLeaf.op_yields (h : E .outOfRange ∨ ctx.Staffed) (leaf : UserLeaf)
    (calls : List LeafCall) : Eval.Yields E (fun _ ↦ True) (UserLeaf.op leaf calls ctx) := by
  refine rand_yields.bind fun k _ ↦ ?_
  dsimp only
  split
  · exact .pure trivial
  · exact (fillInOperation_yields h _).bind fun _ _ ↦ .pure trivial

/-- `generator::mix` of at least one generator. -/
theorem mix_yields {gens : List GeneratorPtr} (h : E .divisionByZero ∨ gens ≠ []) :
    Eval.Yields E (fun m ↦ ∃ idx < gens.length, m = .mix idx gens) (mix gens) := by
  refine Eval.Yields.of_ok (rand_yields.bind fun r _ ↦ ?_) fun _ _ _ ↦ mix_ok
  split
  · rename_i hlen
    exact .throw (h.resolve_right fun hne ↦ hne (List.eq_nil_of_length_eq_zero hlen))
  · exact .pure trivial

/-- A list faults only where its first member, its copy or what comes after an exhausted first
member does. -/
theorem ListGenerator.op_yields {first : GeneratorPtr} {rest : List GeneratorPtr}
    (hfit : ∀ g ∈ first :: rest, Fit E g)
    (hfirst : Eval.Yields E (Answers first ctx) (ask first ctx))
    (hrest : ∀ a copy, Answers first ctx a → a.gen2 = .nullptr → a.op.type = .kNil →
      Pointwise (Copied E) rest copy → Eval.Yields E (fun _ ↦ True) (ask (.list copy) ctx)) :
    Eval.Yields E (fun _ ↦ True) (ListGenerator.op ask (first :: rest) ctx) := by
  obtain ⟨hfit₁, hfit₂⟩ := List.forall_mem_cons.mp hfit
  refine hfirst.bind fun a ha ↦ ?_
  have hself : ∀ g ∈ a.self :: rest, Fit E g :=
    List.forall_mem_cons.mpr ⟨hfit₁.polled ha.rebuilt rfl, hfit₂⟩
  refine (Eval.Yields.lift (Fit.copyOrNull hself)).bind fun copy hcopy ↦ ?_
  split
  · rename_i hpop
    obtain ⟨first', copy, -, hcopied, rfl⟩ := hcopy.uncons
    have hgen := GeneratorPtr.isNull_iff.mp hpop.1
    exact (hrest a copy ha hgen hpop.2 hcopied).bind fun _ _ ↦ .pure trivial
  · split
    · exact .pure trivial
    · exact .pure trivial

theorem Any.consider_yields (loop : Any.Loop) (i : Nat) (a : Answer) :
    Eval.Yields E (fun _ ↦ True) (Any.consider loop i a) := by
  unfold Any.consider
  split
  · have hsoonest : Eval.Yields E (fun _ ↦ True) (soonestOpMap loop.cur ⟨a.op, 1, i⟩) := by
      unfold soonestOpMap
      split
      · exact .pure trivial
      · split
        · exact .pure trivial
        · split
          · refine rand_yields.bind fun r _ ↦ ?_
            -- the member that was just polled has weight 1
            rw [if_neg (by simp)]
            split
            · exact .pure trivial
            · exact .pure trivial
          · exact .pure trivial
    refine hsoonest.bind fun cur _ ↦ ?_
    split
    · exact .pure trivial
    · exact .pure trivial
  · exact .pure trivial

theorem Any.poll_yields {gens : List GeneratorPtr}
    (h : ∀ g ∈ gens, Eval.Yields E (Answers g ctx) (ask g ctx)) (i : Nat) (loop : Any.Loop) :
    Eval.Yields E (fun p ↦ Pointwise (fun g a ↦ Answers g ctx a) gens p.2)
      (Any.poll ask ctx i gens loop) := by
  induction gens generalizing i loop with
  | nil => exact .pure .nil
  | cons g gens ih =>
    obtain ⟨hg, hgens⟩ := List.forall_mem_cons.mp h
    exact hg.bind fun a ha ↦ (Any.consider_yields loop i a).bind fun loop _ ↦
      (ih hgens (i + 1) loop).bind fun p hp ↦ .pure (.cons ha hp)

theorem Stagger.op_yields {dt next_time : Int} {gen : GeneratorPtr}
    (hdt : E .divisionByZero ∨ dt ≠ 0)
    (hgen : Eval.Yields E (Answers gen ctx) (ask gen ctx)) :
    Eval.Yields E (fun _ ↦ True) (Stagger.op ask dt next_time gen ctx) := by
  refine hgen.bind fun a _ ↦ ?_
  split
  · dsimp only
    split
    · exact .pure trivial
    · refine rand_yields.bind fun r _ ↦ ?_
      split
      · rename_i hzero
        exact .throw (hdt.resolve_right fun hne ↦ hne hzero)
      · exact .pure trivial
  · exact .pure trivial

/-- `Mix` asks one member, and then, if that has nothing to offer, a `Mix` of copies of the
others. -/
theorem Mix.op_yields {idx : Nat} {gens : List GeneratorPtr} (hfit : Fit E (.mix idx gens))
    (hmember : ∀ g ∈ gens, Eval.Yields E (Answers g ctx) (ask g ctx))
    (hothers : ∀ idx' copy, Fit E (.mix idx' copy) →
      Eval.Yields E (fun _ ↦ True) (ask (.mix idx' copy) ctx)) :
    Eval.Yields E (fun _ ↦ True) (Mix.op ask idx gens ctx) := by
  cases hfit with
  | mix hidx hsolid hoffers hfits =>
    unfold Mix.op
    split
    · exact .pure trivial
    · cases hgen : gens[idx]? with
      | none =>
        have hout : ¬ idx < gens.length := not_lt.mpr (List.getElem?_eq_none_iff.mp hgen)
        exact .throw (hidx.resolve_right hout)
      | some gen =>
        have hmem := List.mem_of_getElem? hgen
        refine (hmember gen hmem).bind fun a ha ↦ ?_
        split
        · -- the members are copied after the call, which left one of them changed
          have hset : ∀ g ∈ gens.set idx a.self,
              Fit E g ∧ ((∀ g ∈ gens, g.solid = true) → g.solid = true) := by
            refine forall_mem_set (fun g hg ↦ ⟨hfits g hg, fun hs ↦ hs g hg⟩) ⟨?_, fun hs ↦ ?_⟩
            · exact (hfits gen hmem).polled ha.rebuilt rfl
            · exact ha.rebuilt.solid_of_polled rfl (hs gen hmem)
          have hcopy := Fit.copyEach (fun g hg ↦ (hset g hg).1)
            (hsolid.imp id fun hs g hg ↦ (hset g hg).2 hs)
          refine (Eval.Yields.lift hcopy).bind fun copy hcopied ↦ ?_
          have hne : copy.set idx a.gen2 ≠ [] := by
            intro hnil
            have hcopy : copy = [] := by simpa using hnil
            have hlen := hcopied.1
            rw [hcopy, List.length_set, List.length_nil] at hlen
            exact List.ne_nil_of_mem hmem (List.eq_nil_of_length_eq_zero hlen)
          exact (mix_yields (.inr hne)).bind fun _ _ ↦ .pure trivial
        · rename_i hoff
          have hcopy := Fit.copyEach
            (fun g hg ↦ hfits g (List.mem_of_mem_eraseIdx (i := idx) hg))
            (hsolid.imp id fun hs g hg ↦ hs g (List.mem_of_mem_eraseIdx hg))
          refine (Eval.Yields.lift hcopy).bind fun copy hcopied ↦ ?_
          -- a member that always offers was not the one that was asked
          have hkept : E .divisionByZero ∨ ∃ g ∈ copy, Offers g := by
            refine hoffers.imp id fun ⟨g, hg, ho⟩ ↦ ?_
            have hother := (mem_or_mem_eraseIdx hgen hg).resolve_left
              fun heq ↦ hoff ((heq ▸ ho).offer ha)
            obtain ⟨g', hg', hgg'⟩ := hcopied.exists_right hother
            exact ⟨g', hg', ho.rebuilt hgg'.rebuilt⟩
          have hne : E .divisionByZero ∨ copy ≠ [] :=
            hkept.imp id fun ⟨g, hg, _⟩ ↦ List.ne_nil_of_mem hg
          refine (mix_yields hne).bind fun m hm ↦ ?_
          obtain ⟨idx', hlt, rfl⟩ := hm
          have hfit' : Fit E (.mix idx' copy) := by
            refine .mix (.inr hlt) (hsolid.imp id fun hs ↦ ?_) hkept
              (hcopied.forall_right fun _ _ h ↦ h.fit)
            exact hcopied.forall_mem (fun _ _ h hs ↦ h.solid hs)
              fun g hg ↦ hs g (List.mem_of_mem_eraseIdx hg)
          exact (hothers idx' copy hfit').bind fun _ _ ↦ .pure trivial

theorem Any.op_yields {gens : List GeneratorPtr} (hfit : Fit E (.any gens))
    (hmember : ∀ g ∈ gens, Eval.Yields E (Answers g ctx) (ask g ctx)) :
    Eval.Yields E (fun _ ↦ True) (Any.op ask gens ctx) := by
  cases hfit with
  | any hsolid hfits =>
    refine (Any.poll_yields hmember 0 {}).bind fun p hp ↦ ?_
    obtain ⟨loop, answers⟩ := p
    dsimp only at hp ⊢
    split
    · have hself : Pointwise (fun g g' ↦ Rebuilt true false g g') gens (answers.map Answer.self) :=
        Pointwise.map_right.mpr (hp.mono fun g _ a ha ↦ ha.rebuilt)
      have hfits' : ∀ g' ∈ answers.map Answer.self, Fit E g' := by
        exact hself.forall_mem (fun _ _ hr hg ↦ hg.polled hr rfl) hfits
      have hsolid' : E .nullPointer ∨ ∀ g' ∈ answers.map Answer.self, g'.solid = true := by
        exact hsolid.imp id (hself.forall_mem fun _ _ hr ↦ hr.solid_of_polled rfl)
      exact (Eval.Yields.lift (Fit.copyEach hfits' hsolid')).bind fun _ _ ↦ .pure trivial
    · exact .pure trivial

/-- A list whose first member is a real operation is not asked again. -/
theorem op_list_operation_yields (h : E .outOfRange ∨ ctx.Staffed) {o : Operation}
    (ho : o.type ≠ .kNil) (f : FunctionGenerator) :
    Eval.Yields E (fun _ ↦ True) (op (n + 2) (.list [.operation o, .function f]) ctx) := by
  have hfirst : Eval.Yields E (Answers (.operation o) ctx) (op (n + 1) (.operation o) ctx) :=
    Eval.Yields.of_ok (OperationGenerator.op_yields h o) (op_answers (n + 1) (.operation o) ctx)
  refine ListGenerator.op_yields ?_ hfirst fun a copy ha _ hnil _ ↦ ?_
  · simpa using ⟨Fit.operation, Fit.function⟩
  · exact absurd hnil (ha.operation_ne_nil ho)

end

/-- A fit tree faults only as is tolerated. -/
theorem op_yields {E : Fault → Prop} (n : Nat) {g : GeneratorPtr} {ctx : Context} (hfit : Fit E g)
    (hout : E .outOfFuel) (hstaffed : E .outOfRange ∨ ctx.Staffed) :
    Eval.Yields E (Answers g ctx) (op n g ctx) := by
  refine Eval.Yields.of_ok ?_ fun s a s' ↦ op_answers n g ctx s a s'
  induction n generalizing g ctx with
  | zero => exact .throw hout
  | succ n ih =>
    have hask {g : GeneratorPtr} {ctx : Context} (hfit : Fit E g)
        (hstaffed : E .outOfRange ∨ ctx.Staffed) : Eval.Yields E (Answers g ctx) (op n g ctx) :=
      (ih hfit hstaffed).of_ok fun s a s' ↦ op_answers n g ctx s a s'
    cases g with
    | nullptr => exact .pure trivial
    | operation o => exact OperationGenerator.op_yields hstaffed o
    | user leaf calls => exact UserLeaf.op_yields hstaffed leaf calls
    | function f =>
      have hcopy : Outcome E (fun copy ↦ copy = .function f) (copyOne (.function f)) := by
        rw [copyOne]
        rfl
      refine rand_yields.bind fun k _ ↦ (Eval.Yields.lift hcopy).bind fun copy hcopy ↦ ?_
      rw [hcopy]
      -- the function is asked for the list that it becomes
      have hlist : Fit E (.list [.operation (f.func ctx k), .function f]) :=
        .list (by simpa using ⟨Fit.operation, Fit.function⟩)
      exact (ih hlist hstaffed).bind fun _ _ ↦ .pure trivial
    | list gens =>
      cases hfit with
      | list hfits =>
        cases gens with
        | nil => exact (hask .nullptr hstaffed).bind fun _ _ ↦ .pure trivial
        | cons first rest =>
          refine ListGenerator.op_yields hfits (hask (hfits first (by simp)) hstaffed)
            fun a copy _ _ _ hcopied ↦ ih (.list fun g' hg' ↦ ?_) hstaffed
          obtain ⟨g, -, hgg'⟩ := hcopied.exists_left hg'
          exact hgg'.fit
    | validate gen =>
      cases hfit with
      | validate hfit =>
        refine (hask hfit hstaffed).bind fun a _ ↦ ?_
        split
        · exact .pure trivial
        · exact .pure trivial
    | onThreads gen filter =>
      cases hfit with
      | onThreads hfit =>
        have hgen := hask hfit (hstaffed.imp id fun hs ↦ hs.onThreadsContext filter)
        refine hgen.bind fun a _ ↦ ?_
        split
        · exact .pure trivial
        · exact .pure trivial
    | timeLimit limit cutoff gen =>
      cases hfit with
      | timeLimit hfit =>
        refine (hask hfit hstaffed).bind fun a _ ↦ ?_
        split
        · split
          · exact .pure trivial
          · dsimp only
            split
            · exact .pure trivial
            · exact .pure trivial
        · exact .pure trivial
    | stagger dt next_time gen =>
      cases hfit with
      | stagger hdt hfit => exact Stagger.op_yields hdt (hask hfit hstaffed)
    | mix idx gens =>
      have hmember : ∀ g ∈ gens, Eval.Yields E (Answers g ctx) (op n g ctx) := by
        cases hfit with
        | mix _ _ _ hfits => exact fun g hg ↦ hask (hfits g hg) hstaffed
      exact Mix.op_yields hfit hmember fun idx' copy hfit' ↦ ih hfit' hstaffed
    | any gens =>
      refine Any.op_yields hfit fun g hg ↦ ?_
      cases hfit with | any _ hfits => exact hask (hfits g hg) hstaffed

end Jepsen
