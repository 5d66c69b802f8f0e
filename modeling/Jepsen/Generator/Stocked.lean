import Jepsen.Generator.Idle

/-!
# Mixes with something left

A `Mix` drops a member that has nothing to offer and goes on with the others, which `mix` draws from
by `rand() % gens.size()`.  Where no others are left, this divides by zero.  A tree is `Stocked` if
each `Mix` in it has a member that is more than an empty list.  No call, copy or update takes that
member away, and there a `Mix` that asks an empty list answers as one without it.
-/

namespace Jepsen

open Library
open GeneratorPtr (copyOne copyEach Rebuilt)

/-! ## Stocked trees -/

theorem exists_lasting_rebuilt {polled copied : Bool} {gs gs' : List GeneratorPtr}
    (hr : Pointwise (Rebuilt polled copied) gs gs') (h : ∃ g ∈ gs, g.lasting = true) :
    ∃ g ∈ gs', g.lasting = true := by
  obtain ⟨g, hg, hlast⟩ := h
  obtain ⟨g', hg', hgg'⟩ := hr.exists_right hg
  exact ⟨g', hg', hgg'.lasting_eq.trans hlast⟩

/-- Every `Mix` in the tree that has members has one that is not empty. -/
inductive Stocked : GeneratorPtr → Prop
  | nullptr : Stocked .nullptr
  | operation {o} : Stocked (.operation o)
  | function {f} : Stocked (.function f)
  | list {gs : List GeneratorPtr} (h : ∀ g ∈ gs, Stocked g) : Stocked (.list gs)
  | validate {g} (h : Stocked g) : Stocked (.validate g)
  | onThreads {g filter} (h : Stocked g) : Stocked (.onThreads g filter)
  | timeLimit {limit cutoff g} (h : Stocked g) : Stocked (.timeLimit limit cutoff g)
  | stagger {dt next_time g} (h : Stocked g) : Stocked (.stagger dt next_time g)
  | mix {idx} {gs : List GeneratorPtr} (hlast : gs ≠ [] → ∃ g ∈ gs, g.lasting = true)
      (h : ∀ g ∈ gs, Stocked g) : Stocked (.mix idx gs)
  | any {gs : List GeneratorPtr} (h : ∀ g ∈ gs, Stocked g) : Stocked (.any gs)
  | user {leaf calls} : Stocked (.user leaf calls)

/-- The tree is stocked, up to a `Mix` at its root. -/
def StockedBelow : GeneratorPtr → Prop
  | .mix _ gs => ∀ g ∈ gs, Stocked g
  | g => Stocked g

theorem Stocked.stockedBelow {g : GeneratorPtr} (h : Stocked g) : StockedBelow g := by
  cases h with
  | mix _ h => exact h
  | nullptr => exact .nullptr
  | operation => exact .operation
  | function => exact .function
  | list h => exact .list h
  | validate h => exact .validate h
  | onThreads h => exact .onThreads h
  | timeLimit h => exact .timeLimit h
  | stagger h => exact .stagger h
  | any h => exact .any h
  | user => exact .user

theorem Stocked.rebuilt {polled copied : Bool} {g g' : GeneratorPtr}
    (hr : Rebuilt polled copied g g') (h : Stocked g) : Stocked g' := by
  induction hr with
  | refl => exact h
  | emptyList | timeLimitNull | staggerNull => exact .nullptr
  | list hlen _ ih =>
    cases h with | list h => exact .list (Pointwise.forall_mem_of_getElem hlen ih h)
  | validate _ ih => cases h with | validate h => exact .validate (ih h)
  | onThreads _ ih => cases h with | onThreads h => exact .onThreads (ih h)
  | timeLimit _ ih => cases h with | timeLimit h => exact .timeLimit (ih h)
  | stagger _ ih => cases h with | stagger h => exact .stagger (ih h)
  | mix _ hlen hr ih =>
    cases h with
    | mix hlast h =>
      refine .mix (fun hne ↦ exists_lasting_rebuilt ⟨hlen, hr⟩ (hlast ?_))
        (Pointwise.forall_mem_of_getElem hlen ih h)
      rintro rfl
      exact hne (List.eq_nil_of_length_eq_zero hlen.symm)
  | any hlen _ ih => cases h with | any h => exact .any (Pointwise.forall_mem_of_getElem hlen ih h)
  | user => exact .user

theorem forall_stocked_rebuilt {polled copied : Bool} {gs gs' : List GeneratorPtr}
    (hr : Pointwise (Rebuilt polled copied) gs gs') (h : ∀ g ∈ gs, Stocked g) :
    ∀ g ∈ gs', Stocked g :=
  hr.forall_mem (fun _ _ hgg' hg ↦ hg.rebuilt hgg') h

/-- The successor in an answer is stocked.  A `Mix` that has lost all but empty members on the way
makes no offer, so that it has no successor. -/
theorem Answers.stocked {g : GeneratorPtr} {ctx : Context} {a : Answer} (ha : Answers g ctx a)
    (h : StockedBelow g) : Stocked a.gen2 := by
  induction ha with
  | nullptr | operation | listEmpty | onThreadsNil | timeLimitOver | timeLimitNil | staggerNil
    | mixEmpty | anyNil | userNil => exact .nullptr
  | pending => exact .operation
  | user => exact .user
  | function _ ih => exact ih (.list (by simpa using ⟨Stocked.operation, Stocked.function⟩))
  | listPop ha _ _ hcopy _ _ ih₂ =>
    cases h with
    | list h =>
      have hrest := (GeneratorPtr.copyOrNull_rebuilt true hcopy).tail
      exact ih₂ (.list (forall_stocked_rebuilt hrest (List.forall_mem_cons.mp h).2))
  | listFront ha _ hcopy _ ih =>
    cases h with
    | list h =>
      obtain ⟨hfirst, hothers⟩ := List.forall_mem_cons.mp h
      have hrest := (GeneratorPtr.copyOrNull_rebuilt true hcopy).tail
      exact .list (List.forall_mem_cons.mpr
        ⟨ih hfirst.stockedBelow, forall_stocked_rebuilt hrest hothers⟩)
  | listSingle _ _ ih => cases h with | list h => exact ih (h _ (by simp)).stockedBelow
  | validate _ _ ih => cases h with | validate h => exact .validate (ih h.stockedBelow)
  | validateLast _ _ ih => cases h with | validate h => exact ih h.stockedBelow
  | onThreads _ _ ih => cases h with | onThreads h => exact .onThreads (ih h.stockedBelow)
  | timeLimitPending _ _ _ ih | timeLimit _ _ _ _ _ ih =>
    cases h with | timeLimit h => exact .timeLimit (ih h.stockedBelow)
  -- a pending answer keeps the receiver's own generator
  | staggerPending ha => cases h with | stagger h => exact .stagger (h.rebuilt ha.rebuilt)
  | stagger _ _ _ _ _ ih => cases h with | stagger h => exact .stagger (ih h.stockedBelow)
  | @mix idx gens gen ctx a copy idx' hgen ha hoff hcopy ih =>
    have hmem := List.mem_of_getElem? hgen
    have hself := forall_mem_set (i := idx) h ((h gen hmem).rebuilt ha.rebuilt)
    have hcopied := GeneratorPtr.copyEach_rebuilt true hcopy
    -- the successor of the offer is the member that is not empty
    have hidx : idx < copy.length := by
      rw [← hcopied.1, List.length_set]
      exact (List.getElem?_eq_some_iff.mp hgen).1
    exact .mix (fun _ ↦ ⟨a.gen2, List.mem_set hidx a.gen2, (ha.lasting hoff).2⟩)
      (forall_mem_set (forall_stocked_rebuilt hcopied hself) (ih (h gen hmem).stockedBelow))
  | mixDrop _ _ _ hcopy _ _ ih₂ =>
    have hcopied := GeneratorPtr.copyEach_rebuilt true hcopy
    exact ih₂ (forall_stocked_rebuilt hcopied fun g hg ↦ h g (List.mem_of_mem_eraseIdx hg))
  | @any gens ctx as i a copy hlen has hbest hcopy ih =>
    cases h with
    | any h =>
      have hselves : ∀ b ∈ as, Stocked b.gen2 ∧ Stocked b.self := by
        intro b hb
        obtain ⟨j, hj, hj', rfl⟩ := Pointwise.exists_getElem hlen hb
        have hmem := h _ (List.getElem_mem hj)
        exact ⟨ih j hj hj' hmem.stockedBelow, hmem.rebuilt (has j hj hj').rebuilt⟩
      have hcopied := GeneratorPtr.copyEach_rebuilt true hcopy
      exact .any (forall_mem_set (forall_stocked_rebuilt hcopied
        (List.forall_mem_map.mpr fun b hb ↦ (hselves b hb).2)) (hselves a hbest.mem).1)

/-! ## Inside a tree -/

/-- `t` stands somewhere in the tree. -/
inductive Within (t : GeneratorPtr) : GeneratorPtr → Prop
  | refl : Within t t
  | list {gs : List GeneratorPtr} {g} (hg : g ∈ gs) (h : Within t g) : Within t (.list gs)
  | validate {g} (h : Within t g) : Within t (.validate g)
  | onThreads {g filter} (h : Within t g) : Within t (.onThreads g filter)
  | timeLimit {limit cutoff g} (h : Within t g) : Within t (.timeLimit limit cutoff g)
  | stagger {dt next_time g} (h : Within t g) : Within t (.stagger dt next_time g)
  | mix {idx} {gs : List GeneratorPtr} {g} (hg : g ∈ gs) (h : Within t g) : Within t (.mix idx gs)
  | any {gs : List GeneratorPtr} {g} (hg : g ∈ gs) (h : Within t g) : Within t (.any gs)

theorem Stocked.within {t g : GeneratorPtr} (hw : Within t g) (h : Stocked g) : Stocked t := by
  induction hw with
  | refl => exact h
  | list hg _ ih => cases h with | list h => exact ih (h _ hg)
  | validate _ ih => cases h with | validate h => exact ih h
  | onThreads _ ih => cases h with | onThreads h => exact ih h
  | timeLimit _ ih => cases h with | timeLimit h => exact ih h
  | stagger _ ih => cases h with | stagger h => exact ih h
  | mix hg _ ih => cases h with | mix _ h => exact ih (h _ hg)
  | any hg _ ih => cases h with | any h => exact ih (h _ hg)

/-! ## A `Mix` of empty members -/

/-- A `Mix` with empty members only has no answer at all, where one without members answers nil. -/
theorem op_mix_empty_members {n idx : Nat} {gens : List GeneratorPtr} (hne : gens ≠ [])
    (hempty : ∀ g ∈ gens, g.lasting = false) (ctx : Context) (draws : Draws) (r : Answer × Draws) :
    op n (.mix idx gens) ctx draws ≠ .ok r := by
  -- each round drops a member, until the division by zero
  induction n generalizing idx gens draws r with
  | zero => exact nofun
  | succ n ih =>
    intro h
    cases hget : gens[idx]? with
    | none =>
      have hmix : op (n + 1) (.mix idx gens) ctx = Mix.op (op n) idx gens ctx := rfl
      rw [hmix, Mix.op, if_neg (by simpa using hne), hget] at h
      cases h
    | some g =>
      have hg := hempty g (List.mem_of_getElem? hget)
      rw [op_mix hget] at h
      obtain ⟨a, d, hop, -⟩ := Eval.bind_eq_ok.mp h
      rw [← op_mix hget] at h
      have hoff : ¬ a.Offer := by
        intro hoff
        rw [((op_answers n _ _ _ _ _ hop).lasting hoff).1] at hg
        cases hg
      rw [op_mix_drop hget hop hoff] at h
      obtain ⟨copy, hcopy, h⟩ := Eval.lift_bind_eq_ok.mp h
      obtain ⟨next, d', hnext, h⟩ := Eval.bind_eq_ok.mp h
      obtain ⟨i, hi, rfl⟩ := mix_ok hnext
      obtain ⟨b, d'', hb, -⟩ := Eval.bind_eq_ok.mp h
      have hcopied := GeneratorPtr.copyEach_rebuilt true hcopy
      refine ih (List.ne_nil_of_length_pos (Nat.zero_lt_of_lt hi)) (fun c hc ↦ ?_) _ _ hb
      obtain ⟨g', hg', hr⟩ := hcopied.exists_left hc
      exact hr.lasting_eq.trans (hempty g' (List.mem_of_mem_eraseIdx hg'))

/-- A `Mix` that drops a member goes on with the same copies of the others whether or not it holds an
empty list, which is among them.  Where there are no others, it has no answer either way. -/
theorem mix_drops_beside_empty {n idx : Nat} {xs ys copy : List GeneratorPtr} {g : GeneratorPtr}
    {ctx : Context} {draws d : Draws} {a : Answer} (hget : (xs ++ ys)[idx]? = some g)
    (hop : op n g ctx draws = .ok (a, d)) (hoff : ¬ a.Offer)
    (hcopy : copyEach ((xs ++ ys).eraseIdx idx) = .ok copy) :
    (copy = [] → ∀ r, op (n + 1) (.mix idx (xs ++ ys)) ctx draws ≠ .ok r ∧
      op (n + 1) (.mix (skip xs.length idx) (xs ++ .list [] :: ys)) ctx draws ≠ .ok r) ∧
    (copy ≠ [] → ∃ cs cs', copy = cs ++ cs' ∧
      AnsweredAlike (op (n + 1) (.mix idx (xs ++ ys)) ctx draws)
        (op n (.mix (d 0 % (cs ++ cs').length) (cs ++ cs')) ctx fun i ↦ d (i + 1)) ∧
      AnsweredAlike (op (n + 1) (.mix (skip xs.length idx) (xs ++ .list [] :: ys)) ctx draws)
        (op n (.mix (d 0 % (cs ++ .list [] :: cs').length) (cs ++ .list [] :: cs')) ctx
          fun i ↦ d (i + 1))) := by
  obtain ⟨xs₁, ys₁, herase, herase'⟩ := eraseIdx_skip xs ys (.list []) idx
  have hget' := (getElem?_skip xs ys (.list []) idx).trans hget
  have hsplit := hcopy
  rw [herase, GeneratorPtr.copyEach_append] at hsplit
  obtain ⟨cs, hcs, hsplit⟩ := GeneratorPtr.except_bind_eq_ok.mp hsplit
  obtain ⟨cs', hcs', rfl⟩ := GeneratorPtr.except_map_eq_ok.mp hsplit
  have hcopy' : copyEach ((xs ++ .list [] :: ys).eraseIdx (skip xs.length idx)) =
      .ok (cs ++ .list [] :: cs') := by
    rw [herase', GeneratorPtr.copyEach_split, hcs, hcs']
    rfl
  have halike := op_mix_drop_alike hget' hop hoff hcopy' (by simp)
  refine ⟨fun hnil r ↦ ⟨fun h ↦ ?_, fun h ↦ ?_⟩, fun hne ↦
    ⟨cs, cs', rfl, op_mix_drop_alike hget hop hoff hcopy hne, halike⟩⟩
  · rw [op_mix_drop hget hop hoff, Eval.lift_bind_apply_ok hcopy, hnil] at h
    cases h
  -- the empty list is the last member then
  · obtain ⟨rfl, rfl⟩ := List.append_eq_nil_iff.mp hnil
    obtain ⟨self, hself⟩ := (halike r.1.op r.1.gen2 r.2).mp ⟨r.1.self, h⟩
    exact op_mix_empty_members (by simp) (by simp [GeneratorPtr.lasting]) ctx _ _ hself

end Jepsen
