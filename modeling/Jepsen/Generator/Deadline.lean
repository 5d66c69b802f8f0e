import Jepsen.Generator.Derive
import Jepsen.Generator.Discard
import Jepsen.Generator.Leaves

/-!
# The deadline of a `TimeLimit`

The first real operation of a `TimeLimit` fixes its cutoff.  All objects derived from it and from
the successor in that answer have this cutoff, whoever makes the calls: `Arises` shows that a call
on an enclosing tree reaches its `TimeLimit` nodes by calls of its own on them.
-/

namespace Jepsen

open Library GeneratorFactory
open GeneratorPtr (copyOne copyEach copyOrNull members writeBack writeBackEach update Rebuilt)

/-- What may happen to an object: a call on it, or, to a `TimeLimit`, a call on the generator that
it holds through another pointer to it. -/
inductive Derives : Lts GeneratorPtr (Option Call)
  | call {g c g'} (h : Calls g c g') : Derives g (some c) g'
  | inside {limit cutoff gen gen'} (h : Rebuilt true false gen gen') :
      Derives (.timeLimit limit cutoff gen) none (.timeLimit limit cutoff gen')

/-- No step returns a real operation. -/
def Unanswered (_ : GeneratorPtr) (c : Option Call) : Prop :=
  ∀ ctx a, c = some (.asked ctx a) → ¬ a.op.Real

/-! ## One node -/

/-- A `TimeLimit` with the limit `limit` and the cutoff `cutoff` over leaves with `P`, or what is
left of one. -/
inductive Limited (P : LeafProperty) (limit cutoff : Int) : GeneratorPtr → Prop
  | ended : Limited P limit cutoff .nullptr
  | timeLimit {gen} (h : AllLeaves P [] gen) : Limited P limit cutoff (.timeLimit limit cutoff gen)

section Node

variable {P : LeafProperty} {limit cutoff : Int} {g : GeneratorPtr}

theorem Limited.rebuilt {polled copied : Bool} {gen gen' : GeneratorPtr}
    (hr : Rebuilt polled copied gen gen') (h : AllLeaves P [] gen) :
    Limited P limit cutoff (.timeLimit limit cutoff gen') :=
  .timeLimit (h.rebuilt hr)

/-- A real answer fixes the cutoff and comes before it; no other answer changes it. -/
theorem Limited.answers {ctx : Context} {a : Answer} (h : Limited P limit cutoff g)
    (ha : Answers g ctx a) (hcut : cutoff ≠ kInvalidTime ∨ 0 < limit) {cutoff' : Int}
    (hreal : a.op.Real → cutoff' = TimeLimit.fix limit cutoff a.op.time)
    (hnot : ¬ a.op.Real → cutoff' = cutoff) :
    Limited P limit cutoff' a.gen2 ∧ Limited P limit cutoff' a.self ∧
      (a.op.Real → a.op.time < cutoff') := by
  have hnil : ¬ Operation.Real { type := .kNil } := by decide
  cases h with
  | ended =>
    cases ha
    exact ⟨.ended, .ended, fun hr ↦ absurd hr hnil⟩
  | timeLimit hleaves =>
    cases ha with
    | timeLimitPending hb hoff hp =>
      rw [hnot fun hr ↦ hr.2 hp]
      exact ⟨.timeLimit (hb.sourced hleaves).2, .rebuilt hb.rebuilt hleaves,
        fun hr ↦ absurd hp hr.2⟩
    | timeLimit hb hoff hp hfix hlt =>
      have hr : Operation.Real _ := ⟨(Answer.offer_iff.mp hoff).1, hp⟩
      rw [hreal hr, ← hfix]
      exact ⟨.timeLimit (hb.sourced hleaves).2, .rebuilt hb.rebuilt hleaves, fun _ ↦ hlt⟩
    | timeLimitOver hb hoff hp hfix hle =>
      -- a cutoff that was just fixed is not over yet
      have hset : cutoff ≠ kInvalidTime := by
        rintro rfl
        rw [TimeLimit.fix, if_pos rfl] at hfix
        rcases hcut with h | h
        · exact h rfl
        · omega
      rw [TimeLimit.fix_of_ne hset] at hfix
      rw [hnot hnil, hfix]
      exact ⟨.ended, .rebuilt hb.rebuilt hleaves, fun hr ↦ absurd hr hnil⟩
    | timeLimitNil hb =>
      rw [hnot hnil]
      exact ⟨.ended, .rebuilt hb.rebuilt hleaves, fun hr ↦ absurd hr hnil⟩

theorem Limited.asked {ctx : Context} {a : Answer} (h : Limited P limit cutoff g)
    (ha : Answers g ctx a) (hcut : cutoff ≠ kInvalidTime ∨ (0 < limit ∧ ¬ a.op.Real)) :
    Limited P limit cutoff a.gen2 ∧ Limited P limit cutoff a.self := by
  have hsame := h.answers ha (hcut.imp_right And.left)
    (fun hr ↦ hcut.elim (fun hset ↦ (TimeLimit.fix_of_ne hset).symm) fun h ↦ absurd hr h.2)
    fun _ ↦ rfl
  exact ⟨hsame.1, hsame.2.1⟩

/-- An object keeps its cutoff, also one that is not fixed yet as long as no answer is real. -/
theorem Limited.derives {c : Option Call} {g' : GeneratorPtr} (h : Limited P limit cutoff g)
    (hd : Derives g c g') (hcut : cutoff ≠ kInvalidTime ∨ (0 < limit ∧ Unanswered g c)) :
    Limited P limit cutoff g' := by
  cases hd with
  | inside hr => cases h with | timeLimit hleaves => exact .rebuilt hr hleaves
  | call hc =>
    cases hc with
    | kept ha => exact (h.asked ha (hcut.imp_right fun hu ↦ ⟨hu.1, hu.2 _ _ rfl⟩)).1
    | discarded ha => exact (h.asked ha (hcut.imp_right fun hu ↦ ⟨hu.1, hu.2 _ _ rfl⟩)).2
    | updated hup =>
      cases h with
      | ended =>
        obtain rfl := Except.ok.inj hup
        exact .ended
      | timeLimit hleaves =>
        rw [update] at hup
        obtain ⟨gen', hgen, rfl⟩ := GeneratorPtr.except_map_eq_ok.mp hup
        exact .rebuilt (GeneratorPtr.update_rebuilt hgen) hleaves
    | copied hcopy =>
      cases h with
      | ended => simp [copyOne] at hcopy
      | timeLimit hleaves =>
        rw [copyOne] at hcopy
        rcases GeneratorPtr.copyWrapped_eq_ok.mp hcopy with ⟨-, rfl⟩ | ⟨gen', hgen, rfl⟩
        · exact .ended
        · have hr : Rebuilt true true _ gen' := GeneratorPtr.copyOne_rebuilt hgen
          exact .rebuilt hr hleaves

theorem Limited.reachable {g' : GeneratorPtr} (hset : cutoff ≠ kInvalidTime)
    (h : Limited P limit cutoff g) (hrun : Reachable Derives g g') : Limited P limit cutoff g' :=
  hrun.invariant h fun _ _ _ hd h ↦ h.derives hd (.inl hset)

/-- Until a real operation is returned the cutoff stays open. -/
theorem Limited.reachable_unanswered {g' : GeneratorPtr} (hlimit : 0 < limit)
    (h : Limited P limit kInvalidTime g) (hrun : Reachable (Derives.restrict Unanswered) g g') :
    Limited P limit kInvalidTime g' :=
  hrun.invariant h fun _ _ _ hd h ↦ h.derives hd.2 (.inr ⟨hlimit, hd.1⟩)

end Node

/-! ## The nodes inside a tree -/

/-- The node `.timeLimit limit cutoff gen` occurs in a tree. -/
inductive HasLimit (limit cutoff : Int) (gen : GeneratorPtr) : GeneratorPtr → Prop
  | here : HasLimit limit cutoff gen (.timeLimit limit cutoff gen)
  | list {gs : List GeneratorPtr} {g} (hg : g ∈ gs) (h : HasLimit limit cutoff gen g) :
      HasLimit limit cutoff gen (.list gs)
  | validate {g} (h : HasLimit limit cutoff gen g) : HasLimit limit cutoff gen (.validate g)
  | onThreads {g filter} (h : HasLimit limit cutoff gen g) :
      HasLimit limit cutoff gen (.onThreads g filter)
  | timeLimit {limit' cutoff' g} (h : HasLimit limit cutoff gen g) :
      HasLimit limit cutoff gen (.timeLimit limit' cutoff' g)
  | stagger {dt next_time g} (h : HasLimit limit cutoff gen g) :
      HasLimit limit cutoff gen (.stagger dt next_time g)
  | mix {idx} {gs : List GeneratorPtr} {g} (hg : g ∈ gs) (h : HasLimit limit cutoff gen g) :
      HasLimit limit cutoff gen (.mix idx gs)
  | any {gs : List GeneratorPtr} {g} (hg : g ∈ gs) (h : HasLimit limit cutoff gen g) :
      HasLimit limit cutoff gen (.any gs)

/-- `t` derives from a `TimeLimit` that occurs in `g`. -/
def Arises (t g : GeneratorPtr) : Prop :=
  ∃ limit cutoff gen, HasLimit limit cutoff gen g ∧
    Reachable Derives (.timeLimit limit cutoff gen) t

/-- Every `TimeLimit` in `g'` derives from one in `g`. -/
def From (g' g : GeneratorPtr) : Prop :=
  ∀ limit cutoff gen, HasLimit limit cutoff gen g' → Arises (.timeLimit limit cutoff gen) g

theorem From.of_subset {g' g : GeneratorPtr}
    (h : ∀ limit cutoff gen, HasLimit limit cutoff gen g' → HasLimit limit cutoff gen g) :
    From g' g :=
  fun limit cutoff gen ht ↦ ⟨limit, cutoff, gen, h _ _ _ ht, .refl _ _⟩

theorem From.refl (g : GeneratorPtr) : From g g :=
  .of_subset fun _ _ _ h ↦ h

theorem Arises.from {t g' g : GeneratorPtr} (ht : Arises t g') (h : From g' g) : Arises t g := by
  obtain ⟨limit, cutoff, gen, hin, run, hrun⟩ := ht
  obtain ⟨limit₀, cutoff₀, gen₀, hin₀, run₀, hrun₀⟩ := h limit cutoff gen hin
  exact ⟨limit₀, cutoff₀, gen₀, hin₀, run₀ ++ run, hrun₀.append hrun⟩

theorem From.trans {g'' g' g : GeneratorPtr} (h' : From g'' g') (h : From g' g) : From g'' g :=
  fun limit cutoff gen ht ↦ (h' limit cutoff gen ht).from h

theorem From.nullptr (g : GeneratorPtr) : From .nullptr g := by
  rintro _ _ _ ⟨⟩

-- The members of a list stand for all members of a container.
theorem From.list {gs : List GeneratorPtr} {g : GeneratorPtr} (h : ∀ g' ∈ gs, From g' g) :
    From (.list gs) g := by
  intro limit cutoff gen ht
  cases ht with | list hg' ht => exact h _ hg' limit cutoff gen ht

theorem From.member {gs : List GeneratorPtr} {g : GeneratorPtr} (hg : g ∈ gs) :
    From g (.list gs) :=
  .of_subset fun _ _ _ h ↦ .list hg h

theorem From.pointwise {gs' gs : List GeneratorPtr}
    (h : Pointwise (fun g g' ↦ From g' g) gs gs') : From (.list gs') (.list gs) := by
  refine .list fun g' hg' ↦ ?_
  obtain ⟨g, hg, hgg'⟩ := h.exists_left hg'
  exact hgg'.trans (.member hg)

theorem From.mix_list (idx : Nat) (gs : List GeneratorPtr) : From (.mix idx gs) (.list gs) :=
  .of_subset fun _ _ _ ht ↦ by cases ht with | mix hg ht => exact .list hg ht

theorem From.list_mix (idx : Nat) (gs : List GeneratorPtr) : From (.list gs) (.mix idx gs) :=
  .of_subset fun _ _ _ ht ↦ by cases ht with | list hg ht => exact .mix hg ht

theorem From.mix {gs' gs : List GeneratorPtr} (h : From (.list gs') (.list gs)) (idx idx' : Nat) :
    From (.mix idx' gs') (.mix idx gs) :=
  ((From.mix_list idx' gs').trans h).trans (.list_mix idx gs)

theorem From.any_list (gs : List GeneratorPtr) : From (.any gs) (.list gs) :=
  .of_subset fun _ _ _ ht ↦ by cases ht with | any hg ht => exact .list hg ht

theorem From.list_any (gs : List GeneratorPtr) : From (.list gs) (.any gs) :=
  .of_subset fun _ _ _ ht ↦ by cases ht with | list hg ht => exact .any hg ht

theorem From.any {gs' gs : List GeneratorPtr} (h : From (.list gs') (.list gs)) :
    From (.any gs') (.any gs) :=
  ((From.any_list gs').trans h).trans (.list_any gs)

section Wrappers

variable {g' g : GeneratorPtr} (h : From g' g)
include h

theorem From.into_validate : From g' (.validate g) :=
  h.trans (.of_subset fun _ _ _ ht ↦ .validate ht)

theorem From.into_onThreads (filter : ThreadFilter) : From g' (.onThreads g filter) :=
  h.trans (.of_subset fun _ _ _ ht ↦ .onThreads ht)

theorem From.into_timeLimit (limit cutoff : Int) : From g' (.timeLimit limit cutoff g) :=
  h.trans (.of_subset fun _ _ _ ht ↦ .timeLimit ht)

theorem From.into_stagger (dt next_time : Int) : From g' (.stagger dt next_time g) :=
  h.trans (.of_subset fun _ _ _ ht ↦ .stagger ht)

theorem From.validate : From (.validate g') (.validate g) := by
  intro limit cutoff gen ht
  cases ht with | validate ht => exact h.into_validate _ _ _ ht

theorem From.onThreads (filter : ThreadFilter) :
    From (.onThreads g' filter) (.onThreads g filter) := by
  intro limit cutoff gen ht
  cases ht with | onThreads ht => exact h.into_onThreads filter _ _ _ ht

theorem From.stagger (dt next_time dt' next_time' : Int) :
    From (.stagger dt' next_time' g') (.stagger dt next_time g) := by
  intro limit cutoff gen ht
  cases ht with | stagger ht => exact h.into_stagger dt next_time _ _ _ ht

-- The node itself derives from the old node by a step of its own.
theorem From.timeLimit {limit cutoff cutoff' : Int}
    (hstep : Reachable Derives (.timeLimit limit cutoff g) (.timeLimit limit cutoff' g')) :
    From (.timeLimit limit cutoff' g') (.timeLimit limit cutoff g) := by
  intro limit₀ cutoff₀ gen ht
  cases ht with
  | here => exact ⟨limit, cutoff, g, .here, hstep⟩
  | timeLimit ht => exact h.into_timeLimit limit cutoff _ _ _ ht

end Wrappers

/-! ## Calls on the tree around a node -/

theorem reachable_call {g g' : GeneratorPtr} {c : Call} (h : Calls g c g') :
    Reachable Derives g g' :=
  (Reachable.refl Derives g).step (.call h)

theorem reachable_inside {limit cutoff : Int} {gen gen' : GeneratorPtr}
    (h : Rebuilt true false gen gen') :
    Reachable Derives (.timeLimit limit cutoff gen) (.timeLimit limit cutoff gen') :=
  (Reachable.refl Derives _).step (.inside h)

theorem copyOne_from {g g' : GeneratorPtr} (hcopy : copyOne g = .ok g') : From g' g := by
  induction g generalizing g' with
  | nullptr => simp [copyOne] at hcopy
  | operation o | function f | user leaf calls =>
    obtain rfl := Except.ok.inj hcopy
    exact .refl _
  | list gs ih =>
    rw [copyOne] at hcopy
    obtain ⟨gs', hgs, rfl⟩ := GeneratorPtr.except_map_eq_ok.mp hcopy
    exact .pointwise (GeneratorPtr.copyOrNull_pointwise (.refl _) (fun g hg g' ↦ ih g hg) hgs)
  | validate g ih =>
    rw [copyOne] at hcopy
    rcases GeneratorPtr.copyWrapped_eq_ok.mp hcopy with ⟨-, rfl⟩ | ⟨g₁, hg, rfl⟩
    · exact .validate (.nullptr g)
    · exact .validate (ih hg)
  | onThreads g filter ih =>
    rw [copyOne] at hcopy
    rcases GeneratorPtr.copyWrapped_eq_ok.mp hcopy with ⟨-, rfl⟩ | ⟨g₁, hg, rfl⟩
    · exact .onThreads (.nullptr g) filter
    · exact .onThreads (ih hg) filter
  -- The node itself is reached by this copy, before its child is looked at.
  | timeLimit limit cutoff g ih =>
    have hstep := reachable_call (.copied hcopy)
    rw [copyOne] at hcopy
    rcases GeneratorPtr.copyWrapped_eq_ok.mp hcopy with ⟨-, rfl⟩ | ⟨g₁, hg, rfl⟩
    · exact .nullptr _
    · exact .timeLimit (ih hg) hstep
  | stagger dt nt g ih =>
    rw [copyOne] at hcopy
    rcases GeneratorPtr.copyWrapped_eq_ok.mp hcopy with ⟨-, rfl⟩ | ⟨g₁, hg, rfl⟩
    · exact .nullptr _
    · exact .stagger (ih hg) dt nt dt kInvalidTime
  -- `Mix` copies itself, so that it has the nodes it had.
  | mix idx gs _ =>
    rw [copyOne] at hcopy
    obtain ⟨gs', -, rfl⟩ := GeneratorPtr.except_map_eq_ok.mp hcopy
    exact .refl _
  | any gs ih =>
    rw [copyOne] at hcopy
    obtain ⟨gs', hgs, rfl⟩ := GeneratorPtr.except_map_eq_ok.mp hcopy
    exact .any (.pointwise (GeneratorPtr.copyEach_pointwise (fun g hg g' ↦ ih g hg) hgs))

theorem copyEach_from {gs gs' : List GeneratorPtr} (hcopy : copyEach gs = .ok gs') :
    Pointwise (fun g g' ↦ From g' g) gs gs' :=
  GeneratorPtr.copyEach_pointwise (fun _ _ _ ↦ copyOne_from) hcopy

theorem copyOrNull_from {gs gs' : List GeneratorPtr} (hcopy : copyOrNull gs = .ok gs') :
    Pointwise (fun g g' ↦ From g' g) gs gs' :=
  GeneratorPtr.copyOrNull_pointwise (.refl _) (fun _ _ _ ↦ copyOne_from) hcopy

theorem update_from {g g' : GeneratorPtr} {ctx : Context} {event : Operation}
    (hup : update g ctx event = .ok g') : From g' g := by
  induction g generalizing g' ctx with
  | nullptr | operation o | function f | mix idx gs =>
    obtain rfl := Except.ok.inj hup
    exact .refl _
  | user leaf calls =>
    obtain rfl := Except.ok.inj hup
    rintro _ _ _ ⟨⟩
  | list gs ih =>
    cases gs with
    | nil =>
      obtain rfl := Except.ok.inj hup
      exact .nullptr _
    | cons g gs =>
      rw [update] at hup
      obtain ⟨upd, hg, hup⟩ := GeneratorPtr.except_bind_eq_ok.mp hup
      obtain ⟨copy, hcopy, rfl⟩ := GeneratorPtr.except_map_eq_ok.mp hup
      obtain ⟨_, gs₁, -, hrest, rfl⟩ := (copyOrNull_from hcopy).uncons
      exact .pointwise (.cons (ih g (by simp) hg) hrest)
  | validate g ih =>
    rw [update] at hup
    obtain ⟨g₁, hg, rfl⟩ := GeneratorPtr.except_map_eq_ok.mp hup
    exact .validate (ih hg)
  | onThreads g filter ih =>
    rw [update] at hup
    split at hup
    · obtain ⟨g₁, hg, rfl⟩ := GeneratorPtr.except_map_eq_ok.mp hup
      exact .onThreads (ih hg) filter
    · obtain rfl := Except.ok.inj hup
      exact .refl _
  | timeLimit limit cutoff g ih =>
    have hstep := reachable_call (.updated hup)
    rw [update] at hup
    obtain ⟨g₁, hg, rfl⟩ := GeneratorPtr.except_map_eq_ok.mp hup
    exact .timeLimit (ih hg) hstep
  | stagger dt nt g ih =>
    rw [update] at hup
    obtain ⟨g₁, hg, rfl⟩ := GeneratorPtr.except_map_eq_ok.mp hup
    exact .stagger (ih hg) dt nt dt kInvalidTime
  | any gs ih =>
    rw [update] at hup
    obtain ⟨gs', hgs, rfl⟩ := GeneratorPtr.except_map_eq_ok.mp hup
    exact .any (.pointwise (GeneratorPtr.updateEach_pointwise (fun g hg g' ↦ ih g hg) hgs))

theorem HasLimit.of_member {limit cutoff : Int} {gen g copy : GeneratorPtr}
    (hg : g ∈ copy.members) (h : HasLimit limit cutoff gen g) : HasLimit limit cutoff gen copy := by
  cases copy with
  | list gs => exact .list hg h
  | mix idx gs => exact .mix hg h
  | any gs => exact .any hg h
  | _ => simp [members] at hg

theorem HasLimit.of_child {limit cutoff : Int} {gen copy : GeneratorPtr}
    (h : HasLimit limit cutoff gen copy.child) : HasLimit limit cutoff gen copy := by
  cases copy with
  | validate g => exact .validate h
  | onThreads g filter => exact .onThreads h
  | timeLimit limit' cutoff' g => exact .timeLimit h
  | stagger dt nt g => exact .stagger h
  | _ => cases h

theorem From.members (g : GeneratorPtr) : From (.list (members g)) g :=
  .list fun _ hg ↦ .of_subset fun _ _ _ ht ↦ ht.of_member hg

theorem getElem_writeBackEach {gs copies : List GeneratorPtr} (hlen : gs.length = copies.length)
    {g' : GeneratorPtr} (hg' : g' ∈ writeBackEach gs copies) :
    ∃ i, ∃ (hi : i < gs.length) (hi' : i < copies.length), g' = writeBack gs[i] copies[i] := by
  induction gs generalizing copies with
  | nil => simp [writeBackEach] at hg'
  | cons g gs ih =>
    cases copies with
    | nil => simp at hlen
    | cons copy copies =>
      rw [writeBackEach, List.headD_cons, List.tail_cons] at hg'
      rcases List.mem_cons.mp hg' with rfl | hg'
      · exact ⟨0, by simp, by simp, rfl⟩
      · obtain ⟨i, hi, hi', rfl⟩ := ih (by simpa using hlen) hg'
        exact ⟨i + 1, by simpa using hi, by simpa using hi', rfl⟩

/-- A node of the written-back tree is one of the copy, inside a `Mix`, or was only changed inside
by the call on the copy. -/
theorem HasLimit.of_writeBack {copied : Bool} {g copy : GeneratorPtr}
    (hr : Rebuilt true copied g copy) {limit cutoff : Int} {gen : GeneratorPtr}
    (h : HasLimit limit cutoff gen (writeBack g copy)) :
    Arises (.timeLimit limit cutoff gen) g ∨ HasLimit limit cutoff gen copy := by
  induction g generalizing copy with
  | nullptr | operation o | function f | user leaf calls => cases h
  | list gs ih =>
    cases h with
    | list hg h =>
      have hmembers := hr.members
      obtain ⟨i, hi, hi', rfl⟩ := getElem_writeBackEach hmembers.1 hg
      rcases ih _ (List.getElem_mem hi) (hmembers.2 i hi hi') h with harises | hcopy
      · exact .inl (harises.from (.member (List.getElem_mem hi)))
      · exact .inr (.of_member (List.getElem_mem hi') hcopy)
  -- a `Mix` takes the members of the copy
  | mix idx gs ih =>
    cases h with | mix hg h => exact .inr (.of_member hg h)
  | any gs ih =>
    cases h with
    | any hg h =>
      have hmembers := hr.anyMembers
      obtain ⟨i, hi, hi', rfl⟩ := getElem_writeBackEach hmembers.1 hg
      rcases ih _ (List.getElem_mem hi) (hmembers.2 i hi hi') h with harises | hcopy
      · exact .inl (harises.from (.of_subset fun _ _ _ h ↦ .any (List.getElem_mem hi) h))
      · exact .inr (.of_member (List.getElem_mem hi') hcopy)
  | validate g ih =>
    cases h with
    | validate h =>
      exact (ih hr.child h).imp (·.from (From.refl g).into_validate) .of_child
  | onThreads g filter ih =>
    cases h with
    | onThreads h =>
      exact (ih hr.child h).imp (·.from ((From.refl g).into_onThreads filter)) .of_child
  | timeLimit limit' cutoff' g ih =>
    cases h with
    -- the node comes from the copied side, with what is written back below it
    | here => exact .inl ⟨_, _, g, .here, reachable_inside hr.child.writeBack⟩
    | timeLimit h =>
      exact (ih hr.child h).imp (·.from ((From.refl g).into_timeLimit limit' cutoff')) .of_child
  | stagger dt nt g ih =>
    cases h with
    | stagger h =>
      exact (ih hr.child h).imp (·.from ((From.refl g).into_stagger dt nt)) .of_child

theorem writeBackEach_from {gs copies : List GeneratorPtr} {copied : Bool}
    (hr : Pointwise (Rebuilt true copied) gs copies) (h : From (.list copies) (.list gs)) :
    From (.list (writeBackEach gs copies)) (.list gs) := by
  intro limit cutoff gen ht
  have hlist : Rebuilt true copied (.list gs) (.list copies) := .ofList hr
  exact (HasLimit.of_writeBack hlist ht).elim id fun ht ↦ h limit cutoff gen ht

theorem From.set {gs : List GeneratorPtr} {i : Nat} {g g' : GeneratorPtr}
    (h : From (.list gs) g) (hg' : From g' g) : From (.list (gs.set i g')) g :=
  .list (forall_mem_set (fun _ hx ↦ (From.member hx).trans h) hg')

theorem From.insertIdx {gs : List GeneratorPtr} {i : Nat} {g g' : GeneratorPtr}
    (h : From (.list gs) g) (hg' : From g' g) : From (.list (gs.insertIdx i g')) g := by
  refine .list fun x hx ↦ ?_
  rcases List.eq_or_mem_of_mem_insertIdx hx with rfl | hx
  · exact hg'
  · exact (From.member hx).trans h

theorem From.of_mem {gs gs' : List GeneratorPtr} (h : ∀ g ∈ gs', g ∈ gs) :
    From (.list gs') (.list gs) :=
  .list fun _ hg ↦ .member (h _ hg)

/-- The nodes of the successor, and those of the generator after the call, derive from nodes of the
asked generator. -/
theorem Answers.from {g : GeneratorPtr} {ctx : Context} {a : Answer} (ha : Answers g ctx a) :
    From a.gen2 g ∧ From a.self g := by
  induction ha with
  | nullptr | listEmpty | mixEmpty => exact ⟨.nullptr _, .refl _⟩
  | pending => exact ⟨.refl _, .refl _⟩
  | operation => exact ⟨.nullptr _, .refl _⟩
  -- A function answers through the list of its operation and itself, which holds no limit.
  | function _ ih =>
    refine ⟨ih.1.trans ?_, .refl _⟩
    intro limit cutoff gen ht
    cases ht with | list hg ht => simp at hg; rcases hg with rfl | rfl <;> cases ht
  | @listPop first rest ctx a first' copy b ha _ _ hcopy hb ih₁ ih₂ =>
    have hrest := (copyOrNull_from hcopy).tail
    have hrebuilt := (GeneratorPtr.copyOrNull_rebuilt true hcopy).tail
    have htail : From (.list rest) (.list (first :: rest)) := .of_mem fun _ hg ↦ .tail _ hg
    have hcopied : From (.list copy) (.list rest) := .pointwise hrest
    have hshared := writeBackEach_from
      (GeneratorPtr.pointwise_rebuilt_trans hrebuilt hb.rebuilt.members)
      (((From.members b.self).trans ih₂.2).trans hcopied)
    refine ⟨(ih₂.1.trans hcopied).trans htail, .list fun g hg ↦ ?_⟩
    rcases List.mem_cons.mp hg with rfl | hg
    · exact ih₁.2.trans (.member (by simp))
    · exact ((From.member hg).trans hshared).trans htail
  | @listFront first rest ctx a first' copy ha _ hcopy _ ih =>
    have hrest := (copyOrNull_from hcopy).tail
    exact ⟨.pointwise (.cons ih.1 hrest), .pointwise (.cons ih.2 (.refl .refl _))⟩
  | listSingle _ _ ih =>
    exact ⟨ih.1.trans (.member (by simp)), .pointwise (.cons ih.2 .nil)⟩
  | validate _ _ ih => exact ⟨ih.1.validate, ih.2.validate⟩
  | validateLast _ _ ih => exact ⟨ih.1.into_validate, ih.2.validate⟩
  | onThreads _ _ ih => exact ⟨ih.1.onThreads _, ih.2.onThreads _⟩
  | onThreadsNil _ _ ih => exact ⟨.nullptr _, ih.2.onThreads _⟩
  | @timeLimitPending limit cutoff gen ctx a ha hoff hp ih =>
    have h : Answers (.timeLimit limit cutoff gen) ctx _ := .timeLimitPending ha hoff hp
    exact ⟨ih.1.timeLimit (reachable_call (.kept h)),
      ih.2.timeLimit (reachable_call (.discarded h))⟩
  | @timeLimit limit cutoff gen ctx a cutoff' ha hoff hp hcut hlt ih =>
    have h : Answers (.timeLimit limit cutoff gen) ctx _ := .timeLimit ha hoff hp hcut hlt
    exact ⟨ih.1.timeLimit (reachable_call (.kept h)),
      ih.2.timeLimit (reachable_call (.discarded h))⟩
  | @timeLimitOver limit cutoff gen ctx a cutoff' ha hoff hp hcut hle ih =>
    have h : Answers (.timeLimit limit cutoff gen) ctx _ := .timeLimitOver ha hoff hp hcut hle
    exact ⟨.nullptr _, ih.2.timeLimit (reachable_call (.discarded h))⟩
  | @timeLimitNil limit cutoff gen ctx a ha hoff ih =>
    have h : Answers (.timeLimit limit cutoff gen) ctx _ := .timeLimitNil ha hoff
    exact ⟨.nullptr _, ih.2.timeLimit (reachable_call (.discarded h))⟩
  | staggerPending _ _ _ _ ih => exact ⟨ih.2.stagger _ _ _ _, ih.2.stagger _ _ _ _⟩
  | stagger _ _ _ _ _ ih => exact ⟨ih.1.stagger _ _ _ _, ih.2.stagger _ _ _ _⟩
  | staggerNil _ _ ih => exact ⟨.nullptr _, ih.2.stagger _ _ _ _⟩
  -- The members are copied after the asked one has changed in place.
  | @mix idx gens gen ctx a copy idx' hgen _ _ hcopy ih =>
    have hmember : From gen (.list gens) := .member (List.mem_of_getElem? hgen)
    have hself : From (.list (gens.set idx a.self)) (.list gens) :=
      (From.refl _).set (ih.2.trans hmember)
    have hcopied := (From.pointwise (copyEach_from hcopy)).trans hself
    exact ⟨(hcopied.set (ih.1.trans hmember)).mix _ _, hself.mix _ _⟩
  -- The member is dropped; what the others become is shared with the node that was asked.
  | @mixDrop idx gens gen ctx a copy idx' b hgen _ _ hcopy hb ih₁ ih₂ =>
    have hothers : From (.list (gens.eraseIdx idx)) (.list gens) :=
      .of_mem fun _ hg ↦ List.mem_of_mem_eraseIdx hg
    have hcopied : From (.mix idx' copy) (.list (gens.eraseIdx idx)) :=
      (From.mix_list idx' copy).trans (.pointwise (copyEach_from hcopy))
    have hshared := writeBackEach_from
      (GeneratorPtr.pointwise_rebuilt_trans (GeneratorPtr.copyEach_rebuilt true hcopy)
        hb.rebuilt.mixMembers) (((From.members b.self).trans ih₂.2).trans hcopied)
    have hmember : From gen (.list gens) := .member (List.mem_of_getElem? hgen)
    exact ⟨((ih₂.1.trans hcopied).trans hothers).trans (.list_mix idx gens),
      ((hshared.trans hothers).insertIdx (ih₁.2.trans hmember)).mix _ _⟩
  | @any gens ctx as i a copy hlen _ hbest hcopy ih =>
    have hself : From (.list (as.map Answer.self)) (.list gens) :=
      .pointwise (Pointwise.map_right.mpr ⟨hlen, fun j hj hj' ↦ (ih j hj hj').2⟩)
    have hcopied := (From.pointwise (copyEach_from hcopy)).trans hself
    have hnext : From a.gen2 (.list gens) := by
      obtain ⟨g, hg, hgen2⟩ := Pointwise.exists_left (R := fun g b ↦ From b.gen2 g)
        ⟨hlen, fun j hj hj' ↦ (ih j hj hj').1⟩ hbest.mem
      exact hgen2.trans (.member hg)
    exact ⟨(hcopied.set hnext).any, hself.any⟩
  | anyNil hlen _ _ ih =>
    exact ⟨.nullptr _,
      .any (.pointwise (Pointwise.map_right.mpr ⟨hlen, fun j hj hj' ↦ (ih j hj hj').2⟩))⟩
  | userNil | user =>
    refine ⟨?_, ?_⟩ <;> rintro _ _ _ ⟨⟩

theorem Calls.from {g g' : GeneratorPtr} {c : Call} (h : Calls g c g') : From g' g := by
  cases h with
  | kept ha => exact ha.from.1
  | discarded ha => exact ha.from.2
  | updated hup => exact update_from hup
  | copied hcopy => exact copyOne_from hcopy

theorem reachable_from {g g' : GeneratorPtr} (h : Reachable Calls g g') : From g' g :=
  Reachable.invariant (P := fun x ↦ From x g) (.refl g) (fun _ _ _ hc h ↦ hc.from.trans h) h

/-- A call on a tree calls `generator::op` on `t` in `ctx'`. -/
inductive Asks (t : GeneratorPtr) (ctx' : Context) : GeneratorPtr → Context → Prop
  | here : Asks t ctx' t ctx'
  | function {f ctx k} (h : Asks t ctx' (.list [.operation (f.func ctx k), .function f]) ctx) :
      Asks t ctx' (.function f) ctx
  | listFirst {first rest ctx} (h : Asks t ctx' first ctx) : Asks t ctx' (.list (first :: rest)) ctx
  | listRest {first rest ctx a first' copy} (ha : Answers first ctx a) (hgen : a.gen2 = .nullptr)
      (hnil : a.op.type = .kNil) (hcopy : copyOrNull (a.self :: rest) = .ok (first' :: copy))
      (h : Asks t ctx' (.list copy) ctx) : Asks t ctx' (.list (first :: rest)) ctx
  | validate {gen ctx} (h : Asks t ctx' gen ctx) : Asks t ctx' (.validate gen) ctx
  | onThreads {gen filter ctx} (h : Asks t ctx' gen (onThreadsContext filter ctx)) :
      Asks t ctx' (.onThreads gen filter) ctx
  | timeLimit {limit cutoff gen ctx} (h : Asks t ctx' gen ctx) :
      Asks t ctx' (.timeLimit limit cutoff gen) ctx
  | stagger {dt next_time gen ctx} (h : Asks t ctx' gen ctx) :
      Asks t ctx' (.stagger dt next_time gen) ctx
  | mixMember {idx} {gens : List GeneratorPtr} {gen ctx} (hgen : gens[idx]? = some gen)
      (h : Asks t ctx' gen ctx) : Asks t ctx' (.mix idx gens) ctx
  | mixRest {idx} {gens : List GeneratorPtr} {gen ctx a copy idx'} (hgen : gens[idx]? = some gen)
      (ha : Answers gen ctx a) (hoff : ¬ a.Offer) (hcopy : copyEach (gens.eraseIdx idx) = .ok copy)
      (h : Asks t ctx' (.mix idx' copy) ctx) : Asks t ctx' (.mix idx gens) ctx
  | any {gens : List GeneratorPtr} {gen ctx} (hgen : gen ∈ gens) (h : Asks t ctx' gen ctx) :
      Asks t ctx' (.any gens) ctx

/-- A `TimeLimit` that a call on `g` asks derives from one in `g`. -/
theorem Asks.arises {limit cutoff : Int} {gen g : GeneratorPtr} {ctx ctx' : Context}
    (h : Asks (.timeLimit limit cutoff gen) ctx' g ctx) :
    Arises (.timeLimit limit cutoff gen) g := by
  induction h with
  | here => exact From.refl _ _ _ _ .here
  | function _ ih =>
    obtain ⟨_, _, _, hin, -⟩ := ih
    cases hin with | list hg hin => simp at hg; rcases hg with rfl | rfl <;> cases hin
  | listFirst _ ih => exact ih.from (.member (by simp))
  -- the rest is asked as a copy
  | listRest _ _ _ hcopy _ ih =>
    have hrest := (copyOrNull_from hcopy).tail
    exact (ih.from (.pointwise hrest)).from (.of_mem fun _ hg ↦ .tail _ hg)
  | validate _ ih => exact ih.from (From.refl _).into_validate
  | onThreads _ ih => exact ih.from ((From.refl _).into_onThreads _)
  | timeLimit _ ih => exact ih.from ((From.refl _).into_timeLimit _ _)
  | stagger _ ih => exact ih.from ((From.refl _).into_stagger _ _)
  | mixMember hgen _ ih =>
    exact (ih.from (.member (List.mem_of_getElem? hgen))).from (.list_mix _ _)
  | mixRest _ _ _ hcopy _ ih =>
    exact ((ih.from (.mix_list _ _)).from (.pointwise (copyEach_from hcopy))).from
      ((From.of_mem fun _ hg ↦ List.mem_of_mem_eraseIdx hg).trans (.list_mix _ _))
  | any hgen _ ih => exact (ih.from (.member hgen)).from (.list_any _)

/-! ## One deadline -/

/-- The first real operation of a `TimeLimit`, at the time `T0`, fixes its deadline.  Whatever
derives from the node or from the successor in that answer returns real operations before
`T0 + limit` only, and none at all when it is asked from then on about leaves that set no time.  A
tree around the node reaches it by such calls only: every `TimeLimit` that a later tree contains or
asks derives from one in the tree before. -/
theorem time_limit_one_deadline {limit : Int} {gen t : GeneratorPtr} {n : Nat} {ctx : Context}
    {draws draws' : Draws} {a : Answer} (hlimit : 0 < limit)
    (hfresh : Reachable (Derives.restrict Unanswered) (createTimeLimit limit gen) t)
    (hfirst : op n t ctx draws = .ok (a, draws')) (hreal : a.op.Real) (htime : 0 ≤ a.op.time) :
    (∀ t', Reachable Derives a.self t' ∨ Reachable Derives a.gen2 t' →
      ∀ m ctx' draws b draws', op m t' ctx' draws = .ok (b, draws') →
        (b.op.Real → b.op.time < a.op.time + limit) ∧
        (AllLeaves Untimed [] gen → a.op.time + limit ≤ ctx'.time → ¬ b.op.Real)) ∧
    ∀ g g', Reachable Calls g g' → ∀ limit' cutoff' gen',
      (HasLimit limit' cutoff' gen' g' ∨
        ∃ ctx ctx', Asks (.timeLimit limit' cutoff' gen') ctx' g' ctx) →
      Arises (.timeLimit limit' cutoff' gen') g := by
  -- The deadline is never the value that marks an open one.
  have hset : a.op.time + limit ≠ kInvalidTime := by
    unfold kInvalidTime
    omega
  have hlimited (P : LeafProperty) (hleaves : AllLeaves P [] gen) (t' : GeneratorPtr)
      (hrun : Reachable Derives a.self t' ∨ Reachable Derives a.gen2 t') :
      Limited P limit (a.op.time + limit) t' := by
    have hopen : Limited P limit kInvalidTime t :=
      (Limited.timeLimit hleaves).reachable_unanswered hlimit hfresh
    obtain ⟨hgen2, hself, -⟩ := hopen.answers (op_answers n _ _ _ _ _ hfirst) (.inr hlimit)
      (fun _ ↦ (if_pos rfl).symm) fun hnot ↦ absurd hreal hnot
    exact hrun.elim (hself.reachable hset) (hgen2.reachable hset)
  refine ⟨fun t' hrun m ctx' draws b draws' hask ↦ ?_, ?_⟩
  · have hb := op_answers m _ _ _ _ _ hask
    have hbefore {P : LeafProperty} (h : Limited P limit (a.op.time + limit) t') :
        b.op.Real → b.op.time < a.op.time + limit :=
      (h.answers hb (.inl hset) (fun _ ↦ (TimeLimit.fix_of_ne hset).symm) fun _ ↦ rfl).2.2
    refine ⟨hbefore (hlimited (fun _ _ ↦ True) (allLeaves_of_leaf fun _ _ _ ↦ trivial) t' hrun),
      fun hleaves hlate hr ↦ ?_⟩
    have hnode := hlimited Untimed hleaves t' hrun
    -- An operation without a time of its own gets at least the time of the context.
    have hle : ctx'.time ≤ b.op.time := by
      cases hnode with
      | ended =>
        cases hb
        exact absurd rfl hr.1
      | timeLimit hinner => exact hb.time_le (.timeLimit hinner) hr
    have hlt := hbefore hnode hr
    omega
  · rintro g g' hrun limit' cutoff' gen' (hin | ⟨ctx, ctx', hask⟩)
    · exact reachable_from hrun _ _ _ hin
    · exact hask.arises.from (reachable_from hrun)

/-- `timeLimit(10, ..)` that answered a read after 1 s answers one after 5 s and none after 20 s. -/
theorem time_limit_one_deadline_read :
    (firstRead 5).op.time < (firstRead 1).op.time + sec2nanos 10 ∧
      ∀ m draws b draws', op m (.timeLimit (sec2nanos 10) (sec2nanos 11) twoReads) (clientFree 20)
        draws = .ok (b, draws') → ¬ b.op.Real := by
  have hask : op 3 (createTimeLimit (sec2nanos 10) twoReads) (clientFree 1) (fun _ ↦ 0) = .ok
      (⟨(firstRead 1).op, .timeLimit (sec2nanos 10) (sec2nanos 11) (firstRead 1).gen2,
        .timeLimit (sec2nanos 10) (sec2nanos 11) twoReads⟩, fun _ ↦ 0) := rfl
  have hagain : op 3 (.timeLimit (sec2nanos 10) (sec2nanos 11) twoReads) (clientFree 5)
      (fun _ ↦ 0) = .ok (⟨(firstRead 5).op,
        .timeLimit (sec2nanos 10) (sec2nanos 11) (firstRead 5).gen2,
        .timeLimit (sec2nanos 10) (sec2nanos 11) twoReads⟩, fun _ ↦ 0) := rfl
  have hleaves : AllLeaves Untimed [] twoReads :=
    .list fun g hg ↦ by
      simp only [List.map_cons, List.map_nil, List.mem_cons, List.not_mem_nil, or_false,
        or_self] at hg
      exact hg ▸ .operation rfl
  have h := (time_limit_one_deadline (by decide) (.refl _ _) hask (by decide) (by decide)).1 _
    (.inl (.refl _ _))
  exact ⟨(h 3 _ _ _ _ hagain).1 (by decide), fun m draws b draws' hb ↦
    (h m _ _ _ _ hb).2 hleaves (by decide)⟩

end Jepsen
