import Jepsen.Library.Transition
import Mathlib.Data.List.Perm.Basic

/-!
# Fork and join

Plans that run atomic actions one after the other and side by side, where a join waits for both
sides.  A plan always comes to its end, after each of its actions has been taken once.  What the
schedule decides is the order; `Plan.run_of_sequential` recovers what is left of it for a set of
actions no two of which stand side by side.
-/

namespace Library

inductive Plan (α : Type) where
  | skip
  | act (a : α)
  | seq (t u : Plan α)
  | par (t u : Plan α)

namespace Plan

variable {α : Type}

/-- One plan after the other. -/
def seqAll : List (Plan α) → Plan α
  | [] => .skip
  | t :: ts => .seq t (seqAll ts)

/-- All plans side by side. -/
def parAll : List (Plan α) → Plan α
  | [] => .skip
  | t :: ts => .par t (parAll ts)

def block (as : List α) : Plan α := seqAll (as.map .act)

/-- The actions of a plan, from left to right. -/
def acts : Plan α → List α
  | .skip => []
  | .act a => [a]
  | .seq t u | .par t u => acts t ++ acts u

/-- Nothing is left to do. -/
def Done : Plan α → Prop
  | .skip => True
  | .act _ => False
  | .seq t u | .par t u => Done t ∧ Done u

inductive Step : Lts (Plan α) α
  | act {a : α} : Step (.act a) a .skip
  | first {t t' u : Plan α} {a : α} (h : Step t a t') : Step (.seq t u) a (.seq t' u)
  | second {t u u' : Plan α} {a : α} (ht : t.Done) (h : Step u a u') :
      Step (.seq t u) a (.seq t u')
  | left {t t' u : Plan α} {a : α} (h : Step t a t') : Step (.par t u) a (.par t' u)
  | right {t u u' : Plan α} {a : α} (h : Step u a u') : Step (.par t u) a (.par t u')

@[simp] theorem acts_seqAll (ts : List (Plan α)) : (seqAll ts).acts = ts.flatMap acts := by
  induction ts with
  | nil => rfl
  | cons t ts ih => rw [seqAll, acts, ih, List.flatMap_cons]

@[simp] theorem acts_parAll (ts : List (Plan α)) : (parAll ts).acts = ts.flatMap acts := by
  induction ts with
  | nil => rfl
  | cons t ts ih => rw [parAll, acts, ih, List.flatMap_cons]

@[simp] theorem acts_block (as : List α) : (block as).acts = as := by
  induction as with
  | nil => rfl
  | cons a as ih => exact congrArg (a :: ·) ih

/-! ## Every action once -/

theorem done_iff {t : Plan α} : t.Done ↔ t.acts = [] := by
  induction t with
  | skip => exact ⟨fun _ ↦ rfl, fun _ ↦ trivial⟩
  | act a => exact ⟨False.elim, fun h ↦ absurd h (by simp [acts])⟩
  | seq t u iht ihu => rw [Done, acts, List.append_eq_nil_iff, iht, ihu]
  | par t u iht ihu => rw [Done, acts, List.append_eq_nil_iff, iht, ihu]

theorem Step.perm {t t' : Plan α} {a : α} (h : Step t a t') : t.acts.Perm (a :: t'.acts) := by
  induction h with
  | act => exact .refl _
  | first _ ih | left _ ih => exact ih.append_right _
  | second ht _ ih =>
    rw [acts, acts, done_iff.mp ht]
    exact ih
  | right _ ih => exact (ih.append_left _).trans List.perm_middle

theorem run_perm {t t' : Plan α} {as : List α} (h : Run Step t as t') :
    t.acts.Perm (as ++ t'.acts) := by
  induction h with
  | nil => exact .refl _
  | cons hstep _ ih => exact hstep.perm.trans (ih.cons _)

theorem run_done {t t' : Plan α} {as : List α} (h : Run Step t as t') (ht' : t'.Done) :
    t.acts.Perm as := by
  have hperm := run_perm h
  rwa [done_iff.mp ht', List.append_nil] at hperm

/-- A plan that is not done can go on. -/
theorem progress {t : Plan α} (h : ¬ t.Done) : ∃ a t', Step t a t' := by
  induction t with
  | skip => exact absurd trivial h
  | act a => exact ⟨a, .skip, .act⟩
  | seq t u iht ihu =>
    by_cases ht : t.Done
    · obtain ⟨a, u', hu⟩ := ihu fun hu ↦ h ⟨ht, hu⟩
      exact ⟨a, _, .second ht hu⟩
    · obtain ⟨a, t', hstep⟩ := iht ht
      exact ⟨a, _, .first hstep⟩
  | par t u iht ihu =>
    by_cases ht : t.Done
    · obtain ⟨a, u', hu⟩ := ihu fun hu ↦ h ⟨ht, hu⟩
      exact ⟨a, _, .right hu⟩
    · obtain ⟨a, t', hstep⟩ := iht ht
      exact ⟨a, _, .left hstep⟩

theorem exists_run (t : Plan α) : ∃ as t', Run Step t as t' ∧ t'.Done := by
  -- Each step takes one of the actions that are left.
  induction hn : t.acts.length generalizing t with
  | zero => exact ⟨[], t, .nil t, done_iff.mpr (List.eq_nil_of_length_eq_zero hn)⟩
  | succ n ih =>
    obtain ⟨a, t', hstep⟩ := progress fun hdone ↦ by
      rw [done_iff.mp hdone] at hn
      exact absurd hn (by simp)
    have hlen : t'.acts.length = n := by
      have := hstep.perm.length_eq
      rw [List.length_cons] at this
      omega
    obtain ⟨as, t'', hrun, hdone⟩ := ih t' hlen
    exact ⟨a :: as, t'', .cons hstep hrun, hdone⟩

/-! ## One stage after the other -/

theorem Done.no_step {t t' : Plan α} {a : α} (ht : t.Done) : ¬ Step t a t' := fun h ↦ by
  have hperm := h.perm
  rw [done_iff.mp ht] at hperm
  exact absurd hperm.length_eq (by simp)

theorem run_seq {t u v : Plan α} {as : List α} (h : Run Step (.seq t u) as v) :
    ∃ as₁ as₂ t' u', as = as₁ ++ as₂ ∧ v = .seq t' u' ∧ Run Step t as₁ t' ∧ Run Step u as₂ u' ∧
      (as₂ ≠ [] → t'.Done) := by
  induction as generalizing t u with
  | nil =>
    cases h
    exact ⟨[], [], t, u, rfl, rfl, .nil t, .nil u, fun hne ↦ absurd rfl hne⟩
  | cons a as ih =>
    cases h with
    | cons hstep hrest =>
      cases hstep with
      | first hstep =>
        obtain ⟨as₁, as₂, t', u', rfl, hv, ht, hu, hdone⟩ := ih hrest
        exact ⟨a :: as₁, as₂, t', u', rfl, hv, .cons hstep ht, hu, hdone⟩
      | second hdone hstep =>
        obtain ⟨as₁, as₂, t', u', rfl, hv, ht, hu, -⟩ := ih hrest
        -- The first plan is done, so what follows is all of the second one.
        cases ht with
        | nil => exact ⟨[], a :: as₂, t, u', rfl, hv, .nil t, .cons hstep hu, fun _ ↦ hdone⟩
        | cons hfirst _ => exact absurd hfirst hdone.no_step

/-- The actions `as`, stage by stage, in any order within a stage. -/
def Stages (stages : List (List α)) (as : List α) : Prop :=
  ∃ parts, as = parts.flatten ∧ List.Forall₂ List.Perm stages parts

theorem Stages.append {stages stages' : List (List α)} {as bs : List α} (h : Stages stages as)
    (h' : Stages stages' bs) : Stages (stages ++ stages') (as ++ bs) := by
  obtain ⟨parts, rfl, hparts⟩ := h
  obtain ⟨parts', rfl, hparts'⟩ := h'
  exact ⟨parts ++ parts', by rw [List.flatten_append], List.rel_append hparts hparts'⟩

/-- The plan goes through the stages. -/
def Follows (t : Plan α) (stages : List (List α)) : Prop :=
  ∀ as t', Run Step t as t' → t'.Done → Stages stages as

/-- What has been done so far is the beginning of a way through all stages. -/
theorem Follows.beginning {t t' : Plan α} {stages : List (List α)} {as : List α}
    (h : t.Follows stages) (hrun : Run Step t as t') :
    ∃ rest, Stages stages (as ++ rest) ∧ (t'.Done → rest = []) := by
  by_cases hdone : t'.Done
  · exact ⟨[], (List.append_nil as).symm ▸ h _ _ hrun hdone, fun _ ↦ rfl⟩
  · obtain ⟨rest, u, hrest, hu⟩ := exists_run t'
    exact ⟨rest, h _ _ (hrun.append hrest) hu, fun ht ↦ absurd ht hdone⟩

theorem follows_skip : (skip : Plan α).Follows [] := by
  intro as t' hrun _
  cases hrun with
  | nil => exact ⟨[], rfl, .nil⟩
  | cons hstep _ => cases hstep

theorem follows_acts (t : Plan α) : t.Follows [t.acts] := by
  intro as t' hrun hdone
  exact ⟨[as], (List.append_nil as).symm, .cons (run_done hrun hdone) .nil⟩

theorem Follows.seq {t u : Plan α} {stages stages' : List (List α)} (ht : t.Follows stages)
    (hu : u.Follows stages') : (seq t u).Follows (stages ++ stages') := by
  intro as v hrun hdone
  obtain ⟨as₁, as₂, t', u', rfl, rfl, hrun₁, hrun₂, -⟩ := run_seq hrun
  exact (ht _ _ hrun₁ hdone.1).append (hu _ _ hrun₂ hdone.2)

theorem follows_block (as : List α) : (block as).Follows (as.map fun a ↦ [a]) := by
  induction as with
  | nil => exact follows_skip
  | cons a as ih => exact (follows_acts (act a)).seq ih

/-! ## What the order is -/

/-- No two actions stand side by side. -/
def Sequential : Plan α → Prop
  | .skip | .act _ => True
  | .seq t u => Sequential t ∧ Sequential u
  | .par t u => Sequential t ∧ Sequential u ∧ (t.acts = [] ∨ u.acts = [])

theorem Step.of_sequential {t t' : Plan α} {a : α} (h : Step t a t') (ht : t.Sequential) :
    t'.Sequential ∧ t.acts = a :: t'.acts := by
  induction h with
  | act => exact ⟨trivial, rfl⟩
  | first _ ih =>
    obtain ⟨hseq, hacts⟩ := ih ht.1
    exact ⟨⟨hseq, ht.2⟩, by rw [acts, hacts]; rfl⟩
  | second hdone _ ih =>
    obtain ⟨hseq, hacts⟩ := ih ht.2
    refine ⟨⟨ht.1, hseq⟩, ?_⟩
    rw [acts, acts, done_iff.mp hdone]
    exact hacts
  | left hstep ih =>
    obtain ⟨hseq, hacts⟩ := ih ht.1
    have hu := ht.2.2.resolve_left (by rw [hacts]; simp)
    exact ⟨⟨hseq, ht.2.1, .inr hu⟩, by rw [acts, hacts]; rfl⟩
  | right hstep ih =>
    obtain ⟨hseq, hacts⟩ := ih ht.2.1
    have ht' := ht.2.2.resolve_right (by rw [hacts]; simp)
    refine ⟨⟨ht.1, hseq, .inl ht'⟩, ?_⟩
    rw [acts, acts, ht']
    exact hacts

theorem run_of_sequential {t t' : Plan α} {as : List α} (h : Run Step t as t')
    (ht : t.Sequential) : t.acts = as ++ t'.acts := by
  induction h with
  | nil => rfl
  | cons hstep _ ih =>
    obtain ⟨hseq, hacts⟩ := hstep.of_sequential ht
    rw [hacts, ih hseq]
    rfl

/-- The plan without the actions that are not in `P`. -/
def restrict (P : α → Bool) : Plan α → Plan α
  | .skip => .skip
  | .act a => if P a then .act a else .skip
  | .seq t u => .seq (restrict P t) (restrict P u)
  | .par t u => .par (restrict P t) (restrict P u)

@[simp] theorem acts_restrict (P : α → Bool) (t : Plan α) :
    (t.restrict P).acts = t.acts.filter P := by
  induction t with
  | skip => rfl
  | act a => by_cases h : P a = true <;> simp [restrict, acts, h]
  | seq t u iht ihu | par t u iht ihu => rw [restrict, acts, acts, iht, ihu, List.filter_append]

theorem Done.restrict {t : Plan α} (h : t.Done) (P : α → Bool) : (t.restrict P).Done := by
  rw [done_iff, acts_restrict, done_iff.mp h]
  rfl

theorem Step.restrict {t t' : Plan α} {a : α} (h : Step t a t') (P : α → Bool) :
    Run Step (t.restrict P) ([a].filter P) (t'.restrict P) := by
  by_cases ha : P a = true
  · rw [List.filter_cons_of_pos ha, List.filter_nil]
    apply Run.single
    induction h with
    | act =>
      simp only [Plan.restrict, ha, if_true]
      exact .act
    | first _ ih => exact .first (ih ha)
    | second ht _ ih => exact .second (ht.restrict P) (ih ha)
    | left _ ih => exact .left (ih ha)
    | right _ ih => exact .right (ih ha)
  · rw [List.filter_cons_of_neg ha, List.filter_nil]
    -- The restriction does not move.
    have hsame : t.restrict P = t'.restrict P := by
      induction h with
      | act => simp [Plan.restrict, ha]
      | first _ ih | second _ _ ih | left _ ih | right _ ih =>
        rw [Plan.restrict, Plan.restrict, ih ha]
    rw [hsame]
    exact .nil _

theorem run_restrict {t t' : Plan α} {as : List α} (h : Run Step t as t') (P : α → Bool) :
    Run Step (t.restrict P) (as.filter P) (t'.restrict P) := by
  induction h with
  | nil => exact .nil _
  | @cons t t₁ t' a as hstep _ ih => exact List.filter_append [a] as ▸ (hstep.restrict P).append ih

/-- The actions in `P` come in the order of the plan, where no two of them stand side by
side. -/
theorem filter_run {t t' : Plan α} {as : List α} (h : Run Step t as t') {P : α → Bool}
    (hP : (t.restrict P).Sequential) : t.acts.filter P = as.filter P ++ t'.acts.filter P := by
  have := run_of_sequential (run_restrict h P) hP
  rwa [acts_restrict, acts_restrict] at this

/-! ## Sequential plans -/

theorem sequential_seqAll {P : α → Bool} {ts : List (Plan α)}
    (h : ∀ t ∈ ts, (t.restrict P).Sequential) : ((seqAll ts).restrict P).Sequential := by
  induction ts with
  | nil => trivial
  | cons t ts ih =>
    obtain ⟨ht, hts⟩ := List.forall_mem_cons.mp h
    exact ⟨ht, ih hts⟩

theorem sequential_block (P : α → Bool) (as : List α) : ((block as).restrict P).Sequential := by
  apply sequential_seqAll
  intro t ht
  obtain ⟨a, -, rfl⟩ := List.mem_map.mp ht
  rw [restrict]
  split <;> trivial

/-- Of plans side by side, one may have actions in `P`. -/
theorem sequential_parAll {P : α → Bool} {ts : List (Plan α)}
    (h : ∀ t ∈ ts, (t.restrict P).Sequential)
    (hone : ts.Pairwise fun t u ↦ t.acts.filter P = [] ∨ u.acts.filter P = []) :
    ((parAll ts).restrict P).Sequential := by
  induction ts with
  | nil => trivial
  | cons t ts ih =>
    obtain ⟨ht, hts⟩ := List.forall_mem_cons.mp h
    obtain ⟨hothers, hone⟩ := List.pairwise_cons.mp hone
    refine ⟨ht, ih hts hone, ?_⟩
    rw [acts_restrict, acts_restrict, acts_parAll]
    by_cases hnil : t.acts.filter P = []
    · exact .inl hnil
    · refine .inr (List.filter_eq_nil_iff.mpr fun a ha ↦ ?_)
      obtain ⟨u, hu, hau⟩ := List.mem_flatMap.mp ha
      exact List.filter_eq_nil_iff.mp ((hothers u hu).resolve_left hnil) a hau

end Plan

end Library
