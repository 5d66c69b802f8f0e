import Jepsen.Library.Transition
import Mathlib.Data.List.Nodup
import Mathlib.Data.List.ReduceOption

/-!
# Interleavings

`Interleave R Done` runs several components, each a system `R` whose steps emit a value or nothing:
in a step one component makes a step of its own, or one that is `Done` leaves.  A component is known
by its owner, which labels what it emits.  `Run.of_owner` is what makes the emitted values
an interleaving: those of one owner are the ones that its component emits when it runs alone.
-/

namespace Library

variable {ι σ β : Type}

inductive Interleave (R : Lts σ (Option β)) (Done : σ → Prop) :
    Lts (List (ι × σ)) (Option (ι × β))
  | step {xs ys : List (ι × σ)} {i s l s'} (h : R s l s') :
      Interleave R Done (xs ++ (i, s) :: ys) (l.map (Prod.mk i)) (xs ++ (i, s') :: ys)
  | drop {xs ys : List (ι × σ)} {i s} (h : Done s) :
      Interleave R Done (xs ++ (i, s) :: ys) none (xs ++ ys)

namespace Interleave

variable {R : Lts σ (Option β)} {Done P : σ → Prop} {ms ms' : List (ι × σ)}
  {l : Option (ι × β)}

/-- What every component's steps keep, a step keeps of all components. -/
theorem forall_mem (hstep : ∀ s l s', R s l s' → P s → P s') (h : Interleave R Done ms l ms')
    (hms : ∀ m ∈ ms, P m.2) : ∀ m ∈ ms', P m.2 := by
  cases h with
  | @step xs ys i s l s' h =>
    intro m hm
    rcases List.mem_append.mp hm with hm | hm
    · exact hms m (List.mem_append_left _ hm)
    · rcases List.mem_cons.mp hm with rfl | hm
      · exact hstep _ _ _ h (hms (i, s) (by simp))
      · exact hms m (List.mem_append_right _ (List.mem_cons_of_mem _ hm))
  | drop h =>
    intro m hm
    exact hms m ((List.mem_append.mp hm).elim (List.mem_append_left _)
      fun hm ↦ List.mem_append_right _ (List.mem_cons_of_mem _ hm))

theorem owners (h : Interleave R Done ms l ms') :
    (ms'.map Prod.fst).Sublist (ms.map Prod.fst) ∧ ∀ e ∈ l, e.1 ∈ ms.map Prod.fst := by
  cases h with
  | @step xs ys i s l s' h =>
    refine ⟨by simp, fun e he ↦ ?_⟩
    obtain ⟨b, -, rfl⟩ := Option.map_eq_some_iff.mp he
    simp
  | drop h => exact ⟨by simp, fun e he ↦ absurd he (by simp)⟩

end Interleave

namespace Run

variable {R : Lts σ (Option β)} {Done : σ → Prop} {ms ms' : List (ι × σ)}
  {ls : List (Option (ι × β))}

/-- Only components emit. -/
theorem owner_mem (h : Run (Interleave R Done) ms ls ms') :
    ∀ e ∈ ls.reduceOption, e.1 ∈ ms.map Prod.fst := by
  induction h with
  | nil => simp
  | @cons ms ms₁ ms₂ l ls hstep _ ih =>
    intro e he
    obtain ⟨hsub, hl⟩ := hstep.owners
    rcases List.mem_cons.mp (List.reduceOption_mem_iff.mp he) with rfl | he
    · exact hl e rfl
    · exact hsub.subset (ih e (List.reduceOption_mem_iff.mpr he))

/-- What is emitted under one owner is what its component emits alone, in the same order; at the
end the component is still there, or it was done. -/
theorem of_owner (h : Run (Interleave R Done) ms ls ms') [DecidableEq ι]
    (hms : (ms.map Prod.fst).Nodup) {i : ι} {s : σ} (hi : (i, s) ∈ ms) :
    ∃ as s', Run R s as s' ∧
      as.reduceOption = (ls.reduceOption.filter (·.1 = i)).map Prod.snd ∧
      ((i, s') ∈ ms' ∨ Done s') := by
  induction h generalizing s with
  | nil => exact ⟨[], s, .nil s, rfl, .inl hi⟩
  | @cons ms ms₁ ms₂ l ls hstep hrun ih =>
    have hms₁ := hms.sublist hstep.owners.1
    -- Owners are distinct, so a component is known by its owner.
    have hsame {t : σ} (ht : (i, t) ∈ ms) : s = t :=
      congrArg Prod.snd (List.inj_on_of_nodup_map hms hi ht rfl)
    cases hstep with
    | @step xs ys j t l t' hR =>
      by_cases hij : j = i
      · subst hij
        obtain rfl : s = t := hsame (by simp)
        obtain ⟨as, s', has, hemit, hend⟩ := ih hms₁ (s := t') (by simp)
        refine ⟨l :: as, s', .cons hR has, ?_, hend⟩
        cases l with
        | none => simpa using hemit
        | some b => simpa using hemit
      -- another component moves, and the one of `i` stays
      · have hi' : (i, s) ∈ xs ++ (j, t') :: ys := by
          have : (i, s) ≠ (j, t) := fun h ↦ hij (congrArg Prod.fst h).symm
          simpa [Ne.symm hij, this] using hi
        obtain ⟨as, s', has, hemit, hend⟩ := ih hms₁ hi'
        refine ⟨as, s', has, ?_, hend⟩
        cases l with
        | none => simpa using hemit
        | some b => simpa [hij] using hemit
    | @drop xs ys j t hdone =>
      by_cases hij : j = i
      · -- the component is done, and nothing more is emitted under its name
        subst hij
        obtain rfl : s = t := hsame (by simp)
        refine ⟨[], s, .nil s, ?_, .inr hdone⟩
        have hgone : j ∉ (xs ++ ys).map Prod.fst := by
          have hperm : ((j, s) :: (xs ++ ys)).map Prod.fst |>.Nodup :=
            (List.perm_middle.map Prod.fst).nodup_iff.mp hms
          exact (List.nodup_cons.mp hperm).1
        have hnone : ls.reduceOption.filter (·.1 = j) = [] := by
          rw [List.filter_eq_nil_iff]
          intro e he hj
          exact hgone (of_decide_eq_true hj ▸ hrun.owner_mem e he)
        simp [hnone]
      · have hi' : (i, s) ∈ xs ++ ys := by
          simpa [Ne.symm hij] using hi
        obtain ⟨as, s', has, hemit, hend⟩ := ih hms₁ hi'
        exact ⟨as, s', has, by simpa using hemit, hend⟩

end Run

end Library
