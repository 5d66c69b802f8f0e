import Jepsen.Generator.Supply
import Jepsen.Runner.Sequence

/-!
# At most once

A run dispatches no more than its generator holds.  This needs neither that threads are free nor
that wrappers lose nothing, and it holds of the trees that lose operations, start staggers anew or
fix a cutoff too early as well.
-/

namespace Jepsen

open Library GeneratorFactory
open GeneratorPtr (supply Static contents)

namespace Runner

variable {s s' : Runner} {a : Action} {p : String × OPInfo → Bool}

-- The supply after a step, and what the step dispatches.
theorem supply_step (hs : s.step a = some s') :
    (s'.dispatched.countP p : ℕ∞) + supply p s'.generator ≤
      s.dispatched.countP p + supply p s.generator := by
  cases step_moves hs with
  | work => exact le_rfl
  | complete hflag hcomp hupd =>
    unfold dispatched
    rw [dispatches_completion, (GeneratorPtr.update_rebuilt hupd).supply_eq]
  | discard hflag hask hwhy =>
    have hself := (op_answers _ _ _ _ _ _ hask).rebuilt.supply_eq (p := p)
    exact add_le_add le_rfl hself.le
  | exit hflag hask hend hout =>
    have hself := (op_answers _ _ _ _ _ _ hask).rebuilt.supply_eq (p := p)
    exact add_le_add le_rfl hself.le
  | @dispatch time draws draws' fuel a t generator hflag hask hreal htime ht hmem hupd =>
    have htaken := (op_answers _ _ _ _ _ _ hask).supply_le (p := p)
    rw [Answer.taken, if_pos hreal.real, ← GeneratorPtr.tally_one] at htaken
    unfold dispatched
    rw [dispatches_dispatch, List.countP_append, Nat.cast_add,
      (GeneratorPtr.update_rebuilt hupd).supply_eq, add_assoc]
    refine add_le_add le_rfl (le_trans ?_ htaken)
    rw [add_comm]
    exact add_le_add le_rfl (by simp [GeneratorPtr.tally, Operation.payload, List.countP_cons])

theorem supply_reachable {n : Nat} {g : GeneratorPtr} {time : Int}
    (h : Reachable Step (start n g time) s) :
    (s.dispatched.countP p : ℕ∞) + supply p s.generator ≤ supply p g := by
  refine h.invariant (P := fun s ↦ (s.dispatched.countP p : ℕ∞) + supply p s.generator ≤
    supply p g) ?_ fun s a s' hs hle ↦ (supply_step hs).trans hle
  exact (zero_add _).le

/-- Whatever the run, it dispatches no more operations of a kind than the leaves of its generator
hold of it; where they hold all their operations, each of them is dispatched, still left, or
dropped, and none twice. -/
theorem dispatched_at_most_once (n : Nat) (g : GeneratorPtr) (time : Int) (s : Runner)
    (h : Reachable Step (start n (setGenerator g) time) s) :
    (∀ p, (s.dispatched.countP p : ℕ∞) + supply p s.generator ≤ supply p g) ∧
    (Static g →
      (s.dispatched ++ s.generator.contents.map Operation.payload).Subperm
        (g.contents.map Operation.payload)) := by
  classical
  have hbound (p : String × OPInfo → Bool) :
      (s.dispatched.countP p : ℕ∞) + supply p s.generator ≤ supply p g :=
    supply_reachable (g := setGenerator g) h
  refine ⟨hbound, fun hstatic ↦ List.subperm_ext_iff.mpr fun x _ ↦ ?_⟩
  -- Count one payload on both sides.
  have hx := hbound fun y ↦ y == x
  have hleft := GeneratorPtr.tally_contents_le (p := fun y ↦ y == x) s.generator
  rw [hstatic.supply_eq] at hx
  have hle := (add_le_add le_rfl hleft).trans hx
  rw [← Nat.cast_add, Nat.cast_le] at hle
  rw [List.count_append, List.count_eq_countP, List.count_eq_countP, List.count_eq_countP,
    List.countP_map, List.countP_map]
  exact hle

/-- Of two operations under a `Mix` next to a third one, one is dispatched. -/
theorem dispatched_at_most_once_mix : ∃ s,
    (start 1 (setGenerator (.any [
      .mix 0 [createGenerator [OperationFactory.read .null, OperationFactory.read .null]],
      createGenerator [OperationFactory.write .null .null]])) 0).run
        [.ask 0 (fun _ ↦ 1) 8] = some s ∧ s.dispatched.length = 1 ∧
    (s.dispatched ++ s.generator.contents.map Operation.payload).Subperm
      [("read", .array [.null, .null]), ("read", .array [.null, .null]),
        ("write", .array [.null, .null])] := by
  have hstatic : Static (.any [
      .mix 0 [createGenerator [OperationFactory.read .null, OperationFactory.read .null]],
      createGenerator [OperationFactory.write .null .null]]) := by
    have hlist (ops : List Operation) : Static (createGenerator ops) := .list fun g hg ↦ by
      obtain ⟨o, -, rfl⟩ := List.mem_map.mp hg
      exact .operation
    exact .any (by simpa using ⟨.mix (by simpa using hlist _), hlist _⟩)
  obtain ⟨s, hs, hone⟩ : ∃ s, (start 1 (setGenerator (.any [
      .mix 0 [createGenerator [OperationFactory.read .null, OperationFactory.read .null]],
      createGenerator [OperationFactory.write .null .null]])) 0).run
        [.ask 0 (fun _ ↦ 1) 8] = some s ∧ s.dispatched.length = 1 := ⟨_, rfl, rfl⟩
  exact ⟨s, hs, hone, (dispatched_at_most_once 1 _ 0 s (reachable_of_run hs)).2 hstatic⟩

end Runner

end Jepsen
