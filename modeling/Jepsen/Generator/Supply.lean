import Jepsen.Generator.Answers
import Mathlib.Algebra.BigOperators.Group.List.Basic
import Mathlib.Data.ENat.Basic

/-!
# What a tree has left

`supply p g` counts the operations with `p` that the tree can still offer (`p` looks at what a
dispatched operation has of its leaf): each leaf operation once, a leaf that computes operations
with `p` without end.  Whoever answers a real operation gives one up, and nothing that is done to a
tree adds to its supply, the copies that `Mix` and `Any` make of their members included.
-/

namespace Jepsen

open Library
open GeneratorPtr (copyOrNull copyEach Rebuilt)

namespace GeneratorPtr

/-- One operation. -/
def one (p : String × OPInfo → Bool) (o : Operation) : ℕ∞ :=
  if p (o.func, o.op) then 1 else 0

open Classical in
/-- The operations `ops`, any number of times. -/
noncomputable def endless (p : String × OPInfo → Bool) (ops : Operation → Prop) : ℕ∞ :=
  if ∃ o, ops o ∧ p (o.func, o.op) then ⊤ else 0

mutual

noncomputable def supply (p : String × OPInfo → Bool) : GeneratorPtr → ℕ∞
  | .nullptr => 0
  | .operation o => one p o
  | .function f => endless p fun o ↦ ∃ ctx k, o = f.func ctx k
  | .list gs => supplyEach p gs
  | .validate g => supply p g
  | .onThreads g _ => supply p g
  | .timeLimit _ _ g => supply p g
  | .stagger _ _ g => supply p g
  | .mix _ gs => supplyEach p gs
  | .any gs => supplyEach p gs
  | .user leaf _ => endless p fun o ↦ ∃ calls ctx k, o = leaf.next calls ctx k

noncomputable def supplyEach (p : String × OPInfo → Bool) : List GeneratorPtr → ℕ∞
  | [] => 0
  | g :: gs => supply p g + supplyEach p gs

end

variable {p : String × OPInfo → Bool}

theorem supplyEach_eq (gs : List GeneratorPtr) : supplyEach p gs = (gs.map (supply p)).sum := by
  induction gs with
  | nil => rfl
  | cons g gs ih => rw [supplyEach, ih, List.map_cons, List.sum_cons]

theorem supplyEach_congr {gs gs' : List GeneratorPtr}
    (h : Pointwise (fun g g' ↦ supply p g' = supply p g) gs gs') :
    supplyEach p gs' = supplyEach p gs := by
  rw [supplyEach_eq, supplyEach_eq]
  exact Pointwise.sum_eq h

/-- What one member gives up, all members together do. -/
theorem supplyEach_set_le {gs : List GeneratorPtr} {i : Nat} {g g' : GeneratorPtr} {n : ℕ∞}
    (hg : gs[i]? = some g) (h : supply p g' + n ≤ supply p g) :
    supplyEach p (gs.set i g') + n ≤ supplyEach p gs := by
  rw [supplyEach_eq, supplyEach_eq]
  exact Pointwise.sum_set_le hg h

theorem supplyEach_eraseIdx_le (gs : List GeneratorPtr) (i : Nat) :
    supplyEach p (gs.eraseIdx i) ≤ supplyEach p gs := by
  induction gs generalizing i with
  | nil => simp [supplyEach]
  | cons g gs ih =>
    cases i with
    | zero => exact le_add_left le_rfl
    | succ i => exact add_le_add le_rfl (ih i)

theorem Rebuilt.supply_eq {polled copied : Bool} {g g' : GeneratorPtr}
    (h : Rebuilt polled copied g g') : supply p g' = supply p g := by
  induction h with
  | list hlen _ ih => exact supplyEach_congr ⟨hlen, ih⟩
  | mix _ hlen _ ih => exact supplyEach_congr ⟨hlen, ih⟩
  | any hlen _ ih => exact supplyEach_congr ⟨hlen, ih⟩
  | validate _ ih => exact ih
  | onThreads _ ih => exact ih
  | timeLimitNull _ ih => exact ih
  | timeLimit _ ih => exact ih
  | staggerNull _ ih => exact ih
  | stagger _ ih => exact ih
  | _ => rfl

theorem supplyEach_rebuilt {polled copied : Bool} {gs gs' : List GeneratorPtr}
    (h : Pointwise (Rebuilt polled copied) gs gs') : supplyEach p gs' = supplyEach p gs :=
  supplyEach_congr (h.mono fun _ _ _ hr ↦ hr.supply_eq)

/-! ## Trees of operations -/

mutual

/-- The operations that the leaves of a tree hold. -/
def contents : GeneratorPtr → List Operation
  | .nullptr => []
  | .operation o => [o]
  | .function _ => []
  | .list gs => contentsEach gs
  | .validate g => contents g
  | .onThreads g _ => contents g
  | .timeLimit _ _ g => contents g
  | .stagger _ _ g => contents g
  | .mix _ gs => contentsEach gs
  | .any gs => contentsEach gs
  | .user _ _ => []

def contentsEach : List GeneratorPtr → List Operation
  | [] => []
  | g :: gs => contents g ++ contentsEach gs

end

/-- No leaf computes its operations. -/
inductive Static : GeneratorPtr → Prop
  | nullptr : Static .nullptr
  | operation {o} : Static (.operation o)
  | list {gs} (h : ∀ g ∈ gs, Static g) : Static (.list gs)
  | validate {g} (h : Static g) : Static (.validate g)
  | onThreads {g filter} (h : Static g) : Static (.onThreads g filter)
  | timeLimit {limit cutoff g} (h : Static g) : Static (.timeLimit limit cutoff g)
  | stagger {dt next_time g} (h : Static g) : Static (.stagger dt next_time g)
  | mix {idx gs} (h : ∀ g ∈ gs, Static g) : Static (.mix idx gs)
  | any {gs} (h : ∀ g ∈ gs, Static g) : Static (.any gs)

/-- How many of the operations have `p`. -/
def tally (p : String × OPInfo → Bool) (ops : List Operation) : Nat :=
  ops.countP fun o ↦ p (o.func, o.op)

theorem tally_append (ops ops' : List Operation) :
    tally p (ops ++ ops') = tally p ops + tally p ops' :=
  List.countP_append

theorem tally_one (o : Operation) : (tally p [o] : ℕ∞) = one p o := by
  unfold tally one
  cases h : p (o.func, o.op) with
  | true => simp [h]
  | false => simp [h]

theorem supplyEach_static {gs : List GeneratorPtr}
    (h : ∀ g ∈ gs, supply p g = tally p g.contents) :
    supplyEach p gs = tally p (contentsEach gs) := by
  induction gs with
  | nil => rfl
  | cons g gs ih =>
    obtain ⟨hg, hgs⟩ := List.forall_mem_cons.mp h
    rw [supplyEach, contentsEach, tally_append, Nat.cast_add, hg, ih hgs]

theorem Static.supply_eq {g : GeneratorPtr} (h : Static g) :
    supply p g = tally p g.contents := by
  induction h with
  | nullptr => rfl
  | operation => exact (tally_one _).symm
  | list _ ih | mix _ ih | any _ ih => exact supplyEach_static ih
  | validate _ ih => exact ih
  | onThreads _ ih => exact ih
  | timeLimit _ ih => exact ih
  | stagger _ ih => exact ih

theorem tally_contentsEach_le {gs : List GeneratorPtr}
    (h : ∀ g ∈ gs, (tally p g.contents : ℕ∞) ≤ supply p g) :
    (tally p (contentsEach gs) : ℕ∞) ≤ supplyEach p gs := by
  induction gs with
  | nil => exact zero_le
  | cons g gs ih =>
    obtain ⟨hg, hgs⟩ := List.forall_mem_cons.mp h
    rw [supplyEach, contentsEach, tally_append, Nat.cast_add]
    exact add_le_add hg (ih hgs)

theorem tally_contents_le (g : GeneratorPtr) : (tally p g.contents : ℕ∞) ≤ supply p g := by
  induction g with
  | nullptr | function | user => exact zero_le
  | operation o => exact (tally_one o).le
  | list gs ih | mix _ gs ih | any gs ih => exact tally_contentsEach_le ih
  | validate g ih => exact ih
  | onThreads g _ ih => exact ih
  | timeLimit _ _ g ih => exact ih
  | stagger _ _ g ih => exact ih

end GeneratorPtr

open GeneratorPtr (supply supplyEach one endless)

/-- What an answer takes from the supply. -/
noncomputable def Answer.taken (p : String × OPInfo → Bool) (a : Answer) : ℕ∞ :=
  if a.op.Real then one p a.op else 0

section

variable {p : String × OPInfo → Bool}

theorem taken_of_not_real {a : Answer} (h : ¬ a.op.Real) : a.taken p = 0 := if_neg h

theorem nil_supply (self : GeneratorPtr) : supply p (nil self).gen2 + (nil self).taken p = 0 := by
  have hnot : ¬ (nil self).op.Real := fun h ↦ h.1 rfl
  rw [taken_of_not_real hnot, add_zero]
  rfl

theorem MayFill.one_eq {ctx : Context} {o r : Operation} (h : MayFill ctx o r) :
    one p r = one p o := by
  obtain ⟨process, -, rfl⟩ := h
  unfold fillIn
  split <;> rfl

theorem taken_le {a : Answer} : a.taken p ≤ one p a.op := by
  unfold Answer.taken
  split
  · exact le_rfl
  · exact zero_le

/-- A leaf without end stays what it is. -/
theorem endless_add {ops : Operation → Prop} {o : Operation} (ho : ops o) :
    endless p ops + one p o = endless p ops := by
  by_cases hp : ∃ o, ops o ∧ p (o.func, o.op)
  · rw [endless, if_pos hp, top_add]
  · have hone : one p o = 0 := if_neg fun h ↦ hp ⟨o, ho, h⟩
    rw [hone, add_zero]

/-- A real answer takes its operation from the supply, and no answer adds to it. -/
theorem Answers.supply_le {g : GeneratorPtr} {ctx : Context} {a : Answer} (ha : Answers g ctx a) :
    supply p a.gen2 + a.taken p ≤ supply p g := by
  induction ha with
  | nullptr | listEmpty | mixEmpty => exact (nil_supply _).le.trans zero_le
  | onThreadsNil | timeLimitOver | timeLimitNil | staggerNil | anyNil | userNil =>
    exact (nil_supply _).le.trans zero_le
  | pending hfill hr => rw [taken_of_not_real fun hreal ↦ hreal.2 hr, add_zero]
  | operation hfill hr =>
    rw [GeneratorPtr.supply, zero_add, GeneratorPtr.supply, ← hfill.one_eq]
    exact taken_le
  -- a function answers through the list of its operation and itself
  | @function f ctx k a _ ih =>
    refine ih.trans ?_
    have hf : endless p (fun o ↦ ∃ ctx k, o = f.func ctx k) + one p (f.func ctx k) =
        endless p (fun o ↦ ∃ ctx k, o = f.func ctx k) := endless_add ⟨ctx, k, rfl⟩
    simp only [GeneratorPtr.supply, GeneratorPtr.supplyEach, add_zero]
    rw [add_comm, hf]
  | listPop _ _ _ hcopy _ _ ih₂ =>
    have hrest := GeneratorPtr.supplyEach_rebuilt (p := p)
      (GeneratorPtr.copyOrNull_rebuilt true hcopy).tail
    refine ih₂.trans ?_
    rw [GeneratorPtr.supply, GeneratorPtr.supply, GeneratorPtr.supplyEach, hrest]
    exact le_add_left le_rfl
  | listFront _ _ hcopy _ ih =>
    have hrest := GeneratorPtr.supplyEach_rebuilt (p := p)
      (GeneratorPtr.copyOrNull_rebuilt true hcopy).tail
    rw [GeneratorPtr.supply, GeneratorPtr.supply, GeneratorPtr.supplyEach,
      GeneratorPtr.supplyEach, hrest, add_right_comm]
    exact add_le_add ih le_rfl
  | listSingle _ _ ih =>
    rw [GeneratorPtr.supply, GeneratorPtr.supplyEach, GeneratorPtr.supplyEach, add_zero]
    exact ih
  | validate _ _ ih | validateLast _ _ ih => exact ih
  | onThreads _ _ ih => exact ih
  | timeLimitPending _ _ _ ih | timeLimit _ _ _ _ _ ih => exact ih
  | @staggerPending dt next_time gen ctx a next_time' ha _ hp _ _ =>
    have hself : supply p a.self = supply p gen := ha.rebuilt.supply_eq
    have htaken : Answer.taken p ⟨a.op, .stagger dt next_time' a.self,
      .stagger dt next_time' a.self⟩ = 0 := taken_of_not_real fun hreal ↦ hreal.2 hp
    rw [htaken, add_zero]
    exact hself.le
  | stagger _ _ _ _ _ ih => exact ih
  | @mix idx gens gen ctx a copy idx' hgen ha _ hcopy ih =>
    have hset := Pointwise.set GeneratorPtr.Rebuilt.refl hgen ha.rebuilt
    have hcopied := GeneratorPtr.copyEach_rebuilt true hcopy
    -- The copy of the member that was asked has the supply of the member.
    have hlt : idx < copy.length := by
      rw [← hcopied.1, List.length_set]
      exact (List.getElem?_eq_some_iff.mp hgen).1
    have hmember : supply p copy[idx] = supply p gen := by
      have hself := (hcopied.2 idx (hcopied.1 ▸ hlt) hlt).supply_eq (p := p)
      rw [List.getElem_set_self] at hself
      rw [hself, ha.rebuilt.supply_eq]
    have hall : supplyEach p copy = supplyEach p gens := by
      rw [GeneratorPtr.supplyEach_rebuilt hcopied, GeneratorPtr.supplyEach_rebuilt hset]
    rw [GeneratorPtr.supply, GeneratorPtr.supply, ← hall]
    exact GeneratorPtr.supplyEach_set_le (List.getElem?_eq_getElem hlt) (hmember ▸ ih)
  | @mixDrop idx gens gen ctx a copy idx' b hgen ha hoff hcopy hb ih₁ ih₂ =>
    refine ih₂.trans ?_
    rw [GeneratorPtr.supply, GeneratorPtr.supply,
      GeneratorPtr.supplyEach_rebuilt (GeneratorPtr.copyEach_rebuilt true hcopy)]
    exact GeneratorPtr.supplyEach_eraseIdx_le gens idx
  | @any gens ctx as i a copy hlen has hbest hcopy ih =>
    have hselves : Pointwise (GeneratorPtr.Rebuilt true false) gens (as.map Answer.self) :=
      Pointwise.map_right.mpr ⟨hlen, fun j hj hj' ↦ (has j hj hj').rebuilt⟩
    have hcopied := GeneratorPtr.copyEach_rebuilt true hcopy
    have hlt : i < copy.length := by
      rw [← hcopied.1, ← hselves.1, hlen]
      exact (List.getElem?_eq_some_iff.mp hbest.get).1
    have hi : i < gens.length := by
      rw [hselves.1, hcopied.1]
      exact hlt
    have hmember : supply p copy[i] = supply p gens[i] := by
      rw [(hcopied.2 i (hcopied.1 ▸ hlt) hlt).supply_eq,
        (hselves.2 i hi (hcopied.1 ▸ hlt)).supply_eq]
    have hall : supplyEach p copy = supplyEach p gens := by
      rw [GeneratorPtr.supplyEach_rebuilt hcopied, GeneratorPtr.supplyEach_rebuilt hselves]
    have hget := List.getElem?_eq_some_iff.mp hbest.get
    have hbest' := ih i hi hget.1
    rw [hget.2, ← hmember] at hbest'
    rw [GeneratorPtr.supply, GeneratorPtr.supply, ← hall]
    exact GeneratorPtr.supplyEach_set_le (List.getElem?_eq_getElem hlt) hbest'
  | @user leaf calls ctx k r _ hfill =>
    have hleaf : endless p (fun o ↦ ∃ calls ctx k, o = leaf.next calls ctx k) +
        one p (leaf.next calls ctx k) = endless p (fun o ↦ ∃ calls ctx k,
          o = leaf.next calls ctx k) := endless_add ⟨calls, ctx, k, rfl⟩
    rw [GeneratorPtr.supply, GeneratorPtr.supply]
    refine (add_le_add le_rfl taken_le).trans ?_
    rw [hfill.one_eq, hleaf]

end

end Jepsen
