import Jepsen.Generator.Leaves
import Jepsen.Generator.Spacing
import Jepsen.Generator.Supply

/-!
# Asking late

`latest g` is a time after all that the `TimeLimit` and `Stagger` nodes of a tree wait for.  A tree
that is asked no earlier answers without delay, and a `TimeLimit` whose deadline is set has nothing
more to offer, whatever it holds.  `lateSupply g` bounds the operations that are left for such asks:
a `TimeLimit` counts for one operation until that operation sets its deadline.
-/

namespace Jepsen

open Library GeneratorFactory
open GeneratorPtr (copyOne copyEach copyOrNull members update writeBack writeBackEach updateEach)

namespace GeneratorPtr

mutual

def latest : GeneratorPtr → Int
  | .list gs => latestEach gs
  | .validate g => latest g
  | .onThreads g _ => latest g
  | .timeLimit _ cutoff g => max cutoff (latest g)
  | .stagger _ next_time g => max next_time (latest g)
  | .mix _ gs => latestEach gs
  | .any gs => latestEach gs
  | .nullptr | .operation _ | .function _ | .user _ _ => 0

def latestEach : List GeneratorPtr → Int
  | [] => 0
  | g :: gs => max (latest g) (latestEach gs)

end

mutual

def lateSupply : GeneratorPtr → ℕ∞
  | .nullptr => 0
  | .operation _ => 1
  | .list gs => lateSupplyEach gs
  | .validate g => lateSupply g
  | .onThreads g _ => lateSupply g
  | .timeLimit _ cutoff _ => if cutoff = kInvalidTime then 1 else 0
  | .stagger _ _ g => lateSupply g
  | .any gs => lateSupplyEach gs
  | .function _ | .mix _ _ | .user _ _ => ⊤

def lateSupplyEach : List GeneratorPtr → ℕ∞
  | [] => 0
  | g :: gs => lateSupply g + lateSupplyEach gs

end

/-! ## The latest time -/

theorem latestEach_nonneg {gs : List GeneratorPtr} (h : ∀ g ∈ gs, 0 ≤ g.latest) :
    0 ≤ latestEach gs := by
  cases gs with
  | nil => exact le_rfl
  | cons g gs => exact le_max_of_le_left (h g (List.mem_cons_self ..))

theorem latest_nonneg (g : GeneratorPtr) : 0 ≤ g.latest := by
  induction g with
  | nullptr | operation | function | user => exact le_rfl
  | list gs ih | mix _ gs ih | any gs ih => exact latestEach_nonneg ih
  | validate g ih => exact ih
  | onThreads g _ ih => exact ih
  | timeLimit _ _ g ih => exact le_max_of_le_right ih
  | stagger _ _ g ih => exact le_max_of_le_right ih

theorem latest_le_latestEach {g : GeneratorPtr} {gs : List GeneratorPtr} (h : g ∈ gs) :
    g.latest ≤ latestEach gs := by
  induction gs with
  | nil => exact absurd h (by simp)
  | cons g' gs ih =>
    unfold latestEach
    cases List.mem_cons.mp h with
    | inl heq => exact heq ▸ le_max_left _ _
    | inr h => exact (ih h).trans (le_max_right _ _)

theorem latestEach_mono {gs gs' : List GeneratorPtr}
    (h : Pointwise (fun g g' ↦ g'.latest ≤ g.latest) gs gs') : latestEach gs' ≤ latestEach gs := by
  induction gs generalizing gs' with
  | nil =>
    obtain rfl := List.eq_nil_of_length_eq_zero h.1.symm
    exact le_rfl
  | cons g gs ih =>
    obtain ⟨g', gs', hg, hgs, rfl⟩ := h.uncons
    exact max_le_max hg (ih hgs)

theorem latestEach_eraseIdx_le (gs : List GeneratorPtr) (i : Nat) :
    latestEach (gs.eraseIdx i) ≤ latestEach gs := by
  induction gs generalizing i with
  | nil => exact le_rfl
  | cons g gs ih =>
    cases i with
    | zero => exact le_max_right _ _
    | succ i => exact max_le_max le_rfl (ih i)

/-- A copy waits for no more than the original. -/
theorem latest_copyOne {g g' : GeneratorPtr} (h : copyOne g = .ok g') : g'.latest ≤ g.latest := by
  induction g generalizing g' with
  | nullptr => exact absurd h (by simp [copyOne])
  | operation | function | user =>
    rw [copyOne] at h
    obtain rfl := Except.ok.inj h
    exact le_rfl
  | list gs ih =>
    rw [copyOne] at h
    obtain ⟨gs', hcopy, rfl⟩ := except_map_eq_ok.mp h
    exact latestEach_mono (copyOrNull_pointwise le_rfl (fun g hg g' hg' ↦ ih g hg hg') hcopy)
  | validate g ih =>
    rw [copyOne] at h
    rcases copyWrapped_eq_ok.mp h with ⟨-, rfl⟩ | ⟨c, hc, rfl⟩
    · exact latest_nonneg _
    · show c.latest ≤ g.latest
      exact ih hc
  | onThreads g filter ih =>
    rw [copyOne] at h
    rcases copyWrapped_eq_ok.mp h with ⟨-, rfl⟩ | ⟨c, hc, rfl⟩
    · exact latest_nonneg _
    · show c.latest ≤ g.latest
      exact ih hc
  | timeLimit limit cutoff g ih =>
    rw [copyOne] at h
    rcases copyWrapped_eq_ok.mp h with ⟨-, rfl⟩ | ⟨c, hc, rfl⟩
    · exact latest_nonneg _
    · exact max_le_max le_rfl (ih hc)
  -- a copied `Stagger` starts anew
  | stagger dt nt g ih =>
    rw [copyOne] at h
    rcases copyWrapped_eq_ok.mp h with ⟨-, rfl⟩ | ⟨c, hc, rfl⟩
    · exact latest_nonneg _
    · refine max_le ?_ ((ih hc).trans (le_max_right _ _))
      have hpos : (0 : Int) ≤ (GeneratorPtr.stagger dt nt g).latest := latest_nonneg _
      exact le_trans (by decide) hpos
  | mix idx gs =>
    rw [copyOne] at h
    obtain ⟨gs', -, rfl⟩ := except_map_eq_ok.mp h
    exact le_rfl
  | any gs ih =>
    rw [copyOne] at h
    obtain ⟨gs', hcopy, rfl⟩ := except_map_eq_ok.mp h
    exact latestEach_mono (copyEach_pointwise (fun g hg g' hg' ↦ ih g hg hg') hcopy)

theorem latestEach_copyOrNull {gs gs' : List GeneratorPtr} (h : copyOrNull gs = .ok gs') :
    latestEach gs' ≤ latestEach gs :=
  latestEach_mono (copyOrNull_pointwise le_rfl (fun _ _ _ ↦ latest_copyOne) h)

theorem latestEach_copyEach {gs gs' : List GeneratorPtr} (h : copyEach gs = .ok gs') :
    latestEach gs' ≤ latestEach gs :=
  latestEach_mono (copyEach_pointwise (fun _ _ _ ↦ latest_copyOne) h)

/-! ## What is left for late asks -/

theorem lateSupplyEach_eq (gs : List GeneratorPtr) :
    lateSupplyEach gs = (gs.map lateSupply).sum := by
  induction gs with
  | nil => rfl
  | cons g gs ih => rw [lateSupplyEach, ih, List.map_cons, List.sum_cons]

theorem lateSupplyEach_mono {gs gs' : List GeneratorPtr}
    (h : Pointwise (fun g g' ↦ g'.lateSupply ≤ g.lateSupply) gs gs') :
    lateSupplyEach gs' ≤ lateSupplyEach gs := by
  rw [lateSupplyEach_eq, lateSupplyEach_eq]
  exact Pointwise.sum_le h

theorem lateSupplyEach_set_le {gs : List GeneratorPtr} {i : Nat} {g g' : GeneratorPtr} {n : ℕ∞}
    (hg : gs[i]? = some g) (h : g'.lateSupply + n ≤ g.lateSupply) :
    lateSupplyEach (gs.set i g') + n ≤ lateSupplyEach gs := by
  rw [lateSupplyEach_eq, lateSupplyEach_eq]
  exact Pointwise.sum_set_le hg h

theorem lateSupply_copyOne {g g' : GeneratorPtr} (h : copyOne g = .ok g') :
    g'.lateSupply ≤ g.lateSupply := by
  induction g generalizing g' with
  | nullptr => exact absurd h (by simp [copyOne])
  | operation =>
    rw [copyOne] at h
    obtain rfl := Except.ok.inj h
    exact le_rfl
  | function | user | mix => exact le_top
  | list gs ih =>
    rw [copyOne] at h
    obtain ⟨gs', hcopy, rfl⟩ := except_map_eq_ok.mp h
    exact lateSupplyEach_mono (copyOrNull_pointwise le_rfl (fun g hg g' hg' ↦ ih g hg hg') hcopy)
  | validate g ih =>
    rw [copyOne] at h
    rcases copyWrapped_eq_ok.mp h with ⟨-, rfl⟩ | ⟨c, hc, rfl⟩
    · exact zero_le
    · show c.lateSupply ≤ g.lateSupply
      exact ih hc
  | onThreads g filter ih =>
    rw [copyOne] at h
    rcases copyWrapped_eq_ok.mp h with ⟨-, rfl⟩ | ⟨c, hc, rfl⟩
    · exact zero_le
    · show c.lateSupply ≤ g.lateSupply
      exact ih hc
  -- a copied `TimeLimit` keeps its deadline
  | timeLimit limit cutoff g ih =>
    rw [copyOne] at h
    rcases copyWrapped_eq_ok.mp h with ⟨-, rfl⟩ | ⟨c, hc, rfl⟩
    · exact zero_le
    · exact le_rfl
  | stagger dt nt g ih =>
    rw [copyOne] at h
    rcases copyWrapped_eq_ok.mp h with ⟨-, rfl⟩ | ⟨c, hc, rfl⟩
    · exact zero_le
    · show c.lateSupply ≤ g.lateSupply
      exact ih hc
  | any gs ih =>
    rw [copyOne] at h
    obtain ⟨gs', hcopy, rfl⟩ := except_map_eq_ok.mp h
    exact lateSupplyEach_mono (copyEach_pointwise (fun g hg g' hg' ↦ ih g hg hg') hcopy)

theorem lateSupply_copyOrNull {gs gs' : List GeneratorPtr} (h : copyOrNull gs = .ok gs') :
    Pointwise (fun g g' ↦ g'.lateSupply ≤ g.lateSupply) gs gs' :=
  copyOrNull_pointwise le_rfl (fun _ _ _ ↦ lateSupply_copyOne) h

theorem lateSupply_copyEach {gs gs' : List GeneratorPtr} (h : copyEach gs = .ok gs') :
    Pointwise (fun g g' ↦ g'.lateSupply ≤ g.lateSupply) gs gs' :=
  copyEach_pointwise (fun _ _ _ ↦ lateSupply_copyOne) h

theorem lateSupply_update {g g' : GeneratorPtr} {ctx : Context} {event : Operation}
    (h : update g ctx event = .ok g') : g'.lateSupply ≤ g.lateSupply := by
  induction g generalizing ctx g' with
  | nullptr | operation =>
    rw [update] at h
    obtain rfl := Except.ok.inj h
    exact le_rfl
  | function | user | mix => exact le_top
  | list gs ih =>
    cases gs with
    | nil =>
      rw [update] at h
      obtain rfl := Except.ok.inj h
      exact le_rfl
    | cons g gs =>
      rw [update] at h
      obtain ⟨upd, hupd, h⟩ := except_bind_eq_ok.mp h
      obtain ⟨copy, hcopy, rfl⟩ := except_map_eq_ok.mp h
      obtain ⟨g', gs', -, hrest, rfl⟩ := (lateSupply_copyOrNull hcopy).uncons
      exact add_le_add (ih g (List.mem_cons_self ..) hupd) (lateSupplyEach_mono hrest)
  | validate g ih =>
    rw [update] at h
    obtain ⟨upd, hupd, rfl⟩ := except_map_eq_ok.mp h
    show upd.lateSupply ≤ g.lateSupply
    exact ih hupd
  | onThreads g filter ih =>
    rw [update] at h
    split at h
    · obtain ⟨upd, hupd, rfl⟩ := except_map_eq_ok.mp h
      show upd.lateSupply ≤ g.lateSupply
      exact ih hupd
    · obtain rfl := Except.ok.inj h
      exact le_rfl
  | timeLimit limit cutoff g =>
    rw [update] at h
    obtain ⟨upd, -, rfl⟩ := except_map_eq_ok.mp h
    exact le_rfl
  | stagger dt nt g ih =>
    rw [update] at h
    obtain ⟨upd, hupd, rfl⟩ := except_map_eq_ok.mp h
    show upd.lateSupply ≤ g.lateSupply
    exact ih hupd
  | any gs ih =>
    rw [update] at h
    obtain ⟨gs', hupd, rfl⟩ := except_map_eq_ok.mp h
    exact lateSupplyEach_mono (updateEach_pointwise (fun g hg g' hg' ↦ ih g hg hg') hupd)

/-- What a call leaves in the members that copies share is not counted. -/
theorem lateSupply_writeBack (g copy : GeneratorPtr) :
    (writeBack g copy).lateSupply = g.lateSupply := by
  have heach {gs : List GeneratorPtr}
      (h : ∀ g ∈ gs, ∀ copy, (writeBack g copy).lateSupply = g.lateSupply)
      (copies : List GeneratorPtr) :
      lateSupplyEach (writeBackEach gs copies) = lateSupplyEach gs := by
    induction gs generalizing copies with
    | nil => rfl
    | cons g gs ih =>
      obtain ⟨hg, hgs⟩ := List.forall_mem_cons.mp h
      rw [writeBackEach, lateSupplyEach, lateSupplyEach, hg, ih hgs]
  induction g generalizing copy with
  | nullptr | operation | function | user | mix => rfl
  | list gs ih => exact heach ih _
  | validate g ih => exact ih _
  | onThreads g _ ih => exact ih _
  | timeLimit => rfl
  | stagger _ _ g ih => exact ih _
  | any gs ih => exact heach ih _

theorem lateSupplyEach_writeBack (gs copies : List GeneratorPtr) :
    lateSupplyEach (writeBackEach gs copies) = lateSupplyEach gs :=
  lateSupply_writeBack (.list gs) (.list copies)

theorem lateSupply_fix_le (limit cutoff time : Int) (g g' : GeneratorPtr) :
    (GeneratorPtr.timeLimit limit (TimeLimit.fix limit cutoff time) g').lateSupply ≤
      (GeneratorPtr.timeLimit limit cutoff g).lateSupply := by
  unfold lateSupply
  by_cases hcut : cutoff = kInvalidTime
  · rw [if_pos hcut]
    split
    · exact le_rfl
    · exact zero_le
  · rw [TimeLimit.fix_of_ne hcut]

/-- What the member that `Any` chose gives up, all members together do. -/
theorem lateSupply_chosen {gens copy : List GeneratorPtr} {as : List Answer} {i : Nat} {a : Answer}
    {g : GeneratorPtr} {n : ℕ∞}
    (hself : Pointwise (fun g a ↦ a.self.lateSupply ≤ g.lateSupply) gens as)
    (hcopy : copyEach (as.map Answer.self) = .ok copy) (hg : gens[i]? = some g)
    (h : a.gen2.lateSupply + n ≤ g.lateSupply) :
    lateSupplyEach (copy.set i a.gen2) + n ≤ lateSupplyEach gens := by
  have hselves : Pointwise (fun g g' ↦ g'.lateSupply ≤ g.lateSupply) gens (as.map Answer.self) :=
    Pointwise.map_right.mpr hself
  have hcopied := hselves.trans (lateSupply_copyEach hcopy) fun _ _ _ _ h h' ↦ le_trans h' h
  have hset := lateSupplyEach_mono (hcopied.set_both i (le_refl a.gen2.lateSupply))
  exact (add_le_add hset le_rfl).trans (lateSupplyEach_set_le hg h)

end GeneratorPtr

/-! ## Late answers -/

section

variable {g : GeneratorPtr} {ctx : Context} {a : Answer}

-- Nothing in a tree that is asked late raises a time.
theorem Answers.time_le_of_late (ha : Answers g ctx a) {path : List ThreadFilter}
    (h : AllLeaves Untimed path g) (hlate : g.latest ≤ ctx.time) (hreal : a.op.Real) :
    a.op.time ≤ ctx.time := by
  have hnil : ¬ Operation.Real { type := .kNil } := by decide
  induction ha generalizing path with
  | nullptr | listEmpty | onThreadsNil | timeLimitOver | timeLimitNil | staggerNil | mixEmpty
  | anyNil | userNil => exact absurd hreal hnil
  | pending _ hp | staggerPending _ _ hp => exact absurd hp hreal.2
  | timeLimitPending _ _ hp => exact absurd hp hreal.2
  | operation hfill hp => cases h with | operation ho => exact (hfill.time_eq ho hp).le
  | user _ hfill => cases h with | user h => exact (hfill.time_eq (h _ _ _) hreal.2).le
  | @function f ctx k a _ ih =>
    cases h with
    | function h =>
      exact ih (.list (by simpa using ⟨.operation (h ctx k), .function h⟩)) hlate hreal
  | listPop ha _ _ hcopy _ _ ih₂ =>
    cases h with
    | list h =>
      have hrest := (GeneratorPtr.copyOrNull_rebuilt true hcopy).tail
      apply ih₂ (.list (AllLeaves.forall_rebuilt hrest (List.forall_mem_cons.mp h).2)) _ hreal
      obtain ⟨_, _, -, hcopied, heq⟩ := GeneratorPtr.copyOrNull_cons_ok.mp hcopy
      obtain ⟨rfl, rfl⟩ := List.cons.inj heq
      exact (GeneratorPtr.latestEach_copyOrNull hcopied).trans ((le_max_right _ _).trans hlate)
  | listFront _ _ _ _ ih =>
    cases h with
    | list h =>
      exact ih (List.forall_mem_cons.mp h).1 ((le_max_left _ _).trans hlate) hreal
  | listSingle _ _ ih =>
    cases h with | list h => exact ih (h _ (by simp)) ((le_max_left _ _).trans hlate) hreal
  | validate _ _ ih | validateLast _ _ ih => cases h with | validate h => exact ih h hlate hreal
  | onThreads _ _ ih => cases h with | onThreads h => exact ih h hlate hreal
  | timeLimit _ _ _ _ _ ih =>
    cases h with | timeLimit h => exact ih h ((le_max_right _ _).trans hlate) hreal
  -- the time that was scheduled is past
  | @stagger dt next_time gen ctx a next_time' ha _ hp hnext _ ih =>
    cases h with
    | stagger h =>
      apply max_le
      · subst hnext
        unfold Stagger.fix
        split
        · exact le_rfl
        · exact (le_max_left _ _).trans hlate
      · exact ih h ((le_max_right _ _).trans hlate) ⟨hreal.1, hp⟩
  | mix hgen _ _ _ ih =>
    cases h with
    | mix h =>
      have hmem := List.mem_of_getElem? hgen
      exact ih (h _ hmem) ((GeneratorPtr.latest_le_latestEach hmem).trans hlate) hreal
  | @mixDrop idx gens gen ctx a copy idx' b hgen _ _ hcopy _ _ ih₂ =>
    cases h with
    | mix h =>
      have hrest := GeneratorPtr.copyEach_rebuilt true hcopy
      apply ih₂ (.mix (AllLeaves.forall_rebuilt hrest
        fun g hg ↦ h g (List.mem_of_mem_eraseIdx hg))) _ hreal
      have hle := GeneratorPtr.latestEach_copyEach hcopy
      exact hle.trans ((GeneratorPtr.latestEach_eraseIdx_le gens idx).trans hlate)
  | @any gens ctx as i a copy hlen _ hbest _ ih =>
    cases h with
    | any h =>
      have hget := List.getElem?_eq_some_iff.mp hbest.get
      have hi : i < gens.length := hlen ▸ hget.1
      have hmem := List.getElem_mem hi
      have hmember := ih i hi hget.1 (h _ hmem)
        ((GeneratorPtr.latest_le_latestEach hmem).trans hlate)
      rw [hget.2] at hmember
      exact hmember hreal

/-- No call adds to what is left for late asks: a deadline that is set stays set. -/
theorem Answers.lateSupply_le (ha : Answers g ctx a) :
    a.gen2.lateSupply ≤ g.lateSupply ∧ a.self.lateSupply ≤ g.lateSupply := by
  induction ha with
  | nullptr | pending => exact ⟨le_rfl, le_rfl⟩
  | operation | listEmpty => exact ⟨zero_le, le_rfl⟩
  | function | mixEmpty | mix | mixDrop | userNil | user => exact ⟨le_top, le_top⟩
  | listPop _ _ _ hcopy _ ih₁ ih₂ =>
    have hrest := (GeneratorPtr.lateSupply_copyOrNull hcopy).tail
    have hle := GeneratorPtr.lateSupplyEach_mono hrest
    refine ⟨(ih₂.1.trans hle).trans le_add_self, ?_⟩
    exact add_le_add ih₁.2 (GeneratorPtr.lateSupplyEach_writeBack _ _).le
  | listFront _ _ hcopy _ ih =>
    have hrest := (GeneratorPtr.lateSupply_copyOrNull hcopy).tail
    exact ⟨add_le_add ih.1 (GeneratorPtr.lateSupplyEach_mono hrest), add_le_add ih.2 le_rfl⟩
  | listSingle _ _ ih => exact ⟨ih.1.trans le_self_add, add_le_add ih.2 le_rfl⟩
  | validate _ _ ih | validateLast _ _ ih => exact ih
  | onThreads _ _ ih => exact ih
  | onThreadsNil _ _ ih => exact ⟨zero_le, ih.2⟩
  | timeLimitPending => exact ⟨le_rfl, le_rfl⟩
  | timeLimit _ _ _ hcut =>
    subst hcut
    exact ⟨GeneratorPtr.lateSupply_fix_le .., GeneratorPtr.lateSupply_fix_le ..⟩
  | timeLimitOver _ _ _ hcut =>
    subst hcut
    exact ⟨zero_le, GeneratorPtr.lateSupply_fix_le ..⟩
  | timeLimitNil => exact ⟨zero_le, le_rfl⟩
  | staggerPending _ _ _ _ ih => exact ⟨ih.2, ih.2⟩
  | stagger _ _ _ _ _ ih => exact ih
  | staggerNil _ _ ih => exact ⟨zero_le, ih.2⟩
  | @any gens ctx as i a copy hlen _ hbest hcopy ih =>
    have hself : Pointwise (fun g a ↦ a.self.lateSupply ≤ g.lateSupply) gens as :=
      ⟨hlen, fun j hj hj' ↦ (ih j hj hj').2⟩
    have hget := List.getElem?_eq_some_iff.mp hbest.get
    have hi : i < gens.length := hlen ▸ hget.1
    have hchosen := (ih i hi hget.1).1
    rw [hget.2] at hchosen
    refine ⟨?_, GeneratorPtr.lateSupplyEach_mono (Pointwise.map_right.mpr hself)⟩
    have hle := GeneratorPtr.lateSupply_chosen (n := 0) hself hcopy
      (List.getElem?_eq_getElem hi) (by rwa [add_zero])
    rwa [add_zero] at hle
  | anyNil hlen _ _ ih =>
    refine ⟨zero_le, GeneratorPtr.lateSupplyEach_mono (Pointwise.map_right.mpr ?_)⟩
    exact ⟨hlen, fun j hj hj' ↦ (ih j hj hj').2⟩

/-- A real answer to a late ask takes one off what is left. -/
theorem Answers.lateSupply_lt (ha : Answers g ctx a) {path : List ThreadFilter}
    (h : AllLeaves Untimed path g) (hlate : g.latest ≤ ctx.time) (hreal : a.op.Real) :
    a.gen2.lateSupply + 1 ≤ g.lateSupply := by
  have hnil : ¬ Operation.Real { type := .kNil } := by decide
  induction ha generalizing path with
  | nullptr | listEmpty | onThreadsNil | timeLimitOver | timeLimitNil | staggerNil | mixEmpty
  | anyNil | userNil => exact absurd hreal hnil
  | pending _ hp | staggerPending _ _ hp => exact absurd hp hreal.2
  | timeLimitPending _ _ hp => exact absurd hp hreal.2
  | operation => exact le_rfl
  | function | mix | mixDrop | user => exact le_top
  | listPop ha _ _ hcopy _ _ ih₂ =>
    cases h with
    | list h =>
      have hrest := (GeneratorPtr.copyOrNull_rebuilt true hcopy).tail
      have hle := GeneratorPtr.lateSupplyEach_mono (GeneratorPtr.lateSupply_copyOrNull hcopy).tail
      obtain ⟨_, _, -, hcopied, heq⟩ := GeneratorPtr.copyOrNull_cons_ok.mp hcopy
      obtain ⟨rfl, rfl⟩ := List.cons.inj heq
      have hlate' := (GeneratorPtr.latestEach_copyOrNull hcopied).trans
        ((le_max_right _ _).trans hlate)
      have hb := ih₂ (.list (AllLeaves.forall_rebuilt hrest (List.forall_mem_cons.mp h).2)) hlate'
        hreal
      exact (hb.trans hle).trans le_add_self
  | listFront _ _ hcopy _ ih =>
    cases h with
    | list h =>
      have hle := GeneratorPtr.lateSupplyEach_mono (GeneratorPtr.lateSupply_copyOrNull hcopy).tail
      have hfirst := ih (List.forall_mem_cons.mp h).1 ((le_max_left _ _).trans hlate) hreal
      show _ + _ + 1 ≤ _ + _
      rw [add_right_comm]
      exact add_le_add hfirst hle
  | listSingle _ _ ih =>
    cases h with
    | list h =>
      exact (ih (h _ (by simp)) ((le_max_left _ _).trans hlate) hreal).trans le_self_add
  | validate _ _ ih | validateLast _ _ ih => cases h with | validate h => exact ih h hlate hreal
  | onThreads _ _ ih => cases h with | onThreads h => exact ih h hlate hreal
  | @timeLimit limit cutoff gen ctx a cutoff' ha _ _ hcut hlt _ =>
    cases h with
    | timeLimit h =>
      -- The operation is no earlier than the ask, which is past every deadline that is set.
      have htime := ha.time_le h hreal
      have hpos : 0 ≤ ctx.time := (GeneratorPtr.latest_nonneg _).trans hlate
      have hopen : cutoff = kInvalidTime := by
        by_contra hset
        rw [TimeLimit.fix_of_ne hset] at hcut
        have hpast : cutoff ≤ ctx.time := (le_max_left _ _).trans hlate
        omega
      have hset : cutoff' ≠ kInvalidTime := by
        unfold kInvalidTime
        omega
      show (if cutoff' = kInvalidTime then 1 else 0) + 1 ≤
        if cutoff = kInvalidTime then (1 : ℕ∞) else 0
      rw [if_neg hset, if_pos hopen, zero_add]
  | stagger _ _ hp _ _ ih =>
    cases h with
    | stagger h => exact ih h ((le_max_right _ _).trans hlate) ⟨hreal.1, hp⟩
  | @any gens ctx as i a copy hlen has hbest hcopy ih =>
    cases h with
    | any h =>
      have hself : Pointwise (fun g a ↦ a.self.lateSupply ≤ g.lateSupply) gens as :=
        ⟨hlen, fun j hj hj' ↦ (has j hj hj').lateSupply_le.2⟩
      have hget := List.getElem?_eq_some_iff.mp hbest.get
      have hi : i < gens.length := hlen ▸ hget.1
      have hmem := List.getElem_mem hi
      have hchosen := ih i hi hget.1 (h _ hmem)
        ((GeneratorPtr.latest_le_latestEach hmem).trans hlate)
      rw [hget.2] at hchosen
      exact GeneratorPtr.lateSupply_chosen hself hcopy (List.getElem?_eq_getElem hi)
        (hchosen hreal)

end

end Jepsen
