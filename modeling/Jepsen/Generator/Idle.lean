import Jepsen.Generator.Behaviour

/-!
# Idle members

A member of an `Any` or a `Mix` that has nothing to offer is as good as none.  `Any` answers the
same without it.  A `Mix` that asks it goes on with the others alone, and one that asks another
member answers what that member offers.
-/

namespace Jepsen

open Library
open GeneratorPtr (copyEach members writeBackEach)

/-- Members of an `Any` that have nothing to offer may be left out. -/
theorem same_any_drop {xs ys : List GeneratorPtr} {g : GeneratorPtr} (hg : Idle g)
    (hsolid : ∀ g ∈ xs ++ ys, g.solid = true) : Same (.any (xs ++ g :: ys)) (.any (xs ++ ys)) := by
  have hrefl {gs : List GeneratorPtr} (h : ∀ g ∈ gs, g.solid = true) : SameMembers gs gs :=
    .of_filter (p := GeneratorPtr.lasting) (q := GeneratorPtr.lasting)
      (fun g hg hlast ↦ ⟨h g hg, hlast⟩) (fun g hg hlast ↦ ⟨h g hg, hlast⟩)
      (.refl (fun _ hlast hlast' ↦ ⟨.refl _, hlast, hlast'⟩) _)
  have hxs := hrefl fun g hg ↦ hsolid g (List.mem_append_left ys hg)
  have hys := hrefl fun g hg ↦ hsolid g (List.mem_append_right xs hg)
  exact SameMembers.same_any (hxs.append (.left hg hys))

/-! ## One level of a `Mix` -/

/-- The calls answer the same operation and the same successor, or neither answers. -/
def AnsweredAlike (x y : Except Fault (Answer × Draws)) : Prop :=
  ∀ o next d, (∃ self, x = .ok (⟨o, next, self⟩, d)) ↔ ∃ self, y = .ok (⟨o, next, self⟩, d)

theorem mix_eq {gens : List GeneratorPtr} (h : gens ≠ []) (draws : Draws) :
    mix gens draws = .ok (.mix (draws 0 % gens.length) gens, fun i ↦ draws (i + 1)) := by
  have hdraw : rand draws = .ok (draws 0, fun i ↦ draws (i + 1)) := rfl
  refine (Eval.bind_apply_ok hdraw).trans ?_
  rw [if_neg (mt List.eq_nil_of_length_eq_zero h)]
  rfl

section

variable {n idx : Nat} {gens : List GeneratorPtr} {g : GeneratorPtr} {ctx : Context}
  {draws d : Draws} {a : Answer}

theorem op_mix_offer (hget : gens[idx]? = some g) (hop : op n g ctx draws = .ok (a, d))
    (hoff : a.Offer) : op (n + 1) (.mix idx gens) ctx draws = (do
      let copy ← copyEach (gens.set idx a.self)
      let next ← mix (copy.set idx a.gen2)
      return ⟨a.op, next, .mix idx (gens.set idx a.self)⟩ : Gen Answer) d := by
  have hif : notNil a.op a.gen2 = true := hoff
  rw [op_mix hget, Eval.bind_apply_ok hop, if_pos hif]

theorem op_mix_drop (hget : gens[idx]? = some g) (hop : op n g ctx draws = .ok (a, d))
    (hoff : ¬ a.Offer) : op (n + 1) (.mix idx gens) ctx draws = (do
      let copy ← copyEach (gens.eraseIdx idx)
      let next ← mix copy
      let b ← op n next ctx
      let others := gens.eraseIdx idx
      return { b with
        self := .mix idx ((writeBackEach others (members b.self)).insertIdx idx a.self) } :
      Gen Answer) d := by
  have hif : ¬ notNil a.op a.gen2 = true := hoff
  rw [op_mix hget, Eval.bind_apply_ok hop, if_neg hif]

/-- A `Mix` that drops a member answers what a `mix` of the copies of the others answers. -/
theorem op_mix_drop_alike {copy : List GeneratorPtr} (hget : gens[idx]? = some g)
    (hop : op n g ctx draws = .ok (a, d)) (hoff : ¬ a.Offer)
    (hcopy : copyEach (gens.eraseIdx idx) = .ok copy) (hne : copy ≠ []) :
    AnsweredAlike (op (n + 1) (.mix idx gens) ctx draws)
      (op n (.mix (d 0 % copy.length) copy) ctx fun i ↦ d (i + 1)) := by
  intro o next d'
  rw [op_mix_drop hget hop hoff, Eval.lift_bind_apply_ok hcopy, Eval.bind_apply_ok (mix_eq hne d)]
  constructor
  · rintro ⟨self, h⟩
    obtain ⟨b, e, hb, h⟩ := Eval.bind_eq_ok.mp h
    obtain ⟨hab, rfl⟩ := Prod.mk.inj (Except.ok.inj h)
    obtain ⟨rfl, rfl, -⟩ := Answer.mk.inj hab
    exact ⟨b.self, hb⟩
  · rintro ⟨self, h⟩
    exact ⟨_, Eval.bind_apply_ok h⟩

theorem mix_asks_others {copy : List GeneratorPtr} (hget : gens[idx]? = some g)
    (hidle : g.lasting = false) (hn : g.fuel ≤ n)
    (hcopy : copyEach (gens.eraseIdx idx) = .ok copy) (hne : copy ≠ []) :
    AnsweredAlike (op (n + 1) (.mix idx gens) ctx draws)
      (op n (.mix (draws 0 % copy.length) copy) ctx fun i ↦ draws (i + 1)) :=
  op_mix_drop_alike hget (op_of_not_lasting hidle hn ctx draws)
    (fun h ↦ (Answer.offer_iff.mp h).1 rfl) hcopy hne

end

/-! ## A `Mix` with an empty list -/

/-- The index of a member once another one is put in after the first `k`. -/
def skip (k idx : Nat) : Nat := if idx < k then idx else idx + 1

theorem set_skip {α : Type} (xs ys : List α) (e v : α) (idx : Nat) :
    ∃ xs' ys', xs'.length = xs.length ∧ (xs ++ ys).set idx v = xs' ++ ys' ∧
      (xs ++ e :: ys).set (skip xs.length idx) v = xs' ++ e :: ys' := by
  unfold skip
  by_cases h : idx < xs.length
  · rw [if_pos h, List.set_append, List.set_append, if_pos h, if_pos h]
    exact ⟨_, _, by simp, rfl, rfl⟩
  · rw [if_neg h, List.set_append, List.set_append, if_neg h, if_neg (by omega)]
    obtain ⟨k, hk⟩ : ∃ k, idx + 1 - xs.length = k + 1 := ⟨idx - xs.length, by omega⟩
    have hk' : idx - xs.length = k := by omega
    rw [hk, hk', List.set_cons_succ]
    exact ⟨_, _, rfl, rfl, rfl⟩

theorem getElem?_skip {α : Type} (xs ys : List α) (e : α) (idx : Nat) :
    (xs ++ e :: ys)[skip xs.length idx]? = (xs ++ ys)[idx]? := by
  unfold skip
  by_cases h : idx < xs.length
  · rw [if_pos h, List.getElem?_append_left h, List.getElem?_append_left h]
  · rw [if_neg h, List.getElem?_append_right (by omega), List.getElem?_append_right (by omega)]
    obtain ⟨k, hk⟩ : ∃ k, idx + 1 - xs.length = k + 1 := ⟨idx - xs.length, by omega⟩
    have hk' : idx - xs.length = k := by omega
    rw [hk, hk', List.getElem?_cons_succ]

theorem eraseIdx_skip {α : Type} (xs ys : List α) (e : α) (idx : Nat) :
    ∃ xs' ys', (xs ++ ys).eraseIdx idx = xs' ++ ys' ∧
      (xs ++ e :: ys).eraseIdx (skip xs.length idx) = xs' ++ e :: ys' := by
  unfold skip
  by_cases h : idx < xs.length
  · rw [if_pos h, List.eraseIdx_append_of_lt_length h, List.eraseIdx_append_of_lt_length h]
    exact ⟨_, _, rfl, rfl⟩
  · rw [if_neg h, List.eraseIdx_append_of_length_le (by omega),
      List.eraseIdx_append_of_length_le (by omega)]
    obtain ⟨k, hk⟩ : ∃ k, idx + 1 - xs.length = k + 1 := ⟨idx - xs.length, by omega⟩
    have hk' : idx - xs.length = k := by omega
    rw [hk, hk', List.eraseIdx_cons_succ]
    exact ⟨_, _, rfl, rfl⟩

/-- A `Mix` that asks a member with an offer answers this offer whether or not it holds an empty
list, which it keeps. -/
theorem mix_keeps_empty {n idx : Nat} {xs ys : List GeneratorPtr} {g : GeneratorPtr} {ctx : Context}
    {draws d d' : Draws} {a b : Answer} (hget : (xs ++ ys)[idx]? = some g)
    (hop : op n g ctx draws = .ok (a, d)) (hoff : a.Offer)
    (hmix : op (n + 1) (.mix idx (xs ++ ys)) ctx draws = .ok (b, d')) :
    ∃ b' i i' xs' ys',
      op (n + 1) (.mix (skip xs.length idx) (xs ++ .list [] :: ys)) ctx draws = .ok (b', d') ∧
      b'.op = b.op ∧ b.gen2 = .mix i (xs' ++ ys') ∧ b'.gen2 = .mix i' (xs' ++ .list [] :: ys') := by
  obtain ⟨xs₁, ys₁, hlen, hset, hset'⟩ := set_skip xs ys (.list []) a.self idx
  rw [op_mix_offer hget hop hoff, hset] at hmix
  rw [op_mix_offer ((getElem?_skip xs ys (.list []) idx).trans hget) hop hoff, hset']
  obtain ⟨copied, hcopied, hmix⟩ := Eval.lift_bind_eq_ok.mp hmix
  -- the copies of the members on both sides of the empty list
  rw [GeneratorPtr.copyEach_append] at hcopied
  obtain ⟨cs, hcs, hcopied⟩ := GeneratorPtr.except_bind_eq_ok.mp hcopied
  obtain ⟨cs', hcs', rfl⟩ := GeneratorPtr.except_map_eq_ok.mp hcopied
  have hcopy' : copyEach (xs₁ ++ .list [] :: ys₁) = .ok (cs ++ .list [] :: cs') := by
    rw [GeneratorPtr.copyEach_split, hcs, hcs']
    rfl
  obtain ⟨xs₂, ys₂, -, hset, hset'⟩ := set_skip cs cs' (.list []) a.gen2 idx
  rw [(GeneratorPtr.copyEach_rebuilt true hcs).1.symm.trans hlen] at hset'
  obtain ⟨next, d₂, hnext, hb⟩ := Eval.bind_eq_ok.mp hmix
  obtain ⟨rfl, rfl⟩ := Prod.mk.inj (Except.ok.inj hb)
  rw [hset] at hnext
  have hne : xs₂ ++ ys₂ ≠ [] := by
    intro hnil
    obtain ⟨i, hi, -⟩ := mix_ok hnext
    exact absurd hi (by simp [hnil])
  rw [mix_eq hne] at hnext
  obtain ⟨rfl, rfl⟩ := Prod.mk.inj (Except.ok.inj hnext)
  refine ⟨⟨a.op, .mix (d 0 % (xs₂ ++ .list [] :: ys₂).length) (xs₂ ++ .list [] :: ys₂),
    .mix (skip xs.length idx) (xs₁ ++ .list [] :: ys₁)⟩, _, _, xs₂, ys₂, ?_, rfl, rfl, rfl⟩
  rw [Eval.lift_bind_apply_ok hcopy', hset',
    Eval.bind_apply_ok (mix_eq (by simp) d)]
  rfl

end Jepsen
