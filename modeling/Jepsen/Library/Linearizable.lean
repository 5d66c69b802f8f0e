import Jepsen.Library.Transition
import Mathlib.Data.List.Nodup
import Mathlib.Logic.Function.Basic

/-!
# Linearizable histories

Clients of any type `π` call a sequential object, several at a time, and a history lists their calls
and returns.  It is linearizable if the calls that returned, and perhaps some that did not, can be
put in one order which the object answers as they were answered, and in which a call that had
returned before another one was made also comes before it.

A system in which every call takes effect in one moment, between the call and the return, has only
linearizable histories: the order is that of the effects.  A client whose call never returns may be
abandoned, and its effect then comes at any later moment or never.
-/

namespace Library.Linear

/-- A sequential object: in the state `s` it may answer `y` to `x`, and go to the state `s'`. -/
structure Object (σ X Y : Type) where
  init : σ
  apply : σ → X → Y → σ → Prop

inductive Event (π X Y : Type) where
  | call (client : π) (x : X)
  | ret (client : π) (y : Y)

variable {σ π X Y : Type}

def Event.client : Event π X Y → π
  | .call p _ | .ret p _ => p

abbrev History (π X Y : Type) := List (Event π X Y)

/-- The call at `i` returned `y` at `j`: this is the next event of its client. -/
def Returns (h : History π X Y) (i : Nat) (y : Y) (j : Nat) : Prop :=
  ∃ p x, h[i]? = some (.call p x) ∧ i < j ∧ h[j]? = some (.ret p y) ∧
    ∀ k e, i < k → k < j → h[k]? = some e → e.client ≠ p

/-- The call at `i` had returned before the call at `i'` was made. -/
def Precedes (h : History π X Y) (i i' : Nat) : Prop := ∃ y j, Returns h i y j ∧ j < i'

/-- What the call at the place `call` of the history did. -/
structure Effect (X Y : Type) where
  call : Nat
  x : X
  y : Y

inductive Object.Legal (O : Object σ X Y) : List (Effect X Y) → σ → Prop
  | nil : Legal O [] O.init
  | snoc {order s e s'} (h : Legal O order s) (he : O.apply s e.x e.y s') :
      Legal O (order ++ [e]) s'

structure Linearization (O : Object σ X Y) (h : History π X Y) (order : List (Effect X Y)) :
    Prop where
  called : ∀ e ∈ order, ∃ p, h[e.call]? = some (.call p e.x)
  once : (order.map Effect.call).Nodup
  returned : ∀ i y j, Returns h i y j → ∃ e ∈ order, e.call = i ∧ e.y = y
  realtime : order.Pairwise fun e d ↦ ¬ Precedes h d.call e.call
  legal : ∃ s, O.Legal order s

def Linearizable (O : Object σ X Y) (h : History π X Y) : Prop :=
  ∃ order, Linearization O h order

/-! ## Systems with atomic effects -/

/-- The calls that wait for their effect and the answers that wait for their return, each with the
place of the call in the history. -/
structure System (σ π X Y : Type) where
  object : σ
  pending : π → Option (Nat × X)
  answer : π → Option (Nat × Y)
  history : History π X Y

def System.start (O : Object σ X Y) : System σ π X Y := ⟨O.init, fun _ ↦ none, fun _ ↦ none, []⟩

variable [DecidableEq π]

inductive Step (O : Object σ X Y) : Lts (System σ π X Y) π
  | call {s : System σ π X Y} {p : π} {x : X} (hpending : s.pending p = none)
      (hanswer : s.answer p = none) :
      Step O s p { s with
        pending := Function.update s.pending p (some (s.history.length, x))
        history := s.history ++ [.call p x] }
  | effect {s : System σ π X Y} {p : π} {i : Nat} {x : X} {y : Y} {object : σ}
      (hpending : s.pending p = some (i, x)) (happly : O.apply s.object x y object) :
      Step O s p { s with
        object := object
        pending := Function.update s.pending p none
        answer := Function.update s.answer p (some (i, y)) }
  | ret {s : System σ π X Y} {p : π} {i : Nat} {y : Y} (hanswer : s.answer p = some (i, y)) :
      Step O s p { s with
        answer := Function.update s.answer p none
        history := s.history ++ [.ret p y] }

omit [DecidableEq π]

/-! ## Longer histories -/

section

variable {h l : History π X Y} {i i' j : Nat} {y : Y}

theorem Returns.lt_length (hr : Returns h i y j) : j < h.length := by
  obtain ⟨p, x, -, -, hj, -⟩ := hr
  exact (List.getElem?_eq_some_iff.mp hj).1

-- What comes later in a history does not change what returned in it.
theorem Returns.of_append (hr : Returns (h ++ l) i y j) (hj : j < h.length) : Returns h i y j := by
  obtain ⟨p, x, hcall, hij, hret, hbetween⟩ := hr
  rw [List.getElem?_append_left (by omega)] at hcall
  rw [List.getElem?_append_left hj] at hret
  refine ⟨p, x, hcall, hij, hret, fun k e hik hkj hk ↦ hbetween k e hik hkj ?_⟩
  rw [List.getElem?_append_left (by omega)]
  exact hk

theorem Precedes.of_append (hp : Precedes (h ++ l) i i') (hi : i' ≤ h.length) :
    Precedes h i i' := by
  obtain ⟨y, j, hr, hj⟩ := hp
  exact ⟨y, j, hr.of_append (by omega), hj⟩

/-- The last event of `p` is its call of `x`, at `i`. -/
def OpenCall (h : History π X Y) (p : π) (i : Nat) (x : X) : Prop :=
  h[i]? = some (.call p x) ∧ ∀ k e, i < k → h[k]? = some e → e.client ≠ p

theorem openCall_snoc (h : History π X Y) (p : π) (x : X) :
    OpenCall (h ++ [.call p x]) p h.length x := by
  constructor
  · rw [List.getElem?_append_right (Nat.le_refl _), Nat.sub_self]
    rfl
  · intro k e hk he
    have hlt := (List.getElem?_eq_some_iff.mp he).1
    rw [List.length_append, List.length_singleton] at hlt
    omega

theorem OpenCall.append_other {p : π} {x : X} (ho : OpenCall h p i x) {e : Event π X Y}
    (he : e.client ≠ p) : OpenCall (h ++ [e]) p i x := by
  have hi := (List.getElem?_eq_some_iff.mp ho.1).1
  constructor
  · rw [List.getElem?_append_left hi]
    exact ho.1
  · intro k d hk hd
    by_cases hlt : k < h.length
    · rw [List.getElem?_append_left hlt] at hd
      exact ho.2 k d hk hd
    · rw [List.getElem?_append_right (Nat.le_of_not_lt hlt)] at hd
      have hmem := List.mem_of_getElem? hd
      rw [List.mem_singleton.mp hmem]
      exact he

-- An open call has not returned.
theorem OpenCall.not_returns {p : π} {x : X} (ho : OpenCall h p i x) : ¬ Returns h i y j := by
  intro hr
  obtain ⟨p', x', hcall, hij, hret, -⟩ := hr
  have hp : p = p' := by
    have h' := Option.some.inj (ho.1.symm.trans hcall)
    exact (Event.call.inj h').1
  exact ho.2 j _ hij hret hp.symm

theorem OpenCall.unique {p : π} {x x' : X} (ho : OpenCall h p i x) (ho' : OpenCall h p i' x') :
    i = i' := by
  by_contra hne
  cases Nat.lt_or_gt_of_ne hne with
  | inl hlt => exact ho.2 i' _ hlt ho'.1 rfl
  | inr hlt => exact ho'.2 i _ hlt ho.1 rfl

end

/-! ## The effects linearize the history -/

/-- The effects so far, in their order, linearize the history so far. -/
structure Explained (O : Object σ X Y) (s : System σ π X Y) (order : List (Effect X Y)) : Prop where
  called : ∀ e ∈ order, ∃ p, s.history[e.call]? = some (.call p e.x)
  once : (order.map Effect.call).Nodup
  returned : ∀ i y j, Returns s.history i y j → ∃ e ∈ order, e.call = i ∧ e.y = y
  realtime : order.Pairwise fun e d ↦ ¬ Precedes s.history d.call e.call
  legal : O.Legal order s.object
  pending : ∀ p i x, s.pending p = some (i, x) →
    OpenCall s.history p i x ∧ i ∉ order.map Effect.call
  answer : ∀ p i y, s.answer p = some (i, y) →
    ∃ x, OpenCall s.history p i x ∧ ⟨i, x, y⟩ ∈ order
  exclusive : ∀ p, s.pending p = none ∨ s.answer p = none

namespace Explained

variable {O : Object σ X Y} {s : System σ π X Y} {order : List (Effect X Y)}

theorem start (O : Object σ X Y) : Explained O (System.start O : System σ π X Y) [] where
  called := by simp
  once := List.nodup_nil
  returned i y j h := absurd h.lt_length (by simp [System.start])
  realtime := .nil
  legal := .nil
  pending := by simp [System.start]
  answer := by simp [System.start]
  exclusive _ := .inl rfl

theorem linearization (h : Explained O s order) : Linearization O s.history order :=
  ⟨h.called, h.once, h.returned, h.realtime, s.object, h.legal⟩

-- The facts about the effects that are there already, in a longer history.
theorem called_append (h : Explained O s order) (e : Event π X Y) :
    ∀ d ∈ order, ∃ p, (s.history ++ [e])[d.call]? = some (.call p d.x) := by
  intro d hd
  obtain ⟨p, hp⟩ := h.called d hd
  exact ⟨p, by rw [List.getElem?_append_left (List.getElem?_eq_some_iff.mp hp).1, hp]⟩

theorem realtime_append (h : Explained O s order) (e : Event π X Y) :
    order.Pairwise fun c d ↦ ¬ Precedes (s.history ++ [e]) d.call c.call := by
  refine h.realtime.imp_of_mem fun {c d} hc _ hnot hp ↦ hnot (hp.of_append ?_)
  obtain ⟨p, hcall⟩ := h.called c hc
  exact Nat.le_of_lt (List.getElem?_eq_some_iff.mp hcall).1

variable [DecidableEq π]

theorem call (h : Explained O s order) {p : π} {x : X} (hpending : s.pending p = none)
    (hanswer : s.answer p = none) :
    Explained O { s with
      pending := Function.update s.pending p (some (s.history.length, x))
      history := s.history ++ [.call p x] } order where
  called := h.called_append _
  once := h.once
  returned i y j hr := by
    -- The last event is no return.
    have hj : j < s.history.length := by
      by_contra hge
      obtain ⟨q, x', -, -, hret, -⟩ := hr
      rw [List.getElem?_append_right (Nat.le_of_not_lt hge)] at hret
      have hmem := List.mem_of_getElem? hret
      exact absurd (List.mem_singleton.mp hmem) (by simp)
    exact h.returned i y j (hr.of_append hj)
  realtime := h.realtime_append _
  legal := h.legal
  pending q i x' hq := by
    dsimp only at hq
    by_cases hqp : q = p
    · subst hqp
      simp only [Function.update_self, Option.some.injEq, Prod.mk.injEq] at hq
      obtain ⟨rfl, rfl⟩ := hq
      refine ⟨openCall_snoc _ _ _, fun hmem ↦ ?_⟩
      obtain ⟨e, he, hcall⟩ := List.mem_map.mp hmem
      obtain ⟨r, hr⟩ := h.called e he
      have hlt := (List.getElem?_eq_some_iff.mp hr).1
      omega
    · rw [Function.update_of_ne hqp] at hq
      obtain ⟨hopen, hnot⟩ := h.pending q i x' hq
      exact ⟨hopen.append_other (Ne.symm hqp), hnot⟩
  answer q i y hq := by
    have hqp : p ≠ q := by
      intro hpq
      rw [← hpq, hanswer] at hq
      exact absurd hq (by simp)
    obtain ⟨x', hopen, hmem⟩ := h.answer q i y hq
    exact ⟨x', hopen.append_other hqp, hmem⟩
  exclusive q := by
    by_cases hqp : q = p
    · exact .inr (hqp ▸ hanswer)
    · show Function.update s.pending p _ q = none ∨ _
      rw [Function.update_of_ne hqp]
      exact h.exclusive q

theorem effect (h : Explained O s order) {p : π} {i : Nat} {x : X} {y : Y} {object : σ}
    (hpending : s.pending p = some (i, x)) (happly : O.apply s.object x y object) :
    Explained O { s with
      object := object
      pending := Function.update s.pending p none
      answer := Function.update s.answer p (some (i, y)) } (order ++ [⟨i, x, y⟩]) := by
  obtain ⟨hopen, hnot⟩ := h.pending p i x hpending
  constructor
  case called =>
    intro e he
    cases List.mem_append.mp he with
    | inl he => exact h.called e he
    | inr he =>
      rw [List.mem_singleton.mp he]
      exact ⟨p, hopen.1⟩
  case once =>
    rw [List.map_append, List.map_singleton]
    exact List.nodup_append.mpr ⟨h.once, List.nodup_singleton _, fun a ha b hb ↦ by
      intro hab
      rw [List.mem_singleton.mp hb] at hab
      rw [hab] at ha
      exact hnot ha⟩
  case returned =>
    intro i' y' j hr
    obtain ⟨e, he, hcall⟩ := h.returned i' y' j hr
    exact ⟨e, List.mem_append_left _ he, hcall⟩
  case realtime =>
    -- The call is still open, so that no call was made after its return.
    refine List.pairwise_append.mpr ⟨h.realtime, List.pairwise_singleton _ _, fun c _ d hd ↦ ?_⟩
    rw [List.mem_singleton.mp hd]
    intro hp
    obtain ⟨y', j, hr, -⟩ := hp
    exact hopen.not_returns hr
  case legal => exact .snoc h.legal happly
  case pending =>
    intro q i' x' hq
    dsimp only at hq
    have hqp : q ≠ p := by
      intro hqp
      rw [hqp] at hq
      simp at hq
    rw [Function.update_of_ne hqp] at hq
    obtain ⟨hopen', hnot'⟩ := h.pending q i' x' hq
    refine ⟨hopen', ?_⟩
    rw [List.map_append, List.mem_append, not_or]
    refine ⟨hnot', fun hmem ↦ hqp ?_⟩
    have hi : i' = i := List.mem_singleton.mp hmem
    subst hi
    exact (Event.call.inj (Option.some.inj (hopen'.1.symm.trans hopen.1))).1
  case answer =>
    intro q i' y' hq
    dsimp only at hq
    by_cases hqp : q = p
    · subst hqp
      simp only [Function.update_self, Option.some.injEq, Prod.mk.injEq] at hq
      obtain ⟨rfl, rfl⟩ := hq
      exact ⟨x, hopen, by simp⟩
    · rw [Function.update_of_ne hqp] at hq
      obtain ⟨x', hopen', hmem⟩ := h.answer q i' y' hq
      exact ⟨x', hopen', List.mem_append_left _ hmem⟩
  case exclusive =>
    intro q
    by_cases hqp : q = p
    · exact .inl (by rw [hqp]; exact Function.update_self _ _ _)
    · show Function.update s.pending p none q = none ∨ Function.update s.answer p _ q = none
      rw [Function.update_of_ne hqp, Function.update_of_ne hqp]
      exact h.exclusive q

theorem ret (h : Explained O s order) {p : π} {i : Nat} {y : Y}
    (hanswer : s.answer p = some (i, y)) :
    Explained O { s with
      answer := Function.update s.answer p none
      history := s.history ++ [.ret p y] } order := by
  obtain ⟨x, hopen, hmem⟩ := h.answer p i y hanswer
  constructor
  case called => exact h.called_append _
  case once => exact h.once
  case returned =>
    intro i' y' j hr
    by_cases hj : j < s.history.length
    · exact h.returned i' y' j (hr.of_append hj)
    · -- The new event is the return of the one call of the client that is open.
      have hlen := hr.lt_length
      rw [List.length_append, List.length_singleton] at hlen
      have hjlen : j = s.history.length := by omega
      subst hjlen
      obtain ⟨q, x', hcall, hij, hret, hbetween⟩ := hr
      rw [List.getElem?_append_right (Nat.le_refl _), Nat.sub_self] at hret
      have hev := Event.ret.inj (Option.some.inj hret)
      rw [List.getElem?_append_left hij] at hcall
      have hopen' : OpenCall s.history p i' x' := by
        refine ⟨by rw [hcall, hev.1], fun k e hk he ↦ ?_⟩
        have hlt := (List.getElem?_eq_some_iff.mp he).1
        rw [hev.1]
        exact hbetween k e hk hlt (by rw [List.getElem?_append_left hlt, he])
      exact ⟨_, hmem, hopen.unique hopen', hev.2⟩
  case realtime => exact h.realtime_append _
  case legal => exact h.legal
  case pending =>
    intro q i' x' hq
    have hqp : p ≠ q := by
      intro hpq
      cases h.exclusive p with
      | inl hnone => rw [← hpq, hnone] at hq; exact absurd hq (by simp)
      | inr hnone => rw [hnone] at hanswer; exact absurd hanswer (by simp)
    obtain ⟨hopen', hnot⟩ := h.pending q i' x' hq
    exact ⟨hopen'.append_other hqp, hnot⟩
  case answer =>
    intro q i' y' hq
    dsimp only at hq
    have hqp : q ≠ p := by
      intro hqp
      rw [hqp] at hq
      simp at hq
    rw [Function.update_of_ne hqp] at hq
    obtain ⟨x', hopen', hmem'⟩ := h.answer q i' y' hq
    exact ⟨x', hopen'.append_other (Ne.symm hqp), hmem'⟩
  case exclusive =>
    intro q
    by_cases hqp : q = p
    · exact .inr (by rw [hqp]; exact Function.update_self _ _ _)
    · show s.pending q = none ∨ Function.update s.answer p none q = none
      rw [Function.update_of_ne hqp]
      exact h.exclusive q

theorem step (h : Explained O s order) {p : π} {s' : System σ π X Y} (hs : Step O s p s') :
    ∃ order', Explained O s' order' := by
  cases hs with
  | call hpending hanswer => exact ⟨_, h.call hpending hanswer⟩
  | effect hpending happly => exact ⟨_, h.effect hpending happly⟩
  | ret hanswer => exact ⟨_, h.ret hanswer⟩

end Explained

theorem explained_of_reachable [DecidableEq π] {O : Object σ X Y} {s : System σ π X Y}
    (h : Reachable (Step O) (System.start O) s) : ∃ order, Explained O s order :=
  h.invariant (P := fun s ↦ ∃ order, Explained O s order) ⟨[], .start O⟩
    fun _ _ _ hs hexp ↦ hexp.choose_spec.step hs

/-- Where every call takes effect in one moment, every history is linearizable. -/
theorem linearizable_of_reachable [DecidableEq π] {O : Object σ X Y} {s : System σ π X Y}
    (h : Reachable (Step O) (System.start O) s) : Linearizable O s.history := by
  obtain ⟨order, hexp⟩ := explained_of_reachable h
  exact ⟨order, hexp.linearization⟩

/-! ## Two objects -/

/-- The object `O'` can do what `O` does, as long as the calls are in `Q`. -/
structure Object.Refines {τ : Type} (O : Object σ X Y) (O' : Object τ X Y) (Q : X → Prop)
    (R : σ → τ → Prop) : Prop where
  init : R O.init O'.init
  apply : ∀ {s t x y s'}, Q x → R s t → O.apply s x y s' → ∃ t', O'.apply t x y t' ∧ R s' t'

theorem Object.Refines.legal {τ : Type} {O : Object σ X Y} {O' : Object τ X Y} {Q : X → Prop}
    {R : σ → τ → Prop} (hR : O.Refines O' Q R) {order : List (Effect X Y)} {s : σ}
    (h : O.Legal order s) (hQ : ∀ e ∈ order, Q e.x) : ∃ t, O'.Legal order t ∧ R s t := by
  induction h with
  | nil => exact ⟨_, .nil, hR.init⟩
  | snoc _ he ih =>
    rw [List.forall_mem_append, List.forall_mem_singleton] at hQ
    obtain ⟨t, ht, hst⟩ := ih hQ.1
    obtain ⟨t', he', hst'⟩ := hR.apply hQ.2 hst he
    exact ⟨t', .snoc ht he', hst'⟩

/-- What one object has done so far, every object that it refines can have done. -/
theorem Explained.refine [DecidableEq π] {τ : Type} {O : Object σ X Y} {O' : Object τ X Y}
    {Q : X → Prop} {R : σ → τ → Prop} {s : System σ π X Y} {order : List (Effect X Y)}
    (h : Explained O s order) (hR : O.Refines O' Q R) (hQ : ∀ p x, .call p x ∈ s.history → Q x) :
    ∃ t, O'.Legal order t ∧ R s.object t := by
  refine hR.legal h.legal fun e he ↦ ?_
  obtain ⟨p, hp⟩ := h.called e he
  exact hQ p e.x (List.mem_of_getElem? hp)

/-- A history that one object explains is explained by every object that it refines. -/
theorem Linearizable.refine {τ : Type} {O : Object σ X Y} {O' : Object τ X Y} {Q : X → Prop}
    {R : σ → τ → Prop} {h : History π X Y} (hlin : Linearizable O h) (hR : O.Refines O' Q R)
    (hQ : ∀ p x, .call p x ∈ h → Q x) : Linearizable O' h := by
  obtain ⟨order, hl⟩ := hlin
  obtain ⟨s, hs⟩ := hl.legal
  have horder : ∀ e ∈ order, Q e.x := by
    intro e he
    obtain ⟨p, hp⟩ := hl.called e he
    exact hQ p e.x (List.mem_of_getElem? hp)
  obtain ⟨t, ht, -⟩ := hR.legal hs horder
  exact ⟨order, hl.called, hl.once, hl.returned, hl.realtime, t, ht⟩

end Library.Linear
