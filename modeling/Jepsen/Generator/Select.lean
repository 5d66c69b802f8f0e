import Jepsen.Generator.Op
import Jepsen.Library.Pointwise

/-!
# The selection in `Any`

`Any::op` keeps the best offer so far in a tuple and, next to it, the operation, successor and
index of the member that made it.  `Tracks` says that the two agree and that the offer is a
soonest one among the members polled so far; one pass of the loop keeps it.
-/

namespace Jepsen

open Library

/-- What `notNil` holds of. -/
def Answer.Offer (a : Answer) : Prop := notNil a.op a.gen2 = true

instance (a : Answer) : Decidable a.Offer := inferInstanceAs (Decidable (_ = true))

theorem Answer.offer_iff {a : Answer} : a.Offer ↔ a.op.type ≠ .kNil ∧ a.gen2 ≠ .nullptr := by
  simp [Answer.Offer, notNil]

/-- Member `i` answers `a`, and among the members' answers `a` is a soonest offer: no real offer
comes before it, and it is pending only if every offer is. -/
structure SoonestOffer (answers : List Answer) (i : Nat) (a : Answer) : Prop where
  get : answers[i]? = some a
  offer : a.Offer
  pending : a.op.type = .kPending → ∀ b ∈ answers, b.Offer → b.op.type = .kPending
  soonest : a.op.type ≠ .kPending →
    ∀ b ∈ answers, b.Offer → b.op.type ≠ .kPending → a.op.time ≤ b.op.time

theorem SoonestOffer.mem {answers : List Answer} {i : Nat} {a : Answer}
    (h : SoonestOffer answers i a) : a ∈ answers :=
  List.mem_of_getElem? h.get

theorem SoonestOffer.snoc_of_not_offer {answers : List Answer} {i : Nat} {a b : Answer}
    (h : SoonestOffer answers i a) (hb : ¬ b.Offer) : SoonestOffer (answers ++ [b]) i a where
  get := by rw [List.getElem?_append_left (List.getElem?_eq_some_iff.mp h.get).1, h.get]
  offer := h.offer
  pending hp c hc hco := by
    rcases List.mem_append.mp hc with hc | hc
    · exact h.pending hp c hc hco
    · exact absurd (List.mem_singleton.mp hc ▸ hco) hb
  soonest hp c hc hco := by
    rcases List.mem_append.mp hc with hc | hc
    · exact h.soonest hp c hc hco
    · exact absurd (List.mem_singleton.mp hc ▸ hco) hb

/-- The earlier choice stays when the next offer is no better. -/
theorem SoonestOffer.snoc_keep {answers : List Answer} {i : Nat} {a b : Answer}
    (h : SoonestOffer answers i a)
    (hb : b.op.type = .kPending ∨ (a.op.type ≠ .kPending ∧ a.op.time ≤ b.op.time)) :
    SoonestOffer (answers ++ [b]) i a where
  get := by rw [List.getElem?_append_left (List.getElem?_eq_some_iff.mp h.get).1, h.get]
  offer := h.offer
  pending hp c hc hco := by
    rcases List.mem_append.mp hc with hc | hc
    · exact h.pending hp c hc hco
    · obtain rfl := List.mem_singleton.mp hc
      exact hb.resolve_right fun hr ↦ hr.1 hp
  soonest hp c hc hco hcp := by
    rcases List.mem_append.mp hc with hc | hc
    · exact h.soonest hp c hc hco hcp
    · obtain rfl := List.mem_singleton.mp hc
      exact (hb.resolve_left hcp).2

/-- The next offer is chosen when it is real and the earlier choice no better. -/
theorem SoonestOffer.snoc_take {answers : List Answer} {i : Nat} {a b : Answer}
    (h : SoonestOffer answers i a) (hbo : b.Offer)
    (hb : a.op.type = .kPending ∨ (b.op.type ≠ .kPending ∧ b.op.time ≤ a.op.time)) :
    SoonestOffer (answers ++ [b]) answers.length b where
  get := by simp
  offer := hbo
  pending hp c hc hco := by
    rcases List.mem_append.mp hc with hc | hc
    · exact h.pending (hb.resolve_right fun hr ↦ hr.1 hp) c hc hco
    · exact List.mem_singleton.mp hc ▸ hp
  soonest hp c hc hco hcp := by
    rcases List.mem_append.mp hc with hc | hc
    · rcases hb with ha | ⟨-, hle⟩
      · exact absurd (h.pending ha c hc hco) hcp
      · by_cases ha : a.op.type = .kPending
        · exact absurd (h.pending ha c hc hco) hcp
        · exact le_trans hle (h.soonest ha c hc hco hcp)
    · rw [List.mem_singleton.mp hc]

theorem SoonestOffer.first {answers : List Answer} {b : Answer} (hbo : b.Offer)
    (h : ∀ c ∈ answers, ¬ c.Offer) : SoonestOffer (answers ++ [b]) answers.length b where
  get := by simp
  offer := hbo
  pending hp c hc hco := by
    rcases List.mem_append.mp hc with hc | hc
    · exact absurd hco (h c hc)
    · exact List.mem_singleton.mp hc ▸ hp
  soonest hp c hc hco hcp := by
    rcases List.mem_append.mp hc with hc | hc
    · exact absurd hco (h c hc)
    · rw [List.mem_singleton.mp hc]

namespace Any

/-- The loop's locals after the members with the answers `done`. -/
def Tracks (done : List Answer) (loop : Loop) : Prop :=
  (loop.cur.op.type = .kNil ∧ loop.res_gen = .nullptr ∧ ∀ b ∈ done, ¬ b.Offer) ∨
    ∃ i a, SoonestOffer done i a ∧ loop.res_op = a.op ∧ loop.res_gen = a.gen2 ∧
      loop.res_idx = i ∧ loop.cur.op = a.op ∧ loop.cur.idx = i

/-- What `soonestOpMap` may answer: one of its arguments, with another weight. -/
theorem soonestOpMap_ok {m₁ m₂ m : Soonest} {draws draws' : Draws}
    (h : soonestOpMap m₁ m₂ draws = .ok (m, draws')) :
    (m.op = m₁.op ∧ m.idx = m₁.idx ∧ m₁.op.type ≠ .kNil ∧ m₁.op.type ≠ .kPending ∧
      (m₂.op.type = .kNil ∨ m₂.op.type = .kPending ∨ m₁.op.time ≤ m₂.op.time)) ∨
    (m.op = m₂.op ∧ m.idx = m₂.idx ∧
      (m₁.op.type = .kNil ∨ m₁.op.type = .kPending ∨
        (m₂.op.type ≠ .kPending ∧ m₂.op.time ≤ m₁.op.time))) := by
  unfold soonestOpMap at h
  split at h
  · rename_i h₁
    simp only [Eval.pure_apply, Except.ok.injEq, Prod.mk.injEq] at h
    exact .inr ⟨by rw [← h.1], by rw [← h.1], by tauto⟩
  · rename_i h₁
    obtain ⟨h₁n, h₁p⟩ := not_or.mp h₁
    split at h
    · rename_i h₂
      simp only [Eval.pure_apply, Except.ok.injEq, Prod.mk.injEq] at h
      exact .inl ⟨by rw [← h.1], by rw [← h.1], h₁n, h₁p, by tauto⟩
    · rename_i h₂
      obtain ⟨h₂n, h₂p⟩ := not_or.mp h₂
      split at h
      · rename_i htime
        -- The times are the same: either one may be picked.
        obtain ⟨r, d, -, h⟩ := Eval.bind_eq_ok.mp h
        split at h
        · exact absurd h (by simp)
        · split at h
          · simp only [Eval.pure_apply, Except.ok.injEq, Prod.mk.injEq] at h
            exact .inl ⟨by rw [← h.1], by rw [← h.1], h₁n, h₁p, .inr (.inr htime.le)⟩
          · simp only [Eval.pure_apply, Except.ok.injEq, Prod.mk.injEq] at h
            exact .inr ⟨by rw [← h.1], by rw [← h.1], .inr (.inr ⟨h₂p, htime.ge⟩)⟩
      · simp only [Eval.pure_apply, Except.ok.injEq, Prod.mk.injEq] at h
        split at h
        · rename_i hlt
          exact .inl ⟨by rw [← h.1], by rw [← h.1], h₁n, h₁p, .inr (.inr hlt.le)⟩
        · rename_i hlt
          exact .inr ⟨by rw [← h.1], by rw [← h.1], .inr (.inr ⟨h₂p, not_lt.mp hlt⟩)⟩

theorem Tracks.consider {done : List Answer} {loop loop' : Loop} {a : Answer}
    {draws draws' : Draws} (h : Tracks done loop)
    (hc : Any.consider loop done.length a draws = .ok (loop', draws')) :
    Tracks (done ++ [a]) loop' := by
  unfold Any.consider at hc
  split at hc
  · rename_i ha
    obtain ⟨cur, d, hs, hc⟩ := Eval.bind_eq_ok.mp hc
    have hnil : a.op.type ≠ .kNil := (Answer.offer_iff.mp ha).1
    rcases h with ⟨hcur, hgen, hnone⟩ | ⟨i, b, hb, hop, hgen, hidx, hcur, hci⟩
    · -- the first offer is always taken
      have hfirst : cur.op = a.op ∧ cur.idx = done.length := by
        rcases soonestOpMap_ok hs with h₁ | h₂
        · exact absurd hcur h₁.2.2.1
        · exact ⟨h₂.1, h₂.2.1⟩
      rw [if_pos hfirst.2] at hc
      simp only [Eval.pure_apply, Except.ok.injEq, Prod.mk.injEq] at hc
      obtain ⟨rfl, -⟩ := hc
      exact .inr ⟨done.length, a, .first ha hnone, rfl, rfl, rfl, hfirst⟩
    · have hlt : i < done.length := (List.getElem?_eq_some_iff.mp hb.get).1
      rcases soonestOpMap_ok hs with ⟨h₁, h₂, h₃, h₄, h₅⟩ | ⟨h₁, h₂, h₃⟩
      · rw [if_neg (by rw [h₂, hci]; omega)] at hc
        simp only [Eval.pure_apply, Except.ok.injEq, Prod.mk.injEq] at hc
        obtain ⟨rfl, -⟩ := hc
        rw [hcur] at h₄ h₅
        refine .inr ⟨i, b, hb.snoc_keep ?_, hop, hgen, hidx, h₁.trans hcur, h₂.trans hci⟩
        rcases h₅ with h₅ | h₅ | h₅
        · exact absurd h₅ hnil
        · exact .inl h₅
        · exact .inr ⟨h₄, h₅⟩
      · rw [if_pos h₂] at hc
        simp only [Eval.pure_apply, Except.ok.injEq, Prod.mk.injEq] at hc
        obtain ⟨rfl, -⟩ := hc
        rw [hcur] at h₃
        refine .inr ⟨done.length, a, hb.snoc_take ha ?_, rfl, rfl, rfl, h₁, h₂⟩
        exact h₃.resolve_left (Answer.offer_iff.mp hb.offer).1
  · rename_i ha
    simp only [Eval.pure_apply, Except.ok.injEq, Prod.mk.injEq] at hc
    obtain ⟨rfl, -⟩ := hc
    rcases h with ⟨hcur, hgen, hnone⟩ | ⟨i, b, hb, hrest⟩
    · refine .inl ⟨hcur, hgen, fun b hb ↦ ?_⟩
      rcases List.mem_append.mp hb with hb | hb
      · exact hnone b hb
      · exact List.mem_singleton.mp hb ▸ ha
    · exact .inr ⟨i, b, hb.snoc_of_not_offer ha, hrest⟩

/-- The whole loop tracks a soonest offer among the answers of all members. -/
theorem Tracks.poll {ask : Ask} {ctx : Context} {R : GeneratorPtr → Answer → Prop}
    (hask : ∀ g draws a draws', ask g ctx draws = .ok (a, draws') → R g a)
    {gens : List GeneratorPtr} {done answers : List Answer} {loop loop' : Loop}
    {draws draws' : Draws} (h : Tracks done loop)
    (hp : Any.poll ask ctx done.length gens loop draws = .ok ((loop', answers), draws')) :
    Pointwise R gens answers ∧ Tracks (done ++ answers) loop' := by
  induction gens generalizing done answers loop draws with
  | nil =>
    simp only [Any.poll, Eval.pure_apply, Except.ok.injEq, Prod.mk.injEq] at hp
    obtain ⟨⟨rfl, rfl⟩, -⟩ := hp
    exact ⟨.nil, by rwa [List.append_nil]⟩
  | cons g gens ih =>
    rw [Any.poll] at hp
    obtain ⟨a, d₁, ha, hp⟩ := Eval.bind_eq_ok.mp hp
    obtain ⟨loop₁, d₂, hc, hp⟩ := Eval.bind_eq_ok.mp hp
    obtain ⟨⟨loop₂, answers₁⟩, d₃, hrest, hp⟩ := Eval.bind_eq_ok.mp hp
    simp only [Eval.pure_apply, Except.ok.injEq, Prod.mk.injEq] at hp
    obtain ⟨⟨rfl, rfl⟩, rfl⟩ := hp
    have hnext := ih (h.consider hc) (by simpa using hrest)
    exact ⟨.cons (hask g draws a d₁ ha) hnext.1, by simpa using hnext.2⟩

theorem tracks_init : Tracks [] {} := .inl ⟨rfl, rfl, by simp⟩

end Any

end Jepsen
