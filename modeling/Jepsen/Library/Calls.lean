import Jepsen.Library.Transition
import Mathlib.Data.Finset.Card
import Mathlib.Tactic.Common

/-!
# Calls and returns of processes that threads run

Threads of any type `T` run processes of any type `P`, one at a time and no two threads the same
one.  An idle thread may call, a busy one returns, and when it returns it may go on under another
process.  Every call and return appends an entry to a log.  The log of one process then alternates
between calls and returns, and in a state without busy threads every call has its return.
-/

namespace Library.Calls

/-- How log entries of type `E` are read: the process they belong to, and which are calls. -/
structure Reading (E P : Type) where
  proc : E → P
  isCall : E → Bool

/-- Calls at the even positions, returns at the odd ones. -/
def Alternates {E : Type} (isCall : E → Bool) (l : List E) : Prop :=
  ∀ i (h : i < l.length), isCall l[i] = (i % 2 == 0)

theorem alternates_snoc {E : Type} {isCall : E → Bool} {l : List E} {e : E} :
    Alternates isCall (l ++ [e]) ↔ Alternates isCall l ∧ isCall e = (l.length % 2 == 0) := by
  constructor
  · intro h
    refine ⟨fun i hi ↦ ?_, by simpa using h l.length (by simp)⟩
    have := h i (by simp; omega)
    rwa [List.getElem_append_left hi] at this
  · rintro ⟨hl, he⟩ i hi
    by_cases hlt : i < l.length
    · rw [List.getElem_append_left hlt]
      exact hl i hlt
    · have hil : i = l.length := by simp at hi; omega
      subst hil
      simpa using he

structure Pool (T P E : Type) where
  owner : T → Option P
  busy : Finset T
  log : List E

section

variable {T P E : Type} [DecidableEq T] [DecidableEq P]

/-- No two threads run one process. -/
def Distinct (owner : T → Option P) : Prop :=
  ∀ t t' p, owner t = some p → owner t' = some p → t = t'

variable (R : Reading E P)

/-- The entries of process `p`. -/
def logOf (p : P) (log : List E) : List E := log.filter fun e ↦ R.proc e = p

inductive Step : Pool T P E → T → Pool T P E → Prop
  | call {s : Pool T P E} {t : T} {e : E} (hfree : t ∉ s.busy)
      (howner : s.owner t = some (R.proc e)) (he : R.isCall e = true) :
      Step s t { s with busy := insert t s.busy, log := s.log ++ [e] }
  | ret {s : Pool T P E} {t : T} {e : E} {owner' : T → Option P} (hbusy : t ∈ s.busy)
      (howner : s.owner t = some (R.proc e)) (he : R.isCall e = false)
      (hother : ∀ t' ≠ t, owner' t' = s.owner t') (hdistinct : Distinct owner') :
      Step s t ⟨owner', s.busy.erase t, s.log ++ [e]⟩

structure Ordered (s : Pool T P E) : Prop where
  distinct : Distinct s.owner
  owned : ∀ t ∈ s.busy, ∃ p, s.owner t = some p
  alternates : ∀ p, Alternates R.isCall (logOf R p s.log)
  /-- The processes that have called and not yet returned are those of the busy threads. -/
  called : ∀ p, (logOf R p s.log).length % 2 = 1 ↔ ∃ t ∈ s.busy, s.owner t = some p
  count : s.log.countP R.isCall = s.log.countP (fun e ↦ !R.isCall e) + s.busy.card

variable {R}

omit [DecidableEq T] in
theorem Ordered.init {owner : T → Option P} (h : Distinct owner) :
    Ordered R (⟨owner, ∅, []⟩ : Pool T P E) where
  distinct := h
  owned := by simp
  alternates := by simp [logOf, Alternates]
  called := by simp [logOf]
  count := by simp

theorem logOf_snoc (p : P) (log : List E) (e : E) :
    logOf R p (log ++ [e]) = logOf R p log ++ if R.proc e = p then [e] else [] := by
  by_cases h : R.proc e = p <;> simp [logOf, h]

theorem Ordered.step {s s' : Pool T P E} {t : T} (h : Ordered R s) (hs : Step R s t s') :
    Ordered R s' := by
  cases hs with
  | @call e hfree howner he =>
    -- the process is not in a call: its only thread is idle
    have heven : (logOf R (R.proc e) s.log).length % 2 = 0 := by
      by_contra hodd
      obtain ⟨t', ht', hp'⟩ := (h.called (R.proc e)).mp (by omega)
      exact hfree (h.distinct _ _ _ howner hp' ▸ ht')
    refine ⟨h.distinct, ?_, fun p ↦ ?_, fun p ↦ ?_, ?_⟩
    · intro t' ht'
      rcases Finset.mem_insert.mp ht' with rfl | ht'
      · exact ⟨_, howner⟩
      · exact h.owned t' ht'
    · rw [logOf_snoc]
      split
      · rename_i hp
        exact alternates_snoc.mpr ⟨h.alternates p, by rw [← hp, heven]; simpa using he⟩
      · simpa using h.alternates p
    · rw [logOf_snoc]
      split
      · rename_i hp
        subst hp
        rw [List.length_append, List.length_singleton]
        exact ⟨fun _ ↦ ⟨t, Finset.mem_insert_self _ _, howner⟩, fun _ ↦ by omega⟩
      · rename_i hp
        rw [List.append_nil, h.called p]
        refine ⟨fun ⟨t', ht', hp'⟩ ↦ ⟨t', Finset.mem_insert_of_mem ht', hp'⟩, ?_⟩
        rintro ⟨t', ht', hp'⟩
        rcases Finset.mem_insert.mp ht' with rfl | ht'
        · exact absurd (Option.some.inj (howner.symm.trans hp')) hp
        · exact ⟨t', ht', hp'⟩
    · simp only [List.countP_append, List.countP_singleton, he, h.count, Bool.not_true,
        Bool.false_eq_true, if_true, if_false, Finset.card_insert_of_notMem hfree]
      omega
  | @ret e owner' hbusy howner he hother hdistinct =>
    have hodd : (logOf R (R.proc e) s.log).length % 2 = 1 :=
      (h.called _).mpr ⟨t, hbusy, howner⟩
    refine ⟨hdistinct, ?_, fun p ↦ ?_, fun p ↦ ?_, ?_⟩
    · intro t' ht'
      obtain ⟨hne, ht'⟩ := Finset.mem_erase.mp ht'
      obtain ⟨p, hp⟩ := h.owned t' ht'
      exact ⟨p, (hother t' hne).trans hp⟩
    · rw [logOf_snoc]
      split
      · rename_i hp
        exact alternates_snoc.mpr ⟨h.alternates p, by rw [← hp, hodd]; simpa using he⟩
      · simpa using h.alternates p
    · rw [logOf_snoc]
      split
      · rename_i hp
        subst hp
        rw [List.length_append, List.length_singleton]
        refine ⟨fun hlen ↦ by omega, ?_⟩
        rintro ⟨t', ht', hp'⟩
        obtain ⟨hne, ht'⟩ := Finset.mem_erase.mp ht'
        exact absurd (h.distinct _ _ _ (hother t' hne ▸ hp') howner) hne
      · rename_i hp
        rw [List.append_nil, h.called p]
        constructor
        · rintro ⟨t', ht', hp'⟩
          have hne : t' ≠ t := by
            rintro rfl
            exact hp (Option.some.inj (howner.symm.trans hp'))
          exact ⟨t', Finset.mem_erase.mpr ⟨hne, ht'⟩, (hother t' hne).trans hp'⟩
        · rintro ⟨t', ht', hp'⟩
          obtain ⟨hne, ht'⟩ := Finset.mem_erase.mp ht'
          exact ⟨t', ht', hother t' hne ▸ hp'⟩
    · have hpos : 0 < s.busy.card := Finset.card_pos.mpr ⟨t, hbusy⟩
      simp only [List.countP_append, List.countP_singleton, he, h.count, Bool.not_false,
        Bool.false_eq_true, if_true, if_false, Finset.card_erase_of_mem hbusy]
      omega

omit [DecidableEq T] in
/-- Without busy threads, the next entry of a process after one of its calls is the return. -/
theorem Ordered.matched {s : Pool T P E} (h : Ordered R s) (hidle : s.busy = ∅) {pre post : List E}
    {e : E} (hlog : s.log = pre ++ e :: post) (he : R.isCall e = true) :
    ∃ mid r post', post = mid ++ r :: post' ∧ R.isCall r = false ∧ R.proc r = R.proc e ∧
      ∀ x ∈ mid, R.proc x ≠ R.proc e := by
  have hsplit : logOf R (R.proc e) s.log =
      logOf R (R.proc e) pre ++ e :: logOf R (R.proc e) post := by
    simp [logOf, hlog]
  have halt := h.alternates (R.proc e)
  -- Nothing is busy, so the process has returned from every call: its log has even length.
  have heven : (logOf R (R.proc e) s.log).length % 2 = 0 := by
    have := (h.called (R.proc e)).not.mpr (by simp [hidle])
    omega
  rw [hsplit] at halt heven
  have hcall := halt (logOf R (R.proc e) pre).length (by simp)
  rw [List.getElem_append_right le_rfl] at hcall
  simp only [Nat.sub_self, List.getElem_cons_zero, he] at hcall
  have hpre : (logOf R (R.proc e) pre).length % 2 = 0 := by simpa using hcall.symm
  cases hpost : logOf R (R.proc e) post with
  | nil =>
    rw [hpost] at heven
    simp only [List.length_append, List.length_singleton] at heven
    omega
  | cons r rest =>
    -- The entry after the call is at an odd place of the log, and so a return.
    have hret := halt ((logOf R (R.proc e) pre).length + 1) (by simp [hpost])
    rw [List.getElem_append_right (by omega)] at hret
    simp only [Nat.add_sub_cancel_left, List.getElem_cons_succ, hpost, List.getElem_cons_zero]
      at hret
    obtain ⟨mid, post', rfl, hmid, hr, -⟩ := List.filter_eq_cons_iff.mp hpost
    refine ⟨mid, r, post', rfl, ?_, by simpa using hr, fun x hx ↦ by simpa using hmid x hx⟩
    rw [hret, beq_eq_false_iff_ne]
    omega

end

end Library.Calls
