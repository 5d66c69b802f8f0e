import Jepsen.Context
import Jepsen.Runner.Basic
import Mathlib.Data.Finset.Card

/-!
# The processes of the threads

`nextProcess` adds the number of client processes to the process of the thread.  What makes this a
fresh process is that a client thread's process is congruent to the thread modulo the concurrency,
which `Processes` says together with the set of threads.
-/

namespace Jepsen

open Context

/-- `ctx.workers` of a run with `n` clients. -/
structure Processes (n : Nat) (ws : Workers) : Prop where
  keys : ∀ t, t ∈ ws ↔ t ∈ threads n
  nemesis : ws.lookup kNemesisProcess = some kNemesisProcess
  client : ∀ t p, t ≠ kNemesisProcess → ws.lookup t = some p → 0 ≤ p ∧ p % n = t

theorem lookup_insertAll (is : List Nat) (ws : Workers) (t : Int) :
    (is.foldl (fun ws (i : Nat) ↦ ws.insert (i : Int) (i : Int)) ws).lookup t =
      if ∃ i ∈ is, (i : Int) = t then some t else ws.lookup t := by
  induction is generalizing ws with
  | nil => simp
  | cons i is ih =>
    rw [List.foldl_cons, ih]
    by_cases hi : (i : Int) = t
    · subst hi
      simp
    · simp [hi, AList.lookup_insert_ne (Ne.symm hi)]

theorem lookup_initWorkers (n : Nat) (t : Int) :
    (initWorkers n).lookup t = if t ∈ threads n then some t else none := by
  unfold initWorkers
  by_cases ht : t = kNemesisProcess
  · subst ht
    simp [mem_threads]
  · rw [AList.lookup_insert_ne ht, lookup_insertAll]
    have hiff : (∃ i ∈ List.range n, (i : Int) = t) ↔ t ∈ threads n := by
      simp [threads, ht]
    simp only [hiff, AList.lookup_empty]

namespace Processes

variable {n : Nat} {ws : Workers}

theorem init (n : Nat) : Processes n (initWorkers n) where
  keys t := by
    rw [← AList.lookup_isSome, lookup_initWorkers]
    split <;> simp [*]
  nemesis := by rw [lookup_initWorkers, if_pos (mem_threads.mpr (.inl rfl))]
  client t p ht hp := by
    rw [lookup_initWorkers] at hp
    split at hp
    · rename_i hmem
      obtain rfl := Option.some.inj hp
      have hbound := (mem_threads.mp hmem).resolve_left ht
      exact ⟨hbound.1, Int.emod_eq_of_lt hbound.1 hbound.2⟩
    · exact absurd hp (by simp)

theorem mem_of_lookup (h : Processes n ws) {t p : Int} (hp : ws.lookup t = some p) :
    t ∈ threads n :=
  (h.keys t).mp (AList.lookup_isSome.mp (by rw [hp]; rfl))

theorem eq_nemesis_iff (h : Processes n ws) {t p : Int} (hp : ws.lookup t = some p) :
    p = kNemesisProcess ↔ t = kNemesisProcess := by
  constructor
  · intro hpn
    by_contra ht
    have := (h.client t p ht hp).1
    simp only [hpn, kNemesisProcess] at this
    omega
  · rintro rfl
    exact Option.some.inj (hp.symm.trans h.nemesis)

theorem ne_invalid (h : Processes n ws) {t p : Int} (hp : ws.lookup t = some p) :
    p ≠ kInvalidProcess := by
  rintro rfl
  by_cases ht : t = kNemesisProcess
  · exact absurd ((h.eq_nemesis_iff hp).mpr ht) (by decide)
  · exact absurd (h.client t _ ht hp).1 (by decide)

theorem distinct (h : Processes n ws) (t t' p : Int) (ht : ws.lookup t = some p)
    (ht' : ws.lookup t' = some p) : t = t' := by
  by_cases hn : p = kNemesisProcess
  · rw [(h.eq_nemesis_iff ht).mp hn, (h.eq_nemesis_iff ht').mp hn]
  · rw [← (h.client t p (fun e ↦ hn ((h.eq_nemesis_iff ht).mpr e)) ht).2,
      ← (h.client t' p (fun e ↦ hn ((h.eq_nemesis_iff ht').mpr e)) ht').2]

theorem threadOf {ctx : Context} (h : Processes n ctx.workers) {t p : Int}
    (hp : ctx.workers.lookup t = some p) : ctx.processToThread p = t :=
  processToThread_of_lookup h.distinct hp

/-- `nextProcess` counts exactly the clients. -/
theorem clientCount_eq (h : Processes n ws) : clientCount ws = n := by
  have hkey : ∀ e ∈ ws.entries,
      decide (e.2 ≠ kNemesisProcess) = decide (e.1 ≠ kNemesisProcess) := by
    intro e he
    exact decide_eq_decide.mpr (h.eq_nemesis_iff (AList.mem_lookup_iff.mpr he)).not
  -- The keys are the threads, and only the nemesis has its own process.
  have hset : ws.keys.toFinset = threads n := by
    ext t
    rw [List.mem_toFinset, ← h.keys t, AList.mem_keys]
  calc clientCount ws
      = ws.entries.countP (fun e ↦ decide (e.1 ≠ kNemesisProcess)) := by
        exact List.countP_congr fun e he ↦ by rw [hkey e he]
    _ = ws.keys.countP (fun t ↦ decide (t ≠ kNemesisProcess)) := by
        rw [AList.keys, List.keys, List.countP_map]
        rfl
    _ = (ws.keys.toFinset.filter fun t ↦ t ≠ kNemesisProcess).card := by
        rw [List.countP_eq_length_filter,
          ← List.toFinset_card_of_nodup (ws.keys_nodup.filter _), List.toFinset_filter]
        simp only [decide_eq_true_eq]
    _ = n := by
        rw [hset, threads, Finset.filter_insert, if_neg (by simp), Finset.filter_true_of_mem,
          Finset.card_image_of_injective _ (fun _ _ ↦ Int.ofNat.inj), Finset.card_range]
        simp only [Finset.mem_image, Finset.mem_range]
        rintro _ ⟨i, -, rfl⟩
        simp [kNemesisProcess]

theorem nextProcess_eq {ctx : Context} (h : Processes n ctx.workers) {t p : Int}
    (ht : t ≠ kNemesisProcess) (hp : ctx.workers.lookup t = some p) :
    ctx.nextProcess t = p + n := by
  rw [nextProcess, if_pos ht, hp, h.clientCount_eq]
  rfl

/-- Renaming the process of a client thread. -/
theorem rename (h : Processes n ws) {t p : Int} (ht : t ≠ kNemesisProcess)
    (hp : ws.lookup t = some p) : Processes n (ws.insert t (p + n)) where
  keys t' := by
    rw [AList.mem_insert, h.keys t']
    exact ⟨fun ht' ↦ ht'.elim (fun e ↦ e ▸ h.mem_of_lookup hp) id, .inr⟩
  nemesis := by rw [AList.lookup_insert_ne (Ne.symm ht), h.nemesis]
  client t' p' ht' hp' := by
    by_cases htt : t' = t
    · subst htt
      obtain rfl : p + n = p' := by simpa using hp'
      -- `p + n` is the same thread again
      obtain ⟨hpos, hmod⟩ := h.client t' p ht hp
      exact ⟨by omega, by rw [Int.add_emod_right, hmod]⟩
    · rw [AList.lookup_insert_ne htt] at hp'
      exact h.client t' p' ht' hp'

end Processes

end Jepsen
