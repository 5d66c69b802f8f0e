import Jepsen.Runner.Dispatch

/-!
# Time

Times are assigned when a leaf is filled in, raised by `Stagger`, stamped on completions, and
compared with the clock before a dispatch.  A leaf that sets no time takes the clock reading of its
request, which no wrapper lowers, so that an operation is dispatched only at the reading it was
filled in with: what was delayed is asked for anew.
-/

namespace Jepsen

open Library Context GeneratorFactory

/-- The reading of the clock that an action takes. -/
def Action.clock : Action → Option Int
  | .complete _ time => some time
  | .ask time _ _ => some time
  | _ => none

/-- The clock readings of a run, in their order. -/
def readings (actions : List Action) : List Int := actions.filterMap Action.clock

theorem readings_append (as bs : List Action) : readings (as ++ bs) = readings as ++ readings bs :=
  List.filterMap_append

namespace Runner

variable {s s' : Runner} {a : Action}

/-- What a step does to the times: it appends an entry at the reading of the clock, or none. -/
inductive Stamps (s : Runner) (a : Action) (s' : Runner) : Prop
  | silent (htime : s'.ctx.time = s.ctx.time) (hhist : s'.history = s.history)
  | polled {time : Int} (hclock : a.clock = some time) (htime : s'.ctx.time = time)
      (hhist : s'.history = s.history)
  | entry {time : Int} {e : Entry} (hclock : a.clock = some time) (htime : s'.ctx.time = time)
      (he : e.op.time = time) (hhist : s'.history = s.history ++ [e])

theorem step_stamps (hg : AllLeaves Untimed [] s.generator) (hs : s.step a = some s') :
    Stamps s a s' := by
  cases step_moves hs with
  | work => exact .silent rfl rfl
  | discard => exact .polled rfl rfl rfl
  | exit => exact .polled rfl rfl rfl
  | complete =>
    refine .entry rfl ?_ rfl rfl
    dsimp only
    split <;> rfl
  | @dispatch time draws draws' fuel ans t generator hflag hask hreal htime =>
    -- the guard of the dispatch and the fill-in leave the reading itself
    have hle : time ≤ ans.op.time := (op_answers _ _ _ _ _ _ hask).time_le hg hreal.real
    have heq : ans.op.time = time := le_antisymm htime hle
    exact .entry rfl heq heq rfl

theorem Stamps.ne_nil (h : Stamps s a s') (hne : s.history ≠ []) : s'.history ≠ [] := by
  cases h with
  | silent _ hhist => rwa [hhist]
  | polled _ _ hhist => rwa [hhist]
  | entry _ _ _ hhist =>
    rw [hhist]
    exact List.append_ne_nil_of_left_ne_nil hne _

/-- The history is in the order of its times, and none of them is after a reading in `future`. -/
structure Dated (s : Runner) (future : List Int) : Prop where
  leaves : AllLeaves Untimed [] s.generator
  sorted : (s.history.map fun e ↦ e.op.time).Pairwise (· ≤ ·)
  past : ∀ e ∈ s.history, ∀ r ∈ future, e.op.time ≤ r
  clock : s.history ≠ [] → ∀ r ∈ future, s.ctx.time ≤ r

theorem Dated.start {n : Nat} {g : GeneratorPtr} {time : Int} {future : List Int}
    (hg : AllLeaves Untimed [] g) : (start n g time).Dated future where
  leaves := hg
  sorted := .nil
  past _ he := absurd he (by simp [Runner.start])
  clock hne := absurd rfl hne

/-- An entry at the reading `time` comes after all entries before, and before all that follow. -/
theorem Dated.snoc {time : Int} {e : Entry} {future : List Int} (h : s.Dated (time :: future))
    (hsorted : (time :: future).Pairwise (· ≤ ·)) (hg : AllLeaves Untimed [] s'.generator)
    (he : e.op.time = time) (htime : s'.ctx.time = time) (hhist : s'.history = s.history ++ [e]) :
    s'.Dated future where
  leaves := hg
  sorted := by
    rw [hhist, List.map_append]
    refine List.pairwise_append.mpr ⟨h.sorted, List.pairwise_singleton _ _, fun t ht t' ht' ↦ ?_⟩
    obtain ⟨e', he', rfl⟩ := List.mem_map.mp ht
    obtain rfl : t' = time := by simpa [he] using ht'
    exact h.past e' he' t' (by simp)
  past := by
    rw [hhist]
    refine List.forall_mem_append.mpr ⟨fun e' he' r hr ↦ h.past e' he' r (by simp [hr]), ?_⟩
    intro e' he' r hr
    obtain rfl := List.mem_singleton.mp he'
    exact he ▸ List.rel_of_pairwise_cons hsorted hr
  clock _ r hr := htime ▸ List.rel_of_pairwise_cons hsorted hr

theorem Dated.step {as : List Action} (h : s.Dated (readings (a :: as)))
    (hsorted : (readings (a :: as)).Pairwise (· ≤ ·)) (hs : s.step a = some s') :
    s'.Dated (readings as) ∧ (s.history ≠ [] → s.ctx.time ≤ s'.ctx.time) := by
  have hg := step_allLeaves h.leaves hs
  have hcons {time : Int} (hclock : a.clock = some time) :
      readings (a :: as) = time :: readings as := List.filterMap_cons_some hclock
  -- Readings that are left are later readings of the run.
  have hsub : ∀ r ∈ readings as, r ∈ readings (a :: as) := by
    intro r hr
    obtain ⟨b, hb, hclock⟩ := List.mem_filterMap.mp hr
    exact List.mem_filterMap.mpr ⟨b, List.mem_cons_of_mem a hb, hclock⟩
  cases step_stamps h.leaves hs with
  | silent htime hhist =>
    refine ⟨⟨hg, hhist ▸ h.sorted, ?_, ?_⟩, fun _ ↦ htime.ge⟩
    · rw [hhist]
      exact fun e he r hr ↦ h.past e he r (hsub r hr)
    · rw [hhist, htime]
      exact fun hne r hr ↦ h.clock hne r (hsub r hr)
  | @polled time hclock htime hhist =>
    rw [hcons hclock] at h hsorted
    refine ⟨⟨hg, hhist ▸ h.sorted, ?_, ?_⟩, fun hne ↦ htime ▸ h.clock hne time (by simp)⟩
    · rw [hhist]
      exact fun e he r hr ↦ h.past e he r (by simp [hr])
    · rw [htime]
      exact fun _ r hr ↦ List.rel_of_pairwise_cons hsorted hr
  | @entry time e hclock htime he hhist =>
    rw [hcons hclock] at h hsorted
    exact ⟨h.snoc hsorted hg he htime hhist, fun hne ↦ htime ▸ h.clock hne time (by simp)⟩

/-- Along a run at non-decreasing readings the history stays in the order of its times, and the time
of the context does not fall once there is an entry. -/
theorem Dated.run {as bs : List Action} (h : s.Dated (readings (as ++ bs)))
    (hsorted : (readings (as ++ bs)).Pairwise (· ≤ ·)) (hrun : Run Step s as s') :
    s'.Dated (readings bs) ∧ (s.history ≠ [] → s.ctx.time ≤ s'.ctx.time) := by
  induction hrun with
  | nil => exact ⟨h, fun _ ↦ le_rfl⟩
  | @cons s s₁ s₂ a as hstep hrest ih =>
    obtain ⟨h₁, hle₁⟩ := h.step hsorted hstep
    have hsorted₁ : (readings (as ++ bs)).Pairwise (· ≤ ·) := by
      refine hsorted.sublist ?_
      exact (List.sublist_cons_self a (as ++ bs)).filterMap Action.clock
    obtain ⟨h₂, hle₂⟩ := ih h₁ hsorted₁
    exact ⟨h₂, fun hne ↦ (hle₁ hne).trans (hle₂ ((step_stamps h.leaves hstep).ne_nil hne))⟩

/-- The times of the history never decrease, nor does the time of the context from one entry to the
next, and an operation is dispatched at a reading of the clock not before its time. -/
theorem time_never_decreases (n : Nat) (g : GeneratorPtr) (time : Int) (as : List Action)
    (s : Runner) (hg : AllLeaves Untimed [] g) (hclock : (readings as).Pairwise (· ≤ ·))
    (h : Run Step (start n g time) as s) :
    (s.history.map fun e ↦ e.op.time).Pairwise (· ≤ ·) ∧
    (∀ pre post s₁, as = pre ++ post → Run Step (start n g time) pre s₁ → Run Step s₁ post s →
      s₁.history ≠ [] → s₁.ctx.time ≤ s.ctx.time) ∧
    (∀ pre now draws fuel post s₁ s₂ e, as = pre ++ .ask now draws fuel :: post →
      Run Step (start n g time) pre s₁ → Step s₁ (.ask now draws fuel) s₂ →
      s₂.history = s₁.history ++ [e] → e.op.time ≤ now) := by
  refine ⟨?_, ?_, ?_⟩
  · have hall : (readings (as ++ [])).Pairwise (· ≤ ·) := by rwa [List.append_nil]
    exact ((Dated.start hg).run hall h).1.sorted
  -- The invariant holds in the middle of the run, and from there on the clock goes forward.
  · rintro pre post s₁ rfl hpre hpost hne
    have h₁ := ((Dated.start hg).run hclock hpre).1
    have hsorted : (readings post).Pairwise (· ≤ ·) := by
      rw [readings_append] at hclock
      exact (List.pairwise_append.mp hclock).2.1
    rw [← List.append_nil post] at h₁ hsorted
    exact (h₁.run hsorted hpost).2 hne
  · rintro pre now draws fuel post s₁ s₂ e rfl hpre hstep hhist
    have h₁ := ((Dated.start hg).run hclock hpre).1
    cases step_stamps h₁.leaves hstep with
    | silent _ heq => exact absurd (heq.symm.trans hhist) (by simp)
    | polled _ _ heq => exact absurd (heq.symm.trans hhist) (by simp)
    | entry hnow _ he heq =>
      -- The step has one new entry, which carries the time of the reading.
      obtain rfl : now = _ := Option.some.inj hnow
      obtain ⟨-, heq⟩ := List.append_inj' (heq.symm.trans hhist) rfl
      obtain rfl := List.singleton_inj.mp heq
      exact he.le

/-- A read under `stagger`, dispatched at 4 and completed at 9. -/
theorem time_never_decreases_read : ∃ s,
    Run Step (start 1 (setGenerator (.list [.stagger 10 3 (createGenerator
        [OperationFactory.read .null, OperationFactory.read .null])])) 0)
      [.ask 2 (fun _ ↦ 1) 7, .ask 4 (fun _ ↦ 1) 7, .take 0, .finish 0 { type := .kSuccess },
        .enqueue 0, .complete 0 9] s ∧ s.history.length = 2 ∧
    (s.history.map fun e ↦ e.op.time).Pairwise (· ≤ ·) := by
  have hleaves : AllLeaves Untimed [] (setGenerator (.list [.stagger 10 3 (createGenerator
      [OperationFactory.read .null, OperationFactory.read .null])])) := by
    refine .validate (.list (List.forall_mem_singleton.mpr (.stagger (.list fun g hg ↦ ?_))))
    obtain ⟨o, ho, rfl⟩ := List.mem_map.mp hg
    obtain rfl : o = OperationFactory.read .null := by simpa using ho
    exact .operation rfl
  have hrun : ((start 1 (setGenerator (.list [.stagger 10 3 (createGenerator
      [OperationFactory.read .null, OperationFactory.read .null])])) 0).run
        [.ask 2 (fun _ ↦ 1) 7, .ask 4 (fun _ ↦ 1) 7, .take 0, .finish 0 { type := .kSuccess },
          .enqueue 0, .complete 0 9]).map (fun s ↦ s.history.length) = some 2 := by
    decide +kernel
  obtain ⟨s, hs, hlen⟩ := Option.map_eq_some_iff.mp hrun
  have hsteps := run_steps hs
  exact ⟨s, hsteps, hlen, (time_never_decreases 1 _ 0 _ s hleaves (by decide) hsteps).1⟩

end Runner

end Jepsen
