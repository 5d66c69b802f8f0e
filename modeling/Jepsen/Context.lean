import Jepsen.Library.Eval
import Jepsen.Operation
import Mathlib.Data.Finset.Max
import Mathlib.Data.Finset.Range
import Mathlib.Data.Finset.Image
import Mathlib.Data.List.AList

/-!
# Contexts

A `Context` tells a generator the time, which threads are free and which process every thread
runs.  The `std::set` of free threads is a `Finset` walked in increasing order, and the
`std::unordered_map` of workers an association list walked in the order of its entries.  Every
source of randomness (`rand()`, `std::random_device`, whatever a user's function reads) is one
stream of natural numbers, consumed from the front.
-/

namespace Jepsen

open Library

/-- Where C++ leaves the specified behaviour of an evaluation, and where fuel ends it. -/
inductive Fault where
  | outOfFuel
  | nullPointer
  | divisionByZero
  | outOfRange
  deriving DecidableEq, Repr

abbrev Draws := Nat → Nat

abbrev Gen := Eval Draws Fault

/-- One draw of `rand()`. -/
def rand : Gen Nat := fun draws ↦ .ok (draws 0, fun i ↦ draws (i + 1))

theorem rand_eq_ok {draws : Draws} {r : Nat × Draws} :
    rand draws = .ok r ↔ r = (draws 0, fun i ↦ draws (i + 1)) := by
  simp [rand, eq_comm]

/-- thread -> process -/
abbrev Workers := AList (fun _ : Int ↦ Int)

structure Context where
  time : Int
  freeThreads : Finset Int
  workers : Workers

/-- `*std::advance(s.begin(), k)`: the `k`-th element of `s` in increasing order. -/
def advance : Nat → Finset Int → Option Int
  | 0, s => s.min
  | k + 1, s =>
    match s.min with
    | none => none
    | some t => advance k (s.erase t)

theorem advance_mem {k : Nat} {s : Finset Int} {t : Int} (h : advance k s = some t) : t ∈ s := by
  induction k generalizing s with
  | zero => exact Finset.mem_of_min h
  | succ k ih =>
    unfold advance at h
    split at h
    · exact absurd h (by simp)
    · exact Finset.mem_of_mem_erase (ih h)

theorem advance_isSome {k : Nat} {s : Finset Int} (h : k < s.card) : (advance k s).isSome := by
  induction k generalizing s with
  | zero =>
    obtain ⟨t, ht⟩ := Finset.min_of_nonempty (Finset.card_pos.mp h)
    simp only [advance, ht]
    rfl
  | succ k ih =>
    obtain ⟨t, ht⟩ := Finset.min_of_nonempty (Finset.card_pos.mp (Nat.zero_lt_of_lt h))
    have hmin : s.min = some t := ht
    simp only [advance, hmin]
    apply ih
    rw [Finset.card_erase_of_mem (Finset.mem_of_min ht)]
    omega

namespace Context

/-- The threads of a run: one for each client and one for the nemesis. -/
def threads (concurrency : Nat) : Finset Int :=
  insert kNemesisProcess ((Finset.range concurrency).image Int.ofNat)

theorem mem_threads {n : Nat} {t : Int} : t ∈ threads n ↔ t = kNemesisProcess ∨ 0 ≤ t ∧ t < n := by
  simp only [threads, Finset.mem_insert, Finset.mem_image, Finset.mem_range]
  refine or_congr_right ⟨?_, fun ⟨h₀, h₁⟩ ↦ ⟨t.toNat, by omega, Int.toNat_of_nonneg h₀⟩⟩
  rintro ⟨i, hi, rfl⟩
  exact ⟨Int.natCast_nonneg i, Int.ofNat_lt.mpr hi⟩

/-- `Context(concurrency)`, at the clock reading `time`. -/
def new (concurrency : Nat) (time : Int) : Context := ⟨time, threads concurrency, ∅⟩

/-- One client, which is free, and no nemesis. -/
def oneClient (time : Int) : Context := ⟨time, {0}, AList.singleton 0 0⟩

def randomFreeProcess (ctx : Context) : Gen Int := do
  if ctx.freeThreads.card ≠ 0 then
    let k ← rand
    match advance (k % ctx.freeThreads.card) ctx.freeThreads with
    | none => throw .outOfRange
    | some thread =>
      match ctx.workers.lookup thread with
      | none => throw .outOfRange
      | some process => return process
  else
    return kInvalidProcess

/-- The entries `std::count_if` counts in `nextProcess`. -/
def clientCount (workers : Workers) : Nat :=
  workers.entries.countP fun tp ↦ tp.2 ≠ kNemesisProcess

def nextProcess (ctx : Context) (thread : Int) : Int :=
  if thread ≠ kNemesisProcess then
    -- `workers[thread]` reads a missing entry as 0
    (ctx.workers.lookup thread).getD 0 + clientCount ctx.workers
  else
    thread

def processToThread (ctx : Context) (process : Int) : Int :=
  match ctx.workers.entries.find? fun tp ↦ tp.2 = process with
  | some tp => tp.1
  | none => kInvalidProcess

/-! ## What the lookups answer -/

/-- What `randomFreeProcess` may answer: the process of some free thread, and `kInvalidProcess` only
when no thread is free. -/
def MayDraw (ctx : Context) (process : Int) : Prop :=
  (ctx.freeThreads = ∅ ∧ process = kInvalidProcess) ∨
    ∃ t ∈ ctx.freeThreads, ctx.workers.lookup t = some process

theorem randomFreeProcess_ok {ctx : Context} {draws draws' : Draws} {process : Int}
    (h : ctx.randomFreeProcess draws = .ok (process, draws')) : ctx.MayDraw process := by
  unfold randomFreeProcess at h
  split at h
  · obtain ⟨k, draws₁, -, h⟩ := Eval.bind_eq_ok.mp h
    cases hthread : advance (k % ctx.freeThreads.card) ctx.freeThreads with
    | none => simp [hthread] at h
    | some thread =>
      cases hp : ctx.workers.lookup thread with
      | none => simp [hthread, hp] at h
      | some p =>
        simp only [hthread, hp, Eval.pure_apply, Except.ok.injEq, Prod.mk.injEq] at h
        exact .inr ⟨thread, advance_mem hthread, h.1 ▸ hp⟩
  · rename_i hcard
    simp only [Eval.pure_apply, Except.ok.injEq, Prod.mk.injEq] at h
    exact .inl ⟨Finset.card_eq_zero.mp (not_not.mp hcard), h.1.symm⟩

/-- Every free thread has a worker, so that `workers.at` finds it. -/
def Staffed (ctx : Context) : Prop := ∀ t ∈ ctx.freeThreads, ∃ p, ctx.workers.lookup t = some p

/-- The process of a free thread is drawn when there is one, at the cost of one draw. -/
theorem randomFreeProcess_staffed {ctx : Context} (h : ctx.Staffed)
    (hfree : ctx.freeThreads.Nonempty) (draws : Draws) :
    ∃ t ∈ ctx.freeThreads, ∃ p, ctx.workers.lookup t = some p ∧
      ctx.randomFreeProcess draws = .ok (p, fun i ↦ draws (i + 1)) := by
  have hcard : ctx.freeThreads.card ≠ 0 := Finset.card_ne_zero.mpr hfree
  obtain ⟨thread, hthread⟩ := Option.isSome_iff_exists.mp
    (advance_isSome (Nat.mod_lt (draws 0) (Nat.pos_of_ne_zero hcard)))
  obtain ⟨p, hp⟩ := h thread (advance_mem hthread)
  refine ⟨thread, advance_mem hthread, p, hp, ?_⟩
  unfold randomFreeProcess
  rw [if_pos hcard, Eval.bind_apply_ok (rand_eq_ok.mpr rfl), hthread]
  simp only [hp]
  rfl

/-- The only fault is `workers.at` on a free thread without a worker. -/
theorem randomFreeProcess_error {ctx : Context} {draws : Draws} {e : Fault}
    (h : ctx.randomFreeProcess draws = .error e) : e = .outOfRange ∧ ¬ ctx.Staffed := by
  -- A draw from a staffed context gives a process, or the invalid one where no thread is free.
  have hstaffed : ¬ ctx.Staffed := by
    intro hs
    by_cases hfree : ctx.freeThreads.Nonempty
    · obtain ⟨_, _, _, _, hok⟩ := randomFreeProcess_staffed hs hfree draws
      rw [hok] at h
      exact absurd h (by simp)
    · unfold randomFreeProcess at h
      simp [Finset.not_nonempty_iff_eq_empty.mp hfree] at h
  refine ⟨?_, hstaffed⟩
  unfold randomFreeProcess at h
  split at h
  · rw [Eval.bind_apply_ok (rand_eq_ok.mpr rfl)] at h
    cases hthread : advance (draws 0 % ctx.freeThreads.card) ctx.freeThreads with
    | none =>
      rw [hthread] at h
      exact (Except.error.inj h).symm
    | some thread =>
      cases hp : ctx.workers.lookup thread with
      | none =>
        simp only [hthread, hp, Eval.throw_apply, Except.error.injEq] at h
        exact h.symm
      | some p => simp [hthread, hp] at h
  · exact absurd h (by simp)

/-- No two threads run the same process. -/
def Distinct (ctx : Context) : Prop :=
  ∀ t t' p, ctx.workers.lookup t = some p → ctx.workers.lookup t' = some p → t = t'

theorem processToThread_of_lookup {ctx : Context} (hd : ctx.Distinct) {t p : Int}
    (h : ctx.workers.lookup t = some p) : ctx.processToThread p = t := by
  unfold processToThread
  split
  · rename_i tp hfind
    have hmem := List.mem_of_find?_eq_some hfind
    have hp : tp.2 = p := by simpa using List.find?_some hfind
    exact hd _ _ p (AList.mem_lookup_iff.mpr (hp ▸ hmem)) h
  · rename_i hfind
    have := List.find?_eq_none.mp hfind _ (AList.mem_lookup_iff.mp h)
    simp at this

theorem lookup_oneClient {time t p : Int} (h : (oneClient time).workers.lookup t = some p) :
    t = 0 ∧ p = 0 := by
  have hentry : (⟨t, p⟩ : Sigma fun _ : Int ↦ Int) ∈ [⟨0, 0⟩] := AList.mem_lookup_iff.mp h
  cases List.mem_singleton.mp hentry
  exact ⟨rfl, rfl⟩

theorem staffed_oneClient (time : Int) : (oneClient time).Staffed := by
  intro t ht
  obtain rfl := Finset.mem_singleton.mp ht
  exact ⟨0, rfl⟩

theorem distinct_oneClient (time : Int) : (oneClient time).Distinct := by
  intro t t' p ht ht'
  rw [(lookup_oneClient ht).1, (lookup_oneClient ht').1]

/-! ## Restriction to the threads a filter accepts -/

end Context

abbrev ThreadFilter := Int → Bool

/-- `generator::onThreadsContext`. -/
def onThreadsContext (filter : ThreadFilter) (ctx : Context) : Context :=
  { ctx with
    freeThreads := ctx.freeThreads.filter fun t ↦ filter t
    workers := ctx.workers.keys.foldl (fun ws t ↦ if filter t then ws else ws.erase t) ctx.workers }

namespace Context

@[simp] theorem onThreadsContext_time (filter : ThreadFilter) (ctx : Context) :
    (onThreadsContext filter ctx).time = ctx.time := rfl

@[simp] theorem mem_onThreadsContext {filter : ThreadFilter} {ctx : Context} {t : Int} :
    t ∈ (onThreadsContext filter ctx).freeThreads ↔ t ∈ ctx.freeThreads ∧ filter t :=
  Finset.mem_filter

theorem lookup_foldl_erase (filter : ThreadFilter) (ts : List Int) (ws : Workers) (t : Int) :
    (ts.foldl (fun ws t ↦ if filter t then ws else ws.erase t) ws).lookup t =
      if t ∈ ts ∧ filter t = false then none else ws.lookup t := by
  induction ts generalizing ws with
  | nil => simp
  | cons u ts ih =>
    rw [List.foldl_cons, ih]
    -- Erasing the same thread twice does no harm.
    by_cases hu : filter u
    · by_cases htu : t = u
      · subst htu
        simp [hu]
      · simp [hu, htu]
    · by_cases htu : t = u
      · subst htu
        simp [hu]
      · simp [hu, htu, AList.lookup_erase_ne htu]

@[simp] theorem lookup_onThreadsContext (filter : ThreadFilter) (ctx : Context) (t : Int) :
    (onThreadsContext filter ctx).workers.lookup t =
      if filter t then ctx.workers.lookup t else none := by
  unfold onThreadsContext
  rw [lookup_foldl_erase]
  by_cases hf : filter t
  · simp [hf]
  · by_cases hk : t ∈ ctx.workers
    · simp [hf, AList.mem_keys.mp hk]
    · simp [hf, AList.lookup_eq_none.mpr hk]

theorem Staffed.onThreadsContext {ctx : Context} (h : ctx.Staffed) (filter : ThreadFilter) :
    (onThreadsContext filter ctx).Staffed := by
  intro t ht
  obtain ⟨hmem, hf⟩ := mem_onThreadsContext.mp ht
  obtain ⟨p, hp⟩ := h t hmem
  exact ⟨p, by rw [lookup_onThreadsContext, if_pos hf, hp]⟩

/-- The context that reaches a leaf below the filters `path`, outermost first. -/
def restrict (path : List ThreadFilter) (ctx : Context) : Context :=
  path.foldl (fun c filter ↦ Jepsen.onThreadsContext filter c) ctx

@[simp] theorem restrict_nil (ctx : Context) : restrict [] ctx = ctx := rfl

@[simp] theorem restrict_cons (filter : ThreadFilter) (path : List ThreadFilter) (ctx : Context) :
    restrict (filter :: path) ctx = restrict path (Jepsen.onThreadsContext filter ctx) := rfl

@[simp] theorem restrict_time (path : List ThreadFilter) (ctx : Context) :
    (restrict path ctx).time = ctx.time := by
  induction path generalizing ctx with
  | nil => rfl
  | cons f path ih => rw [restrict_cons, ih, onThreadsContext_time]

theorem mem_restrict {path : List ThreadFilter} {ctx : Context} {t : Int} :
    t ∈ (restrict path ctx).freeThreads ↔ t ∈ ctx.freeThreads ∧ ∀ f ∈ path, f t := by
  induction path generalizing ctx with
  | nil => simp
  | cons f path ih => rw [restrict_cons, ih, mem_onThreadsContext, List.forall_mem_cons, and_assoc]

theorem lookup_restrict {path : List ThreadFilter} {ctx : Context} {t p : Int} :
    (restrict path ctx).workers.lookup t = some p ↔
      ctx.workers.lookup t = some p ∧ ∀ f ∈ path, f t := by
  induction path generalizing ctx with
  | nil => simp
  | cons f path ih =>
    rw [restrict_cons, ih, lookup_onThreadsContext, List.forall_mem_cons,
      Option.ite_none_right_eq_some, and_assoc, and_left_comm]

end Context

end Jepsen
