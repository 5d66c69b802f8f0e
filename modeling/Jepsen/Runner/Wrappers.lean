import Jepsen.Generator.Wrappers
import Jepsen.Runner.Dispatch
import Jepsen.Runner.Sequence

/-!
# Runs of wrapped lists

Every run of a list under a stack of wrappers loses the last operation of the list, since the
wrapper takes its null successor for the end.
-/

namespace Jepsen

open Library GeneratorFactory
open GeneratorPtr (copyEach Rebuilt)

/-- The wrappers of `generator.h` that hold one generator. -/
inductive Wrapper where
  | clients
  | stagger (uninitialised dt : Int)
  | timeLimit (dt : Int)

def Wrapper.wrap : Wrapper → GeneratorPtr → GeneratorPtr
  | .clients, gen => Jepsen.clients gen
  | .stagger uninitialised dt, gen => Jepsen.stagger uninitialised dt gen
  | .timeLimit dt, gen => Jepsen.timeLimit dt gen

def wrapAll (stack : List Wrapper) (gen : GeneratorPtr) : GeneratorPtr :=
  stack.foldr Wrapper.wrap gen

theorem Wrapper.isWrapper_wrap (w : Wrapper) (g : GeneratorPtr) : (w.wrap g).isWrapper = true := by
  cases w <;> rfl

theorem flatten_wrapAll (stack : List Wrapper) (g : GeneratorPtr) :
    (wrapAll stack g).flatten = g.flatten := by
  induction stack with
  | nil => rfl
  | cons w ws ih => cases w <;> exact ih

theorem Stacked.wrapAll {g : GeneratorPtr} (h : Stacked g) (stack : List Wrapper) :
    Stacked (wrapAll stack g) := by
  induction stack with
  | nil => exact h
  | cons w ws ih =>
    cases w with
    | clients => exact .onThreads ih
    | stagger => exact .stagger ih
    | timeLimit => exact .timeLimit ih

theorem AllLeaves.wrapAll {P : LeafProperty} {g : GeneratorPtr} (h : ∀ path, AllLeaves P path g)
    (stack : List Wrapper) (path : List ThreadFilter) : AllLeaves P path (wrapAll stack g) := by
  induction stack generalizing path with
  | nil => exact h path
  | cons w ws ih =>
    cases w with
    | clients => exact .onThreads (ih _)
    | stagger => exact .stagger (ih _)
    | timeLimit => exact .timeLimit (ih _)

/-- `Validate` around a stack with at least one wrapper. -/
inductive Wrapped : GeneratorPtr → Prop
  | intro {g : GeneratorPtr} (hw : g.isWrapper = true) (hs : Stacked g) : Wrapped (.validate g)

theorem Wrapped.flatten_ne_nil {g : GeneratorPtr} (h : Wrapped g) : g.flatten ≠ [] := by
  cases h with
  | intro _ hs => exact hs.flatten_ne_nil

namespace Runner

variable {s : Runner}

theorem inOrder_wrapped : InOrder Wrapped where
  rebuilt hg hr := by
    cases hg with
    | intro hw hs =>
      cases hr with
      | refl => exact .intro hw hs
      | validate hr => exact .intro (hr.isWrapper hw hs.flatten_ne_nil) (hs.rebuilt hr)
  next hg ha hreal := by
    cases hg with
    | intro hw hs =>
      cases ha with
      | validate hb hoff =>
        obtain ⟨htakes, hgen⟩ := hb.stacked hs hreal.real
        have hnext := hgen.resolve_left (Answer.offer_iff.mp hoff).2
        exact ⟨.intro (hb.isWrapper hw hreal.real) hnext, htakes⟩
      | @validateLast _ _ b hb hoff =>
        -- the answer of a wrapper has a successor
        have hnext : b.gen2 ≠ .nullptr := by
          intro hnull
          have := hb.isWrapper hw hreal.real
          rw [hnull] at this
          exact absurd this (by decide)
        exact absurd ((Answer.offer_iff_of_real hreal.real).mpr hnext) hoff

/-- A generator without leaves dispatches nothing. -/
theorem dispatched_eq_nil {n : Nat} {g : GeneratorPtr} {time : Int}
    (hg : AllLeaves (fun _ _ ↦ False) [] g) (h : Reachable Step (start n g time) s) :
    s.dispatched = [] := by
  refine (h.invariant (P := fun s ↦ AllLeaves (fun _ _ ↦ False) [] s.generator ∧ s.dispatched = [])
    ⟨hg, rfl⟩ fun s a s' hs hinv ↦ ⟨step_allLeaves hinv.1 hs, ?_⟩).2
  cases step_moves hs with
  | work => exact hinv.2
  | complete => exact (dispatches_completion _ _).trans hinv.2
  | discard => exact hinv.2
  | exit => exact hinv.2
  | dispatch hflag hask hreal =>
    rcases ((op_answers _ _ _ _ _ _ hask).sourced hinv.1).1 with hnil | ⟨_, _, hfalse, -⟩
    · exact absurd hnil hreal.1
    · exact absurd hfalse id

/-- A complete run of a list under a stack of wrappers dispatches the list exactly when it holds
operations only, and is empty or under no wrapper. -/
theorem dispatched_eq_iff (n : Nat) (stack : List Wrapper) (operations : List Operation)
    (time : Int)
    (h : Reachable Step
      (start n (setGenerator (wrapAll stack (createGenerator operations))) time) s)
    (hexit : s.flag = false) :
    s.dispatched = operations.map Operation.payload ↔
      (∀ o ∈ operations, o.type.Dispatchable) ∧ (stack = [] ∨ operations = []) := by
  have hflat : (setGenerator (wrapAll stack (createGenerator operations))).flatten = operations :=
    (flatten_wrapAll stack _).trans (GeneratorPtr.flattenEach_operations operations)
  -- A wrapper loses the last operation, where there is one.
  by_cases hempty : operations = []
  · subst hempty
    have hnone := dispatched_eq_nil
      (.validate (AllLeaves.wrapAll (fun _ ↦ .list (by simp)) stack _)) h
    exact ⟨fun _ ↦ ⟨by simp, .inr rfl⟩, fun _ ↦ hnone⟩
  · rcases stack with _ | ⟨w, ws⟩
    · have hnested : Nested (setGenerator (wrapAll [] (createGenerator operations))) :=
        .validate (.list (by simpa using fun o _ ↦ Nested.operation o))
      have hp := progress_of_reachable inOrder_nested hnested h
      rw [hflat] at hp
      exact ⟨fun hwhole ↦ ⟨(hp.whole hwhole).1, .inl rfl⟩,
        fun hall ↦ hp.of_exit hnested h hexit hall.1⟩
    · have hwrapped : Wrapped (setGenerator (wrapAll (w :: ws) (createGenerator operations))) :=
        .intro (w.isWrapper_wrap _) (Stacked.wrapAll (.flat (.operations hempty)) (w :: ws))
      -- A wrapped tree is never used up, so nothing like the whole list is dispatched.
      have hp := progress_of_reachable inOrder_wrapped hwrapped h
      rw [hflat] at hp
      refine ⟨fun hwhole ↦ absurd (hp.whole hwhole).2 hp.generator.flatten_ne_nil, fun hall ↦ ?_⟩
      exact absurd (hall.2.resolve_left (by simp)) hempty

/-- What a wrapped generator offers is returned exactly when it comes with a successor (and, for
`Stagger`, its period is not zero), and a run of a wrapped list is complete exactly when there is
nothing to lose. -/
theorem wrappers_return_iff (n : Nat) (ctx : Context) (draws : Draws) :
    (∀ g filter a d, op n g (onThreadsContext filter ctx) draws = .ok (a, d) →
      a.op.Real →
      ((∃ b d', op (n + 1) (.onThreads g filter) ctx draws = .ok (b, d') ∧ b.op = a.op) ↔
        a.gen2 ≠ .nullptr)) ∧
    (∀ g dt next_time a d, op n g ctx draws = .ok (a, d) → a.op.Real →
      ((∃ b d' t, op (n + 1) (.stagger dt next_time g) ctx draws = .ok (b, d') ∧
        b.op = { a.op with time := t }) ↔ a.gen2 ≠ .nullptr ∧ dt ≠ 0)) ∧
    (∀ g limit cutoff a d, op n g ctx draws = .ok (a, d) → a.op.Real →
      a.op.time < TimeLimit.fix limit cutoff a.op.time →
      ((∃ b d', op (n + 1) (.timeLimit limit cutoff g) ctx draws = .ok (b, d') ∧ b.op = a.op) ↔
        a.gen2 ≠ .nullptr)) ∧
    (∀ gens loop answers d,
      Any.poll (op n) ctx 0 gens {} draws = .ok ((loop, answers), d) →
      (∃ a ∈ answers, a.op.Real) →
      ((∃ b d', op (n + 1) (.any gens) ctx draws = .ok (b, d') ∧ b.op.Real) ↔
        (∃ a ∈ answers, a.op.Real ∧ a.gen2 ≠ .nullptr) ∧
          ∃ copy, copyEach (answers.map Answer.self) = .ok copy)) ∧
    (∀ stack operations time s,
      Reachable Step
        (start n (setGenerator (wrapAll stack (createGenerator operations))) time) s →
      s.flag = false →
      (s.dispatched = operations.map Operation.payload ↔
        (∀ o ∈ operations, o.type.Dispatchable) ∧ (stack = [] ∨ operations = []))) :=
  ⟨fun _ _ _ _ hask hreal ↦ onThreads_returns_iff hask hreal,
    fun _ _ _ _ _ hask hreal ↦ stagger_returns_iff hask hreal,
    fun _ _ _ _ _ hask hreal htime ↦ timeLimit_returns_iff hask hreal htime,
    fun _ _ _ _ hpoll _ ↦ any_returns_iff hpoll,
    fun stack operations time _ h hexit ↦ dispatched_eq_iff n stack operations time h hexit⟩

/-- The first of two reads, below `clients`. -/
theorem wrappers_return_iff_read : ∃ b d,
    op 5 (clients (createGenerator [OperationFactory.read .null, OperationFactory.read .null]))
      ((start 1 .nullptr 0).askContext 0) (fun _ ↦ 0) = .ok (b, d) ∧ b.op.func = "read" := by
  obtain ⟨a, d, hask, hreal, hgen, hfunc⟩ : ∃ a d,
      op 4 (createGenerator [OperationFactory.read .null, OperationFactory.read .null])
        (onThreadsContext isClient ((start 1 .nullptr 0).askContext 0)) (fun _ ↦ 0) = .ok (a, d) ∧
      a.op.Real ∧ a.gen2.isNull = false ∧ a.op.func = "read" :=
    ⟨_, _, rfl, by decide, rfl, rfl⟩
  obtain ⟨b, d', hb, hop⟩ := ((wrappers_return_iff 4 _ _).1 _ isClient a d hask hreal).mpr
    (GeneratorPtr.isNull_eq_false_iff.mp hgen)
  exact ⟨b, d', hb, by rw [hop, hfunc]⟩

/-- A list of one read offers it, but not below `clients`: the run ends without it. -/
theorem clients_lose_last :
    (∃ a d, op 4 (createGenerator [OperationFactory.read .null])
        (onThreadsContext isClient ((start 1 .nullptr 0).askContext 0)) (fun _ ↦ 0) = .ok (a, d) ∧
      a.op.Real) ∧
    (∃ b d, op 5 (clients (createGenerator [OperationFactory.read .null]))
        ((start 1 .nullptr 0).askContext 0) (fun _ ↦ 0) = .ok (b, d) ∧ ¬ b.op.Real) ∧
    ∃ s, Reachable Step (start 1 (setGenerator (wrapAll [.clients]
        (createGenerator [OperationFactory.read .null]))) 0) s ∧
      s.flag = false ∧ s.dispatched ≠ [(OperationFactory.read .null).payload] := by
  have hrun : ((start 1 (setGenerator (wrapAll [.clients]
      (createGenerator [OperationFactory.read .null]))) 0).run [.ask 0 (fun _ ↦ 0) 6]).map
        (fun s ↦ (s.flag, s.dispatched.length)) = some (false, 0) := by
    decide +kernel
  obtain ⟨s, hs, hend⟩ := Option.map_eq_some_iff.mp hrun
  obtain ⟨hflag, hlen⟩ := Prod.mk.inj hend
  refine ⟨⟨_, _, rfl, by decide⟩, ⟨_, _, rfl, by decide⟩, s, reachable_of_run hs, hflag, ?_⟩
  intro hone
  rw [hone] at hlen
  exact absurd hlen (by decide)

end Runner

end Jepsen
