import Jepsen.Generator.Answers

/-!
# Leaves

`AllLeaves P path g` says `P` of every operation that a leaf of `g` can offer, together with the
thread filters on the way to that leaf (outermost first, after those in `path`).  Asking, rebuilding
and discarding keep it, and every operation that `generator::op` answers is such a leaf operation,
filled in by the context that the filters restrict.
-/

namespace Jepsen

open Library
open GeneratorPtr (copyOne copyEach copyOrNull Rebuilt)

abbrev LeafProperty := List ThreadFilter → Operation → Prop

inductive AllLeaves (P : LeafProperty) : List ThreadFilter → GeneratorPtr → Prop
  | nullptr {path} : AllLeaves P path .nullptr
  | operation {path o} (h : P path o) : AllLeaves P path (.operation o)
  | function {path f} (h : ∀ ctx k, P path (f.func ctx k)) : AllLeaves P path (.function f)
  | list {path gs} (h : ∀ g ∈ gs, AllLeaves P path g) : AllLeaves P path (.list gs)
  | validate {path g} (h : AllLeaves P path g) : AllLeaves P path (.validate g)
  | onThreads {path g filter} (h : AllLeaves P (path ++ [filter]) g) :
      AllLeaves P path (.onThreads g filter)
  | timeLimit {path limit cutoff g} (h : AllLeaves P path g) :
      AllLeaves P path (.timeLimit limit cutoff g)
  | stagger {path dt next_time g} (h : AllLeaves P path g) :
      AllLeaves P path (.stagger dt next_time g)
  | mix {path idx gs} (h : ∀ g ∈ gs, AllLeaves P path g) : AllLeaves P path (.mix idx gs)
  | any {path gs} (h : ∀ g ∈ gs, AllLeaves P path g) : AllLeaves P path (.any gs)
  | user {path leaf calls} (h : ∀ calls ctx k, P path (leaf.next calls ctx k)) :
      AllLeaves P path (.user leaf calls)

namespace AllLeaves

variable {P : LeafProperty} {path : List ThreadFilter}

theorem mono {Q : LeafProperty} (hPQ : ∀ path o, P path o → Q path o) {g : GeneratorPtr}
    (h : AllLeaves P path g) : AllLeaves Q path g := by
  induction h with
  | nullptr => exact .nullptr
  | operation h => exact .operation (hPQ _ _ h)
  | function h => exact .function fun ctx k ↦ hPQ _ _ (h ctx k)
  | list _ ih => exact .list ih
  | validate _ ih => exact .validate ih
  | onThreads _ ih => exact .onThreads ih
  | timeLimit _ ih => exact .timeLimit ih
  | stagger _ ih => exact .stagger ih
  | mix _ ih => exact .mix ih
  | any _ ih => exact .any ih
  | user h => exact .user fun calls ctx k ↦ hPQ _ _ (h calls ctx k)

theorem rebuilt {polled copied : Bool} {g g' : GeneratorPtr} (hr : Rebuilt polled copied g g')
    (h : AllLeaves P path g) : AllLeaves P path g' := by
  induction hr generalizing path with
  | refl => exact h
  | emptyList | timeLimitNull | staggerNull => exact .nullptr
  | list hlen _ ih =>
    cases h with
    | list h =>
      exact .list (Pointwise.forall_mem_of_getElem hlen (fun i hi hi' ↦ ih i hi hi') h)
  | validate _ ih => cases h with | validate h => exact .validate (ih h)
  | onThreads _ ih => cases h with | onThreads h => exact .onThreads (ih h)
  | timeLimit _ ih => cases h with | timeLimit h => exact .timeLimit (ih h)
  | stagger _ ih => cases h with | stagger h => exact .stagger (ih h)
  | mix _ hlen _ ih =>
    cases h with
    | mix h =>
      exact .mix (Pointwise.forall_mem_of_getElem hlen (fun i hi hi' ↦ ih i hi hi') h)
  | any hlen _ ih =>
    cases h with
    | any h =>
      exact .any (Pointwise.forall_mem_of_getElem hlen (fun i hi hi' ↦ ih i hi hi') h)
  | user => cases h with | user h => exact .user h

theorem forall_rebuilt {gs gs' : List GeneratorPtr} (hr : Pointwise (Rebuilt true true) gs gs')
    (h : ∀ g ∈ gs, AllLeaves P path g) : ∀ g ∈ gs', AllLeaves P path g :=
  hr.forall_mem (fun _ _ hgg' hg ↦ hg.rebuilt hgg') h

end AllLeaves

/-- `o` is the operation of a leaf of `g`, or one that the leaf may compute, below the filters
`path` inside `g`. -/
inductive Leaf : GeneratorPtr → List ThreadFilter → Operation → Prop
  | operation {o} : Leaf (.operation o) [] o
  | function {f ctx k} : Leaf (.function f) [] (f.func ctx k)
  | list {gs : List GeneratorPtr} {g path o} (hg : g ∈ gs) (h : Leaf g path o) :
      Leaf (.list gs) path o
  | validate {g path o} (h : Leaf g path o) : Leaf (.validate g) path o
  | onThreads {g filter path o} (h : Leaf g path o) : Leaf (.onThreads g filter) (filter :: path) o
  | timeLimit {limit cutoff g path o} (h : Leaf g path o) : Leaf (.timeLimit limit cutoff g) path o
  | stagger {dt next_time g path o} (h : Leaf g path o) : Leaf (.stagger dt next_time g) path o
  | mix {idx} {gs : List GeneratorPtr} {g path o} (hg : g ∈ gs) (h : Leaf g path o) :
      Leaf (.mix idx gs) path o
  | any {gs : List GeneratorPtr} {g path o} (hg : g ∈ gs) (h : Leaf g path o) :
      Leaf (.any gs) path o
  | user {leaf calls calls' ctx k} : Leaf (.user leaf calls) [] (leaf.next calls' ctx k)

theorem allLeaves_of_leaf {P : LeafProperty} {g : GeneratorPtr} {path : List ThreadFilter}
    (h : ∀ sub o, Leaf g sub o → P (path ++ sub) o) : AllLeaves P path g := by
  induction g generalizing path with
  | nullptr => exact .nullptr
  | operation o => exact .operation (by simpa using h _ _ .operation)
  | function f => exact .function fun ctx k ↦ by simpa using h [] (f.func ctx k) .function
  | list gs ih => exact .list fun g hg ↦ ih g hg fun sub o hleaf ↦ h _ _ (.list hg hleaf)
  | validate g ih => exact .validate (ih fun sub o hleaf ↦ h _ _ (.validate hleaf))
  -- the filter goes to the end of the path
  | onThreads g f ih =>
    exact .onThreads (ih fun sub o hleaf ↦ by simpa using h _ _ (.onThreads hleaf))
  | timeLimit limit cutoff g ih => exact .timeLimit (ih fun sub o hleaf ↦ h _ _ (.timeLimit hleaf))
  | stagger dt nt g ih => exact .stagger (ih fun sub o hleaf ↦ h _ _ (.stagger hleaf))
  | mix idx gs ih => exact .mix fun g hg ↦ ih g hg fun sub o hleaf ↦ h _ _ (.mix hg hleaf)
  | any gs ih => exact .any fun g hg ↦ ih g hg fun sub o hleaf ↦ h _ _ (.any hg hleaf)
  | user leaf calls =>
    exact .user fun calls' ctx k ↦ by simpa using h [] (leaf.next calls' ctx k) .user

theorem AllLeaves.of_leaf {P : LeafProperty} {g : GeneratorPtr} {path sub : List ThreadFilter}
    {o : Operation} (hleaf : Leaf g sub o) (h : AllLeaves P path g) : P (path ++ sub) o := by
  induction hleaf generalizing path with
  | operation => cases h with | operation h => simpa using h
  | function => cases h with | function h => simpa using h _ _
  | list hg _ ih => cases h with | list h => exact ih (h _ hg)
  | validate _ ih => cases h with | validate h => exact ih h
  | onThreads _ ih => cases h with | onThreads h => simpa using ih h
  | timeLimit _ ih => cases h with | timeLimit h => exact ih h
  | stagger _ ih => cases h with | stagger h => exact ih h
  | mix hg _ ih => cases h with | mix h => exact ih (h _ hg)
  | any hg _ ih => cases h with | any h => exact ih (h _ hg)
  | user => cases h with | user h => simpa using h _ _ _

/-! ## Where an answered operation comes from -/

/-- `r` is `op` filled in by `ctx`, with its time perhaps raised afterwards (by a `Stagger`). -/
def Filled (ctx : Context) (op r : Operation) : Prop :=
  ∃ r₀ time, MayFill ctx op r₀ ∧ r₀.time ≤ time ∧ r = { r₀ with time := time }

theorem MayFill.filled {ctx : Context} {op r : Operation} (h : MayFill ctx op r) :
    Filled ctx op r :=
  ⟨r, r.time, h, le_rfl, rfl⟩

theorem Filled.raise {ctx : Context} {op r : Operation} (h : Filled ctx op r) (t : Int) :
    Filled ctx op { r with time := max t r.time } := by
  obtain ⟨r₀, time, hfill, hle, rfl⟩ := h
  exact ⟨r₀, max t time, hfill, le_trans hle (le_max_right _ _), rfl⟩

/-- `r` is nil, or comes from a leaf with `P`, below the filters `sub` of the asked generator. -/
def Sourced (P : LeafProperty) (path : List ThreadFilter) (ctx : Context) (r : Operation) : Prop :=
  r.type = .kNil ∨ ∃ sub o, P (path ++ sub) o ∧ Filled (ctx.restrict sub) o r

theorem Sourced.onThreads {P : LeafProperty} {path : List ThreadFilter} {filter : ThreadFilter}
    {ctx : Context} {r : Operation}
    (h : Sourced P (path ++ [filter]) (onThreadsContext filter ctx) r) :
    Sourced P path ctx r := by
  rcases h with h | ⟨sub, o, hP, hfill⟩
  · exact .inl h
  · exact .inr ⟨filter :: sub, o, by simpa using hP, hfill⟩

/-- Every answer comes from a leaf, and the leaves of the successor are leaves of the asked
generator. -/
theorem Answers.sourced {P : LeafProperty} {g : GeneratorPtr} {ctx : Context} {a : Answer}
    (ha : Answers g ctx a) {path : List ThreadFilter} (h : AllLeaves P path g) :
    Sourced P path ctx a.op ∧ AllLeaves P path a.gen2 := by
  induction ha generalizing path with
  | nullptr => exact ⟨.inl rfl, .nullptr⟩
  | pending hfill _ =>
    cases h with
    | operation h => exact ⟨.inr ⟨[], _, by simpa using h, hfill.filled⟩, .operation h⟩
  | operation hfill _ =>
    cases h with
    | operation h => exact ⟨.inr ⟨[], _, by simpa using h, hfill.filled⟩, .nullptr⟩
  -- a function answers through the list of its operation and itself
  | @function f ctx k a _ ih =>
    cases h with
    | function h =>
      exact ih (.list (by simpa using ⟨.operation (h ctx k), .function h⟩))
  | listEmpty => exact ⟨.inl rfl, .nullptr⟩
  | listPop ha _ _ hcopy _ _ ih₂ =>
    cases h with
    | list h =>
      have hrest := (GeneratorPtr.copyOrNull_rebuilt true hcopy).tail
      exact ih₂ (.list (AllLeaves.forall_rebuilt hrest (List.forall_mem_cons.mp h).2))
  | listFront ha _ hcopy _ ih =>
    cases h with
    | list h =>
      obtain ⟨hfirst, hothers⟩ := List.forall_mem_cons.mp h
      obtain ⟨hsrc, hgen⟩ := ih hfirst
      have hrest := (GeneratorPtr.copyOrNull_rebuilt true hcopy).tail
      exact ⟨hsrc, .list (List.forall_mem_cons.mpr ⟨hgen, AllLeaves.forall_rebuilt hrest hothers⟩)⟩
  | listSingle _ _ ih =>
    cases h with
    | list h => exact ih (h _ (by simp))
  | validate _ _ ih =>
    cases h with
    | validate h =>
      obtain ⟨hsrc, hgen⟩ := ih h
      exact ⟨hsrc, .validate hgen⟩
  | validateLast _ _ ih =>
    cases h with
    | validate h => exact ih h
  | onThreads _ _ ih =>
    cases h with
    | onThreads h =>
      obtain ⟨hsrc, hgen⟩ := ih h
      exact ⟨hsrc.onThreads, .onThreads hgen⟩
  | timeLimitPending _ _ _ ih | timeLimit _ _ _ _ _ ih =>
    cases h with
    | timeLimit h =>
      obtain ⟨hsrc, hgen⟩ := ih h
      exact ⟨hsrc, .timeLimit hgen⟩
  | staggerPending ha _ _ _ ih =>
    cases h with
    | stagger h => exact ⟨(ih h).1, .stagger (h.rebuilt ha.rebuilt)⟩
  | stagger _ _ _ _ _ ih =>
    cases h with
    | stagger h =>
      obtain ⟨hsrc, hgen⟩ := ih h
      refine ⟨?_, .stagger hgen⟩
      -- `Stagger` moves the time of the operation, and nothing else.
      exact hsrc.imp id fun ⟨sub, o, hP, hfill⟩ ↦ ⟨sub, o, hP, hfill.raise _⟩
  | onThreadsNil | timeLimitOver | timeLimitNil | staggerNil => exact ⟨.inl rfl, .nullptr⟩
  | mixEmpty => exact ⟨.inl rfl, .nullptr⟩
  | @mix idx _ _ _ _ _ _ hgen ha _ hcopy ih =>
    cases h with
    | mix h =>
      have hmember := h _ (List.mem_of_getElem? hgen)
      obtain ⟨hsrc, hnext⟩ := ih hmember
      have hcopied := AllLeaves.forall_rebuilt (GeneratorPtr.copyEach_rebuilt true hcopy)
        (forall_mem_set (i := idx) h (hmember.rebuilt ha.rebuilt))
      exact ⟨hsrc, .mix (forall_mem_set hcopied hnext)⟩
  | mixDrop _ _ _ hcopy _ _ ih₂ =>
    cases h with
    | mix h =>
      exact ih₂ (.mix (AllLeaves.forall_rebuilt (GeneratorPtr.copyEach_rebuilt true hcopy)
        fun g hg ↦ h g (List.mem_of_mem_eraseIdx hg)))
  | @any gens ctx as i a copy hlen has hbest hcopy ih =>
    cases h with
    | any h =>
      have hall : ∀ b ∈ as, (Sourced P path ctx b.op ∧ AllLeaves P path b.gen2) ∧
          AllLeaves P path b.self :=
        Pointwise.forall_mem_of_getElem hlen (fun j hj hj' hmember ↦
          ⟨ih j hj hj' hmember, hmember.rebuilt (has j hj hj').rebuilt⟩) h
      have hcopied := AllLeaves.forall_rebuilt (GeneratorPtr.copyEach_rebuilt true hcopy)
        (List.forall_mem_map.mpr fun b hb ↦ (hall b hb).2)
      obtain ⟨⟨hsrc, hgen⟩, -⟩ := hall a hbest.mem
      exact ⟨hsrc, .any (forall_mem_set hcopied hgen)⟩
  | anyNil => exact ⟨.inl rfl, .nullptr⟩
  | userNil => exact ⟨.inl rfl, .nullptr⟩
  | user _ hfill =>
    cases h with
    | user h => exact ⟨.inr ⟨[], _, by simpa using h _ _ _, hfill.filled⟩, .user h⟩

/-! ## Leaves that set no time -/

/-- The leaf leaves its time to the context. -/
def Untimed : LeafProperty := fun _ o ↦ o.time = 0

/-- A real operation is filled in with the time of the context, and only raised from there. -/
theorem Filled.time_le {ctx : Context} {o r : Operation} (h : Filled ctx o r) (ho : o.time = 0)
    (hr : r.Real) : ctx.time ≤ r.time := by
  obtain ⟨_, time, ⟨p, -, rfl⟩, hle, rfl⟩ := h
  by_cases hp : p = kInvalidProcess
  · exact absurd (by simp [fillIn, hp]) hr.2
  · have htime : (fillIn ctx.time p o).time = ctx.time := by simp [fillIn, hp, ho]
    exact htime ▸ hle

-- No wrapper lowers a time below that of the context it was asked in.
theorem Answers.time_le {g : GeneratorPtr} {ctx : Context} {a : Answer} (ha : Answers g ctx a)
    {path : List ThreadFilter} (h : AllLeaves Untimed path g) (hreal : a.op.Real) :
    ctx.time ≤ a.op.time := by
  rcases (ha.sourced h).1 with hnil | ⟨sub, o, ho, hfill⟩
  · exact absurd hnil hreal.1
  · have hle := hfill.time_le ho hreal
    rwa [Context.restrict_time] at hle

end Jepsen
