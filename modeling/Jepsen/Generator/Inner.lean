import Jepsen.Generator.Leaves
import Jepsen.Generator.Null

/-!
# Inner calls

A call of `generator::op` asks other generators on its way to an answer.  `MayAsk` follows it to
them, also through the copies that lists and `Mix` ask in place of their members, and collects the
thread filters that restrict the context.
-/

namespace Jepsen

open Library GeneratorFactory
open GeneratorPtr (copyOne copyEach copyOrNull Rebuilt)

/-- Some call on `g` in `ctx` may ask `g'`, below the filters `sub` (outermost first).  A function
and a user's leaf count as calls on the operations that they compute. -/
inductive MayAsk : Context → GeneratorPtr → List ThreadFilter → GeneratorPtr → Prop
  | refl {ctx g} : MayAsk ctx g [] g
  | function {ctx f k} : MayAsk ctx (.function f) [] (.operation (f.func ctx k))
  | user {ctx leaf calls k} (hnil : (leaf.next calls ctx k).type ≠ .kNil) :
      MayAsk ctx (.user leaf calls) [] (.operation (leaf.next calls ctx k))
  | listFirst {ctx first rest sub g'} (h : MayAsk ctx first sub g') :
      MayAsk ctx (.list (first :: rest)) sub g'
  | listRest {ctx first rest a first' copy sub g'} (ha : Answers first ctx a)
      (hgen : a.gen2 = .nullptr) (hnil : a.op.type = .kNil)
      (hcopy : copyOrNull (first :: rest) = .ok (first' :: copy))
      (h : MayAsk ctx (.list copy) sub g') : MayAsk ctx (.list (first :: rest)) sub g'
  | validate {ctx gen sub g'} (h : MayAsk ctx gen sub g') : MayAsk ctx (.validate gen) sub g'
  | onThreads {ctx gen filter sub g'} (h : MayAsk (onThreadsContext filter ctx) gen sub g') :
      MayAsk ctx (.onThreads gen filter) (filter :: sub) g'
  | timeLimit {ctx limit cutoff gen sub g'} (h : MayAsk ctx gen sub g') :
      MayAsk ctx (.timeLimit limit cutoff gen) sub g'
  | stagger {ctx dt next_time gen sub g'} (h : MayAsk ctx gen sub g') :
      MayAsk ctx (.stagger dt next_time gen) sub g'
  | mixMember {ctx idx} {gens : List GeneratorPtr} {gen sub g'} (hgen : gens[idx]? = some gen)
      (h : MayAsk ctx gen sub g') : MayAsk ctx (.mix idx gens) sub g'
  | mixRest {ctx idx} {gens : List GeneratorPtr} {gen a copy idx' sub g'}
      (hgen : gens[idx]? = some gen) (ha : Answers gen ctx a) (hoff : ¬ a.Offer)
      (hcopy : copyEach (gens.eraseIdx idx) = .ok copy) (hidx : idx' < copy.length)
      (h : MayAsk ctx (.mix idx' copy) sub g') : MayAsk ctx (.mix idx gens) sub g'
  | any {ctx} {gens : List GeneratorPtr} {gen sub g'} (hgen : gen ∈ gens)
      (h : MayAsk ctx gen sub g') : MayAsk ctx (.any gens) sub g'

namespace MayAsk

variable {ctx : Context} {sub : List ThreadFilter} {o : Operation}

/-- The list that a function turns into comes to no operations but the function's. -/
theorem of_function {f : FunctionGenerator} {k : Nat}
    (h : MayAsk ctx (.list [.operation (f.func ctx k), .function f]) sub (.operation o)) :
    MayAsk ctx (.function f) sub (.operation o) := by
  cases h with
  | listFirst h =>
    cases h
    exact .function
  | listRest _ _ _ hcopy h =>
    obtain ⟨_, _, -, hrest, heq⟩ := GeneratorPtr.copyOrNull_cons_ok.mp hcopy
    obtain rfl := Except.ok.inj hrest
    obtain ⟨-, rfl⟩ := List.cons.inj heq
    cases h with
    | listFirst h => exact h
    -- behind the function, there is nothing
    | listRest _ _ _ hcopy h =>
      obtain ⟨_, _, -, hrest, heq⟩ := GeneratorPtr.copyOrNull_cons_ok.mp hcopy
      obtain rfl := Except.ok.inj hrest
      obtain ⟨-, rfl⟩ := List.cons.inj heq
      cases h

theorem mix_lt {idx : Nat} {gens : List GeneratorPtr}
    (h : MayAsk ctx (.mix idx gens) sub (.operation o)) : idx < gens.length := by
  cases h with
  | mixMember hgen | mixRest hgen => exact (List.getElem?_eq_some_iff.mp hgen).1

/-- The call comes to leaves of the tree only. -/
theorem allLeaves {P : LeafProperty} {g g' : GeneratorPtr} {path : List ThreadFilter}
    (h : MayAsk ctx g sub g') (hg : AllLeaves P path g) : AllLeaves P (path ++ sub) g' := by
  induction h generalizing path with
  | refl => rwa [List.append_nil]
  | function => cases hg with | function hf => exact .operation (by simpa using hf _ _)
  | user => cases hg with | user hl => exact .operation (by simpa using hl _ _ _)
  | listFirst _ ih => cases hg with | list hg => exact ih (hg _ (by simp))
  | listRest _ _ _ hcopy _ ih =>
    cases hg with
    | list hg =>
      have hrest := (GeneratorPtr.copyOrNull_rebuilt true hcopy).tail
      exact ih (.list (AllLeaves.forall_rebuilt hrest (List.forall_mem_cons.mp hg).2))
  | validate _ ih => cases hg with | validate hg => exact ih hg
  | onThreads _ ih => cases hg with | onThreads hg => simpa using ih hg
  | timeLimit _ ih => cases hg with | timeLimit hg => exact ih hg
  | stagger _ ih => cases hg with | stagger hg => exact ih hg
  | mixMember hgen _ ih => cases hg with | mix hg => exact ih (hg _ (List.mem_of_getElem? hgen))
  | mixRest _ _ _ hcopy _ _ ih =>
    cases hg with
    | mix hg =>
      exact ih (.mix (AllLeaves.forall_rebuilt (GeneratorPtr.copyEach_rebuilt true hcopy)
        fun g hmem ↦ hg g (List.mem_of_mem_eraseIdx hmem)))
  | any hgen _ ih => cases hg with | any hg => exact ih (hg _ hgen)

end MayAsk

/-- A list is copied after its first member was asked, which does not matter to its copy. -/
theorem copyOrNull_polled {first self : GeneratorPtr} {rest copy : List GeneratorPtr}
    (hr : Rebuilt true false first self) (h : ∃ c, copyOrNull (self :: rest) = .ok (c :: copy)) :
    ∃ c, copyOrNull (first :: rest) = .ok (c :: copy) := by
  obtain ⟨c, hcopy⟩ := h
  obtain ⟨_, _, hself, hrest, heq⟩ := GeneratorPtr.copyOrNull_cons_ok.mp hcopy
  obtain ⟨rfl, rfl⟩ := List.cons.inj heq
  by_cases hnull : first = .nullptr
  · exact ⟨.nullptr, GeneratorPtr.copyOrNull_cons_ok.mpr ⟨_, _, .inl ⟨hnull, rfl⟩, hrest, rfl⟩⟩
  · have hself : Copyable self := by
      refine copyOne_ok_iff.mp ⟨_, hself.resolve_left fun h ↦ ?_⟩
      exact (hr.symm rfl).ne_nullptr hnull h.1
    obtain ⟨c, hc⟩ := copyOne_ok_iff.mpr (hself.polled (hr.symm rfl) rfl)
    exact ⟨c, GeneratorPtr.copyOrNull_cons_ok.mpr ⟨_, _, .inr hc, hrest, rfl⟩⟩

/-- What is answered is nil, or an operation that the call came to, filled in. -/
theorem Answers.mayAsk {g : GeneratorPtr} {ctx : Context} {a : Answer} (ha : Answers g ctx a) :
    a.op.type = .kNil ∨
      ∃ sub o, MayAsk ctx g sub (.operation o) ∧ Filled (ctx.restrict sub) o a.op := by
  induction ha with
  | nullptr | listEmpty | onThreadsNil | timeLimitOver | timeLimitNil | staggerNil | mixEmpty
    | anyNil | userNil => exact .inl rfl
  | pending hfill _ | operation hfill _ => exact .inr ⟨[], _, .refl, hfill.filled⟩
  | user hnil hfill => exact .inr ⟨[], _, .user hnil, hfill.filled⟩
  | function _ ih => exact ih.imp id fun ⟨sub, o, h, hfill⟩ ↦ ⟨sub, o, h.of_function, hfill⟩
  | listPop ha hgen hnil hcopy _ _ ih₂ =>
    obtain ⟨c, hcopy⟩ := copyOrNull_polled ha.rebuilt ⟨_, hcopy⟩
    exact ih₂.imp id fun ⟨sub, o, h, hfill⟩ ↦ ⟨sub, o, .listRest ha hgen hnil hcopy h, hfill⟩
  | listFront _ _ _ _ ih | listSingle _ _ ih =>
    exact ih.imp id fun ⟨sub, o, h, hfill⟩ ↦ ⟨sub, o, .listFirst h, hfill⟩
  | validate _ _ ih | validateLast _ _ ih =>
    exact ih.imp id fun ⟨sub, o, h, hfill⟩ ↦ ⟨sub, o, .validate h, hfill⟩
  | onThreads _ _ ih =>
    exact ih.imp id fun ⟨sub, o, h, hfill⟩ ↦ ⟨_, o, .onThreads h, hfill⟩
  | timeLimitPending _ _ _ ih | timeLimit _ _ _ _ _ ih =>
    exact ih.imp id fun ⟨sub, o, h, hfill⟩ ↦ ⟨sub, o, .timeLimit h, hfill⟩
  | staggerPending _ _ _ _ ih =>
    exact ih.imp id fun ⟨sub, o, h, hfill⟩ ↦ ⟨sub, o, .stagger h, hfill⟩
  -- `Stagger` moves the time of the operation, and nothing else
  | stagger _ _ _ _ _ ih =>
    exact ih.imp id fun ⟨sub, o, h, hfill⟩ ↦ ⟨sub, o, .stagger h, hfill.raise _⟩
  | mix hgen _ _ _ ih =>
    exact ih.imp id fun ⟨sub, o, h, hfill⟩ ↦ ⟨sub, o, .mixMember hgen h, hfill⟩
  | mixDrop hgen ha hoff hcopy _ _ ih₂ =>
    exact ih₂.imp id fun ⟨sub, o, h, hfill⟩ ↦
      ⟨sub, o, .mixRest hgen ha hoff hcopy h.mix_lt h, hfill⟩
  | @any gens ctx as i a copy hlen _ hbest _ ih =>
    obtain ⟨hi, heq⟩ := List.getElem?_eq_some_iff.mp hbest.get
    have hi' : i < gens.length := hlen ▸ hi
    have hmember := ih i hi' hi
    rw [heq] at hmember
    exact hmember.imp id fun ⟨sub, o, h, hfill⟩ ↦ ⟨sub, o, .any (List.getElem_mem hi') h, hfill⟩

end Jepsen
