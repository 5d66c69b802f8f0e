import Jepsen.Generator.Exhaustion
import Jepsen.Generator.Idle
import Jepsen.Generator.Null
import Jepsen.Library.Interleave
import Mathlib.Logic.Relation

/-!
# `Mix` as an interleaving

A `Mix` asks one of its members, takes out members that have nothing to offer and copies the rest.
It takes an operation without a successor for nothing to offer, so that the last operation of a
member is lost, and divides by zero when it takes out its last member.  As long as no member comes
to a last operation, and one has something to offer, what it answers is an interleaving of what the
members answer when they are driven alone.
-/

namespace Jepsen

open Library Context GeneratorFactory
open GeneratorPtr (copyOne copyEach update)

/-- `generator::mix` of operations. -/
def mixOperations (ops : List Operation) : Gen GeneratorPtr := mix (ops.map .operation)

/-! ## Members -/

/-- A generator on its own: it is asked and goes on with the successor of its offer, or a copy takes
its place. -/
inductive Drives : Lts GeneratorPtr (Option (Context × Operation))
  | offered {g n ctx draws d a} (h : op n g ctx draws = .ok (a, d)) (hoff : a.Offer) :
      Drives g (some (ctx, a.op)) a.gen2
  | copied {g g'} (h : copyOne g = .ok g') : Drives g none g'

/-- The generator itself, a copy, a copy of a copy and so on. -/
abbrev Copies : GeneratorPtr → GeneratorPtr → Prop :=
  Relation.ReflTransGen fun g g' ↦ copyOne g = .ok g'

/-- The generator may answer nil in `ctx`. -/
def Exhausted (ctx : Context) (g : GeneratorPtr) : Prop :=
  ∃ n draws d a, op n g ctx draws = .ok (a, d) ∧ a.op.type = .kNil

/-- The generator does not come to an operation without a successor in `ctx`. -/
def NeverLast (ctx : Context) (g : GeneratorPtr) : Prop :=
  ∀ g', Copies g g' → ∀ n draws a d, op n g' ctx draws = .ok (a, d) →
    a.Offer ∨ a.op.type = .kNil

/-- Whatever the generator answers in `ctx` is an offer. -/
def AlwaysOffers (ctx : Context) (g : GeneratorPtr) : Prop :=
  ∀ g', Copies g g' → ∀ n draws a d, op n g' ctx draws = .ok (a, d) → a.Offer

theorem AlwaysOffers.not_exhausted {ctx : Context} {g : GeneratorPtr} (h : AlwaysOffers ctx g) :
    ¬ Exhausted ctx g := by
  rintro ⟨n, draws, d, a, hop, hnil⟩
  exact (Answer.offer_iff.mp (h g .refl n draws a d hop)).1 hnil

/-- What a `Mix` needs of its members to lose nothing in `ctx`. -/
structure Lively (ctx : Context) (gens : List GeneratorPtr) : Prop where
  never : ∀ g ∈ gens, NeverLast ctx g
  offers : ∃ g ∈ gens, AlwaysOffers ctx g

namespace Lively

variable {ctx : Context} {gens : List GeneratorPtr}

theorem ne_nil (h : Lively ctx gens) : gens ≠ [] := by
  obtain ⟨g, hg, -⟩ := h.offers
  exact List.ne_nil_of_mem hg

theorem copyEach {copied : List GeneratorPtr} (hcopy : copyEach gens = .ok copied)
    (h : Lively ctx gens) : Lively ctx copied := by
  have hcopies := GeneratorPtr.copyEach_pointwise (fun _ _ _ hone ↦ hone) hcopy
  constructor
  · intro c hc c' hcc'
    obtain ⟨g, hg, hone⟩ := hcopies.exists_left hc
    exact h.never g hg c' (.head hone hcc')
  · obtain ⟨g, hg, hoff⟩ := h.offers
    obtain ⟨c, hc, hone⟩ := hcopies.exists_right hg
    exact ⟨c, hc, fun c' hcc' ↦ hoff c' (.head hone hcc')⟩

-- A member with nothing to offer is not the one that has always something to offer.
theorem eraseIdx {n idx : Nat} {g : GeneratorPtr} {draws d : Draws} {a : Answer}
    (hget : gens[idx]? = some g) (hop : op n g ctx draws = .ok (a, d)) (hoff : ¬ a.Offer)
    (h : Lively ctx gens) : Lively ctx (gens.eraseIdx idx) := by
  refine ⟨fun g' hg' ↦ h.never g' (List.mem_of_mem_eraseIdx hg'), ?_⟩
  obtain ⟨g', hg', hoffers⟩ := h.offers
  obtain ⟨i, hi⟩ := List.mem_iff_getElem?.mp hg'
  refine ⟨g', List.mem_eraseIdx_iff_getElem?.mpr ⟨i, ?_, hi⟩, hoffers⟩
  rintro rfl
  obtain rfl := Option.some.inj (hget.symm.trans hi)
  exact hoff (hoffers g .refl n draws a d hop)

end Lively

/-- Members of a `Mix`, each with the position that it had at first. -/
abbrev Members := List (Nat × GeneratorPtr)

abbrev Turns : Lts Members (Option (Nat × Context × Operation)) :=
  Interleave Drives fun g ↦ ∃ ctx, Exhausted ctx g

/-! ## One call -/

-- Copying members takes turns that emit nothing.
theorem turns_of_copyEach (before after : Members) {ms : Members} {cs : List GeneratorPtr}
    (h : copyEach (ms.map Prod.snd) = .ok cs) :
    ∃ ms' ls, ms'.map Prod.snd = cs ∧
      Run Turns (before ++ ms ++ after) ls (before ++ ms' ++ after) ∧
      ls.reduceOption = [] := by
  induction ms generalizing before cs with
  | nil =>
    obtain rfl := Except.ok.inj h
    exact ⟨[], [], rfl, .nil _, rfl⟩
  | cons m ms ih =>
    obtain ⟨i, g⟩ := m
    obtain ⟨c, cs, hc, hcs, rfl⟩ := GeneratorPtr.copyEach_cons_ok.mp h
    obtain ⟨ms', ls, rfl, hrun, hls⟩ := ih (before ++ [(i, c)]) hcs
    -- Copying a member is a silent turn of it.
    have hstep :
        Turns (before ++ (i, g) :: (ms ++ after)) none (before ++ (i, c) :: (ms ++ after)) :=
      Interleave.step (l := none) (Drives.copied hc)
    refine ⟨(i, c) :: ms', none :: ls, rfl, ?_, by simpa using hls⟩
    simp only [List.append_assoc, List.cons_append, List.nil_append] at hrun ⊢
    exact .cons hstep hrun

theorem split_at {ms : Members} {idx : Nat} (h : idx < ms.length) :
    ∃ xs i g ys, ms = xs ++ (i, g) :: ys ∧ xs.length = idx := by
  refine ⟨ms.take idx, ms[idx].1, ms[idx].2, ms.drop (idx + 1), ?_, by simp; omega⟩
  rw [← List.drop_eq_getElem_cons h, List.take_append_drop]

section

variable {n : Nat} {ctx : Context} {draws d : Draws} {a : Answer} {xs ys : Members} {i : Nat}
  {g : GeneratorPtr} {copied : List GeneratorPtr}

/-- The turn of the member `i` that makes an offer, with the copies of the members before and after
it. -/
theorem turns_of_offer (hop : op n g ctx draws = .ok (a, d)) (hoff : a.Offer)
    (hcopy : copyEach ((xs.map Prod.snd ++ g :: ys.map Prod.snd).set xs.length a.self) =
      .ok copied) :
    ∃ ms ls, copied.set xs.length a.gen2 = ms.map Prod.snd ∧
      Run Turns (xs ++ (i, g) :: ys) ls ms ∧ ls.reduceOption = [(i, ctx, a.op)] := by
  have hself : (xs.map Prod.snd ++ g :: ys.map Prod.snd).set xs.length a.self =
      xs.map Prod.snd ++ a.self :: ys.map Prod.snd := by simp
  rw [hself, GeneratorPtr.copyEach_split] at hcopy
  obtain ⟨cs, hcs, hcopy₁⟩ := GeneratorPtr.except_bind_eq_ok.mp hcopy
  obtain ⟨c, -, hcopy₂⟩ := GeneratorPtr.except_bind_eq_ok.mp hcopy₁
  obtain ⟨cs', hcs', rfl⟩ := GeneratorPtr.except_map_eq_ok.mp hcopy₂
  -- the copy `c` of the member itself gives way to the successor of its offer
  obtain ⟨xs', ls, rfl, hxs, hls⟩ := turns_of_copyEach [] ((i, a.gen2) :: ys) hcs
  obtain ⟨ys', ls', rfl, hys, hls'⟩ := turns_of_copyEach (xs' ++ [(i, a.gen2)]) [] hcs'
  have hlen : xs.length = xs'.length := by
    simpa using (GeneratorPtr.copyEach_rebuilt true hcs).1
  have hstep : Turns (xs ++ (i, g) :: ys) (some (i, ctx, a.op)) (xs ++ (i, a.gen2) :: ys) :=
    Interleave.step (l := some (ctx, a.op)) (Drives.offered hop hoff)
  simp only [List.nil_append, List.append_nil, List.append_assoc, List.cons_append] at hxs hys
  refine ⟨xs' ++ (i, a.gen2) :: ys', some (i, ctx, a.op) :: (ls ++ ls'), by simp [hlen],
    .cons hstep (hxs.append hys), ?_⟩
  simp [List.reduceOption_append, hls, hls']

/-- A member with nothing to offer leaves, and the others are copied. -/
theorem turns_of_drop (hdone : Exhausted ctx g)
    (hcopy : copyEach ((xs.map Prod.snd ++ g :: ys.map Prod.snd).eraseIdx xs.length) =
      .ok copied) :
    ∃ ms ls, ms.map Prod.snd = copied ∧ Run Turns (xs ++ (i, g) :: ys) ls ms ∧
      ls.reduceOption = [] := by
  have hrest : (xs.map Prod.snd ++ g :: ys.map Prod.snd).eraseIdx xs.length =
      (xs ++ ys).map Prod.snd := by
    rw [List.eraseIdx_append_of_length_le (by simp), List.length_map, Nat.sub_self,
      List.eraseIdx_cons_zero, List.map_append]
  rw [hrest] at hcopy
  obtain ⟨ms, ls, hms, hcopies, hls⟩ := turns_of_copyEach [] [] hcopy
  rw [List.nil_append, List.append_nil, List.append_nil] at hcopies
  exact ⟨ms, none :: ls, hms, .cons (.drop ⟨ctx, hdone⟩) hcopies, by simpa using hls⟩

end

/-- With lively members a `Mix` has an offer, which it makes in the turn of one of them; the turns
of others are copies, and members that are done. -/
theorem mix_turn {n idx : Nat} {ms : Members} {ctx : Context} {draws d : Draws} {a : Answer}
    (hidx : idx < ms.length) (hlive : Lively ctx (ms.map Prod.snd))
    (h : op n (.mix idx (ms.map Prod.snd)) ctx draws = .ok (a, d)) :
    a.Offer ∧ ∃ i idx' ms' ls, a.gen2 = .mix idx' (ms'.map Prod.snd) ∧ idx' < ms'.length ∧
      Run Turns ms ls ms' ∧ ls.reduceOption = [(i, ctx, a.op)] := by
  induction n generalizing idx ms draws a d with
  | zero => cases h
  | succ n ih =>
    obtain ⟨xs, i, g, ys, rfl, rfl⟩ := split_at hidx
    rw [List.map_append, List.map_cons] at h hlive
    have hget : (xs.map Prod.snd ++ g :: ys.map Prod.snd)[xs.length]? = some g := by simp
    cases hop : op n g ctx draws with
    | error e =>
      rw [op_mix hget, Eval.bind_apply_error hop] at h
      cases h
    | ok r =>
      obtain ⟨b, d₁⟩ := r
      by_cases hoff : b.Offer
      · rw [op_mix_offer hget hop hoff] at h
        obtain ⟨copied, hcopied, h₁⟩ := Eval.lift_bind_eq_ok.mp h
        obtain ⟨next, d₃, hnext, h₂⟩ := Eval.bind_eq_ok.mp h₁
        obtain ⟨rfl, rfl⟩ := Prod.mk.inj (Except.ok.inj h₂)
        obtain ⟨ms', ls, hset, hturns, hemit⟩ := turns_of_offer hop hoff hcopied
        rw [hset] at hnext
        obtain ⟨idx', hidx', rfl⟩ := mix_ok hnext
        exact ⟨Answer.offer_iff.mpr ⟨(Answer.offer_iff.mp hoff).1, by simp⟩, i, idx', ms', ls, rfl,
          by simpa using hidx', hturns, hemit⟩
      · -- the member is not at its last operation, so that nothing is lost with it
        have hnil : b.op.type = .kNil :=
          (hlive.never g (by simp) g .refl n draws b d₁ hop).resolve_left hoff
        rw [op_mix_drop hget hop hoff] at h
        obtain ⟨copied, hcopied, h₁⟩ := Eval.lift_bind_eq_ok.mp h
        obtain ⟨next, d₃, hnext, h₂⟩ := Eval.bind_eq_ok.mp h₁
        obtain ⟨b', d₄, hb', h₃⟩ := Eval.bind_eq_ok.mp h₂
        obtain ⟨rfl, rfl⟩ := Prod.mk.inj (Except.ok.inj h₃)
        have hkept := (hlive.eraseIdx hget hop hoff).copyEach hcopied
        obtain ⟨ms', ls, rfl, hdrop, hls⟩ :=
          turns_of_drop (i := i) ⟨n, draws, d₁, b, hop, hnil⟩ hcopied
        obtain ⟨idx', hidx', rfl⟩ := mix_ok hnext
        obtain ⟨hoff', j, idx'', ms'', ls', hgen, hlt, hrun, hemit⟩ :=
          ih (by simpa using hidx') hkept hb'
        exact ⟨hoff', j, idx'', ms'', ls ++ ls', hgen, hlt, hdrop.append hrun, by
          simp [List.reduceOption_append, hls, hemit]⟩

-- Only a copy can fault in between, and there it is a null pointer.
theorem mix_copied_error {gens : List GeneratorPtr} {k : List GeneratorPtr → Gen Answer} {e : Fault}
    {draws : Draws} (h : (liftM (copyEach gens) >>= k) draws = .error e) (he : e ≠ .nullPointer) :
    ∃ copied, copyEach gens = .ok copied ∧ k copied draws = .error e := by
  rcases Eval.bind_eq_error.mp h with hcopy | ⟨copy, d, hcopy, hk⟩
  · exact absurd (copyEach_error (Eval.lift_eq_error.mp hcopy)) he
  · obtain ⟨copied, hcopied, heq⟩ := Eval.lift_eq_ok.mp hcopy
    obtain ⟨rfl, rfl⟩ := Prod.mk.inj heq
    exact ⟨copy, hcopied, hk⟩

-- The copies of the members of a `Mix` in which one has been put.
theorem copied_set_ne_nil {idx : Nat} {gens copied : List GeneratorPtr} {g : GeneratorPtr}
    (hidx : idx < gens.length) (hcopy : copyEach gens = .ok copied) : copied.set idx g ≠ [] := by
  refine List.ne_nil_of_length_pos ?_
  rw [List.length_set, ← (GeneratorPtr.copyEach_rebuilt true hcopy).1]
  omega

/-- With lively members a `Mix` does not divide by zero and stays within its members, unless one of
them does not. -/
theorem mix_error {n idx : Nat} {gens : List GeneratorPtr} {ctx : Context} {draws : Draws}
    {e : Fault} (hidx : idx < gens.length) (hlive : Lively ctx gens)
    (h : op n (.mix idx gens) ctx draws = .error e) (he : e = .divisionByZero ∨ e = .outOfRange) :
    ∃ g ∈ gens, ∃ g' n' draws', Copies g g' ∧ op n' g' ctx draws' = .error e := by
  have hnull : e ≠ .nullPointer := by
    rintro rfl
    simp at he
  induction n generalizing idx gens draws with
  | zero =>
    obtain rfl := Except.error.inj h
    simp at he
  | succ n ih =>
    have hget : gens[idx]? = some gens[idx] := List.getElem?_eq_getElem hidx
    cases hop : op n gens[idx] ctx draws with
    | error e' =>
      rw [op_mix hget, Eval.bind_apply_error hop] at h
      obtain rfl := Except.error.inj h
      exact ⟨_, List.getElem_mem hidx, _, n, draws, .refl, hop⟩
    | ok r =>
      obtain ⟨a, d⟩ := r
      by_cases hoff : a.Offer
      · rw [op_mix_offer hget hop hoff] at h
        obtain ⟨copied, hcopied, h₁⟩ := mix_copied_error h hnull
        -- The index is drawn below the number of members, and there is one.
        have hne := copied_set_ne_nil (g := a.gen2) (by simpa using hidx) hcopied
        rw [Eval.bind_apply_ok (mix_eq hne d)] at h₁
        cases h₁
      · rw [op_mix_drop hget hop hoff] at h
        obtain ⟨copied, hcopied, h₁⟩ := mix_copied_error h hnull
        have hkept := (hlive.eraseIdx hget hop hoff).copyEach hcopied
        rw [Eval.bind_apply_ok (mix_eq hkept.ne_nil d)] at h₁
        rcases Eval.bind_eq_error.mp h₁ with h₂ | ⟨b, d', -, h₂⟩
        -- the fault comes from a copy of another member
        · obtain ⟨c, hc, c', n', draws', hcopies, hfault⟩ :=
            ih (Nat.mod_lt _ (List.length_pos_iff.mpr hkept.ne_nil)) hkept h₂
          obtain ⟨g, hg, hone⟩ :=
            (GeneratorPtr.copyEach_pointwise (fun _ _ _ hone ↦ hone) hcopied).exists_left hc
          exact ⟨g, List.mem_of_mem_eraseIdx hg, c', n', draws', .head hone hcopies, hfault⟩
        · cases h₂

/-- The generator can be copied again and again, and each copy answers. -/
def Responds (ctx : Context) (g : GeneratorPtr) : Prop :=
  ∀ g', Copies g g' → Copyable g' ∧ ∀ draws, ∃ n r, op n g' ctx draws = .ok r

theorem Responds.copyEach {ctx : Context} {gens copied : List GeneratorPtr}
    (hcopy : copyEach gens = .ok copied) (h : ∀ g ∈ gens, Responds ctx g) :
    ∀ c ∈ copied, Responds ctx c := by
  intro c hc c' hcc'
  obtain ⟨g, hg, hone⟩ :=
    (GeneratorPtr.copyEach_pointwise (fun _ _ _ hone ↦ hone) hcopy).exists_left hc
  exact h g hg c' (.head hone hcc')

/-- With lively members that respond, a `Mix` answers. -/
theorem mix_returns {idx : Nat} {gens : List GeneratorPtr} {ctx : Context}
    (hidx : idx < gens.length) (hlive : Lively ctx gens) (h : ∀ g ∈ gens, Responds ctx g)
    (draws : Draws) : ∃ n r, op n (.mix idx gens) ctx draws = .ok r := by
  -- each member taken out leaves a shorter `Mix`
  induction hm : gens.length generalizing idx gens draws with
  | zero => omega
  | succ m ih =>
    have hget : gens[idx]? = some gens[idx] := List.getElem?_eq_getElem hidx
    obtain ⟨hcan, hans⟩ := h _ (List.getElem_mem hidx) _ .refl
    obtain ⟨n, ⟨a, d⟩, hop⟩ := hans draws
    by_cases hoff : a.Offer
    · have hcopyable : ∀ g ∈ gens.set idx a.self, Copyable g := by
        refine forall_mem_set (fun g hg ↦ (h g hg g .refl).1) ?_
        exact hcan.polled (op_answers n _ ctx draws a d hop).rebuilt rfl
      obtain ⟨copied, hcopied⟩ := (copyEach_ok_iff fun _ _ ↦ copyOne_ok_iff).mpr hcopyable
      have hne := copied_set_ne_nil (g := a.gen2) (by simpa using hidx) hcopied
      refine ⟨n + 1, ?_⟩
      rw [op_mix_offer hget hop hoff, Eval.lift_bind_apply_ok hcopied,
        Eval.bind_apply_ok (mix_eq hne d)]
      exact ⟨_, rfl⟩
    · have hothers : ∀ g ∈ gens.eraseIdx idx, Responds ctx g :=
        fun g hg ↦ h g (List.mem_of_mem_eraseIdx hg)
      obtain ⟨copied, hcopied⟩ := (copyEach_ok_iff fun _ _ ↦ copyOne_ok_iff).mpr
        fun g hg ↦ (hothers g hg g .refl).1
      have hkept := (hlive.eraseIdx hget hop hoff).copyEach hcopied
      have hlen : copied.length = m := by
        rw [← (GeneratorPtr.copyEach_rebuilt true hcopied).1, List.length_eraseIdx, if_pos hidx, hm]
        omega
      obtain ⟨n', ⟨b, d'⟩, hb⟩ := ih (Nat.mod_lt _ (List.length_pos_iff.mpr hkept.ne_nil)) hkept
        (Responds.copyEach hcopied hothers) (fun i ↦ d (i + 1)) hlen
      have hop' := op_mono hop (Nat.le_max_left n n')
      have hb' := op_mono hb (Nat.le_max_right n n')
      refine ⟨max n n' + 1, ?_⟩
      rw [op_mix_drop hget hop' hoff, Eval.lift_bind_apply_ok hcopied,
        Eval.bind_apply_ok (mix_eq hkept.ne_nil d), Eval.bind_apply_ok hb']
      exact ⟨_, rfl⟩

/-! ## Functions -/

/-- What a function becomes when it is driven. -/
inductive Streams (f : FunctionGenerator) : GeneratorPtr → Prop
  | function : Streams f (.function f)
  | taken : Streams f (.list [.nullptr, .function f])
  | pending {o} (ho : o.type ≠ .kNil) : Streams f (.list [.operation o, .function f])

namespace Streams

variable {f : FunctionGenerator} {g : GeneratorPtr} {ctx : Context} {a : Answer}

theorem copyOne_eq (h : Streams f g) : copyOne g = .ok g := by
  cases h with
  | function | taken | pending => rfl

theorem copies {g' : GeneratorPtr} (h : Streams f g) (hcopies : Copies g g') : Streams f g' := by
  induction hcopies with
  | refl => exact h
  | tail _ hone ih =>
    obtain rfl := Except.ok.inj (ih.copyOne_eq.symm.trans hone)
    exact ih

-- A list that starts with an operation keeps the function behind it.
theorem of_list {o : Operation} (ho : o.type ≠ .kNil)
    (ha : Answers (.list [.operation o, .function f]) ctx a) : a.Offer ∧ Streams f a.gen2 := by
  cases ha with
  | listPop ha _ hnil => exact absurd hnil (ha.operation_ne_nil ho)
  | listFront ha hkeep hcopy =>
    have hne := ha.operation_ne_nil ho
    cases ha with
    | pending =>
      cases hcopy
      exact ⟨Answer.offer_iff.mpr ⟨hne, by simp⟩, .pending ho⟩
    | operation =>
      cases hcopy
      exact ⟨Answer.offer_iff.mpr ⟨hne, by simp⟩, .taken⟩

theorem answers (hf : f.NeverNil) (h : Streams f g) (ha : Answers g ctx a) :
    a.Offer ∧ Streams f a.gen2 := by
  have hfunction {a : Answer} (ha : Answers (.function f) ctx a) : a.Offer ∧ Streams f a.gen2 := by
    cases ha with
    | function ha =>
      have hlist := of_list (hf _ _) ha
      exact hlist
  cases h with
  | function => exact hfunction ha
  | pending ho => exact of_list ho ha
  | taken =>
    cases ha with
    | listPop ha _ _ hcopy hb =>
      cases ha
      cases hcopy
      -- the list of the function alone
      cases hb with
      | listPop hb hgen => exact absurd hgen (Answer.offer_iff.mp (hfunction hb).1).2
      | listFront _ _ _ hrest => exact absurd rfl hrest
      | listSingle hb =>
        have hlast := hfunction hb
        exact hlast
    | listFront ha hkeep =>
      cases ha
      exact absurd ⟨rfl, rfl⟩ hkeep

end Streams

/-- The generator is a function that never answers nil, or what it becomes. -/
def Streaming (g : GeneratorPtr) : Prop := ∃ f : FunctionGenerator, f.NeverNil ∧ Streams f g

theorem Streaming.drives {g g' : GeneratorPtr} {l : Option (Context × Operation)}
    (hstep : Drives g l g') (h : Streaming g) : Streaming g' := by
  obtain ⟨f, hf, hs⟩ := h
  cases hstep with
  | offered hop => exact ⟨f, hf, (hs.answers hf (op_answers _ _ _ _ _ _ hop)).2⟩
  | copied hone => exact ⟨f, hf, hs.copies (.single hone)⟩

theorem Streaming.alwaysOffers {g : GeneratorPtr} (h : Streaming g) (ctx : Context) :
    AlwaysOffers ctx g := by
  obtain ⟨f, hf, hs⟩ := h
  intro g' hcopies n draws a d hop
  exact ((hs.copies hcopies).answers hf (op_answers n _ _ _ _ _ hop)).1

/-- Members that are functions are lively in every context. -/
theorem lively_of_streaming {gens : List GeneratorPtr} (hne : gens ≠ [])
    (h : ∀ g ∈ gens, Streaming g) (ctx : Context) : Lively ctx gens where
  never g hg g' hcopies n draws a d hop :=
    .inl ((h g hg).alwaysOffers ctx g' hcopies n draws a d hop)
  offers := by
    obtain ⟨g, hg⟩ := List.exists_mem_of_ne_nil gens hne
    exact ⟨g, hg, (h g hg).alwaysOffers ctx⟩

/-! ## Runs -/

/-- A generator under the runner: it is asked and goes on with the successor, or it is updated. -/
inductive Driving : Lts GeneratorPtr (Option (Context × Operation))
  | asked {g n ctx draws d a} (h : op n g ctx draws = .ok (a, d)) :
      Driving g (some (ctx, a.op)) a.gen2
  | updated {g g' ctx event} (h : update g ctx event = .ok g') : Driving g none g'

/-- A `Mix` is asked only in contexts in which its members are lively. -/
abbrev LivelyDriving : Lts GeneratorPtr (Option (Context × Operation)) :=
  Lts.restrict Driving fun g l ↦ ∀ c ∈ l, Lively c.1 g.members

/-- Driving a `Mix` is a run of turns of its members. -/
theorem turns_of_driving {g g' : GeneratorPtr} {ls : List (Option (Context × Operation))}
    (hrun : Run LivelyDriving g ls g') {idx : Nat} (ms : Members)
    (hg : g = .mix idx (ms.map Prod.snd)) (hidx : idx < ms.length) :
    ∃ idx' ms' ts, g' = .mix idx' (ms'.map Prod.snd) ∧ idx' < ms'.length ∧ Run Turns ms ts ms' ∧
      ts.reduceOption.map Prod.snd = ls.reduceOption := by
  induction hrun generalizing idx ms with
  | nil => exact ⟨idx, ms, [], hg, hidx, .nil ms, rfl⟩
  | cons hstep _ ih =>
    subst hg
    obtain ⟨hlive, hdrive⟩ := hstep
    cases hdrive with
    | asked hop =>
      obtain ⟨-, i, idx₁, ms₁, ts₁, hgen, hlt, hturns₁, hemit⟩ :=
        mix_turn hidx (hlive _ rfl) hop
      obtain ⟨idx₂, ms₂, ts₂, rfl, hlt₂, hturns₂, hrest⟩ := ih ms₁ hgen hlt
      refine ⟨idx₂, ms₂, ts₁ ++ ts₂, rfl, hlt₂, hturns₁.append hturns₂, ?_⟩
      simp [List.reduceOption_append, hemit, hrest]
    | updated hupdate =>
      -- `Mix::update` ignores the event
      obtain rfl := Except.ok.inj hupdate
      obtain ⟨idx₂, ms₂, ts₂, rfl, hlt₂, hturns₂, hrest⟩ := ih ms rfl hidx
      exact ⟨idx₂, ms₂, ts₂, rfl, hlt₂, hturns₂, by simpa using hrest⟩

/-- A call on a `Mix` of `gens`: it answers nil when all members are exhausted, it divides by zero
or leaves a range only when a member does, and it answers when its members do. -/
structure CleanCall (ctx : Context) (idx : Nat) (gens : List GeneratorPtr) : Prop where
  nil_iff : ∀ n draws a d, op n (.mix idx gens) ctx draws = .ok (a, d) →
    (a.op.type = .kNil ↔ ∀ g ∈ gens, Exhausted ctx g)
  fault : ∀ n draws e, op n (.mix idx gens) ctx draws = .error e →
    e = .divisionByZero ∨ e = .outOfRange →
    ∃ g ∈ gens, ∃ g' n' draws', Copies g g' ∧ op n' g' ctx draws' = .error e
  returns : (∀ g ∈ gens, Responds ctx g) → ∀ draws, ∃ n r, op n (.mix idx gens) ctx draws = .ok r

theorem Lively.cleanCall {ctx : Context} {idx : Nat} {ms : Members} (hidx : idx < ms.length)
    (h : Lively ctx (ms.map Prod.snd)) : CleanCall ctx idx (ms.map Prod.snd) where
  nil_iff n draws a d hop := by
    obtain ⟨hoff, -⟩ := mix_turn hidx h hop
    obtain ⟨g, hg, hoffers⟩ := h.offers
    exact iff_of_false (Answer.offer_iff.mp hoff).1 fun hall ↦ hoffers.not_exhausted (hall g hg)
  fault n draws e hop he := mix_error (by simpa using hidx) h hop he
  returns hresponds draws := mix_returns (by simpa using hidx) h hresponds draws

/-- A `Mix` of functions that never answer nil is lively in every run. -/
theorem livelyDriving_of_streaming {g g' : GeneratorPtr} {ls : List (Option (Context × Operation))}
    (hrun : Run Driving g ls g') {idx : Nat} (ms : Members) (hg : g = .mix idx (ms.map Prod.snd))
    (hidx : idx < ms.length) (h : ∀ m ∈ ms, Streaming m.2) : Run LivelyDriving g ls g' := by
  induction hrun generalizing idx ms with
  | nil => exact .nil _
  | cons hdrive _ ih =>
    subst hg
    have hlive (ctx : Context) : Lively ctx (ms.map Prod.snd) := by
      refine lively_of_streaming (List.ne_nil_of_length_pos (by simpa using by omega)) ?_ ctx
      simpa using fun g i hm ↦ h (i, g) hm
    cases hdrive with
    | asked hop =>
      obtain ⟨-, i, idx₁, ms₁, ts₁, hgen, hlt, hturns, -⟩ := mix_turn hidx (hlive _) hop
      -- Turns leave streaming members streaming.
      have hkept : ∀ m ∈ ms₁, Streaming m.2 :=
        hturns.preserves (P := fun ms : Members ↦ ∀ m ∈ ms, Streaming m.2)
          (fun _ _ _ hstep ↦ hstep.forall_mem fun _ _ _ ↦ Streaming.drives) h
      refine .cons ⟨fun c hc ↦ ?_, .asked hop⟩ (ih ms₁ hgen hlt hkept)
      obtain rfl := Option.some.inj hc
      exact hlive _
    | updated hupdate =>
      obtain rfl := Except.ok.inj hupdate
      exact .cons ⟨fun c hc ↦ absurd hc (by simp), .updated hupdate⟩ (ih ms rfl hidx h)

/-- What a `Mix` of `gens` has offered is an interleaving: the member that each operation is from is
known, and those of one member are what it offers on its own, until it is as it is now in `ms` or
exhausted. -/
structure Interleaves (gens : List GeneratorPtr) (calls : List (Context × Operation))
    (ms : Members) (es : List (Nat × Context × Operation)) : Prop where
  emitted : es.map Prod.snd = calls
  owner : ∀ e ∈ es, e.1 < gens.length
  member : ∀ i (hi : i < gens.length), ∃ os s, Run Drives gens[i] os s ∧
    os.reduceOption = (es.filter (·.1 = i)).map Prod.snd ∧
    ((i, s) ∈ ms ∨ ∃ ctx, Exhausted ctx s)

/-- A `Mix` that is driven while its members are lively interleaves them, and answers cleanly as
long as they are. -/
theorem mix_interleaves (gens : List GeneratorPtr) (draws d : Draws) (g g' : GeneratorPtr)
    (ls : List (Option (Context × Operation))) (hmix : mix gens draws = .ok (g, d))
    (hrun : Run LivelyDriving g ls g') :
    ∃ (idx : Nat) (ms : Members), g' = .mix idx (ms.map Prod.snd) ∧ idx < ms.length ∧
      (∃ es, Interleaves gens ls.reduceOption ms es) ∧
      ∀ ctx, Lively ctx (ms.map Prod.snd) → CleanCall ctx idx (ms.map Prod.snd) := by
  obtain ⟨idx, hidx, rfl⟩ := mix_ok hmix
  have hfst : ((List.range gens.length).zip gens).map Prod.fst = List.range gens.length :=
    List.map_fst_zip (by simp)
  have hsnd : ((List.range gens.length).zip gens).map Prod.snd = gens :=
    List.map_snd_zip (by simp)
  obtain ⟨idx', ms, ts, rfl, hlt, hturns, hemit⟩ :=
    turns_of_driving hrun ((List.range gens.length).zip gens) (by rw [hsnd]) (by simpa using hidx)
  refine ⟨idx', ms, rfl, hlt, ⟨ts.reduceOption, hemit, fun e he ↦ ?_, fun i hi ↦ ?_⟩,
    fun ctx hlive ↦ hlive.cleanCall hlt⟩
  · have howner := hturns.owner_mem e he
    rw [hfst] at howner
    exact List.mem_range.mp howner
  · have hmem : (i, gens[i]) ∈ (List.range gens.length).zip gens := by
      refine List.mem_iff_getElem.mpr ⟨i, by simpa using hi, ?_⟩
      simp
    exact hturns.of_owner (by rw [hfst]; exact List.nodup_range) hmem

/-- Two functions that offer reads, the second one asked. -/
theorem mix_interleaves_reads :
    ∃ ls g', Run LivelyDriving (.mix 1 [.function reads, .function reads]) ls g' ∧
      ls.reduceOption.length = 1 ∧ ∃ (idx : Nat) (ms : Members),
        g' = .mix idx (ms.map Prod.snd) ∧ idx < ms.length ∧
        (∃ es, Interleaves [.function reads, .function reads] ls.reduceOption ms es) ∧
        ∀ ctx, Lively ctx (ms.map Prod.snd) → CleanCall ctx idx (ms.map Prod.snd) := by
  have hreads : Streaming (.function reads) := by
    refine ⟨reads, fun ctx k hnil ↦ ?_, .function⟩
    cases hnil
  have hop : ∃ a d, op 4 (.mix 1 [.function reads, .function reads]) (oneClient 0) (fun _ ↦ 0) =
      .ok (a, d) :=
    ⟨_, _, rfl⟩
  obtain ⟨a, d, hop⟩ := hop
  have hrun : Run LivelyDriving (.mix 1 [.function reads, .function reads])
      [some (oneClient 0, a.op)] a.gen2 :=
    livelyDriving_of_streaming (.single (.asked hop)) [(0, .function reads), (1, .function reads)]
      rfl (by decide) (by simpa using hreads)
  exact ⟨_, _, hrun, rfl, mix_interleaves [.function reads, .function reads] (fun _ ↦ 1)
    (fun _ ↦ 1) _ _ _ rfl hrun⟩

/-- A `Mix` of one operation divides by zero when it is asked, and one that comes to the only
operation of a list goes on with the other members. -/
theorem mix_loses_operation :
    (∃ g d, mixOperations [OperationFactory.read .null] (fun _ ↦ 0) = .ok (g, d) ∧
      ∀ n, op (n + 2) g (oneClient 0) (fun _ ↦ 0) = .error .divisionByZero) ∧
    (∃ a d, op 5 (.mix 0 [createGenerator [OperationFactory.write .null .null], .function reads])
        (oneClient 0) (fun _ ↦ 0) = .ok (a, d) ∧
      a.op = { OperationFactory.read .null with process := 0 } ∧
      a.gen2 = .mix 0 [.list [.nullptr, .function reads]]) :=
  ⟨⟨_, _, rfl, fun _ ↦ rfl⟩, _, _, rfl, rfl, rfl⟩

end Jepsen
