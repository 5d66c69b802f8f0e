import Jepsen.Generator.Exhaustion
import Jepsen.Generator.Realized

/-!
# Calls that are never answered

A call of `generator::op` is answered on all draws exactly when it comes to no call that breaks: one
that faults in its own method, or a function that answers nil for a free thread and is asked again.
-/

namespace Jepsen

open Library Library.Eval Context GeneratorFactory
open GeneratorPtr (copyOne copyEach copyOrNull members writeBackEach Rebuilt)

/-- Some draws make the method of the generator go wrong in `ctx`. -/
inductive Breaks : Context → GeneratorPtr → Prop
  -- `workers.at` of a free thread without a worker
  | operation {ctx o} (h : ¬ ctx.Staffed) : Breaks ctx (.operation o)
  -- the list drops the nil answer and asks the function again
  | function {ctx f k r} (hfill : MayFill ctx (f.func ctx k) r) (hnil : r.type = .kNil) :
      Breaks ctx (.function f)
  -- `copyOne` of the members, which meets a null pointer
  | list {ctx first rest g} (hg : g ∈ first :: rest) (hne : g ≠ .nullptr) (hcopy : ¬ Copyable g) :
      Breaks ctx (.list (first :: rest))
  -- `rand() % dt`
  | stagger {ctx next_time gen a} (ha : Answers gen ctx a) (hoff : a.Offer)
      (hp : a.op.type ≠ .kPending) : Breaks ctx (.stagger 0 next_time gen)
  -- `gens[idx]`
  | mixIndex {ctx idx} {gens : List GeneratorPtr} (hne : gens ≠ []) (hidx : gens.length ≤ idx) :
      Breaks ctx (.mix idx gens)
  | mixCopy {ctx idx} {gens : List GeneratorPtr} {gen a g} (hgen : gens[idx]? = some gen)
      (ha : Answers gen ctx a) (hoff : a.Offer) (hg : g ∈ gens) (hcopy : ¬ Copyable g) :
      Breaks ctx (.mix idx gens)
  | mixDrop {ctx idx} {gens : List GeneratorPtr} {gen a g} (hgen : gens[idx]? = some gen)
      (ha : Answers gen ctx a) (hoff : ¬ a.Offer) (hg : g ∈ gens.eraseIdx idx)
      (hcopy : ¬ Copyable g) : Breaks ctx (.mix idx gens)
  -- `rand() % gens.size()`, of the last member that is dropped
  | mixLast {ctx gen a} (ha : Answers gen ctx a) (hoff : ¬ a.Offer) : Breaks ctx (.mix 0 [gen])
  | any {ctx} {gens : List GeneratorPtr} {gen a g} (hgen : gen ∈ gens) (ha : Answers gen ctx a)
      (hoff : a.Offer) (hg : g ∈ gens) (hcopy : ¬ Copyable g) : Breaks ctx (.any gens)

/-- The call on `g` in `ctx` comes to no call that breaks. -/
def Unbroken (ctx : Context) (g : GeneratorPtr) : Prop :=
  ∀ sub g', MayAsk ctx g sub g' → ¬ Breaks (ctx.restrict sub) g'

/-! ## Unbroken calls are answered -/

/-- The call is answered, whatever is drawn. -/
abbrev Answered (ask : Ask) (ctx : Context) (g : GeneratorPtr) : Prop :=
  Yields (fun _ ↦ False) (Answers g ctx) (ask g ctx)

namespace Unbroken

variable {ctx : Context} {n : Nat}

theorem staffed {o : Operation} (h : Unbroken ctx (.operation o)) : ctx.Staffed := by
  by_contra hs
  exact h [] _ .refl (.operation hs)

theorem operation {o : Operation} (h : Unbroken ctx (.operation o)) (n : Nat) :
    Answered (op (n + 1)) ctx (.operation o) :=
  Yields.of_ok (OperationGenerator.op_yields (.inr h.staffed) o) (op_answers (n + 1) _ ctx)

theorem function {f : FunctionGenerator} (h : Unbroken ctx (.function f)) :
    Yields (fun _ ↦ False) (fun _ ↦ True) (FunctionGenerator.op (op (n + 2)) f ctx) := by
  have hcopy : Outcome (fun _ ↦ False) (fun copy ↦ copy = .function f) (copyOne (.function f)) :=
    rfl
  refine rand_yields.bind fun k _ ↦ (Yields.lift hcopy).bind fun copy hcopy ↦ ?_
  rw [hcopy]
  have hfirst : Unbroken ctx (.operation (f.func ctx k)) := by
    intro sub g' hmay
    cases hmay
    exact h [] _ .function
  have hlist : Yields (fun _ ↦ False) (fun _ ↦ True)
      (op (n + 2) (.list [.operation (f.func ctx k), .function f]) ctx) := by
    refine ListGenerator.op_yields (by simpa using ⟨Fit.operation, Fit.function⟩)
      (hfirst.operation n) fun a copy ha _ hnil _ ↦ ?_
    -- a nil answer breaks the function
    cases ha with
    | pending hfill hp => exact absurd (hp.symm.trans hnil) (by decide)
    | operation hfill _ => exact absurd (.function hfill hnil) (h [] _ .refl)
  exact hlist.bind fun _ _ ↦ .pure trivial

theorem list {first : GeneratorPtr} {rest : List GeneratorPtr}
    (h : Unbroken ctx (.list (first :: rest))) {ask : Ask} (hfirst : Answered ask ctx first)
    (hrest : ∀ copy, copyOrNull rest = .ok copy → Unbroken ctx (.list copy) →
      Yields (fun _ ↦ False) (fun _ ↦ True) (ask (.list copy) ctx)) :
    Yields (fun _ ↦ False) (fun _ ↦ True) (ListGenerator.op ask (first :: rest) ctx) := by
  have hcopyable : ∀ g ∈ first :: rest, g ≠ .nullptr → Copyable g := fun g hg hne ↦
    not_not.mp fun hcopy ↦ h [] _ .refl (.list hg hne hcopy)
  refine hfirst.bind fun a ha ↦ ?_
  obtain ⟨hfirst, hothers⟩ := List.forall_mem_cons.mp hcopyable
  have hself : a.self ≠ .nullptr → Copyable a.self := fun hne ↦
    (hfirst (ha.rebuilt.ne_nullptr hne)).polled ha.rebuilt rfl
  obtain ⟨copy, hcopy⟩ := (copyOrNull_ok_iff fun g _ ↦ copyOne_ok_iff).mpr
    (List.forall_mem_cons.mpr ⟨hself, hothers⟩)
  refine .lift_bind hcopy ?_
  split
  · rename_i hpop
    obtain ⟨c, copy, -, hcopied, rfl⟩ := GeneratorPtr.copyOrNull_cons_ok.mp hcopy
    refine (hrest copy hcopied fun sub g' hmay ↦ h sub g' ?_).bind fun _ _ ↦ .pure trivial
    obtain ⟨c', hcopy'⟩ := copyOrNull_polled ha.rebuilt ⟨c, hcopy⟩
    exact .listRest ha (GeneratorPtr.isNull_iff.mp hpop.1) hpop.2 hcopy' hmay
  · split
    · exact .pure trivial
    · exact .pure trivial

theorem mix {idx : Nat} {gens : List GeneratorPtr} (h : Unbroken ctx (.mix idx gens)) {ask : Ask}
    (hmember : ∀ g, gens[idx]? = some g → Answered ask ctx g)
    (hothers : ∀ g idx' copy, gens[idx]? = some g → copyEach (gens.eraseIdx idx) = .ok copy →
      Unbroken ctx (.mix idx' copy) →
      Yields (fun _ ↦ False) (fun _ ↦ True) (ask (.mix idx' copy) ctx)) :
    Yields (fun _ ↦ False) (fun _ ↦ True) (Mix.op ask idx gens ctx) := by
  unfold Mix.op
  split
  · exact .pure trivial
  · rename_i hempty
    cases hgen : gens[idx]? with
    | none =>
      exact absurd (.mixIndex (by simpa using hempty) (List.getElem?_eq_none_iff.mp hgen))
        (h [] _ .refl)
    | some gen =>
      refine (hmember gen hgen).bind fun a ha ↦ ?_
      split
      · rename_i hoff
        have hcopyable : ∀ g ∈ gens, Copyable g := fun g hg ↦
          not_not.mp fun hcopy ↦ h [] _ .refl (.mixCopy hgen ha hoff hg hcopy)
        obtain ⟨copy, hcopy⟩ := (copyEach_polled
          (.set (fun g ↦ .refl g) hgen ha.rebuilt)).mpr hcopyable
        refine .lift_bind hcopy ?_
        have hlen := (GeneratorPtr.copyEach_rebuilt true hcopy).1
        have hne : copy.set idx a.gen2 ≠ [] := by
          rw [← List.length_pos_iff, List.length_set, ← hlen, List.length_set, List.length_pos_iff]
          exact List.ne_nil_of_mem (List.mem_of_getElem? hgen)
        exact (mix_yields (.inr hne)).bind fun _ _ ↦ .pure trivial
      · rename_i hoff
        have hcopyable : ∀ g ∈ gens.eraseIdx idx, Copyable g := fun g hg ↦
          not_not.mp fun hcopy ↦ h [] _ .refl (.mixDrop hgen ha hoff hg hcopy)
        obtain ⟨copy, hcopy⟩ := (copyEach_ok_iff fun g _ ↦ copyOne_ok_iff).mpr hcopyable
        refine .lift_bind hcopy ?_
        have hne : copy ≠ [] := by
          rintro rfl
          have hlen := (GeneratorPtr.copyEach_rebuilt true hcopy).1
          have hlt : idx < gens.length := (List.getElem?_eq_some_iff.mp hgen).1
          rw [List.length_eraseIdx_of_lt hlt, List.length_nil] at hlen
          obtain ⟨g, rfl⟩ := List.length_eq_one_iff.mp (show gens.length = 1 by omega)
          obtain rfl : idx = 0 := by
            rw [List.length_singleton] at hlt
            omega
          obtain rfl : g = gen := by simpa using hgen
          exact h [] _ .refl (.mixLast ha hoff)
        refine (mix_yields (.inr hne)).bind fun m hm ↦ ?_
        obtain ⟨idx', hlt, rfl⟩ := hm
        refine (hothers gen idx' copy hgen hcopy fun sub g' hmay ↦ h sub g' ?_).bind
          fun _ _ ↦ .pure trivial
        exact .mixRest hgen ha hoff hcopy hlt hmay

theorem any {gens : List GeneratorPtr} (h : Unbroken ctx (.any gens)) {ask : Ask}
    (hmember : ∀ g ∈ gens, Answered ask ctx g) :
    Yields (fun _ ↦ False) (fun _ ↦ True) (Any.op ask gens ctx) := by
  have hpoll : Yields (fun _ ↦ False)
      (fun p ↦ Pointwise (fun g a ↦ Answers g ctx a) gens p.2 ∧ Any.Tracks p.2 p.1)
      (Any.poll ask ctx 0 gens {}) := fun s ↦
    (Any.poll_yields hmember 0 {} s).mono fun p hok hanswers ↦
      ⟨hanswers, (Any.tracks_init.poll (R := fun _ _ ↦ True) (fun _ _ _ _ _ ↦ trivial) hok).2⟩
  refine hpoll.bind fun ⟨loop, answers⟩ ⟨hanswers, htracks⟩ ↦ ?_
  dsimp only at hanswers htracks ⊢
  split
  · rename_i hoff
    rcases htracks with ⟨-, hgen, -⟩ | ⟨i, a, hbest, -⟩
    · simp [notNil, hgen, GeneratorPtr.isNull] at hoff
    · obtain ⟨gen, hgen, ha⟩ := hanswers.exists_left hbest.mem
      have hcopyable : ∀ g ∈ gens, Copyable g := fun g hg ↦
        not_not.mp fun hcopy ↦ h [] _ .refl (.any hgen ha hbest.offer hg hcopy)
      obtain ⟨copy, hcopy⟩ := (copyEach_polled (Pointwise.map_right.mpr
        (hanswers.mono fun _ _ _ ha ↦ ha.rebuilt))).mpr hcopyable
      exact .lift_bind hcopy (.pure trivial)
  · exact .pure trivial

end Unbroken

/-- An unbroken call is answered on all draws. -/
theorem Unbroken.answered {ctx : Context} {g : GeneratorPtr} (h : Unbroken ctx g) {n : Nat}
    (hn : g.fuel ≤ n) : Answered (op n) ctx g := by
  refine Yields.of_ok ?_ fun s a s' ↦ op_answers n g ctx s a s'
  induction n generalizing g ctx with
  | zero => exact absurd hn (Nat.not_le_of_lt g.fuel_pos)
  | succ n ih =>
    have hask {g : GeneratorPtr} {ctx : Context} (h : Unbroken ctx g) (hn : g.fuel ≤ n) :
        Answered (op n) ctx g :=
      (ih h hn).of_ok fun s a s' ↦ op_answers n g ctx s a s'
    cases g with
    | nullptr => exact .pure trivial
    | operation o => exact OperationGenerator.op_yields (.inr h.staffed) o
    | user leaf calls =>
      refine rand_yields.bind fun k _ ↦ ?_
      dsimp only
      split
      · exact .pure trivial
      · rename_i hnil
        have hs : ctx.Staffed := by
          by_contra hs
          exact h [] _ (.user hnil) (.operation hs)
        exact (fillInOperation_yields (.inr hs) _).bind fun _ _ ↦ .pure trivial
    | function f =>
      obtain ⟨m, rfl⟩ : ∃ m, n = m + 2 := ⟨n - 2, by simp only [GeneratorPtr.fuel] at hn; omega⟩
      exact h.function
    | list gens =>
      cases gens with
      | nil =>
        have hnull : Unbroken ctx .nullptr := fun sub g' hmay hbreaks ↦ by
          cases hmay
          cases hbreaks
        refine (hask hnull ?_).bind fun _ _ ↦ .pure trivial
        simp only [GeneratorPtr.fuel, GeneratorPtr.fuelEach] at hn ⊢
        omega
      | cons first rest =>
        have hpos := first.fuel_pos
        simp only [GeneratorPtr.fuel, GeneratorPtr.fuelEach] at hn
        refine h.list (hask (fun sub g' hmay ↦ h sub g' (.listFirst hmay)) (by omega))
          fun copy hcopy hrest ↦ ih hrest ?_
        have hle := GeneratorPtr.fuelEach_le
          ((GeneratorPtr.copyOrNull_rebuilt true hcopy).mono fun _ _ _ h ↦ h.fuel_le)
        simp only [GeneratorPtr.fuel]
        omega
    | validate gen =>
      simp only [GeneratorPtr.fuel] at hn
      refine (hask (fun sub g' hmay ↦ h sub g' (.validate hmay)) (by omega)).bind fun a _ ↦ ?_
      split
      · exact .pure trivial
      · exact .pure trivial
    | onThreads gen filter =>
      simp only [GeneratorPtr.fuel] at hn
      have hgen : Unbroken (onThreadsContext filter ctx) gen :=
        fun sub g' hmay ↦ h (filter :: sub) g' (.onThreads hmay)
      refine (hask hgen (by omega)).bind fun a _ ↦ ?_
      split
      · exact .pure trivial
      · exact .pure trivial
    | timeLimit limit cutoff gen =>
      simp only [GeneratorPtr.fuel] at hn
      refine (hask (fun sub g' hmay ↦ h sub g' (.timeLimit hmay)) (by omega)).bind fun a _ ↦ ?_
      split
      · split
        · exact .pure trivial
        · dsimp only
          split
          · exact .pure trivial
          · exact .pure trivial
      · exact .pure trivial
    | stagger dt next_time gen =>
      simp only [GeneratorPtr.fuel] at hn
      refine (hask (fun sub g' hmay ↦ h sub g' (.stagger hmay)) (by omega)).bind fun a ha ↦ ?_
      split
      · rename_i hoff
        dsimp only
        split
        · exact .pure trivial
        · rename_i hp
          refine rand_yields.bind fun r _ ↦ ?_
          rw [if_neg (by rintro rfl; exact h [] _ .refl (.stagger ha hoff hp))]
          exact .pure trivial
      · exact .pure trivial
    | mix idx gens =>
      simp only [GeneratorPtr.fuel] at hn
      refine h.mix (fun g hgen ↦ ?_) fun g idx' copy hgen hcopy hothers ↦ ih hothers ?_
      · have hle := GeneratorPtr.fuel_le_fuelEach (List.mem_of_getElem? hgen)
        exact hask (fun sub g' hmay ↦ h sub g' (.mixMember hgen hmay)) (by omega)
      · have hle := GeneratorPtr.fuelEach_le
          ((GeneratorPtr.copyEach_rebuilt true hcopy).mono fun _ _ _ h ↦ h.fuel_le)
        have hdrop := GeneratorPtr.fuelEach_eraseIdx hgen
        have hpos := g.fuel_pos
        simp only [GeneratorPtr.fuel]
        omega
    | any gens =>
      simp only [GeneratorPtr.fuel] at hn
      refine h.any fun g hg ↦ ?_
      have hle := GeneratorPtr.fuel_le_fuelEach hg
      exact hask (fun sub g' hmay ↦ h sub g' (.any hg hmay)) (by omega)

/-! ## Broken calls are not answered -/

section

variable {ctx : Context}

theorem answered_of_unbroken {g : GeneratorPtr} (h : Unbroken ctx g) (draws : Draws) :
    ∃ n r, op n g ctx draws = .ok r := by
  cases hr : op g.fuel g ctx draws with
  | error e => exact absurd ((h.answered le_rfl).error hr) id
  | ok r => exact ⟨g.fuel, r, hr⟩

/-- Some draws lead nowhere, or some lead to an answer. -/
theorem never_or_realized (g : GeneratorPtr) (ctx : Context) :
    (Never fun n ↦ op n g ctx) ∨ ∃ b, Gives (fun n ↦ op n g ctx) b ∧ Answers g ctx b := by
  by_cases h : Never fun n ↦ op n g ctx
  · exact .inl h
  · obtain ⟨m, -, ⟨a, d⟩, hok⟩ : ∃ m, 0 ≤ m ∧ ∃ r, op m g ctx (fun _ ↦ 0) = .ok r := by
      by_contra hnone
      refine h ⟨fun _ ↦ 0, 0, fun m hm r hr ↦ hnone ⟨m, hm, r, hr⟩⟩
    refine (op_answers m g ctx _ a d hok).realized.imp id fun h ↦ ?_
    exact h.imp fun _ h ↦ ⟨h.1, .of_gives h.1⟩

/-- A call that goes on after an inner call, and is never answered from there. -/
theorem never_of_ask {g gen : GeneratorPtr} {ctx' : Context} {a : Answer}
    {k : Nat → Answer → Gen Answer} (hop : ∀ n, op (n + 1) g ctx = op n gen ctx' >>= k n)
    (ha : Answers gen ctx' a)
    (hk : ∀ b, Answers gen ctx' b → a.Like b → Never fun n ↦ k n b) :
    Never fun n ↦ op n g ctx := by
  refine .of_succ ?_
  simp only [hop]
  rcases ha.realized with h | ⟨b, hb, hlike⟩
  · exact h.bind
  · exact .bind_of_gives hb (hk b (.of_gives hb) hlike)

/-- A nil answer for a free thread can come up every time that the function is asked. -/
theorem never_function {f : FunctionGenerator} {k : Nat} {r : Operation}
    (hfill : MayFill ctx (f.func ctx k) r) (hnil : r.type = .kNil) :
    Never fun n ↦ op n (.function f) ctx := by
  obtain ⟨p, hdraw, rfl⟩ := hfill
  obtain ⟨d, hd⟩ : ∃ d, ∀ s, ctx.randomFreeProcess (prepend [d] s) = .ok (p, s) := by
    rcases hdraw with ⟨-, rfl⟩ | ⟨t, ht, hp⟩
    · exact absurd hnil (by simp [fillIn])
    · obtain ⟨d, hcard, hadvance⟩ := exists_advance ht
      exact ⟨d, fun s ↦ by rw [randomFreeProcess_of_advance hcard hadvance, hp]⟩
  -- The answer, and then the thread that it is filled in for, over and over.
  let s : Draws := fun i ↦ if i % 2 = 0 then k else d
  have hs : (fun i ↦ s (i + 1)) = prepend [d] s := by
    funext i
    cases i with
    | zero => rfl
    | succ i =>
      have hmod : (i + 1 + 1) % 2 = i % 2 := by omega
      simp only [s, prepend, hmod]
  refine .of_fails s fun n ↦ ?_
  induction n using Nat.strong_induction_on with
  | _ n ih =>
    intro r hr
    rcases n with _ | _ | _ | n
    · cases hr
    · cases hr
    · cases hr
    · change op (n + 3) (.function f) ctx s = .ok r at hr
      have hfill : fillInOperation ctx (f.func ctx k) (prepend [d] s) =
          .ok (fillIn ctx.time p (f.func ctx k), s) := bind_apply_ok (hd s)
      have hoperation : op (n + 1) (.operation (f.func ctx k)) ctx (prepend [d] s) =
          .ok (⟨fillIn ctx.time p (f.func ctx k), .nullptr, .operation (f.func ctx k)⟩, s) := by
        refine (bind_apply_ok hfill).trans ?_
        rw [if_neg (by rw [hnil]; decide)]
        rfl
      rw [op_function, hs] at hr
      obtain ⟨b, s', hlist, -⟩ := bind_eq_ok.mp hr
      obtain ⟨b', s'', hrest, -⟩ := bind_eq_ok.mp ((op_list_nil hoperation rfl hnil rfl).symm.trans
        hlist)
      obtain ⟨a, s₁, ha, -⟩ := bind_eq_ok.mp hrest
      exact ih n (by omega) (a, s₁) ha

theorem never_copy {α : Type} {y : Except Fault α} (h : ¬ ∃ c, y = .ok c) :
    Never (fun _ ↦ (liftM y : Gen α)) := by
  cases y with
  | error e => exact .of_error rfl
  | ok c => exact absurd ⟨c, rfl⟩ h

theorem Breaks.never {g : GeneratorPtr} (h : Breaks ctx g) : Never fun n ↦ op n g ctx := by
  cases h with
  | operation hs => exact .of_succ (never_fillInOperation hs _).bind
  | function hfill hnil => exact never_function hfill hnil
  | @list first rest g hg hne hcopy =>
    rcases never_or_realized first ctx with h | ⟨a, -, ha⟩
    · exact .of_succ h.bind
    · refine never_of_ask (fun _ ↦ rfl) ha fun b hb _ ↦ (never_copy fun hok ↦ ?_).bind
      have hcopyable := (copyOrNull_ok_iff fun g _ ↦ copyOne_ok_iff).mp hok
      rcases List.mem_cons.mp hg with rfl | hg
      · have hself := hcopyable b.self (by simp) (hb.rebuilt.symm rfl |>.ne_nullptr hne)
        exact hcopy (hself.polled (hb.rebuilt.symm rfl) rfl)
      · exact hcopy (hcopyable g (List.mem_cons_of_mem _ hg) hne)
  | stagger ha hoff hp =>
    refine never_of_ask (fun _ ↦ rfl) ha fun b _ hlike ↦ ?_
    rw [if_pos (hlike.notNil hoff)]
    dsimp only
    rw [if_neg (hlike.pending.not.mp hp)]
    exact .bind_of_gives (gives_rand 0) (.of_fails (fun _ ↦ 0) fun _ _ h ↦ by cases h)
  | @mixIndex idx gens hne hidx =>
    refine .of_succ (.of_fails (fun _ ↦ 0) fun n r hr ↦ ?_)
    change Mix.op (op n) idx gens ctx _ = _ at hr
    rw [Mix.op, if_neg (by simpa using hne), List.getElem?_eq_none hidx] at hr
    cases hr
  | mixCopy hgen ha hoff hg hcopy =>
    refine never_of_ask (op_mix hgen ctx) ha fun b hb hlike ↦ ?_
    simp only [if_pos (hlike.notNil hoff)]
    refine (never_copy fun hok ↦ ?_).bind
    exact hcopy ((copyEach_polled (.set (fun g ↦ .refl g) hgen hb.rebuilt)).mp hok _ hg)
  | mixDrop hgen ha hoff hg hcopy =>
    refine never_of_ask (op_mix hgen ctx) ha fun b hb hlike ↦ ?_
    simp only [if_neg (hlike.not_notNil hoff)]
    exact (never_copy fun hok ↦
      hcopy ((copyEach_ok_iff fun g _ ↦ copyOne_ok_iff).mp hok _ hg)).bind
  | mixLast ha hoff =>
    refine never_of_ask (op_mix (by rfl) ctx) ha fun b hb hlike ↦ ?_
    simp only [if_neg (hlike.not_notNil hoff)]
    exact .bind_of_gives (.lift rfl) never_mix_nil.bind
  | @any gens gen a g hgen ha hoff hg hcopy =>
    by_cases hnever : ∃ g ∈ gens, Never fun n ↦ op n g ctx
    · refine .of_succ (never_poll (fun g _ ↦ ?_) hnever 0 {}).bind
      exact (never_or_realized g ctx).imp id fun h ↦ h.imp fun _ h ↦ h.1
    · have hall : ∀ g ∈ gens, ∃ b, Gives (fun n ↦ op n g ctx) b := fun g hg ↦
        ((never_or_realized g ctx).resolve_left fun h ↦ hnever ⟨g, hg, h⟩).imp fun _ h ↦ h.1
      obtain ⟨b, hb, hlike⟩ := ha.realized.resolve_left fun h ↦ hnever ⟨gen, hgen, h⟩
      obtain ⟨bs, hbs, hmem⟩ := Pointwise.exists_of_mem hall hgen hb
      obtain ⟨loop, hpoll⟩ := gives_poll hbs 0 {}
      refine .of_succ (.bind_of_gives hpoll ?_)
      rcases tracks_of_gives hpoll with ⟨-, -, hnone⟩ | ⟨i, c, hbest, hop, hgen, -⟩
      · exact absurd (hlike.offer_iff.mp hoff) (hnone b hmem)
      · dsimp only
        rw [if_pos (by rw [hop, hgen]; exact hbest.offer)]
        refine (never_copy fun hok ↦ ?_).bind
        exact hcopy ((copyEach_polled (Pointwise.map_right.mpr
          (hbs.mono fun _ _ _ hb ↦ (Answers.of_gives hb).rebuilt))).mp hok g hg)

theorem MayAsk.never {g g' : GeneratorPtr} {sub : List ThreadFilter} (h : MayAsk ctx g sub g')
    (hnever : Never fun n ↦ op n g' (ctx.restrict sub)) : Never fun n ↦ op n g ctx := by
  induction h with
  | refl => exact hnever
  | @function ctx f k =>
    have hcopy : copyOne (.function f) = .ok (.function f) := rfl
    have hlist : Never fun n ↦ op n (.list [.operation (f.func ctx k), .function f]) ctx :=
      .of_succ hnever.bind
    exact .of_succ (.bind_of_gives (gives_rand k) (.bind_of_gives (.lift hcopy) hlist.bind))
  | @user ctx leaf calls k hnil =>
    have hs : ¬ ctx.Staffed := by
      intro hs
      obtain ⟨s, n, hfails⟩ := hnever
      have hyields := OperationGenerator.op_yields (E := fun _ ↦ False) (.inr hs)
        (leaf.next calls ctx k)
      cases hr : OperationGenerator.op (leaf.next calls ctx k) ctx s with
      | error e => exact hyields.error hr
      | ok r => exact hfails (n + 1) (Nat.le_succ n) r hr
    refine .of_succ (.bind_of_gives (gives_rand k) ?_)
    dsimp only
    rw [if_neg hnil]
    exact (never_fillInOperation hs _).bind
  | listFirst _ ih | validate _ ih | onThreads _ ih | timeLimit _ ih | stagger _ ih =>
    exact .of_succ (ih hnever).bind
  | listRest ha hgen hnil hcopy _ ih =>
    refine never_of_ask (fun _ ↦ rfl) ha fun b hb hlike ↦ ?_
    have hpop : b.gen2.isNull ∧ b.op.type = .kNil :=
      ⟨GeneratorPtr.isNull_iff.mpr (hlike.null.mp hgen), hlike.nil.mp hnil⟩
    obtain ⟨c, hcopy⟩ := copyOrNull_polled (hb.rebuilt.symm rfl) ⟨_, hcopy⟩
    refine .bind_of_gives (.lift hcopy) ?_
    simp only [if_pos hpop]
    exact (ih hnever).bind
  | @mixMember ctx idx gens gen sub g' hgen _ ih =>
    refine .of_succ ?_
    simp only [op_mix hgen]
    exact (ih hnever).bind
  | mixRest hgen ha hoff hcopy hidx _ ih =>
    refine never_of_ask (op_mix hgen _) ha fun b hb hlike ↦ ?_
    simp only [if_neg (hlike.not_notNil hoff)]
    exact .bind_of_gives (.lift hcopy) (.bind_of_gives (gives_mix hidx) (ih hnever).bind)
  | @any ctx gens gen sub g' hgen _ ih =>
    refine .of_succ (Never.bind (never_poll (fun g _ ↦ ?_) ⟨gen, hgen, ih hnever⟩ 0 {}))
    exact (never_or_realized g ctx).imp id fun h ↦ h.imp fun _ h ↦ h.1

end

/-- A call is answered on all draws exactly when it comes to no call that breaks, and every function
that answers nil is at its end exactly when none does.  A call on a function for a free thread is
answered on the draws that bring it to an answer that is not nil. -/
theorem answered_iff_unbroken (g : GeneratorPtr) :
    (∀ ctx, ((∀ draws, ∃ n r, op n g ctx draws = .ok r) ∧ ∀ f, FunctionIn f g → f.Exhausts) ↔
      Unbroken ctx g ∧ NilFree g) ∧
    (∀ ctx, (∀ draws, ∃ n r, op n g ctx draws = .ok r) ↔ Unbroken ctx g) ∧
    (∀ f ctx draws, ctx.Serving →
      ((∃ n r, op n (.function f) ctx draws = .ok r) ↔
        ∃ i, (f.func ctx (draws (2 * i))).type ≠ .kNil)) := by
  have hanswered (ctx : Context) :
      (∀ draws, ∃ n r, op n g ctx draws = .ok r) ↔ Unbroken ctx g := by
    refine ⟨fun h sub g' hmay hbreaks ↦ ?_, answered_of_unbroken⟩
    obtain ⟨draws, n, hnever⟩ := hmay.never hbreaks.never
    obtain ⟨m, r, hr⟩ := h draws
    exact hnever (max n m) (Nat.le_max_left n m) r (op_mono hr (Nat.le_max_right n m))
  have hexhausts : (∀ f, FunctionIn f g → f.Exhausts) ↔ NilFree g :=
    forall₂_congr fun f _ ↦ exhausts_iff_neverNil
  exact ⟨fun ctx ↦ and_congr (hanswered ctx) hexhausts, hanswered,
    fun f ctx draws h ↦ answered_function_iff h⟩

/-- A `Mix` at its last member is answered while that member has something to offer. -/
example : ∃ r, op 6 (.mix 0 [timeLimit 10 (createGenerator
    [OperationFactory.read .null, OperationFactory.read .null])]) (oneClient 0) (fun _ ↦ 0) =
      .ok r := ⟨_, rfl⟩

theorem unbroken_reads : Unbroken (oneClient 0) (.mix 0 [.function reads]) := by
  have hoffers {a : Answer} (ha : Answers (.function reads) (oneClient 0) a) : a.Offer :=
    (Offers.function reads_neverNil).offer ha
  intro sub g' hmay hbreaks
  cases hmay with
  | refl =>
    cases hbreaks with
    | mixIndex _ hidx => exact absurd hidx (by decide)
    | mixCopy _ _ _ hg hcopy =>
      obtain rfl := List.mem_singleton.mp hg
      exact hcopy .function
    | mixDrop _ _ _ hg => exact absurd hg (by simp)
    | mixLast ha hoff => exact hoff (hoffers ha)
  | mixMember hgen hmay =>
    obtain rfl := Option.some.inj (show some (GeneratorPtr.function reads) = _ from hgen)
    cases hmay with
    | refl =>
      cases hbreaks with
      | function hfill hnil => exact hfill.ne_nil (reads_neverNil _ _) hnil
    | function =>
      cases hbreaks with
      | operation hs => exact hs (staffed_oneClient 0)
  | mixRest hgen ha hoff =>
    obtain rfl := Option.some.inj (show some (GeneratorPtr.function reads) = _ from hgen)
    exact hoff (hoffers ha)

/-- A `Mix` of one function that always offers reads. -/
theorem answered_iff_unbroken_reads :
    (∃ n r, op n (.mix 0 [.function reads]) (oneClient 0) (fun _ ↦ 0) = .ok r) ∧
    ∃ n r, op n (.function reads) (oneClient 0) (fun _ ↦ 0) = .ok r := by
  obtain ⟨-, hanswered, hfunction⟩ := answered_iff_unbroken (.mix 0 [.function reads])
  exact ⟨(hanswered _).mpr unbroken_reads _,
    (hfunction _ _ _ (serving_oneClient 0)).mpr ⟨0, reads_neverNil _ _⟩⟩

/-- A function that has nothing to offer is asked for ever, and is never at its end.  A `Mix` of one
read divides by zero. -/
theorem nothing_never_answered :
    (¬ ∃ n r, op n (.function nothing) (oneClient 0) (fun _ ↦ 0) = .ok r) ∧
    ¬ nothing.Exhausts ∧
    ¬ ∃ n r, op n (.mix 0 [.operation (OperationFactory.read .null)]) (oneClient 0) (fun _ ↦ 0) =
      .ok r := by
  refine ⟨fun h ↦ ?_, fun h ↦ exhausts_iff_neverNil.mp h (oneClient 0) 0 rfl, fun h ↦ ?_⟩
  · obtain ⟨i, hi⟩ := (answered_function_iff (serving_oneClient 0)).mp h
    exact hi rfl
  · obtain ⟨n, r, hr⟩ := h
    have hmore := op_mono hr (Nat.le_max_right 2 n)
    have hdies : op 2 (.mix 0 [.operation (OperationFactory.read .null)]) (oneClient 0)
        (fun _ ↦ 0) = .error .divisionByZero := rfl
    rw [(op_refines (Nat.le_max_left 2 n) _ _).eq_of_ne (by rw [hdies]; simp), hdies] at hmore
    exact absurd hmore (by simp)

end Jepsen
