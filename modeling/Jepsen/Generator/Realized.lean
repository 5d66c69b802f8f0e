import Jepsen.Generator.Inner
import Jepsen.Generator.Outcome
import Jepsen.Library.Draws

/-!
# Answers that are given

Every derivation of an answer is followed by some draws, except for the process and the choices that
no later call depends on, or else some draws lead to a call that is never answered.
-/

namespace Jepsen

open Library Library.Eval Context GeneratorFactory
open GeneratorPtr (copyOne copyEach copyOrNull members writeBackEach Rebuilt)

/-! ## Draws -/

theorem gives_rand (k : Nat) : Gives (fun _ ↦ rand) k :=
  .const [k] fun _ ↦ rfl

theorem exists_advance {s : Finset Int} {t : Int} (ht : t ∈ s) :
    ∃ k < s.card, advance k s = some t := by
  induction hcard : s.card generalizing s with
  | zero =>
    rw [Finset.card_eq_zero.mp hcard] at ht
    exact absurd ht (by simp)
  | succ c ih =>
    obtain ⟨m, hm⟩ := Finset.min_of_nonempty ⟨t, ht⟩
    have hmin : s.min = some m := hm
    by_cases htm : t = m
    · exact ⟨0, Nat.succ_pos c, htm ▸ hmin⟩
    · have hcard' : (s.erase m).card = c := by
        rw [Finset.card_erase_of_mem (Finset.mem_of_min hm), hcard]
        rfl
      obtain ⟨k, hk, hadvance⟩ := ih (Finset.mem_erase.mpr ⟨htm, ht⟩) hcard'
      exact ⟨k + 1, Nat.succ_lt_succ hk, by simp only [advance, hmin, hadvance]⟩

theorem randomFreeProcess_of_advance {ctx : Context} {t : Int} {k : Nat}
    (hk : k < ctx.freeThreads.card) (h : advance k ctx.freeThreads = some t) (s : Draws) :
    ctx.randomFreeProcess (prepend [k] s) =
      match ctx.workers.lookup t with
      | none => .error .outOfRange
      | some p => .ok (p, s) := by
  have hdraw : rand (prepend [k] s) = .ok (k, s) := rfl
  unfold randomFreeProcess
  rw [if_pos (Nat.ne_zero_of_lt hk), bind_apply_ok hdraw, Nat.mod_eq_of_lt hk, h]
  cases hp : ctx.workers.lookup t with
  | none => simp only [hp]; rfl
  | some p => simp only [hp]; rfl

theorem gives_randomFreeProcess {ctx : Context} {p : Int} (h : ctx.MayDraw p) :
    Gives (fun _ ↦ ctx.randomFreeProcess) p := by
  rcases h with ⟨hempty, rfl⟩ | ⟨t, ht, hp⟩
  · refine .const [] fun s ↦ ?_
    unfold randomFreeProcess
    rw [if_neg (by simp [hempty])]
    rfl
  · obtain ⟨k, hk, hadvance⟩ := exists_advance ht
    refine .const [k] fun s ↦ ?_
    rw [randomFreeProcess_of_advance hk hadvance, hp]

theorem never_fillInOperation {ctx : Context} (h : ¬ ctx.Staffed) (o : Operation) :
    Never (fun _ ↦ fillInOperation ctx o) := by
  obtain ⟨t, h⟩ := not_forall.mp h
  obtain ⟨ht, hp⟩ := Classical.not_imp.mp h
  obtain ⟨k, hk, hadvance⟩ := exists_advance ht
  have hlookup : ctx.workers.lookup t = none :=
    Option.eq_none_iff_forall_ne_some.mpr fun p hp' ↦ hp ⟨p, hp'⟩
  refine Never.bind (.of_fails (prepend [k] fun _ ↦ 0) fun _ r hr ↦ ?_)
  rw [randomFreeProcess_of_advance hk hadvance, hlookup] at hr
  exact absurd hr (by simp)

theorem MayFill.gives {ctx : Context} {o r : Operation} (h : MayFill ctx o r) :
    Gives (fun _ ↦ fillInOperation ctx o) r := by
  obtain ⟨p, hdraw, rfl⟩ := h
  exact (gives_randomFreeProcess hdraw).bind .pure

theorem gives_mix {idx : Nat} {gens : List GeneratorPtr} (h : idx < gens.length) :
    Gives (fun _ ↦ mix gens) (.mix idx gens) := by
  refine (gives_rand idx).bind ?_
  rw [if_neg (Nat.ne_zero_of_lt h), Nat.mod_eq_of_lt h]
  exact .pure

theorem never_mix_nil : Never (fun _ ↦ mix []) :=
  .of_fails (fun _ ↦ 0) fun _ _ h ↦ by cases h

/-! ## Answers that later calls tell apart -/

theorem neither_null {gen gen' : GeneratorPtr} (hgen : gen.isNull = false)
    (hgen' : gen'.isNull = false) : gen = .nullptr ↔ gen' = .nullptr := by
  rw [← GeneratorPtr.isNull_iff, ← GeneratorPtr.isNull_iff, hgen, hgen']

/-- The answers agree in what a wrapper looks at. -/
structure Answer.Like (a b : Answer) : Prop where
  nil : a.op.type = .kNil ↔ b.op.type = .kNil
  pending : a.op.type = .kPending ↔ b.op.type = .kPending
  null : a.gen2 = .nullptr ↔ b.gen2 = .nullptr
  time : a.op.type ≠ .kPending → a.op.time = b.op.time

namespace Answer.Like

variable {a b : Answer}

theorem of_op (h : a.op = b.op) (hnull : a.gen2 = .nullptr ↔ b.gen2 = .nullptr) : a.Like b :=
  ⟨by rw [h], by rw [h], hnull, fun _ ↦ by rw [h]⟩

theorem offer_iff (h : a.Like b) : a.Offer ↔ b.Offer := by
  rw [Answer.offer_iff, Answer.offer_iff, ne_eq, ne_eq, ne_eq, ne_eq, h.nil, h.null]

theorem notNil (h : a.Like b) (hoff : a.Offer) : notNil b.op b.gen2 = true :=
  h.offer_iff.mp hoff

theorem not_notNil (h : a.Like b) (hoff : ¬ a.Offer) : ¬ Jepsen.notNil b.op b.gen2 = true :=
  h.offer_iff.not.mp hoff

/-- A wrapper that hands the operation on, and wraps the successor. -/
theorem wrap {gen gen' self self' : GeneratorPtr} (h : a.Like b)
    (hnull : gen = .nullptr ↔ gen' = .nullptr) :
    Answer.Like ⟨a.op, gen, self⟩ ⟨b.op, gen', self'⟩ :=
  ⟨h.nil, h.pending, hnull, h.time⟩

theorem wrapped {gen gen' self self' : GeneratorPtr} (h : a.Like b) (hgen : gen.isNull = false)
    (hgen' : gen'.isNull = false) : Answer.Like ⟨a.op, gen, self⟩ ⟨b.op, gen', self'⟩ :=
  h.wrap (neither_null hgen hgen')

end Answer.Like

theorem like_nil (self self' : GeneratorPtr) : (nil self).Like (nil self') :=
  .of_op rfl Iff.rfl

/-- Some draws lead to an answer like `a`, or some to no answer at all. -/
def Realized (x : Nat → Gen Answer) (a : Answer) : Prop :=
  Never x ∨ ∃ b, Gives x b ∧ a.Like b

theorem Realized.of_gives {x : Nat → Gen Answer} {a b : Answer} (h : Gives x b)
    (hlike : a.Like b) : Realized x a :=
  .inr ⟨b, h, hlike⟩

namespace Realized

variable {α : Type} {a a' : Answer} {x : Nat → Gen Answer}

theorem pure {b : Answer} (h : a.Like b) : Realized (fun _ ↦ Pure.pure b) a :=
  .of_gives .pure h

theorem of_succ (h : Realized (fun n ↦ x (n + 1)) a) : Realized x a :=
  h.imp .of_succ fun ⟨b, hb, hlike⟩ ↦ ⟨b, hb.of_succ, hlike⟩

theorem after {y : Nat → Gen α} {c : α} {k : Nat → α → Gen Answer} (hy : Gives y c)
    (h : Realized (fun n ↦ k n c) a) : Realized (fun n ↦ y n >>= k n) a :=
  h.imp (.bind_of_gives hy) fun ⟨b, hb, hlike⟩ ↦ ⟨b, hy.bind hb, hlike⟩

theorem bind {k : Nat → Answer → Gen Answer} (h : Realized x a)
    (hk : ∀ b, Gives x b → a.Like b → Realized (fun n ↦ k n b) a') :
    Realized (fun n ↦ x n >>= k n) a' := by
  rcases h with h | ⟨b, hb, hlike⟩
  · exact .inl h.bind
  · exact (hk b hb hlike).after hb

end Realized

theorem Answers.of_gives {g : GeneratorPtr} {ctx : Context} {b : Answer}
    (h : Gives (fun n ↦ op n g ctx) b) : Answers g ctx b := by
  obtain ⟨n, s, hok⟩ := h.exists_ok fun _ ↦ 0
  exact op_answers n g ctx s b _ hok

/-- A method that asks `gen` first, and goes on with what it answers. -/
theorem Realized.ask {g gen : GeneratorPtr} {ctx ctx' : Context} {a a' : Answer}
    {k : Nat → Answer → Gen Answer} (hop : ∀ n, op (n + 1) g ctx = op n gen ctx' >>= k n)
    (h : Realized (fun n ↦ op n gen ctx') a)
    (hk : ∀ b, Answers gen ctx' b → a.Like b → Realized (fun n ↦ k n b) a') :
    Realized (fun n ↦ op n g ctx) a' := by
  refine .of_succ ?_
  simp only [hop]
  exact h.bind fun b hb ↦ hk b (.of_gives hb)

/-! ## Copies of what was asked -/

theorem copyEach_polled {gens selfs : List GeneratorPtr}
    (h : Pointwise (Rebuilt true false) gens selfs) :
    (∃ copy, copyEach selfs = .ok copy) ↔ ∀ g ∈ gens, Copyable g := by
  rw [copyEach_ok_iff fun g _ ↦ copyOne_ok_iff]
  constructor
  · intro hselfs g hg
    obtain ⟨g', hg', hr⟩ := h.exists_right hg
    exact (hselfs g' hg').polled (hr.symm rfl) rfl
  · exact h.forall_mem fun _ _ hr hg ↦ hg.polled hr rfl

/-! ## The members of an `Any` -/

theorem gives_consider (loop : Any.Loop) (i : Nat) (a : Answer) :
    ∃ loop', Gives (fun _ ↦ Any.consider loop i a) loop' := by
  have hsoonest : ∃ cur, Gives (fun _ ↦ soonestOpMap loop.cur ⟨a.op, 1, i⟩) cur := by
    unfold soonestOpMap
    split
    · exact ⟨_, .pure⟩
    · split
      · exact ⟨_, .pure⟩
      · split
        -- Any draw will do: the weight of a member is not zero.
        · refine (gives_rand 0).exists_bind ?_
          rw [if_neg (by simp)]
          split
          · exact ⟨_, .pure⟩
          · exact ⟨_, .pure⟩
        · exact ⟨_, .pure⟩
  obtain ⟨cur, hcur⟩ := hsoonest
  unfold Any.consider
  split
  · refine hcur.exists_bind ?_
    split
    · exact ⟨_, .pure⟩
    · exact ⟨_, .pure⟩
  · exact ⟨_, .pure⟩

theorem gives_poll {ctx : Context} {gens : List GeneratorPtr} {answers : List Answer}
    (h : Pointwise (fun g a ↦ Gives (fun n ↦ op n g ctx) a) gens answers) (i : Nat)
    (loop : Any.Loop) :
    ∃ loop', Gives (fun n ↦ Any.poll (op n) ctx i gens loop) (loop', answers) := by
  induction gens generalizing answers i loop with
  | nil =>
    obtain rfl := List.eq_nil_of_length_eq_zero h.1.symm
    exact ⟨loop, .pure⟩
  | cons g gens ih =>
    obtain ⟨a, answers, ha, hanswers, rfl⟩ := h.uncons
    obtain ⟨loop₁, hloop₁⟩ := gives_consider loop i a
    obtain ⟨loop', hloop'⟩ := ih hanswers (i + 1) loop₁
    exact ⟨loop', ha.bind (hloop₁.bind (hloop'.bind .pure))⟩

/-- The poll comes to every member, unless an earlier one is never answered. -/
theorem never_poll {ctx : Context} {gens : List GeneratorPtr}
    (hall : ∀ g ∈ gens, Never (fun n ↦ op n g ctx) ∨ ∃ a, Gives (fun n ↦ op n g ctx) a)
    (h : ∃ g ∈ gens, Never fun n ↦ op n g ctx) (i : Nat) (loop : Any.Loop) :
    Never fun n ↦ Any.poll (op n) ctx i gens loop := by
  induction gens generalizing i loop with
  | nil => exact absurd h (by simp)
  | cons g gens ih =>
    obtain ⟨hg, hgens⟩ := List.forall_mem_cons.mp hall
    rcases hg with hg | ⟨a, ha⟩
    · exact hg.bind
    · by_cases hnever : Never fun n ↦ op n g ctx
      · exact hnever.bind
      · obtain ⟨loop', hloop'⟩ := gives_consider loop i a
        have hrest : ∃ g ∈ gens, Never fun n ↦ op n g ctx := by
          obtain ⟨g', hg', hn⟩ := h
          refine ⟨g', (List.mem_cons.mp hg').resolve_left fun heq ↦ hnever (heq ▸ hn), hn⟩
        exact Never.bind_of_gives ha (Never.bind_of_gives hloop' (ih hgens hrest _ _).bind)

/-- Whichever soonest offer an `Any` selects, it is like the other ones. -/
theorem SoonestOffer.like {as bs : List Answer} {i j : Nat} {a b : Answer} {gen gen' : GeneratorPtr}
    {self self' : GeneratorPtr} (h : Pointwise Answer.Like as bs) (ha : SoonestOffer as i a)
    (hb : SoonestOffer bs j b) (hnull : gen = .nullptr ↔ gen' = .nullptr) :
    Answer.Like ⟨a.op, gen, self⟩ ⟨b.op, gen', self'⟩ := by
  obtain ⟨b₁, hb₁, hab₁⟩ := h.exists_right ha.mem
  obtain ⟨a₁, ha₁, ha₁b⟩ := h.exists_left hb.mem
  have hoff₁ : b₁.Offer := hab₁.offer_iff.mp ha.offer
  have hoff : a₁.Offer := ha₁b.offer_iff.mpr hb.offer
  have hpending : a.op.type = .kPending ↔ b.op.type = .kPending :=
    ⟨fun hp ↦ ha₁b.pending.mp (ha.pending hp a₁ ha₁ hoff),
      fun hp ↦ hab₁.pending.mpr (hb.pending hp b₁ hb₁ hoff₁)⟩
  refine ⟨?_, hpending, hnull, fun hp ↦ ?_⟩
  · exact iff_of_false (Answer.offer_iff.mp ha.offer).1 (Answer.offer_iff.mp hb.offer).1
  · have hbp : b.op.type ≠ .kPending := fun h ↦ hp (hpending.mpr h)
    have hap₁ : a₁.op.type ≠ .kPending := fun h ↦ hbp (ha₁b.pending.mp h)
    have hbp₁ : b₁.op.type ≠ .kPending := fun h ↦ hp (hab₁.pending.mpr h)
    refine le_antisymm ?_ ?_
    · exact (ha.soonest hp a₁ ha₁ hoff hap₁).trans (ha₁b.time hap₁).le
    · exact (hb.soonest hbp b₁ hb₁ hoff₁ hbp₁).trans (hab₁.time hp).ge

/-- The members of an `Any` are asked one after the other. -/
theorem realized_poll {ctx : Context} {gens : List GeneratorPtr} {as : List Answer}
    (h : Pointwise (fun g a ↦ Realized (fun n ↦ op n g ctx) a) gens as) (i : Nat)
    (loop : Any.Loop) :
    (Never fun n ↦ Any.poll (op n) ctx i gens loop) ∨
      ∃ loop' bs, Gives (fun n ↦ Any.poll (op n) ctx i gens loop) (loop', bs) ∧
        Pointwise (fun g b ↦ Answers g ctx b) gens bs ∧ Pointwise Answer.Like as bs := by
  by_cases hnever : ∃ g ∈ gens, Never fun n ↦ op n g ctx
  · refine .inl (never_poll (fun g hg ↦ ?_) hnever i loop)
    obtain ⟨a, -, hga⟩ := h.exists_right hg
    exact hga.imp id fun h ↦ h.imp fun _ h ↦ h.1
  · have hgives : Pointwise (fun g a ↦ ∃ b, Gives (fun n ↦ op n g ctx) b ∧ a.Like b) gens as :=
      h.mono fun g hg a hga ↦ hga.resolve_left fun hn ↦ hnever ⟨g, hg, hn⟩
    obtain ⟨bs, hbs, hlike⟩ := hgives.choose
    obtain ⟨loop', hloop'⟩ := gives_poll hbs i loop
    exact .inr ⟨loop', bs, hloop', hbs.mono fun g _ b hb ↦ .of_gives hb, hlike⟩

theorem tracks_of_gives {ctx : Context} {gens : List GeneratorPtr} {loop : Any.Loop}
    {bs : List Answer} (h : Gives (fun n ↦ Any.poll (op n) ctx 0 gens {}) (loop, bs)) :
    Any.Tracks bs loop := by
  obtain ⟨n, s, hok⟩ := h.exists_ok fun _ ↦ 0
  exact (Any.tracks_init.poll (R := fun _ _ ↦ True) (fun _ _ _ _ _ ↦ trivial) hok).2

/-- Every derived answer is given, up to what no wrapper looks at, or some draws lead to a call that
is never answered. -/
theorem Answers.realized {g : GeneratorPtr} {ctx : Context} {a : Answer} (ha : Answers g ctx a) :
    Realized (fun n ↦ op n g ctx) a := by
  induction ha with
  | nullptr => exact .of_succ (.pure (like_nil _ _))
  | pending hfill hr =>
    refine .of_succ (.after hfill.gives ?_)
    rw [if_pos hr]
    exact .pure (.of_op rfl Iff.rfl)
  | operation hfill hr =>
    refine .of_succ (.after hfill.gives ?_)
    rw [if_neg hr]
    exact .pure (.of_op rfl Iff.rfl)
  | @function f ctx k a _ ih =>
    have hcopy : copyOne (.function f) = .ok (.function f) := rfl
    refine .of_succ (.after (gives_rand k) (.after (.lift hcopy) (ih.bind fun b _ hlike ↦ ?_)))
    exact .pure (hlike.wrap hlike.null)
  | @listEmpty ctx =>
    have hnull : Gives (fun n ↦ op n .nullptr ctx) (nil .nullptr) := .of_succ .pure
    exact .of_succ (.after hnull (.pure (like_nil _ _)))
  | @listPop first rest ctx a _ copy _ ha hgen hnil hcopy _ ih₁ ih₂ =>
    refine .ask (fun _ ↦ rfl) ih₁ fun b hb hlike ↦ ?_
    have hpop : b.gen2.isNull ∧ b.op.type = .kNil :=
      ⟨GeneratorPtr.isNull_iff.mpr (hlike.null.mp hgen), hlike.nil.mp hnil⟩
    obtain ⟨c, hcopy⟩ := copyOrNull_polled (hb.rebuilt.symm rfl)
      (copyOrNull_polled ha.rebuilt ⟨_, hcopy⟩)
    refine .after (.lift hcopy) ?_
    simp only [if_pos hpop]
    exact ih₂.bind fun b' _ hlike' ↦ .pure (hlike'.wrap hlike'.null)
  | @listFront first rest ctx a _ copy ha hkeep hcopy hrest ih =>
    refine .ask (fun _ ↦ rfl) ih fun b hb hlike ↦ ?_
    have hkeep' : ¬ (b.gen2.isNull ∧ b.op.type = .kNil) := by
      rwa [GeneratorPtr.isNull_iff, ← hlike.null, ← hlike.nil]
    have hlen := (GeneratorPtr.copyOrNull_rebuilt true hcopy).1
    have hpos : 0 < rest.length := List.length_pos_of_ne_nil hrest
    obtain ⟨c, hcopy⟩ := copyOrNull_polled (hb.rebuilt.symm rfl)
      (copyOrNull_polled ha.rebuilt ⟨_, hcopy⟩)
    have hlong : (c :: copy).length > 1 := by
      simp only [List.length_cons] at hlen ⊢
      omega
    refine .after (.lift hcopy) ?_
    simp only [if_neg hkeep', if_pos hlong]
    exact .pure (hlike.wrapped rfl rfl)
  | @listSingle first ctx a ha hkeep ih =>
    refine .ask (fun _ ↦ rfl) ih fun b hb hlike ↦ ?_
    have hkeep' : ¬ (b.gen2.isNull ∧ b.op.type = .kNil) := by
      rwa [GeneratorPtr.isNull_iff, ← hlike.null, ← hlike.nil]
    cases hcopy : copyOrNull [b.self] with
    | error e => exact .inl (.bind (.of_error rfl))
    | ok copy =>
      have hlen := (GeneratorPtr.copyOrNull_rebuilt true hcopy).1
      refine .after (.lift rfl) ?_
      simp only [if_neg hkeep', if_neg (show ¬ copy.length > 1 by simp [← hlen])]
      exact .pure (hlike.wrap hlike.null)
  | validate _ hoff ih =>
    refine .ask (fun _ ↦ rfl) ih fun b _ hlike ↦ ?_
    obtain ⟨hnil, hnull⟩ := Answer.offer_iff.mp (hlike.offer_iff.mp hoff)
    rw [if_pos ⟨by simpa using hnull, hnil⟩]
    exact .pure (hlike.wrapped rfl rfl)
  | validateLast _ hoff ih =>
    refine .ask (fun _ ↦ rfl) ih fun b _ hlike ↦ ?_
    rw [if_neg fun h ↦ hlike.offer_iff.not.mp hoff (Answer.offer_iff.mpr ⟨h.2, by simpa using h.1⟩)]
    exact .pure (hlike.wrap hlike.null)
  | onThreads _ hoff ih =>
    refine .ask (fun _ ↦ rfl) ih fun b _ hlike ↦ ?_
    rw [if_pos (hlike.notNil hoff)]
    exact .pure (hlike.wrapped rfl rfl)
  | onThreadsNil _ hoff ih | timeLimitNil _ hoff ih | staggerNil _ hoff ih =>
    refine .ask (fun _ ↦ rfl) ih fun b _ hlike ↦ ?_
    rw [if_neg (hlike.not_notNil hoff)]
    exact .pure (like_nil _ _)
  | timeLimitPending _ hoff hp ih =>
    refine .ask (fun _ ↦ rfl) ih fun b _ hlike ↦ ?_
    rw [if_pos (hlike.notNil hoff), if_pos (hlike.pending.mp hp)]
    exact .pure (hlike.wrapped rfl rfl)
  | timeLimit _ hoff hp hcut hlt ih =>
    refine .ask (fun _ ↦ rfl) ih fun b _ hlike ↦ ?_
    rw [hcut, hlike.time hp] at hlt
    rw [if_pos (hlike.notNil hoff), if_neg (hlike.pending.not.mp hp)]
    dsimp only
    rw [if_pos hlt]
    exact .pure (hlike.wrapped rfl rfl)
  | timeLimitOver _ hoff hp hcut hle ih =>
    refine .ask (fun _ ↦ rfl) ih fun b _ hlike ↦ ?_
    rw [hcut, hlike.time hp] at hle
    rw [if_pos (hlike.notNil hoff), if_neg (hlike.pending.not.mp hp)]
    dsimp only
    rw [if_neg (not_lt.mpr hle)]
    exact .pure (like_nil _ _)
  | staggerPending _ hoff hp _ ih =>
    refine .ask (fun _ ↦ rfl) ih fun b _ hlike ↦ ?_
    rw [if_pos (hlike.notNil hoff)]
    dsimp only
    rw [if_pos (hlike.pending.mp hp)]
    exact .pure (hlike.wrapped rfl rfl)
  | stagger _ hoff hp hnext hdt ih =>
    refine .ask (fun _ ↦ rfl) ih fun b _ hlike ↦ ?_
    rw [if_pos (hlike.notNil hoff)]
    dsimp only
    rw [if_neg (hlike.pending.not.mp hp)]
    refine .after (gives_rand 0) ?_
    rw [if_neg hdt]
    refine .pure ⟨hlike.nil, hlike.pending, neither_null rfl rfl, fun _ ↦ ?_⟩
    rw [hnext, hlike.time hp]
  | mixEmpty => exact .of_succ (.pure (like_nil _ _))
  | @mix idx gens gen ctx a copy idx' hgen ha hoff hcopy ih =>
    refine .ask (op_mix hgen ctx) ih fun b hb hlike ↦ ?_
    have hselves {self : GeneratorPtr} (hr : Rebuilt true false gen self) :
        Pointwise (Rebuilt true false) gens (gens.set idx self) :=
      .set (fun g ↦ .refl g) hgen hr
    obtain ⟨copy', hcopy'⟩ := (copyEach_polled (hselves hb.rebuilt)).mpr
      ((copyEach_polled (hselves ha.rebuilt)).mp ⟨copy, hcopy⟩)
    have hlen := (GeneratorPtr.copyEach_rebuilt true hcopy').1
    have hlt : idx < (copy'.set idx b.gen2).length := by
      rw [List.length_set, ← hlen, List.length_set]
      exact (List.getElem?_eq_some_iff.mp hgen).1
    simp only [if_pos (hlike.notNil hoff)]
    exact .after (.lift hcopy') (.after (gives_mix hlt) (.pure (hlike.wrapped rfl rfl)))
  | @mixDrop idx gens gen ctx a copy idx' b hgen ha hoff hcopy hb ih₁ ih₂ =>
    refine .ask (op_mix hgen ctx) ih₁ fun c _ hlike ↦ ?_
    simp only [if_neg (hlike.not_notNil hoff)]
    refine .after (.lift hcopy) ?_
    by_cases hlt : idx' < copy.length
    · exact .after (gives_mix hlt) (ih₂.bind fun b' _ hlike' ↦ .pure (hlike'.wrap hlike'.null))
    -- the member that was dropped was the last one
    · obtain rfl : copy = [] := by
        cases hb with
        | mixEmpty => rfl
        | mix hgen' | mixDrop hgen' => exact absurd (List.getElem?_eq_some_iff.mp hgen').1 hlt
      exact .inl never_mix_nil.bind
  | @any gens ctx as i a copy hlen has hbest hcopy ih =>
    rcases realized_poll ⟨hlen, ih⟩ 0 {} with h | ⟨loop, bs, hpoll, hbs, hlike⟩
    · exact .inl (.of_succ h.bind)
    · refine .of_succ (.after hpoll ?_)
      have htracks := tracks_of_gives hpoll
      rcases htracks with ⟨-, -, hnone⟩ | ⟨j, b, hb, hop, hgen, -⟩
      · obtain ⟨b, hb, hab⟩ := hlike.exists_right hbest.mem
        exact absurd (hab.offer_iff.mp hbest.offer) (hnone b hb)
      · have hselves {as : List Answer} (h : Pointwise (fun g a ↦ Answers g ctx a) gens as) :
            Pointwise (Rebuilt true false) gens (as.map Answer.self) :=
          Pointwise.map_right.mpr (h.mono fun _ _ _ ha ↦ ha.rebuilt)
        obtain ⟨copy', hcopy'⟩ := (copyEach_polled (hselves hbs)).mpr
          ((copyEach_polled (hselves ⟨hlen, has⟩)).mp ⟨copy, hcopy⟩)
        dsimp only
        rw [if_pos (by rw [hop, hgen]; exact hb.offer), hop]
        exact .after (.lift hcopy') (.pure (hbest.like hlike hb (neither_null rfl rfl)))
  | @anyNil gens ctx as hlen has hnone ih =>
    rcases realized_poll ⟨hlen, ih⟩ 0 {} with h | ⟨loop, bs, hpoll, hbs, hlike⟩
    · exact .inl (.of_succ h.bind)
    · refine .of_succ (.after hpoll ?_)
      rcases tracks_of_gives hpoll with ⟨-, hgen, -⟩ | ⟨j, b, hb, -⟩
      · dsimp only
        rw [if_neg (by simp [notNil, hgen, GeneratorPtr.isNull])]
        exact .pure (like_nil _ _)
      · obtain ⟨a, ha, hab⟩ := hlike.exists_left hb.mem
        exact absurd (hab.offer_iff.mpr hb.offer) (hnone a ha)
  | @userNil leaf calls ctx k hnil =>
    refine .of_succ (.after (gives_rand k) ?_)
    dsimp only
    rw [if_pos hnil]
    exact .pure (like_nil _ _)
  | @user leaf calls ctx k r hnil hfill =>
    refine .of_succ (.after (gives_rand k) ?_)
    dsimp only
    rw [if_neg hnil]
    exact .after hfill.gives (.pure (.of_op rfl (neither_null rfl rfl)))

end Jepsen
