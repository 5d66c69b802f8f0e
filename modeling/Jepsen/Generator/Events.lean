import Jepsen.Generator.Leaves

/-!
# The events that reach a leaf

Events reach the leaves of a tree through `Validate`, `OnThreads`, `TimeLimit`, `Stagger` and `Any`
only.  `Routed P path g` says of such a tree that every leaf has received events with `P`.  Asking
and copying deliver no event, and `update` delivers its event once to each leaf below filters that
accept the thread which runs the event's process.
-/

namespace Jepsen

open Library
open GeneratorPtr (copyOne copyEach update)

def LeafCall.event : LeafCall → Option Operation
  | .updated _ event => some event
  | _ => none

/-- The events that a leaf received, in their order. -/
def events (calls : List LeafCall) : List Operation := calls.filterMap LeafCall.event

@[simp] theorem events_polled (calls : List LeafCall) (ctx : Context) (k : Nat) :
    events (calls ++ [.polled ctx k]) = events calls := by
  simp [events, LeafCall.event]

@[simp] theorem events_taken (calls : List LeafCall) (ctx : Context) (k : Nat) :
    events (calls ++ [.taken ctx k]) = events calls := by
  simp [events, LeafCall.event]

@[simp] theorem events_updated (calls : List LeafCall) (ctx : Context) (event : Operation) :
    events (calls ++ [.updated ctx event]) = events calls ++ [event] := by
  simp [events, LeafCall.event]

/-- What a leaf below the filters `path` has received. -/
abbrev Received := List ThreadFilter → UserLeaf → List Operation → Prop

/-- A tree of `Validate`, `OnThreads`, `TimeLimit`, `Stagger` and `Any` over users' leaves that
leave the process to the context. -/
inductive Routed (P : Received) : List ThreadFilter → GeneratorPtr → Prop
  | user {path leaf calls} (h : P path leaf (events calls))
      (hproc : ∀ calls ctx k, (leaf.next calls ctx k).process = kInvalidProcess) :
      Routed P path (.user leaf calls)
  | validate {path g} (h : Routed P path g) : Routed P path (.validate g)
  | onThreads {path g filter} (h : Routed P (path ++ [filter]) g) :
      Routed P path (.onThreads g filter)
  | timeLimit {path limit cutoff g} (h : Routed P path g) :
      Routed P path (.timeLimit limit cutoff g)
  | stagger {path dt next_time g} (h : Routed P path g) : Routed P path (.stagger dt next_time g)
  | any {path gs} (h : ∀ g ∈ gs, Routed P path g) : Routed P path (.any gs)

namespace Routed

variable {P : Received} {path : List ThreadFilter}

theorem ne_nullptr {g : GeneratorPtr} (h : Routed P path g) : g ≠ .nullptr := by
  rintro rfl
  cases h

theorem mono {Q : Received} {g : GeneratorPtr} (h : Routed P path g)
    (hPQ : ∀ sub leaf es, P (path ++ sub) leaf es → Q (path ++ sub) leaf es) : Routed Q path g := by
  induction h with
  | user h hproc => exact .user (by simpa using hPQ [] _ _ (by simpa using h)) hproc
  | validate _ ih => exact .validate (ih hPQ)
  | @onThreads path g filter _ ih =>
    refine .onThreads (ih fun sub leaf es hP ↦ ?_)
    rw [List.append_assoc] at hP ⊢
    exact hPQ _ _ _ hP
  | timeLimit _ ih => exact .timeLimit (ih hPQ)
  | stagger _ ih => exact .stagger (ih hPQ)
  | any _ ih => exact .any fun g hg ↦ ih g hg hPQ

theorem allLeaves {Q : LeafProperty} (hQ : ∀ path o, o.process = kInvalidProcess → Q path o)
    {g : GeneratorPtr} (h : Routed P path g) : AllLeaves Q path g := by
  induction h with
  | user _ hproc => exact .user fun calls ctx k ↦ hQ _ _ (hproc calls ctx k)
  | validate _ ih => exact .validate ih
  | onThreads _ ih => exact .onThreads ih
  | timeLimit _ ih => exact .timeLimit ih
  | stagger _ ih => exact .stagger ih
  | any _ ih => exact .any ih

/-! ## Copies and calls -/

theorem copyOne {g g' : GeneratorPtr} (h : Routed P path g) (hcopy : copyOne g = .ok g') :
    Routed P path g' := by
  induction h generalizing g' with
  | user h hproc =>
    obtain rfl := Except.ok.inj hcopy
    exact .user h hproc
  | validate h ih =>
    rw [GeneratorPtr.copyOne, if_neg (by simpa using h.ne_nullptr)] at hcopy
    obtain ⟨g₁, hg, rfl⟩ := GeneratorPtr.except_map_eq_ok.mp hcopy
    exact .validate (ih hg)
  | onThreads h ih =>
    rw [GeneratorPtr.copyOne, if_neg (by simpa using h.ne_nullptr)] at hcopy
    obtain ⟨g₁, hg, rfl⟩ := GeneratorPtr.except_map_eq_ok.mp hcopy
    exact .onThreads (ih hg)
  | timeLimit h ih =>
    rw [GeneratorPtr.copyOne, if_neg (by simpa using h.ne_nullptr)] at hcopy
    obtain ⟨g₁, hg, rfl⟩ := GeneratorPtr.except_map_eq_ok.mp hcopy
    exact .timeLimit (ih hg)
  | stagger h ih =>
    rw [GeneratorPtr.copyOne, if_neg (by simpa using h.ne_nullptr)] at hcopy
    obtain ⟨g₁, hg, rfl⟩ := GeneratorPtr.except_map_eq_ok.mp hcopy
    exact .stagger (ih hg)
  -- the members of an `Any` are copied one by one
  | @any path gs _ ih =>
    rw [GeneratorPtr.copyOne] at hcopy
    obtain ⟨gs', hgs, rfl⟩ := GeneratorPtr.except_map_eq_ok.mp hcopy
    have hcopied : Pointwise (fun _ g' ↦ Routed P path g') gs gs' :=
      GeneratorPtr.copyEach_pointwise (fun g hg g' ↦ ih g hg) hgs
    exact .any (hcopied.forall_right fun _ _ h ↦ h)

theorem copyEach {gs gs' : List GeneratorPtr} (h : ∀ g ∈ gs, Routed P path g)
    (hcopy : GeneratorPtr.copyEach gs = .ok gs') : ∀ g' ∈ gs', Routed P path g' := by
  have hcopied : Pointwise (fun _ g' ↦ Routed P path g') gs gs' :=
    GeneratorPtr.copyEach_pointwise (fun g hg g' ↦ (h g hg).copyOne) hcopy
  exact hcopied.forall_right fun _ _ h ↦ h

/-- A call delivers no event, and an operation comes with a successor. -/
theorem answers {g : GeneratorPtr} {ctx : Context} {a : Answer} (h : Routed P path g)
    (ha : Answers g ctx a) :
    (a.op.type = .kNil ∨ Routed P path a.gen2) ∧ Routed P path a.self := by
  induction ha generalizing path with
  | @validate gen ctx a ha hoff ih =>
    cases h with
    | validate h =>
      obtain ⟨hnext, hself⟩ := ih h
      exact ⟨hnext.imp_right .validate, .validate hself⟩
  | @validateLast gen ctx a ha hoff ih =>
    cases h with
    | validate h =>
      obtain ⟨hnext, hself⟩ := ih h
      refine ⟨.inl ?_, .validate hself⟩
      by_contra hnil
      exact hoff (Answer.offer_iff.mpr ⟨hnil, (hnext.resolve_left hnil).ne_nullptr⟩)
  | onThreads _ _ ih =>
    cases h with
    | onThreads h => exact ⟨(ih h).1.imp_right .onThreads, .onThreads (ih h).2⟩
  -- `:nil` ends the generator, and nothing is delivered to it from then on
  | onThreadsNil _ _ ih =>
    cases h with
    | onThreads h => exact ⟨.inl rfl, .onThreads (ih h).2⟩
  | timeLimitPending _ _ _ ih | timeLimit _ _ _ _ _ ih =>
    cases h with
    | timeLimit h => exact ⟨(ih h).1.imp_right .timeLimit, .timeLimit (ih h).2⟩
  | timeLimitOver _ _ _ _ _ ih | timeLimitNil _ _ ih =>
    cases h with
    | timeLimit h => exact ⟨.inl rfl, .timeLimit (ih h).2⟩
  | staggerPending _ _ _ _ ih =>
    cases h with
    | stagger h => exact ⟨.inr (.stagger (ih h).2), .stagger (ih h).2⟩
  | stagger _ _ _ _ _ ih =>
    cases h with
    | stagger h => exact ⟨(ih h).1.imp_right .stagger, .stagger (ih h).2⟩
  | staggerNil _ _ ih =>
    cases h with
    | stagger h => exact ⟨.inl rfl, .stagger (ih h).2⟩
  | @any gens ctx as i a copy hlen has hbest hcopy ih =>
    cases h with
    | any h =>
      have hall : ∀ b ∈ as, (b.op.type = .kNil ∨ Routed P path b.gen2) ∧ Routed P path b.self :=
        Pointwise.forall_mem_of_getElem hlen (fun j hj hj' ↦ ih j hj hj') h
      have hselves : ∀ g ∈ as.map Answer.self, Routed P path g :=
        List.forall_mem_map.mpr fun b hb ↦ (hall b hb).2
      have hnext := (hall a hbest.mem).1.resolve_left (Answer.offer_iff.mp hbest.offer).1
      exact ⟨.inr (.any (forall_mem_set (Routed.copyEach hselves hcopy) hnext)), .any hselves⟩
  | @anyNil gens ctx as hlen has _ ih =>
    cases h with
    | any h =>
      refine ⟨.inl rfl, .any (List.forall_mem_map.mpr ?_)⟩
      exact Pointwise.forall_mem_of_getElem hlen (fun j hj hj' hg ↦ (ih j hj hj' hg).2) h
  | userNil =>
    cases h with
    | user h hproc => exact ⟨.inl rfl, .user (by simpa using h) hproc⟩
  | user =>
    cases h with
    | user h hproc => exact ⟨.inr (.user (by simpa using h) hproc), .user (by simpa using h) hproc⟩
  | _ => cases h

end Routed

/-! ## Updates -/

namespace Context

theorem Distinct.restrict {ctx : Context} (h : ctx.Distinct) (path : List ThreadFilter) :
    (ctx.restrict path).Distinct :=
  fun t t' p ht ht' ↦ h t t' p (lookup_restrict.mp ht).1 (lookup_restrict.mp ht').1

theorem restrict_snoc (path : List ThreadFilter) (filter : ThreadFilter) (ctx : Context) :
    ctx.restrict (path ++ [filter]) = onThreadsContext filter (ctx.restrict path) :=
  List.foldl_append

/-- The thread of a process is found in a restricted context exactly when all filters accept it. -/
theorem processToThread_restrict {ctx : Context} (hd : ctx.Distinct) {t p : Int}
    (ht : ctx.workers.lookup t = some p) {path : List ThreadFilter} (hpath : ∀ f ∈ path, f t) :
    (ctx.restrict path).processToThread p = t :=
  processToThread_of_lookup (hd.restrict path) (lookup_restrict.mpr ⟨ht, hpath⟩)

end Context

/-- After an event of thread `t` the leaves below filters that accept `t` have received it. -/
def Received.deliver (P : Received) (t : Int) (event : Operation) : Received :=
  fun path leaf es ↦
    if ∀ f ∈ path, f t then ∃ before, es = before ++ [event] ∧ P path leaf before
    else P path leaf es

namespace Routed

variable {P : Received} {path : List ThreadFilter} {g g' : GeneratorPtr}

theorem unreached (h : Routed P path g) {t : Int} (event : Operation)
    (hpath : ¬ ∀ f ∈ path, f t) : Routed (P.deliver t event) path g := by
  refine h.mono fun sub leaf es hP ↦ ?_
  rw [Received.deliver, if_neg]
  · exact hP
  · exact fun hall ↦ hpath fun f hf ↦ hall f (List.mem_append_left sub hf)

/-- `update` delivers the event once to every leaf that the thread's filters lead to. -/
theorem update {ctx : Context} {event : Operation} {t : Int} (h : Routed P path g)
    (hd : ctx.Distinct) (ht : ctx.workers.lookup t = some event.process)
    (hpath : ∀ f ∈ path, f t)
    (hup : GeneratorPtr.update g (ctx.restrict path) event = .ok g') :
    Routed (P.deliver t event) path g' := by
  induction h generalizing g' with
  | user h hproc =>
    obtain rfl := Except.ok.inj hup
    refine .user ?_ hproc
    rw [Received.deliver, if_pos hpath, events_updated]
    exact ⟨_, rfl, h⟩
  | validate _ ih =>
    rw [GeneratorPtr.update] at hup
    obtain ⟨g₁, hg, rfl⟩ := GeneratorPtr.except_map_eq_ok.mp hup
    exact .validate (ih hpath hg)
  | @onThreads path g filter h ih =>
    rw [GeneratorPtr.update, Context.processToThread_restrict hd ht hpath] at hup
    split at hup
    · rename_i hf
      obtain ⟨g₁, hg, rfl⟩ := GeneratorPtr.except_map_eq_ok.mp hup
      -- The filter lets the thread through, so that the path reaches one node further.
      rw [← Context.restrict_snoc] at hg
      refine .onThreads (ih (fun f hmem ↦ ?_) hg)
      rcases List.mem_append.mp hmem with hmem | hmem
      · exact hpath f hmem
      · exact List.mem_singleton.mp hmem ▸ hf
    · rename_i hf
      obtain rfl := Except.ok.inj hup
      -- It does not, and no leaf below hears of the event.
      exact .onThreads (h.unreached event fun hall ↦ hf (hall filter (by simp)))
  | timeLimit _ ih =>
    rw [GeneratorPtr.update] at hup
    obtain ⟨g₁, hg, rfl⟩ := GeneratorPtr.except_map_eq_ok.mp hup
    exact .timeLimit (ih hpath hg)
  | stagger _ ih =>
    rw [GeneratorPtr.update] at hup
    obtain ⟨g₁, hg, rfl⟩ := GeneratorPtr.except_map_eq_ok.mp hup
    exact .stagger (ih hpath hg)
  | @any path gs _ ih =>
    rw [GeneratorPtr.update] at hup
    obtain ⟨gs', hgs, rfl⟩ := GeneratorPtr.except_map_eq_ok.mp hup
    have hupdated : Pointwise (fun _ g' ↦ Routed (P.deliver t event) path g') gs gs' :=
      GeneratorPtr.updateEach_pointwise (fun g hg g' ↦ ih g hg hpath) hgs
    exact .any (hupdated.forall_right fun _ _ h ↦ h)

end Routed

end Jepsen
