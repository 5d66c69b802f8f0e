import Jepsen.Generator.Derive
import Jepsen.Generator.Null
import Jepsen.Generator.Stocked

/-!
# Generators that have nothing to offer

A null pointer or an empty list is a generator with nothing to offer.  As a member of an `Any` or a
`Mix` a null pointer is called through as soon as the members are copied, and an update turns an
empty list into a null pointer.  Trees without such members, which are never updated where an `Any`
holds an empty list, stay free of this fault, and stay stocked.  There an empty member is as good as
none.
-/

namespace Jepsen

open Library GeneratorFactory
open GeneratorPtr (copyOne copyEach copyOrNull members writeBackEach update Rebuilt)

/-! ## Successors of fit trees -/

variable {E : Fault → Prop}

theorem Fit.copyEach_ok {gs gs' : List GeneratorPtr} (h : ∀ g ∈ gs, Fit E g)
    (hsolid : E .nullPointer ∨ ∀ g ∈ gs, g.solid = true)
    (hcopy : GeneratorPtr.copyEach gs = .ok gs') : Pointwise (Copied E) gs gs' :=
  (Fit.copyEach h hsolid).ok hcopy

theorem Fit.copyOrNull_ok {gs gs' : List GeneratorPtr} (h : ∀ g ∈ gs, Fit E g)
    (hcopy : GeneratorPtr.copyOrNull gs = .ok gs') : Pointwise (Copied E) gs gs' :=
  (Fit.copyOrNull h).ok hcopy

-- A copied member is fit, and solid if its original is.
theorem forall_fit_copied {gs gs' : List GeneratorPtr} (h : Pointwise (Copied E) gs gs') :
    ∀ g ∈ gs', Fit E g :=
  h.forall_right fun _ _ hgg' ↦ hgg'.fit

theorem forall_solid_copied {gs gs' : List GeneratorPtr} (h : Pointwise (Copied E) gs gs')
    (hsolid : ∀ g ∈ gs, g.solid = true) : ∀ g ∈ gs', g.solid = true :=
  h.forall_mem (fun _ _ hgg' ↦ hgg'.solid) hsolid

/-- Where an empty `Mix` and an index out of range are tolerated, the successor in an answer is as
fit as the asked tree. -/
theorem Answers.fit {g : GeneratorPtr} {ctx : Context} {a : Answer} (ha : Answers g ctx a)
    (hrange : E .outOfRange) (hzero : E .divisionByZero) (h : Fit E g) : Fit E a.gen2 := by
  induction ha with
  | nullptr | operation | listEmpty | onThreadsNil | timeLimitOver | timeLimitNil | staggerNil
  | mixEmpty | anyNil | userNil => exact .nullptr
  | pending => exact .operation
  | user => exact .user
  | function _ ih => exact ih (.list (by simpa using ⟨Fit.operation, Fit.function⟩))
  | listPop ha _ _ hcopy _ _ ih₂ =>
    cases h with
    | list h =>
      obtain ⟨hfirst, hrest⟩ := List.forall_mem_cons.mp h
      have hfits := List.forall_mem_cons.mpr ⟨hfirst.polled ha.rebuilt rfl, hrest⟩
      have hcopied := forall_fit_copied (Fit.copyOrNull_ok hfits hcopy)
      exact ih₂ (.list (List.forall_mem_cons.mp hcopied).2)
  | listFront ha _ hcopy _ ih =>
    cases h with
    | list h =>
      obtain ⟨hfirst, hrest⟩ := List.forall_mem_cons.mp h
      have hfits := List.forall_mem_cons.mpr ⟨hfirst.polled ha.rebuilt rfl, hrest⟩
      have hcopied := forall_fit_copied (Fit.copyOrNull_ok hfits hcopy)
      exact .list (List.forall_mem_cons.mpr ⟨ih hfirst, (List.forall_mem_cons.mp hcopied).2⟩)
  | listSingle _ _ ih => cases h with | list h => exact ih (h _ (by simp))
  | validate _ _ ih => cases h with | validate h => exact .validate (ih h)
  | validateLast _ _ ih => cases h with | validate h => exact ih h
  | onThreads _ _ ih => cases h with | onThreads h => exact .onThreads (ih h)
  | timeLimitPending _ _ _ ih | timeLimit _ _ _ _ _ ih =>
    cases h with | timeLimit h => exact .timeLimit (ih h)
  -- a pending answer keeps the receiver's own generator
  | staggerPending ha =>
    cases h with | stagger hdt h => exact .stagger hdt (h.polled ha.rebuilt rfl)
  | stagger _ _ _ _ _ ih => cases h with | stagger hdt h => exact .stagger hdt (ih h)
  | @mix idx gens gen ctx a copy idx' hgen ha hoff hcopy ih =>
    cases h with
    | mix _ hsolid _ h =>
      have hmem := List.mem_of_getElem? hgen
      -- the members after the call, their copies, and the successor among these
      have hself := forall_mem_set (i := idx) h ((h gen hmem).polled ha.rebuilt rfl)
      have hsolid' : E .nullPointer ∨ ∀ g ∈ gens.set idx a.self, g.solid = true :=
        hsolid.imp id fun hs ↦ forall_mem_set hs (ha.rebuilt.solid_of_polled rfl (hs gen hmem))
      have hcopied := Fit.copyEach_ok hself hsolid' hcopy
      refine .mix (.inl hrange) (hsolid'.imp id fun hs ↦ ?_) (.inl hzero)
        (forall_mem_set (forall_fit_copied hcopied) (ih (h gen hmem)))
      exact forall_mem_set (forall_solid_copied hcopied hs) (ha.solid hoff).2
  | @mixDrop idx gens gen ctx a copy idx' b hgen ha hoff hcopy hb ih₁ ih₂ =>
    cases h with
    | mix _ hsolid _ h =>
      have hothers : ∀ g ∈ gens.eraseIdx idx, Fit E g :=
        fun g hg ↦ h g (List.mem_of_mem_eraseIdx hg)
      have hsolid' : E .nullPointer ∨ ∀ g ∈ gens.eraseIdx idx, g.solid = true :=
        hsolid.imp id fun hs g hg ↦ hs g (List.mem_of_mem_eraseIdx hg)
      have hcopied := Fit.copyEach_ok hothers hsolid' hcopy
      exact ih₂ (.mix (.inl hrange) (hsolid'.imp id (forall_solid_copied hcopied)) (.inl hzero)
        (forall_fit_copied hcopied))
  | @any gens ctx as i a copy hlen has hbest hcopy ih =>
    cases h with
    | any hsolid h =>
      have hselves : ∀ b ∈ as, Fit E b.gen2 ∧ Fit E b.self ∧
          ((∀ g ∈ gens, g.solid = true) → b.self.solid = true) := by
        intro b hb
        obtain ⟨j, hj, hj', rfl⟩ := Pointwise.exists_getElem hlen hb
        have hmem := List.getElem_mem hj
        have hr := (has j hj hj').rebuilt
        exact ⟨ih j hj hj' (h _ hmem), (h _ hmem).polled hr rfl,
          fun hs ↦ hr.solid_of_polled rfl (hs _ hmem)⟩
      have hsolid' : E .nullPointer ∨ ∀ g ∈ as.map Answer.self, g.solid = true :=
        hsolid.imp id fun hs ↦ List.forall_mem_map.mpr fun b hb ↦ (hselves b hb).2.2 hs
      have hcopied := Fit.copyEach_ok (List.forall_mem_map.mpr fun b hb ↦ (hselves b hb).2.1)
        hsolid' hcopy
      have hchosen := has i (hlen ▸ (List.getElem?_eq_some_iff.mp hbest.get).1)
        (List.getElem?_eq_some_iff.mp hbest.get).1
      rw [(List.getElem?_eq_some_iff.mp hbest.get).2] at hchosen
      refine .any (hsolid'.imp id fun hs ↦ ?_)
        (forall_mem_set (forall_fit_copied hcopied) (hselves a hbest.mem).1)
      exact forall_mem_set (forall_solid_copied hcopied hs) (hchosen.solid hbest.offer).2

/-! ## Updates that empty a member -/

namespace GeneratorPtr

-- An update is solid exactly if the tree is lasting: an empty list becomes null.
theorem solid_of_update {g g' : GeneratorPtr} {ctx : Context} {event : Operation}
    (hup : update g ctx event = .ok g') : g'.solid = g.lasting := by
  induction g generalizing g' with
  | nullptr | operation o | function f | user leaf calls | mix idx gs =>
    obtain rfl := Except.ok.inj hup
    rfl
  | list gs =>
    cases gs with
    | nil =>
      obtain rfl := Except.ok.inj hup
      rfl
    | cons g gs =>
      rw [update] at hup
      obtain ⟨upd, -, hup⟩ := except_bind_eq_ok.mp hup
      obtain ⟨copy, -, rfl⟩ := except_map_eq_ok.mp hup
      rfl
  | validate g =>
    rw [update] at hup
    obtain ⟨g₁, -, rfl⟩ := except_map_eq_ok.mp hup
    rfl
  | onThreads g filter =>
    rw [update] at hup
    split at hup
    · obtain ⟨g₁, -, rfl⟩ := except_map_eq_ok.mp hup
      rfl
    · obtain rfl := Except.ok.inj hup
      rfl
  -- A `TimeLimit` and a `Stagger` are rebuilt around what the update leaves of their child.
  | timeLimit limit cutoff g ih =>
    rw [update] at hup
    obtain ⟨g₁, hg, rfl⟩ := except_map_eq_ok.mp hup
    change g₁.solid = g.lasting
    exact ih hg
  | stagger dt nt g ih =>
    rw [update] at hup
    obtain ⟨g₁, hg, rfl⟩ := except_map_eq_ok.mp hup
    change g₁.solid = g.lasting
    exact ih hg
  | any gs =>
    rw [update] at hup
    obtain ⟨gs', -, rfl⟩ := except_map_eq_ok.mp hup
    rfl

end GeneratorPtr

/-- The update reaches an `Any` with a member that becomes null, at once or in the next copy. -/
inductive Empties (event : Operation) : GeneratorPtr → Context → Prop
  | any {gs : List GeneratorPtr} {g ctx} (hg : g ∈ gs) (hlast : g.lasting = false) :
      Empties event (.any gs) ctx
  | anyMember {gs : List GeneratorPtr} {g ctx} (hg : g ∈ gs) (h : Empties event g ctx) :
      Empties event (.any gs) ctx
  | list {g gs ctx} (h : Empties event g ctx) : Empties event (.list (g :: gs)) ctx
  | validate {g ctx} (h : Empties event g ctx) : Empties event (.validate g) ctx
  | onThreads {g filter ctx} (hf : filter (ctx.processToThread event.process) = true)
      (h : Empties event g (onThreadsContext filter ctx)) : Empties event (.onThreads g filter) ctx
  | timeLimit {limit cutoff g ctx} (h : Empties event g ctx) :
      Empties event (.timeLimit limit cutoff g) ctx
  | stagger {dt next_time g ctx} (h : Empties event g ctx) :
      Empties event (.stagger dt next_time g) ctx

/-- Members of `Any` and `Mix` are not null, and do not become so in a copy. -/
abbrev NullFree : GeneratorPtr → Prop := Fit (· ≠ .nullPointer)

theorem updateEach_outcome {R : GeneratorPtr → GeneratorPtr → Prop} {gs : List GeneratorPtr}
    {ctx : Context} {event : Operation} (h : ∀ g ∈ gs, Outcome E (R g) (update g ctx event)) :
    Outcome E (Pointwise R gs) (GeneratorPtr.updateEach gs ctx event) := by
  induction gs with
  | nil => exact Pointwise.nil
  | cons g gs ih =>
    obtain ⟨hg, hgs⟩ := List.forall_mem_cons.mp h
    exact hg.bind fun g' hg' ↦ (ih hgs).bind fun gs' hgs' ↦ Pointwise.cons hg' hgs'

/-- An update of a tree without null members calls no null pointer, and leaves no null member
exactly when it empties none. -/
theorem NullFree.update {g : GeneratorPtr} {ctx : Context} {event : Operation} (h : NullFree g) :
    Outcome (· ≠ .nullPointer) (fun g' ↦ NullFree g' ↔ ¬ Empties event g ctx)
      (GeneratorPtr.update g ctx event) := by
  induction g generalizing ctx with
  -- leaves and a `Mix` are never emptied
  | nullptr | operation o | function f | user leaf calls | mix idx gs =>
    refine iff_of_true ?_ fun hempties ↦ by cases hempties
    first | exact h | exact .user
  | list gs ih =>
    cases gs with
    | nil => exact iff_of_true .nullptr fun hempties ↦ by cases hempties
    | cons g gs =>
      cases h with
      | list h =>
        rw [GeneratorPtr.update]
        refine (ih g (by simp) (h g (by simp))).bind fun upd hupd ↦
          (Fit.copyOrNull h).bind fun copy hcopy ↦ ?_
        obtain ⟨_, copy, -, hcopies, rfl⟩ := hcopy.uncons
        have hiff : NullFree (.list (upd :: copy)) ↔ NullFree upd := by
          constructor
          · intro h
            cases h with | list h => exact h upd (by simp)
          · exact fun h ↦ .list (List.forall_mem_cons.mpr ⟨h, forall_fit_copied hcopies⟩)
        refine hiff.trans (hupd.trans (not_congr ⟨.list, fun h ↦ ?_⟩))
        cases h with | list h => exact h
  | validate g ih =>
    cases h with
    | validate h =>
      rw [GeneratorPtr.update]
      refine (ih h).bind fun g' hg' ↦ ?_
      have hiff : NullFree (.validate g') ↔ NullFree g' :=
        ⟨fun h ↦ (by cases h with | validate h => exact h), .validate⟩
      refine hiff.trans (hg'.trans (not_congr ⟨.validate, fun h ↦ ?_⟩))
      cases h with | validate h => exact h
  | onThreads g filter ih =>
    cases h with
    | onThreads h =>
      rw [GeneratorPtr.update]
      split
      · rename_i hf
        refine (ih h).bind fun g' hg' ↦ ?_
        -- the event passes the filter
        have hiff : NullFree (.onThreads g' filter) ↔ NullFree g' :=
          ⟨fun h ↦ (by cases h with | onThreads h => exact h), .onThreads⟩
        refine hiff.trans (hg'.trans (not_congr ⟨.onThreads hf, fun h ↦ ?_⟩))
        cases h with | onThreads _ h => exact h
      · rename_i hf
        refine iff_of_true (.onThreads h) fun hempties ↦ ?_
        cases hempties with | onThreads hf' => exact hf hf'
  | timeLimit limit cutoff g ih =>
    cases h with
    | timeLimit h =>
      rw [GeneratorPtr.update]
      refine (ih h).bind fun g' hg' ↦ ?_
      have hiff : NullFree (.timeLimit limit cutoff g') ↔ NullFree g' :=
        ⟨fun h ↦ (by cases h with | timeLimit h => exact h), .timeLimit⟩
      refine hiff.trans (hg'.trans (not_congr ⟨.timeLimit, fun h ↦ ?_⟩))
      cases h with | timeLimit h => exact h
  | stagger dt nt g ih =>
    cases h with
    | stagger hdt h =>
      rw [GeneratorPtr.update]
      refine (ih h).bind fun g' hg' ↦ ?_
      have hiff : NullFree (createStaggerAt dt nt g') ↔ NullFree g' :=
        ⟨fun h ↦ (by cases h with | stagger _ h => exact h), .stagger hdt⟩
      refine hiff.trans (hg'.trans (not_congr ⟨.stagger, fun h ↦ ?_⟩))
      cases h with | stagger h => exact h
  | any gs ih =>
    cases h with
    | any hsolid h =>
      rw [GeneratorPtr.update]
      have heach : ∀ g ∈ gs, Outcome (· ≠ .nullPointer)
          (fun g' ↦ g'.solid = g.lasting ∧ (NullFree g' ↔ ¬ Empties event g ctx))
          (GeneratorPtr.update g ctx event) :=
        fun g hg ↦ (ih g hg (h g hg)).mono fun g' hup hg' ↦
          ⟨GeneratorPtr.solid_of_update hup, hg'⟩
      refine (updateEach_outcome heach).bind fun gs' hgs' ↦ ?_
      constructor
      · intro hfree hempties
        cases hfree with
        | any hsolid' hfree =>
          cases hempties with
          -- the member that has nothing to offer is null now
          | any hg hlast =>
            obtain ⟨g', hg', hsolid₁, -⟩ := hgs'.exists_right hg
            have := hsolid'.resolve_left (by simp) g' hg'
            rw [hsolid₁, hlast] at this
            exact absurd this (by decide)
          | anyMember hg hempties =>
            obtain ⟨g', hg', -, hiff⟩ := hgs'.exists_right hg
            exact hiff.mp (hfree g' hg') hempties
      · intro hkept
        refine .any (.inr fun g' hg' ↦ ?_) fun g' hg' ↦ ?_
        · obtain ⟨g, hg, hsolid₁, -⟩ := hgs'.exists_left hg'
          rw [hsolid₁, ← Bool.not_eq_false]
          exact fun hlast ↦ hkept (.any hg hlast)
        · obtain ⟨g, hg, -, hiff⟩ := hgs'.exists_left hg'
          exact hiff.mpr fun hempties ↦ hkept (.anyMember hg hempties)

/-! ## No null pointer is called -/

/-- Calls on a generator, and assignments by calls on other trees that share a `Mix` with it. -/
inductive Evolves : Lts GeneratorPtr (Option Call)
  | call {g c g'} (h : Calls g c g') : Evolves g (some c) g'
  | assigned {g g'} (h : Rebuilt true false g g') : Evolves g none g'

/-- The step is no update that empties a member of an `Any`. -/
def Spares (g : GeneratorPtr) : Option Call → Prop
  | some (.updated ctx event) => ¬ Empties event g ctx
  | _ => True

theorem NullFree.step {g g' : GeneratorPtr} {c : Option Call} (h : NullFree g)
    (hspares : Spares g c) (hstep : Evolves g c g') : NullFree g' := by
  cases hstep with
  | assigned hr => exact h.polled hr rfl
  | call hcall =>
    cases hcall with
    | kept ha => exact ha.fit (by decide) (by decide) h
    | discarded ha => exact h.polled ha.rebuilt rfl
    | updated hup => exact (h.update.ok hup).mpr hspares
    | copied hcopy =>
      -- a null pointer has no copy
      have hne : g ≠ .nullptr := by
        rintro rfl
        cases hcopy
      exact ((h.copyOne (.inr hne)).ok hcopy).fit

/-- No method of the tree is called through a null pointer. -/
structure CallsNoNull (g : GeneratorPtr) : Prop where
  op : ∀ n ctx draws, Jepsen.op n g ctx draws ≠ .error .nullPointer
  update : ∀ ctx event, GeneratorPtr.update g ctx event ≠ .error .nullPointer
  copyOne : g ≠ .nullptr → GeneratorPtr.copyOne g ≠ .error .nullPointer

theorem NullFree.callsNoNull {g : GeneratorPtr} (h : NullFree g) : CallsNoNull g where
  op n ctx draws herror :=
    (op_yields n h (by decide) (.inl (by decide))).error herror rfl
  update _ _ herror := h.update.error herror rfl
  copyOne hne herror := (h.copyOne (.inr hne)).error herror rfl

theorem Stocked.step {g g' : GeneratorPtr} {c : Option Call} (h : Stocked g)
    (hstep : Evolves g c g') : Stocked g' := by
  cases hstep with
  | assigned hr => exact h.rebuilt hr
  | call hcall =>
    cases hcall with
    | kept ha => exact ha.stocked h.stockedBelow
    | discarded ha => exact h.rebuilt ha.rebuilt
    | updated hup => exact h.rebuilt (GeneratorPtr.update_rebuilt hup)
    | copied hcopy =>
      have hr : Rebuilt true true g g' := GeneratorPtr.copyOne_rebuilt hcopy
      exact h.rebuilt hr

/-! ## Empty members of an `Any` -/

/-- The second tree is the first one without an empty member of one of its `Any` nodes. -/
inductive LeftOut : GeneratorPtr → GeneratorPtr → Prop
  | drop {xs ys : List GeneratorPtr} {e} (h : e.lasting = false) :
      LeftOut (.any (xs ++ e :: ys)) (.any (xs ++ ys))
  | list {gs : List GeneratorPtr} {i g g'} (hg : gs[i]? = some g) (h : LeftOut g g') :
      LeftOut (.list gs) (.list (gs.set i g'))
  | validate {g g'} (h : LeftOut g g') : LeftOut (.validate g) (.validate g')
  | onThreads {g g' filter} (h : LeftOut g g') :
      LeftOut (.onThreads g filter) (.onThreads g' filter)
  | timeLimit {limit cutoff g g'} (h : LeftOut g g') :
      LeftOut (.timeLimit limit cutoff g) (.timeLimit limit cutoff g')
  | stagger {dt next_time g g'} (h : LeftOut g g') :
      LeftOut (.stagger dt next_time g) (.stagger dt next_time g')
  | mix {idx} {gs : List GeneratorPtr} {i g g'} (hg : gs[i]? = some g) (h : LeftOut g g') :
      LeftOut (.mix idx gs) (.mix idx (gs.set i g'))
  | any {gs : List GeneratorPtr} {i g g'} (hg : gs[i]? = some g) (h : LeftOut g g') :
      LeftOut (.any gs) (.any (gs.set i g'))

theorem LeftOut.solid_eq {g g' : GeneratorPtr} (h : LeftOut g g') : g'.solid = g.solid := by
  induction h with
  | timeLimit _ ih | stagger _ ih => exact ih
  | _ => rfl

/-- Without null members nothing is lost with an empty one, wherever it stands. -/
theorem LeftOut.same {g g' : GeneratorPtr} (h : LeftOut g g') (hfree : NullFree g) :
    Same g g' := by
  -- the members with one of them replaced
  have hset {gs : List GeneratorPtr} {i : Nat} {g g' : GeneratorPtr} (hg : gs[i]? = some g)
      (hs : Same g g') : Pointwise Same gs (gs.set i g') := .set .refl hg hs
  have hsolid {gs : List GeneratorPtr} {i : Nat} {g g' : GeneratorPtr} (hg : gs[i]? = some g)
      (h : LeftOut g g') (hsolid : ∀ g ∈ gs, g.solid = true) :
      ∀ g ∈ gs.set i g', g.solid = true :=
    forall_mem_set hsolid (h.solid_eq.trans (hsolid g (List.mem_of_getElem? hg)))
  induction h with
  | @drop xs ys e hidle =>
    cases hfree with
    | any hfree _ =>
      have hfree := hfree.resolve_left (by simp)
      refine same_any_drop ⟨hfree e (by simp), hidle⟩ fun g hg ↦ hfree g ?_
      exact (List.mem_append.mp hg).elim (List.mem_append_left _)
        fun hg ↦ List.mem_append_right _ (List.mem_cons_of_mem _ hg)
  | list hg _ ih =>
    cases hfree with
    | list hfree => exact .ofList (hset hg (ih (hfree _ (List.mem_of_getElem? hg))))
  | validate _ ih => cases hfree with | validate hfree => exact .validate (ih hfree)
  | onThreads _ ih => cases hfree with | onThreads hfree => exact .onThreads (ih hfree)
  | timeLimit _ ih => cases hfree with | timeLimit hfree => exact .timeLimit (ih hfree)
  | stagger _ ih => cases hfree with | stagger _ hfree => exact .stagger (ih hfree)
  | mix hg h ih =>
    cases hfree with
    | mix _ hs _ hfree =>
      have hs := hs.resolve_left (by simp)
      have hsame := hset hg (ih (hfree _ (List.mem_of_getElem? hg)))
      exact .mix hs (hsolid hg h hs) hsame.1 hsame.2
  | any hg h ih =>
    cases hfree with
    | any hs hfree =>
      have hs := hs.resolve_left (by simp)
      exact .ofAny (hset hg (ih (hfree _ (List.mem_of_getElem? hg)))) hs (hsolid hg h hs)

/-! ## Empty members of a `Mix` -/

theorem NullFree.within {t g : GeneratorPtr} (hw : Within t g) (h : NullFree g) : NullFree t := by
  induction hw with
  | refl => exact h
  | list hg _ ih => cases h with | list h => exact ih (h _ hg)
  | validate _ ih => cases h with | validate h => exact ih h
  | onThreads _ ih => cases h with | onThreads h => exact ih h
  | timeLimit _ ih => cases h with | timeLimit h => exact ih h
  | stagger _ ih => cases h with | stagger _ h => exact ih h
  | mix hg _ ih => cases h with | mix _ _ _ h => exact ih (h _ hg)
  | any hg _ ih => cases h with | any _ h => exact ih (h _ hg)

theorem NullFree.copyEach {gs : List GeneratorPtr} (h : ∀ g ∈ gs, NullFree g)
    (hsolid : ∀ g ∈ gs, g.solid = true) : ∃ copy, GeneratorPtr.copyEach gs = .ok copy := by
  have houtcome := Fit.copyEach h (.inr hsolid)
  cases hcopy : GeneratorPtr.copyEach gs with
  | ok copy => exact ⟨copy, rfl⟩
  -- copying fails by a null pointer only
  | error e => exact absurd (copyEach_error hcopy) (houtcome.error hcopy)

/-- The others can be copied, and one of them is not empty. -/
theorem others_lasting {idx : Nat} {gens : List GeneratorPtr} {e : GeneratorPtr}
    (hfree : NullFree (.mix idx gens)) (hstocked : Stocked (.mix idx gens))
    (hget : gens[idx]? = some e) (hidle : e.lasting = false) :
    ∃ copy, copyEach (gens.eraseIdx idx) = .ok copy ∧ ∃ g ∈ copy, g.lasting = true := by
  cases hfree with
  | mix _ hsolid _ hmembers =>
    have hsolid := hsolid.resolve_left (by simp)
    have hothers : ∃ copy, copyEach (gens.eraseIdx idx) = .ok copy :=
      NullFree.copyEach (fun g hg ↦ hmembers g (List.mem_of_mem_eraseIdx hg))
        fun g hg ↦ hsolid g (List.mem_of_mem_eraseIdx hg)
    obtain ⟨copy, hcopy⟩ := hothers
    refine ⟨copy, hcopy, exists_lasting_rebuilt (GeneratorPtr.copyEach_rebuilt true hcopy) ?_⟩
    cases hstocked with
    | mix hlast _ =>
      obtain ⟨g, hg, hlast⟩ := hlast (List.ne_nil_of_mem (List.mem_of_getElem? hget))
      refine ⟨g, (mem_or_mem_eraseIdx hget hg).resolve_left fun heq ↦ ?_, hlast⟩
      rw [heq, hidle] at hlast
      cases hlast

/-! ## Runs -/

end Jepsen
