import Jepsen.Library.Fork
import Jepsen.Runner.Shutdown

/-!
# A whole test

`Runner::run`: the nodes are prepared, the loop runs, and the nodes are cleaned up.  Each
`std::for_each(std::execution::par, ..)` works on all nodes side by side, and what was handed to
`std::async` goes on beside it until its future is waited for.
-/

namespace Jepsen

open Library Context GeneratorFactory

namespace Harness

/-- The calls on one node, and on the client object that belongs to it. -/
inductive NodeCall where
  | osSetup | osTeardown | dbSetup | dbTeardown
  | createClient | clientOpen | clientSetup | clientTeardown | clientClose
  deriving DecidableEq, Repr

/-- The calls with which `Runner::run` sets up and tears down.  A node has its position in `nodes`
besides its name.  The nemesis object that the constructor of `NemesisWorker` makes in `runCases` is
none of them. -/
inductive Call where
  | node (i : Nat) (name : String) (c : NodeCall)
  | getPrimaries
  | setupPrimary (name : String)
  | createNemesis | nemesisSetup | nemesisTeardown
  deriving DecidableEq, Repr

/-- The call as one on the node at position `i`. -/
def Call.on (i : Nat) : Call → Option NodeCall
  | .node j _ c => if j = i then some c else none
  | _ => none

end Harness

structure Harness where
  nodes : List String
  concurrency : Nat
  generator : GeneratorPtr
  /-- What `getPrimaries` answers, where the database is a `DBPrimaryInterface`. -/
  primaries : Option (List String)
  leaveDbRunning : Bool

namespace Harness

variable (h : Harness)

/-- `std::for_each` over the nodes, in parallel. -/
def forEachNode (cs : List NodeCall) : Plan Call :=
  .parAll (h.nodes.zipIdx.map fun n ↦ .block (cs.map (.node n.2 n.1)))

def setupOS : Plan Call := h.forEachNode [.osSetup]

def teardownOS : Plan Call := h.forEachNode [.osTeardown]

def teardownDB : Plan Call := h.forEachNode [.dbTeardown]

/-- "Setup Primary if it exists" -/
def primaryCalls : List Call :=
  match h.primaries with
  | none => []
  | some primaries => .getPrimaries :: primaries.map .setupPrimary

def setupDB : Plan Call := .seq (h.forEachNode [.dbSetup]) (.block h.primaryCalls)

def createClients : Plan Call :=
  .block (h.nodes.zipIdx.map fun n ↦ .node n.2 n.1 .createClient)

def setupClientNemesis : Plan Call :=
  .seq (.act .createNemesis)
    (.par (.act .nemesisSetup)
      (.seq h.createClients (h.forEachNode [.clientOpen, .clientSetup])))

def teardownClientNemesis : Plan Call :=
  .seq (.act .createNemesis)
    (.par (.act .nemesisTeardown) (h.forEachNode [.clientTeardown, .clientClose]))

/-- What comes before `runCases`. -/
def prepare : Plan Call := .seqAll [h.setupOS, h.teardownDB, h.setupDB, h.setupClientNemesis]

/-- What comes after `runCases`. -/
def cleanUp : Plan Call :=
  .seqAll [h.teardownClientNemesis, if h.leaveDbRunning then .skip else h.teardownDB, h.teardownOS]

inductive Phase where
  | preparing (left : Plan Call)
  | running (runner : Runner)
  | cleaning (left : Plan Call)

inductive Event where
  | call (c : Call)
  | runCases (time : Int)
  | act (a : Action)
  | joined

def start : Phase := .preparing h.prepare

/-- `runCases` starts its workers on the nodes in turn, and needs one if there are clients; it
returns when the loop has ended and every worker has. -/
inductive Step : Lts Phase Event
  | prepare {t t' : Plan Call} {c : Call} (hs : Plan.Step t c t') :
      Step (.preparing t) (.call c) (.preparing t')
  | runCases {t : Plan Call} {time : Int} (hdone : t.Done)
      (hnodes : h.concurrency = 0 ∨ h.nodes ≠ []) :
      Step (.preparing t) (.runCases time)
        (.running (Runner.start h.concurrency h.generator time))
  | act {r r' : Runner} {a : Action} (hs : Runner.Step r a r') :
      Step (.running r) (.act a) (.running r')
  | joined {r : Runner} (hflag : r.flag = false) (hawake : r.awake = ∅) :
      Step (.running r) .joined (.cleaning h.cleanUp)
  | cleanUp {t t' : Plan Call} {c : Call} (hs : Plan.Step t c t') :
      Step (.cleaning t) (.call c) (.cleaning t')

/-- `Runner::run` has returned. -/
def Phase.Over : Phase → Prop
  | .cleaning t => t.Done
  | _ => False

/-! ## The calls of a run -/

def calls (es : List Event) : List Call :=
  es.filterMap fun e ↦ match e with
    | .call c => some c
    | _ => none

/-- The calls on the node at position `i`. -/
def callsOn (i : Nat) (cs : List Call) : List NodeCall := cs.filterMap (Call.on i)

theorem calls_append (es es' : List Event) : calls (es ++ es') = calls es ++ calls es' :=
  List.filterMap_append

@[simp] theorem calls_map (cs : List Call) : calls (cs.map .call) = cs := by
  induction cs with
  | nil => rfl
  | cons c cs ih => exact congrArg (c :: ·) ih

@[simp] theorem calls_acts (as : List Action) : calls (as.map .act) = [] := by
  induction as with
  | nil => rfl
  | cons a as ih => exact ih

@[simp] theorem callsOn_append (i : Nat) (cs cs' : List Call) :
    callsOn i (cs ++ cs') = callsOn i cs ++ callsOn i cs' :=
  List.filterMap_append

/-! ## The phases of a run -/

variable {h}

/-- A run, phase by phase. -/
inductive Trace (h : Harness) : List Event → Phase → Prop
  | preparing {cs : List Call} {t : Plan Call} (hprep : Run Plan.Step h.prepare cs t) :
      Trace h (cs.map .call) (.preparing t)
  | running {cs : List Call} {t : Plan Call} {time : Int} {as : List Action} {r : Runner}
      (hprep : Run Plan.Step h.prepare cs t) (hdone : t.Done)
      (hrun : Run Runner.Step (Runner.start h.concurrency h.generator time) as r) :
      Trace h (cs.map .call ++ .runCases time :: as.map .act) (.running r)
  | cleaning {cs ds : List Call} {t u : Plan Call} {time : Int} {as : List Action}
      (hprep : Run Plan.Step h.prepare cs t) (hdone : t.Done)
      (hclean : Run Plan.Step h.cleanUp ds u) :
      Trace h (cs.map .call ++ .runCases time :: as.map .act ++ .joined :: ds.map .call)
        (.cleaning u)

theorem Trace.step {es : List Event} {p p' : Phase} {e : Event} (ht : h.Trace es p)
    (hs : h.Step p e p') : h.Trace (es ++ [e]) p' := by
  cases hs with
  | @prepare t t' c hs =>
    cases ht with
    | @preparing cs _ hprep =>
      have := Trace.preparing (h := h) (hprep.snoc hs)
      rwa [List.map_append] at this
  | runCases hdone hnodes =>
    cases ht with
    | preparing hprep => exact .running hprep hdone (.nil _)
  | act hs =>
    cases ht with
    | running hprep hdone hrun =>
      have := Trace.running hprep hdone (hrun.snoc hs)
      rwa [List.map_append, ← List.cons_append, ← List.append_assoc] at this
  | joined hflag hawake =>
    cases ht with
    | running hprep hdone hrun => exact .cleaning hprep hdone (.nil _)
  | cleanUp hs =>
    cases ht with
    | @cleaning cs ds t u time as hprep hdone hclean =>
      have hnext := @Trace.cleaning h cs (ds ++ _) t _ time as hprep hdone (hclean.snoc hs)
      rwa [List.map_append, ← List.cons_append, ← List.append_assoc] at hnext

theorem trace_of_run {es : List Event} {p : Phase} (hrun : Run h.Step h.start es p) :
    h.Trace es p := by
  have hstart : h.Trace [] h.start := .preparing (.nil _)
  exact hrun.records (fun _ _ _ _ ↦ Trace.step) hstart

/-! ## The calls on one node -/

theorem callsOn_filter (i : Nat) (cs : List Call) :
    callsOn i (cs.filter fun c ↦ (c.on i).isSome) = callsOn i cs := by
  induction cs with
  | nil => rfl
  | cons c cs ih =>
    unfold callsOn at ih ⊢
    cases hc : c.on i with
    | none => rw [List.filter_cons_of_neg (by simp [hc]), ih, List.filterMap_cons_none hc]
    | some x =>
      rw [List.filter_cons_of_pos (by simp [hc]), List.filterMap_cons_some hc, ih,
        List.filterMap_cons_some hc]

/-- No two calls on the node at position `i` stand side by side. -/
def OneByOne (i : Nat) (t : Plan Call) : Prop := (t.restrict fun c ↦ (c.on i).isSome).Sequential

theorem callsOn_run {i : Nat} {t t' : Plan Call} {cs : List Call} (hi : OneByOne i t)
    (hrun : Run Plan.Step t cs t') : callsOn i t.acts = callsOn i cs ++ callsOn i t'.acts := by
  have hfilter := congrArg (callsOn i) (Plan.filter_run hrun hi)
  rwa [callsOn_append, callsOn_filter, callsOn_filter, callsOn_filter] at hfilter

theorem on_self {i j : Nat} (name : String) (c : NodeCall) (hij : j = i) :
    (Call.node j name c).on i = some c :=
  if_pos hij

theorem on_other {i j : Nat} (name : String) (c : NodeCall) (hij : j ≠ i) :
    (Call.node j name c).on i = none :=
  if_neg hij

theorem callsOn_block (i j : Nat) (name : String) (cs : List NodeCall) :
    callsOn i (cs.map (Call.node j name)) = if j = i then cs else [] := by
  induction cs with
  | nil => rw [ite_self]; rfl
  | cons c cs ih =>
    rw [List.map_cons]
    unfold callsOn at ih ⊢
    by_cases hij : j = i
    · rw [if_pos hij] at ih ⊢
      rw [List.filterMap_cons_some (on_self name c hij), ih]
    · rw [if_neg hij] at ih ⊢
      rw [List.filterMap_cons_none (on_other name c hij), ih]

-- A list of nodes has one node at each position.
theorem callsOn_zipIdx (i : Nat) (nodes : List String) (cs : List NodeCall) (k : Nat) :
    callsOn i ((nodes.zipIdx k).flatMap fun n ↦ cs.map (.node n.2 n.1)) =
      if k ≤ i ∧ i < k + nodes.length then cs else [] := by
  induction nodes generalizing k with
  | nil => rw [if_neg (by simp), List.zipIdx_nil]; rfl
  | cons name nodes ih =>
    rw [List.zipIdx_cons, List.flatMap_cons, callsOn_append, callsOn_block, ih, List.length_cons]
    by_cases hki : k = i
    · rw [if_pos hki, if_neg (by omega), if_pos (by omega), List.append_nil]
    · rw [if_neg hki, List.nil_append]
      congr 1
      exact propext (by omega)

/-- The same calls on every node. -/
def eachNode (h : Harness) (cs : List NodeCall) : List Call :=
  h.nodes.zipIdx.flatMap fun n ↦ cs.map (.node n.2 n.1)

theorem acts_forEachNode (cs : List NodeCall) : (h.forEachNode cs).acts = h.eachNode cs := by
  unfold forEachNode eachNode
  rw [Plan.acts_parAll, List.flatMap_map]
  simp only [Plan.acts_block]

theorem callsOn_forEachNode {i : Nat} (hi : i < h.nodes.length) (cs : List NodeCall) :
    callsOn i (h.forEachNode cs).acts = cs := by
  rw [acts_forEachNode, eachNode, callsOn_zipIdx, if_pos (by omega)]

theorem oneByOne_forEachNode (i : Nat) (cs : List NodeCall) : OneByOne i (h.forEachNode cs) := by
  refine Plan.sequential_parAll (fun t ht ↦ ?_) ?_
  · obtain ⟨n, -, rfl⟩ := List.mem_map.mp ht
    exact Plan.sequential_block _ _
  -- Two nodes have two positions, of which one is not `i`.
  · have hdistinct : (h.nodes.zipIdx.map Prod.snd).Pairwise (· ≠ ·) := by
      rw [List.zipIdx_map_snd]
      exact List.nodup_range'
    rw [List.pairwise_map] at hdistinct ⊢
    refine hdistinct.imp fun {n m} hne ↦ ?_
    have hother {n : String × Nat} (hn : n.2 ≠ i) :
        (Plan.block (cs.map (Call.node n.2 n.1))).acts.filter
          (fun c : Call ↦ (c.on i).isSome) = [] := by
      rw [Plan.acts_block, List.filter_eq_nil_iff]
      intro c hc
      obtain ⟨x, -, rfl⟩ := List.mem_map.mp hc
      simp [on_other n.1 x hn]
    by_cases hn : n.2 = i
    · exact .inr (hother fun hm ↦ hne (hn.trans hm.symm))
    · exact .inl (hother hn)

theorem acts_createClients : h.createClients.acts = h.eachNode [.createClient] := by
  unfold createClients eachNode
  rw [Plan.acts_block, List.map_eq_flatMap]
  rfl

theorem callsOn_primaryCalls (i : Nat) : callsOn i h.primaryCalls = [] := by
  unfold primaryCalls
  cases h.primaries with
  | none => rfl
  | some primaries =>
    refine List.filterMap_eq_nil_iff.mpr fun c hc ↦ ?_
    rw [List.mem_cons, List.mem_map] at hc
    rcases hc with rfl | ⟨name, -, rfl⟩ <;> rfl

/-- What `Runner::run` calls on every node before the loop, in this order. -/
def prepareScript : List NodeCall :=
  [.osSetup, .dbTeardown, .dbSetup, .createClient, .clientOpen, .clientSetup]

/-- What it calls on every node after the loop. -/
def cleanUpScript (h : Harness) : List NodeCall :=
  [.clientTeardown, .clientClose] ++ (if h.leaveDbRunning then [] else [.dbTeardown]) ++
    [.osTeardown]

theorem callsOn_prepare {i : Nat} (hi : i < h.nodes.length) :
    callsOn i h.prepare.acts = prepareScript := by
  have hnode := callsOn_forEachNode hi
  simp only [prepare, setupOS, teardownDB, setupDB, setupClientNemesis, Plan.seqAll, Plan.acts,
    callsOn_append, Plan.acts_block, callsOn_primaryCalls, acts_createClients,
    ← acts_forEachNode, hnode]
  rfl

theorem callsOn_cleanUp {i : Nat} (hi : i < h.nodes.length) :
    callsOn i h.cleanUp.acts = h.cleanUpScript := by
  have hnode := callsOn_forEachNode hi
  simp only [cleanUp, teardownOS, teardownDB, teardownClientNemesis, Plan.seqAll, Plan.acts,
    callsOn_append, hnode, cleanUpScript]
  cases h.leaveDbRunning with
  | true => rfl
  | false =>
    rw [if_neg (by decide), if_neg (by decide), hnode]
    rfl

theorem oneByOne_seq {i : Nat} {t u : Plan Call} (ht : OneByOne i t) (hu : OneByOne i u) :
    OneByOne i (.seq t u) :=
  ⟨ht, hu⟩

-- A call that is on no node stands beside everything.
theorem oneByOne_beside {i : Nat} {c : Call} {t : Plan Call} (hc : c.on i = none)
    (ht : OneByOne i t) : OneByOne i (.par (.act c) t) := by
  have hskip : (Plan.act c).restrict (fun c ↦ (c.on i).isSome) = .skip := by
    simp [Plan.restrict, hc]
  unfold OneByOne
  rw [Plan.restrict, hskip]
  exact ⟨trivial, ht, .inl rfl⟩

theorem oneByOne_prepare (i : Nat) : OneByOne i h.prepare := by
  have hblock (cs : List Call) : OneByOne i (.block cs) := Plan.sequential_block _ cs
  have hnemesis : OneByOne i (.act .createNemesis) := trivial
  have hclients : OneByOne i h.setupClientNemesis := by
    refine oneByOne_seq hnemesis (oneByOne_beside rfl ?_)
    exact oneByOne_seq (hblock _) (oneByOne_forEachNode i _)
  exact oneByOne_seq (oneByOne_forEachNode i _) (oneByOne_seq (oneByOne_forEachNode i _)
    (oneByOne_seq (oneByOne_seq (oneByOne_forEachNode i _) (hblock _))
      (oneByOne_seq hclients trivial)))

theorem oneByOne_cleanUp (i : Nat) : OneByOne i h.cleanUp := by
  have hnemesis : OneByOne i (.act .createNemesis) := trivial
  have hclients : OneByOne i h.teardownClientNemesis :=
    oneByOne_seq hnemesis (oneByOne_beside rfl (oneByOne_forEachNode i _))
  have hdatabase : OneByOne i (if h.leaveDbRunning then .skip else h.teardownDB) := by
    split
    · exact trivial
    · exact oneByOne_forEachNode i _
  exact oneByOne_seq hclients (oneByOne_seq hdatabase
    (oneByOne_seq (oneByOne_forEachNode i _) trivial))

/-! ## The calls on all nodes -/

/-- The calls before the loop, stage by stage: none of a stage before all of the stages ahead of
it, in any order within a stage. -/
def prepareStages (h : Harness) : List (List Call) :=
  [h.eachNode [.osSetup], h.eachNode [.dbTeardown], h.eachNode [.dbSetup]] ++
    h.primaryCalls.map (fun c ↦ [c]) ++
    [[.createNemesis],
      .nemesisSetup :: (h.eachNode [.createClient] ++ h.eachNode [.clientOpen, .clientSetup])]

/-- The calls after the loop. -/
def cleanUpStages (h : Harness) : List (List Call) :=
  [[.createNemesis], .nemesisTeardown :: h.eachNode [.clientTeardown, .clientClose]] ++
    (if h.leaveDbRunning then [] else [h.eachNode [.dbTeardown]]) ++ [h.eachNode [.osTeardown]]

theorem prepare_follows : h.prepare.Follows h.prepareStages := by
  have hdb := (Plan.follows_acts (h.forEachNode [.dbSetup])).seq
    (Plan.follows_block h.primaryCalls)
  have hclients := (Plan.follows_acts (.act Call.createNemesis)).seq
    (Plan.follows_acts (.par (.act .nemesisSetup)
      (.seq h.createClients (h.forEachNode [.clientOpen, .clientSetup]))))
  have hall := (Plan.follows_acts h.setupOS).seq ((Plan.follows_acts h.teardownDB).seq
    (hdb.seq (hclients.seq Plan.follows_skip)))
  simp only [setupOS, teardownDB, acts_forEachNode, Plan.acts, acts_createClients] at hall
  simpa [prepareStages, prepare, Plan.seqAll, setupOS, teardownDB, setupDB,
    setupClientNemesis] using hall

theorem cleanUp_follows : h.cleanUp.Follows h.cleanUpStages := by
  have hclients := (Plan.follows_acts (.act Call.createNemesis)).seq
    (Plan.follows_acts (.par (.act .nemesisTeardown)
      (h.forEachNode [.clientTeardown, .clientClose])))
  have hdatabase : (if h.leaveDbRunning then .skip else h.teardownDB).Follows
      (if h.leaveDbRunning then [] else [h.eachNode [.dbTeardown]]) := by
    split
    · exact Plan.follows_skip
    · rw [← acts_forEachNode]
      exact Plan.follows_acts _
  have hall := hclients.seq (hdatabase.seq
    ((Plan.follows_acts h.teardownOS).seq Plan.follows_skip))
  simp only [teardownOS, acts_forEachNode, Plan.acts] at hall
  simpa [cleanUpStages, cleanUp, Plan.seqAll, teardownOS, teardownClientNemesis] using hall

/-- The calls `cs` are the beginning of what the plan prescribes, on each node and over all
nodes. -/
structure Along (h : Harness) (stages : List (List Call)) (script : List NodeCall)
    (cs : List Call) (complete : Prop) : Prop where
  stages : ∃ rest, Plan.Stages stages (cs ++ rest) ∧ (complete → rest = [])
  script : ∀ i < h.nodes.length, ∃ rest, callsOn i cs ++ rest = script ∧ (complete → rest = [])

theorem along_of_run {t t' : Plan Call} {stages : List (List Call)} {script : List NodeCall}
    {cs : List Call} (hfollows : t.Follows stages) (hone : ∀ i, OneByOne i t)
    (hscript : ∀ i < h.nodes.length, callsOn i t.acts = script)
    (hrun : Run Plan.Step t cs t') : Along h stages script cs t'.Done where
  stages := hfollows.beginning hrun
  script i hi := by
    refine ⟨callsOn i t'.acts, ?_, fun hdone ↦ ?_⟩
    · rw [← hscript i hi, callsOn_run (hone i) hrun]
    · rw [Plan.done_iff.mp hdone]
      rfl

theorem along_prepare {t : Plan Call} {cs : List Call} (hrun : Run Plan.Step h.prepare cs t) :
    Along h h.prepareStages prepareScript cs t.Done :=
  along_of_run prepare_follows oneByOne_prepare (fun _ ↦ callsOn_prepare) hrun

theorem along_cleanUp {t : Plan Call} {cs : List Call} (hrun : Run Plan.Step h.cleanUp cs t) :
    Along h h.cleanUpStages h.cleanUpScript cs t.Done :=
  along_of_run cleanUp_follows oneByOne_cleanUp (fun _ ↦ callsOn_cleanUp) hrun

theorem calls_trace (cs : List Call) (time : Int) (as : List Action) :
    calls (cs.map .call ++ .runCases time :: as.map .act) = cs := by
  have hrun : calls (.runCases time :: as.map .act) = calls (as.map .act) := rfl
  rw [calls_append, calls_map, hrun, calls_acts, List.append_nil]

theorem Along.append {stages stages' : List (List Call)} {script script' : List NodeCall}
    {cs ds : List Call} {complete : Prop} (hcs : Along h stages script cs True)
    (hds : Along h stages' script' ds complete) :
    Along h (stages ++ stages') (script ++ script') (cs ++ ds) complete where
  stages := by
    obtain ⟨rest, hrest, hnil⟩ := hcs.stages
    obtain ⟨rest', hrest', hover⟩ := hds.stages
    rw [hnil trivial, List.append_nil] at hrest
    exact ⟨rest', List.append_assoc cs ds rest' ▸ hrest.append hrest', hover⟩
  script i hi := by
    obtain ⟨rest, hrest, hnil⟩ := hcs.script i hi
    obtain ⟨rest', hrest', hover⟩ := hds.script i hi
    rw [hnil trivial, List.append_nil] at hrest
    exact ⟨rest', by rw [callsOn_append, List.append_assoc, hrest, hrest'], hover⟩

/-- What has begun one plan has begun it followed by another. -/
theorem Along.before {stages stages' : List (List Call)} {script script' : List NodeCall}
    {cs : List Call} {complete : Prop} (hcs : Along h stages script cs complete)
    (hfull : ∃ ds, Along h stages' script' ds True) :
    Along h (stages ++ stages') (script ++ script') cs False where
  stages := by
    obtain ⟨ds, hds⟩ := hfull
    obtain ⟨rest, hrest, -⟩ := hcs.stages
    obtain ⟨rest', hrest', -⟩ := hds.stages
    refine ⟨rest ++ (ds ++ rest'), ?_, False.elim⟩
    rw [← List.append_assoc]
    exact hrest.append hrest'
  script i hi := by
    obtain ⟨ds, hds⟩ := hfull
    obtain ⟨rest, hrest, -⟩ := hcs.script i hi
    exact ⟨rest ++ script', by rw [← List.append_assoc, hrest], False.elim⟩

theorem exists_cleanUp : ∃ ds, Along h h.cleanUpStages h.cleanUpScript ds True := by
  obtain ⟨ds, u, hrun, hu⟩ := Plan.exists_run h.cleanUp
  have halong := along_cleanUp hrun
  rw [eq_true hu] at halong
  exact ⟨ds, halong⟩

theorem Trace.along {es : List Event} {p : Phase} (ht : h.Trace es p) :
    Along h (h.prepareStages ++ h.cleanUpStages) (prepareScript ++ h.cleanUpScript) (calls es)
      p.Over := by
  cases ht with
  | preparing hprep =>
    rw [calls_map]
    exact (along_prepare hprep).before exists_cleanUp
  | running hprep =>
    rw [calls_trace]
    exact (along_prepare hprep).before exists_cleanUp
  | @cleaning cs ds t u time as hprep hdone hclean =>
    have hcs := along_prepare hprep
    rw [eq_true hdone] at hcs
    have hjoined : calls (.joined :: ds.map .call) = ds := calls_map ds
    rw [calls_append, calls_trace, hjoined]
    exact hcs.append (along_cleanUp hclean)

/-- Whatever the schedule, the calls of a run come stage by stage, on every node in the order of the
script, and all of them are made when it is over; the loop takes a step only after all calls of the
preparation, and before any other call. -/
theorem run_in_order (h : Harness) (es : List Event) (p : Phase)
    (hrun : Run h.Step h.start es p) :
    Along h (h.prepareStages ++ h.cleanUpStages) (prepareScript ++ h.cleanUpScript) (calls es)
      p.Over ∧
    (∀ pre a post, es = pre ++ .act a :: post →
      Along h h.prepareStages prepareScript (calls pre) True) := by
  refine ⟨(trace_of_run hrun).along, fun pre a post hes ↦ ?_⟩
  subst hes
  obtain ⟨p₁, hpre, hpost⟩ := hrun.split
  cases hpost with
  | cons hstep _ =>
    cases hstep with
    | act hs =>
      cases trace_of_run hpre with
      | running hprep hdone hloop =>
        have hcs := along_prepare hprep
        rw [eq_true hdone] at hcs
        rw [calls_trace]
        exact hcs

/-! ## The way to the end -/

/-- The loop of `runCases` has ended. -/
def Phase.LoopEnded : Phase → Prop
  | .preparing _ => False
  | .running r => r.flag = false
  | .cleaning _ => True

/-- The steps that are left once the loop has ended. -/
def remaining (h : Harness) : Phase → Nat
  | .preparing t => t.acts.length
  | .running r => r.awake.card + 1 + h.cleanUp.acts.length
  | .cleaning t => t.acts.length

@[simp] theorem remaining_running (h : Harness) (r : Runner) :
    h.remaining (.running r) = r.awake.card + 1 + h.cleanUp.acts.length := rfl

@[simp] theorem remaining_cleaning (h : Harness) (t : Plan Call) :
    h.remaining (.cleaning t) = t.acts.length := rfl

-- A phase after the loop, with what the steps that are left rest on.
inductive Closing : Phase → Prop
  | running {r : Runner} (hflag : r.flag = false) (hocc : r.Occupancy) (hshut : r.Shutdown) :
      Closing (.running r)
  | cleaning (t : Plan Call) : Closing (.cleaning t)

theorem closing_of_run {es : List Event} {p : Phase} (hg : AllLeaves ProcessUnset [] h.generator)
    (hrun : Run h.Step h.start es p) (hended : p.LoopEnded) : Closing p := by
  cases trace_of_run hrun with
  | preparing _ => exact hended.elim
  | running _ _ hloop =>
    obtain ⟨hinv, hshut⟩ := Runner.shutdown_of_reachable hg ⟨_, hloop⟩
    exact .running hended hinv.occupancy hshut
  | cleaning => exact .cleaning _

theorem Closing.step {p p' : Phase} {e : Event} (hp : Closing p) (hs : h.Step p e p') :
    Closing p' ∧ h.remaining p' + 1 = h.remaining p := by
  cases hp with
  | @running r hflag hocc hshut =>
    cases hs with
    | @act _ r' a hs =>
      obtain ⟨t, ht, rfl, rfl, hawake⟩ := Runner.step_of_ended hocc hshut hflag hs
      have hfresh : r.FreshDispatch (.take t) := trivial
      refine ⟨.running hflag (hocc.step hfresh hs) (hshut.step hocc hs), ?_⟩
      have hcard := Finset.card_erase_add_one ht
      rw [remaining_running, remaining_running, hawake]
      omega
    | joined _ hawake =>
      refine ⟨.cleaning _, ?_⟩
      rw [remaining_running, remaining_cleaning, hawake, Finset.card_empty]
      omega
  | cleaning t =>
    cases hs with
    | cleanUp hs =>
      have hlen := hs.perm.length_eq
      exact ⟨.cleaning _, hlen.symm⟩

theorem Closing.progress {p : Phase} (hp : Closing p) :
    p.Over ∧ h.remaining p = 0 ∨ h.remaining p ≠ 0 ∧ ∃ e p', h.Step p e p' := by
  cases hp with
  | @running r hflag hocc hshut =>
    refine .inr ⟨by rw [remaining_running]; omega, ?_⟩
    by_cases hawake : r.awake = ∅
    · exact ⟨_, _, .joined hflag hawake⟩
    · obtain ⟨t, ht⟩ := Finset.nonempty_iff_ne_empty.mpr hawake
      have htake : Runner.Step r (.take t) _ := Runner.take_of_awake hshut hflag ht
      exact ⟨_, _, .act htake⟩
  | cleaning t =>
    by_cases hdone : t.Done
    · exact .inl ⟨hdone, by rw [remaining_cleaning, Plan.done_iff.mp hdone]; rfl⟩
    · obtain ⟨c, t', hs⟩ := Plan.progress hdone
      refine .inr ⟨fun hzero ↦ hdone (Plan.done_iff.mpr ?_), _, _, .cleanUp hs⟩
      exact List.eq_nil_of_length_eq_zero hzero

theorem Closing.exists_over {p : Phase} (hp : Closing p) :
    ∃ es p', Run h.Step p es p' ∧ p'.Over := by
  induction hn : h.remaining p generalizing p with
  | zero =>
    have hover := (hp.progress (h := h)).resolve_right fun hne ↦ hne.1 hn
    exact ⟨[], p, .nil p, hover.1⟩
  | succ n ih =>
    obtain ⟨-, e, p₁, hs⟩ := (hp.progress (h := h)).resolve_left fun hover ↦ by omega
    obtain ⟨hp₁, hrem⟩ := hp.step hs
    obtain ⟨es, p', hrun, hover⟩ := ih hp₁ (by omega)
    exact ⟨e :: es, p', .cons hs hrun, hover⟩

/-- Once the loop has ended, the test comes to its end on every schedule: each step is one of
finitely many that are left, and there is one until all workers have stopped and all calls of the
cleaning up are made. -/
theorem run_comes_to_end (h : Harness) (es : List Event) (p : Phase)
    (hg : AllLeaves ProcessUnset [] h.generator) (hrun : Run h.Step h.start es p)
    (hended : p.LoopEnded) (es' : List Event) (p' : Phase) (hrun' : Run h.Step p es' p') :
    es'.length + h.remaining p' = h.remaining p ∧
    (p'.Over ∧ h.remaining p' = 0 ∨ h.remaining p' ≠ 0 ∧ ∃ e p'', h.Step p' e p'') := by
  obtain ⟨hp', hlen⟩ := hrun'.length_add (P := Closing) (μ := h.remaining)
    (fun _ _ _ hs hp ↦ hp.step hs) (closing_of_run hg hrun hended)
  exact ⟨hlen, hp'.progress⟩

/-! ## Runs by a schedule of the loop -/

theorem run_preparing {t t' : Plan Call} {cs : List Call} (hrun : Run Plan.Step t cs t') :
    Run h.Step (.preparing t) (cs.map .call) (.preparing t') := by
  induction hrun with
  | nil => exact .nil _
  | cons hs _ ih => exact .cons (.prepare hs) ih

theorem run_running {r r' : Runner} {as : List Action} (hrun : Run Runner.Step r as r') :
    Run h.Step (.running r) (as.map .act) (.running r') := by
  induction hrun with
  | nil => exact .nil _
  | cons hs _ ih => exact .cons (.act hs) ih

/-- A schedule of the loop belongs to a run of the whole test. -/
theorem exists_run_loop (hnodes : h.nodes ≠ []) {time : Int} {schedule : List Action} {r : Runner}
    (hloop : (Runner.start h.concurrency h.generator time).run schedule = some r) :
    ∃ es, Run h.Step h.start es (.running r) := by
  obtain ⟨cs, t, hprep, hdone⟩ := Plan.exists_run h.prepare
  have hbegin : Run h.Step (.preparing t) [.runCases time] _ :=
    .single (.runCases hdone (.inr hnodes))
  exact ⟨_, ((run_preparing hprep).append hbegin).append (run_running (Runner.run_steps hloop))⟩

/-- One node, one client, and a generator that has nothing to offer. -/
def oneNode : Harness where
  nodes := ["n1"]
  concurrency := 1
  generator := Runner.setGenerator (createGenerator [])
  primaries := some ["n1"]
  leaveDbRunning := false

theorem leaves_oneNode : AllLeaves ProcessUnset [] oneNode.generator :=
  .validate (.list (by simp))

theorem loop_oneNode : ∃ r, (Runner.start oneNode.concurrency oneNode.generator 0).run
    [.ask 0 (fun _ ↦ 1) 6] = some r ∧ r.flag = false ∧ r.awake.card = 2 ∧ 0 ∈ r.awake :=
  ⟨_, rfl, rfl, by decide, by decide⟩

/-- All calls on the node of a whole test. -/
theorem run_in_order_oneNode : ∃ es p, Run oneNode.Step oneNode.start es p ∧ p.Over ∧
    callsOn 0 (calls es) = [.osSetup, .dbTeardown, .dbSetup, .createClient, .clientOpen,
      .clientSetup, .clientTeardown, .clientClose, .dbTeardown, .osTeardown] := by
  obtain ⟨r, hloop, hflag, -⟩ := loop_oneNode
  obtain ⟨es, hrun⟩ := exists_run_loop (by decide) hloop
  obtain ⟨es', p, hrun', hover⟩ := (closing_of_run leaves_oneNode hrun hflag).exists_over
  have hwhole := hrun.append hrun'
  refine ⟨es ++ es', p, hwhole, hover, ?_⟩
  obtain ⟨rest, hscript, hnil⟩ := (run_in_order oneNode _ p hwhole).1.script 0 (by decide)
  rw [hnil hover, List.append_nil] at hscript
  exact hscript

/-- With both workers awake nine steps are left, and eight once the first has stopped. -/
theorem run_comes_to_end_oneNode : ∃ es r p', Run oneNode.Step oneNode.start es (.running r) ∧
    Run oneNode.Step (.running r) [.act (.take 0)] p' ∧ oneNode.remaining (.running r) = 9 ∧
    oneNode.remaining p' = 8 ∧ ∃ e p'', oneNode.Step p' e p'' := by
  obtain ⟨r, hloop, hflag, hcard, hmem⟩ := loop_oneNode
  obtain ⟨es, hrun⟩ := exists_run_loop (by decide) hloop
  have hshut := Runner.shutdown_of_reachable leaves_oneNode (Runner.reachable_of_run hloop)
  have htake : Runner.Step r (.take 0) _ := Runner.take_of_awake hshut.2 hflag hmem
  have hrun' : Run oneNode.Step (.running r) [.act (.take 0)] _ := .single (.act htake)
  have hnine : oneNode.remaining (.running r) = 9 := by
    rw [remaining_running, hcard]
    rfl
  obtain ⟨hlen, hnext⟩ := run_comes_to_end oneNode es _ leaves_oneNode hrun hflag _ _ hrun'
  rw [hnine] at hlen
  have height : oneNode.remaining _ = 8 := Nat.add_left_cancel hlen
  exact ⟨es, r, _, hrun, hrun', hnine, height, (hnext.resolve_left fun hend ↦ by omega).2⟩

end Harness

end Jepsen
