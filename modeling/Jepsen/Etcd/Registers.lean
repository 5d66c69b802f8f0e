import Jepsen.Etcd.Client
import Jepsen.Runner.Recording

/-!
# Registers over etcd

etcd stores texts, and the client writes and reads numbers.  As long as what is written has the text
of a 32-bit number, a cluster that serves one request at a time cannot be told from a map of
registers that hold numbers, so that the history of a whole run is linearizable as one of registers.
-/

namespace Jepsen

open Library Etcd GeneratorFactory Context

variable (realText : UInt64 → String)

/-- The cluster, as the clients of the runner use it. -/
def etcd : Database Store where
  init _ := none
  apply store x y store' := ∃ serve op',
    (∀ store request, Cluster store request (serve store request).1 (serve store request).2) ∧
    ETCDClient.invoke realText serve { type := .kInvoke, func := x.1, op := x.2 } store =
      some (op', store') ∧ y = op'.result

/-- Registers with numbers, under the texts of their keys.  An operation that failed did nothing. -/
inductive Registers : (String → Option Int) → String × OPInfo → Response →
    (String → Option Int) → Prop
  | write {m k v key n} (hkey : k.asString realText = some key)
      (hval : v.asString realText = some (toString n)) :
      Registers m ("write", .array [k, v]) (.kSuccess, .array [k, v])
        (Function.update m key (some n))
  | read {m k v key n} (hkey : k.asString realText = some key) (h : m key = some n) :
      Registers m ("read", .array [k, v]) (.kSuccess, .array [k, .int n]) m
  | cas {m k v o key n old} (hkey : k.asString realText = some key)
      (hval : v.asString realText = some (toString n))
      (hold : o.asString realText = some (toString old)) (h : m key = some old) :
      Registers m ("cas", .array [k, v, o]) (.kSuccess, .array [k, v, o])
        (Function.update m key (some n))
  | failed {m func op} : Registers m (func, op) (.kFailed, op) m

def registers : Database (String → Option Int) := ⟨fun _ ↦ none, Registers realText⟩

/-- An operation on a register with a 32-bit number. -/
inductive RegisterOp : String × OPInfo → Prop
  | write {k v key} {n : Int} (hkey : k.asString realText = some key)
      (hval : v.asString realText = some (toString n)) (hn : IntRange 32 n) :
      RegisterOp ("write", .array [k, v])
  | read {k v key} (hkey : k.asString realText = some key) : RegisterOp ("read", .array [k, v])
  | cas {k v o key} {n old : Int} (hkey : k.asString realText = some key)
      (hval : v.asString realText = some (toString n)) (hn : IntRange 32 n)
      (hold : o.asString realText = some (toString old)) :
      RegisterOp ("cas", .array [k, v, o])

/-- The store holds the texts of the numbers. -/
structure Holds (store : Store) (m : String → Option Int) : Prop where
  text : ∀ key, store key = (m key).map toString
  range : ∀ key n, m key = some n → IntRange 32 n

variable {realText}

theorem toString_injective {n n' : Int} (h : toString n = toString n') : n = n' := by
  have hread := Numeral.readInt_self n
  rw [h, Numeral.readInt_self n'] at hread
  exact (Option.some.inj hread).symm

theorem Holds.update {store : Store} {m : String → Option Int} (h : Holds store m) (key : String)
    {n : Int} (hn : IntRange 32 n) :
    Holds (Function.update store key (some (toString n))) (Function.update m key (some n)) where
  text key' := by
    by_cases hkey : key' = key
    · rw [hkey, Function.update_self, Function.update_self]
      rfl
    · rw [Function.update_of_ne hkey, Function.update_of_ne hkey]
      exact h.text key'
  range key' n' hget := by
    by_cases hkey : key' = key
    · rw [hkey, Function.update_self] at hget
      rw [← Option.some.inj hget]
      exact hn
    · rw [Function.update_of_ne hkey] at hget
      exact h.range key' n' hget

/-- What stands in the store under a key, as a number. -/
theorem Holds.number {store : Store} {m : String → Option Int} (h : Holds store m) {key : String}
    {val : String} (hget : store key = some val) : ∃ n, m key = some n ∧ val = toString n := by
  rw [h.text key] at hget
  obtain ⟨n, hn, hval⟩ := Option.map_eq_some_iff.mp hget
  exact ⟨n, hn, hval.symm⟩

theorem etcd_refines :
    (etcd realText).Refines (registers realText) (RegisterOp realText) Holds where
  init := ⟨fun _ ↦ rfl, fun _ _ h ↦ absurd h (by simp [registers])⟩
  apply {store m x y store'} hx hholds happly := by
    obtain ⟨serve, op', hserve, hinvoke, hy⟩ := happly
    subst hy
    cases hx with
    | @write k v key n hkey hval hn =>
      have hput : some (op', store') = _ := hinvoke.symm.trans (ETCDClient.put_eq rfl hkey hval)
      have hanswer := hserve store (.put key (toString n))
      generalize serve store (.put key (toString n)) = out at hput hanswer
      cases out with
      | mk r s' =>
        dsimp only at hput hanswer
        cases hput
        cases hanswer with
        | put => exact ⟨_, .write hkey hval, hholds.update key hn⟩
        | unavailable => exact ⟨m, .failed, hholds⟩
    | @read k v key hkey =>
      have hget : some (op', store') = _ := hinvoke.symm.trans (ETCDClient.get_eq rfl hkey)
      have hanswer := hserve store (.get key)
      generalize serve store (.get key) = out at hget hanswer
      cases out with
      | mk r s' =>
        dsimp only at hget hanswer
        cases hanswer with
        | get hval =>
          obtain ⟨n, hn, htext⟩ := hholds.number hval
          rw [htext, if_pos rfl, stoi_toString (hholds.range key n hn)] at hget
          cases hget
          exact ⟨m, .read hkey hn, hholds⟩
        | missing hnone =>
          cases hget
          exact ⟨m, .failed, hholds⟩
        | unavailable =>
          cases hget
          exact ⟨m, .failed, hholds⟩
    | @cas k v o key n old hkey hval hn hold =>
      have hcas : some (op', store') = _ :=
        hinvoke.symm.trans (ETCDClient.modifyIf_eq rfl hkey hval hold)
      have hanswer := hserve store (.modifyIf key (toString n) (toString old))
      generalize serve store (.modifyIf key (toString n) (toString old)) = out at hcas hanswer
      cases out with
      | mk r s' =>
        dsimp only at hcas hanswer
        cases hcas
        cases hanswer with
        | modified hstored =>
          obtain ⟨old', hold', htext⟩ := hholds.number hstored
          -- Two numbers with one text are one number.
          cases toString_injective htext
          exact ⟨_, .cas hkey hval hold hold', hholds.update key hn⟩
        | compared _ => exact ⟨m, .failed, hholds⟩
        | unavailable => exact ⟨m, .failed, hholds⟩

-- An operation is a success or a failure, whatever its reply.
theorem type_of_isOk (ok : Bool) : (if ok then OpType.kSuccess else .kFailed) = .kSuccess ∨
    (if ok then OpType.kSuccess else .kFailed) = .kFailed := by
  cases ok with
  | true => exact .inl rfl
  | false => exact .inr rfl

/-- On registers with numbers, `invoke` returns. -/
theorem RegisterOp.returns {x : String × OPInfo} {store : Store} {m : String → Option Int}
    {serve : Store → Request → Etcd.Response × Store} (hx : RegisterOp realText x)
    (hholds : Holds store m) (hserve : ∀ store request,
      Cluster store request (serve store request).1 (serve store request).2) :
    ∃ op' store', ETCDClient.invoke realText serve { type := .kInvoke, func := x.1, op := x.2 }
      store = some (op', store') ∧ (op'.type = .kSuccess ∨ op'.type = .kFailed) := by
  cases hx with
  | write hkey hval hn =>
    exact ⟨_, _, ETCDClient.put_eq rfl hkey hval, type_of_isOk _⟩
  | cas hkey hval hn hold =>
    exact ⟨_, _, ETCDClient.modifyIf_eq rfl hkey hval hold, type_of_isOk _⟩
  | @read k v key hkey =>
    have hget : ETCDClient.invoke realText serve
        { type := .kInvoke, func := "read", op := .array [k, v] } store = _ :=
      ETCDClient.get_eq rfl hkey
    have hanswer := hserve store (.get key)
    rw [hget]
    generalize serve store (.get key) = out at hanswer
    cases out with
    | mk r s' =>
      dsimp only at hanswer
      cases hanswer with
      | get hval =>
        obtain ⟨n, hn, htext⟩ := hholds.number hval
        rw [htext]
        dsimp only
        rw [if_pos rfl, stoi_toString (hholds.range key n hn)]
        exact ⟨_, _, rfl, .inl rfl⟩
      | missing _ => exact ⟨_, _, rfl, .inr rfl⟩
      | unavailable => exact ⟨_, _, rfl, .inr rfl⟩

/-! ## The operations of a run -/

variable (realText) in
/-- What a generator may offer: the nemesis anything, a client an operation on a register. -/
def RegisterLeaf : LeafProperty := fun path o ↦ ProcessUnset path o ∧
  (isNemesis ∈ path ∨ (o.type = .kInit ∨ o.type = .kInvoke) ∧ RegisterOp realText (o.func, o.op))

theorem RegisterLeaf.processUnset (path : List ThreadFilter) (o : Operation)
    (h : RegisterLeaf realText path o) : ProcessUnset path o :=
  h.1

-- What is dispatched to a client is what its leaf offers.
theorem Filled.registerOp {n : Nat} {ctx : Context} {sub : List ThreadFilter} {o r : Operation}
    (hp : Processes n ctx.workers) (h : Filled (ctx.restrict sub) o r) (hr : r.type.Dispatchable)
    (ho : RegisterLeaf realText sub o) (hclient : r.process ≠ kNemesisProcess) :
    RegisterOp realText r.payload := by
  obtain ⟨hunset, hleaf⟩ := ho
  have hpayload : r.payload = (o.func, o.op) := by
    obtain ⟨_, time, ⟨p, -, rfl⟩, -, rfl⟩ := h
    unfold fillIn
    split <;> rfl
  cases hleaf with
  | inr hop => exact hpayload ▸ hop.2
  | inl hnemesis =>
    obtain ⟨t, -, p, hsub, hlookup, hproc, -⟩ := h.of_dispatchable hr
    have ht : t = kNemesisProcess := by simpa [isNemesis] using hsub _ hnemesis
    rw [ht, hp.nemesis] at hlookup
    rw [← Option.some.inj hlookup] at hproc
    cases hunset with
    | inl hinvalid => exact absurd (hproc.trans (if_pos hinvalid)) hclient
    | inr hset =>
      rw [hset.1, ite_self] at hproc
      exact absurd hproc hclient

namespace Runner

/-- What was dispatched to the clients so far. -/
def Registered (realText : UInt64 → String) (s : Runner) : Prop :=
  ∀ e ∈ s.history, e.kind = .dispatch → e.op.process ≠ kNemesisProcess →
    RegisterOp realText e.op.payload

theorem Registered.step {s s' : Runner} {a : Action} {n : Nat}
    (hinv : s.Invariant (RegisterLeaf realText) n) (h : s.Registered realText)
    (hs : s.step a = some s') : s'.Registered realText := by
  cases step_moves hs with
  | work | discard | exit => exact h
  | complete =>
    refine List.forall_mem_append.mpr ⟨h, List.forall_mem_singleton.mpr fun hkind ↦ ?_⟩
    exact absurd hkind (by simp)
  | @dispatch time draws draws' fuel ans t generator hflag hask hreal htime ht hmem hupd =>
    refine List.forall_mem_append.mpr ⟨h, List.forall_mem_singleton.mpr fun _ hclient ↦ ?_⟩
    cases ((op_answers _ _ _ _ _ _ hask).sourced hinv.leaves).1 with
    | inl hnil => exact absurd hnil hreal.1
    | inr hsource =>
      obtain ⟨sub, o, ho, hfill⟩ := hsource
      have hproc : Processes s.concurrency (s.askContext time).workers := hinv.occupancy.processes
      exact hfill.registerOp hproc hreal ho hclient

theorem registered_of_reachable {n : Nat} {g : GeneratorPtr} {time : Int} {s : Runner}
    (hg : AllLeaves (RegisterLeaf realText) [] g) (h : Reachable Step (start n g time) s) :
    s.Registered realText := by
  refine (h.invariant (P := fun s ↦ s.Invariant (RegisterLeaf realText) n ∧
    s.Registered realText) ⟨.start hg n time, fun e he ↦ absurd he (by simp [start])⟩
    fun s a s' hs hinv ↦ ?_).2
  exact ⟨hinv.1.step RegisterLeaf.processUnset hs, hinv.2.step hinv.1 hs⟩

end Runner

namespace Testbed

variable {σ : Type} {D : Database σ} {b : Testbed σ}

/-- The runner of a test bed runs as it does alone. -/
theorem runner_reachable {n : Nat} {g : GeneratorPtr} {time : Int}
    (h : Reachable (Step D) (start D n g time) b) :
    Reachable Runner.Step (Runner.start n g time) b.runner := by
  refine h.invariant (P := fun b ↦ Reachable Runner.Step (Runner.start n g time) b.runner)
    (.refl _ _) fun b a b' hs hr ↦ ?_
  cases hs.runner with
  | inl heq => rwa [heq]
  | inr hstep => exact hr.step hstep.choose_spec

theorem mem_recorded {history : List Entry} {p : Int} {x : String × OPInfo}
    (h : .call p x ∈ recorded history) : ∃ e ∈ history, e.kind = .dispatch ∧
      e.op.process ≠ kNemesisProcess ∧ e.op.payload = x := by
  obtain ⟨e, he, hevent⟩ := List.mem_filterMap.mp h
  unfold Entry.event at hevent
  split at hevent
  · exact absurd hevent (by simp)
  · rename_i hclient
    split at hevent
    · rename_i hkind
      cases hevent
      exact ⟨e, he, hkind, hclient, rfl⟩
    · split at hevent <;> simp at hevent

theorem registerOp_of_recorded {n : Nat} {g : GeneratorPtr} {time : Int} {p : Int}
    {x : String × OPInfo} (hg : AllLeaves (RegisterLeaf realText) [] g)
    (h : Reachable (Step D) (start D n g time) b) (hcall : .call p x ∈ recorded b.runner.history) :
    RegisterOp realText x := by
  obtain ⟨e, he, hkind, hclient, hx⟩ := mem_recorded hcall
  rw [← hx]
  exact Runner.registered_of_reachable hg (runner_reachable h) e he hkind hclient

/-- Over a cluster that serves one request at a time, the clients of etcd record a history of
registers, whatever the schedule and whichever of them give up. -/
theorem etcd_history_linearizable (realText : UInt64 → String) (n : Nat) (g : GeneratorPtr)
    (time : Int) (b : Testbed Store) (hg : AllLeaves (RegisterLeaf realText) [] g)
    (h : Reachable (Step (etcd realText)) (start (etcd realText) n g time) b) :
    Linear.Linearizable (registers realText) (recorded b.runner.history) := by
  obtain ⟨s, hs, htracks⟩ := tracks_of_reachable (hg.mono RegisterLeaf.processUnset) h
  have hlin : Linear.Linearizable (etcd realText) (recorded b.runner.history) := by
    rw [← htracks.history]
    exact Linear.linearizable_of_reachable hs
  exact hlin.refine etcd_refines fun p x ↦ registerOp_of_recorded hg h

/-- No client throws on a request that is on its way: what it reads is a number, and its operation
comes back as a success or a failure. -/
theorem etcd_request_returns (realText : UInt64 → String) (n : Nat) (g : GeneratorPtr)
    (time : Int) (b : Testbed Store) (hg : AllLeaves (RegisterLeaf realText) [] g)
    (h : Reachable (Step (etcd realText)) (start (etcd realText) n g time) b) (p : Int)
    (x : String × OPInfo) (hrequest : b.requests p = some x)
    (serve : Store → Request → Etcd.Response × Store)
    (hserve : ∀ store request,
      Cluster store request (serve store request).1 (serve store request).2) :
    ∃ op' store', ETCDClient.invoke realText serve { type := .kInvoke, func := x.1, op := x.2 }
      b.database = some (op', store') ∧ (op'.type = .kSuccess ∨ op'.type = .kFailed) := by
  obtain ⟨s, hs, htracks⟩ := tracks_of_reachable (hg.mono RegisterLeaf.processUnset) h
  obtain ⟨order, hexp⟩ := Linear.explained_of_reachable hs
  have hcalls : ∀ p x, .call p x ∈ s.history → RegisterOp realText x := by
    rw [htracks.history]
    exact fun p x ↦ registerOp_of_recorded hg h
  obtain ⟨m, -, hholds⟩ := hexp.refine etcd_refines hcalls
  obtain ⟨i, hi⟩ := htracks.requests p x hrequest
  have hx := hcalls p x (List.mem_of_getElem? (hexp.pending p i x hi).1.1)
  rw [htracks.object] at hholds
  exact hx.returns hholds hserve

/-- A cluster that is always there. -/
def available (store : Store) : Request → Etcd.Response × Store
  | .put key val => (⟨true, ""⟩, Function.update store key (some val))
  | .get key =>
    match store key with
    | some val => (⟨true, val⟩, store)
    | none => (⟨false, ""⟩, store)
  | .modifyIf key val old =>
    if store key = some old then (⟨true, ""⟩, Function.update store key (some val))
    else (⟨false, ""⟩, store)

theorem available_cluster (store : Store) (request : Request) :
    Cluster store request (available store request).1 (available store request).2 := by
  cases request with
  | put key val => exact .put
  | get key =>
    simp only [available]
    split
    · rename_i val h
      exact .get h
    · rename_i h
      exact .missing h
  | modifyIf key val old =>
    simp only [available]
    split
    · rename_i h
      exact .modified h
    · rename_i h
      exact .compared h

theorem leaves_writeRead : AllLeaves (RegisterLeaf fun _ ↦ "") [] (Runner.setGenerator
    (createGenerator
      [OperationFactory.write (.string "x") (.int 7), OperationFactory.read (.string "x")])) := by
  have hval : (OPInfo.int 7).asString (fun _ ↦ "") = some (toString (7 : Int)) := rfl
  have hwrite : RegisterLeaf (fun _ ↦ "") [] (OperationFactory.write (.string "x") (.int 7)) :=
    ⟨.inl rfl, .inr ⟨.inr rfl, .write rfl hval (by decide)⟩⟩
  have hread : RegisterLeaf (fun _ ↦ "") [] (OperationFactory.read (.string "x")) :=
    ⟨.inl rfl, .inr ⟨.inr rfl, .read rfl⟩⟩
  exact .validate (.list (by simpa using ⟨.operation hwrite, .operation hread⟩))

/-- What a client of etcd gets from the cluster that is always there. -/
def asked (store : Store) (x : String × OPInfo) : Option (Response × Store) :=
  (ETCDClient.invoke (fun _ ↦ "") available { type := .kInvoke, func := x.1, op := x.2 } store).map
    fun r ↦ (r.1.result, r.2)

theorem apply_of_asked (store : Store) (x : String × OPInfo) (y : Response) (store' : Store)
    (h : asked store x = some (y, store')) : (etcd fun _ ↦ "").apply store x y store' := by
  obtain ⟨r, hr, heq⟩ := Option.map_eq_some_iff.mp h
  obtain ⟨rfl, rfl⟩ := Prod.mk.inj heq
  exact ⟨available, r.1, available_cluster, hr, rfl⟩

/-- The request of a read, once 7 is written: its answer goes through `std::stoi`. -/
theorem etcd_request_returns_read : ∃ b x,
    Reachable (Step (etcd fun _ ↦ "")) (start (etcd fun _ ↦ "") 1
      (Runner.setGenerator (createGenerator
        [OperationFactory.write (.string "x") (.int 7), OperationFactory.read (.string "x")])) 0)
      b ∧ b.requests 0 = some x ∧ x.1 = "read" ∧ b.database "x" = some "7" ∧
      ∃ op' store', ETCDClient.invoke (fun _ ↦ "") available
        { type := .kInvoke, func := x.1, op := x.2 } b.database = some (op', store') ∧
        (op'.type = .kSuccess ∨ op'.type = .kFailed) := by
  have hrun : ((start (etcd fun _ ↦ "") 1 (Runner.setGenerator (createGenerator
      [OperationFactory.write (.string "x") (.int 7),
        OperationFactory.read (.string "x")])) 0).moves asked
      [.act (.ask 0 (fun _ ↦ 1) 6), .act (.take 0), .serve 0, .answer 0, .act (.enqueue 0),
        .act (.complete 0 5), .act (.ask 6 (fun _ ↦ 1) 6), .act (.take 0)]).map
      (fun b ↦ ((b.requests 0).map Prod.fst, b.database "x")) = some (some "read", some "7") := by
    decide +kernel
  obtain ⟨b, hb, hread⟩ := Option.map_eq_some_iff.mp hrun
  obtain ⟨hrequest, hstore⟩ := Prod.mk.inj hread
  obtain ⟨x, hx, hfunc⟩ := Option.map_eq_some_iff.mp hrequest
  have hreach : Reachable (Step (etcd fun _ ↦ "")) _ b := run_of_moves apply_of_asked hb
  exact ⟨b, x, hreach, hx, hfunc, hstore, etcd_request_returns _ 1 _ 0 b leaves_writeRead hreach 0 x
    hx available available_cluster⟩

/-- A write of 7 under the key `"x"` and a read of it: the number that the read hands back has gone
through `std::to_string` and `std::stoi`. -/
theorem etcd_history_linearizable_read : ∃ b,
    (start (etcd fun _ ↦ "") 1 (Runner.setGenerator (createGenerator
      [OperationFactory.write (.string "x") (.int 7),
        OperationFactory.read (.string "x")])) 0).moves asked
      [.act (.ask 0 (fun _ ↦ 1) 6), .act (.take 0), .serve 0, .answer 0, .act (.enqueue 0),
        .act (.complete 0 5), .act (.ask 6 (fun _ ↦ 1) 6), .act (.take 0), .serve 0, .answer 0,
        .act (.enqueue 0), .act (.complete 0 9)] = some b ∧
    (recorded b.runner.history).map readBack = [(0, none), (0, some 7), (0, none), (0, some 7)] ∧
    Linear.Linearizable (registers fun _ ↦ "") (recorded b.runner.history) := by
  have hrun : ((start (etcd fun _ ↦ "") 1 (Runner.setGenerator (createGenerator
      [OperationFactory.write (.string "x") (.int 7),
        OperationFactory.read (.string "x")])) 0).moves asked
      [.act (.ask 0 (fun _ ↦ 1) 6), .act (.take 0), .serve 0, .answer 0, .act (.enqueue 0),
        .act (.complete 0 5), .act (.ask 6 (fun _ ↦ 1) 6), .act (.take 0), .serve 0, .answer 0,
        .act (.enqueue 0), .act (.complete 0 9)]).map
      (fun b ↦ (recorded b.runner.history).map readBack) =
        some [(0, none), (0, some 7), (0, none), (0, some 7)] := by
    decide +kernel
  obtain ⟨b, hb, hread⟩ := Option.map_eq_some_iff.mp hrun
  exact ⟨b, hb, hread, etcd_history_linearizable _ 1 _ 0 b leaves_writeRead
    (run_of_moves apply_of_asked hb)⟩

end Testbed

end Jepsen
