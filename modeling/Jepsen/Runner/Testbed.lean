import Jepsen.Library.Linearizable
import Jepsen.Runner.Sequence

/-!
# The runner over a database

A database answers the requests of all clients one at a time.  A client sends its request when its
worker takes the operation, the database answers at any later moment, and the client hands the
answer back, or reports `:info` without one.  The request of such a client stays on its way: the
database may answer it later, or never.
-/

namespace Jepsen

open Library

abbrev Response := OpType × OPInfo

/-- What a client hands back. -/
def Operation.result (o : Operation) : Response := (o.type, o.op)

/-- A database as its clients see it, when it serves them one after the other. -/
abbrev Database (σ : Type) := Linear.Object σ (String × OPInfo) Response

abbrev Recorded := Linear.History Int (String × OPInfo) Response

/-- The entry as an event of a client's process. -/
def Entry.event (e : Entry) : Option (Linear.Event Int (String × OPInfo) Response) :=
  if e.op.process = kNemesisProcess then none
  else
    match e.kind with
    | .dispatch => some (.call e.op.process e.op.payload)
    | .completion =>
      if e.op.type = .kInfo then none else some (.ret e.op.process e.op.result)

def recorded (history : List Entry) : Recorded := history.filterMap Entry.event

/-- The runner and the database: the requests that are on their way to it, and the answers that are
on their way back, each under the process of the client. -/
structure Testbed (σ : Type) where
  runner : Runner
  database : σ
  requests : Int → Option (String × OPInfo)
  answers : Int → Option Response

namespace Testbed

variable {σ : Type}

def start (D : Database σ) (n : Nat) (g : GeneratorPtr) (time : Int) : Testbed σ :=
  ⟨Runner.start n g time, D.init, fun _ ↦ none, fun _ ↦ none⟩

/-- The requests once worker `t` has taken an operation: the nemesis sends none. -/
def send (r : Runner) (t : Int) (requests : Int → Option (String × OPInfo)) :
    Int → Option (String × OPInfo) :=
  match (r.worker t).job with
  | some (.invoking op) =>
    if op.process = kNemesisProcess then requests
    else Function.update requests op.process (some op.payload)
  | _ => requests

inductive Step (D : Database σ) : Lts (Testbed σ) (Option Action)
  | take {b : Testbed σ} {t : Int} {r : Runner} (h : b.runner.take t = some r) :
      Step D b (some (.take t)) { b with runner := r, requests := send r t b.requests }
  /-- The database serves the request of process `p`. -/
  | serve {b : Testbed σ} {p : Int} {x : String × OPInfo} {y : Response} {database : σ}
      (hrequest : b.requests p = some x) (happly : D.apply b.database x y database) :
      Step D b none { b with
        database := database
        requests := Function.update b.requests p none
        answers := Function.update b.answers p (some y) }
  | answered {b : Testbed σ} {t : Int} {op ret : Operation} {r : Runner}
      (hjob : (b.runner.worker t).job = some (.invoking op))
      (hanswer : b.answers op.process = some ret.result) (h : b.runner.finish t ret = some r) :
      Step D b (some (.finish t ret)) { b with
        runner := r
        answers := Function.update b.answers op.process none }
  /-- The client gives up waiting: its operation is indeterminate. -/
  | crashed {b : Testbed σ} {t : Int} {ret : Operation} {r : Runner} (hinfo : ret.type = .kInfo)
      (h : b.runner.finish t ret = some r) :
      Step D b (some (.finish t ret)) { b with runner := r }
  | nemesis {b : Testbed σ} {t : Int} {op ret : Operation} {r : Runner}
      (hjob : (b.runner.worker t).job = some (.invoking op))
      (hnemesis : op.process = kNemesisProcess) (h : b.runner.finish t ret = some r) :
      Step D b (some (.finish t ret)) { b with runner := r }
  | enqueue {b : Testbed σ} {t : Int} {r : Runner} (h : b.runner.enqueue t = some r) :
      Step D b (some (.enqueue t)) { b with runner := r }
  | complete {b : Testbed σ} {t time : Int} {r : Runner} (h : b.runner.complete t time = some r) :
      Step D b (some (.complete t time)) { b with runner := r }
  | ask {b : Testbed σ} {time : Int} {draws : Draws} {fuel : Nat} {r : Runner}
      (h : b.runner.ask time draws fuel = some r) :
      Step D b (some (.ask time draws fuel)) { b with runner := r }

/-! ## Runs by a schedule -/

/-- A database whose answers, where it has one, are a function of its state. -/
def sequential (init : σ) (answer : σ → String × OPInfo → Option (Response × σ)) : Database σ :=
  ⟨init, fun s x y s' ↦ answer s x = some (y, s')⟩

inductive Move where
  | act (a : Action)
  | serve (process : Int)
  /-- The client of a thread hands back what the database has answered. -/
  | answer (thread : Int)

def move (answer : σ → String × OPInfo → Option (Response × σ)) (b : Testbed σ) :
    Move → Option (Testbed σ)
  | .serve p =>
    (b.requests p).bind fun x ↦ (answer b.database x).map fun y ↦ { b with
      database := y.2
      requests := Function.update b.requests p none
      answers := Function.update b.answers p (some y.1) }
  | .answer t =>
    match (b.runner.worker t).job with
    | some (.invoking op) =>
      (b.answers op.process).bind fun y ↦
        (b.runner.finish t { op with type := y.1, op := y.2 }).map fun r ↦
          { b with runner := r, answers := Function.update b.answers op.process none }
    | _ => none
  | .act (.take t) =>
    (b.runner.take t).map fun r ↦ { b with runner := r, requests := send r t b.requests }
  | .act (.finish t ret) =>
    if ret.type = .kInfo then (b.runner.finish t ret).map fun r ↦ { b with runner := r } else none
  | .act a => (b.runner.step a).map fun r ↦ { b with runner := r }

def moves (answer : σ → String × OPInfo → Option (Response × σ)) :
    Testbed σ → List Move → Option (Testbed σ)
  | b, [] => some b
  | b, m :: ms => (b.move answer m).bind fun b ↦ b.moves answer ms

section

variable {D : Database σ} {answer : σ → String × OPInfo → Option (Response × σ)}

theorem step_of_move (hD : ∀ s x y s', answer s x = some (y, s') → D.apply s x y s') {m : Move}
    {b' : Testbed σ} (h : b.move answer m = some b') : ∃ a, Step D b a b' := by
  cases m with
  | serve p =>
    obtain ⟨x, hx, h⟩ := Option.bind_eq_some_iff.mp h
    obtain ⟨y, hy, hb⟩ := Option.map_eq_some_iff.mp h
    subst hb
    exact ⟨_, .serve hx (hD _ _ _ _ hy)⟩
  | answer t =>
    unfold move at h
    dsimp only at h
    split at h
    · rename_i op hjob
      obtain ⟨y, hy, h⟩ := Option.bind_eq_some_iff.mp h
      obtain ⟨r, hr, hb⟩ := Option.map_eq_some_iff.mp h
      subst hb
      exact ⟨some (.finish t { op with type := y.1, op := y.2 }), .answered hjob hy hr⟩
    · exact absurd h (by simp)
  | act a =>
    cases a with
    | take t =>
      obtain ⟨r, hr, hb⟩ := Option.map_eq_some_iff.mp h
      subst hb
      exact ⟨_, .take hr⟩
    | finish t ret =>
      unfold move at h
      dsimp only at h
      split at h
      · rename_i hinfo
        obtain ⟨r, hr, hb⟩ := Option.map_eq_some_iff.mp h
        subst hb
        exact ⟨_, .crashed hinfo hr⟩
      · exact absurd h (by simp)
    | enqueue t =>
      obtain ⟨r, hr, hb⟩ := Option.map_eq_some_iff.mp h
      subst hb
      exact ⟨_, .enqueue hr⟩
    | complete t time =>
      obtain ⟨r, hr, hb⟩ := Option.map_eq_some_iff.mp h
      subst hb
      exact ⟨_, .complete hr⟩
    | ask time draws fuel =>
      obtain ⟨r, hr, hb⟩ := Option.map_eq_some_iff.mp h
      subst hb
      exact ⟨_, .ask hr⟩

theorem run_of_moves (hD : ∀ s x y s', answer s x = some (y, s') → D.apply s x y s')
    {b b' : Testbed σ} {ms : List Move} (h : b.moves answer ms = some b') :
    ∃ as, Run (Step D) b as b' := by
  induction ms generalizing b with
  | nil =>
    cases Option.some.inj h
    exact ⟨[], .nil _⟩
  | cons m ms ih =>
    obtain ⟨b₁, hmove, hrest⟩ := Option.bind_eq_some_iff.mp h
    obtain ⟨a, hstep⟩ := step_of_move hD hmove
    obtain ⟨as, hrun⟩ := ih hrest
    exact ⟨a :: as, .cons hstep hrun⟩

end

end Testbed

end Jepsen
