import Jepsen.Control.Exec
import Jepsen.Library.Transition

/-!
# One command after another

The commands that go through one `SSHRemote` are those that its host goes through, with the same
answers.
-/

namespace Jepsen

open Library Library.Eval

namespace Ssh

variable {σ O : Type}

/-! ## A library with a host -/

/-- Every other call finds that it has to wait. -/
structure Simulated (O : Type) where
  host : O
  phase : Phase := .ready
  busy : Bool := true

namespace Simulated

def again {α : Type} (wait : α) (go : StateM (Simulated O) α) : StateM (Simulated O) α := fun s ↦
  if s.busy then (wait, { s with busy := false }) else ((go s).1, { (go s).2 with busy := true })

/-- The streams come byte by byte. -/
def libssh2 (run : Bytes → O → Exit × O) : Libssh2 (Simulated O) where
  socket s := (3, s)
  connect sock _ _ s := (if sock = kSocketInit then -1 else 0, s)
  closeSocket _ s := ((), s)
  waitsocket _ _ s := ((), s)
  session_init s := (some 0, s)
  session_handshake _ _ := again eagain fun s ↦ (0, s)
  knownhost_init _ s := (true, s)
  session_hostkey _ s := (true, s)
  userauth_password _ _ _ := again eagain fun s ↦ (0, s)
  userauth_publickey_fromfile _ _ _ := again eagain fun s ↦ (0, s)
  session_free _ s := ((), s)
  channel_open_session _ := again (.error eagain) fun s ↦ (.ok 0, { s with phase := .opened 0 })
  channel_exec channel command := again eagain fun s ↦
    let (e, host) := run command s.host
    (0, { s with host := host, phase := .running channel e e.out e.err })
  channel_read _ := again (eagain, []) fun s ↦
    match s.phase with
    | .running channel e (c :: out) err =>
      ((1, [c]), { s with phase := .running channel e out err })
    | _ => ((0, []), s)
  channel_read_stderr _ := again (eagain, []) fun s ↦
    match s.phase with
    | .running channel e out (c :: err) =>
      ((1, [c]), { s with phase := .running channel e out err })
    | _ => ((0, []), s)
  channel_close _ := again eagain fun s ↦
    match s.phase with
    | .running channel e _ _ => (0, { s with phase := .closed channel e })
    | _ => (0, s)
  channel_get_exit_status _ s :=
    match s.phase with
    | .closed _ e => (e.status, s)
    | _ => (0, s)
  channel_get_exit_signal _ s :=
    match s.phase with
    | .closed _ e => (e.signal, s)
    | _ => (none, s)
  channel_free _ s := ((), { s with phase := .ready })

def At (_session : Nat) (p : Phase) (o : O) (s : Simulated O) : Prop := s.phase = p ∧ s.host = o

def patience (s : Simulated O) : Nat := if s.busy then 1 else 0

theorem again_of_busy {α : Type} {wait : α} {go : StateM (Simulated O) α} {s : Simulated O}
    (h : s.busy = true) : again wait go s = (wait, { s with busy := false }) :=
  if_pos h

theorem again_of_free {α : Type} {wait : α} {go : StateM (Simulated O) α} {s : Simulated O}
    (h : s.busy = false) : again wait go s = ((go s).1, { (go s).2 with busy := true }) :=
  if_neg (by simp [h])

theorem tries {go : StateM (Simulated O) Int} {session : Nat} {p q : Phase} {o o' : O}
    (h : ∀ s, At session p o s → (go s).1 = 0 ∧ At session q o' (go s).2) :
    Tries patience (again eagain go) (At session p o) (At session q o') := by
  intro s hs
  cases hbusy : s.busy with
  | true =>
    rw [again_of_busy hbusy]
    exact .inl ⟨rfl, hs, by simp [patience, hbusy]⟩
  | false =>
    rw [again_of_free hbusy]
    exact .inr (h s hs)

theorem reads {go : StateM (Simulated O) (Int × Bytes)} {session : Nat} {p : Bytes → Phase} {o : O}
    (hcons : ∀ c text s, At session (p (c :: text)) o s →
      (go s).1 = (1, [c]) ∧ At session (p text) o (go s).2)
    (hnil : ∀ s, At session (p []) o s → (go s).1 = (0, []) ∧ At session (p []) o (go s).2) :
    Reads patience (again (eagain, []) go) fun text ↦ At session (p text) o := by
  intro text s hs
  cases hbusy : s.busy with
  | true =>
    rw [again_of_busy hbusy]
    exact .inl ⟨rfl, hs, by simp [patience, hbusy]⟩
  | false =>
    rw [again_of_free hbusy]
    right
    cases text with
    | nil =>
      obtain ⟨hread, hat⟩ := hnil s hs
      rw [hread]
      exact .inr ⟨rfl, rfl, hat⟩
    | cons c text =>
      obtain ⟨hread, hat⟩ := hcons c text s hs
      rw [hread]
      exact .inl ⟨[c], text, rfl, by simp, rfl, rfl, hat⟩

theorem carries (run : Bytes → O → Exit × O) : Carries (libssh2 run) run At patience where
  waitsocket _ h := ⟨h, le_rfl⟩
  channel_open_session {session o s} h := by
    show (again _ _ s).1 = _ ∧ At session .ready o (again _ _ s).2 ∧
      patience (again _ _ s).2 < patience s ∨
        ∃ channel, (again _ _ s).1 = _ ∧ At session _ o (again _ _ s).2
    cases hbusy : s.busy with
    | true =>
      rw [again_of_busy hbusy]
      exact .inl ⟨rfl, h, by simp [patience, hbusy]⟩
    | false =>
      rw [again_of_free hbusy]
      exact .inr ⟨0, rfl, rfl, h.2⟩
  channel_exec session channel command o := tries fun s hs ↦ by
    obtain ⟨-, rfl⟩ := hs
    exact ⟨rfl, rfl, rfl⟩
  channel_read session channel e err o := by
    apply reads (p := fun out ↦ .running channel e out err)
    · intro c out s hs
      rw [hs.1]
      exact ⟨rfl, rfl, hs.2⟩
    · intro s hs
      rw [hs.1]
      exact ⟨rfl, hs⟩
  channel_read_stderr session channel e out o := by
    apply reads (p := fun err ↦ .running channel e out err)
    · intro c err s hs
      rw [hs.1]
      exact ⟨rfl, rfl, hs.2⟩
    · intro s hs
      rw [hs.1]
      exact ⟨rfl, hs⟩
  channel_close session channel e o := tries fun s hs ↦ by
    rw [hs.1]
    exact ⟨rfl, rfl, hs.2⟩
  channel_get_exit_status {session channel e o s} h := by
    simp only [libssh2, h.1]
    exact ⟨trivial, h⟩
  channel_get_exit_signal {session channel e o s} h := by
    simp only [libssh2, h.1]
    exact ⟨trivial, h⟩
  channel_free h := ⟨rfl, h.2⟩

end Simulated

/-! ## One command after another -/

inductive Request where
  | execute (cmd : Bytes)
  | sudoExecute (cmd : Bytes)

/-- The line that the host gets. -/
def Request.line (password : Bytes) : Request → Bytes
  | .execute cmd => cmd
  | .sudoExecute cmd => SSHRemote.sudoLine password cmd

/-- Whether the process ended well, and what it wrote. -/
abbrev Answer := Bool × Bytes × Bytes

def Exit.answer (e : Exit) : Answer := (e.succeeded, e.out, e.err)

def SSHRemote.serve (lib : Libssh2 σ) (spec : ConnSpec) (fuel : Nat) : Request → Act σ Answer
  | .execute cmd => execute lib fuel spec cmd
  | .sudoExecute cmd => sudoExecute lib fuel spec cmd

/-- The requests that come back, with their answers. -/
def Serve (lib : Libssh2 σ) (spec : ConnSpec) : Lts (SSHClient σ) (Request × Answer) :=
  fun c e c' ↦ Returns (fun n ↦ SSHRemote.serve lib spec n e.1) c (e.2, c')

/-- The host, without a connection. -/
def Host (run : Bytes → O → Exit × O) (password : Bytes) : Lts O (Request × Answer) :=
  fun o e o' ↦ o' = (run (e.1.line password) o).2 ∧ e.2 = (run (e.1.line password) o).1.answer

section

variable {lib : Libssh2 σ} {run : Bytes → O → Exit × O} {At : Nat → Phase → O → σ → Prop}
  {patience : σ → Nat} {sock : Int} {session : Nat}

theorem total_serve (h : Carries lib run At patience) (hsock : sock ≠ kSocketInit)
    (spec : ConnSpec) (request : Request) (o : O) :
    Total (Connected sock session (At session .ready o))
      (fun n ↦ SSHRemote.serve lib spec n request) fun r ↦
        Connected sock session fun s ↦ r = (run (request.line spec.password) o).1.answer ∧
          At session .ready (run (request.line spec.password) o).2 s := by
  cases request with
  | execute cmd => exact total_execute h hsock spec cmd [] []
  | sudoExecute cmd => exact total_execute h hsock spec (SSHRemote.sudoLine spec.password cmd) [] []

/-- A connected remote and its host have the same runs: every request comes back, and its answer is
that of the host. -/
theorem serve_refines_host (h : Carries lib run At patience) (hsock : sock ≠ kSocketInit)
    (spec : ConnSpec) {c : SSHClient σ} {o : O}
    (hc : Connected sock session (At session .ready o) c) (es : List (Request × Answer)) :
    (∀ c', Run (Serve lib spec) c es c' →
      ∃ o', Run (Host run spec.password) o es o' ∧
        Connected sock session (At session .ready o') c') ∧
    ∀ o', Run (Host run spec.password) o es o' →
      ∃ c', Run (Serve lib spec) c es c' ∧ Connected sock session (At session .ready o') c' := by
  constructor
  · intro c' hrun
    apply hrun.follows (S := fun c o ↦ Connected sock session (At session .ready o) c) _ hc
    intro c e c' o hstep hc
    obtain ⟨r, c'', hreturns, hpost⟩ := total_serve h hsock spec e.1 o c hc
    obtain ⟨hr, hworld⟩ := hpost.world
    obtain ⟨rfl, rfl⟩ := Prod.mk.inj (hstep.unique hreturns)
    exact ⟨_, ⟨rfl, hr⟩, hpost.sock, hpost.session, hworld⟩
  · intro o' hrun
    apply hrun.follows (S := fun o c ↦ Connected sock session (At session .ready o) c) _ hc
    intro o e o' c hstep hc
    obtain ⟨r, c', hreturns, hpost⟩ := total_serve h hsock spec e.1 o c hc
    obtain ⟨hr, hworld⟩ := hpost.world
    rw [← hstep.1] at hworld
    refine ⟨c', ?_, hpost.sock, hpost.session, hworld⟩
    show Returns _ c (e.2, c')
    rwa [hstep.2, ← hr]

end

/-- A host that counts its commands, and says them again. -/
def echoHost (cmd : Bytes) (n : Nat) : Exit × Nat := (⟨0, none, cmd, []⟩, n + 1)

def rootSpec : ConnSpec := ⟨ascii "n1", 22, ascii "root", ascii "root"⟩

/-- "ls", and "ls" again with the rights of the superuser. -/
theorem serve_refines_host_echo :
    ∃ c', Run (Serve (Simulated.libssh2 echoHost) rootSpec) ⟨3, some 0, { host := 0 }⟩
      [(.execute (ascii "ls"), (true, ascii "ls", [])),
        (.sudoExecute (ascii "ls"),
          (true, SSHRemote.sudoLine rootSpec.password (ascii "ls"), []))] c' ∧
      Connected 3 0 (Simulated.At 0 .ready 2) c' :=
  (serve_refines_host (Simulated.carries echoHost) (by decide) rootSpec ⟨rfl, rfl, rfl, rfl⟩ _).2 2
    (.cons ⟨rfl, rfl⟩ (.single ⟨rfl, rfl⟩))

end Ssh

end Jepsen
