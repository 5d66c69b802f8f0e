import Jepsen.Control.Serve

/-!
# The life of a connection

The sockets and sessions that an `SSHRemote` takes and gives back, from its constructor to its
destructor.  A client connects when it is made, and once more in its first command where that has
failed; a command that finds no session ends the process.
-/

namespace Jepsen

open Library Library.Eval

namespace Ssh

/-- What the library and the system are asked for.  A command is one that the host has taken. -/
inductive Event where
  | socket (sock : Int)
  | closeSocket (sock : Int)
  | session (session : Nat)
  | free (session : Nat)
  | use (session : Nat)
  | command (cmd : Bytes)
  deriving DecidableEq

variable {σ : Type}

def note {α : Type} (f : StateM σ α) (e : α → List Event) : StateM (σ × List Event) α :=
  fun s ↦ ((f s.1).1, (f s.1).2, s.2 ++ e (f s.1).1)

/-- The library with a log. -/
def Libssh2.logged (lib : Libssh2 σ) : Libssh2 (σ × List Event) where
  socket := note lib.socket fun sock ↦ [.socket sock]
  connect sock host port := note (lib.connect sock host port) fun _ ↦ []
  closeSocket sock := note (lib.closeSocket sock) fun _ ↦ [.closeSocket sock]
  waitsocket sock session := note (lib.waitsocket sock session) fun _ ↦ [.use session]
  session_init := note lib.session_init fun session ↦ session.toList.map .session
  session_handshake session sock := note (lib.session_handshake session sock) fun _ ↦ [.use session]
  knownhost_init session := note (lib.knownhost_init session) fun _ ↦ [.use session]
  session_hostkey session := note (lib.session_hostkey session) fun _ ↦ [.use session]
  userauth_password session username password :=
    note (lib.userauth_password session username password) fun _ ↦ [.use session]
  userauth_publickey_fromfile session username password :=
    note (lib.userauth_publickey_fromfile session username password) fun _ ↦ [.use session]
  session_free session := note (lib.session_free session) fun _ ↦ [.free session]
  channel_open_session session := note (lib.channel_open_session session) fun _ ↦ [.use session]
  channel_exec channel cmd :=
    note (lib.channel_exec channel cmd) fun rc ↦ if rc = 0 then [.command cmd] else []
  channel_read channel := note (lib.channel_read channel) fun _ ↦ []
  channel_read_stderr channel := note (lib.channel_read_stderr channel) fun _ ↦ []
  channel_close channel := note (lib.channel_close channel) fun _ ↦ []
  channel_get_exit_status channel := note (lib.channel_get_exit_status channel) fun _ ↦ []
  channel_get_exit_signal channel := note (lib.channel_get_exit_signal channel) fun _ ↦ []
  channel_free channel := note (lib.channel_free channel) fun _ ↦ []

/-- The constructor, the requests, and the destructor. -/
def SSHRemote.life (lib : Libssh2 σ) (spec : ConnSpec) (fuel : Nat) (requests : List Request) :
    Act σ (List Answer) := do
  SSHClient.getConnection lib fuel spec
  let answers ← requests.mapM (serve lib spec fuel)
  let _ ← SSHClient.disConnect lib
  return answers

/-! ## The log -/

/-- A session in use, after which it is still there. -/
def Event.On (session : Nat) : Event → Prop
  | .use session' => session' = session
  | .command _ => True
  | _ => False

def commands (log : List Event) : List Bytes :=
  log.filterMap fun e ↦ match e with
    | .command cmd => some cmd
    | _ => none

/-- Since `base`, the session was used for these commands. -/
def Using (session : Nat) (base : List Event) (cmds : List Bytes) (log : List Event) : Prop :=
  ∃ uses, log = base ++ uses ∧ (∀ e ∈ uses, e.On session) ∧ commands uses = cmds

/-- A first attempt that has come to nothing: no session comes about, which leaves the socket open,
or the login fails. -/
inductive Failed : List Event → Prop
  | unreached (sock : Int) : Failed [.socket sock]
  | refused {sock : Int} {session : Nat} {log : List Event} (hsock : sock ≠ kSocketInit)
      (huses : Using session [.socket sock, .session session] [] log) :
      Failed (log ++ [.free session, .closeSocket sock])

/-- The fields of the client, and its log. -/
structure Held (sock : Int) (session : Option Nat) (L : List Event → Prop)
    (c : SSHClient (σ × List Event)) : Prop where
  sock : c.sock = sock
  session : c.session = session
  log : L c.world.2

/-- The process may end, or wait. -/
abbrev Any : Stop → Prop := fun _ ↦ True

variable {sock : Int} {session : Option Nat} {L : List Event → Prop} {id : Nat} {base : List Event}
  {cmds : List Bytes}

theorem Using.nil (id : Nat) (base : List Event) : Using id base [] base :=
  ⟨[], (List.append_nil base).symm, by simp, rfl⟩

theorem Using.snoc {log : List Event} {e : Event} (h : Using id base cmds log) (he : e.On id) :
    Using id base (cmds ++ commands [e]) (log ++ [e]) := by
  obtain ⟨uses, rfl, huses, rfl⟩ := h
  refine ⟨uses ++ [e], List.append_assoc .., ?_, List.filterMap_append ..⟩
  intro e' he'
  rcases List.mem_append.mp he' with hmem | hmem
  · exact huses e' hmem
  · rw [List.mem_singleton.mp hmem]
    exact he

theorem Using.use {log : List Event} (h : Using id base cmds log) :
    Using id base cmds (log ++ [.use id]) := by
  have hsnoc := h.snoc (e := .use id) rfl
  rwa [show commands [Event.use id] = [] from rfl, List.append_nil] at hsnoc

theorem triple_note {α : Type} {f : StateM σ α} {e : α → List Event}
    {Q : α → List Event → Prop} (h : ∀ a log, L log → Q a (log ++ e a)) :
    Triple Any (Held sock session L) (call (note f e)) fun a ↦ Held sock session (Q a) :=
  fun _ hc ↦ ⟨hc.sock, hc.session, h _ _ hc.log⟩

/-- A call on the session that is in use. -/
theorem triple_use {α : Type} (f : StateM σ α) :
    Triple Any (Held sock session (Using id base cmds)) (call (note f fun _ ↦ [.use id])) fun _ ↦
      Held sock session (Using id base cmds) :=
  triple_note fun _ _ h ↦ h.use

theorem triple_silent {α : Type} (f : StateM σ α) :
    Triple Any (Held sock session L) (call (note f fun _ ↦ [])) fun _ ↦ Held sock session L :=
  triple_note fun _ log h ↦ by rwa [List.append_nil]

theorem triple_retry {P : SSHClient (σ × List Event) → Prop} {f : StateM (σ × List Event) Int}
    {wait : Act (σ × List Event) Unit} {Q : Int → SSHClient (σ × List Event) → Prop}
    (hf : Triple Any P (call f) fun rc c ↦ if rc = eagain then P c else Q rc c)
    (hwait : Triple Any P wait fun _ ↦ P) (n : Nat) : Triple Any P (retry f wait n) Q := by
  apply Triple.iterate (I := fun _ ↦ P) trivial _ n ()
  intro _
  apply hf.bind
  intro rc
  by_cases hrc : rc = eagain
  · simp only [if_pos hrc]
    exact hwait.bind fun _ ↦ .pure fun _ hc ↦ hc
  · simp only [if_neg hrc]
    exact .pure fun _ hc ↦ hc

theorem triple_readAll {P : SSHClient (σ × List Event) → Prop}
    {read : StateM (σ × List Event) (Int × Bytes)} {wait : Act (σ × List Event) Unit}
    (hread : Triple Any P (call read) fun _ ↦ P) (hwait : Triple Any P wait fun _ ↦ P) (n : Nat)
    (text : Bytes) : Triple Any P (SSHChannel.readAll n wait read text) fun _ ↦ P := by
  apply Triple.iterate (I := fun _ ↦ P) trivial _ n text
  intro text
  have hblock : Triple Any P (SSHChannel.readBlock n read text) fun _ ↦ P := by
    apply Triple.iterate (I := fun _ ↦ P) trivial _ n text
    intro text
    apply hread.bind
    intro r
    dsimp only
    split <;> exact .pure fun _ hc ↦ hc
  apply hblock.bind
  intro r
  dsimp only
  split
  · exact hwait.bind fun _ ↦ .pure fun _ hc ↦ hc
  · exact .pure fun _ hc ↦ hc

/-! ## A channel -/

section

variable (lib : Libssh2 σ) (n : Nat)

theorem triple_new : Triple Any (Held sock (some id) (Using id base cmds))
    (SSHChannel.new lib.logged n sock (some id)) fun r c ↦
      r.1 = id ∧ Held sock (some id) (Using id base cmds) c := by
  have hcreate : Triple Any (Held sock (some id) (Using id base cmds))
      (SSHChannel.createChannel lib.logged n sock id) fun _ ↦
        Held sock (some id) (Using id base cmds) := by
    apply Triple.iterate (I := fun _ ↦ Held sock (some id) (Using id base cmds)) trivial _ n ()
    intro _
    apply (triple_use (lib.channel_open_session id)).bind
    intro r
    cases r with
    | ok channel => exact .pure fun _ hc ↦ hc
    | error e =>
      dsimp only
      split
      · exact (triple_use (lib.waitsocket sock id)).bind fun _ ↦ .pure fun _ hc ↦ hc
      · exact .pure fun _ hc ↦ hc
  apply hcreate.bind
  intro channel
  cases channel with
  | none => exact .throw trivial
  | some channel => exact .pure fun _ hc ↦ ⟨rfl, hc⟩

theorem triple_exec (channel : Nat) (cmd out err : Bytes) :
    Triple Any (Held sock (some id) (Using id base cmds))
      (SSHChannel.exec lib.logged n sock id channel cmd out err) fun _ ↦
        Held sock (some id) (Using id base (cmds ++ [cmd])) := by
  have hwait (cmds : List Bytes) : Triple Any (Held sock (some id) (Using id base cmds))
      (call (lib.logged.waitsocket sock id)) fun _ ↦ Held sock (some id) (Using id base cmds) :=
    triple_use _
  have hexec : Triple Any (Held sock (some id) (Using id base cmds))
      (call (lib.logged.channel_exec channel cmd)) fun rc c ↦
        if rc = eagain then Held sock (some id) (Using id base cmds) c
        else rc = 0 → Held sock (some id) (Using id base (cmds ++ [cmd])) c := by
    apply (triple_note (Q := fun rc ↦ if rc = 0 then Using id base (cmds ++ [cmd])
      else Using id base cmds) fun rc log hlog ↦ ?_).mono
    · intro rc c hc
      by_cases hrc : rc = 0
      · subst hrc
        exact fun _ ↦ hc
      · rw [if_neg hrc] at hc
        split
        · exact hc
        · exact fun h0 ↦ absurd h0 hrc
    · by_cases hrc : rc = 0
      · simp only [if_pos hrc]
        exact hlog.snoc trivial
      · simp only [if_neg hrc, List.append_nil]
        exact hlog
  apply (triple_retry hexec (hwait _) n).bind
  intro rc
  by_cases hrc : rc = 0
  · simp only [hrc, ne_eq, not_true_eq_false, if_false, forall_const]
    apply (triple_readAll (triple_silent _) (hwait _) n out).bind
    intro out
    apply (triple_readAll (triple_silent _) (hwait _) n err).bind
    intro err
    exact .pure fun _ hc ↦ hc
  · simp only [if_pos hrc]
    exact .throw trivial

theorem triple_close (channel : Nat) :
    Triple Any (Held sock (some id) (Using id base cmds))
      (SSHChannel.close lib.logged n sock id channel) fun _ ↦
        Held sock (some id) (Using id base cmds) := by
  have hclose : Triple Any (Held sock (some id) (Using id base cmds))
      (call (lib.logged.channel_close channel)) fun rc c ↦
        if rc = eagain then Held sock (some id) (Using id base cmds) c
        else Held sock (some id) (Using id base cmds) c :=
    (triple_silent _).mono fun rc c hc ↦ by rwa [ite_self]
  apply (triple_retry (Q := fun _ ↦ Held sock (some id) (Using id base cmds)) hclose
    (triple_use _) n).bind
  intro rc
  split
  · apply (triple_silent _).bind
    intro exitcode
    apply (triple_silent _).bind
    intro exitsignal
    exact (triple_silent _).bind fun _ ↦ .pure fun _ hc ↦ hc
  · exact (triple_silent _).bind fun _ ↦ .pure fun _ hc ↦ hc

/-! ## The client -/

theorem triple_disConnect (hsock : sock ≠ kSocketInit) :
    Triple Any (Held sock (some id) L) (SSHClient.disConnect lib.logged) fun _ ↦
      Held kSocketInit none fun log ↦
        ∃ log₀, L log₀ ∧ log = log₀ ++ [.free id, .closeSocket sock] := by
  rintro ⟨sock', session', world⟩ ⟨rfl, rfl, hlog⟩
  have hrun : SSHClient.disConnect lib.logged ⟨sock', some id, world⟩ =
      .ok (true, ⟨kSocketInit, none,
        (lib.logged.closeSocket sock' (lib.logged.session_free id world).2).2⟩) := by
    show (if sock' ≠ kSocketInit then _ else _ : Act _ Bool) _ = _
    rw [if_pos hsock]
    rfl
  rw [hrun]
  exact ⟨rfl, rfl, _, hlog, List.append_assoc ..⟩

/-- What a failed login leaves. -/
def LoggedOut (sock : Int) (id : Nat) (base : List Event) : SSHClient (σ × List Event) → Prop :=
  Held kSocketInit none fun log ↦
    ∃ log₀, Using id base [] log₀ ∧ log = log₀ ++ [.free id, .closeSocket sock]

variable (spec : ConnSpec)

theorem authenticate_logged (id : Nat) : SSHClient.authenticate lib.logged spec id =
    note (SSHClient.authenticate lib spec id) fun _ ↦ [.use id] := by
  unfold SSHClient.authenticate
  split <;> rfl

theorem triple_login (hsock : sock ≠ kSocketInit) :
    Triple Any (Held sock (some id) (Using id base [])) (SSHClient.login lib.logged n spec id sock)
      fun _ c ↦ Held sock (some id) (Using id base []) c ∨ LoggedOut sock id base c := by
  have hkeep {f : StateM σ Int} : Triple Any (Held sock (some id) (Using id base []))
      (call (note f fun _ ↦ [.use id])) fun rc c ↦
        if rc = eagain then Held sock (some id) (Using id base []) c
        else Held sock (some id) (Using id base []) c :=
    (triple_use f).mono fun rc c hc ↦ by rwa [ite_self]
  have hstay {b : Bool} : Triple Any (Held sock (some id) (Using id base []))
      (pure b : Act (σ × List Event) Bool) fun _ c ↦
        Held sock (some id) (Using id base []) c ∨ LoggedOut sock id base c :=
    .pure fun _ hc ↦ .inl hc
  apply (triple_retry (Q := fun _ ↦ Held sock (some id) (Using id base [])) hkeep
    (.pure fun _ hc ↦ hc) n).bind
  intro rc
  split
  · exact hstay
  · apply (triple_use (lib.knownhost_init id)).bind
    intro nh
    split
    · exact hstay
    · apply (triple_use (lib.session_hostkey id)).bind
      intro fingerprint
      split
      · exact hstay
      · rw [authenticate_logged]
        apply (triple_retry (Q := fun _ ↦ Held sock (some id) (Using id base [])) hkeep
          (.pure fun _ hc ↦ hc) n).bind
        intro rc
        split
        · exact (triple_disConnect lib hsock).bind fun _ ↦ .pure fun _ hc ↦ .inr hc
        · exact hstay

/-- Connected by way of this socket. -/
def Serving (base : List Event) (cmds : List Bytes) (c : SSHClient (σ × List Event)) : Prop :=
  ∃ sock id, sock ≠ kSocketInit ∧
    Held sock (some id) (Using id (base ++ [.socket sock, .session id]) cmds) c

/-- Without a session, after a failed attempt. -/
def Unconnected (base : List Event) (c : SSHClient (σ × List Event)) : Prop :=
  ∃ sock failed, Failed failed ∧ Held sock none (· = base ++ failed) c

theorem triple_setSock (sock' : Int) :
    Triple Any (Held sock session L) (setSock sock' : Act (σ × List Event) Unit) fun _ ↦
      Held sock' session L :=
  fun _ hc ↦ ⟨rfl, hc.session, hc.log⟩

theorem triple_setSession (session' : Option Nat) :
    Triple Any (Held sock session L) (setSession session' : Act (σ × List Event) Unit) fun _ ↦
      Held sock session' L :=
  fun _ hc ↦ ⟨hc.sock, rfl, hc.log⟩

/-- No socket is connected that has not been made. -/
def Libssh2.Refuses (lib : Libssh2 σ) : Prop :=
  ∀ host port s, (lib.connect kSocketInit host port s).1 ≠ 0

theorem triple_connect (hlib : lib.Refuses) (host : Bytes) (port : Nat) :
    Triple Any (Held sock session L) (call (lib.logged.connect sock host port)) fun rc c ↦
      (rc = 0 → sock ≠ kSocketInit) ∧ Held sock session L c := by
  intro c hc
  refine ⟨?_, hc.sock, hc.session, ?_⟩
  · rintro hrc rfl
    exact hlib host port c.world.1 hrc
  · show L (c.world.2 ++ [])
    rw [List.append_nil]
    exact hc.log

theorem LoggedOut.unconnected {sock : Int} {id : Nat} {base : List Event}
    {c : SSHClient (σ × List Event)} (hsock : sock ≠ kSocketInit)
    (h : LoggedOut sock id (base ++ [.socket sock, .session id]) c) : Unconnected base c := by
  obtain ⟨log₀, ⟨uses, hlog₀, huses, hcmds⟩, hlog⟩ := h.log
  refine ⟨_, _, .refused hsock ⟨uses, rfl, huses, hcmds⟩, h.sock, h.session, ?_⟩
  rw [hlog, hlog₀]
  simp only [List.append_assoc]

theorem triple_connectTo (hlib : lib.Refuses) :
    Triple Any (Held sock none (· = base)) (SSHClient.connectTo lib.logged n spec) fun _ c ↦
      Serving base [] c ∨ Unconnected base c := by
  apply (triple_note (Q := fun sock log ↦ log = base ++ [.socket sock]) fun sock log hlog ↦ by
    rw [hlog]).bind
  intro sock
  apply (triple_setSock sock).bind
  intro _
  apply (triple_connect lib hlib spec.host spec.port).bind
  intro rc
  apply Triple.of_and
  intro hsock
  split
  · exact .pure fun _ hc ↦ .inr ⟨_, _, .unreached sock, hc⟩
  · rename_i hrc
    apply (triple_note (Q := fun session log ↦
      log = base ++ [.socket sock] ++ session.toList.map .session) fun session log hlog ↦ by
        rw [hlog]).bind
    intro session
    apply (triple_setSession session).bind
    intro _
    cases session with
    | none => exact .pure fun _ hc ↦ .inr ⟨_, _, .unreached sock, hc.sock, hc.session, by
        rw [hc.log]; exact List.append_nil _⟩
    | some id =>
      have hlogin : Triple Any
          (Held sock (some id) (Using id (base ++ [.socket sock, .session id]) []))
          (SSHClient.login lib.logged n spec id sock) _ :=
        triple_login lib n spec (hsock (not_not.mp hrc))
      refine (hlogin.pre fun c hc ↦ ⟨hc.sock, hc.session, ?_⟩).mono fun _ c hc ↦ ?_
      · rw [hc.log, List.append_assoc]
        exact .nil _ _
      · rcases hc with hc | hc
        · exact .inl ⟨sock, id, hsock (not_not.mp hrc), hc⟩
        · exact .inr (hc.unconnected (hsock (not_not.mp hrc)))

/-! ## The requests -/

/-- After a request: there was a first attempt that failed, or none. -/
def Settled (cmds : List Bytes) (c : SSHClient (σ × List Event)) : Prop :=
  ∃ base, (base = [] ∨ Failed base) ∧ Serving base cmds c

variable {cmds : List Bytes} {base : List Event}

theorem Serving.settled {c : SSHClient (σ × List Event)} (h : Serving [] cmds c) : Settled cmds c :=
  ⟨[], .inl rfl, h⟩

/-- A session is there, or the process is about to end. -/
theorem triple_ensureConnection (hlib : lib.Refuses) :
    Triple Any (fun c ↦ Settled cmds c ∨ cmds = [] ∧ Unconnected [] c)
      (SSHClient.ensureConnection lib.logged n spec) fun _ c ↦
        Settled cmds c ∨ c.session = none := by
  apply Triple.get_bind
  rintro c (hc | ⟨rfl, hc⟩)
  · obtain ⟨base, hbase, sock, id, hsock, hheld⟩ := hc
    have hcond : ¬(c.session = none ∨ c.sock = kSocketInit) := by
      rw [hheld.session, hheld.sock]
      simp [hsock]
    rw [if_neg hcond]
    exact .pure fun c' hc' ↦ .inl (hc' ▸ ⟨base, hbase, sock, id, hsock, hheld⟩)
  · obtain ⟨sock, failed, hfailed, hheld⟩ := hc
    rw [if_pos (.inl hheld.session)]
    have hconnect : Triple Any (· = c) (SSHClient.connectTo lib.logged n spec) fun _ c ↦
        Serving failed [] c ∨ Unconnected failed c :=
      (triple_connectTo lib n spec hlib).pre fun c' hc' ↦ hc' ▸ hheld
    refine hconnect.bind fun _ ↦ .pure fun c' hc' ↦ ?_
    rcases hc' with hc' | ⟨_, _, _, hc'⟩
    · exact .inl ⟨failed, .inr hfailed, hc'⟩
    · exact .inr hc'.session

theorem triple_execute (hlib : lib.Refuses) (cmd out err : Bytes) :
    Triple Any (fun c ↦ Settled cmds c ∨ cmds = [] ∧ Unconnected [] c)
      (SSHClient.execute lib.logged n spec cmd out err) fun _ ↦ Settled (cmds ++ [cmd]) := by
  apply (triple_ensureConnection lib n spec hlib).bind
  intro _
  apply Triple.get_bind
  rintro c (hc | hc)
  · obtain ⟨base, hbase, sock, id, hsock, hheld⟩ := hc
    rw [hheld.sock, hheld.session]
    refine Triple.pre (P := Held sock (some id) (Using id (base ++ [.socket sock, .session id]) cmds))
      ?_ fun c' hc' ↦ hc' ▸ hheld
    apply (triple_new lib n).bind
    rintro ⟨id', channel⟩
    apply Triple.of_and
    rintro rfl
    apply (triple_exec lib n channel cmd out err).bind
    rintro ⟨out', err'⟩
    apply (triple_close lib n channel).bind
    intro ok
    exact .pure fun c hc ↦ ⟨base, hbase, sock, id', hsock, hc⟩
  · rw [hc]
    exact .throw trivial

theorem triple_serve (hlib : lib.Refuses) (request : Request) :
    Triple Any (fun c ↦ Settled cmds c ∨ cmds = [] ∧ Unconnected [] c)
      (SSHRemote.serve lib.logged spec n request) fun _ ↦
        Settled (cmds ++ [request.line spec.password]) := by
  cases request with
  | execute cmd => exact triple_execute lib n spec hlib cmd [] []
  | sudoExecute cmd => exact triple_execute lib n spec hlib _ [] []

theorem triple_serveAll (hlib : lib.Refuses) (requests : List Request) (cmds : List Bytes) :
    Triple Any (Settled cmds) (requests.mapM (SSHRemote.serve lib.logged spec n)) fun _ ↦
      Settled (cmds ++ requests.map (Request.line spec.password)) := by
  induction requests generalizing cmds with
  | nil =>
    rw [List.mapM_nil, List.map_nil, List.append_nil]
    exact .pure fun _ hc ↦ hc
  | cons request requests ih =>
    rw [List.mapM_cons, List.map_cons, List.append_cons]
    apply ((triple_serve lib n spec hlib request).pre fun _ hc ↦ .inl hc).bind
    intro answer
    apply (ih _).bind
    intro answers
    exact .pure fun _ hc ↦ hc

end

/-- One session takes all commands, in their order, and is freed, and its socket closed, at the end.
What comes before is at most one attempt to connect, which has taken no command. -/
def OneSession (cmds : List Bytes) (log : List Event) : Prop :=
  ∃ before sock session uses, (before = [] ∨ Failed before) ∧ sock ≠ kSocketInit ∧
    log = before ++ [.socket sock, .session session] ++ uses ++ [.free session, .closeSocket sock] ∧
    (∀ e ∈ uses, e.On session) ∧ commands uses = cmds

theorem triple_end (lib : Libssh2 σ) (cmds : List Bytes) (answers : List Answer) :
    Triple Any (Settled cmds) (do
      let _ ← SSHClient.disConnect lib.logged
      return answers) fun _ c ↦ OneSession cmds c.world.2 := by
  rintro c ⟨before, hbefore, sock, id, hsock, hheld⟩
  refine (triple_disConnect lib hsock).bind (R := fun _ c ↦ OneSession cmds c.world.2)
    (fun _ ↦ .pure fun c hc ↦ ?_) c hheld
  obtain ⟨_, ⟨uses, rfl, huses, hcmds⟩, hlog⟩ := hc.log
  exact ⟨before, sock, id, uses, hbefore, hsock, hlog, huses, hcmds⟩

/-- The log of a client that serves a request.  All that is lost over its life is the socket of a
first attempt that has reached no host. -/
theorem life_of_requests (lib : Libssh2 σ) (hlib : lib.Refuses) (spec : ConnSpec) (n : Nat)
    (request : Request) (requests : List Request) {w : σ} {answers : List Answer}
    {c : SSHClient (σ × List Event)}
    (h : SSHRemote.life lib.logged spec n (request :: requests) { world := (w, []) } =
      .ok (answers, c)) :
    OneSession ((request :: requests).map (Request.line spec.password)) c.world.2 := by
  have hlife : Triple Any (Held kSocketInit none (· = []))
      (SSHRemote.life lib.logged spec n (request :: requests)) fun _ c ↦
        OneSession ((request :: requests).map (Request.line spec.password)) c.world.2 := by
    have hconnection : Triple Any (Held kSocketInit none (· = []))
        (SSHClient.getConnection lib.logged n spec) fun _ c ↦
          Settled [] c ∨ [] = ([] : List Bytes) ∧ Unconnected [] c :=
      (triple_connectTo lib n spec hlib).bind fun _ ↦ .pure fun _ hc ↦
        hc.imp Serving.settled fun hc ↦ ⟨rfl, hc⟩
    apply hconnection.bind
    intro _
    rw [List.mapM_cons]
    apply Triple.bind
      (Q := fun _ ↦ Settled ((request :: requests).map (Request.line spec.password)))
    · apply (triple_serve lib n spec hlib request).bind
      intro answer
      apply (triple_serveAll lib n spec hlib requests _).bind
      intro answers
      exact .pure fun _ hc ↦ hc
    · intro answers
      exact triple_end lib _ answers
  exact hlife.ok ⟨rfl, rfl, rfl⟩ h

theorem Simulated.refuses {O : Type} (run : Bytes → O → Exit × O) :
    (Simulated.libssh2 run).Refuses := by
  intro host port s
  show (-1 : Int) ≠ 0
  decide

/-- A client that reads the date. -/
theorem life_of_requests_date : ∃ answers c,
    SSHRemote.life (Simulated.libssh2 echoHost).logged ⟨[], 22, [], []⟩ 8 [.execute (ascii "date")]
      { world := ({ host := 0 }, []) } = .ok (answers, c) ∧
    OneSession [ascii "date"] c.world.2 := by
  have hok : (SSHRemote.life (Simulated.libssh2 echoHost).logged ⟨[], 22, [], []⟩ 8
      [.execute (ascii "date")] { world := ({ host := 0 }, []) }).toBool = true := by
    decide +kernel
  cases h : SSHRemote.life (Simulated.libssh2 echoHost).logged ⟨[], 22, [], []⟩ 8
      [.execute (ascii "date")] { world := ({ host := 0 }, []) } with
  | error e =>
    rw [h] at hok
    exact absurd hok Bool.false_ne_true
  | ok r =>
    exact ⟨r.1, r.2, rfl, life_of_requests _ (Simulated.refuses echoHost) ⟨[], 22, [], []⟩ 8
      (.execute (ascii "date")) [] h⟩

end Ssh

end Jepsen
