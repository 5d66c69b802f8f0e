import Jepsen.Control.Ssh
import Mathlib.Data.Prod.Lex

/-!
# Executing a command

What libssh2 promises of a session, and what `SSHClient::execute` makes of it: however the two
streams of a process come in pieces, and however often a call has to be made again, the caller gets
all of both, and whether the process has ended well.
-/

namespace Jepsen

open Library Library.Eval

namespace Ssh

/-- What a process leaves. -/
structure Exit where
  status : Int
  signal : Option Bytes
  out : Bytes
  err : Bytes

/-- "EXIT" zero, and no "Got signal" -/
def Exit.succeeded (e : Exit) : Bool := e.signal = none ∧ e.status = 0

/-- Where a session is: nothing goes on, or there is a channel.  Of a running process, `out` and
`err` are left to read. -/
inductive Phase where
  | ready
  | opened (channel : Nat)
  | running (channel : Nat) (e : Exit) (out err : Bytes)
  | closed (channel : Nat) (e : Exit)

variable {σ O : Type}

/-- The call leads from `P` to `Q`, or has to be made again. -/
def Tries (patience : σ → Nat) (f : StateM σ Int) (P Q : σ → Prop) : Prop :=
  ∀ s, P s → (f s).1 = eagain ∧ P (f s).2 ∧ patience (f s).2 < patience s ∨
    (f s).1 = 0 ∧ Q (f s).2

/-- A read of a stream of which `text` is left: a first piece of it, or nothing yet, or its end. -/
def Reads (patience : σ → Nat) (read : StateM σ (Int × Bytes)) (At : Bytes → σ → Prop) : Prop :=
  ∀ text s, At text s →
    (read s).1.1 = eagain ∧ At text (read s).2 ∧ patience (read s).2 < patience s ∨
    (∃ piece rest, text = piece ++ rest ∧ piece ≠ [] ∧ (read s).1.1 = piece.length ∧
      (read s).1.2.take piece.length = piece ∧ At rest (read s).2) ∨
    (read s).1.1 = 0 ∧ text = [] ∧ At [] (read s).2

/-- What libssh2 promises of a session with a host that runs a command as `run` says: the calls do
what they are for, and `patience` bounds how often they have to be made again. -/
structure Carries (lib : Libssh2 σ) (run : Bytes → O → Exit × O)
    (At : Nat → Phase → O → σ → Prop) (patience : σ → Nat) : Prop where
  waitsocket {session p o s} (sock : Int) (h : At session p o s) :
    At session p o (lib.waitsocket sock session s).2 ∧
      patience (lib.waitsocket sock session s).2 ≤ patience s
  channel_open_session {session o s} (h : At session .ready o s) :
    ((lib.channel_open_session session s).1 = .error eagain ∧
        At session .ready o (lib.channel_open_session session s).2 ∧
        patience (lib.channel_open_session session s).2 < patience s) ∨
      ∃ channel, (lib.channel_open_session session s).1 = .ok channel ∧
        At session (.opened channel) o (lib.channel_open_session session s).2
  channel_exec (session channel command o) :
    Tries patience (lib.channel_exec channel command) (At session (.opened channel) o)
      (At session (.running channel (run command o).1 (run command o).1.out (run command o).1.err)
        (run command o).2)
  channel_read (session channel e err o) :
    Reads patience (lib.channel_read channel) fun out ↦ At session (.running channel e out err) o
  channel_read_stderr (session channel e out o) :
    Reads patience (lib.channel_read_stderr channel) fun err ↦
      At session (.running channel e out err) o
  channel_close (session channel e o) :
    Tries patience (lib.channel_close channel) (At session (.running channel e [] []) o)
      (At session (.closed channel e) o)
  channel_get_exit_status {session channel e o s} (h : At session (.closed channel e) o s) :
    (lib.channel_get_exit_status channel s).1 = e.status ∧
      At session (.closed channel e) o (lib.channel_get_exit_status channel s).2
  channel_get_exit_signal {session channel e o s} (h : At session (.closed channel e) o s) :
    (lib.channel_get_exit_signal channel s).1 = e.signal ∧
      At session (.closed channel e) o (lib.channel_get_exit_signal channel s).2
  channel_free {session channel e o s} (h : At session (.closed channel e) o s) :
    At session .ready o (lib.channel_free channel s).2

/-- The client has this session on this socket, and `P` holds outside. -/
structure Connected (sock : Int) (session : Nat) (P : σ → Prop) (c : SSHClient σ) : Prop where
  sock : c.sock = sock
  session : c.session = some session
  world : P c.world

section

variable {sock : Int} {session : Nat} {P Q : σ → Prop} {patience : σ → Nat} {wait : StateM σ Unit}

theorem total_call {α : Type} {f : StateM σ α} {Q : α → σ → Prop}
    (h : ∀ s, P s → Q (f s).1 (f s).2) :
    Total (Connected sock session P) (fun _ ↦ call f) fun a ↦ Connected sock session (Q a) :=
  .const fun c hc ↦ ⟨_, _, rfl, hc.sock, hc.session, h c.world hc.world⟩

/-- Waiting changes nothing of what `P` says. -/
def Waits (patience : σ → Nat) (wait : StateM σ Unit) (P : σ → Prop) : Prop :=
  ∀ s, P s → P (wait s).2 ∧ patience (wait s).2 ≤ patience s

/-- What `P` says of no state may be said before. -/
theorem total_of_and {α : Type} {p : Prop} {x : Nat → Act σ α} {R : α → SSHClient σ → Prop}
    (h : p → Total (Connected sock session Q) x R) :
    Total (Connected sock session fun s ↦ p ∧ Q s) x R :=
  (Total.of_and h).pre fun _ hc ↦ ⟨hc.world.1, hc.sock, hc.session, hc.world.2⟩

/-! ## The loops -/

theorem call_bind {α β : Type} (f : StateM σ α) (g : α → Act σ β) (c : SSHClient σ) :
    (call f >>= g) c = g (f c.world).1 { c with world := (f c.world).2 } :=
  rfl

theorem total_retry {f : StateM σ Int} (hwait : Waits patience wait P)
    (h : Tries patience f P Q) :
    Total (Connected sock session P) (fun n ↦ retry f (call wait) n) fun rc ↦
      Connected sock session fun s ↦ rc = 0 ∧ Q s := by
  have hwf : WellFounded fun p q : Unit × SSHClient σ ↦
      patience p.2.world < patience q.2.world := InvImage.wf _ Nat.lt_wfRel.wf
  apply Total.iterate (I := fun _ ↦ Connected sock session P) hwf _ ()
  intro _ c₀
  apply Total.const
  rintro c ⟨hc, rfl⟩
  rcases h c.world hc.world with ⟨hrc, hp, hlt⟩ | ⟨hrc, hq⟩
  · obtain ⟨hp', hle⟩ := hwait _ hp
    refine ⟨.inl (), { c with world := (wait (f c.world).2).2 }, ?_,
      ⟨hc.sock, hc.session, hp'⟩, lt_of_le_of_lt hle hlt⟩
    rw [call_bind, if_pos hrc]
    rfl
  · refine ⟨.inr 0, { c with world := (f c.world).2 }, ?_, hc.sock, hc.session, rfl, hq⟩
    rw [call_bind, hrc]
    rfl

section Streams

variable {read : StateM σ (Int × Bytes)} {At : Bytes → σ → Prop}

/-- `text` is the stream as far as it is read. -/
def Partial (At : Bytes → σ → Prop) (whole text : Bytes) (s : σ) : Prop :=
  ∃ rest, text ++ rest = whole ∧ At rest s

/-- How much there is to read, and how often it may have to be tried again. -/
def toRead (patience : σ → Nat) (whole : Bytes) (p : Bytes × SSHClient σ) : Nat ×ₗ Nat :=
  toLex (whole.length - p.1.length, patience p.2.world)

theorem wellFounded_toRead (patience : σ → Nat) (whole : Bytes) :
    WellFounded fun p q ↦ toRead patience whole p < toRead patience whole q :=
  InvImage.wf _ wellFounded_lt

theorem toRead_lt_of_length {whole text text' : Bytes} {c c' : SSHClient σ}
    (h : whole.length - text.length < whole.length - text'.length) :
    toRead patience whole (text, c) < toRead patience whole (text', c') :=
  Prod.Lex.toLex_lt_toLex.mpr (.inl h)

theorem toRead_lt_of_patience {whole text : Bytes} {c c' : SSHClient σ}
    (h : patience c.world < patience c'.world) :
    toRead patience whole (text, c) < toRead patience whole (text, c') :=
  Prod.Lex.toLex_lt_toLex.mpr (.inr ⟨rfl, h⟩)

theorem readOnce_piece {text piece : Bytes} {c : SSHClient σ} (hpos : piece ≠ [])
    (hrc : (read c.world).1.1 = piece.length)
    (htake : (read c.world).1.2.take piece.length = piece) :
    SSHChannel.readOnce read text c =
      .ok (.inl (text ++ piece), { c with world := (read c.world).2 }) := by
  have hlen : 0 < piece.length := List.length_pos_iff.mpr hpos
  show (if (read c.world).1.1 > 0 then _ else _ : Act σ _) _ = _
  rw [hrc, if_pos (by omega), Int.toNat_natCast, htake]
  rfl

theorem readOnce_end {text : Bytes} {rc : Int} {c : SSHClient σ} (hrc : (read c.world).1.1 = rc)
    (hneg : rc ≤ 0) : SSHChannel.readOnce read text c =
      .ok (.inr (rc, text), { c with world := (read c.world).2 }) := by
  show (if (read c.world).1.1 > 0 then _ else pure (Sum.inr ((read c.world).1.1, text)) : Act σ _) _ =
    _
  rw [hrc, if_neg (by omega)]
  rfl

theorem total_readBlock (h : Reads patience read At) (whole text : Bytes) (c₀ : SSHClient σ) :
    Total (fun c ↦ Connected sock session (Partial At whole text) c ∧ c = c₀)
      (fun n ↦ SSHChannel.readBlock n read text) fun r c ↦
        (r.1 = eagain ∧ Connected sock session (Partial At whole r.2) c ∧
          toRead patience whole (r.2, c) < toRead patience whole (text, c₀)) ∨
        r.1 = 0 ∧ Connected sock session (fun s ↦ r.2 = whole ∧ At [] s) c := by
  have hwf : WellFounded fun p q : Bytes × SSHClient σ ↦
      whole.length - p.1.length < whole.length - q.1.length := InvImage.wf _ Nat.lt_wfRel.wf
  -- Every round but the first one starts with less to read.
  refine Total.pre (P := fun c ↦ Connected sock session (Partial At whole text) c ∧
    (c = c₀ ∧ text = text ∨ whole.length - text.length < whole.length - text.length)) ?_
    fun c hc ↦ ⟨hc.1, .inl ⟨hc.2, rfl⟩⟩
  apply Total.iterate (I := fun text' c ↦ Connected sock session (Partial At whole text') c ∧
    (c = c₀ ∧ text' = text ∨ whole.length - text'.length < whole.length - text.length)) hwf _ text
  intro text' c₁
  apply Total.const
  rintro c ⟨⟨hc, hstart⟩, rfl⟩
  obtain ⟨rest, hwhole, hat⟩ := hc.world
  rcases h rest c.world hat with ⟨hrc, hat', hlt⟩ | ⟨piece, rest', hrest, hne, hrc, htake, hat'⟩ |
    ⟨hrc, hrest, hat'⟩
  · refine ⟨_, _, readOnce_end hrc (by decide),
      .inl ⟨rfl, ⟨hc.sock, hc.session, rest, hwhole, hat'⟩, ?_⟩⟩
    · rcases hstart with ⟨rfl, rfl⟩ | hless
      · exact toRead_lt_of_patience hlt
      · exact toRead_lt_of_length hless
  · have hpos := List.length_pos_iff.mpr hne
    have hlen : whole.length = text'.length + piece.length + rest'.length := by
      rw [← hwhole, hrest, List.length_append, List.length_append]
      omega
    have hshorter : whole.length - (text' ++ piece).length < whole.length - text'.length := by
      rw [List.length_append]
      omega
    refine ⟨_, _, readOnce_piece hne hrc htake,
      ⟨⟨hc.sock, hc.session, rest', ?_, hat'⟩, .inr ?_⟩, hshorter⟩
    · rw [← hwhole, hrest, List.append_assoc]
    · rcases hstart with ⟨-, rfl⟩ | hless
      · exact hshorter
      · omega
  · refine ⟨_, _, readOnce_end hrc (by decide), .inr ⟨rfl, hc.sock, hc.session, ?_, hat'⟩⟩
    · rw [← hwhole, hrest, List.append_nil]

/-- However the stream comes in pieces, all of it is read. -/
theorem total_readAll (hwait : ∀ text, Waits patience wait (At text))
    (h : Reads patience read At) (before text : Bytes) :
    Total (Connected sock session (At text))
      (fun n ↦ SSHChannel.readAll n (call wait) read before) fun text' ↦
        Connected sock session fun s ↦ text' = before ++ text ∧ At [] s := by
  refine Total.pre (P := Connected sock session (Partial At (before ++ text) before)) ?_
    fun c hc ↦ ⟨hc.sock, hc.session, text, rfl, hc.world⟩
  apply Total.iterate (I := fun text' ↦ Connected sock session (Partial At (before ++ text) text'))
    (wellFounded_toRead patience (before ++ text)) _ before
  intro text' c₀
  apply (total_readBlock h (before ++ text) text' c₀).bind
  intro r
  apply Total.const
  intro c hc
  rcases hc with ⟨hrc, hc, hlt⟩ | ⟨hrc, hc⟩
  · obtain ⟨rest, hwhole, hat⟩ := hc.world
    obtain ⟨hat', hle⟩ := hwait rest _ hat
    refine ⟨.inl r.2, { c with world := (wait c.world).2 }, ?_,
      ⟨hc.sock, hc.session, rest, hwhole, hat'⟩, lt_of_le_of_lt ?_ hlt⟩
    · dsimp only
      rw [if_pos hrc]
      rfl
    · exact Prod.Lex.toLex_le_toLex.mpr (.inr ⟨rfl, hle⟩)
  · refine ⟨.inr r.2, c, ?_, hc⟩
    dsimp only
    rw [if_neg (by rw [hrc]; decide)]
    rfl

end Streams

/-! ## The methods -/

section

variable {lib : Libssh2 σ} {run : Bytes → O → Exit × O} {At : Nat → Phase → O → σ → Prop} {o : O}

theorem Carries.waits (h : Carries lib run At patience) (sock : Int) (session : Nat) (p : Phase)
    (o : O) : Waits patience (lib.waitsocket sock session) (At session p o) :=
  fun _ hs ↦ h.waitsocket sock hs

theorem total_createChannel (h : Carries lib run At patience) :
    Total (Connected sock session (At session .ready o))
      (fun n ↦ SSHChannel.createChannel lib n sock session) fun r c ↦
        ∃ channel, r = some channel ∧ Connected sock session (At session (.opened channel) o) c := by
  have hwf : WellFounded fun p q : Unit × SSHClient σ ↦
      patience p.2.world < patience q.2.world := InvImage.wf _ Nat.lt_wfRel.wf
  apply Total.iterate (I := fun _ ↦ Connected sock session (At session .ready o)) hwf _ ()
  intro _ c₀
  apply Total.const
  rintro c ⟨hc, rfl⟩
  rcases h.channel_open_session hc.world with ⟨hrc, hat, hlt⟩ | ⟨channel, hrc, hat⟩
  · obtain ⟨hat', hle⟩ := h.waitsocket sock hat
    refine ⟨.inl (), { c with
      world := (lib.waitsocket sock session (lib.channel_open_session session c.world).2).2 }, ?_,
      ⟨hc.sock, hc.session, hat'⟩, lt_of_le_of_lt hle hlt⟩
    rw [call_bind, hrc]
    rfl
  · refine ⟨.inr (some channel), { c with world := (lib.channel_open_session session c.world).2 }, ?_,
      channel, rfl, hc.sock, hc.session, hat⟩
    rw [call_bind, hrc]
    rfl

theorem total_new (h : Carries lib run At patience) :
    Total (Connected sock session (At session .ready o))
      (fun n ↦ SSHChannel.new lib n sock (some session)) fun r c ↦
        r.1 = session ∧ Connected sock session (At session (.opened r.2) o) c := by
  apply (total_createChannel h).bind
  intro r
  apply Total.const
  rintro c ⟨channel, rfl, hc⟩
  exact ⟨(session, channel), c, rfl, rfl, hc⟩

theorem total_exec (h : Carries lib run At patience) (channel : Nat) (command out err : Bytes) :
    Total (Connected sock session (At session (.opened channel) o))
      (fun n ↦ SSHChannel.exec lib n sock session channel command out err) fun r ↦
        Connected sock session fun s ↦ r.1 = out ++ (run command o).1.out ∧
          r.2 = err ++ (run command o).1.err ∧
          At session (.running channel (run command o).1 [] []) (run command o).2 s := by
  have hwait (p : Phase) (o : O) := h.waits sock session p o
  apply (total_retry (hwait _ _) (h.channel_exec session channel command o)).bind
  intro rc
  apply total_of_and
  intro hrc
  simp only [hrc, ne_eq, not_true_eq_false, if_false]
  apply (total_readAll (fun _ ↦ hwait _ _) (h.channel_read session channel _ _ _) out _).bind
  intro out'
  apply total_of_and
  rintro rfl
  apply (total_readAll (fun _ ↦ hwait _ _) (h.channel_read_stderr session channel _ _ _) err _).bind
  intro err'
  apply total_of_and
  rintro rfl
  exact .pure fun c hc ↦ ⟨hc.sock, hc.session, rfl, rfl, hc.world⟩

theorem total_close (h : Carries lib run At patience) (channel : Nat) (e : Exit) :
    Total (Connected sock session (At session (.running channel e [] []) o))
      (fun n ↦ SSHChannel.close lib n sock session channel) fun ok ↦
        Connected sock session fun s ↦ ok = e.succeeded ∧ At session .ready o s := by
  apply (total_retry (h.waits sock session _ o) (h.channel_close session channel e o)).bind
  intro rc
  apply total_of_and
  intro hrc
  simp only [hrc, if_true]
  apply (total_call (Q := fun a s ↦ a = e.status ∧ At session (.closed channel e) o s)
    fun s hs ↦ h.channel_get_exit_status hs).bind
  intro exitcode
  apply total_of_and
  rintro rfl
  apply (total_call (Q := fun a s ↦ a = e.signal ∧ At session (.closed channel e) o s)
    fun s hs ↦ h.channel_get_exit_signal hs).bind
  intro exitsignal
  apply total_of_and
  rintro rfl
  apply (total_call (Q := fun _ ↦ At session .ready o) fun s hs ↦ h.channel_free hs).bind
  intro _
  exact .pure fun c hc ↦ ⟨hc.sock, hc.session, rfl, hc.world⟩

theorem total_ensureConnection (hsock : sock ≠ kSocketInit) (spec : ConnSpec) :
    Total (Connected sock session P) (fun n ↦ SSHClient.ensureConnection lib n spec) fun _ ↦
      Connected sock session P := by
  apply Total.get_bind
  intro c hc
  have hcond : ¬(c.session = none ∨ c.sock = kSocketInit) := by
    rw [hc.session, hc.sock]
    simp [hsock]
  simp only [if_neg hcond]
  exact .pure fun c' hc' ↦ hc' ▸ hc

/-- A connected client executes a command: its answer is how the process ended and what it wrote, and
the host has gone through the command once. -/
theorem total_execute (h : Carries lib run At patience) (hsock : sock ≠ kSocketInit)
    (spec : ConnSpec) (command out err : Bytes) :
    Total (Connected sock session (At session .ready o))
      (fun n ↦ SSHClient.execute lib n spec command out err) fun r ↦
        Connected sock session fun s ↦
          r = ((run command o).1.succeeded, out ++ (run command o).1.out,
            err ++ (run command o).1.err) ∧
          At session .ready (run command o).2 s := by
  apply (total_ensureConnection hsock spec).bind
  intro _
  apply Total.get_bind
  intro c hc
  refine Total.pre (P := Connected sock session (At session .ready o)) ?_ fun c' hc' ↦ hc' ▸ hc
  simp only [hc.sock, hc.session]
  apply (total_new h).bind
  rintro ⟨session', channel⟩
  apply Total.of_and
  rintro rfl
  apply (total_exec h channel command out err).bind
  rintro ⟨out', err'⟩
  apply total_of_and
  rintro rfl
  apply total_of_and
  rintro rfl
  apply (total_close h channel _).bind
  intro ok
  apply total_of_and
  rintro rfl
  exact .pure fun c hc ↦ ⟨hc.sock, hc.session, rfl, hc.world⟩

end

end

end Ssh

end Jepsen
