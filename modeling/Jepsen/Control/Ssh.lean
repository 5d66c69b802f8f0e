import Jepsen.Library.Triple
import Jepsen.Utils.Base64

/-!
# The SSH client

`SSHChannel`, `SSHClient` and `SSHRemote`.  libssh2 and the socket calls are a parameter that acts on
everything outside the process.  Sessions, channels and sockets are numbers.  A loop that the source
goes round until a call stops answering `LIBSSH2_ERROR_EAGAIN` is cut off after `fuel` rounds.
-/

namespace Jepsen

open Library Library.Eval

namespace Ssh

/-- `LIBSSH2_ERROR_EAGAIN` -/
def eagain : Int := -37

def kSocketInit : Int := -1

/-- How the process ends, or that it goes on waiting. -/
inductive Stop where
  | exit (code : Int)
  /-- libssh2 gets a null session, and reads its last error. -/
  | nullSession
  | waiting
  | thrown (e : Failure)

structure Libssh2 (σ : Type) where
  socket : StateM σ Int
  connect (sock : Int) (host : Bytes) (port : Nat) : StateM σ Int
  closeSocket (sock : Int) : StateM σ Unit
  waitsocket (sock : Int) (session : Nat) : StateM σ Unit
  session_init : StateM σ (Option Nat)
  session_handshake (session : Nat) (sock : Int) : StateM σ Int
  knownhost_init (session : Nat) : StateM σ Bool
  session_hostkey (session : Nat) : StateM σ Bool
  userauth_password (session : Nat) (username password : Bytes) : StateM σ Int
  userauth_publickey_fromfile (session : Nat) (username password : Bytes) : StateM σ Int
  session_free (session : Nat) : StateM σ Unit
  /-- A channel, or the last error of the session. -/
  channel_open_session (session : Nat) : StateM σ (Except Int Nat)
  channel_exec (channel : Nat) (command : Bytes) : StateM σ Int
  /-- The answer, and the buffer after the call. -/
  channel_read (channel : Nat) : StateM σ (Int × Bytes)
  channel_read_stderr (channel : Nat) : StateM σ (Int × Bytes)
  channel_close (channel : Nat) : StateM σ Int
  channel_get_exit_status (channel : Nat) : StateM σ Int
  channel_get_exit_signal (channel : Nat) : StateM σ (Option Bytes)
  channel_free (channel : Nat) : StateM σ Unit

structure ConnSpec where
  host : Bytes
  port : Nat
  username : Bytes
  password : Bytes

/-- The fields of an `SSHClient` that change, with the world outside. -/
structure SSHClient (σ : Type) where
  sock : Int := kSocketInit
  session : Option Nat := none
  world : σ

abbrev Act (σ : Type) := Eval (SSHClient σ) Stop

variable {σ : Type}

def call {α : Type} (f : StateM σ α) : Act σ α :=
  fun c ↦ .ok ((f c.world).1, { c with world := (f c.world).2 })

def setSock (sock : Int) : Act σ Unit := fun c ↦ .ok ((), { c with sock := sock })

def setSession (session : Option Nat) : Act σ Unit :=
  fun c ↦ .ok ((), { c with session := session })

/-- `while ((rc = call) == LIBSSH2_ERROR_EAGAIN) wait;` -/
def retry (f : StateM σ Int) (wait : Act σ Unit) (fuel : Nat) : Act σ Int :=
  iterate .waiting (fun _ ↦ do
    let rc ← call f
    if rc = eagain then
      wait
      return .inl ()
    else
      return .inr rc) fuel ()

variable (lib : Libssh2 σ) (fuel : Nat)

/-! ## A channel -/

namespace SSHChannel

/-- The channel, or a null pointer. -/
def createChannel (sock : Int) (session : Nat) : Act σ (Option Nat) :=
  iterate .waiting (fun _ ↦ do
    match ← call (lib.channel_open_session session) with
    | .ok channel => return .inr (some channel)
    | .error e =>
      if e = eagain then
        call (lib.waitsocket sock session)
        return .inl ()
      else
        return .inr none) fuel ()

/-- The constructor. -/
def new (sock : Int) : Option Nat → Act σ (Nat × Nat)
  | none => throw .nullSession
  | some session => do
    match ← createChannel lib fuel sock session with
    | none => throw (.exit (-1))
    | some channel => return (session, channel)

/-- The body of `do { .. } while (rc > 0)`. -/
def readOnce (read : StateM σ (Int × Bytes)) (text : Bytes) : Act σ (Bytes ⊕ Int × Bytes) := do
  let (rc, buffer) ← call read
  if rc > 0 then
    return .inl (text ++ buffer.take rc.toNat)
  else
    return .inr (rc, text)

/-- Reads until nothing comes. -/
def readBlock (read : StateM σ (Int × Bytes)) (text : Bytes) : Act σ (Int × Bytes) :=
  iterate .waiting (readOnce read) fuel text

/-- `for (;;)`: reads until something else than waiting comes up. -/
def readAll (wait : Act σ Unit) (read : StateM σ (Int × Bytes)) (text : Bytes) : Act σ Bytes :=
  iterate .waiting (fun text ↦ do
    let (rc, text) ← readBlock fuel read text
    if rc = eagain then
      wait
      return .inl text
    else
      return .inr text) fuel text

def exec (sock : Int) (session channel : Nat) (command channel_stdout channel_stderr : Bytes) :
    Act σ (Bytes × Bytes) := do
  let wait := call (lib.waitsocket sock session)
  let rc ← retry (lib.channel_exec channel command) wait fuel
  if rc ≠ 0 then
    throw (.exit 1)
  else
    let channel_stdout ← readAll fuel wait (lib.channel_read channel) channel_stdout
    let channel_stderr ← readAll fuel wait (lib.channel_read_stderr channel) channel_stderr
    return (channel_stdout, channel_stderr)

/-- A channel that cannot be closed keeps the signal that `exitsignal` starts with. -/
def close (sock : Int) (session channel : Nat) : Act σ Bool := do
  let rc ← retry (lib.channel_close channel) (call (lib.waitsocket sock session)) fuel
  if rc = 0 then
    let exitcode ← call (lib.channel_get_exit_status channel)
    let exitsignal ← call (lib.channel_get_exit_signal channel)
    call (lib.channel_free channel)
    return exitsignal = none ∧ exitcode = 0
  else
    call (lib.channel_free channel)
    return false

end SSHChannel

/-! ## The client -/

namespace SSHClient

variable (spec : ConnSpec)

def disConnect : Act σ Bool := do
  let c ← get
  match c.session with
  | some session =>
    call (lib.session_free session)
    setSession none
  | none => pure ()
  if c.sock ≠ kSocketInit then
    call (lib.closeSocket c.sock)
    setSock kSocketInit
    return true
  else
    return true

/-- By password where there is one, and else by the key in a fixed file. -/
def authenticate (session : Nat) : StateM σ Int :=
  if spec.password.length ≠ 0 then lib.userauth_password session spec.username spec.password
  else lib.userauth_publickey_fromfile session spec.username spec.password

/-- From the handshake on.  The lists of known hosts are consulted, but nothing depends on what is
found there. -/
def login (session : Nat) (sock : Int) : Act σ Bool := do
  let rc ← retry (lib.session_handshake session sock) (pure ()) fuel
  if rc ≠ 0 then
    return false
  else if !(← call (lib.knownhost_init session)) then
    return false
  else if !(← call (lib.session_hostkey session)) then
    return false
  else
    let rc ← retry (authenticate lib spec session) (pure ()) fuel
    if rc ≠ 0 then
      let _ ← disConnect lib
      return false
    else
      return true

def connectTo : Act σ Bool := do
  let sock ← call lib.socket
  setSock sock
  if (← call (lib.connect sock spec.host spec.port)) ≠ 0 then
    return false
  else
    let session ← call lib.session_init
    setSession session
    match session with
    | none => return false
    | some session => login lib fuel spec session sock

/-- Says in the log whether it connected. -/
def getConnection : Act σ Unit := do
  let _ ← connectTo lib fuel spec
  return ()

/-- What `execute` does first. -/
def ensureConnection : Act σ Unit := do
  let c ← get
  if c.session = none ∨ c.sock = kSocketInit then
    getConnection lib fuel spec
  else
    return ()

def execute (command channel_stdout channel_stderr : Bytes) : Act σ (Bool × Bytes × Bytes) := do
  ensureConnection lib fuel spec
  let c ← get
  let (session, channel) ← SSHChannel.new lib fuel c.sock c.session
  let (out, err) ←
    SSHChannel.exec lib fuel c.sock session channel command channel_stdout channel_stderr
  let ok ← SSHChannel.close lib fuel c.sock session channel
  return (ok, out, err)

end SSHClient

/-! ## The remote -/

namespace SSHRemote

variable (spec : ConnSpec)

/-- With an empty `out` and `err`.  The context is of no use. -/
def execute (cmd : Bytes) : Act σ (Bool × Bytes × Bytes) :=
  SSHClient.execute lib fuel spec cmd [] []

/-- "echo $pwd | sudo bash -c "cmd"" -/
def sudoLine (password cmd : Bytes) : Bytes :=
  ascii "echo " ++ password ++ ascii " | sudo bash -c \"" ++ cmd ++ ascii "\""

def sudoExecute (cmd : Bytes) : Act σ (Bool × Bytes × Bytes) :=
  execute lib fuel spec (sudoLine spec.password cmd)

end SSHRemote

end Ssh

end Jepsen
