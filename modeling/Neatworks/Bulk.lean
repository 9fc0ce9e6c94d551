import Mathlib.Algebra.Group.Nat.Defs
import Mathlib.Logic.Function.Basic
import Neatworks.Runs

/-!
# Bulk transfer

`session` of `bulk.rs`, for any number of sessions. Its tasks are part of the
state: a cancel task is an entry of `cancelTasks`, a receive task and the send
task that serves it share a connection. A stream delivers the bytes in the order
in which they are written, and then its end.
-/

namespace Neatworks.Bulk

/-- A `CancellationToken`; its clones are the same one. -/
abbrev CancellationToken := Nat

structure Offer (A M : Type) where
  dest : A
  message : M
  buf : List UInt8
  cancel : Option CancellationToken

structure Accept (P N : Type) where
  serveInternal : P × UInt32
  expectLen : Option Nat
  intoRecvEvent : List UInt8 → N
  cancel : Option CancellationToken

structure Serve (P M : Type) where
  message : M
  addr : P
  id : UInt32

structure RecvOffer (P M : Type) where
  inner : M
  serveInternal : Option (P × UInt32)

section
variable {P A M N : Type}

/-- `accept` of `ServiceExt`; it fails when the offer has been taken. -/
def RecvOffer.accept (self : RecvOffer P M) (expectLen : Option Nat) (intoRecvEvent : List UInt8 → N)
    (cancel : Option CancellationToken) : Option (RecvOffer P M × Accept P N) :=
  self.serveInternal.map fun serveInternal =>
    ({ self with serveInternal := none }, ⟨serveInternal, expectLen, intoRecvEvent, cancel⟩)

/-! ## The event loop -/

structure Session where
  id : UInt32 := 0
  pendingAccept : UInt32 → Option (List UInt8 × Option CancellationToken) := fun _ => none
  /-- The id that each task returns, and the token that it waits for. -/
  cancelTasks : List (UInt32 × Option CancellationToken) := []

namespace Session

/-- An `Offer`, at the session with this address. -/
def onOffer (self : Session) (addr : P) (offer : Offer A M) : Option (Session × Serve P M) :=
  if self.id.toNat + 1 < 2 ^ 32 then
    let id := self.id + 1
    some ({ id := id
            pendingAccept := Function.update self.pendingAccept id (some (offer.buf, offer.cancel))
            cancelTasks := self.cancelTasks ++ [(id, offer.cancel)] }, ⟨offer.message, addr, id⟩)
  else none -- `id += 1` overflows

/-- `pending_accept.remove(&id)`. -/
def removePending (self : Session) (id : UInt32) : Session :=
  { self with pendingAccept := Function.update self.pendingAccept id none }

def onJoinNextCancel (self : Session) (index : Nat) (id : UInt32) : Session :=
  { self.removePending id with cancelTasks := self.cancelTasks.eraseIdx index }

def onRecvServe (serve : Serve P M) : RecvOffer P M := ⟨serve.message, some (serve.addr, serve.id)⟩

end Session

/-! ## Connections -/

inductive Phase
  /-- The session has not read the id. -/
  | waiting
  | writing (cancel : Option CancellationToken)
  /-- The session or the send task has dropped the stream. -/
  | ended
  | broken
  deriving DecidableEq

structure RecvTask (P N : Type) where
  receiver : P
  accept : Accept P N
  /-- What the task returns: `None`, or what `into_recv_event` makes of this buffer. -/
  result : Option (Option (List UInt8)) := none
  joined : Bool := false

structure Connection (P N : Type) where
  /-- The address that it is made to, and the id that is written first. -/
  key : P × UInt32
  phase : Phase := .waiting
  /-- The buffer of the send task, when there is one. -/
  buf : Option (List UInt8) := none
  written : Nat := 0
  /-- The task that reads, unless somebody else has connected. -/
  task : Option (RecvTask P N)

inductive SendMove
  | write (count : Nat)
  | finish
  | cancel
  /-- The connection breaks, maybe before its id has come. -/
  | fail

inductive RecvMove
  | read
  | cancel
  | fail

namespace Connection

def delivered (self : Connection P N) : List UInt8 := (self.buf.getD []).take self.written

/-- The end of the arm of a stream whose id has come. -/
def serve (self : Connection P N) : Option (List UInt8 × Option CancellationToken) → Connection P N
  | some (buf, cancel) => { self with phase := .writing cancel, buf := some buf, written := 0 }
  | none => { self with phase := .ended }

/-- The send task, which is in `write_all` until its buffer is written. -/
def send (self : Connection P N) (cancelled : List CancellationToken) : SendMove → Option (Connection P N)
  | .write count =>
    match self.phase with
    | .writing _ =>
      if self.written + count ≤ (self.buf.getD []).length then some { self with written := self.written + count } else none
    | _ => none
  | .finish =>
    match self.phase with
    | .writing _ => if self.buf = some self.delivered then some { self with phase := .ended } else none
    | _ => none
  | .cancel =>
    match self.phase with
    | .writing (some token) => if token ∈ cancelled then some { self with phase := .ended } else none
    | _ => none
  | .fail => some { self with phase := .broken }

/-- `read_exact` of this many bytes or, without a number, `read_to_end`. -/
def read (self : Connection P N) : Option Nat → Option (List UInt8)
  | some expectLen => if expectLen ≤ self.delivered.length then some (self.delivered.take expectLen) else none
  | none => if self.phase = .ended then some self.delivered else none

/-- The read ends in an error; `read_exact` does too at an early end of stream. -/
def readFails (self : Connection P N) (expectLen : Option Nat) : Bool :=
  self.phase = .broken ∨ self.phase = .ended ∧ expectLen.any (self.delivered.length < ·)

def returned (self : Connection P N) (task : RecvTask P N) (result : Option (List UInt8)) : Connection P N :=
  { self with task := some { task with result := some result } }

/-- The receive task, which reads until it returns. -/
def recv (self : Connection P N) (cancelled : List CancellationToken) (move : RecvMove) : Option (Connection P N) :=
  match self.task with
  | some task =>
    if task.result = none then
      match move with
      | .read => (self.read task.accept.expectLen).map fun buf => self.returned task (some buf)
      | .cancel => if task.accept.cancel.any (· ∈ cancelled) then some (self.returned task none) else none
      | .fail => if self.readFails task.accept.expectLen then some (self.returned task none) else none
    else none
  | none => none

/-- The call of `into_recv_event`, once it is made. -/
def call (self : Connection P N) : Option (Accept P N × List UInt8) := do
  let task ← self.task
  let buf ← task.result.join
  return (task.accept, buf)

/-- A task that has not returned reads to the end of the stream. -/
def readsToEnd (self : Connection P N) : Bool :=
  self.task.any fun task => task.result.isNone && task.accept.expectLen.isNone

end Connection

/-! ## The sessions and the connections between them -/

structure System (P A M N : Type) where
  /-- The sessions, by the addresses of their listeners. -/
  session : P → Session := fun _ => {}
  /-- What `net` has been given. -/
  sent : List (A × Serve P M) := []
  /-- What `upcall` has been given, at each session. -/
  recvOffers : P → List (RecvOffer P M) := fun _ => []
  recvEvents : P → List N := fun _ => []
  connections : List (Connection P N) := []
  cancelled : List CancellationToken := []
  /-- The buffers that have been offered, under their addresses and ids. -/
  offered : List ((P × UInt32) × List UInt8) := []

inductive Move (P A M N : Type)
  | offer (addr : P) (offer : Offer A M)
  | cancel (token : CancellationToken)
  | joinNextCancel (addr : P) (index : Nat)
  /-- A message that `net` has been given comes to some session, maybe not for the first time. -/
  | recvServe (addr : P) (index : Nat)
  | accept (addr : P) (index : Nat) (expectLen : Option Nat) (intoRecvEvent : List UInt8 → N)
    (cancel : Option CancellationToken)
  /-- Somebody else connects to a listener. -/
  | connect (addr : P) (id : UInt32)
  /-- The session that a connection is made to reads the id. -/
  | incoming (index : Nat)
  | send (index : Nat) (move : SendMove)
  | recv (index : Nat) (move : RecvMove)
  | joinNextRecv (index : Nat)

namespace System

def setConnection (self : System P A M N) (index : Nat) (connection : Connection P N) : System P A M N :=
  { self with connections := self.connections.set index connection }

def connect (self : System P A M N) (connection : Connection P N) : System P A M N :=
  { self with connections := self.connections ++ [connection] }

/-- The calls of `into_recv_event`. -/
def calls (self : System P A M N) : List (Accept P N × List UInt8) := self.connections.filterMap Connection.call

variable [DecidableEq P]

def setSession (self : System P A M N) (addr : P) (session : Session) : System P A M N :=
  { self with session := Function.update self.session addr session }

def setRecvOffers (self : System P A M N) (addr : P) (recvOffers : List (RecvOffer P M)) : System P A M N :=
  { self with recvOffers := Function.update self.recvOffers addr recvOffers }

def offer (self : System P A M N) (addr : P) (offer : Offer A M) : Option (System P A M N) :=
  ((self.session addr).onOffer addr offer).map fun (session, serve) =>
    { self.setSession addr session with
      sent := self.sent ++ [(offer.dest, serve)]
      offered := self.offered ++ [((serve.addr, serve.id), offer.buf)] }

/-- A cancel task ends when its token is cancelled, and at any time when it has none and sleeps. -/
def joinNextCancel (self : System P A M N) (addr : P) (index : Nat) : Option (System P A M N) := do
  let (id, cancel) ← (self.session addr).cancelTasks[index]?
  if cancel.all (· ∈ self.cancelled) then
    return self.setSession addr ((self.session addr).onJoinNextCancel index id)
  else none

def recvServe (self : System P A M N) (addr : P) (index : Nat) : Option (System P A M N) :=
  self.sent[index]?.map fun (_, serve) =>
    self.setRecvOffers addr (self.recvOffers addr ++ [Session.onRecvServe serve])

/-- The event spawns a task, which connects and writes the id. -/
def accept (self : System P A M N) (addr : P) (index : Nat) (expectLen : Option Nat)
    (intoRecvEvent : List UInt8 → N) (cancel : Option CancellationToken) : Option (System P A M N) := do
  let recvOffer ← (self.recvOffers addr)[index]?
  let (recvOffer, accept) ← recvOffer.accept expectLen intoRecvEvent cancel
  return (self.setRecvOffers addr ((self.recvOffers addr).set index recvOffer)).connect
    { key := accept.serveInternal, task := some { receiver := addr, accept := accept } }

def incoming (self : System P A M N) (index : Nat) : Option (System P A M N) := do
  let connection ← self.connections[index]?
  let (addr, id) := connection.key
  let session := self.session addr
  if connection.phase = .waiting then
    return (self.setSession addr (session.removePending id)).setConnection index
      (connection.serve (session.pendingAccept id))
  else none

def joinNextRecv (self : System P A M N) (index : Nat) : Option (System P A M N) := do
  let connection ← self.connections[index]?
  let task ← connection.task
  let result ← task.result
  if task.joined then none else
    let events := (result.map task.accept.intoRecvEvent).toList
    return { self.setConnection index { connection with task := some { task with joined := true } } with
      recvEvents := Function.update self.recvEvents task.receiver (self.recvEvents task.receiver ++ events) }

def step (self : System P A M N) : Move P A M N → Option (System P A M N)
  | .offer addr offer => self.offer addr offer
  | .cancel token => some { self with cancelled := token :: self.cancelled }
  | .joinNextCancel addr index => self.joinNextCancel addr index
  | .recvServe addr index => self.recvServe addr index
  | .accept addr index expectLen intoRecvEvent cancel => self.accept addr index expectLen intoRecvEvent cancel
  | .connect addr id => some (self.connect { key := (addr, id), task := none })
  | .incoming index => self.incoming index
  | .send index move => do
    let connection ← self.connections[index]?
    return self.setConnection index (← connection.send self.cancelled move)
  | .recv index move => do
    let connection ← self.connections[index]?
    return self.setConnection index (← connection.recv self.cancelled move)
  | .joinNextRecv index => self.joinNextRecv index

end System

def bulkMachine (P A M N : Type) [DecidableEq P] : Machine (System P A M N) (Move P A M N) where
  init s := s = {}
  next s move s' := s.step move = some s'

end

end Neatworks.Bulk
