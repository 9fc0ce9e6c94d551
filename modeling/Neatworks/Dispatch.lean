import Mathlib.Data.List.Basic
import Neatworks.Framing
import Neatworks.Runs

/-!
# Dispatchers over TCP

`Dispatch` of `net/session.rs` at every address of a network, with the
connections of `Tcp` between them. A direction of a connection is a link: the
channel of its `write_task` and the stream to its `read_task`, buffer by buffer;
that the bytes of a buffer arrive whole is the matter of `Framing`. The events
of a dispatcher come one at a time, and the tasks run in between in any order.
-/

namespace Neatworks.Net

/-! ## A dispatcher -/

/-- `Connection`; the sender is the number of a link. -/
structure Connection where
  sender : Nat
  isUsing : Bool
  deriving DecidableEq, Repr

structure Dispatch (A : Type) where
  connections : A → Option Connection

/-- Where a buffer went. -/
inductive Route
  | existing (sender : Nat)
  | opened
  | failed
  deriving DecidableEq, Repr

namespace Dispatch

section
variable {A : Type} [DecidableEq A]

def new : Dispatch A := ⟨fun _ => none⟩

def insert (self : Dispatch A) (remote : A) (connection : Connection) : Dispatch A :=
  ⟨Function.update self.connections remote (some connection)⟩

def remove (self : Dispatch A) (remote : A) : Dispatch A := ⟨Function.update self.connections remote none⟩

theorem insert_connections (self : Dispatch A) (remote r : A) (connection : Connection) :
    (self.insert remote connection).connections r = if r = remote then some connection else self.connections r :=
  Function.update_apply ..

theorem remove_connections (self : Dispatch A) (remote r : A) :
    (self.remove remote).connections r = if r = remote then none else self.connections r :=
  Function.update_apply ..

/-- A new channel, `sender`. It may have failed before the buffer is in it. -/
def connect (self : Dispatch A) (sender : Nat) (failed : Bool) (remote : A) : Dispatch A × Route :=
  if failed then (self.remove remote, .failed) else (self.insert remote ⟨sender, true⟩, .opened)

/-- `OnEvent<Outgoing>`. -/
def onOutgoing (self : Dispatch A) (isOpen : Nat → Bool) (sender : Nat) (failed : Bool) (remote : A) : Dispatch A × Route :=
  match self.connections remote with
  | none => self.connect sender failed remote
  | some connection =>
    if isOpen connection.sender then
      (self.insert remote { connection with isUsing := true }, .existing connection.sender)
    else self.connect sender failed remote

/-- `OnEvent<Incoming>`, with what `accept` returns. -/
def onIncoming (self : Dispatch A) (sender : Nat) : Option A → Dispatch A
  | none => self
  | some remote =>
    match self.connections remote with
    | none => self.insert remote ⟨sender, true⟩
    | some _ => self

/-- `retain`. -/
def onTimer (self : Dispatch A) (isOpen : Nat → Bool) : Dispatch A :=
  ⟨fun remote => (self.connections remote).bind fun connection =>
    if connection.isUsing && isOpen connection.sender then some { connection with isUsing := false } else none⟩

end

end Dispatch

/-! ## The tasks of a connection -/

/-- Whether `read_task` is to come, runs or has ended. There is a stream from
`connected` on. -/
inductive Phase
  | connecting
  | connected
  | reading
  | ended
  deriving DecidableEq, Repr

/-- `source` knows the other side as `remote`; what it writes is read at `dest`. -/
structure Link (A : Type) where
  source : A
  dest : A
  remote : A
  queue : List Bytes := []
  isOpen : Bool := true
  stream : List Bytes := []
  phase : Phase

inductive Task
  | connect (ok : Bool)
  | write (ok : Bool)
  | read
  | hangUp
  deriving DecidableEq, Repr

/-- The next step of a task, and the buffer that it hands to `on_buf`. A
channel whose receiver is gone keeps nothing. -/
def Link.run {A : Type} (self : Link A) : Task → Option (Link A × Option Bytes)
  | .connect ok =>
    if self.phase = .connecting then
      if ok then some ({ self with phase := .connected }, none)
      else some ({ self with queue := [], isOpen := false, phase := .ended }, none)
    else none
  | .write ok =>
    match self.queue with
    | [] => none
    | buf :: queue =>
      if self.isOpen ∧ self.phase ≠ .connecting then
        if ok then some ({ self with queue := queue, stream := self.stream ++ [buf] }, none)
        else some ({ self with queue := [], isOpen := false }, none)
      else none
  | .read =>
    match self.stream with
    | [] => none
    | buf :: stream =>
      if self.phase = .reading then
        if buf.length ≤ maxBufLen then some ({ self with stream := stream }, some buf)
        else some ({ self with phase := .ended }, none)
      else none
  | .hangUp => if self.phase = .reading then some ({ self with phase := .ended }, none) else none

/-! ## The network -/

/-- What a dispatcher is asked to send with where it went, what is handed to
`on_buf`, and the timers. -/
inductive Observed (A : Type)
  | outgoing (source remote : A) (buf : Bytes) (route : Option Nat)
  | onBuf (source dest : A) (sender : Nat) (buf : Bytes)
  | onTimer (addr : A)

structure Network (A : Type) where
  dispatches : A → Dispatch A := fun _ => .new
  links : List (Link A) := []
  history : List (Observed A) := []

inductive Turn (A : Type)
  | outgoing (source remote : A) (buf : Bytes) (failed : Bool)
  | incoming (sender : Nat) (ok : Bool)
  | task (sender : Nat) (task : Task)
  | onTimer (addr : A)
  deriving DecidableEq, Repr

section
variable {A : Type} [DecidableEq A]

namespace Network

def isOpen (self : Network A) (sender : Nat) : Bool := self.links[sender]?.any (·.isOpen)

def setLink (self : Network A) (sender : Nat) (link : Link A) : Network A :=
  { self with links := self.links.set sender link }

def observe (self : Network A) (observed : Observed A) : Network A :=
  { self with history := self.history ++ [observed] }

/-- A buffer for `remote`, as the dispatcher has routed it. -/
def outgoing (self : Network A) (source remote : A) (buf : Bytes) : Route → Network A
  | .existing sender =>
    { self with
      links := self.links.modify sender fun link => { link with queue := link.queue ++ [buf] }
      history := self.history ++ [.outgoing source remote buf (some sender)] }
  | .opened =>
    { self with
      links := self.links ++ [{ source := source, dest := remote, remote := remote, queue := [buf], phase := .connecting }]
      history := self.history ++ [.outgoing source remote buf (some self.links.length)] }
  | .failed => self.observe (.outgoing source remote buf none)

variable (preamble : A → Option A)

/-- The other side accepts a connection: it reads what is sent on the link, and
writes to a link of its own if the preamble tells it where to. -/
def incoming (self : Network A) (sender : Nat) (link : Link A) : Network A where
  dispatches := Function.update self.dispatches link.dest
    ((self.dispatches link.dest).onIncoming self.links.length (preamble link.source))
  links := self.links.set sender { link with phase := .reading } ++ ((preamble link.source).map fun remote =>
    { source := link.dest, dest := link.source, remote := remote, phase := .reading }).toList
  history := self.history

def step (self : Network A) : Turn A → Option (Network A)
  | .outgoing source remote buf failed =>
    let sent := (self.dispatches source).onOutgoing self.isOpen self.links.length failed remote
    some { self.outgoing source remote buf sent.2 with dispatches := Function.update self.dispatches source sent.1 }
  | .incoming sender ok =>
    match self.links[sender]? with
    | none => none
    | some link =>
      if link.phase = .connected then
        if ok then some (self.incoming preamble sender link) else some (self.setLink sender { link with phase := .ended })
      else none
  | .task sender task =>
    match self.links[sender]? with
    | none => none
    | some link =>
      match link.run task with
      | none => none
      | some (link', none) => some (self.setLink sender link')
      | some (link', some buf) => some ((self.setLink sender link').observe (.onBuf link.source link.dest sender buf))
  | .onTimer addr =>
    some { self with
      dispatches := Function.update self.dispatches addr ((self.dispatches addr).onTimer self.isOpen)
      history := self.history ++ [.onTimer addr] }

end Network

/-- Any turns on a network in which nothing has been sent. -/
def network (preamble : A → Option A) : Machine (Network A) (Turn A) where
  init net := net = {}
  next net turn net' := net.step preamble turn = some net'

end

end Neatworks.Net
