import Neatworks.App
import Neatworks.Workload

/-!
# The unreplicated protocol

`Client` and `Replica` of `unreplicated.rs`, with the `Transient` buffers of
`check` as their nets and upcalls. The effects of a handler are what an
observer of a run sees: a message that goes into a net, an `Invoke` that a
client accepts, a call of `app.execute`, a result handed to a workload.
-/

namespace Neatworks.Unreplicated

structure Reply where
  seq : UInt32
  result : Payload
  deriving DecidableEq, Repr

inductive Addr
  | client (index : Nat)
  | replica
  deriving DecidableEq, Repr

inductive Message
  | request (request : Request Addr)
  | reply (reply : Reply)
  deriving DecidableEq, Repr

structure MessageEvent where
  dest : Addr
  message : Message
  deriving DecidableEq, Repr

inductive Observed
  | send (message : MessageEvent)
  | invoke (clientId : UInt32) (op : Payload)
  | execute (request : Request Addr) (result : Payload)
  | deliver (clientId : UInt32) (result : Payload)
  deriving DecidableEq

abbrev Handler (α : Type) := Outcome Observed Error α

structure ClientInvoke where
  op : Payload
  resendTimer : TimerId
  deriving DecidableEq, Repr

structure Client where
  id : UInt32
  addr : Addr
  seq : UInt32 := 0
  invoke : Option ClientInvoke := none
  net : List MessageEvent := []
  upcall : List (UInt32 × Payload) := []

namespace Client

def doSend (self : Client) : Handler Client :=
  match self.invoke with
  | none => Outcome.throw (.panic .unwrap)
  | some invoke => do
    let message : MessageEvent := ⟨.replica, .request ⟨self.id, self.addr, self.seq, invoke.op⟩⟩
    Outcome.emit (.send message)
    return { self with net := self.net ++ [message] }

/-- `On<Invoke>`. -/
def onInvoke (self : Client) (op : Payload) (timer : Timer) : Handler (Client × Timer) := do
  Outcome.assert self.invoke.isNone (.bail "concurrent invocation")
  let seq ← addU32 self.seq 1
  let (resendTimer, timer) ← timer.set 1000
  Outcome.emit (.invoke self.id op)
  let self ← { self with seq := seq, invoke := some ⟨op, resendTimer⟩ }.doSend
  return (self, timer)

def onTimer (self : Client) (timerId : TimerId) : Handler Client :=
  match self.invoke with
  | none => Outcome.throw (.panic .unwrap)
  | some invoke => do
    Outcome.assert (invoke.resendTimer = timerId) (.panic .assert)
    self.doSend

/-- `On<Recv<Reply>>`. -/
def onRecv (self : Client) (reply : Reply) (timer : Timer) : Handler (Client × Timer) :=
  if reply.seq ≠ self.seq then return (self, timer)
  else
    match self.invoke with
    | none => return (self, timer)
    | some invoke => do
      let timer ← timer.unset invoke.resendTimer
      return ({ self with invoke := none, upcall := self.upcall ++ [(self.id, reply.result)] }, timer)

end Client

structure Replica (S : Type) where
  replies : UInt32 → Option Reply := fun _ => none
  app : S
  net : List MessageEvent := []

namespace Replica

section
variable {S : Type}

def send (self : Replica S) (clientAddr : Addr) (reply : Reply) : Handler (Replica S) := do
  Outcome.emit (.send ⟨clientAddr, .reply reply⟩)
  return { self with net := self.net ++ [⟨clientAddr, .reply reply⟩] }

variable [App S]

/-- `On<Recv<Request>>` past the check of `replies`. -/
def execute (self : Replica S) (request : Request Addr) : Handler (Replica S) :=
  match App.execute self.app request.op with
  | none => Outcome.throw .execute
  | some (app, result) => do
    Outcome.emit (.execute request result)
    let reply : Reply := ⟨request.seq, result⟩
    { self with app := app, replies := Function.update self.replies request.clientId (some reply) }.send
      request.clientAddr reply

def onRecv (self : Replica S) (request : Request Addr) : Handler (Replica S) :=
  match self.replies request.clientId with
  | none => self.execute request
  | some reply =>
    if request.seq < reply.seq then return self
    else if reply.seq = request.seq then self.send request.clientAddr reply
    else self.execute request

end

end Replica

end Neatworks.Unreplicated
