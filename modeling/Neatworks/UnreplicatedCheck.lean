import Mathlib.Data.Finset.Sort
import Mathlib.Data.List.Lex
import Neatworks.Runs
import Neatworks.Search
import Neatworks.Unreplicated

/-!
# The states of the model checker

`unreplicated::check`: clients with their timers and close loops, the replica,
and the messages that have been sent. `flush` takes the messages out of the
nets and lets clients and close loops handle what they have for each other.
-/

namespace Neatworks.Unreplicated

/-! ## Messages in order -/

/-- A message as a list of numbers; lexicographic order on them is the derived
`Ord` of `MessageEvent`. -/
def MessageEvent.key (event : MessageEvent) : List Nat :=
  addrKey event.dest ++ match event.message with
    | .request request =>
      0 :: request.clientId.toNat :: addrKey request.clientAddr ++ request.seq.toNat :: request.op.map UInt8.toNat
    | .reply reply => 1 :: reply.seq.toNat :: reply.result.map UInt8.toNat
where
  addrKey : Addr → List Nat
    | .client index => [0, index]
    | .replica => [1]

theorem addrKey_append_inj {a b : Addr} {l l' : List Nat}
    (h : MessageEvent.key.addrKey a ++ l = MessageEvent.key.addrKey b ++ l') : a = b ∧ l = l' := by
  cases a <;> cases b <;> simp_all [MessageEvent.key.addrKey]

theorem map_toNat_inj {l l' : List UInt8} (h : l.map UInt8.toNat = l'.map UInt8.toNat) : l = l' :=
  List.map_injective_iff.mpr (fun _ _ => UInt8.toNat_inj.mp) h

theorem MessageEvent.key_injective : Function.Injective MessageEvent.key := by
  intro a b h
  obtain ⟨dest, message⟩ := a
  obtain ⟨dest', message'⟩ := b
  obtain ⟨rfl, hmessage⟩ := addrKey_append_inj h
  clear h
  cases message with
  | request request =>
    cases message' with
    | reply reply => simp at hmessage
    | request request' =>
      obtain ⟨id, addr, seq, op⟩ := request
      obtain ⟨id', addr', seq', op'⟩ := request'
      simp only [List.cons_append, List.cons.injEq, true_and] at hmessage
      obtain ⟨rfl, hfields⟩ := addrKey_append_inj hmessage.2
      have hid := hmessage.1
      obtain ⟨hseq, hop⟩ := List.cons.inj hfields
      rw [UInt32.toNat_inj.mp hid, UInt32.toNat_inj.mp hseq, map_toNat_inj hop]
  | reply reply =>
    cases message' with
    | request request => simp at hmessage
    | reply reply' =>
      obtain ⟨seq, result⟩ := reply
      obtain ⟨seq', result'⟩ := reply'
      simp only [List.cons.injEq, true_and] at hmessage
      rw [UInt32.toNat_inj.mp hmessage.1, map_toNat_inj hmessage.2]

instance : LinearOrder MessageEvent := LinearOrder.lift' MessageEvent.key MessageEvent.key_injective

/-! ## States -/

structure ClientState (W : Type) [Workload W] where
  state : Client
  timer : Timer := {}
  closeLoop : CloseLoop W

structure State (W : Type) [Workload W] where
  clients : List (ClientState W) := []
  replica : Replica KVStore
  messageEvents : Finset MessageEvent := ∅

structure TimerEvent where
  timerId : TimerId
  clientIndex : Nat
  deriving DecidableEq, Repr

inductive Event
  | message (event : MessageEvent)
  | timer (event : TimerEvent)
  deriving DecidableEq, Repr

section
variable {W : Type} [Workload W]

namespace ClientState

/-- `for invoke in client.close_loop.sender.drain(..)`. -/
def drainSender : List Payload → ClientState W → Handler (ClientState W)
  | [], client => return client
  | op :: sender, client => do
    let (state, timer) ← client.state.onInvoke op client.timer
    drainSender sender { client with state := state, timer := timer }

/-- `for upcall in client.state.upcall.drain(..)`. -/
def drainUpcall : List (UInt32 × Payload) → ClientState W → Handler (ClientState W)
  | [], client => return client
  | (clientId, result) :: upcall, client => do
    let closeLoop ← client.closeLoop.onInvokeOk (.deliver clientId result) result
    drainUpcall upcall { client with closeLoop := closeLoop }

/-- `while replace(&mut rerun, false)`; the last round finds both buffers empty. -/
def rerun : Nat → ClientState W → Handler (ClientState W)
  | 0, client => return client
  | fuel + 1, client =>
    if client.closeLoop.sender = [] ∧ client.state.upcall = [] then return client
    else do
      let sender := client.closeLoop.sender
      let client ← drainSender sender { client with closeLoop := { client.closeLoop with sender := [] } }
      let upcall := client.state.upcall
      let client ← drainUpcall upcall { client with state := { client.state with upcall := [] } }
      rerun fuel client

/-- No handler of a client fills its upcall while invokes are drained, so the
second round drains the last invokes. -/
def rounds : Nat := 2

end ClientState

namespace State

/-- `for client in &mut self.clients` of `flush`. -/
def flushClients : List (ClientState W) → Finset MessageEvent →
    Handler (List (ClientState W) × Finset MessageEvent)
  | [], messageEvents => return ([], messageEvents)
  | client :: clients, messageEvents => do
    let messageEvents := messageEvents ∪ client.state.net.toFinset
    let client ← { client with state := { client.state with net := [] } }.rerun ClientState.rounds
    let (clients, messageEvents) ← flushClients clients messageEvents
    return (client :: clients, messageEvents)

def flush (self : State W) : Handler (State W) := do
  let messageEvents := self.messageEvents ∪ self.replica.net.toFinset
  let (clients, messageEvents) ← flushClients self.clients messageEvents
  return { clients := clients, replica := { self.replica with net := [] }, messageEvents := messageEvents }

def new : State W where
  replica := { app := KVStore.new }

def pushClient (self : State W) (workload : W) : Handler (State W) := do
  let index := self.clients.length
  let id ← addU32 (UInt32.ofNat index) 1000
  return { self with clients := self.clients ++
    [{ state := { id := id, addr := .client index }, closeLoop := { workload := workload } }] }

/-- The loop of `launch`. -/
def initClients : List (ClientState W) → Handler (List (ClientState W))
  | [] => return []
  | client :: clients => do
    let closeLoop ← client.closeLoop.onInit
    let clients ← initClients clients
    return { client with closeLoop := closeLoop } :: clients

def launch (self : State W) : Handler (State W) := do
  let clients ← initClients self.clients
  { self with clients := clients }.flush

def events (self : State W) : List Event :=
  (self.messageEvents.sort).map .message ++
    self.clients.zipIdx.flatMap fun (client, index) => client.timer.events.map fun timerId => .timer ⟨timerId, index⟩

/-- `&mut self.clients[index]`, with a handler of the client at it. -/
def onClient (self : State W) (index : Nat) (handler : Client → Timer → Handler (Client × Timer)) :
    Handler (State W) :=
  match self.clients[index]? with
  | none => Outcome.throw (.panic .index)
  | some client => do
    let (state, timer) ← handler client.state client.timer
    return { self with clients := self.clients.set index { client with state := state, timer := timer } }

def step [SerdeJson] (self : State W) : Event → Handler (State W)
  | .message ⟨.replica, .request request⟩ => do
    let replica ← self.replica.onRecv request
    { self with replica := replica }.flush
  | .message ⟨.client index, .reply reply⟩ => do
    let self ← self.onClient index fun client timer => client.onRecv reply timer
    self.flush
  | .timer ⟨timerId, index⟩ => do
    let self ← self.onClient index fun client timer => do
      let timer ← timer.stepTimer timerId
      let client ← client.onTimer timerId
      return (client, timer)
    self.flush
  | .message _ => Outcome.throw (.bail "unexpected event")

end State

end

/-! ## Runs -/

/-- A state and what has been observed on the way to it. -/
structure Run (W : Type) [Workload W] where
  state : State W
  history : List Observed := []

/-- The calls of the public functions. -/
inductive Call (W : Type)
  | pushClient (workload : W)
  | launch
  | step (event : Event)

section
variable {W : Type} [Workload W] [SerdeJson]

def State.call (self : State W) : Call W → Handler (State W)
  | .pushClient workload => self.pushClient workload
  | .launch => self.launch
  | .step event => self.step event

/-- Any sequence of successful calls on a new state. -/
def apiMachine (W : Type) [Workload W] : Machine (Run W) (Call W) where
  init run := run = { state := .new }
  next run call run' := ∃ es, run.state.call call = .ok run'.state es ∧ run'.history = run.history ++ es

omit [SerdeJson] in
def State.ofWorkloads (workloads : List W) : Handler (State W) := workloads.foldlM State.pushClient .new

/-- The steps of the model checker after the launch of these workloads. -/
def checkMachine (workloads : List W) : Machine (Run W) Event where
  init run := ∃ state, State.ofWorkloads workloads = .ok state [] ∧ state.launch = .ok run.state run.history
  next run event run' := event ∈ run.state.events ∧
    ∃ es, run.state.step event = .ok run'.state es ∧ run'.history = run.history ++ es

end

/-! ## Dry states -/

structure DryClientState (T : Type) where
  id : UInt32
  addr : Addr
  seq : UInt32
  invoke : Option ClientInvoke
  closeLoop : T

structure DryReplica where
  replies : UInt32 → Option Reply
  app : KVStore

structure DryState (T : Type) where
  clients : List (DryClientState T)
  replica : DryReplica
  messageEvents : Finset MessageEvent

/-- `W: Workload + Into<T>`. -/
class DryWorkload (W : Type) (T : outParam Type) where
  dry : W → T

instance {I : Type} : DryWorkload (Iter I) Unit where
  dry _ := ()

instance {I : Type} : DryWorkload (Check I) Unit where
  dry _ := ()

/-- `DryRecorded`. -/
structure DryRecorded (T : Type) where
  inner : T
  invocations : List (Payload × Payload)

instance {W T : Type} [DryWorkload W T] : DryWorkload (Recorded W) (DryRecorded T) where
  dry self := ⟨DryWorkload.dry self.inner, self.invocations⟩

section
variable {W T : Type} [Workload W] [DryWorkload W T]

def State.dry (self : State W) : DryState T where
  clients := self.clients.map fun client =>
    { id := client.state.id
      addr := client.state.addr
      seq := client.state.seq
      invoke := client.state.invoke
      closeLoop := DryWorkload.dry client.closeLoop.workload }
  replica := ⟨self.replica.replies, self.replica.app⟩
  messageEvents := self.messageEvents

end

end Neatworks.Unreplicated
