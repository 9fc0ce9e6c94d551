import Neatworks.Handler
import Neatworks.Kademlia
import Neatworks.LruCache
import Neatworks.Runs

/-!
# The control of a peer net

`Control` of `net/kademlia.rs`: it finds the addresses of unicasts and
multicasts with queries to a Kademlia peer. The calls on `inner_net`, `peer`
and the timer are effects, and they succeed. No `HashMap` is iterated over, so
each is a function to `Option`.
-/

namespace Neatworks

open Kademlia (PeerId Target PeerRecord Query QueryStatus QueryResult)

namespace Control

/-- The timer of a session; its ids are numbers that go up. -/
structure SessionTimer where
  id : UInt32 := 0

structure QueryingUnicast (M : Type) where
  messages : List M
  timer : TimerId

structure QueryMulticast (M : Type) where
  count : ℕ+
  messages : List (ℕ+ × M)
  timer : TimerId

inductive Effect (M A : Type)
  | send (addr : A) (message : M)
  | sendToEach (addrs : List A) (message : M)
  | query (query : Query)
  | setTimer (timerId : TimerId) (timeout : Query)
  | unsetTimer (timerId : TimerId)

inductive Fail
  | queryTimeout (query : Query)
  | panic (panic : Panic)
  deriving DecidableEq

abbrev Handler (M A α : Type) := Outcome (Effect M A) Fail α

end Control

structure Control (M A : Type) where
  queryingUnicasts : PeerId → Option (Control.QueryingUnicast M) := fun _ => none
  queryingMulticasts : PeerId → Option (Control.QueryMulticast M) := fun _ => none
  pendingMulticasts : PeerId → Option (List (ℕ+ × M)) := fun _ => none
  addrs : LruCache PeerId A 160 := .new
  /-- The timer that is passed to the handlers. -/
  timer : Control.SessionTimer := {}

namespace Control

section
variable {M A K : Type}

/-! Inserting into and removing from the maps. -/

def setUnicast (self : Control M A) (peerId : PeerId) (querying : Option (QueryingUnicast M)) : Control M A :=
  { self with queryingUnicasts := Function.update self.queryingUnicasts peerId querying }

def setMulticast (self : Control M A) (target : Target) (querying : Option (QueryMulticast M)) : Control M A :=
  { self with queryingMulticasts := Function.update self.queryingMulticasts target querying }

def setPending (self : Control M A) (target : Target) (pending : Option (List (ℕ+ × M))) : Control M A :=
  { self with pendingMulticasts := Function.update self.pendingMulticasts target pending }

section
variable (self : Control M A) (target : Target)

@[simp] theorem setUnicast_unicasts (querying : Option (QueryingUnicast M)) :
    (self.setUnicast target querying).queryingUnicasts = Function.update self.queryingUnicasts target querying := rfl

@[simp] theorem setUnicast_multicasts (querying : Option (QueryingUnicast M)) :
    (self.setUnicast target querying).queryingMulticasts = self.queryingMulticasts := rfl

@[simp] theorem setUnicast_pending (querying : Option (QueryingUnicast M)) :
    (self.setUnicast target querying).pendingMulticasts = self.pendingMulticasts := rfl

@[simp] theorem setUnicast_addrs (querying : Option (QueryingUnicast M)) :
    (self.setUnicast target querying).addrs = self.addrs := rfl

@[simp] theorem setMulticast_unicasts (querying : Option (QueryMulticast M)) :
    (self.setMulticast target querying).queryingUnicasts = self.queryingUnicasts := rfl

@[simp] theorem setMulticast_multicasts (querying : Option (QueryMulticast M)) :
    (self.setMulticast target querying).queryingMulticasts =
      Function.update self.queryingMulticasts target querying := rfl

@[simp] theorem setMulticast_pending (querying : Option (QueryMulticast M)) :
    (self.setMulticast target querying).pendingMulticasts = self.pendingMulticasts := rfl

@[simp] theorem setMulticast_addrs (querying : Option (QueryMulticast M)) :
    (self.setMulticast target querying).addrs = self.addrs := rfl

@[simp] theorem setPending_unicasts (pending : Option (List (ℕ+ × M))) :
    (self.setPending target pending).queryingUnicasts = self.queryingUnicasts := rfl

@[simp] theorem setPending_multicasts (pending : Option (List (ℕ+ × M))) :
    (self.setPending target pending).queryingMulticasts = self.queryingMulticasts := rfl

@[simp] theorem setPending_pending (pending : Option (List (ℕ+ × M))) :
    (self.setPending target pending).pendingMulticasts =
      Function.update self.pendingMulticasts target pending := rfl

@[simp] theorem setPending_addrs (pending : Option (List (ℕ+ × M))) :
    (self.setPending target pending).addrs = self.addrs := rfl

end

/-- `timer.set(QUERY_TIMEOUT, QueryTimeout(query))`. -/
def setTimer (self : Control M A) (query : Query) : Handler M A (TimerId × Control M A) := do
  let timerId : TimerId := ⟨self.timer.id + 1⟩
  Outcome.emit (.setTimer timerId query)
  return (timerId, { self with timer := ⟨self.timer.id + 1⟩ })

def unsetTimer (timerId : TimerId) : Handler M A Unit := Outcome.emit (.unsetTimer timerId)

/-- `OnEvent<(PeerId, M)>`. -/
def onUnicast (self : Control M A) (peerId : PeerId) (message : M) : Handler M A (Control M A) :=
  match self.addrs.get peerId with
  | some (addr, addrs) => do
    Outcome.emit (.send addr message)
    return { self with addrs := addrs }
  | none =>
    match self.queryingMulticasts peerId with
    | some querying =>
      return self.setMulticast peerId (some { querying with messages := querying.messages ++ [(1, message)] })
    | none =>
      match self.queryingUnicasts peerId with
      | some querying =>
        return self.setUnicast peerId (some { querying with messages := querying.messages ++ [message] })
      | none => do
        let query : Query := ⟨peerId, 1⟩
        Outcome.emit (.query query)
        let (timerId, self) ← self.setTimer query
        return self.setUnicast peerId (some ⟨[message], timerId⟩)

/-- `self.pending_multicasts.entry(target).or_default().push((count, message))`. -/
def pushPending (self : Control M A) (target : Target) (count : ℕ+) (message : M) : Control M A :=
  self.setPending target (some ((self.pendingMulticasts target).getD [] ++ [(count, message)]))

/-- The end of a multicast and of the handler of a result: a query for `messages`. -/
def startMulticast (self : Control M A) (target : Target) (count : ℕ+) (messages : List (ℕ+ × M)) :
    Handler M A (Control M A) := do
  let query : Query := ⟨target, count⟩
  Outcome.emit (.query query)
  let (timerId, self) ← self.setTimer query
  return self.setMulticast target (some ⟨count, messages, timerId⟩)

/-- `OnEvent<(Multicast<Target>, M)>`. -/
def onMulticast (self : Control M A) (target : Target) (count : ℕ+) (message : M) : Handler M A (Control M A) :=
  match self.queryingMulticasts target with
  | some querying =>
    if count ≤ querying.count then
      return self.setMulticast target (some { querying with messages := querying.messages ++ [(count, message)] })
    else return self.pushPending target count message
  | none =>
    if (self.queryingUnicasts target).isSome then return self.pushPending target count message
    else self.startMulticast target count [(count, message)]

/-- `OnEvent<QueryTimeout>`. -/
def onTimeout (query : Query) : Handler M A (Control M A) := Outcome.throw (.queryTimeout query)

/-- `for message in querying.messages` of a unicast. -/
def sendMessages (addr : A) : List M → Handler M A Unit
  | [] => return ()
  | message :: messages => do
    Outcome.emit (.send addr message)
    sendMessages addr messages

/-- The first loop of the handler of a result. -/
def resolve (self : Control M A) : List (PeerRecord K A) → Handler M A (Control M A)
  | [] => return self
  | record :: closest =>
    match self.queryingUnicasts record.id with
    | none => resolve self closest
    | some querying => do
      let self := { self.setUnicast record.id none with addrs := self.addrs.push record.id record.addr }
      unsetTimer querying.timer
      sendMessages record.addr querying.messages
      resolve self closest

def pushAddrs (self : Control M A) : List (PeerRecord K A) → Control M A
  | [] => self
  | record :: closest => pushAddrs { self with addrs := self.addrs.push record.id record.addr } closest

/-- `for (count, message) in querying.messages` of a multicast. -/
def sendMulticasts (closest : List (PeerRecord K A)) : List (ℕ+ × M) → Handler M A Unit
  | [] => return ()
  | (count, message) :: messages => do
    Outcome.emit (.sendToEach ((closest.take count).map (·.addr)) message)
    sendMulticasts closest messages

def finishMulticast (self : Control M A) (target : Target) (closest : List (PeerRecord K A)) :
    Handler M A (Control M A) :=
  match self.queryingMulticasts target with
  | none => return self
  | some querying => do
    let self := (self.setMulticast target none).pushAddrs closest
    unsetTimer querying.timer
    sendMulticasts closest querying.messages
    return self

def startPending (self : Control M A) (target : Target) : Handler M A (Control M A) :=
  match self.pendingMulticasts target with
  | none => return self
  | some multicasts => do
    let self := self.setPending target none
    Outcome.assert (self.queryingUnicasts target).isNone (.panic .assert)
    Outcome.assert (self.queryingMulticasts target).isNone (.panic .assert)
    match (multicasts.map Prod.fst).max? with
    | none => Outcome.throw (.panic .unwrap)
    | some count => self.startMulticast target count multicasts

/-- `OnEvent<QueryResult<A>>`. -/
def onResult (self : Control M A) (upcall : QueryResult K A) : Handler M A (Control M A) := do
  let self ← self.resolve upcall.closest
  if upcall.status = .progress then return self
  else
    match self.queryingUnicasts upcall.target with
    | some querying =>
      let self := self.setUnicast upcall.target none
      unsetTimer querying.timer
      Outcome.assert (¬ self.addrs.contains upcall.target) (.panic .assert)
      return self
    | none => do
      let self ← self.finishMulticast upcall.target upcall.closest
      self.startPending upcall.target

end

end Control

end Neatworks
