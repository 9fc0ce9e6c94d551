import Neatworks.Kademlia
import Neatworks.PeerCrypto
import Neatworks.Table

/-!
# The Kademlia peer

`Peer` of `kademlia.rs` and its handlers. The calls on the net, the timer, the
upcall and the crypto worker are effects, and they succeed; three more effects
tell an observer when a query starts, what its verdict is, and which targets
are refreshed. The order in which a `HashSet` is iterated and the random bytes
are given by a `Chance`.
-/

namespace Neatworks.Kademlia

structure QueryState (K A σ : Type) where
  findPeer : Verifiable (FindPeer K A) σ
  records : List (PeerRecord K A)
  contacting : Table PeerId TimerId
  contacted : Finset PeerId

/-- `timer` is the number of the last timer that has been set. -/
structure Peer (K A σ : Type) where
  record : PeerRecord K A
  buckets : Buckets K A
  queryStates : Table Target (QueryState K A σ)
  refreshTargets : Finset Target
  onBootstrap : Bool
  findPeerOkSeq : UInt32
  findPeerOkDests : UInt32 → Option A
  timer : UInt32

/-- The work submitted to the crypto worker. -/
inductive Job (K A σ : Type)
  | signFindPeer (findPeer : FindPeer K A)
  | verifyFindPeer (findPeer : Verifiable (FindPeer K A) σ)
  | signFindPeerOk (findPeerOk : FindPeerOk K A)
  | verifyFindPeerOk (findPeerOk : Verifiable (FindPeerOk K A) σ)

/-- What the crypto worker sends back. -/
inductive Event (K A σ : Type)
  | signedFindPeer (findPeer : Verifiable (FindPeer K A) σ)
  | verifiedFindPeer (findPeer : Verifiable (FindPeer K A) σ)
  | signedFindPeerOk (findPeerOk : Verifiable (FindPeerOk K A) σ)
  | verifiedFindPeerOk (findPeerOk : Verifiable (FindPeerOk K A) σ)

inductive Effect (K A σ : Type)
  | submit (job : Job K A σ)
  | sendFindPeer (addrs : List A) (findPeer : Verifiable (FindPeer K A) σ)
  | sendFindPeerOk (dest : A) (findPeerOk : Verifiable (FindPeerOk K A) σ)
  | upcall (result : QueryResult K A)
  | setTimer (timerId : TimerId) (target : Target) (record : PeerRecord K A)
  | unsetTimer (timerId : TimerId)
  | onBootstrap
  /-- `bootstrap` has accepted. -/
  | bootstrap
  /-- A query is in `query_states`. -/
  | start (target : Target)
  /-- A query in this state has this status. -/
  | verdict (target : Target) (status : QueryStatus) (state : QueryState K A σ) (closest : List (PeerRecord K A))
  /-- The targets that `refresh_buckets` has chosen. -/
  | refresh (targets : Finset Target)

abbrev Handler (K A σ α : Type) := Outcome (Effect K A σ) (Fail K A) α

structure Chance where
  bytes : Nat → Digest
  first : Finset Target → Option Target
  first_mem : ∀ targets target, first targets = some target → target ∈ targets
  first_none : ∀ targets, first targets = none → targets = ∅

/-- The last byte that is not zero comes from `gen_range(lower..upper)`. -/
def randDistance (index : Nat) (bytes : Digest) : U256 :=
  let quot := index / 8
  let rem := index % 8
  let lower := 2 ^ rem
  let byte := lower + (bytes.toList.getD quot 0).toNat % lower
  BitVec.ofNat 256 (leNat (bytes.toList.take quot ++ UInt8.ofNat byte :: List.replicate (31 - quot) 0))

namespace Peer

section
variable {K A σ : Type}

def new (buckets : Buckets K A) : Peer K A σ where
  record := buckets.origin
  buckets := buckets
  queryStates := .empty
  refreshTargets := ∅
  onBootstrap := false
  findPeerOkSeq := 0
  findPeerOkDests := fun _ => none
  timer := 0

def startQuery (self : Peer K A σ) (target : Target) (count : ℕ+) : Handler K A σ (Peer K A σ) := do
  Outcome.emit (.submit (.signFindPeer ⟨target, count, self.record⟩))
  return self

def bootstrap (self : Peer K A σ) : Handler K A σ (Peer K A σ) := do
  Outcome.assert (self.queryStates.entries = []) (.bail "start bootsrap while query in progress")
  Outcome.assert (self.refreshTargets = ∅) (.bail "start bootsrap while refresh in progress")
  Outcome.assert (self.onBootstrap = false) (.bail "start bootstrap while another bootstrap in progress")
  Outcome.emit .bootstrap
  { self with onBootstrap := true }.startQuery self.record.id 20

/-- `OnEvent<Query>`. -/
def onQuery (self : Peer K A σ) (query : Query) : Handler K A σ (Peer K A σ) := do
  Outcome.assert (self.onBootstrap = false) (.bail "start query while bootstrap in progress")
  self.startQuery query.target query.count

/-- `timer.set(RESEND_FIND_PEER_DURATION, ResendFindPeer(target, record))`. -/
def setTimer (self : Peer K A σ) (target : Target) (record : PeerRecord K A) :
    Handler K A σ (TimerId × Peer K A σ) := do
  let timerId : TimerId := ⟨self.timer + 1⟩
  Outcome.emit (.setTimer timerId target record)
  return (timerId, { self with timer := self.timer + 1 })

/-- The loop over the records to contact first. -/
def contactEach (target : Target) : List (PeerRecord K A) → Table PeerId TimerId → Peer K A σ →
    Handler K A σ (Table PeerId TimerId × Peer K A σ)
  | [], contacting, self => return (contacting, self)
  | record :: records, contacting, self => do
    let (timerId, self) ← self.setTimer target record
    contactEach target records (contacting.insert record.id timerId) self

/-- The records that a query starts with and contacts first. -/
def firstContacts (self : Peer K A σ) (records : List (PeerRecord K A)) : List (PeerRecord K A) :=
  (records.filter (·.id ≠ self.record.id)).take numConcurrency

def onSignedFindPeer (self : Peer K A σ) (findPeer : Verifiable (FindPeer K A) σ) :
    Handler K A σ (Peer K A σ) := do
  let target := findPeer.inner.target
  let records ← self.buckets.findClosest target (max findPeer.inner.count 30)
  Outcome.assert (records ≠ []) (.emptyBuckets target)
  let (contacting, self) ← contactEach target (self.firstContacts records) .empty self
  let state : QueryState K A σ := ⟨findPeer, records, contacting, {self.record.id}⟩
  Outcome.assert (self.queryStates.lookup target).isNone (.concurrentQuery target)
  Outcome.emit (.start target)
  Outcome.emit (.sendFindPeer ((self.firstContacts records).map (·.addr)) findPeer)
  return { self with queryStates := self.queryStates.insert target state }

/-- `OnEvent<ResendFindPeer<A>>`. -/
def onResendFindPeer (self : Peer K A σ) (target : Target) (record : PeerRecord K A) :
    Handler K A σ (Peer K A σ) :=
  match self.queryStates.lookup target with
  | none => Outcome.throw (.panic .unwrap)
  | some state => Outcome.throw (.timeout target state.findPeer.inner.count record)

def onRecvFindPeer (self : Peer K A σ) (findPeer : Verifiable (FindPeer K A) σ) : Handler K A σ (Peer K A σ) := do
  Outcome.emit (.submit (.verifyFindPeer findPeer))
  return self

def onVerifiedFindPeer (self : Peer K A σ) (findPeer : Verifiable (FindPeer K A) σ) :
    Handler K A σ (Peer K A σ) := do
  let findPeer := findPeer.inner
  let buckets ← self.buckets.insert findPeer.record
  Outcome.assert (self.findPeerOkSeq.toNat + 1 < 2 ^ 32) (.panic .overflow)
  let seq := self.findPeerOkSeq + 1
  let closest ← buckets.findClosest findPeer.target findPeer.count
  Outcome.emit (.submit (.signFindPeerOk ⟨seq, findPeer.target, closest, self.record⟩))
  return { self with
    buckets := buckets
    findPeerOkSeq := seq
    findPeerOkDests := Function.update self.findPeerOkDests seq (some findPeer.record.addr) }

def onSignedFindPeerOk (self : Peer K A σ) (findPeerOk : Verifiable (FindPeerOk K A) σ) :
    Handler K A σ (Peer K A σ) :=
  match self.findPeerOkDests findPeerOk.inner.seq with
  | none => Outcome.throw (.unknownSeq findPeerOk.inner.seq)
  | some dest => do
    Outcome.emit (.sendFindPeerOk dest findPeerOk)
    return { self with findPeerOkDests := Function.update self.findPeerOkDests findPeerOk.inner.seq none }

def onRecvFindPeerOk (self : Peer K A σ) (findPeerOk : Verifiable (FindPeerOk K A) σ) :
    Handler K A σ (Peer K A σ) := do
  Outcome.emit (.submit (.verifyFindPeerOk findPeerOk))
  return self

/-! ## Bootstrap -/

/-- `self.on_bootstrap.take().unwrap()()`. -/
def callBootstrap (self : Peer K A σ) : Handler K A σ (Peer K A σ) := do
  Outcome.assert (self.onBootstrap = true) (.panic .unwrap)
  Outcome.emit .onBootstrap
  return { self with onBootstrap := false }

/-- The `while` loop of `refresh_buckets`, with the indices that are left. -/
def startIndex (self : Peer K A σ) : List Nat → Handler K A σ Nat
  | [] => Outcome.throw (.panic .index)
  | index :: indices => do
    let bucket ← self.buckets.bucket index
    if bucket.records = [] then startIndex self indices else return index

/-- The `for` loop of `refresh_buckets`. -/
def chooseTargets (chance : Chance) : List Nat → Peer K A σ → Handler K A σ (Peer K A σ)
  | [], self => return self
  | i :: indices, self => do
    let target := distanceFrom self.record.id (randDistance i (chance.bytes i))
    let index ← self.buckets.index target
    Outcome.assert (index = i) (.panic .assert)
    chooseTargets chance indices { self with refreshTargets := insert target self.refreshTargets }

/-- `if let Some(&target) = self.refresh_targets.iter().next()`. -/
def refreshNext (self : Peer K A σ) (chance : Chance) (done : Peer K A σ → Handler K A σ (Peer K A σ)) :
    Handler K A σ (Peer K A σ) :=
  match chance.first self.refreshTargets with
  | some target => self.startQuery target 20
  | none => done self

def refreshBuckets (self : Peer K A σ) (chance : Chance) : Handler K A σ (Peer K A σ) := do
  let start ← if self.onBootstrap then self.startIndex (List.range' 1 255) else pure 0
  let self ← chooseTargets chance (List.range' start (256 - start)) self
  Outcome.emit (.refresh self.refreshTargets)
  self.refreshNext chance fun self => return self

/-! ## Verdicts -/

/-- What follows on the status of a query. -/
def conclude (self : Peer K A σ) (chance : Chance) (target : Target) (status : QueryStatus)
    (closest : List (PeerRecord K A)) : Handler K A σ (Peer K A σ) :=
  if self.onBootstrap = false then
    if target ∉ self.refreshTargets then do
      Outcome.emit (.upcall ⟨status, target, closest⟩)
      return self
    else if status = .progress then return self
    else return { self with refreshTargets := self.refreshTargets.erase target }
  else if status = .progress then return self
  else if self.refreshTargets = ∅ then do
    let self ← self.refreshBuckets chance
    if self.refreshTargets = ∅ then self.callBootstrap else return self
  else do
    Outcome.assert (target ∈ self.refreshTargets) (.panic .assert)
    { self with refreshTargets := self.refreshTargets.erase target }.refreshNext chance callBootstrap

def unsetTimers : List TimerId → Handler K A σ Unit
  | [] => return ()
  | timerId :: timerIds => do
    Outcome.emit (.unsetTimer timerId)
    unsetTimers timerIds

/-- A record that is neither contacted nor being contacted. -/
def nextContact (state : QueryState K A σ) (contacting : Table PeerId TimerId) : Option (PeerRecord K A) :=
  state.records.find? fun record =>
    decide (record.id ∉ state.contacted) && decide (contacting.lookup record.id = none)

/-- The `while` loop; it starts with the number of peers to contact until there
are `NUM_CONCURRENCY`. -/
def fill (target : Target) (state : QueryState K A σ) : Nat → Table PeerId TimerId → Peer K A σ →
    Handler K A σ (List A × Table PeerId TimerId × Peer K A σ)
  | 0, contacting, self => return ([], contacting, self)
  | fuel + 1, contacting, self =>
    match nextContact state contacting with
    | none => return ([], contacting, self)
    | some record => do
      let (timerId, self) ← self.setTimer target record
      let (addrs, contacting, self) ← fill target state fuel (contacting.insert record.id timerId) self
      return (record.addr :: addrs, contacting, self)

def QueryState.closest (state : QueryState K A σ) : List (PeerRecord K A) :=
  (state.records.filter (·.id ∈ state.contacted)).take state.findPeer.inner.count

/-- The block `'upcall`. -/
def advance (self : Peer K A σ) (chance : Chance) (target : Target) (state : QueryState K A σ) :
    Handler K A σ (Peer K A σ) := do
  let closest := QueryState.closest state
  let count := (state.records.takeWhile (·.id ∈ state.contacted)).length
  if state.findPeer.inner.count ≤ count then do
    unsetTimers (state.contacting.entries.map Prod.snd)
    Outcome.emit (.verdict target .converge state closest)
    { self with queryStates := self.queryStates.remove target }.conclude chance target .converge closest
  else do
    let (addrs, contacting, self) ← fill target state (numConcurrency - state.contacting.len) state.contacting self
    let state := { state with contacting := contacting }
    if contacting.entries = [] then do
      Outcome.emit (.verdict target .halted state closest)
      { self with queryStates := self.queryStates.remove target }.conclude chance target .halted closest
    else do
      if addrs ≠ [] then Outcome.emit (.sendFindPeer addrs state.findPeer)
      Outcome.emit (.verdict target .progress state closest)
      { self with queryStates := self.queryStates.insert target state }.conclude chance target .progress closest

section
variable [DecidableEq K] [DecidableEq A]

/-- `binary_search_by_key` for the distance, on records in increasing distance:
the first index that is not closer, and whether it has the distance. -/
def search (target : Target) (records : List (PeerRecord K A)) (id : PeerId) : Nat × Option (PeerRecord K A) :=
  let index := records.findIdx fun record => distance id target ≤ distance record.id target
  (index, records[index]?.filter fun record => distance record.id target = distance id target)

/-- The loop over the records of a reply. -/
def addRecords (target : Target) : List (PeerRecord K A) → List (PeerRecord K A) →
    Handler K A σ (List (PeerRecord K A))
  | [], records => return records
  | record :: closest, records =>
    match search target records record.id with
    | (_, some known) => do
      Outcome.assert (record = known) (.bail "non-distinct distance")
      addRecords target closest records
    | (index, none) => addRecords target closest (records.insertIdx index record)

def onVerifiedFindPeerOk (self : Peer K A σ) (chance : Chance) (findPeerOk : Verifiable (FindPeerOk K A) σ) :
    Handler K A σ (Peer K A σ) := do
  let findPeerOk := findPeerOk.inner
  let peerId := findPeerOk.record.id
  let buckets ← self.buckets.insert findPeerOk.record
  let self := { self with buckets := buckets }
  let target := findPeerOk.target
  match self.queryStates.lookup target with
  | none => return self
  | some state =>
    match state.contacting.lookup peerId with
    | none => return self
    | some resendTimer => do
      Outcome.emit (.unsetTimer resendTimer)
      let records ← addRecords target findPeerOk.closest state.records
      self.advance chance target { state with
        contacting := state.contacting.remove peerId
        contacted := insert peerId state.contacted
        records := records }

def onEvent (self : Peer K A σ) (chance : Chance) : Event K A σ → Handler K A σ (Peer K A σ)
  | .signedFindPeer findPeer => self.onSignedFindPeer findPeer
  | .verifiedFindPeer findPeer => self.onVerifiedFindPeer findPeer
  | .signedFindPeerOk findPeerOk => self.onSignedFindPeerOk findPeerOk
  | .verifiedFindPeerOk findPeerOk => self.onVerifiedFindPeerOk chance findPeerOk

end

end

end Peer

end Neatworks.Kademlia
