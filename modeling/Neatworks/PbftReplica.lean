import Neatworks.App
import Neatworks.Handler
import Neatworks.PbftMessage
import Neatworks.Table

/-!
# The PBFT replica

`Replica` of `pbft.rs` and its handlers. The calls on `net`, `client_net`,
`crypto_worker` and `app` are effects. `Prepare` and `Commit` take the same
way through a replica up to their insertion, so these handlers have the phase
as a parameter. A `HashMap` keyed by op number is a function to `Option`.
-/

namespace Neatworks

namespace Pbft

structure LogEntry (A σ : Type) where
  viewNum : UInt32 := 0
  prePrepare : Option (Verifiable PrePrepare σ) := none
  requests : List (Request A) := []
  prepares : List (UInt8 × Verifiable Prepare σ) := []
  commits : List (UInt8 × Verifiable Commit σ) := []

structure Replica (S A σ : Type) where
  id : UInt8
  numReplica : Nat
  numFaulty : Nat
  replies : UInt32 → Option (UInt32 × Option Reply)
  requests : List (Request A)
  viewNum : UInt32
  opNum : Nat
  log : List (LogEntry A σ)
  prepareQuorums : UInt32 → Option (Table UInt8 (Verifiable Prepare σ))
  commitQuorums : UInt32 → Option (Table UInt8 (Verifiable Commit σ))
  commitNum : Nat
  app : S
  /-- Op number to the votes parked behind a verification job, newest first. -/
  pendingPrepares : UInt32 → Option (List (Verifiable Prepare σ))
  pendingCommits : UInt32 → Option (List (Verifiable Commit σ))

def Replica.new {S A σ : Type} (id : UInt8) (app : S) (numReplica numFaulty : Nat) : Replica S A σ where
  id := id
  numReplica := numReplica
  numFaulty := numFaulty
  replies := fun _ => none
  requests := []
  viewNum := 0
  opNum := 0
  log := []
  prepareQuorums := fun _ => none
  commitQuorums := fun _ => none
  commitNum := 0
  app := app
  pendingPrepares := fun _ => none
  pendingCommits := fun _ => none

inductive ToReplica (A σ : Type)
  | request (request : Request A)
  | prePrepare (prePrepare : Verifiable PrePrepare σ) (requests : List (Request A))
  | vote (phase : Phase) (vote : Verifiable (Vote phase) σ)
  deriving DecidableEq

/-- The work submitted to the crypto worker. -/
inductive Job (A σ : Type)
  | signPrePrepare (viewNum opNum : UInt32) (requests : List (Request A))
  | verifyPrePrepare (replicaId : Nat) (prePrepare : Verifiable PrePrepare σ) (requests : List (Request A))
  | signVote (phase : Phase) (vote : Vote phase)
  | verifyVote (phase : Phase) (vote : Verifiable (Vote phase) σ)
  deriving DecidableEq

/-- What the crypto worker sends back. -/
inductive Event (A σ : Type)
  | signedPrePrepare (prePrepare : Verifiable PrePrepare σ) (requests : List (Request A))
  | verifiedPrePrepare (prePrepare : Verifiable PrePrepare σ) (requests : List (Request A))
  | signedVote (phase : Phase) (vote : Verifiable (Vote phase) σ)
  | verifiedVote (phase : Phase) (vote : Verifiable (Vote phase) σ)

/-- The calls of a handler. `sendClient` and `execute` also name the client
and the op number they are made for; a call of `execute` that fails has no
result. -/
inductive Effect (A σ : Type)
  | submit (job : Job A σ)
  | sendAll (message : ToReplica A σ)
  | sendClient (clientAddr : A) (clientId : UInt32) (reply : Reply)
  | execute (opNum : Nat) (request : Request A) (result : Option Payload)
  deriving DecidableEq

/-- `todo!`, `assert!`, an index past the log, an error of `app.execute`, and
an overflow. -/
inductive Fail
  | todo
  | assert
  | index
  | execute
  | overflow
  deriving DecidableEq, Repr

abbrev Handler (A σ α : Type) := Outcome (Effect A σ) Fail α

/-- The checked addition of `u32`. -/
def addU32 {ε : Type*} (a b : Nat) : Outcome ε Fail Nat :=
  if a + b < 2 ^ 32 then .ok (a + b) [] else .fail .overflow []

/-- The checked subtraction of `usize`. -/
def subUsize {ε : Type*} (a b : Nat) : Outcome ε Fail Nat :=
  if b ≤ a then .ok (a - b) [] else .fail .overflow []

section
variable {S A σ : Type}

def LogEntry.votes (entry : LogEntry A σ) : (phase : Phase) → List (UInt8 × Verifiable (Vote phase) σ)
  | .prepare => entry.prepares
  | .commit => entry.commits

def LogEntry.setVotes (entry : LogEntry A σ) :
    (phase : Phase) → List (UInt8 × Verifiable (Vote phase) σ) → LogEntry A σ
  | .prepare, votes => { entry with prepares := votes }
  | .commit, votes => { entry with commits := votes }

namespace Replica

def quorums (self : Replica S A σ) : (phase : Phase) → UInt32 → Option (Table UInt8 (Verifiable (Vote phase) σ))
  | .prepare => self.prepareQuorums
  | .commit => self.commitQuorums

def setQuorum (self : Replica S A σ) : (phase : Phase) → UInt32 →
    Option (Table UInt8 (Verifiable (Vote phase) σ)) → Replica S A σ
  | .prepare, k, quorum => { self with prepareQuorums := Function.update self.prepareQuorums k quorum }
  | .commit, k, quorum => { self with commitQuorums := Function.update self.commitQuorums k quorum }

def pending (self : Replica S A σ) : (phase : Phase) → UInt32 → Option (List (Verifiable (Vote phase) σ))
  | .prepare => self.pendingPrepares
  | .commit => self.pendingCommits

def setPending (self : Replica S A σ) : (phase : Phase) → UInt32 → Option (List (Verifiable (Vote phase) σ)) →
    Replica S A σ
  | .prepare, k, vs => { self with pendingPrepares := Function.update self.pendingPrepares k vs }
  | .commit, k, vs => { self with pendingCommits := Function.update self.pendingCommits k vs }

/-- The slot of the log at `k`; a slot the log does not have reads as the default one. -/
def entry (self : Replica S A σ) (k : Nat) : LogEntry A σ := self.log[k]?.getD {}

/-- `resize_with(k + 1, Default::default)` when there is no slot at `k`. -/
def reserve (self : Replica S A σ) (k : Nat) : Replica S A σ :=
  match self.log[k]? with
  | some _ => self
  | none => { self with log := self.log ++ List.replicate (k + 1 - self.log.length) {} }

def modifyEntry (self : Replica S A σ) (k : Nat) (f : LogEntry A σ → LogEntry A σ) : Replica S A σ :=
  { self with log := self.log.modify k f }

/-- The quorum that `vote` is for, with `vote` in it. -/
def quorumWith (self : Replica S A σ) (phase : Phase) (vote : Verifiable (Vote phase) σ) :
    Table UInt8 (Verifiable (Vote phase) σ) :=
  ((self.quorums phase vote.inner.opNum).getD .empty).insert vote.inner.replicaId vote

def record (self : Replica S A σ) (phase : Phase) (vote : Verifiable (Vote phase) σ) : Replica S A σ :=
  self.setQuorum phase vote.inner.opNum (some (self.quorumWith phase vote))

/-- Moves the quorum of `k` into the slot of the log. -/
def closeQuorum (self : Replica S A σ) (phase : Phase) (k : UInt32)
    (quorum : Table UInt8 (Verifiable (Vote phase) σ)) : Replica S A σ :=
  (self.modifyEntry k.toNat (·.setVotes phase quorum.entries)).setQuorum phase k none

def isPrimary (self : Replica S A σ) : Bool := self.id.toNat % self.numReplica == self.viewNum.toNat

def numConcurrentPrePrepare : Nat := 1

def closeBatch (self : Replica S A σ) : Handler A σ (Replica S A σ) := do
  Outcome.assert self.isPrimary .assert
  Outcome.assert (self.requests.isEmpty = false) .assert
  let opNum ← addU32 self.opNum 1
  Outcome.emit (.submit (.signPrePrepare self.viewNum (UInt32.ofNat opNum) (self.requests.take 100)))
  return { self with opNum := opNum, requests := self.requests.drop 100 }

def enqueue (self : Replica S A σ) (request : Request A) : Replica S A σ :=
  { self with
    replies := Function.update self.replies request.clientId (some (request.seq, none))
    requests := self.requests ++ [request] }

/-- `OnEvent<Recv<Request>>` past the check of `replies`. -/
def acceptRequest (self : Replica S A σ) (request : Request A) : Handler A σ (Replica S A σ) := do
  -- "forward request"
  Outcome.assert self.isPrimary .todo
  let self := self.enqueue request
  let limit ← addU32 self.commitNum numConcurrentPrePrepare
  if self.opNum < limit then self.closeBatch else return self

def onRecvRequest (self : Replica S A σ) (request : Request A) : Handler A σ (Replica S A σ) :=
  match self.replies request.clientId with
  | none => self.acceptRequest request
  | some (seq, reply) =>
    if request.seq < seq then return self
    else if seq = request.seq then
      match reply with
      | none => return self
      | some reply => do
        Outcome.emit (.sendClient request.clientAddr request.clientId reply)
        return self
    else self.acceptRequest request

/-- Puts a pre-prepare and its batch into their slot of the log. -/
def fill (self : Replica S A σ) (prePrepare : Verifiable PrePrepare σ) (requests : List (Request A)) :
    Replica S A σ :=
  self.modifyEntry prePrepare.inner.opNum.toNat fun entry =>
    { entry with prePrepare := some prePrepare, viewNum := self.viewNum, requests := requests }

def onSignedPrePrepare (self : Replica S A σ) (prePrepare : Verifiable PrePrepare σ)
    (requests : List (Request A)) : Handler A σ (Replica S A σ) :=
  let k := prePrepare.inner.opNum.toNat
  if prePrepare.inner.viewNum ≠ self.viewNum then return self
  else do
    let self := self.reserve k
    Outcome.assert ((self.entry k).prePrepare.isNone) .assert
    Outcome.emit (.sendAll (.prePrepare prePrepare requests))
    return self.fill prePrepare requests

def onRecvPrePrepare (self : Replica S A σ) (prePrepare : Verifiable PrePrepare σ)
    (requests : List (Request A)) : Handler A σ (Replica S A σ) :=
  if prePrepare.inner.viewNum ≠ self.viewNum then do
    -- "state transfer to enter view"
    Outcome.assert (prePrepare.inner.viewNum ≤ self.viewNum) .todo
    return self
  else if (self.entry prePrepare.inner.opNum.toNat).prePrepare.isSome then return self
  else do
    let replicaId := prePrepare.inner.viewNum.toNat % self.numReplica
    Outcome.emit (.submit (.verifyPrePrepare replicaId prePrepare requests))
    return self

/-- The quorums of `opNum` without the votes for another digest. -/
def retainDigest (self : Replica S A σ) (opNum : UInt32) (digest : Digest) : Replica S A σ :=
  let self := self.setQuorum .prepare opNum
    ((self.quorums .prepare opNum).map (·.retain fun prepare => prepare.inner.digest = digest))
  self.setQuorum .commit opNum
    ((self.quorums .commit opNum).map (·.retain fun commit => commit.inner.digest = digest))

def onVerifiedPrePrepare (self : Replica S A σ) (prePrepare : Verifiable PrePrepare σ)
    (requests : List (Request A)) : Handler A σ (Replica S A σ) :=
  let opNum := prePrepare.inner.opNum
  let digest := prePrepare.inner.digest
  if prePrepare.inner.viewNum ≠ self.viewNum then return self
  else
    let self := self.reserve opNum.toNat
    if (self.entry opNum.toNat).prePrepare.isSome then return self
    else do
      let self := self.fill prePrepare requests
      Outcome.emit (.submit (.signVote .prepare ⟨self.viewNum, opNum, digest, self.id⟩))
      return self.retainDigest opNum digest

def insertPrepare (self : Replica S A σ) (prepare : Verifiable Prepare σ) : Handler A σ (Replica S A σ) := do
  let opNum := prepare.inner.opNum
  let prepareQuorum := self.quorumWith .prepare prepare
  let self := self.record .prepare prepare
  let needed ← subUsize self.numReplica self.numFaulty
  if prepareQuorum.len + 1 < needed then return self
  else
    match self.log[opNum.toNat]? with
    | none => return self
    | some entry =>
      Outcome.assert entry.prepares.isEmpty .assert
      let self := self.closeQuorum .prepare opNum prepareQuorum
      Outcome.emit (.submit (.signVote .commit ⟨self.viewNum, opNum, prepare.inner.digest, self.id⟩))
      return self

section
variable [App S]

/-- The result of a request, put into `replies` unless a later one is there. -/
def executed (self : Replica S A σ) (request : Request A) (app : S) (reply : Reply) : Replica S A σ :=
  let fresh := match self.replies request.clientId with
    | some (seq, _) => decide (seq ≤ request.seq)
    | none => true
  { self with
    app := app
    replies := if fresh then Function.update self.replies request.clientId (some (request.seq, some reply))
      else self.replies }

/-- `for request in &entry.requests`, for the batch of op number `opNum`. -/
def executeRequests (opNum : Nat) : List (Request A) → Replica S A σ → Handler A σ (Replica S A σ)
  | [], self => return self
  | request :: requests, self =>
    match App.execute self.app request.op with
    | none => do
      Outcome.emit (.execute opNum request none)
      Outcome.throw .execute
    | some (app, result) => do
      Outcome.emit (.execute opNum request (some result))
      let reply : Reply := ⟨request.seq, result, self.viewNum, self.id⟩
      Outcome.emit (.sendClient request.clientAddr request.clientId reply)
      executeRequests opNum requests (self.executed request app reply)

/-- `while let Some(entry) = self.log.get(self.commit_num as usize + 1)`, on
the part of the log past `commitNum`. -/
def executeCommitted : List (LogEntry A σ) → Replica S A σ → Handler A σ (Replica S A σ)
  | [], self => return self
  | entry :: rest, self =>
    if entry.commits.isEmpty then return self
    else do
      let self := { self with commitNum := self.commitNum + 1 }
      let self ← executeRequests self.commitNum entry.requests self
      executeCommitted rest self

end

/-- `while self.is_primary() && !self.requests.is_empty() && ..`; a round takes
at least one request, so the number of requests is fuel enough. -/
def closeBatches : Nat → Replica S A σ → Handler A σ (Replica S A σ)
  | 0, self => return self
  | fuel + 1, self =>
    if self.isPrimary && !self.requests.isEmpty then do
      let limit ← addU32 self.commitNum numConcurrentPrePrepare
      if self.opNum ≤ limit then
        let self ← self.closeBatch
        closeBatches fuel self
      else return self
    else return self

section
variable [App S]

/-- The two loops that end `insert_commit`. -/
def advance (self : Replica S A σ) : Handler A σ (Replica S A σ) := do
  let self ← executeCommitted (self.log.drop (self.commitNum + 1)) self
  closeBatches self.requests.length self

def insertCommit (self : Replica S A σ) (commit : Verifiable Commit σ) : Handler A σ (Replica S A σ) := do
  let opNum := commit.inner.opNum
  let commitQuorum := self.quorumWith .commit commit
  let self := self.record .commit commit
  let needed ← subUsize self.numReplica self.numFaulty
  if commitQuorum.len < needed then return self
  else
    match self.log[opNum.toNat]? with
    | none => return self
    | some entry =>
      Outcome.assert entry.commits.isEmpty .assert
      if entry.prepares.isEmpty then return self
      else
        (self.closeQuorum .commit opNum commitQuorum).advance

def insertVote (self : Replica S A σ) :
    (phase : Phase) → Verifiable (Vote phase) σ → Handler A σ (Replica S A σ)
  | .prepare, prepare => self.insertPrepare prepare
  | .commit, commit => self.insertCommit commit

/-- `OnEvent<Signed<Prepare>>` and `OnEvent<Signed<Commit>>`. -/
def onSignedVote (self : Replica S A σ) (phase : Phase) (vote : Verifiable (Vote phase) σ) :
    Handler A σ (Replica S A σ) :=
  if vote.inner.viewNum ≠ self.viewNum then return self
  else do
    Outcome.emit (.sendAll (.vote phase vote))
    match self.log[vote.inner.opNum.toNat]? with
    | none => Outcome.throw .index
    | some entry => if (entry.votes phase).isEmpty then self.insertVote phase vote else return self

end

/-- `submit_prepare` and `submit_commit`: whether the vote is now with the worker. -/
def submitVote (self : Replica S A σ) (phase : Phase) (vote : Verifiable (Vote phase) σ) : Handler A σ Bool :=
  let entry := self.entry vote.inner.opNum.toNat
  let mismatched := match entry.prePrepare with
    | some prePrepare => decide (vote.inner.digest ≠ prePrepare.inner.digest)
    | none => false
  if vote.inner.viewNum ≠ self.viewNum then do
    -- "state transfer to enter view"
    Outcome.assert (vote.inner.viewNum ≤ self.viewNum) .todo
    return false
  else if !(entry.votes phase).isEmpty || mismatched then return false
  else do
    Outcome.emit (.submit (.verifyVote phase vote))
    return true

/-- `OnEvent<Recv<Verifiable<Prepare>>>` and `OnEvent<Recv<Verifiable<Commit>>>`. -/
def onRecvVote (self : Replica S A σ) (phase : Phase) (vote : Verifiable (Vote phase) σ) :
    Handler A σ (Replica S A σ) :=
  match self.pending phase vote.inner.opNum with
  | some votes => return self.setPending phase vote.inner.opNum (some (vote :: votes))
  | none => do
    let submitted ← self.submitVote phase vote
    return if submitted then self.setPending phase vote.inner.opNum (some []) else self

/-- The loop over the parked votes of `opNum`. -/
def drainPending (phase : Phase) (opNum : UInt32) : List (Verifiable (Vote phase) σ) → Replica S A σ →
    Handler A σ (Replica S A σ)
  | [], self => return self.setPending phase opNum none
  | vote :: votes, self => do
    let self := self.setPending phase opNum (some votes)
    let submitted ← self.submitVote phase vote
    if submitted then return self else drainPending phase opNum votes self

/-- `OnEvent<Verified<Prepare>>` and `OnEvent<Verified<Commit>>`. -/
def onVerifiedVote [App S] (self : Replica S A σ) (phase : Phase) (vote : Verifiable (Vote phase) σ) :
    Handler A σ (Replica S A σ) :=
  if vote.inner.viewNum ≠ self.viewNum then return self
  else do
    let self ← self.insertVote phase vote
    match self.pending phase vote.inner.opNum with
    | none => return self
    | some votes => drainPending phase vote.inner.opNum votes self

def onRecv (self : Replica S A σ) : ToReplica A σ → Handler A σ (Replica S A σ)
  | .request request => self.onRecvRequest request
  | .prePrepare prePrepare requests => self.onRecvPrePrepare prePrepare requests
  | .vote phase vote => self.onRecvVote phase vote

def onEvent [App S] (self : Replica S A σ) : Event A σ → Handler A σ (Replica S A σ)
  | .signedPrePrepare prePrepare requests => self.onSignedPrePrepare prePrepare requests
  | .verifiedPrePrepare prePrepare requests => self.onVerifiedPrePrepare prePrepare requests
  | .signedVote phase vote => self.onSignedVote phase vote
  | .verifiedVote phase vote => self.onVerifiedVote phase vote

end Replica

section
variable [DigestHash A]

/-- The message a job signs. -/
def Job.signs (scheme : Scheme σ) : Job A σ → Option SignedMessage
  | .signPrePrepare viewNum opNum requests => some (.prePrepare ⟨viewNum, opNum, scheme.digest requests⟩)
  | .signVote phase vote => some (.vote phase vote)
  | .verifyPrePrepare .. | .verifyVote .. => none

/-- The event a job sends when it is done. -/
def Job.run (crypto : Crypto σ) : Job A σ → Option (Event A σ)
  | .signPrePrepare viewNum opNum requests =>
    some (.signedPrePrepare (crypto.sign ⟨viewNum, opNum, crypto.scheme.digest requests⟩) requests)
  | .verifyPrePrepare replicaId prePrepare requests =>
    if crypto.scheme.digest requests = prePrepare.inner.digest ∧ crypto.verify replicaId prePrepare = true then
      some (.verifiedPrePrepare prePrepare requests)
    else none
  | .signVote phase vote => some (.signedVote phase (crypto.sign vote))
  | .verifyVote phase vote =>
    if crypto.verify vote.inner.replicaId.toNat vote then some (.verifiedVote phase vote) else none

end

end

end Pbft

end Neatworks
