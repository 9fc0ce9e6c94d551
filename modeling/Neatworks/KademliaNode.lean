import Mathlib.Data.Finset.Max
import Neatworks.KademliaReply
import Neatworks.Runs

/-!
# A peer with its crypto worker

A `Node` is a peer, the jobs its crypto worker has not finished, and what has
happened at it so far. The jobs finish in any order, and the messages that come
are any at all. A failed handler ends the session of the peer.
-/

namespace Neatworks.Kademlia

open Outcome

structure Node (K A σ : Type) where
  peer : Peer K A σ
  jobs : List (Job K A σ) := []
  history : List (Effect K A σ) := []

inductive Input (K A σ : Type)
  | bootstrap
  | query (query : Query)
  | recvFindPeer (findPeer : Verifiable (FindPeer K A) σ)
  | recvFindPeerOk (findPeerOk : Verifiable (FindPeerOk K A) σ)
  /-- The worker is done with a job, the one at this place of the list of jobs. -/
  | complete (job : Nat) (chance : Chance)

instance {K A : Type} [DigestHash K] [DigestHash A] : DigestHash (PeerRecord K A) where
  hash record := DigestHash.hash record.id ++ (DigestHash.hash record.key ++ DigestHash.hash record.addr)

instance {K A : Type} [DigestHash K] [DigestHash A] : DigestHash (FindPeer K A) where
  hash m := DigestHash.hash m.target ++ (writeUsize m.count ++ DigestHash.hash m.record)

instance {K A : Type} [DigestHash K] [DigestHash A] : DigestHash (FindPeerOk K A) where
  hash m := DigestHash.hash m.seq ++ (DigestHash.hash m.target ++
    (DigestHash.hash m.closest ++ DigestHash.hash m.record))

section
variable {K A σ : Type}

def Effect.job : Effect K A σ → Option (Job K A σ)
  | .submit job => some job
  | _ => none

/-- The jobs among the calls of a handler. -/
def submitted (es : List (Effect K A σ)) : List (Job K A σ) := es.filterMap Effect.job

/-- The target of a query that is being signed. -/
def Job.signing : Job K A σ → Option Target
  | .signFindPeer findPeer => some findPeer.target
  | _ => none

section
variable [DigestHash K] [DigestHash A]

/-- The signature is of the peer with this record, and the id is the one of its key. -/
def Verifies {M : Type} [DigestHash M] (crypto : PeerCrypto K σ) (record : PeerRecord K A) (signed : Verifiable M σ) : Prop :=
  crypto.scheme.digest record.key = record.id ∧ crypto.verify record.key signed = true

instance {M : Type} [DigestHash M] (crypto : PeerCrypto K σ) (record : PeerRecord K A) (signed : Verifiable M σ) :
    Decidable (Verifies crypto record signed) := inferInstanceAs (Decidable (_ ∧ _))

/-- What the worker sends when it is done with the job. -/
def Job.run (crypto : PeerCrypto K σ) : Job K A σ → Option (Event K A σ)
  | .signFindPeer findPeer => some (.signedFindPeer (crypto.sign findPeer))
  | .verifyFindPeer findPeer =>
    if Verifies crypto findPeer.inner.record findPeer then some (.verifiedFindPeer findPeer) else none
  | .signFindPeerOk findPeerOk => some (.signedFindPeerOk (crypto.sign findPeerOk))
  | .verifyFindPeerOk findPeerOk =>
    if Verifies crypto findPeerOk.inner.record findPeerOk then some (.verifiedFindPeerOk findPeerOk) else none

end

namespace Node

def signing (node : Node K A σ) : List Target := node.jobs.filterMap Job.signing

/-- The jobs that are left when the input has come. -/
def remaining (node : Node K A σ) : Input K A σ → List (Job K A σ)
  | .complete n _ => node.jobs.eraseIdx n
  | _ => node.jobs

def finishes (node : Node K A σ) : Input K A σ → Option (Job K A σ)
  | .complete n _ => node.jobs[n]?
  | _ => none

def after (node : Node K A σ) (input : Input K A σ) (peer : Peer K A σ) (es : List (Effect K A σ)) : Node K A σ where
  peer := peer
  jobs := node.remaining input ++ submitted es
  history := node.history ++ es

variable [DigestHash K] [DigestHash A] [DecidableEq K] [DecidableEq A]

def handle (crypto : PeerCrypto K σ) (node : Node K A σ) : Input K A σ → Handler K A σ (Peer K A σ)
  | .bootstrap => node.peer.bootstrap
  | .query query => node.peer.onQuery query
  | .recvFindPeer findPeer => node.peer.onRecvFindPeer findPeer
  | .recvFindPeerOk findPeerOk => node.peer.onRecvFindPeerOk findPeerOk
  | .complete n chance =>
    match node.jobs[n]? with
    | none => return node.peer
    | some job =>
      match job.run crypto with
      | none => return node.peer
      | some event => node.peer.onEvent chance event

end Node

variable [DigestHash K] [DigestHash A] [DecidableEq K] [DecidableEq A]

/-- A peer starts with a table of seed peers. -/
def machine (crypto : PeerCrypto K σ) : Machine (Node K A σ) (Input K A σ) where
  init node := ∃ (origin : PeerRecord K A) (ops : List (Buckets.Op K A)) (buckets : Buckets K A),
    (ops.foldlM Buckets.apply (.new origin) : Handler K A σ (Buckets K A)) = .ok buckets [] ∧
      node = { peer := Peer.new buckets }
  next node input node' := ∃ peer es, node.handle crypto input = .ok peer es ∧ node' = node.after input peer es

/-! ## Runs that are computed -/

section
variable (crypto : PeerCrypto K σ) (C : Node K A σ → Input K A σ → Prop) [∀ node input, Decidable (C node input)]

def Node.exec (node : Node K A σ) (input : Input K A σ) : Option (Node K A σ) :=
  if C node input then
    match node.handle crypto input with
    | .ok peer es => some (node.after input peer es)
    | .fail _ _ => none
  else none

/-- What a computed run ends in is reached by a run whose steps meet `C`. -/
theorem reach_of_exec (origin : PeerRecord K A) (ops : List (Buckets.Op K A)) (inputs : List (Input K A σ))
    (P : Node K A σ → Prop) [DecidablePred P]
    (h : (match (ops.foldlM Buckets.apply (.new origin) : Handler K A σ (Buckets K A)) with
      | .ok buckets [] => (inputs.foldlM (Node.exec crypto C) { peer := Peer.new buckets }).any fun node => P node
      | _ => false) = true) :
    ∃ node, (machine crypto).Reach C node ∧ P node := by
  split at h
  · next buckets hok =>
    refine Machine.exists_of_foldlM (M := machine crypto) (fun s l s' hs => ?_) ⟨origin, ops, buckets, hok, rfl⟩ h
    unfold Node.exec at hs
    split at hs
    · next hc =>
      split at hs
      · next peer es hhandle =>
        cases hs
        exact ⟨hc, peer, es, hhandle, rfl⟩
      · cases hs
    · cases hs
  · cases h

end

end

/-- A choice of targets and bytes that can be computed: the least target, as a number. -/
def Chance.least : Chance where
  bytes _ := .replicate 32 0
  first targets := (targets.image fun target => leNat target.toList).min.map fun n => U256.toLittleEndian (BitVec.ofNat 256 n)
  first_mem targets target h := by
    obtain ⟨n, hn, rfl⟩ := Option.map_eq_some_iff.mp h
    obtain ⟨target, hmem, rfl⟩ := Finset.mem_image.mp (Finset.mem_of_min hn)
    rwa [show U256.toLittleEndian (BitVec.ofNat 256 (leNat target.toList)) = target from
      U256.fromLittleEndian_inj (U256.fromLittleEndian_toLittleEndian _)]
  first_none targets h := by
    have hnone := Option.map_eq_none_iff.mp h
    exact Finset.image_eq_empty.mp (Finset.min_eq_top.mp hnone)

/-- A peer with its key, for runs that are evaluated; the digest of a key is all
copies of it. -/
def peerOf (key : UInt8) : PeerRecord UInt8 UInt8 := ⟨.replicate 32 key, key, key⟩

def cryptoOf (key : UInt8) : PeerCrypto UInt8 UInt8 := ⟨.toy, key⟩

end Neatworks.Kademlia
