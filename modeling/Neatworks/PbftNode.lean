import Mathlib.Data.Finset.Card
import Mathlib.Data.Fintype.Defs
import Neatworks.PbftReplica
import Neatworks.Runs

/-!
# A PBFT replica with its crypto worker, and a system of replicas

A `Node` is a replica, the jobs its crypto worker has not finished, and what
has happened at it so far. The jobs finish in any order; the completion of a
job and the handling of the event it sends are one step. A failed handler ends
the session of its replica.

In a `System` the replicas that are not Byzantine take such steps. The messages
they receive are any at all, so the network may drop, duplicate, delay and
reorder them and a Byzantine replica may send what it likes, except that it
cannot sign for another replica.
-/

namespace Neatworks.Pbft

structure Node (S A σ : Type) where
  replica : Replica S A σ
  jobs : List (Job A σ) := []
  stopped : Option Fail := none
  history : List (Effect A σ) := []
  signed : List SignedMessage := []

inductive Input (A σ : Type)
  | recv (message : ToReplica A σ)
  /-- The worker is done with a job, the one at this place of the list of jobs. -/
  | complete (job : Nat)

section
variable {S A σ : Type}

def Effect.job : Effect A σ → Option (Job A σ)
  | .submit job => some job
  | _ => none

/-- The jobs among the calls of a handler. -/
def submitted (es : List (Effect A σ)) : List (Job A σ) := es.filterMap Effect.job

namespace Node

def apply (node : Node S A σ) : Handler A σ (Replica S A σ) → Node S A σ
  | .ok replica es => { node with
      replica := replica, jobs := node.jobs ++ submitted es, history := node.history ++ es }
  | .fail reason es => { node with stopped := some reason, history := node.history ++ es }

section
variable [App S] [DigestHash A]

/-- The worker is done with `job`, and its event is handled. -/
def finish (crypto : Crypto σ) (node : Node S A σ) (job : Job A σ) : Node S A σ :=
  let node := { node with signed := node.signed ++ (job.signs crypto.scheme).toList }
  match job.run crypto with
  | none => node
  | some event => node.apply (node.replica.onEvent event)

def step (crypto : Crypto σ) (node : Node S A σ) : Input A σ → Node S A σ
  | .recv message => node.apply (node.replica.onRecv message)
  | .complete n =>
    match node.jobs[n]? with
    | none => node
    | some job => { node with jobs := node.jobs.eraseIdx n }.finish crypto job

end

def new (id : UInt8) (app : S) (numReplica numFaulty : Nat) : Node S A σ where
  replica := Replica.new id app numReplica numFaulty

end Node

def Node.finishes (node : Node S A σ) : Input A σ → Option (Job A σ)
  | .recv _ => none
  | .complete n => node.jobs[n]?

/-- One replica in any environment. -/
def nodeMachine [App S] [DigestHash A] (crypto : Crypto σ) (app : S) (numFaulty : Nat) :
    Machine (Node S A σ) (Input A σ) where
  init node := ∃ id : UInt8, id.toNat = crypto.id ∧ node = Node.new id app crypto.numReplica numFaulty
  next node input node' := node.stopped = none ∧ node' = node.step crypto input

/-! ## The system -/

/-- A system of `numReplica` replicas that tolerates `numFaulty` Byzantine ones. -/
structure Config (S σ : Type) where
  numReplica : Nat
  numFaulty : Nat
  enough : 3 * numFaulty + 1 ≤ numReplica
  faulty : Finset UInt8
  few : faulty.card ≤ numFaulty
  scheme : Scheme σ
  app : S

/-- The id of a replica that is not Byzantine. -/
def Config.Correct (cfg : Config S σ) : Type := { i : UInt8 // i.toNat < cfg.numReplica ∧ i ∉ cfg.faulty }

instance (cfg : Config S σ) : DecidableEq cfg.Correct := inferInstanceAs (DecidableEq (Subtype _))

def Config.crypto (cfg : Config S σ) (i : cfg.Correct) : Crypto σ := ⟨cfg.scheme, cfg.numReplica, _, i.2.1⟩

abbrev System (A : Type) (cfg : Config S σ) := cfg.Correct → Node S A σ

/-- `i` has signed these bytes. -/
def HasSigned {cfg : Config S σ} (sys : System A cfg) (i : cfg.Correct) (bytes : List UInt8) : Prop :=
  ∃ m ∈ (sys i).signed, m.bytes = bytes

/-- Unforgeability: a signature of a correct replica is found valid only on
bytes that the replica has signed. -/
def Unforged {cfg : Config S σ} {M : Type} [DigestHash M] (sys : System A cfg) (crypto : Crypto σ) (index : Nat)
    (signed : Verifiable M σ) : Prop :=
  ∀ i : cfg.Correct, i.1.toNat = index → crypto.verify index signed = true →
    HasSigned sys i (DigestHash.hash signed.inner)

/-- What the worker verifies in a job is not forged. -/
def Job.Unforged {cfg : Config S σ} (sys : System A cfg) (crypto : Crypto σ) : Job A σ → Prop
  | .verifyPrePrepare replicaId prePrepare _ => Pbft.Unforged sys crypto replicaId prePrepare
  | .verifyVote _ vote => Pbft.Unforged sys crypto vote.inner.replicaId.toNat vote
  | .signPrePrepare .. | .signVote .. => True

structure Enabled {cfg : Config S σ} (sys : System A cfg) (i : cfg.Correct) (input : Input A σ) : Prop where
  running : (sys i).stopped = none
  unforged : ∀ job, (sys i).finishes input = some job → job.Unforged sys (cfg.crypto i)

section
variable [App S]

def System.step [DigestHash A] {cfg : Config S σ} (sys : System A cfg) (i : cfg.Correct) (input : Input A σ) : System A cfg :=
  Function.update sys i ((sys i).step (cfg.crypto i) input)

/-- The step of a correct replica on a message or on a finished job. -/
def systemMachine (A : Type) [DigestHash A] (cfg : Config S σ) : Machine (System A cfg) (cfg.Correct × Input A σ) where
  init sys := sys = fun i => Node.new i.1 cfg.app cfg.numReplica cfg.numFaulty
  next sys label sys' := Enabled sys label.1 label.2 ∧ sys' = sys.step label.1 label.2

end

/-! ## Runs that are computed -/

section
variable {cfg : Config S σ} {sys : System A cfg}

def Config.find (cfg : Config S σ) (index : Nat) : Option cfg.Correct :=
  if h : (UInt8.ofNat index).toNat = index ∧ (UInt8.ofNat index).toNat < cfg.numReplica ∧
      UInt8.ofNat index ∉ cfg.faulty then some ⟨.ofNat index, h.2⟩
  else none

theorem Config.find_eq_some {cfg : Config S σ} {index : Nat} {i : cfg.Correct} :
    cfg.find index = some i ↔ i.1.toNat = index := by
  unfold find
  constructor
  · intro h
    split at h
    · next hi =>
      cases h
      exact hi.1
    · cases h
  · rintro rfl
    have hi : UInt8.ofNat i.1.toNat = i.1 := UInt8.ofNat_toNat ..
    rw [dif_pos (by rw [hi]; exact ⟨rfl, i.2⟩)]
    exact congrArg some (Subtype.ext hi)

instance (i : cfg.Correct) (bytes : List UInt8) : Decidable (HasSigned sys i bytes) :=
  inferInstanceAs (Decidable (∃ m ∈ (sys i).signed, m.bytes = bytes))

instance {M : Type} [DigestHash M] {crypto : Crypto σ} {index : Nat} {signed : Verifiable M σ} :
    Decidable (Unforged sys crypto index signed) :=
  decidable_of_iff (∀ i, cfg.find index = some i → crypto.verify index signed = true →
      HasSigned sys i (DigestHash.hash signed.inner)) <| by
    simp only [Config.find_eq_some]
    rfl

instance {crypto : Crypto σ} : DecidablePred (Job.Unforged (A := A) sys crypto)
  | .verifyPrePrepare .. | .verifyVote .. => inferInstanceAs (Decidable (Pbft.Unforged ..))
  | .signPrePrepare .. | .signVote .. => instDecidableTrue

instance {i : cfg.Correct} {input : Input A σ} : Decidable (Enabled sys i input) :=
  decidable_of_iff ((sys i).stopped = none ∧ ∀ job, (sys i).finishes input = some job →
      job.Unforged sys (cfg.crypto i))
    ⟨fun h => ⟨h.1, h.2⟩, fun h => ⟨h.running, h.unforged⟩⟩

section
variable [App S] [DigestHash A] (C : System A cfg → cfg.Correct × Input A σ → Prop) [∀ sys label, Decidable (C sys label)]

def System.exec (sys : System A cfg) (label : cfg.Correct × Input A σ) : Option (System A cfg) :=
  if Enabled sys label.1 label.2 ∧ C sys label then some (sys.step label.1 label.2) else none

/-- What a computed run ends in is reached by a run whose steps meet `C`. -/
theorem reach_of_exec (labels : List (cfg.Correct × Input A σ)) (P : System A cfg → Prop) [DecidablePred P]
    (h : (labels.foldlM (System.exec C) fun i => Node.new i.1 cfg.app cfg.numReplica cfg.numFaulty).any
      (fun sys => P sys) = true) : ∃ sys, (systemMachine A cfg).Reach C sys ∧ P sys := by
  refine Machine.exists_of_foldlM (M := systemMachine A cfg) (fun s l s' hs => ?_) rfl h
  unfold System.exec at hs
  split at hs
  · next hc =>
    cases hs
    exact ⟨hc.2, hc.1, rfl⟩
  · cases hs

end

end

end

/-- Four replicas of which the primary is Byzantine. -/
def Config.toy : Config Null (Nat × Digest) where
  numReplica := 4
  numFaulty := 1
  enough := by decide
  faulty := {0}
  few := by decide
  scheme := Scheme.toy
  app := Null.mk

/-- A message signed by a replica of `Config.toy`. -/
def signedBy {M : Type} [DigestHash M] (id : Fin 4) (message : M) : Verifiable M (Nat × Digest) :=
  Crypto.sign ⟨Scheme.toy, 4, id, id.2⟩ message

/-- Replica `1` prepares a batch of the primary with replica `2`, and commits it
with replica `2` and the primary. -/
def batchRun (requests : List (Request UInt8)) : List (Config.toy.Correct × Input UInt8 (Nat × Digest)) :=
  let digest := Scheme.toy.digest requests
  let prePrepare := signedBy ⟨0, Nat.zero_lt_succ 3⟩ (PrePrepare.mk 0 1 digest)
  let prepare (id : Fin 4) : Verifiable Prepare (Nat × Digest) := signedBy id ⟨0, 1, digest, .ofNat id⟩
  let commit (id : Fin 4) : Verifiable Commit (Nat × Digest) := signedBy id ⟨0, 1, digest, .ofNat id⟩
  let i : Config.toy.Correct := ⟨1, by decide⟩
  let j : Config.toy.Correct := ⟨2, by decide⟩
  [(i, .recv (.prePrepare prePrepare requests)), (i, .complete 0), (i, .complete 0),
    (j, .recv (.prePrepare prePrepare requests)), (j, .complete 0), (j, .complete 0),
    (i, .recv (.vote .prepare (prepare ⟨2, by decide⟩))), (i, .complete 0), (i, .complete 0),
    (j, .recv (.vote .prepare (prepare ⟨1, by decide⟩))), (j, .complete 0), (j, .complete 0),
    (i, .recv (.vote .commit (commit ⟨2, by decide⟩))), (i, .complete 0),
    (i, .recv (.vote .commit (commit ⟨0, Nat.zero_lt_succ 3⟩))), (i, .complete 0)]

end Neatworks.Pbft
