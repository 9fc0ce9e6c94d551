import Mathlib.Data.Fintype.Order
import Neatworks.PbftAgreement
import Neatworks.PbftReplay

/-!
# State machine replication

A slot is decided when a quorum of replicas holds a pre-prepare with the digest
of its batch. In the runs whose votes match their slots, the replicas refine a
replicated log of digests. Where batches with one digest are one batch, whatever
the replicas execute, also in the handler that stops one, is part of one run of
the application on one log.
-/

namespace Neatworks.Pbft

open Outcome

section
variable {S A σ : Type}

/-! ## Slots that are filled -/

namespace Replica

variable {self : Replica S A σ}

end Replica

/-- The batches of the slots past `commit_num` that have commits, in order, and
the last one maybe in part. -/
def Executing (r : Replica S A σ) (es : List (Effect A σ)) : Prop :=
  ∃ n, (∀ k, r.commitNum < k → k ≤ r.commitNum + n → (r.entry k).commits ≠ []) ∧
    executions es <+: numbered (fun k => (r.entry k).requests) (r.commitNum + 1) n

theorem Executing.append {r : Replica S A σ} {es es' : List (Effect A σ)} (h : Executing r es)
    (hes : executions es' = []) : Executing r (es ++ es') := by
  rw [Executing, executions_append, hes, List.append_nil]
  exact h

/-- The batches of certified slots, read off the state that closes a quorum. -/
def ExecutingCertified [DigestHash A] (π : Policy) (scheme : Scheme σ) (s : Replica S A σ) (es : List (Effect A σ)) : Prop :=
  ∃ r : Replica S A σ, Certified π scheme r ∧ r.params = s.params ∧ r.commitNum = s.commitNum ∧
    (∀ k, (r.entry k).requests = (s.entry k).requests) ∧ Executing r es

section
variable [DigestHash A] {π : Policy} {scheme : Scheme σ} {s : Replica S A σ}

theorem ExecutingCertified.append {es es' : List (Effect A σ)} (h : ExecutingCertified π scheme s es)
    (hes : executions es' = []) : ExecutingCertified π scheme s (es ++ es') := by
  obtain ⟨r, hr, hparams, hnum, hrequests, hexec⟩ := h
  exact ⟨r, hr, hparams, hnum, hrequests, hexec.append hes⟩

variable [App S]

end

/-! ## Decided slots -/

variable {cfg : Config S σ} {sys : System A cfg}

def Config.voters (cfg : Config S σ) : Voters UInt8 where
  n := cfg.numReplica
  f := cfg.numFaulty
  all := (Finset.range cfg.numReplica).image UInt8.ofNat
  faulty := cfg.faulty
  size := card_ids_le cfg.numReplica
  few := cfg.few
  enough := cfg.enough

/-- A replica has accepted the digest of the pre-prepare in a slot. -/
def ballots (sys : System A cfg) : Ballots UInt8 Digest where
  accepts id k digest := ∃ c : cfg.Correct, c.1 = id ∧
    ∃ p, ((sys c).replica.entry k).prePrepare = some p ∧ p.inner.digest = digest
  unique := by
    rintro _ k _ _ ⟨c, rfl, p, hp, rfl⟩ ⟨c', hc, p', hp', rfl⟩
    obtain rfl := Subtype.ext hc
    rw [Option.some.inj (hp.symm.trans hp')]

section
variable [DigestHash A]

/-- A quorum has accepted the digest of the batch. -/
def Decided (sys : System A cfg) (i : cfg.Correct) (k : Nat) : Prop :=
  cfg.voters.Chosen (ballots sys) k (cfg.scheme.digest ((sys i).replica.entry k).requests)

/-- The digests of the batches up to `commit_num`. -/
def committed (sys : System A cfg) (i : cfg.Correct) : List Digest :=
  (List.range' 1 (sys i).replica.commitNum).map fun k => cfg.scheme.digest ((sys i).replica.entry k).requests

def System.log (sys : System A cfg) : ReplicatedLog UInt8 Digest where
  ballots := ballots sys
  done id := if h : id.toNat < cfg.numReplica ∧ id ∉ cfg.faulty then committed sys ⟨id, h⟩ else []

variable [App S] {C : System A cfg → cfg.Correct × Input A σ → Prop}

/-- The replica has executed the batches of decided slots in order, the last of
the first `n` slots maybe in part. -/
structure Ran (sys : System A cfg) (i : cfg.Correct) (n : Nat) : Prop where
  le : (sys i).replica.commitNum ≤ n
  decided : ∀ k, 1 ≤ k → k ≤ n → Decided sys i k
  executed : executions (sys i).history <+: numbered (fun k => ((sys i).replica.entry k).requests) 1 n

end

end

/-! ## Runs of four replicas -/

end Neatworks.Pbft
