import Mathlib.Data.Finset.Card
import Neatworks.PbftExecution
import Neatworks.Quorum

/-!
# Agreement

Two replicas that have committed an op number have a quorum of commits each,
and the quorums share a replica that is not Byzantine. It has signed votes for
one digest only, so the replicas hold pre-prepares with the same digest, and
have executed the same batch.
-/

namespace Neatworks.Pbft

open Outcome

section
variable {S A σ : Type}

/-! ## Which steps fill a slot -/

section
variable [App S] {self : Replica S A σ}

theorem Replica.insertVote_slots (phase : Phase) (vote : Verifiable (Vote phase) σ) :
    (self.insertVote phase vote).Sat (fun r _ => SameSlots self r) fun _ => True := by
  cases phase with
  | prepare => exact (insertPrepare_idle vote).mono (fun _ _ h => h.slots) fun _ _ => trivial
  | commit =>
    have hrecord : SameSlots self (self.record .commit vote) := .of_entry (by simp)
    refine insertCommit_sat hrecord (fun _ _ _ _ => ?_) trivial
    refine advance_sat (R := fun _ => True) (I := fun r _ => SameSlots self r) (fun _ _ _ => trivial)
      (fun entry r es h _ _ _ => ?_) (fun r es h => ?_) [] (hrecord.trans (.closeQuorum quorumWith_ne_nil))
    · exact executeRequests_sat (R := fun _ => True) (I := fun _ r' _ => SameSlots self r') (fun _ _ _ _ _ _ => trivial)
        (fun _ _ _ _ _ _ h _ => h.trans (.of_entry fun _ => rfl)) entry.requests es (h.trans (.of_entry fun _ => rfl))
    · exact closeBatch_sat (fun _ _ _ => h.trans (.of_entry fun _ => rfl)) trivial

variable [DigestHash A] {crypto : Crypto σ} {node : Node S A σ} {input : Input A σ}

/-- A pre-prepare that is new in the log is one the replica has just signed, or
one it has found valid. -/
theorem Node.step_prePrepare {k : Nat} {p : Verifiable PrePrepare σ}
    (h : ((node.step crypto input).replica.entry k).prePrepare = some p) :
    (node.replica.entry k).prePrepare = some p ∨
      (∃ viewNum opNum requests, node.finishes input = some (.signPrePrepare viewNum opNum requests) ∧
        p.inner = ⟨viewNum, opNum, crypto.scheme.digest requests⟩) ∨
      ∃ i requests, node.finishes input = some (.verifyPrePrepare i p requests) ∧ crypto.verify i p = true := by
  have hfill : ∀ {r : Replica S A σ} {q : Verifiable PrePrepare σ} {requests : List (Request A)},
      (((r.reserve q.inner.opNum.toNat).fill q requests).entry k).prePrepare = some p →
      (r.entry k).prePrepare = some p ∨ q = p := by
    intro r q requests hp
    by_cases hk : k = q.inner.opNum.toNat
    · rw [hk, Certified.entry_fill_reserve.1] at hp
      exact Or.inr (Option.some.inj hp)
    · rw [Replica.entry_fill_of_ne hk, Replica.entry_reserve] at hp
      exact Or.inl hp
  have hrefl : SameSlots node.replica node.replica := .of_entry fun _ => rfl
  have hkeep : ∀ {r : Replica S A σ} {P : Prop}, SameSlots node.replica r → (r.entry k).prePrepare = some p →
      (node.replica.entry k).prePrepare = some p ∨ P := by
    intro r P hr hp
    rw [← hr.prePrepare]
    exact Or.inl hp
  revert h
  refine Node.step_sat (J := fun node' => (node'.replica.entry k).prePrepare = some p → _) (fun message _ hp => ?_)
    (fun _ => Or.inl) fun n job hinput hjob => ?_
  · exact Node.apply_sat (J := fun node' => (node'.replica.entry k).prePrepare = some p → _)
      ((Replica.onRecv_idle message).mono (fun _ _ h => hkeep h.slots) fun _ _ _ => Or.inl) hp
  subst hinput
  unfold Node.finish
  cases hrun : job.run crypto with
  | none => exact Or.inl
  | some event =>
    cases event with
    | signedPrePrepare q requests =>
      obtain ⟨viewNum, opNum, rfl, rfl⟩ := Job.run_signedPrePrepare hrun
      refine Node.apply_sat (J := fun node' => (node'.replica.entry k).prePrepare = some p → _)
        (Replica.onSignedPrePrepare_sat (fun _ => Or.inl) (fun _ _ hp => (hfill hp).imp_right ?_) fun _ _ _ => Or.inl)
      rintro rfl
      exact Or.inl ⟨viewNum, opNum, requests, hjob, rfl⟩
    | verifiedPrePrepare q requests =>
      obtain ⟨i, rfl, -, hvalid⟩ := Job.run_verifiedPrePrepare hrun
      refine Node.apply_sat (J := fun node' => (node'.replica.entry k).prePrepare = some p → _)
        (Replica.onVerifiedPrePrepare_sat Or.inl (fun hp => Or.inl (by simpa using hp))
          (fun _ _ hp => (hfill (by simpa using hp)).imp_right ?_))
      rintro rfl
      exact Or.inr ⟨i, requests, hjob, hvalid⟩
    | signedVote phase vote =>
      refine Node.apply_sat (J := fun node' => (node'.replica.entry k).prePrepare = some p → _)
        (Outcome.Sat.mono (R := fun _ => True) ?_ (fun _ _ hr => hkeep hr) fun _ _ _ => Or.inl)
      exact Replica.onSignedVote_sat (fun _ => hrefl) hrefl (fun _ _ => Replica.insertVote_slots phase vote) trivial
    | verifiedVote phase vote =>
      refine Node.apply_sat (J := fun node' => (node'.replica.entry k).prePrepare = some p → _)
        (Outcome.Sat.mono (R := fun _ => True) ?_ (fun _ _ hr => hkeep hr) fun _ _ _ => Or.inl)
      refine Replica.onVerifiedVote_sat (fun _ => hrefl) fun _ => ?_
      refine (Replica.insertVote_slots phase vote).mono (fun r es hr => ⟨fun _ => hr, fun votes _ => ?_⟩)
        fun _ _ => trivial
      exact (Replica.drainPending_idle _ votes).mono (fun _ _ hi => hr.trans hi.slots) fun _ _ => trivial

end

/-! ## What the signatures of a correct replica say -/

section
variable [DigestHash A] {cfg : Config S σ} {sys : System A cfg}

/-- The sender of a vote holds a pre-prepare with the digest of the vote. -/
theorem filled_of_sent {π : Policy} {c : cfg.Correct} (hc : (sys c).Certifies π cfg.scheme) {phase : Phase}
    {v : Vote phase} (hsent : Sent sys v) (hid : c.1 = v.replicaId) :
    ∃ p, ((sys c).replica.entry v.opNum.toNat).prePrepare = some p ∧ v.digest = p.inner.digest := by
  obtain ⟨m, hm, hbytes⟩ := hsent c hid
  cases m with
  | prePrepare m => exact absurd hbytes (prePrepare_bytes_ne_vote m v)
  | vote phase' v' =>
    obtain rfl := hash_vote_inj hbytes
    exact (hc.signed phase' v' hm).filled

variable [App S] {C : System A cfg → cfg.Correct × Input A σ → Prop}

/-- A pre-prepare in a log is signed by the primary, when that is not Byzantine. -/
theorem granted_reach (h : (systemMachine A cfg).Reach C sys) {i j : cfg.Correct} (hj : j.1.toNat = 0) {k : Nat}
    {p : Verifiable PrePrepare σ} (hp : ((sys i).replica.entry k).prePrepare = some p) :
    HasSigned sys j (DigestHash.hash p.inner) := by
  suffices ∀ (i : cfg.Correct) (k : Nat) (p : Verifiable PrePrepare σ),
      ((sys i).replica.entry k).prePrepare = some p → HasSigned sys j (DigestHash.hash p.inner) from this i k p hp
  refine h.invariant (I := fun sys => ∀ (i : cfg.Correct) (k : Nat) (p : Verifiable PrePrepare σ),
    ((sys i).replica.entry k).prePrepare = some p → HasSigned sys j (DigestHash.hash p.inner)) ?_ ?_
  · rintro _ rfl i k p hp
    cases hp
  · rintro sys ⟨i, input⟩ _ hreach ih - ⟨henabled, rfl⟩ i' k p hp
    by_cases hi : i' = i
    swap
    · rw [System.step_of_ne hi] at hp
      exact (ih i' k p hp).step input
    subst hi
    rw [System.step_self] at hp
    have hproposes := proposes_reach hreach i'
    have hparams := params_reach hreach i'
    simp only [Replica.params, Prod.mk.injEq] at hparams
    rcases Node.step_prePrepare hp with hp | ⟨viewNum, opNum, requests, hjob, hinner⟩ | ⟨m, requests, hjob, hvalid⟩
    · exact (ih i' k p hp).step input
    · -- The replica that signs a pre-prepare is the primary.
      have hprimary := (hproposes.primary _ _ _ (Node.mem_of_finishes hjob)).1
      obtain rfl : j = i' := Subtype.ext (UInt8.toNat_inj.mp (hj.trans ((isPrimary_iff hreach i').mp hprimary).symm))
      refine ⟨.prePrepare p.inner, ?_, rfl⟩
      rw [System.step_self, Node.step_signed]
      exact Or.inr ⟨_, hjob, by rw [hinner]; rfl⟩
    · have hm := (hproposes.verify m p requests (Node.mem_of_finishes hjob)).1
      rw [hparams.2.2.2] at hm
      refine HasSigned.step ?_ input
      exact henabled.unforged _ hjob j (by rw [hj, hm]; exact (Nat.zero_mod _).symm) hvalid

/-- The votes of the replicas that are not Byzantine are for the pre-prepare. -/
def agreed (sys : System A cfg) : Policy where
  stored _ v := Sent sys v
  agrees _ p v := (∃ c : cfg.Correct, c.1 = v.replicaId) → v.digest = p.digest
  of_digest h := fun _ => h

theorem agreed_reach (h : (systemMachine A cfg).Reach Matching sys) (i : cfg.Correct) :
    (sys i).Certifies (agreed sys) cfg.scheme := by
  refine h.invariant (I := fun sys => ∀ i, (sys i).Certifies (agreed sys) cfg.scheme) ?_ ?_ i
  · rintro _ rfl i
    exact certifies_init _ i
  · rintro sys ⟨i, input⟩ _ hreach ih hmatching ⟨henabled, rfl⟩
    have hparams := params_reach hreach i
    simp only [Replica.params, Prod.mk.injEq] at hparams
    refine certifies_step hreach ih henabled hmatching (fun phase v hv => hv.step i input) (fun _ _ _ _ ha => ha)
      (fun viewNum opNum requests hjob phase t ht e he => ?_) (fun phase v hjob => ?_) (fun phase vote hjob hvalid => ?_)
    · -- The sender holds a pre-prepare for this op number, so the primary has signed one, and its own slot is taken.
      rintro ⟨c, hc⟩
      exfalso
      have hproposes := proposes_reach hreach i
      obtain ⟨hprimary, -, -, hnone⟩ := hproposes.primary _ _ _ (Node.mem_of_finishes hjob)
      have hat := (ih i).replica.quorum phase opNum t ht e he
      obtain ⟨p, hp, -⟩ := filled_of_sent (ih c) hat.stored hc
      obtain ⟨m, hm, hbytes⟩ := granted_reach hreach ((isPrimary_iff hreach i).mp hprimary) hp
      cases m with
      | prePrepare m =>
        obtain rfl := hash_prePrepare_inj hbytes
        obtain ⟨q, hq, -⟩ := hproposes.signed _ hm
        rw [((ih c).replica.slot _ p hp).1, hat.opNum, hnone] at hq
        cases hq
      | vote phase' v => exact prePrepare_bytes_ne_vote _ v hbytes.symm
    · exact sent_of_sign hjob ((ih i).jobs phase v (Node.mem_of_finishes hjob)) hparams.1
    · exact (sent_of_verify henabled hjob hvalid).step i input

/-! ## Agreement -/

theorem executes_reach (h : (systemMachine A cfg).Reach Matching sys) (i : cfg.Correct) : (sys i).Executes := by
  refine h.invariant (I := fun sys => ∀ i, (sys i).Executes) ?_ ?_ i
  · rintro _ rfl i
    exact ⟨fun k hpos hk => absurd (hpos.trans hk) (by simp [Node.new, Replica.new]), fun _ _ _ => rfl⟩
  · rintro sys ⟨i, input⟩ _ hreach ih - ⟨henabled, rfl⟩ j
    by_cases hj : j = i
    · subst hj
      rw [System.step_self]
      have hc := (agreed_reach hreach j).replica
      exact (ih j).step henabled.running fun k hk => (hc.prepared k (hc.committed k hk).1).1
    · rw [System.step_of_ne hj]
      exact ih j

/-- Batches in the logs with one digest are one batch: SHA-256 has no collision on them. -/
def CollisionFree (sys : System A cfg) : Prop :=
  ∀ i j k l, cfg.scheme.digest ((sys i).replica.entry k).requests = cfg.scheme.digest ((sys j).replica.entry l).requests →
    ((sys i).replica.entry k).requests = ((sys j).replica.entry l).requests

theorem card_ids_le (n : Nat) : ((Finset.range n).image UInt8.ofNat).card ≤ n :=
  Finset.card_image_le.trans_eq (Finset.card_range n)

theorem mem_ids {n : Nat} {i : UInt8} (h : i.toNat < n) : i ∈ (Finset.range n).image UInt8.ofNat :=
  Finset.mem_image.mpr ⟨i.toNat, Finset.mem_range.mpr h, UInt8.ofNat_toNat ..⟩

/-- In the runs whose inserted votes match their slots, two replicas that are not
Byzantine execute the same batch for every op number both have committed. -/
theorem agreement (h : (systemMachine A cfg).Reach Matching sys) (hcollision : CollisionFree sys)
    (i j : cfg.Correct) (k : Nat) (hpos : 1 ≤ k) (hi : k ≤ (sys i).replica.commitNum)
    (hj : k ≤ (sys j).replica.commitNum) : executedAt k (sys i).history = executedAt k (sys j).history := by
  -- The senders of a quorum of commits, and the pre-prepare of its slot.
  have hquorum : ∀ i : cfg.Correct, k ≤ (sys i).replica.commitNum →
      ∃ p, ∃ q : Finset UInt8, ((sys i).replica.entry k).prePrepare = some p ∧
        (∀ id ∈ q, id.toNat < cfg.numReplica) ∧ cfg.numReplica - cfg.numFaulty ≤ q.card ∧
        ∀ c : cfg.Correct, c.1 ∈ q → ∃ p', ((sys c).replica.entry k).prePrepare = some p' ∧
          p'.inner.digest = p.inner.digest := by
    intro i hi
    have hc := (agreed_reach h i).replica
    obtain ⟨hprepares, hlen⟩ := hc.committed k ((executes_reach h i).done k hpos hi).2
    obtain ⟨p, hp⟩ := Option.ne_none_iff_exists'.mp (hc.prepared k hprepares).1
    have hparams := params_reach h i
    simp only [Replica.params, Prod.mk.injEq] at hparams
    refine ⟨p, (((sys i).replica.entry k).commits.map Prod.fst).toFinset, hp, fun id hid => ?_, ?_, fun c hcq => ?_⟩
    · obtain ⟨e, he, rfl⟩ := List.mem_map.mp (List.mem_toFinset.mp hid)
      have hat := hc.votes .commit k e he
      rw [hat.key, ← hparams.2.1]
      exact hat.known
    · have hcard : ((((sys i).replica.entry k).commits.map Prod.fst).toFinset).card = _ :=
        card_keys (hc.nodup .commit k)
      rw [hcard, ← hparams.2.1, ← hparams.2.2.1]
      exact hlen
    · obtain ⟨e, he, hce⟩ := List.mem_map.mp (List.mem_toFinset.mp hcq)
      have hat := hc.votes .commit k e he
      have hid : c.1 = e.2.inner.replicaId := hce.symm.trans hat.key
      obtain ⟨p', hp', hd⟩ := filled_of_sent (agreed_reach h c) hat.stored hid
      exact ⟨p', by rw [← hat.opNum]; exact hp', hd.symm.trans (hat.agrees p hp ⟨c, hid⟩)⟩
  obtain ⟨p, q, hp, hqall, hqlen, hq⟩ := hquorum i hi
  obtain ⟨p', q', hp', hqall', hqlen', hq'⟩ := hquorum j hj
  obtain ⟨c, hcq, hcq', hcorrect⟩ :=
    quorums_intersect (card_ids_le cfg.numReplica) cfg.few cfg.enough (fun id hid => mem_ids (hqall id hid))
      (fun id hid => mem_ids (hqall' id hid)) hqlen hqlen'
  have hknown : c.toNat < cfg.numReplica := hqall c hcq
  obtain ⟨pc, hpc, hd⟩ := hq ⟨c, hknown, hcorrect⟩ hcq
  obtain ⟨pc', hpc', hd'⟩ := hq' ⟨c, hknown, hcorrect⟩ hcq'
  obtain rfl : pc = pc' := Option.some.inj (hpc.symm.trans hpc')
  rw [((executes_reach h i).done k hpos hi).1, ((executes_reach h j).done k hpos hj).1]
  refine hcollision i j k k ?_
  rw [((agreed_reach h i).replica.slot k p hp).2.2, ((agreed_reach h j).replica.slot k p' hp').2.2, ← hd, ← hd']

end

end

/-! ## Runs of four replicas -/

theorem toy_correct (i : Config.toy.Correct) : i.1 = 1 ∨ i.1 = 2 ∨ i.1 = 3 := by
  obtain ⟨i, hlt, hne⟩ := i
  have hzero : i ≠ 0 := fun h => hne (Finset.mem_singleton.mpr h)
  have hfour : i.toNat < 4 := hlt
  simp only [← UInt8.toNat_inj, ne_eq, UInt8.toNat_ofNat] at *
  omega

/-- Two replicas execute a batch, and it is the same. -/
theorem agreement_one :
    ∃ (sys : System UInt8 Config.toy) (i j : Config.toy.Correct), i ≠ j ∧ executedAt 1 (sys i).history ≠ [] ∧
      executedAt 1 (sys i).history = executedAt 1 (sys j).history := by
  let requests : List (Request UInt8) := [⟨7, 9, 1, []⟩]
  let commit (id : Fin 4) : Verifiable Commit (Nat × Digest) :=
    signedBy id ⟨0, 1, Scheme.toy.digest requests, .ofNat id⟩
  let i : Config.toy.Correct := ⟨1, by decide⟩
  let j : Config.toy.Correct := ⟨2, by decide⟩
  let l : Config.toy.Correct := ⟨3, by decide⟩
  obtain ⟨sys, hreach, hi, hj, hexec, hlog⟩ := reach_of_exec Matching
    (batchRun requests ++ [(j, .recv (.vote .commit (commit 1))), (j, .complete 0),
      (j, .recv (.vote .commit (commit 0))), (j, .complete 0)])
    (fun sys => 1 ≤ (sys i).replica.commitNum ∧ 1 ≤ (sys j).replica.commitNum ∧
      executedAt 1 (sys i).history ≠ [] ∧
      ∀ m ∈ [i, j, l], ∀ entry ∈ (sys m).replica.log, entry.requests = [] ∨ entry.requests = requests)
    (by decide +kernel)
  have hbatch : ∀ m k, ((sys m).replica.entry k).requests = [] ∨ ((sys m).replica.entry k).requests = requests := by
    intro m k
    have hm : m ∈ [i, j, l] := by
      rcases toy_correct m with h | h | h
      · exact List.mem_of_getElem? (i := 0) (congrArg some (Subtype.ext h).symm)
      · exact List.mem_of_getElem? (i := 1) (congrArg some (Subtype.ext h).symm)
      · exact List.mem_of_getElem? (i := 2) (congrArg some (Subtype.ext h).symm)
    cases hk : (sys m).replica.log[k]? with
    | none => exact Or.inl (by rw [Replica.entry, hk]; rfl)
    | some entry =>
      rw [Replica.entry_of_getElem? hk]
      exact hlog m hm entry (List.mem_of_getElem? hk)
  have hne : Config.toy.scheme.digest ([] : List (Request UInt8)) ≠ Config.toy.scheme.digest requests := by
    decide +kernel
  refine ⟨sys, i, j, fun h => absurd (congrArg Subtype.val h) (by decide), hexec, agreement hreach (fun m m' k k' hd => ?_) i j 1 le_rfl hi hj⟩
  rcases hbatch m k with h | h <;> rcases hbatch m' k' with h' | h' <;> rw [h, h'] at hd ⊢
  · exact absurd hd hne
  · exact absurd hd.symm hne

/-- Replica `3` has a slot for op number 1 because of op number 2, takes
prepares and commits for it, and executes the empty batch, while replica `1`
executes the batch of the pre-prepare. -/
theorem disagreement :
    ∃ (sys : System UInt8 Config.toy) (i j : Config.toy.Correct),
      (systemMachine UInt8 Config.toy).Reach Machine.always sys ∧ 1 ≤ (sys i).replica.commitNum ∧
        1 ≤ (sys j).replica.commitNum ∧ executedAt 1 (sys i).history ≠ executedAt 1 (sys j).history := by
  let requests : List (Request UInt8) := [⟨7, 9, 1, []⟩]
  let digest := Scheme.toy.digest requests
  let prePrepare (opNum : UInt32) := signedBy 0 (PrePrepare.mk 0 opNum digest)
  let prepare (id : Fin 4) : Verifiable Prepare (Nat × Digest) := signedBy id ⟨0, 1, digest, .ofNat id⟩
  let commit (id : Fin 4) : Verifiable Commit (Nat × Digest) := signedBy id ⟨0, 1, digest, .ofNat id⟩
  let i : Config.toy.Correct := ⟨1, by decide⟩
  let j : Config.toy.Correct := ⟨3, by decide⟩
  obtain ⟨sys, hreach, hi, hj, hne⟩ := reach_of_exec Machine.always
    [(i, .recv (.prePrepare (prePrepare 1) requests)), (i, .complete 0), (i, .complete 0),
      (j, .recv (.prePrepare (prePrepare 2) requests)), (j, .complete 0),
      (j, .recv (.vote .prepare (prepare 0))), (j, .complete 1),
      (j, .recv (.vote .prepare (prepare 1))), (j, .complete 1), (j, .complete 1),
      (i, .recv (.vote .prepare (prepare 0))), (i, .complete 0), (i, .complete 0),
      (i, .recv (.vote .commit (commit 0))), (i, .complete 0), (i, .recv (.vote .commit (commit 3))), (i, .complete 0),
      (j, .recv (.vote .commit (commit 0))), (j, .complete 1), (j, .recv (.vote .commit (commit 1))), (j, .complete 1)]
    (fun sys => 1 ≤ (sys i).replica.commitNum ∧ 1 ≤ (sys j).replica.commitNum ∧
      executedAt 1 (sys i).history ≠ executedAt 1 (sys j).history) (by decide +kernel)
  exact ⟨sys, i, j, hreach, hi, hj, hne⟩

end Neatworks.Pbft
