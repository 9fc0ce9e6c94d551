import Neatworks.PbftCertificate

/-!
# Certificate validity

The invariant of the certificates over the runs of a system, and from it the
validity of the prepares, the commits and the signed commits of a replica.
-/

namespace Neatworks.Pbft

section
variable {S A σ : Type} {cfg : Config S σ} {sys : System A cfg}

/-- The sender of the vote, when it is not Byzantine, has signed it. -/
def Sent (sys : System A cfg) {phase : Phase} (v : Vote phase) : Prop :=
  ∀ j : cfg.Correct, j.1 = v.replicaId → HasSigned sys j (DigestHash.hash v)

theorem sent_of_verify {i : cfg.Correct} {input : Input A σ} {phase : Phase} {vote : Verifiable (Vote phase) σ}
    (henabled : Enabled sys i input) (hjob : (sys i).finishes input = some (.verifyVote phase vote))
    (hvalid : (cfg.crypto i).verify vote.inner.replicaId.toNat vote = true) : Sent sys vote.inner :=
  fun j hj => henabled.unforged _ hjob j (congrArg UInt8.toNat hj) hvalid

/-- A valid vote that the job has verified matches its slot. -/
def Job.Matches (crypto : Crypto σ) (r : Replica S A σ) : Job A σ → Prop
  | .verifyVote phase vote => crypto.verify vote.inner.replicaId.toNat vote = true → r.Matched phase vote
  | .signPrePrepare .. | .verifyPrePrepare .. | .signVote .. => True

def Matching (sys : System A cfg) (label : cfg.Correct × Input A σ) : Prop :=
  ∀ job, (sys label.1).finishes label.2 = some job → job.Matches (cfg.crypto label.1) (sys label.1).replica

section
variable [DigestHash A]

/-- What the handlers do not check: that a vote they insert matches its slot,
that a `Prepare` is not the primary's, and, when the primary logs its own
pre-prepare, that the votes which came before are for it. -/
def Job.Checked (crypto : Crypto σ) (r : Replica S A σ) : Job A σ → Prop
  | .verifyVote phase vote => crypto.verify vote.inner.replicaId.toNat vote = true → r.Matched phase vote ∧
      (phase = .prepare → vote.inner.replicaId.toNat ≠ vote.inner.viewNum.toNat % crypto.numReplica)
  | .signPrePrepare _ opNum requests => ∀ phase, ∀ t ∈ r.quorums phase opNum, ∀ e ∈ t.entries,
      e.2.inner.digest = crypto.scheme.digest requests
  | .verifyPrePrepare .. | .signVote .. => True

def Checked (sys : System A cfg) (label : cfg.Correct × Input A σ) : Prop :=
  ∀ job, (sys label.1).finishes label.2 = some job → job.Checked (cfg.crypto label.1) (sys label.1).replica

theorem Checked.matching {label : cfg.Correct × Input A σ} (h : Checked sys label) : Matching sys label := by
  intro job hjob
  cases job with
  | verifyVote phase vote => exact fun hvalid => (h _ hjob hvalid).1
  | _ => trivial

instance {crypto : Crypto σ} {r : Replica S A σ} : DecidablePred (Job.Checked (A := A) crypto r)
  | .verifyVote .. => inferInstanceAs (Decidable (_ → _))
  | .signPrePrepare _ opNum requests => decidable_of_iff
      ((∀ t ∈ r.quorums .prepare opNum, ∀ e ∈ t.entries, e.2.inner.digest = crypto.scheme.digest requests) ∧
        ∀ t ∈ r.quorums .commit opNum, ∀ e ∈ t.entries, e.2.inner.digest = crypto.scheme.digest requests)
      ⟨fun h phase => by cases phase; exacts [h.1, h.2], fun h => ⟨h .prepare, h .commit⟩⟩
  | .verifyPrePrepare .. | .signVote .. => instDecidableTrue

instance {crypto : Crypto σ} {r : Replica S A σ} : DecidablePred (Job.Matches (A := A) crypto r)
  | .verifyVote .. => inferInstanceAs (Decidable (_ → _))
  | .signPrePrepare .. | .verifyPrePrepare .. | .signVote .. => instDecidableTrue

instance {label : cfg.Correct × Input A σ} : Decidable (Matching sys label) :=
  inferInstanceAs (Decidable (∀ job, _ = some job → _))

instance {label : cfg.Correct × Input A σ} : Decidable (Checked sys label) :=
  inferInstanceAs (Decidable (∀ job, _ = some job → _))

theorem certifies_init (π : Policy) (i : cfg.Correct) :
    (Node.new i.1 cfg.app cfg.numReplica cfg.numFaulty : Node S A σ).Certifies π cfg.scheme := by
  refine ⟨⟨i.2.1, fun _ _ h => ?_, fun phase _ _ h => ?_, fun phase _ _ h => ?_, fun phase _ => ?_, fun _ h => ?_,
    fun _ h => ?_⟩, fun _ _ h => absurd h List.not_mem_nil, fun _ _ h => absurd h List.not_mem_nil⟩
  · cases h
  · cases phase <;> cases h
  · cases phase <;> cases h
  · cases phase <;> exact List.nodup_nil
  · exact absurd rfl h
  · exact absurd rfl h

section
variable [App S]

theorem HasSigned.step {i j : cfg.Correct} {bytes : List UInt8} (h : HasSigned sys j bytes) (input : Input A σ) :
    HasSigned (sys.step i input) j bytes := by
  obtain ⟨m, hm, hbytes⟩ := h
  refine ⟨m, ?_, hbytes⟩
  by_cases hj : j = i
  · subst hj
    rw [System.step_self, Node.step_signed]
    exact Or.inl hm
  · rw [System.step_of_ne hj]
    exact hm

theorem Sent.step {phase : Phase} {v : Vote phase} (h : Sent sys v) (i : cfg.Correct) (input : Input A σ) :
    Sent (sys.step i input) v :=
  fun j hj => (h j hj).step input

theorem certifies_step {π π' : Policy} {C : System A cfg → cfg.Correct × Input A σ → Prop}
    (hreach : (systemMachine A cfg).Reach C sys) (ih : ∀ j, (sys j).Certifies π cfg.scheme) {i : cfg.Correct}
    {input : Input A σ} (henabled : Enabled sys i input) (hmatching : Matching sys (i, input))
    (hs : ∀ phase v, π.stored phase v → π'.stored phase v)
    (ha : ∀ phase p v, π.stored phase v → π.agrees phase p v → π'.agrees phase p v)
    (hlog : ∀ viewNum opNum requests, (sys i).finishes input = some (.signPrePrepare viewNum opNum requests) →
      ∀ phase t, (sys i).replica.quorums phase opNum = some t → ∀ e ∈ t.entries,
        π'.agrees phase ⟨viewNum, opNum, cfg.scheme.digest requests⟩ e.2.inner)
    (hsign : ∀ phase v, (sys i).finishes input = some (.signVote phase v) → π'.stored phase v)
    (hverify : ∀ phase vote, (sys i).finishes input = some (.verifyVote phase vote) →
      (cfg.crypto i).verify vote.inner.replicaId.toNat vote = true → π'.stored phase vote.inner) :
    ∀ j, (sys.step i input j).Certifies π' cfg.scheme := by
  intro j
  by_cases hj : j = i
  · subst hj
    rw [System.step_self]
    have hparams := params_reach hreach j
    simp only [Replica.params, Prod.mk.injEq] at hparams
    have hj : (sys j).Certifies π' (cfg.crypto j).scheme := (ih j).mono hs ha
    refine hj.step (proposes_reach hreach j) hparams.2.1
      (fun k p requests hjob hvalid hnone => ?_) hlog hsign fun phase vote hjob hvalid =>
        ⟨hverify phase vote hjob hvalid, hmatching _ hjob hvalid⟩
    by_contra hprimary
    exact filled_of_verified hreach (proposes_reach hreach j) henabled hjob hvalid (by simpa using hprimary) hnone
  · rw [System.step_of_ne hj]
    exact (ih j).mono hs ha

/-- The vote of a job that signs it is signed by the step that finishes the job. -/
theorem sent_of_sign {i : cfg.Correct} {input : Input A σ} {phase : Phase} {v : Vote phase}
    (hjob : (sys i).finishes input = some (.signVote phase v)) (hown : Own (sys i).replica phase v)
    (hid : (sys i).replica.id = i.1) : Sent (sys.step i input) v := by
  intro j hj
  obtain rfl : j = i := Subtype.ext (hj.trans (hown.replicaId.trans hid))
  refine ⟨.vote phase v, ?_, rfl⟩
  rw [System.step_self, Node.step_signed]
  exact Or.inr ⟨_, hjob, rfl⟩

/-! ## Valid certificates -/

/-- The votes are sent by those they name, the prepares not by the primary, and
all are for the digest of the pre-prepare. -/
def valid (sys : System A cfg) : Policy where
  stored phase v := Sent sys v ∧ (phase = .prepare → v.replicaId.toNat ≠ v.viewNum.toNat % cfg.numReplica)
  agrees _ p v := v.digest = p.digest
  of_digest h := h

theorem valid_reach (h : (systemMachine A cfg).Reach Checked sys) (i : cfg.Correct) :
    (sys i).Certifies (valid sys) cfg.scheme := by
  refine h.invariant (I := fun sys => ∀ i, (sys i).Certifies (valid sys) cfg.scheme) ?_ ?_ i
  · rintro _ rfl i
    exact certifies_init _ i
  · rintro sys ⟨i, input⟩ _ hreach ih hchecked ⟨henabled, rfl⟩
    have hparams := params_reach hreach i
    simp only [Replica.params, Prod.mk.injEq] at hparams
    refine certifies_step hreach ih henabled hchecked.matching (fun phase v hv => ⟨hv.1.step i input, hv.2⟩)
      (fun _ _ _ _ ha => ha) (fun _ _ _ hjob => hchecked _ hjob) (fun phase v hjob => ?_) (fun phase vote hjob hvalid => ?_)
    · have hown := (ih i).jobs phase v (Node.mem_of_finishes hjob)
      refine ⟨sent_of_sign hjob hown hparams.1, fun hphase heq => ?_⟩
      have hbackup := hown.backup hphase
      rw [hown.replicaId, hown.viewNum, hparams.1, hparams.2.2.2] at heq
      have := (isPrimary_iff hreach i).mpr (heq.trans (Nat.zero_mod _))
      rw [hbackup] at this
      cases this
    · refine ⟨(sent_of_verify henabled hjob hvalid).step i input, fun hphase => ?_⟩
      subst hphase
      exact (hchecked _ hjob hvalid).2 rfl

/-- The votes of a slot are from at least `needed` replicas, each of which has
sent the vote it is named for when it is not Byzantine. -/
def From (sys : System A cfg) {phase : Phase} (needed : Nat) (votes : List (UInt8 × Verifiable (Vote phase) σ)) :
    Prop :=
  (votes.map Prod.fst).Nodup ∧ needed ≤ votes.length ∧
    ∀ e ∈ votes, e.1 = e.2.inner.replicaId ∧ e.1.toNat < cfg.numReplica ∧ Sent sys e.2.inner

/-- In the runs whose steps are all checked, the certificates are valid. -/
theorem certificates_valid (h : (systemMachine A cfg).Reach Checked sys) (i : cfg.Correct) (k : Nat) :
    let entry := (sys i).replica.entry k
    (entry.prepares ≠ [] → ∃ p, entry.prePrepare = some p ∧
      From sys (cfg.numReplica - cfg.numFaulty - 1) entry.prepares ∧
      ∀ e ∈ entry.prepares, e.1.toNat ≠ p.inner.viewNum.toNat % cfg.numReplica ∧
        e.2.inner.viewNum = p.inner.viewNum ∧ e.2.inner.opNum.toNat = k ∧ e.2.inner.digest = p.inner.digest) ∧
    (entry.commits ≠ [] → entry.prepares ≠ [] ∧ From sys (cfg.numReplica - cfg.numFaulty) entry.commits ∧
      ∀ p, entry.prePrepare = some p → ∀ e ∈ entry.commits, e.2.inner.digest = p.inner.digest) ∧
    ∀ v, SignedMessage.vote .commit v ∈ (sys i).signed → v.opNum.toNat = k →
      ∃ p, entry.prePrepare = some p ∧ v.digest = p.inner.digest := by
  intro entry
  have hc := valid_reach h i
  have hparams := params_reach h i
  simp only [Replica.params, Prod.mk.injEq] at hparams
  obtain ⟨-, hn, hf, -⟩ := hparams
  have hfrom : ∀ phase needed, needed ≤ (entry.votes phase).length → From sys needed (entry.votes phase) := by
    refine fun phase needed hlen => ⟨hc.replica.nodup phase k, hlen, fun e he => ?_⟩
    have hat := hc.replica.votes phase k e he
    exact ⟨hat.key, by rw [hat.key, ← hn]; exact hat.known, hat.stored.1⟩
  refine ⟨fun hne => ?_, fun hne => ?_, ?_⟩
  · obtain ⟨hsome, hlen⟩ := hc.replica.prepared k hne
    obtain ⟨p, hp⟩ := Option.ne_none_iff_exists'.mp hsome
    refine ⟨p, hp, hfrom .prepare _ ?_, fun e he => ?_⟩
    · rw [hn, hf] at hlen
      exact Nat.sub_le_of_le_add hlen
    · have hat := hc.replica.votes .prepare k e he
      have hview := (hc.replica.slot k p hp).2.1
      refine ⟨?_, hat.viewNum.trans hview.symm, hat.opNum, hat.agrees p hp⟩
      rw [hat.key, hview, ← hat.viewNum]
      exact hat.stored.2 rfl
  · obtain ⟨hprepares, hlen⟩ := hc.replica.committed k hne
    rw [hn, hf] at hlen
    exact ⟨hprepares, hfrom .commit _ hlen, fun p hp e he => (hc.replica.votes .commit k e he).agrees p hp⟩
  · rintro v hv rfl
    exact (hc.signed .commit v hv).filled

end

end

end

/-! ## Runs of four replicas -/

/-- Replica `1` executes a batch, and its certificates for it are valid. -/
theorem certificates_valid_one :
    ∃ (sys : System UInt8 Config.toy) (i : Config.toy.Correct),
      let entry := (sys i).replica.entry 1
      entry.commits ≠ [] ∧ entry.prepares ≠ [] ∧ From sys 3 entry.commits ∧
        ∃ p, entry.prePrepare = some p ∧ From sys 2 entry.prepares ∧
          ∀ e ∈ entry.prepares, e.1.toNat ≠ p.inner.viewNum.toNat % 4 ∧ e.2.inner.digest = p.inner.digest := by
  let i : Config.toy.Correct := ⟨1, by decide⟩
  obtain ⟨sys, hreach, hc⟩ := reach_of_exec Checked (batchRun [⟨7, 9, 1, []⟩])
    (fun sys => ((sys i).replica.entry 1).commits ≠ []) (by decide +kernel)
  have hvalid := certificates_valid hreach i 1
  obtain ⟨hp, hfrom, -⟩ := hvalid.2.1 hc
  obtain ⟨p, hsome, hprepares, hall⟩ := hvalid.1 hp
  exact ⟨sys, i, hc, hp, hfrom, p, hsome, hprepares, fun e he => ⟨(hall e he).1, (hall e he).2.2.2⟩⟩

/-- A `Prepare` of the primary for another digest is with the worker when the
pre-prepare arrives. It is inserted, and its digest is signed. -/
theorem certificates_invalid :
    ∃ (sys : System UInt8 Config.toy) (i : Config.toy.Correct),
      (systemMachine UInt8 Config.toy).Reach Machine.always sys ∧
      ∃ p, ((sys i).replica.entry 1).prePrepare = some p ∧
        (∃ e ∈ ((sys i).replica.entry 1).prepares, e.2.inner.digest ≠ p.inner.digest) ∧
        ∃ v, SignedMessage.vote .commit v ∈ (sys i).signed ∧ v.opNum.toNat = 1 ∧ v.digest ≠ p.inner.digest := by
  let requests : List (Request UInt8) := [⟨7, 9, 1, []⟩]
  let other : Digest := Vector.replicate 32 5
  let prePrepare := signedBy 0 (PrePrepare.mk 0 1 (Scheme.toy.digest requests))
  let prepare : Verifiable Prepare (Nat × Digest) := signedBy 0 ⟨0, 1, other, 0⟩
  let i : Config.toy.Correct := ⟨1, by decide⟩
  have hother : other ≠ prePrepare.inner.digest := by decide +kernel
  obtain ⟨sys, hreach, hp, he, hv⟩ := reach_of_exec Machine.always
    [(i, .recv (.vote .prepare prepare)), (i, .recv (.prePrepare prePrepare requests)), (i, .complete 1),
      (i, .complete 1), (i, .complete 0), (i, .complete 0)]
    (fun sys => ((sys i).replica.entry 1).prePrepare = some prePrepare ∧
      (0, prepare) ∈ ((sys i).replica.entry 1).prepares ∧
      SignedMessage.vote .commit ⟨0, 1, other, 1⟩ ∈ (sys i).signed) (by decide +kernel)
  exact ⟨sys, i, hreach, prePrepare, hp, ⟨_, he, hother⟩, _, hv, rfl, hother⟩

end Neatworks.Pbft
