import Neatworks.PbftSpec

/-!
# The pre-prepares of the primary

A primary that is not Byzantine gives each op number to one batch: it signs a
pre-prepare only for a slot of its log that is still free, and the one it signs
is the one that fills the slot.
-/

namespace Neatworks.Pbft

open Outcome

section
variable {S A σ : Type}

/-- The op number a job signs a pre-prepare for. -/
def Job.proposal : Job A σ → Option UInt32
  | .signPrePrepare _ opNum _ => some opNum
  | _ => none

def Job.onVote : Job A σ → Bool
  | .signVote .. | .verifyVote .. => true
  | .signPrePrepare .. | .verifyPrePrepare .. => false

structure Proposals (r : Replica S A σ) (jobs : List (Job A σ)) (signed : List SignedMessage) : Prop where
  primary : ∀ viewNum opNum requests, .signPrePrepare viewNum opNum requests ∈ jobs →
    r.isPrimary = true ∧ viewNum = r.viewNum ∧ opNum.toNat ≤ r.opNum ∧ (r.entry opNum.toNat).prePrepare = none
  nodup : (jobs.filterMap Job.proposal).Nodup
  filled : r.isPrimary = true → ∀ k, (r.entry k).prePrepare ≠ none → k ≤ r.opNum
  signed : ∀ m, .prePrepare m ∈ signed → ∃ p, (r.entry m.opNum.toNat).prePrepare = some p ∧ p.inner = m
  verify : ∀ i p requests, .verifyPrePrepare i p requests ∈ jobs →
    i = r.viewNum.toNat % r.numReplica ∧ p.inner.viewNum = r.viewNum

theorem Replica.isPrimary_congr {r r' : Replica S A σ} (h : r'.params = r.params) : r'.isPrimary = r.isPrimary := by
  simp only [Replica.params, Prod.mk.injEq] at h
  rw [Replica.isPrimary, Replica.isPrimary, h.1, h.2.1, h.2.2.2]

theorem Replica.viewNum_congr {r r' : Replica S A σ} (h : r'.params = r.params) : r'.viewNum = r.viewNum := by
  simp only [Replica.params, Prod.mk.injEq] at h
  exact h.2.2.2

namespace Proposals

section
variable {r s : Replica S A σ} {jobs l : List (Job A σ)} {signed : List SignedMessage}

theorem congr (h : Proposals r jobs signed) (hparams : s.params = r.params) (hop : s.opNum = r.opNum)
    (hslot : ∀ k, (s.entry k).prePrepare = (r.entry k).prePrepare) (hl : ∀ job ∈ l, job.onVote = true) :
    Proposals s (jobs ++ l) signed where
  primary viewNum opNum requests hmem := by
    rw [Replica.isPrimary_congr hparams, Replica.viewNum_congr hparams, hop, hslot]
    refine h.primary viewNum opNum requests ((List.mem_append.mp hmem).resolve_right fun hmem => ?_)
    cases hl _ hmem
  nodup := by
    have : l.filterMap Job.proposal = [] := by
      rw [List.filterMap_eq_nil_iff]
      intro job hjob
      cases job with
      | signPrePrepare _ _ _ => cases hl _ hjob
      | _ => rfl
    rw [List.filterMap_append, this, List.append_nil]
    exact h.nodup
  filled hp k hk := by
    rw [hop]
    rw [Replica.isPrimary_congr hparams] at hp
    exact h.filled hp k (by rwa [hslot] at hk)
  signed m hm := by
    rw [hslot]
    exact h.signed m hm
  verify i p requests hmem := by
    simp only [Replica.params, Prod.mk.injEq] at hparams
    rw [hparams.2.1, hparams.2.2.2]
    refine h.verify i p requests ((List.mem_append.mp hmem).resolve_right fun hmem => ?_)
    cases hl _ hmem

theorem same (h : Proposals r jobs signed) : Proposals r (jobs ++ []) signed :=
  h.congr rfl rfl (fun _ => rfl) (by simp)

theorem sublist (h : Proposals r jobs signed) {jobs' : List (Job A σ)} (hsub : jobs'.Sublist jobs) :
    Proposals r jobs' signed where
  primary viewNum opNum requests hmem := h.primary viewNum opNum requests (hsub.subset hmem)
  nodup := h.nodup.sublist (hsub.filterMap _)
  filled := h.filled
  signed := h.signed
  verify i p requests hmem := h.verify i p requests (hsub.subset hmem)

theorem signVotes (h : Proposals r jobs signed) {l : List SignedMessage} (hl : ∀ m, .prePrepare m ∉ l) :
    Proposals r jobs (signed ++ l) where
  primary := h.primary
  nodup := h.nodup
  filled := h.filled
  signed m hm := h.signed m ((List.mem_append.mp hm).resolve_right (hl m))
  verify := h.verify

theorem closeBatch (h : Proposals r jobs signed) :
    r.closeBatch.Sat (fun r' es => Proposals r' (jobs ++ submitted es) signed) fun _ => True := by
  refine Replica.closeBatch_sat (fun hp _ hlt => ?_) trivial
  have hk : (UInt32.ofNat (r.opNum + 1)).toNat = r.opNum + 1 := UInt32.toNat_ofNat_of_lt' hlt
  have hfree : (r.entry (r.opNum + 1)).prePrepare = none := by
    by_contra hne
    have := h.filled hp _ hne
    omega
  constructor
  case primary =>
    intro viewNum opNum requests hmem
    rcases List.mem_append.mp hmem with hmem | hmem
    · obtain ⟨hp, hv, hle, hnone⟩ := h.primary _ _ _ hmem
      exact ⟨hp, hv, Nat.le_succ_of_le hle, hnone⟩
    · cases List.mem_singleton.mp hmem
      rw [hk]
      exact ⟨hp, rfl, le_rfl, hfree⟩
  case nodup =>
    rw [List.filterMap_append]
    refine List.Nodup.append h.nodup (by simp [Job.proposal]) fun k hk₁ hk₂ => ?_
    obtain ⟨job, hjob, hjk⟩ := List.mem_filterMap.mp hk₁
    cases job with
    | signPrePrepare viewNum opNum requests =>
      cases hjk
      simp only [submitted_submit, submitted_nil, List.filterMap_cons, Job.proposal, List.filterMap_nil,
        List.mem_singleton] at hk₂
      have := (h.primary _ _ _ hjob).2.2.1
      rw [hk₂, hk] at this
      omega
    | _ => cases hjk
  case filled =>
    intro hp k hne
    exact Nat.le_succ_of_le (h.filled hp k hne)
  case signed => exact h.signed
  case verify =>
    intro i p requests hmem
    rcases List.mem_append.mp hmem with hmem | hmem
    · exact h.verify i p requests hmem
    · cases List.mem_singleton.mp hmem

theorem fillOwn (h : Proposals r jobs signed) {jobs' : List (Job A σ)} {p : Verifiable PrePrepare σ}
    {requests : List (Request A)} (hperm : (.signPrePrepare p.inner.viewNum p.inner.opNum requests :: jobs').Perm jobs) :
    Proposals ((r.reserve p.inner.opNum.toNat).fill p requests) jobs' (signed ++ [.prePrepare p.inner]) := by
  have hsub : jobs' ⊆ jobs := fun job hjob => hperm.subset (List.mem_cons_of_mem _ hjob)
  obtain ⟨hp, -, hle, hnone⟩ := h.primary _ _ _ (hperm.subset List.mem_cons_self)
  have hnodup := (hperm.filterMap Job.proposal).nodup_iff.mpr h.nodup
  rw [List.filterMap_cons_some (f := Job.proposal) rfl, List.nodup_cons] at hnodup
  have hself : (((r.reserve p.inner.opNum.toNat).fill p requests).entry p.inner.opNum.toNat).prePrepare = some p := by
    rw [Replica.entry_fill_self (Replica.lt_length_reserve _)]
  have hother : ∀ k, k ≠ p.inner.opNum.toNat →
      ((r.reserve p.inner.opNum.toNat).fill p requests).entry k = r.entry k := by
    intro k hk
    rw [Replica.entry_fill_of_ne hk, Replica.entry_reserve]
  constructor
  case primary =>
    intro viewNum opNum reqs hmem
    have hne : opNum.toNat ≠ p.inner.opNum.toNat := by
      intro heq
      rw [UInt32.toNat_inj] at heq
      subst heq
      exact hnodup.1 (List.mem_filterMap.mpr ⟨_, hmem, rfl⟩)
    obtain ⟨hp', hv, hle', hnone'⟩ := h.primary _ _ _ (hsub hmem)
    rw [hother _ hne, Replica.isPrimary_congr (r := r) (by simp), Replica.viewNum_congr (r := r) (by simp)]
    exact ⟨hp', hv, by simpa [Replica.fill] using hle', hnone'⟩
  case nodup => exact hnodup.2
  case filled =>
    intro _ k hne
    have hop : ((r.reserve p.inner.opNum.toNat).fill p requests).opNum = r.opNum := by simp [Replica.fill]
    rw [hop]
    by_cases hk : k = p.inner.opNum.toNat
    · rw [hk]
      exact hle
    · rw [hother k hk] at hne
      exact h.filled hp k hne
  case signed =>
    intro m hm
    rcases List.mem_append.mp hm with hm | hm
    · obtain ⟨q, hq, rfl⟩ := h.signed m hm
      refine ⟨q, ?_, rfl⟩
      rw [hother _ fun heq => ?_]
      · exact hq
      · rw [heq, hnone] at hq
        cases hq
    · cases List.mem_singleton.mp hm
      exact ⟨p, hself, rfl⟩
  case verify =>
    intro i q reqs hmem
    rw [Replica.viewNum_congr (r := r) (by simp)]
    obtain ⟨hi, hv⟩ := h.verify i q reqs (hsub hmem)
    exact ⟨by simpa [Replica.fill] using hi, hv⟩

theorem fillVerified (h : Proposals r jobs signed) {p : Verifiable PrePrepare σ} {requests : List (Request A)}
    (hbackup : r.isPrimary = false) (hnone : (r.entry p.inner.opNum.toNat).prePrepare = none)
    (hl : ∀ job ∈ l, job.onVote = true) :
    Proposals (((r.reserve p.inner.opNum.toNat).fill p requests).retainDigest p.inner.opNum p.inner.digest)
      (jobs ++ l) signed := by
  have hparams : (((r.reserve p.inner.opNum.toNat).fill p requests).retainDigest p.inner.opNum
      p.inner.digest).params = r.params := by simp
  have hsame := h.congr (s := r) rfl rfl (fun _ => rfl) hl
  constructor
  case primary =>
    intro viewNum opNum reqs hmem
    have := (hsame.primary _ _ _ hmem).1
    rw [hbackup] at this
    cases this
  case nodup => exact hsame.nodup
  case filled =>
    intro hp
    rw [Replica.isPrimary_congr hparams, hbackup] at hp
    cases hp
  case signed =>
    intro m hm
    obtain ⟨q, hq, rfl⟩ := h.signed m hm
    refine ⟨q, ?_, rfl⟩
    rw [Replica.entry_retainDigest, Replica.entry_fill_of_ne fun heq => ?_, Replica.entry_reserve]
    · exact hq
    · rw [heq, hnone] at hq
      cases hq
  case verify =>
    intro i q reqs hmem
    simp only [Replica.params, Prod.mk.injEq] at hparams
    rw [hparams.2.1, hparams.2.2.2]
    exact hsame.verify i q reqs hmem

section
variable [App S]

theorem insertVote (h : Proposals r jobs signed) (phase : Phase) (vote : Verifiable (Vote phase) σ) :
    (r.insertVote phase vote).Sat (fun r' es => Proposals r' (jobs ++ submitted es) signed) fun _ => True := by
  have hrecord : ∀ {phase : Phase} (vote : Verifiable (Vote phase) σ), Proposals (r.record phase vote) (jobs ++ []) signed :=
    fun vote => h.congr (by simp) (by simp [Replica.record]) (by simp) (by simp)
  have hclose : ∀ {phase : Phase} (vote : Verifiable (Vote phase) σ) {l : List (Job A σ)},
      (∀ job ∈ l, job.onVote = true) → Proposals
        ((r.record phase vote).closeQuorum phase vote.inner.opNum (r.quorumWith phase vote)) (jobs ++ l) signed := by
    intro phase vote l hl
    refine h.congr (by simp) (by simp [Replica.record, Replica.closeQuorum]) (fun k => ?_) hl
    rw [Replica.entry_closeQuorum_eq (f := LogEntry.prePrepare) (by intro e vs; cases phase <;> rfl),
      Replica.entry_record]
  cases phase with
  | prepare => exact Replica.insertPrepare_sat (hrecord vote) (fun _ _ _ => hclose vote (by simp [Job.onVote])) trivial
  | commit =>
    refine Replica.insertCommit_sat (hrecord vote) (fun _ _ _ _ => ?_) trivial
    refine Replica.advance_sat (R := fun _ => True) (I := fun r' es => Proposals r' (jobs ++ submitted es) signed)
      (fun _ _ _ => trivial) (fun entry r' es h' _ _ _ => ?_) (fun r' es h' => ?_) [] (hclose vote (by simp))
    · refine Replica.executeRequests_sat (R := fun _ => True)
        (I := fun _ r' es => Proposals r' (jobs ++ submitted es) signed) (fun _ _ _ _ _ _ => trivial)
        (fun _ _ _ _ _ _ h _ => ?_) entry.requests es ?_
      · simpa using h.congr (s := Replica.executed ..) (l := []) rfl rfl (fun _ => rfl) (by simp)
      · simpa using h'.congr (s := { r' with commitNum := r'.commitNum + 1 }) (l := []) rfl rfl (fun _ => rfl) (by simp)
    · exact h'.closeBatch.mono (fun _ _ h => by simpa using h) fun _ _ => trivial

end

end

end Proposals

/-! ## Steps -/

def Node.Proposes (node : Node S A σ) : Prop := Proposals node.replica node.jobs node.signed

theorem Node.Proposes.apply {node : Node S A σ} (h : node.Proposes) {out : Handler A σ (Replica S A σ)}
    (hout : out.Sat (fun r es => Proposals r (node.jobs ++ submitted es) node.signed) fun _ => True) :
    (node.apply out).Proposes :=
  Node.apply_sat (J := Node.Proposes) (hout.mono (fun _ _ h => h) fun _ _ _ => h)

section
variable [App S] {node : Node S A σ}

theorem Node.Proposes.finishVote (h : node.Proposes) {phase : Phase} (vote : Verifiable (Vote phase) σ)
    {l : List SignedMessage} (hl : ∀ m, .prePrepare m ∉ l) {event : Event A σ}
    (hevent : event = .signedVote phase vote ∨ event = .verifiedVote phase vote) :
    ({ node with signed := node.signed ++ l }.apply (node.replica.onEvent event)).Proposes := by
  have h' : Node.Proposes { node with signed := node.signed ++ l } := Proposals.signVotes h hl
  refine h'.apply ?_
  have hkeep : Proposals node.replica (node.jobs ++ []) (node.signed ++ l) := Proposals.same h'
  rcases hevent with rfl | rfl
  · refine Replica.onSignedVote_sat (fun _ => hkeep) hkeep (fun _ _ => ?_) trivial
    exact (Proposals.insertVote h' phase vote).mono (fun _ _ hr => by simpa using hr) fun _ _ => trivial
  · refine Replica.onVerifiedVote_sat (fun _ => hkeep) fun _ => ?_
    refine (Proposals.insertVote h' phase vote).mono (fun r es hr => ⟨fun _ => hr, fun votes _ => ?_⟩) fun _ _ => trivial
    refine Replica.drainPending_sat votes ?_ (fun popped v rest _ _ _ => ?_) trivial
    · simpa using hr.congr (s := r.setPending phase vote.inner.opNum none) (l := []) (by simp) (by simp) (by simp)
        (by simp)
    · have := hr.congr (s := r.setPending phase vote.inner.opNum (some rest)) (l := [.verifyVote phase v]) (by simp)
        (by simp) (by simp) (by simp [Job.onVote])
      simpa using this

variable [DigestHash A] {crypto : Crypto σ} {input : Input A σ}

/-- The hypothesis is what unforgeability gives for the primary: a pre-prepare
it finds valid is one it has signed, so the slot is taken. -/
theorem Node.Proposes.step (h : node.Proposes)
    (hown : ∀ i p requests, node.finishes input = some (.verifyPrePrepare i p requests) →
      crypto.verify i p = true → node.replica.isPrimary = true →
      (node.replica.entry p.inner.opNum.toNat).prePrepare ≠ none) :
    (node.step crypto input).Proposes := by
  have hsame : Proposals node.replica (node.jobs ++ []) node.signed := Proposals.same h
  refine Node.step_sat (J := Node.Proposes) (fun message _ => h.apply ?_) (fun _ => h) fun n job hinput hjob => ?_
  · cases message with
    | request request =>
      have hqueue : Proposals (node.replica.enqueue request) (node.jobs ++ []) node.signed :=
        Proposals.congr h rfl rfl (fun _ => rfl) (by simp)
      refine Replica.onRecvRequest_sat hsame (fun _ _ => hsame) (fun _ _ => ⟨hqueue, ?_⟩) trivial
      exact hqueue.closeBatch.mono (fun _ _ h => by simpa using h) fun _ _ => trivial
    | prePrepare prePrepare requests =>
      refine Replica.onRecvPrePrepare_sat hsame (fun hv _ => ?_) trivial
      refine ⟨fun w k reqs hmem => ?_, ?_, h.filled, h.signed, fun i p reqs hmem => ?_⟩
      · rcases List.mem_append.mp hmem with hmem | hmem
        · exact h.primary w k reqs hmem
        · cases List.mem_singleton.mp hmem
      · rw [List.filterMap_append]
        exact (List.append_nil _).symm ▸ h.nodup
      · rcases List.mem_append.mp hmem with hmem | hmem
        · exact h.verify i p reqs hmem
        · cases List.mem_singleton.mp hmem
          exact ⟨by rw [hv], hv⟩
    | vote phase vote =>
      exact Replica.onRecvVote_sat
        (fun _ _ => Proposals.congr h (by simp) (by simp) (by simp) (by simp)) hsame
        (fun _ _ _ => Proposals.congr h (by simp) (by simp) (by simp) (by simp [Job.onVote])) trivial
  · subst hinput
    have hleft : Node.Proposes { node with jobs := node.jobs.eraseIdx n } :=
      Proposals.sublist h (List.eraseIdx_sublist _ _)
    cases job with
    | signPrePrepare viewNum opNum requests =>
      obtain ⟨-, hv, -, hnone⟩ := h.primary _ _ _ (List.mem_of_getElem? hjob)
      refine Node.apply_sat (J := Node.Proposes) (Replica.onSignedPrePrepare_sat (fun hne => absurd hv hne)
        (fun _ _ => ?_) fun _ hne => absurd hnone hne)
      have hfill := Proposals.fillOwn h (p := crypto.sign ⟨viewNum, opNum, crypto.scheme.digest requests⟩)
        (Node.jobs_perm hjob)
      rw [← List.append_nil (node.jobs.eraseIdx n)] at hfill
      exact hfill
    | verifyPrePrepare i p requests =>
      simp only [Node.finish, Job.run]
      by_cases hvalid : crypto.scheme.digest requests = p.inner.digest ∧ crypto.verify i p = true
      · rw [if_pos hvalid]
        have hsigned : Node.Proposes { node with jobs := node.jobs.eraseIdx n, signed := node.signed ++ [] } :=
          Proposals.signVotes hleft (by simp)
        refine hsigned.apply (Replica.onVerifiedPrePrepare_sat (Proposals.same hsigned) ?_ fun _ hnone => ?_)
        · exact Proposals.congr hsigned (by simp) (by simp) (by simp) (by simp)
        · refine Proposals.fillVerified hsigned ?_ hnone (by simp [Job.onVote])
          by_contra hp
          exact hown i p requests hjob hvalid.2 (by simpa using hp) hnone
      · rw [if_neg hvalid]
        exact Proposals.signVotes hleft (by simp [Job.signs])
    | signVote phase vote =>
      exact hleft.finishVote (crypto.sign vote) (by simp [Job.signs]) (Or.inl rfl)
    | verifyVote phase vote =>
      simp only [Node.finish, Job.run]
      by_cases hvalid : crypto.verify vote.inner.replicaId.toNat vote = true
      · rw [if_pos hvalid]
        exact hleft.finishVote (l := []) vote (by simp) (Or.inr rfl)
      · rw [if_neg hvalid]
        exact Proposals.signVotes (l := []) hleft (by simp)

end

/-! ## Runs of the system -/

section
variable [App S] [DigestHash A] {cfg : Config S σ} {sys : System A cfg}

theorem System.step_self (i : cfg.Correct) (input : Input A σ) :
    sys.step i input i = (sys i).step (cfg.crypto i) input := Function.update_self ..

theorem System.step_of_ne {i j : cfg.Correct} (h : j ≠ i) (input : Input A σ) : sys.step i input j = sys j :=
  Function.update_of_ne h ..

theorem params_reach {C : System A cfg → cfg.Correct × Input A σ → Prop} (h : (systemMachine A cfg).Reach C sys)
    (i : cfg.Correct) : (sys i).replica.params = (i.1, cfg.numReplica, cfg.numFaulty, 0) := by
  refine h.invariant (I := fun sys => ∀ i, (sys i).replica.params = (i.1, cfg.numReplica, cfg.numFaulty, 0)) ?_ ?_ i
  · rintro _ rfl i
    rfl
  · rintro sys ⟨i, input⟩ _ - ih - ⟨-, rfl⟩ j
    by_cases hj : j = i
    · subst hj
      rw [System.step_self, Node.step_params]
      exact ih j
    · rw [System.step_of_ne hj]
      exact ih j

theorem isPrimary_iff {C : System A cfg → cfg.Correct × Input A σ → Prop} (h : (systemMachine A cfg).Reach C sys)
    (i : cfg.Correct) : (sys i).replica.isPrimary = true ↔ i.1.toNat = 0 := by
  have hparams := params_reach h i
  simp only [Replica.params, Prod.mk.injEq] at hparams
  obtain ⟨hid, hn, -, hview⟩ := hparams
  rw [Replica.isPrimary, hid, hn, hview, Nat.mod_eq_of_lt i.2.1]
  simp

theorem filled_of_verified {C : System A cfg → cfg.Correct × Input A σ → Prop} (h : (systemMachine A cfg).Reach C sys)
    {i : cfg.Correct} {input : Input A σ} (hproposes : (sys i).Proposes) (henabled : Enabled sys i input) {k : Nat}
    {p : Verifiable PrePrepare σ} {requests : List (Request A)}
    (hjob : (sys i).finishes input = some (.verifyPrePrepare k p requests))
    (hvalid : (cfg.crypto i).verify k p = true) (hprimary : (sys i).replica.isPrimary = true) :
    ((sys i).replica.entry p.inner.opNum.toNat).prePrepare ≠ none := by
  have hmem : Job.verifyPrePrepare k p requests ∈ (sys i).jobs := Node.mem_of_finishes hjob
  have hparams := params_reach h i
  simp only [Replica.params, Prod.mk.injEq] at hparams
  have hk : i.1.toNat = k := by
    rw [(isPrimary_iff h i).mp hprimary, (hproposes.verify k p requests hmem).1, hparams.2.2.2]
    exact (Nat.zero_mod _).symm
  obtain ⟨m, hm, hbytes⟩ := henabled.unforged _ hjob i hk hvalid
  cases m with
  | prePrepare m =>
    obtain rfl := hash_prePrepare_inj hbytes
    obtain ⟨q, hq, -⟩ := hproposes.signed _ hm
    rw [hq]
    exact Option.some_ne_none q
  | vote phase v => exact absurd hbytes.symm (prePrepare_bytes_ne_vote _ v)

theorem proposes_reach {C : System A cfg → cfg.Correct × Input A σ → Prop} (h : (systemMachine A cfg).Reach C sys)
    (i : cfg.Correct) : (sys i).Proposes := by
  refine h.invariant (I := fun sys => ∀ i, (sys i).Proposes) ?_ ?_ i
  · rintro _ rfl i
    exact ⟨fun _ _ _ h => absurd h List.not_mem_nil, List.nodup_nil, fun _ k hk => absurd rfl hk,
      fun _ h => absurd h List.not_mem_nil, fun _ _ _ h => absurd h List.not_mem_nil⟩
  · rintro sys ⟨i, input⟩ _ hreach ih - ⟨henabled, rfl⟩ j
    by_cases hj : j = i
    · subst hj
      rw [System.step_self]
      exact (ih j).step fun k p requests hjob hvalid hprimary =>
        filled_of_verified hreach (ih j) henabled hjob hvalid hprimary
    · rw [System.step_of_ne hj]
      exact ih j

end

end

end Neatworks.Pbft
