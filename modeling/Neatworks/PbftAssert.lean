import Neatworks.PbftCertificate
import Neatworks.PbftPending

/-!
# The assertions of a replica

The worker verifies one vote at a time for an op number, and a slot whose
quorum has closed takes no new one. So at most one vote comes after its quorum
has closed, and with `numFaulty` at least 1 one vote is no quorum.
-/

namespace Neatworks.Pbft

open Outcome

/-- No `assert!` has failed, and no index was past the log. -/
def Fail.Tolerable : Fail → Prop
  | .assert | .index => False
  | .todo | .execute | .overflow => True

section
variable {S A σ : Type}

/-! ## Why a handler may fail -/

namespace Replica

section
variable {self : Replica S A σ}

theorem addU32_post {ε : Type} {a b : Nat} {Q : Nat → List ε → Prop} (h : Q (a + b) []) :
    (addU32 a b : Outcome ε Fail Nat).Post Q Fail.Tolerable := by
  unfold addU32
  split
  · exact h
  · trivial

theorem subUsize_post {ε : Type} {a b : Nat} {Q : Nat → List ε → Prop} (h : Q (a - b) []) :
    (subUsize a b : Outcome ε Fail Nat).Post Q Fail.Tolerable := by
  unfold subUsize
  split
  · exact h
  · trivial

theorem closeBatch_post (hprimary : self.isPrimary = true) (hne : self.requests ≠ []) :
    self.closeBatch.Post (fun _ _ => True) Fail.Tolerable := by
  unfold closeBatch
  simp only [post_bind, post_assert]
  refine ⟨fun _ => ⟨fun _ => addU32_post trivial, fun hempty => absurd ?_ hempty⟩, fun hbackup => absurd hprimary hbackup⟩
  simpa using hne

theorem onRecvRequest_post (request : Request A) : (self.onRecvRequest request).Post (fun _ _ => True) Fail.Tolerable := by
  have haccept : (self.acceptRequest request).Post (fun _ _ => True) Fail.Tolerable := by
    unfold acceptRequest
    simp only [post_bind, post_assert]
    refine ⟨fun hprimary => addU32_post ?_, fun _ => trivial⟩
    split
    · refine closeBatch_post ?_ (by simp [enqueue])
      exact hprimary
    · trivial
  unfold onRecvRequest
  split
  · exact haccept
  · split
    · trivial
    · split
      · split <;> trivial
      · exact haccept

theorem onSignedPrePrepare_post {prePrepare : Verifiable PrePrepare σ} {requests : List (Request A)}
    (hfree : (self.entry prePrepare.inner.opNum.toNat).prePrepare = none) :
    (self.onSignedPrePrepare prePrepare requests).Post (fun _ _ => True) Fail.Tolerable := by
  unfold onSignedPrePrepare
  dsimp only
  split
  · trivial
  · simp only [post_bind, post_assert, entry_reserve]
    exact ⟨fun _ => trivial, fun hfilled => absurd (Option.isNone_iff_eq_none.mpr hfree) hfilled⟩

theorem onRecvPrePrepare_post (prePrepare : Verifiable PrePrepare σ) (requests : List (Request A)) :
    (self.onRecvPrePrepare prePrepare requests).Post (fun _ _ => True) Fail.Tolerable := by
  unfold onRecvPrePrepare
  split
  · simp only [post_bind, post_assert]
    exact ⟨fun _ => trivial, fun _ => trivial⟩
  · split <;> trivial

theorem onVerifiedPrePrepare_post (prePrepare : Verifiable PrePrepare σ) (requests : List (Request A)) :
    (self.onVerifiedPrePrepare prePrepare requests).Post (fun _ _ => True) Fail.Tolerable := by
  unfold onVerifiedPrePrepare
  dsimp only
  split
  · trivial
  · split <;> trivial

theorem insertPrepare_post {prepare : Verifiable Prepare σ}
    (hopen : self.numReplica - self.numFaulty ≤ (self.quorumWith .prepare prepare).len + 1 →
      (self.entry prepare.inner.opNum.toNat).prepares = []) :
    (self.insertPrepare prepare).Post (fun _ _ => True) Fail.Tolerable := by
  unfold insertPrepare
  simp only [post_bind]
  refine subUsize_post ?_
  split
  · trivial
  · next hlen =>
    split
    · trivial
    · next entry hentry =>
      have hempty : entry.prepares = [] := by
        have hslot : self.log[prepare.inner.opNum.toNat]? = some entry := by simpa [record] using hentry
        rw [← entry_of_getElem? hslot]
        exact hopen (by simpa [record] using hlen)
      simp only [post_bind, post_assert]
      exact ⟨fun _ => trivial, fun hfull => absurd (List.isEmpty_iff.mpr hempty) hfull⟩

section
variable [App S]

theorem executeRequests_post (k : Nat) (requests : List (Request A)) :
    (executeRequests k requests self).Post (fun _ _ => True) Fail.Tolerable := by
  induction requests generalizing self with
  | nil => trivial
  | cons request rest ih =>
    unfold executeRequests
    split
    · trivial
    · simp only [post_bind, post_emit]
      exact ih

theorem executeCommitted_post (rest : List (LogEntry A σ)) :
    (executeCommitted rest self).Post (fun _ _ => True) Fail.Tolerable := by
  induction rest generalizing self with
  | nil => trivial
  | cons entry rest ih =>
    unfold executeCommitted
    split
    · trivial
    · simp only [post_bind]
      exact (executeRequests_post _ _).mono fun _ _ _ => ih

end

theorem closeBatches_post (fuel : Nat) : (closeBatches fuel self).Post (fun _ _ => True) Fail.Tolerable := by
  induction fuel generalizing self with
  | zero => trivial
  | succ fuel ih =>
    unfold closeBatches
    split
    · next hmore =>
      rw [Bool.and_eq_true] at hmore
      obtain ⟨hprimary, hne⟩ := hmore
      simp only [post_bind]
      refine addU32_post ?_
      split
      · simp only [post_bind]
        exact (closeBatch_post hprimary (by simpa using hne)).mono fun _ _ _ => ih
      · trivial
    · trivial

section
variable [App S]

theorem advance_post : self.advance.Post (fun _ _ => True) Fail.Tolerable := by
  unfold advance
  simp only [post_bind]
  exact (executeCommitted_post _).mono fun _ _ _ => closeBatches_post _

theorem insertCommit_post {commit : Verifiable Commit σ}
    (hopen : self.numReplica - self.numFaulty ≤ (self.quorumWith .commit commit).len →
      (self.entry commit.inner.opNum.toNat).commits = []) :
    (self.insertCommit commit).Post (fun _ _ => True) Fail.Tolerable := by
  unfold insertCommit
  simp only [post_bind]
  refine subUsize_post ?_
  split
  · trivial
  · next hlen =>
    split
    · trivial
    · next entry hentry =>
      have hempty : entry.commits = [] := by
        have hslot : self.log[commit.inner.opNum.toNat]? = some entry := by simpa [record] using hentry
        rw [← entry_of_getElem? hslot]
        exact hopen (by simpa [record] using hlen)
      simp only [post_bind, post_assert]
      refine ⟨fun _ => ?_, fun hfull => absurd (List.isEmpty_iff.mpr hempty) hfull⟩
      split
      · trivial
      · exact advance_post

/-- A vote for a slot that has its votes is no quorum. -/
theorem insertVote_post {phase : Phase} {vote : Verifiable (Vote phase) σ}
    (hopen : (self.entry vote.inner.opNum.toNat).votes phase ≠ [] →
      (self.quorumWith phase vote).len + 1 < self.numReplica - self.numFaulty) :
    (self.insertVote phase vote).Post (fun _ _ => True) Fail.Tolerable := by
  cases phase with
  | prepare =>
    refine insertPrepare_post fun hlen => ?_
    by_contra hne
    exact absurd hlen (Nat.not_le.mpr (hopen hne))
  | commit =>
    refine insertCommit_post fun hlen => ?_
    by_contra hne
    have hlt := hopen hne
    omega

theorem onSignedVote_post {phase : Phase} {vote : Verifiable (Vote phase) σ} (hslot : vote.inner.opNum.toNat < self.log.length) :
    (self.onSignedVote phase vote).Post (fun _ _ => True) Fail.Tolerable := by
  unfold onSignedVote
  split
  · trivial
  · simp only [post_bind, post_emit]
    split
    · next hnone => exact absurd hslot (Nat.not_lt.mpr (List.getElem?_eq_none_iff.mp hnone))
    · next entry hentry =>
      split
      · next hempty =>
        refine insertVote_post fun hne => absurd ?_ hne
        rw [entry_of_getElem? hentry]
        exact List.isEmpty_iff.mp hempty
      · trivial

end

theorem submitVote_post (phase : Phase) (vote : Verifiable (Vote phase) σ) :
    (self.submitVote phase vote).Post (fun _ _ => True) Fail.Tolerable := by
  unfold submitVote
  simp only [post_ite, post_bind, post_assert]
  exact ⟨fun _ => ⟨fun _ => trivial, fun _ => trivial⟩, fun _ => ⟨fun _ => trivial, fun _ => trivial⟩⟩

theorem onRecvVote_post (phase : Phase) (vote : Verifiable (Vote phase) σ) :
    (self.onRecvVote phase vote).Post (fun _ _ => True) Fail.Tolerable := by
  unfold onRecvVote
  split
  · trivial
  · simp only [post_bind]
    exact (submitVote_post phase vote).mono fun _ _ _ => trivial

theorem drainPending_post {phase : Phase} (k : UInt32) (votes : List (Verifiable (Vote phase) σ)) :
    (drainPending phase k votes self).Post (fun _ _ => True) Fail.Tolerable := by
  induction votes generalizing self with
  | nil => trivial
  | cons vote votes ih =>
    unfold drainPending
    simp only [post_bind]
    refine (submitVote_post phase vote).mono fun submitted _ _ => ?_
    split
    · trivial
    · exact ih

theorem onVerifiedVote_post [App S] {phase : Phase} {vote : Verifiable (Vote phase) σ}
    (hopen : (self.entry vote.inner.opNum.toNat).votes phase ≠ [] →
      (self.quorumWith phase vote).len + 1 < self.numReplica - self.numFaulty) :
    (self.onVerifiedVote phase vote).Post (fun _ _ => True) Fail.Tolerable := by
  unfold onVerifiedVote
  split
  · trivial
  · simp only [post_bind]
    refine (insertVote_post hopen).mono fun r _ _ => ?_
    split
    · trivial
    · exact drainPending_post _ _

end

end Replica

/-! ## Late votes -/

/-- How many votes the open quorum for `k` has. -/
def Replica.gathered (r : Replica S A σ) (phase : Phase) (k : UInt32) : Nat := ((r.quorums phase k).getD .empty).len

/-- The votes and the slots of a replica, and those that are with the worker. -/
structure Orderly (r : Replica S A σ) (jobs : List (Job A σ)) : Prop where
  single : ∀ phase k, jobs.countP (Job.verifies phase k) ≤ if (r.pending phase k).isSome then 1 else 0
  parked : ∀ phase k votes, r.pending phase k = some votes → ∀ vote ∈ votes, vote.inner.opNum = k
  late : ∀ phase k, (r.entry k.toNat).votes phase ≠ [] → r.gathered phase k + jobs.countP (Job.verifies phase k) ≤ 1
  slots : ∀ phase vote, .signVote phase vote ∈ jobs → vote.opNum.toNat < r.log.length

/-- No quorum gains a vote, and no slot gains or loses its votes. -/
structure SameVotes (s r : Replica S A σ) (es : List (Effect A σ)) : Prop where
  votes : ∀ phase k, (r.entry k).votes phase = (s.entry k).votes phase
  gathered : ∀ phase k, r.gathered phase k ≤ s.gathered phase k
  length : s.log.length ≤ r.log.length
  slots : ∀ phase vote, .signVote phase vote ∈ submitted es → vote.opNum.toNat < r.log.length

section
variable {s r r' : Replica S A σ} {es es' : List (Effect A σ)} {jobs : List (Job A σ)}

theorem SameVotes.refl (s : Replica S A σ) : SameVotes s s [] :=
  ⟨fun _ _ => rfl, fun _ _ => Nat.le_refl _, Nat.le_refl _, fun _ _ hmem => nomatch hmem⟩

theorem SameVotes.trans (h : SameVotes s r es) (h' : SameVotes r r' es') : SameVotes s r' (es ++ es') where
  votes phase k := (h'.votes phase k).trans (h.votes phase k)
  gathered phase k := Nat.le_trans (h'.gathered phase k) (h.gathered phase k)
  length := Nat.le_trans h.length h'.length
  slots phase vote hmem := by
    rw [submitted_append, List.mem_append] at hmem
    rcases hmem with hmem | hmem
    · exact Nat.lt_of_lt_of_le (h.slots phase vote hmem) h'.length
    · exact h'.slots phase vote hmem

theorem SameVotes.of_log (hlog : r.log = s.log) (hquorums : r.quorums = s.quorums)
    (hes : ∀ phase vote, .signVote phase vote ∉ submitted es) : SameVotes s r es where
  votes phase k := by rw [Replica.entry_congr hlog]
  gathered phase k := by rw [Replica.gathered, Replica.gathered, hquorums]
  length := by rw [hlog]
  slots phase vote hmem := absurd hmem (hes phase vote)

theorem Orderly.same (h : Orderly s jobs) (hquiet : Quiet s r es) (hvotes : SameVotes s r es) :
    Orderly r (jobs ++ submitted es) where
  single phase k := by
    rw [List.countP_append, countP_verifies_eq_zero hquiet.jobs, hquiet.pending]
    exact h.single phase k
  parked phase k votes hk := h.parked phase k votes (by rwa [← hquiet.pending])
  late phase k hne := by
    rw [hvotes.votes] at hne
    rw [List.countP_append, countP_verifies_eq_zero hquiet.jobs, Nat.add_zero]
    exact Nat.le_trans (Nat.add_le_add_right (hvotes.gathered phase k) _) (h.late phase k hne)
  slots phase vote hmem := by
    rcases List.mem_append.mp hmem with hmem | hmem
    · exact Nat.lt_of_lt_of_le (h.slots phase vote hmem) hvotes.length
    · exact hvotes.slots phase vote hmem

theorem Orderly.sublist (h : Orderly r jobs) {jobs' : List (Job A σ)} (hsub : jobs'.Sublist jobs) : Orderly r jobs' where
  single phase k := Nat.le_trans hsub.countP_le (h.single phase k)
  parked := h.parked
  late phase k hne := Nat.le_trans (Nat.add_le_add_left hsub.countP_le _) (h.late phase k hne)
  slots phase vote hmem := h.slots phase vote (hsub.subset hmem)

end

namespace Replica

section
variable {self : Replica S A σ}

theorem length_reserve (k : Nat) : self.log.length ≤ (self.reserve k).log.length := by
  unfold reserve
  split
  · exact Nat.le_refl _
  · rw [List.length_append]
    exact Nat.le_add_right _ _

theorem gathered_retainDigest (opNum : UInt32) (digest : Digest) (phase : Phase) (k : UInt32) :
    (self.retainDigest opNum digest).gathered phase k ≤ self.gathered phase k := by
  unfold gathered
  rw [Certified.retainDigest_quorums]
  split
  · next hk =>
    subst hk
    cases self.quorums phase k with
    | none => exact Nat.le_refl _
    | some quorum => exact List.length_filter_le ..
  · exact Nat.le_refl _

theorem closeBatch_sameVotes : self.closeBatch.Sat (SameVotes self) fun _ => True :=
  closeBatch_sat (fun _ _ _ => .of_log rfl rfl (by simp)) trivial

theorem onRecvRequest_sameVotes (request : Request A) : (self.onRecvRequest request).Sat (SameVotes self) fun _ => True := by
  refine onRecvRequest_sat (.refl self) (fun _ _ => .of_log rfl rfl (by simp)) (fun _ _ => ?_) trivial
  have h : SameVotes self (self.enqueue request) [] := .of_log rfl rfl (by simp)
  exact ⟨h, closeBatch_sameVotes.mono (fun r es hr => h.trans hr) fun _ _ => trivial⟩

theorem onSignedPrePrepare_sameVotes (prePrepare : Verifiable PrePrepare σ) (requests : List (Request A)) :
    (self.onSignedPrePrepare prePrepare requests).Sat (SameVotes self) fun _ => True := by
  refine onSignedPrePrepare_sat (fun _ => .refl self) (fun _ _ => ?_) fun _ _ => trivial
  refine ⟨Certified.votes_fill_reserve, fun phase k => ?_, ?_, by simp⟩
  · simp [gathered, fill]
  · simpa [fill] using length_reserve _

theorem onVerifiedPrePrepare_sameVotes (prePrepare : Verifiable PrePrepare σ) (requests : List (Request A)) :
    (self.onVerifiedPrePrepare prePrepare requests).Sat (SameVotes self) fun _ => True := by
  refine onVerifiedPrePrepare_sat (.refl self) ⟨by simp, by simp [gathered], length_reserve _, by simp⟩ fun _ _ => ?_
  refine ⟨Certified.votes_fill_reserve, fun phase k => ?_, ?_, fun phase vote hmem => ?_⟩
  · refine Nat.le_trans (gathered_retainDigest _ _ phase k) ?_
    simp [gathered, fill]
  · simpa [fill, retainDigest] using length_reserve _
  · obtain ⟨rfl, hvote⟩ : phase = .prepare ∧ _ := by simpa using hmem
    rw [eq_of_heq hvote]
    simpa [fill, retainDigest] using lt_length_reserve _

section
variable [App S]

theorem executeRequests_sameVotes (k : Nat) (requests : List (Request A)) :
    (executeRequests k requests self).Sat (SameVotes self) fun _ => True :=
  executeRequests_sat (R := fun _ => True) (I := fun _ r es => SameVotes self r es) (fun _ _ _ _ _ _ => trivial)
    (fun _ _ _ _ _ _ h _ => h.trans (.of_log rfl rfl (by simp))) requests [] (.refl self)

theorem advance_sameVotes : self.advance.Sat (SameVotes self) fun _ => True :=
  advance_sat (R := fun _ => True) (I := SameVotes self) (fun _ _ _ => trivial)
    (fun _ _ _ h _ _ _ => (executeRequests_sameVotes _ _).mono
      (fun _ _ hr => h.trans ⟨hr.votes, hr.gathered, hr.length, hr.slots⟩) fun _ _ => trivial)
    (fun _ _ h => closeBatch_sameVotes.mono (fun _ _ hr => h.trans hr) fun _ _ => trivial) [] (.refl self)

end

end

end Replica

/-! ## Votes that are taken -/

namespace Replica

section
variable {self : Replica S A σ} {phase phase' : Phase} {k k' : UInt32}

theorem gathered_setQuorum (q : Option (Table UInt8 (Verifiable (Vote phase) σ))) :
    (self.setQuorum phase k q).gathered phase' k' =
      if phase' = phase ∧ k' = k then (q.getD .empty).len else self.gathered phase' k' := by
  unfold gathered
  by_cases hphase : phase' = phase
  · subst hphase
    rw [quorums_setQuorum_self, Function.update_apply]
    split <;> simp_all
  · rw [quorums_setQuorum_of_ne hphase, if_neg fun h => hphase h.1]

theorem pending_setPending_other (h : ¬(phase' = phase ∧ k' = k)) (vs : Option (List (Verifiable (Vote phase) σ))) :
    (self.setPending phase k vs).pending phase' k' = self.pending phase' k' := by
  by_cases hphase : phase' = phase
  · subst hphase
    rw [pending_setPending_self, Function.update_of_ne fun hk => h ⟨rfl, hk⟩]
  · rw [pending_setPending_of_ne hphase]

theorem len_quorumWith_le (self : Replica S A σ) (vote : Verifiable (Vote phase) σ) :
    (self.quorumWith phase vote).len ≤ self.gathered phase vote.inner.opNum + 1 :=
  Nat.succ_le_succ (List.length_filter_le ..)

theorem votes_closeQuorum (quorum : Table UInt8 (Verifiable (Vote phase) σ)) (h : ¬(phase' = phase ∧ k' = k)) :
    ((self.closeQuorum phase k quorum).entry k'.toNat).votes phase' = (self.entry k'.toNat).votes phase' := by
  by_cases hk : k' = k
  · exact entry_closeQuorum_eq (f := fun entry => entry.votes phase')
      (fun entry votes => votes_setVotes_of_ne (fun hphase => h ⟨hphase, hk⟩) entry votes) _
  · rw [entry_closeQuorum_of_ne fun heq => hk (UInt32.toNat_inj.mp heq)]

end

end Replica

namespace Orderly

section
variable {self : Replica S A σ} {jobs : List (Job A σ)} {phase : Phase}

theorem record (h : Orderly self jobs) {vote : Verifiable (Vote phase) σ}
    (hroom : (self.entry vote.inner.opNum.toNat).votes phase ≠ [] →
      self.gathered phase vote.inner.opNum + jobs.countP (Job.verifies phase vote.inner.opNum) = 0) :
    Orderly (self.record phase vote) jobs where
  single phase' k' := by simpa [Replica.record] using h.single phase' k'
  parked phase' k' votes hk := h.parked phase' k' votes (by simpa [Replica.record] using hk)
  late phase' k' hne := by
    rw [Replica.entry_record] at hne
    rw [Replica.record, Replica.gathered_setQuorum]
    split
    · next heq =>
      obtain ⟨rfl, rfl⟩ := heq
      have hlen := Replica.len_quorumWith_le self vote
      have hzero := hroom hne
      show (self.quorumWith _ vote).len + _ ≤ 1
      omega
    · exact h.late phase' k' hne
  slots phase' vote' hmem := by simpa [Replica.record] using h.slots phase' vote' hmem

theorem close (h : Orderly self jobs) (k : UInt32) (quorum : Table UInt8 (Verifiable (Vote phase) σ)) :
    Orderly (self.closeQuorum phase k quorum) jobs where
  single phase' k' := by simpa [Replica.closeQuorum] using h.single phase' k'
  parked phase' k' votes hk := h.parked phase' k' votes (by simpa [Replica.closeQuorum] using hk)
  late phase' k' hne := by
    have hgathered : (self.closeQuorum phase k quorum).gathered phase' k' =
        if phase' = phase ∧ k' = k then 0 else self.gathered phase' k' := Replica.gathered_setQuorum none
    rw [hgathered]
    split
    · -- the quorum is gone, and one vote may still be with the worker
      rw [Nat.zero_add]
      refine Nat.le_trans (h.single phase' k') ?_
      split <;> omega
    · next hother =>
      rw [Replica.votes_closeQuorum quorum hother] at hne
      exact h.late phase' k' hne
  slots phase' vote' hmem := by simpa [Replica.closeQuorum] using h.slots phase' vote' hmem

theorem setPending (h : Orderly self jobs) {k : UInt32} (vs : Option (List (Verifiable (Vote phase) σ)))
    (hcount : jobs.countP (Job.verifies phase k) ≤ if vs.isSome then 1 else 0)
    (hvs : ∀ votes, vs = some votes → ∀ vote ∈ votes, vote.inner.opNum = k) : Orderly (self.setPending phase k vs) jobs where
  single phase' k' := by
    by_cases heq : phase' = phase ∧ k' = k
    · obtain ⟨rfl, rfl⟩ := heq
      rw [Replica.pending_setPending_self, Function.update_self]
      exact hcount
    · rw [Replica.pending_setPending_other heq]
      exact h.single phase' k'
  parked phase' k' votes hk := by
    by_cases heq : phase' = phase ∧ k' = k
    · obtain ⟨rfl, rfl⟩ := heq
      rw [Replica.pending_setPending_self, Function.update_self] at hk
      exact hvs votes hk
    · rw [Replica.pending_setPending_other heq] at hk
      exact h.parked phase' k' votes hk
  late phase' k' hne := by
    rw [Replica.entry_setPending] at hne
    simpa [Replica.gathered] using h.late phase' k' hne
  slots phase' vote' hmem := by simpa using h.slots phase' vote' hmem

/-- A vote for an open slot goes to the worker. -/
theorem verify (h : Orderly self jobs) {vote : Verifiable (Vote phase) σ} {rest : List (Verifiable (Vote phase) σ)}
    (hidle : jobs.countP (Job.verifies phase vote.inner.opNum) = 0)
    (hopen : (self.entry vote.inner.opNum.toNat).votes phase = []) (hrest : ∀ v ∈ rest, v.inner.opNum = vote.inner.opNum) :
    Orderly (self.setPending phase vote.inner.opNum (some rest)) (jobs ++ [.verifyVote phase vote]) := by
  have hparked := h.setPending (some rest) (by rw [hidle]; exact Nat.zero_le _) fun votes hvotes => by
    cases hvotes
    exact hrest
  have hother {phase' : Phase} {k' : UInt32} (hne : ¬(phase' = phase ∧ k' = vote.inner.opNum)) :
      (jobs ++ [Job.verifyVote phase vote]).countP (Job.verifies phase' k') = jobs.countP (Job.verifies phase' k') := by
    rw [List.countP_append, List.countP_cons_of_neg, List.countP_nil, Nat.add_zero]
    rw [verifies_verifyVote]
    exact fun heq => hne ⟨heq.1.symm, heq.2.symm⟩
  constructor
  case single =>
    intro phase' k'
    by_cases heq : phase' = phase ∧ k' = vote.inner.opNum
    · obtain ⟨rfl, rfl⟩ := heq
      simp [hidle]
    · rw [hother heq]
      exact hparked.single phase' k'
  case parked => exact hparked.parked
  case late =>
    intro phase' k' hne
    by_cases heq : phase' = phase ∧ k' = vote.inner.opNum
    · obtain ⟨rfl, rfl⟩ := heq
      rw [Replica.entry_setPending] at hne
      exact absurd hopen hne
    · rw [hother heq]
      exact hparked.late phase' k' hne
  case slots =>
    intro phase' vote' hmem
    exact hparked.slots phase' vote' (by simpa using hmem)

theorem insertVote [App S] (h : Orderly self jobs) (vote : Verifiable (Vote phase) σ)
    (hroom : (self.entry vote.inner.opNum.toNat).votes phase ≠ [] →
      self.gathered phase vote.inner.opNum + jobs.countP (Job.verifies phase vote.inner.opNum) = 0) :
    (self.insertVote phase vote).Sat (fun r es => Orderly r (jobs ++ submitted es)) fun _ => True := by
  have hrecord := h.record hroom
  have hclose := hrecord.close vote.inner.opNum (self.quorumWith phase vote)
  have hsame {r : Replica S A σ} (hr : Orderly r jobs) : Orderly r (jobs ++ submitted []) := by
    rw [submitted_nil, List.append_nil]
    exact hr
  cases phase with
  | prepare =>
    refine Replica.insertPrepare_sat (hsame hrecord) (fun _ hslot _ => ?_) trivial
    refine hclose.same ⟨rfl, rfl, by simp⟩ ⟨fun _ _ => rfl, fun _ _ => Nat.le_refl _, Nat.le_refl _, fun phase' vote' hmem => ?_⟩
    obtain ⟨rfl, hvote⟩ : phase' = .commit ∧ _ := by simpa using hmem
    rw [eq_of_heq hvote]
    simpa [Replica.closeQuorum, Replica.record] using hslot
  | commit =>
    refine Replica.insertCommit_sat (hsame hrecord) (fun _ _ _ _ => ?_) trivial
    exact (Replica.advance_quiet.and Replica.advance_sameVotes).mono (fun _ _ hr => hclose.same hr.1 hr.2) fun _ _ => trivial

theorem onRecvVote (h : Orderly self jobs) (vote : Verifiable (Vote phase) σ) :
    (self.onRecvVote phase vote).Sat (fun r es => Orderly r (jobs ++ submitted es)) fun _ => True := by
  refine Replica.onRecvVote_sat (fun votes hsome => ?_) (h.same (.refl _) (.refl _)) (fun hnone _ hopen => ?_) trivial
  · have hcount := h.single phase vote.inner.opNum
    rw [hsome] at hcount
    rw [submitted_nil, List.append_nil]
    refine h.setPending _ hcount fun votes' hvotes v hv => ?_
    cases hvotes
    rcases List.mem_cons.mp hv with rfl | hv
    · rfl
    · exact h.parked _ _ _ hsome v hv
  · have hcount := h.single phase vote.inner.opNum
    rw [hnone] at hcount
    exact h.verify (Nat.le_zero.mp hcount) hopen fun v hv => nomatch hv

/-- The worker has found a vote valid, and has no other of the op number. -/
theorem onVerifiedVote [App S] {vote : Verifiable (Vote phase) σ} (h : Orderly self jobs)
    (hidle : jobs.countP (Job.verifies phase vote.inner.opNum) = 0)
    (hroom : (self.entry vote.inner.opNum.toNat).votes phase ≠ [] → self.gathered phase vote.inner.opNum = 0) :
    (self.onVerifiedVote phase vote).Sat (fun r es => Orderly r (jobs ++ submitted es)) fun _ => True := by
  have hinsert := h.insertVote vote fun hne => by rw [hroom hne, hidle]
  refine Replica.onVerifiedVote_sat (fun _ => h.same (.refl _) (.refl _)) fun _ => ?_
  refine (hinsert.and (Replica.insertVote_quiet phase vote)).mono (fun r es hr => ⟨fun _ => hr.1, fun votes hsome => ?_⟩)
    fun _ _ => trivial
  obtain ⟨hr, hquiet⟩ := hr
  have hidle' : (jobs ++ submitted es).countP (Job.verifies phase vote.inner.opNum) = 0 := by
    rw [List.countP_append, countP_verifies_eq_zero hquiet.jobs, hidle]
  have hparked := hr.parked phase vote.inner.opNum votes hsome
  refine Replica.drainPending_sat votes ?_ (fun popped v rest heq _ hopen => ?_) trivial
  · rw [List.append_nil]
    exact hr.setPending none (by rw [hidle']; exact Nat.zero_le _) fun _ hvs => nomatch hvs
  · have hv : v.inner.opNum = vote.inner.opNum := hparked v (by rw [heq]; simp)
    rw [submitted_append, ← List.append_assoc, ← hv]
    refine hr.verify (by rw [hv]; exact hidle') hopen fun v' hv' => ?_
    rw [hv]
    exact hparked v' (by rw [heq]; simp [hv'])

theorem onSignedVote [App S] (h : Orderly self jobs) (vote : Verifiable (Vote phase) σ) :
    (self.onSignedVote phase vote).Sat (fun r es => Orderly r (jobs ++ submitted es)) fun _ => True := by
  have hsend : Orderly self (jobs ++ submitted [.sendAll (.vote phase vote)]) := by simpa using h
  refine Replica.onSignedVote_sat (fun _ => h.same (.refl _) (.refl _)) hsend (fun _ hopen => ?_) trivial
  refine (h.insertVote vote fun hne => absurd hopen hne).mono (fun r es hr => ?_) fun _ _ => trivial
  simpa using hr

theorem onRecv (h : Orderly self jobs) (message : ToReplica A σ) :
    (self.onRecv message).Sat (fun r es => Orderly r (jobs ++ submitted es)) fun _ => True := by
  cases message with
  | request request =>
    exact ((Replica.onRecvRequest_quiet request).and (Replica.onRecvRequest_sameVotes request)).mono
      (fun _ _ hr => h.same hr.1 hr.2) fun _ _ => trivial
  | prePrepare prePrepare requests =>
    exact Replica.onRecvPrePrepare_sat (h.same (.refl _) (.refl _))
      (fun _ _ => h.same ⟨rfl, rfl, by simp⟩ (.of_log rfl rfl (by simp))) trivial
  | vote phase vote => exact h.onRecvVote vote

end

end Orderly

theorem Replica.onRecv_post {self : Replica S A σ} (message : ToReplica A σ) :
    (self.onRecv message).Post (fun _ _ => True) Fail.Tolerable := by
  cases message with
  | request request => exact onRecvRequest_post request
  | prePrepare prePrepare requests => exact onRecvPrePrepare_post prePrepare requests
  | vote phase vote => exact onRecvVote_post phase vote

/-! ## Runs -/

/-- A replica that runs is in order, and one that has stopped had no failed assertion. -/
structure Node.Sound (node : Node S A σ) : Prop where
  tolerable : ∀ reason, node.stopped = some reason → reason.Tolerable
  orderly : node.stopped = none → Orderly node.replica node.jobs

theorem Node.Sound.apply {node : Node S A σ} (hrunning : node.stopped = none) {out : Handler A σ (Replica S A σ)}
    (hsat : out.Sat (fun r es => Orderly r (node.jobs ++ submitted es)) fun _ => True)
    (hpost : out.Post (fun _ _ => True) Fail.Tolerable) : (node.apply out).Sound := by
  cases out with
  | ok r es => exact ⟨fun reason hreason => (nomatch hrunning.symm.trans hreason), fun _ => hsat⟩
  | fail reason es =>
    refine ⟨fun reason' hreason => ?_, fun hnone => nomatch hnone⟩
    cases hreason
    exact hpost

theorem Node.Sound.step [App S] [DigestHash A] {node : Node S A σ} {crypto : Crypto σ} {input : Input A σ}
    (h : node.Sound) (hrunning : node.stopped = none) (hproposes : node.Proposes)
    (hquorum : 2 < node.replica.numReplica - node.replica.numFaulty) : (node.step crypto input).Sound := by
  have horderly := h.orderly hrunning
  refine Node.step_sat (fun message _ => .apply hrunning (horderly.onRecv message) (Replica.onRecv_post message))
    (fun _ => h) fun n job _ hjob => ?_
  have hmem := List.mem_of_getElem? hjob
  have hleft := horderly.sublist (List.eraseIdx_sublist node.jobs n)
  have hidle (signed : List SignedMessage) : Node.Sound { node with jobs := node.jobs.eraseIdx n, signed := signed } :=
    ⟨h.tolerable, fun _ => hleft⟩
  have happly {out : Handler A σ (Replica S A σ)} (signed : List SignedMessage)
      (hsat : out.Sat (fun r es => Orderly r (node.jobs.eraseIdx n ++ submitted es)) fun _ => True)
      (hpost : out.Post (fun _ _ => True) Fail.Tolerable) :
      (Node.apply { node with jobs := node.jobs.eraseIdx n, signed := signed } out).Sound := .apply (by exact hrunning) hsat hpost
  unfold Node.finish
  cases job with
  | signPrePrepare viewNum opNum requests =>
    refine happly _ ?_ (Replica.onSignedPrePrepare_post (hproposes.primary _ _ _ hmem).2.2.2)
    exact ((Replica.onSignedPrePrepare_quiet _ _).and (Replica.onSignedPrePrepare_sameVotes _ _)).mono
      (fun _ _ hr => hleft.same hr.1 hr.2) fun _ _ => trivial
  | verifyPrePrepare replicaId prePrepare requests =>
    by_cases hvalid : crypto.scheme.digest requests = prePrepare.inner.digest ∧ crypto.verify replicaId prePrepare = true
    · rw [show (Job.verifyPrePrepare replicaId prePrepare requests : Job A σ).run crypto =
        some (.verifiedPrePrepare prePrepare requests) from if_pos hvalid]
      refine happly _ ?_ (Replica.onVerifiedPrePrepare_post prePrepare requests)
      exact ((Replica.onVerifiedPrePrepare_quiet _ _).and (Replica.onVerifiedPrePrepare_sameVotes _ _)).mono
        (fun _ _ hr => hleft.same hr.1 hr.2) fun _ _ => trivial
    · rw [show (Job.verifyPrePrepare replicaId prePrepare requests : Job A σ).run crypto = none from if_neg hvalid]
      exact hidle _
  | signVote phase vote =>
    exact happly _ (hleft.onSignedVote _) (Replica.onSignedVote_post (horderly.slots phase vote hmem))
  | verifyVote phase vote =>
    by_cases hvalid : crypto.verify vote.inner.replicaId.toNat vote = true
    · rw [show (Job.verifyVote phase vote : Job A σ).run crypto = some (.verifiedVote phase vote) from if_pos hvalid]
      have hcons : (node.jobs.eraseIdx n).countP (Job.verifies phase vote.inner.opNum) + 1 =
          node.jobs.countP (Job.verifies phase vote.inner.opNum) := by
        rw [← (Node.jobs_perm hjob).countP_eq, List.countP_cons_of_pos (by simp)]
      have hsingle := horderly.single phase vote.inner.opNum
      have hone : node.jobs.countP (Job.verifies phase vote.inner.opNum) ≤ 1 := by
        split at hsingle <;> omega
      have hroom (hne : (node.replica.entry vote.inner.opNum.toNat).votes phase ≠ []) :
          node.replica.gathered phase vote.inner.opNum = 0 := by
        have hlate := horderly.late phase vote.inner.opNum hne
        omega
      refine happly _ (hleft.onVerifiedVote (by omega) hroom) (Replica.onVerifiedVote_post fun hne => ?_)
      have hlen := Replica.len_quorumWith_le node.replica vote
      rw [hroom hne] at hlen
      show (node.replica.quorumWith phase vote).len + 1 < node.replica.numReplica - node.replica.numFaulty
      omega
    · rw [show (Job.verifyVote phase vote : Job A σ).run crypto = none from if_neg hvalid]
      exact hidle _

/-! ## The system -/

section
variable [App S] [DigestHash A] {cfg : Config S σ} {sys : System A cfg}

theorem sound_reach (hfaulty : 1 ≤ cfg.numFaulty) (h : (systemMachine A cfg).Reach Machine.always sys) (i : cfg.Correct) :
    (sys i).Sound := by
  refine h.invariant (I := fun sys => ∀ i, (sys i).Sound) ?_ ?_ i
  · rintro _ rfl i
    refine ⟨fun _ hreason => (nomatch hreason), fun _ => ⟨fun phase k => ?_, fun phase k votes hk => ?_, fun phase k hne => ?_, ?_⟩⟩
    · exact Nat.zero_le _
    · cases phase <;> cases hk
    · cases phase <;> exact absurd rfl hne
    · exact fun _ _ hmem => nomatch hmem
  · rintro sys ⟨i, input⟩ _ hreach ih - ⟨henabled, rfl⟩ j
    by_cases hj : j = i
    · subst hj
      rw [System.step_self]
      refine (ih j).step henabled.running (proposes_reach hreach j) ?_
      have hparams := params_reach hreach j
      simp only [Replica.params, Prod.mk.injEq] at hparams
      have henough := cfg.enough
      rw [hparams.2.1, hparams.2.2.1]
      omega
    · rw [System.step_of_ne hj]
      exact ih j

/-- A replica that is not Byzantine fails at no assertion and at no index of
its log; a slot is there once the log is resized for it, and a quorum when it
is taken out. -/
theorem assertions_hold (hfaulty : 1 ≤ cfg.numFaulty) (h : (systemMachine A cfg).Reach Machine.always sys) (i : cfg.Correct) :
    (sys i).stopped ≠ some .assert ∧ (sys i).stopped ≠ some .index ∧ (∀ k, k < ((sys i).replica.reserve k).log.length) ∧
      ∀ phase vote, ((sys i).replica.record phase vote).quorums phase vote.inner.opNum ≠ none := by
  have hsound := sound_reach hfaulty h i
  refine ⟨fun hstopped => hsound.tolerable _ hstopped, fun hstopped => hsound.tolerable _ hstopped, Replica.lt_length_reserve,
    fun phase vote => ?_⟩
  rw [Replica.record, Replica.quorums_setQuorum_self, Function.update_self]
  exact Option.some_ne_none _

end

end

/-- The prepare of replica `3` is verified after the quorum of prepares has closed. -/
theorem assertions_hold_late : ∃ (sys : System UInt8 Config.toy) (i : Config.toy.Correct),
    ((sys i).replica.entry 1).prepares ≠ [] ∧ (sys i).replica.gathered .prepare 1 = 1 ∧
      (sys i).stopped ≠ some .assert ∧ (sys i).stopped ≠ some .index := by
  let requests : List (Request UInt8) := [⟨7, 9, 1, []⟩]
  let digest := Scheme.toy.digest requests
  let prepare (id : Fin 4) : Verifiable Prepare (Nat × Digest) := signedBy id ⟨0, 1, digest, .ofNat id⟩
  let i : Config.toy.Correct := ⟨1, by decide⟩
  let j : Config.toy.Correct := ⟨2, by decide⟩
  let l : Config.toy.Correct := ⟨3, by decide⟩
  obtain ⟨sys, hreach, hclosed, hlate⟩ := reach_of_exec Machine.always
    ([i, j, l].flatMap (fun i => [(i, .recv (.prePrepare (signedBy 0 (PrePrepare.mk 0 1 digest)) requests)), (i, .complete 0)]) ++
      [(j, .complete 0), (l, .complete 0), (i, .recv (.vote .prepare (prepare 2))), (i, .recv (.vote .prepare (prepare 3))),
        (i, .complete 1), (i, .complete 0), (i, .complete 0)])
    (fun sys => ((sys i).replica.entry 1).prepares ≠ [] ∧ (sys i).replica.gathered .prepare 1 = 1) (by decide +kernel)
  have hold := assertions_hold (Nat.le_refl 1) hreach i
  exact ⟨sys, i, hclosed, hlate, hold.1, hold.2.1⟩

end Neatworks.Pbft
