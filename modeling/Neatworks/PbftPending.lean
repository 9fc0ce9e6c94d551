import Neatworks.PbftSpec

/-!
# Pending votes

While a vote for an op number is with the worker, the later ones are parked
under the key of that op number. The key is released by the event of the job,
and a job whose signature check fails sends none.
-/

namespace Neatworks.Pbft

open Outcome

section
variable {S A σ : Type}

/-- The job verifies a vote of `phase` for op number `k`. -/
def Job.verifies (phase : Phase) (k : UInt32) : Job A σ → Bool
  | .verifyVote phase' vote => phase' = phase && vote.inner.opNum = k
  | _ => false

/-! ## Handlers that leave the pending votes alone -/

structure Quiet (s r : Replica S A σ) (es : List (Effect A σ)) : Prop where
  pending : r.pending = s.pending
  viewNum : r.viewNum = s.viewNum
  jobs : ∀ phase vote, Job.verifyVote phase vote ∉ submitted es

namespace Quiet

section
variable {s r r' : Replica S A σ} {es es' : List (Effect A σ)}

theorem refl (s : Replica S A σ) : Quiet s s [] := ⟨rfl, rfl, fun _ _ => List.not_mem_nil⟩

theorem trans (h : Quiet s r es) (h' : Quiet r r' es') : Quiet s r' (es ++ es') where
  pending := h'.pending.trans h.pending
  viewNum := h'.viewNum.trans h.viewNum
  jobs phase vote := by
    rw [submitted_append, List.mem_append]
    exact fun hmem => hmem.elim (h.jobs phase vote) (h'.jobs phase vote)

end

end Quiet

namespace Replica

section
variable {self : Replica S A σ}

theorem closeBatch_quiet : self.closeBatch.Sat (Quiet self) fun _ => True :=
  closeBatch_sat (fun _ _ _ => ⟨rfl, rfl, by simp⟩) trivial

theorem onRecvRequest_quiet (request : Request A) : (self.onRecvRequest request).Sat (Quiet self) fun _ => True := by
  refine onRecvRequest_sat (.refl self) (fun _ _ => ⟨rfl, rfl, by simp⟩) (fun _ _ => ?_) trivial
  have h : Quiet self (self.enqueue request) [] := ⟨rfl, rfl, by simp⟩
  exact ⟨h, closeBatch_quiet.mono (fun r es hr => h.trans hr) fun _ _ => trivial⟩

theorem onSignedPrePrepare_quiet (prePrepare : Verifiable PrePrepare σ) (requests : List (Request A)) :
    (self.onSignedPrePrepare prePrepare requests).Sat (Quiet self) fun _ => True :=
  onSignedPrePrepare_sat (fun _ => .refl self) (fun _ _ => ⟨by simp [fill], by simp [fill], by simp⟩)
    fun _ _ => trivial

theorem onRecvPrePrepare_quiet (prePrepare : Verifiable PrePrepare σ) (requests : List (Request A)) :
    (self.onRecvPrePrepare prePrepare requests).Sat (Quiet self) fun _ => True :=
  onRecvPrePrepare_sat (.refl self) (fun _ _ => ⟨rfl, rfl, by simp⟩) trivial

theorem onVerifiedPrePrepare_quiet (prePrepare : Verifiable PrePrepare σ) (requests : List (Request A)) :
    (self.onVerifiedPrePrepare prePrepare requests).Sat (Quiet self) fun _ => True :=
  onVerifiedPrePrepare_sat (.refl self) ⟨by simp, by simp, by simp⟩
    fun _ _ => ⟨by simp [fill, retainDigest], by simp [fill, retainDigest], by simp⟩

section
variable [App S]

theorem executeRequests_quiet (k : Nat) (requests : List (Request A)) :
    (executeRequests k requests self).Sat (Quiet self) fun _ => True :=
  executeRequests_sat (R := fun _ => True) (I := fun _ r es => Quiet self r es) (fun _ _ _ _ _ _ => trivial)
    (fun _ _ _ _ _ _ h _ => h.trans ⟨rfl, rfl, by simp⟩) requests [] (.refl self)

theorem advance_quiet : (self.advance).Sat (Quiet self) fun _ => True :=
  advance_sat (R := fun _ => True) (I := Quiet self) (fun _ _ _ => trivial)
    (fun _ _ _ h _ _ _ => (executeRequests_quiet _ _).mono
      (fun _ _ hr => h.trans ⟨hr.pending, hr.viewNum, hr.jobs⟩) fun _ _ => trivial)
    (fun _ _ h => closeBatch_quiet.mono (fun _ _ hr => h.trans hr) fun _ _ => trivial) [] (.refl self)

theorem insertVote_quiet (phase : Phase) (vote : Verifiable (Vote phase) σ) :
    (self.insertVote phase vote).Sat (Quiet self) fun _ => True := by
  cases phase with
  | prepare =>
    exact insertPrepare_sat ⟨by simp [record], by simp [record], by simp⟩
      (fun _ _ _ => ⟨by simp [record, closeQuorum], by simp [record, closeQuorum], by simp⟩) trivial
  | commit =>
    refine insertCommit_sat ⟨by simp [record], by simp [record], by simp⟩ (fun _ _ _ _ => ?_) trivial
    exact advance_quiet.mono (fun r es hr => ⟨hr.pending.trans (by simp [record, closeQuorum]),
      hr.viewNum.trans (by simp [record, closeQuorum]), hr.jobs⟩) fun _ _ => trivial

theorem onSignedVote_quiet (phase : Phase) (vote : Verifiable (Vote phase) σ) :
    (self.onSignedVote phase vote).Sat (Quiet self) fun _ => True :=
  onSignedVote_sat (fun _ => .refl self) ⟨rfl, rfl, by simp⟩
    (fun _ _ => (insertVote_quiet phase vote).mono (fun _ _ h => ⟨h.pending, h.viewNum, by simpa using h.jobs⟩)
      fun _ _ => trivial) trivial

end

end

end Replica

/-! ## The keys and the jobs -/

/-- A key of the pending votes goes with one verification job. -/
structure Paired (node : Node S A σ) : Prop where
  count : ∀ phase k, node.jobs.countP (Job.verifies phase k) =
    if (node.replica.pending phase k).isSome then 1 else 0
  viewNum : ∀ phase vote, Job.verifyVote phase vote ∈ node.jobs → vote.inner.viewNum = node.replica.viewNum
  parked : ∀ phase k votes, node.replica.pending phase k = some votes → ∀ vote ∈ votes, vote.inner.opNum = k

@[simp] theorem verifies_verifyVote {phase phase' : Phase} {k : UInt32} {vote : Verifiable (Vote phase) σ} :
    (Job.verifyVote phase vote : Job A σ).verifies phase' k = true ↔ phase = phase' ∧ vote.inner.opNum = k := by
  simp [Job.verifies]

theorem countP_verifies_eq_zero {phase : Phase} {k : UInt32} {jobs : List (Job A σ)}
    (h : ∀ phase vote, Job.verifyVote phase vote ∉ jobs) : jobs.countP (Job.verifies phase k) = 0 := by
  rw [List.countP_eq_zero]
  intro job hjob hv
  cases job with
  | verifyVote phase' vote => exact h phase' vote hjob
  | _ => cases hv

namespace Paired

section
variable {node : Node S A σ}

theorem new (id : UInt8) (app : S) (numReplica numFaulty : Nat) :
    Paired (Node.new id app numReplica numFaulty : Node S A σ) where
  count phase k := by cases phase <;> rfl
  viewNum _ _ h := by cases h
  parked phase k votes h := by cases phase <;> cases h

theorem quiet (h : Paired node) {r : Replica S A σ} {es : List (Effect A σ)} (hq : Quiet node.replica r es) :
    Paired { node with replica := r, jobs := node.jobs ++ submitted es, history := node.history ++ es } where
  count phase k := by
    simp only [List.countP_append, countP_verifies_eq_zero hq.jobs, hq.pending, h.count, Nat.add_zero]
  viewNum phase vote hmem := by
    rcases List.mem_append.mp hmem with hmem | hmem
    · exact (h.viewNum phase vote hmem).trans hq.viewNum.symm
    · exact absurd hmem (hq.jobs phase vote)
  parked phase k votes hk := h.parked phase k votes (by rw [← hq.pending]; exact hk)

theorem sign (h : Paired node) (ms : List SignedMessage) : Paired { node with signed := ms } :=
  ⟨h.count, h.viewNum, h.parked⟩

theorem erase (h : Paired node) {n : Nat} {job : Job A σ} (hjob : node.jobs[n]? = some job)
    (hv : ∀ phase k, job.verifies phase k = false) : Paired { node with jobs := node.jobs.eraseIdx n } where
  count phase k := by
    rw [← h.count phase k, ← (Node.jobs_perm hjob).countP_eq, List.countP_cons_of_neg (by simp [hv])]
  viewNum phase vote hmem := h.viewNum phase vote (List.mem_of_mem_eraseIdx hmem)
  parked := h.parked

/-- The votes parked for `k` and the jobs that verify a vote for `k` change,
the others do not. -/
theorem update (h : Paired node) {node' : Node S A σ} {r : Replica S A σ} {phase : Phase} {k : UInt32}
    {vs : Option (List (Verifiable (Vote phase) σ))} (hr : Quiet node.replica r [])
    (hreplica : node'.replica = r.setPending phase k vs)
    (hself : node'.jobs.countP (Job.verifies phase k) = if vs.isSome then 1 else 0)
    (hother : ∀ phase' k', ¬ (phase' = phase ∧ k' = k) →
      node'.jobs.countP (Job.verifies phase' k') = node.jobs.countP (Job.verifies phase' k'))
    (hview : ∀ phase' vote, Job.verifyVote phase' vote ∈ node'.jobs → vote.inner.viewNum = node.replica.viewNum)
    (hvs : ∀ votes, vs = some votes → ∀ vote ∈ votes, vote.inner.opNum = k) : Paired node' where
  count phase' k' := by
    rw [hreplica]
    by_cases hp : phase' = phase
    · subst hp
      by_cases hk : k' = k
      · subst hk
        rw [hself, Replica.pending_setPending_self, Function.update_self]
      · rw [hother _ _ fun hpk => hk hpk.2, h.count, Replica.pending_setPending_self, Function.update_of_ne hk,
          hr.pending]
    · rw [hother _ _ fun hpk => hp hpk.1, h.count, Replica.pending_setPending_of_ne hp, hr.pending]
  viewNum phase' vote hmem := by
    rw [hreplica, Replica.setPending_fields.2.2.2.1, hr.viewNum]
    exact hview phase' vote hmem
  parked phase' k' votes hk := by
    rw [hreplica] at hk
    by_cases hp : phase' = phase
    · subst hp
      rw [Replica.pending_setPending_self] at hk
      by_cases hkk : k' = k
      · subst hkk
        rw [Function.update_self] at hk
        exact hvs votes hk
      · rw [Function.update_of_ne hkk, hr.pending] at hk
        exact h.parked _ _ _ hk
    · rw [Replica.pending_setPending_of_ne hp, hr.pending] at hk
      exact h.parked _ _ _ hk

theorem key_of_job (h : Paired node) {phase : Phase} {vote : Verifiable (Vote phase) σ}
    (hjob : Job.verifyVote phase vote ∈ node.jobs) :
    ∃ votes, node.replica.pending phase vote.inner.opNum = some votes := by
  have hpos : 0 < node.jobs.countP (Job.verifies phase vote.inner.opNum) :=
    List.countP_pos_iff.mpr ⟨_, hjob, by simp⟩
  rw [h.count] at hpos
  split at hpos
  · next hsome => exact Option.isSome_iff_exists.mp hsome
  · cases hpos

/-- The jobs left when one that verifies a vote ends. -/
theorem countP_eraseIdx (h : Paired node) {n : Nat} {phase : Phase} {vote : Verifiable (Vote phase) σ}
    (hjob : node.jobs[n]? = some (.verifyVote phase vote)) (phase' : Phase) (k : UInt32) :
    (node.jobs.eraseIdx n).countP (Job.verifies phase' k) =
      if phase' = phase ∧ k = vote.inner.opNum then 0 else node.jobs.countP (Job.verifies phase' k) := by
  have hcons := (Node.jobs_perm hjob).countP_eq (Job.verifies phase' k)
  split
  · next heq =>
    obtain ⟨rfl, rfl⟩ := heq
    rw [List.countP_cons_of_pos (by simp), h.count] at hcons
    split at hcons <;> omega
  · next hne =>
    rw [← hcons, List.countP_cons_of_neg]
    rw [verifies_verifyVote]
    exact fun hpk => hne ⟨hpk.1.symm, hpk.2.symm⟩

end

end Paired

/-- What the end of a verification does to the votes parked for its op number:
some of them are taken off, all of them unless one goes to the worker. -/
def Popped (node node' : Node S A σ) (phase : Phase) (k : UInt32) : Prop :=
  ∃ votes, node.replica.pending phase k = some votes ∧
    (node'.replica.pending phase k = none ∨
      ∃ popped vote rest, votes = popped ++ vote :: rest ∧ node'.replica.pending phase k = some rest ∧
        Job.verifyVote phase vote ∈ node'.jobs)

namespace Replica

section
variable {node : Node S A σ}

theorem onRecvVote_paired (h : Paired node) (phase : Phase) (vote : Verifiable (Vote phase) σ) :
    (node.replica.onRecvVote phase vote).Sat (fun r es => Paired { node with
      replica := r, jobs := node.jobs ++ submitted es, history := node.history ++ es }) fun _ => True := by
  refine onRecvVote_sat (fun votes hsome => ?_) (h.quiet (.refl _)) (fun hnone hv _ => ?_) trivial
  · refine h.update (.refl _) rfl (by simp [h.count, hsome]) (by simp) (by simpa using h.viewNum) ?_
    intro vs hvs v hmem
    cases hvs
    rcases List.mem_cons.mp hmem with rfl | hmem
    · rfl
    · exact h.parked _ _ _ hsome _ hmem
  · refine h.update (.refl _) rfl ?_ (fun phase' k' hne => ?_) ?_ ?_
    · rw [List.countP_append, h.count, hnone]
      simp
    · rw [List.countP_append, submitted_submit, submitted_nil, List.countP_cons_of_neg, List.countP_nil, Nat.add_zero]
      rw [verifies_verifyVote]
      exact fun hpk => hne ⟨hpk.1.symm, hpk.2.symm⟩
    · intro phase' vote' hmem
      rcases List.mem_append.mp hmem with hmem | hmem
      · exact h.viewNum phase' vote' hmem
      · cases List.mem_singleton.mp hmem
        exact hv
    · intro vs hvs v hmem
      cases hvs
      cases hmem

theorem onVerifiedVote_paired [App S] (h : Paired node) {n : Nat} {phase : Phase}
    {vote : Verifiable (Vote phase) σ} (hjob : node.jobs[n]? = some (.verifyVote phase vote)) :
    (node.replica.onVerifiedVote phase vote).Sat (fun r es =>
      Paired { node with replica := r, jobs := node.jobs.eraseIdx n ++ submitted es, history := node.history ++ es } ∧
      Popped node { node with
        replica := r, jobs := node.jobs.eraseIdx n ++ submitted es, history := node.history ++ es }
        phase vote.inner.opNum) fun _ => True := by
  have hmem : Job.verifyVote phase vote ∈ node.jobs := List.mem_of_getElem? hjob
  obtain ⟨votes, hvotes⟩ := h.key_of_job hmem
  refine onVerifiedVote_sat (fun hne => absurd (h.viewNum phase vote hmem) hne) fun _ => ?_
  refine (insertVote_quiet phase vote).mono (fun r es hr => ⟨fun hnone => ?_, fun votes' hsome => ?_⟩) fun _ _ => trivial
  · rw [hr.pending, hvotes] at hnone
    cases hnone
  obtain rfl : votes' = votes := by
    rw [hr.pending, hvotes] at hsome
    exact (Option.some.inj hsome).symm
  have hr' : Quiet node.replica r [] := ⟨hr.pending, hr.viewNum, by simp⟩
  have hjobs : ∀ phase' k', (node.jobs.eraseIdx n ++ submitted es).countP (Job.verifies phase' k') =
      if phase' = phase ∧ k' = vote.inner.opNum then 0 else node.jobs.countP (Job.verifies phase' k') := by
    intro phase' k'
    rw [List.countP_append, countP_verifies_eq_zero hr.jobs, h.countP_eraseIdx hjob, Nat.add_zero]
  have hview : ∀ phase' vote', Job.verifyVote phase' vote' ∈ node.jobs.eraseIdx n ++ submitted es →
      vote'.inner.viewNum = node.replica.viewNum := by
    intro phase' vote' hmem'
    rcases List.mem_append.mp hmem' with hmem' | hmem'
    · exact h.viewNum phase' vote' (List.mem_of_mem_eraseIdx hmem')
    · exact absurd hmem' (hr.jobs phase' vote')
  refine drainPending_sat votes' ?_ (fun popped v rest heq hv _ => ?_) trivial
  · rw [List.append_nil]
    refine ⟨h.update hr' rfl ?_ (fun phase' k' hne => ?_) hview (by simp), votes', hvotes, Or.inl (by simp)⟩
    · rw [hjobs, if_pos ⟨rfl, rfl⟩]
      rfl
    · rw [hjobs, if_neg hne]
  · have hvk : v.inner.opNum = vote.inner.opNum := h.parked _ _ _ hvotes v (by rw [heq]; simp)
    simp only [submitted_append, submitted_submit, submitted_nil, ← List.append_assoc]
    refine ⟨h.update hr' rfl ?_ (fun phase' k' hne => ?_) ?_ ?_, votes', hvotes,
      Or.inr ⟨popped, v, rest, heq, by simp, by simp⟩⟩
    · rw [List.countP_append, hjobs, if_pos ⟨rfl, rfl⟩]
      simp [hvk]
    · rw [List.countP_append, hjobs, if_neg hne, List.countP_cons_of_neg, List.countP_nil, Nat.add_zero]
      rw [verifies_verifyVote, hvk]
      exact fun hpk => hne ⟨hpk.1.symm, hpk.2.symm⟩
    · intro phase' vote' hmem'
      rcases List.mem_append.mp hmem' with hmem' | hmem'
      · exact hview phase' vote' hmem'
      · cases List.mem_singleton.mp hmem'
        exact hv.trans hr.viewNum
    · intro vs hvs v' hmem'
      cases hvs
      exact h.parked _ _ _ hvotes v' (by rw [heq]; simp [hmem'])

end

end Replica

/-! ## Runs -/

theorem paired_apply {node : Node S A σ} {out : Handler A σ (Replica S A σ)} (hout : out.Sat (fun r es => Paired { node with
      replica := r, jobs := node.jobs ++ submitted es, history := node.history ++ es }) fun _ => True) :
    (node.apply out).stopped = none → Paired (node.apply out) :=
  Node.apply_sat (J := fun node => node.stopped = none → Paired node)
    (hout.mono (fun _ _ h _ => h) fun _ _ _ h => by cases h)

theorem paired_recv {node : Node S A σ} (h : Paired node) (message : ToReplica A σ) :
    (node.apply (node.replica.onRecv message)).stopped = none →
      Paired (node.apply (node.replica.onRecv message)) := by
  refine paired_apply ?_
  cases message with
  | request request => exact (Replica.onRecvRequest_quiet request).mono (fun _ _ => h.quiet) fun _ _ => trivial
  | prePrepare prePrepare requests =>
    exact (Replica.onRecvPrePrepare_quiet prePrepare requests).mono (fun _ _ => h.quiet) fun _ _ => trivial
  | vote phase vote => exact Replica.onRecvVote_paired h phase vote

section
variable [App S] [DigestHash A] {crypto : Crypto σ} {node : Node S A σ}

/-- A verification of a vote that the worker finishes is of a valid signature. -/
def ValidVotes (crypto : Crypto σ) (node : Node S A σ) (input : Input A σ) : Prop :=
  ∀ phase vote, node.finishes input = some (.verifyVote phase vote) →
    crypto.verify vote.inner.replicaId.toNat vote = true

/-- The end of a job whose event is handled without a look at the pending votes. -/
theorem paired_finish (h : Paired node) {n : Nat} {job : Job A σ} (hjob : node.jobs[n]? = some job)
    (hv : ∀ phase k, job.verifies phase k = false)
    (hevent : ∀ event, job.run crypto = some event → (node.replica.onEvent event).Sat (Quiet node.replica) fun _ => True) :
    ({ node with jobs := node.jobs.eraseIdx n }.finish crypto job).stopped = none →
      Paired ({ node with jobs := node.jobs.eraseIdx n }.finish crypto job) := by
  have herase := (h.erase hjob hv).sign (node.signed ++ (job.signs crypto.scheme).toList)
  unfold Node.finish
  cases hrun : job.run crypto with
  | none => exact fun _ => herase
  | some event => exact paired_apply ((hevent event hrun).mono (fun _ _ => herase.quiet) fun _ _ => trivial)

theorem popped_finish (h : Paired node) {n : Nat} {phase : Phase} {vote : Verifiable (Vote phase) σ}
    (hjob : node.jobs[n]? = some (.verifyVote phase vote))
    (hvalid : crypto.verify vote.inner.replicaId.toNat vote = true)
    (hrun : ({ node with jobs := node.jobs.eraseIdx n }.finish crypto (.verifyVote phase vote)).stopped = none) :
    Paired ({ node with jobs := node.jobs.eraseIdx n }.finish crypto (.verifyVote phase vote)) ∧
      Popped node ({ node with jobs := node.jobs.eraseIdx n }.finish crypto (.verifyVote phase vote))
        phase vote.inner.opNum := by
  have hevent : (Job.verifyVote phase vote : Job A σ).run crypto = some (.verifiedVote phase vote) := if_pos hvalid
  unfold Node.finish at hrun ⊢
  rw [hevent] at hrun ⊢
  refine Node.apply_sat (J := fun node' => node'.stopped = none → Paired node' ∧ Popped node node' phase vote.inner.opNum)
    ((Replica.onVerifiedVote_paired h hjob).mono (fun _ _ hr _ => ?_) fun _ _ _ hs => by cases hs) hrun
  exact ⟨hr.1.sign _, hr.2⟩

/-- The end of a job whose signature is not valid leaves a key without a job. -/
theorem unpaired_of_invalid (h : Paired node) {n : Nat} {phase : Phase} {vote : Verifiable (Vote phase) σ}
    (hjob : node.jobs[n]? = some (.verifyVote phase vote))
    (hinvalid : crypto.verify vote.inner.replicaId.toNat vote = false) :
    ((node.step crypto (.complete n)).replica.pending phase vote.inner.opNum).isSome = true ∧
      (node.step crypto (.complete n)).jobs.countP (Job.verifies phase vote.inner.opNum) = 0 := by
  obtain ⟨votes, hvotes⟩ := h.key_of_job (List.mem_of_getElem? hjob)
  simp only [Node.step, hjob, Node.finish, Job.run, hinvalid, Bool.false_eq_true, if_false]
  refine ⟨by rw [hvotes]; rfl, ?_⟩
  rw [h.countP_eraseIdx hjob, if_pos ⟨rfl, rfl⟩]

theorem paired_step {input : Input A σ} (h : Paired node) (hvalid : ValidVotes crypto node input) :
    (node.step crypto input).stopped = none → Paired (node.step crypto input) := by
  refine Node.step_sat (J := fun node => node.stopped = none → Paired node) (fun message _ => paired_recv h message)
    (fun _ _ => h) fun n job hinput hjob => ?_
  subst hinput
  cases job with
  | signPrePrepare viewNum opNum requests =>
    refine paired_finish h hjob (fun _ _ => rfl) fun event hrun => ?_
    cases hrun
    exact Replica.onSignedPrePrepare_quiet _ _
  | verifyPrePrepare replicaId prePrepare requests =>
    refine paired_finish h hjob (fun _ _ => rfl) fun event hrun => ?_
    simp only [Job.run, Option.ite_none_right_eq_some, Option.some.injEq] at hrun
    rw [← hrun.2]
    exact Replica.onVerifiedPrePrepare_quiet _ _
  | signVote phase vote =>
    refine paired_finish h hjob (fun _ _ => rfl) fun event hrun => ?_
    cases hrun
    exact Replica.onSignedVote_quiet _ _
  | verifyVote phase vote => exact fun hrun => (popped_finish h hjob (hvalid phase vote hjob) hrun).1

theorem paired_reach {app : S} {numFaulty : Nat}
    (h : (nodeMachine (A := A) crypto app numFaulty).Reach (ValidVotes crypto) node) :
    node.stopped = none → Paired node := by
  refine h.invariant (I := fun node => node.stopped = none → Paired node) ?_ ?_
  · rintro _ ⟨id, -, rfl⟩ -
    exact Paired.new id app crypto.numReplica numFaulty
  · rintro node input node' - ih hvalid ⟨hrunning, rfl⟩
    exact paired_step (ih hrunning) hvalid

/-- While every verification of a vote that finishes is of a valid signature, a
pending key goes with exactly one job, and the end of that job takes votes off
the key, all of them unless one is with the worker again. -/
theorem pending_iff_verifying {app : S} {numFaulty : Nat}
    (h : (nodeMachine (A := A) crypto app numFaulty).Reach (ValidVotes crypto) node)
    (hrunning : node.stopped = none) (phase : Phase) (k : UInt32) :
    (node.jobs.countP (Job.verifies phase k) = if (node.replica.pending phase k).isSome then 1 else 0) ∧
      ∀ n vote, node.jobs[n]? = some (.verifyVote phase vote) → vote.inner.opNum = k →
        ValidVotes crypto node (.complete n) → (node.step crypto (.complete n)).stopped = none →
        Popped node (node.step crypto (.complete n)) phase k := by
  have hp := paired_reach h hrunning
  refine ⟨hp.count phase k, ?_⟩
  rintro n vote hjob rfl hvalid hrun
  have hstep : node.step crypto (.complete n) =
      { node with jobs := node.jobs.eraseIdx n }.finish crypto (.verifyVote phase vote) := by
    simp only [Node.step, hjob]
  rw [hstep] at hrun ⊢
  exact (popped_finish hp hjob (hvalid phase vote hjob) hrun).2

end

end

/-- A vote is received, verified, and released. -/
theorem pending_iff_verifying_one :
    let crypto : Crypto (Nat × Digest) := ⟨Scheme.toy, 4, 1, by decide⟩
    let vote : Verifiable Prepare (Nat × Digest) :=
      Crypto.sign ⟨Scheme.toy, 4, 2, by decide⟩ ⟨0, 1, Vector.replicate 32 0, 2⟩
    let node : Node Null UInt8 (Nat × Digest) :=
      (Node.new 1 Null.mk 4 1).step crypto (.recv (.vote .prepare vote))
    node.jobs.countP (Job.verifies .prepare 1) = 1 ∧ Popped node (node.step crypto (.complete 0)) .prepare 1 := by
  intro crypto vote node
  have hreach : (nodeMachine crypto Null.mk 1).Reach (ValidVotes crypto) node :=
    .next (.init ⟨1, rfl, rfl⟩) (fun phase vote h => by cases h) ⟨rfl, rfl⟩
  have h := pending_iff_verifying hreach rfl .prepare 1
  have hvalid : crypto.verify 2 vote = true := by decide +kernel
  have hrunning : (node.step crypto (.complete 0)).stopped = none := by decide +kernel
  refine ⟨h.1, h.2 0 vote rfl rfl (fun phase vote h => ?_) hrunning⟩
  cases h
  exact hvalid

/-- A `Prepare` whose signature is not valid leaves its key behind. -/
theorem pending_without_job :
    ∃ node : Node Null UInt8 (Nat × Digest),
      (nodeMachine ⟨Scheme.toy, 4, 1, by decide⟩ Null.mk 1).Reach Machine.always node ∧ node.stopped = none ∧
        (node.replica.pending .prepare 1).isSome = true ∧ node.jobs.countP (Job.verifies .prepare 1) = 0 := by
  let vote : Verifiable Prepare (Nat × Digest) := ⟨⟨0, 1, Vector.replicate 32 0, 2⟩, (3, Vector.replicate 32 0)⟩
  let crypto : Crypto (Nat × Digest) := ⟨Scheme.toy, 4, 1, by decide⟩
  refine ⟨((Node.new 1 Null.mk 4 1).step crypto (.recv (.vote .prepare vote))).step crypto (.complete 0), ?_,
    by rfl, by rfl, by rfl⟩
  exact .next (.next (.init ⟨1, rfl, rfl⟩) trivial ⟨rfl, rfl⟩) trivial ⟨rfl, rfl⟩

end Neatworks.Pbft
