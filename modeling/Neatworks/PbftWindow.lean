import Neatworks.PbftQueue

/-!
# The window of the primary

The primary has at most `NUM_CONCURRENT_PRE_PREPARE` proposals that are not
committed, as long as what waits in its queue fits into the batches that are left
when a quorum of commits is complete. The guard on a new request is strict and
the one of the loop after a commit is not, so a longer queue exceeds the window.
-/

namespace Neatworks.Pbft

open Outcome

section
variable {S A σ : Type}

namespace Replica

variable {self : Replica S A σ}

/-- The number of the last slot up to which the log is committed. -/
def committedNum (self : Replica S A σ) : Nat :=
  self.commitNum + ((self.log.drop (self.commitNum + 1)).takeWhile fun entry => !entry.commits.isEmpty).length

/-- The same when the slot `k` is committed as well. -/
def committedWith (self : Replica S A σ) (k : Nat) : Nat :=
  self.commitNum + (((self.log.drop (self.commitNum + 1)).zipIdx (self.commitNum + 1)).takeWhile fun slot =>
    !slot.1.commits.isEmpty || decide (slot.2 = k)).length

/-- The replica with the quorum of `commit` in its log. -/
def closedBy (self : Replica S A σ) (commit : Verifiable Commit σ) : Replica S A σ :=
  (self.record .commit commit).closeQuorum .commit commit.inner.opNum (self.quorumWith .commit commit)

/-- The commit completes the quorum of a slot that is prepared. -/
def Completes (self : Replica S A σ) (commit : Verifiable Commit σ) : Prop :=
  self.numReplica - self.numFaulty ≤ (self.quorumWith .commit commit).len ∧
    commit.inner.opNum.toNat < self.log.length ∧ (self.entry commit.inner.opNum.toNat).prepares ≠ []

instance (commit : Verifiable Commit σ) : Decidable (self.Completes commit) :=
  haveI : Decidable ((self.entry commit.inner.opNum.toNat).prepares ≠ []) :=
    decidable_of_iff ((self.entry commit.inner.opNum.toNat).prepares.isEmpty = false) (by simp)
  inferInstanceAs (Decidable (_ ∧ _ ∧ _))

/-- The commit that an event puts into its quorum. -/
def inserts (self : Replica S A σ) : Event A σ → Option (Verifiable Commit σ)
  | .signedVote .commit vote =>
    if vote.inner.viewNum = self.viewNum ∧ (self.entry vote.inner.opNum.toNat).commits.isEmpty then some vote else none
  | .verifiedVote .commit vote => if vote.inner.viewNum = self.viewNum then some vote else none
  | _ => none

/-- The queue fits into the batches that the window leaves when the slot of the
commit is committed. -/
def Fits (self : Replica S A σ) (commit : Verifiable Commit σ) : Prop :=
  self.requests.length ≤ 100 * (self.committedWith commit.inner.opNum.toNat + numConcurrentPrePrepare - self.opNum)

instance (commit : Verifiable Commit σ) : Decidable (self.Fits commit) := inferInstanceAs (Decidable (_ ≤ _))

def InWindow (self : Replica S A σ) : Prop := self.opNum ≤ self.commitNum + numConcurrentPrePrepare

/-! ## The loops after a commit -/

theorem closeBatches_mono (fuel : Nat) :
    (closeBatches fuel self).Sat (fun r _ => self.opNum ≤ r.opNum ∧ r.commitNum = self.commitNum) fun _ => True :=
  closeBatches_sat (R := fun _ => True) (I := fun r _ => self.opNum ≤ r.opNum ∧ r.commitNum = self.commitNum)
    (fun _ _ h => h) (fun _ _ _ => trivial)
    (fun _ _ h => closeBatch_sat (fun _ _ _ => ⟨Nat.le_succ_of_le h.1, h.2⟩) trivial) fuel [] ⟨Nat.le_refl _, rfl⟩

/-- The loop fills the window, and it goes past it if there is a request left. -/
theorem closeBatches_window (fuel : Nat) (hfuel : self.requests.length ≤ fuel)
    (hprimary : self.requests ≠ [] → self.isPrimary = true) (hwindow : self.InWindow) :
    (closeBatches fuel self).Sat (fun r _ => self.opNum ≤ r.opNum ∧ r.commitNum = self.commitNum ∧
      (r.InWindow ↔ self.requests.length ≤ 100 * (self.commitNum + numConcurrentPrePrepare - self.opNum))) fun _ => True := by
  have hstop : self.requests = [] → self.opNum ≤ self.opNum ∧ self.commitNum = self.commitNum ∧
      (self.InWindow ↔ self.requests.length ≤ 100 * (self.commitNum + numConcurrentPrePrepare - self.opNum)) := by
    intro hnil
    simp [hnil, hwindow]
  unfold InWindow at hwindow
  induction fuel generalizing self with
  | zero => exact hstop (List.length_eq_zero_iff.mp (Nat.le_zero.mp hfuel))
  | succ fuel ih =>
    unfold closeBatches
    rw [sat_ite]
    refine ⟨fun hopen => ?_, fun hstopped => hstop ?_⟩
    · rw [sat_bind]
      refine addU32_sat (fun _ => ?_) trivial
      rw [if_pos hwindow, sat_bind]
      refine closeBatch_sat (fun hp hne _ => ?_) trivial
      have hpos : 0 < self.requests.length := List.length_pos_of_ne_nil hne
      set closed : Replica S A σ := { self with opNum := self.opNum + 1, requests := self.requests.drop 100 } with hclosed
      have hlength : closed.requests.length = self.requests.length - 100 := List.length_drop
      by_cases hroom : closed.opNum ≤ closed.commitNum + numConcurrentPrePrepare
      · have hdone : closed.requests = [] → closed.opNum ≤ closed.opNum ∧ closed.commitNum = closed.commitNum ∧
            (closed.InWindow ↔ closed.requests.length ≤ 100 * (closed.commitNum + numConcurrentPrePrepare - closed.opNum)) :=
          fun hnil => ⟨Nat.le_refl _, rfl, iff_of_true hroom (by simp [hnil])⟩
        have hfuel' : closed.requests.length ≤ fuel := by omega
        refine (ih hfuel' (fun _ => hp) hroom hdone).mono (fun r es hr => ?_) fun _ _ => trivial
        · have hop : closed.opNum = self.opNum + 1 := rfl
          have hcommit : closed.commitNum = self.commitNum := rfl
          rw [hop, hcommit, hlength] at hr
          rw [hop, hcommit] at hroom
          refine ⟨by omega, hr.2.1, hr.2.2.trans ?_⟩
          omega
      · -- The window was full: one more batch is past it, whatever the loop goes on to do.
        refine (closeBatches_mono fuel).mono (fun r es hr => ?_) fun _ _ => trivial
        have hop : closed.opNum = self.opNum + 1 := rfl
        have hcommit : closed.commitNum = self.commitNum := rfl
        rw [hop, hcommit] at hr hroom
        refine ⟨by omega, hr.2, ?_⟩
        unfold InWindow
        rw [hr.2]
        constructor
        · intro hle
          omega
        · intro hle
          have hzero : self.commitNum + numConcurrentPrePrepare - self.opNum = 0 := by omega
          rw [hzero] at hle
          omega
    · by_contra hne
      refine hstopped ?_
      simp [hprimary hne, hne]

theorem committedNum_closedBy (commit : Verifiable Commit σ) :
    (self.closedBy commit).committedNum = self.committedWith commit.inner.opNum.toNat := by
  set k := commit.inner.opNum.toNat with hk
  set close : LogEntry A σ → LogEntry A σ := fun entry => entry.setVotes .commit (self.quorumWith .commit commit).entries
  have hrest : (self.closedBy commit).log.drop (self.commitNum + 1) =
      ((self.log.drop (self.commitNum + 1)).zipIdx (self.commitNum + 1)).map fun slot =>
        if slot.2 = k then close slot.1 else slot.1 := by
    have hlog : (self.closedBy commit).log = self.log.modify k close := rfl
    rw [hlog]
    apply List.ext_getElem?
    intro i
    rw [List.getElem?_drop, List.getElem?_modify, List.getElem?_map, List.getElem?_zipIdx, List.getElem?_drop]
    cases self.log[self.commitNum + 1 + i]? with
    | none => rfl
    | some entry => simp [eq_comm]
  have hslot : ((fun entry : LogEntry A σ => !entry.commits.isEmpty) ∘ fun slot : LogEntry A σ × Nat =>
      if slot.2 = k then close slot.1 else slot.1) = fun slot => !slot.1.commits.isEmpty || decide (slot.2 = k) := by
    funext slot
    by_cases hsame : slot.2 = k
    · have hcommits : (close slot.1).commits.isEmpty = false := rfl
      simp [hsame, hcommits]
    · simp [hsame]
  unfold committedNum committedWith
  have hcommit : (self.closedBy commit).commitNum = self.commitNum := rfl
  rw [hcommit, hrest, List.takeWhile_map, List.length_map, hslot]

variable [App S]

theorem executeCommitted_num (rest : List (LogEntry A σ)) :
    (executeCommitted rest self).Sat (fun r _ =>
      r.commitNum = self.commitNum + (rest.takeWhile fun entry => !entry.commits.isEmpty).length ∧
        r.opNum = self.opNum ∧ r.requests = self.requests ∧ r.params = self.params) fun _ => True := by
  induction rest generalizing self with
  | nil => exact ⟨rfl, rfl, rfl, rfl⟩
  | cons entry rest ih =>
    unfold executeCommitted
    rw [sat_ite, List.takeWhile_cons]
    refine ⟨fun hempty => ?_, fun hsome => ?_⟩
    · rw [hempty]
      exact ⟨rfl, rfl, rfl, rfl⟩
    · rw [Bool.not_eq_true] at hsome
      rw [hsome, sat_bind]
      refine (executeRequests_frame _ _).mono ?_ fun _ _ => trivial
      rintro r es ⟨app, replies, rfl⟩
      refine ih.mono (fun r' es' hr => ⟨?_, hr.2.1, hr.2.2.1, hr.2.2.2⟩) fun _ _ => trivial
      rw [hr.1]
      simp only [Bool.not_false, if_true, List.length_cons]
      omega

theorem advance_window (hprimary : self.requests ≠ [] → self.isPrimary = true) (hwindow : self.InWindow) :
    self.advance.Sat (fun r _ => (r.InWindow ↔
      self.requests.length ≤ 100 * (self.committedNum + numConcurrentPrePrepare - self.opNum))) fun _ => True := by
  unfold advance
  rw [sat_bind]
  refine (executeCommitted_num _).mono (fun r es hr => ?_) fun _ _ => trivial
  obtain ⟨hcommit, hop, hrequests, hparams⟩ := hr
  have hwindow' : r.InWindow := by
    unfold InWindow at hwindow ⊢
    omega
  refine (closeBatches_window r.requests.length (Nat.le_refl _) (fun hne => ?_) hwindow').mono (fun r' es' hr' => ?_) fun _ _ => trivial
  · rw [isPrimary_congr hparams]
    exact hprimary (by rwa [← hrequests])
  · have hcommitted : r.commitNum = self.committedNum := hcommit
    rw [hr'.2.2, hrequests, hop, hcommitted]

theorem insertCommit_window (hprimary : self.requests ≠ [] → self.isPrimary = true) (hwindow : self.InWindow)
    (commit : Verifiable Commit σ) :
    (self.insertCommit commit).Sat (fun r _ => (r.InWindow ↔ (self.Completes commit → self.Fits commit)))
      fun _ => True := by
  have hkeep : ¬ self.Completes commit →
      ((self.record .commit commit).InWindow ↔ (self.Completes commit → self.Fits commit)) := by
    intro hnot
    have hsame : (self.record .commit commit).InWindow := by simpa [InWindow, record] using hwindow
    exact iff_of_true hsame fun hc => absurd hc hnot
  unfold insertCommit
  rw [sat_bind]
  refine subUsize_sat (fun _ => ?_) trivial
  rw [sat_ite]
  refine ⟨fun hfew => hkeep fun hc => absurd hc.1 (Nat.not_le.mpr hfew), fun henough => ?_⟩
  split
  · next hnone =>
    refine hkeep fun hc => ?_
    rw [List.getElem?_eq_none_iff] at hnone
    exact absurd hc.2.1 (Nat.not_lt.mpr (by simpa [record] using hnone))
  · next entry hentry =>
    have hslot : self.log[commit.inner.opNum.toNat]? = some entry := by simpa [record] using hentry
    simp only [sat_bind, sat_assert]
    refine ⟨fun hempty => ?_, fun _ => trivial⟩
    rw [sat_ite]
    refine ⟨fun hprepares => hkeep fun hc => hc.2.2 ?_, fun hprepares => ?_⟩
    · rw [entry_of_getElem? hslot]
      exact List.isEmpty_iff.mp hprepares
    · have hc : self.Completes commit := by
        refine ⟨Nat.not_lt.mp henough, (List.getElem?_eq_some_iff.mp hslot).1, ?_⟩
        rw [entry_of_getElem? hslot]
        simpa using hprepares
      have hclosed : Steady self (self.closedBy commit) [] := by
        constructor <;> simp [closedBy, record, closeQuorum, modifyEntry, params]
      have hprimary' : (self.closedBy commit).requests ≠ [] → (self.closedBy commit).isPrimary = true := by
        rw [hclosed.requests, isPrimary_congr hclosed.params]
        exact hprimary
      have hwindow' : (self.closedBy commit).InWindow := by
        rw [InWindow, hclosed.opNum, hclosed.commitNum]
        exact hwindow
      refine (advance_window hprimary' hwindow').mono (fun r es hr => ?_) fun _ _ => trivial
      rw [hr, committedNum_closedBy, hclosed.requests, hclosed.opNum]
      exact ⟨fun h _ => h, fun h => h hc⟩

end Replica

/-! ## The handlers -/

section
variable {self : Replica S A σ}

theorem Steady.inWindow {r : Replica S A σ} {es : List (Effect A σ)} (h : Steady self r es) : r.InWindow ↔ self.InWindow := by
  rw [Replica.InWindow, Replica.InWindow, h.opNum, h.commitNum]

theorem onRecvRequest_window (hwindow : self.InWindow) (request : Request A) :
    (self.onRecvRequest request).Sat (fun r _ => r.InWindow) fun _ => True := by
  by_cases hadmits : self.admits request = true
  · rw [Replica.onRecvRequest_of_admits hadmits]
    refine Replica.acceptRequest_sat (fun _ _ => hwindow) (fun _ hle => ?_) trivial
    exact Replica.closeBatch_sat (fun _ _ _ => Nat.succ_le_succ hle) trivial
  · rw [Bool.not_eq_true] at hadmits
    refine (Replica.onRecvRequest_of_not_admits hadmits).mono (fun r es hr => ?_) fun _ _ => trivial
    rw [hr.1]
    exact hwindow

/-- The queue fits if the event completes a quorum of commits. -/
def Replica.FitsOn (self : Replica S A σ) (event : Event A σ) : Prop :=
  ∀ commit, self.inserts event = some commit → self.Completes commit → self.Fits commit

instance (event : Event A σ) : Decidable (self.FitsOn event) :=
  match h : self.inserts event with
  | none => .isTrue fun commit hsome => by rw [h] at hsome; cases hsome
  | some commit => decidable_of_iff (self.Completes commit → self.Fits commit) <| by
    unfold Replica.FitsOn
    rw [h]
    exact ⟨fun hfits c hc => by cases hc; exact hfits, fun hfits => hfits commit rfl⟩

variable [App S]

theorem onEvent_window (hprimary : self.requests ≠ [] → self.isPrimary = true) (hwindow : self.InWindow) (event : Event A σ) :
    (self.onEvent event).Sat (fun r _ => (r.InWindow ↔ self.FitsOn event)) fun _ => True := by
  have hsame (hnone : self.inserts event = none) : self.InWindow ↔ self.FitsOn event :=
    iff_of_true hwindow fun commit hsome => by rw [hnone] at hsome; cases hsome
  have hsteady {r : Replica S A σ} {es : List (Effect A σ)} (hnone : self.inserts event = none) (hr : Steady self r es) :
      r.InWindow ↔ self.FitsOn event := hr.inWindow.trans (hsame hnone)
  have hinsert (vote : Verifiable Commit σ) (hsome : self.inserts event = some vote) :
      (self.insertCommit vote).Sat (fun r _ => (r.InWindow ↔ self.FitsOn event)) fun _ => True := by
    refine (Replica.insertCommit_window hprimary hwindow vote).mono (fun r es hr => hr.trans ?_) fun _ _ => trivial
    unfold Replica.FitsOn
    rw [hsome]
    exact ⟨fun hfits c hc => by cases hc; exact hfits, fun hfits => hfits vote rfl⟩
  cases event with
  | signedPrePrepare prePrepare requests =>
    exact (onSignedPrePrepare_steady prePrepare requests).mono (fun r es hr => hsteady rfl hr) fun _ _ => trivial
  | verifiedPrePrepare prePrepare requests =>
    exact (onVerifiedPrePrepare_steady prePrepare requests).mono (fun r es hr => hsteady rfl hr) fun _ _ => trivial
  | signedVote phase vote =>
    cases phase with
    | prepare =>
      refine Replica.onSignedVote_sat (fun _ => hsame rfl) (hsame rfl) (fun _ _ => ?_) trivial
      exact (insertPrepare_steady vote).mono (fun r es hr => hsteady rfl hr) fun _ _ => trivial
    | commit =>
      unfold Replica.onEvent Replica.onSignedVote
      simp only [sat_ite, sat_bind, sat_emit, ne_eq, not_not]
      refine ⟨fun hview => hsame (if_neg fun h => hview h.1), fun hview => ?_⟩
      split
      · trivial
      · next entry hentry =>
        have hcommits : (self.entry vote.inner.opNum.toNat).commits = entry.commits := by
          rw [Replica.entry_of_getElem? hentry]
        rw [sat_ite]
        refine ⟨fun hempty => ?_, fun hsome => ?_⟩
        · exact (hinsert vote (if_pos ⟨hview, by rw [hcommits]; exact hempty⟩)).mono (fun r es hr => hr) fun _ _ => trivial
        · refine hsame (if_neg fun h => hsome ?_)
          rw [hcommits] at h
          exact h.2
  | verifiedVote phase vote =>
    cases phase with
    | prepare =>
      refine Replica.onVerifiedVote_sat (fun _ => hsame rfl) fun _ => ?_
      refine (insertPrepare_steady vote).mono (fun r es hr => ⟨fun _ => hsteady rfl hr, fun votes _ => ?_⟩) fun _ _ => trivial
      refine (drainPending_steady _ votes).mono (fun r' es' hr' => ?_) fun _ _ => trivial
      rw [hr'.inWindow]
      exact hsteady rfl hr
    | commit =>
      refine Replica.onVerifiedVote_sat (fun hview => hsame (if_neg hview)) fun hview => ?_
      refine (hinsert vote (if_pos hview)).mono (fun r es hr => ⟨fun _ => hr, fun votes _ => ?_⟩) fun _ _ => trivial
      refine (drainPending_steady _ votes).mono (fun r' es' hr' => ?_) fun _ _ => trivial
      rw [hr'.inWindow]
      exact hr

end

/-! ## Runs -/

theorem window_apply {node : Node S A σ} {out : Handler A σ (Replica S A σ)} {P : Prop}
    (h : out.Sat (fun r _ => (r.InWindow ↔ P)) fun _ => True) :
    (node.apply out).stopped = none → ((node.apply out).replica.InWindow ↔ P) := by
  refine Node.apply_sat (J := fun node' => node'.stopped = none → (node'.replica.InWindow ↔ P)) ?_
  exact h.mono (fun r es hr _ => hr) fun es _ reason hnone => by cases hnone

section
variable [App S] [DigestHash A] {crypto : Crypto σ}

def Node.event (crypto : Crypto σ) (node : Node S A σ) (input : Input A σ) : Option (Event A σ) :=
  (node.finishes input).bind (·.run crypto)

/-- In a step that completes a quorum of commits the queue fits into the batches
that the window leaves. -/
def QueueFits (crypto : Crypto σ) (node : Node S A σ) (input : Input A σ) : Prop :=
  ∀ event, node.event crypto input = some event → node.replica.FitsOn event

theorem window_step {node : Node S A σ} {input : Input A σ} (hprimary : node.replica.requests ≠ [] → node.replica.isPrimary = true)
    (hwindow : node.replica.InWindow) (hstep : (node.step crypto input).stopped = none) :
    (node.step crypto input).replica.InWindow ↔ QueueFits crypto node input := by
  have hnone (h : node.event crypto input = none) : QueueFits crypto node input := fun event hevent => by
    rw [h] at hevent
    cases hevent
  revert hstep
  refine Node.step_sat (J := fun node' => node'.stopped = none → (node'.replica.InWindow ↔ QueueFits crypto node input))
    (fun message hmessage => ?_) (fun hidle _ => iff_of_true hwindow (hnone (by rw [Node.event, hidle]; rfl)))
    fun n job hinput hjob => ?_
  · apply window_apply
    subst hmessage
    have hfits : QueueFits crypto node (.recv message) := hnone rfl
    have hkeep {r : Replica S A σ} {es : List (Effect A σ)} (hr : Steady node.replica r es) :
        r.InWindow ↔ QueueFits crypto node (.recv message) := iff_of_true (hr.inWindow.mpr hwindow) hfits
    cases message with
    | request request =>
      exact (onRecvRequest_window hwindow request).mono (fun r es hr => iff_of_true hr hfits) fun _ _ => trivial
    | prePrepare prePrepare requests =>
      exact Replica.onRecvPrePrepare_sat (iff_of_true hwindow hfits) (fun _ _ => iff_of_true hwindow hfits) trivial
    | vote phase vote => exact (onRecvVote_steady phase vote).mono (fun r es hr => hkeep hr) fun _ _ => trivial
  · subst hinput
    have hevent : node.event crypto (.complete n) = job.run crypto := by
      rw [Node.event, Node.finishes, hjob, Option.bind_some]
    unfold Node.finish
    split
    · next hrun => exact fun _ => iff_of_true hwindow (hnone (hevent.trans hrun))
    · next event hrun =>
      apply window_apply
      refine (onEvent_window hprimary hwindow event).mono (fun r es hr => hr.trans ?_) fun _ _ => trivial
      unfold QueueFits
      rw [hevent, hrun]
      exact ⟨fun hfits e he => by cases he; exact hfits, fun hfits => hfits event rfl⟩

theorem step_stopped_replica {node : Node S A σ} {input : Input A σ} (hrunning : node.stopped = none)
    (h : (node.step crypto input).stopped ≠ none) : (node.step crypto input).replica = node.replica := by
  have happly (node' : Node S A σ) (hnode : node'.replica = node.replica) (hnone : node'.stopped = none)
      (out : Handler A σ (Replica S A σ)) :
      (node'.apply out).stopped ≠ none → (node'.apply out).replica = node.replica := by
    cases out with
    | ok r es => exact fun hne => absurd hnone hne
    | fail reason es => exact fun _ => hnode
  revert h
  refine Node.step_sat (J := fun node' => node'.stopped ≠ none → node'.replica = node.replica)
    (fun message _ => happly node rfl hrunning _) (fun _ _ => rfl) fun n job _ _ => ?_
  unfold Node.finish
  split
  · exact fun _ => rfl
  · exact happly { node with jobs := node.jobs.eraseIdx n, signed := node.signed ++ (job.signs crypto.scheme).toList } rfl hrunning _

theorem reach_primary {app : S} {numFaulty : Nat} {C : Node S A σ → Input A σ → Prop} {node : Node S A σ}
    (h : (nodeMachine crypto app numFaulty).Reach C node) (hrunning : node.stopped = none) :
    node.replica.requests ≠ [] → node.replica.isPrimary = true := by
  have hintake : ∃ admitted, (intakeMachine crypto app numFaulty).Reach Machine.always ⟨node, admitted⟩ := by
    clear hrunning
    induction h with
    | init h => exact ⟨[], .init ⟨h, rfl⟩⟩
    | next _ _ hs ih =>
      obtain ⟨admitted, hreach⟩ := ih
      exact ⟨_, hreach.next trivial ⟨hs, rfl⟩⟩
  obtain ⟨admitted, hreach⟩ := hintake
  exact (serves_reach hreach hrunning).queued.primary

/-- In a run in which the queue fits at each quorum of commits, the primary has
never more than `NUM_CONCURRENT_PRE_PREPARE` proposals that are not committed;
and a step from there goes past the window if the queue does not fit. -/
theorem proposal_window {app : S} {numFaulty : Nat} {node : Node S A σ}
    (h : (nodeMachine crypto app numFaulty).Reach (QueueFits crypto) node) :
    node.replica.opNum ≤ node.replica.commitNum + Replica.numConcurrentPrePrepare ∧
      ∀ input, node.stopped = none → (node.step crypto input).stopped = none →
        ((node.step crypto input).replica.opNum ≤ (node.step crypto input).replica.commitNum + Replica.numConcurrentPrePrepare ↔
          QueueFits crypto node input) := by
  have hwindow : node.replica.InWindow := by
    refine h.invariant (I := fun node => node.replica.InWindow) ?_ ?_
    · intro node hinit
      obtain ⟨id, _, rfl⟩ := hinit
      exact Nat.zero_le _
    · intro node input node' hreach hwindow hfits hnext
      obtain ⟨hrunning, rfl⟩ := hnext
      by_cases hstopped : (node.step crypto input).stopped = none
      · exact (window_step (reach_primary hreach hrunning) hwindow hstopped).mpr hfits
      · rw [step_stopped_replica hrunning hstopped]
        exact hwindow
  exact ⟨hwindow, fun input hrunning hstep => window_step (reach_primary h hrunning) hwindow hstep⟩

end

end

/-- A step of a node that has not stopped. -/
def Node.exec [App S] [DigestHash A] (crypto : Crypto σ) (node : Node S A σ) (input : Input A σ) : Option (Node S A σ) :=
  if node.stopped = none then some (node.step crypto input) else none

theorem Node.exec_next [App S] [DigestHash A] {crypto : Crypto σ} {app : S} {numFaulty : Nat} (node : Node S A σ)
    (input : Input A σ) (node' : Node S A σ) (h : node.exec crypto input = some node') :
    (nodeMachine crypto app numFaulty).next node input node' := by
  unfold Node.exec at h
  split at h
  · next hrunning =>
    cases h
    exact ⟨hrunning, rfl⟩
  · cases h

instance [DigestHash A] {crypto : Crypto σ} (node : Node S A σ) (input : Input A σ) : Decidable (QueueFits crypto node input) :=
  match h : node.event crypto input with
  | none => .isTrue fun event hsome => by rw [h] at hsome; cases hsome
  | some event => decidable_of_iff (node.replica.FitsOn event) <| by
    unfold QueueFits
    rw [h]
    exact ⟨fun hfits e he => by cases he; exact hfits, fun hfits => hfits event rfl⟩

def primaryCrypto : Crypto (Nat × Digest) := ⟨Scheme.toy, 4, 0, by decide⟩

def requestOf (clientId : Nat) : Request UInt8 := ⟨UInt32.ofNat clientId, 0, 1, []⟩

/-- Requests of so many clients arrive, and the first one is committed. -/
def commitFirst (clients : Nat) : List (Input UInt8 (Nat × Digest)) :=
  let vote (phase : Phase) (id : Fin 4) : Input UInt8 (Nat × Digest) :=
    .recv (.vote phase (signedBy id ⟨0, 1, Scheme.toy.digest [requestOf 0], UInt8.ofNat id⟩))
  (List.range clients).map (fun clientId => .recv (.request (requestOf clientId))) ++
    [.complete 0, vote .prepare 1, vote .prepare 2, .complete 0, .complete 0, .complete 0, vote .commit 1, vote .commit 2,
      .complete 0, .complete 0]

theorem proposal_window_two : ∃ node : Node Null UInt8 (Nat × Digest),
    (nodeMachine primaryCrypto Null.mk 1).Reach (QueueFits primaryCrypto) node ∧ node.replica.opNum = 2 ∧
      node.replica.opNum ≤ node.replica.commitNum + Replica.numConcurrentPrePrepare := by
  obtain ⟨node, hreach, hop⟩ := Machine.exists_reach (M := nodeMachine primaryCrypto Null.mk 1) (C := QueueFits primaryCrypto)
    Node.exec_next ⟨0, rfl, rfl⟩ (commitFirst 2)
    (fun node => node.replica.opNum = 2) (by decide +kernel)
  exact ⟨node, hreach, hop, (proposal_window hreach).1⟩

/-- While the first request is proposed, 101 more arrive. -/
theorem proposal_window_fails : ∃ node : Node Null UInt8 (Nat × Digest),
    (nodeMachine primaryCrypto Null.mk 1).Reach Machine.always node ∧ node.stopped = none ∧
      ¬ node.replica.opNum ≤ node.replica.commitNum + Replica.numConcurrentPrePrepare := by
  refine Machine.exists_reach (M := nodeMachine primaryCrypto Null.mk 1) Node.exec_next ⟨0, rfl, rfl⟩ (commitFirst 102)
    (fun node => node.stopped = none ∧ ¬ node.replica.opNum ≤ node.replica.commitNum + Replica.numConcurrentPrePrepare) (by decide +kernel)

end Neatworks.Pbft
