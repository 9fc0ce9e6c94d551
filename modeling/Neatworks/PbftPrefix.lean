import Neatworks.PbftWindow

/-!
# The committed prefix

A slot of the log gets its commits in `insert_commit` only, and the loop that
follows advances as far as the slots have commits. So what a replica has executed
are the batches of the slots up to `commit_num`, as they were when `commit_num`
came to them, and the next slot has no commits.
-/

namespace Neatworks.Pbft

open Outcome

section
variable {S A σ : Type}

def Effect.execution : Effect A σ → Option (Nat × Request A)
  | .execute opNum request _ => some (opNum, request)
  | _ => none

/-- The requests that `execute` is called for, with their op numbers, in order. -/
def executions (es : List (Effect A σ)) : List (Nat × Request A) := es.filterMap Effect.execution

@[simp] theorem executions_nil : executions ([] : List (Effect A σ)) = [] := rfl

@[simp] theorem executions_append (es es' : List (Effect A σ)) : executions (es ++ es') = executions es ++ executions es' :=
  List.filterMap_append ..

@[simp] theorem executions_submit (job : Job A σ) (es : List (Effect A σ)) :
    executions (.submit job :: es) = executions es := rfl

@[simp] theorem executions_sendClient (addr : A) (id : UInt32) (reply : Reply) (es : List (Effect A σ)) :
    executions (.sendClient addr id reply :: es) = executions es := rfl

@[simp] theorem executions_execute (k : Nat) (request : Request A) (result : Option Payload) (es : List (Effect A σ)) :
    executions (.execute k request result :: es) = (k, request) :: executions es := rfl

/-- The requests of `n` batches from the op number `start` on, with their op numbers. -/
def numbered (batch : Nat → List (Request A)) (start n : Nat) : List (Nat × Request A) :=
  (List.range' start n).flatMap fun k => (batch k).map fun request => (k, request)

theorem numbered_append (batch : Nat → List (Request A)) (start m n : Nat) :
    numbered batch start (m + n) = numbered batch start m ++ numbered batch (start + m) n := by
  rw [numbered, ← List.range'_append_1, List.flatMap_append]
  rfl

theorem numbered_congr {batch batch' : Nat → List (Request A)} {start n : Nat}
    (h : ∀ k, start ≤ k → k < start + n → batch k = batch' k) : numbered batch start n = numbered batch' start n := by
  refine List.flatMap_congr fun k hk => ?_
  rw [List.mem_range'_1] at hk
  rw [h k hk.1 hk.2]

/-! ## What a handler does to the prefix -/

/-- No slot gets commits, and nothing is executed. -/
structure Calm (s r : Replica S A σ) (es : List (Effect A σ)) : Prop where
  commits : ∀ k, (r.entry k).commits = (s.entry k).commits
  commitNum : r.commitNum = s.commitNum
  executed : executions es = []

/-- The batches up to the new `commit_num` are executed, and the slots up to it have commits. -/
structure Advances (s r : Replica S A σ) (es : List (Effect A σ)) : Prop where
  le : s.commitNum ≤ r.commitNum
  executed : executions es = numbered (fun k => (r.entry k).requests) (s.commitNum + 1) (r.commitNum - s.commitNum)
  certified : ∀ k, s.commitNum < k → k ≤ r.commitNum → (r.entry k).commits ≠ []
  kept : ∀ k, (s.entry k).commits ≠ [] → (r.entry k).commits ≠ []
  next : (s.entry (s.commitNum + 1)).commits = [] → (r.entry (r.commitNum + 1)).commits = []

section
variable {s r r' : Replica S A σ} {es es' : List (Effect A σ)}

theorem Calm.of_entry (hentry : ∀ k, r.entry k = s.entry k) (hnum : r.commitNum = s.commitNum) (hes : executions es = []) :
    Calm s r es := ⟨fun k => by rw [hentry], hnum, hes⟩

theorem Calm.advances (h : Calm s r es) : Advances s r es where
  le := h.commitNum.ge
  executed := by
    rw [h.executed, h.commitNum, Nat.sub_self]
    rfl
  certified k hk hle := absurd hk (Nat.not_lt.mpr (h.commitNum ▸ hle))
  kept k hk := by rwa [h.commits]
  next hnext := by rwa [h.commits, h.commitNum]

/-- A calm handler may fill a slot that is not executed yet. -/
theorem Advances.calm (h : Advances s r es) (h' : Calm r r' es') (hrequests : ∀ k, (r'.entry k).requests = (r.entry k).requests) :
    Advances s r' (es ++ es') where
  le := h'.commitNum ▸ h.le
  executed := by
    rw [executions_append, h'.executed, List.append_nil, h.executed, h'.commitNum]
    exact numbered_congr fun k _ _ => (hrequests k).symm
  certified k hk hle := by
    rw [h'.commits]
    exact h.certified k hk (h'.commitNum ▸ hle)
  kept k hk := by
    rw [h'.commits]
    exact h.kept k hk
  next hnext := by
    rw [h'.commits, h'.commitNum]
    exact h.next hnext

end

namespace Replica

section
variable {self : Replica S A σ}

theorem onRecv_calm (message : ToReplica A σ) : (self.onRecv message).Sat (Calm self) fun _ => True := by
  have hsame : ∀ {r : Replica S A σ} {es : List (Effect A σ)}, r.log = self.log → r.commitNum = self.commitNum →
      executions es = [] → Calm self r es := fun hlog => .of_entry (entry_congr hlog)
  cases message with
  | request request =>
    refine onRecvRequest_sat (hsame rfl rfl rfl) (fun _ _ => hsame rfl rfl rfl) (fun _ _ => ⟨hsame rfl rfl rfl, ?_⟩) trivial
    exact closeBatch_sat (fun _ _ _ => hsame rfl rfl rfl) trivial
  | prePrepare prePrepare requests =>
    exact onRecvPrePrepare_sat (hsame rfl rfl rfl) (fun _ _ => hsame rfl rfl rfl) trivial
  | vote phase vote =>
    exact onRecvVote_sat (fun _ _ => hsame (by simp) (by simp) rfl) (hsame rfl rfl rfl)
      (fun _ _ _ => hsame (by simp) (by simp) rfl) trivial

/-- Only the pre-prepare, the view and the batch of the slot change. -/
theorem commits_fill (p : Verifiable PrePrepare σ) (requests : List (Request A)) (k : Nat) :
    (((self.reserve p.inner.opNum.toNat).fill p requests).entry k).commits = (self.entry k).commits := by
  by_cases hk : k = p.inner.opNum.toNat
  · subst hk
    rw [entry_fill_self (lt_length_reserve _), entry_reserve]
  · rw [entry_fill_of_ne hk, entry_reserve]

theorem onSignedPrePrepare_calm (p : Verifiable PrePrepare σ) (requests : List (Request A)) :
    (self.onSignedPrePrepare p requests).Sat (Calm self) fun _ => True :=
  onSignedPrePrepare_sat (fun _ => .of_entry (fun _ => rfl) rfl rfl)
    (fun _ _ => ⟨commits_fill p requests, by simp [fill], rfl⟩) fun _ _ => trivial

theorem onVerifiedPrePrepare_calm (p : Verifiable PrePrepare σ) (requests : List (Request A)) :
    (self.onVerifiedPrePrepare p requests).Sat (Calm self) fun _ => True :=
  onVerifiedPrePrepare_sat (.of_entry (fun _ => rfl) rfl rfl) (.of_entry (by simp) (by simp) rfl)
    fun _ _ => ⟨fun k => by simpa using commits_fill p requests k, by simp [fill, retainDigest], rfl⟩

theorem insertPrepare_calm (prepare : Verifiable Prepare σ) : (self.insertPrepare prepare).Sat (Calm self) fun _ => True := by
  have hcommits : ∀ (entry : LogEntry A σ) votes, (entry.setVotes .prepare votes).commits = entry.commits := fun _ _ => rfl
  refine insertPrepare_sat (.of_entry (by simp) (by simp [record]) rfl) (fun _ _ _ => ⟨fun k => ?_, ?_, rfl⟩) trivial
  · rw [entry_closeQuorum_eq hcommits, entry_record]
  · simp [record, closeQuorum]

theorem drainPending_calm {phase : Phase} (k : UInt32) (votes : List (Verifiable (Vote phase) σ)) :
    (drainPending phase k votes self).Sat (fun r es => Calm self r es ∧ ∀ k, (r.entry k).requests = (self.entry k).requests)
      fun _ => True :=
  drainPending_sat votes ⟨.of_entry (by simp) (by simp) rfl, by simp⟩
    (fun _ _ _ _ _ _ => ⟨.of_entry (by simp) (by simp) rfl, by simp⟩) trivial

theorem closeBatches_calm (fuel : Nat) :
    (closeBatches fuel self).Sat (fun r es => Calm self r es ∧ ∀ k, (r.entry k).requests = (self.entry k).requests)
      fun _ => True := by
  refine (closeBatches_sat (Q := fun r es => r.log = self.log ∧ r.commitNum = self.commitNum ∧ executions es = [])
    (R := fun _ => True) (fun _ _ h => h) (fun _ _ _ => trivial) (fun r es hI => ?_) fuel [] ⟨rfl, rfl, rfl⟩).mono
    (fun r es h => ?_) fun _ _ => trivial
  · obtain ⟨hlog, hnum, hexec⟩ := hI
    exact closeBatch_sat (fun _ _ _ => ⟨hlog, hnum, by simpa using hexec⟩) trivial
  · obtain ⟨hlog, hnum, hexec⟩ := h
    exact ⟨.of_entry (entry_congr hlog) hnum (by simpa using hexec), fun k => by rw [entry_congr hlog]⟩

/-! ## The loop after a commit -/

variable [App S]

theorem executeRequests_executions (k : Nat) (requests : List (Request A)) :
    (executeRequests k requests self).Sat (fun r es => r.log = self.log ∧ r.commitNum = self.commitNum ∧
      executions es = requests.map fun request => (k, request)) fun _ => True := by
  refine (executeRequests_sat (R := fun _ => True) (I := fun rest r es => r.log = self.log ∧ r.commitNum = self.commitNum ∧
    (executions es ++ rest.map fun request => (k, request)) = requests.map fun request => (k, request))
    (fun _ _ _ _ _ _ => trivial) (fun request rest r es app result hI _ => ?_) requests [] ⟨rfl, rfl, rfl⟩).mono
    (fun r es hI => ?_) fun _ _ => trivial
  · obtain ⟨hlog, hnum, hexec⟩ := hI
    refine ⟨hlog, hnum, ?_⟩
    rw [← hexec]
    simp
  · simpa using hI

/-- It stops at the end of the log or at a slot without commits. -/
theorem executeCommitted_advances {rest : List (LogEntry A σ)} (hrest : rest = self.log.drop (self.commitNum + 1)) :
    (executeCommitted rest self).Sat (fun r es => r.log = self.log ∧ Advances self r es ∧
      (r.entry (r.commitNum + 1)).commits = []) fun _ => True := by
  have hstop : (self.entry (self.commitNum + 1)).commits = [] → Advances self self [] ∧
      (self.entry (self.commitNum + 1)).commits = [] :=
    fun hnext => ⟨Calm.advances (.of_entry (fun _ => rfl) rfl rfl), hnext⟩
  induction rest generalizing self with
  | nil =>
    have hend : self.log[self.commitNum + 1]? = none := List.getElem?_eq_none_iff.mpr (List.drop_eq_nil_iff.mp hrest.symm)
    refine ⟨rfl, hstop ?_⟩
    rw [entry, hend]
    rfl
  | cons entry rest ih =>
    have hentry : self.log[self.commitNum + 1]? = some entry := by
      have hhead := congrArg (·[0]?) hrest
      simpa [List.getElem?_drop] using hhead.symm
    have hslot := entry_of_getElem? hentry
    unfold executeCommitted
    rw [sat_ite]
    refine ⟨fun hempty => ⟨rfl, hstop ?_⟩, fun hsome => ?_⟩
    · rw [hslot]
      exact List.isEmpty_iff.mp hempty
    rw [sat_bind]
    refine (executeRequests_executions _ _).mono (fun r es hr => ?_) fun _ _ => trivial
    obtain ⟨hlog, hnum, hexec⟩ := hr
    have hrest' : rest = r.log.drop (r.commitNum + 1) := by
      have htail := congrArg List.tail hrest
      rw [hlog, hnum]
      simpa [List.tail_drop] using htail
    refine (ih hrest' fun hnext => ⟨Calm.advances (.of_entry (fun _ => rfl) rfl rfl), hnext⟩).mono (fun r' es' hr' => ?_)
      fun _ _ => trivial
    obtain ⟨hlog', hadvances, hnext⟩ := hr'
    have hsame : ∀ k, r'.entry k = self.entry k := entry_congr (hlog'.trans hlog)
    have hnum' : r.commitNum = self.commitNum + 1 := hnum
    have hle := hadvances.le
    refine ⟨hlog'.trans hlog, ⟨by omega, ?_, fun k hk hle' => ?_, fun k hk => ?_, fun _ => hnext⟩, hnext⟩
    · have hcount : r'.commitNum - self.commitNum = 1 + (r'.commitNum - r.commitNum) := by omega
      have hfirst : numbered (fun k => (r'.entry k).requests) (self.commitNum + 1) 1 =
          entry.requests.map fun request => (self.commitNum + 1, request) := by
        simp [numbered, hsame, hslot]
      rw [executions_append, hexec, hadvances.executed, hcount, numbered_append, hfirst, hnum']
    · by_cases hlast : k = self.commitNum + 1
      · rw [hlast, hsame, hslot]
        exact fun hempty => hsome (List.isEmpty_iff.mpr hempty)
      · exact hadvances.certified k (by omega) hle'
    · rwa [hsame]

theorem advance_advances :
    self.advance.Sat (fun r es => Advances self r es ∧ (r.entry (r.commitNum + 1)).commits = []) fun _ => True := by
  unfold advance
  rw [sat_bind]
  refine (executeCommitted_advances rfl).mono (fun r es h => ?_) fun _ _ => trivial
  obtain ⟨_, hadvances, hnext⟩ := h
  refine (closeBatches_calm _).mono (fun r' es' hcalm => ⟨hadvances.calm hcalm.1 hcalm.2, ?_⟩) fun _ _ => trivial
  rw [hcalm.1.commits, hcalm.1.commitNum]
  exact hnext

/-- The loop runs whenever a slot gets its commits. -/
theorem insertVote_advances (phase : Phase) (vote : Verifiable (Vote phase) σ) :
    (self.insertVote phase vote).Sat (Advances self) fun _ => True := by
  cases phase with
  | prepare => exact (insertPrepare_calm vote).mono (fun _ _ h => h.advances) fun _ _ => trivial
  | commit =>
    have hrecord : SameSlots self (self.record .commit vote) := .of_entry (by simp)
    refine insertCommit_sat (Calm.advances (.of_entry (by simp) (by simp [record]) rfl)) (fun _ _ _ _ => ?_) trivial
    refine advance_advances.mono (fun r es h => ?_) fun _ _ => trivial
    obtain ⟨hadvances, hnext⟩ := h
    have hslots : SameSlots self ((self.record .commit vote).closeQuorum .commit vote.inner.opNum
        (self.quorumWith .commit vote)) := hrecord.trans (.closeQuorum quorumWith_ne_nil)
    have hnum : ((self.record .commit vote).closeQuorum .commit vote.inner.opNum
        (self.quorumWith .commit vote)).commitNum = self.commitNum := by simp [record, closeQuorum]
    exact {
      le := hnum ▸ hadvances.le
      executed := hnum ▸ hadvances.executed
      certified := hnum ▸ hadvances.certified
      kept := fun k hk => hadvances.kept k (hslots.commits k hk)
      next := fun _ => hnext }

theorem onEvent_advances (event : Event A σ) : (self.onEvent event).Sat (Advances self) fun _ => True := by
  have hcalm : Advances self self [] := Calm.advances (.of_entry (fun _ => rfl) rfl rfl)
  cases event with
  | signedPrePrepare p requests =>
    exact (onSignedPrePrepare_calm p requests).mono (fun _ _ h => h.advances) fun _ _ => trivial
  | verifiedPrePrepare p requests =>
    exact (onVerifiedPrePrepare_calm p requests).mono (fun _ _ h => h.advances) fun _ _ => trivial
  | signedVote phase vote =>
    refine onSignedVote_sat (fun _ => hcalm) { hcalm with } (fun _ _ => ?_) trivial
    exact (insertVote_advances phase vote).mono (fun _ _ h => { h with }) fun _ _ => trivial
  | verifiedVote phase vote =>
    refine onVerifiedVote_sat (fun _ => hcalm) fun _ => ?_
    refine (insertVote_advances phase vote).mono (fun r es h => ⟨fun _ => h, fun votes _ => ?_⟩) fun _ _ => trivial
    exact (drainPending_calm _ votes).mono (fun _ _ hdrain => h.calm hdrain.1 hdrain.2) fun _ _ => trivial

end

end Replica

/-! ## The prefix in a run -/

/-- The batches, with those of the slots that a step came to. -/
def recordBatches (before after : Replica S A σ) (batch : Nat → List (Request A)) (k : Nat) : List (Request A) :=
  if before.commitNum < k ∧ k ≤ after.commitNum then (after.entry k).requests else batch k

/-- Here `batch` are the batches as they were when `commit_num` came to them. -/
structure CommitPrefix (r : Replica S A σ) (batch : Nat → List (Request A)) (history : List (Effect A σ)) : Prop where
  certified : ∀ k, 1 ≤ k → k ≤ r.commitNum → (r.entry k).commits ≠ []
  next : (r.entry (r.commitNum + 1)).commits = []
  executed : executions history = numbered batch 1 r.commitNum

namespace CommitPrefix

section
variable {s r : Replica S A σ} {batch : Nat → List (Request A)} {history es : List (Effect A σ)}

theorem advances (h : CommitPrefix s batch history) (hr : Advances s r es) :
    CommitPrefix r (recordBatches s r batch) (history ++ es) where
  certified k hpos hk := by
    by_cases hs : k ≤ s.commitNum
    · exact hr.kept k (h.certified k hpos hs)
    · exact hr.certified k (not_le.mp hs) hk
  next := hr.next h.next
  executed := by
    have hle := hr.le
    have hold : numbered batch 1 s.commitNum = numbered (recordBatches s r batch) 1 s.commitNum :=
      numbered_congr fun k _ hk => (if_neg (by omega)).symm
    have hnew : numbered (fun k => (r.entry k).requests) (s.commitNum + 1) (r.commitNum - s.commitNum) =
        numbered (recordBatches s r batch) (s.commitNum + 1) (r.commitNum - s.commitNum) :=
      numbered_congr fun k hk hk' => (if_pos (by omega)).symm
    rw [executions_append, h.executed, hr.executed, hold, hnew, Nat.add_comm s.commitNum 1, ← numbered_append]
    congr 1
    omega

theorem apply (node : Node S A σ) (h : CommitPrefix node.replica batch node.history) {out : Handler A σ (Replica S A σ)}
    (hout : out.Sat (Advances node.replica) fun _ => True) (hrunning : (node.apply out).stopped = none) :
    CommitPrefix (node.apply out).replica (recordBatches node.replica (node.apply out).replica batch)
      (node.apply out).history := by
  cases out with
  | ok r es => exact h.advances hout
  | fail reason es => cases hrunning

/-- No slot past `commit_num` has all the slots before it certified. -/
theorem maximal (h : CommitPrefix r batch history) {k : Nat} (hk : ∀ j, 1 ≤ j → j ≤ k → (r.entry j).commits ≠ []) :
    k ≤ r.commitNum := by
  by_contra hlt
  exact hk (r.commitNum + 1) (Nat.le_add_left ..) (not_le.mp hlt) h.next

end

end CommitPrefix

section
variable [App S] [DigestHash A] {crypto : Crypto σ}

theorem commitPrefix_step {node : Node S A σ} {batch : Nat → List (Request A)} {input : Input A σ}
    (h : CommitPrefix node.replica batch node.history) (hrunning : (node.step crypto input).stopped = none) :
    CommitPrefix (node.step crypto input).replica (recordBatches node.replica (node.step crypto input).replica batch)
      (node.step crypto input).history := by
  have hsame : CommitPrefix node.replica (recordBatches node.replica node.replica batch) node.history := by
    simpa using h.advances (Calm.advances (.of_entry (fun _ => rfl) rfl rfl) : Advances node.replica node.replica [])
  refine Node.step_sat (J := fun node' => node'.stopped = none →
    CommitPrefix node'.replica (recordBatches node.replica node'.replica batch) node'.history)
    (fun message _ => ?_) (fun _ _ => hsame) (fun n job _ _ => ?_) hrunning
  · exact h.apply node ((Replica.onRecv_calm message).mono (fun _ _ hcalm => hcalm.advances) fun _ _ => trivial)
  · unfold Node.finish
    cases job.run crypto with
    | none => exact fun _ => hsame
    | some event =>
      exact CommitPrefix.apply { node with
        jobs := node.jobs.eraseIdx n, signed := node.signed ++ (job.signs crypto.scheme).toList } h
        (Replica.onEvent_advances event)

/-- The machine of a node, with the batches as they were when `commit_num` came to them. -/
def batchMachine (crypto : Crypto σ) (app : S) (numFaulty : Nat) :
    Machine (Node S A σ × (Nat → List (Request A))) (Input A σ) :=
  (nodeMachine crypto app numFaulty).recorded (fun _ => []) fun node node' => recordBatches node.replica node'.replica

variable {app : S} {numFaulty : Nat}

theorem commitPrefix_reach {s : Node S A σ × (Nat → List (Request A))}
    (h : (batchMachine crypto app numFaulty).Reach Machine.always s) :
    s.1.stopped = none → CommitPrefix s.1.replica s.2 s.1.history := by
  refine h.invariant (I := fun s => s.1.stopped = none → CommitPrefix s.1.replica s.2 s.1.history) (fun s hs => ?_)
    fun s input s' _ ih _ hs => ?_
  · obtain ⟨⟨id, _, hnode⟩, hbatch⟩ := hs
    rw [hnode, hbatch]
    exact fun _ => ⟨fun k hpos hk => absurd (hpos.trans hk) (Nat.not_succ_le_zero 0), rfl, rfl⟩
  · obtain ⟨⟨hrunning, hnode⟩, hbatch⟩ := hs
    rw [hnode] at hbatch
    rw [hnode, hbatch]
    exact commitPrefix_step (ih hrunning)

theorem commit_prefix {node : Node S A σ} {batch : Nat → List (Request A)}
    (h : (batchMachine crypto app numFaulty).Reach Machine.always (node, batch)) (hrunning : node.stopped = none) :
    (∀ k, 1 ≤ k → k ≤ node.replica.commitNum → ∃ entry, node.replica.log[k]? = some entry ∧ entry.commits ≠ []) ∧
      executions node.history = numbered batch 1 node.replica.commitNum ∧
      (∀ entry, node.replica.log[node.replica.commitNum + 1]? = some entry → entry.commits = []) ∧
      ∀ k, (∀ j, 1 ≤ j → j ≤ k → (node.replica.entry j).commits ≠ []) → k ≤ node.replica.commitNum := by
  have hdone := commitPrefix_reach h hrunning
  refine ⟨fun k hpos hk => ?_, hdone.executed, fun entry hentry => ?_, fun k hk => hdone.maximal hk⟩
  · have hcommits := hdone.certified k hpos hk
    cases hslot : node.replica.log[k]? with
    | none => simp [Replica.entry, hslot] at hcommits
    | some entry =>
      rw [Replica.entry_of_getElem? hslot] at hcommits
      exact ⟨entry, rfl, hcommits⟩
  · rw [← Replica.entry_of_getElem? hentry]
    exact hdone.next

end

theorem commit_prefix_one : ∃ (node : Node Null UInt8 (Nat × Digest)) (batch : Nat → List (Request UInt8)),
    (batchMachine primaryCrypto Null.mk 1).Reach Machine.always (node, batch) ∧ node.stopped = none ∧
      node.replica.commitNum = 1 ∧ executions node.history = numbered batch 1 1 ∧
      ∀ entry, node.replica.log[2]? = some entry → entry.commits = [] := by
  obtain ⟨node, hreach, hrunning, hnum⟩ := Machine.exists_reach (M := nodeMachine primaryCrypto Null.mk 1) (C := Machine.always)
    Node.exec_next ⟨0, rfl, rfl⟩ (commitFirst 2)
    (fun node => node.stopped = none ∧ node.replica.commitNum = 1) (by decide +kernel)
  obtain ⟨batch, hbatch⟩ : ∃ batch, (batchMachine primaryCrypto Null.mk 1).Reach Machine.always (node, batch) :=
    hreach.exists_record (fun _ => []) fun node node' => recordBatches node.replica node'.replica
  obtain ⟨_, hexecuted, hnext, _⟩ := commit_prefix hbatch hrunning
  rw [hnum] at hexecuted hnext
  exact ⟨node, batch, hbatch, hrunning, hnum, hexecuted, hnext⟩

end

end Neatworks.Pbft
