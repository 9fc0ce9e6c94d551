import Mathlib.Data.List.Perm.Basic
import Neatworks.PbftNode

/-!
# What the handlers of a PBFT replica do

For each update of a replica, the fields it leaves as they are; for each
handler, a rule: what must hold of the states and calls the handler can end
with for it to meet a postcondition.
-/

namespace Neatworks.Pbft

open Outcome

section
variable {S A σ : Type}

/-! ## Submitted jobs -/

@[simp] theorem submitted_nil : submitted ([] : List (Effect A σ)) = [] := rfl

@[simp] theorem submitted_append (es es' : List (Effect A σ)) :
    submitted (es ++ es') = submitted es ++ submitted es' := List.filterMap_append ..

@[simp] theorem submitted_submit (job : Job A σ) (es : List (Effect A σ)) :
    submitted (.submit job :: es) = job :: submitted es := rfl

@[simp] theorem submitted_sendAll (message : ToReplica A σ) (es : List (Effect A σ)) :
    submitted (.sendAll message :: es) = submitted es := rfl

@[simp] theorem submitted_sendClient (addr : A) (id : UInt32) (reply : Reply) (es : List (Effect A σ)) :
    submitted (.sendClient addr id reply :: es) = submitted es := rfl

@[simp] theorem submitted_execute (k : Nat) (request : Request A) (result : Option Payload)
    (es : List (Effect A σ)) : submitted (.execute k request result :: es) = submitted es := rfl

/-! ## Updates -/

namespace Replica

section
variable {self : Replica S A σ} {phase : Phase}

@[simp] theorem setQuorum_fields {k : UInt32} {q : Option (Table UInt8 (Verifiable (Vote phase) σ))} :
    (self.setQuorum phase k q).id = self.id ∧ (self.setQuorum phase k q).numReplica = self.numReplica ∧
      (self.setQuorum phase k q).numFaulty = self.numFaulty ∧ (self.setQuorum phase k q).viewNum = self.viewNum ∧
      (self.setQuorum phase k q).log = self.log ∧ (self.setQuorum phase k q).replies = self.replies ∧
      (self.setQuorum phase k q).requests = self.requests ∧ (self.setQuorum phase k q).opNum = self.opNum ∧
      (self.setQuorum phase k q).commitNum = self.commitNum ∧ (self.setQuorum phase k q).app = self.app ∧
      (self.setQuorum phase k q).pending = self.pending := by
  cases phase <;> exact ⟨rfl, rfl, rfl, rfl, rfl, rfl, rfl, rfl, rfl, rfl, rfl⟩

@[simp] theorem setPending_fields {k : UInt32} {vs : Option (List (Verifiable (Vote phase) σ))} :
    (self.setPending phase k vs).id = self.id ∧ (self.setPending phase k vs).numReplica = self.numReplica ∧
      (self.setPending phase k vs).numFaulty = self.numFaulty ∧
      (self.setPending phase k vs).viewNum = self.viewNum ∧ (self.setPending phase k vs).log = self.log ∧
      (self.setPending phase k vs).replies = self.replies ∧
      (self.setPending phase k vs).requests = self.requests ∧ (self.setPending phase k vs).opNum = self.opNum ∧
      (self.setPending phase k vs).commitNum = self.commitNum ∧ (self.setPending phase k vs).app = self.app ∧
      (self.setPending phase k vs).quorums = self.quorums := by
  cases phase <;> exact ⟨rfl, rfl, rfl, rfl, rfl, rfl, rfl, rfl, rfl, rfl, rfl⟩

@[simp] theorem modifyEntry_fields {k : Nat} {f : LogEntry A σ → LogEntry A σ} :
    (self.modifyEntry k f).id = self.id ∧ (self.modifyEntry k f).numReplica = self.numReplica ∧
      (self.modifyEntry k f).numFaulty = self.numFaulty ∧ (self.modifyEntry k f).viewNum = self.viewNum ∧
      (self.modifyEntry k f).replies = self.replies ∧ (self.modifyEntry k f).requests = self.requests ∧
      (self.modifyEntry k f).opNum = self.opNum ∧ (self.modifyEntry k f).commitNum = self.commitNum ∧
      (self.modifyEntry k f).app = self.app ∧ (self.modifyEntry k f).pending = self.pending ∧
      (self.modifyEntry k f).quorums = self.quorums :=
  ⟨rfl, rfl, rfl, rfl, rfl, rfl, rfl, rfl, rfl, rfl, rfl⟩

@[simp] theorem reserve_fields {k : Nat} :
    (self.reserve k).id = self.id ∧ (self.reserve k).numReplica = self.numReplica ∧
      (self.reserve k).numFaulty = self.numFaulty ∧ (self.reserve k).viewNum = self.viewNum ∧
      (self.reserve k).replies = self.replies ∧ (self.reserve k).requests = self.requests ∧
      (self.reserve k).opNum = self.opNum ∧ (self.reserve k).commitNum = self.commitNum ∧
      (self.reserve k).app = self.app ∧ (self.reserve k).pending = self.pending ∧
      (self.reserve k).quorums = self.quorums := by
  unfold reserve
  split <;> exact ⟨rfl, rfl, rfl, rfl, rfl, rfl, rfl, rfl, rfl, rfl, rfl⟩

@[simp] theorem quorums_setQuorum_self {k : UInt32} {q : Option (Table UInt8 (Verifiable (Vote phase) σ))} :
    (self.setQuorum phase k q).quorums phase = Function.update (self.quorums phase) k q := by
  cases phase <;> rfl

theorem quorums_setQuorum_of_ne {phase' : Phase} (h : phase' ≠ phase) {k : UInt32}
    {q : Option (Table UInt8 (Verifiable (Vote phase) σ))} :
    (self.setQuorum phase k q).quorums phase' = self.quorums phase' := by
  cases phase <;> cases phase' <;> first | rfl | exact absurd rfl h

@[simp] theorem pending_setPending_self {k : UInt32} {vs : Option (List (Verifiable (Vote phase) σ))} :
    (self.setPending phase k vs).pending phase = Function.update (self.pending phase) k vs := by
  cases phase <;> rfl

theorem pending_setPending_of_ne {phase' : Phase} (h : phase' ≠ phase) {k : UInt32}
    {vs : Option (List (Verifiable (Vote phase) σ))} :
    (self.setPending phase k vs).pending phase' = self.pending phase' := by
  cases phase <;> cases phase' <;> first | rfl | exact absurd rfl h

/-! ## Slots of the log -/

theorem entry_of_getElem? {k : Nat} {entry : LogEntry A σ} (h : self.log[k]? = some entry) :
    self.entry k = entry := by
  rw [Replica.entry, h]
  rfl

theorem entry_congr {r : Replica S A σ} (h : r.log = self.log) (k : Nat) : r.entry k = self.entry k := by
  rw [Replica.entry, h, Replica.entry]

@[simp] theorem entry_setQuorum {k : UInt32} {q : Option (Table UInt8 (Verifiable (Vote phase) σ))} (j : Nat) :
    (self.setQuorum phase k q).entry j = self.entry j := entry_congr (by simp) j

@[simp] theorem entry_setPending {k : UInt32} {vs : Option (List (Verifiable (Vote phase) σ))} (j : Nat) :
    (self.setPending phase k vs).entry j = self.entry j := entry_congr (by simp) j

theorem lt_length_reserve (k : Nat) : k < (self.reserve k).log.length := by
  unfold reserve
  split
  · next h => exact (List.getElem?_eq_some_iff.mp h).1
  · next h =>
    have := List.getElem?_eq_none_iff.mp h
    simp only [List.length_append, List.length_replicate]
    omega

@[simp] theorem entry_reserve (k j : Nat) : (self.reserve k).entry j = self.entry j := by
  unfold reserve
  split
  · rfl
  · next h =>
    simp only [Replica.entry]
    by_cases hj : j < self.log.length
    · rw [List.getElem?_append_left hj]
    · rw [List.getElem?_append_right (by omega), List.getElem?_eq_none_iff.mpr (by omega : self.log.length ≤ j)]
      rw [List.getElem?_replicate]
      split <;> rfl

theorem entry_modifyEntry_self {k : Nat} (hk : k < self.log.length) (f : LogEntry A σ → LogEntry A σ) :
    (self.modifyEntry k f).entry k = f (self.entry k) := by
  simp [modifyEntry, Replica.entry, List.getElem?_eq_getElem hk]

theorem entry_modifyEntry_of_ne {k j : Nat} (h : j ≠ k) (f : LogEntry A σ → LogEntry A σ) :
    (self.modifyEntry k f).entry j = self.entry j := by
  simp [modifyEntry, Replica.entry, List.getElem?_modify_ne _ _ h.symm]

@[simp] theorem length_modifyEntry {k : Nat} {f : LogEntry A σ → LogEntry A σ} :
    (self.modifyEntry k f).log.length = self.log.length := by
  simp [modifyEntry]

theorem entry_modifyEntry_of_le {k : Nat} (h : self.log.length ≤ k) (f : LogEntry A σ → LogEntry A σ) (j : Nat) :
    (self.modifyEntry k f).entry j = self.entry j := by
  rw [modifyEntry, List.modify_eq_self h]

theorem entry_closeQuorum_of_ne {k : UInt32} {quorum : Table UInt8 (Verifiable (Vote phase) σ)} {j : Nat}
    (h : j ≠ k.toNat) : (self.closeQuorum phase k quorum).entry j = self.entry j := by
  rw [closeQuorum, entry_setQuorum, entry_modifyEntry_of_ne h]

theorem entry_closeQuorum_self {k : UInt32} {quorum : Table UInt8 (Verifiable (Vote phase) σ)}
    (h : k.toNat < self.log.length) :
    (self.closeQuorum phase k quorum).entry k.toNat = (self.entry k.toNat).setVotes phase quorum.entries := by
  rw [closeQuorum, entry_setQuorum, entry_modifyEntry_self h]

theorem entry_closeQuorum_eq {α : Type} {f : LogEntry A σ → α}
    (hf : ∀ entry votes, f (entry.setVotes phase votes) = f entry) {k : UInt32}
    {quorum : Table UInt8 (Verifiable (Vote phase) σ)} (j : Nat) :
    f ((self.closeQuorum phase k quorum).entry j) = f (self.entry j) := by
  by_cases hj : j = k.toNat
  · subst hj
    by_cases hk : k.toNat < self.log.length
    · rw [entry_closeQuorum_self hk, hf]
    · rw [closeQuorum, entry_setQuorum, entry_modifyEntry_of_le (not_lt.mp hk)]
  · rw [entry_closeQuorum_of_ne hj]

theorem entry_fill_self {prePrepare : Verifiable PrePrepare σ} {requests : List (Request A)}
    (h : prePrepare.inner.opNum.toNat < self.log.length) :
    (self.fill prePrepare requests).entry prePrepare.inner.opNum.toNat =
      { self.entry prePrepare.inner.opNum.toNat with
        prePrepare := some prePrepare, viewNum := self.viewNum, requests := requests } := by
  rw [fill, entry_modifyEntry_self h]

theorem entry_fill_of_ne {prePrepare : Verifiable PrePrepare σ} {requests : List (Request A)} {j : Nat}
    (h : j ≠ prePrepare.inner.opNum.toNat) : (self.fill prePrepare requests).entry j = self.entry j := by
  rw [fill, entry_modifyEntry_of_ne h]

@[simp] theorem entry_record {vote : Verifiable (Vote phase) σ} (j : Nat) :
    (self.record phase vote).entry j = self.entry j := entry_setQuorum j

@[simp] theorem entry_retainDigest {opNum : UInt32} {digest : Digest} (j : Nat) :
    (self.retainDigest opNum digest).entry j = self.entry j := rfl

end

/-! ## The rules of the handlers -/

section
variable {self : Replica S A σ} {Q : Replica S A σ → List (Effect A σ) → Prop} {R : List (Effect A σ) → Prop}

theorem addU32_sat {ε : Type} {a b : Nat} {Q : Nat → List ε → Prop} {R : List ε → Prop}
    (hok : a + b < 2 ^ 32 → Q (a + b) []) (hR : R []) : (addU32 a b : Outcome ε Fail Nat).Sat Q R := by
  unfold addU32
  split
  · next h => exact hok h
  · exact hR

theorem subUsize_sat {ε : Type} {a b : Nat} {Q : Nat → List ε → Prop} {R : List ε → Prop}
    (hok : b ≤ a → Q (a - b) []) (hR : R []) : (subUsize a b : Outcome ε Fail Nat).Sat Q R := by
  unfold subUsize
  split
  · next h => exact hok h
  · exact hR

theorem closeBatch_sat
    (hok : self.isPrimary = true → self.requests ≠ [] → self.opNum + 1 < 2 ^ 32 →
      Q { self with opNum := self.opNum + 1, requests := self.requests.drop 100 }
        [.submit (.signPrePrepare self.viewNum (UInt32.ofNat (self.opNum + 1)) (self.requests.take 100))])
    (hR : R []) : self.closeBatch.Sat Q R := by
  unfold closeBatch
  simp only [sat_bind, sat_assert, sat_emit, sat_pure, List.nil_append, List.append_nil]
  refine ⟨fun hp => ⟨fun hne => addU32_sat (fun hlt => hok hp ?_ hlt) hR, fun _ => hR⟩, fun _ => hR⟩
  exact fun h => by simp [h] at hne

theorem onRecvRequest_sat {request : Request A} (hkeep : Q self [])
    (hreply : ∀ reply, self.replies request.clientId = some (request.seq, some reply) →
      Q self [.sendClient request.clientAddr request.clientId reply])
    (hqueue : self.isPrimary = true →
      (∀ seq reply, self.replies request.clientId = some (seq, reply) → seq < request.seq) →
      Q (self.enqueue request) [] ∧ (self.enqueue request).closeBatch.Sat Q R)
    (hR : R []) : (self.onRecvRequest request).Sat Q R := by
  have haccept : (∀ seq reply, self.replies request.clientId = some (seq, reply) → seq < request.seq) →
      (self.acceptRequest request).Sat Q R := by
    intro hnew
    unfold acceptRequest
    simp only [sat_bind, sat_assert, List.nil_append]
    refine ⟨fun hp => addU32_sat (fun _ => ?_) hR, fun _ => hR⟩
    rw [sat_ite]
    exact ⟨fun _ => (hqueue hp hnew).2, fun _ => (hqueue hp hnew).1⟩
  unfold onRecvRequest
  split
  · next h => exact haccept fun seq reply h' => by rw [h] at h'; cases h'
  · next seq reply h =>
    split
    · exact hkeep
    · next hge =>
      split
      · next heq =>
        subst heq
        split
        · exact hkeep
        · next reply => exact hreply reply h
      · next hne =>
        refine haccept fun seq' reply' h' => ?_
        rw [h] at h'
        cases h'
        exact UInt32.lt_of_le_of_ne (UInt32.not_lt.mp hge) hne

theorem onSignedPrePrepare_sat {prePrepare : Verifiable PrePrepare σ} {requests : List (Request A)}
    (hkeep : prePrepare.inner.viewNum ≠ self.viewNum → Q self [])
    (hfill : prePrepare.inner.viewNum = self.viewNum →
      (self.entry prePrepare.inner.opNum.toNat).prePrepare = none →
      Q ((self.reserve prePrepare.inner.opNum.toNat).fill prePrepare requests)
        [.sendAll (.prePrepare prePrepare requests)])
    (hR : prePrepare.inner.viewNum = self.viewNum →
      (self.entry prePrepare.inner.opNum.toNat).prePrepare ≠ none → R []) :
    (self.onSignedPrePrepare prePrepare requests).Sat Q R := by
  unfold onSignedPrePrepare
  simp only [sat_ite, sat_bind, sat_assert, sat_emit, sat_pure, entry_reserve, ne_eq, not_not,
    Option.isNone_iff_eq_none, List.nil_append, List.append_nil]
  exact ⟨hkeep, fun hv => ⟨hfill hv, hR hv⟩⟩

theorem onRecvPrePrepare_sat {prePrepare : Verifiable PrePrepare σ} {requests : List (Request A)}
    (hkeep : Q self [])
    (hsubmit : prePrepare.inner.viewNum = self.viewNum →
      (self.entry prePrepare.inner.opNum.toNat).prePrepare = none →
      Q self [.submit (.verifyPrePrepare (prePrepare.inner.viewNum.toNat % self.numReplica) prePrepare requests)])
    (hR : R []) : (self.onRecvPrePrepare prePrepare requests).Sat Q R := by
  unfold onRecvPrePrepare
  simp only [sat_ite, sat_bind, sat_assert, sat_emit, sat_pure, ne_eq, not_not, List.append_nil]
  refine ⟨fun _ => ⟨fun _ => hkeep, fun _ => hR⟩, fun hv => ⟨fun _ => hkeep, fun hnone => hsubmit hv ?_⟩⟩
  simpa using hnone

theorem onVerifiedPrePrepare_sat {prePrepare : Verifiable PrePrepare σ} {requests : List (Request A)}
    (hkeep : Q self []) (hreserve : Q (self.reserve prePrepare.inner.opNum.toNat) [])
    (hfill : prePrepare.inner.viewNum = self.viewNum →
      (self.entry prePrepare.inner.opNum.toNat).prePrepare = none →
      Q (((self.reserve prePrepare.inner.opNum.toNat).fill prePrepare requests).retainDigest
          prePrepare.inner.opNum prePrepare.inner.digest)
        [.submit (.signVote .prepare
          ⟨self.viewNum, prePrepare.inner.opNum, prePrepare.inner.digest, self.id⟩)]) :
    (self.onVerifiedPrePrepare prePrepare requests).Sat Q R := by
  unfold onVerifiedPrePrepare
  simp only [sat_ite, sat_bind, sat_emit, sat_pure, entry_reserve, ne_eq, not_not, List.append_nil]
  refine ⟨fun _ => hkeep, fun hv => ⟨fun _ => hreserve, fun hnone => ?_⟩⟩
  have := hfill hv (by simpa using hnone)
  simpa [fill] using this

theorem insertPrepare_sat {prepare : Verifiable Prepare σ} (hrecord : Q (self.record .prepare prepare) [])
    (hclose : self.numReplica - self.numFaulty ≤ (self.quorumWith .prepare prepare).len + 1 →
      prepare.inner.opNum.toNat < self.log.length → (self.entry prepare.inner.opNum.toNat).prepares = [] →
      Q ((self.record .prepare prepare).closeQuorum .prepare prepare.inner.opNum (self.quorumWith .prepare prepare))
        [.submit (.signVote .commit ⟨self.viewNum, prepare.inner.opNum, prepare.inner.digest, self.id⟩)])
    (hR : R []) : (self.insertPrepare prepare).Sat Q R := by
  unfold insertPrepare
  simp only [sat_bind]
  refine subUsize_sat (fun _ => ?_) hR
  rw [sat_ite]
  refine ⟨fun _ => hrecord, fun hlen => ?_⟩
  split
  · exact hrecord
  · next entry hentry =>
    have hslot : self.log[prepare.inner.opNum.toNat]? = some entry := by simpa [record] using hentry
    simp only [sat_bind, sat_assert, sat_emit, sat_pure, List.nil_append, List.append_nil]
    refine ⟨fun hempty => ?_, fun _ => hR⟩
    have := hclose (by simpa [record] using hlen) (List.getElem?_eq_some_iff.mp hslot).1
      (by rw [entry_of_getElem? hslot]; simpa using hempty)
    simpa [closeQuorum, record] using this

section
variable [App S]

theorem insertCommit_sat {commit : Verifiable Commit σ} (hrecord : Q (self.record .commit commit) [])
    (hclose : self.numReplica - self.numFaulty ≤ (self.quorumWith .commit commit).len →
      commit.inner.opNum.toNat < self.log.length → (self.entry commit.inner.opNum.toNat).commits = [] →
      (self.entry commit.inner.opNum.toNat).prepares ≠ [] →
      ((self.record .commit commit).closeQuorum .commit commit.inner.opNum
        (self.quorumWith .commit commit)).advance.Sat Q R)
    (hR : R []) : (self.insertCommit commit).Sat Q R := by
  unfold insertCommit
  simp only [sat_bind]
  refine subUsize_sat (fun _ => ?_) hR
  rw [sat_ite]
  refine ⟨fun _ => hrecord, fun hlen => ?_⟩
  split
  · exact hrecord
  · next entry hentry =>
    have hslot : self.log[commit.inner.opNum.toNat]? = some entry := by simpa [record] using hentry
    simp only [sat_bind, sat_assert, List.nil_append]
    refine ⟨fun hempty => ?_, fun _ => hR⟩
    rw [sat_ite]
    refine ⟨fun _ => hrecord, fun hprepares => ?_⟩
    exact hclose (by simpa [record] using hlen) (List.getElem?_eq_some_iff.mp hslot).1
      (by rw [entry_of_getElem? hslot]; simpa using hempty)
      (by rw [entry_of_getElem? hslot]; simpa using hprepares)

/-- The rule of the loop over a batch: `I` holds of the requests still to
execute, the state and the calls so far. -/
theorem executeRequests_sat {k : Nat} {I : List (Request A) → Replica S A σ → List (Effect A σ) → Prop}
    (hfail : ∀ request rest r es, I (request :: rest) r es → App.execute r.app request.op = none →
      R (es ++ [.execute k request none]))
    (hstep : ∀ request rest r es app result, I (request :: rest) r es →
      App.execute r.app request.op = some (app, result) →
      I rest (r.executed request app ⟨request.seq, result, r.viewNum, r.id⟩)
        (es ++ [.execute k request (some result),
          .sendClient request.clientAddr request.clientId ⟨request.seq, result, r.viewNum, r.id⟩]))
    (requests : List (Request A)) (es : List (Effect A σ)) (h : I requests self es) :
    (executeRequests k requests self).Sat (fun r es' => I [] r (es ++ es')) (fun es' => R (es ++ es')) := by
  induction requests generalizing self es with
  | nil => simpa [executeRequests] using h
  | cons request rest ih =>
    unfold executeRequests
    split
    · next hnone => simpa using hfail _ _ _ _ h hnone
    · next app result hsome =>
      have := ih _ (hstep _ _ _ _ _ _ h hsome)
      simpa using this

/-- The rule of the loop over the log: `I` holds of the slots still to look
at, the state and the calls so far. -/
theorem executeCommitted_sat {I : List (LogEntry A σ) → Replica S A σ → List (Effect A σ) → Prop}
    (hstop : ∀ rest r es, I rest r es → Q r es)
    (hentry : ∀ entry rest r es, entry.commits ≠ [] → I (entry :: rest) r es →
      (executeRequests (r.commitNum + 1) entry.requests { r with commitNum := r.commitNum + 1 }).Sat
        (fun r' es' => I rest r' (es ++ es')) (fun es' => R (es ++ es')))
    (rest : List (LogEntry A σ)) (es : List (Effect A σ)) (h : I rest self es) :
    (executeCommitted rest self).Sat (fun r es' => Q r (es ++ es')) (fun es' => R (es ++ es')) := by
  induction rest generalizing self es with
  | nil => simpa [executeCommitted] using hstop _ _ _ h
  | cons entry rest ih =>
    unfold executeCommitted
    rw [sat_ite]
    refine ⟨fun _ => by simpa using hstop _ _ _ h, fun hne => ?_⟩
    simp only [sat_bind]
    refine (hentry entry rest self es (by simpa using hne) h).mono (fun r es₁ hr => ?_) fun _ hR => hR
    simpa using ih _ hr

end

/-- The rule of the loop that closes batches. -/
theorem closeBatches_sat {I : Replica S A σ → List (Effect A σ) → Prop} (hstop : ∀ r es, I r es → Q r es)
    (hfail : ∀ r es, I r es → R es)
    (hclose : ∀ r es, I r es → r.closeBatch.Sat (fun r' es' => I r' (es ++ es')) (fun es' => R (es ++ es')))
    (fuel : Nat) (es : List (Effect A σ)) (h : I self es) :
    (closeBatches fuel self).Sat (fun r es' => Q r (es ++ es')) (fun es' => R (es ++ es')) := by
  have hdone : ∀ r es, I r es → Q r (es ++ []) := fun r es h => by simpa using hstop r es h
  induction fuel generalizing self es with
  | zero => exact hdone _ _ h
  | succ fuel ih =>
    unfold closeBatches
    rw [sat_ite]
    refine ⟨fun _ => ?_, fun _ => hdone _ _ h⟩
    rw [sat_bind]
    refine addU32_sat (fun _ => ?_) (by simpa using hfail _ _ h)
    rw [sat_ite]
    refine ⟨fun _ => ?_, fun _ => hdone _ _ h⟩
    simp only [sat_bind, List.nil_append]
    refine (hclose _ _ h).mono (fun r es₁ hr => ?_) fun _ hR => hR
    simpa using ih _ hr

section
variable [App S]

theorem executeRequests_frame (k : Nat) (requests : List (Request A)) :
    (executeRequests k requests self).Sat (fun r _ => ∃ app replies, r = { self with app := app, replies := replies })
      fun _ => True :=
  executeRequests_sat (R := fun _ => True)
    (I := fun _ r _ => ∃ app replies, r = { self with app := app, replies := replies }) (fun _ _ _ _ _ _ => trivial)
    (fun _ _ _ _ _ _ h _ => by
      obtain ⟨app, replies, rfl⟩ := h
      exact ⟨_, _, rfl⟩) requests [] ⟨_, _, rfl⟩

/-- The rule of the two loops together, which leave the log as it is. -/
theorem advance_sat {I : Replica S A σ → List (Effect A σ) → Prop} (hfail : ∀ r es, I r es → R es)
    (hbatch : ∀ entry r es, I r es → r.log = self.log → self.log[r.commitNum + 1]? = some entry →
      entry.commits ≠ [] →
      (executeRequests (r.commitNum + 1) entry.requests { r with commitNum := r.commitNum + 1 }).Sat
        (fun r' es' => I r' (es ++ es')) (fun es' => R (es ++ es')))
    (hclose : ∀ r es, I r es → r.closeBatch.Sat (fun r' es' => I r' (es ++ es')) (fun es' => R (es ++ es')))
    (es : List (Effect A σ)) (h : I self es) :
    self.advance.Sat (fun r es' => I r (es ++ es')) (fun es' => R (es ++ es')) := by
  unfold advance
  rw [sat_bind]
  have hexec : (executeCommitted (self.log.drop (self.commitNum + 1)) self).Sat
      (fun r es' => I r (es ++ es')) (fun es' => R (es ++ es')) := executeCommitted_sat (Q := I) (R := R)
    (I := fun rest r es => I r es ∧ r.log = self.log ∧ rest = self.log.drop (r.commitNum + 1))
    (fun _ _ _ h => h.1) (fun entry rest r es hne h => ?_) (self.log.drop (self.commitNum + 1)) es ⟨h, rfl, rfl⟩
  · refine hexec.mono (fun r es₁ hr => ?_) fun _ hR => hR
    simpa using closeBatches_sat (fun _ _ h => h) hfail hclose r.requests.length _ hr
  · obtain ⟨hI, hlog, hrest⟩ := h
    have hentry : self.log[r.commitNum + 1]? = some entry := by
      have := congrArg (·[0]?) hrest
      simpa [List.getElem?_drop] using this.symm
    refine ((hbatch entry r es hI hlog hentry hne).and (executeRequests_frame _ _)).mono ?_ fun _ hR => hR.1
    rintro r' es' ⟨hI', app, replies, rfl⟩
    refine ⟨hI', hlog, ?_⟩
    have := congrArg List.tail hrest
    simpa [List.tail_drop] using this

end

/-! ## Votes -/

theorem submitVote_sat {phase : Phase} {vote : Verifiable (Vote phase) σ} {Q : Bool → List (Effect A σ) → Prop}
    (hno : Q false [])
    (hyes : vote.inner.viewNum = self.viewNum → (self.entry vote.inner.opNum.toNat).votes phase = [] →
      Q true [.submit (.verifyVote phase vote)])
    (hR : R []) : (self.submitVote phase vote).Sat Q R := by
  unfold submitVote
  simp only [sat_ite, sat_bind, sat_assert, sat_emit, sat_pure, ne_eq, not_not, List.append_nil]
  refine ⟨fun _ => ⟨fun _ => hno, fun _ => hR⟩, fun hv => ⟨fun _ => hno, fun hopen => hyes hv ?_⟩⟩
  simp only [Bool.or_eq_true, not_or, Bool.not_eq_true, Bool.not_eq_false'] at hopen
  exact List.isEmpty_iff.mp hopen.1

theorem onRecvVote_sat {phase : Phase} {vote : Verifiable (Vote phase) σ}
    (hpark : ∀ votes, self.pending phase vote.inner.opNum = some votes →
      Q (self.setPending phase vote.inner.opNum (some (vote :: votes))) [])
    (hkeep : Q self [])
    (hsubmit : self.pending phase vote.inner.opNum = none → vote.inner.viewNum = self.viewNum →
      (self.entry vote.inner.opNum.toNat).votes phase = [] →
      Q (self.setPending phase vote.inner.opNum (some [])) [.submit (.verifyVote phase vote)])
    (hR : R []) : (self.onRecvVote phase vote).Sat Q R := by
  unfold onRecvVote
  split
  · next votes h => exact hpark votes h
  · next h =>
    rw [sat_bind]
    exact submitVote_sat (by simpa using hkeep) (fun hv hopen => by simpa using hsubmit h hv hopen) hR

theorem setPending_setPending {phase : Phase} {k : UInt32} {vs vs' : Option (List (Verifiable (Vote phase) σ))} :
    (self.setPending phase k vs).setPending phase k vs' = self.setPending phase k vs' := by
  cases phase <;> simp [setPending]

/-- The loop over the parked votes ends with none left, or with one at the
worker and those below it still parked. -/
theorem drainPending_sat {phase : Phase} {k : UInt32} (votes : List (Verifiable (Vote phase) σ))
    (hempty : Q (self.setPending phase k none) [])
    (hsubmit : ∀ popped vote rest, votes = popped ++ vote :: rest → vote.inner.viewNum = self.viewNum →
      (self.entry vote.inner.opNum.toNat).votes phase = [] →
      Q (self.setPending phase k (some rest)) [.submit (.verifyVote phase vote)])
    (hR : R []) : (drainPending phase k votes self).Sat Q R := by
  induction votes generalizing self with
  | nil => exact hempty
  | cons vote votes ih =>
    unfold drainPending
    rw [sat_bind]
    refine submitVote_sat ?_ (fun hv hopen => ?_) hR
    · simp only [Bool.false_eq_true, if_false, List.nil_append]
      refine ih (by rw [setPending_setPending]; exact hempty) fun popped v rest heq hv hopen => ?_
      rw [setPending_setPending]
      exact hsubmit (vote :: popped) v rest (by rw [heq]; rfl) (by simpa using hv) (by simpa using hopen)
    · simpa using hsubmit [] vote votes rfl (by simpa using hv) (by simpa using hopen)

section
variable [App S]

theorem onVerifiedVote_sat {phase : Phase} {vote : Verifiable (Vote phase) σ}
    (hkeep : vote.inner.viewNum ≠ self.viewNum → Q self [])
    (hinsert : vote.inner.viewNum = self.viewNum → (self.insertVote phase vote).Sat (fun r es =>
      (r.pending phase vote.inner.opNum = none → Q r es) ∧
      ∀ votes, r.pending phase vote.inner.opNum = some votes →
        (drainPending phase vote.inner.opNum votes r).Sat (fun r' es' => Q r' (es ++ es'))
          (fun es' => R (es ++ es'))) R) :
    (self.onVerifiedVote phase vote).Sat Q R := by
  unfold onVerifiedVote
  simp only [sat_ite, sat_bind, ne_eq, not_not]
  refine ⟨hkeep, fun hv => (hinsert hv).mono (fun r es h => ?_) fun _ hR => hR⟩
  split
  · next hnone => simpa using h.1 hnone
  · next votes hsome => exact h.2 votes hsome

theorem onSignedVote_sat {phase : Phase} {vote : Verifiable (Vote phase) σ}
    (hkeep : vote.inner.viewNum ≠ self.viewNum → Q self [])
    (hsend : Q self [.sendAll (.vote phase vote)])
    (hinsert : vote.inner.viewNum = self.viewNum →
      (self.entry vote.inner.opNum.toNat).votes phase = [] → (self.insertVote phase vote).Sat
        (fun r es => Q r (.sendAll (.vote phase vote) :: es)) (fun es => R (.sendAll (.vote phase vote) :: es)))
    (hR : R [.sendAll (.vote phase vote)]) : (self.onSignedVote phase vote).Sat Q R := by
  unfold onSignedVote
  simp only [sat_ite, sat_bind, sat_emit, ne_eq, not_not]
  refine ⟨hkeep, fun hv => ?_⟩
  split
  · exact hR
  · next entry hentry =>
    rw [sat_ite]
    refine ⟨fun hempty => hinsert hv ?_, fun _ => hsend⟩
    rw [entry_of_getElem? hentry]
    simpa using hempty

end

end

end Replica

/-! ## What no handler changes -/

namespace Replica

def params (self : Replica S A σ) : UInt8 × Nat × Nat × UInt32 :=
  (self.id, self.numReplica, self.numFaulty, self.viewNum)

section
variable {self : Replica S A σ}

@[simp] theorem params_record {phase : Phase} {vote : Verifiable (Vote phase) σ} :
    (self.record phase vote).params = self.params := by
  simp [params, record]

@[simp] theorem params_closeQuorum {phase : Phase} {k : UInt32} {quorum : Table UInt8 (Verifiable (Vote phase) σ)} :
    (self.closeQuorum phase k quorum).params = self.params := by
  simp [params, closeQuorum]

@[simp] theorem params_fill {prePrepare : Verifiable PrePrepare σ} {requests : List (Request A)} :
    (self.fill prePrepare requests).params = self.params := rfl

@[simp] theorem params_reserve {k : Nat} : (self.reserve k).params = self.params := by
  simp [params]

@[simp] theorem params_retainDigest {opNum : UInt32} {digest : Digest} :
    (self.retainDigest opNum digest).params = self.params := rfl

@[simp] theorem params_setPending {phase : Phase} {k : UInt32} {vs : Option (List (Verifiable (Vote phase) σ))} :
    (self.setPending phase k vs).params = self.params := by
  simp [params]

theorem closeBatch_params : self.closeBatch.Sat (fun r _ => r.params = self.params) fun _ => True :=
  closeBatch_sat (fun _ _ _ => rfl) trivial

theorem onRecv_params (message : ToReplica A σ) :
    (self.onRecv message).Sat (fun r _ => r.params = self.params) fun _ => True := by
  cases message with
  | request request =>
    exact onRecvRequest_sat rfl (fun _ _ => rfl) (fun _ _ => ⟨rfl, closeBatch_params⟩) trivial
  | prePrepare prePrepare requests => exact onRecvPrePrepare_sat rfl (fun _ _ => rfl) trivial
  | vote phase vote => exact onRecvVote_sat (fun _ _ => by simp) rfl (fun _ _ _ => by simp) trivial

section
variable [App S]

theorem advance_params : self.advance.Sat (fun r _ => r.params = self.params) fun _ => True :=
  advance_sat (R := fun _ => True) (I := fun r _ => r.params = self.params) (fun _ _ _ => trivial)
    (fun entry _ es h _ _ _ => executeRequests_sat (R := fun _ => True) (I := fun _ r _ => r.params = self.params)
      (fun _ _ _ _ _ _ => trivial) (fun _ _ _ _ _ _ h _ => h) entry.requests es h)
    (fun _ _ h => closeBatch_params.mono (fun _ _ hr => hr.trans h) fun _ _ => trivial) [] rfl

theorem insertVote_params (phase : Phase) (vote : Verifiable (Vote phase) σ) :
    (self.insertVote phase vote).Sat (fun r _ => r.params = self.params) fun _ => True := by
  cases phase with
  | prepare => exact insertPrepare_sat (by simp) (fun _ _ _ => by simp) trivial
  | commit =>
    exact insertCommit_sat (by simp) (fun _ _ _ _ => advance_params.mono (fun _ _ h => h.trans (by simp))
      fun _ _ => trivial) trivial

theorem onEvent_params (event : Event A σ) :
    (self.onEvent event).Sat (fun r _ => r.params = self.params) fun _ => True := by
  cases event with
  | signedPrePrepare prePrepare requests =>
    exact onSignedPrePrepare_sat (fun _ => rfl) (fun _ _ => by simp) fun _ _ => trivial
  | verifiedPrePrepare prePrepare requests =>
    exact onVerifiedPrePrepare_sat rfl (by simp) fun _ _ => by simp
  | signedVote phase vote =>
    exact onSignedVote_sat (fun _ => rfl) rfl (fun _ _ => insertVote_params phase vote) trivial
  | verifiedVote phase vote =>
    refine onVerifiedVote_sat (fun _ => rfl) fun _ => ?_
    refine (insertVote_params phase vote).mono (fun r es h => ⟨fun _ => h, fun votes _ => ?_⟩) fun _ _ => trivial
    exact drainPending_sat votes (by simpa using h) (fun _ _ _ _ _ _ => by simpa using h) trivial

end

end

end Replica

/-! ## Steps of a node -/

section
variable [DigestHash A] {crypto : Crypto σ} {job : Job A σ} {p : Verifiable PrePrepare σ} {requests : List (Request A)}

theorem Job.run_signedPrePrepare (h : job.run crypto = some (.signedPrePrepare p requests)) :
    ∃ viewNum opNum, job = .signPrePrepare viewNum opNum requests ∧
      p = crypto.sign ⟨viewNum, opNum, crypto.scheme.digest requests⟩ := by
  cases job with
  | signPrePrepare viewNum opNum _ =>
    cases h
    exact ⟨viewNum, opNum, rfl, rfl⟩
  | signVote phase vote => cases h
  | verifyPrePrepare _ _ _ =>
    simp only [run] at h
    split at h <;> cases h
  | verifyVote _ _ =>
    simp only [run] at h
    split at h <;> cases h

theorem Job.run_verifiedPrePrepare (h : job.run crypto = some (.verifiedPrePrepare p requests)) :
    ∃ i, job = .verifyPrePrepare i p requests ∧ crypto.scheme.digest requests = p.inner.digest ∧
      crypto.verify i p = true := by
  cases job with
  | signPrePrepare viewNum opNum _ => cases h
  | signVote phase vote => cases h
  | verifyPrePrepare i _ _ =>
    simp only [run] at h
    split at h
    · next hvalid =>
      cases h
      exact ⟨i, rfl, hvalid⟩
    · cases h
  | verifyVote _ _ =>
    simp only [run] at h
    split at h <;> cases h

end

namespace Node

theorem apply_sat {node : Node S A σ} {out : Handler A σ (Replica S A σ)} {J : Node S A σ → Prop}
    (h : out.Sat
      (fun r es => J { node with
        replica := r, jobs := node.jobs ++ submitted es, history := node.history ++ es })
      (fun es => ∀ reason, J { node with stopped := some reason, history := node.history ++ es })) :
    J (node.apply out) := by
  cases out with
  | ok r es => exact h
  | fail reason es => exact h reason

theorem apply_signed {node : Node S A σ} (out : Handler A σ (Replica S A σ)) : (node.apply out).signed = node.signed := by
  cases out <;> rfl

theorem mem_of_finishes {node : Node S A σ} {input : Input A σ} {job : Job A σ}
    (h : node.finishes input = some job) : job ∈ node.jobs := by
  cases input with
  | recv message => cases h
  | complete n => exact List.mem_of_getElem? h

theorem jobs_perm {node : Node S A σ} {n : Nat} {job : Job A σ} (h : node.jobs[n]? = some job) :
    (job :: node.jobs.eraseIdx n).Perm node.jobs := by
  obtain ⟨hn, rfl⟩ := List.getElem?_eq_some_iff.mp h
  exact List.getElem_cons_eraseIdx_perm hn

section
variable [App S] [DigestHash A]

/-- The rule of a step: the handling of a message, and the end of each job. -/
theorem step_sat {crypto : Crypto σ} {node : Node S A σ} {input : Input A σ} {J : Node S A σ → Prop}
    (hrecv : ∀ message, input = .recv message → J (node.apply (node.replica.onRecv message)))
    (hidle : node.finishes input = none → J node)
    (hfinish : ∀ n job, input = .complete n → node.jobs[n]? = some job →
      J ({ node with jobs := node.jobs.eraseIdx n }.finish crypto job)) :
    J (node.step crypto input) := by
  cases input with
  | recv message => exact hrecv message rfl
  | complete n =>
    cases h : node.jobs[n]? with
    | none => simpa only [step, h] using hidle h
    | some job => simpa only [step, h] using hfinish n job rfl h

/-- What is signed stays signed, and the end of a job adds what it signs. -/
theorem step_signed {crypto : Crypto σ} {node : Node S A σ} {input : Input A σ} {m : SignedMessage} :
    m ∈ (node.step crypto input).signed ↔
      m ∈ node.signed ∨ ∃ job, node.finishes input = some job ∧ job.signs crypto.scheme = some m := by
  cases input with
  | recv message => simp [step, apply_signed, finishes]
  | complete n =>
    cases h : node.jobs[n]? with
    | none => simp [step, finishes, h]
    | some job =>
      have : (node.step crypto (.complete n)).signed = node.signed ++ (job.signs crypto.scheme).toList := by
        simp only [step, h, finish]
        cases job.run crypto with
        | none => rfl
        | some event => exact apply_signed _
      rw [this, List.mem_append, Option.mem_toList]
      simp [finishes, h]

theorem step_params {crypto : Crypto σ} {node : Node S A σ} {input : Input A σ} :
    (node.step crypto input).replica.params = node.replica.params := by
  have happly : ∀ (node : Node S A σ) (out : Handler A σ (Replica S A σ)),
      out.Sat (fun r _ => r.params = node.replica.params) (fun _ => True) →
      (node.apply out).replica.params = node.replica.params := fun node out h =>
    apply_sat (J := fun node' => node'.replica.params = node.replica.params)
      (h.mono (fun _ _ h => h) fun _ _ _ => rfl)
  refine step_sat (J := fun node' => node'.replica.params = node.replica.params)
    (fun message _ => happly node _ (Replica.onRecv_params message)) (fun _ => rfl) fun n job _ _ => ?_
  unfold finish
  split
  · rfl
  · exact happly _ _ (Replica.onEvent_params _)

end

end Node

end

end Neatworks.Pbft
