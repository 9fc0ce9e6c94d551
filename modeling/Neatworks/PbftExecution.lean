import Neatworks.PbftValidity

/-!
# Execution

The batch a replica executes when it advances to an op number is the one in the
slot of its log, and the slot has a quorum of commits.
-/

namespace Neatworks.Pbft

open Outcome

section
variable {S A σ : Type}

def Effect.executedAt (k : Nat) : Effect A σ → Option (Request A)
  | .execute opNum request _ => if opNum = k then some request else none
  | _ => none

/-- The requests executed for op number `k`, in order. -/
def executedAt (k : Nat) (es : List (Effect A σ)) : List (Request A) := es.filterMap (Effect.executedAt k)

@[simp] theorem executedAt_nil (k : Nat) : executedAt k ([] : List (Effect A σ)) = [] := rfl

@[simp] theorem executedAt_append (k : Nat) (es es' : List (Effect A σ)) :
    executedAt k (es ++ es') = executedAt k es ++ executedAt k es' := List.filterMap_append ..

@[simp] theorem executedAt_submit (k : Nat) (job : Job A σ) (es : List (Effect A σ)) :
    executedAt k (.submit job :: es) = executedAt k es := rfl

@[simp] theorem executedAt_sendAll (k : Nat) (message : ToReplica A σ) (es : List (Effect A σ)) :
    executedAt k (.sendAll message :: es) = executedAt k es := rfl

@[simp] theorem executedAt_sendClient (k : Nat) (addr : A) (id : UInt32) (reply : Reply) (es : List (Effect A σ)) :
    executedAt k (.sendClient addr id reply :: es) = executedAt k es := rfl

theorem executedAt_execute_self (k : Nat) (request : Request A) (result : Option Payload) (es : List (Effect A σ)) :
    executedAt k (.execute k request result :: es) = request :: executedAt k es := by
  simp [executedAt, Effect.executedAt]

theorem executedAt_execute_of_ne {k j : Nat} (h : j ≠ k) (request : Request A) (result : Option Payload)
    (es : List (Effect A σ)) : executedAt k (.execute j request result :: es) = executedAt k es := by
  simp [executedAt, Effect.executedAt, h]

/-! ## Handlers that execute nothing -/

/-- The slots keep their pre-prepares, batches and commits. -/
structure SameSlots (s r : Replica S A σ) : Prop where
  prePrepare : ∀ k, (r.entry k).prePrepare = (s.entry k).prePrepare
  requests : ∀ k, (r.entry k).requests = (s.entry k).requests
  commits : ∀ k, (s.entry k).commits ≠ [] → (r.entry k).commits ≠ []

structure Idle (s r : Replica S A σ) (es : List (Effect A σ)) : Prop where
  slots : SameSlots s r
  commitNum : r.commitNum = s.commitNum
  executed : ∀ k, executedAt k es = []

def Idle.fails (es : List (Effect A σ)) : Prop := ∀ k, executedAt k es = []

theorem SameSlots.of_entry {s r : Replica S A σ} (h : ∀ k, r.entry k = s.entry k) : SameSlots s r :=
  ⟨fun k => by rw [h], fun k => by rw [h], fun k hk => by rwa [h]⟩

theorem SameSlots.trans {s r r' : Replica S A σ} (h : SameSlots s r) (h' : SameSlots r r') : SameSlots s r' :=
  ⟨fun k => (h'.prePrepare k).trans (h.prePrepare k), fun k => (h'.requests k).trans (h.requests k),
    fun k hk => h'.commits k (h.commits k hk)⟩

theorem SameSlots.closeQuorum {r : Replica S A σ} {phase : Phase} {k : UInt32}
    {quorum : Table UInt8 (Verifiable (Vote phase) σ)} (hq : quorum.entries ≠ []) :
    SameSlots r (r.closeQuorum phase k quorum) where
  prePrepare := Replica.entry_closeQuorum_eq (f := LogEntry.prePrepare) (setVotes_prePrepare phase)
  requests := Replica.entry_closeQuorum_eq (f := LogEntry.requests) (setVotes_requests phase)
  commits j hj := by
    by_cases hjk : j = k.toNat
    · subst hjk
      by_cases hk : k.toNat < r.log.length
      · rw [Replica.entry_closeQuorum_self hk]
        cases phase
        · exact hj
        · exact hq
      · rw [Replica.closeQuorum, Replica.entry_setQuorum, Replica.entry_modifyEntry_of_le (not_lt.mp hk)]
        exact hj
    · rwa [Replica.entry_closeQuorum_of_ne hjk]

theorem quorumWith_ne_nil {r : Replica S A σ} {phase : Phase} {vote : Verifiable (Vote phase) σ} :
    (r.quorumWith phase vote).entries ≠ [] := by
  simp [Replica.quorumWith, Table.insert]

namespace Replica

section
variable {self : Replica S A σ}

theorem onRecv_idle (message : ToReplica A σ) : (self.onRecv message).Sat (Idle self) Idle.fails := by
  have hrefl : Idle self self [] := ⟨.of_entry fun _ => rfl, rfl, fun _ => rfl⟩
  cases message with
  | request request =>
    refine onRecvRequest_sat hrefl (fun _ _ => ⟨.of_entry fun _ => rfl, rfl, fun _ => rfl⟩)
      (fun _ _ => ⟨⟨.of_entry fun _ => rfl, rfl, fun _ => rfl⟩, ?_⟩) fun _ => rfl
    exact closeBatch_sat (fun _ _ _ => ⟨.of_entry fun _ => rfl, rfl, fun _ => rfl⟩) fun _ => rfl
  | prePrepare prePrepare requests =>
    exact onRecvPrePrepare_sat hrefl (fun _ _ => ⟨.of_entry fun _ => rfl, rfl, fun _ => rfl⟩) fun _ => rfl
  | vote phase vote =>
    exact onRecvVote_sat (fun _ _ => ⟨.of_entry (by simp), by simp, fun _ => rfl⟩) hrefl
      (fun _ _ _ => ⟨.of_entry (by simp), by simp, fun _ => rfl⟩) fun _ => rfl

theorem insertPrepare_idle (prepare : Verifiable Prepare σ) :
    (self.insertPrepare prepare).Sat (Idle self) Idle.fails := by
  have hrecord : SameSlots self (self.record .prepare prepare) := .of_entry (by simp)
  exact insertPrepare_sat ⟨hrecord, by simp [record], fun _ => rfl⟩
    (fun _ _ _ => ⟨hrecord.trans (.closeQuorum quorumWith_ne_nil), by simp [record, closeQuorum], fun _ => rfl⟩)
    fun _ => rfl

theorem drainPending_idle {phase : Phase} (k : UInt32) (votes : List (Verifiable (Vote phase) σ)) :
    (drainPending phase k votes self).Sat (Idle self) Idle.fails :=
  drainPending_sat votes ⟨.of_entry (by simp), by simp, fun _ => rfl⟩
    (fun _ _ _ _ _ _ => ⟨.of_entry (by simp), by simp, fun _ => rfl⟩) fun _ => rfl

end

end Replica

/-! ## What has been executed -/

structure Executed (r : Replica S A σ) (history : List (Effect A σ)) : Prop where
  done : ∀ k, 1 ≤ k → k ≤ r.commitNum →
    executedAt k history = (r.entry k).requests ∧ (r.entry k).commits ≠ []
  fresh : ∀ k, r.commitNum < k → executedAt k history = []

namespace Executed

section
variable {s r : Replica S A σ} {history es : List (Effect A σ)}

theorem idle (h : Executed s history) (hi : Idle s r es) : Executed r (history ++ es) where
  done k hpos hk := by
    obtain ⟨he, hc⟩ := h.done k hpos (hi.commitNum ▸ hk)
    rw [executedAt_append, hi.executed, List.append_nil, hi.slots.requests]
    exact ⟨he, hi.slots.commits k hc⟩
  fresh k hk := by
    rw [executedAt_append, hi.executed, List.append_nil]
    exact h.fresh k (hi.commitNum ▸ hk)

/-- A slot that has commits has a pre-prepare, so filling a free slot is not
filling one that is executed. -/
theorem fill (h : Executed s history) (hfull : ∀ k, (s.entry k).commits ≠ [] → (s.entry k).prePrepare ≠ none)
    {p : Verifiable PrePrepare σ} {requests : List (Request A)}
    (hnone : (s.entry p.inner.opNum.toNat).prePrepare = none) (hes : ∀ k, executedAt k es = []) :
    Executed ((s.reserve p.inner.opNum.toNat).fill p requests) (history ++ es) := by
  have hnum : ((s.reserve p.inner.opNum.toNat).fill p requests).commitNum = s.commitNum := by simp [Replica.fill]
  constructor
  case done =>
    intro k hpos hk
    obtain ⟨he, hc⟩ := h.done k hpos (hnum ▸ hk)
    rw [executedAt_append, hes, List.append_nil, Replica.entry_fill_of_ne ?_, Replica.entry_reserve]
    · exact ⟨he, hc⟩
    · rintro rfl
      exact hfull _ hc hnone
  case fresh =>
    intro k hk
    rw [executedAt_append, hes, List.append_nil]
    exact h.fresh k (hnum ▸ hk)

section
variable [App S]

theorem batch (h : Executed r history) {entry : LogEntry A σ} (hentry : r.log[r.commitNum + 1]? = some entry)
    (hne : entry.commits ≠ []) :
    (Replica.executeRequests (r.commitNum + 1) entry.requests { r with commitNum := r.commitNum + 1 }).Sat
      (fun r' es => Executed r' (history ++ es) ∧ r'.commitNum = r.commitNum + 1 ∧
        ∀ k, k ≤ r.commitNum → executedAt k es = [])
      (fun es => ∀ k, k ≤ r.commitNum → executedAt k es = []) := by
  refine (Replica.executeRequests_sat (R := fun es => ∀ k, k ≤ r.commitNum → executedAt k es = [])
    (I := fun rest r' es => r'.log = r.log ∧ r'.commitNum = r.commitNum + 1 ∧
      executedAt (r.commitNum + 1) es ++ rest = entry.requests ∧ ∀ k, k ≠ r.commitNum + 1 → executedAt k es = [])
    (fun request rest r' es hI _ k hk => ?_) (fun request rest r' es app result hI _ => ?_) entry.requests []
    ?_).mono (fun r' es hI => ?_) fun _ hR => hR
  rotate_left 2
  · exact ⟨rfl, rfl, rfl, fun _ _ => rfl⟩
  · obtain ⟨hlog, hnum, hexec, hother⟩ := hI
    rw [List.append_nil, List.nil_append] at hexec
    have hslot : ∀ k, r'.entry k = r.entry k := Replica.entry_congr hlog
    refine ⟨⟨fun k hpos hk => ?_, fun k hk => ?_⟩, hnum, fun k hk => hother k (by omega)⟩
    · rw [hslot, executedAt_append]
      by_cases hlast : k = r.commitNum + 1
      · subst hlast
        rw [h.fresh _ (by omega), hexec, Replica.entry_of_getElem? hentry]
        exact ⟨rfl, hne⟩
      · have hother' : executedAt k es = [] := hother k hlast
        rw [hother', List.append_nil]
        exact h.done k hpos (by omega)
    · have hother' : executedAt k es = [] := hother k (by omega)
      rw [executedAt_append, hother', List.append_nil]
      exact h.fresh k (by omega)
  · rw [executedAt_append, hI.2.2.2 k (by omega), executedAt_execute_of_ne (by omega)]
    rfl
  · obtain ⟨hlog, hnum, hexec, hother⟩ := hI
    refine ⟨hlog, hnum, ?_, fun k hk => ?_⟩
    · rw [executedAt_append, executedAt_execute_self]
      simpa using hexec
    · rw [executedAt_append, hother k hk, executedAt_execute_of_ne (Ne.symm hk)]
      rfl

theorem insertVote (h : Executed s history) (phase : Phase) (vote : Verifiable (Vote phase) σ) :
    (s.insertVote phase vote).Sat (fun r es => Executed r (history ++ es) ∧ s.commitNum ≤ r.commitNum ∧
        ∀ k, k ≤ s.commitNum → executedAt k es = [])
      (fun es => ∀ k, k ≤ s.commitNum → executedAt k es = []) := by
  cases phase with
  | prepare =>
    exact (Replica.insertPrepare_idle vote).mono
      (fun r es hi => ⟨h.idle hi, hi.commitNum.ge, fun k _ => hi.executed k⟩) fun es hi k _ => hi k
  | commit =>
    have hrecord : SameSlots s (s.record .commit vote) := .of_entry (by simp)
    refine Replica.insertCommit_sat ⟨h.idle ⟨hrecord, by simp [Replica.record], fun _ => rfl⟩,
      by simp [Replica.record], fun _ _ => rfl⟩ (fun _ _ _ _ => ?_) fun _ _ => rfl
    refine Replica.advance_sat (R := fun es => ∀ k, k ≤ s.commitNum → executedAt k es = [])
      (I := fun r es => Executed r (history ++ es) ∧ s.commitNum ≤ r.commitNum ∧
        ∀ k, k ≤ s.commitNum → executedAt k es = []) (fun _ _ h => h.2.2) (fun entry r es hI hlog hentry hne => ?_)
      (fun r es hI => ?_) [] ⟨?_, ?_, fun _ _ => rfl⟩
    · obtain ⟨hexec, hle, hnone⟩ := hI
      refine (hexec.batch (by rw [hlog]; exact hentry) hne).mono (fun r' es' hr => ⟨?_, ?_, fun k hk => ?_⟩)
        fun es' hR k hk => ?_
      · simpa using hr.1
      · rw [hr.2.1]
        exact hle.trans (Nat.le_succ _)
      · rw [executedAt_append, hnone k hk, hr.2.2 k (hk.trans hle)]
        rfl
      · rw [executedAt_append, hnone k hk, hR k (hk.trans hle)]
        rfl
    · obtain ⟨hexec, hle, hnone⟩ := hI
      refine Replica.closeBatch_sat (fun _ _ _ => ⟨?_, hle, fun k hk => ?_⟩) fun k hk => ?_
      · rw [← List.append_assoc]
        exact hexec.idle ⟨.of_entry fun _ => rfl, rfl, fun _ => rfl⟩
      · simpa using hnone k hk
      · simpa using hnone k hk
    · exact h.idle ⟨hrecord.trans (.closeQuorum quorumWith_ne_nil), by simp [Replica.record, Replica.closeQuorum],
        fun _ => rfl⟩
    · simp [Replica.record, Replica.closeQuorum]

end

end

end Executed

/-! ## Steps of a node -/

structure Node.Executes (node : Node S A σ) : Prop where
  done : ∀ k, 1 ≤ k → k ≤ node.replica.commitNum →
    executedAt k node.history = (node.replica.entry k).requests ∧ (node.replica.entry k).commits ≠ []
  fresh : node.stopped = none → ∀ k, node.replica.commitNum < k → executedAt k node.history = []

namespace Node.Executes

section
variable {node : Node S A σ}

theorem executed (h : node.Executes) (hrunning : node.stopped = none) : Executed node.replica node.history :=
  ⟨h.done, h.fresh hrunning⟩

theorem apply (h : node.Executes) {out : Handler A σ (Replica S A σ)}
    (hout : out.Sat (fun r es => Executed r (node.history ++ es))
      (fun es => ∀ k, k ≤ node.replica.commitNum → executedAt k es = [])) : (node.apply out).Executes := by
  refine Node.apply_sat (J := Node.Executes) (hout.mono (fun r es hr => ⟨hr.done, fun _ => hr.fresh⟩)
    fun es hes reason => ⟨fun k hpos hk => ?_, fun hs => by cases hs⟩)
  rw [executedAt_append, hes k hk, List.append_nil]
  exact h.done k hpos hk

theorem apply_idle (h : node.Executes) (hrunning : node.stopped = none) {out : Handler A σ (Replica S A σ)}
    (hout : out.Sat (Idle node.replica) Idle.fails) : (node.apply out).Executes :=
  h.apply (hout.mono (fun _ _ hi => (h.executed hrunning).idle hi) fun _ hi k _ => hi k)

theorem congr {node' : Node S A σ} (h : node.Executes) (hreplica : node'.replica = node.replica)
    (hhistory : node'.history = node.history) (hstopped : node'.stopped = node.stopped) : node'.Executes := by
  refine ⟨fun k hpos hk => ?_, fun hs k hk => ?_⟩
  · rw [hreplica, hhistory]
    exact h.done k hpos (hreplica ▸ hk)
  · rw [hhistory]
    exact h.fresh (hstopped ▸ hs) k (hreplica ▸ hk)

theorem step [App S] [DigestHash A] {crypto : Crypto σ} {input : Input A σ} (h : node.Executes)
    (hrunning : node.stopped = none)
    (hfull : ∀ k, (node.replica.entry k).commits ≠ [] → (node.replica.entry k).prePrepare ≠ none) :
    (node.step crypto input).Executes := by
  refine Node.step_sat (J := Node.Executes)
    (fun message _ => h.apply_idle hrunning (Replica.onRecv_idle message)) (fun _ => h) fun n job hinput hjob => ?_
  have hexec := h.executed hrunning
  have hkeep : Executed node.replica (node.history ++ []) := by rwa [List.append_nil]
  have hleft : Node.Executes { node with
      jobs := node.jobs.eraseIdx n, signed := node.signed ++ (job.signs crypto.scheme).toList } := h.congr rfl rfl rfl
  unfold Node.finish
  cases hrun : job.run crypto with
  | none => exact hleft
  | some event =>
    refine hleft.apply ?_
    cases event with
    | signedPrePrepare p requests =>
      exact Replica.onSignedPrePrepare_sat (fun _ => hkeep) (fun _ hnone => hexec.fill hfull hnone fun _ => rfl)
        fun _ _ _ _ => rfl
    | verifiedPrePrepare p requests =>
      refine Replica.onVerifiedPrePrepare_sat hkeep ?_ fun _ hnone => ?_
      · exact hexec.idle ⟨.of_entry (by simp), by simp, fun _ => rfl⟩
      · have hfill : Executed ((node.replica.reserve p.inner.opNum.toNat).fill p requests) (node.history ++ []) :=
          hexec.fill hfull hnone fun _ => rfl
        rw [List.append_nil] at hfill
        exact hfill.idle ⟨.of_entry (by simp), rfl, fun _ => rfl⟩
    | signedVote phase vote =>
      refine Replica.onSignedVote_sat (fun _ => hkeep) ?_ (fun _ _ => ?_) fun _ _ => rfl
      · exact hexec.idle ⟨.of_entry fun _ => rfl, rfl, fun _ => rfl⟩
      · refine (hexec.insertVote phase vote).mono (fun r es hr => ?_) fun es hes k hk => hes k hk
        refine ⟨fun k hpos hk => ?_, fun k hk => ?_⟩
        · simpa using hr.1.done k hpos hk
        · simpa using hr.1.fresh k hk
    | verifiedVote phase vote =>
      refine Replica.onVerifiedVote_sat (fun _ => hkeep) fun _ => ?_
      refine (hexec.insertVote phase vote).mono (fun r es hr => ⟨fun _ => hr.1, fun votes _ => ?_⟩) fun es hes => hes
      refine (Replica.drainPending_idle _ votes).mono (fun r' es' hi => ?_) fun es' hi k hk => ?_
      · simpa using hr.1.idle hi
      · rw [executedAt_append, hr.2.2 k hk, hi k]
        rfl

end

end Node.Executes

end

end Neatworks.Pbft
