import Neatworks.PbftOnce

/-!
# The requests of the primary

A request that passes the check of `replies` is admitted. It goes to the end of
the queue and leaves it in a batch of the next op number, and a queue that is
not empty waits for a proposal that has not been committed.
-/

namespace Neatworks.Pbft

open Outcome

section
variable {S A σ : Type}

/-- The batch that a call closes, with its op number. -/
def Effect.closes : Effect A σ → Option (UInt32 × List (Request A))
  | .submit (.signPrePrepare _ opNum requests) => some (opNum, requests)
  | _ => none

def closed (es : List (Effect A σ)) : List (UInt32 × List (Request A)) := es.filterMap Effect.closes

@[simp] theorem closed_nil : closed ([] : List (Effect A σ)) = [] := rfl

@[simp] theorem closed_append (es es' : List (Effect A σ)) : closed (es ++ es') = closed es ++ closed es' :=
  List.filterMap_append ..

@[simp] theorem closed_cons (e : Effect A σ) (es : List (Effect A σ)) : closed (e :: es) = e.closes.toList ++ closed es := by
  unfold closed
  rw [List.filterMap_cons]
  cases e.closes <;> rfl

namespace Replica

/-- The request passes the check of `replies`. -/
def admits (self : Replica S A σ) (request : Request A) : Bool :=
  match self.replies request.clientId with
  | none => true
  | some (seq, _) => seq < request.seq

section
variable {self : Replica S A σ} {request : Request A} {Q : Replica S A σ → List (Effect A σ) → Prop}
  {R : List (Effect A σ) → Prop}

theorem acceptRequest_sat
    (hqueue : self.isPrimary = true → self.commitNum < self.opNum → Q (self.enqueue request) [])
    (hclose : self.isPrimary = true → self.opNum ≤ self.commitNum → (self.enqueue request).closeBatch.Sat Q R) (hR : R []) :
    (self.acceptRequest request).Sat Q R := by
  unfold acceptRequest
  simp only [sat_bind, sat_assert, List.nil_append]
  refine ⟨fun hp => addU32_sat (fun _ => ?_) hR, fun _ => hR⟩
  rw [sat_ite]
  refine ⟨fun hlt => hclose hp ?_, fun hlt => hqueue hp ?_⟩
  · exact Nat.lt_succ_iff.mp hlt
  · exact Nat.lt_of_not_le fun hle => hlt (Nat.lt_succ_of_le hle)

theorem admits_of_replies {seq : UInt32} {reply : Option Reply}
    (hsome : self.replies request.clientId = some (seq, reply)) : self.admits request = decide (seq < request.seq) := by
  unfold admits
  rw [hsome]

theorem onRecvRequest_of_admits (h : self.admits request = true) :
    self.onRecvRequest request = self.acceptRequest request := by
  cases hreplies : self.replies request.clientId with
  | none =>
    unfold onRecvRequest
    rw [hreplies]
  | some entry =>
    obtain ⟨seq, reply⟩ := entry
    rw [admits_of_replies hreplies] at h
    have hlt : seq < request.seq := of_decide_eq_true h
    have hnot : ¬ request.seq < seq := UInt32.not_lt.mpr (UInt32.le_of_lt hlt)
    have hne : seq ≠ request.seq := UInt32.ne_of_lt hlt
    unfold onRecvRequest
    rw [hreplies]
    simp only [if_neg hnot, if_neg hne]

theorem onRecvRequest_of_not_admits (h : self.admits request = false) :
    (self.onRecvRequest request).Sat (fun r es => r = self ∧ closed es = []) fun _ => True := by
  cases hreplies : self.replies request.clientId with
  | none =>
    unfold admits at h
    rw [hreplies] at h
    cases h
  | some entry =>
    obtain ⟨seq, reply⟩ := entry
    rw [admits_of_replies hreplies] at h
    have hge : ¬ seq < request.seq := of_decide_eq_false h
    unfold onRecvRequest
    rw [hreplies]
    dsimp only
    split
    · exact ⟨rfl, rfl⟩
    · next hnot =>
      have heq : seq = request.seq := UInt32.le_antisymm (UInt32.not_lt.mp hnot) (UInt32.not_lt.mp hge)
      rw [if_pos heq]
      split
      · exact ⟨rfl, rfl⟩
      · exact ⟨rfl, rfl⟩

end

end Replica

/-! ## The invariant -/

/-- Every admitted request is in a batch or in the queue, in the order of arrival. -/
structure Queued (r : Replica S A σ) (history : List (Effect A σ)) (admitted : List (Request A)) : Prop where
  opNums : (closed history).map Prod.fst = (List.range r.opNum).map fun k => UInt32.ofNat (k + 1)
  batches : ((closed history).map Prod.snd).flatten ++ r.requests = admitted
  sizes : ∀ batch ∈ closed history, 1 ≤ batch.2.length ∧ batch.2.length ≤ 100
  seen : ∀ request ∈ admitted, r.Seen request
  increasing : ∀ clientId, ((admitted.filter (·.clientId = clientId)).map (·.seq)).Pairwise (· < ·)
  primary : r.requests ≠ [] → r.isPrimary = true

/-- A queue that is not empty waits for a proposal. -/
def Replica.Waits (r : Replica S A σ) : Prop := r.requests ≠ [] → r.commitNum < r.opNum

namespace Queued

variable {r s : Replica S A σ} {history : List (Effect A σ)} {admitted : List (Request A)}

theorem congr (h : Queued r history admitted) (hparams : s.params = r.params) (hop : s.opNum = r.opNum)
    (hrequests : s.requests = r.requests) (hseen : ∀ request, r.Seen request → s.Seen request) {es : List (Effect A σ)}
    (hes : closed es = []) : Queued s (history ++ es) admitted where
  opNums := by rw [closed_append, hes, List.append_nil, hop, h.opNums]
  batches := by rw [closed_append, hes, List.append_nil, hrequests, h.batches]
  sizes batch hbatch := by
    rw [closed_append, hes, List.append_nil] at hbatch
    exact h.sizes batch hbatch
  seen request hrequest := hseen request (h.seen request hrequest)
  increasing := h.increasing
  primary hne := by
    rw [Replica.isPrimary_congr hparams]
    exact h.primary (by rwa [← hrequests])

theorem enqueue (h : Queued r history admitted) (hp : r.isPrimary = true) {request : Request A}
    (hadmits : r.admits request = true) : Queued (r.enqueue request) (history ++ []) (admitted ++ [request]) := by
  have hnew (old : Request A) (hold : old ∈ admitted) (hclient : old.clientId = request.clientId) : old.seq < request.seq := by
    obtain ⟨seq, reply, hreplies, hle⟩ := h.seen old hold
    rw [hclient] at hreplies
    simp only [Replica.admits, hreplies] at hadmits
    exact UInt32.lt_of_le_of_lt hle (of_decide_eq_true hadmits)
  have hself : (r.enqueue request).Seen request :=
    ⟨request.seq, none, Function.update_self .., UInt32.le_refl _⟩
  constructor
  case opNums => rw [List.append_nil]; exact h.opNums
  case batches =>
    rw [List.append_nil, ← h.batches, List.append_assoc]
    rfl
  case sizes => rw [List.append_nil]; exact h.sizes
  case seen =>
    intro old hold
    rcases List.mem_append.mp hold with hold | hold
    · by_cases hclient : old.clientId = request.clientId
      · refine ⟨request.seq, none, ?_, UInt32.le_of_lt (hnew old hold hclient)⟩
        rw [hclient]
        exact Function.update_self ..
      · obtain ⟨seq, reply, hreplies, hle⟩ := h.seen old hold
        refine ⟨seq, reply, ?_, hle⟩
        show Function.update r.replies _ _ _ = _
        rw [Function.update_of_ne hclient]
        exact hreplies
    · cases List.mem_singleton.mp hold
      exact hself
  case increasing =>
    intro clientId
    rw [List.filter_append, List.map_append, List.pairwise_append]
    refine ⟨h.increasing clientId, ?_, ?_⟩
    · by_cases hclient : request.clientId = clientId
      · simp [hclient]
      · simp [hclient]
    · intro a ha b hb
      obtain ⟨old, hold, rfl⟩ := List.mem_map.mp ha
      obtain ⟨new, hnew', rfl⟩ := List.mem_map.mp hb
      rw [List.mem_filter, decide_eq_true_eq] at hold hnew'
      cases List.mem_singleton.mp hnew'.1
      exact hnew old hold.1 (hold.2.trans hnew'.2.symm)
  case primary => exact fun _ => hp

theorem closeBatch (h : Queued r history admitted) :
    r.closeBatch.Sat (fun r' es => Queued r' (history ++ es) admitted ∧ r'.commitNum = r.commitNum ∧
      r'.opNum = r.opNum + 1 ∧ r'.requests = r.requests.drop 100) fun _ => True := by
  refine Replica.closeBatch_sat (fun hp hne _ => ⟨?_, rfl, rfl, rfl⟩) trivial
  constructor
  case opNums =>
    rw [closed_append, List.map_append, h.opNums]
    simp [Effect.closes, List.range_succ]
  case batches =>
    rw [closed_append, List.map_append, List.flatten_append, ← h.batches]
    simp [Effect.closes]
  case sizes =>
    intro batch hbatch
    rw [closed_append, List.mem_append] at hbatch
    rcases hbatch with hold | hnew
    · exact h.sizes batch hold
    · have heq : batch = (UInt32.ofNat (r.opNum + 1), r.requests.take 100) := by simpa [Effect.closes] using hnew
      subst heq
      have hpos : 0 < r.requests.length := List.length_pos_of_ne_nil hne
      simp only [List.length_take]
      omega
  case seen => exact h.seen
  case increasing => exact h.increasing
  case primary => exact fun _ => hp

theorem executeRequests [App S] (h : Queued r history admitted) (k : Nat) (requests : List (Request A)) :
    (Replica.executeRequests k requests r).Sat (fun r' es => Queued r' (history ++ es) admitted) fun _ => True := by
  have hstart : Queued r (history ++ []) admitted := by rwa [List.append_nil]
  refine Replica.executeRequests_sat (R := fun _ => True) (I := fun _ r' es => Queued r' (history ++ es) admitted)
    (fun _ _ _ _ _ _ => trivial) (fun request rest r' es app result hr _ => ?_) requests [] hstart
  rw [← List.append_assoc]
  refine hr.congr (by rfl) (by rfl) (by rfl) (fun old hold => ?_) ?_
  · obtain ⟨seq, reply, hreplies, hle⟩ := hold
    rcases Once.replies_executed request old.clientId with hsame | ⟨_, hnew, hlater⟩
    · exact ⟨seq, reply, hsame.trans hreplies, hle⟩
    · exact ⟨request.seq, _, hnew, UInt32.le_trans hle (hlater seq reply hreplies)⟩
  · rfl

theorem advance [App S] (h : Queued r history admitted) :
    r.advance.Sat (fun r' es => Queued r' (history ++ es) admitted) fun _ => True := by
  have hstart : Queued r (history ++ []) admitted := by rwa [List.append_nil]
  refine Replica.advance_sat (R := fun _ => True) (I := fun r' es => Queued r' (history ++ es) admitted) (fun _ _ _ => trivial)
    (fun entry r' es hr _ _ _ => ?_) (fun r' es hr => ?_) [] hstart
  · have hnext : Queued { r' with commitNum := r'.commitNum + 1 } (history ++ es ++ []) admitted :=
      hr.congr (s := { r' with commitNum := r'.commitNum + 1 }) rfl rfl rfl (fun _ => id) closed_nil
    rw [List.append_nil] at hnext
    refine (hnext.executeRequests _ _).mono (fun _ es' h' => ?_) fun _ _ => trivial
    rwa [← List.append_assoc]
  · refine hr.closeBatch.mono (fun _ es' h' => ?_) fun _ _ => trivial
    rw [← List.append_assoc]
    exact h'.1

end Queued

/-! ## Proposals go on -/

section
variable {self : Replica S A σ}

/-- The loop that closes batches ends with no request left, or with more
proposals than are committed. -/
theorem closeBatches_waits (fuel : Nat) (hfuel : self.requests.length ≤ fuel)
    (hprimary : self.requests ≠ [] → self.isPrimary = true) :
    (Replica.closeBatches fuel self).Sat (fun r _ => r.Waits) fun _ => True := by
  induction fuel generalizing self with
  | zero =>
    intro hne
    exact absurd (List.length_eq_zero_iff.mp (Nat.le_zero.mp hfuel)) hne
  | succ fuel ih =>
    unfold Replica.closeBatches
    rw [sat_ite]
    refine ⟨fun _ => ?_, fun hstop hne => ?_⟩
    · rw [sat_bind]
      refine Replica.addU32_sat (fun _ => ?_) trivial
      rw [sat_ite]
      refine ⟨fun _ => ?_, fun hgt _ => ?_⟩
      · rw [sat_bind]
        refine Replica.closeBatch_sat (fun hp hne _ => ih ?_ fun _ => hp) trivial
        have hpos : 0 < self.requests.length := List.length_pos_of_ne_nil hne
        simp only [List.length_drop]
        omega
      · have hlt : self.commitNum + Replica.numConcurrentPrePrepare < self.opNum := Nat.lt_of_not_le hgt
        exact Nat.lt_of_le_of_lt (Nat.le_add_right _ _) hlt
    · refine absurd ?_ hstop
      simp [hprimary hne, hne]

theorem advance_waits [App S] (hprimary : self.requests ≠ [] → self.isPrimary = true) :
    self.advance.Sat (fun r _ => r.Waits) fun _ => True := by
  unfold Replica.advance
  rw [sat_bind]
  have hframe : (Replica.executeCommitted (self.log.drop (self.commitNum + 1)) self).Sat
      (fun r es => r.requests = self.requests ∧ r.isPrimary = self.isPrimary) fun _ => True :=
    Replica.executeCommitted_sat (R := fun _ => True) (I := fun _ r _ => r.requests = self.requests ∧ r.isPrimary = self.isPrimary)
      (fun _ _ _ hr => hr) (fun entry rest r es _ hr => (Replica.executeRequests_frame _ _).mono (by
        rintro _ _ ⟨app, replies, rfl⟩
        exact hr) fun _ _ => trivial) _ [] ⟨rfl, rfl⟩
  refine hframe.mono (fun r es hr => ?_) fun _ _ => trivial
  refine closeBatches_waits r.requests.length (Nat.le_refl _) fun hne => ?_
  rw [hr.2]
  exact hprimary (by rwa [← hr.1])

end

/-! ## The handlers -/

structure Serves (r : Replica S A σ) (history : List (Effect A σ)) (admitted : List (Request A)) : Prop where
  queued : Queued r history admitted
  waits : r.Waits

/-- Nothing that the queue depends on changes. -/
structure Steady (s r : Replica S A σ) (es : List (Effect A σ)) : Prop where
  params : r.params = s.params
  opNum : r.opNum = s.opNum
  commitNum : r.commitNum = s.commitNum
  requests : r.requests = s.requests
  replies : r.replies = s.replies
  closed : closed es = []

section
variable {self r : Replica S A σ} {history es : List (Effect A σ)} {admitted : List (Request A)}

theorem Serves.steady (h : Serves self history admitted) (hsteady : Steady self r es) : Serves r (history ++ es) admitted where
  queued := h.queued.congr hsteady.params hsteady.opNum hsteady.requests
    (fun request ⟨seq, reply, hreplies, hle⟩ => ⟨seq, reply, by rw [hsteady.replies, hreplies], hle⟩) hsteady.closed
  waits hne := by
    rw [hsteady.commitNum, hsteady.opNum]
    exact h.waits (by rwa [← hsteady.requests])

theorem steady_refl (hes : closed es = []) : Steady self self es := ⟨rfl, rfl, rfl, rfl, rfl, hes⟩

theorem steady_record {phase : Phase} {vote : Verifiable (Vote phase) σ} : Steady self (self.record phase vote) [] := by
  constructor <;> simp [Replica.record, Replica.params]

theorem steady_setPending {phase : Phase} {k : UInt32} {votes : Option (List (Verifiable (Vote phase) σ))}
    (hes : closed es = []) : Steady self (self.setPending phase k votes) es := by
  constructor <;> simp [Replica.params, hes]

/-! The handlers that are steady. -/

theorem onSignedPrePrepare_steady (prePrepare : Verifiable PrePrepare σ) (requests : List (Request A)) :
    (self.onSignedPrePrepare prePrepare requests).Sat (Steady self) fun _ => True := by
  refine Replica.onSignedPrePrepare_sat (fun _ => steady_refl rfl) (fun _ _ => ?_) fun _ _ => trivial
  constructor <;> simp [Replica.fill, Replica.modifyEntry, Replica.params, Effect.closes]

theorem onVerifiedPrePrepare_steady (prePrepare : Verifiable PrePrepare σ) (requests : List (Request A)) :
    (self.onVerifiedPrePrepare prePrepare requests).Sat (Steady self) fun _ => True := by
  refine Replica.onVerifiedPrePrepare_sat (steady_refl rfl) ?_ fun _ _ => ?_
  · constructor <;> simp [Replica.params]
  · constructor <;> simp [Replica.fill, Replica.modifyEntry, Replica.retainDigest, Replica.params, Effect.closes]

theorem onRecvVote_steady (phase : Phase) (vote : Verifiable (Vote phase) σ) :
    (self.onRecvVote phase vote).Sat (Steady self) fun _ => True :=
  Replica.onRecvVote_sat (fun _ _ => steady_setPending rfl) (steady_refl rfl) (fun _ _ _ => steady_setPending rfl) trivial

theorem drainPending_steady {phase : Phase} (k : UInt32) (votes : List (Verifiable (Vote phase) σ)) :
    (Replica.drainPending phase k votes self).Sat (Steady self) fun _ => True :=
  Replica.drainPending_sat votes (steady_setPending rfl) (fun _ _ _ _ _ _ => steady_setPending rfl) trivial

theorem insertPrepare_steady (prepare : Verifiable Prepare σ) :
    (self.insertPrepare prepare).Sat (Steady self) fun _ => True := by
  refine Replica.insertPrepare_sat steady_record (fun _ _ _ => ?_) trivial
  constructor <;> simp [Replica.record, Replica.closeQuorum, Replica.modifyEntry, Replica.params, Effect.closes]

section
variable [App S]

theorem insertVote_serves (h : Serves self history admitted) (phase : Phase) (vote : Verifiable (Vote phase) σ) :
    (self.insertVote phase vote).Sat (fun r es => Serves r (history ++ es) admitted) fun _ => True := by
  cases phase with
  | prepare => exact (insertPrepare_steady vote).mono (fun r es hr => h.steady hr) fun _ _ => trivial
  | commit =>
    refine Replica.insertCommit_sat (h.steady steady_record) (fun _ _ _ _ => ?_) trivial
    have hclosed : Steady self ((self.record .commit vote).closeQuorum .commit vote.inner.opNum (self.quorumWith .commit vote))
        [] := by
      constructor <;> simp [Replica.record, Replica.closeQuorum, Replica.modifyEntry, Replica.params]
    have hserves := h.steady hclosed
    rw [List.append_nil] at hserves
    exact (hserves.queued.advance.and (advance_waits hserves.queued.primary)).mono (fun r es hr => ⟨hr.1, hr.2⟩)
      fun _ _ => trivial

theorem onEvent_serves (h : Serves self history admitted) (event : Event A σ) :
    (self.onEvent event).Sat (fun r es => Serves r (history ++ es) admitted) fun _ => True := by
  cases event with
  | signedPrePrepare prePrepare requests =>
    exact (onSignedPrePrepare_steady prePrepare requests).mono (fun r es hr => h.steady hr) fun _ _ => trivial
  | verifiedPrePrepare prePrepare requests =>
    exact (onVerifiedPrePrepare_steady prePrepare requests).mono (fun r es hr => h.steady hr) fun _ _ => trivial
  | signedVote phase vote =>
    have hsend : Serves self (history ++ [.sendAll (.vote phase vote)]) admitted := h.steady (steady_refl rfl)
    refine Replica.onSignedVote_sat (fun _ => h.steady (steady_refl rfl)) hsend (fun _ _ => ?_) trivial
    refine (insertVote_serves hsend phase vote).mono (fun r es hr => ?_) fun _ _ => trivial
    rwa [List.append_assoc] at hr
  | verifiedVote phase vote =>
    refine Replica.onVerifiedVote_sat (fun _ => h.steady (steady_refl rfl)) fun _ => ?_
    refine (insertVote_serves h phase vote).mono (fun r es hr => ⟨fun _ => hr, fun votes _ => ?_⟩) fun _ _ => trivial
    refine (drainPending_steady _ votes).mono (fun r' es' hr' => ?_) fun _ _ => trivial
    rw [← List.append_assoc]
    exact hr.steady hr'

end

theorem onRecvRequest_serves (h : Serves self history admitted) (request : Request A) :
    (self.onRecvRequest request).Sat
      (fun r es => Serves r (history ++ es) (admitted ++ if self.admits request then [request] else [])) fun _ => True := by
  by_cases hadmits : self.admits request = true
  · rw [Replica.onRecvRequest_of_admits hadmits, if_pos hadmits]
    refine Replica.acceptRequest_sat (fun hp hlt => ⟨h.queued.enqueue hp hadmits, fun _ => hlt⟩) (fun hp hle => ?_) trivial
    have hqueued := h.queued.enqueue hp hadmits
    rw [List.append_nil] at hqueued
    -- Nothing waits when all proposals are committed, so the batch is this request.
    have hempty : self.requests = [] := by
      by_contra hne
      exact absurd (h.waits hne) (Nat.not_lt.mpr hle)
    refine hqueued.closeBatch.mono (fun r es hr => ⟨hr.1, fun hne => absurd ?_ hne⟩) fun _ _ => trivial
    rw [hr.2.2.2]
    simp [Replica.enqueue, hempty]
  · rw [Bool.not_eq_true] at hadmits
    refine (Replica.onRecvRequest_of_not_admits hadmits).mono (fun r es hr => ?_) fun _ _ => trivial
    obtain ⟨rfl, hes⟩ := hr
    rw [hadmits, if_neg Bool.false_ne_true, List.append_nil]
    exact h.steady (steady_refl hes)

end

end

/-! ## Runs -/

/-- A node, and the requests that it has admitted. -/
structure Intake (S A σ : Type) where
  node : Node S A σ
  admitted : List (Request A) := []

section
variable {S A σ : Type}

/-- The request that an input brings and the replica admits. -/
def Replica.admitted (self : Replica S A σ) : Input A σ → List (Request A)
  | .recv (.request request) => if self.admits request then [request] else []
  | .recv (.prePrepare ..) | .recv (.vote ..) | .complete _ => []

def intakeMachine [App S] [DigestHash A] (crypto : Crypto σ) (app : S) (numFaulty : Nat) :
    Machine (Intake S A σ) (Input A σ) where
  init s := (nodeMachine crypto app numFaulty).init s.node ∧ s.admitted = []
  next s input s' := (nodeMachine crypto app numFaulty).next s.node input s'.node ∧
    s'.admitted = s.admitted ++ s.node.replica.admitted input

theorem serves_apply {node : Node S A σ} {admitted : List (Request A)} {out : Handler A σ (Replica S A σ)}
    (h : out.Sat (fun r es => Serves r (node.history ++ es) admitted) fun _ => True) :
    (node.apply out).stopped = none → Serves (node.apply out).replica (node.apply out).history admitted := by
  refine Node.apply_sat (J := fun node' => node'.stopped = none → Serves node'.replica node'.history admitted) ?_
  exact h.mono (fun r es hr _ => hr) fun es _ reason hnone => by cases hnone

variable [App S] [DigestHash A] {crypto : Crypto σ}

theorem serves_step {node : Node S A σ} {admitted : List (Request A)} {input : Input A σ}
    (h : Serves node.replica node.history admitted) : (node.step crypto input).stopped = none →
      Serves (node.step crypto input).replica (node.step crypto input).history (admitted ++ node.replica.admitted input) := by
  have hsame : Serves node.replica node.history (admitted ++ []) := by rwa [List.append_nil]
  cases input with
  | recv message =>
    apply serves_apply
    cases message with
    | request request => exact onRecvRequest_serves h request
    | prePrepare prePrepare requests =>
      exact Replica.onRecvPrePrepare_sat (hsame.steady (steady_refl rfl)) (fun _ _ => hsame.steady (steady_refl rfl)) trivial
    | vote phase vote => exact (onRecvVote_steady phase vote).mono (fun r es hr => hsame.steady hr) fun _ _ => trivial
  | complete n =>
    cases hjob : node.jobs[n]? with
    | none =>
      simp only [Node.step, hjob]
      exact fun _ => hsame
    | some job =>
      simp only [Node.step, hjob]
      unfold Node.finish
      split
      · exact fun _ => hsame
      · next event _ => exact serves_apply (onEvent_serves hsame event)

theorem serves_reach {app : S} {numFaulty : Nat} {s : Intake S A σ}
    (h : (intakeMachine crypto app numFaulty).Reach Machine.always s) (hrunning : s.node.stopped = none) :
    Serves s.node.replica s.node.history s.admitted := by
  refine h.invariant (I := fun s => s.node.stopped = none → Serves s.node.replica s.node.history s.admitted) ?_ ?_ hrunning
  · rintro ⟨node, admitted⟩ ⟨⟨id, _, rfl⟩, rfl⟩ _
    refine ⟨⟨rfl, rfl, fun batch hbatch => ?_, fun request hrequest => ?_, fun _ => .nil, fun hne => absurd rfl hne⟩,
      fun hne => absurd rfl hne⟩
    · cases hbatch
    · cases hrequest
  · rintro s input s' _ hs _ ⟨⟨hnone, hnode⟩, hadmitted⟩ hstopped
    rw [hadmitted]
    rw [hnode] at hstopped ⊢
    exact serves_step (hs hnone) hstopped

/-- At every point of a run, the batches in the order of their op numbers and
then the queue are the admitted requests in the order of their arrival, and a
queue that is not empty waits for a proposal. -/
theorem requests_kept {app : S} {numFaulty : Nat} {s : Intake S A σ}
    (h : (intakeMachine crypto app numFaulty).Reach Machine.always s) (hrunning : s.node.stopped = none) :
    (closed s.node.history).map Prod.fst = (List.range s.node.replica.opNum).map (fun k => UInt32.ofNat (k + 1)) ∧
      ((closed s.node.history).map Prod.snd).flatten ++ s.node.replica.requests = s.admitted ∧
      (∀ batch ∈ closed s.node.history, 1 ≤ batch.2.length ∧ batch.2.length ≤ 100) ∧
      (∀ clientId, ((s.admitted.filter (·.clientId = clientId)).map (·.seq)).Pairwise (· < ·)) ∧
      (s.node.replica.requests ≠ [] → s.node.replica.commitNum < s.node.replica.opNum) := by
  have hserves := serves_reach h hrunning
  exact ⟨hserves.queued.opNums, hserves.queued.batches, hserves.queued.sizes, hserves.queued.increasing, hserves.waits⟩

end

/-- Two clients ask the primary; the second request waits. -/
theorem requests_kept_two :
    let crypto : Crypto (Nat × Digest) := ⟨Scheme.toy, 4, 0, by decide⟩
    let first : Request UInt8 := ⟨7, 70, 1, []⟩
    let second : Request UInt8 := ⟨8, 80, 1, []⟩
    let start : Node Null UInt8 (Nat × Digest) := Node.new 0 Null.mk 4 1
    let node := (start.step crypto (.recv (.request first))).step crypto (.recv (.request second))
    ((closed node.history).map Prod.snd).flatten ++ node.replica.requests = [first, second] ∧
      node.replica.requests = [second] ∧ node.replica.commitNum < node.replica.opNum := by
  intro crypto first second start node
  have hfirst : (intakeMachine crypto Null.mk 1).Reach Machine.always ⟨start.step crypto (.recv (.request first)), [first]⟩ :=
    .next (.init (s := ⟨start, []⟩) ⟨⟨0, rfl, rfl⟩, rfl⟩) (l := .recv (.request first)) trivial ⟨⟨rfl, rfl⟩, rfl⟩
  have hreach : (intakeMachine crypto Null.mk 1).Reach Machine.always ⟨node, [first, second]⟩ :=
    .next hfirst (l := .recv (.request second)) trivial ⟨⟨rfl, rfl⟩, rfl⟩
  have hkept := requests_kept hreach rfl
  have hrequests : node.replica.requests = [second] := rfl
  refine ⟨hkept.2.1, hrequests, hkept.2.2.2.2 ?_⟩
  show node.replica.requests ≠ []
  rw [hrequests]
  exact List.cons_ne_nil _ _

end Neatworks.Pbft
