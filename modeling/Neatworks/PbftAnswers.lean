import Neatworks.PbftOrder
import Neatworks.PbftView

/-!
# The answers of the service

A replica sends a client only results of its calls of `execute`, also when it
repeats a reply. A client takes a result that more replicas than can be
Byzantine have sent it, so the result is that of a request in the one log.
-/

namespace Neatworks.Pbft

open Outcome

/-! ## What a replica sends -/

section
variable {S A σ : Type}

/-- What is sent to a client is a result of a call for it. -/
def Truthful (history : List (Effect A σ)) : Prop :=
  ∀ addr clientId reply, .sendClient addr clientId reply ∈ history → HasResult history clientId reply.seq reply.result

structure Answers (r : Replica S A σ) (history : List (Effect A σ)) : Prop where
  sent : Truthful history
  replies : ∀ clientId seq reply, r.replies clientId = some (seq, some reply) →
    reply.seq = seq ∧ HasResult history clientId seq reply.result

section
variable {self r : Replica S A σ} {history es : List (Effect A σ)}

theorem Truthful.append (h : Truthful history)
    (hes : ∀ addr clientId reply, .sendClient addr clientId reply ∈ es → HasResult (history ++ es) clientId reply.seq reply.result) :
    Truthful (history ++ es) := by
  intro addr clientId reply hmem
  rcases List.mem_append.mp hmem with hmem | hmem
  · exact (h addr clientId reply hmem).append es
  · exact hes addr clientId reply hmem

namespace Answers

/-- Nothing is sent to a client, and `replies` stays. -/
theorem quiet (h : Answers self history) (hreplies : r.replies = self.replies)
    (hes : ∀ addr clientId reply, .sendClient addr clientId reply ∉ es) : Answers r (history ++ es) where
  sent := h.sent.append fun addr clientId reply hmem => absurd hmem (hes addr clientId reply)
  replies clientId seq reply hmem := by
    rw [hreplies] at hmem
    obtain ⟨hseq, hresult⟩ := h.replies clientId seq reply hmem
    exact ⟨hseq, hresult.append es⟩

theorem same (h : Answers self history) (hreplies : r.replies = self.replies) : Answers r (history ++ []) :=
  h.quiet hreplies (by simp)

theorem enqueue (h : Answers self history) (request : Request A) : Answers (self.enqueue request) history where
  sent := h.sent
  replies clientId seq reply hmem := by
    simp only [Replica.enqueue, Function.update_apply] at hmem
    split at hmem
    · cases hmem
    · exact h.replies clientId seq reply hmem

theorem closeBatch (h : Answers self history) :
    self.closeBatch.Sat (fun r es => Answers r (history ++ es)) fun es => Truthful (history ++ es) :=
  Replica.closeBatch_sat (fun _ _ _ => h.quiet rfl (by simp)) (h.same rfl).sent

theorem onRecv (h : Answers self history) (message : ToReplica A σ) :
    (self.onRecv message).Sat (fun r es => Answers r (history ++ es)) fun es => Truthful (history ++ es) := by
  cases message with
  | request request =>
    refine Replica.onRecvRequest_sat (h.same rfl) (fun reply hreply => ?_)
      (fun _ _ => ⟨(h.enqueue request).same rfl, (h.enqueue request).closeBatch⟩) (h.same rfl).sent
    obtain ⟨hseq, hresult⟩ := h.replies _ _ _ hreply
    refine ⟨h.sent.append fun addr clientId reply' hmem => ?_, fun clientId seq reply' hmem => ?_⟩
    · simp only [List.mem_singleton, Effect.sendClient.injEq] at hmem
      obtain ⟨-, rfl, rfl⟩ := hmem
      exact (hseq ▸ hresult).append _
    · obtain ⟨hseq', hresult'⟩ := h.replies clientId seq reply' hmem
      exact ⟨hseq', hresult'.append _⟩
  | prePrepare prePrepare requests =>
    exact Replica.onRecvPrePrepare_sat (h.same rfl) (fun _ _ => h.quiet rfl (by simp)) (h.same rfl).sent
  | vote phase vote =>
    exact Replica.onRecvVote_sat (fun _ _ => h.same (by simp)) (h.same rfl) (fun _ _ _ => h.quiet (by simp) (by simp))
      (h.same rfl).sent

theorem drainPending (h : Answers self history) {phase : Phase} (k : UInt32) (votes : List (Verifiable (Vote phase) σ)) :
    (Replica.drainPending phase k votes self).Sat (fun r es => Answers r (history ++ es)) fun es => Truthful (history ++ es) :=
  Replica.drainPending_sat votes (h.same (by simp)) (fun _ _ _ _ _ _ => h.quiet (by simp) (by simp)) (h.same rfl).sent

section
variable [App S]

theorem executeRequests (h : Answers self history) (k : Nat) (requests : List (Request A)) :
    (Replica.executeRequests k requests self).Sat (fun r es => Answers r (history ++ es)) fun es => Truthful (history ++ es) := by
  refine Replica.executeRequests_sat (I := fun _ r es => Answers r (history ++ es))
    (R := fun es => Truthful (history ++ es)) (fun request rest r es hr _ => ?_) (fun request rest r es app result hr _ => ?_)
    requests [] (h.same rfl)
  · rw [← List.append_assoc]
    exact hr.sent.append (by simp)
  · have hresult : HasResult (history ++ (es ++ [.execute k request (some result),
        .sendClient request.clientAddr request.clientId ⟨request.seq, result, r.viewNum, r.id⟩])) request.clientId
        request.seq result := by
      refine mem_callsFor.mpr ⟨request, ?_, rfl⟩
      simp
    rw [← List.append_assoc] at hresult ⊢
    refine ⟨hr.sent.append fun addr clientId reply hmem => ?_, fun clientId seq reply hmem => ?_⟩
    · simp only [List.mem_cons, reduceCtorEq, Effect.sendClient.injEq, List.not_mem_nil, or_false, false_or] at hmem
      obtain ⟨-, rfl, rfl⟩ := hmem
      exact hresult
    · rcases Once.replies_executed (r := r) request clientId with hsame | ⟨rfl, hnew, -⟩
      · rw [hsame] at hmem
        obtain ⟨hseq, hold⟩ := hr.replies clientId seq reply hmem
        exact ⟨hseq, hold.append _⟩
      · rw [hnew] at hmem
        cases hmem
        exact ⟨rfl, hresult⟩

theorem advance (h : Answers self history) :
    self.advance.Sat (fun r es => Answers r (history ++ es)) fun es => Truthful (history ++ es) := by
  refine Replica.advance_sat (I := fun r es => Answers r (history ++ es)) (R := fun es => Truthful (history ++ es))
    (fun _ _ hr => hr.sent) (fun entry r es hr _ _ _ => ?_) (fun r es hr => ?_) [] (h.same rfl)
  · have hnext : Answers { r with commitNum := r.commitNum + 1 } (history ++ es) := ⟨hr.sent, hr.replies⟩
    exact (hnext.executeRequests _ _).mono (fun _ _ h' => by rwa [← List.append_assoc]) fun _ h' => by rwa [← List.append_assoc]
  · exact hr.closeBatch.mono (fun _ _ h' => by rwa [← List.append_assoc]) fun _ h' => by rwa [← List.append_assoc]

theorem insertVote (h : Answers self history) (phase : Phase) (vote : Verifiable (Vote phase) σ) :
    (self.insertVote phase vote).Sat (fun r es => Answers r (history ++ es)) fun es => Truthful (history ++ es) := by
  have hnil := (h.same rfl).sent
  cases phase with
  | prepare =>
    exact Replica.insertPrepare_sat (h.same (by simp [Replica.record]))
      (fun _ _ _ => h.quiet (by simp [Replica.record, Replica.closeQuorum]) (by simp)) hnil
  | commit =>
    refine Replica.insertCommit_sat (h.same (by simp [Replica.record])) (fun _ _ _ _ => ?_) hnil
    have hclose := h.same (r := (self.record .commit vote).closeQuorum .commit vote.inner.opNum
      (self.quorumWith .commit vote)) (by simp [Replica.record, Replica.closeQuorum])
    rw [List.append_nil] at hclose
    exact hclose.advance

theorem onEvent (h : Answers self history) (event : Event A σ) :
    (self.onEvent event).Sat (fun r es => Answers r (history ++ es)) fun es => Truthful (history ++ es) := by
  have hnil := (h.same rfl).sent
  cases event with
  | signedPrePrepare p requests =>
    exact Replica.onSignedPrePrepare_sat (fun _ => h.same rfl) (fun _ _ => h.quiet (by simp [Replica.fill]) (by simp))
      fun _ _ => hnil
  | verifiedPrePrepare p requests =>
    exact Replica.onVerifiedPrePrepare_sat (h.same rfl) (h.same (by simp))
      fun _ _ => h.quiet (by simp [Replica.fill, Replica.retainDigest]) (by simp)
  | signedVote phase vote =>
    have hsend : Answers self (history ++ [.sendAll (.vote phase vote)]) := h.quiet rfl (by simp)
    refine Replica.onSignedVote_sat (fun _ => h.same rfl) hsend (fun _ _ => ?_) hsend.sent
    exact (hsend.insertVote phase vote).mono (fun _ _ h' => by simpa using h') fun _ h' => by simpa using h'
  | verifiedVote phase vote =>
    refine Replica.onVerifiedVote_sat (fun _ => h.same rfl) fun _ => ?_
    refine (h.insertVote phase vote).mono (fun r es hr => ⟨fun _ => hr, fun votes _ => ?_⟩) fun _ h' => h'
    exact (hr.drainPending _ votes).mono (fun _ _ h' => by rwa [← List.append_assoc]) fun _ h' => by rwa [← List.append_assoc]

end

end Answers

end

/-- What a replica has sent, whether it is running or not. -/
structure Node.Answers (node : Node S A σ) : Prop where
  sent : Truthful node.history
  replica : node.stopped = none → Pbft.Answers node.replica node.history

theorem Node.Answers.apply (node : Node S A σ) {out : Handler A σ (Replica S A σ)}
    (hout : out.Sat (fun r es => Pbft.Answers r (node.history ++ es)) fun es => Truthful (node.history ++ es)) :
    (node.apply out).Answers :=
  Node.apply_sat (J := Node.Answers) (hout.mono (fun _ _ hr => ⟨hr.sent, fun _ => hr⟩)
    fun _ hes _ => ⟨hes, fun hrunning => by cases hrunning⟩)

theorem mem_calls {request : Request A} {result : Option Payload} {es : List (Effect A σ)} :
    (request, result) ∈ calls es ↔ ∃ k, ((k, request), result) ∈ outcomes es := by
  simp only [calls, outcomes, List.mem_filterMap]
  constructor
  · rintro ⟨e, he, hcall⟩
    unfold Effect.call at hcall
    split at hcall
    · cases hcall
      exact ⟨_, _, he, rfl⟩
    · cases hcall
  · rintro ⟨k, e, he, houtcome⟩
    unfold Effect.outcome at houtcome
    split at houtcome
    · cases houtcome
      exact ⟨_, he, rfl⟩
    · cases houtcome

theorem step_history [App S] [DigestHash A] (crypto : Crypto σ) (node : Node S A σ) (input : Input A σ) :
    ∃ es, (node.step crypto input).history = node.history ++ es := by
  have happly (node' : Node S A σ) (hnode : node'.history = node.history) (out : Handler A σ (Replica S A σ)) :
      ∃ es, (node'.apply out).history = node.history ++ es := by
    cases out with
    | ok r es => exact ⟨es, congrArg (· ++ es) hnode⟩
    | fail reason es => exact ⟨es, congrArg (· ++ es) hnode⟩
  refine Node.step_sat (J := fun node' => ∃ es, node'.history = node.history ++ es) (fun message _ => happly node rfl _)
    (fun _ => ⟨[], (List.append_nil _).symm⟩) fun n job _ _ => ?_
  unfold Node.finish
  split
  · exact ⟨[], (List.append_nil _).symm⟩
  · exact happly { node with jobs := node.jobs.eraseIdx n, signed := node.signed ++ (job.signs crypto.scheme).toList } rfl _

/-! ## What a client takes -/

section
variable {cfg : Config S σ}

/-- `i` has sent the client this reply. -/
def SentTo (sys : System A cfg) (i : cfg.Correct) (clientId : UInt32) (reply : Reply) : Prop :=
  ∃ addr, .sendClient addr clientId reply ∈ (sys i).history

/-- The votes match their slots, and a reply of a replica that is not Byzantine
comes to the client it was sent to. -/
def Delivers (s : Service A cfg) : Move A cfg → Prop
  | .replica i input => Matching s.sys (i, input)
  | .client (.recv reply) => reply.replicaId ∈ cfg.faulty ∨
      ∃ i : cfg.Correct, i.1 = reply.replicaId ∧ SentTo s.sys i s.log.client.id reply
  | .client (.invoke ..) | .client .resend => True

def Client.Entry.op : Client.Entry A → Option Payload
  | .event (.invoke op _) => some op
  | _ => none

/-- The operations that the client was asked for, in order. -/
def invoked (history : List (Client.Entry A)) : List Payload := history.filterMap Client.Entry.op

@[simp] theorem invoked_append (l l' : List (Client.Entry A)) : invoked (l ++ l') = invoked l ++ invoked l' :=
  List.filterMap_append ..

theorem invoked_calls (es : List (Client.Effect A)) : invoked (es.map Client.Entry.call) = [] := by
  simp [invoked, Client.Entry.op, List.filterMap_map, Function.comp_def]

theorem invoked_after (log : ClientLog A) (event : Client.Event) (client : Client A) (es : List (Client.Effect A)) :
    invoked (log.after event client es).history = invoked log.history ++ (Client.Entry.op (.event event : Client.Entry A)).toList := by
  show invoked (log.history ++ (.event event :: es.map .call)) = _
  rw [invoked_append]
  congr 1
  show List.filterMap _ (_ :: _) = _
  rw [List.filterMap_cons]
  have hcalls : List.filterMap Client.Entry.op (es.map (Client.Entry.call (A := A))) = [] := invoked_calls es
  cases hop : Client.Entry.op (.event event : Client.Entry A) <;> simp [hcalls]

/-- A reply in the tally is of the request and of the replica, and an answer is
in a reply of a replica that is not Byzantine. -/
structure Sourced (s : Service A cfg) : Prop where
  numFaulty : s.log.client.numFaulty = cfg.numFaulty
  seq : s.log.client.seq.toNat = (invoked s.log.history).length
  replies : ∀ invoke, s.log.client.invoke = some invoke → ∀ id reply, invoke.replies.lookup id = some reply →
    reply.seq = s.log.client.seq ∧ (id ∈ cfg.faulty ∨ ∃ i : cfg.Correct, i.1 = id ∧ SentTo s.sys i s.log.client.id reply)
  answered : ∀ before rest id result, s.log.history = before ++ .call (.invokeOk id result) :: rest →
    ∃ i reply, SentTo s.sys i s.log.client.id reply ∧ reply.result = result ∧ reply.seq.toNat = (invoked before).length

namespace Sourced

section
variable {s : Service A cfg} {event : Client.Event} {client : Client A} {es : List (Client.Effect A)}

/-- A reply with the result of a full tally is of a replica that is not Byzantine. -/
theorem source (h : Sourced s) {reply : Reply} {invoke : ClientInvoke} (hdelivers : Delivers s (.client (.recv reply)))
    (hseq : reply.seq = s.log.client.seq) (hinvoke : s.log.client.invoke = some invoke)
    (hcount : matching (invoke.replies.insert reply.replicaId reply) reply.result = s.log.client.numFaulty + 1) :
    ∃ i reply', SentTo s.sys i s.log.client.id reply' ∧ reply'.result = reply.result ∧ reply'.seq = s.log.client.seq := by
  obtain ⟨ids, hcard, hids⟩ := le_matching_iff.mp hcount.ge
  have hlt : cfg.faulty.card < ids.card := by
    rw [hcard, h.numFaulty]
    exact Nat.lt_succ_of_le cfg.few
  obtain ⟨id, hid, hcorrect⟩ := Finset.exists_mem_notMem_of_card_lt_card hlt
  obtain ⟨reply', hlookup, hresult⟩ := hids id hid
  by_cases hlast : id = reply.replicaId
  · subst hlast
    rw [Table.lookup_insert_self] at hlookup
    obtain rfl := Option.some.inj hlookup
    obtain ⟨i, _, hsent⟩ := hdelivers.resolve_left hcorrect
    exact ⟨i, reply, hsent, hresult, hseq⟩
  · rw [Table.lookup_insert_ne hlast] at hlookup
    obtain ⟨hseq', hsource⟩ := h.replies invoke hinvoke id reply' hlookup
    obtain ⟨i, _, hsent⟩ := hsource.resolve_left hcorrect
    exact ⟨i, reply', hsent, hresult, hseq'⟩

/-- A turn without an answer. -/
theorem waits (h : Sourced s) (hid : client.id = s.log.client.id) (hf : client.numFaulty = s.log.client.numFaulty)
    (hseq : client.seq.toNat = (invoked (s.log.after event client es).history).length)
    (hreplies : ∀ invoke, client.invoke = some invoke → ∀ id reply, invoke.replies.lookup id = some reply →
      reply.seq = client.seq ∧ (id ∈ cfg.faulty ∨ ∃ i : cfg.Correct, i.1 = id ∧ SentTo s.sys i s.log.client.id reply))
    (hes : ∀ id result, .invokeOk id result ∉ es) : Sourced ⟨s.sys, s.log.after event client es⟩ where
  numFaulty := hf.trans h.numFaulty
  seq := hseq
  replies := by
    show ∀ invoke, client.invoke = some invoke → ∀ id reply, _ → _ ∧ (_ ∨ ∃ i : cfg.Correct, i.1 = id ∧ SentTo s.sys i client.id reply)
    rw [hid]
    exact hreplies
  answered before rest id result heq := by
    show ∃ i reply, SentTo s.sys i client.id reply ∧ _
    rw [hid]
    rcases split_append heq with ⟨rest', hsplit, _⟩ | ⟨before', _, hsplit⟩
    · exact h.answered before rest' id result hsplit
    · have hmem : Client.Entry.call (.invokeOk id result) ∈ (.event event :: es.map .call : List (Client.Entry A)) := by
        rw [hsplit]
        exact List.mem_append_right _ List.mem_cons_self
      exact absurd (by simpa using hmem) (hes id result)

/-- The turn that answers. -/
theorem answers (h : Sourced s) {reply : Reply} {timerId : TimerId} (hid : client.id = s.log.client.id)
    (hf : client.numFaulty = s.log.client.numFaulty) (hseq : client.seq = s.log.client.seq) (hnone : client.invoke = none)
    (hsource : ∃ i reply', SentTo s.sys i s.log.client.id reply' ∧ reply'.result = reply.result ∧ reply'.seq = s.log.client.seq) :
    Sourced ⟨s.sys, s.log.after (.recv reply) client [.unset timerId, .invokeOk client.id reply.result]⟩ where
  numFaulty := hf.trans h.numFaulty
  seq := by
    rw [invoked_after]
    show client.seq.toNat = (invoked s.log.history ++ []).length
    rw [hseq, List.append_nil, h.seq]
  replies _ hinvoke := by cases hnone.symm.trans hinvoke
  answered before rest id result heq := by
    show ∃ i reply, SentTo s.sys i client.id reply ∧ _
    rw [hid]
    rcases split_append heq with ⟨rest', hsplit, _⟩ | ⟨before', rfl, hsplit⟩
    · exact h.answered before rest' id result hsplit
    · -- the answer is the last of three entries
      rcases before' with _ | ⟨_, _ | ⟨_, _ | ⟨_, before'⟩⟩⟩
      · simp at hsplit
      · simp at hsplit
      · obtain ⟨rfl, rfl, ⟨-, rfl⟩, -⟩ : _ = _ ∧ _ = _ ∧ (_ ∧ _) ∧ _ := by simpa using hsplit
        obtain ⟨i, reply', hsent, hresult, hseq'⟩ := hsource
        refine ⟨i, reply', hsent, hresult, ?_⟩
        rw [hseq', h.seq, invoked_append]
        simp [invoked, Client.Entry.op]
      · simp at hsplit

theorem turn (h : Sourced s) (hdelivers : Delivers s (.client event)) (hturn : s.log.client.Turn event client es) :
    Sourced ⟨s.sys, s.log.after event client es⟩ := by
  have hkeep (hop : (Client.Entry.event event : Client.Entry A).op = none) :
      s.log.client.seq.toNat = (invoked (s.log.after event client es).history).length := by
    rw [invoked_after, hop]
    simpa using h.seq
  cases hturn with
  | invoke hnone hseq =>
    refine h.waits rfl rfl ?_ (fun invoke hinvoke id reply hlookup => ?_) (by simp)
    · rw [invoked_after, List.length_append, ← h.seq]
      show (s.log.client.seq + 1).toNat = s.log.client.seq.toNat + 1
      rw [UInt32.toNat_add]
      exact Nat.mod_eq_of_lt hseq
    · cases hinvoke
      cases hlookup
  | resend => exact h.waits rfl rfl (hkeep rfl) h.replies (by simp)
  | stale => exact h.waits rfl rfl (hkeep rfl) h.replies (by simp)
  | @counts reply invoke hseq hinvoke hcount =>
    refine h.waits rfl rfl (hkeep rfl) (fun invoke' hinvoke' id reply' hlookup => ?_) (by simp)
    cases hinvoke'
    dsimp only at hlookup ⊢
    by_cases hlast : id = reply.replicaId
    · subst hlast
      rw [Table.lookup_insert_self] at hlookup
      obtain rfl := Option.some.inj hlookup
      exact ⟨hseq, hdelivers⟩
    · rw [Table.lookup_insert_ne hlast] at hlookup
      exact h.replies invoke hinvoke id reply' hlookup
  | @answers reply invoke hseq hinvoke hcount =>
    have hsource := h.source hdelivers hseq hinvoke hcount
    exact h.answers rfl rfl rfl rfl hsource

end

end Sourced

/-- What the client sends is the operation that it was asked for last. -/
structure Asks (log : ClientLog A) : Prop where
  seq : log.client.seq.toNat = (invoked log.history).length
  sent : ∀ dest request, .call (.send dest request) ∈ log.history →
    ∃ m, request.seq.toNat = m + 1 ∧ (invoked log.history)[m]? = some request.op

theorem Asks.turn {log : ClientLog A} (h : Asks log) {event : Client.Event} {client : Client A} {es : List (Client.Effect A)}
    (hseq : client.seq.toNat = (invoked (log.after event client es).history).length) (hturn : log.client.Turn event client es) :
    Asks (log.after event client es) where
  seq := hseq
  sent dest request hmem := by
    rw [invoked_after]
    rcases List.mem_append.mp hmem with hold | hnew
    · obtain ⟨m, hm, hop⟩ := h.sent dest request hold
      exact ⟨m, hm, by rw [List.getElem?_append_left (List.getElem?_eq_some_iff.mp hop).1, hop]⟩
    · cases hturn with
      | @invoke op timerId hnone hlt =>
        simp only [List.map_cons, List.map_nil, List.mem_cons, reduceCtorEq, Client.Entry.call.injEq, Client.Effect.send.injEq,
          List.not_mem_nil, or_false, false_or] at hnew
        obtain ⟨-, rfl⟩ := hnew
        refine ⟨log.client.seq.toNat, ?_, ?_⟩
        · show (log.client.seq + 1).toNat = _
          rw [UInt32.toNat_add]
          exact Nat.mod_eq_of_lt hlt
        · rw [h.seq, List.getElem?_append_right (Nat.le_refl _), Nat.sub_self]
          rfl
      | _ => simp at hnew

section
variable [App S] [DigestHash A] {s : Service A cfg}

theorem SentTo.step {sys : System A cfg} {i : cfg.Correct} {clientId : UInt32} {reply : Reply} (h : SentTo sys i clientId reply)
    (j : cfg.Correct) (input : Input A σ) : SentTo (sys.step j input) i clientId reply := by
  obtain ⟨addr, hmem⟩ := h
  refine ⟨addr, ?_⟩
  by_cases hi : i = j
  · subst hi
    obtain ⟨es, hes⟩ := step_history (cfg.crypto i) (sys i) input
    rw [System.step_self, hes]
    exact List.mem_append_left _ hmem
  · rwa [System.step_of_ne hi]

end

end

end

/-! ## A client of four replicas -/

end Neatworks.Pbft
