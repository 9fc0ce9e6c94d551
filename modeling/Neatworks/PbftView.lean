import Neatworks.PbftClient
import Neatworks.PbftOnce

/-!
# The view that a client follows

The replicas that are not Byzantine stay in view `0` and say so in each reply.
A client takes the view of the reply that completes its quorum, and this one
may be of a Byzantine replica.
-/

namespace Neatworks.Pbft

open Outcome

/-! ## The view of a reply -/

section
variable {S A σ : Type}

/-- The replies among the calls are of this view. -/
def SaysView (viewNum : UInt32) (es : List (Effect A σ)) : Prop :=
  ∀ addr clientId reply, .sendClient addr clientId reply ∈ es → reply.viewNum = viewNum

/-- A replica in this view whose replies are of it. -/
structure Replica.InView (viewNum : UInt32) (r : Replica S A σ) : Prop where
  view : r.viewNum = viewNum
  replies : ∀ clientId seq reply, r.replies clientId = some (seq, some reply) → reply.viewNum = viewNum

section
variable {v : UInt32} {self r : Replica S A σ} {es es' : List (Effect A σ)}

theorem saysView_nil : SaysView v ([] : List (Effect A σ)) := fun _ _ _ hmem => nomatch hmem

theorem SaysView.append (h : SaysView v es) (h' : SaysView v es') : SaysView v (es ++ es') := by
  intro addr clientId reply hmem
  rcases List.mem_append.mp hmem with hmem | hmem
  · exact h addr clientId reply hmem
  · exact h' addr clientId reply hmem

theorem saysView_submit (job : Job A σ) : SaysView v [Effect.submit job] := by simp [SaysView]

theorem saysView_sendAll (message : ToReplica A σ) : SaysView v [Effect.sendAll message] := by simp [SaysView]

namespace Replica.InView

theorem congr (h : self.InView v) (hview : r.viewNum = self.viewNum) (hreplies : r.replies = self.replies) : r.InView v where
  view := by rw [hview, h.view]
  replies := by
    rw [hreplies]
    exact h.replies

theorem closeBatch (h : self.InView v) : self.closeBatch.Sat (fun r es => r.InView v ∧ SaysView v es) (SaysView v) :=
  Replica.closeBatch_sat (fun _ _ _ => ⟨h.congr rfl rfl, saysView_submit _⟩) saysView_nil

theorem enqueue (h : self.InView v) (request : Request A) : (self.enqueue request).InView v where
  view := h.view
  replies := by
    intro clientId seq reply hreplies
    simp only [Replica.enqueue, Function.update_apply] at hreplies
    split at hreplies
    · cases hreplies
    · exact h.replies clientId seq reply hreplies

theorem executed (h : self.InView v) (request : Request A) (app : S) {reply : Reply} (hreply : reply.viewNum = v) :
    (self.executed request app reply).InView v where
  view := h.view
  replies := by
    intro clientId seq reply' hreplies
    have hcases : (self.executed request app reply).replies clientId = self.replies clientId ∨ _ :=
      Once.replies_executed request clientId
    rcases hcases with hsame | ⟨_, hnew, _⟩
    · rw [hsame] at hreplies
      exact h.replies clientId seq reply' hreplies
    · rw [hnew] at hreplies
      cases hreplies
      exact hreply

theorem drainPending (h : self.InView v) {phase : Phase} (k : UInt32) (votes : List (Verifiable (Vote phase) σ)) :
    (Replica.drainPending phase k votes self).Sat (fun r es => r.InView v ∧ SaysView v es) (SaysView v) :=
  Replica.drainPending_sat votes ⟨h.congr (by simp) (by simp), saysView_nil⟩
    (fun _ _ _ _ _ _ => ⟨h.congr (by simp) (by simp), saysView_submit _⟩) saysView_nil

section
variable [App S]

theorem executeRequests (h : self.InView v) (k : Nat) (requests : List (Request A)) :
    (Replica.executeRequests k requests self).Sat (fun r es => r.InView v ∧ SaysView v es) (SaysView v) := by
  refine Replica.executeRequests_sat (I := fun _ r es => r.InView v ∧ SaysView v es) ?_ ?_ requests [] ⟨h, saysView_nil⟩
  · rintro request rest r es ⟨_, hes⟩ _
    exact hes.append (by simp [SaysView])
  · rintro request rest r es app result ⟨hr, hes⟩ _
    refine ⟨hr.executed request app hr.view, hes.append fun _ _ reply hmem => ?_⟩
    simp only [List.mem_cons, reduceCtorEq, Effect.sendClient.injEq, List.not_mem_nil, or_false, false_or] at hmem
    obtain ⟨-, -, rfl⟩ := hmem
    exact hr.view

theorem advance (h : self.InView v) : self.advance.Sat (fun r es => r.InView v ∧ SaysView v es) (SaysView v) := by
  refine Replica.advance_sat (I := fun r es => r.InView v ∧ SaysView v es) (fun _ _ hr => hr.2) ?_ ?_ [] ⟨h, saysView_nil⟩
  · rintro entry r es ⟨hr, hes⟩ _ _ _
    have hnext : Replica.InView v { r with commitNum := r.commitNum + 1 } := hr.congr rfl rfl
    exact (hnext.executeRequests _ _).mono (fun _ _ h' => ⟨h'.1, hes.append h'.2⟩) fun _ h' => hes.append h'
  · rintro r es ⟨hr, hes⟩
    exact hr.closeBatch.mono (fun _ _ h' => ⟨h'.1, hes.append h'.2⟩) fun _ h' => hes.append h'

theorem insertVote (h : self.InView v) (phase : Phase) (vote : Verifiable (Vote phase) σ) :
    (self.insertVote phase vote).Sat (fun r es => r.InView v ∧ SaysView v es) (SaysView v) := by
  have hrecord : (self.record phase vote).InView v := h.congr (by simp [Replica.record]) (by simp [Replica.record])
  cases phase with
  | prepare =>
    refine Replica.insertPrepare_sat ⟨hrecord, saysView_nil⟩ (fun _ _ _ => ⟨?_, saysView_submit _⟩) saysView_nil
    exact hrecord.congr (by simp [Replica.closeQuorum, Replica.modifyEntry]) (by simp [Replica.closeQuorum, Replica.modifyEntry])
  | commit =>
    refine Replica.insertCommit_sat ⟨hrecord, saysView_nil⟩ (fun _ _ _ _ => Replica.InView.advance ?_) saysView_nil
    exact hrecord.congr (by simp [Replica.closeQuorum, Replica.modifyEntry]) (by simp [Replica.closeQuorum, Replica.modifyEntry])

theorem onEvent (h : self.InView v) (event : Event A σ) :
    (self.onEvent event).Sat (fun r es => r.InView v ∧ SaysView v es) (SaysView v) := by
  cases event with
  | signedPrePrepare prePrepare requests =>
    refine Replica.onSignedPrePrepare_sat (fun _ => ⟨h, saysView_nil⟩) (fun _ _ => ⟨?_, saysView_sendAll _⟩) fun _ _ => saysView_nil
    exact h.congr (by simp [Replica.fill, Replica.modifyEntry]) (by simp [Replica.fill, Replica.modifyEntry])
  | verifiedPrePrepare prePrepare requests =>
    refine Replica.onVerifiedPrePrepare_sat ⟨h, saysView_nil⟩ ⟨h.congr (by simp) (by simp), saysView_nil⟩
      fun _ _ => ⟨?_, saysView_submit _⟩
    exact h.congr (by simp [Replica.fill, Replica.modifyEntry, Replica.retainDigest])
      (by simp [Replica.fill, Replica.modifyEntry, Replica.retainDigest])
  | signedVote phase vote =>
    have hsend := saysView_sendAll (v := v) (.vote phase vote : ToReplica A σ)
    refine Replica.onSignedVote_sat (fun _ => ⟨h, saysView_nil⟩) ⟨h, hsend⟩ (fun _ _ => ?_) hsend
    exact (h.insertVote phase vote).mono (fun _ _ hr => ⟨hr.1, hsend.append hr.2⟩) fun _ hr => hsend.append hr
  | verifiedVote phase vote =>
    refine Replica.onVerifiedVote_sat (fun _ => ⟨h, saysView_nil⟩) fun _ => ?_
    refine (h.insertVote phase vote).mono (fun r es hr => ⟨fun _ => hr, fun votes _ => ?_⟩) fun _ hr => hr
    exact (hr.1.drainPending _ votes).mono (fun _ _ hr' => ⟨hr'.1, hr.2.append hr'.2⟩) fun _ hr' => hr.2.append hr'

end

theorem onRecv (h : self.InView v) (message : ToReplica A σ) :
    (self.onRecv message).Sat (fun r es => r.InView v ∧ SaysView v es) (SaysView v) := by
  cases message with
  | request request =>
    refine Replica.onRecvRequest_sat ⟨h, saysView_nil⟩ (fun reply hreply => ⟨h, ?_⟩) (fun _ _ => ⟨⟨h.enqueue request, saysView_nil⟩,
      (h.enqueue request).closeBatch⟩) saysView_nil
    intro _ _ reply' hmem
    simp only [List.mem_singleton, Effect.sendClient.injEq] at hmem
    obtain ⟨-, -, rfl⟩ := hmem
    exact h.replies _ _ _ hreply
  | prePrepare prePrepare requests =>
    exact Replica.onRecvPrePrepare_sat ⟨h, saysView_nil⟩ (fun _ _ => ⟨h, saysView_submit _⟩) saysView_nil
  | vote phase vote =>
    exact Replica.onRecvVote_sat (fun _ _ => ⟨h.congr (by simp) (by simp), saysView_nil⟩) ⟨h, saysView_nil⟩
      (fun _ _ _ => ⟨h.congr (by simp) (by simp), saysView_submit _⟩) saysView_nil

end Replica.InView

end

/-- A replica of this view and what it has sent. -/
structure Node.InView (viewNum : UInt32) (node : Node S A σ) : Prop where
  replica : node.replica.InView viewNum
  sent : SaysView viewNum node.history

namespace Node.InView

variable {v : UInt32} {node : Node S A σ}

theorem apply (h : node.InView v) {out : Handler A σ (Replica S A σ)}
    (hout : out.Sat (fun r es => r.InView v ∧ SaysView v es) (SaysView v)) : (node.apply out).InView v :=
  Node.apply_sat (hout.mono (fun _ _ hr => ⟨hr.1, h.sent.append hr.2⟩) fun _ hes _ => ⟨h.replica, h.sent.append hes⟩)

theorem step [App S] [DigestHash A] {crypto : Crypto σ} {input : Input A σ} (h : node.InView v) :
    (node.step crypto input).InView v := by
  refine Node.step_sat (fun message _ => h.apply (h.replica.onRecv message)) (fun _ => h) fun n job _ _ => ?_
  unfold Node.finish
  split
  · exact ⟨h.replica, h.sent⟩
  · next event _ =>
    have hsigned : InView v { node with jobs := node.jobs.eraseIdx n, signed := node.signed ++ (job.signs crypto.scheme).toList } :=
      ⟨h.replica, h.sent⟩
    exact hsigned.apply (h.replica.onEvent event)

end Node.InView

theorem inView_reach [App S] [DigestHash A] {cfg : Config S σ} {C : System A cfg → cfg.Correct × Input A σ → Prop}
    {sys : System A cfg} (h : (systemMachine A cfg).Reach C sys) (i : cfg.Correct) : (sys i).InView 0 := by
  refine h.invariant (I := fun sys => ∀ i, (sys i).InView 0) ?_ ?_ i
  · rintro _ rfl i
    exact ⟨⟨rfl, fun _ _ _ hreplies => nomatch hreplies⟩, saysView_nil⟩
  · rintro sys ⟨i, input⟩ _ - ih - ⟨-, rfl⟩ j
    by_cases hj : j = i
    · subst hj
      rw [System.step_self]
      exact (ih j).step
    · rw [System.step_of_ne hj]
      exact ih j

end

/-! ## What a client follows -/

section
variable {A : Type}

/-- The reply is the one that the client waits for. -/
def Client.Completes (self : Client A) (reply : Reply) : Prop :=
  reply.seq = self.seq ∧ ∃ invoke, self.invoke = some invoke ∧
    matching (invoke.replies.insert reply.replicaId reply) reply.result = self.numFaulty + 1

theorem Client.Completes.onEvent {self : Client A} {reply : Reply} (h : self.Completes reply) :
    ∃ es, self.onEvent (.recv reply) = .ok { self with viewNum := reply.viewNum, invoke := none } es := by
  obtain ⟨hseq, invoke, hinvoke, hcount⟩ := h
  refine ⟨[.unset invoke.resendTimer, .invokeOk self.id reply.result], ?_⟩
  show self.onRecv reply = _
  simp only [Client.onRecv, hseq, hinvoke, hcount, ne_eq, not_true_eq_false, if_false, if_true]
  rfl

/-- What the client knows and what it has sent. -/
structure Follows (log : ClientLog A) (numReplica : Nat) : Prop where
  view : log.client.viewNum = 0
  numReplica : log.client.numReplica = numReplica
  sent : ∀ dest request, .call (.send dest request) ∈ log.history → dest = 0

theorem Follows.after {log : ClientLog A} {n : Nat} (h : Follows log n) {event : Client.Event} {client : Client A}
    {es : List (Client.Effect A)} (hturn : log.client.Turn event client es)
    (hview : ∀ reply, event = .recv reply → log.client.Completes reply → reply.viewNum = 0) :
    Follows (log.after event client es) n where
  view := by
    cases hturn with
    | answers hseq hinvoke hcount => exact hview _ rfl ⟨hseq, _, hinvoke, hcount⟩
    | _ => exact h.view
  numReplica := by
    cases hturn with
    | _ => exact h.numReplica
  sent := by
    intro dest request hmem
    rcases List.mem_append.mp hmem with hold | hnew
    · exact h.sent dest request hold
    · cases hturn with
      | invoke hnone hseq =>
        simp only [List.map_cons, List.map_nil, List.mem_cons, reduceCtorEq, Client.Entry.call.injEq, Client.Effect.send.injEq,
          List.not_mem_nil, or_false, false_or] at hnew
        rw [hnew.1, h.view]
        simp
      | _ => simp at hnew

end

/-! ## A client of the system -/

section
variable {S σ : Type}

structure Service (A : Type) (cfg : Config S σ) where
  sys : System A cfg
  log : ClientLog A

inductive Move (A : Type) (cfg : Config S σ)
  | replica (i : cfg.Correct) (input : Input A σ)
  | client (event : Client.Event)

section
variable {A : Type} {cfg : Config S σ}

/-- `i` has sent this reply to a client. -/
def Replied (sys : System A cfg) (i : cfg.Correct) (reply : Reply) : Prop :=
  ∃ addr clientId, .sendClient addr clientId reply ∈ (sys i).history

/-- A replica that is not Byzantine has sent a reply of this view. -/
def Reported (sys : System A cfg) (viewNum : UInt32) : Prop := ∃ i reply, Replied sys i reply ∧ reply.viewNum = viewNum

/-- A reply that comes to the client is one of the replica that it names. -/
def Genuine (sys : System A cfg) : Client.Event → Prop
  | .recv reply => reply.replicaId ∈ cfg.faulty ∨ ∃ i : cfg.Correct, i.1 = reply.replicaId ∧ Replied sys i reply
  | .invoke .. | .resend => True

/-- The reply that completes a quorum is of view `0`, or of one that a replica
that is not Byzantine has reported. -/
def TrueView (s : Service A cfg) : Move A cfg → Prop
  | .client (.recv reply) => s.log.client.Completes reply → reply.viewNum = 0 ∨ Reported s.sys reply.viewNum
  | .client (.invoke ..) | .client .resend | .replica .. => True

variable [App S] [DigestHash A]

/-- A client and the replicas, with the messages of the client and the requests
of the replicas in any order. -/
def serviceMachine (A : Type) [DigestHash A] (cfg : Config S σ) : Machine (Service A cfg) (Move A cfg) where
  init s := (systemMachine A cfg).init s.sys ∧
    ∃ id addr, s.log = { client := { id := id, addr := addr, numReplica := cfg.numReplica, numFaulty := cfg.numFaulty } }
  next s
    | .replica i input, s' => (systemMachine A cfg).next s.sys (i, input) s'.sys ∧ s'.log = s.log
    | .client event, s' => Genuine s.sys event ∧ (clientMachine A).next s.log event s'.log ∧ s'.sys = s.sys

variable {C : Service A cfg → Move A cfg → Prop} {s : Service A cfg}

/-- The replicas of a run with a client make a run of the system. -/
theorem sys_reach (h : (serviceMachine A cfg).Reach C s) : (systemMachine A cfg).Reach Machine.always s.sys := by
  refine h.invariant (I := fun s => (systemMachine A cfg).Reach Machine.always s.sys) ?_ ?_
  · rintro s ⟨hsys, _⟩
    exact .init hsys
  · rintro s (⟨i, input⟩ | event) s' - ih - hs
    · exact ih.next trivial hs.1
    · rw [hs.2.2]
      exact ih

theorem follows_reach (h : (serviceMachine A cfg).Reach TrueView s) : Follows s.log cfg.numReplica := by
  refine h.invariant (I := fun s => Follows s.log cfg.numReplica) ?_ ?_
  · rintro s ⟨_, id, addr, hlog⟩
    rw [hlog]
    exact ⟨rfl, rfl, fun _ _ hmem => nomatch hmem⟩
  · rintro s (⟨i, input⟩ | event) s' hreach hfollows hview hs
    · rw [hs.2]
      exact hfollows
    · obtain ⟨_, ⟨client, es, hok, hlog⟩ | ⟨_, _, _, hlog⟩, _⟩ := hs
      · rw [hlog]
        refine hfollows.after (Client.onEvent_turn hok) fun reply hevent hcompletes => ?_
        subst hevent
        rcases hview hcompletes with hzero | ⟨i, reply', ⟨addr, clientId, hsent⟩, hview'⟩
        · exact hzero
        · rw [← hview']
          exact (inView_reach (sys_reach hreach) i).sent addr clientId reply' hsent
      · rw [hlog]
        exact hfollows

theorem service_event {sys : System A cfg} {log : ClientLog A} {client : Client A} {es : List (Client.Effect A)}
    (event : Client.Event) (h : (serviceMachine A cfg).Reach C ⟨sys, log⟩) (hC : C ⟨sys, log⟩ (.client event))
    (hgenuine : Genuine sys event) (hok : log.client.onEvent event = .ok client es) :
    (serviceMachine A cfg).Reach C ⟨sys, log.after event client es⟩ :=
  h.next (l := .client event) hC ⟨hgenuine, Or.inl ⟨client, es, hok, rfl⟩, rfl⟩

/-- A run of the replicas, after what the client has done before it. -/
theorem service_reach {log : ClientLog A}
    (hstart : (serviceMachine A cfg).Reach C ⟨fun i => Node.new i.1 cfg.app cfg.numReplica cfg.numFaulty, log⟩)
    (hC : ∀ s i input, C s (.replica i input)) {sys : System A cfg} (h : (systemMachine A cfg).Reach Machine.always sys) :
    (serviceMachine A cfg).Reach C ⟨sys, log⟩ := by
  induction h with
  | init h =>
    cases h
    exact hstart
  | @next sys sys' label h _ hs ih => exact ih.next (l := .replica label.1 label.2) (hC _ _ _) ⟨hs, rfl⟩

/-- A client that takes only views of replicas that are not Byzantine sends to
their primary; any other reply that completes its quorum misleads it. -/
theorem client_follows (h : (serviceMachine A cfg).Reach TrueView s) :
    (s.log.client.viewNum = 0 ∨ Reported s.sys s.log.client.viewNum) ∧
      (∀ dest request, .call (.send dest request) ∈ s.log.history → ∀ i : cfg.Correct,
        dest.toNat % cfg.numReplica = (s.sys i).replica.viewNum.toNat ∧
          ((s.sys i).replica.isPrimary = true ↔ i.1 = dest)) ∧
      ∀ move s', (serviceMachine A cfg).next s move s' → ¬TrueView s move →
        s'.log.client.viewNum ≠ 0 ∧ ¬Reported s'.sys s'.log.client.viewNum := by
  have hfollows := follows_reach h
  refine ⟨Or.inl hfollows.view, fun dest request hmem i => ?_, fun move s' hs hview => ?_⟩
  · obtain rfl := hfollows.sent dest request hmem
    have hreach := sys_reach h
    refine ⟨?_, ?_⟩
    · rw [(inView_reach hreach i).replica.view]
      exact Nat.zero_mod _
    · rw [isPrimary_iff hreach, ← UInt8.toNat_inj]
      rfl
  · rcases move with ⟨i, input⟩ | event
    · exact absurd trivial hview
    · cases event with
      | recv reply =>
        simp only [TrueView, Classical.not_imp, not_or] at hview
        obtain ⟨hcompletes, hne⟩ := hview
        obtain ⟨es', hanswer⟩ := hcompletes.onEvent
        obtain ⟨_, ⟨client, es, hok, hlog⟩ | ⟨_, _, hfail, _⟩, hsys⟩ := hs
        · rw [hanswer] at hok
          cases hok
          rw [hlog, hsys]
          exact hne
        · rw [hanswer] at hfail
          cases hfail
      | _ => exact absurd trivial hview

end

end

/-! ## Runs of four replicas -/

theorem toy_replies : ∃ sys : System UInt8 Config.toy, (systemMachine UInt8 Config.toy).Reach Machine.always sys ∧
    Replied sys ⟨1, by decide⟩ ⟨1, [], 0, 1⟩ := by
  let i : Config.toy.Correct := ⟨1, by decide⟩
  obtain ⟨sys, hreach, hsend⟩ := reach_of_exec Machine.always (batchRun [⟨7, 9, 1, []⟩])
    (fun sys => .sendClient 9 7 ⟨1, [], 0, 1⟩ ∈ (sys i).history) (by decide +kernel)
  exact ⟨sys, hreach, 9, 7, hsend⟩

/-- The reply of replica `0`, which is Byzantine, completes the quorum and names view `0`. -/
theorem client_follows_one : ∃ s : Service UInt8 Config.toy, (serviceMachine UInt8 Config.toy).Reach TrueView s ∧
    .call (.invokeOk 7 []) ∈ s.log.history ∧ .call (.send 0 ⟨7, 9, 1, []⟩) ∈ s.log.history ∧
      ∀ i : Config.toy.Correct, (s.sys i).replica.isPrimary = true ↔ i.1 = 0 := by
  obtain ⟨sys, hsys, hreplied⟩ := toy_replies
  have hstart : (serviceMachine UInt8 Config.toy).Reach TrueView ⟨_, _⟩ := .init ⟨rfl, 7, 9, rfl⟩
  have hinvoke := service_event (.invoke [] ⟨0⟩) hstart trivial trivial rfl
  have hfirst := service_event (.recv ⟨1, [], 0, 1⟩) (service_reach hinvoke (fun _ _ _ => trivial) hsys)
    (fun _ => Or.inl rfl) (Or.inr ⟨_, rfl, hreplied⟩) rfl
  have hanswer := service_event (.recv ⟨1, [], 0, 0⟩) hfirst (fun _ => Or.inl rfl) (Or.inl (by decide)) rfl
  refine ⟨_, hanswer, List.mem_of_getElem? (i := 6) rfl, List.mem_of_getElem? (i := 2) rfl, fun i => ?_⟩
  exact ((client_follows hanswer).2.1 0 ⟨7, 9, 1, []⟩ (List.mem_of_getElem? (i := 2) rfl) i).2

/-- The reply of replica `0` completes the quorum and names view `1`, and the
next request goes to replica `1`. -/
theorem client_misled : ∃ s : Service UInt8 Config.toy, (serviceMachine UInt8 Config.toy).Reach Machine.always s ∧
    s.log.client.viewNum = 1 ∧ ¬Reported s.sys 1 ∧
      ∃ (i : Config.toy.Correct) (request : Request UInt8), .call (.send i.1 request) ∈ s.log.history ∧
        (s.sys i).replica.isPrimary = false := by
  obtain ⟨sys, hsys, hreplied⟩ := toy_replies
  have hstart : (serviceMachine UInt8 Config.toy).Reach Machine.always ⟨_, _⟩ := .init ⟨rfl, 7, 9, rfl⟩
  have hinvoke := service_event (.invoke [] ⟨0⟩) hstart trivial trivial rfl
  have hfirst := service_event (.recv ⟨1, [], 0, 1⟩) (service_reach hinvoke (fun _ _ _ => trivial) hsys)
    trivial (Or.inr ⟨_, rfl, hreplied⟩) rfl
  have hanswer := service_event (.recv ⟨1, [], 1, 0⟩) hfirst trivial (Or.inl (by decide)) rfl
  have hagain := service_event (.invoke [] ⟨1⟩) hanswer trivial trivial rfl
  refine ⟨_, hagain, rfl, ?_, ⟨1, by decide⟩, ⟨7, 9, 2, []⟩, List.mem_of_getElem? (i := 9) rfl, ?_⟩
  · rintro ⟨i, reply, ⟨addr, clientId, hsent⟩, hview⟩
    have hzero := (inView_reach hsys i).sent addr clientId reply hsent
    rw [hview] at hzero
    exact absurd hzero (by decide)
  · exact Bool.eq_false_iff.mpr fun hprimary => absurd ((isPrimary_iff hsys _).mp hprimary) Nat.one_ne_zero

end Neatworks.Pbft
