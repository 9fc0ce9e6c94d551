import Neatworks.UnreplicatedFlush

/-!
# Quiescence

What `launch` and `step` leave in the buffers. `flush` drains the net of a
client before the client handles what its close loop has sent, so the request
of a new invocation stays in the net.
-/

namespace Neatworks.Unreplicated

open Outcome

section
variable {W : Type} [Workload W]

/-- Every buffer is empty, and every message that has been sent is offered. -/
structure Run.Quiet (run : Run W) : Prop where
  replica : run.state.replica.net = []
  clients : ∀ client ∈ run.state.clients,
    client.state.net = [] ∧ client.state.upcall = [] ∧ client.closeLoop.sender = []
  offered : ∀ message, .send message ∈ run.history → .message message ∈ run.state.events

/-- The workload has an operation after this result. -/
def CloseLoop.hasNext (closeLoop : CloseLoop W) (result : Payload) : Bool :=
  match closeLoop.workloadAttach with
  | none => false
  | some attach =>
    match Workload.onResult closeLoop.workload result attach with
    | .error _ => false
    | .ok workload =>
      match Workload.nextOp workload with
      | .ok (some _, _) => true
      | _ => false

/-- The event is a reply that a client waits for, and its workload goes on. -/
def State.Continues (self : State W) (event : Event) : Prop :=
  ∃ index client reply, event = .message ⟨.client index, .reply reply⟩ ∧ self.clients[index]? = some client ∧
    reply.seq = client.state.seq ∧ client.state.invoke ≠ none ∧
    CloseLoop.hasNext client.closeLoop reply.result = true

/-- The call makes a client invoke an operation. -/
def Call.Invokes (self : State W) : Call W → Prop
  | .pushClient _ => False
  | .launch => self.clients ≠ []
  | .step event => self.Continues event

/-! ## What holds after every call -/

structure Idle (s : State W) (history : List Observed) : Prop where
  replica : s.replica.net = []
  settled : ∀ client ∈ s.clients, client.Settled
  sent : ∀ message, .send message ∈ history → message ∈ s.messageEvents ∪ State.nets s.clients

theorem mem_events {self : State W} {message : MessageEvent} :
    .message message ∈ self.events ↔ message ∈ self.messageEvents := by
  unfold State.events
  simp

theorem mem_nets {clients : List (ClientState W)} {message : MessageEvent} :
    message ∈ State.nets clients ↔ ∃ client ∈ clients, message ∈ client.state.net := by
  simp [State.nets]

theorem nets_subset_set {clients : List (ClientState W)} {index : Nat} {client client' : ClientState W}
    (h : clients[index]? = some client) (hnet : client.state.net ⊆ client'.state.net) :
    State.nets clients ⊆ State.nets (clients.set index client') := by
  intro message hmem
  obtain ⟨c, hc, hm⟩ := mem_nets.mp hmem
  rcases eq_or_mem_set h hc with rfl | hc
  · exact mem_nets.mpr ⟨client', List.mem_set (List.getElem?_eq_some_iff.mp h).1 _, hnet hm⟩
  · exact mem_nets.mpr ⟨c, hc, hm⟩

namespace Idle

section
variable {self : State W} {history es : List Observed}

theorem quiet_iff_nets (h : Idle self history) :
    (Run.mk self history).Quiet ↔ ∀ client ∈ self.clients, client.state.net = [] := by
  constructor
  · exact fun hquiet client hmem => (hquiet.clients client hmem).1
  · refine fun hnets => ⟨h.replica, fun client hmem => ⟨hnets client hmem, (h.settled client hmem).upcall,
      (h.settled client hmem).sender⟩, fun message hsend => mem_events.mpr ?_⟩
    refine (Finset.mem_union.mp (h.sent message hsend)).resolve_right fun hmem => ?_
    obtain ⟨client, hclient, hnet⟩ := mem_nets.mp hmem
    rw [hnets client hclient] at hnet
    cases hnet

theorem flushed (hsettled : ∀ client ∈ self.clients, client.Settled)
    (hsent : ∀ message, .send message ∈ history →
      message ∈ self.messageEvents ∪ self.replica.net.toFinset ∪ State.nets self.clients) :
    Idle self.flushed history ∧ ∀ client ∈ self.flushed.clients, client.state.net = [] := by
  have hdrained : ∀ client ∈ self.flushed.clients, ∃ client' ∈ self.clients, client = client'.drained := by
    intro client hmem
    obtain ⟨client', hmem', rfl⟩ := List.mem_map.mp hmem
    exact ⟨client', hmem', rfl⟩
  refine ⟨⟨rfl, fun client hmem => ?_, fun message hsend => Finset.mem_union_left _ (hsent message hsend)⟩,
    fun client hmem => ?_⟩
  · obtain ⟨client', hmem', rfl⟩ := hdrained client hmem
    exact (hsettled client' hmem').drained
  · obtain ⟨client', -, rfl⟩ := hdrained client hmem
    rfl

theorem set (h : Idle self history) {index : Nat} {client : ClientState W} (hclient : self.clients[index]? = some client)
    (client' : ClientState W) (hsettled : client'.Settled) (es : List Observed)
    (hsent : ∀ message, .send message ∈ es → message ∈ client'.state.net) :
    Idle { self.flushed with clients := self.flushed.clients.set index client' } (history ++ es) ∧
      ((∀ client ∈ self.flushed.clients.set index client', client.state.net = []) ↔ client'.state.net = []) := by
  have hflushed := @flushed _ _ _ history h.settled fun message hsend => ?_
  · have hindex : index < self.flushed.clients.length := by
      rw [State.flushed, List.length_map]
      exact (List.getElem?_eq_some_iff.mp hclient).1
    refine ⟨⟨rfl, fun c hmem => ?_, fun message hsend => ?_⟩, fun hnets => hnets client' (List.mem_set hindex _),
      fun hnet c hmem => ?_⟩
    · rcases List.mem_or_eq_of_mem_set hmem with hmem | rfl
      · exact hflushed.1.settled c hmem
      · exact hsettled
    · rcases List.mem_append.mp hsend with hsend | hsend
      · have := hflushed.1.sent message hsend
        refine Finset.mem_union_left _ ((Finset.mem_union.mp this).resolve_right fun hmem => ?_)
        obtain ⟨c, hc, hnet⟩ := mem_nets.mp hmem
        rw [hflushed.2 c hc] at hnet
        cases hnet
      · exact Finset.mem_union_right _ (mem_nets.mpr ⟨client', List.mem_set hindex _, hsent message hsend⟩)
    · rcases List.mem_or_eq_of_mem_set hmem with hmem | rfl
      · exact hflushed.2 c hmem
      · exact hnet
  · rcases Finset.mem_union.mp (h.sent message hsend) with hmem | hmem
    · exact Finset.mem_union_left _ (Finset.mem_union_left _ hmem)
    · exact Finset.mem_union_right _ hmem

theorem of_flushed {s : State W} {C : Prop}
    (h : Idle s history ∧ ∀ client ∈ s.clients, client.state.net = []) (hC : ¬C) :
    Idle s history ∧ ((∀ client ∈ s.clients, client.state.net = []) ↔ ¬C) :=
  ⟨h.1, fun _ => hC, fun _ => h.2⟩

theorem mem_invokeCalls {client : ClientState W} {op : Payload} {message : MessageEvent}
    (h : .send message ∈ client.invokeCalls op) : message ∈ (client.afterInvoke op).state.net := by
  unfold ClientState.invokeCalls at h
  simp only [List.mem_cons, reduceCtorEq, Observed.send.injEq, List.not_mem_nil, or_false, false_or] at h
  rw [h]
  exact List.mem_append_right _ (List.mem_singleton_self _)

theorem launches {clients : List (ClientState W)} {outs : List (ClientState W × List Observed)}
    (h : List.Forall₂ State.Launches clients outs) (hsettled : ∀ client ∈ clients, client.Settled) :
    ∀ out ∈ outs, out.1.Settled ∧ out.1.state.net ≠ [] ∧
      ∀ message, .send message ∈ out.2 → message ∈ out.1.state.net := by
  induction h with
  | nil => exact fun _ hmem => absurd hmem List.not_mem_nil
  | cons hlaunch _ ih =>
    intro out hmem
    rcases List.mem_cons.mp hmem with rfl | hmem
    · obtain ⟨op, attach, workload, -, -, -, -, rfl⟩ := hlaunch
      refine ⟨⟨rfl, (hsettled _ List.mem_cons_self).upcall⟩, ?_, fun message hsend => mem_invokeCalls hsend⟩
      exact List.append_ne_nil_of_right_ne_nil _ (List.cons_ne_nil _ _)
    · exact ih (fun client hclient => hsettled client (List.mem_cons_of_mem _ hclient)) out hmem

theorem launch (h : Idle self history) {s : State W} (hlaunch : self.launch = .ok s es) :
    Idle s (history ++ es) ∧ ((∀ client ∈ s.clients, client.state.net = []) ↔ self.clients = []) := by
  obtain ⟨outs, hall, rfl, rfl⟩ := State.launch_eq_ok h.settled hlaunch
  have houts := launches hall h.settled
  refine ⟨⟨rfl, fun client hmem => ?_, fun message hsend => ?_⟩, fun hnets => ?_, fun hclients => ?_⟩
  · obtain ⟨out, hout, rfl⟩ := List.mem_map.mp hmem
    exact (houts out hout).1
  · rcases List.mem_append.mp hsend with hsend | hsend
    · rcases Finset.mem_union.mp (h.sent message hsend) with hmem | hmem
      · exact Finset.mem_union_left _ (Finset.mem_union_left _ (Finset.mem_union_left _ hmem))
      · exact Finset.mem_union_left _ (Finset.mem_union_right _ hmem)
    · obtain ⟨out, hout, hsend⟩ := List.mem_flatMap.mp hsend
      exact Finset.mem_union_right _ (mem_nets.mpr
        ⟨out.1, List.mem_map_of_mem hout, (houts out hout).2.2 message hsend⟩)
  · have hempty : outs = [] := List.eq_nil_iff_forall_not_mem.mpr fun out hout =>
      (houts out hout).2.1 (hnets out.1 (List.mem_map_of_mem hout))
    rw [hempty] at hall
    exact List.forall₂_nil_right_iff.mp hall
  · intro client hmem
    rw [hclients] at hall
    cases hall
    cases hmem

theorem pushClient (h : Idle self history) {workload : W} {s : State W} (hpush : self.pushClient workload = .ok s es) :
    Idle s (history ++ es) := by
  obtain ⟨id, es₁, _, hid, hs, rfl⟩ := bind_eq_ok.mp hpush
  cases hs
  obtain ⟨-, hes, -⟩ := addU32_eq_ok hid
  subst hes
  refine ⟨h.replica, fun client hmem => ?_, fun message hsend => ?_⟩
  · rcases List.mem_append.mp hmem with hmem | hmem
    · exact h.settled client hmem
    · cases List.mem_singleton.mp hmem
      exact ⟨rfl, rfl⟩
  · rw [List.append_nil, List.append_nil] at hsend
    refine Finset.union_subset_union_right (fun m hm => ?_) (h.sent message hsend)
    obtain ⟨client, hclient, hnet⟩ := mem_nets.mp hm
    exact mem_nets.mpr ⟨client, List.mem_append_left _ hclient, hnet⟩

variable [SerdeJson]

theorem replica_sends (replica : Replica KVStore) (request : Request Addr) :
    (replica.onRecv request).Sat (fun replica es => ∀ message, .send message ∈ es → message ∈ replica.net)
      fun _ => True := by
  have hsend : ∀ (replica : Replica KVStore) (addr : Addr) (reply : Reply),
      (replica.send addr reply).Sat (fun replica es => ∀ message, .send message ∈ es → message ∈ replica.net)
        fun _ => True := by
    intro replica addr reply
    unfold Replica.send
    simp
  have hexecute : (replica.execute request).Sat
      (fun replica es => ∀ message, .send message ∈ es → message ∈ replica.net) fun _ => True := by
    unfold Replica.execute
    split
    · trivial
    · rw [sat_bind, sat_emit]
      exact (hsend _ _ _).mono (fun _ _ h => by simpa using h) fun _ _ => trivial
  unfold Replica.onRecv
  split
  · exact hexecute
  · rw [sat_ite, sat_ite]
    exact ⟨fun _ => by simp, fun _ => ⟨fun _ => hsend _ _ _, fun _ => hexecute⟩⟩

theorem step (h : Idle self history) (event : Event) :
    (self.step event).Sat (fun s es => Idle s (history ++ es) ∧
      ((∀ client ∈ s.clients, client.state.net = []) ↔ ¬ self.Continues event)) fun _ => True := by
  have hold : ∀ message, .send message ∈ history → message ∈ self.messageEvents ∨ message ∈ State.nets self.clients :=
    fun message hsend => Finset.mem_union.mp (h.sent message hsend)
  refine State.step_sat h.settled (fun request hevent => ?_) (fun index client reply hevent hclient hidle => ?_)
    (fun index client timerId op event' hevent hclient _ _ => ?_)
    fun index client reply invoke event' hevent hclient hseq hinvoke _ => ?_
  · refine (replica_sends self.replica request).mono (fun replica es hes => ?_) fun _ _ => trivial
    refine of_flushed (flushed h.settled fun message hsend => ?_) ?_
    · simp only [Finset.mem_union, List.mem_toFinset]
      rcases List.mem_append.mp hsend with hsend | hsend
      · rcases hold message hsend with hmem | hmem
        · exact Or.inl (Or.inl hmem)
        · exact Or.inr hmem
      · exact Or.inl (Or.inr (hes message hsend))
    · intro ⟨_, _, _, hreply, _⟩
      rw [hevent] at hreply
      cases hreply
  · refine of_flushed (flushed h.settled fun message hsend => ?_) ?_
    · rw [List.append_nil] at hsend
      simp only [Finset.mem_union, List.mem_toFinset]
      rcases hold message hsend with hmem | hmem
      · exact Or.inl (Or.inl hmem)
      · exact Or.inr hmem
    · intro ⟨_, client', _, hreply, hclient', hseq, hinvoke, _⟩
      rw [hevent] at hreply
      cases hreply
      rw [hclient] at hclient'
      cases hclient'
      exact hidle.elim (fun hne => hne hseq) hinvoke
  · refine of_flushed (flushed (fun client' hmem => ?_) fun message hsend => ?_) ?_
    · rcases List.mem_or_eq_of_mem_set hmem with hmem | rfl
      · exact h.settled client' hmem
      · exact ⟨(h.settled client (List.mem_of_getElem? hclient)).sender,
          (h.settled client (List.mem_of_getElem? hclient)).upcall⟩
    · simp only [Finset.mem_union, List.mem_toFinset]
      rcases List.mem_append.mp hsend with hsend | hsend
      · rcases hold message hsend with hmem | hmem
        · exact Or.inl (Or.inl hmem)
        · exact Or.inr (nets_subset_set hclient (List.subset_append_left _ _) hmem)
      · cases List.mem_singleton.mp hsend
        refine Or.inr (mem_nets.mpr ⟨_, List.mem_set (List.getElem?_eq_some_iff.mp hclient).1 _, ?_⟩)
        exact List.mem_append_right _ (List.mem_singleton_self _)
    · intro ⟨_, _, _, hreply, _⟩
      rw [hevent] at hreply
      cases hreply
  · have hcontinues : self.Continues event ↔ CloseLoop.hasNext client.closeLoop reply.result = true := by
      refine ⟨fun ⟨_, client', _, hreply, hclient', _, _, hnext⟩ => ?_, fun hnext =>
        ⟨index, client, reply, hevent, hclient, hseq, by simp [hinvoke], hnext⟩⟩
      rw [hevent] at hreply
      cases hreply
      rw [hclient] at hclient'
      cases hclient'
      exact hnext
    have hsettled := h.settled client (List.mem_of_getElem? hclient)
    rw [hcontinues]
    refine ClientState.accepted_sat hsettled (fun attach w w' hattach hw hop => ?_)
      fun attach w op attach' w' hattach hw hop _ => ?_
    · have hnone : CloseLoop.hasNext client.closeLoop reply.result = false := by
        unfold CloseLoop.hasNext
        simp only [hattach, hw, hop]
      have hset := h.set hclient (client.finished (client.timer.without invoke.resendTimer) w')
        ⟨hsettled.sender, hsettled.upcall⟩ [.deliver client.state.id reply.result] (by simp)
      exact ⟨hset.1, hset.2.trans (by simp [hnone, ClientState.finished, ClientState.answered])⟩
    · have hsome : CloseLoop.hasNext client.closeLoop reply.result = true := by
        unfold CloseLoop.hasNext
        simp only [hattach, hw, hop]
      have hset := h.set hclient
        ((client.continued (client.timer.without invoke.resendTimer) w' attach').afterInvoke op)
        ⟨rfl, hsettled.upcall⟩ (.deliver client.state.id reply.result ::
          (client.continued (client.timer.without invoke.resendTimer) w' attach').invokeCalls op)
        fun message hmem => mem_invokeCalls ((List.mem_cons.mp hmem).resolve_left (by simp))
      exact ⟨hset.1, hset.2.trans (by simp [hsome, ClientState.afterInvoke])⟩

end

end Idle

section
variable [SerdeJson]

theorem idle_reach {run : Run W} (h : (apiMachine W).Reach Machine.always run) : Idle run.state run.history := by
  refine h.invariant (I := fun run => Idle run.state run.history) ?_ ?_
  · rintro _ rfl
    exact ⟨rfl, fun _ hmem => absurd hmem List.not_mem_nil, fun _ hmem => absurd hmem List.not_mem_nil⟩
  · intro run call run' _ hidle _ ⟨es, hcall, hhistory⟩
    rw [hhistory]
    cases call with
    | pushClient workload =>
      exact hidle.pushClient hcall
    | launch => exact (hidle.launch hcall).1
    | step event =>
      have := hidle.step event
      rw [show run.state.step event = .ok run'.state es from hcall] at this
      exact this.1

/-- A successful `launch` or `step` leaves every buffer empty and every message
offered exactly when it makes no client invoke an operation. -/
theorem quiet_iff {run run' : Run W} {call : Call W} (h : (apiMachine W).Reach Machine.always run)
    (hcall : call = .launch ∨ ∃ event, call = .step event) (hnext : (apiMachine W).next run call run') :
    run'.Quiet ↔ ¬ call.Invokes run.state := by
  have hidle := idle_reach (h.next trivial hnext)
  obtain ⟨es, hrun, hhistory⟩ := hnext
  rw [show run'.Quiet ↔ _ from hidle.quiet_iff_nets]
  rcases hcall with rfl | ⟨event, rfl⟩
  · rw [((idle_reach h).launch hrun).2]
    simp [Call.Invokes]
  · have := (idle_reach h).step event
    rw [show run.state.step event = .ok run'.state es from hrun] at this
    exact this.2

end

end

/-! ## One client -/

/-- A new state with one client, before the launch. -/
def oneClient : Run (Iter (List Payload)) where
  state := {
    clients := [{ state := { id := 1000, addr := .client 0 }, closeLoop := { workload := ⟨[KVStore.getOp]⟩ } }]
    replica := { app := KVStore.new } }

theorem oneClient_reach [SerdeJson] : (apiMachine (Iter (List Payload))).Reach Machine.always oneClient :=
  .next (.init rfl) trivial (l := .pushClient ⟨[KVStore.getOp]⟩) ⟨[], rfl, rfl⟩

theorem quiet_iff_oneClient : letI := KVStore.getJson
    ∃ run', (apiMachine _).next oneClient .launch run' ∧ (run'.Quiet ↔ ¬ Call.launch.Invokes oneClient.state) := by
  let := KVStore.getJson
  have hnext : ∃ run', (apiMachine _).next oneClient .launch run' := ⟨⟨_, _⟩, _, rfl, rfl⟩
  obtain ⟨run', hnext⟩ := hnext
  exact ⟨run', hnext, quiet_iff oneClient_reach (Or.inl rfl) hnext⟩

/-- The launch of one client sends a request and leaves it in the net. -/
theorem launch_not_quiet : letI := KVStore.getJson
    ∃ run run' : Run (Iter (List Payload)), (apiMachine _).Reach Machine.always run ∧
      (apiMachine _).next run .launch run' ∧ ¬ run'.Quiet := by
  let := KVStore.getJson
  refine ⟨oneClient, ⟨_, _⟩, oneClient_reach, ⟨_, rfl, rfl⟩, fun hquiet => ?_⟩
  have hnet := (hquiet.clients _ List.mem_cons_self).1
  exact absurd hnet (List.cons_ne_nil _ _)

end Neatworks.Unreplicated
