import Neatworks.UnreplicatedTracked

/-!
# Linearizability

What the clients of the unreplicated protocol get is what one store answers to
their operations in one order, each executed once. No step fails but the one in
which a client would count beyond `u32`.
-/

namespace Neatworks

/-- Every store executes the operation. -/
def KVStore.Accepts [SerdeJson] (op : Payload) : Prop := ∀ store : KVStore, ∃ out, App.execute store op = some out

namespace Unreplicated

open Outcome

section
variable {W : Type} [Workload W]

/-- The result of its last possible invocation makes a client invoke another operation. -/
def State.Exhausts (self : State W) (event : Event) : Prop :=
  ∃ index client reply, event = .message ⟨.client index, .reply reply⟩ ∧ self.clients[index]? = some client ∧
    reply.seq = client.state.seq ∧ client.state.invoke ≠ none ∧ CloseLoop.hasNext client.closeLoop reply.result = true ∧
    client.state.seq.toNat + 1 = 2 ^ 32

/-- The operations that the client has invoked. -/
def Progress.ops {A : Type} (p : Progress A) : List Payload := p.past.map Prod.fst ++ (p.stage.current.map Prod.fst).toList

theorem Progress.ops_opAt (ho : Oblivious W) {w₀ w : W} {p : Progress (Attach W)} (h : Drives w₀ p.past p.stage.current w)
    {k : Nat} {op : Payload} (hop : p.ops[k]? = some op) : opAt k w₀ = some op := by
  obtain ⟨hpast, hcurrent, _⟩ := h.ops ho
  unfold Progress.ops at hop
  rcases Nat.lt_or_ge k p.past.length with hlt | hge
  · rw [List.getElem?_append_left (by rwa [List.length_map]), List.getElem?_map, Option.map_eq_some_iff] at hop
    obtain ⟨call, hcall, rfl⟩ := hop
    exact hpast k call hcall
  · rw [List.getElem?_append_right (by rwa [List.length_map]), List.length_map] at hop
    cases hc : p.stage.current.map Prod.fst with
    | none =>
      rw [hc] at hop
      cases hop
    | some op' =>
      rw [hc, Option.toList_some, List.getElem?_singleton] at hop
      split at hop
      · next hzero =>
        obtain rfl : k = p.past.length := by omega
        rw [hcurrent, hc]
        exact hop
      · cases hop

theorem Progress.Valid.request_opAt (ho : Oblivious W) {w₀ w : W} {p : Progress (Attach W)} {index : Nat}
    (h : Drives w₀ p.past p.stage.current w) {message : MessageEvent} (hvalid : p.Valid index message) {request : Request Addr}
    (hrequest : message.message = .request request) : ∃ k, opAt k w₀ = some request.op := by
  obtain ⟨hpast, hcurrent, _⟩ := h.ops ho
  cases hvalid with
  | past hcall =>
    rw [← Message.request.inj hrequest]
    exact ⟨_, hpast _ _ hcall⟩
  | current hsome =>
    rw [← Message.request.inj hrequest]
    refine ⟨_, hcurrent.trans ?_⟩
    rw [hsome]
    rfl
  | reply => cases hrequest

/-! ## Steps that succeed -/

theorem mem_events_timer {self : State W} {timerId : TimerId} {index : Nat} :
    .timer ⟨timerId, index⟩ ∈ self.events ↔ ∃ client, self.clients[index]? = some client ∧ timerId ∈ client.timer.events := by
  unfold State.events
  simp [List.mem_zipIdx_iff_getElem?]

section
variable {w₀ : W} {index : Nat} {client : ClientState W} {stored : Option Reply} {messageEvents : Finset MessageEvent}
  {view : List Observed} {p : Progress (Attach W)}

theorem Tracks.timer_invoke (h : Tracks w₀ index client stored messageEvents view p) {timerId : TimerId}
    (htimer : timerId ∈ client.timer.events) : ∃ op, client.state.invoke = some ⟨op, timerId⟩ := by
  rw [h.client] at htimer ⊢
  unfold Progress.client Timer.events at *
  cases hcurrent : p.stage.current with
  | none =>
    rw [hcurrent] at htimer
    cases htimer
  | some current =>
    simp only [hcurrent, Option.isSome_some, if_true, Timer.eventsFrom, Option.any_none, Bool.false_eq_true, if_false,
      List.mem_singleton] at htimer
    rw [htimer]
    exact ⟨_, rfl⟩

theorem Tracks.seq_toNat (h : Tracks w₀ index client stored messageEvents view p) : client.state.seq.toNat = p.count := by
  rw [h.client]
  exact UInt32.toNat_ofNat_of_lt' h.count

theorem Tracks.timerId (h : Tracks w₀ index client stored messageEvents view p) :
    client.timer.timerId = client.state.seq := by
  rw [h.client]
  rfl

theorem Tracks.Waiting.find {invoke : ClientInvoke} {attach : Attach W} (h : Waiting p index client invoke attach) :
    client.timer.pending.find? (·.1 = invoke.resendTimer.id) = some (UInt32.ofNat (p.past.length + 1), 1000) := by
  rw [h.pending, h.timerId]
  simp

end

theorem ClientState.invoked_isOk {client : ClientState W} (op : Payload) (hinvoke : client.state.invoke = none) :
    (∃ c es, client.invoked op = .ok c es) ↔ client.Room := by
  constructor
  · intro ⟨c, es, hok⟩
    have hsat : (client.invoked op).Sat (fun _ _ => client.Room) fun _ => True := invoked_sat fun _ hroom => hroom
    rw [hok] at hsat
    exact hsat
  · exact fun hroom => ⟨_, _, invoked_eq hinvoke hroom⟩

variable [SerdeJson]

theorem Replica.onRecv_isOk (self : Replica KVStore) {request : Request Addr} (h : KVStore.Accepts request.op) :
    ∃ replica es, self.onRecv request = .ok replica es := by
  obtain ⟨⟨app, result⟩, happ⟩ := h self.app
  have hexecute : ∃ replica es, self.execute request = .ok replica es := by
    unfold execute send
    simp only [happ]
    exact ⟨_, _, rfl⟩
  unfold onRecv
  split
  · exact hexecute
  · split
    · exact ⟨_, _, rfl⟩
    · split
      · exact ⟨_, _, rfl⟩
      · exact hexecute

namespace Tracked

variable {workloads : List W} {ps : Nat → Progress (Attach W)} {s : State W} {history : List Observed}

theorem request_isOk (h : Tracked workloads ps s history) {request : Request Addr} (haccepts : KVStore.Accepts request.op) :
    ∃ s' es, s.step (.message ⟨.replica, .request request⟩) = .ok s' es := by
  obtain ⟨replica, es, hrecv⟩ := Replica.onRecv_isOk s.replica haccepts
  rw [State.step_request h.settled, hrecv]
  exact ⟨_, _, ok_bind_ok rfl⟩

theorem timer_isOk (h : Tracked workloads ps s history) {event : TimerEvent} (hevent : .timer event ∈ s.events) :
    ∃ s' es, s.step (.timer event) = .ok s' es := by
  obtain ⟨timerId, index⟩ := event
  obtain ⟨client, hclient, htimer⟩ := mem_events_timer.mp hevent
  obtain ⟨w₀, hw⟩ := h.workload hclient
  have htracks := h.clients index w₀ client hw hclient
  obtain ⟨op, hinvoke⟩ := htracks.timer_invoke htimer
  obtain ⟨attach, hwaiting⟩ := htracks.waiting hinvoke
  have hstep := State.step_timer h.settled hclient (Timer.stepTimer_eq hwaiting.find) hinvoke
  exact ⟨_, _, hstep⟩

/-- A reply fails only with the counter, if the workload takes the result and goes on. -/
theorem reply_isOk (h : Tracked workloads ps s history) {index : Nat} {client : ClientState W}
    (hclient : s.clients[index]? = some client) (reply : Reply)
    (htakes : reply.seq = client.state.seq → ∀ attach, client.closeLoop.workloadAttach = some attach →
      ∃ w next, Workload.onResult client.closeLoop.workload reply.result attach = .ok w ∧ Workload.nextOp w = .ok next) :
    (∃ s' es, s.step (.message ⟨.client index, .reply reply⟩) = .ok s' es) ↔
      ¬ s.Exhausts (.message ⟨.client index, .reply reply⟩) := by
  obtain ⟨w₀, hw⟩ := h.workload hclient
  have htracks := h.clients index w₀ client hw hclient
  by_cases hwait : reply.seq = client.state.seq ∧ client.state.invoke ≠ none
  · obtain ⟨hseq, hne⟩ := hwait
    obtain ⟨invoke, hinvoke⟩ := Option.ne_none_iff_exists'.mp hne
    obtain ⟨attach, hwaiting⟩ := htracks.waiting hinvoke
    obtain ⟨w, ⟨next, w'⟩, hresult, hnext⟩ := htakes hseq attach hwaiting.attach
    have hexhausts : s.Exhausts (.message ⟨.client index, .reply reply⟩) ↔
        CloseLoop.hasNext client.closeLoop reply.result = true ∧ client.state.seq.toNat + 1 = 2 ^ 32 := by
      refine ⟨fun hex => ?_, fun hboth => ⟨index, client, reply, rfl, hclient, hseq, hne, hboth⟩⟩
      obtain ⟨_, _, _, heq, hclient', _, _, hboth⟩ := hex
      cases heq
      rw [hclient] at hclient'
      cases hclient'
      exact hboth
    have hsettled := h.settled client (List.mem_of_getElem? hclient)
    rw [State.step_reply_accepted h.settled hclient hseq hinvoke, Timer.unset_eq hwaiting.find, pure_bind, hexhausts]
    unfold CloseLoop.hasNext
    cases next with
    | none =>
      rw [CloseLoop.onInvokeOk_none hwaiting.attach hresult hnext]
      simp only [hwaiting.attach, hresult, hnext]
      refine ⟨fun _ hfalse => absurd hfalse.1 Bool.false_ne_true, fun _ => ?_⟩
      rw [exists_bind_eq_ok]
      refine ⟨_, _, rfl, exists_bind_eq_ok.mpr ⟨_, _, ClientState.rerun_settled ?_ 1, _, _, rfl⟩⟩
      exact ⟨hsettled.sender, hsettled.upcall⟩
    | some next =>
      rw [CloseLoop.onInvokeOk_some hwaiting.attach hresult hnext, hsettled.sender, List.nil_append]
      simp only [hwaiting.attach, hresult, hnext, true_and]
      obtain ⟨op, attach'⟩ := next
      obtain ⟨loop, hloop⟩ : ∃ loop : CloseLoop W, { client.closeLoop with
          workload := w', workloadAttach := some attach', sender := [op] } = loop := ⟨_, rfl⟩
      rw [hloop]
      obtain ⟨client', hclient'⟩ : ∃ client', client.answered (client.timer.without invoke.resendTimer) loop = client' := ⟨_, rfl⟩
      have hrerun : client'.rerun 1 = client'.invoked op := by
        refine ClientState.rerun_invoke ?_ ?_ 0
        · rw [← hclient', ← hloop]
          rfl
        · rw [← hclient']
          exact hsettled.upcall
      have hroom : client'.Room ↔ client.state.seq.toNat + 1 < 2 ^ 32 := by
        rw [← hclient']
        refine ⟨fun hroom => hroom.seq, fun hlt => ⟨hlt, ?_⟩⟩
        change client.timer.timerId.toNat + 1 < 2 ^ 32
        rw [htracks.timerId]
        exact hlt
      have hisOk := ClientState.invoked_isOk op (show client'.state.invoke = none by rw [← hclient']; rfl)
      rw [hroom, ← hrerun, ← hclient'] at hisOk
      have hbound := client.state.seq.toNat_lt
      constructor
      · intro hok heq
        obtain ⟨_, _, hsame, hok⟩ := exists_bind_eq_ok.mp hok
        cases hsame
        obtain ⟨c, es, hok, _⟩ := exists_bind_eq_ok.mp hok
        have hlt := hisOk.mp ⟨c, es, hok⟩
        omega
      · intro hne
        obtain ⟨c, es, hok⟩ := hisOk.mpr (by omega)
        exact exists_bind_eq_ok.mpr ⟨_, _, rfl, exists_bind_eq_ok.mpr ⟨c, es, hok, _, _, rfl⟩⟩
  · have hidle : reply.seq ≠ client.state.seq ∨ client.state.invoke = none := by tauto
    refine ⟨fun _ hexhausts => ?_, fun _ => ⟨_, _, State.step_reply_ignored h.settled hclient hidle⟩⟩
    obtain ⟨_, _, _, heq, hclient', hseq, hinvoke, _⟩ := hexhausts
    cases heq
    rw [hclient] at hclient'
    cases hclient'
    exact hwait ⟨hseq, hinvoke⟩

/-- Only the counter makes a step fail, if the store executes every request and
each workload takes the results that its client waits for. -/
theorem step_fits (h : Tracked workloads ps s history)
    (hrequests : ∀ request, ⟨.replica, .request request⟩ ∈ s.messageEvents → KVStore.Accepts request.op)
    (hreplies : ∀ index client reply, s.clients[index]? = some client → ⟨.client index, .reply reply⟩ ∈ s.messageEvents →
      reply.seq = client.state.seq → ∀ attach, client.closeLoop.workloadAttach = some attach →
        ∃ w next, Workload.onResult client.closeLoop.workload reply.result attach = .ok w ∧ Workload.nextOp w = .ok next)
    {event : Event} (hevent : event ∈ s.events) : (∃ s' es, s.step event = .ok s' es) ↔ ¬ s.Exhausts event := by
  cases event with
  | timer event =>
    refine ⟨fun _ hexhausts => ?_, fun _ => h.timer_isOk hevent⟩
    obtain ⟨_, _, _, heq, _⟩ := hexhausts
    cases heq
  | message event =>
    have hmem := mem_events.mp hevent
    obtain ⟨index, hindex, howner⟩ := h.owners _ hmem
    obtain ⟨w₀, client, hw, hclient⟩ := h.client hindex
    have hvalid := (h.clients index w₀ client hw hclient).messages _ hmem howner
    have hrequest : ∀ k op, requestEvent index k op ∈ s.messageEvents →
        ((∃ s' es, s.step (.message (requestEvent index k op)) = .ok s' es) ↔
          ¬ s.Exhausts (.message (requestEvent index k op))) := by
      intro k op hmem
      refine ⟨fun _ hexhausts => ?_, fun _ => h.request_isOk (hrequests _ hmem)⟩
      obtain ⟨_, _, _, heq, _⟩ := hexhausts
      cases heq
    cases hvalid with
    | past hcall => exact hrequest _ _ hmem
    | current hcurrent => exact hrequest _ _ hmem
    | reply hcall => exact h.reply_isOk hclient _ (hreplies index client _ hclient hmem)

theorem step_isOk (h : Tracked workloads ps s history) (ho : Oblivious W)
    (haccepts : ∀ w ∈ workloads, ∀ k op, opAt k w = some op → KVStore.Accepts op) {event : Event} (hevent : event ∈ s.events) :
    (∃ s' es, s.step event = .ok s' es) ↔ ¬ s.Exhausts event := by
  refine h.step_fits (fun request hmem => ?_) (fun index client reply _ _ _ attach _ => ?_) hevent
  · obtain ⟨index, hindex, howner⟩ := h.owners _ hmem
    obtain ⟨w₀, client, hw, hclient⟩ := h.client hindex
    have htracks := h.clients index w₀ client hw hclient
    obtain ⟨k, hop⟩ := (htracks.messages _ hmem howner).request_opAt ho htracks.drives rfl
    exact haccepts w₀ (List.mem_of_getElem? hw) k _ hop
  · obtain ⟨w, hresult, _⟩ := ho.result client.closeLoop.workload reply.result attach
    obtain ⟨next, hnext⟩ := ho.next w
    exact ⟨w, next, hresult, hnext⟩

end Tracked

/-! ## A client that waits -/

section
variable {workloads : List W} {ps : Nat → Progress (Attach W)} {s : State W} {history : List Observed} {index : Nat}
  {client : ClientState W} {invoke : ClientInvoke}

/-- The timer of a client that waits sends its request. -/
theorem Tracked.timer_sends (h : Tracked workloads ps s history) (hclient : s.clients[index]? = some client)
    (hinvoke : client.state.invoke = some invoke) : ∃ s' es, .timer ⟨invoke.resendTimer, index⟩ ∈ s.events ∧
      s.step (.timer ⟨invoke.resendTimer, index⟩) = .ok s' es ∧ client.state.message invoke.op ∈ s'.messageEvents ∧
        ∃ client', s'.clients[index]? = some client' ∧ client'.state.seq = client.state.seq ∧
          client'.state.invoke = some invoke ∧ client'.state.message invoke.op = client.state.message invoke.op := by
  obtain ⟨w₀, hw⟩ := h.workload hclient
  obtain ⟨attach, hwaiting⟩ := (h.clients index w₀ client hw hclient).waiting hinvoke
  have hevent : .timer ⟨invoke.resendTimer, index⟩ ∈ s.events := by
    refine mem_events_timer.mpr ⟨client, hclient, ?_⟩
    rw [Timer.events, hwaiting.pending, hwaiting.timerId]
    exact List.mem_singleton_self _
  obtain ⟨timer, htimer⟩ : ∃ timer, client.timer.stepTimer invoke.resendTimer = (pure timer : Handler Timer) :=
    ⟨_, Timer.stepTimer_eq hwaiting.find⟩
  refine ⟨_, _, hevent, State.step_timer h.settled hclient htimer hinvoke, ?_, ?_⟩
  · exact Finset.mem_union_right _ ((mem_nets_resent hclient invoke.op timer _).mpr (Or.inl rfl))
  · refine ⟨(client.resent invoke.op timer).drained, ?_, rfl, hinvoke, rfl⟩
    unfold State.flushed
    rw [List.getElem?_map, List.getElem?_set_self (List.getElem?_eq_some_iff.mp hclient).1]
    rfl

/-- The replica answers the request of a client that waits. -/
theorem Tracked.request_answers (h : Tracked workloads ps s history) (hclient : s.clients[index]? = some client)
    (hinvoke : client.state.invoke = some invoke) :
    (s.step (.message (client.state.message invoke.op))).Sat (fun s' _ =>
      (∃ reply, ⟨.client index, .reply reply⟩ ∈ s'.messageEvents ∧ reply.seq = client.state.seq) ∧
        ∃ client', s'.clients[index]? = some client' ∧ client'.state.seq = client.state.seq ∧
          client'.state.invoke = some invoke)
      fun _ => True := by
  obtain ⟨w₀, hw⟩ := h.workload hclient
  have htracks := h.clients index w₀ client hw hclient
  have hid : client.state.id = clientId index := by rw [htracks.client]; rfl
  have haddr : client.state.addr = .client index := by rw [htracks.client]; rfl
  have hkept : ∀ replica : Replica KVStore, ∃ client',
      (State.flushed { s with replica := replica }).clients[index]? = some client' ∧
        client'.state.seq = client.state.seq ∧ client'.state.invoke = some invoke := by
    intro replica
    refine ⟨client.drained, ?_, rfl, hinvoke⟩
    unfold State.flushed
    rw [List.getElem?_map, hclient]
    rfl
  have hsent : ∀ {replica : Replica KVStore} {reply : Reply}, ⟨.client index, .reply reply⟩ ∈ replica.net →
      ⟨.client index, .reply reply⟩ ∈ (State.flushed { s with replica := replica }).messageEvents := fun hmem =>
    Finset.mem_union_left _ (Finset.mem_union_right _ (List.mem_toFinset.mpr hmem))
  unfold Client.message
  rw [State.step_request h.settled, sat_bind, haddr]
  refine Replica.onRecv_sat (fun reply hreply hlt => ?_) (fun reply _ heq => ?_) fun _ app result _ => ?_
  · dsimp only at hreply hlt
    rw [hid, htracks.stored] at hreply
    obtain ⟨i, call, _, hi, rfl⟩ := Progress.stored_eq_some hreply
    have hle := (ps index).calls_length_le
    have hcount := htracks.count
    have hi32 : i + 1 < 2 ^ 32 := by omega
    rw [UInt32.lt_iff_toNat_lt, htracks.seq_toNat] at hlt
    change (ps index).count < (UInt32.ofNat (i + 1)).toNat at hlt
    rw [UInt32.toNat_ofNat_of_lt' hi32] at hlt
    omega
  · exact ⟨⟨reply, hsent (List.mem_append_right _ (List.mem_singleton_self _)), heq⟩, hkept _⟩
  · exact ⟨⟨⟨client.state.seq, result⟩, hsent (List.mem_append_right _ (List.mem_singleton_self _)), rfl⟩, hkept _⟩

end

/-! ## The claim -/

/-- The history of a run is linearizable. -/
structure Linearized (workloads : List W) (run : Run W) : Prop where
  distinct : ∀ i j, i < workloads.length → j < workloads.length → clientId i = clientId j → i = j
  clients : ∀ index w₀, workloads[index]? = some w₀ → ∃ p : Progress (Attach W),
    run.history.filter (Observed.ofClient (clientId index)) = p.view index ∧ ∀ k op, p.ops[k]? = some op → opAt k w₀ = some op
  executed : ∀ request result, .execute request result ∈ run.history →
    ∃ index < workloads.length, request.clientId = clientId index
  sequential : KVStore.new.Runs (executions run.history) run.state.replica.app

end

/-- The history of every run of the model checker is linearizable, and the only
steps that fail are those that exhaust the counter of a client. -/
def Linearizes (W : Type) [Workload W] [SerdeJson] : Prop :=
  ∀ workloads : List W, (∀ w ∈ workloads, ∀ k op, opAt k w = some op → KVStore.Accepts op) →
    ∀ run, (checkMachine workloads).Reach Machine.always run → Linearized workloads run ∧
      ∀ event ∈ run.state.events, (∃ s es, run.state.step event = .ok s es) ↔ ¬ run.state.Exhausts event

theorem Oblivious.linearizes {W : Type} [Workload W] [SerdeJson] (ho : Oblivious W) : Linearizes W := by
  intro workloads haccepts run hreach
  obtain ⟨ps, h⟩ := tracked_reach hreach
  refine ⟨⟨fun i j hi hj => clientId_inj (hi.trans h.few) (hj.trans h.few), fun index w₀ hw => ?_, h.executed, h.sequential⟩,
    fun event hevent => h.step_isOk ho haccepts hevent⟩
  obtain ⟨w₀', client, hw', hclient⟩ := h.client (List.getElem?_eq_some_iff.mp hw).1
  have htracks := h.clients index w₀ client hw hclient
  exact ⟨ps index, htracks.view, fun k op hop => Progress.ops_opAt ho htracks.drives hop⟩

theorem linearizable [SerdeJson] {I : Type} [Iterator I Payload] : Linearizes (Iter I) ∧ Linearizes (Recorded (Iter I)) :=
  ⟨iter_oblivious.linearizes, (recorded_oblivious iter_oblivious).linearizes⟩

/-! ## A client that never ends -/

section
variable {W : Type} [Workload W] [SerdeJson]

/-- The first client has made so many invocations, and the last is outstanding. -/
def State.Waits (self : State W) (n : Nat) : Prop :=
  ∃ client invoke, self.clients[0]? = some client ∧ client.state.seq.toNat = n ∧ client.state.invoke = some invoke

variable {workloads : List W} {run : Run W} {n : Nat}

theorem waits_reply (ho : Oblivious W) (haccepts : ∀ w ∈ workloads, ∀ k op, opAt k w = some op → KVStore.Accepts op)
    (hreach : (checkMachine workloads).Reach Machine.always run) (h : run.state.Waits n) :
    ∃ run', (checkMachine workloads).Reach Machine.always run' ∧ run'.state.Waits n ∧
      ∃ reply, ⟨.client 0, .reply reply⟩ ∈ run'.state.messageEvents ∧ reply.seq.toNat = n := by
  obtain ⟨client, invoke, hclient, hseq, hinvoke⟩ := h
  obtain ⟨ps, htracked⟩ := tracked_reach hreach
  obtain ⟨s₁, es₁, hevent, hstep, hmem, client₁, hclient₁, hseq₁, hinvoke₁, hmessage⟩ := htracked.timer_sends hclient hinvoke
  have hreach₁ : (checkMachine workloads).Reach Machine.always ⟨s₁, run.history ++ es₁⟩ :=
    .next hreach trivial ⟨hevent, es₁, hstep, rfl⟩
  obtain ⟨ps₁, htracked₁⟩ := tracked_reach hreach₁
  obtain ⟨w₀, hw⟩ := htracked₁.workload hclient₁
  have htracks := htracked₁.clients 0 w₀ client₁ hw hclient₁
  rw [← hmessage] at hmem
  have howner : (client₁.state.message invoke.op).owner = .client 0 := by
    rw [htracks.client]
    rfl
  obtain ⟨k, hop⟩ := (htracks.messages _ hmem howner).request_opAt ho htracks.drives rfl
  obtain ⟨s₂, es₂, hstep₂⟩ : ∃ s₂ es₂, s₁.step (.message (client₁.state.message invoke.op)) = .ok s₂ es₂ :=
    htracked₁.request_isOk (haccepts w₀ (List.mem_of_getElem? hw) k _ hop)
  have hanswers := htracked₁.request_answers hclient₁ hinvoke₁
  rw [hstep₂] at hanswers
  obtain ⟨⟨reply, hreply, hreplySeq⟩, client₂, hclient₂, hseq₂, hinvoke₂⟩ := hanswers
  refine ⟨⟨s₂, _⟩, .next hreach₁ trivial ⟨mem_events.mpr hmem, es₂, hstep₂, rfl⟩,
    ⟨client₂, invoke, hclient₂, by rw [hseq₂, hseq₁, hseq], hinvoke₂⟩, reply, hreply, by rw [hreplySeq, hseq₁, hseq]⟩

theorem waits_next (ho : Oblivious W) (hforever : ∀ w ∈ workloads, ∀ k, opAt k w ≠ none)
    (hreach : (checkMachine workloads).Reach Machine.always run) (h : run.state.Waits n) {reply : Reply}
    (hmem : ⟨.client 0, .reply reply⟩ ∈ run.state.messageEvents) (hseq : reply.seq.toNat = n) {s : State W} {es : List Observed}
    (hstep : run.state.step (.message ⟨.client 0, .reply reply⟩) = .ok s es) : s.Waits (n + 1) := by
  obtain ⟨client, invoke, hclient, hclientSeq, hinvoke⟩ := h
  obtain ⟨ps, htracked⟩ := tracked_reach hreach
  have hsame : reply.seq = client.state.seq := UInt32.toNat_inj.mp (hseq.trans hclientSeq.symm)
  have hsat : (run.state.step (.message ⟨.client 0, .reply reply⟩)).Sat (fun s _ => ∃ c, s.clients[0]? = some c ∧
      (c.state.invoke ≠ none → c.state.seq.toNat = n + 1)) fun _ => True := by
    refine State.step_sat htracked.settled (fun request heq => by cases heq) (fun index c reply' heq hc hidle => ?_)
      (fun index c timerId op event' heq => by cases heq) fun index c reply' invoke' event' heq hc hseq' hinvoke' _ => ?_
    · cases heq
      rw [hclient] at hc
      cases hc
      rw [hinvoke] at hidle
      exact absurd hidle (not_or.mpr ⟨not_not.mpr hsame, Option.some_ne_none _⟩)
    · cases heq
      rw [hclient] at hc
      cases hc
      have hset : ∀ c' : ClientState W, (run.state.flushed.clients.set 0 c')[0]? = some c' := fun c' => by
        refine List.getElem?_set_self ?_
        unfold State.flushed
        rw [List.length_map]
        exact (List.getElem?_eq_some_iff.mp hclient).1
      refine ClientState.accepted_sat (htracked.settled client (List.mem_of_getElem? hclient)) (fun _ _ _ _ _ _ => ?_)
        fun _ _ _ _ _ _ _ _ hroom => ?_
      · exact ⟨_, hset _, fun hne => absurd rfl hne⟩
      · refine ⟨_, hset _, fun _ => ?_⟩
        have hlt : client.state.seq.toNat + 1 < 2 ^ 32 := hroom.seq
        change (client.state.seq + 1).toNat = n + 1
        rw [UInt32.toNat_add, UInt32.toNat_one, Nat.mod_eq_of_lt hlt, hclientSeq]
  rw [hstep] at hsat
  obtain ⟨c, hc, hnext⟩ := hsat
  have hreach' : (checkMachine workloads).Reach Machine.always ⟨s, run.history ++ es⟩ :=
    .next hreach trivial ⟨mem_events.mpr hmem, es, hstep, rfl⟩
  obtain ⟨ps', htracked'⟩ := tracked_reach hreach'
  obtain ⟨w₀, hw⟩ := htracked'.workload hc
  have htracks := htracked'.clients 0 w₀ c hw hc
  cases hcurrent : (ps' 0).stage.current with
  | none =>
    have hnone := (htracks.drives.ops ho).2.1
    rw [hcurrent] at hnone
    exact absurd hnone (hforever w₀ (List.mem_of_getElem? hw) _)
  | some current =>
    have hsome : c.state.invoke = some ⟨current.1, ⟨UInt32.ofNat (ps' 0).count⟩⟩ := by
      rw [htracks.client]
      simp only [Progress.client, hcurrent, Option.map_some]
    exact ⟨c, _, hc, hnext (by rw [hsome]; exact Option.some_ne_none _), hsome⟩

end

/-- `iter::repeat`. -/
structure Repeat where
  op : Payload

instance : Iterator Repeat Payload where
  next self := (some self.op, self)

theorem repeat_opAt (op : Payload) (k : Nat) : opAt k (⟨⟨op⟩⟩ : Iter Repeat) = some op := by
  induction k with
  | zero => rfl
  | succ k ih => exact ih

theorem getOp_accepts : letI := KVStore.getJson
    KVStore.Accepts KVStore.getOp := by
  let := KVStore.getJson
  exact fun store => ⟨_, rfl⟩

theorem repeat_accepts : letI := KVStore.getJson
    ∀ w ∈ [(⟨⟨KVStore.getOp⟩⟩ : Iter Repeat)], ∀ k op, opAt k w = some op → KVStore.Accepts op := by
  let := KVStore.getJson
  intro w hmem k op hop
  rw [List.mem_singleton.mp hmem, repeat_opAt] at hop
  cases hop
  exact getOp_accepts

theorem repeat_forever (op : Payload) : ∀ w ∈ [(⟨⟨op⟩⟩ : Iter Repeat)], ∀ k, opAt k w ≠ none := by
  intro w hmem k
  rw [List.mem_singleton.mp hmem, repeat_opAt]
  exact Option.some_ne_none _

theorem repeat_waits (n : Nat) (hn : n + 1 < 2 ^ 32) : letI := KVStore.getJson
    ∃ run, (checkMachine [(⟨⟨KVStore.getOp⟩⟩ : Iter Repeat)]).Reach Machine.always run ∧ run.state.Waits (n + 1) := by
  let := KVStore.getJson
  induction n with
  | zero => exact ⟨⟨_, _⟩, .init ⟨_, rfl, rfl⟩, _, _, rfl, rfl, rfl⟩
  | succ n ih =>
    obtain ⟨run, hreach, hwaits⟩ := ih (by omega)
    obtain ⟨run₁, hreach₁, hwaits₁, reply, hmem, hseq⟩ := waits_reply iter_oblivious repeat_accepts hreach hwaits
    obtain ⟨ps, htracked⟩ := tracked_reach hreach₁
    have hroom : ¬ run₁.state.Exhausts (.message ⟨.client 0, .reply reply⟩) := by
      intro hexhausts
      obtain ⟨_, client, _, heq, _, hsame, _, _, hlast⟩ := hexhausts
      cases heq
      rw [← hsame, hseq] at hlast
      omega
    obtain ⟨s, es, hstep⟩ := (htracked.step_isOk iter_oblivious repeat_accepts (mem_events.mpr hmem)).mpr hroom
    exact ⟨⟨s, run₁.history ++ es⟩, .next hreach₁ trivial ⟨mem_events.mpr hmem, es, hstep, rfl⟩,
      waits_next iter_oblivious (repeat_forever _) hreach₁ hwaits₁ hmem hseq hstep⟩

/-- Forever the same operation: the counter of the client overflows. -/
theorem overflow : letI := KVStore.getJson
    (∀ k op, opAt k (⟨⟨KVStore.getOp⟩⟩ : Iter Repeat) = some op → KVStore.Accepts op) ∧
    ∃ run event, (checkMachine [(⟨⟨KVStore.getOp⟩⟩ : Iter Repeat)]).Reach Machine.always run ∧ event ∈ run.state.events ∧
      ¬ ∃ s es, run.state.step event = .ok s es := by
  let := KVStore.getJson
  obtain ⟨n, hn⟩ : ∃ n, n + 2 = 2 ^ 32 := ⟨2 ^ 32 - 2, rfl⟩
  obtain ⟨run, hreach, hwaits⟩ := repeat_waits n (by omega)
  obtain ⟨run₁, hreach₁, hwaits₁, reply, hmem, hseq⟩ := waits_reply iter_oblivious repeat_accepts hreach hwaits
  refine ⟨repeat_accepts _ (List.mem_singleton_self _), run₁, _, hreach₁, mem_events.mpr hmem, fun hok => ?_⟩
  obtain ⟨s, es, hstep⟩ := hok
  obtain ⟨client, _, _, hlast, _⟩ := waits_next iter_oblivious (repeat_forever _) hreach₁ hwaits₁ hmem hseq hstep
  have hlt := client.state.seq.toNat_lt
  omega

end Unreplicated

end Neatworks
