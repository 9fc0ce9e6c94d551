import Neatworks.UnreplicatedDriven
import Neatworks.UnreplicatedFlush

/-!
# The progress of a client

How far a client and the replica have got with the workload of the client. It
tells everything about the client but whether its request is still in the net,
which the messages that have been sent tell.
-/

namespace Neatworks.Unreplicated

def clientId (index : Nat) : UInt32 := UInt32.ofNat index + 1000

theorem ofNat_inj {m n : Nat} (hm : m < 2 ^ 32) (hn : n < 2 ^ 32) (h : UInt32.ofNat m = UInt32.ofNat n) : m = n := by
  have hnat := congrArg UInt32.toNat h
  rwa [UInt32.toNat_ofNat_of_lt' hm, UInt32.toNat_ofNat_of_lt' hn] at hnat

theorem clientId_inj {i j : Nat} (hi : i < 2 ^ 32) (hj : j < 2 ^ 32) (h : clientId i = clientId j) : i = j := by
  unfold clientId at h
  exact ofNat_inj hi hj ((UInt32.add_left_inj _).mp h)

/-- The request of an operation, by the number of those before it. -/
def requestOf (index k : Nat) (op : Payload) : Request Addr :=
  ⟨clientId index, .client index, UInt32.ofNat (k + 1), op⟩

def requestEvent (index k : Nat) (op : Payload) : MessageEvent := ⟨.replica, .request (requestOf index k op)⟩

def replyEvent (index k : Nat) (result : Payload) : MessageEvent :=
  ⟨.client index, .reply ⟨UInt32.ofNat (k + 1), result⟩⟩

def MessageEvent.owner (event : MessageEvent) : Addr :=
  match event.message with
  | .request request => request.clientAddr
  | .reply _ => event.dest

@[simp] theorem owner_requestEvent (index k : Nat) (op : Payload) : (requestEvent index k op).owner = .client index := rfl

@[simp] theorem owner_replyEvent (index k : Nat) (result : Payload) : (replyEvent index k result).owner = .client index := rfl

def Observed.ofClient (id : UInt32) : Observed → Bool
  | .send _ => false
  | .invoke clientId _ => clientId = id
  | .execute request _ => request.clientId = id
  | .deliver clientId _ => clientId = id

/-! ## Stages -/

/-- Where the current operation is. -/
inductive Stage (A : Type)
  | finished
  | invoked (op : Payload) (attach : A)
  | executed (op : Payload) (attach : A) (result : Payload)

def Stage.current {A : Type} : Stage A → Option (Payload × A)
  | .finished => none
  | .invoked op attach => some (op, attach)
  | .executed op attach _ => some (op, attach)

structure Progress (A : Type) where
  past : List (Payload × Payload) := []
  stage : Stage A := .finished

namespace Progress

section
variable {A : Type}

/-- The number of invocations. -/
def count (p : Progress A) : Nat := p.past.length + if p.stage.current.isSome then 1 else 0

/-- The operations that the replica has executed, with their results. -/
def calls (p : Progress A) : List (Payload × Payload) :=
  p.past ++ match p.stage with
    | .executed op _ result => [(op, result)]
    | _ => []

/-- What has been observed of an operation from its invocation to its delivery. -/
def round (index k : Nat) (call : Payload × Payload) : List Observed :=
  [.invoke (clientId index) call.1, .execute (requestOf index k call.1) call.2, .deliver (clientId index) call.2]

def view (p : Progress A) (index : Nat) : List Observed :=
  (p.past.zipIdx.flatMap fun call => round index call.2 call.1) ++ match p.stage with
    | .finished => []
    | .invoked op _ => [.invoke (clientId index) op]
    | .executed op _ result => [.invoke (clientId index) op, .execute (requestOf index p.past.length op) result]

/-- The reply that the replica keeps. -/
def stored (p : Progress A) : Option Reply :=
  p.calls.getLast?.map fun call => ⟨UInt32.ofNat p.calls.length, call.2⟩

theorem calls_length_le (p : Progress A) : p.calls.length ≤ p.count := by
  obtain ⟨past, _ | _ | _⟩ := p <;> simp [calls, count, Stage.current]

theorem stored_eq_some {p : Progress A} {reply : Reply} (h : p.stored = some reply) :
    ∃ k call, p.calls[k]? = some call ∧ k + 1 = p.calls.length ∧ reply = ⟨UInt32.ofNat (k + 1), call.2⟩ := by
  obtain ⟨call, hlast, rfl⟩ := Option.map_eq_some_iff.mp h
  have hne : p.calls ≠ [] := fun hnil => by
    rw [hnil] at hlast
    cases hlast
  have hpos := List.length_pos_iff.mpr hne
  rw [List.getLast?_eq_getElem?] at hlast
  refine ⟨p.calls.length - 1, call, hlast, Nat.sub_add_cancel hpos, ?_⟩
  rw [Nat.sub_add_cancel hpos]

theorem stored_of_lt {p : Progress A} {k : Nat} (h : k < p.calls.length) :
    ∃ result, p.stored = some ⟨UInt32.ofNat p.calls.length, result⟩ := by
  have hne : p.calls ≠ [] := List.ne_nil_of_length_pos (Nat.zero_lt_of_lt h)
  refine ⟨(p.calls.getLast hne).2, ?_⟩
  unfold stored
  rw [List.getLast?_eq_some_getLast hne]
  rfl

/-- An operation that is no call yet is the current one, and has not been executed. -/
theorem invoked_of_le {p : Progress A} {k : Nat} {op : Payload}
    (h : k < p.past.length ∨ k = p.past.length ∧ ∃ attach, p.stage.current = some (op, attach)) (hle : p.calls.length ≤ k) :
    k = p.past.length ∧ ∃ attach, p.stage = .invoked op attach := by
  obtain ⟨past, stage⟩ := p
  have hpast : past.length ≤ (⟨past, stage⟩ : Progress A).calls.length := by
    unfold calls
    rw [List.length_append]
    exact Nat.le_add_right _ _
  obtain ⟨hk, attach, hcurrent⟩ := h.resolve_left fun hlt => absurd hlt (Nat.not_lt.mpr (hpast.trans hle))
  refine ⟨hk, ?_⟩
  cases stage with
  | finished => cases hcurrent
  | invoked op' attach' =>
    cases hcurrent
    exact ⟨attach, rfl⟩
  | executed op' attach' result =>
    simp only [calls, hk, List.length_append, List.length_singleton] at hle
    exact absurd hle (Nat.not_succ_le_self _)

/-- The messages of the client and of the replica to it. -/
inductive Valid (p : Progress A) (index : Nat) : MessageEvent → Prop
  | past {k : Nat} {call : Payload × Payload} (h : p.past[k]? = some call) : Valid p index (requestEvent index k call.1)
  | current {op : Payload} {attach : A} (h : p.stage.current = some (op, attach)) :
    Valid p index (requestEvent index p.past.length op)
  | reply {k : Nat} {call : Payload × Payload} (h : p.calls[k]? = some call) : Valid p index (replyEvent index k call.2)

/-- The request of the current operation, until it has left the net. -/
def net (p : Progress A) (index : Nat) (messageEvents : Finset MessageEvent) : List MessageEvent :=
  match p.stage.current with
  | none => []
  | some (op, _) =>
    if requestEvent index p.past.length op ∈ messageEvents then [] else [requestEvent index p.past.length op]

end

def client {W : Type} [Workload W] (p : Progress (Attach W)) (index : Nat) (messageEvents : Finset MessageEvent)
    (workload : W) : ClientState W where
  state := {
    id := clientId index
    addr := .client index
    seq := UInt32.ofNat p.count
    invoke := p.stage.current.map fun c => ⟨c.1, ⟨UInt32.ofNat p.count⟩⟩
    net := p.net index messageEvents }
  timer := {
    pending := if p.stage.current.isSome then [(UInt32.ofNat p.count, 1000)] else []
    timerId := UInt32.ofNat p.count }
  closeLoop := {
    workload := workload
    workloadAttach := p.stage.current.map Prod.snd
    done := p.stage.current.isNone }

end Progress

/-! ## Clients on their way -/

section
variable {W : Type} [Workload W]

/-- The client, the reply that the replica keeps for it, the messages and what
has been observed of it agree on its progress. -/
structure Tracks (w₀ : W) (index : Nat) (client : ClientState W) (stored : Option Reply)
    (messageEvents : Finset MessageEvent) (view : List Observed) (p : Progress (Attach W)) : Prop where
  drives : Drives w₀ p.past p.stage.current client.closeLoop.workload
  count : p.count < 2 ^ 32
  client : client = p.client index messageEvents client.closeLoop.workload
  stored : stored = p.stored
  messages : ∀ message ∈ messageEvents, message.owner = .client index → p.Valid index message
  view : view = p.view index

variable {w₀ : W} {index : Nat} {client : ClientState W} {stored : Option Reply} {messageEvents : Finset MessageEvent}
  {view : List Observed}

theorem Progress.Valid.request {p : Progress (Attach W)} {message : MessageEvent} (h : p.Valid index message)
    {request : Request Addr} (hrequest : message.message = .request request) :
    ∃ k op, request = requestOf index k op ∧
      (k < p.past.length ∨ k = p.past.length ∧ ∃ attach, p.stage.current = some (op, attach)) := by
  cases h with
  | past hcall =>
    exact ⟨_, _, (Message.request.inj hrequest).symm, Or.inl (List.getElem?_eq_some_iff.mp hcall).1⟩
  | current hcurrent => exact ⟨_, _, (Message.request.inj hrequest).symm, Or.inr ⟨rfl, _, hcurrent⟩⟩
  | reply => cases hrequest

theorem Progress.Valid.reply_call {p : Progress (Attach W)} {message : MessageEvent} (h : p.Valid index message)
    {reply : Reply} (hreply : message.message = .reply reply) :
    ∃ k call, p.calls[k]? = some call ∧ reply = ⟨UInt32.ofNat (k + 1), call.2⟩ := by
  cases h with
  | past => cases hreply
  | current => cases hreply
  | reply hcall => exact ⟨_, _, hcall, (Message.reply.inj hreply).symm⟩

theorem Progress.Valid.owner {p : Progress (Attach W)} {message : MessageEvent} (h : p.Valid index message) :
    message.owner = .client index := by
  cases h <;> rfl

namespace Tracks

theorem settled {p : Progress (Attach W)} (h : Tracks w₀ index client stored messageEvents view p) : client.Settled := by
  have hclient := h.client
  rw [hclient]
  exact ⟨rfl, rfl⟩

theorem mem_net {p : Progress (Attach W)} (h : Tracks w₀ index client stored messageEvents view p)
    {message : MessageEvent} (hmem : message ∈ client.state.net) : p.Valid index message := by
  rw [h.client] at hmem
  change message ∈ p.net index messageEvents at hmem
  unfold Progress.net at hmem
  split at hmem
  · cases hmem
  · next op attach hcurrent =>
    split at hmem
    · cases hmem
    · rw [List.mem_singleton.mp hmem]
      exact .current hcurrent

theorem drained {p : Progress (Attach W)} (h : Tracks w₀ index client stored messageEvents view p)
    {messageEvents' : Finset MessageEvent} (hold : messageEvents ⊆ messageEvents')
    (hnet : ∀ message ∈ client.state.net, message ∈ messageEvents')
    (hnew : ∀ message ∈ messageEvents', message.owner = .client index → message ∈ messageEvents ∨ p.Valid index message) :
    Tracks w₀ index client.drained stored messageEvents' view p := by
  refine ⟨h.drives, h.count, ?_, h.stored, fun message hmem howner => ?_, h.view⟩
  · have hempty : p.net index messageEvents' = [] := by
      have hclient : client.state.net = p.net index messageEvents := congrArg (fun c => c.state.net) h.client
      rw [hclient] at hnet
      unfold Progress.net at hnet ⊢
      split
      · rfl
      · next op attach hcurrent =>
        rw [if_pos]
        rw [hcurrent] at hnet
        dsimp only at hnet
        by_cases hmem : requestEvent index p.past.length op ∈ messageEvents
        · exact hold hmem
        · rw [if_neg hmem] at hnet
          exact hnet _ (List.mem_singleton_self _)
    have hclient := h.client
    unfold Progress.client at hclient ⊢
    rw [hempty]
    unfold ClientState.drained
    rw [hclient]
  · exact (hnew message hmem howner).elim (fun hmem => h.messages message hmem howner) id

/-- A client with an outstanding invocation. -/
structure Waiting (p : Progress (Attach W)) (index : Nat) (client : ClientState W) (invoke : ClientInvoke)
    (attach : Attach W) : Prop where
  current : p.stage.current = some (invoke.op, attach)
  count : p.count = p.past.length + 1
  seq : client.state.seq = UInt32.ofNat (p.past.length + 1)
  timerId : invoke.resendTimer = ⟨UInt32.ofNat (p.past.length + 1)⟩
  pending : client.timer.pending = [(UInt32.ofNat (p.past.length + 1), 1000)]
  message : client.state.message invoke.op = requestEvent index p.past.length invoke.op
  attach : client.closeLoop.workloadAttach = some attach

theorem waiting {p : Progress (Attach W)} (h : Tracks w₀ index client stored messageEvents view p) {invoke : ClientInvoke}
    (hinvoke : client.state.invoke = some invoke) : ∃ attach, Waiting p index client invoke attach := by
  have hclient := h.client
  obtain ⟨past, stage⟩ := p
  rw [hclient] at hinvoke
  obtain ⟨⟨op, attach⟩, hcurrent, rfl⟩ := Option.map_eq_some_iff.mp hinvoke
  have hcount : (⟨past, stage⟩ : Progress (Attach W)).count = past.length + 1 := by
    unfold Progress.count
    rw [hcurrent]
    rfl
  rw [hcount]
  refine ⟨attach, hcurrent, hcount, ?_, rfl, ?_, ?_, ?_⟩
  · rw [hclient, ← hcount]
    rfl
  · rw [hclient]
    simp only [Progress.client, hcurrent, hcount]
    rfl
  · rw [hclient]
    simp only [Progress.client, Client.message, hcount]
    rfl
  · rw [hclient]
    simp only [Progress.client, hcurrent]
    rfl

theorem Waiting.resend {p : Progress (Attach W)} {invoke : ClientInvoke} {attach : Attach W}
    (h : Waiting p index client invoke attach) {event : UInt32 × Nat}
    (hfind : client.timer.pending.find? (·.1 = invoke.resendTimer.id) = some event) :
    (client.timer.without invoke.resendTimer).pending ++ [event] = client.timer.pending := by
  unfold Timer.without
  rw [h.pending, h.timerId] at *
  simp at hfind ⊢
  exact hfind.symm

theorem Waiting.executed {p : Progress (Attach W)} {invoke : ClientInvoke} {attach : Attach W}
    (h : Waiting p index client invoke attach) {call : Payload × Payload} (hcall : p.calls[p.past.length]? = some call) :
    p.stage = .executed invoke.op attach call.2 := by
  have hcurrent := h.current
  obtain ⟨past, _ | ⟨op, attach'⟩ | ⟨op, attach', result⟩⟩ := p
  · cases hcurrent
  · simp [Progress.calls] at hcall
  · simp only [Progress.calls, List.getElem?_concat_length] at hcall
    cases hcall
    cases hcurrent
    rfl

section
variable {past : List (Payload × Payload)} {op result : Payload} {attach : Attach W}

theorem execute (h : Tracks w₀ index client stored messageEvents view ⟨past, .invoked op attach⟩) (result : Payload) :
    Tracks w₀ index client (some ⟨UInt32.ofNat (past.length + 1), result⟩) messageEvents
      (view ++ [.execute (requestOf index past.length op) result]) ⟨past, .executed op attach result⟩ := by
  refine ⟨h.drives, h.count, h.client, ?_, fun message hmem howner => ?_, ?_⟩
  · unfold Progress.stored Progress.calls
    simp
  · cases h.messages message hmem howner with
    | past hcall => exact .past hcall
    | current hcurrent =>
      exact .current hcurrent
    | reply hcall =>
      refine .reply ?_
      unfold Progress.calls at hcall ⊢
      dsimp only at hcall ⊢
      rw [List.append_nil] at hcall
      rw [List.getElem?_append_left (List.getElem?_eq_some_iff.mp hcall).1]
      exact hcall
  · rw [h.view]
    unfold Progress.view
    simp

/-- The messages of an operation that is over. -/
theorem messages_past (h : Tracks w₀ index client stored messageEvents view ⟨past, .executed op attach result⟩)
    (stage : Stage (Attach W)) {message : MessageEvent} (hmem : message ∈ messageEvents)
    (howner : message.owner = .client index) : (⟨past ++ [(op, result)], stage⟩ : Progress _).Valid index message := by
  have hcalls : ∀ {k : Nat} {call : Payload × Payload}, (past ++ [(op, result)])[k]? = some call →
      (⟨past ++ [(op, result)], stage⟩ : Progress (Attach W)).calls[k]? = some call := by
    intro k call hcall
    unfold Progress.calls
    rw [List.getElem?_append_left (List.getElem?_eq_some_iff.mp hcall).1]
    exact hcall
  cases h.messages message hmem howner with
  | past hcall =>
    refine .past ?_
    dsimp only at hcall ⊢
    rw [List.getElem?_append_left (List.getElem?_eq_some_iff.mp hcall).1]
    exact hcall
  | current hcurrent =>
    cases hcurrent
    have hcall : (past ++ [(op, result)])[past.length]? = some (op, result) := List.getElem?_concat_length
    exact Progress.Valid.past (p := ⟨past ++ [(op, result)], stage⟩) hcall
  | reply hcall => exact .reply (hcalls hcall)

theorem view_past (index : Nat) (past : List (Payload × Payload)) (call : Payload × Payload) :
    ((past ++ [call]).zipIdx.flatMap fun c => Progress.round index c.2 c.1) =
      (past.zipIdx.flatMap fun c => Progress.round index c.2 c.1) ++ Progress.round index past.length call := by
  simp [List.zipIdx_append]

theorem finish (h : Tracks w₀ index client stored messageEvents view ⟨past, .executed op attach result⟩) {w w' : W}
    (hresult : Workload.onResult client.closeLoop.workload result attach = .ok w) (hnext : Workload.nextOp w = .ok (none, w')) :
    Tracks w₀ index (client.finished (client.timer.without ⟨UInt32.ofNat (past.length + 1)⟩) w') stored messageEvents
      (view ++ [.deliver (clientId index) result]) ⟨past ++ [(op, result)], .finished⟩ := by
  have hclient := h.client
  refine ⟨.next h.drives hresult hnext, ?_, ?_, ?_, fun message hmem howner => h.messages_past _ hmem howner, ?_⟩
  · have hcount := h.count
    unfold Progress.count at hcount ⊢
    simpa [Stage.current] using hcount
  · rw [hclient]
    simp [Progress.client, Progress.count, Progress.net, ClientState.finished, ClientState.answered, Timer.without,
      Stage.current]
  · rw [h.stored]
    simp [Progress.stored, Progress.calls]
  · rw [h.view]
    unfold Progress.view
    rw [view_past]
    simp [Progress.round]

theorem advance (h : Tracks w₀ index client stored messageEvents view ⟨past, .executed op attach result⟩) {w w' : W}
    {op' : Payload} {attach' : Attach W} (hresult : Workload.onResult client.closeLoop.workload result attach = .ok w)
    (hnext : Workload.nextOp w = .ok (some (op', attach'), w')) (hroom : past.length + 2 < 2 ^ 32) :
    Tracks w₀ index ((client.continued (client.timer.without ⟨UInt32.ofNat (past.length + 1)⟩) w' attach').afterInvoke op')
      stored messageEvents (view ++ [.deliver (clientId index) result, .invoke (clientId index) op'])
      ⟨past ++ [(op, result)], .invoked op' attach'⟩ := by
  have hclient := h.client
  have hunsent : requestEvent index (past.length + 1) op' ∉ messageEvents := by
    intro hmem
    obtain ⟨k, op'', hrequest, hk⟩ := (h.messages _ hmem rfl).request rfl
    have hle : k ≤ past.length := hk.elim Nat.le_of_lt fun hk => Nat.le_of_eq hk.1
    have heq := ofNat_inj hroom (by omega) (congrArg Request.seq hrequest)
    omega
  refine ⟨.next h.drives hresult hnext, ?_, ?_, ?_, fun message hmem howner => h.messages_past _ hmem howner, ?_⟩
  · unfold Progress.count
    simpa [Stage.current] using hroom
  · rw [hclient]
    simp only [Progress.client, Progress.net, Stage.current, List.length_append, List.length_singleton, if_neg hunsent]
    simp [Progress.count, ClientState.continued, ClientState.answered, Timer.without, Stage.current,
      ClientState.afterInvoke, Client.message, requestEvent, requestOf]
  · rw [h.stored]
    simp [Progress.stored, Progress.calls]
  · rw [h.view]
    unfold Progress.view
    rw [view_past]
    simp [Progress.round]

end

end Tracks

end

end Neatworks.Unreplicated
