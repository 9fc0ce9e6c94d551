import Neatworks.UnreplicatedCheck

/-!
# What `flush` does

A client is settled when it and its close loop have nothing for each other. A
step unsettles one client at most, and `flush` only drains the nets of the
others.
-/

namespace Neatworks.Unreplicated

open Outcome

section
variable {W : Type} [Workload W]

/-! ## Clients -/

/-- The request of the current invocation. -/
def Client.message (client : Client) (op : Payload) : MessageEvent :=
  ⟨.replica, .request ⟨client.id, client.addr, client.seq, op⟩⟩

namespace ClientState

structure Settled (client : ClientState W) : Prop where
  sender : client.closeLoop.sender = []
  upcall : client.state.upcall = []

/-- `client.state.net.drain(..)`. -/
def drained (client : ClientState W) : ClientState W :=
  { client with state := { client.state with net := [] } }

/-- A client takes what its close loop has sent. -/
def invoked (client : ClientState W) (op : Payload) : Handler (ClientState W) := do
  let (state, timer) ← client.state.onInvoke op client.timer
  return { client with state := state, timer := timer, closeLoop := { client.closeLoop with sender := [] } }

/-- The client after it has accepted an `Invoke`. -/
def afterInvoke (client : ClientState W) (op : Payload) : ClientState W where
  state := { client.state with
    seq := client.state.seq + 1
    invoke := some ⟨op, ⟨client.timer.timerId + 1⟩⟩
    net := client.state.net ++ [{ client.state with seq := client.state.seq + 1 }.message op] }
  timer := {
    pending := client.timer.pending ++ [(client.timer.timerId + 1, 1000)]
    timerId := client.timer.timerId + 1 }
  closeLoop := { client.closeLoop with sender := [] }

/-- The calls of a client that accepts an `Invoke`. -/
def invokeCalls (client : ClientState W) (op : Payload) : List Observed :=
  [.invoke client.state.id op, .send ({ client.state with seq := client.state.seq + 1 }.message op)]

/-- The client after the reply it has waited for. -/
def answered (client : ClientState W) (timer : Timer) (closeLoop : CloseLoop W) : ClientState W :=
  { client with state := { client.state with invoke := none, net := [] }, timer := timer, closeLoop := closeLoop }

/-- The workload has no further operation. -/
def finished (client : ClientState W) (timer : Timer) (workload : W) : ClientState W :=
  client.answered timer { client.closeLoop with workload := workload, workloadAttach := none, done := true }

/-- The workload has a further operation, not yet invoked. -/
def continued (client : ClientState W) (timer : Timer) (workload : W) (attach : Attach W) : ClientState W :=
  client.answered timer { client.closeLoop with workload := workload, workloadAttach := some attach }

/-- The client with the first operation of its workload, not yet invoked. -/
def launched (client : ClientState W) (workload : W) (attach : Attach W) : ClientState W :=
  { client.drained with closeLoop := { client.closeLoop with workload := workload, workloadAttach := some attach } }

/-- The counters of the client have room for one more invocation. -/
structure Room (client : ClientState W) : Prop where
  seq : client.state.seq.toNat + 1 < 2 ^ 32
  timerId : client.timer.timerId.toNat + 1 < 2 ^ 32

section
variable {client : ClientState W}

theorem invoked_eq {op : Payload} (hinvoke : client.state.invoke = none) (h : client.Room) :
    client.invoked op = .ok (client.afterInvoke op) (client.invokeCalls op) := by
  have hseq : client.state.seq.toNat + (1 : UInt32).toNat < 2 ^ 32 := h.seq
  have htimerId : client.timer.timerId.toNat + (1 : UInt32).toNat < 2 ^ 32 := h.timerId
  unfold invoked Client.onInvoke Client.doSend Timer.set addU32
  simp only [hinvoke, hseq, htimerId, Outcome.assert, Option.isNone_none, if_true, ok_bind, pure_bind, bind_assoc]
  rfl

theorem invoked_sat {op : Payload} {Q : ClientState W → List Observed → Prop}
    (h : client.state.invoke = none → client.Room → Q (client.afterInvoke op) (client.invokeCalls op)) :
    (client.invoked op).Sat Q fun _ => True := by
  unfold invoked Client.onInvoke Client.doSend Timer.set addU32
  simp only [sat_bind, sat_assert, sat_ite, sat_ok, sat_throw, sat_pure, sat_emit, Option.isNone_iff_eq_none,
    implies_true, and_true]
  exact fun hinvoke hseq htimerId => h hinvoke ⟨hseq, htimerId⟩

theorem Settled.drained (h : client.Settled) : client.drained.Settled := ⟨h.sender, h.upcall⟩

theorem rerun_settled (h : client.Settled) (fuel : Nat) : client.rerun fuel = pure client := by
  cases fuel with
  | zero => rfl
  | succ fuel => rw [rerun, if_pos ⟨h.sender, h.upcall⟩]

theorem rerun_invoke {op : Payload} (hs : client.closeLoop.sender = [op]) (hu : client.state.upcall = []) (fuel : Nat) :
    client.rerun (fuel + 1) = client.invoked op := by
  rw [rerun, if_neg (by simp [hs])]
  unfold invoked
  simp only [hs, drainSender, bind_assoc, pure_bind]
  have hupcall : (client.state.onInvoke op client.timer).Sat (fun out _ => out.1.upcall = []) fun _ => True := by
    unfold Client.onInvoke Client.doSend addU32 Timer.set addU32
    simp [sat_ite, hu]
  refine bind_congr_of_sat hupcall fun out _ hout => ?_
  obtain ⟨⟨id, addr, seq, invoke, net, upcall⟩, timer⟩ := out
  obtain rfl : upcall = [] := hout
  simp only [drainUpcall, pure_bind]
  exact rerun_settled ⟨rfl, rfl⟩ fuel

theorem rerun_upcall {id : UInt32} {result : Payload} (hs : client.closeLoop.sender = [])
    (hu : client.state.upcall = [(id, result)]) :
    client.rerun rounds = (do
      let closeLoop ← client.closeLoop.onInvokeOk (.deliver id result) result
      { client with state := { client.state with upcall := [] }, closeLoop := closeLoop }.rerun 1) := by
  obtain ⟨state, timer, ⟨sender, workload, attach, done⟩⟩ := client
  obtain rfl : sender = [] := hs
  change state.upcall = _ at hu
  rw [rounds, rerun, if_neg (by simp [hu])]
  simp only [hu, drainSender, drainUpcall, pure_bind, bind_assoc]

/-- The rule of an accepted reply: the workload is at its end, or the next
operation is invoked in the same step. -/
theorem accepted_sat {timer : Timer} {result : Payload} (hsettled : client.Settled)
    {Q : ClientState W → List Observed → Prop}
    (hdone : ∀ attach w w', client.closeLoop.workloadAttach = some attach →
      Workload.onResult client.closeLoop.workload result attach = .ok w → Workload.nextOp w = .ok (none, w') →
      Q (client.finished timer w') [.deliver client.state.id result])
    (hnext : ∀ attach w op attach' w', client.closeLoop.workloadAttach = some attach →
      Workload.onResult client.closeLoop.workload result attach = .ok w →
      Workload.nextOp w = .ok (some (op, attach'), w') → (client.continued timer w' attach').Room →
      Q ((client.continued timer w' attach').afterInvoke op)
        (.deliver client.state.id result :: (client.continued timer w' attach').invokeCalls op)) :
    (do
      let closeLoop ← client.closeLoop.onInvokeOk (.deliver client.state.id result) result
      (client.answered timer closeLoop).rerun 1 : Handler (ClientState W)).Sat Q fun _ => True := by
  rw [sat_bind]
  refine CloseLoop.onInvokeOk_sat (fun attach w w' hattach hw hop => ?_) fun attach w op attach' w' hattach hw hop => ?_
  · have hfinished : (client.finished timer w').Settled := ⟨hsettled.sender, hsettled.upcall⟩
    have hrerun := rerun_settled hfinished 1
    unfold finished at hrerun hdone
    rw [hrerun]
    exact hdone attach w w' hattach hw hop
  · rw [hsettled.sender, List.nil_append]
    have hsender : (client.answered timer { client.closeLoop with
        workload := w', workloadAttach := some attach', sender := [op] }).closeLoop.sender = [op] := rfl
    have hrerun := rerun_invoke hsender hsettled.upcall 0
    rw [hrerun]
    exact invoked_sat fun _ hroom => hnext attach w op attach' w' hattach hw hop ⟨hroom.seq, hroom.timerId⟩

end

end ClientState

namespace State

/-- The messages in the nets of the clients. -/
def nets (clients : List (ClientState W)) : Finset MessageEvent := (clients.flatMap fun client => client.state.net).toFinset

theorem nets_cons (client : ClientState W) (clients : List (ClientState W)) :
    nets (client :: clients) = client.state.net.toFinset ∪ nets clients := by
  rw [nets, List.flatMap_cons, List.toFinset_append, nets]

theorem flushClients_settled {clients : List (ClientState W)} (h : ∀ client ∈ clients, client.Settled)
    (messageEvents : Finset MessageEvent) :
    flushClients clients messageEvents = pure (clients.map ClientState.drained, messageEvents ∪ nets clients) := by
  induction clients generalizing messageEvents with
  | nil => simp [flushClients, nets]
  | cons first clients ih =>
    have hfirst : ({ first with state := { first.state with net := [] } } : ClientState W).rerun ClientState.rounds =
        pure first.drained := ClientState.rerun_settled (h first List.mem_cons_self).drained _
    rw [flushClients, hfirst, pure_bind, ih fun c hc => h c (List.mem_cons_of_mem _ hc), pure_bind, nets_cons,
      Finset.union_assoc]
    rfl

theorem set_getElem? {α : Type} {l : List α} {index : Nat} {a : α} (h : l[index]? = some a) : l.set index a = l := by
  obtain ⟨hindex, rfl⟩ := List.getElem?_eq_some_iff.mp h
  exact List.set_getElem_self hindex

theorem nets_set {clients : List (ClientState W)} {index : Nat} {client : ClientState W}
    (h : clients[index]? = some client) (client' : ClientState W) (hnet : client'.state.net = client.state.net) :
    nets (clients.set index client') = nets clients := by
  have hmap : (clients.set index client').map (fun client => client.state.net) =
      clients.map fun client => client.state.net := by
    rw [List.map_set, hnet]
    exact set_getElem? (by rw [List.getElem?_map, h]; rfl)
  rw [nets, List.flatMap_def, hmap, ← List.flatMap_def, nets]

/-- `flush` on clients of which at most the one at `index` is not settled. -/
theorem flushClients_set {clients : List (ClientState W)} (h : ∀ client ∈ clients, client.Settled)
    (client : ClientState W) (index : Nat) (hindex : index < clients.length) (messageEvents : Finset MessageEvent) :
    flushClients (clients.set index client) messageEvents = (do
      let client' ← client.drained.rerun ClientState.rounds
      return ((clients.map ClientState.drained).set index client',
        messageEvents ∪ nets (clients.set index client))) := by
  induction clients generalizing index messageEvents with
  | nil => exact absurd hindex (Nat.not_lt_zero _)
  | cons first clients ih =>
    have hrest : ∀ client ∈ clients, client.Settled := fun c hc => h c (List.mem_cons_of_mem _ hc)
    cases index with
    | zero =>
      rw [List.set_cons_zero, flushClients]
      refine bind_congr fun client' => ?_
      rw [flushClients_settled hrest, pure_bind, nets_cons, Finset.union_assoc]
      rfl
    | succ index =>
      rw [List.set_cons_succ, flushClients]
      have hfirst : ({ first with state := { first.state with net := [] } } : ClientState W).rerun ClientState.rounds =
          pure first.drained := ClientState.rerun_settled (h first List.mem_cons_self).drained _
      rw [hfirst, pure_bind, ih hrest index (Nat.lt_of_succ_lt_succ hindex), bind_assoc, nets_cons, ← Finset.union_assoc]
      simp only [pure_bind]
      rfl

theorem flushClients_eq_ok {clients clients' : List (ClientState W)} {messageEvents messageEvents' : Finset MessageEvent}
    {es : List Observed} (h : flushClients clients messageEvents = .ok (clients', messageEvents') es) :
    ∃ outs : List (ClientState W × List Observed),
      List.Forall₂ (fun client out => client.drained.rerun ClientState.rounds = .ok out.1 out.2) clients outs ∧
      clients' = outs.map Prod.fst ∧ es = outs.flatMap Prod.snd ∧
      messageEvents' = messageEvents ∪ nets clients := by
  induction clients generalizing clients' messageEvents messageEvents' es with
  | nil =>
    cases h
    exact ⟨[], .nil, rfl, rfl, by simp [nets]⟩
  | cons client clients ih =>
    rw [flushClients, bind_eq_ok] at h
    obtain ⟨client', es₁, es₂, hclient, h, rfl⟩ := h
    rw [bind_eq_ok] at h
    obtain ⟨⟨rest, events⟩, es₃, es₄, hrest, h, rfl⟩ := h
    cases h
    obtain ⟨outs, hall, rfl, rfl, rfl⟩ := ih hrest
    refine ⟨(client', es₁) :: outs, .cons hclient hall, rfl, ?_, ?_⟩
    · rw [List.flatMap_cons, List.append_nil]
    · rw [nets_cons, Finset.union_assoc]

/-! ## Launch -/

/-- `client'` is `client` with the first operation of its workload in the sender. -/
def Inits (client client' : ClientState W) : Prop :=
  ∃ op attach workload, Workload.nextOp client.closeLoop.workload = .ok (some (op, attach), workload) ∧
    client.closeLoop.workloadAttach = none ∧ client' = { client with closeLoop := { client.closeLoop with
      workload := workload, workloadAttach := some attach, sender := client.closeLoop.sender ++ [op] } }

/-- A client that is launched, and its calls. -/
def Launches (client : ClientState W) (out : ClientState W × List Observed) : Prop :=
  ∃ op attach workload, Workload.nextOp client.closeLoop.workload = .ok (some (op, attach), workload) ∧
    client.closeLoop.workloadAttach = none ∧ client.state.invoke = none ∧ (client.launched workload attach).Room ∧
    out = ((client.launched workload attach).afterInvoke op, (client.launched workload attach).invokeCalls op)

theorem initClients_eq_ok {clients clients' : List (ClientState W)} {es : List Observed}
    (h : initClients clients = .ok clients' es) : List.Forall₂ Inits clients clients' ∧ es = [] := by
  induction clients generalizing clients' es with
  | nil =>
    cases h
    exact ⟨.nil, rfl⟩
  | cons client clients ih =>
    rw [initClients, bind_eq_ok] at h
    obtain ⟨closeLoop, es₁, es₂, hloop, h, rfl⟩ := h
    rw [bind_eq_ok] at h
    obtain ⟨rest, es₃, es₄, hrest, h, rfl⟩ := h
    cases h
    obtain ⟨hall, rfl⟩ := ih hrest
    have hinits : client.closeLoop.onInit.Sat
        (fun closeLoop es => Inits client { client with closeLoop := closeLoop } ∧ es = ([] : List Observed))
        fun _ => True := by
      unfold CloseLoop.onInit
      rw [sat_bind, sat_ofExcept]
      refine ⟨fun next hnext => ?_, fun _ _ => trivial⟩
      obtain ⟨_ | ⟨op, attach⟩, workload⟩ := next
      · trivial
      · simp only [sat_bind, sat_assert, sat_pure, Option.isNone_iff_eq_none, implies_true, and_true,
          List.append_nil]
        exact fun hattach => ⟨op, attach, workload, hnext, hattach, rfl⟩
    rw [hloop] at hinits
    obtain ⟨hinits, rfl⟩ := hinits
    exact ⟨.cons hinits hall, rfl⟩

theorem Inits.launches {client client' : ClientState W} (h : Inits client client') (hsettled : client.Settled)
    {out : ClientState W × List Observed} (hrerun : client'.drained.rerun ClientState.rounds = .ok out.1 out.2) :
    Launches client out := by
  obtain ⟨op, attach, workload, hop, hattach, rfl⟩ := h
  rw [ClientState.rounds, hsettled.sender, List.nil_append,
    ClientState.rerun_invoke (by rfl) (by exact hsettled.upcall)] at hrerun
  have hinvoked : ((client.launched workload attach).invoked op).Sat (fun c es => Launches client (c, es))
      fun _ => True := ClientState.invoked_sat fun hinvoke hroom =>
    ⟨op, attach, workload, hop, hattach, hinvoke, hroom, rfl⟩
  have hsame : (client.launched workload attach).invoked op = .ok out.1 out.2 := hrerun
  rw [hsame] at hinvoked
  exact hinvoked

theorem launch_eq_ok {self self' : State W} {es : List Observed} (h : ∀ client ∈ self.clients, client.Settled)
    (hlaunch : self.launch = .ok self' es) :
    ∃ outs, List.Forall₂ Launches self.clients outs ∧ es = outs.flatMap Prod.snd ∧
      self' = {
        clients := outs.map Prod.fst
        replica := { self.replica with net := [] }
        messageEvents := self.messageEvents ∪ self.replica.net.toFinset ∪ nets self.clients } := by
  rw [launch, bind_eq_ok] at hlaunch
  obtain ⟨clients, es₁, es₂, hinit, hflush, rfl⟩ := hlaunch
  obtain ⟨hclients, rfl⟩ := initClients_eq_ok hinit
  rw [flush, bind_eq_ok] at hflush
  obtain ⟨⟨clients', messageEvents'⟩, es₃, es₄, hflush, hself, rfl⟩ := hflush
  cases hself
  obtain ⟨outs, hall, rfl, rfl, rfl⟩ := flushClients_eq_ok hflush
  have hboth : ∀ {l l' outs}, (∀ client ∈ l, ClientState.Settled client) → List.Forall₂ Inits l l' →
      List.Forall₂ (fun (client : ClientState W) out => client.drained.rerun ClientState.rounds =
        Outcome.ok out.1 out.2) l' outs → List.Forall₂ Launches l outs ∧ nets l' = nets l := by
    intro l l' outs hl hinits hreruns
    induction hinits generalizing outs with
    | nil =>
      cases hreruns
      exact ⟨.nil, rfl⟩
    | cons hc _ ih =>
      obtain _ | ⟨hrerun, hrest⟩ := hreruns
      obtain ⟨hrest, hnets⟩ := ih (fun c hc => hl c (List.mem_cons_of_mem _ hc)) hrest
      refine ⟨.cons (hc.launches (hl _ List.mem_cons_self) hrerun) hrest, ?_⟩
      obtain ⟨op, attach, workload, -, -, rfl⟩ := hc
      rw [nets_cons, nets_cons, hnets]
  obtain ⟨hlaunches, hnets⟩ := hboth h hclients hall
  exact ⟨outs, hlaunches, by simp, by rw [← hnets]⟩

/-! ## Steps of a state whose clients are settled -/

/-- What `flush` leaves when no client has anything to handle. -/
def flushed (self : State W) : State W where
  clients := self.clients.map ClientState.drained
  replica := { self.replica with net := [] }
  messageEvents := self.messageEvents ∪ self.replica.net.toFinset ∪ nets self.clients

section
variable {self : State W}

theorem flush_settled (h : ∀ client ∈ self.clients, client.Settled) : self.flush = pure self.flushed := by
  rw [flush, flushClients_settled h, pure_bind]
  rfl

theorem flush_set (h : ∀ client ∈ self.clients, client.Settled) {index : Nat} (hindex : index < self.clients.length)
    (client : ClientState W) :
    State.flush { self with clients := self.clients.set index client } = (do
      let client' ← client.drained.rerun ClientState.rounds
      return { self.flushed with
        clients := self.flushed.clients.set index client'
        messageEvents := self.messageEvents ∪ self.replica.net.toFinset ∪ nets (self.clients.set index client) }) := by
  rw [flush, flushClients_set h client index hindex, bind_assoc]
  simp only [pure_bind]
  rfl

variable [SerdeJson]

theorem step_request (h : ∀ client ∈ self.clients, client.Settled) (request : Request Addr) :
    self.step (.message ⟨.replica, .request request⟩) = (do
      let replica ← self.replica.onRecv request
      return { self with replica := replica }.flushed) := by
  unfold step
  refine bind_congr fun replica => ?_
  exact flush_settled h

variable {index : Nat} {client : ClientState W}

theorem step_reply (hclient : self.clients[index]? = some client) (reply : Reply) :
    self.step (.message ⟨.client index, .reply reply⟩) = (do
      let (state, timer) ← client.state.onRecv reply client.timer
      State.flush { self with clients := self.clients.set index { client with state := state, timer := timer } }) := by
  unfold step onClient
  simp only [hclient, bind_assoc, pure_bind]

theorem step_reply_ignored (h : ∀ client ∈ self.clients, client.Settled) (hclient : self.clients[index]? = some client)
    {reply : Reply} (hreply : reply.seq ≠ client.state.seq ∨ client.state.invoke = none) :
    self.step (.message ⟨.client index, .reply reply⟩) = pure self.flushed := by
  have hrecv : client.state.onRecv reply client.timer = pure (client.state, client.timer) := by
    unfold Client.onRecv
    by_cases hseq : reply.seq = client.state.seq
    · rw [if_neg (not_not.mpr hseq), hreply.resolve_left (not_not.mpr hseq)]
    · rw [if_pos hseq]
  rw [step_reply hclient, hrecv, pure_bind]
  dsimp only
  rw [set_getElem? hclient]
  exact flush_settled h

theorem step_reply_accepted (h : ∀ client ∈ self.clients, client.Settled)
    (hclient : self.clients[index]? = some client) {reply : Reply} (hseq : reply.seq = client.state.seq)
    {invoke : ClientInvoke} (hinvoke : client.state.invoke = some invoke) :
    self.step (.message ⟨.client index, .reply reply⟩) = (do
      let timer ← client.timer.unset invoke.resendTimer
      let closeLoop ← client.closeLoop.onInvokeOk (.deliver client.state.id reply.result) reply.result
      let client' ← (client.answered timer closeLoop).rerun 1
      return { self.flushed with clients := self.flushed.clients.set index client' }) := by
  have hsettled := h client (List.mem_of_getElem? hclient)
  rw [step_reply hclient, Client.onRecv, if_neg (not_not.mpr hseq), hinvoke]
  simp only [bind_assoc, pure_bind]
  refine bind_congr fun timer => ?_
  rw [flush_set h (List.getElem?_eq_some_iff.mp hclient).1, nets_set hclient _ (by rfl)]
  obtain ⟨⟨id, addr, seq, _, net, upcall⟩, _, loop⟩ := client
  obtain rfl : upcall = [] := hsettled.upcall
  let waiting : ClientState W := ⟨⟨id, addr, seq, none, [], [(id, reply.result)]⟩, timer, loop⟩
  have hsender : waiting.closeLoop.sender = [] := hsettled.sender
  have hupcall : waiting.state.upcall = [(id, reply.result)] := rfl
  have hrerun := ClientState.rerun_upcall hsender hupcall
  exact (congrArg (· >>= _) hrerun).trans (bind_assoc ..)

theorem step_timer (h : ∀ client ∈ self.clients, client.Settled) (hclient : self.clients[index]? = some client)
    {timer : Timer} {timerId : TimerId} (htimer : client.timer.stepTimer timerId = (pure timer : Handler Timer))
    {op : Payload} (hinvoke : client.state.invoke = some ⟨op, timerId⟩) :
    self.step (.timer ⟨timerId, index⟩) = .ok
      (State.flushed { self with clients := self.clients.set index { client with
        state := { client.state with net := client.state.net ++ [client.state.message op] }, timer := timer } })
      [.send (client.state.message op)] := by
  have hsettled := h client (List.mem_of_getElem? hclient)
  have hon : client.state.onTimer timerId = (.ok { client.state with
      net := client.state.net ++ [client.state.message op] } [.send (client.state.message op)] : Handler Client) := by
    unfold Client.onTimer Client.doSend
    simp only [hinvoke, Outcome.assert, if_true, ok_bind]
    exact (ok_bind_ok rfl).trans (by rw [← hinvoke]; rfl)
  unfold step onClient
  simp only [hclient, bind_assoc, pure_bind, htimer, hon]
  refine (ok_bind_ok (flush_settled fun c hc => ?_)).trans (by rw [List.append_nil])
  rcases List.mem_or_eq_of_mem_set hc with hc | rfl
  · exact h c hc
  · exact ⟨hsettled.sender, hsettled.upcall⟩

/-- The rule of a step: a request or an ignored reply, a timer, and a reply
that a client has waited for. -/
theorem step_sat (h : ∀ client ∈ self.clients, client.Settled) {event : Event}
    {Q : State W → List Observed → Prop}
    (hrequest : ∀ request, event = .message ⟨.replica, .request request⟩ →
      (self.replica.onRecv request).Sat (fun replica es => Q { self with replica := replica }.flushed es) fun _ => True)
    (hignored : ∀ index client reply, event = .message ⟨.client index, .reply reply⟩ →
      self.clients[index]? = some client → reply.seq ≠ client.state.seq ∨ client.state.invoke = none →
      Q self.flushed [])
    (htimer : ∀ index client timerId op event', event = .timer ⟨timerId, index⟩ →
      self.clients[index]? = some client → client.timer.pending.find? (·.1 = timerId.id) = some event' →
      client.state.invoke = some ⟨op, timerId⟩ →
      Q (State.flushed { self with clients := self.clients.set index { client with
        state := { client.state with net := client.state.net ++ [client.state.message op] }
        timer := { client.timer with pending := (client.timer.without timerId).pending ++ [event'] } } })
        [.send (client.state.message op)])
    (haccepted : ∀ index client reply invoke event', event = .message ⟨.client index, .reply reply⟩ →
      self.clients[index]? = some client → reply.seq = client.state.seq → client.state.invoke = some invoke →
      client.timer.pending.find? (·.1 = invoke.resendTimer.id) = some event' →
      (do
        let closeLoop ← client.closeLoop.onInvokeOk (.deliver client.state.id reply.result) reply.result
        (client.answered (client.timer.without invoke.resendTimer) closeLoop).rerun 1 : Handler (ClientState W)).Sat
        (fun client' es => Q { self.flushed with clients := self.flushed.clients.set index client' } es)
        fun _ => True) :
    (self.step event).Sat Q fun _ => True := by
  obtain ⟨⟨dest, message⟩⟩ | ⟨⟨timerId, index⟩⟩ := event
  · cases message with
    | request request =>
      cases dest with
      | client index => trivial
      | replica =>
        rw [step_request h, sat_bind]
        exact (hrequest request rfl).mono (fun _ _ hQ => by simpa using hQ) fun _ _ => trivial
    | reply reply =>
      cases dest with
      | replica => trivial
      | client index =>
        cases hclient : self.clients[index]? with
        | none =>
          unfold step onClient
          simp only [hclient]
          trivial
        | some client =>
          by_cases hwait : reply.seq = client.state.seq ∧ client.state.invoke ≠ none
          · obtain ⟨hseq, hinvoke⟩ := hwait
            obtain ⟨invoke, hinvoke⟩ := Option.ne_none_iff_exists'.mp hinvoke
            rw [step_reply_accepted h hclient hseq hinvoke, sat_bind]
            refine Timer.unset_sat fun event' hfind => ?_
            have := haccepted index client reply invoke event' rfl hclient hseq hinvoke hfind
            rw [← bind_assoc, sat_bind]
            exact this.mono (fun _ _ hQ => by simpa using hQ) fun _ _ => trivial
          · have hidle : reply.seq ≠ client.state.seq ∨ client.state.invoke = none := by tauto
            rw [step_reply_ignored h hclient hidle]
            exact hignored index client reply rfl hclient hidle
  · cases hclient : self.clients[index]? with
    | none =>
      unfold step onClient
      simp only [hclient]
      trivial
    | some client =>
      cases hinvoke : client.state.invoke with
      | none =>
        unfold step onClient Client.onTimer
        simp only [hclient, hinvoke, sat_bind, sat_throw]
        exact Timer.stepTimer_sat fun _ _ => trivial
      | some invoke =>
        obtain ⟨op, resendTimer⟩ := invoke
        by_cases hid : resendTimer = timerId
        · subst hid
          cases hfind : client.timer.pending.find? (·.1 = resendTimer.id) with
          | none =>
            unfold step onClient Timer.stepTimer Timer.remove
            simp only [hclient, hfind]
            trivial
          | some event' =>
            rw [step_timer h hclient (Timer.stepTimer_eq hfind) hinvoke]
            exact htimer index client resendTimer op event' rfl hclient hfind hinvoke
        · unfold step onClient Client.onTimer
          simp only [hclient, hinvoke, sat_bind, sat_assert, hid, false_implies, true_and]
          exact Timer.stepTimer_sat fun _ _ => by simp

end

end State

end

end Neatworks.Unreplicated
