import Neatworks.UnreplicatedProgress
import Neatworks.UnreplicatedQuiet

/-!
# The progress of all clients

The invariant of the model checker: after every step each client is tracked,
no message is from or for anyone else, and the store is what the operations
that have been executed make of a new one.
-/

namespace Neatworks

/-- The store executes these operations, with these results. -/
def KVStore.Runs [SerdeJson] : KVStore → List (Payload × Payload) → KVStore → Prop
  | store, [], store' => store' = store
  | store, (op, result) :: calls, store' => ∃ next, App.execute store op = some (next, result) ∧ KVStore.Runs next calls store'

theorem KVStore.Runs.snoc [SerdeJson] {store store' store'' : KVStore} {calls : List (Payload × Payload)} {op result : Payload}
    (h : store.Runs calls store') (hexecute : App.execute store' op = some (store'', result)) :
    store.Runs (calls ++ [(op, result)]) store'' := by
  induction calls generalizing store with
  | nil =>
    cases h
    exact ⟨store'', hexecute, rfl⟩
  | cons call calls ih =>
    obtain ⟨next, hnext, hrest⟩ := h
    exact ⟨next, hnext, ih hrest⟩

namespace Unreplicated

open Outcome

/-- The calls of `app.execute`, with their results. -/
def executions (history : List Observed) : List (Payload × Payload) := history.filterMap fun
  | .execute request result => some (request.op, result)
  | _ => none

@[simp] theorem executions_append (history es : List Observed) :
    executions (history ++ es) = executions history ++ executions es := List.filterMap_append

/-! ## The replica -/

theorem Replica.onRecv_sat [SerdeJson] {self : Replica KVStore} {request : Request Addr}
    {Q : Replica KVStore → List Observed → Prop}
    (hignored : ∀ reply, self.replies request.clientId = some reply → request.seq < reply.seq → Q self [])
    (hresend : ∀ reply, self.replies request.clientId = some reply → reply.seq = request.seq →
      Q { self with net := self.net ++ [⟨request.clientAddr, .reply reply⟩] } [.send ⟨request.clientAddr, .reply reply⟩])
    (hexecute : (∀ reply, self.replies request.clientId = some reply → ¬ request.seq < reply.seq ∧ reply.seq ≠ request.seq) →
      ∀ app result, App.execute self.app request.op = some (app, result) →
        Q { app := app
            replies := Function.update self.replies request.clientId (some ⟨request.seq, result⟩)
            net := self.net ++ [⟨request.clientAddr, .reply ⟨request.seq, result⟩⟩] }
          [.execute request result, .send ⟨request.clientAddr, .reply ⟨request.seq, result⟩⟩]) :
    (self.onRecv request).Sat Q fun _ => True := by
  have hrun : (∀ reply, self.replies request.clientId = some reply → ¬ request.seq < reply.seq ∧ reply.seq ≠ request.seq) →
      (self.execute request).Sat Q fun _ => True := by
    intro hlater
    unfold execute send
    split
    · trivial
    · next app result happ =>
      simp only [sat_bind, sat_emit, sat_pure, List.append_nil]
      exact hexecute hlater app result happ
  unfold onRecv
  split
  · next hnone =>
    refine hrun fun reply hreply => ?_
    rw [hnone] at hreply
    cases hreply
  · next reply hreply =>
    rw [sat_ite, sat_ite]
    refine ⟨fun hlt => hignored reply hreply hlt, fun hnot => ⟨fun heq => hresend reply hreply heq, fun hne => ?_⟩⟩
    refine hrun fun reply' hreply' => ?_
    rw [hreply] at hreply'
    cases hreply'
    exact ⟨hnot, hne⟩

theorem filter_flatMap {α β : Type} {l : List α} {f : α → List β} {p : β → Bool} {index : Nat} {a : α}
    (h : l[index]? = some a) (hother : ∀ j b, j ≠ index → l[j]? = some b → ∀ e ∈ f b, p e = false) :
    (l.flatMap f).filter p = (f a).filter p := by
  have hnil : ∀ b, (∀ e ∈ f b, p e = false) → (f b).filter p = [] := fun b hb =>
    List.filter_eq_nil_iff.mpr fun e he => by
      rw [hb e he]
      exact Bool.false_ne_true
  induction l generalizing index with
  | nil => cases h
  | cons b l ih =>
    rw [List.flatMap_cons, List.filter_append]
    cases index with
    | zero =>
      cases h
      have hrest : (l.flatMap f).filter p = [] := by
        rw [List.filter_flatMap, List.flatMap_eq_nil_iff]
        intro c hc
        obtain ⟨j, hj⟩ := List.getElem?_of_mem hc
        exact hnil c (hother (j + 1) c (Nat.succ_ne_zero _) hj)
      rw [hrest, List.append_nil]
    | succ index =>
      rw [hnil b (hother 0 b (Nat.succ_ne_zero _).symm rfl), List.nil_append]
      exact ih h fun j c hj hc => hother (j + 1) c (fun heq => hj (Nat.succ_injective heq)) hc

section
variable {W : Type} [Workload W]

/-! ## Launch -/

def fresh (index : Nat) (workload : W) : ClientState W where
  state := { id := clientId index, addr := .client index }
  closeLoop := { workload := workload }

theorem ofWorkloads_eq_ok {workloads : List W} {s : State W} {es : List Observed}
    (h : State.ofWorkloads workloads = .ok s es) :
    s = { clients := workloads.mapIdx fresh, replica := { app := KVStore.new } } ∧ workloads.length + 1000 ≤ 2 ^ 32 := by
  unfold State.ofWorkloads at h
  induction workloads using List.reverseRecOn generalizing s es with
  | nil =>
    cases h
    refine ⟨rfl, ?_⟩
    rw [List.length_nil]
    decide
  | append_singleton workloads w ih =>
    rw [List.foldlM_append, bind_eq_ok] at h
    obtain ⟨s₁, es₁, es₂, hfirst, hpush, rfl⟩ := h
    obtain ⟨rfl, hlength⟩ := ih hfirst
    rw [List.foldlM_cons, bind_eq_ok] at hpush
    obtain ⟨s₂, es₃, es₄, hpush, hs, rfl⟩ := hpush
    cases hs
    unfold State.pushClient at hpush
    rw [bind_eq_ok] at hpush
    obtain ⟨id, es₅, es₆, hid, hs, rfl⟩ := hpush
    cases hs
    obtain ⟨rfl, _, hroom⟩ := addU32_eq_ok hid
    dsimp only at hroom ⊢
    rw [List.length_mapIdx] at hroom ⊢
    have hlt : workloads.length < 2 ^ 32 := by omega
    rw [UInt32.toNat_ofNat_of_lt' hlt] at hroom
    refine ⟨?_, ?_⟩
    · rw [List.mapIdx_concat]
      rfl
    · rw [List.length_append, List.length_singleton]
      exact hroom

theorem launches_tracks {index : Nat} {w₀ : W} {out : ClientState W × List Observed} (h : State.Launches (fresh index w₀) out) :
    ∃ p, Tracks w₀ index out.1 none ∅ (out.2.filter (Observed.ofClient (clientId index))) p := by
  obtain ⟨op, attach, w, hnext, _, _, _, rfl⟩ := h
  refine ⟨⟨[], .invoked op attach⟩, .start hnext, ?_, ?_, rfl, fun _ hmem => absurd hmem (Finset.notMem_empty _), ?_⟩
  · unfold Progress.count
    simp [Stage.current]
  · simp [fresh, ClientState.launched, ClientState.afterInvoke, Progress.client, Progress.count, Progress.net, Stage.current,
      ClientState.drained, Client.message, requestEvent, requestOf]
  · simp [ClientState.invokeCalls, Observed.ofClient, Progress.view, ClientState.launched, fresh, ClientState.drained]

theorem launches_ofClient {index : Nat} {w₀ : W} {out : ClientState W × List Observed} (h : State.Launches (fresh index w₀) out) :
    executions out.2 = [] ∧ ∀ id, id ≠ clientId index → ∀ e ∈ out.2, e.ofClient id = false := by
  obtain ⟨op, attach, w, _, _, _, _, rfl⟩ := h
  refine ⟨rfl, fun id hne e he => ?_⟩
  simp only [ClientState.invokeCalls, List.mem_cons, List.not_mem_nil, or_false] at he
  rcases he with rfl | rfl
  · change decide (clientId index = id) = false
    simp [Ne.symm hne]
  · rfl

theorem nets_fresh (workloads : List W) : State.nets (workloads.mapIdx fresh) = ∅ := by
  refine Finset.eq_empty_of_forall_notMem fun message hmem => ?_
  obtain ⟨client, hclient, hnet⟩ := mem_nets.mp hmem
  obtain ⟨index, w, _, rfl⟩ := List.mem_mapIdx.mp hclient
  cases hnet

/-! ## The invariant -/

def ClientState.resent (client : ClientState W) (op : Payload) (timer : Timer) : ClientState W :=
  { client with state := { client.state with net := client.state.net ++ [client.state.message op] }, timer := timer }

theorem mem_nets_resent {clients : List (ClientState W)} {index : Nat} {client : ClientState W}
    (hclient : clients[index]? = some client) (op : Payload) (timer : Timer) (message : MessageEvent) :
    message ∈ State.nets (clients.set index (client.resent op timer)) ↔
      message = client.state.message op ∨ message ∈ State.nets clients := by
  have hset := List.mem_set (List.getElem?_eq_some_iff.mp hclient).1 (client.resent op timer)
  constructor
  · intro hmem
    obtain ⟨c, hc, hnet⟩ := mem_nets.mp hmem
    rcases List.mem_or_eq_of_mem_set hc with hc | rfl
    · exact Or.inr (mem_nets.mpr ⟨c, hc, hnet⟩)
    · rcases List.mem_append.mp hnet with hnet | hnet
      · exact Or.inr (mem_nets.mpr ⟨client, List.mem_of_getElem? hclient, hnet⟩)
      · exact Or.inl (List.mem_singleton.mp hnet)
  · intro hmem
    rcases hmem with rfl | hmem
    · exact mem_nets.mpr ⟨_, hset, List.mem_append_right _ (List.mem_singleton_self _)⟩
    · exact nets_subset_set hclient (List.subset_append_left _ _) hmem

variable [SerdeJson]

structure Tracked (workloads : List W) (ps : Nat → Progress (Attach W)) (s : State W) (history : List Observed) : Prop where
  length : s.clients.length = workloads.length
  few : workloads.length < 2 ^ 32
  replica : s.replica.net = []
  owners : ∀ message ∈ s.messageEvents, ∃ index < workloads.length, message.owner = .client index
  clients : ∀ index w₀ client, workloads[index]? = some w₀ → s.clients[index]? = some client →
    Tracks w₀ index client (s.replica.replies (clientId index)) s.messageEvents
      (history.filter (Observed.ofClient (clientId index))) (ps index)
  executed : ∀ request result, .execute request result ∈ history →
    ∃ index < workloads.length, request.clientId = clientId index
  sequential : KVStore.new.Runs (executions history) s.replica.app

namespace Tracked

variable {workloads : List W} {ps : Nat → Progress (Attach W)} {s : State W} {history : List Observed}

theorem workload (h : Tracked workloads ps s history) {index : Nat} {client : ClientState W}
    (hclient : s.clients[index]? = some client) : ∃ w₀, workloads[index]? = some w₀ := by
  have hindex := (List.getElem?_eq_some_iff.mp hclient).1
  rw [h.length] at hindex
  exact ⟨_, List.getElem?_eq_getElem hindex⟩

theorem client (h : Tracked workloads ps s history) {index : Nat} (hindex : index < workloads.length) :
    ∃ w₀ client, workloads[index]? = some w₀ ∧ s.clients[index]? = some client :=
  ⟨_, _, List.getElem?_eq_getElem hindex, List.getElem?_eq_getElem (h.length ▸ hindex)⟩

theorem settled (h : Tracked workloads ps s history) : ∀ client ∈ s.clients, client.Settled := by
  intro client hmem
  obtain ⟨index, hclient⟩ := List.getElem?_of_mem hmem
  obtain ⟨w₀, hw⟩ := h.workload hclient
  exact (h.clients index w₀ client hw hclient).settled

theorem mem_nets (h : Tracked workloads ps s history) {message : MessageEvent} (hmem : message ∈ State.nets s.clients) :
    ∃ index client, s.clients[index]? = some client ∧ message ∈ client.state.net ∧ message.owner = .client index := by
  obtain ⟨client, hclient, hnet⟩ := Unreplicated.mem_nets.mp hmem
  obtain ⟨index, hclient⟩ := List.getElem?_of_mem hclient
  obtain ⟨w₀, hw⟩ := h.workload hclient
  exact ⟨index, client, hclient, hnet, ((h.clients index w₀ client hw hclient).mem_net hnet).owner⟩

/-- A client that is tracked before its net is drained is tracked after it. -/
theorem drained (h : Tracked workloads ps s history) {index : Nat} {w₀ : W} {client : ClientState W}
    (hclient : s.clients[index]? = some client) {stored : Option Reply} {view : List Observed} {p : Progress (Attach W)}
    (htracks : Tracks w₀ index client stored s.messageEvents view p) {extra messageEvents : Finset MessageEvent}
    (hextra : ∀ message ∈ extra, message.owner = .client index → p.Valid index message)
    (hevents : ∀ message, message ∈ messageEvents ↔ message ∈ s.messageEvents ∨ message ∈ extra ∨ message ∈ State.nets s.clients) :
    Tracks w₀ index client.drained stored messageEvents view p := by
  refine htracks.drained (fun message hmem => (hevents message).mpr (Or.inl hmem)) (fun message hmem => ?_)
    fun message hmem howner => ?_
  · refine (hevents message).mpr (Or.inr (Or.inr ?_))
    exact Unreplicated.mem_nets.mpr ⟨client, List.mem_of_getElem? hclient, hmem⟩
  · rcases (hevents message).mp hmem with hmem | hmem | hmem
    · exact Or.inl hmem
    · exact Or.inr (hextra message hmem howner)
    · obtain ⟨index', client', hclient', hnet, howner'⟩ := h.mem_nets hmem
      rw [howner] at howner'
      cases howner'
      rw [hclient] at hclient'
      cases hclient'
      exact Or.inr (htracks.mem_net hnet)

theorem next (h : Tracked workloads ps s history) {index : Nat} (hindex : index < workloads.length) {s' : State W}
    {es : List Observed} {extra : Finset MessageEvent} {p : Progress (Attach W)}
    (hlength : s'.clients.length = s.clients.length) (hnet : s'.replica.net = [])
    (hevents : ∀ message, message ∈ s'.messageEvents ↔
      message ∈ s.messageEvents ∨ message ∈ extra ∨ message ∈ State.nets s.clients)
    (hextra : ∀ message ∈ extra, message.owner = .client index)
    (hothers : ∀ j client, j ≠ index → s.clients[j]? = some client → s'.clients[j]? = some client.drained)
    (hreplies : ∀ id, id ≠ clientId index → s'.replica.replies id = s.replica.replies id)
    (hes : ∀ e ∈ es, ∀ id, id ≠ clientId index → e.ofClient id = false)
    (hself : ∀ w₀ client client', workloads[index]? = some w₀ → s.clients[index]? = some client →
      s'.clients[index]? = some client' → Tracks w₀ index client' (s'.replica.replies (clientId index)) s'.messageEvents
        (history.filter (Observed.ofClient (clientId index)) ++ es.filter (Observed.ofClient (clientId index))) p)
    (hsequential : KVStore.new.Runs (executions history ++ executions es) s'.replica.app) :
    Tracked workloads (Function.update ps index p) s' (history ++ es) := by
  refine ⟨hlength.trans h.length, h.few, hnet, fun message hmem => ?_, fun j w₀ client' hw hclient' => ?_,
    fun request result hmem => ?_, ?_⟩
  · rcases (hevents message).mp hmem with hmem | hmem | hmem
    · exact h.owners message hmem
    · exact ⟨index, hindex, hextra message hmem⟩
    · obtain ⟨j, client, hclient, _, howner⟩ := h.mem_nets hmem
      exact ⟨j, h.length ▸ (List.getElem?_eq_some_iff.mp hclient).1, howner⟩
  · have hj := (List.getElem?_eq_some_iff.mp hw).1
    rw [List.filter_append]
    by_cases heq : j = index
    · subst heq
      obtain ⟨_, client, hw', hclient⟩ := h.client hj
      rw [Function.update_self]
      exact hself w₀ client client' hw hclient hclient'
    · obtain ⟨_, client, _, hclient⟩ := h.client hj
      have hid : clientId j ≠ clientId index := fun hid =>
        heq (clientId_inj (hj.trans h.few) (hindex.trans h.few) hid)
      have hnone : es.filter (Observed.ofClient (clientId j)) = [] := List.filter_eq_nil_iff.mpr fun e he => by
        rw [hes e he _ hid]
        exact Bool.false_ne_true
      rw [hothers j client heq hclient] at hclient'
      cases hclient'
      rw [Function.update_of_ne heq, hreplies _ hid, hnone, List.append_nil]
      refine h.drained hclient (h.clients j w₀ client hw hclient) (fun message hmem howner => ?_) hevents
      rw [hextra message hmem] at howner
      cases howner
      exact absurd rfl heq
  · rcases List.mem_append.mp hmem with hmem | hmem
    · exact h.executed request result hmem
    · refine ⟨index, hindex, ?_⟩
      by_contra hne
      have hfalse := hes _ hmem _ hne
      simp [Observed.ofClient] at hfalse
  · rw [executions_append]
    exact hsequential

/-- A step of the replica, or one that changes nothing. -/
theorem flushed (h : Tracked workloads ps s history) {index : Nat} (hindex : index < workloads.length)
    (replica : Replica KVStore) {es : List Observed} {p : Progress (Attach W)}
    (hnet : ∀ message ∈ replica.net, p.Valid index message)
    (hreplies : ∀ id, id ≠ clientId index → replica.replies id = s.replica.replies id)
    (hes : ∀ e ∈ es, ∀ id, id ≠ clientId index → e.ofClient id = false)
    (hself : ∀ w₀ client, workloads[index]? = some w₀ → s.clients[index]? = some client →
      Tracks w₀ index client (replica.replies (clientId index)) s.messageEvents
        (history.filter (Observed.ofClient (clientId index)) ++ es.filter (Observed.ofClient (clientId index))) p)
    (hsequential : KVStore.new.Runs (executions history ++ executions es) replica.app) :
    Tracked workloads (Function.update ps index p) (State.flushed { s with replica := replica }) (history ++ es) := by
  have hdrained : ∀ (j : Nat) client, s.clients[j]? = some client →
      (State.flushed { s with replica := replica }).clients[j]? = some client.drained := by
    intro j client hclient
    unfold State.flushed
    rw [List.getElem?_map, hclient]
    rfl
  have hevents : ∀ message, message ∈ (State.flushed { s with replica := replica }).messageEvents ↔
      message ∈ s.messageEvents ∨ message ∈ replica.net.toFinset ∨ message ∈ State.nets s.clients := by
    intro message
    unfold State.flushed
    rw [Finset.mem_union, Finset.mem_union, or_assoc]
  refine h.next hindex (by simp [State.flushed]) rfl hevents (fun message hmem => (hnet _ (List.mem_toFinset.mp hmem)).owner)
    (fun j client _ hclient => hdrained j client hclient) hreplies hes (fun w₀ client client' hw hclient hclient' => ?_)
    hsequential
  rw [hdrained index client hclient] at hclient'
  cases hclient'
  exact h.drained hclient (hself w₀ client hw hclient) (fun message hmem _ => hnet _ (List.mem_toFinset.mp hmem)) hevents

theorem ignored (h : Tracked workloads ps s history) {index : Nat} (hindex : index < workloads.length) :
    Tracked workloads (Function.update ps index (ps index)) s.flushed (history ++ []) := by
  refine h.flushed hindex s.replica (fun message hmem => ?_) (fun _ _ => rfl)
    (fun e he => absurd he List.not_mem_nil) (fun w₀ client hw hclient => ?_) ?_
  · rw [h.replica] at hmem
    cases hmem
  · rw [List.filter_nil, List.append_nil]
    exact h.clients index w₀ client hw hclient
  · exact (List.append_nil _).symm ▸ h.sequential

theorem request (h : Tracked workloads ps s history) {request : Request Addr}
    (hmem : ⟨.replica, .request request⟩ ∈ s.messageEvents) :
    (s.replica.onRecv request).Sat (fun replica es =>
      ∃ ps', Tracked workloads ps' (State.flushed { s with replica := replica }) (history ++ es)) fun _ => True := by
  obtain ⟨index, hindex, howner⟩ := h.owners _ hmem
  obtain ⟨w₀, client, hw, hclient⟩ := h.client hindex
  have htracks := h.clients index w₀ client hw hclient
  obtain ⟨k, op, rfl, hk⟩ := (htracks.messages _ hmem howner).request rfl
  have hstored : s.replica.replies (requestOf index k op).clientId = (ps index).stored := htracks.stored
  refine Replica.onRecv_sat (fun reply hreply hlt => ⟨_, h.ignored hindex⟩) (fun reply hreply heq => ?_) fun hlater app result happ => ?_
  · rw [hstored] at hreply
    obtain ⟨i, call, hcall, _, rfl⟩ := Progress.stored_eq_some hreply
    refine ⟨_, h.flushed hindex _ (p := ps index) (fun message hmem => ?_) (fun _ _ => rfl) (fun e he id _ => ?_)
      (fun w₀ client hw hclient => ?_) ?_⟩
    · rw [h.replica] at hmem
      cases List.mem_singleton.mp hmem
      exact .reply hcall
    · cases List.mem_singleton.mp he
      rfl
    · exact (List.append_nil _).symm ▸ h.clients index w₀ client hw hclient
    · exact (List.append_nil _).symm ▸ h.sequential
  · have hcount := htracks.count
    have hcalls := (ps index).calls_length_le
    have hle : (ps index).calls.length ≤ k := by
      by_contra hlt
      obtain ⟨last, hlast⟩ := Progress.stored_of_lt (Nat.not_le.mp hlt)
      obtain ⟨hnot, hne⟩ := hlater _ (hstored.trans hlast)
      have hk32 : k + 1 < 2 ^ 32 := by omega
      have hn32 : (ps index).calls.length < 2 ^ 32 := by omega
      have hge : ¬ k + 1 < (ps index).calls.length := by
        intro hgt
        refine hnot (UInt32.lt_iff_toNat_lt.mpr ?_)
        change (UInt32.ofNat (k + 1)).toNat < (UInt32.ofNat _).toNat
        rw [UInt32.toNat_ofNat_of_lt' hk32, UInt32.toNat_ofNat_of_lt' hn32]
        exact hgt
      have heq : (ps index).calls.length = k + 1 := by omega
      have hsame : UInt32.ofNat (ps index).calls.length = UInt32.ofNat (k + 1) := congrArg UInt32.ofNat heq
      exact hne hsame
    obtain ⟨rfl, attach, hstage⟩ := Progress.invoked_of_le hk hle
    refine ⟨_, h.flushed hindex _ (p := ⟨(ps index).past, .executed op attach result⟩) (fun message hmem => ?_)
      (fun id hid => ?_) (fun e he id hid => ?_) (fun w₀' client' hw' hclient' => ?_) ?_⟩
    · rw [h.replica] at hmem
      cases List.mem_singleton.mp hmem
      have hcall : ((ps index).past ++ [(op, result)])[(ps index).past.length]? = some (op, result) :=
        List.getElem?_concat_length
      exact Progress.Valid.reply (p := ⟨(ps index).past, .executed op attach result⟩) hcall
    · have hne : id ≠ (requestOf index (ps index).past.length op).clientId := hid
      dsimp only
      rw [Function.update_of_ne hne]
    · rcases List.mem_cons.mp he with rfl | he
      · rw [Observed.ofClient]
        exact decide_eq_false hid.symm
      · cases List.mem_singleton.mp he
        rfl
    · have hinvoked := h.clients index w₀' client' hw' hclient'
      rw [show ps index = ⟨(ps index).past, .invoked op attach⟩ by rw [← hstage]] at hinvoked
      have hfilter : ∀ message, [.execute (requestOf index (ps index).past.length op) result, .send message].filter
          (Observed.ofClient (clientId index)) = [.execute (requestOf index (ps index).past.length op) result] := by
        intro message
        simp [Observed.ofClient, requestOf]
      rw [hfilter]
      have hid : (requestOf index (ps index).past.length op).clientId = clientId index := rfl
      dsimp only
      rw [hid, Function.update_self]
      exact hinvoked.execute result
    · exact h.sequential.snoc happ

theorem timer (h : Tracked workloads ps s history) {index : Nat} {client : ClientState W} {invoke : ClientInvoke}
    {event : UInt32 × Nat} (hclient : s.clients[index]? = some client) (hinvoke : client.state.invoke = some invoke)
    (hfind : client.timer.pending.find? (·.1 = invoke.resendTimer.id) = some event) :
    Tracked workloads (Function.update ps index (ps index))
      (State.flushed { s with clients := s.clients.set index (client.resent invoke.op
        { client.timer with pending := (client.timer.without invoke.resendTimer).pending ++ [event] }) })
      (history ++ [.send (client.state.message invoke.op)]) := by
  obtain ⟨w₀, hw⟩ := h.workload hclient
  obtain ⟨attach, hwaiting⟩ := (h.clients index w₀ client hw hclient).waiting hinvoke
  have hvalid : (ps index).Valid index (client.state.message invoke.op) := by
    rw [hwaiting.message]
    exact .current hwaiting.current
  rw [hwaiting.resend hfind]
  obtain ⟨s', hs'⟩ : ∃ s', State.flushed { s with clients := s.clients.set index (client.resent invoke.op client.timer) } = s' :=
    ⟨_, rfl⟩
  have hevents : ∀ message, message ∈ s'.messageEvents ↔
      message ∈ s.messageEvents ∨ message ∈ ({client.state.message invoke.op} : Finset MessageEvent) ∨
        message ∈ State.nets s.clients := by
    intro message
    rw [← hs', Finset.mem_singleton, ← mem_nets_resent hclient invoke.op client.timer]
    unfold State.flushed
    rw [h.replica, List.toFinset_nil, Finset.union_empty, Finset.mem_union]
  have hdrained : ∀ (j : Nat) (c : ClientState W), s.clients[j]? = some c → s'.clients[j]? = some c.drained := by
    intro j c hc
    rw [← hs']
    unfold State.flushed
    rw [List.getElem?_map]
    by_cases hj : j = index
    · subst hj
      rw [hclient] at hc
      cases hc
      rw [List.getElem?_set_self (List.getElem?_eq_some_iff.mp hclient).1]
      rfl
    · rw [List.getElem?_set_ne (Ne.symm hj), hc]
      rfl
  rw [hs']
  refine h.next (List.getElem?_eq_some_iff.mp hw).1 (by simp [← hs', State.flushed]) (by rw [← hs']; rfl) hevents
    (fun message hmem => ?_) (fun j c _ hc => hdrained j c hc) (fun _ _ => by rw [← hs']; rfl) (fun e he _ _ => ?_)
    (fun w₀' c c' hw' hc hc' => ?_) ?_
  · rw [Finset.mem_singleton.mp hmem]
    exact hvalid.owner
  · cases List.mem_singleton.mp he
    rfl
  · rw [hdrained index c hc] at hc'
    cases hc'
    refine h.drained hc ?_ (fun message hmem _ => ?_) hevents
    · rw [← hs']
      exact (List.append_nil _).symm ▸ h.clients index w₀' c hw' hc
    · rw [Finset.mem_singleton.mp hmem]
      exact hvalid
  · rw [← hs']
    exact (List.append_nil _).symm ▸ h.sequential

theorem mem_flushed (h : Tracked workloads ps s history) (message : MessageEvent) :
    message ∈ s.flushed.messageEvents ↔
      message ∈ s.messageEvents ∨ message ∈ (∅ : Finset MessageEvent) ∨ message ∈ State.nets s.clients := by
  unfold State.flushed
  rw [h.replica, List.toFinset_nil, Finset.union_empty, Finset.mem_union, ← or_assoc, or_iff_left (Finset.notMem_empty _)]

theorem set (h : Tracked workloads ps s history) {index : Nat} {w₀ : W} {client client' : ClientState W}
    (hw : workloads[index]? = some w₀) (hclient : s.clients[index]? = some client) {es view : List Observed}
    {p : Progress (Attach W)} (hes : ∀ e ∈ es, ∀ id, id ≠ clientId index → e.ofClient id = false)
    (hexecutions : executions es = []) (hview : es.filter (Observed.ofClient (clientId index)) = view)
    (hself : Tracks w₀ index client' (s.replica.replies (clientId index)) s.flushed.messageEvents
      (history.filter (Observed.ofClient (clientId index)) ++ view) p) :
    Tracked workloads (Function.update ps index p) { s.flushed with clients := s.flushed.clients.set index client' }
      (history ++ es) := by
  have hlength : s.flushed.clients.length = s.clients.length := by
    unfold State.flushed
    rw [List.length_map]
  have hindex : index < s.flushed.clients.length := by
    rw [hlength]
    exact (List.getElem?_eq_some_iff.mp hclient).1
  refine h.next (List.getElem?_eq_some_iff.mp hw).1 (by rw [List.length_set, hlength]) rfl h.mem_flushed
    (fun message hmem => absurd hmem (Finset.notMem_empty _)) (fun j c hj hc => ?_) (fun _ _ => rfl) hes
    (fun w₀' c c' hw' hc hc' => ?_) ?_
  · rw [List.getElem?_set_ne (Ne.symm hj)]
    unfold State.flushed
    rw [List.getElem?_map, hc]
    rfl
  · rw [List.getElem?_set_self hindex] at hc'
    rw [hw] at hw'
    cases hc'
    cases hw'
    rw [hview]
    exact hself
  · rw [hexecutions, List.append_nil]
    exact h.sequential

theorem accepted (h : Tracked workloads ps s history) {index : Nat} {client : ClientState W} {reply : Reply}
    {invoke : ClientInvoke} (hclient : s.clients[index]? = some client)
    (hmem : ⟨.client index, .reply reply⟩ ∈ s.messageEvents) (hseq : reply.seq = client.state.seq)
    (hinvoke : client.state.invoke = some invoke) :
    (do
      let closeLoop ← client.closeLoop.onInvokeOk (.deliver client.state.id reply.result) reply.result
      (client.answered (client.timer.without invoke.resendTimer) closeLoop).rerun 1 : Handler (ClientState W)).Sat
      (fun client' es => ∃ ps', Tracked workloads ps' { s.flushed with clients := s.flushed.clients.set index client' }
        (history ++ es)) fun _ => True := by
  obtain ⟨w₀, hw⟩ := h.workload hclient
  have htracks := h.clients index w₀ client hw hclient
  obtain ⟨attach, hwaiting⟩ := htracks.waiting hinvoke
  obtain ⟨k, call, hcall, rfl⟩ := (htracks.messages _ hmem rfl).reply_call rfl
  have hcalls := (List.getElem?_eq_some_iff.mp hcall).1
  have hle := (ps index).calls_length_le
  have hcount := htracks.count
  have hk : k + 1 = (ps index).past.length + 1 := by
    have heq := hwaiting.count
    rw [hwaiting.seq] at hseq
    exact ofNat_inj (by omega) (by omega) hseq
  obtain rfl := Nat.succ_injective hk
  have hstage := hwaiting.executed hcall
  have hid : client.state.id = clientId index := by
    rw [htracks.client]
    rfl
  have hdrained := h.drained hclient htracks (fun message hmem => absurd hmem (Finset.notMem_empty _)) h.mem_flushed
  rw [show ps index = ⟨(ps index).past, .executed invoke.op attach call.2⟩ by rw [← hstage]] at hdrained
  rw [hwaiting.timerId]
  refine ClientState.accepted_sat htracks.settled (fun attach₁ w w' hattach hresult hnext => ?_)
    fun attach₁ w op' attach' w' hattach hresult hnext hroom => ?_
  · obtain rfl := Option.some_inj.mp (hattach.symm.trans hwaiting.attach)
    refine ⟨_, h.set hw hclient (fun e he id hne => ?_) rfl ?_ (hdrained.finish hresult hnext)⟩
    · cases List.mem_singleton.mp he
      simp [Observed.ofClient, hid, Ne.symm hne]
    · simp [Observed.ofClient, hid]
  · obtain rfl := Option.some_inj.mp (hattach.symm.trans hwaiting.attach)
    have hroom' : (ps index).past.length + 2 < 2 ^ 32 := by
      have hseq := hroom.seq
      change client.state.seq.toNat + 1 < 2 ^ 32 at hseq
      have hlt : (ps index).past.length + 1 < 2 ^ 32 := hwaiting.count ▸ hcount
      rw [hwaiting.seq, UInt32.toNat_ofNat_of_lt' hlt] at hseq
      exact hseq
    refine ⟨_, h.set hw hclient (fun e he id hne => ?_) rfl ?_ (hdrained.advance hresult hnext hroom')⟩
    · simp only [ClientState.invokeCalls, List.mem_cons, List.not_mem_nil, or_false] at he
      rcases he with rfl | rfl | rfl
      · simp [Observed.ofClient, hid, Ne.symm hne]
      · change decide (client.state.id = id) = false
        simp [hid, Ne.symm hne]
      · rfl
    · change [Observed.deliver client.state.id call.2, .invoke client.state.id op', .send _].filter _ = _
      simp [Observed.ofClient, hid]

theorem step (h : Tracked workloads ps s history) {event : Event} (hevent : event ∈ s.events) :
    (s.step event).Sat (fun s' es => ∃ ps', Tracked workloads ps' s' (history ++ es)) fun _ => True := by
  refine State.step_sat h.settled (fun request heq => ?_) (fun index client reply heq hclient _ => ?_)
    (fun index client timerId op event' heq hclient hfind hinvoke => ⟨_, h.timer hclient hinvoke hfind⟩)
    fun index client reply invoke event' heq hclient hseq hinvoke _ => ?_
  · rw [heq] at hevent
    exact h.request (mem_events.mp hevent)
  · have hindex := (List.getElem?_eq_some_iff.mp hclient).1
    exact ⟨_, h.ignored (h.length ▸ hindex)⟩
  · rw [heq] at hevent
    exact h.accepted hclient (mem_events.mp hevent) hseq hinvoke

end Tracked

/-! ## Runs -/

theorem tracked_launch {workloads : List W} {s s' : State W} {history : List Observed}
    (hof : State.ofWorkloads workloads = .ok s []) (hlaunch : s.launch = .ok s' history) :
    ∃ ps, Tracked workloads ps s' history := by
  obtain ⟨rfl, hfew⟩ := ofWorkloads_eq_ok hof
  have hsettled : ∀ client ∈ workloads.mapIdx fresh, client.Settled := by
    intro client hmem
    obtain ⟨index, w, _, rfl⟩ := List.mem_mapIdx.mp hmem
    exact ⟨rfl, rfl⟩
  obtain ⟨outs, hall, rfl, rfl⟩ := State.launch_eq_ok hsettled hlaunch
  have hlength : outs.length = workloads.length := by
    rw [← hall.length_eq, List.length_mapIdx]
  have hlt : workloads.length < 2 ^ 32 := by omega
  have hget : ∀ {index : Nat} {out}, outs[index]? = some out → ∃ w₀, workloads[index]? = some w₀ ∧
      State.Launches (fresh index w₀) out := by
    intro index out hout
    obtain ⟨hindex, rfl⟩ := List.getElem?_eq_some_iff.mp hout
    have hw : index < workloads.length := hlength ▸ hindex
    refine ⟨workloads[index], List.getElem?_eq_getElem hw, ?_⟩
    have hlaunches := hall.get (by rw [List.length_mapIdx]; exact hw) hindex
    simpa using hlaunches
  have htracks : ∀ index, ∃ p, ∀ w₀ out, workloads[index]? = some w₀ → outs[index]? = some out →
      Tracks w₀ index out.1 none ∅ (out.2.filter (Observed.ofClient (clientId index))) p := by
    intro index
    cases hout : outs[index]? with
    | none => exact ⟨{}, fun _ _ _ h => nomatch h⟩
    | some out =>
      obtain ⟨w₀, hw, hlaunches⟩ := hget hout
      obtain ⟨p, hp⟩ := launches_tracks hlaunches
      refine ⟨p, fun w₀' out' hw' hout' => ?_⟩
      rw [hw] at hw'
      cases hw'
      cases hout'
      exact hp
  choose ps hps using htracks
  have hempty : (∅ : Finset MessageEvent) ∪ ([] : List MessageEvent).toFinset ∪ State.nets (workloads.mapIdx fresh) = ∅ := by
    rw [nets_fresh]
    rfl
  refine ⟨ps, by simp [hlength], hlt, rfl, fun message hmem => ?_, fun index w₀ client hw hclient => ?_,
    fun request result hmem => ?_, ?_⟩
  · rw [hempty] at hmem
    exact absurd hmem (Finset.notMem_empty _)
  · rw [List.getElem?_map, Option.map_eq_some_iff] at hclient
    obtain ⟨out, hout, rfl⟩ := hclient
    rw [hempty, filter_flatMap hout fun j out' hj hout' e he => ?_]
    · exact hps index w₀ out hw hout
    · obtain ⟨w', hw', hlaunches⟩ := hget hout'
      refine (launches_ofClient hlaunches).2 _ (fun hid => hj ?_) e he
      exact clientId_inj ((List.getElem?_eq_some_iff.mp hw').1.trans hlt) ((List.getElem?_eq_some_iff.mp hw).1.trans hlt)
        hid.symm
  · obtain ⟨out, hout, hmem⟩ := List.mem_flatMap.mp hmem
    obtain ⟨index, hout⟩ := List.getElem?_of_mem hout
    obtain ⟨w₀, hw, hlaunches⟩ := hget hout
    refine ⟨index, (List.getElem?_eq_some_iff.mp hw).1, ?_⟩
    by_contra hne
    have hfalse := (launches_ofClient hlaunches).2 _ hne _ hmem
    simp [Observed.ofClient] at hfalse
  · have hnone : executions (outs.flatMap Prod.snd) = [] := by
      unfold executions
      rw [List.filterMap_flatMap, List.flatMap_eq_nil_iff]
      intro out hout
      obtain ⟨index, hout⟩ := List.getElem?_of_mem hout
      obtain ⟨w₀, _, hlaunches⟩ := hget hout
      exact (launches_ofClient hlaunches).1
    rw [hnone]
    rfl

theorem tracked_reach {workloads : List W} {run : Run W} (h : (checkMachine workloads).Reach Machine.always run) :
    ∃ ps, Tracked workloads ps run.state run.history := by
  refine h.invariant (I := fun run => ∃ ps, Tracked workloads ps run.state run.history) ?_ ?_
  · intro run hinit
    obtain ⟨s, hof, hlaunch⟩ := hinit
    exact tracked_launch hof hlaunch
  · intro run event run' _ htracked _ hnext
    obtain ⟨ps, htracked⟩ := htracked
    obtain ⟨hevent, es, hstep, hhistory⟩ := hnext
    have hsat := htracked.step hevent
    rw [hstep] at hsat
    rw [hhistory]
    exact hsat

end

end Unreplicated

end Neatworks
