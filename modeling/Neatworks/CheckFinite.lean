import Mathlib.Algebra.Order.BigOperators.Group.Finset
import Neatworks.CheckPredicted
import Neatworks.SearchFinite

/-!
# Searches of finite workloads

A step of the model checker counts something on or leaves the state as it is, so
finite workloads have finitely many states. As long as a client waits, its timer,
its request or the reply to it changes the state. Hence a search for the end of
all workloads ends and finds it, and one that is pruned there exhausts the space.
-/

namespace Neatworks.Unreplicated

open Outcome

section
variable {W : Type} [Workload W]

/-! ## What a step counts -/

def ClientState.rank (client : ClientState W) : Nat :=
  client.state.seq.toNat + if client.state.invoke.isNone then 1 else 0

/-- What the client and the replica have counted of it. -/
def State.rankAt (self : State W) (index : Nat) : Nat :=
  (self.clients[index]?.map ClientState.rank).getD 0 +
    ((self.replica.replies (clientId index)).map fun reply => reply.seq.toNat).getD 0

def State.rank (self : State W) : Nat :=
  self.messageEvents.card + ((List.range self.clients.length).map self.rankAt).sum

theorem sum_map_range_le {f g : Nat → Nat} {n : Nat} (hle : ∀ i, f i ≤ g i) :
    ((List.range n).map f).sum ≤ ((List.range n).map g).sum :=
  List.sum_le_sum fun i _ => hle i

theorem sum_map_range_lt {f g : Nat → Nat} {n i : Nat} (hle : ∀ i, f i ≤ g i) (hi : i < n) (hlt : f i < g i) :
    ((List.range n).map f).sum < ((List.range n).map g).sum :=
  List.sum_lt_sum f g (fun i _ => hle i) ⟨i, List.mem_range.mpr hi, hlt⟩

variable {T : Type} [DryWorkload W T]

variable (T) in
/-- Clients and replica are dry the same, or something has been counted. -/
structure State.Grown (s s' : State W) : Prop where
  length : s'.clients.length = s.clients.length
  messages : s.messageEvents ⊆ s'.messageEvents
  rank : ((s'.dry : DryState T).clients = s.dry.clients ∧ (s'.dry : DryState T).replica = s.dry.replica) ∨
    (∀ index, s.rankAt index ≤ s'.rankAt index) ∧ ∃ index < s.clients.length, s.rankAt index < s'.rankAt index

theorem rankAt_dry {s s' : State W} (hclients : (s'.dry : DryState T).clients = s.dry.clients)
    (hreplica : (s'.dry : DryState T).replica = s.dry.replica) (index : Nat) : s'.rankAt index = s.rankAt index := by
  have hreplies : s'.replica.replies = s.replica.replies := congrArg DryReplica.replies hreplica
  have hindex := congrArg (fun clients => (clients[index]?.map fun client : DryClientState T =>
    client.seq.toNat + if client.invoke.isNone then 1 else 0).getD 0) hclients
  simp only [State.dry, List.getElem?_map, Option.map_map] at hindex
  unfold State.rankAt
  rw [hreplies]
  exact congrArg (· + _) hindex

theorem State.Grown.dry_or_lt {s s' : State W} (h : s.Grown T s') :
    (s'.dry : DryState T) = s.dry ∨ s.rank < s'.rank := by
  have hcard := Finset.card_le_card h.messages
  rcases h.rank with ⟨hclients, hreplica⟩ | ⟨hle, index, hindex, hlt⟩
  · by_cases hmessages : s'.messageEvents = s.messageEvents
    · left
      exact DryState.mk.injEq .. ▸ ⟨hclients, hreplica, hmessages⟩
    · right
      have hcard := Finset.card_lt_card (lt_of_le_of_ne h.messages (Ne.symm hmessages))
      have hsum : ((List.range s.clients.length).map s.rankAt).sum = ((List.range s'.clients.length).map s'.rankAt).sum := by
        rw [h.length, funext (rankAt_dry hclients hreplica)]
      unfold State.rank
      omega
  · right
    have hsum := sum_map_range_lt hle hindex hlt
    rw [← h.length] at hsum
    unfold State.rank
    rw [← h.length]
    omega

/-! ## What a step leaves as it is -/

theorem dry_flushed (s : State W) :
    (s.flushed.dry : DryState T).clients = s.dry.clients ∧ (s.flushed.dry : DryState T).replica = s.dry.replica := by
  refine ⟨?_, rfl⟩
  simp only [State.dry, State.flushed, List.map_map]
  rfl

omit [DryWorkload W T] in
theorem subset_flushed (s : State W) : s.messageEvents ⊆ s.flushed.messageEvents := fun _ hmem =>
  Finset.mem_union_left _ (Finset.mem_union_left _ hmem)

omit [DryWorkload W T] in
theorem flushed_length (s : State W) : s.flushed.clients.length = s.clients.length := List.length_map ..

theorem grown_flushed (s : State W) : s.Grown T s.flushed :=
  ⟨flushed_length s, subset_flushed s, Or.inl (dry_flushed s)⟩

omit [DryWorkload W T] in
theorem rankAt_flushed (s : State W) (index : Nat) : s.flushed.rankAt index = s.rankAt index := by
  simp only [State.rankAt, State.flushed, List.getElem?_map, Option.map_map]
  rfl

omit [DryWorkload W T] in
theorem rankAt_set {s : State W} {index : Nat} {client client' : ClientState W} (hclient : s.clients[index]? = some client)
    (hlt : client.rank < client'.rank) : ∀ s' : State W, s'.clients = s.flushed.clients.set index client' →
      s'.replica.replies = s.replica.replies →
      (∀ i, s.rankAt i ≤ s'.rankAt i) ∧ s.rankAt index < s'.rankAt index := by
  intro s' hclients hreplies
  have hflushed : s.flushed.clients[index]? = some client.drained := by
    simp [State.flushed, hclient]
  have hset : s'.clients[index]? = some client' := by
    rw [hclients]
    exact List.getElem?_set_self (List.getElem?_eq_some_iff.mp hflushed).1
  have hself : s.rankAt index < s'.rankAt index := by
    unfold State.rankAt
    rw [hset, hclient, hreplies, Option.map_some, Option.map_some, Option.getD_some, Option.getD_some]
    omega
  refine ⟨fun i => ?_, hself⟩
  by_cases heq : i = index
  · rw [heq]
    exact hself.le
  · rw [← rankAt_flushed]
    unfold State.rankAt
    rw [hclients, List.getElem?_set_ne (Ne.symm heq), hreplies]
    exact Nat.le_refl _

/-! ## Every step -/

variable [SerdeJson] {workloads : List W} {ps : Nat → Progress (Attach W)} {s : State W} {history : List Observed}

theorem Tracked.grows_request (h : Tracked workloads ps s history) {request : Request Addr}
    (hmem : ⟨.replica, .request request⟩ ∈ s.messageEvents) :
    (s.replica.onRecv request).Sat (fun replica _ => s.Grown T (State.flushed { s with replica := replica })) fun _ => True := by
  obtain ⟨index, hindex, howner⟩ := h.owners _ hmem
  obtain ⟨w₀, client, hw, hclient⟩ := h.client hindex
  have htracks := h.clients index w₀ client hw hclient
  obtain ⟨k, op, rfl, hk⟩ := (htracks.messages _ hmem howner).request rfl
  have hseq : 0 < (requestOf index k op).seq.toNat := by
    have hcount := htracks.count
    have hle : k + 1 ≤ (ps index).count := by
      rcases hk with hlt | ⟨rfl, attach, hcurrent⟩
      · exact Nat.le_trans hlt (Nat.le_add_right _ _)
      · rw [Progress.count, hcurrent]
        exact Nat.le_refl _
    have hk32 : k + 1 < 2 ^ 32 := by omega
    change 0 < (UInt32.ofNat (k + 1)).toNat
    rw [UInt32.toNat_ofNat_of_lt' hk32]
    exact Nat.succ_pos k
  have hsame : ∀ net, s.Grown T (State.flushed { s with replica := { s.replica with net := net } }) := by
    intro net
    refine ⟨flushed_length _, fun _ hmem => subset_flushed _ hmem, Or.inl ?_⟩
    exact dry_flushed { s with replica := { s.replica with net := net } }
  refine Replica.onRecv_sat (fun reply _ _ => hsame s.replica.net) (fun reply _ _ => hsame _) fun hlater app result _ => ?_
  refine ⟨flushed_length _, fun _ hmem => subset_flushed _ hmem, Or.inr ?_⟩
  obtain ⟨replies, hreplies⟩ : ∃ replies, Function.update s.replica.replies (requestOf index k op).clientId
      (some ⟨(requestOf index k op).seq, result⟩) = replies := ⟨_, rfl⟩
  rw [hreplies]
  have hlt : ((s.replica.replies (clientId index)).map fun reply => reply.seq.toNat).getD 0 <
      ((replies (clientId index)).map fun reply => reply.seq.toNat).getD 0 := by
    have hid : (requestOf index k op).clientId = clientId index := rfl
    rw [← hreplies, hid, Function.update_self, Option.map_some, Option.getD_some]
    cases hreply : s.replica.replies (clientId index) with
    | none => exact hseq
    | some reply =>
      obtain ⟨hnot, hne⟩ := hlater reply hreply
      have hnot := fun hlt => hnot (UInt32.lt_iff_toNat_lt.mpr hlt)
      have hne := fun heq => hne (UInt32.toNat_inj.mp heq)
      exact lt_of_le_of_ne (Nat.not_lt.mp hnot) hne
  have hle : ∀ i, ((s.replica.replies (clientId i)).map fun reply => reply.seq.toNat).getD 0 ≤
      ((replies (clientId i)).map fun reply => reply.seq.toNat).getD 0 := by
    intro i
    by_cases hid : clientId i = clientId index
    · rw [hid]
      exact hlt.le
    · have hne : clientId i ≠ (requestOf index k op).clientId := hid
      rw [← hreplies, Function.update_of_ne hne]
  refine ⟨fun i => ?_, index, h.length ▸ hindex, ?_⟩
  · rw [rankAt_flushed]
    exact Nat.add_le_add_left (hle i) _
  · rw [rankAt_flushed]
    exact Nat.add_lt_add_left hlt _

theorem Tracked.grows (h : Tracked workloads ps s history) {event : Event} (hevent : event ∈ s.events) :
    (s.step event).Sat (fun s' _ => s.Grown T s') fun _ => True := by
  refine State.step_sat h.settled (fun request heq => ?_) (fun _ _ _ _ _ _ => grown_flushed s)
    (fun index client timerId op event' _ hclient _ _ => ?_) fun index client reply invoke event' _ hclient _ hinvoke _ => ?_
  · rw [heq] at hevent
    exact h.grows_request (mem_events.mp hevent)
  · refine ⟨?_, fun _ hmem => subset_flushed _ hmem, Or.inl ?_⟩
    · rw [flushed_length, List.length_set]
    · refine ⟨(dry_flushed _).1.trans ?_, rfl⟩
      have hindex : (s.dry : DryState T).clients[index]? = some { client with
          id := client.state.id, addr := client.state.addr, seq := client.state.seq, invoke := client.state.invoke
          closeLoop := DryWorkload.dry client.closeLoop.workload } := by
        simp [State.dry, hclient]
      simp only [State.dry, List.map_set] at hindex ⊢
      exact State.set_getElem? hindex
  · have hset : ∀ {client' : ClientState W}, client.rank < client'.rank →
        s.Grown T { s.flushed with clients := s.flushed.clients.set index client' } := by
      intro client' hlt
      obtain ⟨hle, hself⟩ := rankAt_set hclient hlt { s.flushed with clients := s.flushed.clients.set index client' } rfl rfl
      refine ⟨?_, subset_flushed s, Or.inr ⟨hle, index, (List.getElem?_eq_some_iff.mp hclient).1, hself⟩⟩
      rw [List.length_set, flushed_length]
    have hrank : client.rank = client.state.seq.toNat := by
      rw [ClientState.rank, hinvoke]
      rfl
    refine ClientState.accepted_sat (h.settled client (List.mem_of_getElem? hclient)) (fun attach w w' _ _ _ => hset ?_)
      fun attach w op attach' w' _ _ _ hroom => hset ?_
    · rw [hrank]
      exact Nat.lt_succ_self _
    · rw [hrank]
      exact (Nat.lt_succ_self _).trans_eq (toNat_succ hroom.seq).symm

/-! ## What is counted is bounded -/

omit [DryWorkload W T] [SerdeJson] in
/-- The workload has at most `n` operations. -/
def AtMost (n : Nat) (w₀ : W) : Prop := ∀ past current w, Drives w₀ past current w → past.length ≤ n

omit [DryWorkload W T] in
theorem Tracked.rankAt_le (h : Tracked workloads ps s history) {n : Nat} (hfinite : ∀ w ∈ workloads, AtMost n w) {index : Nat}
    (hindex : index < workloads.length) : s.rankAt index ≤ 2 * n + 3 := by
  obtain ⟨w₀, client, hw, hclient⟩ := h.client hindex
  have htracks := h.clients index w₀ client hw hclient
  have hpast := hfinite w₀ (List.mem_of_getElem? hw) _ _ _ htracks.drives
  have hcount : (ps index).count ≤ n + 1 := by
    unfold Progress.count
    split <;> omega
  have hcalls := (ps index).calls_length_le
  have hrank : client.rank ≤ n + 2 := by
    rw [ClientState.rank, htracks.seq_toNat]
    split <;> omega
  have hreply : ((s.replica.replies (clientId index)).map fun reply => reply.seq.toNat).getD 0 ≤ n + 1 := by
    rw [htracks.stored, Progress.stored]
    cases (ps index).calls.getLast? with
    | none => exact Nat.zero_le _
    | some call =>
      change (UInt32.ofNat (ps index).calls.length).toNat ≤ n + 1
      rw [UInt32.toNat_ofNat']
      exact (Nat.mod_le _ _).trans (by omega)
  rw [State.rankAt, hclient, Option.map_some, Option.getD_some]
  omega

/-- The messages of a client that has invoked at most `n + 1` operations. -/
def Progress.messages {A : Type} (p : Progress A) (index n : Nat) : Finset MessageEvent :=
  (Finset.range (n + 1)).image (fun k => requestEvent index k (p.ops[k]?.getD [])) ∪
    (Finset.range (n + 1)).image fun k => replyEvent index k ((p.calls[k]?.map Prod.snd).getD [])

omit [SerdeJson] in
theorem Progress.messages_card_le {A : Type} (p : Progress A) (index n : Nat) : (p.messages index n).card ≤ 2 * (n + 1) := by
  have hrequests := Finset.card_image_le (s := Finset.range (n + 1)) (f := fun k => requestEvent index k (p.ops[k]?.getD []))
  have hreplies := Finset.card_image_le (s := Finset.range (n + 1))
    (f := fun k => replyEvent index k ((p.calls[k]?.map Prod.snd).getD []))
  have hunion := Finset.card_union_le _ _ |>.trans (Nat.add_le_add hrequests hreplies)
  rw [Finset.card_range] at hunion
  exact hunion.trans (by omega)

omit [SerdeJson] in
theorem Progress.Valid.mem_messages {A : Type} {p : Progress A} {index n : Nat} {message : MessageEvent}
    (h : p.Valid index message) (hpast : p.past.length ≤ n) : message ∈ p.messages index n := by
  refine Finset.mem_union.mpr ?_
  cases h with
  | @past k call hcall =>
    have hk := (List.getElem?_eq_some_iff.mp hcall).1
    refine Or.inl (Finset.mem_image.mpr ⟨k, Finset.mem_range.mpr (by omega), ?_⟩)
    rw [Progress.ops, List.getElem?_append_left (by rwa [List.length_map]), List.getElem?_map, hcall]
    rfl
  | @current op attach hcurrent =>
    refine Or.inl (Finset.mem_image.mpr ⟨p.past.length, Finset.mem_range.mpr (by omega), ?_⟩)
    rw [Progress.ops, List.getElem?_append_right (by rw [List.length_map]), List.length_map, Nat.sub_self, hcurrent]
    rfl
  | @reply k call hcall =>
    have hk := (List.getElem?_eq_some_iff.mp hcall).1
    have hcalls := p.calls_length_le
    have hcount : p.count ≤ p.past.length + 1 := by
      unfold Progress.count
      split <;> omega
    refine Or.inr (Finset.mem_image.mpr ⟨k, Finset.mem_range.mpr (by omega), ?_⟩)
    rw [hcall]
    rfl

omit [DryWorkload W T] in
theorem Tracked.messages_card_le (h : Tracked workloads ps s history) {n : Nat} (hfinite : ∀ w ∈ workloads, AtMost n w) :
    s.messageEvents.card ≤ workloads.length * (2 * (n + 1)) := by
  have hsubset : s.messageEvents ⊆ (Finset.range workloads.length).biUnion fun index => (ps index).messages index n := by
    intro message hmem
    obtain ⟨index, hindex, howner⟩ := h.owners _ hmem
    obtain ⟨w₀, client, hw, hclient⟩ := h.client hindex
    have htracks := h.clients index w₀ client hw hclient
    have hpast := hfinite w₀ (List.mem_of_getElem? hw) _ _ _ htracks.drives
    exact Finset.mem_biUnion.mpr ⟨index, Finset.mem_range.mpr hindex, (htracks.messages _ hmem howner).mem_messages hpast⟩
  have hcard := Finset.card_biUnion_le_card_mul (Finset.range workloads.length) (fun index => (ps index).messages index n)
    (2 * (n + 1)) fun index _ => (ps index).messages_card_le index n
  rw [Finset.card_range] at hcard
  exact (Finset.card_le_card hsubset).trans hcard

omit [DryWorkload W T] in
theorem Tracked.rank_le (h : Tracked workloads ps s history) {n : Nat} (hfinite : ∀ w ∈ workloads, AtMost n w) :
    s.rank ≤ workloads.length * (2 * (n + 1)) + workloads.length * (2 * n + 3) := by
  have hmessages := h.messages_card_le hfinite
  have hsum : ((List.range s.clients.length).map s.rankAt).sum ≤ workloads.length * (2 * n + 3) := by
    rw [h.length]
    have hle := List.sum_le_card_nsmul ((List.range workloads.length).map s.rankAt) (2 * n + 3) fun x hx => by
      obtain ⟨index, hindex, rfl⟩ := List.mem_map.mp hx
      exact h.rankAt_le hfinite (List.mem_range.mp hindex)
    rwa [List.length_map, List.length_range, Nat.nsmul_eq_mul] at hle
  unfold State.rank
  omega

theorem ranked (hrecover : Recoverable W (T := T)) {n : Nat} (hfinite : ∀ w ∈ workloads, AtMost n w) {run₀ : Run W}
    (hinit : (checkMachine workloads).init run₀) :
    Search.Ranked run₀.state State.rank (workloads.length * (2 * (n + 1)) + workloads.length * (2 * n + 3)) where
  le s hs := by
    obtain ⟨history, hreach⟩ := reachable_reach hinit hs
    obtain ⟨ps, htracked⟩ := tracked_reach hreach
    exact htracked.rank_le hfinite
  grows s event s' hs hevent hstep := by
    obtain ⟨history, hreach⟩ := reachable_reach hinit hs
    obtain ⟨history', hreach'⟩ := reachable_reach hinit (.step hs hevent hstep)
    obtain ⟨ps, htracked⟩ := tracked_reach hreach
    obtain ⟨es, hok⟩ := search_step_ok.mp hstep
    have hgrown := htracked.grows (T := T) hevent
    rw [hok] at hgrown
    rcases State.Grown.dry_or_lt hgrown with hdry | hlt
    · exact Or.inl (state_unique hrecover hreach' hreach hdry)
    · exact Or.inr hlt

/-! ## A client that waits -/

section
variable {index : Nat} {client : ClientState W} {invoke : ClientInvoke}

omit [DryWorkload W T] in
/-- The reply that a client waits for changes it. -/
theorem Tracked.reply_changes (h : Tracked workloads ps s history) (hclient : s.clients[index]? = some client)
    (hinvoke : client.state.invoke = some invoke) {reply : Reply} (hseq : reply.seq = client.state.seq) :
    (s.step (.message ⟨.client index, .reply reply⟩)).Sat (fun s' _ => s' ≠ s) fun _ => True := by
  have hchanged : ∀ {client' : ClientState W}, client'.rank ≠ client.rank →
      ({ s.flushed with clients := s.flushed.clients.set index client' } : State W) ≠ s := by
    intro client' hne heq
    have hset : (s.flushed.clients.set index client')[index]? = some client' := by
      refine List.getElem?_set_self ?_
      rw [flushed_length]
      exact (List.getElem?_eq_some_iff.mp hclient).1
    have hclients : s.flushed.clients.set index client' = s.clients := congrArg State.clients heq
    rw [hclients, hclient] at hset
    exact hne (by rw [Option.some.inj hset])
  have hrank : client.rank = client.state.seq.toNat := by
    rw [ClientState.rank, hinvoke]
    rfl
  refine State.step_sat h.settled (fun request heq => by cases heq) (fun index c reply' heq hc hidle => ?_)
    (fun index c timerId op event' heq => by cases heq) fun index c reply' invoke' event' heq hc hseq' hinvoke' _ => ?_
  · cases heq
    rw [hclient] at hc
    cases hc
    rw [hinvoke] at hidle
    exact absurd hidle (not_or.mpr ⟨not_not.mpr hseq, Option.some_ne_none _⟩)
  · cases heq
    rw [hclient] at hc
    cases hc
    refine ClientState.accepted_sat (h.settled client (List.mem_of_getElem? hclient)) (fun _ _ _ _ _ _ => hchanged ?_)
      fun _ _ _ _ _ _ _ _ hroom => hchanged ?_
    · rw [hrank]
      exact (Nat.lt_succ_self _).ne'
    · rw [hrank]
      exact ((Nat.lt_succ_self _).trans_eq (toNat_succ hroom.seq).symm).ne'

end

omit [DryWorkload W T] in
/-- Where every step leaves the state as it is, no client waits. -/
theorem Tracked.all_done (h : Tracked workloads ps s history)
    (hstays : ∀ event ∈ s.events, ∃ es, s.step event = .ok s es) : ∀ client ∈ s.clients, client.closeLoop.done = true := by
  intro client hmem
  obtain ⟨index, hclient⟩ := List.getElem?_of_mem hmem
  cases hinvoke : client.state.invoke with
  | none =>
    obtain ⟨w₀, hw⟩ := h.workload hclient
    have htracks := (h.clients index w₀ client hw hclient).client
    rw [htracks] at hinvoke ⊢
    exact Option.isNone_iff_eq_none.mpr (Option.map_eq_none_iff.mp hinvoke)
  | some invoke =>
    obtain ⟨s₁, es₁, hevent, hstep, hrequest, _⟩ := h.timer_sends hclient hinvoke
    obtain ⟨es, hsame⟩ := hstays _ hevent
    rw [hstep] at hsame
    cases hsame
    obtain ⟨es₂, hstep₂⟩ := hstays _ (mem_events.mpr hrequest)
    have hanswers := h.request_answers hclient hinvoke
    rw [hstep₂] at hanswers
    obtain ⟨⟨reply, hreply, hseq⟩, _⟩ := hanswers
    obtain ⟨es₃, hstep₃⟩ := hstays _ (mem_events.mpr hreply)
    have hchanges := h.reply_changes hclient hinvoke hseq
    rw [hstep₃] at hchanges
    exact absurd rfl hchanges

/-! ## Searches for the end -/

omit [DryWorkload W T] [SerdeJson] in
/-- `|state: &State<_>| state.clients.iter().all(|client| client.close_loop.done)`. -/
def State.allDone (self : State W) : Bool := self.clients.all (·.closeLoop.done)

omit [DryWorkload W T] [SerdeJson] in
def endSettings (invariant : State W → Except Error Unit) : Search.Settings (State W) Error where
  invariant := invariant
  goal := State.allDone
  prune := fun _ => false
  maxDepth := none

omit [DryWorkload W T] [SerdeJson] in
/-- The settings with the end as `prune`. -/
def prunedSettings (invariant : State W → Except Error Unit) : Search.Settings (State W) Error where
  invariant := invariant
  goal := fun _ => false
  prune := State.allDone
  maxDepth := none

omit [DryWorkload W T] [SerdeJson] in
theorem AtMost.short {n : Nat} {w₀ : W} (h : AtMost n w₀) (hn : n + 1 < 2 ^ 32) : Short w₀ := fun past call w hdrives => by
  have := h past (some call) w hdrives
  omega

omit [DryWorkload W T] in
theorem launch_not_done {run₀ : Run W} (hinit : (checkMachine workloads).init run₀) (hne : workloads ≠ []) :
    run₀.state.allDone = false := by
  obtain ⟨s, hof, hlaunch⟩ := hinit
  obtain ⟨rfl, _⟩ := ofWorkloads_eq_ok hof
  have hsettled : ∀ client ∈ workloads.mapIdx fresh, client.Settled := by
    intro client hmem
    obtain ⟨index, w, _, rfl⟩ := List.mem_mapIdx.mp hmem
    exact ⟨rfl, rfl⟩
  obtain ⟨outs, hall, _, hstate⟩ := State.launch_eq_ok hsettled hlaunch
  obtain ⟨w, rest, rfl⟩ := List.exists_cons_of_ne_nil hne
  rw [List.mapIdx_cons] at hall
  obtain ⟨out, outs', hlaunches, _, rfl⟩ := List.forall₂_cons_left_iff.mp hall
  obtain ⟨op, attach, workload, _, _, _, _, rfl⟩ := hlaunches
  rw [hstate]
  rfl

/-- If no step fails, all clients can come to their ends. -/
theorem exists_done (hrecover : Recoverable W (T := T)) {n : Nat} (hfinite : ∀ w ∈ workloads, AtMost n w) {run₀ : Run W}
    (hinit : (checkMachine workloads).init run₀)
    (hok : ∀ s, Search.Reachable run₀.state s → ∀ event ∈ Search.State.events s, ∃ s', Search.State.step s event = .ok s') :
    ∃ s, Search.Reachable run₀.state s ∧ s.allDone = true := by
  refine (ranked hrecover hfinite hinit).exists_reachable hok (fun s hs hstays => ?_) .initial
  obtain ⟨history, hreach⟩ := reachable_reach hinit hs
  obtain ⟨ps, htracked⟩ := tracked_reach hreach
  exact List.all_eq_true.mpr (htracked.all_done fun event hevent => search_step_ok.mp (hstays event hevent))

theorem StepsFit.finds (hsteps : StepsFit workloads) (hrecover : Recoverable W (T := T)) {n : Nat}
    (hfinite : ∀ w ∈ workloads, AtMost n w) (hn : n + 1 < 2 ^ 32) (hne : workloads ≠ []) {run₀ : Run W}
    (hinit : (checkMachine workloads).init run₀) {invariant : State W → Except Error Unit}
    (hholds : ∀ run, (checkMachine workloads).Reach Machine.always run → invariant run.state = .ok ()) :
    Search.Finds (State.dry : State W → DryState T) (endSettings invariant) run₀.state
        (fun r => ∃ s, r = .goalFound s ∧ Search.Reachable run₀.state s ∧ s.allDone = true) ∧
      Search.Finds (State.dry : State W → DryState T) (prunedSettings invariant) run₀.state (· = .spaceExhausted) := by
  have hranked := ranked hrecover hfinite hinit
  have hok : ∀ s, Search.Reachable run₀.state s → ∀ event ∈ Search.State.events s, ∃ s', Search.State.step s event = .ok s' := by
    intro s hs event hevent
    obtain ⟨history, hreach⟩ := reachable_reach hinit hs
    obtain ⟨ps, htracked⟩ := tracked_reach hreach
    have hroom := htracked.not_exhausts (fun w hw => (hfinite w hw).short hn) event
    obtain ⟨s', es, hstep⟩ := (hsteps _ hreach event hevent).mpr hroom
    exact ⟨s', search_step_ok.mpr ⟨es, hstep⟩⟩
  have hinvariant : ∀ s, Search.Reachable run₀.state s → invariant s = .ok () := by
    intro s hs
    obtain ⟨history, hreach⟩ := reachable_reach hinit hs
    exact hholds _ hreach
  exact ⟨Search.finds_goal (lawful hinit hrecover _) hranked hinvariant hok (exists_done hrecover hfinite hinit hok)
      (launch_not_done hinit hne) (fun _ _ => rfl) rfl,
    Search.finds_exhausted (lawful hinit hrecover _) hranked hinvariant hok fun _ => rfl⟩

end

/-! ## Clients that append -/

section
variable [SerdeJson] [ResultJson]

/-- The searches of clients that append to one key for the end of all of them:
one worker ends, having found it, or having exhausted what comes before it if it
is pruned; more workers return nothing else. -/
theorem append_search_ends {I : Type} [Iterator I Payload] {debug : Payload → String} {sort : List String → List String}
    {key : String} {workloads : List (Iter I)} (hreads : ReadsResults) (hsort : SortsByLen sort)
    (happends : AppendsTo key workloads) {n : Nat} (hfinite : ∀ w ∈ workloads.map Recorded.from, AtMost n w)
    (hn : n + 1 < 2 ^ 32) (hne : workloads ≠ []) {run₀ : Run (Recorded (Iter I))}
    (hinit : (checkMachine (workloads.map Recorded.from)).init run₀) :
    Search.Finds State.dry (endSettings (appendLinearizable debug sort)) run₀.state
        (fun r => ∃ s, r = .goalFound s ∧ Search.Reachable run₀.state s ∧ s.allDone = true) ∧
      Search.Finds State.dry (prunedSettings (appendLinearizable debug sort)) run₀.state (· = .spaceExhausted) :=
  (happends.stepsFit iter_oblivious hreads).finds (recorded_recoverable iter_recoverable) hfinite hn
    (fun hnil => hne (List.map_eq_nil_iff.mp hnil)) hinit
    fun _ hreach => append_linearizable_reach iter_oblivious hreads hsort happends hreach

omit [SerdeJson] [ResultJson] in
theorem Oblivious.atMost {W : Type} [Workload W] (ho : Oblivious W) {w : W} {n : Nat} (hnone : ∀ k, n ≤ k → opAt k w = none) :
    AtMost n w := by
  intro past current w' h
  by_contra hlt
  have hcall := (h.ops ho).1 n _ (List.getElem?_eq_getElem (Nat.not_le.mp hlt))
  rw [hnone n (Nat.le_refl _)] at hcall
  cases hcall

end

section
local instance endJson : SerdeJson := KVStore.textJson

local instance endResults : ResultJson := textResults

theorem fooClients_atMost : ∀ w ∈ fooClients.map Recorded.from, AtMost 3 w := by
  intro w hw
  obtain ⟨inner, hinner, rfl⟩ := List.mem_map.mp hw
  have hinner : inner = ⟨["0", "1", "2"].map fooAppend⟩ := by simpa [fooClients] using hinner
  refine (recorded_oblivious iter_oblivious).atMost fun k hk => ?_
  rw [recorded_opAt iter_oblivious, hinner, Recorded.from, iter_opAt]
  exact List.getElem?_eq_none (by simpa using hk)

theorem append_search_ends_two : ∃ run₀, (checkMachine (fooClients.map Recorded.from)).init run₀ ∧
    Search.Finds State.dry (endSettings (appendLinearizable (fun _ => "") sortByLen)) run₀.state
        (fun r => ∃ s, r = .goalFound s ∧ Search.Reachable run₀.state s ∧ s.allDone = true) ∧
      Search.Finds State.dry (prunedSettings (appendLinearizable (fun _ => "") sortByLen)) run₀.state (· = .spaceExhausted) := by
  obtain ⟨run₀, hinit⟩ : ∃ run₀, (checkMachine (fooClients.map Recorded.from)).init run₀ := ⟨⟨_, _⟩, _, rfl, rfl⟩
  exact ⟨run₀, hinit, append_search_ends text_readsResults sortByLen_sorts fooClients_appends fooClients_atMost (by decide)
    (by decide) hinit⟩

end

end Neatworks.Unreplicated
