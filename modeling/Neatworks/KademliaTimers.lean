import Neatworks.KademliaMoves
import Neatworks.Timers

/-!
# The queries of a peer and their timers

A query contacts a peer by setting a timer for it, and each record that it
contacts is one of its records that it has neither contacted nor is contacting.
So the live timers are those of the peers being contacted, and no peer is
contacted twice while the query lives.
-/

namespace Neatworks.Kademlia

open Outcome TimerCall

section
variable {K A σ : Type}

/-! ## What the calls say about a query -/

/-- The calls on the timer; its event is `ResendFindPeer(target, record)`. -/
def Effect.timerCall : Effect K A σ → Option (TimerCall TimerId (Target × PeerRecord K A))
  | .setTimer timerId target record => some (.set timerId (target, record))
  | .unsetTimer timerId => some (.unset timerId)
  | _ => none

def timerCalls (es : List (Effect K A σ)) : List (TimerCall TimerId (Target × PeerRecord K A)) :=
  es.filterMap Effect.timerCall

/-- The query and the peer of a timer. -/
def contactKey (event : Target × PeerRecord K A) : Target × PeerId := (event.1, event.2.id)

def Effect.contact (target : Target) : Effect K A σ → Option (PeerRecord K A)
  | .setTimer _ t record => if t = target then some record else none
  | _ => none

/-- The records that these calls contact for a query. -/
def contacts (target : Target) (es : List (Effect K A σ)) : List (PeerRecord K A) := es.filterMap (Effect.contact target)

def noteContact (target : Target) (ids : List PeerId) : Effect K A σ → List PeerId
  | .setTimer _ t record => if t = target then ids ++ [record.id] else ids
  | .verdict t status _ _ => if t = target ∧ status ≠ .progress then [] else ids
  | _ => ids

/-- The peers that the query to the target has contacted; the verdict that ends it is the last of it. -/
def contactedBy (target : Target) (history : List (Effect K A σ)) : List PeerId :=
  history.foldl (noteContact target) []

def Effect.isSend : Effect K A σ → Bool
  | .sendFindPeer .. => true
  | _ => false

/-- The calls send one `FindPeer` at most, to the addresses of the records that
they contact for its query. -/
def Addressed (es : List (Effect K A σ)) : Prop :=
  es.countP Effect.isSend ≤ 1 ∧
    ∀ addrs findPeer, .sendFindPeer addrs findPeer ∈ es → addrs = (contacts findPeer.inner.target es).map (·.addr)

/-- A call by which no peer is contacted. -/
def Effect.unaddressed : Effect K A σ → Bool
  | .setTimer .. | .sendFindPeer .. => false
  | _ => true

def Unaddressed (es : List (Effect K A σ)) : Prop := ∀ e ∈ es, e.unaddressed = true

/-- A call that is neither on the timer nor a `FindPeer`, and no verdict. -/
def Effect.idle : Effect K A σ → Bool
  | .setTimer .. | .unsetTimer _ | .sendFindPeer .. | .verdict .. => false
  | _ => true

def Idle (es : List (Effect K A σ)) : Prop := ∀ e ∈ es, e.idle = true

@[simp] theorem timerCalls_append (es es' : List (Effect K A σ)) : timerCalls (es ++ es') = timerCalls es ++ timerCalls es' :=
  List.filterMap_append ..

@[simp] theorem contacts_append (target : Target) (es es' : List (Effect K A σ)) :
    contacts target (es ++ es') = contacts target es ++ contacts target es' := List.filterMap_append ..

@[simp] theorem contactedBy_snoc (target : Target) (history : List (Effect K A σ)) (e : Effect K A σ) :
    contactedBy target (history ++ [e]) = noteContact target (contactedBy target history) e := by
  simp [contactedBy]

theorem Idle.timerCalls {es : List (Effect K A σ)} (h : Idle es) : timerCalls es = [] := by
  apply List.filterMap_eq_nil_iff.mpr
  intro e he
  have := h e he
  cases e <;> first | rfl | cases this

theorem Idle.contactedBy {es : List (Effect K A σ)} (h : Idle es) (target : Target) (history : List (Effect K A σ)) :
    contactedBy target (history ++ es) = contactedBy target history := by
  induction es generalizing history with
  | nil => simp
  | cons e es ih =>
    have he := h e List.mem_cons_self
    have hnote : noteContact target (Kademlia.contactedBy target history) e = Kademlia.contactedBy target history := by
      cases e <;> first | rfl | cases he
    rw [List.append_cons, ih (fun e' he' => h e' (List.mem_cons_of_mem _ he')), contactedBy_snoc, hnote]

theorem Idle.unaddressed {es : List (Effect K A σ)} (h : Idle es) : Unaddressed es := by
  intro e he
  have := h e he
  cases e <;> first | rfl | cases this

theorem Unaddressed.contacts {es : List (Effect K A σ)} (h : Unaddressed es) (target : Target) : contacts target es = [] := by
  apply List.filterMap_eq_nil_iff.mpr
  intro e he
  have := h e he
  cases e <;> first | rfl | cases this

theorem Unaddressed.countP {es : List (Effect K A σ)} (h : Unaddressed es) : es.countP Effect.isSend = 0 := by
  apply List.countP_eq_zero.mpr
  intro e he
  have := h e he
  cases e with
  | sendFindPeer => cases this
  | _ => exact Bool.false_ne_true

theorem addressed_of_countP {es : List (Effect K A σ)} (h : es.countP Effect.isSend = 0) : Addressed es := by
  refine ⟨by rw [h]; exact Nat.zero_le _, fun addrs findPeer hmem => ?_⟩
  exact absurd rfl (List.countP_eq_zero.mp h _ hmem)

theorem Addressed.append {es es' : List (Effect K A σ)} (h : Addressed es) (hes' : Unaddressed es') : Addressed (es ++ es') := by
  constructor
  · rw [List.countP_append, hes'.countP]
    exact h.1
  · intro addrs findPeer hmem
    rw [contacts_append, hes'.contacts, List.append_nil]
    rcases List.mem_append.mp hmem with hmem | hmem
    · exact h.2 addrs findPeer hmem
    · cases hes' _ hmem

theorem Addressed.cons_unset {es : List (Effect K A σ)} (h : Addressed es) (timerId : TimerId) :
    Addressed (.unsetTimer timerId :: es) := by
  constructor
  · rw [List.countP_cons_of_neg Bool.false_ne_true]
    exact h.1
  · intro addrs findPeer hmem
    rcases List.mem_cons.mp hmem with hmem | hmem
    · cases hmem
    · exact h.2 addrs findPeer hmem

theorem Idle.append {es es' : List (Effect K A σ)} (h : Idle es) (h' : Idle es') : Idle (es ++ es') := by
  intro e he
  rcases List.mem_append.mp he with he | he
  · exact h e he
  · exact h' e he

/-! ## The states of queries -/

/-- The state of a query to the target, of the peer `own`. -/
structure QueryState.Valid (own : PeerId) (target : Target) (state : QueryState K A σ) : Prop where
  sorted : Sorted target state.records
  disjoint : ∀ id, state.contacting.lookup id ≠ none → id ∉ state.contacted
  contacting : ∀ id, state.contacting.lookup id ≠ none → id ∈ state.records.map (·.id)
  contacted : ∀ id ∈ state.contacted, id ≠ own → id ∈ state.records.map (·.id)
  len : state.contacting.len ≤ numConcurrency
  findPeer : state.findPeer.inner.target = target

abbrev Queries (K A σ : Type) := Target → Option (QueryState K A σ)

/-- The timer of a peer that a query is contacting. -/
def Queries.timerOf (queries : Queries K A σ) (key : Target × PeerId) : Option TimerId :=
  (queries key.1).bind fun state => state.contacting.lookup key.2

structure Tracked (own : PeerId) (queries : Queries K A σ) (history : List (Effect K A σ)) : Prop where
  valid : ∀ target state, queries target = some state → state.Valid own target
  timers : Follows contactKey (timerCalls history) queries.timerOf
  nodup : ∀ target, (contactedBy target history).Nodup
  contacted : ∀ target, ∀ id ∈ contactedBy target history, ∃ state, queries target = some state ∧
    (state.contacting.lookup id ≠ none ∨ id ∈ state.contacted)

section
variable {own : PeerId} {queries : Queries K A σ} {history : List (Effect K A σ)} {target : Target} {state : QueryState K A σ}

theorem timerOf_update {state' : QueryState K A σ} (hstate : queries target = some state) {id : PeerId} {timerId : Option TimerId}
    (h : state'.contacting.lookup = Function.update state.contacting.lookup id timerId) :
    Queries.timerOf (Function.update queries target (some state')) = Function.update queries.timerOf (target, id) timerId := by
  funext key
  obtain ⟨t, i⟩ := key
  by_cases ht : t = target
  · subst ht
    by_cases hi : i = id
    · subst hi
      simp [Queries.timerOf, h]
    · simp [Queries.timerOf, hstate, h, hi]
  · simp [Queries.timerOf, ht]

namespace Tracked

theorem new (own : PeerId) : Tracked own (fun _ => none : Queries K A σ) [] := by
  refine ⟨by simp, Follows.nil, by simp [contactedBy], by simp [contactedBy]⟩

theorem keep (h : Tracked own queries history) {es : List (Effect K A σ)} (hcalls : timerCalls es = [])
    (hcontacted : ∀ target, contactedBy target (history ++ es) = contactedBy target history) :
    Tracked own queries (history ++ es) := by
  constructor
  case valid => exact h.valid
  case timers =>
    rw [timerCalls_append, hcalls, List.append_nil]
    exact h.timers
  case nodup =>
    intro target
    rw [hcontacted]
    exact h.nodup target
  case contacted =>
    intro target
    rw [hcontacted]
    exact h.contacted target

theorem idle (h : Tracked own queries history) {es : List (Effect K A σ)} (hes : Idle es) : Tracked own queries (history ++ es) :=
  h.keep hes.timerCalls fun target => hes.contactedBy target history

theorem send (h : Tracked own queries history) (addrs : List A) (findPeer : Verifiable (FindPeer K A) σ) :
    Tracked own queries (history ++ [.sendFindPeer addrs findPeer]) :=
  h.keep rfl fun target => contactedBy_snoc target history _

theorem progress (h : Tracked own queries history) (target : Target) (state : QueryState K A σ) (closest : List (PeerRecord K A)) :
    Tracked own queries (history ++ [.verdict target .progress state closest]) :=
  h.keep rfl fun target => by simp [noteContact]

theorem start (h : Tracked own queries history) (hnone : queries target = none) (hvalid : state.Valid own target)
    (hempty : state.contacting = .empty) : Tracked own (Function.update queries target (some state)) history := by
  constructor
  case valid => exact forall_update_some h.valid hvalid
  case timers =>
    have htimers : Queries.timerOf (Function.update queries target (some state)) = queries.timerOf := by
      funext key
      by_cases ht : key.1 = target
      · simp [Queries.timerOf, ht, hnone, hempty]
      · simp [Queries.timerOf, ht]
    rw [htimers]
    exact h.timers
  case nodup => exact h.nodup
  case contacted =>
    intro t id hid
    obtain ⟨state', hstate', hmem⟩ := h.contacted t id hid
    have ht : t ≠ target := by
      rintro rfl
      rw [hnone] at hstate'
      cases hstate'
    exact ⟨state', by simpa [ht] using hstate', hmem⟩

theorem contact (h : Tracked own queries history) (hstate : queries target = some state) {record : PeerRecord K A}
    (hmem : record ∈ state.records) (hcontacted : record.id ∉ state.contacted)
    (hcontacting : state.contacting.lookup record.id = none) (hlen : state.contacting.len < numConcurrency) (timerId : TimerId) :
    Tracked own (Function.update queries target (some { state with contacting := state.contacting.insert record.id timerId }))
      (history ++ [.setTimer timerId target record]) := by
  have hvalid := h.valid target state hstate
  have hlookup (id : PeerId) (hid : (state.contacting.insert record.id timerId).lookup id ≠ none) :
      id = record.id ∨ state.contacting.lookup id ≠ none := by
    by_cases heq : id = record.id
    · exact Or.inl heq
    · rw [Table.lookup_insert_ne heq] at hid
      exact Or.inr hid
  have hkeep (id : PeerId) (hid : state.contacting.lookup id ≠ none) : (state.contacting.insert record.id timerId).lookup id ≠ none := by
    rw [Table.lookup_insert]
    by_cases heq : id = record.id
    · simp [heq]
    · simpa [heq] using hid
  constructor
  case valid =>
    refine forall_update_some h.valid ?_
    refine ⟨hvalid.sorted, fun id hid => ?_, fun id hid => ?_, hvalid.contacted, ?_, hvalid.findPeer⟩
    · rcases hlookup id hid with rfl | hid
      · exact hcontacted
      · exact hvalid.disjoint id hid
    · rcases hlookup id hid with rfl | hid
      · exact List.mem_map_of_mem hmem
      · exact hvalid.contacting id hid
    · rw [Table.len_insert hcontacting]
      exact hlen
  case timers =>
    rw [timerOf_update hstate (Table.lookup_insert _ _ _), timerCalls_append]
    have hnone : queries.timerOf (contactKey (target, record)) = none := by
      simp [Queries.timerOf, contactKey, hstate, hcontacting]
    exact h.timers.set hnone
  case nodup =>
    intro t
    rw [contactedBy_snoc, noteContact]
    split
    · next ht =>
      subst ht
      rw [← List.concat_eq_append]
      refine (h.nodup target).concat fun hid => ?_
      obtain ⟨state', hstate', hid⟩ := h.contacted target _ hid
      rw [hstate] at hstate'
      cases hstate'
      rcases hid with hid | hid
      · exact hid hcontacting
      · exact hcontacted hid
    · exact h.nodup t
  case contacted =>
    intro t id hid
    rw [contactedBy_snoc, noteContact] at hid
    by_cases ht : t = target
    · subst ht
      refine ⟨_, Function.update_self .., ?_⟩
      rw [if_pos rfl, List.mem_append, List.mem_singleton] at hid
      rcases hid with hid | rfl
      · obtain ⟨state', hstate', hid⟩ := h.contacted t id hid
        rw [hstate] at hstate'
        cases hstate'
        exact hid.imp_left (hkeep id)
      · exact Or.inl (by simp)
    · rw [if_neg (Ne.symm ht)] at hid
      obtain ⟨state', hstate', hid⟩ := h.contacted t id hid
      exact ⟨state', by simpa [ht] using hstate', hid⟩

/-- A peer that was being contacted has answered, and the records are merged with those of its answer. -/
theorem reply (h : Tracked own queries history) (hstate : queries target = some state) {id : PeerId} {timerId : TimerId}
    (htimer : state.contacting.lookup id = some timerId) {merged : List (PeerRecord K A)} (hsorted : Sorted target merged)
    (hsub : ∀ record ∈ state.records, record ∈ merged) :
    Tracked own (Function.update queries target (some (Peer.QueryState.replied state id merged)))
      (history ++ [.unsetTimer timerId]) := by
  have hvalid := h.valid target state hstate
  have hids {i : PeerId} (hi : i ∈ state.records.map (·.id)) : i ∈ merged.map (·.id) := by
    obtain ⟨record, hrecord, rfl⟩ := List.mem_map.mp hi
    exact List.mem_map_of_mem (hsub record hrecord)
  have hcontacting : id ∈ state.records.map (·.id) := hvalid.contacting id (by rw [htimer]; exact Option.some_ne_none _)
  have hlookup (i : PeerId) (hi : (state.contacting.remove id).lookup i ≠ none) : i ≠ id ∧ state.contacting.lookup i ≠ none := by
    by_cases heq : i = id
    · rw [heq, Table.lookup_remove_self] at hi
      exact absurd rfl hi
    · rw [Table.lookup_remove_ne heq] at hi
      exact ⟨heq, hi⟩
  constructor
  case valid =>
    refine forall_update_some h.valid ?_
    refine ⟨hsorted, fun i hi => ?_, fun i hi => ?_, fun i hi hne => ?_, ?_, hvalid.findPeer⟩
    · obtain ⟨hne, hi⟩ := hlookup i hi
      simpa [Peer.QueryState.replied, hne] using hvalid.disjoint i hi
    · exact hids (hvalid.contacting i (hlookup i hi).2)
    · rcases Finset.mem_insert.mp hi with rfl | hi
      · exact hids hcontacting
      · exact hids (hvalid.contacted i hi hne)
    · exact (Table.len_remove_le _ _).trans hvalid.len
  case timers =>
    rw [timerOf_update hstate (Table.lookup_remove _ _), timerCalls_append]
    exact h.timers.unset (by simp [Queries.timerOf, hstate, htimer])
  case nodup =>
    intro t
    rw [contactedBy_snoc]
    exact h.nodup t
  case contacted =>
    intro t i hi
    rw [contactedBy_snoc] at hi
    obtain ⟨state', hstate', hi⟩ := h.contacted t i hi
    by_cases ht : t = target
    · subst ht
      rw [hstate] at hstate'
      cases hstate'
      refine ⟨_, Function.update_self .., ?_⟩
      by_cases heq : i = id
      · subst heq
        exact Or.inr (Finset.mem_insert_self _ _)
      · rcases hi with hi | hi
        · exact Or.inl (by simpa [Peer.QueryState.replied, Table.lookup_remove_ne heq] using hi)
        · exact Or.inr (Finset.mem_insert_of_mem hi)
    · exact ⟨state', by simpa [ht] using hstate', hi⟩

/-- The verdict that ends a query, when the timers that it still has are unset. -/
theorem finish (h : Tracked own queries history) (hstate : queries target = some state) {status : QueryStatus}
    (hstatus : status ≠ .progress) (state' : QueryState K A σ) (closest : List (PeerRecord K A)) :
    Tracked own (Function.update queries target none)
      (history ++ (state.contacting.entries.map Prod.snd).map .unsetTimer ++ [.verdict target status state' closest]) := by
  set ids := state.contacting.entries.map Prod.snd with hids
  have hcalls : timerCalls (ids.map (.unsetTimer : TimerId → Effect K A σ)) = ids.map .unset := by
    rw [timerCalls, List.filterMap_map]
    exact congrFun List.filterMap_eq_map ids
  have hunset (t : Target) : contactedBy t (history ++ ids.map .unsetTimer) = contactedBy t history := by
    generalize ids = l
    induction l using List.reverseRecOn with
    | nil => simp
    | append_singleton l id ih =>
      rw [List.map_append, List.map_singleton, ← List.append_assoc, contactedBy_snoc]
      exact ih
  have hby (t : Target) : contactedBy t (history ++ ids.map .unsetTimer ++ [.verdict target status state' closest]) =
      if t = target then [] else contactedBy t history := by
    rw [contactedBy_snoc, noteContact, hunset]
    by_cases ht : t = target
    · simp [ht, hstatus]
    · simp [ht, Ne.symm ht]
  constructor
  case valid => exact forall_update_none h.valid
  case timers =>
    have htable : Queries.timerOf (Function.update queries target none) =
        fun key => if key.1 = target then none else queries.timerOf key := by
      funext key
      by_cases ht : key.1 = target
      · simp [Queries.timerOf, ht]
      · simp [Queries.timerOf, ht]
    have hkeys : ∀ id, id ∈ ids ↔ ∃ key : Target × PeerId, key.1 = target ∧ queries.timerOf key = some id := by
      intro id
      constructor
      · intro hid
        obtain ⟨⟨peerId, timerId⟩, he, rfl⟩ := List.mem_map.mp hid
        exact ⟨(target, peerId), rfl, by simpa [Queries.timerOf, hstate] using Table.lookup_eq_some.mpr he⟩
      · rintro ⟨key, rfl, hkey⟩
        simp only [Queries.timerOf, hstate, Option.bind_some] at hkey
        exact List.mem_map.mpr ⟨_, Table.lookup_eq_some.mp hkey, rfl⟩
    rw [htable, timerCalls_append, timerCalls_append, hcalls]
    have hverdict : timerCalls [(.verdict target status state' closest : Effect K A σ)] = [] := rfl
    rw [hverdict, List.append_nil]
    exact h.timers.unset_keys hkeys
  case nodup =>
    intro t
    rw [hby]
    split
    · exact List.nodup_nil
    · exact h.nodup t
  case contacted =>
    intro t id hid
    rw [hby] at hid
    by_cases ht : t = target
    · simp [ht] at hid
    · rw [if_neg ht] at hid
      obtain ⟨st, hst, hid⟩ := h.contacted t id hid
      exact ⟨st, by simpa [ht] using hst, hid⟩

end Tracked

end

end

end Neatworks.Kademlia
