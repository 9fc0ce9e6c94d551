import Neatworks.KademliaTimers

/-!
# The states of the queries of a peer

What each handler does to the queries, their timers and the peers that they have
contacted, and from it what holds in every run.
-/

namespace Neatworks.Kademlia

open Outcome TimerCall

section
variable {K A σ : Type}

namespace Peer

/-! ## Handlers that leave the queries alone -/

/-- The handler leaves the queries as they are. -/
def Quiet (self : Peer K A σ) (x : Handler K A σ (Peer K A σ)) : Prop :=
  x.Sat (fun s es => s.queryStates = self.queryStates ∧ s.record = self.record ∧ Idle es) fun _ => True

/-- A call that has no effects. -/
def Silent {α : Type} (x : Handler K A σ α) : Prop := x.Sat (fun _ es => es = []) fun _ => True

section
variable {self : Peer K A σ} {α : Type}

theorem Quiet.same {s : Peer K A σ} (hqueries : s.queryStates = self.queryStates) (hrecord : s.record = self.record) :
    Quiet self (pure s) := ⟨hqueries, hrecord, by simp [Idle]⟩

theorem Quiet.bind {x : Handler K A σ (Peer K A σ)} {f : Peer K A σ → Handler K A σ (Peer K A σ)} (hx : Quiet self x)
    (hf : ∀ s, s.queryStates = self.queryStates → s.record = self.record → Quiet s (f s)) : Quiet self (x >>= f) := by
  unfold Quiet
  rw [sat_bind]
  refine Sat.mono hx (fun s es hs => ?_) fun _ _ => trivial
  obtain ⟨hqueries, hrecord, hes⟩ := hs
  refine (hf s hqueries hrecord).mono (fun s' es' hs' => ?_) fun _ _ => trivial
  exact ⟨hs'.1.trans hqueries, hs'.2.1.trans hrecord, hes.append hs'.2.2⟩

theorem Silent.bind {x : Handler K A σ α} {f : α → Handler K A σ (Peer K A σ)} (hx : Silent x)
    (hf : ∀ a, Quiet self (f a)) : Quiet self (x >>= f) := by
  unfold Quiet
  rw [sat_bind]
  refine Sat.mono hx (fun a es hes => ?_) fun _ _ => trivial
  subst hes
  exact (hf a).mono (fun s es hs => by simpa using hs) fun _ _ => trivial

theorem Quiet.emit {e : Effect K A σ} (he : e.idle = true) {x : Handler K A σ (Peer K A σ)} (hx : Quiet self x) :
    Quiet self (Outcome.emit e >>= fun _ => x) := by
  unfold Quiet
  rw [sat_bind, sat_emit]
  refine hx.mono (fun s es hs => ⟨hs.1, hs.2.1, ?_⟩) fun _ _ => trivial
  exact Idle.append (by simpa [Idle] using he) hs.2.2

theorem Silent.assert {p : Prop} [Decidable p] {reason : Fail K A} :
    Silent (Outcome.assert p reason : Handler K A σ Unit) := by
  unfold Silent
  simp

theorem Silent.andThen {β : Type} {x : Handler K A σ α} {f : α → Handler K A σ β} (hx : Silent x) (hf : ∀ a, Silent (f a)) :
    Silent (x >>= f) := by
  unfold Silent
  rw [sat_bind]
  refine Sat.mono hx (fun a es hes => ?_) fun _ _ => trivial
  subst hes
  exact (hf a).mono (fun s es hs => by simpa using hs) fun _ _ => trivial

theorem Silent.ite {p : Prop} [Decidable p] {x y : Handler K A σ α} (hx : Silent x) (hy : Silent y) :
    Silent (if p then x else y) := by
  by_cases h : p
  · rwa [if_pos h]
  · rwa [if_neg h]

theorem bucket_silent (buckets : Buckets K A) (index : Nat) : Silent (buckets.bucket index : Handler K A σ _) := by
  unfold Buckets.bucket
  split
  · trivial
  · rfl

theorem index_silent (buckets : Buckets K A) (target : Target) : Silent (buckets.index target : Handler K A σ _) := by
  unfold Buckets.index
  exact Silent.assert.andThen fun _ => rfl

theorem insert_silent (buckets : Buckets K A) (record : PeerRecord K A) :
    Silent (buckets.insert record : Handler K A σ _) := by
  unfold Buckets.insert
  refine Silent.assert.andThen fun _ => (index_silent _ _).andThen fun index => (bucket_silent _ _).andThen fun bucket => ?_
  dsimp only
  split <;> rfl

theorem collect_silent (buckets : Buckets K A) (target : Target) (count : ℕ+) (order : List Nat) (records : List (PeerRecord K A)) :
    Silent (buckets.collect target count order records : Handler K A σ _) := by
  induction order generalizing records with
  | nil => rfl
  | cons index order ih =>
    unfold Buckets.collect
    exact (bucket_silent _ _).andThen fun bucket => Silent.assert.andThen fun _ => Silent.ite rfl (ih _)

theorem findClosest_silent (buckets : Buckets K A) (target : Target) (count : ℕ+) :
    Silent (buckets.findClosest target count : Handler K A σ _) := by
  have hstart : Silent (buckets.startIndex target : Handler K A σ _) := by
    unfold Buckets.startIndex
    split
    · rfl
    · exact index_silent _ _
  unfold Buckets.findClosest
  exact hstart.andThen fun index => (collect_silent _ _ _ _ _).andThen fun records => Silent.assert.andThen fun _ => rfl

theorem startIndex_silent (indices : List Nat) : Silent (self.startIndex indices) := by
  induction indices with
  | nil => trivial
  | cons index indices ih =>
    unfold startIndex
    refine (bucket_silent _ _).andThen fun bucket => ?_
    split
    · exact ih
    · rfl

theorem startQuery_quiet (target : Target) (count : ℕ+) : Quiet self (self.startQuery target count) := by
  unfold startQuery
  exact Quiet.emit rfl (.same rfl rfl)

theorem chooseTargets_quiet (chance : Chance) (indices : List Nat) : Quiet self (chooseTargets chance indices self) := by
  induction indices generalizing self with
  | nil => exact .same rfl rfl
  | cons i indices ih =>
    unfold chooseTargets
    exact (index_silent _ _).bind fun index => Silent.assert.bind fun _ => ih

theorem refreshNext_quiet (chance : Chance) {done : Peer K A σ → Handler K A σ (Peer K A σ)} (hdone : Quiet self (done self)) :
    Quiet self (self.refreshNext chance done) := by
  unfold refreshNext
  split
  · exact startQuery_quiet _ _
  · exact hdone

theorem callBootstrap_quiet : Quiet self self.callBootstrap := by
  unfold callBootstrap
  exact Silent.assert.bind fun _ => Quiet.emit rfl (.same rfl rfl)

theorem refreshBuckets_quiet (chance : Chance) : Quiet self (self.refreshBuckets chance) := by
  have hrest (start : Nat) : Quiet self (do
      let self ← chooseTargets chance (List.range' start (256 - start)) self
      Outcome.emit (.refresh self.refreshTargets)
      self.refreshNext chance fun self => return self) :=
    (chooseTargets_quiet chance _).bind fun s _ _ => Quiet.emit rfl (refreshNext_quiet chance (.same rfl rfl))
  unfold refreshBuckets
  split
  · exact (startIndex_silent _).bind hrest
  · exact (show Silent (pure 0 : Handler K A σ Nat) from rfl).bind hrest

theorem conclude_quiet (chance : Chance) (target : Target) (status : QueryStatus) (closest : List (PeerRecord K A)) :
    Quiet self (self.conclude chance target status closest) := by
  unfold conclude
  split
  · split
    · exact Quiet.emit rfl (.same rfl rfl)
    · split <;> exact .same rfl rfl
  · split
    · exact .same rfl rfl
    · split
      · refine (refreshBuckets_quiet chance).bind fun s hqueries hrecord => ?_
        split
        · exact callBootstrap_quiet
        · exact .same rfl rfl
      · exact Silent.assert.bind fun _ => refreshNext_quiet chance callBootstrap_quiet

theorem bootstrap_quiet : Quiet self self.bootstrap := by
  unfold bootstrap
  refine Silent.assert.bind fun _ => Silent.assert.bind fun _ => Silent.assert.bind fun _ => Quiet.emit rfl ?_
  exact startQuery_quiet _ _

theorem onQuery_quiet (query : Query) : Quiet self (self.onQuery query) := by
  unfold onQuery
  exact Silent.assert.bind fun _ => startQuery_quiet _ _

theorem onVerifiedFindPeer_quiet (findPeer : Verifiable (FindPeer K A) σ) : Quiet self (self.onVerifiedFindPeer findPeer) := by
  unfold onVerifiedFindPeer
  refine (insert_silent _ _).bind fun buckets => Silent.assert.bind fun _ => (findClosest_silent _ _ _).bind fun closest => ?_
  exact Quiet.emit rfl (.same rfl rfl)

theorem onSignedFindPeerOk_quiet (findPeerOk : Verifiable (FindPeerOk K A) σ) :
    Quiet self (self.onSignedFindPeerOk findPeerOk) := by
  unfold onSignedFindPeerOk
  split
  · trivial
  · exact Quiet.emit rfl (.same rfl rfl)

end

end Peer

/-! ## Contacting records -/

theorem Sorted.ids_nodup {target : Target} {records : List (PeerRecord K A)} (h : Sorted target records) :
    (records.map (·.id)).Nodup := by
  refine List.pairwise_map.mpr (h.imp fun hlt heq => ?_)
  rw [heq] at hlt
  exact BitVec.lt_irrefl _ hlt

/-- These calls set a timer for each of the records, in order. -/
def SetsFor (target : Target) (records : List (PeerRecord K A)) (es : List (Effect K A σ)) : Prop :=
  List.Forall₂ (fun record e => ∃ timerId, e = Effect.setTimer timerId target record) records es

section
variable {own : PeerId} {queries : Queries K A σ} {history : List (Effect K A σ)} {target : Target}
  {state : QueryState K A σ} {records : List (PeerRecord K A)} {es : List (Effect K A σ)}

theorem SetsFor.contacts (h : SetsFor target records es) : contacts target es = records := by
  induction h with
  | nil => rfl
  | cons he _ ih =>
    obtain ⟨timerId, rfl⟩ := he
    rw [Kademlia.contacts, List.filterMap_cons]
    simp only [Effect.contact, if_true]
    exact congrArg _ ih

theorem SetsFor.countP (h : SetsFor target records es) : es.countP Effect.isSend = 0 := by
  induction h with
  | nil => rfl
  | cons he _ ih =>
    obtain ⟨timerId, rfl⟩ := he
    rw [List.countP_cons_of_neg Bool.false_ne_true]
    exact ih

/-- The records are contacted, and the `FindPeer` is sent to them. -/
theorem SetsFor.addressed {findPeer : Verifiable (FindPeer K A) σ} (h : SetsFor findPeer.inner.target records es)
    {between : List (Effect K A σ)} (hbetween : Unaddressed between) :
    Addressed (es ++ between ++ [.sendFindPeer (records.map (·.addr)) findPeer]) := by
  constructor
  · rw [List.countP_append, List.countP_append, h.countP, hbetween.countP]
    exact Nat.le_refl 1
  · intro addrs findPeer' hmem
    have hsend : ∀ e ∈ es ++ between, e.isSend ≠ true := by
      apply List.countP_eq_zero.mp
      rw [List.countP_append, h.countP, hbetween.countP]
    rcases List.mem_append.mp hmem with hmem | hmem
    · exact absurd rfl (hsend _ hmem)
    · cases List.mem_singleton.mp hmem
      rw [contacts_append, contacts_append, h.contacts, hbetween.contacts, List.append_nil]
      exact congrArg _ (List.append_nil _).symm

theorem Peer.contactEach_tracked (h : Tracked own queries history) (hstate : queries target = some state)
    (hmem : ∀ record ∈ records, record ∈ state.records ∧ record.id ∉ state.contacted ∧
      state.contacting.lookup record.id = none)
    (hnodup : (records.map (·.id)).Nodup) (hlen : state.contacting.len + records.length ≤ numConcurrency)
    (self : Peer K A σ) : (contactEach target records state.contacting self).Sat (fun r es =>
      Tracked own (Function.update queries target (some { state with contacting := r.1 })) (history ++ es) ∧
        SetsFor target records es ∧ r.2.queryStates = self.queryStates ∧ r.2.record = self.record) fun _ => False := by
  induction records generalizing state queries history self with
  | nil =>
    have hsame : Function.update queries target (some { state with contacting := state.contacting }) = queries := by
      rw [← hstate, Function.update_eq_self]
    refine ⟨?_, .nil, rfl, rfl⟩
    rw [hsame, List.append_nil]
    exact h
  | cons record records ih =>
    obtain ⟨hrecord, hrest⟩ := List.forall_mem_cons.mp hmem
    obtain ⟨hnew, hnodup⟩ := List.nodup_cons.mp hnodup
    have hlen' : state.contacting.len + (records.length + 1) ≤ numConcurrency := hlen
    have hcontact := h.contact hstate hrecord.1 hrecord.2.1 hrecord.2.2 (by omega) ⟨self.timer + 1⟩
    have hothers : ∀ r ∈ records, r ∈ state.records ∧ r.id ∉ state.contacted ∧
        (state.contacting.insert record.id ⟨self.timer + 1⟩).lookup r.id = none := by
      intro r hr
      have hne : r.id ≠ record.id := fun heq => hnew (List.mem_map.mpr ⟨r, hr, heq⟩)
      rw [Table.lookup_insert_ne hne]
      exact hrest r hr
    have hlen'' : (state.contacting.insert record.id ⟨self.timer + 1⟩).len + records.length ≤ numConcurrency := by
      rw [Table.len_insert hrecord.2.2]
      omega
    have hloop := ih hcontact (Function.update_self ..) hothers hnodup hlen'' { self with timer := self.timer + 1 }
    unfold contactEach setTimer
    simp only [sat_bind, sat_emit, sat_pure, List.append_nil]
    refine hloop.mono (fun r es hr => ?_) fun _ h => h
    obtain ⟨htracked, hsets, hqueries, hrecord'⟩ := hr
    rw [Function.update_idem, List.append_assoc] at htracked
    exact ⟨htracked, .cons ⟨_, rfl⟩ hsets, hqueries, hrecord'⟩

/-- The `while` loop contacts records that it has chosen one by one. -/
theorem Peer.fill_contacts (target : Target) (state : QueryState K A σ) (fuel : Nat) (contacting : Table PeerId TimerId)
    (self : Peer K A σ) :
    ∃ records : List (PeerRecord K A), records.length ≤ fuel ∧ (records.map (·.id)).Nodup ∧
      (∀ record ∈ records, record ∈ state.records ∧ record.id ∉ state.contacted ∧ contacting.lookup record.id = none) ∧
      fill target state fuel contacting self =
        contactEach target records contacting self >>= fun r => pure (records.map (·.addr), r.1, r.2) := by
  induction fuel generalizing contacting self with
  | zero => exact ⟨[], Nat.le_refl _, List.nodup_nil, by simp, rfl⟩
  | succ fuel ih =>
    unfold fill
    cases hnext : nextContact state contacting with
    | none => exact ⟨[], Nat.zero_le _, List.nodup_nil, by simp, rfl⟩
    | some record =>
      obtain ⟨records, hlength, hnodup, hmem, heq⟩ :=
        ih (contacting.insert record.id ⟨self.timer + 1⟩) { self with timer := self.timer + 1 }
      have hfound := List.find?_some hnext
      simp only [Bool.and_eq_true, decide_eq_true_eq] at hfound
      have hothers : ∀ r ∈ records, r.id ≠ record.id ∧ contacting.lookup r.id = none := by
        intro r hr
        have hnone := (hmem r hr).2.2
        by_cases hid : r.id = record.id
        · rw [hid, Table.lookup_insert_self] at hnone
          cases hnone
        · rw [Table.lookup_insert_ne hid] at hnone
          exact ⟨hid, hnone⟩
      refine ⟨record :: records, Nat.succ_le_succ hlength, ?_, fun r hr => ?_, ?_⟩
      · rw [List.map_cons, List.nodup_cons]
        refine ⟨fun hid => ?_, hnodup⟩
        obtain ⟨r, hr, heq⟩ := List.mem_map.mp hid
        exact (hothers r hr).1 heq
      · rcases List.mem_cons.mp hr with rfl | hr
        · exact ⟨List.mem_of_find?_eq_some hnext, hfound⟩
        · exact ⟨(hmem r hr).1, (hmem r hr).2.1, (hothers r hr).2⟩
      · dsimp only
        rw [contactEach]
        simp only [setTimer, bind_assoc, pure_bind, heq]
        rfl

namespace Peer

/-! ## The verdict on a query -/

theorem unsetTimers_calls (timerIds : List TimerId) :
    (unsetTimers timerIds : Handler K A σ Unit) = .ok () (timerIds.map .unsetTimer) := by
  induction timerIds with
  | nil => rfl
  | cons timerId timerIds ih =>
    rw [unsetTimers]
    exact ok_bind_ok ih

theorem fill_tracked (self : Peer K A σ) (h : Tracked own (Function.update self.queryStates.lookup target (some state)) history) :
    ∃ (records : List (PeerRecord K A)) (contacting : Table PeerId TimerId) (self' : Peer K A σ) (es : List (Effect K A σ)),
      fill target state (numConcurrency - state.contacting.len) state.contacting self =
        .ok (records.map (·.addr), contacting, self') es ∧
      Tracked own (Function.update self'.queryStates.lookup target (some { state with contacting := contacting })) (history ++ es) ∧
      SetsFor target records es ∧ self'.record = self.record := by
  obtain ⟨records, hlength, hnodup, hmem, hfill⟩ :=
    fill_contacts target state (numConcurrency - state.contacting.len) state.contacting self
  have hlen := (h.valid target state (Function.update_self ..)).len
  have hloop := contactEach_tracked h (Function.update_self ..) hmem hnodup (by omega) self
  cases hcontact : contactEach target records state.contacting self with
  | fail reason es =>
    rw [hcontact] at hloop
    exact hloop.elim
  | ok r es =>
    rw [hcontact] at hloop hfill
    obtain ⟨htracked, hsets, hqueries, hrecord⟩ := hloop
    rw [Function.update_idem, ← hqueries] at htracked
    refine ⟨records, r.1, r.2, es, ?_, htracked, hsets, hrecord⟩
    rw [hfill]
    exact (ok_bind_ok rfl).trans (by rw [List.append_nil])

theorem unaddressed_verdict (target : Target) (status : QueryStatus) (state' : QueryState K A σ) (closest : List (PeerRecord K A)) :
    Unaddressed [(.verdict target status state' closest : Effect K A σ)] := List.forall_mem_singleton.mpr rfl

/-- The block `'upcall`: the calls of its three exits, and the peer that is left. -/
theorem advance_calls (self : Peer K A σ) (chance : Chance)
    (h : Tracked own (Function.update self.queryStates.lookup target (some state)) history) :
    ∃ (status : QueryStatus) (self' : Peer K A σ) (es : List (Effect K A σ)),
      Tracked own self'.queryStates.lookup (history ++ es) ∧ Addressed es ∧ self'.record = self.record ∧
      self.advance chance target state =
        (.ok () es : Handler K A σ Unit) >>= fun _ => self'.conclude chance target status (QueryState.closest state) := by
  unfold advance
  by_cases hcount : state.findPeer.inner.count ≤ (state.records.takeWhile (·.id ∈ state.contacted)).length
  · have hfinish := h.finish (Function.update_self ..) (show QueryStatus.converge ≠ .progress by decide) state
      (QueryState.closest state)
    rw [Function.update_idem, ← Table.lookup_remove, List.append_assoc] at hfinish
    refine ⟨.converge, { self with queryStates := self.queryStates.remove target }, _, hfinish, ?_, rfl, ?_⟩
    · have hunset : Addressed ((state.contacting.entries.map Prod.snd).map (.unsetTimer : TimerId → Effect K A σ)) := by
        refine addressed_of_countP (Unaddressed.countP fun e he => ?_)
        obtain ⟨timerId, _, rfl⟩ := List.mem_map.mp he
        rfl
      exact hunset.append (unaddressed_verdict _ _ _ _)
    · simp only [hcount, if_true, unsetTimers_calls]
      exact ok_bind_bind rfl
  · obtain ⟨records, contacting, s, es, hfill, htracked, hsets, hrecord⟩ := fill_tracked self h
    have hfindPeer := (h.valid target state (Function.update_self ..)).findPeer
    simp only [hcount, if_false, hfill]
    by_cases hempty : contacting.entries = []
    · have hfinish := htracked.finish (Function.update_self ..) (show QueryStatus.halted ≠ .progress by decide)
        { state with contacting := contacting } (QueryState.closest state)
      rw [Function.update_idem, ← Table.lookup_remove] at hfinish
      simp only [hempty, List.map_nil, List.append_nil, List.append_assoc] at hfinish
      refine ⟨.halted, { s with queryStates := s.queryStates.remove target }, _, hfinish, ?_, hrecord, ?_⟩
      · exact (addressed_of_countP hsets.countP).append (unaddressed_verdict _ _ _ _)
      · refine ok_bind_bind ?_
        rw [if_pos hempty]
        rfl
    · rw [← Table.lookup_insert] at htracked
      by_cases haddrs : records.map (·.addr) = []
      · have hprogress := htracked.progress target { state with contacting := contacting } (QueryState.closest state)
        rw [List.append_assoc] at hprogress
        refine ⟨.progress, { s with queryStates := s.queryStates.insert target { state with contacting := contacting } }, _,
          hprogress, ?_, hrecord, ?_⟩
        · exact (addressed_of_countP hsets.countP).append (unaddressed_verdict _ _ _ _)
        · refine ok_bind_bind ?_
          simp only [if_neg hempty, haddrs, ne_eq, not_true_eq_false, if_false]
          rfl
      · have hprogress := (htracked.send (records.map (·.addr)) state.findPeer).progress target
          { state with contacting := contacting } (QueryState.closest state)
        rw [List.append_assoc, List.append_assoc] at hprogress
        refine ⟨.progress, { s with queryStates := s.queryStates.insert target { state with contacting := contacting } }, _,
          hprogress, ?_, hrecord, ?_⟩
        · rw [← hfindPeer] at hsets
          have hsend := (hsets.addressed (List.forall_mem_nil _)).append (unaddressed_verdict target .progress
            { state with contacting := contacting } (QueryState.closest state))
          simpa using hsend
        · refine ok_bind_bind ?_
          simp only [if_neg hempty, ne_eq, haddrs, not_false_eq_true, if_true]
          exact ok_bind_bind rfl

/-! ## The handlers -/

/-- The handler keeps track of the queries, and its calls are addressed. -/
def Tracks (self : Peer K A σ) (history : List (Effect K A σ)) (x : Handler K A σ (Peer K A σ)) : Prop :=
  x.Sat (fun s es => Tracked self.record.id s.queryStates.lookup (history ++ es) ∧ Addressed es ∧ s.record = self.record)
    fun _ => True

section
variable {self : Peer K A σ}

theorem Quiet.tracks {x : Handler K A σ (Peer K A σ)} (hx : Quiet self x)
    (h : Tracked self.record.id self.queryStates.lookup history) : Tracks self history x := by
  refine Sat.mono hx (fun s es hs => ?_) fun _ _ => trivial
  obtain ⟨hqueries, hrecord, hes⟩ := hs
  refine ⟨?_, addressed_of_countP hes.unaddressed.countP, hrecord⟩
  rw [hqueries]
  exact h.idle hes

theorem onSignedFindPeer_tracks (hs : self.Sound) (h : Tracked self.record.id self.queryStates.lookup history)
    (findPeer : Verifiable (FindPeer K A) σ) : Tracks self history (self.onSignedFindPeer findPeer) := by
  unfold Tracks
  by_cases hnone : self.queryStates.lookup findPeer.inner.target = none
  swap
  · obtain ⟨es, heq⟩ := (onSignedFindPeer_eq hs.wf hs.origin findPeer).2 hnone
    rw [heq]
    trivial
  obtain ⟨records, hfind, hclosest⟩ := Buckets.findClosest_closest (E := Effect K A σ) hs.wf findPeer.inner.target
    (max findPeer.inner.count 30)
  have hvalid : (⟨findPeer, records, .empty, {self.record.id}⟩ : QueryState K A σ).Valid self.record.id findPeer.inner.target := by
    refine ⟨hclosest.sorted, fun _ hid => absurd rfl hid, fun _ hid => absurd rfl hid, fun id hid hne => ?_, Nat.zero_le _, rfl⟩
    exact absurd (Finset.mem_singleton.mp hid) hne
  have hfirst : ∀ record ∈ self.firstContacts records, record ∈ records ∧ record.id ∉ ({self.record.id} : Finset PeerId) ∧
      (Table.empty : Table PeerId TimerId).lookup record.id = none := by
    intro record hrecord
    obtain ⟨hmem, hne⟩ := List.mem_filter.mp (List.mem_of_mem_take hrecord)
    exact ⟨hmem, by simpa using hne, rfl⟩
  have hids : ((self.firstContacts records).map (·.id)).Nodup := by
    have hsorted : Sorted findPeer.inner.target records := hclosest.sorted
    exact hsorted.ids_nodup.sublist (((List.take_sublist _ _).trans List.filter_sublist).map _)
  have hlength : (self.firstContacts records).length ≤ numConcurrency := List.length_take_le ..
  have hloop := contactEach_tracked (h.start hnone hvalid rfl) (Function.update_self ..) hfirst hids
    (by simpa [Table.len, Table.empty] using hlength) self
  unfold onSignedFindPeer
  simp only [hfind, pure_bind, sat_bind, sat_assert, sat_emit, sat_pure]
  refine ⟨fun _ => hloop.mono (fun r es hr => ?_) fun _ hfalse => hfalse.elim, fun _ => trivial⟩
  obtain ⟨htracked, hsets, hqueries, hrecord⟩ := hr
  rw [Function.update_idem, ← Table.lookup_insert] at htracked
  have hcontacts : r.2.firstContacts records = self.firstContacts records := by
    unfold firstContacts
    rw [hrecord]
  rw [hqueries, hrecord, hcontacts]
  refine ⟨fun _ => ⟨?_, ?_, rfl⟩, fun _ => trivial⟩
  · have hsend := (htracked.idle (List.forall_mem_singleton.mpr (rfl : Effect.idle (.start findPeer.inner.target) = true))).send
      ((self.firstContacts records).map (·.addr)) findPeer
    simpa using hsend
  · simpa using hsets.addressed (List.forall_mem_singleton.mpr (rfl : Effect.unaddressed (.start findPeer.inner.target) = true))

variable [DecidableEq K] [DecidableEq A]

theorem onVerifiedFindPeerOk_tracks (h : Tracked self.record.id self.queryStates.lookup history) (chance : Chance)
    (findPeerOk : Verifiable (FindPeerOk K A) σ) : Tracks self history (self.onVerifiedFindPeerOk chance findPeerOk) := by
  have hsame (buckets : Buckets K A) : Tracks self history (pure { self with buckets := buckets }) :=
    Quiet.tracks (.same rfl rfl) h
  unfold onVerifiedFindPeerOk Tracks
  rw [sat_bind]
  refine Sat.mono (insert_silent _ _) (fun buckets es hes => ?_) fun _ _ => trivial
  subst hes
  simp only [List.nil_append]
  split
  · exact hsame buckets
  · next state hstate =>
    split
    · exact hsame buckets
    · next timerId htimer =>
      have hvalid := h.valid _ state hstate
      rw [sat_bind, sat_emit, sat_bind]
      obtain ⟨hagree, hdiffer⟩ := @addRecords_eq K A σ _ _ _ findPeerOk.inner.closest _ hvalid.sorted
      by_cases hok : Agree (findPeerOk.inner.closest ++ state.records)
      · obtain ⟨merged, hmerges, heq⟩ := hagree hok
        have hreply := h.reply hstate htimer hmerges.sorted fun record hmem => (hmerges.mem record).mpr (Or.inr hmem)
        obtain ⟨status, s, es, htracked, haddressed, hrecord, hadvance⟩ :=
          advance_calls { self with buckets := buckets } chance hreply
        rw [heq, sat_ok]
        unfold QueryState.replied at hadvance
        rw [hadvance, sat_bind, sat_ok]
        refine (conclude_quiet chance _ _ _).mono (fun s' es' hs' => ?_) fun _ _ => trivial
        obtain ⟨hqueries, hrecord', hes'⟩ := hs'
        refine ⟨?_, ?_, hrecord'.trans hrecord⟩
        · rw [hqueries]
          simpa using htracked.idle hes'
        · simpa using (haddressed.cons_unset timerId).append hes'.unaddressed
      · rw [hdiffer hok]
        trivial

end

end Peer

end

/-! ## Runs -/

section
variable [DecidableEq K] [DecidableEq A]

theorem onEvent_tracks {self : Peer K A σ} (hs : self.Sound) {history : List (Effect K A σ)}
    (h : Tracked self.record.id self.queryStates.lookup history) (chance : Chance) (event : Event K A σ) :
    self.Tracks history (self.onEvent chance event) := by
  cases event with
  | signedFindPeer findPeer => exact Peer.onSignedFindPeer_tracks hs h findPeer
  | verifiedFindPeer findPeer => exact (Peer.onVerifiedFindPeer_quiet findPeer).tracks h
  | signedFindPeerOk findPeerOk => exact (Peer.onSignedFindPeerOk_quiet findPeerOk).tracks h
  | verifiedFindPeerOk findPeerOk => exact Peer.onVerifiedFindPeerOk_tracks h chance findPeerOk

variable [DigestHash K] [DigestHash A] {crypto : PeerCrypto K σ} {node : Node K A σ}

theorem handle_tracks (crypto : PeerCrypto K σ) (hs : node.peer.Sound)
    (h : Tracked node.peer.record.id node.peer.queryStates.lookup node.history) (input : Input K A σ) : node.peer.Tracks node.history (node.handle crypto input) := by
  have hsame : node.peer.Tracks node.history (pure node.peer) := Peer.Quiet.tracks (.same rfl rfl) h
  have hemit (job : Job K A σ) : node.peer.Tracks node.history (Outcome.emit (.submit job) >>= fun _ => pure node.peer) :=
    Peer.Quiet.tracks (Peer.Quiet.emit rfl (.same rfl rfl)) h
  cases input with
  | bootstrap => exact Peer.bootstrap_quiet.tracks h
  | query query => exact (Peer.onQuery_quiet query).tracks h
  | recvFindPeer findPeer => exact hemit _
  | recvFindPeerOk findPeerOk => exact hemit _
  | complete n chance =>
    cases hjob : node.jobs[n]? with
    | none =>
      simp only [Node.handle, hjob]
      exact hsame
    | some job =>
      simp only [Node.handle, hjob]
      cases job.run crypto with
      | none => exact hsame
      | some event => exact onEvent_tracks hs h chance event

theorem reach_tracked {C : Node K A σ → Input K A σ → Prop} (h : (machine crypto).Reach C node) :
    Tracked node.peer.record.id node.peer.queryStates.lookup node.history := by
  refine h.invariant (I := fun node => Tracked node.peer.record.id node.peer.queryStates.lookup node.history) ?_
    fun node input node' hreach hI _ hnext => ?_
  · rintro _ ⟨origin, ops, buckets, _, rfl⟩
    exact .new _
  · obtain ⟨peer, es, hhandle, rfl⟩ := hnext
    have htracks := handle_tracks crypto (reach_sound hreach) hI input
    rw [hhandle] at htracks
    obtain ⟨htracked, _, hrecord⟩ := htracks
    rwa [← hrecord] at htracked

/-- What holds of the queries of a peer in every run: the state of each is valid,
the live timers are those of the peers that they contact, so that one that fires
finds its query, and no query contacts a peer twice. A `set` that returns has
handed out a new id: the buffered timer fails on one that it has. -/
theorem query_states (h : (machine crypto).Reach Machine.always node) (hset : (handedOut (timerCalls node.history)).Nodup) :
    (∀ target state, node.peer.queryStates.lookup target = some state →
      state.Valid node.peer.record.id target ∧ (state.records.map (·.id)).Nodup) ∧
    Mirrors contactKey (live (timerCalls node.history)) (Queries.timerOf node.peer.queryStates.lookup) ∧
    (∀ id target record, (id, target, record) ∈ live (timerCalls node.history) → ∃ state,
      node.peer.queryStates.lookup target = some state ∧
        node.peer.onResendFindPeer target record = .fail (.timeout target state.findPeer.inner.count record) []) ∧
    (∀ target, (contactedBy target node.history).Nodup) ∧
    ∀ input peer es, node.handle crypto input = .ok peer es → Addressed es := by
  have htracked := reach_tracked h
  have hmirrors := htracked.timers hset
  refine ⟨fun target state hstate => ?_, hmirrors, fun id target record hlive => ?_, htracked.nodup, fun input peer es hok => ?_⟩
  · have hvalid := htracked.valid target state hstate
    exact ⟨hvalid, hvalid.sorted.ids_nodup⟩
  · have htimer : Queries.timerOf node.peer.queryStates.lookup (target, record.id) = some id :=
      (hmirrors.mem _ _).mpr ⟨(target, record), rfl, hlive⟩
    obtain ⟨state, hstate, _⟩ := Option.bind_eq_some_iff.mp htimer
    refine ⟨state, hstate, ?_⟩
    unfold Peer.onResendFindPeer
    rw [hstate]
    rfl
  · have htracks := handle_tracks crypto (reach_sound h) htracked input
    rw [hok] at htracks
    exact htracks.2.1

end

end

/-- A query contacts the peer that it starts with, and then the one in its answer. -/
theorem query_states_two : ∃ node : Node UInt8 UInt8 UInt8, (machine (cryptoOf 1)).Reach Machine.always node ∧
    contactedBy (.replicate 32 3) node.history = [(peerOf 2).id, (peerOf 4).id] ∧
    Mirrors contactKey (live (timerCalls node.history)) (Queries.timerOf node.peer.queryStates.lookup) := by
  obtain ⟨node, hreach, hset, hcontacted⟩ := reach_of_exec (cryptoOf 1) Machine.always (peerOf 1) [.insert (peerOf 2)]
    [.query ⟨.replicate 32 3, 3⟩, .complete 0 .least,
      .recvFindPeerOk ((cryptoOf 2).sign ⟨1, .replicate 32 3, [peerOf 4], peerOf 2⟩), .complete 0 .least]
    (fun node => (handedOut (timerCalls node.history)).Nodup ∧
      contactedBy (.replicate 32 3) node.history = [(peerOf 2).id, (peerOf 4).id]) (by decide +kernel)
  exact ⟨node, hreach, hcontacted, (query_states hreach hset).2.1⟩

end Neatworks.Kademlia
