import Neatworks.KademliaClosest
import Neatworks.KademliaPeer

/-!
# What the handlers of the peer do

For each handler its result and, of its calls, the marks: the start and the
verdict of a query and the upcall, a bootstrap and its end, and the queries that
are signed.
-/

namespace Neatworks.Kademlia

open Outcome XorOrder

section
variable {K A σ : Type}

def Effect.mark : Effect K A σ → Bool
  | .submit (.signFindPeer _) | .upcall _ | .onBootstrap | .bootstrap | .start _ | .verdict .. | .refresh _ => true
  | _ => false

def marks (es : List (Effect K A σ)) : List (Effect K A σ) := es.filter Effect.mark

@[simp] theorem marks_nil : marks ([] : List (Effect K A σ)) = [] := rfl

@[simp] theorem marks_append (es es' : List (Effect K A σ)) : marks (es ++ es') = marks es ++ marks es' :=
  List.filter_append ..

namespace Peer

/-! ## Loops -/

theorem contactEach_eq (target : Target) (records : List (PeerRecord K A)) (contacting : Table PeerId TimerId)
    (self : Peer K A σ) :
    ∃ contacting' timer es, contactEach target records contacting self =
      .ok (contacting', { self with timer := timer }) es ∧ marks es = [] ∧
      (contacting'.entries = [] ↔ records = [] ∧ contacting.entries = []) := by
  induction records generalizing contacting self with
  | nil => exact ⟨contacting, self.timer, [], rfl, rfl, by simp⟩
  | cons record records ih =>
    obtain ⟨contacting', timer, es, heq, hmarks, hnil⟩ :=
      ih (contacting.insert record.id ⟨self.timer + 1⟩) { self with timer := self.timer + 1 }
    refine ⟨contacting', timer, .setTimer ⟨self.timer + 1⟩ target record :: es, ?_, hmarks, ?_⟩
    · rw [contactEach]
      exact ok_bind_ok heq
    · rw [hnil]
      simp [Table.insert]

theorem fill_eq (target : Target) (state : QueryState K A σ) (fuel : Nat) (contacting : Table PeerId TimerId)
    (self : Peer K A σ) :
    ∃ addrs contacting' timer es, fill target state fuel contacting self =
      .ok (addrs, contacting', { self with timer := timer }) es ∧ marks es = [] ∧
      (contacting'.entries = [] ↔ contacting.entries = [] ∧ (0 < fuel → nextContact state contacting = none)) := by
  induction fuel generalizing contacting self with
  | zero => exact ⟨[], contacting, self.timer, [], rfl, rfl, by simp⟩
  | succ fuel ih =>
    cases hnext : nextContact state contacting with
    | none =>
      refine ⟨[], contacting, self.timer, [], ?_, rfl, by simp⟩
      rw [fill, hnext]
      rfl
    | some record =>
      obtain ⟨addrs, contacting', timer, es, heq, hmarks, hnil⟩ :=
        ih (contacting.insert record.id ⟨self.timer + 1⟩) { self with timer := self.timer + 1 }
      refine ⟨record.addr :: addrs, contacting', timer, .setTimer ⟨self.timer + 1⟩ target record :: es, ?_, hmarks, ?_⟩
      swap
      · rw [hnil]
        simp [Table.insert]
      rw [fill, hnext]
      refine ok_bind_ok ?_
      dsimp only
      rw [heq]
      exact (ok_bind_ok rfl).trans (by rw [List.append_nil])

theorem unsetTimers_eq (timerIds : List TimerId) :
    ∃ es : List (Effect K A σ), (unsetTimers timerIds : Handler K A σ Unit) = .ok () es ∧ marks es = [] := by
  induction timerIds with
  | nil => exact ⟨[], rfl, rfl⟩
  | cons timerId timerIds ih =>
    obtain ⟨es, heq, hmarks⟩ := ih
    refine ⟨.unsetTimer timerId :: es, ?_, hmarks⟩
    rw [unsetTimers]
    exact ok_bind_ok heq

/-! ## The start of a query -/

variable {self : Peer K A σ}

/-- The state of a query that starts. -/
structure Starts (s : Peer K A σ) (v : Verifiable (FindPeer K A) σ) (state : QueryState K A σ) : Prop where
  findPeer : state.findPeer = v
  closest : Closest v.inner.target (s.record :: s.buckets.records) (max v.inner.count 30 : ℕ+) state.records
  contacting : state.contacting.entries = [] ↔ s.firstContacts state.records = []
  contacted : state.contacted = {s.record.id}

theorem onSignedFindPeer_eq (hwf : self.buckets.Wf) (horigin : self.buckets.origin = self.record)
    (findPeer : Verifiable (FindPeer K A) σ) :
    (self.queryStates.lookup findPeer.inner.target = none → ∃ state timer es, self.onSignedFindPeer findPeer =
        .ok { self with timer := timer, queryStates := self.queryStates.insert findPeer.inner.target state } es ∧
      marks es = [.start findPeer.inner.target] ∧ self.Starts findPeer state) ∧
    (self.queryStates.lookup findPeer.inner.target ≠ none → ∃ es, self.onSignedFindPeer findPeer =
      .fail (.concurrentQuery findPeer.inner.target) es) := by
  obtain ⟨records, hclosest, hspec⟩ := Buckets.findClosest_closest (E := Effect K A σ) hwf findPeer.inner.target
    (max findPeer.inner.count 30)
  rw [horigin] at hspec
  have hne : records ≠ [] := by
    intro hnil
    have hlength := hspec.length
    rw [hnil, List.length_nil, List.length_cons] at hlength
    have := (max findPeer.inner.count 30).pos
    omega
  obtain ⟨contacting, timer, es, hcontact, hmarks, hnil⟩ :=
    contactEach_eq findPeer.inner.target (self.firstContacts records) .empty self
  unfold onSignedFindPeer
  simp only [hclosest, pure_bind, Outcome.assert, if_pos hne, ok_bind, hcontact]
  refine ⟨fun hnone => ?_, fun hsome => ?_⟩
  · refine ⟨⟨findPeer, records, contacting, {self.record.id}⟩, timer, es ++ [.start findPeer.inner.target,
      .sendFindPeer ((self.firstContacts records).map (·.addr)) findPeer], ?_, ?_, rfl, hspec, ?_, rfl⟩
    · refine ok_bind_ok ?_
      rw [hnone]
      rfl
    · rw [marks_append, hmarks]
      rfl
    · rw [hnil]
      simp [Table.empty]
  · obtain ⟨state, hstate⟩ := Option.ne_none_iff_exists'.mp hsome
    refine ⟨es ++ [], ?_⟩
    change Outcome.bind _ _ = _
    simp only [Outcome.bind, hstate]
    rfl

/-! ## The verdict on a query -/

/-- The state of a query before its verdict, its status and state then, and the peer. -/
inductive Judges (s : Peer K A σ) (target : Target) (state : QueryState K A σ) :
    QueryStatus → QueryState K A σ → Peer K A σ → Prop
  | converge (h : state.findPeer.inner.count ≤ (state.records.takeWhile (·.id ∈ state.contacted)).length) :
    Judges s target state .converge state { s with queryStates := s.queryStates.remove target }
  | halted {contacting : Table PeerId TimerId} {timer : UInt32}
    (h : ¬ state.findPeer.inner.count ≤ (state.records.takeWhile (·.id ∈ state.contacted)).length)
    (hold : state.contacting.entries = []) (hnone : contacting.entries = [])
    (hnext : nextContact state state.contacting = none) :
    Judges s target state .halted { state with contacting := contacting }
      { s with timer := timer, queryStates := s.queryStates.remove target }
  | progress {contacting : Table PeerId TimerId} {timer : UInt32}
    (h : ¬ state.findPeer.inner.count ≤ (state.records.takeWhile (·.id ∈ state.contacted)).length)
    (hsome : contacting.entries ≠ []) (hnext : state.contacting.entries = [] → nextContact state state.contacting ≠ none) :
    Judges s target state .progress { state with contacting := contacting }
      { s with
        timer := timer
        queryStates := s.queryStates.insert target { state with contacting := contacting } }

theorem advance_eq (self : Peer K A σ) (chance : Chance) (target : Target) (state : QueryState K A σ) :
    ∃ status state' self' es, self.Judges target state status state' self' ∧
      marks es = [.verdict target status state' (QueryState.closest state)] ∧
      self.advance chance target state =
        (.ok () es : Handler K A σ Unit) >>= fun _ => self'.conclude chance target status (QueryState.closest state) := by
  unfold advance
  by_cases hcount : state.findPeer.inner.count ≤ (state.records.takeWhile (·.id ∈ state.contacted)).length
  · obtain ⟨es, heq, hmarks⟩ := @unsetTimers_eq K A σ (state.contacting.entries.map Prod.snd)
    refine ⟨_, _, _, es ++ [.verdict target .converge state (QueryState.closest state)], .converge hcount, ?_, ?_⟩
    · rw [marks_append, hmarks]
      rfl
    · simp only [hcount, if_true, heq]
      exact ok_bind_bind rfl
  · obtain ⟨addrs, contacting, timer, es, heq, hmarks, hnil⟩ :=
      fill_eq target state (numConcurrency - state.contacting.len) state.contacting self
    simp only [hcount, if_false, heq]
    by_cases hempty : contacting.entries = []
    · obtain ⟨hold, hnext⟩ := hnil.mp hempty
      have hfuel : 0 < numConcurrency - state.contacting.len := by
        rw [Table.len, hold]
        decide
      refine ⟨_, _, { self with timer := timer, queryStates := self.queryStates.remove target },
        es ++ [.verdict target .halted { state with contacting := contacting } (QueryState.closest state)], .halted hcount hold hempty (hnext hfuel), ?_, ?_⟩
      · rw [marks_append, hmarks]
        rfl
      · refine ok_bind_bind ?_
        dsimp only
        rw [if_pos hempty]
        rfl
    · have hnext : state.contacting.entries = [] → nextContact state state.contacting ≠ none := fun hold hnone =>
        hempty (hnil.mpr ⟨hold, fun _ => hnone⟩)
      have hjudges : self.Judges target state .progress { state with contacting := contacting }
          { self with timer := timer, queryStates := self.queryStates.insert target { state with contacting := contacting } } :=
        .progress hcount hempty hnext
      by_cases haddrs : addrs ≠ []
      · refine ⟨_, _, _, es ++ [.sendFindPeer addrs state.findPeer, .verdict target .progress
          { state with contacting := contacting } (QueryState.closest state)], hjudges, ?_, ?_⟩
        · rw [marks_append, hmarks]
          rfl
        · refine ok_bind_bind ?_
          dsimp only
          rw [if_neg hempty, if_pos haddrs]
          exact ok_bind_bind rfl
      · refine ⟨_, _, _, es ++ [.verdict target .progress { state with contacting := contacting }
          (QueryState.closest state)], hjudges, ?_, ?_⟩
        · rw [marks_append, hmarks]
          rfl
        · refine ok_bind_bind ?_
          dsimp only
          rw [if_neg hempty, if_neg haddrs]
          rfl

end Peer

end

end Neatworks.Kademlia
