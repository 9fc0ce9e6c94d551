import Mathlib.Data.List.TakeWhile
import Neatworks.KademliaMoves

/-!
# The verdicts on queries

The records of a query are in increasing distance, so its verdict can be read
off them. A query has one verdict at most that ends it.
-/

namespace Neatworks.Kademlia

open Outcome

theorem take_filter_of_le_takeWhile {α : Type} {l : List α} {p : α → Bool} {n : Nat} (h : n ≤ (l.takeWhile p).length) :
    (l.filter p).take n = l.take n := by
  have hsplit := List.takeWhile_append_dropWhile (p := p) (l := l)
  have hall : (l.takeWhile p).filter p = l.takeWhile p := List.filter_eq_self.mpr fun a ha => List.mem_takeWhile_imp ha
  rw [← hsplit, List.filter_append, hall, List.take_append_of_le_length h, List.take_append_of_le_length h]

section
variable {K A σ : Type}

/-! ## What a verdict says -/

/-- The status of a query to `target` in this state, the records returned with it, and the peer after it. -/
structure Judged (peer : Peer K A σ) (target : Target) (status : QueryStatus) (state : QueryState K A σ)
    (closest : List (PeerRecord K A)) : Prop where
  converge : status = .converge → closest = state.records.take state.findPeer.inner.count ∧
    closest.length = state.findPeer.inner.count ∧ (∀ record ∈ closest, record.id ∈ state.contacted) ∧
    ∀ known ∈ state.records, known ∉ closest → ∀ record ∈ closest, distance record.id target < distance known.id target
  halted : status = .halted → (∀ record ∈ state.records, record.id ∈ state.contacted) ∧ state.contacting.entries = [] ∧
    state.records.length < state.findPeer.inner.count ∧ closest = state.records
  progress : status = .progress → state.contacting.entries ≠ [] ∧ peer.queryStates.lookup target = some state
  ended : status ≠ .progress → peer.queryStates.lookup target = none

theorem Peer.nextContact_none {state : QueryState K A σ} {contacting : Table PeerId TimerId}
    (hempty : contacting.entries = []) (h : nextContact state contacting = none) :
    ∀ record ∈ state.records, record.id ∈ state.contacted := by
  intro record hmem
  have hfind := List.find?_eq_none.mp h record hmem
  have hlookup : contacting.lookup record.id = none := Table.lookup_eq_none.mpr fun v => by
    rw [hempty]
    exact List.not_mem_nil
  by_contra hnot
  simp [hnot, hlookup] at hfind

theorem Peer.Judges.judged {s s₁ s₂ : Peer K A σ} {target : Target} {state state' : QueryState K A σ} {status : QueryStatus}
    (h : s.Judges target state status state' s₁) (hsorted : Sorted target state.records)
    (hqueries : s₂.queryStates = s₁.queryStates) : Judged s₂ target status state' (Peer.QueryState.closest state') := by
  cases h with
  | converge h =>
    have hclosest : Peer.QueryState.closest state = state.records.take state.findPeer.inner.count :=
      take_filter_of_le_takeWhile h
    refine ⟨fun _ => ⟨hclosest, ?_, fun record hmem => ?_, fun known hknown hnot record hmem => ?_⟩, nofun, nofun, fun _ => ?_⟩
    · rw [hclosest, List.length_take]
      exact Nat.min_eq_left (h.trans (List.takeWhile_sublist _).length_le)
    · exact of_decide_eq_true (List.mem_filter.mp (List.mem_of_mem_take hmem)).2
    · rw [hclosest] at hnot hmem
      rw [← List.take_append_drop (state.findPeer.inner.count : Nat) state.records] at hsorted hknown
      exact (List.pairwise_append.mp hsorted).2.2 record hmem known ((List.mem_append.mp hknown).resolve_left hnot)
    · rw [hqueries]
      exact Table.lookup_remove_self _ _
  | @halted contacting timer h hold hnone hnext =>
    have hall := Peer.nextContact_none hold hnext
    have hlt : state.records.length < state.findPeer.inner.count := by
      rw [List.takeWhile_eq_self_iff.mpr fun record hmem => decide_eq_true (hall record hmem)] at h
      exact Nat.not_le.mp h
    have hclosest : Peer.QueryState.closest state = state.records := by
      unfold Peer.QueryState.closest
      rw [List.filter_eq_self.mpr fun record hmem => decide_eq_true (hall record hmem), List.take_of_length_le hlt.le]
    refine ⟨nofun, fun _ => ⟨hall, hnone, hlt, hclosest⟩, nofun, fun _ => ?_⟩
    rw [hqueries]
    exact Table.lookup_remove_self _ _
  | progress h hsome hnext =>
    refine ⟨nofun, nofun, fun _ => ⟨hsome, ?_⟩, fun hne => absurd rfl hne⟩
    rw [hqueries]
    exact Table.lookup_insert_self _ _ _

/-! ## The queries that have started and ended -/

def Effect.starts (target : Target) : Effect K A σ → Bool
  | .start t => t = target
  | _ => false

/-- A verdict that ends a query to the target. -/
def Effect.ends (target : Target) : Effect K A σ → Bool
  | .verdict t status _ _ => decide (t = target) && decide (status ≠ .progress)
  | _ => false

theorem countP_marks {p : Effect K A σ → Bool} (h : ∀ e, p e = true → e.mark = true) (es : List (Effect K A σ)) :
    (marks es).countP p = es.countP p := by
  unfold marks
  rw [List.countP_filter]
  refine List.countP_congr fun e _ => ?_
  rw [Bool.and_eq_true]
  exact ⟨fun hp => hp.1, fun hp => ⟨hp, h e hp⟩⟩

theorem starts_mark (target : Target) (e : Effect K A σ) (h : e.starts target = true) : e.mark = true := by
  cases e <;> first | rfl | cases h

theorem ends_mark (target : Target) (e : Effect K A σ) (h : e.ends target = true) : e.mark = true := by
  cases e <;> first | rfl | cases h

/-- Of the queries to the target the last one has not ended if there is a state
for it, and all others have ended. -/
def Balanced (node : Node K A σ) : Prop := ∀ target,
  node.history.countP (Effect.starts target) =
    node.history.countP (Effect.ends target) + if (node.peer.queryStates.lookup target).isSome then 1 else 0

theorem Peer.Concludes.counts {s s' : Peer K A σ} {target : Target} {closest : List (PeerRecord K A)} {status : QueryStatus}
    {ms : List (Effect K A σ)} (h : s.Concludes target closest status s' ms) (t : Target) :
    ms.countP (Effect.starts t) = 0 ∧ ms.countP (Effect.ends t) = 0 := by
  cases h <;> exact ⟨rfl, rfl⟩

theorem Peer.Concludes.upcall_eq {s s' : Peer K A σ} {target : Target} {closest : List (PeerRecord K A)}
    {status : QueryStatus} {ms : List (Effect K A σ)} {result : QueryResult K A}
    (h : s.Concludes target closest status s' ms) (hmem : .upcall result ∈ ms) : result = ⟨status, target, closest⟩ := by
  cases h <;> simp at hmem
  exact hmem

theorem Balanced.move {node node' : Node K A σ} {cause : Peer.Cause} {ms : List (Effect K A σ)} (h : Balanced node)
    (hmoves : node.peer.Moves cause node'.peer ms) (hhistory : marks node'.history = marks node.history ++ ms) :
    Balanced node' := by
  intro target
  have hbalanced := h target
  rw [← countP_marks (starts_mark target), ← countP_marks (ends_mark target)] at hbalanced ⊢
  rw [hhistory, List.countP_append, List.countP_append, hbalanced]
  generalize hpeer : node'.peer = peer at hmoves
  cases hmoves with
  | calm hbuckets hrecord hqueries hrefresh hboot => simp [hqueries]
  | query => rfl
  | bootstrap => rfl
  | @start v state timer hnone hstate =>
    by_cases htarget : target = v.inner.target
    · subst htarget
      simp [hnone, Effect.starts, Effect.ends]
    · have hne : ¬ v.inner.target = target := fun heq => htarget heq.symm
      simp [Table.lookup_insert_ne htarget, Effect.starts, Effect.ends, hne]
  | @reply reply buckets state state' merged status s₁ _ ms htakes hlive hmerges hjudges hconcludes =>
    obtain ⟨hstarts, hends⟩ := hconcludes.counts target
    rw [hconcludes.frame.2.2, hjudges.queries, List.countP_cons, List.countP_cons, hstarts, hends]
    by_cases htarget : target = reply.target
    · subst htarget
      by_cases hstatus : status = .progress
      · simp [hlive.lookup, hstatus, Effect.starts, Effect.ends]
      · simp [hlive.lookup, hstatus, Effect.starts, Effect.ends]
    · have hne : ¬ reply.target = target := fun heq => htarget heq.symm
      have hlookup : Table.lookup (if status = .progress then node.peer.queryStates.insert reply.target state'
          else node.peer.queryStates.remove reply.target) target = node.peer.queryStates.lookup target := by
        by_cases hstatus : status = .progress
        · rw [if_pos hstatus, Table.lookup_insert_ne htarget]
        · rw [if_neg hstatus, Table.lookup_remove_ne htarget]
      simp [hlookup, Effect.starts, Effect.ends, hne]

/-! ## The verdicts -/

variable [DigestHash K] [DigestHash A] [DecidableEq K] [DecidableEq A] {crypto : PeerCrypto K σ}

/-- A reply that its handler takes for a query has one verdict, and the upcall
says no other; the states that a query leaves behind are none. -/
theorem verdict_correct {node : Node K A σ} (h : (machine crypto).Reach Machine.always node) :
    (∀ (chance : Chance) (findPeerOk : Verifiable (FindPeerOk K A) σ) (old : QueryState K A σ) (peer : Peer K A σ)
        (es : List (Effect K A σ)), node.peer.Live findPeerOk.inner old →
        node.peer.onVerifiedFindPeerOk chance findPeerOk = .ok peer es →
      ∃ status state closest, .verdict findPeerOk.inner.target status state closest ∈ es ∧
        (∀ result, .upcall result ∈ es → result = ⟨status, findPeerOk.inner.target, closest⟩) ∧
        state.findPeer = old.findPeer ∧ state.contacted = insert findPeerOk.inner.record.id old.contacted ∧
        Merges findPeerOk.inner.target findPeerOk.inner.closest old.records state.records ∧
        Judged peer findPeerOk.inner.target status state closest) ∧
    Balanced node := by
  refine ⟨fun chance findPeerOk old peer es hlive hok => ?_, ?_⟩
  · have hs := reach_sound h
    obtain ⟨buckets, merged, status, state, s₁, ms, _, hmerges, hjudges, hconcludes, hmarks⟩ :=
      Peer.onVerifiedFindPeerOk_reply hs hlive hok
    have hmem : ∀ e : Effect K A σ, e.mark = true → (e ∈ es ↔ e ∈ marks es) := fun e he =>
      ⟨fun hes => List.mem_filter.mpr ⟨hes, he⟩, fun hes => (List.mem_filter.mp hes).1⟩
    refine ⟨status, state, Peer.QueryState.closest state, ?_, fun result hresult => ?_, ?_, ?_, ?_,
      hjudges.judged hmerges.sorted hconcludes.frame.2.2⟩
    · rw [hmem _ rfl, hmarks]
      exact List.mem_cons_self
    · rw [hmem _ rfl, hmarks] at hresult
      rcases List.mem_cons.mp hresult with heq | hresult
      · cases heq
      · exact hconcludes.upcall_eq hresult
    · cases hjudges <;> rfl
    · cases hjudges <;> rfl
    · cases hjudges <;> exact hmerges
  · refine reach_induct (I := Balanced) (fun buckets target => rfl) (fun node input node' cause ms hbalanced _ _ hsteps => ?_) h
    exact hbalanced.move hsteps.moves hsteps.history

end

/-- A peer that replies with no records is the only one there is. -/
theorem verdict_correct_converge : ∃ node : Node UInt8 UInt8 UInt8, (machine (cryptoOf 1)).Reach Machine.always node ∧
    ∃ peer es, node.peer.onVerifiedFindPeerOk .least ((cryptoOf 2).sign ⟨1, .replicate 32 3, [], peerOf 2⟩) = .ok peer es ∧
      ∃ status state closest, .verdict (.replicate 32 3) status state closest ∈ es ∧
        Judged peer (.replicate 32 3) status state closest := by
  obtain ⟨node, hreach, hok⟩ := reach_of_exec (cryptoOf 1) Machine.always (peerOf 1) [.insert (peerOf 2)]
    [.query ⟨.replicate 32 3, 2⟩, .complete 0 .least]
    (fun node => (match node.peer.queryStates.lookup (.replicate 32 3) with
        | none => false
        | some state => (state.contacting.lookup (peerOf 2).id).isSome) = true ∧
      (match node.peer.onVerifiedFindPeerOk .least ((cryptoOf 2).sign ⟨1, .replicate 32 3, [], peerOf 2⟩) with
        | .ok _ _ => true
        | .fail _ _ => false) = true) (by decide +kernel)
  obtain ⟨hlive, hok⟩ := hok
  split at hlive
  · cases hlive
  · next state hstate =>
    split at hok
    · next peer es heq =>
      obtain ⟨status, state', closest, hmem, _, _, _, _, hjudged⟩ := (verdict_correct hreach).1 .least _ state peer es
        ⟨hstate, fun hnone => by
          change state.contacting.lookup (peerOf 2).id = none at hnone
          rw [hnone] at hlive
          cases hlive⟩ heq
      exact ⟨node, hreach, peer, es, heq, status, state', closest, hmem, hjudged⟩
    · cases hok

end Neatworks.Kademlia
