import Neatworks.KademliaVerdict

/-!
# The peers that a query is contacting

The lookup that a query starts with always finds the origin, so that it is never
empty; the query contacts a peer if and only if the table has another one.
-/

namespace Neatworks.Kademlia

open Outcome

section
variable {K A σ : Type}

theorem Closest.length_le_one {target : Target} {origin : PeerRecord K A} {records found : List (PeerRecord K A)} {count : Nat}
    (h : Closest target (origin :: records) count found) (hcount : 2 ≤ count)
    (hfound : ∀ record ∈ found, record.id = origin.id) : records = [] := by
  cases records with
  | nil => rfl
  | cons record records =>
    have hlength := h.length
    simp only [List.length_cons] at hlength
    match found, h.sorted, hlength, hfound with
    | [], _, hlength, _ => rw [List.length_nil] at hlength; omega
    | [_], _, hlength, _ => rw [List.length_singleton] at hlength; omega
    | a :: b :: _, hsorted, _, hfound =>
      have hlt := (List.pairwise_cons.mp hsorted).1 b List.mem_cons_self
      rw [hfound a List.mem_cons_self, hfound b (List.mem_cons_of_mem _ List.mem_cons_self)] at hlt
      exact absurd hlt (BitVec.lt_irrefl _)

namespace Peer

theorem Starts.contacting_eq_nil {s : Peer K A σ} {v : Verifiable (FindPeer K A) σ} {state : QueryState K A σ}
    (h : s.Starts v state) : state.contacting.entries = [] ↔ s.buckets.records = [] := by
  have hfirst : s.firstContacts state.records = [] ↔ ∀ record ∈ state.records, record.id = s.record.id := by
    unfold firstContacts numConcurrency
    simp [List.take_eq_nil_iff]
  rw [h.contacting, hfirst]
  refine ⟨fun hall => h.closest.length_le_one ?_ hall, fun hnil record hmem => ?_⟩
  · exact le_trans (by decide) (PNat.coe_le_coe _ _ |>.mpr (le_max_right v.inner.count 30))
  · have hsubset := h.closest.subset record hmem
    rw [hnil, List.mem_singleton] at hsubset
    rw [hsubset]

theorem Judges.contacting {s s' : Peer K A σ} {target : Target} {state state' : QueryState K A σ}
    (h : s.Judges target state .progress state' s') : state'.contacting.entries ≠ [] := by
  cases h with
  | progress _ hsome _ => exact hsome

end Peer

variable [DigestHash K] [DigestHash A] [DecidableEq K] [DecidableEq A] {crypto : PeerCrypto K σ}

/-- No query starts in this step while the table has no peer but the origin. -/
def Populated (node : Node K A σ) (input : Input K A σ) : Prop :=
  ∀ findPeer, node.finishes input = some (.signFindPeer findPeer) → node.peer.buckets.records ≠ []

/-- A query that starts is contacting a peer if and only if the table has one,
and every live query is contacting one as long as this is so. -/
theorem contacting_nonempty :
    (∀ node, (machine crypto).Reach Machine.always node → ∀ (findPeer : Verifiable (FindPeer K A) σ) (peer : Peer K A σ) es,
      node.peer.onSignedFindPeer findPeer = .ok peer es →
      ∃ state, peer.queryStates.lookup findPeer.inner.target = some state ∧
        (state.contacting.entries ≠ [] ↔ node.peer.buckets.records ≠ [])) ∧
    ∀ node, (machine crypto).Reach Populated node → ∀ target (state : QueryState K A σ),
      node.peer.queryStates.lookup target = some state → state.contacting.entries ≠ [] := by
  refine ⟨fun node h findPeer peer es hok => ?_, fun node h => ?_⟩
  · have hs := reach_sound h
    obtain ⟨hstart, hconcurrent⟩ := Peer.onSignedFindPeer_eq hs.wf hs.origin findPeer
    by_cases hnone : node.peer.queryStates.lookup findPeer.inner.target = none
    · obtain ⟨state, timer, es', heq, _, hstarts⟩ := hstart hnone
      rw [heq] at hok
      cases hok
      exact ⟨state, Table.lookup_insert_self _ _ _, not_congr hstarts.contacting_eq_nil⟩
    · obtain ⟨es', heq⟩ := hconcurrent hnone
      rw [heq] at hok
      cases hok
  · refine reach_induct (I := fun node => ∀ target (state : QueryState K A σ),
      node.peer.queryStates.lookup target = some state → state.contacting.entries ≠ []) (fun _ _ _ => nofun)
      (fun node input node' cause ms hI hs hpopulated hsteps => ?_) h
    obtain ⟨hmoves, _, _, _, _, hsigned⟩ := hsteps
    generalize hpeer : node'.peer = peer at hmoves
    cases hmoves with
    | calm _ _ hqueries _ _ =>
      rw [hqueries]
      exact hI
    | query => exact hI
    | bootstrap => exact hI
    | @start v state timer hnone hstate =>
      obtain ⟨findPeer, hfinishes⟩ := hsigned _ rfl
      have hstarted : state.contacting.entries ≠ [] := fun hnil =>
        hpopulated findPeer hfinishes (hstate.contacting_eq_nil.mp hnil)
      rw [Table.lookup_insert]
      exact forall_update_some hI hstarted
    | @reply reply buckets state state' merged status s₁ _ ms htakes hlive hmerges hjudges hconcludes =>
      rw [hconcludes.frame.2.2, hjudges.queries]
      by_cases hstatus : status = .progress
      · subst hstatus
        rw [if_pos rfl, Table.lookup_insert]
        exact forall_update_some hI hjudges.contacting
      · rw [if_neg hstatus, Table.lookup_remove]
        exact forall_update_none hI

instance (node : Node K A σ) (input : Input K A σ) : Decidable (Populated node input) :=
  match h : node.finishes input with
  | some (.signFindPeer findPeer) =>
    decidable_of_iff (node.peer.buckets.records ≠ []) <| by
      unfold Populated
      simp [h]
  | some (.verifyFindPeer _) | some (.signFindPeerOk _) | some (.verifyFindPeerOk _) | none =>
    .isTrue fun _ h' => by
      rw [h] at h'
      cases h'

end

/-- A query that another peer is found for. -/
theorem contacting_nonempty_one : ∃ node : Node UInt8 UInt8 UInt8, (machine (cryptoOf 1)).Reach Populated node ∧
    ∃ state, node.peer.queryStates.lookup (.replicate 32 3) = some state ∧ state.contacting.entries ≠ [] := by
  obtain ⟨node, hreach, hsome⟩ := reach_of_exec (cryptoOf 1) Populated (peerOf 1) [.insert (peerOf 2)]
    [.query ⟨.replicate 32 3, 2⟩, .complete 0 .least]
    (fun node => (node.peer.queryStates.lookup (.replicate 32 3)).isSome) (by decide +kernel)
  obtain ⟨state, hstate⟩ := Option.isSome_iff_exists.mp hsome
  exact ⟨node, hreach, state, hstate, contacting_nonempty.2 node hreach _ state hstate⟩

/-- A query in a table without seed peers. -/
theorem contacting_empty : ∃ node : Node UInt8 UInt8 UInt8, (machine (cryptoOf 1)).Reach Machine.always node ∧
    ∃ state, node.peer.queryStates.lookup (.replicate 32 3) = some state ∧ state.contacting.entries = [] := by
  obtain ⟨node, hreach, hsome⟩ := reach_of_exec (cryptoOf 1) Machine.always (peerOf 1) []
    [.query ⟨.replicate 32 3, 2⟩, .complete 0 .least]
    (fun node => ((node.peer.queryStates.lookup (.replicate 32 3)).any fun state => state.contacting.entries.isEmpty) = true)
    (by decide +kernel)
  obtain ⟨state, hstate, hempty⟩ := (Option.any_eq_true ..).mp hsome
  exact ⟨node, hreach, state, hstate, List.isEmpty_iff.mp hempty⟩

end Neatworks.Kademlia
