import Neatworks.KademliaMoves

/-!
# Messages that fail their handlers

A message that is verified can still be one of the peer itself, or carry a
record that differs from a known one of the same id. Its handler fails then, and
ends the session.
-/

namespace Neatworks.Kademlia

open Outcome

/-- The handler returns. -/
def IsOk {ε φ α : Type} (x : Outcome ε φ α) : Prop := ∃ a es, x = .ok a es

section
variable {K A σ : Type}

theorem isOk_ok {ε φ α : Type} (a : α) (es : List ε) : IsOk (.ok a es : Outcome ε φ α) := ⟨a, es, rfl⟩

theorem not_isOk_fail {ε φ α : Type} (reason : φ) (es : List ε) : ¬ IsOk (.fail reason es : Outcome ε φ α) :=
  fun ⟨_, _, h⟩ => nomatch h

namespace Peer

structure Accepts (s : Peer K A σ) (reply : FindPeerOk K A) : Prop where
  foreign : reply.record.id ≠ s.record.id
  agree : ∀ state, s.Live reply state → Agree (reply.closest ++ state.records)
  /-- When the reply ends a query of the bootstrap, its next queries can be told. -/
  bootstrap : ∀ state merged, s.Live reply state → Merges reply.target reply.closest state.records merged →
    s.onBootstrap = true → QueryState.Ends (QueryState.replied state reply.record.id merged) →
    (s.refreshTargets = ∅ → 1 < (distance s.record.id reply.record.id).toNat ∨ s.buckets.Beyond) ∧
    (s.refreshTargets ≠ ∅ → reply.target ∈ s.refreshTargets)

variable {self : Peer K A σ}

theorem onVerifiedFindPeer_isOk (hs : self.Sound) (findPeer : Verifiable (FindPeer K A) σ) :
    IsOk (self.onVerifiedFindPeer findPeer) ↔
      findPeer.inner.record.id ≠ self.record.id ∧ self.findPeerOkSeq.toNat + 1 < 2 ^ 32 := by
  by_cases hid : findPeer.inner.record.id = self.record.id
  · rw [onVerifiedFindPeer_origin hs.origin hid]
    exact ⟨fun h => absurd h (not_isOk_fail _ _), fun h => absurd hid h.1⟩
  · obtain ⟨buckets, hinsert, htakes⟩ := Buckets.insert_takes (E := Effect K A σ) findPeer.inner.record hs.wf
      (by rw [hs.origin]; exact hid)
    obtain ⟨hok, hoverflow⟩ := onVerifiedFindPeer_eq htakes.wf hinsert
    by_cases hseq : self.findPeerOkSeq.toNat + 1 < 2 ^ 32
    · obtain ⟨seq, dests, es, heq, _⟩ := hok hseq
      rw [heq]
      exact ⟨fun _ => ⟨hid, hseq⟩, fun _ => isOk_ok _ _⟩
    · rw [hoverflow hseq]
      exact ⟨fun h => absurd h (not_isOk_fail _ _), fun h => absurd h.2 hseq⟩

variable [DecidableEq K] [DecidableEq A]

theorem onVerifiedFindPeerOk_isOk (hs : self.Sound) (chance : Chance) (findPeerOk : Verifiable (FindPeerOk K A) σ) :
    IsOk (self.onVerifiedFindPeerOk chance findPeerOk) ↔ self.Accepts findPeerOk.inner := by
  by_cases hid : findPeerOk.inner.record.id = self.record.id
  · rw [onVerifiedFindPeerOk_origin hs.origin hid]
    exact ⟨fun h => absurd h (not_isOk_fail _ _), fun h => absurd hid h.foreign⟩
  obtain ⟨buckets, hinsert, htakes⟩ := Buckets.insert_takes (E := Effect K A σ) findPeerOk.inner.record hs.wf
    (by rw [hs.origin]; exact hid)
  by_cases hidle : ∀ state, ¬ self.Live findPeerOk.inner state
  · rw [onVerifiedFindPeerOk_idle hinsert hidle]
    exact ⟨fun _ => ⟨hid, fun state hlive => absurd hlive (hidle state), fun state _ hlive => absurd hlive (hidle state)⟩,
      fun _ => isOk_ok _ _⟩
  obtain ⟨state, hlive⟩ := not_forall_not.mp hidle
  have hunique : ∀ state', self.Live findPeerOk.inner state' → state' = state := fun state' hlive' =>
    Option.some_inj.mp (hlive'.lookup.symm.trans hlive.lookup)
  obtain ⟨hdiffer, hagree⟩ := onVerifiedFindPeerOk_live chance hinsert hlive (hs.sorted _ _ hlive.lookup)
  by_cases hok : Agree (findPeerOk.inner.closest ++ state.records)
  · obtain ⟨merged, hmerges, status, state', self', es, hjudges, _, heq⟩ := hagree hok
    have horigin : self'.buckets.origin = self'.record := by
      rw [hjudges.frame.1, hjudges.frame.2.1]
      exact htakes.origin.trans hs.origin
    have haccepts : self.Accepts findPeerOk.inner ↔
        (self'.onBootstrap = true → status ≠ .progress → self'.Continues findPeerOk.inner.target) := by
      obtain ⟨hbuckets, _, hrefresh, hboot⟩ := hjudges.frame
      rw [hjudges.ends, hboot]
      have hcontinues : self'.Continues findPeerOk.inner.target ↔
          (self.refreshTargets = ∅ → 1 < (distance self.record.id findPeerOk.inner.record.id).toNat ∨ self.buckets.Beyond) ∧
          (self.refreshTargets ≠ ∅ → findPeerOk.inner.target ∈ self.refreshTargets) := by
        have hbeyond := htakes.beyond
        rw [hs.origin] at hbeyond
        constructor
        · intro ⟨h₁, h₂⟩
          rw [hbuckets, hrefresh] at h₁
          rw [hrefresh] at h₂
          exact ⟨fun hempty => hbeyond.mp (h₁ hempty), h₂⟩
        · intro ⟨h₁, h₂⟩
          refine ⟨?_, ?_⟩
          · rw [hbuckets, hrefresh]
            exact fun hempty => hbeyond.mpr (h₁ hempty)
          · rw [hrefresh]
            exact h₂
      rw [hcontinues]
      refine ⟨fun h => h.bootstrap state merged hlive hmerges, fun h => ⟨hid, fun state' hlive' => ?_, fun state' merged' hlive' hmerges' => ?_⟩⟩
      · rw [hunique state' hlive']
        exact hok
      · obtain rfl := hunique state' hlive'
        obtain rfl := hmerges'.unique hmerges
        exact h
    rw [haccepts, heq]
    obtain ⟨hconcludes, hpanic⟩ := conclude_eq self' chance findPeerOk.inner.target status (QueryState.closest state') horigin
    by_cases hcontinue : self'.onBootstrap = true → status ≠ .progress → self'.Continues findPeerOk.inner.target
    · obtain ⟨s₂, es', heq', _⟩ := hconcludes hcontinue
      exact ⟨fun _ => hcontinue, fun _ => ⟨s₂, _, ok_bind_ok heq'⟩⟩
    · obtain ⟨panic, heq', _⟩ := hpanic hcontinue
      refine ⟨fun ⟨a, es', h⟩ => ?_, fun h => absurd h hcontinue⟩
      obtain ⟨_, _, _, _, h', _⟩ := bind_eq_ok.mp h
      rw [heq'] at h'
      cases h'
  · obtain ⟨es, heq⟩ := hdiffer hok
    rw [heq]
    exact ⟨fun h => absurd h (not_isOk_fail _ _), fun h => absurd (h.agree state hlive) hok⟩

end Peer

variable [DigestHash K] [DigestHash A] [DecidableEq K] [DecidableEq A] {crypto : PeerCrypto K σ}

/-- Which messages a peer can take, in every state that it reaches. -/
theorem remote_isOk {node : Node K A σ} (h : (machine crypto).Reach Machine.always node) :
    (∀ findPeer : Verifiable (FindPeer K A) σ, IsOk (node.peer.onVerifiedFindPeer findPeer) ↔
      findPeer.inner.record.id ≠ node.peer.record.id ∧ node.peer.findPeerOkSeq.toNat + 1 < 2 ^ 32) ∧
    ∀ (chance : Chance) (findPeerOk : Verifiable (FindPeerOk K A) σ),
      IsOk (node.peer.onVerifiedFindPeerOk chance findPeerOk) ↔ node.peer.Accepts findPeerOk.inner :=
  ⟨Peer.onVerifiedFindPeer_isOk (reach_sound h), Peer.onVerifiedFindPeerOk_isOk (reach_sound h)⟩

end

/-- The request of another peer. -/
theorem remote_isOk_request : ∃ node : Node UInt8 UInt8 UInt8, (machine (cryptoOf 1)).Reach Machine.always node ∧
    Verifies (cryptoOf 1) (peerOf 2) ((cryptoOf 2).sign (⟨.replicate 32 3, 2, peerOf 2⟩ : FindPeer UInt8 UInt8)) ∧
    IsOk (node.peer.onVerifiedFindPeer ((cryptoOf 2).sign ⟨.replicate 32 3, 2, peerOf 2⟩)) := by
  obtain ⟨node, hreach, hid, hseq⟩ := reach_of_exec (cryptoOf 1) Machine.always (peerOf 1) [] []
    (fun node => (peerOf 2).id ≠ node.peer.record.id ∧ node.peer.findPeerOkSeq.toNat + 1 < 2 ^ 32) (by decide +kernel)
  exact ⟨node, hreach, by decide +kernel, ((remote_isOk hreach).1 _).mpr ⟨hid, hseq⟩⟩

/-- The peer's own request, sent back to it. -/
theorem remote_reflected : ∃ node : Node UInt8 UInt8 UInt8, (machine (cryptoOf 1)).Reach Machine.always node ∧
    ∃ addrs findPeer, .sendFindPeer addrs findPeer ∈ node.history ∧ Verifies (cryptoOf 1) findPeer.inner.record findPeer ∧
      ¬ IsOk (node.peer.onVerifiedFindPeer findPeer) := by
  obtain ⟨node, hreach, hsent, hid⟩ := reach_of_exec (cryptoOf 1) Machine.always (peerOf 1) [.insert (peerOf 2)]
    [.query ⟨.replicate 32 3, 2⟩, .complete 0 .least]
    (fun node => (node.history.any fun
      | .sendFindPeer _ findPeer => decide (Verifies (cryptoOf 1) findPeer.inner.record findPeer ∧
          findPeer.inner.record.id = (peerOf 1).id)
      | _ => false) = true ∧ node.peer.record.id = (peerOf 1).id) (by decide +kernel)
  obtain ⟨e, hmem, he⟩ := List.any_eq_true.mp hsent
  split at he
  · next addrs findPeer =>
    obtain ⟨hverifies, hown⟩ := of_decide_eq_true he
    refine ⟨node, hreach, addrs, findPeer, hmem, hverifies, fun hok => ?_⟩
    exact (((Peer.onVerifiedFindPeer_isOk (reach_sound hreach) findPeer).mp hok).1) (hown.trans hid.symm)
  · cases he

end Neatworks.Kademlia
