import Neatworks.PbftReplicated

/-!
# The order of execution

A primary that is not Byzantine fills its slots with the batches it closes, in
the order of the op numbers. A slot that is decided holds the batch of the
primary, so every replica executes the requests that the primary has admitted,
from the first on and in that order.
-/

namespace Neatworks.Pbft

open Outcome

section
variable {S A σ : Type}

theorem mem_closed {opNum : UInt32} {requests : List (Request A)} {es : List (Effect A σ)} :
    (opNum, requests) ∈ closed es ↔ ∃ viewNum, .signPrePrepare viewNum opNum requests ∈ submitted es := by
  simp only [closed, submitted, List.mem_filterMap]
  constructor
  · rintro ⟨e, he, hcloses⟩
    unfold Effect.closes at hcloses
    split at hcloses
    · cases hcloses
      exact ⟨_, _, he, rfl⟩
    · cases hcloses
  · rintro ⟨viewNum, e, he, hjob⟩
    unfold Effect.job at hjob
    split at hjob
    · cases hjob
      exact ⟨_, he, rfl⟩
    · cases hjob

/-! ## Op numbers -/

namespace Replica

section
variable [App S] {self : Replica S A σ}

end

end Replica

theorem slot_fill {r : Replica S A σ} {p q : Verifiable PrePrepare σ} {requests : List (Request A)} {k : Nat}
    (hq : (((r.reserve p.inner.opNum.toNat).fill p requests).entry k).prePrepare = some q) :
    (k = p.inner.opNum.toNat ∧ q = p ∧ (((r.reserve p.inner.opNum.toNat).fill p requests).entry k).requests = requests) ∨
      (r.entry k).prePrepare = some q ∧
        (((r.reserve p.inner.opNum.toNat).fill p requests).entry k).requests = (r.entry k).requests := by
  by_cases hk : k = p.inner.opNum.toNat
  · subst hk
    rw [Certified.entry_fill_reserve.1] at hq
    exact Or.inl ⟨rfl, (Option.some.inj hq).symm, Certified.entry_fill_reserve.2⟩
  · rw [Replica.entry_fill_of_ne hk, Replica.entry_reserve] at hq ⊢
    exact Or.inr ⟨hq, rfl⟩

/-- Its slots hold batches it has closed. -/
structure Node.Proposed (node : Node S A σ) : Prop where
  jobs : ∀ viewNum opNum requests, .signPrePrepare viewNum opNum requests ∈ node.jobs →
    (opNum, requests) ∈ closed node.history
  slots : ∀ k p, (node.replica.entry k).prePrepare = some p →
    p.inner.opNum.toNat = k ∧ (p.inner.opNum, (node.replica.entry k).requests) ∈ closed node.history

namespace Node.Proposed

section
variable {node : Node S A σ}

theorem apply (h : node.Proposed) {out : Handler A σ (Replica S A σ)}
    (hout : out.Sat (fun r es => ∀ k p, (r.entry k).prePrepare = some p →
      p.inner.opNum.toNat = k ∧ (p.inner.opNum, (r.entry k).requests) ∈ closed (node.history ++ es)) fun _ => True) :
    (node.apply out).Proposed := by
  refine Node.apply_sat (J := Node.Proposed) (hout.mono (fun r es hr => ⟨fun viewNum opNum requests hjob => ?_, hr⟩)
    fun es _ _ => ⟨fun viewNum opNum requests hjob => ?_, fun k p hp => ?_⟩)
  · rw [closed_append]
    rcases List.mem_append.mp hjob with hjob | hjob
    · exact List.mem_append_left _ (h.jobs viewNum opNum requests hjob)
    · exact List.mem_append_right _ (mem_closed.mpr ⟨viewNum, hjob⟩)
  · rw [closed_append]
    exact List.mem_append_left _ (h.jobs viewNum opNum requests hjob)
  · obtain ⟨hk, hmem⟩ := h.slots k p hp
    rw [closed_append]
    exact ⟨hk, List.mem_append_left _ hmem⟩

theorem apply_slots (h : node.Proposed) {out : Handler A σ (Replica S A σ)}
    (hout : out.Sat (fun r _ => SameSlots node.replica r) fun _ => True) : (node.apply out).Proposed := by
  refine h.apply (hout.mono (fun r es hslots k p hp => ?_) fun _ _ => trivial)
  rw [hslots.prePrepare] at hp
  obtain ⟨hk, hmem⟩ := h.slots k p hp
  rw [hslots.requests, closed_append]
  exact ⟨hk, List.mem_append_left _ hmem⟩

variable [App S] [DigestHash A]

/-- A pre-prepare that the primary finds valid is for a slot that is filled. -/
theorem step {crypto : Crypto σ} {input : Input A σ} (h : node.Proposed)
    (hverified : ∀ i p requests, node.finishes input = some (.verifyPrePrepare i p requests) →
      crypto.verify i p = true → (node.replica.entry p.inner.opNum.toNat).prePrepare ≠ none) :
    (node.step crypto input).Proposed := by
  refine Node.step_sat (J := Node.Proposed) (fun message _ => h.apply_slots ((Replica.onRecv_idle message).mono
    (fun _ _ hi => hi.slots) fun _ _ => trivial)) (fun _ => h) fun n job hinput hjob => ?_
  subst hinput
  have hleft : Node.Proposed { node with
      jobs := node.jobs.eraseIdx n, signed := node.signed ++ (job.signs crypto.scheme).toList } :=
    ⟨fun viewNum opNum requests hmem => h.jobs viewNum opNum requests (List.mem_of_mem_eraseIdx hmem), h.slots⟩
  have hrefl : SameSlots node.replica node.replica := .of_entry fun _ => rfl
  unfold Node.finish
  cases hrun : job.run crypto with
  | none => exact hleft
  | some event =>
    cases event with
    | signedPrePrepare p requests =>
      obtain ⟨viewNum, opNum, rfl, rfl⟩ := Job.run_signedPrePrepare hrun
      have hclosed := h.jobs viewNum opNum requests (List.mem_of_getElem? hjob)
      refine hleft.apply (Replica.onSignedPrePrepare_sat (fun _ k q hq => ?_) (fun _ _ k q hq => ?_) fun _ _ => trivial)
      · rw [List.append_nil]
        exact h.slots k q hq
      rw [closed_append]
      rcases slot_fill hq with ⟨rfl, rfl, hrequests⟩ | ⟨hold, hrequests⟩
      · rw [hrequests]
        exact ⟨rfl, List.mem_append_left _ hclosed⟩
      · obtain ⟨hopNum, hmem⟩ := h.slots k q hold
        rw [hrequests]
        exact ⟨hopNum, List.mem_append_left _ hmem⟩
    | verifiedPrePrepare p requests =>
      obtain ⟨i, rfl, -, hvalid⟩ := Job.run_verifiedPrePrepare hrun
      refine hleft.apply_slots (Replica.onVerifiedPrePrepare_sat hrefl (.of_entry (by simp)) fun _ hnone => ?_)
      exact absurd hnone (hverified i p requests hjob hvalid)
    | signedVote phase vote =>
      exact hleft.apply_slots (Replica.onSignedVote_sat (fun _ => hrefl) hrefl
        (fun _ _ => Replica.insertVote_slots phase vote) trivial)
    | verifiedVote phase vote =>
      refine hleft.apply_slots (Replica.onVerifiedVote_sat (fun _ => hrefl) fun _ => ?_)
      refine (Replica.insertVote_slots phase vote).mono (fun r es hr => ⟨fun _ => hr, fun votes _ => ?_⟩) fun _ _ => trivial
      exact (Replica.drainPending_idle _ votes).mono (fun _ _ hi => hr.trans hi.slots) fun _ _ => trivial

end

end Node.Proposed

section
variable [App S] [DigestHash A] {cfg : Config S σ} {sys : System A cfg} {C : System A cfg → cfg.Correct × Input A σ → Prop}

variable {s : System A cfg × List (Request A)}

/-- The batches of the primary, in the order of their op numbers. -/
structure Ordered (node : Node S A σ) (admitted : List (Request A)) (batches : List (List (Request A))) : Prop where
  admitted : batches.flatten <+: admitted
  increasing : ∀ clientId, ((batches.flatten.filter (·.clientId = clientId)).map (·.seq)).Pairwise (· < ·)
  slots : ∀ k p, (node.replica.entry k).prePrepare = some p →
    ∃ n, k = n + 1 ∧ batches[n]? = some (node.replica.entry k).requests

theorem Proposed.ordered {crypto : Crypto σ} {app : S} {numFaulty : Nat} {intake : Intake S A σ}
    (h : (intakeMachine crypto app numFaulty).Reach Machine.always intake) (hproposed : intake.node.Proposed)
    (hlt : intake.node.replica.opNum < 2 ^ 32) (hrunning : intake.node.stopped = none) :
    Ordered intake.node intake.admitted ((closed intake.node.history).map Prod.snd) := by
  have hqueued := (serves_reach h hrunning).queued
  have hadmitted : ((closed intake.node.history).map Prod.snd).flatten <+: intake.admitted := by
    rw [← hqueued.batches]
    exact List.prefix_append _ _
  refine ⟨hadmitted, fun clientId => ?_, fun k p hp => ?_⟩
  · exact (hqueued.increasing clientId).sublist ((hadmitted.sublist.filter _).map _)
  · obtain ⟨hk, hmem⟩ := hproposed.slots k p hp
    obtain ⟨n, hn⟩ := List.mem_iff_getElem?.mp hmem
    have hopNum := congrArg (·[n]?) hqueued.opNums
    have hlen : n < intake.node.replica.opNum := by
      have hlength := congrArg List.length hqueued.opNums
      rw [List.length_map, List.length_map, List.length_range] at hlength
      rw [← hlength]
      exact (List.getElem?_eq_some_iff.mp hn).1
    simp only [List.getElem?_map, hn, Option.map_some, List.getElem?_range hlen, Option.some.injEq] at hopNum
    refine ⟨n, ?_, by rw [List.getElem?_map, hn]; rfl⟩
    rw [← hk, hopNum]
    exact UInt32.toNat_ofNat_of_lt' (show n + 1 < 2 ^ 32 by omega)

end

end

/-! ## A run with a primary that is not Byzantine -/

/-- Four replicas of which the last is Byzantine. -/
def Config.honest : Config Null (Nat × Digest) where
  numReplica := 4
  numFaulty := 1
  enough := le_rfl
  faulty := {3}
  few := (Finset.card_singleton _).le
  scheme := Scheme.toy
  app := Null.mk

def Config.honest.replica (id : Fin 3) : Config.honest.Correct := ⟨.ofNat id, by revert id; decide⟩

/-- A step of the system, with what its primary admits. -/
def System.intake (s : System UInt8 Config.honest × List (Request UInt8))
    (label : Config.honest.Correct × Input UInt8 (Nat × Digest)) : Option (System UInt8 Config.honest × List (Request UInt8)) :=
  (s.1.exec Matching label).map fun sys =>
    (sys, s.2 ++ if label.1.1 = 0 then (s.1 label.1).replica.admitted label.2 else [])

end Neatworks.Pbft
