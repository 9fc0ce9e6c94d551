import Neatworks.PbftPrefix
import Neatworks.ReplicatedLog

/-!
# The application of a replica

A replica calls `execute` on its application only, from the state that the calls
before have left. So the results are those that the application gives to the
requests in the order of the calls, also in the handler that fails.
-/

namespace Neatworks.Pbft

open Outcome

section
variable {S A σ : Type}

def Effect.outcome : Effect A σ → Option ((Nat × Request A) × Option Payload)
  | .execute opNum request result => some ((opNum, request), result)
  | _ => none

/-- The calls of `execute` with their results, in order. -/
def outcomes (es : List (Effect A σ)) : List ((Nat × Request A) × Option Payload) := es.filterMap Effect.outcome

@[simp] theorem outcomes_nil : outcomes ([] : List (Effect A σ)) = [] := rfl

@[simp] theorem outcomes_append (es es' : List (Effect A σ)) : outcomes (es ++ es') = outcomes es ++ outcomes es' :=
  List.filterMap_append ..

@[simp] theorem outcomes_submit (job : Job A σ) (es : List (Effect A σ)) : outcomes (.submit job :: es) = outcomes es := rfl

@[simp] theorem outcomes_sendAll (message : ToReplica A σ) (es : List (Effect A σ)) :
    outcomes (.sendAll message :: es) = outcomes es := rfl

@[simp] theorem outcomes_sendClient (addr : A) (id : UInt32) (reply : Reply) (es : List (Effect A σ)) :
    outcomes (.sendClient addr id reply :: es) = outcomes es := rfl

@[simp] theorem outcomes_execute (k : Nat) (request : Request A) (result : Option Payload) (es : List (Effect A σ)) :
    outcomes (.execute k request result :: es) = ((k, request), result) :: outcomes es := rfl

theorem map_outcomes (es : List (Effect A σ)) : (outcomes es).map Prod.fst = executions es := by
  rw [outcomes, List.map_filterMap, executions]
  refine List.filterMap_congr fun e _ => ?_
  cases e <;> rfl

theorem executions_of_outcomes {es : List (Effect A σ)} (h : outcomes es = []) : executions es = [] := by
  rw [← map_outcomes, h]
  rfl

/-! ## Handlers that leave the application as it is -/

namespace Replica

section
variable {self : Replica S A σ}

theorem closeBatch_leaves : self.closeBatch.Sat (fun r es => r.app = self.app ∧ outcomes es = []) fun es => outcomes es = [] :=
  closeBatch_sat (fun _ _ _ => ⟨rfl, rfl⟩) rfl

theorem onRecv_leaves (message : ToReplica A σ) :
    (self.onRecv message).Sat (fun r es => r.app = self.app ∧ outcomes es = []) fun es => outcomes es = [] := by
  cases message with
  | request request =>
    exact onRecvRequest_sat ⟨rfl, rfl⟩ (fun _ _ => ⟨rfl, rfl⟩) (fun _ _ => ⟨⟨rfl, rfl⟩, closeBatch_leaves⟩) rfl
  | prePrepare prePrepare requests => exact onRecvPrePrepare_sat ⟨rfl, rfl⟩ (fun _ _ => ⟨rfl, rfl⟩) rfl
  | vote phase vote =>
    exact onRecvVote_sat (fun _ _ => ⟨by simp, rfl⟩) ⟨rfl, rfl⟩ (fun _ _ _ => ⟨by simp, rfl⟩) rfl

theorem drainPending_leaves {phase : Phase} (k : UInt32) (votes : List (Verifiable (Vote phase) σ)) :
    (drainPending phase k votes self).Sat (fun r es => r.app = self.app ∧ outcomes es = []) fun es => outcomes es = [] :=
  drainPending_sat votes ⟨by simp, rfl⟩ (fun _ _ _ _ _ _ => ⟨by simp, rfl⟩) rfl

end

end Replica

/-! ## Replays -/

section
variable [App S]

/-- `app.execute` on a request, for its op number. -/
def executeRequest (app : S) (entry : Nat × Request A) : Option (S × Payload) := App.execute app entry.2.op

/-- The calls are those of the application in the state `app`. -/
def Replayed (app : S) (es : List (Effect A σ)) : Prop := outcomes es = replay executeRequest app (executions es)

/-- And they leave it in the state `app'`. -/
structure Replays (app app' : S) (es : List (Effect A σ)) : Prop where
  replayed : Replayed app es
  resume : resume executeRequest app (executions es) = some app'

section
variable {app app' app'' : S} {es es' : List (Effect A σ)}

theorem replayed_of_nil (h : outcomes es = []) : Replayed app es := by
  rw [Replayed, h, executions_of_outcomes h]
  rfl

theorem replays_of_nil (h : outcomes es = []) (happ : app' = app) : Replays app app' es where
  replayed := replayed_of_nil h
  resume := by
    rw [executions_of_outcomes h, happ]
    rfl

theorem Replays.fail (h : Replays app app' es) (h' : Replayed app' es') : Replayed app (es ++ es') := by
  rw [Replayed, outcomes_append, executions_append, replay_append _ h.resume, h.replayed, h']

theorem Replays.trans (h : Replays app app' es) (h' : Replays app' app'' es') : Replays app app'' (es ++ es') where
  replayed := h.fail h'.replayed
  resume := by rw [executions_append, resume_append _ h.resume, h'.resume]

theorem Replays.quiet (h : Replays app app' es) (hes : outcomes es' = []) (happ : app'' = app') :
    Replays app app'' (es ++ es') := h.trans (replays_of_nil hes happ)

theorem Replays.refused (h : Replays app app' es) {k : Nat} {request : Request A}
    (hnone : App.execute app' request.op = none) : Replayed app (es ++ [.execute k request none]) := by
  refine h.fail ?_
  simp [Replayed, replay, executeRequest, hnone]

theorem Replays.executed (h : Replays app app' es) {k : Nat} {request : Request A} {result : Payload} {addr : A}
    {id : UInt32} {reply : Reply} (hsome : App.execute app' request.op = some (app'', result)) :
    Replays app app'' (es ++ [.execute k request (some result), .sendClient addr id reply]) := by
  refine h.trans ⟨?_, ?_⟩
  · simp [Replayed, replay, executeRequest, hsome]
  · simp [Neatworks.resume, executeRequest, hsome]

end

/-! ## The handlers -/

namespace Replica

section
variable {self : Replica S A σ}

theorem advance_replays : self.advance.Sat (fun r es => Replays self.app r.app es) (Replayed self.app) := by
  refine advance_sat (I := fun r es => Replays self.app r.app es) (fun _ _ h => h.replayed) (fun entry r es h _ _ _ => ?_)
    (fun r es h => ?_) [] (replays_of_nil rfl rfl)
  · exact executeRequests_sat (I := fun _ r es => Replays self.app r.app es) (fun _ _ _ _ h hnone => h.refused hnone)
      (fun _ _ _ _ _ _ h hsome => h.executed hsome) entry.requests es h
  · exact closeBatch_leaves.mono (fun _ _ hclose => h.quiet hclose.2 hclose.1)
      fun _ hclose => h.fail (replayed_of_nil hclose)

theorem insertVote_replays (phase : Phase) (vote : Verifiable (Vote phase) σ) :
    (self.insertVote phase vote).Sat (fun r es => Replays self.app r.app es) (Replayed self.app) := by
  have hnil : Replayed self.app ([] : List (Effect A σ)) := replayed_of_nil rfl
  cases phase with
  | prepare =>
    exact insertPrepare_sat (replays_of_nil rfl (by simp [record]))
      (fun _ _ _ => replays_of_nil rfl (by simp [record, closeQuorum])) hnil
  | commit =>
    refine insertCommit_sat (replays_of_nil rfl (by simp [record])) (fun _ _ _ _ => ?_) hnil
    have happ : ((self.record .commit vote).closeQuorum .commit vote.inner.opNum (self.quorumWith .commit vote)).app =
        self.app := by simp [record, closeQuorum]
    rw [← happ]
    exact advance_replays

theorem onEvent_replays (event : Event A σ) :
    (self.onEvent event).Sat (fun r es => Replays self.app r.app es) (Replayed self.app) := by
  have hkeep : Replays self.app self.app ([] : List (Effect A σ)) := replays_of_nil rfl rfl
  cases event with
  | signedPrePrepare p requests =>
    exact onSignedPrePrepare_sat (fun _ => hkeep) (fun _ _ => replays_of_nil rfl (by simp [fill]))
      fun _ _ => hkeep.replayed
  | verifiedPrePrepare p requests =>
    exact onVerifiedPrePrepare_sat hkeep (replays_of_nil rfl (by simp))
      fun _ _ => replays_of_nil rfl (by simp [fill, retainDigest])
  | signedVote phase vote =>
    have hsend : Replays self.app self.app [Effect.sendAll (.vote phase vote : ToReplica A σ)] := replays_of_nil rfl rfl
    exact onSignedVote_sat (fun _ => hkeep) hsend (fun _ _ => (insertVote_replays phase vote).mono
      (fun _ _ h => hsend.trans h) fun _ h => hsend.fail h) hsend.replayed
  | verifiedVote phase vote =>
    refine onVerifiedVote_sat (fun _ => hkeep) fun _ => ?_
    refine (insertVote_replays phase vote).mono (fun r es h => ⟨fun _ => h, fun votes _ => ?_⟩) fun _ h => h
    exact (drainPending_leaves _ votes).mono (fun _ _ hdrain => h.quiet hdrain.2 hdrain.1)
      fun _ hdrain => h.fail (replayed_of_nil hdrain)

end

end Replica

/-! ## The replica of a run -/

structure Node.Replays (app : S) (node : Node S A σ) : Prop where
  replayed : Replayed app node.history
  resume : node.stopped = none → resume executeRequest app (executions node.history) = some node.replica.app

theorem Node.Replays.apply {app : S} {node : Node S A σ} (h : node.Replays app) (hrunning : node.stopped = none)
    {out : Handler A σ (Replica S A σ)}
    (hout : out.Sat (fun r es => Pbft.Replays node.replica.app r.app es) (Replayed node.replica.app)) :
    (node.apply out).Replays app := by
  have hnode : Pbft.Replays app node.replica.app node.history := ⟨h.replayed, h.resume hrunning⟩
  refine Node.apply_sat (J := Node.Replays app) (hout.mono (fun r es hr => ?_) fun es hes reason => ?_)
  · exact ⟨(hnode.trans hr).replayed, fun _ => (hnode.trans hr).resume⟩
  · exact ⟨hnode.fail hes, fun hstopped => by cases hstopped⟩

variable [DigestHash A]

theorem Node.Replays.step {crypto : Crypto σ} {app : S} {node : Node S A σ} {input : Input A σ} (h : node.Replays app)
    (hrunning : node.stopped = none) : (node.step crypto input).Replays app := by
  refine Node.step_sat (J := Node.Replays app) (fun message _ => ?_) (fun _ => h) fun n job _ _ => ?_
  · exact h.apply hrunning ((Replica.onRecv_leaves message).mono (fun _ _ hr => replays_of_nil hr.2 hr.1)
      fun _ hes => replayed_of_nil hes)
  · unfold Node.finish
    have hleft : Node.Replays app { node with
        jobs := node.jobs.eraseIdx n, signed := node.signed ++ (job.signs crypto.scheme).toList } := ⟨h.replayed, h.resume⟩
    cases job.run crypto with
    | none => exact hleft
    | some event => exact hleft.apply hrunning (Replica.onEvent_replays event)

variable {cfg : Config S σ} {sys : System A cfg} {C : System A cfg → cfg.Correct × Input A σ → Prop}

end

/-! ## The batches of a history -/

end

end Neatworks.Pbft
