import Mathlib.Data.List.Flatten
import Mathlib.Data.List.Nodup
import Neatworks.PbftExecution

/-!
# At-most-once execution

A replica executes the log in order, so it executes a request once when no two
places of the log hold the same one. The primary sees to that when it queues a
request; what a backup finds in a pre-prepare it does not compare with its log.
-/

namespace Neatworks

/-- What tells the requests apart. -/
def Request.key {A : Type} (request : Request A) : UInt32 × UInt32 := (request.clientId, request.seq)

namespace Pbft

open Outcome

section
variable {S A σ : Type}

def Effect.call : Effect A σ → Option (Request A × Option Payload)
  | .execute _ request result => some (request, result)
  | _ => none

/-- The calls of `execute` with their results, in order. -/
def calls (es : List (Effect A σ)) : List (Request A × Option Payload) := es.filterMap Effect.call

/-- The results of the calls for one request. -/
def callsFor (clientId seq : UInt32) (es : List (Effect A σ)) : List (Option Payload) :=
  ((calls es).filter fun call => call.1.key = (clientId, seq)).map Prod.snd

/-- A call for this request has returned `result`. -/
def HasResult (es : List (Effect A σ)) (clientId seq : UInt32) (result : Payload) : Prop :=
  some result ∈ callsFor clientId seq es

/-- No request is executed twice, and what is sent to a client is a result. -/
structure AtMostOnce (es : List (Effect A σ)) : Prop where
  nodup : ((calls es).map fun call => call.1.key).Nodup
  replied : ∀ addr clientId reply, .sendClient addr clientId reply ∈ es →
    HasResult es clientId reply.seq reply.result

@[simp] theorem calls_nil : calls ([] : List (Effect A σ)) = [] := rfl

@[simp] theorem calls_append (es es' : List (Effect A σ)) : calls (es ++ es') = calls es ++ calls es' :=
  List.filterMap_append ..

@[simp] theorem calls_submit (job : Job A σ) (es : List (Effect A σ)) : calls (.submit job :: es) = calls es := rfl

@[simp] theorem calls_sendAll (message : ToReplica A σ) (es : List (Effect A σ)) :
    calls (.sendAll message :: es) = calls es := rfl

@[simp] theorem calls_sendClient (addr : A) (id : UInt32) (reply : Reply) (es : List (Effect A σ)) :
    calls (.sendClient addr id reply :: es) = calls es := rfl

@[simp] theorem calls_execute (k : Nat) (request : Request A) (result : Option Payload) (es : List (Effect A σ)) :
    calls (.execute k request result :: es) = (request, result) :: calls es := rfl

theorem mem_callsFor {clientId seq : UInt32} {es : List (Effect A σ)} {result : Option Payload} :
    result ∈ callsFor clientId seq es ↔ ∃ request, (request, result) ∈ calls es ∧ request.key = (clientId, seq) := by
  simp [callsFor]

theorem HasResult.append {es : List (Effect A σ)} {clientId seq : UInt32} {result : Payload}
    (h : HasResult es clientId seq result) (es' : List (Effect A σ)) : HasResult (es ++ es') clientId seq result := by
  obtain ⟨request, hmem, hkey⟩ := mem_callsFor.mp h
  refine mem_callsFor.mpr ⟨request, ?_, hkey⟩
  rw [calls_append]
  exact List.mem_append_left _ hmem

theorem AtMostOnce.length_le {es : List (Effect A σ)} (h : AtMostOnce es) (clientId seq : UInt32) :
    (callsFor clientId seq es).length ≤ 1 := by
  have := List.nodup_iff_count_le_one.mp h.nodup (clientId, seq)
  rw [List.count, List.countP_map, List.countP_eq_length_filter] at this
  rw [callsFor, List.length_map]
  simpa only [beq_eq_decide, Function.comp_def] using this

/-! ## Requests in the log, in the queue and with the worker -/

def Job.batch : Job A σ → List (Request A)
  | .signPrePrepare _ _ requests => requests
  | _ => []

/-- The requests of the pre-prepares that are being signed. -/
def proposed (jobs : List (Job A σ)) : List (Request A) := jobs.flatMap Job.batch

@[simp] theorem proposed_append (jobs jobs' : List (Job A σ)) :
    proposed (jobs ++ jobs') = proposed jobs ++ proposed jobs' := List.flatMap_append ..

theorem proposed_perm {jobs jobs' : List (Job A σ)} {job : Job A σ} (h : (job :: jobs').Perm jobs) :
    (proposed jobs).Perm (job.batch ++ proposed jobs') := (h.flatMap_right Job.batch).symm

namespace Replica

/-- The requests of the first `n` op numbers. -/
def ordered (r : Replica S A σ) (n : Nat) : List (Request A) :=
  (List.range n).flatMap fun k => (r.entry (k + 1)).requests

def held (r : Replica S A σ) (jobs : List (Job A σ)) (n : Nat) : List (Request A) :=
  r.requests ++ (proposed jobs ++ r.ordered n)

/-- `replies` has this or a later request of the client. -/
def Seen (r : Replica S A σ) (request : Request A) : Prop :=
  ∃ seq reply, r.replies request.clientId = some (seq, reply) ∧ request.seq ≤ seq

section
variable {r s : Replica S A σ}

theorem ordered_succ (n : Nat) : r.ordered (n + 1) = r.ordered n ++ (r.entry (n + 1)).requests := by
  simp [ordered, List.range_succ]

theorem ordered_congr (h : ∀ k, (s.entry k).requests = (r.entry k).requests) (n : Nat) : s.ordered n = r.ordered n := by
  simp only [ordered, h]

/-- A batch that is put into a free slot is added to what is ordered. -/
theorem ordered_update {k : Nat} (hother : ∀ j, j ≠ k → (s.entry j).requests = (r.entry j).requests)
    (hfree : (r.entry k).requests = []) (n : Nat) :
    (r.ordered n).Sublist (s.ordered n) ∧
      (s.ordered n).Subperm ((if k = 0 then [] else (s.entry k).requests) ++ r.ordered n) := by
  constructor
  · refine List.Sublist.flatMap_right _ fun j _ => ?_
    by_cases hj : j + 1 = k
    · rw [hj, hfree]
      exact List.nil_sublist _
    · rw [hother _ hj]
  · induction n with
    | zero => exact List.nil_subperm
    | succ n ih =>
      rw [ordered_succ, ordered_succ, ← List.append_assoc]
      by_cases hn : n + 1 = k
      · have hbelow : s.ordered n = r.ordered n := by
          refine List.flatMap_congr fun j hj => hother _ ?_
          have := List.mem_range.mp hj
          omega
        rw [hn, hfree, List.append_nil, if_neg (by omega), hbelow]
        exact List.perm_append_comm.subperm
      · rw [hother _ hn]
        exact (List.subperm_append_right _).mpr ih

end

end Replica

/-! ## The invariant -/

/-- While a batch is executed, `rest` is what is left of it. -/
structure Once (r : Replica S A σ) (rest : List (Request A)) (jobs : List (Job A σ)) (history : List (Effect A σ)) :
    Prop where
  nodup : ∀ n, ((r.held jobs n).map Request.key).Nodup
  seen : r.isPrimary = true → ∀ n, ∀ request ∈ r.held jobs n, r.Seen request
  backup : r.isPrimary = false → r.requests = []
  free : ∀ k, (r.entry k).prePrepare = none → (r.entry k).requests = []
  executed : ((calls history).map Prod.fst ++ rest).Sublist (r.ordered r.commitNum)
  replied : ∀ addr clientId reply, .sendClient addr clientId reply ∈ history →
    HasResult history clientId reply.seq reply.result
  cached : ∀ clientId seq reply, r.replies clientId = some (seq, some reply) →
    reply.seq = seq ∧ HasResult history clientId seq reply.result

theorem nodup_of_subperm {l l' : List (Request A)} (h : l.Subperm l') (h' : (l'.map Request.key).Nodup) :
    (l.map Request.key).Nodup := by
  obtain ⟨l₁, hperm, hsub⟩ := h
  exact (hperm.map Request.key).nodup_iff.mp (h'.sublist (hsub.map Request.key))

namespace Once

section
variable {r s : Replica S A σ} {request : Request A} {rest : List (Request A)} {jobs l : List (Job A σ)} {history es : List (Effect A σ)}

theorem atMostOnce (h : Once r rest jobs history) : AtMostOnce history where
  nodup := by
    have hsub : ((calls history).map Prod.fst).Sublist (r.held jobs r.commitNum) :=
      ((List.sublist_append_left _ _).trans h.executed).trans
        ((List.sublist_append_right _ _).trans (List.sublist_append_right _ _))
    have := (h.nodup r.commitNum).sublist (hsub.map Request.key)
    rwa [List.map_map] at this
  replied := h.replied

theorem congr (h : Once r rest jobs history) (hparams : s.params = r.params) (hslots : SameSlots r s)
    (hqueue : s.requests = r.requests) (hreplies : s.replies = r.replies) (hnum : s.commitNum = r.commitNum)
    (hl : proposed l = []) (hcalls : calls es = []) (hsend : ∀ addr clientId reply,
      .sendClient addr clientId reply ∈ es → HasResult history clientId reply.seq reply.result) :
    Once s rest (jobs ++ l) (history ++ es) := by
  have hheld : ∀ n, s.held (jobs ++ l) n = r.held jobs n := by
    intro n
    rw [Replica.held, Replica.held, hqueue, proposed_append, hl, List.append_nil,
      Replica.ordered_congr hslots.requests]
  constructor
  case nodup =>
    intro n
    rw [hheld]
    exact h.nodup n
  case seen =>
    intro hp n request hmem
    rw [Replica.isPrimary_congr hparams] at hp
    rw [hheld] at hmem
    simpa only [Replica.Seen, hreplies] using h.seen hp n request hmem
  case backup =>
    rw [Replica.isPrimary_congr hparams, hqueue]
    exact h.backup
  case free =>
    intro k
    rw [hslots.prePrepare, hslots.requests]
    exact h.free k
  case executed =>
    rw [calls_append, hcalls, List.append_nil, hnum, Replica.ordered_congr hslots.requests]
    exact h.executed
  case replied =>
    intro addr clientId reply hmem
    rcases List.mem_append.mp hmem with hmem | hmem
    · exact (h.replied addr clientId reply hmem).append es
    · exact (hsend addr clientId reply hmem).append es
  case cached =>
    intro clientId seq reply hmem
    rw [hreplies] at hmem
    exact ⟨(h.cached clientId seq reply hmem).1, (h.cached clientId seq reply hmem).2.append es⟩

theorem same (h : Once r rest jobs history) : Once r rest (jobs ++ []) (history ++ []) :=
  h.congr rfl (.of_entry fun _ => rfl) rfl rfl rfl rfl rfl (by simp)

theorem sublist (h : Once r rest jobs history) {jobs' : List (Job A σ)} (hsub : jobs'.Sublist jobs) :
    Once r rest jobs' history := by
  have hheld : ∀ n, (r.held jobs' n).Sublist (r.held jobs n) := fun n =>
    ((hsub.flatMap Job.batch).append_right _).append_left _
  exact { h with
    nodup := fun n => (h.nodup n).sublist ((hheld n).map Request.key)
    seen := fun hp n request hmem => h.seen hp n request ((hheld n).subset hmem) }

/-! ### The queue of the primary -/

/-- A request that the primary queues is later than those it holds of the client. -/
theorem enqueue (h : Once r rest jobs history) (hp : r.isPrimary = true) {request : Request A}
    (hnew : ∀ seq reply, r.replies request.clientId = some (seq, reply) → seq < request.seq) :
    Once (r.enqueue request) rest jobs history := by
  have hheld : ∀ n, ((r.enqueue request).held jobs n).Perm (request :: r.held jobs n) := by
    intro n
    unfold Replica.held Replica.enqueue
    rw [List.append_assoc]
    exact List.perm_middle
  have hseen : ∀ q, r.Seen q → (r.enqueue request).Seen q := by
    intro q ⟨seq, reply, hq, hle⟩
    unfold Replica.Seen Replica.enqueue
    by_cases hc : q.clientId = request.clientId
    · rw [hc] at hq
      simp only [hc, Function.update_self]
      exact ⟨_, _, rfl, UInt32.le_trans hle (UInt32.le_of_lt (hnew seq reply hq))⟩
    · simp only [Function.update_of_ne hc]
      exact ⟨seq, reply, hq, hle⟩
  constructor
  case nodup =>
    intro n
    rw [((hheld n).map Request.key).nodup_iff, List.map_cons, List.nodup_cons]
    refine ⟨fun hmem => ?_, h.nodup n⟩
    obtain ⟨q, hq, hkey⟩ := List.mem_map.mp hmem
    obtain ⟨seq, reply, hreplies, hle⟩ := h.seen hp n q hq
    simp only [Request.key, Prod.mk.injEq] at hkey
    rw [hkey.1] at hreplies
    rw [hkey.2] at hle
    exact absurd (hnew seq reply hreplies) (UInt32.not_lt.mpr hle)
  case seen =>
    intro _ n q hmem
    rcases List.mem_cons.mp ((hheld n).subset hmem) with rfl | hmem
    · exact ⟨q.seq, none, Function.update_self .., UInt32.le_refl _⟩
    · exact hseen q (h.seen hp n q hmem)
  case backup =>
    intro hb
    cases hp.symm.trans hb
  case free => exact h.free
  case executed => exact h.executed
  case replied => exact h.replied
  case cached =>
    intro clientId seq reply hmem
    unfold Replica.enqueue at hmem
    by_cases hc : clientId = request.clientId
    · rw [hc] at hmem
      simp only [Function.update_self] at hmem
      cases hmem
    · simp only [Function.update_of_ne hc] at hmem
      exact h.cached clientId seq reply hmem

theorem closeBatch (h : Once r rest jobs history) :
    r.closeBatch.Sat (fun r' es => Once r' rest (jobs ++ submitted es) (history ++ es))
      fun es => AtMostOnce (history ++ es) := by
  refine Replica.closeBatch_sat (fun hp _ _ => ?_) (by simpa using h.atMostOnce)
  have hheld : ∀ n (opNum : Nat) (k : UInt32),
      (Replica.held { r with opNum := opNum, requests := r.requests.drop 100 }
        (jobs ++ submitted [.submit (.signPrePrepare r.viewNum k (r.requests.take 100))]) n).Perm (r.held jobs n) := by
    intro n opNum k
    have hbatch : proposed (submitted ([.submit (.signPrePrepare r.viewNum k (r.requests.take 100))] :
        List (Effect A σ))) = r.requests.take 100 := by simp [proposed, Job.batch]
    unfold Replica.held
    rw [proposed_append, hbatch, List.append_assoc]
    calc (r.requests.drop 100 ++ (proposed jobs ++ (r.requests.take 100 ++ r.ordered n))).Perm
          (r.requests.drop 100 ++ (r.requests.take 100 ++ (proposed jobs ++ r.ordered n))) :=
            (List.perm_append_comm_assoc ..).append_left _
      List.Perm _ (r.requests.take 100 ++ (r.requests.drop 100 ++ (proposed jobs ++ r.ordered n))) :=
            List.perm_append_comm_assoc ..
      _ = r.requests ++ (proposed jobs ++ r.ordered n) := by rw [← List.append_assoc, List.take_append_drop]
  constructor
  case nodup =>
    intro n
    rw [((hheld n _ _).map Request.key).nodup_iff]
    exact h.nodup n
  case seen =>
    intro _ n q hmem
    exact h.seen hp n q ((hheld n _ _).subset hmem)
  case backup =>
    intro hb
    cases hp.symm.trans hb
  case free => exact h.free
  case executed =>
    rw [calls_append, calls_submit, calls_nil, List.append_nil]
    exact h.executed
  case replied =>
    intro addr clientId reply hmem
    exact (h.replied addr clientId reply (by simpa using hmem)).append _
  case cached =>
    intro clientId seq reply hmem
    exact ⟨(h.cached clientId seq reply hmem).1, (h.cached clientId seq reply hmem).2.append _⟩

/-! ### Pre-prepares -/

/-- A free slot of the log is filled; what the log gains, nothing else holds. -/
theorem fill (h : Once r [] jobs history) {p : Verifiable PrePrepare σ} {requests : List (Request A)}
    (hnone : (r.entry p.inner.opNum.toNat).prePrepare = none)
    (hes : es = [] ∨ es = [.sendAll (.prePrepare p requests)])
    (hnodup : ∀ n, ((r.requests ++ (proposed l ++
      ((if p.inner.opNum.toNat = 0 then [] else requests) ++ r.ordered n))).map Request.key).Nodup)
    (hseen : r.isPrimary = true → ∀ n, ∀ request ∈ r.requests ++ (proposed l ++ (requests ++ r.ordered n)),
      r.Seen request) :
    Once ((r.reserve p.inner.opNum.toNat).fill p requests) [] l (history ++ es) := by
  have hself : (((r.reserve p.inner.opNum.toNat).fill p requests).entry p.inner.opNum.toNat).requests = requests ∧
      (((r.reserve p.inner.opNum.toNat).fill p requests).entry p.inner.opNum.toNat).prePrepare ≠ none := by
    rw [Replica.entry_fill_self (Replica.lt_length_reserve _)]
    exact ⟨rfl, Option.some_ne_none p⟩
  have hother : ∀ k, k ≠ p.inner.opNum.toNat →
      ((r.reserve p.inner.opNum.toNat).fill p requests).entry k = r.entry k := by
    intro k hk
    rw [Replica.entry_fill_of_ne hk, Replica.entry_reserve]
  have hordered := Replica.ordered_update (s := (r.reserve p.inner.opNum.toNat).fill p requests)
    (fun j hj => congrArg LogEntry.requests (hother j hj)) (h.free _ hnone)
  rw [hself.1] at hordered
  have hfields : ((r.reserve p.inner.opNum.toNat).fill p requests).requests = r.requests ∧
      ((r.reserve p.inner.opNum.toNat).fill p requests).replies = r.replies ∧
      ((r.reserve p.inner.opNum.toNat).fill p requests).commitNum = r.commitNum := by simp [Replica.fill]
  obtain ⟨hqueue, hreplies, hnum⟩ := hfields
  have hquiet : calls es = [] ∧ ∀ addr clientId reply, .sendClient addr clientId reply ∉ es := by
    rcases hes with rfl | rfl <;> simp
  have hheld : ∀ n, (((r.reserve p.inner.opNum.toNat).fill p requests).held l n).Subperm
      (r.requests ++ (proposed l ++ ((if p.inner.opNum.toNat = 0 then [] else requests) ++ r.ordered n))) := by
    intro n
    rw [Replica.held, hqueue]
    exact (List.subperm_append_left _).mpr ((List.subperm_append_left _).mpr (hordered n).2)
  constructor
  case nodup => exact fun n => nodup_of_subperm (hheld n) (hnodup n)
  case seen =>
    intro hp n request hmem
    rw [Replica.isPrimary_congr (r := r) (by simp)] at hp
    have hmem' := (hheld n).subset hmem
    have : request ∈ r.requests ++ (proposed l ++ (requests ++ r.ordered n)) := by
      split at hmem' <;> simp only [List.mem_append, List.not_mem_nil, false_or] at hmem' ⊢ <;> tauto
    simpa only [Replica.Seen, hreplies] using hseen hp n request this
  case backup =>
    rw [Replica.isPrimary_congr (r := r) (by simp), hqueue]
    exact h.backup
  case free =>
    intro k hk
    by_cases heq : k = p.inner.opNum.toNat
    · rw [heq] at hk
      exact absurd hk hself.2
    · rw [hother k heq] at hk ⊢
      exact h.free k hk
  case executed =>
    rw [calls_append, hquiet.1, List.append_nil (calls history), hnum]
    exact h.executed.trans (hordered _).1
  case replied =>
    intro addr clientId reply hmem
    exact (h.replied addr clientId reply ((List.mem_append.mp hmem).resolve_right
      (hquiet.2 addr clientId reply))).append es
  case cached =>
    intro clientId seq reply hmem
    rw [hreplies] at hmem
    exact ⟨(h.cached clientId seq reply hmem).1, (h.cached clientId seq reply hmem).2.append es⟩

/-! ### Execution -/

/-- A result goes into `replies` only over an earlier request. -/
theorem replies_executed (request : Request A) {app : S} {reply : Reply} (clientId : UInt32) :
    (r.executed request app reply).replies clientId = r.replies clientId ∨
      clientId = request.clientId ∧
        (r.executed request app reply).replies clientId = some (request.seq, some reply) ∧
        ∀ seq old, r.replies clientId = some (seq, old) → seq ≤ request.seq := by
  unfold Replica.executed
  by_cases hc : clientId = request.clientId
  · subst hc
    cases hreplies : r.replies request.clientId with
    | none => exact Or.inr ⟨rfl, by simp, fun _ _ h => by cases h⟩
    | some entry =>
      obtain ⟨seq, old⟩ := entry
      by_cases hle : seq ≤ request.seq
      · refine Or.inr ⟨rfl, by simp [hle], fun seq' old' h => ?_⟩
        cases h
        exact hle
      · exact Or.inl (by simp [hle, hreplies])
  · have hother : ∀ fresh : Bool, (if fresh = true then
        Function.update r.replies request.clientId (some (request.seq, some reply)) else r.replies) clientId =
          r.replies clientId := by
      intro fresh
      cases fresh
      · rfl
      · exact Function.update_of_ne hc ..
    exact Or.inl (hother _)

theorem executeOne (h : Once r (request :: rest) jobs history) (k : Nat) {app : S} {reply : Reply}
    (hseq : reply.seq = request.seq) :
    Once (r.executed request app reply) rest jobs
      (history ++ [.execute k request (some reply.result), .sendClient request.clientAddr request.clientId reply]) := by
  have hresult : HasResult
      (history ++ [.execute k request (some reply.result), .sendClient request.clientAddr request.clientId reply])
      request.clientId request.seq reply.result := mem_callsFor.mpr ⟨request, by simp, rfl⟩
  constructor
  case nodup => exact h.nodup
  case seen =>
    intro hp n q hmem
    obtain ⟨seq, old, hold, hle⟩ := h.seen hp n q hmem
    rcases replies_executed (r := r) request q.clientId with hsame | ⟨-, hnew, hlast⟩
    · exact ⟨seq, old, hsame.trans hold, hle⟩
    · exact ⟨_, _, hnew, UInt32.le_trans hle (hlast seq old hold)⟩
  case backup => exact h.backup
  case free => exact h.free
  case executed =>
    have := h.executed
    simp only [calls_append, calls_execute, calls_sendClient, calls_nil, List.map_append, List.map_cons, List.map_nil,
      List.append_assoc, List.singleton_append]
    exact this
  case replied =>
    intro addr clientId reply' hmem
    rcases List.mem_append.mp hmem with hmem | hmem
    · exact (h.replied addr clientId reply' hmem).append _
    · simp only [List.mem_cons, reduceCtorEq, Effect.sendClient.injEq, List.not_mem_nil, or_false, false_or] at hmem
      obtain ⟨-, rfl, rfl⟩ := hmem
      rw [hseq]
      exact hresult
  case cached =>
    intro clientId seq reply' hmem
    rcases replies_executed (r := r) request clientId with hsame | ⟨rfl, hnew, -⟩
    · rw [hsame] at hmem
      exact ⟨(h.cached clientId seq reply' hmem).1, (h.cached clientId seq reply' hmem).2.append _⟩
    · rw [hnew] at hmem
      cases hmem
      exact ⟨hseq, hresult⟩

theorem executeFailed (h : Once r (request :: rest) jobs history) (k : Nat) :
    AtMostOnce (history ++ [.execute k request none]) where
  nodup := by
    have hsub : ((calls (history ++ [.execute k request none])).map Prod.fst).Sublist (r.held jobs r.commitNum) := by
      refine List.Sublist.trans ?_ (h.executed.trans
        ((List.sublist_append_right _ _).trans (List.sublist_append_right _ _)))
      simp only [calls_append, calls_execute, calls_nil, List.map_append, List.map_cons, List.map_nil]
      exact ((List.nil_sublist rest).cons_cons request).append_left _
    have := (h.nodup r.commitNum).sublist (hsub.map Request.key)
    rwa [List.map_map] at this
  replied addr clientId reply hmem := by
    rcases List.mem_append.mp hmem with hmem | hmem
    · exact (h.replied addr clientId reply hmem).append _
    · simp at hmem

section
variable [App S]

theorem batch (h : Once r [] jobs history) {entry : LogEntry A σ} (hentry : r.log[r.commitNum + 1]? = some entry) :
    (Replica.executeRequests (r.commitNum + 1) entry.requests { r with commitNum := r.commitNum + 1 }).Sat
      (fun r' es => Once r' [] (jobs ++ submitted es) (history ++ es)) fun es => AtMostOnce (history ++ es) := by
  have hstart : Once { r with commitNum := r.commitNum + 1 } entry.requests (jobs ++ []) (history ++ []) := by
    rw [List.append_nil, List.append_nil]
    refine { h with executed := ?_ }
    have hexec := h.executed
    rw [List.append_nil] at hexec
    have hlast : r.ordered (r.commitNum + 1) = r.ordered r.commitNum ++ entry.requests := by
      rw [Replica.ordered_succ, Replica.entry_of_getElem? hentry]
    have : Replica.ordered { r with commitNum := r.commitNum + 1 } (r.commitNum + 1) = r.ordered (r.commitNum + 1) := rfl
    rw [this, hlast]
    exact hexec.append_right _
  exact Replica.executeRequests_sat (R := fun es => AtMostOnce (history ++ es))
    (I := fun rest r' es => Once r' rest (jobs ++ submitted es) (history ++ es))
    (fun _ _ _ es hI _ => by
      rw [← List.append_assoc]
      exact hI.executeFailed _)
    (fun _ _ _ es _ _ hI _ => by
      rw [← List.append_assoc]
      simpa using hI.executeOne _ rfl) entry.requests [] hstart

theorem insertVote (h : Once r [] jobs history) (phase : Phase) (vote : Verifiable (Vote phase) σ) :
    (r.insertVote phase vote).Sat (fun r' es => Once r' [] (jobs ++ submitted es) (history ++ es))
      fun es => AtMostOnce (history ++ es) := by
  have hfail : AtMostOnce (history ++ []) := by
    rw [List.append_nil]
    exact h.atMostOnce
  have hrecord : ∀ {phase : Phase} (vote : Verifiable (Vote phase) σ),
      Once (r.record phase vote) [] (jobs ++ []) (history ++ []) := fun vote =>
    h.congr (by simp) (.of_entry (by simp)) (by simp [Replica.record]) (by simp [Replica.record])
      (by simp [Replica.record]) rfl rfl (by simp)
  have hclose : ∀ {phase : Phase} (vote : Verifiable (Vote phase) σ) {l : List (Job A σ)} {es : List (Effect A σ)},
      proposed l = [] → calls es = [] → (∀ addr clientId reply, .sendClient addr clientId reply ∉ es) →
      Once ((r.record phase vote).closeQuorum phase vote.inner.opNum (r.quorumWith phase vote)) [] (jobs ++ l)
        (history ++ es) := by
    intro phase vote l es hl hcalls hsend
    have hslots : SameSlots r ((r.record phase vote).closeQuorum phase vote.inner.opNum (r.quorumWith phase vote)) :=
      SameSlots.trans (r := r.record phase vote) (.of_entry (by simp)) (.closeQuorum quorumWith_ne_nil)
    exact h.congr (by simp) hslots (by simp [Replica.record, Replica.closeQuorum])
      (by simp [Replica.record, Replica.closeQuorum]) (by simp [Replica.record, Replica.closeQuorum]) hl hcalls
      fun addr clientId reply hmem => absurd hmem (hsend addr clientId reply)
  cases phase with
  | prepare =>
    exact Replica.insertPrepare_sat (hrecord vote) (fun _ _ _ => hclose vote rfl rfl (by simp)) hfail
  | commit =>
    refine Replica.insertCommit_sat (hrecord vote) (fun _ _ _ _ => ?_) hfail
    refine Replica.advance_sat (R := fun es => AtMostOnce (history ++ es))
      (I := fun r' es => Once r' [] (jobs ++ submitted es) (history ++ es)) (fun _ _ h => h.atMostOnce)
      (fun entry r' es h' hlog hentry _ => ?_) (fun r' es h' => ?_) [] (hclose vote rfl rfl (by simp))
    · rw [← hlog] at hentry
      exact (h'.batch hentry).mono (fun _ _ hr => by simpa using hr) fun _ hes => by simpa using hes
    · exact h'.closeBatch.mono (fun _ _ hr => by simpa using hr) fun _ hes => by simpa using hes

end

end

end Once

/-! ## Steps of a node -/

/-- What the handlers do not check: that the batch of a pre-prepare which fills
a slot has no request twice, and none that is in the log. -/
def Job.Fresh [DigestHash A] (crypto : Crypto σ) (r : Replica S A σ) : Job A σ → Prop
  | .verifyPrePrepare i p requests =>
    crypto.scheme.digest requests = p.inner.digest → crypto.verify i p = true →
      (r.entry p.inner.opNum.toNat).prePrepare = none → 1 ≤ p.inner.opNum.toNat →
      (requests.map Request.key).Nodup ∧
        ∀ k < r.log.length, 1 ≤ k → ∀ request ∈ requests, ∀ other ∈ (r.entry k).requests, request.key ≠ other.key
  | .signPrePrepare .. | .signVote .. | .verifyVote .. => True

theorem fresh_ordered {r : Replica S A σ} {requests : List (Request A)} (hnodup : (requests.map Request.key).Nodup)
    (hlog : ∀ k < r.log.length, 1 ≤ k → ∀ request ∈ requests, ∀ other ∈ (r.entry k).requests, request.key ≠ other.key)
    {n : Nat} (hordered : ((r.ordered n).map Request.key).Nodup) :
    ((requests ++ r.ordered n).map Request.key).Nodup := by
  rw [List.map_append]
  refine List.Nodup.append hnodup hordered fun key hkey hkey' => ?_
  obtain ⟨request, hmem, rfl⟩ := List.mem_map.mp hkey
  obtain ⟨other, hother, heq⟩ := List.mem_map.mp hkey'
  obtain ⟨k, -, hother⟩ := List.mem_flatMap.mp hother
  by_cases hk : k + 1 < r.log.length
  · exact hlog (k + 1) hk (Nat.le_add_left 1 k) request hmem other hother heq.symm
  · rw [Replica.entry, List.getElem?_eq_none_iff.mpr (not_lt.mp hk)] at hother
    cases hother

structure Node.ExecutesOnce (node : Node S A σ) : Prop where
  running : node.stopped = none → Once node.replica [] node.jobs node.history
  history : AtMostOnce node.history

namespace Node.ExecutesOnce

section
variable {node : Node S A σ}

theorem apply (jobs : List (Job A σ)) (signed : List SignedMessage) {out : Handler A σ (Replica S A σ)}
    (hout : out.Sat (fun r es => Once r [] (jobs ++ submitted es) (node.history ++ es))
      fun es => AtMostOnce (node.history ++ es)) :
    (Node.apply { node with jobs := jobs, signed := signed } out).ExecutesOnce :=
  Node.apply_sat (J := Node.ExecutesOnce) (hout.mono (fun _ _ h => ⟨fun _ => h, h.atMostOnce⟩)
    fun _ h _ => ⟨fun hs => (nomatch hs), h⟩)

theorem recvRequest (h : Once node.replica [] node.jobs node.history) (request : Request A) :
    (node.replica.onRecvRequest request).Sat (fun r es => Once r [] (node.jobs ++ submitted es) (node.history ++ es))
      fun es => AtMostOnce (node.history ++ es) := by
  refine Replica.onRecvRequest_sat h.same (fun reply hreply => ?_) (fun hp hnew => ?_) (by simpa using h.atMostOnce)
  · have hcached := h.cached _ _ _ hreply
    refine h.congr rfl (.of_entry fun _ => rfl) rfl rfl rfl rfl rfl fun addr clientId reply' hmem => ?_
    cases List.mem_singleton.mp hmem
    rw [hcached.1]
    exact hcached.2
  · have hqueue := h.enqueue hp hnew
    exact ⟨hqueue.same, hqueue.closeBatch⟩

theorem fillSigned (h : Once node.replica [] node.jobs node.history) {n : Nat} {viewNum opNum : UInt32}
    {requests : List (Request A)} (hjob : node.jobs[n]? = some (.signPrePrepare viewNum opNum requests))
    {p : Verifiable PrePrepare σ} (hnone : (node.replica.entry p.inner.opNum.toNat).prePrepare = none) :
    Once ((node.replica.reserve p.inner.opNum.toNat).fill p requests) [] (node.jobs.eraseIdx n)
      (node.history ++ [.sendAll (.prePrepare p requests)]) := by
  have hleft : Once node.replica [] (node.jobs.eraseIdx n) node.history := h.sublist (List.eraseIdx_sublist _ _)
  have hperm := proposed_perm (Node.jobs_perm hjob)
  have hheld : ∀ m, (node.replica.requests ++ (proposed (node.jobs.eraseIdx n) ++
      (requests ++ node.replica.ordered m))).Perm (node.replica.held node.jobs m) := by
    intro m
    refine List.Perm.append_left _ ?_
    refine (List.perm_append_comm_assoc ..).trans ?_
    rw [← List.append_assoc]
    exact hperm.symm.append_right _
  refine hleft.fill hnone (Or.inr rfl) (fun m => ?_) fun hp m request hmem => h.seen hp m request ((hheld m).subset hmem)
  refine nodup_of_subperm ?_ (h.nodup m)
  refine List.Subperm.trans ?_ (hheld m).subperm
  refine (List.subperm_append_left _).mpr ((List.subperm_append_left _).mpr ((List.subperm_append_right _).mpr ?_))
  split
  · exact List.nil_subperm
  · exact List.Subperm.refl _

/-- A backup takes a batch whose requests are in no slot yet. -/
theorem fillVerified (h : Once node.replica [] node.jobs node.history) (hproposes : node.Proposes)
    (hbackup : node.replica.isPrimary = false) {jobs : List (Job A σ)} (hsub : jobs.Sublist node.jobs)
    {p : Verifiable PrePrepare σ} {requests : List (Request A)}
    (hnone : (node.replica.entry p.inner.opNum.toNat).prePrepare = none)
    (hfresh : p.inner.opNum.toNat ≠ 0 → (requests.map Request.key).Nodup ∧
      ∀ k < node.replica.log.length, 1 ≤ k → ∀ request ∈ requests, ∀ other ∈ (node.replica.entry k).requests,
        request.key ≠ other.key) :
    Once ((node.replica.reserve p.inner.opNum.toNat).fill p requests) [] jobs (node.history ++ []) := by
  have hproposed : proposed jobs = [] := by
    refine List.flatMap_eq_nil_iff.mpr fun job hmem => ?_
    cases job with
    | signPrePrepare viewNum opNum batch =>
      have := (hproposes.primary _ _ _ (hsub.subset hmem)).1
      rw [hbackup] at this
      cases this
    | _ => rfl
  refine (h.sublist hsub).fill hnone (Or.inl rfl) (fun m => ?_) fun hp => ?_
  · have hordered : ((node.replica.ordered m).map Request.key).Nodup :=
      (h.nodup m).sublist (((List.sublist_append_right _ _).trans (List.sublist_append_right _ _)).map _)
    rw [h.backup hbackup, hproposed, List.nil_append, List.nil_append]
    split
    · exact hordered
    · next hop => exact fresh_ordered (hfresh hop).1 (hfresh hop).2 hordered
  · rw [hbackup] at hp
    cases hp

variable [App S]

theorem finishVote (h : Once node.replica [] node.jobs node.history) {jobs : List (Job A σ)}
    (hsub : jobs.Sublist node.jobs) (signed : List SignedMessage) {phase : Phase} (vote : Verifiable (Vote phase) σ)
    {event : Event A σ} (hevent : event = .signedVote phase vote ∨ event = .verifiedVote phase vote) :
    (Node.apply { node with jobs := jobs, signed := signed } (node.replica.onEvent event)).ExecutesOnce := by
  have hleft : Once node.replica [] jobs node.history := h.sublist hsub
  have hfail : ∀ {r : Replica S A σ} {jobs : List (Job A σ)} {history : List (Effect A σ)},
      Once r [] jobs history → AtMostOnce (history ++ []) := fun h => by simpa using h.atMostOnce
  have hpark : ∀ {r : Replica S A σ} {jobs : List (Job A σ)} {history : List (Effect A σ)} {k : UInt32}
      (vs : Option (List (Verifiable (Vote phase) σ))) (es : List (Effect A σ)), Once r [] jobs history →
      (proposed (submitted es) = [] ∧ calls es = [] ∧ ∀ addr clientId reply, .sendClient addr clientId reply ∉ es) →
      Once (r.setPending phase k vs) [] (jobs ++ submitted es) (history ++ es) := fun _ _ h hes =>
    h.congr (by simp) (.of_entry (by simp)) (by simp) (by simp) (by simp) hes.1 hes.2.1
      fun addr clientId reply hmem => absurd hmem (hes.2.2 addr clientId reply)
  refine apply jobs signed ?_
  rcases hevent with rfl | rfl
  · have hsend : Once node.replica [] (jobs ++ []) (node.history ++ [.sendAll (.vote phase vote)]) :=
      hleft.congr rfl (.of_entry fun _ => rfl) rfl rfl rfl rfl rfl (by simp)
    refine Replica.onSignedVote_sat (fun _ => hleft.same) hsend (fun _ _ => ?_) hsend.atMostOnce
    exact (hsend.insertVote phase vote).mono (fun _ _ hr => by simpa using hr) fun _ hes => by simpa using hes
  · refine Replica.onVerifiedVote_sat (fun _ => hleft.same) fun _ => ?_
    refine (hleft.insertVote phase vote).mono (fun r es hr => ⟨fun _ => hr, fun votes _ => ?_⟩) fun _ hes => hes
    refine Replica.drainPending_sat votes ?_ (fun popped v rest _ _ _ => ?_) (by simpa using hfail hr)
    · simpa using hpark none [] hr ⟨rfl, rfl, by simp⟩
    · simpa using hpark (some rest) [.submit (.verifyVote phase v)] hr ⟨rfl, rfl, by simp⟩

variable [DigestHash A] {crypto : Crypto σ} {input : Input A σ}

/-- The hypothesis on the primary is what unforgeability gives: it never takes
a pre-prepare from another. -/
theorem step (h : node.ExecutesOnce) (hrunning : node.stopped = none) (hproposes : node.Proposes)
    (hown : ∀ i p requests, node.finishes input = some (.verifyPrePrepare i p requests) →
      crypto.verify i p = true → node.replica.isPrimary = true →
      (node.replica.entry p.inner.opNum.toNat).prePrepare ≠ none)
    (hfresh : ∀ job, node.finishes input = some job → job.Fresh crypto node.replica) :
    (node.step crypto input).ExecutesOnce := by
  have hrun := h.running hrunning
  have hfail : AtMostOnce (node.history ++ []) := by
    rw [List.append_nil]
    exact h.history
  refine Node.step_sat (J := Node.ExecutesOnce) (fun message _ => apply node.jobs node.signed ?_) (fun _ => h)
    fun n job hinput hjob => ?_
  · cases message with
    | request request => exact recvRequest hrun request
    | prePrepare prePrepare requests =>
      exact Replica.onRecvPrePrepare_sat hrun.same
        (fun _ _ => hrun.congr rfl (.of_entry fun _ => rfl) rfl rfl rfl rfl rfl (by simp)) hfail
    | vote phase vote =>
      exact Replica.onRecvVote_sat
        (fun _ _ => hrun.congr (by simp) (.of_entry (by simp)) (by simp) (by simp) (by simp) rfl rfl (by simp))
        hrun.same
        (fun _ _ _ => hrun.congr (by simp) (.of_entry (by simp)) (by simp) (by simp) (by simp) rfl rfl (by simp)) hfail
  · subst hinput
    have hleft : Once node.replica [] (node.jobs.eraseIdx n) node.history := hrun.sublist (List.eraseIdx_sublist _ _)
    have hidle : ∀ signed, Node.ExecutesOnce { node with jobs := node.jobs.eraseIdx n, signed := signed } :=
      fun _ => ⟨fun _ => hleft, h.history⟩
    cases job with
    | signPrePrepare viewNum opNum requests =>
      refine apply (node.jobs.eraseIdx n) _ (Replica.onSignedPrePrepare_sat (fun _ => hleft.same)
        (fun _ hnone => ?_) fun _ _ => hfail)
      have hfill := fillSigned hrun hjob hnone
      rw [← List.append_nil (node.jobs.eraseIdx n)] at hfill
      exact hfill
    | verifyPrePrepare i p requests =>
      simp only [Node.finish, Job.run]
      by_cases hvalid : crypto.scheme.digest requests = p.inner.digest ∧ crypto.verify i p = true
      · rw [if_pos hvalid]
        refine apply (node.jobs.eraseIdx n) _ (Replica.onVerifiedPrePrepare_sat hleft.same ?_ fun _ hnone => ?_)
        · exact hleft.congr (by simp) (.of_entry (by simp)) (by simp) (by simp) (by simp) rfl rfl (by simp)
        · have hbackup : node.replica.isPrimary = false := by
            by_contra hp
            exact hown i p requests hjob hvalid.2 (by simpa using hp) hnone
          have hfill := fillVerified hrun hproposes hbackup (List.eraseIdx_sublist _ n) hnone fun hop =>
            hfresh _ hjob hvalid.1 hvalid.2 hnone (Nat.one_le_iff_ne_zero.mpr hop)
          have hretain : ∀ vote : Prepare,
              Once (((node.replica.reserve p.inner.opNum.toNat).fill p requests).retainDigest p.inner.opNum
                p.inner.digest) [] (node.jobs.eraseIdx n ++ [.signVote .prepare vote])
                (node.history ++ [] ++ [.submit (.signVote .prepare vote)]) := fun vote =>
            hfill.congr (by simp) (.of_entry (by simp)) rfl rfl rfl rfl rfl (by simp)
          simpa using hretain _
      · rw [if_neg hvalid]
        exact hidle _
    | signVote phase vote => exact finishVote hrun (List.eraseIdx_sublist _ _) _ (crypto.sign vote) (Or.inl rfl)
    | verifyVote phase vote =>
      simp only [Node.finish, Job.run]
      by_cases hvalid : crypto.verify vote.inner.replicaId.toNat vote = true
      · rw [if_pos hvalid]
        exact finishVote hrun (List.eraseIdx_sublist _ _) _ vote (Or.inr rfl)
      · rw [if_neg hvalid]
        exact hidle _

end

end Node.ExecutesOnce

/-! ## Runs of the system -/

section
variable [DigestHash A] {cfg : Config S σ} {sys : System A cfg}

def Fresh (sys : System A cfg) (label : cfg.Correct × Input A σ) : Prop :=
  ∀ job, (sys label.1).finishes label.2 = some job → job.Fresh (cfg.crypto label.1) (sys label.1).replica

instance {crypto : Crypto σ} {r : Replica S A σ} : DecidablePred (Job.Fresh (A := A) crypto r)
  | .verifyPrePrepare .. => inferInstanceAs (Decidable (_ → _))
  | .signPrePrepare .. | .signVote .. | .verifyVote .. => instDecidableTrue

instance {label : cfg.Correct × Input A σ} : Decidable (Fresh sys label) :=
  inferInstanceAs (Decidable (∀ job, _ = some job → _))

variable [App S]

theorem executesOnce_reach (h : (systemMachine A cfg).Reach Fresh sys) (i : cfg.Correct) : (sys i).ExecutesOnce := by
  refine h.invariant (I := fun sys => ∀ i, (sys i).ExecutesOnce) ?_ ?_ i
  · rintro _ rfl i
    have hordered : ∀ n, (Replica.new i.1 cfg.app cfg.numReplica cfg.numFaulty : Replica S A σ).ordered n = [] :=
      fun n => List.flatMap_eq_nil_iff.mpr fun _ _ => rfl
    have hheld : ∀ n, ((Replica.new i.1 cfg.app cfg.numReplica cfg.numFaulty : Replica S A σ).held [] n).Perm [] :=
      fun n => by rw [Replica.held, hordered]; rfl
    have hempty : AtMostOnce ([] : List (Effect A σ)) := ⟨List.nodup_nil, by simp⟩
    refine ⟨fun _ => ⟨fun n => ?_, fun _ n request hmem => ?_, fun _ => rfl, fun _ _ => rfl, List.nil_sublist _,
      hempty.replied, fun _ _ _ h => by cases h⟩, hempty⟩
    · exact ((hheld n).map Request.key).nodup_iff.mpr List.nodup_nil
    · exact absurd ((hheld n).subset hmem) List.not_mem_nil
  · rintro sys ⟨i, input⟩ _ hreach ih hfresh ⟨henabled, rfl⟩ j
    by_cases hj : j = i
    · subst hj
      rw [System.step_self]
      exact (ih j).step henabled.running (proposes_reach hreach j) (fun k p requests hjob hvalid hprimary =>
        filled_of_verified hreach (proposes_reach hreach j) henabled hjob hvalid hprimary) hfresh
    · rw [System.step_of_ne hj]
      exact ih j

/-- In the runs whose pre-prepares repeat no request, a replica executes a
request at most once, and the replies it sends for it carry that result. -/
theorem executes_once (h : (systemMachine A cfg).Reach Fresh sys) (i : cfg.Correct) (clientId seq : UInt32) :
    (callsFor clientId seq (sys i).history).length ≤ 1 ∧
      ∀ addr reply, .sendClient addr clientId reply ∈ (sys i).history → reply.seq = seq →
        callsFor clientId seq (sys i).history = [some reply.result] := by
  have honce := (executesOnce_reach h i).history
  have hlen := honce.length_le clientId seq
  refine ⟨hlen, fun addr reply hmem hseq => ?_⟩
  have hresult := honce.replied addr clientId reply hmem
  rw [hseq] at hresult
  obtain ⟨result, hone⟩ := List.length_eq_one_iff.mp (Nat.le_antisymm hlen (List.length_pos_of_mem hresult))
  rw [HasResult, hone, List.mem_singleton] at hresult
  rw [hone, hresult]

end

end

/-! ## Runs of four replicas -/

/-- Replica `1` executes a request, and its reply carries the result. -/
theorem executes_once_one :
    ∃ (sys : System UInt8 Config.toy) (i : Config.toy.Correct), callsFor 7 1 (sys i).history = [some []] := by
  let i : Config.toy.Correct := ⟨1, by decide⟩
  obtain ⟨sys, hreach, hsend⟩ := reach_of_exec Fresh (batchRun [⟨7, 9, 1, []⟩])
    (fun sys => .sendClient 9 7 ⟨1, [], 0, 1⟩ ∈ (sys i).history) (by decide +kernel)
  exact ⟨sys, i, (executes_once hreach i 7 1).2 9 ⟨1, [], 0, 1⟩ hsend rfl⟩

/-- The primary puts a request twice into a batch, and replica `1` executes it twice. -/
theorem executes_twice :
    ∃ (sys : System UInt8 Config.toy) (i : Config.toy.Correct),
      (systemMachine UInt8 Config.toy).Reach Machine.always sys ∧ (callsFor 7 1 (sys i).history).length = 2 := by
  let i : Config.toy.Correct := ⟨1, by decide⟩
  obtain ⟨sys, hreach, htwice⟩ := reach_of_exec Machine.always (batchRun [⟨7, 9, 1, []⟩, ⟨7, 9, 1, []⟩])
    (fun sys => (callsFor 7 1 (sys i).history).length = 2) (by decide +kernel)
  exact ⟨sys, i, hreach, htwice⟩

end Pbft

end Neatworks
