import Mathlib.Data.List.DropRight
import Neatworks.Event
import Neatworks.PbftMessage
import Neatworks.Runs
import Neatworks.Table

/-!
# The PBFT client

`Client` of `pbft.rs`. The timer, the net and the upcall do not fail. A log is
a client and what has happened at it, and its last round is what has happened
since the last accepted `Invoke`.
-/

namespace Neatworks.Pbft

open Outcome

structure ClientInvoke where
  op : Payload
  resendTimer : TimerId
  replies : Table UInt8 Reply := .empty

structure Client (A : Type) where
  id : UInt32
  addr : A
  seq : UInt32 := 0
  invoke : Option ClientInvoke := none
  viewNum : UInt32 := 0
  numReplica : Nat
  numFaulty : Nat

/-- How many of the replies have this result. -/
def matching (replies : Table UInt8 Reply) (result : Payload) : Nat :=
  replies.entries.countP fun e => e.2.result = result

namespace Client

inductive Event
  /-- `timerId` is what setting the timer returns. -/
  | invoke (op : Payload) (timerId : TimerId)
  | resend
  | recv (reply : Reply)

inductive Effect (A : Type)
  | set (period : Nat)
  | unset (timerId : TimerId)
  | send (dest : UInt8) (request : Request A)
  | invokeOk (id : UInt32) (result : Payload)

abbrev Handler (A α : Type) := Outcome (Client.Effect A) Error α

section
variable {A : Type}

def doSend (self : Client A) (dest : UInt8) : Client.Handler A Unit :=
  match self.invoke with
  | none => Outcome.throw (.panic .unwrap)
  | some invoke => Outcome.emit (.send dest ⟨self.id, self.addr, self.seq, invoke.op⟩)

def onInvoke (self : Client A) (op : Payload) (timerId : TimerId) : Client.Handler A (Client A) := do
  Outcome.assert self.invoke.isNone (.bail "concurrent invocation")
  let seq ← Neatworks.addU32 self.seq 1
  Outcome.emit (.set 1000)
  let self := { self with seq := seq, invoke := some { op := op, resendTimer := timerId } }
  -- the remainder by zero
  Outcome.assert (self.numReplica ≠ 0) (.panic .overflow)
  self.doSend (UInt8.ofNat (self.viewNum.toNat % self.numReplica))
  return self

def onRecv (self : Client A) (reply : Reply) : Client.Handler A (Client A) :=
  if reply.seq ≠ self.seq then return self
  else
    match self.invoke with
    | none => return self
    | some invoke =>
      let replies := invoke.replies.insert reply.replicaId reply
      if matching replies reply.result = self.numFaulty + 1 then do
        Outcome.emit (.unset invoke.resendTimer)
        Outcome.emit (.invokeOk self.id reply.result)
        return { self with viewNum := reply.viewNum, invoke := none }
      else return { self with invoke := some { invoke with replies := replies } }

def onEvent (self : Client A) : Client.Event → Client.Handler A (Client A)
  | .invoke op timerId => self.onInvoke op timerId
  | .resend => return self
  | .recv reply => self.onRecv reply

end

end Client

/-! ## Counts of replies -/

section
variable {replies : Table UInt8 Reply}

theorem matching_insert_le (replica : UInt8) (reply : Reply) (result : Payload) :
    matching (replies.insert replica reply) result ≤ matching replies result + if reply.result = result then 1 else 0 := by
  have hrest : (replies.entries.filter fun e => e.1 ≠ replica).countP (fun e => decide (e.2.result = result)) ≤
      matching replies result := List.filter_sublist.countP_le
  simp only [matching, Table.insert, List.countP_cons, decide_eq_true_eq] at hrest ⊢
  omega

/-- A count is that of a set of replicas. -/
theorem le_matching_iff {n : Nat} {result : Payload} : n ≤ matching replies result ↔
    ∃ ids : Finset UInt8, ids.card = n ∧ ∀ id ∈ ids, ∃ reply, replies.lookup id = some reply ∧ reply.result = result := by
  have hnodup : ((replies.entries.filter fun e => e.2.result = result).map Prod.fst).Nodup :=
    Table.nodup_filter replies.nodup _
  have hcard : (((replies.entries.filter fun e => e.2.result = result).map Prod.fst).toFinset).card =
      matching replies result := by
    rw [card_keys hnodup, matching, List.countP_eq_length_filter]
  have hmem (id : UInt8) : id ∈ ((replies.entries.filter fun e => e.2.result = result).map Prod.fst).toFinset ↔
      ∃ reply, replies.lookup id = some reply ∧ reply.result = result := by
    simp only [List.mem_toFinset, List.mem_map, List.mem_filter, decide_eq_true_eq, Table.lookup_eq_some, Prod.exists]
    constructor
    · rintro ⟨_, reply, ⟨hentry, hresult⟩, rfl⟩
      exact ⟨reply, hentry, hresult⟩
    · rintro ⟨reply, hentry, hresult⟩
      exact ⟨id, reply, ⟨hentry, hresult⟩, rfl⟩
  constructor
  · intro hle
    rw [← hcard] at hle
    obtain ⟨ids, hsub, hids⟩ := Finset.exists_subset_card_eq hle
    exact ⟨ids, hids, fun id hid => (hmem id).mp (hsub hid)⟩
  · rintro ⟨ids, rfl, hids⟩
    rw [← hcard]
    exact Finset.card_le_card fun id hid => (hmem id).mpr (hids id hid)

end

/-! ## Logs -/

inductive Client.Entry (A : Type)
  | event (event : Client.Event)
  | call (effect : Client.Effect A)

structure ClientLog (A : Type) where
  client : Client A
  history : List (Client.Entry A) := []

section
variable {A : Type}

def Client.Entry.isInvoke : Client.Entry A → Bool
  | .event (.invoke ..) => true
  | _ => false

/-- What has happened since the last `Invoke`. -/
def lastRound (history : List (Client.Entry A)) : List (Client.Entry A) := history.rtakeWhile fun e => !e.isInvoke

def Client.Entry.note (seq : UInt32) (replies : UInt8 → Option Reply) : Client.Entry A → UInt8 → Option Reply
  | .event (.recv reply) => if reply.seq = seq then Function.update replies reply.replicaId (some reply) else replies
  | _ => replies

/-- The latest reply of each replica to a request. -/
def latest (seq : UInt32) (history : List (Client.Entry A)) : UInt8 → Option Reply :=
  history.foldl (Client.Entry.note seq) fun _ => none

def ClientLog.after (log : ClientLog A) (event : Client.Event) (client : Client A) (es : List (Client.Effect A)) :
    ClientLog A where
  client := client
  history := log.history ++ .event event :: es.map .call

def clientMachine (A : Type) : Machine (ClientLog A) Client.Event where
  init log := ∃ id addr numReplica numFaulty,
    log = { client := { id := id, addr := addr, numReplica := numReplica, numFaulty := numFaulty } }
  next log event log' := (∃ client es, log.client.onEvent event = .ok client es ∧ log' = log.after event client es) ∨
    -- a refused `Invoke` changes nothing
    (∃ message es, log.client.onEvent event = .fail (.bail message) es ∧ log' = log)

/-- `numFaulty + 1` replicas have this result in their latest reply of the last round. -/
def ClientLog.Backed (log : ClientLog A) (result : Payload) : Prop :=
  ∃ ids : Finset UInt8, ids.card = log.client.numFaulty + 1 ∧
    ∀ id ∈ ids, ∃ reply, latest log.client.seq (lastRound log.history) id = some reply ∧ reply.result = result

/-! The last round, as the history grows. -/

theorem lastRound_append {l l' : List (Client.Entry A)} (h : ∀ e ∈ l', e.isInvoke = false) :
    lastRound (l ++ l') = lastRound l ++ l' := by
  induction l' generalizing l with
  | nil => rw [List.append_nil, List.append_nil]
  | cons e l' ih =>
    have he : (!e.isInvoke) = true := by rw [h e List.mem_cons_self]; rfl
    rw [List.append_cons l e l', ih fun e he => h e (List.mem_cons_of_mem _ he), List.append_cons _ e l']
    have hlast : lastRound (l ++ [e]) = lastRound l ++ [e] := 
      List.rtakeWhile_concat_pos (fun e : Client.Entry A => !e.isInvoke) l e he
    rw [hlast]

theorem lastRound_invoke {l l' : List (Client.Entry A)} {op : Payload} {timerId : TimerId}
    (h : ∀ e ∈ l', e.isInvoke = false) : lastRound (l ++ .event (.invoke op timerId) :: l') = l' := by
  have hlast : lastRound (l ++ [.event (.invoke op timerId)]) = [] :=
    List.rtakeWhile_concat_neg (fun e : Client.Entry A => !e.isInvoke) l _ Bool.false_ne_true
  rw [List.append_cons, lastRound_append h, hlast, List.nil_append]

theorem latest_append (seq : UInt32) (l l' : List (Client.Entry A)) :
    latest seq (l ++ l') = l'.foldl (Client.Entry.note seq) (latest seq l) := List.foldl_append ..

theorem not_isInvoke_call {es : List (Client.Effect A)} : ∀ e ∈ es.map Client.Entry.call, e.isInvoke = false := by
  intro e he
  obtain ⟨effect, _, rfl⟩ := List.mem_map.mp he
  rfl

theorem note_calls (seq : UInt32) (es : List (Client.Effect A)) (replies : UInt8 → Option Reply) :
    (es.map Client.Entry.call).foldl (Client.Entry.note seq) replies = replies := by
  induction es with
  | nil => rfl
  | cons e es ih => exact ih

/-! ## What an event does -/

inductive Client.Turn (self : Client A) : Client.Event → Client A → List (Client.Effect A) → Prop
  | invoke {op : Payload} {timerId : TimerId} (hnone : self.invoke = none) (hseq : self.seq.toNat + 1 < 2 ^ 32) :
    Turn self (.invoke op timerId) { self with seq := self.seq + 1, invoke := some { op := op, resendTimer := timerId } }
      [.set 1000, .send (UInt8.ofNat (self.viewNum.toNat % self.numReplica)) ⟨self.id, self.addr, self.seq + 1, op⟩]
  | resend : Turn self .resend self []
  | stale {reply : Reply} (hreply : reply.seq ≠ self.seq ∨ self.invoke = none) : Turn self (.recv reply) self []
  | counts {reply : Reply} {invoke : ClientInvoke} (hseq : reply.seq = self.seq) (hinvoke : self.invoke = some invoke)
    (hcount : matching (invoke.replies.insert reply.replicaId reply) reply.result ≠ self.numFaulty + 1) :
    Turn self (.recv reply)
      { self with invoke := some { invoke with replies := invoke.replies.insert reply.replicaId reply } } []
  | answers {reply : Reply} {invoke : ClientInvoke} (hseq : reply.seq = self.seq) (hinvoke : self.invoke = some invoke)
    (hcount : matching (invoke.replies.insert reply.replicaId reply) reply.result = self.numFaulty + 1) :
    Turn self (.recv reply) { self with viewNum := reply.viewNum, invoke := none }
      [.unset invoke.resendTimer, .invokeOk self.id reply.result]

theorem Client.onEvent_turn {self client : Client A} {event : Client.Event} {es : List (Client.Effect A)}
    (h : self.onEvent event = .ok client es) : self.Turn event client es := by
  have hturn : (self.onEvent event).Sat (self.Turn event) fun _ => True := by
    cases event with
    | invoke op timerId =>
      show (self.onInvoke op timerId).Sat _ _
      unfold Client.onInvoke
      simp only [sat_bind, sat_assert, List.nil_append, implies_true, and_true]
      intro hnone
      have hseq : (Neatworks.addU32 self.seq 1 : Client.Handler A UInt32).Sat
          (fun seq es => seq = self.seq + 1 ∧ es = [] ∧ self.seq.toNat + 1 < 2 ^ 32) fun _ => True := by
        unfold Neatworks.addU32
        split
        · next hlt => exact ⟨rfl, rfl, hlt⟩
        · trivial
      refine hseq.mono (fun seq es hok => ?_) fun _ _ => trivial
      obtain ⟨rfl, rfl, hlt⟩ := hok
      simp only [sat_emit, List.nil_append, Client.doSend, sat_pure, List.append_nil]
      exact fun _ => .invoke (Option.isNone_iff_eq_none.mp hnone) hlt
    | resend => exact .resend
    | recv reply =>
      show (self.onRecv reply).Sat _ _
      unfold Client.onRecv
      split
      · next hseq => exact .stale (Or.inl hseq)
      · next hseq =>
        split
        · next hnone => exact .stale (Or.inr hnone)
        · next invoke hinvoke =>
          dsimp only
          split
          · next hcount => exact .answers (not_not.mp hseq) hinvoke hcount
          · next hcount => exact .counts (not_not.mp hseq) hinvoke hcount
  rw [h] at hturn
  exact hturn

/-! ## The tally -/

/-- What the client knows of its last round. -/
structure Tallied (log : ClientLog A) : Prop where
  replies : ∀ invoke, log.client.invoke = some invoke → ∀ id,
    invoke.replies.lookup id = latest log.client.seq (lastRound log.history) id
  few : ∀ invoke, log.client.invoke = some invoke → ∀ result, matching invoke.replies result ≤ log.client.numFaulty
  waits : ∀ invoke, log.client.invoke = some invoke → ∀ id result, .call (.invokeOk id result) ∉ lastRound log.history
  answered : log.client.invoke = none → (∃ op timerId, .event (.invoke op timerId) ∈ log.history) →
    ∃ result, .call (.invokeOk log.client.id result) ∈ lastRound log.history

section
variable {log : ClientLog A} {event : Client.Event} {client : Client A} {es : List (Client.Effect A)}

/-- An event that is no `Invoke` goes on with the round. -/
theorem lastRound_after (log : ClientLog A) (client : Client A) (es : List (Client.Effect A))
    (hevent : (Client.Entry.event event : Client.Entry A).isInvoke = false) :
    lastRound (log.after event client es).history = lastRound log.history ++ .event event :: es.map .call := by
  refine lastRound_append fun e he => ?_
  rcases List.mem_cons.mp he with rfl | he
  · exact hevent
  · exact not_isInvoke_call e he

theorem invoke_mem_after (hevent : (Client.Entry.event event : Client.Entry A).isInvoke = false)
    (hinvoked : ∃ op timerId, .event (.invoke op timerId) ∈ (log.after event client es).history) :
    ∃ op timerId, .event (.invoke op timerId) ∈ log.history := by
  obtain ⟨op, timerId, hmem⟩ := hinvoked
  rcases List.mem_append.mp hmem with hmem | hmem
  · exact ⟨op, timerId, hmem⟩
  · rcases List.mem_cons.mp hmem with heq | hmem
    · rw [← heq] at hevent
      cases hevent
    · simp at hmem

theorem Tallied.insert (h : Tallied log) {invoke : ClientInvoke} (hinvoke : log.client.invoke = some invoke)
    {reply : Reply} (hseq : reply.seq = log.client.seq) (es : List (Client.Effect A)) (id : UInt8) :
    (invoke.replies.insert reply.replicaId reply).lookup id =
      latest log.client.seq (lastRound (log.history ++ .event (.recv reply) :: es.map .call)) id := by
  have hround : lastRound (log.history ++ .event (.recv reply) :: es.map .call) = _ := lastRound_after log log.client es rfl
  rw [hround, latest_append, List.foldl_cons, note_calls]
  simp only [Client.Entry.note, if_pos hseq]
  by_cases hid : id = reply.replicaId
  · subst hid
    rw [Table.lookup_insert_self, Function.update_self]
  · rw [Table.lookup_insert_ne hid, Function.update_of_ne hid]
    exact h.replies invoke hinvoke id

/-- Nothing but the last round changes by an event that is no reply for it. -/
theorem Tallied.idle (h : Tallied log) (hevent : (Client.Entry.event event : Client.Entry A).isInvoke = false)
    (hnote : log.client.invoke ≠ none →
      ∀ replies, (Client.Entry.event event : Client.Entry A).note log.client.seq replies = replies) :
    Tallied (log.after event log.client []) := by
  have hround := lastRound_after log log.client [] hevent
  constructor
  case replies =>
    intro invoke hinvoke id
    rw [hround, latest_append]
    have hsome : log.client.invoke = some invoke := hinvoke
    have hskip := hnote (by rw [hsome]; exact Option.some_ne_none _) (latest log.client.seq (lastRound log.history))
    show _ = Client.Entry.note log.client.seq (latest log.client.seq (lastRound log.history)) (.event event) id
    rw [hskip]
    exact h.replies invoke hsome id
  case few => exact h.few
  case waits =>
    intro invoke hinvoke id result hmem
    rw [hround] at hmem
    exact h.waits invoke hinvoke id result (by simpa using hmem)
  case answered =>
    intro hnone hinvoked
    obtain ⟨result, hmem⟩ := h.answered hnone (invoke_mem_after hevent hinvoked)
    refine ⟨result, ?_⟩
    rw [hround]
    exact List.mem_append_left _ hmem

theorem tallied_invoke {op : Payload} {timerId : TimerId} {request : ClientInvoke}
    (hrequest : client.invoke = some request) (hempty : request.replies = .empty)
    (hcalls : ∀ id result, .invokeOk id result ∉ es) : Tallied (log.after (.invoke op timerId) client es) := by
  have hround : lastRound (log.after (.invoke op timerId) client es).history = es.map .call :=
    lastRound_invoke not_isInvoke_call
  have hreplies {invoke : ClientInvoke} (hinvoke : client.invoke = some invoke) : invoke.replies = .empty := by
    rw [hrequest] at hinvoke
    cases hinvoke
    exact hempty
  constructor
  case replies =>
    intro invoke hinvoke id
    rw [hround, hreplies hinvoke, latest, note_calls]
    rfl
  case few =>
    intro invoke hinvoke result
    rw [hreplies hinvoke]
    exact Nat.zero_le _
  case waits =>
    intro _ _ id result hmem
    rw [hround] at hmem
    exact hcalls id result (by simpa using hmem)
  case answered =>
    intro hnone
    cases hrequest.symm.trans hnone

theorem Tallied.counts (h : Tallied log) {invoke : ClientInvoke} (hinvoke : log.client.invoke = some invoke)
    {reply : Reply} (hseq : reply.seq = log.client.seq)
    (hcount : matching (invoke.replies.insert reply.replicaId reply) reply.result ≠ log.client.numFaulty + 1) :
    Tallied (log.after (.recv reply) { log.client with
      invoke := some { invoke with replies := invoke.replies.insert reply.replicaId reply } } []) := by
  constructor
  case replies =>
    intro invoke' hinvoke' id
    cases hinvoke'
    exact h.insert hinvoke hseq [] id
  case few =>
    intro invoke' hinvoke' result
    cases hinvoke'
    have hle : matching (invoke.replies.insert reply.replicaId reply) result ≤ _ := matching_insert_le ..
    have hfew := h.few invoke hinvoke result
    show matching (invoke.replies.insert reply.replicaId reply) result ≤ log.client.numFaulty
    by_cases hresult : reply.result = result
    · subst hresult
      rw [if_pos rfl] at hle
      omega
    · rw [if_neg hresult] at hle
      omega
  case waits =>
    intro invoke' _ id result hmem
    rw [lastRound_after log _ _ rfl] at hmem
    exact h.waits invoke hinvoke id result (by simpa using hmem)
  case answered =>
    intro hnone
    cases hnone

theorem tallied_answers {reply : Reply} (hnone : client.invoke = none) {result : Payload}
    (hcall : .invokeOk client.id result ∈ es) : Tallied (log.after (.recv reply) client es) := by
  constructor
  case answered =>
    intro _ _
    refine ⟨result, ?_⟩
    rw [lastRound_after log _ _ rfl]
    exact List.mem_append_right _ (List.mem_cons_of_mem _ (List.mem_map_of_mem hcall))
  all_goals
    intro _ hinvoke
    cases hnone.symm.trans hinvoke

theorem Tallied.step (h : Tallied log) (hturn : log.client.Turn event client es) : Tallied (log.after event client es) := by
  cases hturn with
  | invoke hnone hseq => exact tallied_invoke rfl rfl (by simp)
  | resend => exact h.idle rfl fun _ _ => rfl
  | stale hreply =>
    refine h.idle rfl fun hinvoke replies => if_neg ?_
    rcases hreply with hreply | hreply
    · exact hreply
    · exact absurd hreply hinvoke
  | counts hseq hinvoke hcount => exact h.counts hinvoke hseq hcount
  | answers hseq hinvoke hcount => exact tallied_answers rfl (List.mem_cons_of_mem _ List.mem_cons_self)

end

theorem tallied_reach {log : ClientLog A} (h : (clientMachine A).Reach Machine.always log) : Tallied log := by
  induction h with
  | init h =>
    obtain ⟨id, addr, numReplica, numFaulty, rfl⟩ := h
    refine ⟨?_, ?_, ?_, fun _ hinvoked => ?_⟩
    case refine_4 =>
      obtain ⟨_, _, hmem⟩ := hinvoked
      cases hmem
    all_goals
      intro _ hinvoke
      cases hinvoke
  | next _ _ hs ih =>
    rcases hs with ⟨client, es, hok, rfl⟩ | ⟨_, _, _, rfl⟩
    · exact ih.step (Client.onEvent_turn hok)
    · exact ih

theorem Tallied.not_backed {log : ClientLog A} (h : Tallied log) {invoke : ClientInvoke}
    (hinvoke : log.client.invoke = some invoke) (result : Payload) : ¬log.Backed result := by
  rintro ⟨ids, hcard, hids⟩
  have hle : log.client.numFaulty + 1 ≤ matching invoke.replies result := by
    refine le_matching_iff.mpr ⟨ids, hcard, fun id hid => ?_⟩
    rw [h.replies invoke hinvoke id]
    exact hids id hid
  have hfew := h.few invoke hinvoke result
  omega

theorem Tallied.backed {log : ClientLog A} (h : Tallied log) {event : Client.Event} {client : Client A}
    {es : List (Client.Effect A)} (hturn : log.client.Turn event client es) {id : UInt32} {result : Payload}
    (hcall : .invokeOk id result ∈ es) : (log.after event client es).Backed result ∧ log.client.invoke ≠ none := by
  cases hturn with
  | invoke hnone hseq => simp at hcall
  | resend => cases hcall
  | stale hreply => cases hcall
  | counts hseq hinvoke hcount => cases hcall
  | @answers reply invoke hseq hinvoke hcount =>
    obtain rfl : result = reply.result := by simpa using And.right (by simpa using hcall)
    obtain ⟨ids, hcard, hids⟩ := le_matching_iff.mp (Nat.le_of_eq hcount.symm)
    refine ⟨⟨ids, hcard, fun id hid => ?_⟩, by rw [hinvoke]; exact Option.some_ne_none _⟩
    obtain ⟨reply', hlookup, hresult⟩ := hids id hid
    refine ⟨reply', ?_, hresult⟩
    rw [← hlookup]
    exact (h.insert hinvoke hseq _ id).symm

/-! ## Rounds -/

def Spaced (history : List (Client.Entry A)) : Prop :=
  ∀ before middle rest id result id' result',
    history = before ++ .call (.invokeOk id result) :: (middle ++ .call (.invokeOk id' result') :: rest) →
      ∃ op timerId, .event (.invoke op timerId) ∈ middle

/-- An answer of an earlier round has an `Invoke` behind it. -/
theorem exists_invoke_of_not_mem {before rest : List (Client.Entry A)} {e : Client.Entry A} (he : e.isInvoke = false)
    (h : e ∉ lastRound (before ++ e :: rest)) : ∃ op timerId, .event (.invoke op timerId) ∈ rest := by
  by_contra hnone
  refine h ?_
  have hrest : ∀ e' ∈ e :: rest, e'.isInvoke = false := by
    intro e' he'
    rcases List.mem_cons.mp he' with rfl | he'
    · exact he
    · cases hinvoke : e'.isInvoke with
      | false => rfl
      | true =>
        unfold Client.Entry.isInvoke at hinvoke
        split at hinvoke
        · exact absurd ⟨_, _, he'⟩ hnone
        · cases hinvoke
  rw [lastRound_append hrest]
  exact List.mem_append_right _ List.mem_cons_self

/-- What is new holds at most one answer, and none when the last round has one. -/
theorem Spaced.append {history new : List (Client.Entry A)} (h : Spaced history)
    (hnew : ∀ before rest id result, new = before ++ .call (.invokeOk id result) :: rest →
      ∀ id' result', .call (.invokeOk id' result') ∉ lastRound history ∧ .call (.invokeOk id' result') ∉ before) :
    Spaced (history ++ new) := by
  intro before middle rest id result id' result' heq
  rw [← List.cons_append, ← List.append_assoc] at heq
  rcases split_append heq with ⟨rest', hold, _⟩ | ⟨before', hbefore, hsplit⟩
  · rw [List.append_assoc, List.cons_append] at hold
    exact h before middle rest' id result id' result' hold
  · obtain ⟨hround, hfirst⟩ := hnew before' rest id' result' hsplit id result
    rcases split_append hbefore.symm with ⟨rest', hold, hmiddle⟩ | ⟨before'', _, hagain⟩
    · rw [hold] at hround
      obtain ⟨op, timerId, hinvoke⟩ := exists_invoke_of_not_mem rfl hround
      refine ⟨op, timerId, ?_⟩
      rw [hmiddle]
      exact List.mem_append_left _ hinvoke
    · refine absurd ?_ hfirst
      rw [hagain]
      exact List.mem_append_right _ List.mem_cons_self

theorem spaced_reach {log : ClientLog A} (h : (clientMachine A).Reach Machine.always log) : Spaced log.history := by
  refine h.invariant (I := fun log => Spaced log.history) ?_ ?_
  · rintro log ⟨id, addr, numReplica, numFaulty, rfl⟩ before middle rest _ _ _ _ heq
    simp at heq
  · rintro log event log' hreach hspaced - (⟨client, es, hok, rfl⟩ | ⟨_, _, _, rfl⟩)
    · have htallied := tallied_reach hreach
      have hturn := Client.onEvent_turn hok
      refine hspaced.append fun before rest id result hsplit id' result' => ?_
      have hcall : .invokeOk id result ∈ es := by
        have hmem : Client.Entry.call (.invokeOk id result) ∈ .event event :: es.map .call := by
          rw [hsplit]
          exact List.mem_append_right _ List.mem_cons_self
        simpa using hmem
      obtain ⟨_, hwaiting⟩ := htallied.backed hturn hcall
      obtain ⟨invoke, hinvoke⟩ := Option.ne_none_iff_exists'.mp hwaiting
      refine ⟨htallied.waits invoke hinvoke id' result', ?_⟩
      cases hturn with
      | answers =>
        -- the answer is the last of three entries
        rcases before with _ | ⟨_, _ | ⟨_, _ | ⟨_, before⟩⟩⟩
        · simp at hsplit
        · simp at hsplit
        · obtain ⟨rfl, rfl, _⟩ : _ = _ ∧ _ = _ ∧ _ := by simpa using hsplit
          simp
        · simp at hsplit
      | invoke => simp at hcall
      | _ => cases hcall
    · exact hspaced

/-! ## Answers -/

/-- An `Invoke` has at most one answer; an answer has a quorum of latest replies
when it is sent, and it is sent by the event that completes the quorum. -/
theorem invoke_answered {log : ClientLog A} (h : (clientMachine A).Reach Machine.always log) :
    (∀ before middle rest id result id' result',
      log.history = before ++ .call (.invokeOk id result) :: (middle ++ .call (.invokeOk id' result') :: rest) →
        ∃ op timerId, .event (.invoke op timerId) ∈ middle) ∧
      (∀ event client es id result, log.client.onEvent event = .ok client es → .invokeOk id result ∈ es →
        (log.after event client es).Backed result) ∧
      ((∃ op timerId, .event (.invoke op timerId) ∈ log.history) → (∃ result, log.Backed result) →
        ∃ result, .call (.invokeOk log.client.id result) ∈ lastRound log.history) := by
  have htallied := tallied_reach h
  refine ⟨spaced_reach h, fun event client es id result hok hcall => ?_, fun hinvoked hbacked => ?_⟩
  · exact (htallied.backed (Client.onEvent_turn hok) hcall).1
  · obtain ⟨result, hbacked⟩ := hbacked
    have hnone : log.client.invoke = none := by
      cases hinvoke : log.client.invoke with
      | none => rfl
      | some invoke => exact absurd hbacked (htallied.not_backed hinvoke result)
    exact htallied.answered hnone hinvoked

end

/-- A replica changes its reply, which completes a quorum. -/
theorem invoke_answered_changed :
    ∃ log : ClientLog UInt8, (clientMachine UInt8).Reach Machine.always log ∧ log.client.id = 7 ∧ log.Backed [6] ∧
      ∃ result, .call (.invokeOk log.client.id result) ∈ lastRound log.history := by
  have hinvoke : (clientMachine UInt8).Reach Machine.always _ :=
    .next (.init ⟨7, 70, 4, 1, rfl⟩) (l := .invoke [5] ⟨0⟩) trivial (Or.inl ⟨_, _, rfl, rfl⟩)
  have hwrong := hinvoke.next (l := .recv ⟨1, [9], 0, 2⟩) trivial (Or.inl ⟨_, _, rfl, rfl⟩)
  have hright := hwrong.next (l := .recv ⟨1, [6], 0, 3⟩) trivial (Or.inl ⟨_, _, rfl, rfl⟩)
  have hanswer := hright.next (l := .recv ⟨1, [6], 0, 2⟩) trivial (Or.inl ⟨_, _, rfl, rfl⟩)
  have hbacked := (invoke_answered hright).2.1 (.recv ⟨1, [6], 0, 2⟩) _ _ 7 [6] rfl (.tail _ (.head _))
  exact ⟨_, hanswer, rfl, hbacked, (invoke_answered hanswer).2.2 ⟨[5], ⟨0⟩, List.mem_cons_self⟩ ⟨[6], hbacked⟩⟩

end Neatworks.Pbft
