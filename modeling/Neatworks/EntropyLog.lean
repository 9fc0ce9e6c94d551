import Neatworks.EntropyEvent

/-!
# What the entropy peer has said about its fragments

A log is a peer and what has happened at it: the events it has taken, in any
order and any number of times, and the calls it has made. A receipt is sent for
a fragment that is stored, unless an offer comes while the store is running; an
answer to an invite names the index of the entry, unless another one is drawn
for an entry that is there.
-/

namespace Neatworks.Entropy

open Outcome
open Kademlia (PeerId)

inductive Entry (K P σ : Type) (codec : Codec)
  | event (event : Event K P σ codec)
  | call (effect : Effect K P σ codec)

structure Log (K P σ : Type) (codec : Codec) where
  peer : Peer K P σ codec
  history : List (Entry K P σ codec) := []

section
variable {K P σ : Type} {codec : Codec}

def Log.after (log : Log K P σ codec) (event : Event K P σ codec) (peer : Peer K P σ codec)
    (es : List (Effect K P σ codec)) : Log K P σ codec where
  peer := peer
  history := log.history ++ .event event :: es.map .call

def logMachine (K P σ : Type) (codec : Codec) [Preimage K] [DigestHash P] :
    Machine (Log K P σ codec) (Event K P σ codec) where
  init log := ∃ id crypto fragmentLen chunkK chunkN chunkM, log = { peer := Peer.new id crypto fragmentLen chunkK chunkN chunkM }
  next log event log' := ∃ peer es, log.peer.onEvent event = .ok peer es ∧ log' = log.after event peer es

section
variable {log : Log K P σ codec} {event : Event K P σ codec} {peer : Peer K P σ codec} {es : List (Effect K P σ codec)}

theorem call_mem_after {e : Effect K P σ codec} :
    .call e ∈ (log.after event peer es).history ↔ .call e ∈ log.history ∨ e ∈ es := by
  simp [Log.after]

theorem event_mem_after {event' : Event K P σ codec} :
    .event event' ∈ (log.after event peer es).history ↔ .event event' ∈ log.history ∨ event' = event := by
  simp [Log.after]

theorem split_after {before rest : List (Entry K P σ codec)} {e : Effect K P σ codec}
    (h : (log.after event peer es).history = before ++ .call e :: rest) :
    (∃ rest', log.history = before ++ .call e :: rest') ∨ e ∈ es ∧ ∃ new, before = log.history ++ .event event :: new := by
  rcases split_append h with ⟨rest', hold, -⟩ | ⟨new, hbefore, hnew⟩
  · exact Or.inl ⟨rest', hold⟩
  · cases new with
    | nil => cases hnew
    | cons entry new =>
      injection hnew with hentry htail
      subst hentry
      have hmem : Entry.call e ∈ es.map Entry.call := by
        rw [htail]
        exact List.mem_append_right _ List.mem_cons_self
      exact Or.inr ⟨by simpa using hmem, new, hbefore⟩

end

section
variable [Preimage K] [DigestHash P]

/-- The invariant rule of the machine, by the postconditions of the handlers. -/
theorem log_induct {C : Log K P σ codec → Event K P σ codec → Prop} {I : Log K P σ codec → Prop}
    (hinit : ∀ id crypto fragmentLen chunkK chunkN chunkM, I { peer := Peer.new id crypto fragmentLen chunkK chunkN chunkM })
    (hstep : ∀ log event, I log → C log event →
      (log.peer.onEvent event).Sat (fun peer es => I (log.after event peer es)) fun _ => True)
    {log : Log K P σ codec} (h : (logMachine K P σ codec).Reach C log) : I log := by
  refine h.invariant ?_ ?_
  · rintro _ ⟨id, crypto, fragmentLen, chunkK, chunkN, chunkM, rfl⟩
    exact hinit id crypto fragmentLen chunkK chunkN chunkM
  · rintro log event _ _ hI hC ⟨peer, es, hevent, rfl⟩
    have := hstep log event hI hC
    rw [hevent] at this
    exact this

section
variable (C : Log K P σ codec → Event K P σ codec → Prop) [∀ log event, Decidable (C log event)]

def Log.exec (log : Log K P σ codec) (event : Event K P σ codec) : Option (Log K P σ codec) :=
  if C log event then
    match log.peer.onEvent event with
    | .ok peer es => some (log.after event peer es)
    | .fail _ _ => none
  else none

theorem log_of_exec (id : PeerId) (crypto : PeerCrypto P σ) (fragmentLen : UInt32) (chunkK chunkN chunkM : ℕ+)
    (events : List (Event K P σ codec)) (Q : Log K P σ codec → Prop) [DecidablePred Q]
    (h : (events.foldlM (Log.exec C) { peer := Peer.new id crypto fragmentLen chunkK chunkN chunkM }).any
      (fun log => Q log) = true) : ∃ log, (logMachine K P σ codec).Reach C log ∧ Q log := by
  refine Machine.exists_of_foldlM (M := logMachine K P σ codec) (fun s l s' hs => ?_) ⟨_, _, _, _, _, _, rfl⟩ h
  unfold Log.exec at hs
  split at hs
  · next hc =>
    split at hs
    · next peer es hevent =>
      cases hs
      exact ⟨hc, peer, es, hevent, rfl⟩
    · cases hs
  · cases hs

end

end

/-! ## Receipts -/

/-- A receipt comes after the end of the store that it is for. -/
def Durable (history : List (Entry K P σ codec)) : Prop :=
  ∀ before rest dest m, history = before ++ .call (.sendFragmentAvailable dest m) :: rest →
    .event (.storeOk m.inner.chunk) ∈ before

def PersistStatus.IsStoring {D : Type} : PersistStatus D → Prop
  | .storing => True
  | .recovering _ | .available => False

instance {D : Type} : DecidablePred (PersistStatus.IsStoring (D := D))
  | .storing => .isTrue trivial
  | .recovering _ | .available => .isFalse not_false

/-- No offer that asks for a receipt comes while its fragment is being stored. -/
def NotStoring (log : Log K P σ codec) : Event K P σ codec → Prop
  | .recvOffer sendFragment => sendFragment.peerId ≠ none → log.peer.downloads sendFragment.chunk = none →
    ∀ state, log.peer.persists sendFragment.chunk = some state → sendFragment.index = state.index → ¬ state.status.IsStoring
  | _ => True

structure Acknowledges (log : Log K P σ codec) : Prop where
  durable : Durable log.history
  available : ∀ chunk state, log.peer.persists chunk = some state → state.status = .available →
    .event (.storeOk chunk) ∈ log.history

theorem Acknowledges.step [DigestHash P] {log : Log K P σ codec} {event : Event K P σ codec} {peer : Peer K P σ codec}
    {es : List (Effect K P σ codec)} (h : Acknowledges log) (hevent : NotStoring log event)
    (hchange : Change log.peer event peer (persistCalls es)) : Acknowledges (log.after event peer es) := by
  constructor
  case durable =>
    intro before rest dest m hsplit
    rcases split_after hsplit with ⟨rest', hold⟩ | ⟨hmem, new, rfl⟩
    · exact h.durable before rest' dest m hold
    · rw [← mem_persistCalls (by rfl)] at hmem
      generalize persistCalls es = calls at hmem hchange
      cases hchange with
      | idle => cases hmem
      | invited => simp at hmem
      | recovers => cases hmem
      | stores => simp at hmem
      | stored _ _ hcalls =>
        rcases hcalls with rfl | ⟨peerId, rfl⟩
        · cases hmem
        · cases List.mem_singleton.mp hmem
          exact List.mem_append_right _ List.mem_cons_self
      | @receipts o state peerId hdownload hstate hstatus hpeerId hindex =>
        cases List.mem_singleton.mp hmem
        have hnot := hevent (by rw [hpeerId]; exact Option.some_ne_none _) hdownload state hstate hindex
        have havailable : state.status = .available := by
          cases hs : state.status with
          | recovering => exact absurd (by rw [hs]; trivial) hstatus
          | storing => exact absurd (by rw [hs]; trivial) hnot
          | available => rfl
        exact List.mem_append_left _ (h.available o.chunk state hstate havailable)
      | loads => simp at hmem
  case available =>
    intro chunk state hstate havailable
    rw [event_mem_after]
    rcases hchange.origin hstate with hold | ⟨_, hrecovering⟩ | ⟨old, _, _, hnew⟩
    · exact Or.inl (h.available chunk state hold havailable)
    · rw [havailable] at hrecovering
      cases hrecovering
    · rcases hnew with ⟨_, hrecovering | hstoring⟩ | ⟨rfl, _⟩
      · rw [havailable] at hrecovering
        cases hrecovering
      · rw [havailable] at hstoring
        cases hstoring
      · exact Or.inr rfl

section
variable [Preimage K] [DigestHash P] {log : Log K P σ codec}

/-- In a run in which no fragment that is being stored is offered for a receipt,
receipts are for fragments that are stored. -/
theorem fragmentAvailable_durable (h : (logMachine K P σ codec).Reach NotStoring log) : Durable log.history := by
  refine (log_induct (I := Acknowledges) (fun _ _ _ _ _ _ => ?_) (fun log event hlog hevent => ?_) h).durable
  · constructor
    · intro before rest dest m hsplit
      cases before <;> cases hsplit
    · intro chunk state hstate
      cases hstate
  · exact (onEvent_change event).mono (fun peer es hchange => hlog.step hevent hchange) fun _ _ => trivial

instance (log : Log K P σ codec) : (event : Event K P σ codec) → Decidable (NotStoring log event)
  | .recvOffer sendFragment =>
    inferInstanceAs (Decidable (_ → _ → ∀ state ∈ log.peer.persists sendFragment.chunk, _ → ¬ state.status.IsStoring))
  | .put .. | .get _ | .recvInvite .. | .recvInviteOk _ | .recvFragmentAvailable _ | .recvPull _ | .downloadOk .. | .storeOk _
  | .loadOk .. | .codec .. => instDecidableTrue

end

def Entry.isReceipt : Entry K P σ codec → Bool
  | .call (.sendFragmentAvailable ..) => true
  | _ => false

def Entry.isStoreOk : Entry K P σ codec → Bool
  | .event (.storeOk _) => true
  | _ => false

theorem receipt_of_any {history : List (Entry K P σ codec)} (h : history.any Entry.isReceipt = true) :
    ∃ dest m, .call (.sendFragmentAvailable dest m) ∈ history := by
  obtain ⟨entry, hmem, hreceipt⟩ := List.any_eq_true.mp h
  unfold Entry.isReceipt at hreceipt
  split at hreceipt
  · exact ⟨_, _, hmem⟩
  · cases hreceipt

end

/-- The store ends, and the uploader gets its receipt. -/
theorem fragmentAvailable_durable_one : ∃ log : Log Digest UInt8 UInt8 .toy,
    Durable log.history ∧ ∃ dest m, .call (.sendFragmentAvailable dest m) ∈ log.history := by
  obtain ⟨log, hreach, hreceipt⟩ := log_of_exec (NotStoring : Log Digest UInt8 UInt8 .toy → _) (.replicate 32 1) ⟨.toy, 1⟩ 1 1 1 1
    [.recvInvite ⟨.replicate 32 9, .replicate 32 2⟩ 5, .recvOffer ⟨.replicate 32 9, 5, some (.replicate 32 2)⟩,
      .downloadOk (.replicate 32 9) 5 [0], .storeOk (.replicate 32 9)]
    (fun log => log.history.any Entry.isReceipt = true) (by decide +kernel)
  exact ⟨log, fragmentAvailable_durable hreach, receipt_of_any hreceipt⟩

/-- An offer that comes again while the fragment is being stored. -/
theorem acknowledged_early : ∃ log : Log Digest UInt8 UInt8 .toy,
    (logMachine Digest UInt8 UInt8 .toy).Reach Machine.always log ∧ ¬ Durable log.history := by
  obtain ⟨log, hreach, hreceipt, hnone⟩ := log_of_exec (Machine.always : Log Digest UInt8 UInt8 .toy → _) (.replicate 32 1)
    ⟨.toy, 1⟩ 1 1 1 1
    [.recvInvite ⟨.replicate 32 9, .replicate 32 2⟩ 5, .recvOffer ⟨.replicate 32 9, 5, some (.replicate 32 2)⟩,
      .downloadOk (.replicate 32 9) 5 [0], .recvOffer ⟨.replicate 32 9, 5, some (.replicate 32 2)⟩]
    (fun log => log.history.any Entry.isReceipt = true ∧ log.history.any Entry.isStoreOk = false) (by decide +kernel)
  refine ⟨log, hreach, fun hdurable => ?_⟩
  obtain ⟨dest, m, hmem⟩ := receipt_of_any hreceipt
  obtain ⟨before, rest, hsplit⟩ := List.append_of_mem hmem
  have hstored : .event (.storeOk m.inner.chunk) ∈ log.history := by
    rw [hsplit]
    exact List.mem_append_left _ (hdurable before rest dest m hsplit)
  rw [List.any_eq_false] at hnone
  exact hnone _ hstored rfl

/-! ## Answers to invites -/

section
variable {K P σ : Type} {codec : Codec}

/-- An answer to an invite names the index of the entry. -/
def Consistent (log : Log K P σ codec) : Prop :=
  ∀ dest inviteOk, .call (.sendInviteOk dest inviteOk) ∈ log.history →
    ∃ state, log.peer.persists inviteOk.chunk = some state ∧ state.index = inviteOk.index

/-- The index drawn for a chunk that has an entry is the one of the entry. -/
def SameDraw (log : Log K P σ codec) : Event K P σ codec → Prop
  | .recvInvite invite index => invite.peerId ≠ log.peer.id →
    ∀ state, log.peer.persists invite.chunk = some state → index = state.index
  | _ => True

theorem Consistent.step [DigestHash P] {log : Log K P σ codec} {event : Event K P σ codec} {peer : Peer K P σ codec}
    {es : List (Effect K P σ codec)} (h : Consistent log) (hevent : SameDraw log event)
    (hchange : Change log.peer event peer (persistCalls es)) : Consistent (log.after event peer es) := by
  intro dest inviteOk hmem
  rcases call_mem_after.mp hmem with hold | hnew
  · obtain ⟨state, hstate, hindex⟩ := h dest inviteOk hold
    obtain ⟨new, hnew, hsame, _⟩ := hchange.stays hstate
    exact ⟨new, hnew, hsame.trans hindex⟩
  · rw [← mem_persistCalls (by rfl)] at hnew
    show ∃ state, peer.persists inviteOk.chunk = some state ∧ state.index = inviteOk.index
    generalize persistCalls es = calls at hnew hchange
    cases hchange with
    | idle => cases hnew
    | @invited invite index _ state hother hstate hpersists =>
      cases List.mem_singleton.mp hnew
      refine ⟨state, by rw [hpersists, Function.update_self], ?_⟩
      rcases hstate with hold | ⟨_, hindex, _⟩
      · exact (hevent hother state hold).symm
      · exact hindex
    | recovers => cases hnew
    | stores => simp at hnew
    | stored _ _ hcalls =>
      rcases hcalls with rfl | ⟨peerId, rfl⟩
      · cases hnew
      · simp at hnew
    | receipts => simp at hnew
    | loads => simp at hnew

/-! What an uploader offers for a receipt is an answer to an answer. -/

def Effect.asksReceipt : Effect K P σ codec → Bool
  | .offer _ sendFragment _ => sendFragment.peerId.isSome
  | _ => false

/-- What an event does to the answers to invites, and what it offers for them. -/
structure Answers (s : Peer K P σ codec) (event : Event K P σ codec) (peer : Peer K P σ codec)
    (es : List (Effect K P σ codec)) : Prop where
  pending : ∀ chunk state index dest, peer.uploads chunk = some state → state.pending index = some dest →
    event = .recvInviteOk ⟨chunk, index, dest⟩ ∨ ∃ old, s.uploads chunk = some old ∧ old.pending index = some dest
  offers : ∀ dest sendFragment fragment, .offer dest sendFragment fragment ∈ es → sendFragment.peerId ≠ none →
    ∃ state, s.uploads sendFragment.chunk = some state ∧ state.pending sendFragment.index = some dest

/-- Calls none of which asks for a receipt. -/
def Silent (es : List (Effect K P σ codec)) : Prop := ∀ e ∈ es, e.asksReceipt = false

theorem Silent.offers {es : List (Effect K P σ codec)} (h : Silent es) {dest : PeerId} {sendFragment : SendFragment}
    {fragment : Bytes} (hmem : .offer dest sendFragment fragment ∈ es) : sendFragment.peerId = none := by
  simpa [Effect.asksReceipt] using h _ hmem

section
variable {self peer : Peer K P σ codec} {event : Event K P σ codec} {es : List (Effect K P σ codec)}

theorem Answers.quiet (huploads : peer.uploads = self.uploads) (hes : Silent es) : Answers self event peer es where
  pending chunk state index dest hstate hpending := Or.inr ⟨state, by rw [← huploads, hstate], hpending⟩
  offers dest sendFragment fragment hmem hask := absurd (hes.offers hmem) hask

theorem Answers.update {c : Chunk} {new : Option (UploadState K codec.Encoder)}
    (huploads : peer.uploads = Function.update self.uploads c new)
    (hnew : ∀ state, new = some state → ∀ index dest, state.pending index = some dest →
      event = .recvInviteOk ⟨c, index, dest⟩ ∨ ∃ old, self.uploads c = some old ∧ old.pending index = some dest)
    (hes : Silent es) : Answers self event peer es where
  pending chunk state index dest hstate hpending := by
    rw [huploads] at hstate
    by_cases hc : chunk = c
    · subst hc
      rw [Function.update_self] at hstate
      exact hnew state hstate index dest hpending
    · rw [Function.update_of_ne hc] at hstate
      exact Or.inr ⟨state, hstate, hpending⟩
  offers dest sendFragment fragment hmem hask := absurd (hes.offers hmem) hask

end

section
variable {self : Peer K P σ codec}

variable [DigestHash P]

variable [Preimage K]

instance (log : Log K P σ codec) : (event : Event K P σ codec) → Decidable (SameDraw log event)
  | .recvInvite invite _ => inferInstanceAs (Decidable (_ → ∀ state ∈ log.peer.persists invite.chunk, _))
  | .put .. | .get _ | .recvInviteOk _ | .recvOffer _ | .recvFragmentAvailable _ | .recvPull _ | .downloadOk .. | .storeOk _
  | .loadOk .. | .codec .. => instDecidableTrue

end

end

end Neatworks.Entropy
