import Neatworks.EntropyRun

/-!
# The events of the entropy peer

The handlers of `Peer` under one name, for events that come in any order and
any number of times. What an event does to the entries of `persists` is one
relation, and every law about them is read off its cases.
-/

namespace Neatworks.Entropy

open Outcome
open Kademlia (PeerId Target)

inductive Event (K P σ : Type) (codec : Codec)
  | put (preimage : K) (buf : Bytes)
  | get (preimage : K)
  /-- `index` is the random one. -/
  | recvInvite (invite : Invite) (index : UInt32)
  | recvInviteOk (inviteOk : InviteOk)
  | recvOffer (sendFragment : SendFragment)
  | recvFragmentAvailable (fragmentAvailable : Verifiable (FragmentAvailable P) σ)
  | recvPull (pull : Pull)
  | downloadOk (chunk : Chunk) (index : UInt32) (fragment : Bytes)
  | storeOk (chunk : Chunk)
  | loadOk (chunk : Chunk) (index : UInt32) (fragment : Bytes)
  | codec (event : CodecEvent codec) (pick : Nat)

section
variable {K P σ : Type} {codec : Codec}

def Peer.onEvent [Preimage K] [DigestHash P] (self : Peer K P σ codec) :
    Event K P σ codec → Handler K P σ codec (Peer K P σ codec)
  | .put preimage buf => self.onPut preimage buf
  | .get preimage => self.onGet preimage
  | .recvInvite invite index => self.onRecvInvite invite index
  | .recvInviteOk inviteOk => self.onRecvInviteOk inviteOk
  | .recvOffer sendFragment => self.onRecvOffer sendFragment
  | .recvFragmentAvailable fragmentAvailable => self.onRecvFragmentAvailable fragmentAvailable
  | .recvPull pull => self.onRecvPull pull
  | .downloadOk chunk index fragment => self.onDownloadOk chunk index fragment
  | .storeOk chunk => self.onStoreOk chunk
  | .loadOk chunk index fragment => self.onLoadOk chunk index fragment
  | .codec event pick => self.onCodec pick event

/-- The calls that an entry of `persists` is behind. -/
def Effect.onPersist : Effect K P σ codec → Bool
  | .sendInviteOk .. | .sendFragmentAvailable .. | .store .. | .load .. => true
  | _ => false

def persistCalls (es : List (Effect K P σ codec)) : List (Effect K P σ codec) := es.filter Effect.onPersist

theorem mem_persistCalls {e : Effect K P σ codec} {es : List (Effect K P σ codec)} (he : e.onPersist = true) :
    e ∈ persistCalls es ↔ e ∈ es := by
  simp [persistCalls, he]

/-! ## What an event does to `persists` -/

inductive Change [DigestHash P] (s : Peer K P σ codec) :
    Event K P σ codec → Peer K P σ codec → List (Effect K P σ codec) → Prop
  | idle {event : Event K P σ codec} {peer : Peer K P σ codec} (h : peer.persists = s.persists) : Change s event peer []
  | invited {invite : Invite} {index : UInt32} {peer : Peer K P σ codec} {state : PersistState codec.Decoder}
    (hother : invite.peerId ≠ s.id)
    (hstate : s.persists invite.chunk = some state ∨
      s.persists invite.chunk = none ∧ state.index = index ∧ state.status.IsRecovering)
    (h : peer.persists = Function.update s.persists invite.chunk (some state)) :
    Change s (.recvInvite invite index) peer [.sendInviteOk invite.peerId ⟨invite.chunk, index, s.id⟩]
  | recovers {event : Event K P σ codec} {peer : Peer K P σ codec} {chunk : Chunk} {state state' : PersistState codec.Decoder}
    (hstate : s.persists chunk = some state) (hrecovering : state.status.IsRecovering)
    (hindex : state'.index = state.index) (hstatus : state'.status.IsRecovering)
    (h : peer.persists = Function.update s.persists chunk (some state')) : Change s event peer []
  | stores {event : Event K P σ codec} {peer : Peer K P σ codec} {chunk : Chunk} {state : PersistState codec.Decoder}
    {fragment : Bytes} (hstate : s.persists chunk = some state) (hrecovering : state.status.IsRecovering)
    (h : peer.persists = Function.update s.persists chunk (some { state with status := .storing })) :
    Change s event peer [.store chunk state.index fragment]
  | stored {peer : Peer K P σ codec} {chunk : Chunk} {state : PersistState codec.Decoder} {notify : Option PeerId}
    {calls : List (Effect K P σ codec)} (hstate : s.persists chunk = some state)
    (h : peer.persists = Function.update s.persists chunk (some ⟨state.index, .available, notify⟩))
    (hcalls : calls = [] ∨ ∃ peerId, calls = [.sendFragmentAvailable peerId (s.receipt chunk)]) :
    Change s (.storeOk chunk) peer calls
  | receipts {sendFragment : SendFragment} {state : PersistState codec.Decoder} {peerId : PeerId}
    (hdownload : s.downloads sendFragment.chunk = none) (hstate : s.persists sendFragment.chunk = some state)
    (hstatus : ¬ state.status.IsRecovering) (hpeerId : sendFragment.peerId = some peerId)
    (hindex : sendFragment.index = state.index) :
    Change s (.recvOffer sendFragment) s [.sendFragmentAvailable peerId (s.receipt sendFragment.chunk)]
  | loads {pull : Pull} {peer : Peer K P σ codec} {state : PersistState codec.Decoder}
    (hstate : s.persists pull.chunk = some state) (hstatus : state.status = .available) (h : peer.persists = s.persists) :
    Change s (.recvPull pull) peer [.load pull.chunk state.index true]

section
variable {self : Peer K P σ codec}

/-! The calls of the functions that the handlers share. -/

theorem RecoverState.new_effects (fragmentLen : UInt32) (chunkK : ℕ+) :
    (RecoverState.new fragmentLen chunkK : Handler K P σ codec _).Sat (fun _ es => es = []) fun _ => True := by
  unfold RecoverState.new
  split <;> simp

theorem RecoverState.submitDecode_effects (recover : RecoverState codec.Decoder) (chunk : Chunk) (index : UInt32)
    (fragment : Bytes) (encodeIndex : Option UInt32) :
    (recover.submitDecode chunk index fragment encodeIndex : Handler K P σ codec _).Sat
      (fun _ es => es = [] ∨ ∃ job, es = [.submit job]) fun _ => True := by
  unfold RecoverState.submitDecode
  split <;> simp

theorem RecoverState.onDecode_effects (recover : RecoverState codec.Decoder) (chunk : Chunk) (decoder : codec.Decoder)
    (encodeIndex : Option UInt32) (pick : Nat) :
    (recover.onDecode chunk decoder encodeIndex pick : Handler K P σ codec _).Sat
      (fun _ es => es = [] ∨ ∃ job, es = [.submit job]) fun _ => True := by
  unfold RecoverState.onDecode
  simp only [sat_bind, sat_assert, List.nil_append, implies_true, and_true]
  intro _
  split
  · exact Or.inl rfl
  · apply RecoverState.submitDecode_effects

theorem offerEach_effects (sendFragment : SendFragment) (fragment : Bytes) (pending : List PeerId) :
    (Peer.offerEach sendFragment fragment pending : Handler K P σ codec Unit).Sat
      (fun _ es => es = pending.map fun peerId => .offer peerId sendFragment fragment) fun _ => True := by
  induction pending with
  | nil => rfl
  | cons peerId pending ih =>
    rw [Peer.offerEach, sat_bind]
    exact ih.mono (fun _ es hes => by rw [hes]; rfl) fun _ _ => trivial

theorem persistCalls_submit {es : List (Effect K P σ codec)} (h : es = [] ∨ ∃ job, es = [.submit job]) :
    persistCalls es = [] := by
  rcases h with rfl | ⟨job, rfl⟩ <;> rfl

variable [DigestHash P]

theorem onRecvInvite_change (invite : Invite) (index : UInt32) :
    (self.onRecvInvite invite index).Sat
      (fun peer es => Change self (.recvInvite invite index) peer (persistCalls es)) fun _ => True := by
  unfold Peer.onRecvInvite
  split
  · exact .idle rfl
  · next hother =>
    rw [sat_bind]
    refine (RecoverState.new_effects _ _).mono (fun recover es hes => ?_) fun _ _ => trivial
    subst hes
    simp only [sat_bind, sat_emit, sat_pure]
    cases hstate : self.persists invite.chunk with
    | none =>
      refine .invited hother (Or.inr ⟨hstate, ?_, ?_⟩) rfl
      · rfl
      · trivial
    | some state => exact .invited hother (Or.inl hstate) rfl

theorem onRecvOffer_change (sendFragment : SendFragment) :
    (self.onRecvOffer sendFragment).Sat
      (fun peer es => Change self (.recvOffer sendFragment) peer (persistCalls es)) fun _ => True := by
  unfold Peer.onRecvOffer
  split
  · exact .idle rfl
  · next hdownload =>
    split
    · exact .idle rfl
    · next state hstate =>
      split
      · next recover hstatus =>
        have hrecovering : state.status.IsRecovering := by simp [hstatus, PersistStatus.IsRecovering]
        split
        · simp only [sat_bind, sat_assert, sat_emit, sat_pure, List.nil_append, implies_true, and_true]
          intro _ _
          refine .recovers hstate hrecovering ?_ ?_ rfl
          · rfl
          · exact hrecovering
        · exact .idle rfl
      -- storing and available
      all_goals
        next hstatus =>
        have hsettled : ¬ state.status.IsRecovering := by simp [hstatus, PersistStatus.IsRecovering]
        split
        · exact .idle rfl
        · next peerId hpeerId =>
          simp only [sat_bind, sat_assert, sat_emit, sat_pure, List.nil_append, implies_true, and_true]
          intro hindex
          exact .receipts hdownload hstate hsettled hpeerId hindex

theorem onDownloadOk_change (chunk : Chunk) (index : UInt32) (fragment : Bytes) :
    (self.onDownloadOk chunk index fragment).Sat
      (fun peer es => Change self (.downloadOk chunk index fragment) peer (persistCalls es)) fun _ => True := by
  unfold Peer.onDownloadOk
  split
  · rw [sat_bind]
    refine (RecoverState.submitDecode_effects ..).mono (fun recover es hes => ?_) fun _ _ => trivial
    rw [sat_pure, List.append_nil, persistCalls_submit hes]
    exact .idle rfl
  · split
    · exact .idle rfl
    · next state hstate =>
      split
      · next recover hstatus =>
        have hrecovering : state.status.IsRecovering := by simp [hstatus, PersistStatus.IsRecovering]
        split
        · exact .stores hstate hrecovering rfl
        · split
          · exact .idle rfl
          · rw [sat_bind]
            refine (RecoverState.submitDecode_effects ..).mono (fun recover es hes => ?_) fun _ _ => trivial
            rw [sat_pure, List.append_nil, persistCalls_submit hes]
            refine .recovers hstate hrecovering ?_ ?_ rfl
            · rfl
            · trivial
      · exact .idle rfl
      · exact .idle rfl

theorem onStoreOk_change (chunk : Chunk) :
    (self.onStoreOk chunk).Sat (fun peer es => Change self (.storeOk chunk) peer (persistCalls es)) fun _ => True := by
  unfold Peer.onStoreOk
  split
  · exact .idle rfl
  · next state hstate =>
    split
    · exact .stored hstate rfl (Or.inl rfl)
    · next peerId _ => exact .stored hstate rfl (Or.inr ⟨peerId, rfl⟩)

theorem onRecvPull_change (pull : Pull) :
    (self.onRecvPull pull).Sat (fun peer es => Change self (.recvPull pull) peer (persistCalls es)) fun _ => True := by
  unfold Peer.onRecvPull
  split
  · exact .idle rfl
  · next state hstate =>
    split
    · next hstatus => exact .loads hstate hstatus rfl
    · exact .idle rfl
    · exact .idle rfl

theorem onDecode_change (chunk : Chunk) (decoder : codec.Decoder) (pick : Nat) :
    (self.onDecode chunk decoder pick).Sat
      (fun peer es => Change self (.codec (.decode chunk decoder) pick) peer (persistCalls es)) fun _ => True := by
  unfold Peer.onDecode
  split
  · rw [sat_bind]
    refine (RecoverState.onDecode_effects ..).mono (fun recover es hes => ?_) fun _ _ => trivial
    rw [sat_pure, List.append_nil, persistCalls_submit hes]
    exact .idle rfl
  · split
    · exact .idle rfl
    · next state hstate =>
      split
      · next recover hstatus =>
        rw [sat_bind]
        refine (RecoverState.onDecode_effects ..).mono (fun recover es hes => ?_) fun _ _ => trivial
        rw [sat_pure, List.append_nil, persistCalls_submit hes]
        refine .recovers hstate (by simp [hstatus, PersistStatus.IsRecovering]) ?_ ?_ rfl
        · rfl
        · trivial
      · trivial
      · trivial

theorem onRecoverEncode_change (chunk : Chunk) (fragment : Bytes) (pick : Nat) :
    (self.onRecoverEncode chunk fragment).Sat
      (fun peer es => Change self (.codec (.recoverEncode chunk fragment) pick) peer (persistCalls es)) fun _ => True := by
  unfold Peer.onRecoverEncode
  split
  · exact .idle rfl
  · next state hstate =>
    split
    · next recover hstatus => exact .stores hstate (by simp [hstatus, PersistStatus.IsRecovering]) rfl
    · trivial
    · trivial

end

section
variable [DigestHash P] {self : Peer K P σ codec}

/-- An upload is nothing to `persists`. -/
theorem change_of_quiet {x : Handler K P σ codec (Peer K P σ codec)} (event : Event K P σ codec)
    (h : x.Sat (fun peer es => peer.persists = self.persists ∧ persistCalls es = []) fun _ => True) :
    x.Sat (fun peer es => Change self event peer (persistCalls es)) fun _ => True := by
  refine h.mono (fun peer es h => ?_) fun _ _ => trivial
  rw [h.2]
  exact .idle h.1

theorem onEvent_change [Preimage K] (event : Event K P σ codec) :
    (self.onEvent event).Sat (fun peer es => Change self event peer (persistCalls es)) fun _ => True := by
  cases event with
  | put preimage buf =>
    apply change_of_quiet
    show (self.onPut preimage buf).Sat _ _
    unfold Peer.onPut
    simp [persistCalls, Effect.onPersist]
  | get preimage =>
    apply change_of_quiet
    show (self.onGet preimage).Sat _ _
    unfold Peer.onGet
    rw [sat_bind]
    refine (RecoverState.new_effects _ _).mono (fun recover es hes => ?_) fun _ _ => trivial
    subst hes
    simp only [sat_bind, sat_assert, sat_emit, sat_pure]
    exact ⟨fun _ => ⟨rfl, rfl⟩, fun _ => trivial⟩
  | recvInvite invite index => exact onRecvInvite_change invite index
  | recvInviteOk inviteOk =>
    apply change_of_quiet
    show (self.onRecvInviteOk inviteOk).Sat _ _
    unfold Peer.onRecvInviteOk
    repeat' split
    all_goals simp [persistCalls, Effect.onPersist]
  | recvOffer sendFragment => exact onRecvOffer_change sendFragment
  | recvFragmentAvailable m =>
    apply change_of_quiet
    show (self.onRecvFragmentAvailable m).Sat _ _
    unfold Peer.onRecvFragmentAvailable
    dsimp only
    repeat' split
    all_goals simp [persistCalls, Effect.onPersist]
  | recvPull pull => exact onRecvPull_change pull
  | downloadOk chunk index fragment => exact onDownloadOk_change chunk index fragment
  | storeOk chunk => exact onStoreOk_change chunk
  | loadOk chunk index fragment =>
    apply change_of_quiet
    show (self.onLoadOk chunk index fragment).Sat _ _
    unfold Peer.onLoadOk
    split
    · exact ⟨rfl, rfl⟩
    · rw [sat_bind]
      refine (offerEach_effects ..).mono (fun _ es hes => ?_) fun _ _ => trivial
      rw [sat_pure, List.append_nil, hes]
      exact ⟨rfl, by simp [persistCalls, Effect.onPersist]⟩
  | codec event pick =>
    cases event with
    | newEncoder chunk encoder =>
      apply change_of_quiet
      show (self.onNewEncoder chunk encoder).Sat _ _
      unfold Peer.onNewEncoder
      split <;> simp [persistCalls, Effect.onPersist]
    | encode chunk index fragment =>
      apply change_of_quiet
      show (self.onEncode chunk index fragment).Sat _ _
      unfold Peer.onEncode
      repeat' split
      all_goals simp [persistCalls, Effect.onPersist]
    | decode chunk decoder => exact onDecode_change chunk decoder pick
    | recover chunk buf =>
      apply change_of_quiet
      show (self.onRecover chunk buf).Sat _ _
      unfold Peer.onRecover
      split <;> simp [persistCalls, Effect.onPersist]
    | recoverEncode chunk fragment => exact onRecoverEncode_change chunk fragment pick

theorem change_of_ok [Preimage K] {peer : Peer K P σ codec} {event : Event K P σ codec} {es : List (Effect K P σ codec)}
    (h : self.onEvent event = .ok peer es) : Change self event peer (persistCalls es) := by
  have hchange : (self.onEvent event).Sat (fun peer es => Change self event peer (persistCalls es)) fun _ => True :=
    onEvent_change event
  rw [h] at hchange
  exact hchange

end

/-! ## One entry -/

section
variable [DigestHash P] {self peer : Peer K P σ codec} {event : Event K P σ codec} {calls : List (Effect K P σ codec)}
  {chunk : Chunk} {state : PersistState codec.Decoder}

theorem Change.origin (h : Change self event peer calls) (hstate : peer.persists chunk = some state) :
    self.persists chunk = some state ∨ self.persists chunk = none ∧ state.status.IsRecovering ∨
      ∃ old, self.persists chunk = some old ∧ state.index = old.index ∧
        (old.status.IsRecovering ∧ (state.status.IsRecovering ∨ state.status = .storing) ∨
          event = .storeOk chunk ∧ state.status = .available) := by
  have hupdate {c : Chunk} {new : PersistState codec.Decoder}
      (hpersists : peer.persists = Function.update self.persists c (some new)) :
      self.persists chunk = some state ∨ chunk = c ∧ state = new := by
    rw [hpersists] at hstate
    by_cases hc : chunk = c
    · subst hc
      rw [Function.update_self, Option.some.injEq] at hstate
      exact Or.inr ⟨rfl, hstate.symm⟩
    · rw [Function.update_of_ne hc] at hstate
      exact Or.inl hstate
  cases h with
  | idle hpersists => exact Or.inl (by rw [← hpersists, hstate])
  | invited _ hold hpersists =>
    rcases hupdate hpersists with hsame | ⟨rfl, rfl⟩
    · exact Or.inl hsame
    · exact hold.imp id fun hnew => Or.inl ⟨hnew.1, hnew.2.2⟩
  | recovers hold hrecovering hindex hstatus hpersists =>
    rcases hupdate hpersists with hsame | ⟨rfl, rfl⟩
    · exact Or.inl hsame
    · exact Or.inr (Or.inr ⟨_, hold, hindex, Or.inl ⟨hrecovering, Or.inl hstatus⟩⟩)
  | stores hold hrecovering hpersists =>
    rcases hupdate hpersists with hsame | ⟨rfl, rfl⟩
    · exact Or.inl hsame
    · exact Or.inr (Or.inr ⟨_, hold, rfl, Or.inl ⟨hrecovering, Or.inr rfl⟩⟩)
  | stored hold hpersists _ =>
    rcases hupdate hpersists with hsame | ⟨rfl, rfl⟩
    · exact Or.inl hsame
    · exact Or.inr (Or.inr ⟨_, hold, rfl, Or.inr ⟨rfl, rfl⟩⟩)
  | receipts => exact Or.inl hstate
  | loads _ _ hpersists => exact Or.inl (by rw [← hpersists, hstate])

theorem Change.stays (h : Change self event peer calls) (hstate : self.persists chunk = some state) :
    ∃ new, peer.persists chunk = some new ∧ new.index = state.index ∧
      (¬ state.status.IsRecovering → ¬ new.status.IsRecovering) := by
  have hsame (hpersists : peer.persists = self.persists) : ∃ new, peer.persists chunk = some new ∧
      new.index = state.index ∧ (¬ state.status.IsRecovering → ¬ new.status.IsRecovering) :=
    ⟨state, by rw [hpersists, hstate], rfl, id⟩
  have hupdate {c : Chunk} {old new : PersistState codec.Decoder} (hold : self.persists c = some old)
      (hpersists : peer.persists = Function.update self.persists c (some new)) (hindex : new.index = old.index)
      (hstatus : ¬ old.status.IsRecovering → ¬ new.status.IsRecovering) : ∃ new, peer.persists chunk = some new ∧
        new.index = state.index ∧ (¬ state.status.IsRecovering → ¬ new.status.IsRecovering) := by
    by_cases hc : chunk = c
    · subst hc
      rw [hstate, Option.some.injEq] at hold
      subst hold
      exact ⟨new, by rw [hpersists, Function.update_self], hindex, hstatus⟩
    · exact ⟨state, by rw [hpersists, Function.update_of_ne hc, hstate], rfl, id⟩
  cases h with
  | idle hpersists => exact hsame hpersists
  | @invited invite _ _ new _ hold hpersists =>
    rcases hold with hold | ⟨hnone, _⟩
    · exact hupdate hold hpersists rfl id
    · refine ⟨state, ?_, rfl, id⟩
      rw [hpersists, Function.update_of_ne, hstate]
      rintro rfl
      rw [hstate] at hnone
      cases hnone
  | recovers hold hrecovering hindex _ hpersists => exact hupdate hold hpersists hindex fun hnot => absurd hrecovering hnot
  | stores hold hrecovering hpersists => exact hupdate hold hpersists rfl fun hnot => absurd hrecovering hnot
  | stored hold hpersists _ => exact hupdate hold hpersists rfl fun _ => not_false
  | receipts => exact hsame rfl
  | loads _ _ hpersists => exact hsame hpersists

end

end

end Neatworks.Entropy
