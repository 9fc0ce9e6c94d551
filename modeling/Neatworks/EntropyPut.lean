import Neatworks.EntropyRun

/-!
# The certificate of a put

An upload counts the peers that have sent it a valid receipt, as long as every
receipt for it names the peer of the key that it carries.
-/

namespace Neatworks.Entropy

open Outcome
open Kademlia (PeerId Target)

section
variable {K P σ : Type} {codec : Codec}

/-- The preimages of the puts that these calls report. -/
def putOks (es : List (Effect K P σ codec)) : List K :=
  es.filterMap fun
    | .putOk preimage => some preimage
    | _ => none

@[simp] theorem putOks_append (es es' : List (Effect K P σ codec)) : putOks (es ++ es') = putOks es ++ putOks es' :=
  List.filterMap_append ..

structure SameConfig (s s' : Peer K P σ codec) : Prop where
  crypto : s'.crypto = s.crypto
  chunkN : s'.chunkN = s.chunkN

/-- A handler that leaves the uploads alone. -/
def Leaves (s s' : Peer K P σ codec) (es : List (Effect K P σ codec)) : Prop :=
  SameConfig s s' ∧ s'.uploads = s.uploads ∧ putOks es = []

/-- A handler that changes an upload, but not for whom it is and who has sent a receipt. -/
def Advances (chunk : Chunk) (s s' : Peer K P σ codec) (es : List (Effect K P σ codec)) : Prop :=
  SameConfig s s' ∧ putOks es = [] ∧ (∀ c, c ≠ chunk → s'.uploads c = s.uploads c) ∧
    ∃ state state', s.uploads chunk = some state ∧ s'.uploads chunk = some state' ∧ state'.preimage = state.preimage ∧
      state'.available = state.available

variable {self : Peer K P σ codec}

theorem Leaves.refl (s : Peer K P σ codec) : Leaves s s [] := ⟨⟨rfl, rfl⟩, rfl, rfl⟩

theorem RecoverState.new_putOks (fragmentLen : UInt32) (chunkK : ℕ+) :
    (RecoverState.new fragmentLen chunkK : Handler K P σ codec _).Sat (fun _ es => putOks es = []) fun _ => True := by
  unfold RecoverState.new
  split <;> simp [putOks]

theorem RecoverState.submitDecode_putOks (recover : RecoverState codec.Decoder) (chunk : Chunk) (index : UInt32)
    (fragment : Bytes) (encodeIndex : Option UInt32) :
    (recover.submitDecode chunk index fragment encodeIndex : Handler K P σ codec _).Sat (fun _ es => putOks es = [])
      fun _ => True := by
  unfold RecoverState.submitDecode
  split <;> simp [putOks]

theorem RecoverState.onDecode_putOks (recover : RecoverState codec.Decoder) (chunk : Chunk) (decoder : codec.Decoder)
    (encodeIndex : Option UInt32) (pick : Nat) :
    (recover.onDecode chunk decoder encodeIndex pick : Handler K P σ codec _).Sat (fun _ es => putOks es = [])
      fun _ => True := by
  unfold RecoverState.onDecode
  simp only [sat_bind, sat_assert, List.nil_append]
  refine ⟨fun _ => ?_, fun _ => trivial⟩
  split
  · rfl
  · exact RecoverState.submitDecode_putOks ..

theorem onNewEncoder_uploads (chunk : Chunk) (encoder : codec.Encoder) :
    (self.onNewEncoder chunk encoder).Sat (fun peer es => Leaves self peer es ∨ Advances chunk self peer es) fun _ => True := by
  unfold Peer.onNewEncoder
  split
  · exact Or.inl (.refl self)
  · next state hstate =>
    simp only [sat_bind, sat_assert, sat_emit, sat_pure]
    exact ⟨fun _ => Or.inr ⟨⟨rfl, rfl⟩, rfl, fun c hc => by simp [hc], state, { state with encoder := some encoder }, hstate,
      by simp, rfl, rfl⟩, fun _ => trivial⟩

theorem onRecvInviteOk_uploads (inviteOk : InviteOk) :
    (self.onRecvInviteOk inviteOk).Sat (fun peer es => Leaves self peer es ∨ Advances inviteOk.chunk self peer es)
      fun _ => True := by
  unfold Peer.onRecvInviteOk
  split
  · exact Or.inl (.refl self)
  · next state hstate =>
    split
    · exact Or.inl (.refl self)
    · split
      · trivial
      · exact Or.inr ⟨⟨rfl, rfl⟩, rfl, fun c hc => by simp [hc], state,
          { state with pending := Function.update state.pending inviteOk.index (some inviteOk.peerId) }, hstate,
          by simp, rfl, rfl⟩

theorem onEncode_uploads (chunk : Chunk) (index : UInt32) (fragment : Bytes) :
    (self.onEncode chunk index fragment).Sat (Leaves self) fun _ => True := by
  unfold Peer.onEncode
  split
  · exact .refl self
  · split
    · exact .refl self
    · exact ⟨⟨rfl, rfl⟩, rfl, rfl⟩

theorem onRecvInvite_uploads (invite : Invite) (index : UInt32) :
    (self.onRecvInvite invite index).Sat (Leaves self) fun _ => True := by
  unfold Peer.onRecvInvite
  split
  · exact .refl self
  · rw [sat_bind]
    refine (RecoverState.new_putOks _ _).mono (fun recover es hes => ?_) fun _ _ => trivial
    simp only [sat_bind, sat_emit, sat_pure]
    exact ⟨⟨rfl, rfl⟩, rfl, by rw [putOks_append, hes]; rfl⟩

theorem onRecover_uploads (chunk : Chunk) (buf : Bytes) : (self.onRecover chunk buf).Sat (Leaves self) fun _ => True := by
  unfold Peer.onRecover
  split
  · exact .refl self
  · exact ⟨⟨rfl, rfl⟩, rfl, rfl⟩

theorem onRecoverEncode_uploads (chunk : Chunk) (fragment : Bytes) :
    (self.onRecoverEncode chunk fragment).Sat (Leaves self) fun _ => True := by
  unfold Peer.onRecoverEncode
  split
  · exact .refl self
  · split
    · exact ⟨⟨rfl, rfl⟩, rfl, rfl⟩
    · trivial
    · trivial

theorem onDecode_uploads (chunk : Chunk) (decoder : codec.Decoder) (pick : Nat) :
    (self.onDecode chunk decoder pick).Sat (Leaves self) fun _ => True := by
  unfold Peer.onDecode
  split
  · rw [sat_bind]
    refine (RecoverState.onDecode_putOks ..).mono (fun recover es hes => ?_) fun _ _ => trivial
    exact ⟨⟨rfl, rfl⟩, rfl, by rw [List.append_nil]; exact hes⟩
  · split
    · exact .refl self
    · split
      · rw [sat_bind]
        refine (RecoverState.onDecode_putOks ..).mono (fun recover es hes => ?_) fun _ _ => trivial
        exact ⟨⟨rfl, rfl⟩, rfl, by rw [List.append_nil]; exact hes⟩
      · trivial
      · trivial

theorem onRecvPull_uploads (pull : Pull) : (self.onRecvPull pull).Sat (Leaves self) fun _ => True := by
  unfold Peer.onRecvPull
  split
  · exact .refl self
  · split
    · exact ⟨⟨rfl, rfl⟩, rfl, rfl⟩
    · exact .refl self
    · exact .refl self

theorem offerEach_putOks (sendFragment : SendFragment) (fragment : Bytes) (pending : List PeerId) :
    (Peer.offerEach sendFragment fragment pending : Handler K P σ codec Unit).Sat (fun _ es => putOks es = [])
      fun _ => True := by
  induction pending with
  | nil => rfl
  | cons peerId pending ih =>
    rw [Peer.offerEach, sat_bind]
    exact ih.mono (fun _ es hes => by rw [putOks_append, hes]; rfl) fun _ _ => trivial

theorem onLoadOk_uploads (chunk : Chunk) (index : UInt32) (fragment : Bytes) :
    (self.onLoadOk chunk index fragment).Sat (Leaves self) fun _ => True := by
  unfold Peer.onLoadOk
  split
  · exact .refl self
  · rw [sat_bind]
    refine (offerEach_putOks ..).mono (fun _ es hes => ?_) fun _ _ => trivial
    exact ⟨⟨rfl, rfl⟩, rfl, by rw [List.append_nil]; exact hes⟩

theorem onDownloadOk_uploads (chunk : Chunk) (index : UInt32) (fragment : Bytes) :
    (self.onDownloadOk chunk index fragment).Sat (Leaves self) fun _ => True := by
  unfold Peer.onDownloadOk
  split
  · rw [sat_bind]
    refine (RecoverState.submitDecode_putOks ..).mono (fun recover es hes => ?_) fun _ _ => trivial
    exact ⟨⟨rfl, rfl⟩, rfl, by rw [List.append_nil]; exact hes⟩
  · split
    · exact .refl self
    · split
      · split
        · exact ⟨⟨rfl, rfl⟩, rfl, rfl⟩
        · split
          · exact .refl self
          · rw [sat_bind]
            refine (RecoverState.submitDecode_putOks ..).mono (fun recover es hes => ?_) fun _ _ => trivial
            exact ⟨⟨rfl, rfl⟩, rfl, by rw [List.append_nil]; exact hes⟩
      · exact .refl self
      · exact .refl self

section
variable [DigestHash P]

theorem onRecvOffer_uploads (sendFragment : SendFragment) :
    (self.onRecvOffer sendFragment).Sat (Leaves self) fun _ => True := by
  unfold Peer.onRecvOffer
  split
  · exact ⟨⟨rfl, rfl⟩, rfl, rfl⟩
  · split
    · exact .refl self
    · split
      · split
        · simp only [sat_bind, sat_assert, sat_emit, sat_pure]
          exact ⟨fun _ => ⟨fun _ => ⟨⟨rfl, rfl⟩, rfl, rfl⟩, fun _ => trivial⟩, fun _ => trivial⟩
        · exact ⟨⟨rfl, rfl⟩, rfl, rfl⟩
      · split
        · exact .refl self
        · simp only [sat_bind, sat_assert, sat_emit, sat_pure]
          exact ⟨fun _ => ⟨⟨rfl, rfl⟩, rfl, rfl⟩, fun _ => trivial⟩
      · split
        · exact .refl self
        · simp only [sat_bind, sat_assert, sat_emit, sat_pure]
          exact ⟨fun _ => ⟨⟨rfl, rfl⟩, rfl, rfl⟩, fun _ => trivial⟩

theorem onStoreOk_uploads (chunk : Chunk) : (self.onStoreOk chunk).Sat (Leaves self) fun _ => True := by
  unfold Peer.onStoreOk
  split
  · exact .refl self
  · split
    · exact ⟨⟨rfl, rfl⟩, rfl, rfl⟩
    · exact ⟨⟨rfl, rfl⟩, rfl, rfl⟩

/-- The receipt is of the peer of its key. -/
def Valid (crypto : PeerCrypto P σ) (m : Verifiable (FragmentAvailable P) σ) : Prop :=
  m.inner.peerId = crypto.scheme.digest m.inner.peerKey ∧ crypto.verify m.inner.peerKey m = true

/-- A receipt that is counted. -/
structure Counts (s : Peer K P σ codec) (m : Verifiable (FragmentAvailable P) σ) (s' : Peer K P σ codec)
    (es : List (Effect K P σ codec)) : Prop where
  config : SameConfig s s'
  others : ∀ c, c ≠ m.inner.chunk → s'.uploads c = s.uploads c
  upload : ∃ state, s.uploads m.inner.chunk = some state ∧
    ((insert m.inner.peerId state.available).card = s.chunkN ∧ putOks es = [state.preimage] ∧ s'.uploads m.inner.chunk = none ∨
     (insert m.inner.peerId state.available).card ≠ s.chunkN ∧ putOks es = [] ∧
      s'.uploads m.inner.chunk = some { state with available := insert m.inner.peerId state.available })

theorem onRecvFragmentAvailable_uploads (m : Verifiable (FragmentAvailable P) σ) :
    (self.onRecvFragmentAvailable m).Sat (fun peer es => Leaves self peer es ∨
      ¬ (m.inner.peerId = self.crypto.scheme.digest m.inner.peerKey ∧ self.crypto.verify m.inner.peerKey m = false) ∧
        Counts self m peer es) fun _ => True := by
  unfold Peer.onRecvFragmentAvailable
  dsimp only
  split
  · exact Or.inl (.refl self)
  · next state hstate =>
    split
    · exact Or.inl (.refl self)
    · next hcounts =>
      split
      · next hcard =>
        exact Or.inr ⟨hcounts, ⟨rfl, rfl⟩, fun c hc => by simp [hc], state, hstate, Or.inl ⟨hcard, rfl, by simp⟩⟩
      · next hcard =>
        exact Or.inr ⟨hcounts, ⟨rfl, rfl⟩, fun c hc => by simp [hc], state, hstate, Or.inr ⟨hcard, rfl, by simp⟩⟩

end

variable [Preimage K]

theorem onGet_uploads (preimage : K) : (self.onGet preimage).Sat (Leaves self) fun _ => True := by
  unfold Peer.onGet
  rw [sat_bind]
  refine (RecoverState.new_putOks _ _).mono (fun recover es hes => ?_) fun _ _ => trivial
  simp only [sat_bind, sat_assert, sat_emit, sat_pure]
  exact ⟨fun _ => ⟨⟨rfl, rfl⟩, rfl, by rw [putOks_append, hes]; rfl⟩, fun _ => trivial⟩

theorem onPut_uploads (preimage : K) (buf : Bytes) :
    (self.onPut preimage buf).Sat (fun peer es => SameConfig self peer ∧ putOks es = [] ∧
      self.uploads (Preimage.target preimage) = none ∧
      peer.uploads = Function.update self.uploads (Preimage.target preimage) (some { preimage := preimage }))
      fun _ => True := by
  unfold Peer.onPut
  simp only [sat_bind, sat_assert, sat_emit, sat_pure]
  exact ⟨fun _ => ⟨fun hnone => ⟨⟨rfl, rfl⟩, rfl, Option.isNone_iff_eq_none.mp hnone, rfl⟩, fun _ => trivial⟩, fun _ => trivial⟩

/-! ## What a step does to the uploads -/

/-- What a step does to the uploads, by what has come. -/
inductive Uploads [DigestHash P] (s : Peer K P σ codec) : Input K P σ → Peer K P σ codec → List (Effect K P σ codec) → Prop
  | leaves {input : Input K P σ} {s' : Peer K P σ codec} {es : List (Effect K P σ codec)}
    (hinput : ∀ preimage buf, input ≠ .put preimage buf) (h : Leaves s s' es) : Uploads s input s' es
  | advances {input : Input K P σ} {s' : Peer K P σ codec} {es : List (Effect K P σ codec)} {chunk : Chunk}
    (hinput : ∀ preimage buf, input ≠ .put preimage buf) (h : Advances chunk s s' es) : Uploads s input s' es
  | put {preimage : K} {buf : Bytes} {s' : Peer K P σ codec} {es : List (Effect K P σ codec)} (hconfig : SameConfig s s')
    (hes : putOks es = []) (hnone : s.uploads (Preimage.target preimage) = none)
    (h : s'.uploads = Function.update s.uploads (Preimage.target preimage) (some { preimage := preimage })) :
    Uploads s (.put preimage buf) s' es
  | counts {m : Verifiable (FragmentAvailable P) σ} {s' : Peer K P σ codec} {es : List (Effect K P σ codec)}
    (hvalid : ¬ (m.inner.peerId = s.crypto.scheme.digest m.inner.peerKey ∧ s.crypto.verify m.inner.peerKey m = false))
    (h : Counts s m s' es) : Uploads s (.recvFragmentAvailable m) s' es

/-! ## Receipts -/

section
variable {run : Run K P σ codec} {input : Input K P σ} {peer : Peer K P σ codec} {es : List (Effect K P σ codec)}

/-- The receipts for the chunk that have come since the last put of it was accepted. -/
def receiptsNext (chunk : Chunk) (receipts : List (Verifiable (FragmentAvailable P) σ)) :
    Occurrence K P σ codec → List (Verifiable (FragmentAvailable P) σ)
  | .input (.put preimage _) => if Preimage.target preimage = chunk then [] else receipts
  | .input (.recvFragmentAvailable m) => if m.inner.chunk = chunk then receipts ++ [m] else receipts
  | _ => receipts

def receipts (chunk : Chunk) (history : List (Occurrence K P σ codec)) : List (Verifiable (FragmentAvailable P) σ) :=
  history.foldl (receiptsNext chunk) []

def Occurrence.puts (chunk : Chunk) : Occurrence K P σ codec → Bool
  | .input (.put preimage _) => Preimage.target preimage = chunk
  | _ => false

def Occurrence.putOks (chunk : Chunk) : Occurrence K P σ codec → Bool
  | .effect (.putOk preimage) => Preimage.target preimage = chunk
  | _ => false

theorem receipts_effects (chunk : Chunk) (history : List (Occurrence K P σ codec)) (input : Input K P σ)
    (es : List (Effect K P σ codec)) :
    receipts chunk (history ++ .input input :: es.map .effect) =
      receiptsNext chunk (receipts chunk history) (.input input : Occurrence K P σ codec) := by
  have hnone : ∀ (es : List (Effect K P σ codec)) (rs : List (Verifiable (FragmentAvailable P) σ)),
      (es.map fun e => (.effect e : Occurrence K P σ codec)).foldl (receiptsNext chunk) rs = rs := by
    intro es
    induction es with
    | nil => exact fun _ => rfl
    | cons e es ih => exact fun rs => ih rs
  rw [receipts, receipts, List.foldl_append, List.foldl_cons, hnone]

theorem countP_putOks (chunk : Chunk) (es : List (Effect K P σ codec)) :
    (es.map Occurrence.effect).countP (Occurrence.putOks chunk) =
      (putOks es).countP fun preimage => Preimage.target preimage = chunk := by
  induction es with
  | nil => rfl
  | cons e es ih =>
    rw [List.map_cons, List.countP_cons, ih]
    cases e with
    | putOk preimage =>
      change _ = (preimage :: putOks es).countP _
      rw [List.countP_cons]
      rfl
    | _ => rfl

theorem countP_puts (chunk : Chunk) (es : List (Effect K P σ codec)) :
    (es.map Occurrence.effect).countP (Occurrence.puts chunk) = 0 :=
  List.countP_eq_zero.mpr fun o ho => by
    obtain ⟨e, _, rfl⟩ := List.mem_map.mp ho
    exact Bool.false_ne_true

theorem receipts_after (chunk : Chunk) : receipts chunk (run.after input peer es).history =
    receiptsNext chunk (receipts chunk run.history) (.input input : Occurrence K P σ codec) := receipts_effects ..

theorem mem_receipts_after (hinput : ∀ preimage buf, input ≠ .put preimage buf) {chunk : Chunk}
    {m : Verifiable (FragmentAvailable P) σ} (h : m ∈ receipts chunk run.history) :
    m ∈ receipts chunk (run.after input peer es).history := by
  rw [receipts_after]
  cases input with
  | put preimage buf => exact absurd rfl (hinput preimage buf)
  | recvFragmentAvailable m' =>
    rw [receiptsNext]
    split
    · exact List.mem_append_left _ h
    · exact h
  | _ => exact h

end

variable [DigestHash P] {run : Run K P σ codec}

theorem handle_uploads (run : Run K P σ codec) (input : Input K P σ) :
    (run.handle input).Sat (Uploads run.peer input) fun _ => True := by
  have hleaves : ∀ {x : Handler K P σ codec (Peer K P σ codec)}, (∀ preimage buf, input ≠ .put preimage buf) →
      x.Sat (Leaves run.peer) (fun _ => True) → x.Sat (Uploads run.peer input) fun _ => True :=
    fun hinput hx => hx.mono (fun _ _ h => .leaves hinput h) fun _ _ => trivial
  have hadvances : ∀ {x : Handler K P σ codec (Peer K P σ codec)} {chunk : Chunk}, (∀ preimage buf, input ≠ .put preimage buf) →
      x.Sat (fun peer es => Leaves run.peer peer es ∨ Advances chunk run.peer peer es) (fun _ => True) →
      x.Sat (Uploads run.peer input) fun _ => True :=
    fun hinput hx => hx.mono (fun _ _ h => h.elim (.leaves hinput) (.advances hinput)) fun _ _ => trivial
  cases input with
  | put preimage buf =>
    exact (onPut_uploads preimage buf).mono (fun _ _ ⟨hconfig, hes, hnone, h⟩ => .put hconfig hes hnone h) fun _ _ => trivial
  | get preimage => exact hleaves nofun (onGet_uploads preimage)
  | recvInvite invite index => exact hleaves nofun (onRecvInvite_uploads invite index)
  | recvInviteOk inviteOk => exact hadvances nofun (onRecvInviteOk_uploads inviteOk)
  | recvOffer sendFragment => exact hleaves nofun (onRecvOffer_uploads sendFragment)
  | recvFragmentAvailable m =>
    exact (onRecvFragmentAvailable_uploads m).mono
      (fun _ _ h => h.elim (.leaves nofun) fun hcounts => .counts hcounts.1 hcounts.2) fun _ _ => trivial
  | recvPull pull => exact hleaves nofun (onRecvPull_uploads pull)
  | downloadOk chunk index fragment => exact hleaves nofun (onDownloadOk_uploads chunk index fragment)
  | loadOk chunk index fragment => exact hleaves nofun (onLoadOk_uploads chunk index fragment)
  | storeOk n =>
    rw [Run.handle]
    split
    · exact hleaves nofun (Leaves.refl run.peer)
    · exact hleaves nofun (onStoreOk_uploads _)
  | complete n pick =>
    rw [Run.handle]
    split
    · exact hleaves nofun (Leaves.refl run.peer)
    · split
      · exact hleaves nofun (Leaves.refl run.peer)
      · next event _ =>
        cases event with
        | newEncoder chunk encoder => exact hadvances nofun (onNewEncoder_uploads chunk encoder)
        | encode chunk index fragment => exact hleaves nofun (onEncode_uploads chunk index fragment)
        | decode chunk decoder => exact hleaves nofun (onDecode_uploads chunk decoder pick)
        | recover chunk buf => exact hleaves nofun (onRecover_uploads chunk buf)
        | recoverEncode chunk fragment => exact hleaves nofun (onRecoverEncode_uploads chunk fragment)

/-! ## Certificates -/

/-- Receipts of so many peers have come for the chunk since it was put. -/
def Certified (crypto : PeerCrypto P σ) (n : Nat) (chunk : Chunk) (history : List (Occurrence K P σ codec)) : Prop :=
  ∃ ids : Finset PeerId, ids.card = n ∧ ∀ id ∈ ids, ∃ m ∈ receipts chunk history, m.inner.peerId = id ∧ Valid crypto m

/-- The receipts that come for a chunk being uploaded name the peers of their keys. -/
def Bound (run : Run K P σ codec) (input : Input K P σ) : Prop :=
  ∀ m, input = .recvFragmentAvailable m → (run.peer.uploads m.inner.chunk).isSome →
    m.inner.peerId = run.peer.crypto.scheme.digest m.inner.peerKey

/-- What holds of the uploads and of the puts that have been reported. -/
structure Certificates (run : Run K P σ codec) : Prop where
  uploads : ∀ chunk state, run.peer.uploads chunk = some state → Preimage.target state.preimage = chunk ∧
    ∀ id ∈ state.available, ∃ m ∈ receipts chunk run.history, m.inner.peerId = id ∧ Valid run.peer.crypto m
  balance : ∀ chunk, run.history.countP (Occurrence.puts chunk) =
    run.history.countP (Occurrence.putOks chunk) + if (run.peer.uploads chunk).isSome then 1 else 0
  past : ∀ n preimage, run.history[n]? = some (.effect (.putOk preimage)) →
    Certified run.peer.crypto run.peer.chunkN (Preimage.target preimage) (run.history.take n)

section
variable {input : Input K P σ} {peer : Peer K P σ codec} {es : List (Effect K P σ codec)}

/-- A put that is reported by the step. -/
theorem Certificates.past_after (h : Certificates run) (hconfig : SameConfig run.peer peer)
    (hnew : ∀ preimage ∈ putOks es, Certified run.peer.crypto run.peer.chunkN (Preimage.target preimage)
      (run.history ++ [.input input])) :
    ∀ n preimage, (run.after input peer es).history[n]? = some (.effect (.putOk preimage)) →
      Certified peer.crypto peer.chunkN (Preimage.target preimage) ((run.after input peer es).history.take n) := by
  intro n preimage hget
  rw [hconfig.crypto, hconfig.chunkN]
  change (run.history ++ _)[n]? = _ at hget
  change Certified _ _ _ ((run.history ++ _).take n)
  rcases Nat.lt_or_ge n run.history.length with hlt | hge
  · rw [List.getElem?_append_left hlt] at hget
    rw [List.take_append_of_le_length hlt.le]
    exact h.past n preimage hget
  · rw [List.getElem?_append_right hge] at hget
    obtain ⟨k, hk⟩ : ∃ k, n - run.history.length = k := ⟨_, rfl⟩
    rw [hk] at hget
    cases k with
    | zero => cases hget
    | succ k =>
      rw [List.getElem?_cons_succ, List.getElem?_map, Option.map_eq_some_iff] at hget
      obtain ⟨e, he, heq⟩ := hget
      cases heq
      have hmem : preimage ∈ putOks es := List.mem_filterMap.mpr ⟨_, List.mem_of_getElem? he, rfl⟩
      rw [List.take_append, List.take_of_length_le hge, hk, List.take_succ_cons, ← List.map_take]
      obtain ⟨ids, hcard, hids⟩ := hnew preimage hmem
      refine ⟨ids, hcard, fun id hid => ?_⟩
      rw [receipts_effects]
      have hone := receipts_effects (Preimage.target preimage) run.history input ([] : List (Effect K P σ codec))
      rw [List.map_nil] at hone
      rw [← hone]
      exact hids id hid

theorem Certificates.balance_after (h : Certificates run) (hinput : ∀ preimage buf, input ≠ .put preimage buf)
    (hes : putOks es = []) (hlive : ∀ chunk, (peer.uploads chunk).isSome = (run.peer.uploads chunk).isSome) :
    ∀ chunk, (run.after input peer es).history.countP (Occurrence.puts chunk) =
      (run.after input peer es).history.countP (Occurrence.putOks chunk) + if (peer.uploads chunk).isSome then 1 else 0 := by
  intro chunk
  have hputs : (Occurrence.input input : Occurrence K P σ codec).puts chunk = false := by
    cases input with
    | put preimage buf => exact absurd rfl (hinput preimage buf)
    | _ => rfl
  have hputOks : (Occurrence.input input : Occurrence K P σ codec).putOks chunk = false := rfl
  change (run.history ++ _).countP _ = (run.history ++ _).countP _ + _
  rw [List.countP_append, List.countP_append, List.countP_cons, List.countP_cons, countP_puts, countP_putOks, hes, hlive,
    h.balance chunk, hputs, hputOks]
  simp only [List.countP_nil, Bool.false_eq_true, if_false]
  omega

theorem Certificates.keep (h : Certificates run) (hconfig : SameConfig run.peer peer)
    (hinput : ∀ preimage buf, input ≠ .put preimage buf) (hes : putOks es = [])
    (hsame : ∀ chunk state', peer.uploads chunk = some state' → ∃ state, run.peer.uploads chunk = some state ∧
      state'.preimage = state.preimage ∧ state'.available = state.available)
    (hlive : ∀ chunk, (peer.uploads chunk).isSome = (run.peer.uploads chunk).isSome) :
    Certificates (run.after input peer es) := by
  refine ⟨fun chunk state' hstate' => ?_, h.balance_after hinput hes hlive, h.past_after hconfig (by simp [hes])⟩
  obtain ⟨state, hstate, hpreimage, havailable⟩ := hsame chunk state' hstate'
  obtain ⟨htarget, hids⟩ := h.uploads chunk state hstate
  refine ⟨by rw [hpreimage]; exact htarget, fun id hid => ?_⟩
  rw [havailable] at hid
  obtain ⟨m, hm, hpeer, hvalid⟩ := hids id hid
  exact ⟨m, mem_receipts_after hinput hm, hpeer, by
    change Valid peer.crypto m
    rw [hconfig.crypto]
    exact hvalid⟩

theorem Certificates.put (h : Certificates run) {preimage : K} {buf : Bytes} (hconfig : SameConfig run.peer peer)
    (hes : putOks es = []) (hnone : run.peer.uploads (Preimage.target preimage) = none)
    (hnew : peer.uploads = Function.update run.peer.uploads (Preimage.target preimage) (some { preimage := preimage })) :
    Certificates (run.after (.put preimage buf) peer es) := by
  refine ⟨fun chunk state' hstate' => ?_, fun chunk => ?_, h.past_after hconfig (by simp [hes])⟩
  · change peer.uploads chunk = _ at hstate'
    rw [hnew] at hstate'
    by_cases hchunk : chunk = Preimage.target preimage
    · subst hchunk
      rw [Function.update_self] at hstate'
      cases hstate'
      exact ⟨rfl, fun id hid => absurd hid (Finset.notMem_empty id)⟩
    · rw [Function.update_of_ne hchunk] at hstate'
      obtain ⟨htarget, hids⟩ := h.uploads chunk state' hstate'
      refine ⟨htarget, fun id hid => ?_⟩
      obtain ⟨m, hm, hpeer, hvalid⟩ := hids id hid
      refine ⟨m, ?_, hpeer, by
        change Valid peer.crypto m
        rw [hconfig.crypto]
        exact hvalid⟩
      rw [receipts_after, receiptsNext, if_neg fun heq => hchunk heq.symm]
      exact hm
  · change (run.history ++ _).countP _ = (run.history ++ _).countP _ + if (peer.uploads chunk).isSome then 1 else 0
    rw [List.countP_append, List.countP_append, List.countP_cons, List.countP_cons, countP_puts, countP_putOks, hes, hnew,
      h.balance chunk]
    by_cases hchunk : chunk = Preimage.target preimage
    · subst hchunk
      simp [hnone, Occurrence.puts, Occurrence.putOks]
    · have hne : ¬ Preimage.target preimage = chunk := fun heq => hchunk heq.symm
      simp [Function.update_of_ne hchunk, Occurrence.puts, Occurrence.putOks, hne]

theorem Certificates.counts (h : Certificates run) {m : Verifiable (FragmentAvailable P) σ}
    (hbound : Bound run (.recvFragmentAvailable m))
    (hvalid : ¬ (m.inner.peerId = run.peer.crypto.scheme.digest m.inner.peerKey ∧ run.peer.crypto.verify m.inner.peerKey m = false))
    (hcounts : Counts run.peer m peer es) : Certificates (run.after (.recvFragmentAvailable m) peer es) := by
  obtain ⟨hconfig, hothers, state, hstate, hupload⟩ := hcounts
  obtain ⟨htarget, hids⟩ := h.uploads _ state hstate
  have hid : m.inner.peerId = run.peer.crypto.scheme.digest m.inner.peerKey := hbound m rfl (by rw [hstate]; rfl)
  have hm : Valid run.peer.crypto m := ⟨hid, by simpa using not_and.mp hvalid hid⟩
  have hreceived : receipts m.inner.chunk (run.history ++ [.input (.recvFragmentAvailable m)]) =
      receipts m.inner.chunk run.history ++ [m] := by
    have hone := receipts_effects m.inner.chunk run.history (.recvFragmentAvailable m) ([] : List (Effect K P σ codec))
    rw [List.map_nil] at hone
    rw [hone, receiptsNext, if_pos rfl]
  have hall : ∀ id ∈ insert m.inner.peerId state.available,
      ∃ r ∈ receipts m.inner.chunk run.history ++ [m], r.inner.peerId = id ∧ Valid run.peer.crypto r := by
    intro id hmem
    rcases Finset.mem_insert.mp hmem with rfl | hmem
    · exact ⟨m, List.mem_append_right _ (List.mem_singleton_self m), rfl, hm⟩
    · obtain ⟨r, hr, hrest⟩ := hids id hmem
      exact ⟨r, List.mem_append_left _ hr, hrest⟩
  have hother : ∀ chunk, chunk ≠ m.inner.chunk → ∀ state', peer.uploads chunk = some state' →
      Preimage.target state'.preimage = chunk ∧ ∀ id ∈ state'.available,
        ∃ r ∈ receipts chunk (run.after (.recvFragmentAvailable m) peer es).history, r.inner.peerId = id ∧ Valid peer.crypto r := by
    intro chunk hchunk state' hstate'
    rw [hothers chunk hchunk] at hstate'
    obtain ⟨htarget', hids'⟩ := h.uploads chunk state' hstate'
    refine ⟨htarget', fun id hmem => ?_⟩
    obtain ⟨r, hr, hpeer, hrvalid⟩ := hids' id hmem
    exact ⟨r, mem_receipts_after nofun hr, hpeer, by rw [hconfig.crypto]; exact hrvalid⟩
  have hsame : receipts m.inner.chunk (run.after (.recvFragmentAvailable m) peer es).history =
      receipts m.inner.chunk run.history ++ [m] := by
    rw [receipts_after, receiptsNext, if_pos rfl]
  rcases hupload with ⟨hcard, hes, hgone⟩ | ⟨hcard, hes, hnew⟩
  · refine ⟨fun chunk state' hstate' => ?_, fun chunk => ?_, h.past_after hconfig fun preimage hpreimage => ?_⟩
    · by_cases hchunk : chunk = m.inner.chunk
      · subst hchunk
        exact absurd (hgone.symm.trans hstate') nofun
      · exact hother chunk hchunk state' hstate'
    · change (run.history ++ _).countP _ = (run.history ++ _).countP _ + if (peer.uploads chunk).isSome then 1 else 0
      rw [List.countP_append, List.countP_append, List.countP_cons, List.countP_cons, countP_puts, countP_putOks, hes,
        h.balance chunk]
      by_cases hchunk : chunk = m.inner.chunk
      · subst hchunk
        simp [hgone, hstate, Occurrence.puts, Occurrence.putOks, htarget]
      · have hne : ¬ Preimage.target state.preimage = chunk := fun heq => hchunk (heq.symm.trans htarget)
        simp [hothers chunk hchunk, Occurrence.puts, Occurrence.putOks, hne]
    · rw [hes, List.mem_singleton] at hpreimage
      rw [hpreimage, htarget]
      refine ⟨_, hcard, fun id hmem => ?_⟩
      rw [hreceived]
      exact hall id hmem
  · refine ⟨fun chunk state' hstate' => ?_, h.balance_after nofun hes fun chunk => ?_, h.past_after hconfig (by simp [hes])⟩
    · by_cases hchunk : chunk = m.inner.chunk
      · subst hchunk
        change peer.uploads _ = _ at hstate'
        rw [hnew] at hstate'
        cases hstate'
        refine ⟨htarget, fun id hmem => ?_⟩
        rw [hsame]
        change ∃ r ∈ _, _ ∧ Valid peer.crypto r
        rw [hconfig.crypto]
        exact hall id hmem
      · exact hother chunk hchunk state' hstate'
    · by_cases hchunk : chunk = m.inner.chunk
      · subst hchunk
        rw [hnew, hstate]
        rfl
      · rw [hothers chunk hchunk]

end

theorem reach_certificates (h : (machine K P σ codec).Reach Bound run) : Certificates run := by
  refine reach_induct (I := Certificates) (fun _ _ _ _ _ _ => ?_) (fun run input hrun hbound => ?_) h
  · exact ⟨fun _ _ => nofun, fun _ => rfl, fun _ _ => nofun⟩
  · refine (handle_uploads run input).mono (fun peer es hup => ?_) fun _ _ => trivial
    cases hup with
    | leaves hinput hleaves =>
      obtain ⟨hconfig, huploads, hes⟩ := hleaves
      refine hrun.keep hconfig hinput hes (fun chunk state' hstate' => ?_) fun chunk => by rw [huploads]
      rw [huploads] at hstate'
      exact ⟨state', hstate', rfl, rfl⟩
    | @advances _ _ _ chunk hinput hadvances =>
      obtain ⟨hconfig, hes, hothers, state, state', hstate, hstate', hpreimage, havailable⟩ := hadvances
      refine hrun.keep hconfig hinput hes (fun c st hst => ?_) fun c => ?_
      · by_cases hc : c = chunk
        · subst hc
          rw [hstate'] at hst
          cases hst
          exact ⟨state, hstate, hpreimage, havailable⟩
        · rw [hothers c hc] at hst
          exact ⟨st, hst, rfl, rfl⟩
      · by_cases hc : c = chunk
        · subst hc
          rw [hstate, hstate']
          rfl
        · rw [hothers c hc]
    | put hconfig hes hnone hnew => exact hrun.put hconfig hes hnone hnew
    | counts hvalid hcounts => exact hrun.counts hbound hvalid hcounts

/-- A put is reported at most once for each time it is accepted, and only after
valid receipts of `chunkN` peers have come since then, as long as the receipts
name the peers of their keys. -/
theorem put_certificate (h : (machine K P σ codec).Reach Bound run) :
    (∀ chunk, run.history.countP (Occurrence.putOks chunk) ≤ run.history.countP (Occurrence.puts chunk)) ∧
    ∀ n preimage, run.history[n]? = some (.effect (.putOk preimage)) →
      Certified run.peer.crypto run.peer.chunkN (Preimage.target preimage) (run.history.take n) := by
  have hrun := reach_certificates h
  refine ⟨fun chunk => ?_, hrun.past⟩
  rw [hrun.balance chunk]
  exact Nat.le_add_right _ _

instance (run : Run K P σ codec) : (input : Input K P σ) → Decidable (Bound run input)
  | .recvFragmentAvailable m =>
    decidable_of_iff ((run.peer.uploads m.inner.chunk).isSome → m.inner.peerId = run.peer.crypto.scheme.digest m.inner.peerKey) <| by
      simp [Bound]
  | .put .. | .get _ | .recvInvite .. | .recvInviteOk _ | .recvOffer _ | .recvPull _ | .downloadOk .. | .loadOk ..
  | .storeOk _ | .complete .. => .isTrue fun _ h => nomatch h

end

/-- An id for runs that are evaluated; it is the one of the key. -/
def idOf (key : UInt8) : PeerId := .replicate 32 key

def receiptOf (id key signature : UInt8) : Verifiable (FragmentAvailable UInt8) UInt8 :=
  ⟨⟨idOf 9, idOf id, key⟩, signature⟩

def reported (occurrence : Option (Occurrence Digest UInt8 UInt8 .toy)) : Bool :=
  match occurrence with
  | some (.effect (.putOk preimage)) => preimage = idOf 9
  | _ => false

theorem reported_eq {occurrence : Option (Occurrence Digest UInt8 UInt8 .toy)} (h : reported occurrence = true) :
    occurrence = some (.effect (.putOk (idOf 9))) := by
  unfold reported at h
  split at h
  · rw [of_decide_eq_true h]
  · cases h

/-- A put that one receipt is enough for. -/
theorem put_certificate_one : ∃ run, (machine Digest UInt8 UInt8 .toy).Reach Bound run ∧
    run.history[4]? = some (.effect (.putOk (idOf 9))) ∧
    Certified run.peer.crypto run.peer.chunkN (idOf 9) (run.history.take 4) := by
  obtain ⟨run, hreach, hget⟩ := reach_of_exec (Bound : Run Digest UInt8 UInt8 .toy → _) (idOf 1) ⟨.toy, 1⟩ 1 1 1 1
    [.put (idOf 9) [0], .recvFragmentAvailable (receiptOf 7 7 7)] (fun run => reported run.history[4]? = true) (by decide +kernel)
  exact ⟨run, hreach, reported_eq hget, (put_certificate hreach).2 4 (idOf 9) (reported_eq hget)⟩

/-- A put that a receipt with a false id and a false signature is enough for. -/
theorem put_forged : ∃ run, (machine Digest UInt8 UInt8 .toy).Reach Machine.always run ∧
    run.history[4]? = some (.effect (.putOk (idOf 9))) ∧
    ¬ Certified run.peer.crypto run.peer.chunkN (idOf 9) (run.history.take 4) := by
  obtain ⟨run, hreach, hget, hone, hforged⟩ := reach_of_exec (Machine.always : Run Digest UInt8 UInt8 .toy → _) (idOf 1) ⟨.toy, 1⟩ 1 1 1 1
    [.put (idOf 9) [0], .recvFragmentAvailable (receiptOf 5 7 0)]
    (fun run => reported run.history[4]? = true ∧ run.peer.chunkN = 1 ∧
      ∀ m ∈ receipts (idOf 9) (run.history.take 4), m.inner.peerId ≠ run.peer.crypto.scheme.digest m.inner.peerKey)
    (by decide +kernel)
  refine ⟨run, hreach, reported_eq hget, fun ⟨ids, hcard, hids⟩ => ?_⟩
  rw [hone] at hcard
  obtain ⟨id, hid⟩ := Finset.card_pos.mp (by rw [hcard]; exact PNat.pos 1)
  obtain ⟨m, hm, _, hvalid⟩ := hids id hid
  exact hforged m hm hvalid.1

end Neatworks.Entropy
