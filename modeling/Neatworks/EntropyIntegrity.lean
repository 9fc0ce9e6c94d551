import Neatworks.EntropySystem

/-!
# The data of the entropy peers

Whatever goes through the peers of a system under the label of a chunk and an
index is that fragment of the chunk, and a chunk that is recovered is one that
has been put. The labels are followed from the encoders over offers,
downloads, decoders and files to the end.
-/

namespace Neatworks.Entropy

open Outcome
open Kademlia (PeerId Target)

/-- What the chunks stand for. -/
structure Content where
  fragmentLen : UInt32
  chunkK : ℕ+
  data : Chunk → Bytes
  fragment : Bytes → UInt32 → Bytes

namespace Content

variable (content : Content) (known : Chunk → Prop)

def len : Nat := content.fragmentLen.toNat * content.chunkK

/-- A fragment of a chunk that is known. -/
def Fragment (chunk : Chunk) (index : UInt32) (fragment : Bytes) : Prop :=
  known chunk ∧ fragment = content.fragment (content.data chunk) index

def Encodes {codec : Codec} (chunk : Chunk) (encoder : codec.Encoder) : Prop :=
  ∀ index fragment, codec.encode encoder index = some fragment → content.Fragment known chunk index fragment

def Decodes {codec : Codec} (chunk : Chunk) (decoder : codec.Decoder) : Prop :=
  codec.Fed content.fragmentLen content.len (content.fragment (content.data chunk)) decoder

structure Recovers {codec : Codec} (chunk : Chunk) (recover : RecoverState codec.Decoder) : Prop where
  decoder : ∀ decoder, recover.decoder = some decoder → content.Decodes chunk decoder
  pending : ∀ index fragment, (index, fragment) ∈ recover.pending.entries → content.Fragment known chunk index fragment

end Content

def HasIndex {D : Type} (persists : Chunk → Option (PersistState D)) (chunk : Chunk) (index : UInt32) : Prop :=
  ∃ state, persists chunk = some state ∧ state.index = index

section
variable {K P σ : Type} {codec : Codec} {content : Content} {known : Chunk → Prop} {recover : RecoverState codec.Decoder}
  {chunk : Chunk}

/-- Decode jobs of a chunk, with fragments of it. -/
def Submits (content : Content) (known : Chunk → Prop) (chunk : Chunk) (encodeIndex : Option UInt32)
    (es : List (Effect K P σ codec)) : Prop :=
  ∀ e ∈ es, ∃ index fragment decoder, e = .submit (.decode chunk index fragment encodeIndex decoder) ∧
    content.Fragment known chunk index fragment ∧ content.Decodes chunk decoder

theorem RecoverState.submitDecode_sound (h : content.Recovers known chunk recover) {index : UInt32} {fragment : Bytes}
    (hfragment : content.Fragment known chunk index fragment) (encodeIndex : Option UInt32) :
    (recover.submitDecode chunk index fragment encodeIndex : Handler K P σ codec _).Sat
      (fun recover es => content.Recovers known chunk recover ∧ Submits content known chunk encodeIndex es) fun _ => True := by
  unfold RecoverState.submitDecode
  split
  · next decoder hdecoder =>
    refine ⟨⟨fun decoder' heq => ?_, h.pending⟩, fun e he => ?_⟩
    · cases heq
    · cases List.mem_singleton.mp he
      exact ⟨index, fragment, decoder, rfl, hfragment, h.decoder decoder hdecoder⟩
  · next hdecoder =>
    refine ⟨⟨h.decoder, fun index' fragment' hmem => ?_⟩, fun e he => ?_⟩
    · rcases Table.mem_insert.mp hmem with heq | ⟨hold, _⟩
      · cases heq
        exact hfragment
      · exact h.pending index' fragment' hold
    · cases he

theorem RecoverState.onDecode_sound (h : content.Recovers known chunk recover) {decoder : codec.Decoder}
    (hdecoder : content.Decodes chunk decoder) (encodeIndex : Option UInt32) (pick : Nat) :
    (recover.onDecode chunk decoder encodeIndex pick : Handler K P σ codec _).Sat
      (fun recover es => content.Recovers known chunk recover ∧ Submits content known chunk encodeIndex es) fun _ => True := by
  unfold RecoverState.onDecode
  simp only [sat_bind, sat_assert, List.nil_append, implies_true, and_true]
  intro _
  split
  · refine ⟨⟨fun decoder' heq => ?_, h.pending⟩, fun e he => ?_⟩
    · cases heq
      exact hdecoder
    · cases he
  · next index fragment hentry =>
    refine submitDecode_sound ⟨fun decoder' heq => ?_, fun index' fragment' hmem => ?_⟩ ?_ encodeIndex
    · cases heq
      exact hdecoder
    · exact h.pending index' fragment' (Table.mem_remove.mp hmem).1
    · exact h.pending index fragment (List.mem_of_getElem? hentry)

end

section
variable {K P σ : Type} {codec : Codec} [Preimage K]

section
variable (content : Content) (known : Chunk → Prop) (persists : Chunk → Option (PersistState codec.Decoder))

def Job.Sound : Job codec → Prop
  | .newEncoder chunk buf fragmentLen => known chunk ∧ buf = content.data chunk ∧ fragmentLen = content.fragmentLen
  | .encode chunk _ encoder => content.Encodes known chunk encoder
  | .decode chunk index fragment encodeIndex decoder => content.Fragment known chunk index fragment ∧
    content.Decodes chunk decoder ∧ ∀ own, encodeIndex = some own → HasIndex persists chunk own

def CodecEvent.Sound : CodecEvent codec → Prop
  | .newEncoder chunk encoder => content.Encodes known chunk encoder
  | .encode chunk index fragment => content.Fragment known chunk index fragment
  | .decode chunk decoder => content.Decodes chunk decoder
  | .recover chunk buf => known chunk ∧ buf = content.data chunk
  | .recoverEncode chunk fragment => ∃ index, HasIndex persists chunk index ∧ content.Fragment known chunk index fragment

def Event.Sound : Event K P σ codec → Prop
  | .put preimage buf => known (Preimage.target preimage) ∧ buf = content.data (Preimage.target preimage)
  | .downloadOk chunk index fragment | .loadOk chunk index fragment => content.Fragment known chunk index fragment
  | .codec event _ => event.Sound content known persists
  | _ => True

def Effect.Sound : Effect K P σ codec → Prop
  | .submit job => job.Sound content known persists
  | .offer _ sendFragment fragment => content.Fragment known sendFragment.chunk sendFragment.index fragment
  | .store chunk index fragment => content.Fragment known chunk index fragment
  | .getOk preimage buf => known (Preimage.target preimage) ∧ buf = content.data (Preimage.target preimage)
  | _ => True

end

structure Peer.Sound (content : Content) (known : Chunk → Prop) (peer : Peer K P σ codec) : Prop where
  fragmentLen : peer.fragmentLen = content.fragmentLen
  chunkK : peer.chunkK = content.chunkK
  uploads : ∀ chunk state encoder, peer.uploads chunk = some state → state.encoder = some encoder →
    content.Encodes known chunk encoder
  downloads : ∀ chunk state, peer.downloads chunk = some state →
    Preimage.target state.preimage = chunk ∧ content.Recovers known chunk state.recover
  persists : ∀ chunk state recover, peer.persists chunk = some state → state.status = .recovering recover →
    content.Recovers known chunk recover

variable {content : Content} {known : Chunk → Prop} {self : Peer K P σ codec}

namespace Peer.Sound

theorem setUpload (h : self.Sound content known) (chunk : Chunk) {new : Option (UploadState K codec.Encoder)}
    (hnew : ∀ state encoder, new = some state → state.encoder = some encoder → content.Encodes known chunk encoder) :
    (self.setUpload chunk new).Sound content known := by
  refine ⟨h.fragmentLen, h.chunkK, fun c state encoder hstate hencoder => ?_, h.downloads, h.persists⟩
  rw [setUpload_uploads] at hstate
  by_cases hc : c = chunk
  · subst hc
    rw [Function.update_self] at hstate
    exact hnew state encoder hstate hencoder
  · rw [Function.update_of_ne hc] at hstate
    exact h.uploads c state encoder hstate hencoder

theorem setDownload (h : self.Sound content known) (chunk : Chunk) {new : Option (DownloadState K codec.Decoder)}
    (hnew : ∀ state, new = some state → Preimage.target state.preimage = chunk ∧ content.Recovers known chunk state.recover) :
    (self.setDownload chunk new).Sound content known := by
  refine ⟨h.fragmentLen, h.chunkK, h.uploads, fun c state hstate => ?_, h.persists⟩
  rw [setDownload_downloads] at hstate
  by_cases hc : c = chunk
  · subst hc
    rw [Function.update_self] at hstate
    exact hnew state hstate
  · rw [Function.update_of_ne hc] at hstate
    exact h.downloads c state hstate

theorem setPersist (h : self.Sound content known) (chunk : Chunk) {new : PersistState codec.Decoder}
    (hnew : ∀ recover, new.status = .recovering recover → content.Recovers known chunk recover) :
    (self.setPersist chunk (some new)).Sound content known := by
  refine ⟨h.fragmentLen, h.chunkK, h.uploads, h.downloads, fun c state recover hstate hrecover => ?_⟩
  rw [setPersist_persists] at hstate
  by_cases hc : c = chunk
  · subst hc
    rw [Function.update_self] at hstate
    cases hstate
    exact hnew recover hrecover
  · rw [Function.update_of_ne hc] at hstate
    exact h.persists c state recover hstate hrecover

end Peer.Sound

/-! ## The handlers -/

theorem Submits.sound {chunk : Chunk} {encodeIndex : Option UInt32} {es : List (Effect K P σ codec)}
    {persists : Chunk → Option (PersistState codec.Decoder)} (h : Submits content known chunk encodeIndex es)
    (hindex : ∀ own, encodeIndex = some own → HasIndex persists chunk own) : ∀ e ∈ es, e.Sound content known persists := by
  intro e he
  obtain ⟨index, fragment, decoder, rfl, hfragment, hdecoder⟩ := h e he
  exact ⟨hfragment, hdecoder, hindex⟩

theorem RecoverState.new_sound (h : self.Sound content known) (chunk : Chunk) :
    (RecoverState.new self.fragmentLen self.chunkK : Handler K P σ codec _).Sat
      (fun recover es => es = [] ∧ content.Recovers known chunk recover) fun _ => True := by
  unfold RecoverState.new
  split
  · trivial
  · next decoder hdecoder =>
    refine ⟨rfl, fun decoder' heq => ?_, fun index fragment hmem => absurd hmem Table.not_mem_empty⟩
    cases heq
    rw [h.fragmentLen, h.chunkK] at hdecoder
    exact .new hdecoder

def Grounded (content : Content) (known : Chunk → Prop) (peer : Peer K P σ codec) (es : List (Effect K P σ codec)) : Prop :=
  peer.Sound content known ∧ ∀ e ∈ es, e.Sound content known peer.persists

section
variable (h : self.Sound content known)

include h

theorem onPut_sound {preimage : K} {buf : Bytes} (hknown : known (Preimage.target preimage))
    (hbuf : buf = content.data (Preimage.target preimage)) :
    (self.onPut preimage buf).Sat (Grounded content known) fun _ => True := by
  unfold Peer.onPut
  simp only [sat_bind, sat_assert, sat_emit, sat_pure, List.nil_append, List.append_nil, implies_true, and_true]
  intro _ _
  refine ⟨h.setUpload _ fun state encoder hstate hencoder => ?_, fun e he => ?_⟩
  · cases hstate
    cases hencoder
  · cases List.mem_singleton.mp he
    exact ⟨hknown, hbuf, h.fragmentLen⟩

theorem onNewEncoder_sound {chunk : Chunk} {encoder : codec.Encoder} (hencoder : content.Encodes known chunk encoder) :
    (self.onNewEncoder chunk encoder).Sat (Grounded content known) fun _ => True := by
  unfold Peer.onNewEncoder
  split
  · exact ⟨h, by simp⟩
  · simp only [sat_bind, sat_assert, sat_emit, sat_pure, List.nil_append, List.append_nil, implies_true, and_true]
    intro _
    refine ⟨h.setUpload _ fun state encoder' hstate heq => ?_, by simp [Effect.Sound]⟩
    cases hstate
    cases heq
    exact hencoder

theorem onRecvInvite_sound (invite : Invite) (index : UInt32) :
    (self.onRecvInvite invite index).Sat (Grounded content known) fun _ => True := by
  unfold Peer.onRecvInvite
  split
  · exact ⟨h, by simp⟩
  · rw [sat_bind]
    refine (RecoverState.new_sound h invite.chunk).mono (fun recover es hrecover => ?_) fun _ _ => trivial
    obtain ⟨rfl, hrecover⟩ := hrecover
    refine ⟨h.setPersist _ fun recover' hstatus => ?_, by simp [Effect.Sound]⟩
    cases hstate : self.persists invite.chunk with
    | none =>
      rw [hstate] at hstatus
      cases hstatus
      exact hrecover
    | some state =>
      rw [hstate] at hstatus
      exact h.persists _ state recover' hstate hstatus

theorem onRecvInviteOk_sound (inviteOk : InviteOk) :
    (self.onRecvInviteOk inviteOk).Sat (Grounded content known) fun _ => True := by
  unfold Peer.onRecvInviteOk
  split
  · exact ⟨h, by simp⟩
  · next state hstate =>
    split
    · exact ⟨h, by simp⟩
    · split
      · trivial
      · next encoder hencoder =>
        refine ⟨h.setUpload _ fun state' encoder' hstate' hencoder' => ?_, fun e he => ?_⟩
        · cases hstate'
          exact h.uploads _ state encoder' hstate hencoder'
        · cases List.mem_singleton.mp he
          exact h.uploads _ state encoder hstate hencoder

theorem onEncode_sound {chunk : Chunk} {index : UInt32} {fragment : Bytes}
    (hfragment : content.Fragment known chunk index fragment) :
    (self.onEncode chunk index fragment).Sat (Grounded content known) fun _ => True := by
  unfold Peer.onEncode
  split
  · exact ⟨h, by simp⟩
  · split
    · exact ⟨h, by simp⟩
    · refine ⟨h, fun e he => ?_⟩
      cases List.mem_singleton.mp he
      exact hfragment

theorem onRecvOffer_sound [DigestHash P] (sendFragment : SendFragment) :
    (self.onRecvOffer sendFragment).Sat (Grounded content known) fun _ => True := by
  unfold Peer.onRecvOffer
  split
  · exact ⟨h, by simp [Effect.Sound]⟩
  · split
    · exact ⟨h, by simp⟩
    · next state hstate =>
      split
      · next recover hstatus =>
        split
        · simp only [sat_bind, sat_assert, sat_emit, sat_pure, List.nil_append, implies_true, and_true]
          intro _ _
          refine ⟨h.setPersist _ fun recover' hstatus' => ?_, by simp [Effect.Sound]⟩
          exact h.persists _ state recover' hstate hstatus'
        · exact ⟨h, by simp [Effect.Sound]⟩
      all_goals
        split
        · exact ⟨h, by simp⟩
        · simp only [sat_bind, sat_assert, sat_emit, sat_pure, List.nil_append, implies_true, and_true]
          intro _
          exact ⟨h, by simp [Effect.Sound]⟩

/-- The decoder of a download takes a fragment. -/
theorem advanceDownload {chunk : Chunk} {state : DownloadState K codec.Decoder} (hstate : self.downloads chunk = some state)
    {recover : RecoverState codec.Decoder} {es : List (Effect K P σ codec)} (hrecovers : content.Recovers known chunk recover)
    (hsubmits : Submits content known chunk none es) :
    Grounded content known (self.setDownload chunk (some { state with recover := recover })) es := by
  refine ⟨h.setDownload _ fun state' hstate' => ?_, hsubmits.sound fun own heq => by cases heq⟩
  cases hstate'
  exact ⟨(h.downloads _ state hstate).1, hrecovers⟩

theorem onDownloadOk_sound {chunk : Chunk} {index : UInt32} {fragment : Bytes}
    (hfragment : content.Fragment known chunk index fragment) :
    (self.onDownloadOk chunk index fragment).Sat (Grounded content known) fun _ => True := by
  unfold Peer.onDownloadOk
  split
  · next state hstate =>
    have hrecovers := (h.downloads _ state hstate).2
    rw [sat_bind]
    refine (RecoverState.submitDecode_sound hrecovers hfragment none).mono (fun recover es hsubmit => ?_) fun _ _ => trivial
    rw [sat_pure, List.append_nil]
    exact advanceDownload h hstate hsubmit.1 hsubmit.2
  · split
    · exact ⟨h, by simp⟩
    · next state hstate =>
      split
      · next recover hstatus =>
        have hrecovers := h.persists _ state recover hstate hstatus
        split
        · next hindex =>
          refine ⟨h.setPersist _ fun recover' heq => ?_, fun e he => ?_⟩
          · cases heq
          · cases List.mem_singleton.mp he
            rw [← hindex]
            exact hfragment
        · split
          · exact ⟨h, by simp⟩
          · rw [sat_bind]
            have hmore : content.Recovers known chunk { recover with received := insert index recover.received } :=
              ⟨hrecovers.decoder, hrecovers.pending⟩
            refine (RecoverState.submitDecode_sound hmore hfragment (some state.index)).mono (fun recover' es hsubmit => ?_)
              fun _ _ => trivial
            rw [sat_pure, List.append_nil]
            refine ⟨h.setPersist _ fun recover'' heq => ?_, hsubmit.2.sound fun own heq => ?_⟩
            · cases heq
              exact hsubmit.1
            · cases heq
              exact ⟨_, Function.update_self .., rfl⟩
      · exact ⟨h, by simp⟩
      · exact ⟨h, by simp⟩

theorem onStoreOk_sound [DigestHash P] (chunk : Chunk) : (self.onStoreOk chunk).Sat (Grounded content known) fun _ => True := by
  unfold Peer.onStoreOk
  split
  · exact ⟨h, by simp⟩
  · split
    · exact ⟨h.setPersist _ fun recover heq => (by cases heq), by simp⟩
    · exact ⟨h.setPersist _ fun recover heq => (by cases heq), by simp [Effect.Sound]⟩

theorem onRecvFragmentAvailable_sound [DigestHash P] (m : Verifiable (FragmentAvailable P) σ) :
    (self.onRecvFragmentAvailable m).Sat (Grounded content known) fun _ => True := by
  unfold Peer.onRecvFragmentAvailable
  dsimp only
  split
  · exact ⟨h, by simp⟩
  · next state hstate =>
    split
    · exact ⟨h, by simp⟩
    · split
      · exact ⟨h.setUpload _ fun state' encoder heq => (by cases heq), by simp [Effect.Sound]⟩
      · refine ⟨h.setUpload _ fun state' encoder heq hencoder => ?_, by simp⟩
        cases heq
        exact h.uploads _ state encoder hstate hencoder

theorem onGet_sound (preimage : K) : (self.onGet preimage).Sat (Grounded content known) fun _ => True := by
  unfold Peer.onGet
  rw [sat_bind]
  refine (RecoverState.new_sound h (Preimage.target preimage)).mono (fun recover es hrecover => ?_) fun _ _ => trivial
  obtain ⟨rfl, hrecover⟩ := hrecover
  simp only [sat_bind, sat_assert, sat_emit, sat_pure, List.nil_append, implies_true, and_true]
  intro _
  refine ⟨h.setDownload _ fun state hstate => ?_, by simp [Effect.Sound]⟩
  cases hstate
  exact ⟨rfl, hrecover⟩

theorem onRecvPull_sound (pull : Pull) : (self.onRecvPull pull).Sat (Grounded content known) fun _ => True := by
  unfold Peer.onRecvPull
  repeat' split
  all_goals first
    | exact ⟨h, by simp⟩
    | exact ⟨⟨h.fragmentLen, h.chunkK, h.uploads, h.downloads, h.persists⟩, by simp [Effect.Sound]⟩

theorem onLoadOk_sound {chunk : Chunk} {index : UInt32} {fragment : Bytes}
    (hfragment : content.Fragment known chunk index fragment) :
    (self.onLoadOk chunk index fragment).Sat (Grounded content known) fun _ => True := by
  unfold Peer.onLoadOk
  split
  · exact ⟨h, by simp⟩
  · rw [sat_bind]
    refine (offerEach_effects ..).mono (fun _ es hes => ?_) fun _ _ => trivial
    rw [sat_pure, List.append_nil, hes]
    refine ⟨⟨h.fragmentLen, h.chunkK, h.uploads, h.downloads, h.persists⟩, fun e he => ?_⟩
    obtain ⟨peerId, _, rfl⟩ := List.mem_map.mp he
    exact hfragment

theorem onDecode_sound {chunk : Chunk} {decoder : codec.Decoder} (hdecoder : content.Decodes chunk decoder) (pick : Nat) :
    (self.onDecode chunk decoder pick).Sat (Grounded content known) fun _ => True := by
  unfold Peer.onDecode
  split
  · next state hstate =>
    have hrecovers := (h.downloads _ state hstate).2
    rw [sat_bind]
    refine (RecoverState.onDecode_sound hrecovers hdecoder none pick).mono (fun recover es hsubmit => ?_) fun _ _ => trivial
    rw [sat_pure, List.append_nil]
    exact advanceDownload h hstate hsubmit.1 hsubmit.2
  · split
    · exact ⟨h, by simp⟩
    · next state hstate =>
      split
      · next recover hstatus =>
        rw [sat_bind]
        refine (RecoverState.onDecode_sound (h.persists _ state recover hstate hstatus) hdecoder (some state.index) pick).mono
          (fun recover' es hsubmit => ?_) fun _ _ => trivial
        rw [sat_pure, List.append_nil]
        refine ⟨h.setPersist _ fun recover'' heq => ?_, hsubmit.2.sound fun own heq => ?_⟩
        · cases heq
          exact hsubmit.1
        · cases heq
          exact ⟨_, Function.update_self .., rfl⟩
      · trivial
      · trivial

theorem onRecover_sound {chunk : Chunk} {buf : Bytes} (hknown : known chunk) (hbuf : buf = content.data chunk) :
    (self.onRecover chunk buf).Sat (Grounded content known) fun _ => True := by
  unfold Peer.onRecover
  split
  · exact ⟨h, by simp⟩
  · next state hstate =>
    refine ⟨h.setDownload _ fun state' heq => (by cases heq), fun e he => ?_⟩
    rcases List.mem_pair.mp he with rfl | rfl
    · trivial
    · obtain ⟨rfl, _⟩ := h.downloads _ state hstate
      exact ⟨hknown, hbuf⟩

theorem onRecoverEncode_sound {chunk : Chunk} {fragment : Bytes} {index : UInt32} (hindex : HasIndex self.persists chunk index)
    (hfragment : content.Fragment known chunk index fragment) :
    (self.onRecoverEncode chunk fragment).Sat (Grounded content known) fun _ => True := by
  obtain ⟨state, hstate, rfl⟩ := hindex
  unfold Peer.onRecoverEncode
  rw [hstate]
  dsimp only
  split
  · refine ⟨h.setPersist _ fun recover heq => (by cases heq), fun e he => ?_⟩
    rcases List.mem_pair.mp he with rfl | rfl
    · trivial
    · exact hfragment
  · trivial
  · trivial

theorem onEvent_sound [DigestHash P] {event : Event K P σ codec} (hevent : event.Sound content known self.persists) :
    (self.onEvent event).Sat (Grounded content known) fun _ => True := by
  cases event with
  | put => exact onPut_sound h hevent.1 hevent.2
  | get preimage => exact onGet_sound h preimage
  | recvInvite invite index => exact onRecvInvite_sound h invite index
  | recvInviteOk inviteOk => exact onRecvInviteOk_sound h inviteOk
  | recvOffer sendFragment => exact onRecvOffer_sound h sendFragment
  | recvFragmentAvailable m => exact onRecvFragmentAvailable_sound h m
  | recvPull pull => exact onRecvPull_sound h pull
  | downloadOk => exact onDownloadOk_sound h hevent
  | storeOk chunk => exact onStoreOk_sound h chunk
  | loadOk => exact onLoadOk_sound h hevent
  | codec event pick =>
    cases event with
    | newEncoder => exact onNewEncoder_sound h hevent
    | encode => exact onEncode_sound h hevent
    | decode => exact onDecode_sound h hevent pick
    | recover => exact onRecover_sound h hevent.1 hevent.2
    | recoverEncode =>
      obtain ⟨index, hindex, hfragment⟩ := hevent
      exact onRecoverEncode_sound h hindex hfragment

end

/-! ## The worker -/

/-- What the worker makes of a job is under the label of the job. -/
theorem Job.Sound.run {persists : Chunk → Option (PersistState codec.Decoder)} {job : Job codec} {event : CodecEvent codec}
    (hcodec : codec.Faithful content.fragmentLen content.len content.fragment)
    (hknown : ∀ chunk, known chunk → (content.data chunk).length = content.len) (h : job.Sound content known persists)
    (hrun : job.run = some event) : event.Sound content known persists := by
  cases job with
  | newEncoder chunk buf fragmentLen =>
    obtain ⟨hchunk, rfl, rfl⟩ := h
    obtain ⟨encoder, hencoder, rfl⟩ := Option.map_eq_some_iff.mp hrun
    intro index fragment hencode
    exact ⟨hchunk, hcodec.encode _ encoder index fragment (hknown chunk hchunk) hencoder hencode⟩
  | encode chunk index encoder =>
    obtain ⟨fragment, hencode, rfl⟩ := Option.map_eq_some_iff.mp hrun
    exact h index fragment hencode
  | decode chunk index fragment encodeIndex decoder =>
    obtain ⟨⟨hchunk, rfl⟩, hdecoder, hindex⟩ := h
    have hlen := hknown chunk hchunk
    simp only [Job.run] at hrun
    split at hrun
    · cases hrun
    · next decoder' _ hdecode =>
      cases hrun
      exact .decode hdecoder hdecode
    · next decoder' own hdecode =>
      obtain ⟨fragment', hbind, rfl⟩ := Option.map_eq_some_iff.mp hrun
      obtain ⟨encoder, hencoder, hencode⟩ := Option.bind_eq_some_iff.mp hbind
      exact ⟨own, hindex own rfl, hchunk,
        hcodec.intoEncoder _ decoder decoder' encoder index own fragment' hlen hdecoder hdecode hencoder hencode⟩
    · next decoder' hdecode =>
      obtain ⟨buf, hbuf, rfl⟩ := Option.map_eq_some_iff.mp hrun
      exact ⟨hchunk, hcodec.recover _ decoder decoder' index buf hlen hdecoder hdecode hbuf⟩

/-! ## The node -/

def Task.Sound (content : Content) (known : Chunk → Prop) : Task → Prop
  | .createDir chunk index fragment | .write chunk index fragment | .removeDirAll chunk index fragment
  | .loaded chunk index fragment => content.Fragment known chunk index fragment
  | .stored _ | .read .. => True

def Disk.Sound (content : Content) (known : Chunk → Prop) (disk : Disk) : Prop :=
  ∀ chunk dir index fragment, disk chunk = some dir → dir index = some fragment → content.Fragment known chunk index fragment

theorem Disk.Sound.update {disk : Disk} (h : disk.Sound content known) (chunk : Chunk) {new : Option Directory}
    (hnew : ∀ dir index fragment, new = some dir → dir index = some fragment → content.Fragment known chunk index fragment) :
    Disk.Sound content known (Function.update disk chunk new) := by
  intro c dir index fragment hdir hfile
  by_cases hc : c = chunk
  · subst hc
    rw [Function.update_self] at hdir
    exact hnew dir index fragment hdir hfile
  · rw [Function.update_of_ne hc] at hdir
    exact h c dir index fragment hdir hfile

/-- A call of a task takes what is written and what is read over. -/
theorem Task.Sound.run {task task' : Task} {disk disk' : Disk} (h : task.Sound content known) (hdisk : disk.Sound content known)
    (hrun : task.run disk = .ok (task', disk')) : task'.Sound content known ∧ disk'.Sound content known := by
  cases task with
  | createDir chunk index fragment =>
    simp only [Task.run] at hrun
    split at hrun
    · cases hrun
    · cases hrun
      refine ⟨h, hdisk.update chunk fun dir index' fragment' heq hfile => ?_⟩
      cases heq
      cases hfile
  | write chunk index fragment =>
    simp only [Task.run] at hrun
    split at hrun
    · cases hrun
    · next dir hdir =>
      cases hrun
      refine ⟨trivial, hdisk.update chunk fun dir' index' fragment' heq hfile => ?_⟩
      cases heq
      by_cases hindex : index' = index
      · subst hindex
        rw [Function.update_self] at hfile
        cases hfile
        exact h
      · rw [Function.update_of_ne hindex] at hfile
        exact hdisk chunk dir index' fragment' hdir hfile
  | stored chunk =>
    cases hrun
    exact ⟨trivial, hdisk⟩
  | read chunk index take =>
    simp only [Task.run] at hrun
    split at hrun
    · cases hrun
    · next fragment hfragment =>
      cases hrun
      obtain ⟨dir, hdir, hfile⟩ := Option.bind_eq_some_iff.mp hfragment
      have hsound := hdisk chunk dir index fragment hdir hfile
      refine ⟨?_, hdisk⟩
      split
      · exact hsound
      · exact hsound
  | removeDirAll chunk index fragment =>
    simp only [Task.run] at hrun
    split at hrun
    · cases hrun
    · cases hrun
      exact ⟨h, hdisk.update chunk fun dir index' fragment' heq => by cases heq⟩
  | loaded chunk index fragment =>
    cases hrun
    exact ⟨h, hdisk⟩

structure Node.Sound (content : Content) (known : Chunk → Prop) (node : Node K P σ codec) : Prop where
  peer : node.peer.Sound content known
  jobs : ∀ job ∈ node.jobs, job.Sound content known node.peer.persists
  calls : ∀ e, .call e ∈ node.history → e.Sound content known node.peer.persists
  loads : ∀ chunk index fragment, .event (.loadOk chunk index fragment) ∈ node.history →
    content.Fragment known chunk index fragment
  todo : ∀ task ∈ node.fs.todo, task.Sound content known
  disk : node.fs.disk.Sound content known

/-! More chunks may be known, and entries stay. -/

section
variable {known' : Chunk → Prop} (hgrow : ∀ chunk, known chunk → known' chunk)

include hgrow

theorem Content.Fragment.grow {chunk : Chunk} {index : UInt32} {fragment : Bytes}
    (h : content.Fragment known chunk index fragment) : content.Fragment known' chunk index fragment :=
  ⟨hgrow chunk h.1, h.2⟩

theorem Content.Recovers.grow {chunk : Chunk} {recover : RecoverState codec.Decoder} (h : content.Recovers known chunk recover) :
    content.Recovers known' chunk recover :=
  ⟨h.decoder, fun index fragment hmem => (h.pending index fragment hmem).grow hgrow⟩

variable {persists persists' : Chunk → Option (PersistState codec.Decoder)}
  (hstays : ∀ chunk index, HasIndex persists chunk index → HasIndex persists' chunk index)

include hstays

theorem Job.Sound.grow {job : Job codec} (h : job.Sound content known persists) : job.Sound content known' persists' := by
  cases job with
  | newEncoder chunk buf fragmentLen => exact ⟨hgrow chunk h.1, h.2⟩
  | encode chunk index encoder => exact fun index fragment hencode => (h index fragment hencode).grow hgrow
  | decode chunk index fragment encodeIndex decoder =>
    exact ⟨h.1.grow hgrow, h.2.1, fun own heq => hstays chunk own (h.2.2 own heq)⟩

theorem Effect.Sound.grow {e : Effect K P σ codec} (h : e.Sound content known persists) : e.Sound content known' persists' := by
  cases e with
  | submit job => exact Job.Sound.grow hgrow hstays h
  | offer => exact Content.Fragment.grow hgrow h
  | store => exact Content.Fragment.grow hgrow h
  | getOk preimage buf => exact ⟨hgrow _ h.1, h.2⟩
  | _ => trivial

end

theorem Peer.Sound.grow {known' : Chunk → Prop} (h : self.Sound content known) (hgrow : ∀ chunk, known chunk → known' chunk) :
    self.Sound content known' where
  fragmentLen := h.fragmentLen
  chunkK := h.chunkK
  uploads chunk state encoder hstate hencoder index fragment hencode :=
    (h.uploads chunk state encoder hstate hencoder index fragment hencode).grow hgrow
  downloads chunk state hstate := ⟨(h.downloads chunk state hstate).1, (h.downloads chunk state hstate).2.grow hgrow⟩
  persists chunk state recover hstate hstatus := (h.persists chunk state recover hstate hstatus).grow hgrow

theorem Task.Sound.grow {known' : Chunk → Prop} {task : Task} (h : task.Sound content known)
    (hgrow : ∀ chunk, known chunk → known' chunk) : task.Sound content known' := by
  cases task with
  | stored => trivial
  | read => trivial
  | _ => exact Content.Fragment.grow hgrow h

namespace Node.Sound

variable {node : Node K P σ codec}

theorem grow {known' : Chunk → Prop} (h : node.Sound content known) (hgrow : ∀ chunk, known chunk → known' chunk) :
    node.Sound content known' where
  peer := h.peer.grow hgrow
  jobs job hjob := (h.jobs job hjob).grow hgrow fun _ _ => id
  calls e he := (h.calls e he).grow hgrow fun _ _ => id
  loads chunk index fragment hmem := (h.loads chunk index fragment hmem).grow hgrow
  todo task htask := (h.todo task htask).grow hgrow
  disk chunk dir index fragment hdir hfile := (h.disk chunk dir index fragment hdir hfile).grow hgrow

variable [DigestHash P]

theorem after {event : Event K P σ codec} {peer : Peer K P σ codec} {es : List (Effect K P σ codec)}
    (h : node.Sound content known) (hevent : event.Sound content known node.peer.persists)
    (hok : node.peer.onEvent event = .ok peer es) : (node.after event peer es).Sound content known := by
  have hkeeps := onEvent_sound h.peer hevent
  have hchange := change_of_ok hok
  rw [hok] at hkeeps
  obtain ⟨hpeer, hes⟩ := hkeeps
  have hstays (chunk : Chunk) (index : UInt32) (hindex : HasIndex node.peer.persists chunk index) :
      HasIndex peer.persists chunk index := by
    obtain ⟨state, hstate, rfl⟩ := hindex
    obtain ⟨new, hnew, heq, _⟩ := hchange.stays hstate
    exact ⟨new, hnew, heq⟩
  constructor
  case peer => exact hpeer
  case jobs =>
    intro job hjob
    rcases List.mem_append.mp hjob with hold | hnew
    · exact (h.jobs job hold).grow (fun _ => id) hstays
    · obtain ⟨e, he, hsome⟩ := List.mem_filterMap.mp hnew
      cases e with
      | submit job' =>
        cases hsome
        exact hes _ he
      | _ => cases hsome
  case calls =>
    intro e he
    rcases List.mem_append.mp he with hold | hnew
    · exact (h.calls e hold).grow (fun _ => id) hstays
    · exact hes e (by simpa using hnew)
  case loads =>
    intro chunk index fragment hmem
    rcases List.mem_append.mp hmem with hold | hnew
    · exact h.loads chunk index fragment hold
    · have heq : event = .loadOk chunk index fragment := by simpa [eq_comm] using hnew
      subst heq
      exact hevent
  case todo =>
    intro task htask
    rcases List.mem_append.mp ((node.fs.todo_after (requests es)).mem_iff.mpr htask) with hold | hnew
    · exact h.todo task hold
    · obtain ⟨request, hrequest, rfl⟩ := List.mem_map.mp hnew
      obtain ⟨e, he, hsome⟩ := List.mem_filterMap.mp hrequest
      cases e with
      | store =>
        cases hsome
        exact hes _ he
      | load =>
        cases hsome
        trivial
      | _ => cases hsome
  case disk => exact h.disk

theorem step {node' : Node K P σ codec} {move : Move K P σ codec}
    (hcodec : codec.Faithful content.fragmentLen content.len content.fragment)
    (hknown : ∀ chunk, known chunk → (content.data chunk).length = content.len) (h : node.Sound content known)
    (hevent : ∀ event, move = .event event → event.External → event.Sound content known node.peer.persists)
    (hstep : node.Steps move node') : node'.Sound content known := by
  cases hstep with
  | event hext hok => exact h.after (hevent _ rfl hext) hok
  | @complete n pick job event peer es hjob hrun hok =>
    have hnode : Node.Sound content known { node with jobs := node.jobs.eraseIdx n } :=
      ⟨h.peer, fun job' hmem => h.jobs job' (List.mem_of_mem_eraseIdx hmem), h.calls, h.loads, h.todo, h.disk⟩
    have hsound : (Event.codec event pick : Event K P σ codec).Sound content known node.peer.persists :=
      (h.jobs job (List.mem_of_getElem? hjob)).run hcodec hknown hrun
    exact hnode.after hsound hok
  | dropped hjob hrun =>
    exact ⟨h.peer, fun job' hmem => h.jobs job' (List.mem_of_mem_eraseIdx hmem), h.calls, h.loads, h.todo, h.disk⟩
  | recv hevents =>
    refine ⟨h.peer, h.jobs, h.calls, h.loads, fun task htask => h.todo task ?_, h.disk⟩
    simp only [Fs.todo, List.mem_append, hevents, List.map_cons, List.mem_cons] at htask ⊢
    tauto
  | @run n task task' disk htask hrun =>
    obtain ⟨l₁, l₂, htodo, hset, _⟩ := Fs.todo_tasks htask
    have htasks := h.todo
    rw [htodo] at htasks
    obtain ⟨hnext, hdisk⟩ := (htasks task (by simp)).run h.disk hrun
    refine ⟨h.peer, h.jobs, h.calls, h.loads, fun t ht => ?_, hdisk⟩
    have hmem : t ∈ l₁ ++ task' :: l₂ := by
      rw [← hset]
      exact ht
    rcases List.mem_append.mp hmem with hmem | hmem
    · exact htasks t (List.mem_append_left _ hmem)
    · rcases List.mem_cons.mp hmem with rfl | hmem
      · exact hnext
      · exact htasks t (List.mem_append_right _ (List.mem_cons_of_mem _ hmem))
  | fail => exact ⟨h.peer, h.jobs, h.calls, h.loads, h.todo, h.disk⟩
  | @join n task event peer es htask hdone hok =>
    obtain ⟨l₁, l₂, htodo, _, herase⟩ := Fs.todo_tasks htask
    have htasks := h.todo
    rw [htodo] at htasks
    have hnode : Node.Sound content known { node with fs := { node.fs with tasks := node.fs.tasks.eraseIdx n } } := by
      refine ⟨h.peer, h.jobs, h.calls, h.loads, fun t ht => htasks t ?_, h.disk⟩
      rw [herase] at ht
      rcases List.mem_append.mp ht with ht | ht
      · exact List.mem_append_left _ ht
      · exact List.mem_append_right _ (List.mem_cons_of_mem _ ht)
    have hsound := htasks task (by simp)
    cases task with
    | stored chunk =>
      cases hdone
      have hstored : (Event.storeOk chunk : Event K P σ codec).Sound content known node.peer.persists := trivial
      exact hnode.after hstored hok
    | loaded chunk index fragment =>
      cases hdone
      have hloaded : (Event.loadOk chunk index fragment : Event K P σ codec).Sound content known node.peer.persists := hsound
      exact hnode.after hloaded hok
    | _ => cases hdone

end Node.Sound

/-! ## The system -/

/-- The chunk has been put at a node of the system. -/
def System.Put (content : Content) (sys : System K P σ codec) (chunk : Chunk) : Prop :=
  (content.data chunk).length = content.len ∧
    ∃ node ∈ sys, ∃ preimage, Preimage.target preimage = chunk ∧ .event (.put preimage (content.data chunk)) ∈ node.history

/-- A chunk is put with its data. -/
def OneBuffer (data : Chunk → Bytes) (_ : System K P σ codec) : Nat × Move K P σ codec → Prop
  | (_, .event (.put preimage buf)) => buf = data (Preimage.target preimage)
  | _ => True

section
theorem onPut_length (self : Peer K P σ codec) (preimage : K) (buf : Bytes) :
    (self.onPut preimage buf).Sat (fun _ _ => buf.length = self.fragmentLen.toNat * self.chunkK) fun _ => True := by
  unfold Peer.onPut
  simp only [sat_bind, sat_assert, sat_emit, sat_pure, implies_true, and_true]
  exact fun hlen _ => hlen

variable [DigestHash P]

theorem Node.Steps.history {node node' : Node K P σ codec} {move : Move K P σ codec} (h : node.Steps move node') :
    ∃ new, node'.history = node.history ++ new := by
  cases h with
  | event => exact ⟨_, rfl⟩
  | complete => exact ⟨_, rfl⟩
  | join => exact ⟨_, rfl⟩
  | dropped => exact ⟨[], (List.append_nil _).symm⟩
  | recv => exact ⟨[], (List.append_nil _).symm⟩
  | run => exact ⟨[], (List.append_nil _).symm⟩
  | fail => exact ⟨[], (List.append_nil _).symm⟩

variable {sys : System K P σ codec}

theorem System.Put.set {node node' : Node K P σ codec} {move : Move K P σ codec} {n : Nat} (hnode : sys[n]? = some node)
    (hstep : node.Steps move node') {chunk : Chunk} (h : sys.Put content chunk) : System.Put content (sys.set n node') chunk := by
  obtain ⟨hlen, putter, hputter, preimage, htarget, hmem⟩ := h
  rcases eq_or_mem_set hnode hputter with rfl | hputter
  · obtain ⟨new, hnew⟩ := hstep.history
    refine ⟨hlen, node', List.mem_set (List.getElem?_eq_some_iff.mp hnode).1 node', preimage, htarget, ?_⟩
    rw [hnew]
    exact List.mem_append_left _ hmem
  · exact ⟨hlen, putter, hputter, preimage, htarget, hmem⟩

variable [DecidableEq P] [DecidableEq σ]

theorem sound_step {sys' : System K P σ codec} {l : Nat × Move K P σ codec}
    (hcodec : codec.Faithful content.fragmentLen content.len content.fragment)
    (h : ∀ node ∈ sys, node.Sound content (sys.Put content)) (hbuffer : OneBuffer content.data sys l)
    (hstep : sys.step l = some sys') : ∀ node ∈ sys', node.Sound content (sys'.Put content) := by
  obtain ⟨n, move⟩ := l
  obtain ⟨node, node', hnode, hcomes, hsteps, rfl⟩ := System.step_eq_some hstep
  have hgrow (chunk : Chunk) (hput : sys.Put content chunk) : System.Put content (sys.set n node') chunk :=
    hput.set hnode hsteps
  have hsound := (h node (List.mem_of_getElem? hnode)).grow hgrow
  have hevent (event : Event K P σ codec) (heq : move = .event event) (hext : event.External) :
      event.Sound content (System.Put content (sys.set n node')) node.peer.persists := by
    subst heq
    cases event with
    | put preimage buf =>
      have hbuf : buf = content.data (Preimage.target preimage) := hbuffer
      refine ⟨⟨?_, node', List.mem_set (List.getElem?_eq_some_iff.mp hnode).1 node', preimage, rfl, ?_⟩, hbuf⟩
      · cases hsteps with
        | event _ hok =>
          have hlen := onPut_length node.peer preimage buf
          have hput : node.peer.onPut preimage buf = _ := hok
          rw [hput, hsound.peer.fragmentLen, hsound.peer.chunkK] at hlen
          rw [← hbuf]
          exact hlen
      · cases hsteps with
        | event _ hok =>
          rw [← hbuf]
          exact List.mem_append_right _ List.mem_cons_self
    | downloadOk chunk index fragment =>
      obtain ⟨sender, hsender, dest, sendFragment, hmem, rfl, rfl⟩ := offered_of_comes hcomes
      have hoffered : content.Fragment (sys.Put content) sendFragment.chunk sendFragment.index fragment :=
        (h sender hsender).calls _ hmem
      exact hoffered.grow hgrow
    | loadOk => exact hext.elim
    | codec => exact hext.elim
    | _ => trivial
  intro node₁ hmem
  rcases List.mem_or_eq_of_mem_set hmem with hold | rfl
  · exact (h node₁ hold).grow hgrow
  · exact hsound.step hcodec (fun chunk hput => hput.1) hevent hsteps

theorem sound_reach (hcodec : codec.Faithful content.fragmentLen content.len content.fragment)
    (h : (systemMachine K P σ codec content.fragmentLen content.chunkK).Reach (OneBuffer content.data) sys) :
    ∀ node ∈ sys, node.Sound content (sys.Put content) := by
  refine h.invariant (I := fun sys => ∀ node ∈ sys, node.Sound content (sys.Put content)) ?_
    fun sys l sys' _ hsys hbuffer hstep => sound_step hcodec hsys hbuffer hstep
  intro sys hinit node hnode
  obtain ⟨id, crypto, chunkN, chunkM, rfl⟩ := hinit node hnode
  constructor
  case peer =>
    refine ⟨rfl, rfl, ?_, ?_, ?_⟩
    · intro chunk state encoder hstate
      cases hstate
    · intro chunk state hstate
      cases hstate
    · intro chunk state recover hstate
      cases hstate
  case jobs =>
    intro job hjob
    cases hjob
  case calls =>
    intro e he
    cases he
  case loads =>
    intro chunk index fragment hmem
    cases hmem
  case todo =>
    intro task htask
    cases htask
  case disk =>
    intro chunk dir index fragment hdir
    cases hdir

/-- What is stored and loaded under the label of a chunk and an index is that
fragment of the data of the chunk, and what a get returns is the data that was
put. -/
theorem data_integrity {fragmentLen : UInt32} {chunkK : ℕ+} {data : Chunk → Bytes} {fragment : Bytes → UInt32 → Bytes}
    (hcodec : codec.Faithful fragmentLen (fragmentLen.toNat * chunkK) fragment)
    (h : (systemMachine K P σ codec fragmentLen chunkK).Reach (OneBuffer data) sys) :
    ∀ node ∈ sys,
      (∀ chunk index f, .call (.store chunk index f) ∈ node.history → f = fragment (data chunk) index) ∧
      (∀ chunk index f, .event (.loadOk chunk index f) ∈ node.history → f = fragment (data chunk) index) ∧
      ∀ preimage buf, .call (.getOk preimage buf) ∈ node.history → buf = data (Preimage.target preimage) ∧
        ∃ putter ∈ sys, ∃ put, Preimage.target put = Preimage.target preimage ∧ .event (.put put buf) ∈ putter.history := by
  let content : Content := ⟨fragmentLen, chunkK, data, fragment⟩
  have hfaithful : codec.Faithful content.fragmentLen content.len content.fragment := hcodec
  have hreach : (systemMachine K P σ codec content.fragmentLen content.chunkK).Reach (OneBuffer content.data) sys := h
  have hsound := sound_reach hfaithful hreach
  intro node hnode
  refine ⟨fun chunk index f hmem => ?_, fun chunk index f hmem => ?_, fun preimage buf hmem => ?_⟩
  · exact ((hsound node hnode).calls _ hmem).2
  · exact ((hsound node hnode).loads chunk index f hmem).2
  · obtain ⟨⟨_, putter, hputter, put, htarget, hput⟩, hbuf⟩ := (hsound node hnode).calls _ hmem
    refine ⟨hbuf, putter, hputter, put, htarget, ?_⟩
    rw [hbuf]
    exact hput

variable (data : Chunk → Bytes)

instance (sys : System K P σ codec) : (l : Nat × Move K P σ codec) → Decidable (OneBuffer data sys l)
  | (_, .event (.put preimage buf)) => inferInstanceAs (Decidable (buf = data (Preimage.target preimage)))
  | (_, .event (.get _)) | (_, .event (.recvInvite ..)) | (_, .event (.recvInviteOk _)) | (_, .event (.recvOffer _))
  | (_, .event (.recvFragmentAvailable _)) | (_, .event (.recvPull _)) | (_, .event (.downloadOk ..))
  | (_, .event (.storeOk _)) | (_, .event (.loadOk ..)) | (_, .event (.codec ..)) | (_, .complete ..) | (_, .recv)
  | (_, .run _) | (_, .join _) => instDecidableTrue

end

end

/-! ## Two blocks -/

/-- A codec that runs can be evaluated with, for data of two blocks: it knows
the fragments that are the blocks. -/
def Codec.blocks : Codec where
  Encoder := Bytes × Bytes
  Decoder := Option Bytes × Option Bytes
  newEncoder buf fragmentLen :=
    if buf.length = 2 * fragmentLen.toNat then some (buf.take fragmentLen.toNat, buf.drop fragmentLen.toNat) else none
  newDecoder _ _ := some (none, none)
  encode encoder index := if index = 0 then some encoder.1 else if index = 1 then some encoder.2 else none
  decode decoder index fragment :=
    if index = 0 then some ((some fragment, decoder.2), decoder.2.isSome)
    else if index = 1 then some ((decoder.1, some fragment), decoder.1.isSome)
    else none
  recover decoder := do return (← decoder.1) ++ (← decoder.2)
  intoEncoder decoder := do return (← decoder.1, ← decoder.2)

def Codec.block (fragmentLen : UInt32) (data : Bytes) (index : UInt32) : Bytes :=
  if index = 0 then data.take fragmentLen.toNat else data.drop fragmentLen.toNat

/-- The blocks that a decoder has. -/
def Codec.HasBlocks (fragment : UInt32 → Bytes) (decoder : Option Bytes × Option Bytes) : Prop :=
  (∀ f, decoder.1 = some f → f = fragment 0) ∧ ∀ f, decoder.2 = some f → f = fragment 1

theorem Codec.blocks_decode {fragment : UInt32 → Bytes} {decoder decoder' : Codec.blocks.Decoder} {index : UInt32} {done : Bool}
    (h : Codec.HasBlocks fragment decoder) (hdecode : Codec.blocks.decode decoder index (fragment index) = some (decoder', done)) :
    Codec.HasBlocks fragment decoder' ∧ (done = true → decoder' = (some (fragment 0), some (fragment 1))) := by
  obtain ⟨first, second⟩ := decoder
  obtain ⟨hfirst, hsecond⟩ := h
  simp only [Codec.blocks] at hdecode
  split at hdecode
  · next hindex =>
    subst hindex
    cases hdecode
    refine ⟨⟨fun f hf => (Option.some.inj hf).symm, hsecond⟩, fun hdone => ?_⟩
    obtain ⟨f, rfl⟩ := Option.isSome_iff_exists.mp hdone
    rw [hsecond f rfl]
  · split at hdecode
    · next hindex =>
      subst hindex
      cases hdecode
      refine ⟨⟨hfirst, fun f hf => (Option.some.inj hf).symm⟩, fun hdone => ?_⟩
      obtain ⟨f, rfl⟩ := Option.isSome_iff_exists.mp hdone
      rw [hfirst f rfl]
    · cases hdecode

theorem Codec.blocks_fed {fragmentLen : UInt32} {len : Nat} {fragment : UInt32 → Bytes} {decoder : Codec.blocks.Decoder}
    (h : Codec.blocks.Fed fragmentLen len fragment decoder) : Codec.HasBlocks fragment decoder := by
  induction h with
  | new h =>
    cases h
    exact ⟨fun f hf => (by cases hf), fun f hf => (by cases hf)⟩
  | decode _ h ih => exact (Codec.blocks_decode ih h).1

theorem Codec.blocks_faithful (fragmentLen : UInt32) :
    Codec.blocks.Faithful fragmentLen (fragmentLen.toNat * (2 : ℕ+)) (Codec.block fragmentLen) := by
  have hencode (encoder : Bytes × Bytes) (index : UInt32) (f : Bytes) (h : Codec.blocks.encode encoder index = some f) :
      f = if index = 0 then encoder.1 else encoder.2 := by
    simp only [Codec.blocks] at h
    split at h
    · next hindex =>
      rw [if_pos hindex]
      exact (Option.some.inj h).symm
    · next hindex =>
      split at h
      · rw [if_neg hindex]
        exact (Option.some.inj h).symm
      · cases h
  constructor
  case encode =>
    intro data encoder index f _ hnew hf
    simp only [Codec.blocks] at hnew
    split at hnew
    · cases hnew
      exact hencode _ index f hf
    · cases hnew
  case recover =>
    intro data decoder decoder' index buf _ hfed hdecode hbuf
    have hdone := (Codec.blocks_decode (Codec.blocks_fed hfed) hdecode).2 rfl
    subst hdone
    cases hbuf
    exact List.take_append_drop ..
  case intoEncoder =>
    intro data decoder decoder' encoder index index' f _ hfed hdecode hencoder hf
    have hdone := (Codec.blocks_decode (Codec.blocks_fed hfed) hdecode).2 rfl
    subst hdone
    cases hencoder
    exact hencode _ index' f hf

/-- What gets have returned. -/
def gotten {K P σ : Type} {codec : Codec} (history : List (Entry K P σ codec)) : List (K × Bytes) :=
  history.filterMap fun
    | .call (.getOk preimage buf) => some (preimage, buf)
    | _ => none

theorem mem_gotten {K P σ : Type} {codec : Codec} {history : List (Entry K P σ codec)} {preimage : K} {buf : Bytes}
    (h : (preimage, buf) ∈ gotten history) : .call (.getOk preimage buf) ∈ history := by
  obtain ⟨entry, hmem, hentry⟩ := List.mem_filterMap.mp h
  split at hentry
  · cases hentry
    exact hmem
  · cases hentry

/-- A chunk goes to two peers, and comes back. -/
theorem data_integrity_two : ∃ sys : System Digest UInt8 UInt8 .blocks,
    (∃ node ∈ sys, (.replicate 32 9, [7, 8]) ∈ gotten node.history) ∧
    ∃ putter ∈ sys, ∃ put, .event (.put put [7, 8]) ∈ putter.history := by
  let peerId (n : UInt8) : PeerId := .replicate 32 n
  let start : System Digest UInt8 UInt8 .blocks := [1, 2, 3].map fun n => { peer := Peer.new (peerId n) ⟨.toy, n⟩ 1 2 1 1 }
  let upload (n : Nat) (index byte : UInt8) : List (Nat × Move Digest UInt8 UInt8 .blocks) :=
    [(n, .event (.recvInvite ⟨.replicate 32 9, peerId 1⟩ index.toUInt32)),
      (0, .event (.recvInviteOk ⟨.replicate 32 9, index.toUInt32, peerId (index + 2)⟩)), (0, .complete 0 0),
      (n, .event (.recvOffer ⟨.replicate 32 9, index.toUInt32, some (peerId 1)⟩)),
      (n, .event (.downloadOk (.replicate 32 9) index.toUInt32 [byte])), (n, .recv), (n, .run 0), (n, .run 0), (n, .join 0)]
  let download (n : Nat) (index byte : UInt8) : List (Nat × Move Digest UInt8 UInt8 .blocks) :=
    [(n, .event (.recvPull ⟨.replicate 32 9, peerId 1⟩)), (n, .recv), (n, .run 0), (n, .run 0), (n, .join 0),
      (0, .event (.recvOffer ⟨.replicate 32 9, index.toUInt32, none⟩)),
      (0, .event (.downloadOk (.replicate 32 9) index.toUInt32 [byte])), (0, .complete 0 0)]
  have hstart : (systemMachine Digest UInt8 UInt8 .blocks 1 2).init start := by
    intro node hnode
    obtain ⟨n, _, rfl⟩ := List.mem_map.mp hnode
    exact ⟨_, _, _, _, rfl⟩
  obtain ⟨sys, hreach, hgotten⟩ := Machine.exists_reach (C := OneBuffer fun _ => [7, 8])
    (fun sys l sys' (hstep : System.step sys l = some sys') => hstep) hstart
    ([(0, .event (.put (.replicate 32 9) [7, 8])), (0, .complete 0 0)] ++ upload 1 0 7 ++ upload 2 1 8 ++
      [(0, .event (.get (.replicate 32 9)))] ++ download 1 0 7 ++ download 2 1 8)
    (fun sys => sys.any (fun node => decide ((.replicate 32 9, [7, 8]) ∈ gotten node.history)) = true) (by decide +kernel)
  obtain ⟨node, hnode, hmem⟩ := List.any_eq_true.mp hgotten
  have hget := of_decide_eq_true hmem
  obtain ⟨_, putter, hputter, put, _, hput⟩ :=
    (data_integrity (Codec.blocks_faithful 1) hreach node hnode).2.2 _ _ (mem_gotten hget)
  exact ⟨sys, ⟨node, hnode, hget⟩, putter, hputter, put, hput⟩

end Neatworks.Entropy
