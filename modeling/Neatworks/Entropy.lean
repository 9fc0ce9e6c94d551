import Mathlib.Data.Finset.Card
import Mathlib.Logic.Function.Basic
import Neatworks.Kademlia
import Neatworks.PeerCrypto
import Neatworks.Table

/-!
# The entropy peer

`Peer` of the `entropy` crate. The calls on the net, the blob service, the
upcall, the codec worker and the file system are effects, and they succeed. The
`wirehair` codec is outside the repository and given by a `Codec`. Of the
hash maps only `pending` of a `RecoverState` is iterated over; it is a table, and
the place of the key that the iterator gives is an input. Of a cancellation
token only its cancelling is kept.
-/

namespace Neatworks.Entropy

open Kademlia (PeerId Target)

abbrev Chunk := Target

abbrev Bytes := List UInt8

/-! ## Messages -/

structure Invite where
  chunk : Chunk
  peerId : PeerId
  deriving DecidableEq

structure InviteOk where
  chunk : Chunk
  index : UInt32
  peerId : PeerId
  deriving DecidableEq

/-- `peerId` is there if a receipt is expected. -/
structure SendFragment where
  chunk : Chunk
  index : UInt32
  peerId : Option PeerId
  deriving DecidableEq

structure FragmentAvailable (P : Type) where
  chunk : Chunk
  peerId : PeerId
  peerKey : P
  deriving DecidableEq

structure Pull where
  chunk : Chunk
  peerId : PeerId
  deriving DecidableEq

instance {P : Type} [DigestHash P] : DigestHash (FragmentAvailable P) where
  hash m := DigestHash.hash m.chunk ++ (DigestHash.hash m.peerId ++ DigestHash.hash m.peerKey)

class Preimage (K : Type) where
  target : K → Target

instance : Preimage Digest where
  target := id

/-! ## States -/

/-- `Encoder` and `Decoder` of `wirehair`; every call may fail. -/
structure Codec where
  Encoder : Type
  Decoder : Type
  newEncoder : Bytes → UInt32 → Option Encoder
  newDecoder : Nat → UInt32 → Option Decoder
  encode : Encoder → UInt32 → Option Bytes
  /-- The decoder after it has taken a fragment, and whether it can recover. -/
  decode : Decoder → UInt32 → Bytes → Option (Decoder × Bool)
  recover : Decoder → Option Bytes
  intoEncoder : Decoder → Option Encoder

structure UploadState (K E : Type) where
  preimage : K
  encoder : Option E := none
  pending : UInt32 → Option PeerId := fun _ => none
  available : Finset PeerId := ∅

structure RecoverState (D : Type) where
  decoder : Option D
  pending : Table UInt32 Bytes := .empty
  received : Finset UInt32 := ∅

structure DownloadState (K D : Type) where
  preimage : K
  recover : RecoverState D

inductive PersistStatus (D : Type)
  | recovering (recover : RecoverState D)
  | storing
  | available

def PersistStatus.IsRecovering {D : Type} : PersistStatus D → Prop
  | .recovering _ => True
  | .storing | .available => False

structure PersistState (D : Type) where
  index : UInt32
  status : PersistStatus D
  notify : Option PeerId

structure Peer (K P σ : Type) (codec : Codec) where
  id : PeerId
  fragmentLen : UInt32
  chunkK : ℕ+
  chunkN : ℕ+
  chunkM : ℕ+
  crypto : PeerCrypto P σ
  uploads : Chunk → Option (UploadState K codec.Encoder) := fun _ => none
  downloads : Chunk → Option (DownloadState K codec.Decoder) := fun _ => none
  persists : Chunk → Option (PersistState codec.Decoder) := fun _ => none
  pendingPulls : Chunk → Option (List PeerId) := fun _ => none

/-! ## Calls -/

/-- The work submitted to the codec worker. -/
inductive Job (codec : Codec)
  | newEncoder (chunk : Chunk) (buf : Bytes) (fragmentLen : UInt32)
  | encode (chunk : Chunk) (index : UInt32) (encoder : codec.Encoder)
  | decode (chunk : Chunk) (index : UInt32) (fragment : Bytes) (encodeIndex : Option UInt32) (decoder : codec.Decoder)

/-- What the codec worker sends back. -/
inductive CodecEvent (codec : Codec)
  | newEncoder (chunk : Chunk) (encoder : codec.Encoder)
  | encode (chunk : Chunk) (index : UInt32) (fragment : Bytes)
  | decode (chunk : Chunk) (decoder : codec.Decoder)
  | recover (chunk : Chunk) (buf : Bytes)
  | recoverEncode (chunk : Chunk) (fragment : Bytes)

inductive Effect (K P σ : Type) (codec : Codec)
  | submit (job : Job codec)
  | multicastInvite (target : Target) (count : ℕ+) (invite : Invite)
  | sendInviteOk (dest : PeerId) (inviteOk : InviteOk)
  | sendFragmentAvailable (dest : PeerId) (fragmentAvailable : Verifiable (FragmentAvailable P) σ)
  | multicastPull (target : Target) (count : ℕ+) (pull : Pull)
  | offer (dest : PeerId) (sendFragment : SendFragment) (fragment : Bytes)
  | accept (sendFragment : SendFragment) (len : Nat)
  | cancel (chunk : Chunk)
  | putOk (preimage : K)
  | getOk (preimage : K) (buf : Bytes)
  | store (chunk : Chunk) (index : UInt32) (fragment : Bytes)
  | load (chunk : Chunk) (index : UInt32) (take : Bool)

inductive Fail
  | bail (message : String)
  | duplicatedUpload (chunk : Chunk)
  | duplicatedDownload (chunk : Chunk)
  /-- `Decoder::new` has failed. -/
  | codec
  | panic (panic : Panic)
  | unreachable
  deriving DecidableEq

abbrev Handler (K P σ : Type) (codec : Codec) (α : Type) := Outcome (Effect K P σ codec) Fail α

section
variable {K P σ : Type} {codec : Codec}

/-- The job in the worker; the worker sends nothing if the codec fails. -/
def Job.run : Job codec → Option (CodecEvent codec)
  | .newEncoder chunk buf fragmentLen => (codec.newEncoder buf fragmentLen).map (.newEncoder chunk)
  | .encode chunk index encoder => (codec.encode encoder index).map (.encode chunk index)
  | .decode chunk index fragment encodeIndex decoder =>
    match codec.decode decoder index fragment, encodeIndex with
    | none, _ => none
    | some (decoder, false), _ => some (.decode chunk decoder)
    | some (decoder, true), some index =>
      ((codec.intoEncoder decoder).bind fun encoder => codec.encode encoder index).map (.recoverEncode chunk)
    | some (decoder, true), none => (codec.recover decoder).map (.recover chunk)

namespace RecoverState

def new (fragmentLen : UInt32) (chunkK : ℕ+) : Handler K P σ codec (RecoverState codec.Decoder) :=
  match codec.newDecoder (fragmentLen.toNat * chunkK) fragmentLen with
  | none => Outcome.throw .codec
  | some decoder => return { decoder := some decoder }

def submitDecode (self : RecoverState codec.Decoder) (chunk : Chunk) (index : UInt32) (fragment : Bytes)
    (encodeIndex : Option UInt32) : Handler K P σ codec (RecoverState codec.Decoder) :=
  match self.decoder with
  | some decoder => do
    Outcome.emit (.submit (.decode chunk index fragment encodeIndex decoder))
    return { self with decoder := none }
  | none => return { self with pending := self.pending.insert index fragment }

/-- `pick` is the place of the first key that the iterator gives. -/
def onDecode (self : RecoverState codec.Decoder) (chunk : Chunk) (decoder : codec.Decoder) (encodeIndex : Option UInt32)
    (pick : Nat) : Handler K P σ codec (RecoverState codec.Decoder) := do
  Outcome.assert (self.decoder.isNone) (.panic .assert)
  let self := { self with decoder := some decoder }
  match self.pending.entries[pick % self.pending.len]? with
  | none => return self
  | some (index, fragment) =>
    submitDecode { self with pending := self.pending.remove index } chunk index fragment encodeIndex

end RecoverState

namespace Peer

def new (id : PeerId) (crypto : PeerCrypto P σ) (fragmentLen : UInt32) (chunkK chunkN chunkM : ℕ+) : Peer K P σ codec where
  id := id
  fragmentLen := fragmentLen
  chunkK := chunkK
  chunkN := chunkN
  chunkM := chunkM
  crypto := crypto

/-! Inserting into and removing from the maps. -/

def setUpload (self : Peer K P σ codec) (chunk : Chunk) (state : Option (UploadState K codec.Encoder)) : Peer K P σ codec :=
  { self with uploads := Function.update self.uploads chunk state }

def setDownload (self : Peer K P σ codec) (chunk : Chunk) (state : Option (DownloadState K codec.Decoder)) :
    Peer K P σ codec :=
  { self with downloads := Function.update self.downloads chunk state }

def setPersist (self : Peer K P σ codec) (chunk : Chunk) (state : Option (PersistState codec.Decoder)) : Peer K P σ codec :=
  { self with persists := Function.update self.persists chunk state }

section
variable (self : Peer K P σ codec) (chunk : Chunk)

@[simp] theorem setUpload_uploads (state : Option (UploadState K codec.Encoder)) :
    (self.setUpload chunk state).uploads = Function.update self.uploads chunk state := rfl

@[simp] theorem setUpload_downloads (state : Option (UploadState K codec.Encoder)) :
    (self.setUpload chunk state).downloads = self.downloads := rfl

@[simp] theorem setUpload_persists (state : Option (UploadState K codec.Encoder)) :
    (self.setUpload chunk state).persists = self.persists := rfl

@[simp] theorem setDownload_uploads (state : Option (DownloadState K codec.Decoder)) :
    (self.setDownload chunk state).uploads = self.uploads := rfl

@[simp] theorem setDownload_downloads (state : Option (DownloadState K codec.Decoder)) :
    (self.setDownload chunk state).downloads = Function.update self.downloads chunk state := rfl

@[simp] theorem setDownload_persists (state : Option (DownloadState K codec.Decoder)) :
    (self.setDownload chunk state).persists = self.persists := rfl

@[simp] theorem setPersist_uploads (state : Option (PersistState codec.Decoder)) :
    (self.setPersist chunk state).uploads = self.uploads := rfl

@[simp] theorem setPersist_downloads (state : Option (PersistState codec.Decoder)) :
    (self.setPersist chunk state).downloads = self.downloads := rfl

@[simp] theorem setPersist_persists (state : Option (PersistState codec.Decoder)) :
    (self.setPersist chunk state).persists = Function.update self.persists chunk state := rfl

end

/-! ## Put -/

def onPut [Preimage K] (self : Peer K P σ codec) (preimage : K) (buf : Bytes) : Handler K P σ codec (Peer K P σ codec) := do
  Outcome.assert (buf.length = self.fragmentLen.toNat * self.chunkK) (.bail "expect chunk len")
  let chunk := Preimage.target preimage
  Outcome.assert (self.uploads chunk).isNone (.duplicatedUpload chunk)
  Outcome.emit (.submit (.newEncoder chunk buf self.fragmentLen))
  return self.setUpload chunk (some { preimage := preimage })

def onNewEncoder (self : Peer K P σ codec) (chunk : Chunk) (encoder : codec.Encoder) :
    Handler K P σ codec (Peer K P σ codec) :=
  match self.uploads chunk with
  | none => return self
  | some state => do
    Outcome.assert state.encoder.isNone (.panic .assert)
    Outcome.emit (.multicastInvite chunk self.chunkM ⟨chunk, self.id⟩)
    return self.setUpload chunk (some { state with encoder := some encoder })

/-- `index` is the random one. -/
def onRecvInvite (self : Peer K P σ codec) (invite : Invite) (index : UInt32) : Handler K P σ codec (Peer K P σ codec) :=
  if invite.peerId = self.id then return self
  else do
    let recover ← RecoverState.new self.fragmentLen self.chunkK
    let state := (self.persists invite.chunk).getD ⟨index, .recovering recover, none⟩
    Outcome.emit (.sendInviteOk invite.peerId ⟨invite.chunk, index, self.id⟩)
    return self.setPersist invite.chunk (some state)

def onRecvInviteOk (self : Peer K P σ codec) (inviteOk : InviteOk) : Handler K P σ codec (Peer K P σ codec) :=
  match self.uploads inviteOk.chunk with
  | none => return self
  | some state =>
    if (state.pending inviteOk.index).isSome then return self
    else
      match state.encoder with
      | none => Outcome.throw (.panic .unwrap)
      | some encoder => do
        Outcome.emit (.submit (.encode inviteOk.chunk inviteOk.index encoder))
        return self.setUpload inviteOk.chunk
          (some { state with pending := Function.update state.pending inviteOk.index (some inviteOk.peerId) })

def onEncode (self : Peer K P σ codec) (chunk : Chunk) (index : UInt32) (fragment : Bytes) :
    Handler K P σ codec (Peer K P σ codec) :=
  match self.uploads chunk with
  | none => return self
  | some state =>
    match state.pending index with
    | none => return self
    | some peerId => do
      Outcome.emit (.offer peerId ⟨chunk, index, some self.id⟩ fragment)
      return self

section
variable [DigestHash P]

def receipt (self : Peer K P σ codec) (chunk : Chunk) : Verifiable (FragmentAvailable P) σ :=
  self.crypto.sign ⟨chunk, self.id, self.crypto.publicKey⟩

def onRecvOffer (self : Peer K P σ codec) (sendFragment : SendFragment) : Handler K P σ codec (Peer K P σ codec) :=
  match self.downloads sendFragment.chunk with
  | some _ => do
    Outcome.emit (.accept sendFragment self.fragmentLen.toNat)
    return self
  | none =>
    match self.persists sendFragment.chunk with
    | none => return self
    | some state =>
      match state.status with
      | .recovering _ =>
        if sendFragment.index = state.index then do
          Outcome.assert state.notify.isNone (.panic .assert)
          Outcome.assert sendFragment.peerId.isSome (.bail "expected peer id in SendFragment")
          Outcome.emit (.accept sendFragment self.fragmentLen.toNat)
          return self.setPersist sendFragment.chunk (some { state with notify := sendFragment.peerId })
        else do
          Outcome.emit (.accept sendFragment self.fragmentLen.toNat)
          return self
      | .storing | .available =>
        match sendFragment.peerId with
        | none => return self
        | some peerId => do
          Outcome.assert (sendFragment.index = state.index) (.panic .assert)
          Outcome.emit (.sendFragmentAvailable peerId (self.receipt sendFragment.chunk))
          return self

def onDownloadOk (self : Peer K P σ codec) (chunk : Chunk) (index : UInt32) (fragment : Bytes) :
    Handler K P σ codec (Peer K P σ codec) :=
  match self.downloads chunk with
  | some state => do
    let recover ← state.recover.submitDecode chunk index fragment none
    return self.setDownload chunk (some { state with recover := recover })
  | none =>
    match self.persists chunk with
    | none => return self
    | some state =>
      match state.status with
      | .recovering recover =>
        if index = state.index then do
          Outcome.emit (.store chunk state.index fragment)
          return self.setPersist chunk (some { state with status := .storing })
        else if index ∈ recover.received then return self
        else do
          let recover := { recover with received := insert index recover.received }
          let recover ← recover.submitDecode chunk index fragment (some state.index)
          return self.setPersist chunk (some { state with status := .recovering recover })
      | .storing | .available => return self

def onStoreOk (self : Peer K P σ codec) (chunk : Chunk) : Handler K P σ codec (Peer K P σ codec) :=
  match self.persists chunk with
  | none => return self
  | some state =>
    match state.notify with
    | none => return self.setPersist chunk (some { state with status := .available })
    | some peerId => do
      Outcome.emit (.sendFragmentAvailable peerId (self.receipt chunk))
      return self.setPersist chunk (some { state with status := .available, notify := none })

def onRecvFragmentAvailable (self : Peer K P σ codec) (fragmentAvailable : Verifiable (FragmentAvailable P) σ) :
    Handler K P σ codec (Peer K P σ codec) :=
  let m := fragmentAvailable.inner
  match self.uploads m.chunk with
  | none => return self
  | some state =>
    if m.peerId = self.crypto.scheme.digest m.peerKey ∧ self.crypto.verify m.peerKey fragmentAvailable = false then
      return self
    else
      let available := insert m.peerId state.available
      if available.card = self.chunkN then do
        Outcome.emit (.cancel m.chunk)
        Outcome.emit (.putOk state.preimage)
        return self.setUpload m.chunk none
      else return self.setUpload m.chunk (some { state with available := available })

end

/-! ## Get -/

def onGet [Preimage K] (self : Peer K P σ codec) (preimage : K) : Handler K P σ codec (Peer K P σ codec) := do
  let chunk := Preimage.target preimage
  let recover ← RecoverState.new self.fragmentLen self.chunkK
  Outcome.assert (self.downloads chunk).isNone (.duplicatedDownload chunk)
  Outcome.emit (.multicastPull chunk self.chunkM ⟨chunk, self.id⟩)
  return self.setDownload chunk (some ⟨preimage, recover⟩)

def onRecvPull (self : Peer K P σ codec) (pull : Pull) : Handler K P σ codec (Peer K P σ codec) :=
  match self.persists pull.chunk with
  | none => return self
  | some state =>
    match state.status with
    | .available => do
      Outcome.emit (.load pull.chunk state.index true)
      let pending := (self.pendingPulls pull.chunk).getD [] ++ [pull.peerId]
      return { self with pendingPulls := Function.update self.pendingPulls pull.chunk (some pending) }
    | .recovering _ | .storing => return self

/-- The loop over the peers that have pulled. -/
def offerEach (sendFragment : SendFragment) (fragment : Bytes) : List PeerId → Handler K P σ codec Unit
  | [] => return ()
  | peerId :: pending => do
    Outcome.emit (.offer peerId sendFragment fragment)
    offerEach sendFragment fragment pending

def onLoadOk (self : Peer K P σ codec) (chunk : Chunk) (index : UInt32) (fragment : Bytes) :
    Handler K P σ codec (Peer K P σ codec) :=
  match self.pendingPulls chunk with
  | none => return self
  | some pending => do
    offerEach ⟨chunk, index, none⟩ fragment pending
    return { self with pendingPulls := Function.update self.pendingPulls chunk none }

def onDecode (self : Peer K P σ codec) (chunk : Chunk) (decoder : codec.Decoder) (pick : Nat) :
    Handler K P σ codec (Peer K P σ codec) :=
  match self.downloads chunk with
  | some state => do
    let recover ← state.recover.onDecode chunk decoder none pick
    return self.setDownload chunk (some { state with recover := recover })
  | none =>
    match self.persists chunk with
    | none => return self
    | some state =>
      match state.status with
      | .recovering recover => do
        let recover ← recover.onDecode chunk decoder (some state.index) pick
        return self.setPersist chunk (some { state with status := .recovering recover })
      | .storing | .available => Outcome.throw .unreachable

def onRecover (self : Peer K P σ codec) (chunk : Chunk) (buf : Bytes) : Handler K P σ codec (Peer K P σ codec) :=
  match self.downloads chunk with
  | none => return self
  | some state => do
    Outcome.emit (.cancel chunk)
    Outcome.emit (.getOk state.preimage buf)
    return self.setDownload chunk none

def onRecoverEncode (self : Peer K P σ codec) (chunk : Chunk) (fragment : Bytes) :
    Handler K P σ codec (Peer K P σ codec) :=
  match self.persists chunk with
  | none => return self
  | some state =>
    match state.status with
    | .recovering _ => do
      Outcome.emit (.cancel chunk)
      Outcome.emit (.store chunk state.index fragment)
      return self.setPersist chunk (some { state with status := .storing })
    | .storing | .available => Outcome.throw .unreachable

def onCodec (self : Peer K P σ codec) (pick : Nat) : CodecEvent codec → Handler K P σ codec (Peer K P σ codec)
  | .newEncoder chunk encoder => self.onNewEncoder chunk encoder
  | .encode chunk index fragment => self.onEncode chunk index fragment
  | .decode chunk decoder => self.onDecode chunk decoder pick
  | .recover chunk buf => self.onRecover chunk buf
  | .recoverEncode chunk fragment => self.onRecoverEncode chunk fragment

end Peer

end

end Neatworks.Entropy
