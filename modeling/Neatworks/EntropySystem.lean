import Neatworks.EntropyNode

/-!
# A system of entropy peers

Peers that share the length of a fragment and the number of fragments that
recover a chunk. What has been sent is in the histories of the senders, from
where it comes to its destination never, once or many times, in any order; a
multicast comes to any peer. A blob comes to a peer that has accepted the
offer of it.
-/

namespace Neatworks.Entropy

open Kademlia (PeerId)

section
variable {K P σ : Type} {codec : Codec}

def Entry.accepts (sendFragment : SendFragment) : Entry K P σ codec → Bool
  | .call (.accept accepted _) => accepted = sendFragment
  | _ => false

def Node.accepted (node : Node K P σ codec) (sendFragment : SendFragment) : Bool :=
  node.history.any (Entry.accepts sendFragment)

abbrev System (K P σ : Type) (codec : Codec) := List (Node K P σ codec)

section
variable [DecidableEq P] [DecidableEq σ]

/-- A call brings an event to a node. -/
def Effect.brings (node : Node K P σ codec) : Event K P σ codec → Effect K P σ codec → Bool
  | .recvInvite invite _, .multicastInvite _ _ sent => sent = invite
  | .recvInviteOk inviteOk, .sendInviteOk dest sent => dest = node.peer.id ∧ sent = inviteOk
  | .recvFragmentAvailable m, .sendFragmentAvailable dest sent => dest = node.peer.id ∧ sent = m
  | .recvPull pull, .multicastPull _ _ sent => sent = pull
  | .recvOffer sendFragment, .offer dest sent _ => dest = node.peer.id ∧ sent = sendFragment
  | .downloadOk chunk index fragment, .offer dest sent sentFragment =>
    dest = node.peer.id ∧ node.accepted sent ∧ sent.chunk = chunk ∧ sent.index = index ∧ sentFragment = fragment
  | _, _ => false

def Entry.brings (node : Node K P σ codec) (event : Event K P σ codec) : Entry K P σ codec → Bool
  | .call effect => effect.brings node event
  | .event _ => false

def System.brings (sys : System K P σ codec) (node : Node K P σ codec) (event : Event K P σ codec) : Bool :=
  sys.any fun sender => sender.history.any (Entry.brings node event)

/-- A user asks for it, or it has been sent. -/
def Move.comes (sys : System K P σ codec) (node : Node K P σ codec) : Move K P σ codec → Bool
  | .event (.put ..) | .event (.get _) | .complete .. | .recv | .run _ | .join _ => true
  | .event e => sys.brings node e

def System.step [Preimage K] [DigestHash P] (sys : System K P σ codec) (l : Nat × Move K P σ codec) :
    Option (System K P σ codec) :=
  match sys[l.1]? with
  | none => none
  | some node => if l.2.comes sys node then (node.step l.2).map (sys.set l.1) else none

def systemMachine (K P σ : Type) (codec : Codec) [Preimage K] [DigestHash P] [DecidableEq P] [DecidableEq σ]
    (fragmentLen : UInt32) (chunkK : ℕ+) : Machine (System K P σ codec) (Nat × Move K P σ codec) where
  init sys := ∀ node ∈ sys, ∃ id crypto chunkN chunkM, node = { peer := Peer.new id crypto fragmentLen chunkK chunkN chunkM }
  next sys l sys' := sys.step l = some sys'

theorem System.step_eq_some [Preimage K] [DigestHash P] {sys sys' : System K P σ codec} {l : Nat × Move K P σ codec}
    (h : sys.step l = some sys') : ∃ node node', sys[l.1]? = some node ∧ l.2.comes sys node = true ∧ node.Steps l.2 node' ∧
      sys' = sys.set l.1 node' := by
  simp only [step] at h
  split at h
  · cases h
  · next node hnode =>
    split at h
    · next hcomes =>
      obtain ⟨node', hstep, rfl⟩ := Option.map_eq_some_iff.mp h
      exact ⟨node, node', hnode, hcomes, Node.step_steps hstep, rfl⟩
    · cases h

theorem offered_of_comes {sys : System K P σ codec} {node : Node K P σ codec} {chunk : Chunk} {index : UInt32} {fragment : Bytes}
    (h : (Move.event (.downloadOk chunk index fragment)).comes sys node = true) : ∃ sender ∈ sys, ∃ dest sendFragment,
      .call (.offer dest sendFragment fragment) ∈ sender.history ∧ sendFragment.chunk = chunk ∧ sendFragment.index = index := by
  obtain ⟨sender, hsender, hany⟩ := List.any_eq_true.mp h
  obtain ⟨entry, hentry, hbrings⟩ := List.any_eq_true.mp hany
  cases entry with
  | event event => cases hbrings
  | call effect =>
    cases effect with
    | offer dest sendFragment sent =>
      obtain ⟨_, _, hchunk, hindex, rfl⟩ := of_decide_eq_true hbrings
      exact ⟨sender, hsender, dest, sendFragment, hentry, hchunk, hindex⟩
    | _ => cases hbrings

end

end

/-! ## The codec -/

/-- A decoder that has been fed with fragments of one chunk only, and is not
done yet. -/
inductive Codec.Fed (codec : Codec) (fragmentLen : UInt32) (len : Nat) (fragment : UInt32 → Bytes) : codec.Decoder → Prop
  | new {decoder : codec.Decoder} (h : codec.newDecoder len fragmentLen = some decoder) : Fed codec fragmentLen len fragment decoder
  | decode {decoder decoder' : codec.Decoder} {index : UInt32} (hfed : Fed codec fragmentLen len fragment decoder)
    (h : codec.decode decoder index (fragment index) = some (decoder', false)) : Fed codec fragmentLen len fragment decoder'

/-- An encoder gives the fragments of its data, and a decoder that has been fed
with fragments of some data recovers the data and gives its fragments. -/
structure Codec.Faithful (codec : Codec) (fragmentLen : UInt32) (len : Nat) (fragment : Bytes → UInt32 → Bytes) : Prop where
  encode : ∀ data encoder index f, data.length = len → codec.newEncoder data fragmentLen = some encoder →
    codec.encode encoder index = some f → f = fragment data index
  recover : ∀ data decoder decoder' index buf, data.length = len → codec.Fed fragmentLen len (fragment data) decoder →
    codec.decode decoder index (fragment data index) = some (decoder', true) → codec.recover decoder' = some buf → buf = data
  intoEncoder : ∀ data decoder decoder' encoder index index' f, data.length = len →
    codec.Fed fragmentLen len (fragment data) decoder → codec.decode decoder index (fragment data index) = some (decoder', true) →
    codec.intoEncoder decoder' = some encoder → codec.encode encoder index' = some f → f = fragment data index'

end Neatworks.Entropy
