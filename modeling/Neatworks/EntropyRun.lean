import Neatworks.Entropy
import Neatworks.Runs

/-!
# Runs of the entropy peer

A run is a peer, the jobs its codec worker and the stores its file system have
not finished, and what has happened at it so far: what has come, and the calls
that were made. Jobs and stores finish in any order.
-/

namespace Neatworks.Entropy

open Outcome
open Kademlia (PeerId Target)

inductive Input (K P σ : Type)
  | put (preimage : K) (buf : Bytes)
  | get (preimage : K)
  /-- `index` is the random one. -/
  | recvInvite (invite : Invite) (index : UInt32)
  | recvInviteOk (inviteOk : InviteOk)
  | recvOffer (sendFragment : SendFragment)
  | recvFragmentAvailable (fragmentAvailable : Verifiable (FragmentAvailable P) σ)
  | recvPull (pull : Pull)
  | downloadOk (chunk : Chunk) (index : UInt32) (fragment : Bytes)
  | loadOk (chunk : Chunk) (index : UInt32) (fragment : Bytes)
  /-- The store at this place of the list of stores is done. -/
  | storeOk (store : Nat)
  /-- The worker is done with the job at this place of the list of jobs. -/
  | complete (job : Nat) (pick : Nat)

inductive Occurrence (K P σ : Type) (codec : Codec)
  | input (input : Input K P σ)
  | effect (effect : Effect K P σ codec)

structure Run (K P σ : Type) (codec : Codec) where
  peer : Peer K P σ codec
  jobs : List (Job codec) := []
  stores : List Chunk := []
  history : List (Occurrence K P σ codec) := []

section
variable {K P σ : Type} {codec : Codec}

def Effect.job : Effect K P σ codec → Option (Job codec)
  | .submit job => some job
  | _ => none

def Effect.stored : Effect K P σ codec → Option Chunk
  | .store chunk _ _ => some chunk
  | _ => none

/-- The jobs among the calls of a handler. -/
def submitted (es : List (Effect K P σ codec)) : List (Job codec) := es.filterMap Effect.job

/-- The chunks whose fragments are stored by these calls. -/
def stored (es : List (Effect K P σ codec)) : List Chunk := es.filterMap Effect.stored

@[simp] theorem submitted_append (es es' : List (Effect K P σ codec)) : submitted (es ++ es') = submitted es ++ submitted es' :=
  List.filterMap_append ..

@[simp] theorem stored_append (es es' : List (Effect K P σ codec)) : stored (es ++ es') = stored es ++ stored es' :=
  List.filterMap_append ..

namespace Run

def handle [Preimage K] [DigestHash P] (run : Run K P σ codec) : Input K P σ → Handler K P σ codec (Peer K P σ codec)
  | .put preimage buf => run.peer.onPut preimage buf
  | .get preimage => run.peer.onGet preimage
  | .recvInvite invite index => run.peer.onRecvInvite invite index
  | .recvInviteOk inviteOk => run.peer.onRecvInviteOk inviteOk
  | .recvOffer sendFragment => run.peer.onRecvOffer sendFragment
  | .recvFragmentAvailable fragmentAvailable => run.peer.onRecvFragmentAvailable fragmentAvailable
  | .recvPull pull => run.peer.onRecvPull pull
  | .downloadOk chunk index fragment => run.peer.onDownloadOk chunk index fragment
  | .loadOk chunk index fragment => run.peer.onLoadOk chunk index fragment
  | .storeOk n =>
    match run.stores[n]? with
    | none => return run.peer
    | some chunk => run.peer.onStoreOk chunk
  | .complete n pick =>
    match run.jobs[n]? with
    | none => return run.peer
    | some job =>
      match job.run with
      | none => return run.peer
      | some event => run.peer.onCodec pick event

/-- The jobs that are left when the input has come. -/
def remaining (run : Run K P σ codec) : Input K P σ → List (Job codec)
  | .complete n _ => run.jobs.eraseIdx n
  | _ => run.jobs

/-- The stores that are left when the input has come. -/
def unstored (run : Run K P σ codec) : Input K P σ → List Chunk
  | .storeOk n => run.stores.eraseIdx n
  | _ => run.stores

def after (run : Run K P σ codec) (input : Input K P σ) (peer : Peer K P σ codec) (es : List (Effect K P σ codec)) :
    Run K P σ codec where
  peer := peer
  jobs := run.remaining input ++ submitted es
  stores := run.unstored input ++ stored es
  history := run.history ++ .input input :: es.map .effect

end Run

variable [Preimage K] [DigestHash P]

def machine (K P σ : Type) (codec : Codec) [Preimage K] [DigestHash P] : Machine (Run K P σ codec) (Input K P σ) where
  init run := ∃ id crypto fragmentLen chunkK chunkN chunkM,
    run = { peer := Peer.new id crypto fragmentLen chunkK chunkN chunkM }
  next run input run' := ∃ peer es, run.handle input = .ok peer es ∧ run' = run.after input peer es

/-- The invariant rule of the machine, by the postconditions of the handlers. -/
theorem reach_induct {C : Run K P σ codec → Input K P σ → Prop} {I : Run K P σ codec → Prop}
    (hinit : ∀ id crypto fragmentLen chunkK chunkN chunkM, I { peer := Peer.new id crypto fragmentLen chunkK chunkN chunkM })
    (hstep : ∀ run input, I run → C run input →
      (run.handle input).Sat (fun peer es => I (run.after input peer es)) fun _ => True)
    {run : Run K P σ codec} (h : (machine K P σ codec).Reach C run) : I run := by
  refine h.invariant ?_ ?_
  · rintro _ ⟨id, crypto, fragmentLen, chunkK, chunkN, chunkM, rfl⟩
    exact hinit id crypto fragmentLen chunkK chunkN chunkM
  · rintro run input _ _ hI hC ⟨peer, es, hhandle, rfl⟩
    have := hstep run input hI hC
    rw [hhandle] at this
    exact this

/-! ## Runs that are computed -/

section
variable (C : Run K P σ codec → Input K P σ → Prop) [∀ run input, Decidable (C run input)]

def Run.exec (run : Run K P σ codec) (input : Input K P σ) : Option (Run K P σ codec) :=
  if C run input then
    match run.handle input with
    | .ok peer es => some (run.after input peer es)
    | .fail _ _ => none
  else none

/-- What a computed run ends in is reached by a run whose steps meet `C`. -/
theorem reach_of_exec (id : PeerId) (crypto : PeerCrypto P σ) (fragmentLen : UInt32) (chunkK chunkN chunkM : ℕ+)
    (inputs : List (Input K P σ)) (Q : Run K P σ codec → Prop) [DecidablePred Q]
    (h : (inputs.foldlM (Run.exec C) { peer := Peer.new id crypto fragmentLen chunkK chunkN chunkM }).any
      (fun run => Q run) = true) :
    ∃ run, (machine K P σ codec).Reach C run ∧ Q run := by
  refine Machine.exists_of_foldlM (M := machine K P σ codec) (fun s l s' hs => ?_) ⟨_, _, _, _, _, _, rfl⟩ h
  unfold Run.exec at hs
  split at hs
  · next hc =>
    split at hs
    · next peer es hhandle =>
      cases hs
      exact ⟨hc, peer, es, hhandle, rfl⟩
    · cases hs
  · cases hs

end

end

/-- A codec that runs can be evaluated with: a fragment is the chunk, and one
of them is enough. -/
def Codec.toy : Codec where
  Encoder := Bytes
  Decoder := Bytes
  newEncoder buf _ := some buf
  newDecoder _ _ := some []
  encode encoder _ := some encoder
  decode _ _ fragment := some (fragment, true)
  recover decoder := some decoder
  intoEncoder decoder := some decoder

end Neatworks.Entropy
