import Neatworks.EntropyLog

/-!
# The entropy peer with its worker and its file system

`fs::session` and a peer that it serves. The session takes the requests of its
channel in order and has a task for each; the tasks go on one call at a time,
in any order, and an error of one ends the session. A directory is named by its
chunk, a file in it by its index.
-/

namespace Neatworks.Entropy

open Outcome
open Kademlia (PeerId)

abbrev Directory := UInt32 → Option Bytes

abbrev Disk := Chunk → Option Directory

/-- `fs::Event`. -/
inductive Request
  | store (chunk : Chunk) (index : UInt32) (fragment : Bytes)
  | load (chunk : Chunk) (index : UInt32) (take : Bool)

/-- A task, by the call it is at; `stored` and `loaded` are done. -/
inductive Task
  | createDir (chunk : Chunk) (index : UInt32) (fragment : Bytes)
  | write (chunk : Chunk) (index : UInt32) (fragment : Bytes)
  | stored (chunk : Chunk)
  | read (chunk : Chunk) (index : UInt32) (take : Bool)
  | removeDirAll (chunk : Chunk) (index : UInt32) (fragment : Bytes)
  | loaded (chunk : Chunk) (index : UInt32) (fragment : Bytes)

inductive FsError
  | alreadyExists
  | notFound
  deriving DecidableEq

structure Fs where
  disk : Disk := fun _ => none
  events : List Request := []
  tasks : List Task := []

def Request.spawn : Request → Task
  | .store chunk index fragment => .createDir chunk index fragment
  | .load chunk index take => .read chunk index take

def Task.chunk : Task → Chunk
  | .createDir chunk _ _ | .write chunk _ _ | .stored chunk | .read chunk _ _ | .removeDirAll chunk _ _
  | .loaded chunk _ _ => chunk

/-- The next call of a task. -/
def Task.run (disk : Disk) : Task → Except FsError (Task × Disk)
  | .createDir chunk index fragment =>
    match disk chunk with
    | some _ => .error .alreadyExists
    | none => .ok (.write chunk index fragment, Function.update disk chunk (some fun _ => none))
  | .write chunk index fragment =>
    match disk chunk with
    | none => .error .notFound
    | some dir => .ok (.stored chunk, Function.update disk chunk (some (Function.update dir index (some fragment))))
  | .read chunk index take =>
    match (disk chunk).bind (· index) with
    | none => .error .notFound
    | some fragment =>
      .ok (if take then .removeDirAll chunk index fragment else .loaded chunk index fragment, disk)
  | .removeDirAll chunk index fragment =>
    match disk chunk with
    | none => .error .notFound
    | some _ => .ok (.loaded chunk index fragment, Function.update disk chunk none)
  | .stored chunk => .ok (.stored chunk, disk)
  | .loaded chunk index fragment => .ok (.loaded chunk index fragment, disk)

/-- What there is to do, requests first. -/
def Fs.todo (self : Fs) : List Task := self.events.map Request.spawn ++ self.tasks

theorem Fs.todo_after (fs : Fs) (new : List Request) :
    (fs.todo ++ new.map Request.spawn).Perm { fs with events := fs.events ++ new }.todo := by
  unfold Fs.todo
  rw [List.map_append, List.append_assoc, List.append_assoc]
  exact List.perm_append_comm.append_left _

theorem Fs.todo_tasks {fs : Fs} {n : Nat} {task : Task} (htask : fs.tasks[n]? = some task) :
    ∃ l₁ l₂, fs.todo = l₁ ++ task :: l₂ ∧ (∀ task', { fs with tasks := fs.tasks.set n task' }.todo = l₁ ++ task' :: l₂) ∧
      { fs with tasks := fs.tasks.eraseIdx n }.todo = l₁ ++ l₂ := by
  obtain ⟨hn, rfl⟩ := List.getElem?_eq_some_iff.mp htask
  refine ⟨fs.events.map Request.spawn ++ fs.tasks.take n, fs.tasks.drop (n + 1), ?_, fun task' => ?_, ?_⟩
  · simp [Fs.todo]
  · simp [Fs.todo, List.set_eq_take_append_cons_drop, hn]
  · simp [Fs.todo, List.eraseIdx_eq_take_drop_succ]

/-! ## The node -/

structure Node (K P σ : Type) (codec : Codec) where
  peer : Peer K P σ codec
  jobs : List (Job codec) := []
  fs : Fs := {}
  /-- Why the session has ended. -/
  failed : Option FsError := none
  history : List (Entry K P σ codec) := []

inductive Move (K P σ : Type) (codec : Codec)
  /-- An event from outside. -/
  | event (event : Event K P σ codec)
  /-- The worker is done with the job at this place of the list of jobs. -/
  | complete (job : Nat) (pick : Nat)
  /-- The session takes a request from its channel. -/
  | recv
  /-- The task at this place of the list of tasks makes its next call. -/
  | run (task : Nat)
  /-- The session joins the task at this place, which is done. -/
  | join (task : Nat)

section
variable {K P σ : Type} {codec : Codec}

/-- What a task that is done sends to the peer. -/
def Task.event : Task → Option (Event K P σ codec)
  | .stored chunk => some (.storeOk chunk)
  | .loaded chunk index fragment => some (.loadOk chunk index fragment)
  | .createDir .. | .write .. | .read .. | .removeDirAll .. => none

def Effect.request : Effect K P σ codec → Option Request
  | .store chunk index fragment => some (.store chunk index fragment)
  | .load chunk index take => some (.load chunk index take)
  | _ => none

def requests (es : List (Effect K P σ codec)) : List Request := es.filterMap Effect.request

/-- Not an event of the worker or of the file system. -/
def Event.External : Event K P σ codec → Prop
  | .storeOk _ | .loadOk .. | .codec .. => False
  | _ => True

instance : DecidablePred (Event.External : Event K P σ codec → Prop)
  | .storeOk _ | .loadOk .. | .codec .. => .isFalse not_false
  | .put .. | .get _ | .recvInvite .. | .recvInviteOk _ | .recvOffer _ | .recvFragmentAvailable _ | .recvPull _
  | .downloadOk .. => .isTrue trivial

namespace Node

def after (node : Node K P σ codec) (event : Event K P σ codec) (peer : Peer K P σ codec)
    (es : List (Effect K P σ codec)) : Node K P σ codec :=
  { node with
    peer := peer
    jobs := node.jobs ++ submitted es
    fs := { node.fs with events := node.fs.events ++ requests es }
    history := node.history ++ .event event :: es.map .call }

section
variable [Preimage K] [DigestHash P]

def handle (node : Node K P σ codec) (event : Event K P σ codec) : Option (Node K P σ codec) :=
  match node.peer.onEvent event with
  | .ok peer es => some (node.after event peer es)
  | .fail _ _ => none

def step (node : Node K P σ codec) : Move K P σ codec → Option (Node K P σ codec)
  | .event event => if event.External then node.handle event else none
  | .complete n pick =>
    match node.jobs[n]? with
    | none => none
    | some job =>
      let node := { node with jobs := node.jobs.eraseIdx n }
      match job.run with
      | none => some node
      | some event => node.handle (.codec event pick)
  | .recv =>
    match node.failed, node.fs.events with
    | none, request :: events =>
      some { node with fs := { node.fs with events := events, tasks := node.fs.tasks ++ [request.spawn] } }
    | _, _ => none
  | .run n =>
    match node.failed, node.fs.tasks[n]? with
    | none, some task =>
      match task.run node.fs.disk with
      | .error error => some { node with failed := some error }
      | .ok (task, disk) => some { node with fs := { node.fs with disk := disk, tasks := node.fs.tasks.set n task } }
    | _, _ => none
  | .join n =>
    match node.failed, node.fs.tasks[n]?.bind Task.event with
    | none, some event => { node with fs := { node.fs with tasks := node.fs.tasks.eraseIdx n } }.handle event
    | _, _ => none

/-- What a step can be. -/
inductive Steps (node : Node K P σ codec) : Move K P σ codec → Node K P σ codec → Prop
  | event {event : Event K P σ codec} {peer : Peer K P σ codec} {es : List (Effect K P σ codec)} (hext : event.External)
    (hevent : node.peer.onEvent event = .ok peer es) : Steps node (.event event) (node.after event peer es)
  | complete {n pick : Nat} {job : Job codec} {event : CodecEvent codec} {peer : Peer K P σ codec}
    {es : List (Effect K P σ codec)} (hjob : node.jobs[n]? = some job) (hrun : job.run = some event)
    (hevent : node.peer.onEvent (.codec event pick) = .ok peer es) :
    Steps node (.complete n pick) ({ node with jobs := node.jobs.eraseIdx n }.after (.codec event pick) peer es)
  | dropped {n pick : Nat} {job : Job codec} (hjob : node.jobs[n]? = some job) (hrun : job.run = none) :
    Steps node (.complete n pick) { node with jobs := node.jobs.eraseIdx n }
  | recv {request : Request} {events : List Request} (hevents : node.fs.events = request :: events) :
    Steps node .recv { node with fs := { node.fs with events := events, tasks := node.fs.tasks ++ [request.spawn] } }
  | run {n : Nat} {task task' : Task} {disk : Disk} (htask : node.fs.tasks[n]? = some task)
    (hrun : task.run node.fs.disk = .ok (task', disk)) :
    Steps node (.run n) { node with fs := { node.fs with disk := disk, tasks := node.fs.tasks.set n task' } }
  | fail {n : Nat} {task : Task} {error : FsError} (htask : node.fs.tasks[n]? = some task)
    (hrun : task.run node.fs.disk = .error error) : Steps node (.run n) { node with failed := some error }
  | join {n : Nat} {task : Task} {event : Event K P σ codec} {peer : Peer K P σ codec} {es : List (Effect K P σ codec)}
    (htask : node.fs.tasks[n]? = some task) (hdone : task.event = some event)
    (hevent : node.peer.onEvent event = .ok peer es) :
    Steps node (.join n) ({ node with fs := { node.fs with tasks := node.fs.tasks.eraseIdx n } }.after event peer es)

theorem handle_eq_some {node node' : Node K P σ codec} {event : Event K P σ codec} (h : node.handle event = some node') :
    ∃ peer es, node.peer.onEvent event = .ok peer es ∧ node' = node.after event peer es := by
  unfold handle at h
  split at h
  · next peer es hevent => exact ⟨peer, es, hevent, (Option.some.inj h).symm⟩
  · cases h

theorem step_steps {node node' : Node K P σ codec} {move : Move K P σ codec} (h : node.step move = some node') :
    node.Steps move node' := by
  cases move with
  | event event =>
    simp only [step] at h
    split at h
    · next hext =>
      obtain ⟨peer, es, hevent, rfl⟩ := handle_eq_some h
      exact .event hext hevent
    · cases h
  | complete n pick =>
    simp only [step] at h
    split at h
    · cases h
    · next job hjob =>
      split at h
      · next hrun =>
        cases h
        exact .dropped hjob hrun
      · next event hrun =>
        obtain ⟨peer, es, hevent, rfl⟩ := handle_eq_some h
        exact .complete hjob hrun hevent
  | recv =>
    simp only [step] at h
    split at h
    · next hevents =>
      cases h
      exact .recv hevents
    · cases h
  | run n =>
    simp only [step] at h
    split at h
    · next htask =>
      split at h
      · next hrun =>
        cases h
        exact .fail htask hrun
      · next hrun =>
        cases h
        exact .run htask hrun
    · cases h
  | join n =>
    simp only [step] at h
    split at h
    · next hbind =>
      obtain ⟨task, htask, hdone⟩ := Option.bind_eq_some_iff.mp hbind
      obtain ⟨peer, es, hevent, rfl⟩ := handle_eq_some h
      exact .join htask hdone hevent
    · cases h

end

end Node

section
variable [Preimage K] [DigestHash P]

def nodeMachine (K P σ : Type) (codec : Codec) [Preimage K] [DigestHash P] :
    Machine (Node K P σ codec) (Move K P σ codec) where
  init node := ∃ id crypto fragmentLen chunkK chunkN chunkM,
    node = { peer := Peer.new id crypto fragmentLen chunkK chunkN chunkM }
  next node move node' := node.step move = some node'

variable (C : Node K P σ codec → Move K P σ codec → Prop) [∀ node move, Decidable (C node move)]

theorem node_of_exec (id : PeerId) (crypto : PeerCrypto P σ) (fragmentLen : UInt32) (chunkK chunkN chunkM : ℕ+)
    (moves : List (Move K P σ codec)) (Q : Node K P σ codec → Prop) [DecidablePred Q]
    (h : (moves.foldlM (fun node move => if C node move then node.step move else none)
      { peer := Peer.new id crypto fragmentLen chunkK chunkN chunkM }).any (fun node => Q node) = true) :
    ∃ node, (nodeMachine K P σ codec).Reach C node ∧ Q node :=
  Machine.exists_reach (M := nodeMachine K P σ codec) (fun _ _ _ hstep => hstep) ⟨_, _, _, _, _, _, rfl⟩ moves Q h

end

end

end Neatworks.Entropy
