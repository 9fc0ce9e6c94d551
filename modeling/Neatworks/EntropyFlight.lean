import Neatworks.EntropyRecovery

/-!
# Decoders in flight

The entropy peer with its codec worker. A job and the event that it ends with
are two steps, with any others between them; what is not from the worker comes
in any order and any number of times. It is noted which fragments have come for
a recovery, and whether its decoder has gone.
-/

namespace Neatworks.Entropy

structure Flight (K P σ : Type) (codec : Codec) where
  peer : Peer K P σ codec
  jobs : List (Job codec) := []
  /-- What the worker has sent, and the recovery whose job it was. -/
  events : List (Option Recovery × CodecEvent codec) := []
  history : List (Entry K P σ codec) := []
  /-- The indices that have come for a recovery. -/
  arrived : Recovery → List UInt32 := fun _ => []
  /-- A job has ended without giving the decoder back: the chunk is recovered, or the codec has failed. -/
  finished : Recovery → Bool := fun _ => false

inductive Hop (K P σ : Type) (codec : Codec)
  /-- An event that is not from the worker. -/
  | event (event : Event K P σ codec)
  /-- The worker runs the job at this place of the list of jobs. -/
  | run (job : Nat)
  /-- The peer takes the event at this place of the list of events. -/
  | handle (event : Nat) (pick : Nat)

section
variable {K P σ : Type} {codec : Codec}

def Event.ofWorker : Event K P σ codec → Bool
  | .codec .. => true
  | _ => false

def CodecEvent.returns : CodecEvent codec → Bool
  | .decode .. => true
  | _ => false

def Stage.isRecovering {D : Type} : Stage D → Bool
  | .recovering _ => true
  | .absent | .past => false

variable [Preimage K]

/-- The indices that have come for a recovery, after the event. -/
def Peer.arrive (self : Peer K P σ codec) (event : Event K P σ codec) (r : Recovery) (arrived : List UInt32) : List UInt32 :=
  if event.starts r then []
  else
    match event with
    | .downloadOk chunk index _ =>
      if self.recovery chunk = r ∧ (self.stage r).isRecovering then arrived ++ [index] else arrived
    | _ => arrived

/-- The decode jobs of a recovery, after an entry of the history. -/
def Recovery.track (r : Recovery) (jobs : List (Job codec)) : Entry K P σ codec → List (Job codec)
  | .event event => if event.starts r then [] else jobs
  | .call effect => jobs ++ decodes r effect.job.toList

namespace Flight

variable (flight : Flight K P σ codec)

/-- The jobs of a recovery that the worker has not run. -/
def decoding (r : Recovery) : List (Job codec) := decodes r flight.jobs

/-- The events of a recovery on the way to the peer. -/
def decoded (r : Recovery) : List (CodecEvent codec) := (flight.events.filter fun entry => entry.1 = some r).map Prod.snd

/-- The indices that a recovery has fed to its decoder, in order. -/
def fed (r : Recovery) : List UInt32 := (flight.history.foldl r.track []).filterMap Job.index

def after (event : Event K P σ codec) (peer : Peer K P σ codec) (es : List (Effect K P σ codec)) : Flight K P σ codec :=
  { flight with
    peer := peer
    jobs := flight.jobs ++ submitted es
    history := flight.history ++ .event event :: es.map .call
    arrived := fun r => flight.peer.arrive event r (flight.arrived r)
    finished := fun r => flight.finished r && !event.starts r }

/-- The worker has run the job at a place of the list. -/
def ran (n : Nat) (job : Job codec) : Flight K P σ codec :=
  { flight with
    jobs := flight.jobs.eraseIdx n
    events := flight.events ++ job.run.toList.map fun event => (job.recovery, event)
    finished := fun r => flight.finished r || (job.recovery = some r && !job.run.any CodecEvent.returns) }

section
variable [DigestHash P]

def handle (event : Event K P σ codec) : Option (Flight K P σ codec) :=
  match flight.peer.onEvent event with
  | .ok peer es => some (flight.after event peer es)
  | .fail _ _ => none

def step : Hop K P σ codec → Option (Flight K P σ codec)
  | .event event => if event.ofWorker then none else flight.handle event
  | .run n =>
    match flight.jobs[n]? with
    | none => none
    | some job => some (flight.ran n job)
  | .handle n pick =>
    match flight.events[n]? with
    | none => none
    | some (_, event) => { flight with events := flight.events.eraseIdx n }.handle (.codec event pick)

/-- What a step can be. -/
inductive Steps : Hop K P σ codec → Flight K P σ codec → Prop
  | event {event : Event K P σ codec} {peer : Peer K P σ codec} {es : List (Effect K P σ codec)}
    (hworker : event.ofWorker = false) (hevent : flight.peer.onEvent event = .ok peer es) :
    Steps (.event event) (flight.after event peer es)
  | run {n : Nat} {job : Job codec} (hjob : flight.jobs[n]? = some job) : Steps (.run n) (flight.ran n job)
  | handle {n pick : Nat} {owner : Option Recovery} {event : CodecEvent codec} {peer : Peer K P σ codec}
    {es : List (Effect K P σ codec)} (hentry : flight.events[n]? = some (owner, event))
    (hevent : flight.peer.onEvent (.codec event pick) = .ok peer es) :
    Steps (.handle n pick) ({ flight with events := flight.events.eraseIdx n }.after (.codec event pick) peer es)

variable {flight}

theorem handle_eq_some {event : Event K P σ codec} {flight' : Flight K P σ codec} (h : flight.handle event = some flight') :
    ∃ peer es, flight.peer.onEvent event = .ok peer es ∧ flight' = flight.after event peer es := by
  unfold handle at h
  split at h
  · next peer es hevent => exact ⟨peer, es, hevent, (Option.some.inj h).symm⟩
  · cases h

theorem steps_of_step {hop : Hop K P σ codec} {flight' : Flight K P σ codec} (h : flight.step hop = some flight') :
    flight.Steps hop flight' := by
  cases hop with
  | event event =>
    simp only [step] at h
    split at h
    · cases h
    · next hworker =>
      obtain ⟨peer, es, hevent, rfl⟩ := handle_eq_some h
      exact .event (Bool.eq_false_iff.mpr hworker) hevent
  | run n =>
    simp only [step] at h
    split at h
    · cases h
    · next job hjob =>
      cases h
      exact .run hjob
  | handle n pick =>
    simp only [step] at h
    split at h
    · cases h
    · next owner event hentry =>
      obtain ⟨peer, es, hevent, rfl⟩ := handle_eq_some h
      exact .handle hentry hevent

end

end Flight

def flightMachine (K P σ : Type) (codec : Codec) [Preimage K] [DigestHash P] :
    Machine (Flight K P σ codec) (Hop K P σ codec) where
  init flight := ∃ id crypto fragmentLen chunkK chunkN chunkM,
    flight = { peer := Peer.new id crypto fragmentLen chunkK chunkN chunkM }
  next flight hop flight' := flight.step hop = some flight'

/-! ## One recovery -/

section
variable {flight : Flight K P σ codec} {r : Recovery} {event : Event K P σ codec} {peer : Peer K P σ codec}
  {es : List (Effect K P σ codec)}

theorem mem_arrive {index : UInt32} {arrived : List UInt32} (h : index ∈ peer.arrive event r arrived) :
    event.starts r = false ∧ index ∈ arrived ∨
      ∃ chunk fragment, event = .downloadOk chunk index fragment ∧ peer.addressee event = some r ∧
        (peer.stage r).isRecovering := by
  unfold Peer.arrive at h
  split at h
  · cases h
  · next hstart =>
    have hstart : event.starts r = false := Bool.eq_false_iff.mpr hstart
    cases event with
    | downloadOk chunk index' fragment =>
      dsimp only at h
      split at h
      · next hcome =>
        rcases List.mem_append.mp h with hold | hnew
        · exact Or.inl ⟨hstart, hold⟩
        · cases List.mem_singleton.mp hnew
          exact Or.inr ⟨chunk, fragment, rfl, congrArg some hcome.1, hcome.2⟩
      · exact Or.inl ⟨hstart, h⟩
    | _ => exact Or.inl ⟨hstart, h⟩

theorem track_calls (jobs : List (Job codec)) :
    (es.map (.call : Effect K P σ codec → Entry K P σ codec)).foldl r.track jobs = jobs ++ decodes r (submitted es) := by
  induction es generalizing jobs with
  | nil => simp [submitted]
  | cons e es ih =>
    have hsubmitted : submitted (e :: es) = e.job.toList ++ submitted es := by
      cases hjob : e.job <;> simp [submitted, hjob]
    rw [List.map_cons, List.foldl_cons, ih, hsubmitted, decodes_append]
    exact List.append_assoc ..

theorem fed_after : (flight.after event peer es).fed r =
    (if event.starts r then [] else flight.fed r) ++ (decodes r (submitted es)).filterMap Job.index := by
  simp only [Flight.fed, Flight.after, List.foldl_append, List.foldl_cons, track_calls, Recovery.track, List.filterMap_append]
  split <;> rfl

theorem decoding_after : (flight.after event peer es).decoding r = flight.decoding r ++ decodes r (submitted es) :=
  decodes_append ..

end

end

end Neatworks.Entropy
