import Mathlib.Data.Finset.Basic
import Mathlib.Logic.Function.Basic
import Neatworks.Event

/-!
# Sessions and their timers

`Session` of `event/session.rs`, which drives a state wrapped in
`erased::Buffered`. A task of tokio sends the ticks of each timer, and the
`abort` of `unset` stops it at some later time: any timer that was ever set may
tick at any time. A handler of the state is the program of its calls on the
timer; it goes on with what a call returns, and may ignore an error.
-/

namespace Neatworks.Session

/-- The calls of a handler: it returns a state or fails, sets a timer for an
event, or unsets one. -/
inductive Handler (S M : Type)
  | done (state : S)
  | fail (error : Error)
  | set (period : Nat) (event : M) (k : Except Error TimerId → Handler S M)
  | unset (timerId : TimerId) (k : Except Error Unit → Handler S M)

/-- What is recorded of a run. -/
inductive Mark (M : Type)
  | set (timerId : TimerId) (event : M)
  | unset (timerId : TimerId)
  | dispatch (timerId : TimerId) (event : M)
  | failed (error : Error)

abbrev Traced (M α : Type) := Outcome (Mark M) Error α

/-- `sessions` has the spawned tasks with their periods, `handles` the timers
that have not been unset. -/
structure SessionTimer where
  id : UInt32 := 0
  sessions : List (TimerId × Nat) := []
  handles : Finset TimerId := ∅

structure BufferedTimer (M : Type) where
  inner : SessionTimer := {}
  attached : TimerId → Option M := fun _ => none

structure Buffered (S M : Type) where
  inner : S
  attached : TimerId → Option M := fun _ => none

inductive Event (M : Type)
  | timer (timerId : TimerId)
  | other (event : M)

/-- The session, with the events in its channel, and the state it drives. -/
structure Run (S M : Type) where
  receiver : List (Event M) := []
  timer : SessionTimer := {}
  state : Buffered S M

def duplicatedTimerId : Error := .bail "duplicated timer id"

def missingTimerAttachment : Error := .bail "missing timer attachment"

def timerNotExists : Error := .bail "timer not exists"

section
variable {S M : Type}

/-! ## Timers -/

def SessionTimer.set (self : SessionTimer) (period : Nat) : Traced M (TimerId × SessionTimer) := do
  let id ← addU32 self.id 1
  let timerId : TimerId := ⟨id⟩
  return (timerId, ⟨id, self.sessions ++ [(timerId, period)], insert timerId self.handles⟩)

def SessionTimer.unset (self : SessionTimer) (timerId : TimerId) : Except Error Unit × SessionTimer :=
  if timerId ∈ self.handles then (.ok (), { self with handles := self.handles.erase timerId })
  else (.error timerNotExists, self)

namespace BufferedTimer

/-- An error leaves the new attachment in place. -/
def set (self : BufferedTimer M) (period : Nat) (event : M) : Traced M (Except Error TimerId × BufferedTimer M) := do
  let (timerId, inner) ← self.inner.set period
  Outcome.emit (.set timerId event)
  let replaced := self.attached timerId
  let self := ⟨inner, Function.update self.attached timerId (some event)⟩
  if replaced.isSome then
    Outcome.emit (.failed duplicatedTimerId)
    return (.error duplicatedTimerId, self)
  return (.ok timerId, self)

def unset (self : BufferedTimer M) (timerId : TimerId) : Traced M (Except Error Unit × BufferedTimer M) := do
  Outcome.emit (.unset timerId)
  let (result, inner) := self.inner.unset timerId
  return (result, { self with inner := inner })

end BufferedTimer

/-! ## The loop -/

/-- The calls of a handler on the timer it is given. -/
def Handler.run : Handler S M → BufferedTimer M → Traced M (S × BufferedTimer M)
  | .done state, timer => return (state, timer)
  | .fail error, _ => Outcome.throw error
  | .set period event k, timer => do
    let (result, timer) ← timer.set period event
    (k result).run timer
  | .unset timerId k, timer => do
    let (result, timer) ← timer.unset timerId
    (k result).run timer

variable (handler : S → M → Handler S M)

/-- `OnEventFixTimer::on_event`. -/
def Buffered.onEvent (self : Buffered S M) (event : M) (timer : SessionTimer) :
    Traced M (Buffered S M × SessionTimer) := do
  let (inner, timer) ← (handler self.inner event).run ⟨timer, self.attached⟩
  return (⟨inner, timer.attached⟩, timer.inner)

def Buffered.onTimer (self : Buffered S M) (timerId : TimerId) (timer : SessionTimer) :
    Traced M (Buffered S M × SessionTimer) :=
  match self.attached timerId with
  | none => do
    Outcome.emit (.failed missingTimerAttachment)
    Outcome.throw missingTimerAttachment
  | some event => do
    Outcome.emit (.dispatch timerId event)
    self.onEvent handler event timer

/-- An iteration of `Session::run` that has received an event. -/
def Run.receive (self : Run S M) : Traced M (Run S M) :=
  match self.receiver with
  | [] => return self
  | .timer timerId :: receiver =>
    if timerId ∈ self.timer.handles then do
      let (state, timer) ← self.state.onTimer handler timerId self.timer
      return ⟨receiver, timer, state⟩
    else return { self with receiver := receiver }
  | .other event :: receiver => do
    let (state, timer) ← self.state.onEvent handler event self.timer
    return ⟨receiver, timer, state⟩

/-- What happens next: an event is sent, the task of a timer ticks or has ended,
or the loop takes the next event from its channel. -/
inductive Input (M : Type)
  | send (event : M)
  | tick (timerId : TimerId)
  | joinNext (timerId : TimerId)
  | recv

/-- The task of a timer without a period panics before its first tick, and the
session ends with it. The end of an aborted task changes nothing. -/
def Run.step (self : Run S M) : Input M → Traced M (Run S M)
  | .send event => return { self with receiver := self.receiver ++ [.other event] }
  | .tick timerId =>
    if ∃ task ∈ self.timer.sessions, task.1 = timerId ∧ task.2 ≠ 0 then
      return { self with receiver := self.receiver ++ [.timer timerId] }
    else return self
  | .joinNext timerId =>
    if (timerId, 0) ∈ self.timer.sessions then Outcome.throw (.panic .assert) else return self
  | .recv => self.receive handler

/-- A session with a state, and what happens to it in order. -/
def run (state : S) (inputs : List (Input M)) : Traced M (Run S M) :=
  inputs.foldlM (Run.step handler) { state := { inner := state } }

end

end Neatworks.Session
