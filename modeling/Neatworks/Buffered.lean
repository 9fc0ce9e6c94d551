import Mathlib.Data.Set.Insert
import Mathlib.Logic.Function.Basic
import Neatworks.Event
import Neatworks.Runs
import Neatworks.Timers

/-!
# Buffered timers

`Buffered` of `event.rs`, typed and type-erased, which keep with each timer the
event it fires. They are over any timer: `FreshTimer` has what one promises of
its live timers. A handler is the program of its calls on the timer it is given,
and a run is any sequence of such calls.
-/

namespace Neatworks.Event

/-- A call may change the timer also when it fails. -/
class Timer (T : Type) where
  set : T → Nat → Except Error TimerId × T
  unset : T → TimerId → Except Error Unit × T

/-- A timer that returns the ids of timers that are not live. -/
class FreshTimer (T : Type) extends Timer T where
  live : T → Set TimerId
  set_ok : ∀ t period timerId, (set t period).1 = .ok timerId →
    timerId ∉ live t ∧ live (set t period).2 = insert timerId (live t)
  set_error : ∀ t period error, (set t period).1 = .error error → live (set t period).2 = live t
  unset_ok : ∀ t timerId, (unset t timerId).1 = .ok () → live (unset t timerId).2 = live t \ {timerId}
  unset_error : ∀ t timerId error, (unset t timerId).1 = .error error → live (unset t timerId).2 = live t

/-- The live timers can be unset. -/
class UnsetTimer (T : Type) extends FreshTimer T where
  unset_live : ∀ t, ∀ timerId ∈ live t, (unset t timerId).1 = .ok ()

/-- `FnMut() -> M`. -/
class Closure (A : Type) (M : outParam Type) where
  call : A → M × A

/-- `attached` is `attched` in the typed version. -/
structure BufferedTimer (T A : Type) where
  inner : T
  attached : TimerId → Option A := fun _ => none

structure Buffered (S A : Type) where
  inner : S
  attached : TimerId → Option A := fun _ => none

def duplicatedTimerId : Error := .bail "duplicated timer id"

def missingTimerAttachment : Error := .bail "missing timer attachment"

/-- What an event leaves. -/
structure Returned (S T A : Type) where
  result : Except Error Unit
  buffered : Buffered S A
  timer : T

/-- The calls of a handler of `S`, which may go on after one that fails. -/
inductive Handler (S A : Type)
  | done (result : Except Error Unit) (state : S)
  | set (period : Nat) (event : A) (k : Except Error TimerId → Handler S A)
  | unset (timerId : TimerId) (k : Except Error Unit → Handler S A)

section
variable {S T A : Type} [Timer T]

namespace BufferedTimer

/-- The same in both versions. -/
def set (self : BufferedTimer T A) (period : Nat) (event : A) : Except Error TimerId × BufferedTimer T A :=
  match Timer.set self.inner period with
  | (.error error, inner) => (.error error, { self with inner := inner })
  | (.ok timerId, inner) =>
    let replaced := self.attached timerId
    let self := ⟨inner, Function.update self.attached timerId (some event)⟩
    (if replaced.isSome then .error duplicatedTimerId else .ok timerId, self)

def unset (self : BufferedTimer T A) (timerId : TimerId) : Except Error Unit × BufferedTimer T A :=
  let removed := self.attached timerId
  let self := { self with attached := Function.update self.attached timerId none }
  if removed.isSome then (.error missingTimerAttachment, self)
  else
    let (result, inner) := Timer.unset self.inner timerId
    (result, { self with inner := inner })

end BufferedTimer

/-- `unset` of the type-erased version. -/
def Erased.unset (self : BufferedTimer T A) (timerId : TimerId) : Except Error Unit × BufferedTimer T A :=
  let (result, inner) := Timer.unset self.inner timerId
  (result, { self with inner := inner })

/-! ## The handlers -/

abbrev Unset (T A : Type) := BufferedTimer T A → TimerId → Except Error Unit × BufferedTimer T A

/-- The calls of a handler on the timer it is given, with the `unset` of its version. -/
def Handler.run (unset : Unset T A) : Handler S A → BufferedTimer T A → Except Error Unit × S × BufferedTimer T A
  | .done result state, timer => (result, state, timer)
  | .set period event k, timer =>
    let (result, timer) := timer.set period event
    (k result).run unset timer
  | .unset timerId k, timer =>
    let (result, timer) := unset timer timerId
    (k result).run unset timer

section
variable (unset : Unset T A) {M : Type} (handler : S → M → Handler S A)

def Buffered.onEvent (self : Buffered S A) (event : M) (timer : T) : Returned S T A :=
  let (result, inner, timer) := (handler self.inner event).run unset ⟨timer, self.attached⟩
  ⟨result, ⟨inner, timer.attached⟩, timer.inner⟩

/-- In the type-erased version the closure is a clone of the event. -/
def Buffered.onTimer [Closure A M] (self : Buffered S A) (timerId : TimerId) (timer : T) : Returned S T A :=
  match self.attached timerId with
  | none => ⟨.error missingTimerAttachment, self, timer⟩
  | some a =>
    let (event, a) := Closure.call a
    Buffered.onEvent unset handler { self with attached := Function.update self.attached timerId (some a) } event timer

end

end

/-! ## Runs -/

/-- A call on a buffered timer, or a change that its owner makes to the inner one. -/
inductive Call (T A : Type)
  | set (period : Nat) (event : A)
  | unset (timerId : TimerId)
  /-- The closure of the timer is called. -/
  | fire (timerId : TimerId)
  | owner (inner : T)

/-- A buffered timer, and the calls of `set` and `unset` on it that have succeeded. -/
structure Run (T A : Type) where
  timer : BufferedTimer T A
  calls : List (TimerCall TimerId A) := []

section
variable {S T A M : Type} [Timer T] [Closure A M]

def BufferedTimer.fire (self : BufferedTimer T A) (timerId : TimerId) : BufferedTimer T A :=
  match self.attached timerId with
  | none => self
  | some a => { self with attached := Function.update self.attached timerId (some (Closure.call a).2) }

namespace Run

def call (unset : Unset T A) (self : Run T A) : Call T A → Run T A
  | .set period event =>
    match self.timer.set period event with
    | (.ok timerId, timer) => ⟨timer, self.calls ++ [.set timerId event]⟩
    | (.error _, timer) => { self with timer := timer }
  | .unset timerId =>
    match unset self.timer timerId with
    | (.ok _, timer) => ⟨timer, self.calls ++ [.unset timerId]⟩
    | (.error _, timer) => { self with timer := timer }
  | .fire timerId => { self with timer := self.timer.fire timerId }
  | .owner inner => { self with timer := { self.timer with inner := inner } }

/-- The ids that have been set and not unset since. -/
def live (self : Run T A) : List TimerId := (TimerCall.live self.calls).map Prod.fst

theorem call_set_timer (unset : Unset T A) (self : Run T A) (period : Nat) (event : A) :
    (self.call unset (.set period event)).timer = (self.timer.set period event).2 := by
  rw [call]
  split <;> simp [*]

theorem call_unset_timer (unset : Unset T A) (self : Run T A) (timerId : TimerId) :
    (self.call unset (.unset timerId)).timer = (unset self.timer timerId).2 := by
  rw [call]
  split <;> simp [*]

end Run

/-! A handler is a sequence of calls. -/

def Returned.wrapped (self : Returned S T A) : BufferedTimer T A := ⟨self.timer, self.buffered.attached⟩

theorem Handler.run_calls (unset : Unset T A) (handler : Handler S A) (run : Run T A) :
    ∃ calls : List (Call T A), (∀ inner, .owner inner ∉ calls) ∧
      (calls.foldl (Run.call unset) run).timer = (handler.run unset run.timer).2.2 := by
  induction handler generalizing run with
  | done result state => exact ⟨[], by simp, rfl⟩
  | set period event k ih =>
    obtain ⟨calls, hcalls, htimer⟩ := ih (run.timer.set period event).1 (run.call unset (.set period event))
    refine ⟨.set period event :: calls, by simpa using hcalls, ?_⟩
    rw [List.foldl_cons, htimer, Run.call_set_timer, Handler.run]
  | unset timerId k ih =>
    obtain ⟨calls, hcalls, htimer⟩ := ih (unset run.timer timerId).1 (run.call unset (.unset timerId))
    refine ⟨.unset timerId :: calls, by simpa using hcalls, ?_⟩
    rw [List.foldl_cons, htimer, Run.call_unset_timer, Handler.run]

section
variable (unset : Unset T A) (handler : S → M → Handler S A) (buffered : Buffered S A) (run : Run T A)

theorem Buffered.onEvent_calls (event : M) (hattached : run.timer.attached = buffered.attached) :
    ∃ calls : List (Call T A), (∀ inner, .owner inner ∉ calls) ∧
      (calls.foldl (Run.call unset) run).timer = (buffered.onEvent unset handler event run.timer.inner).wrapped := by
  obtain ⟨calls, hcalls, htimer⟩ := (handler buffered.inner event).run_calls unset run
  refine ⟨calls, hcalls, htimer.trans ?_⟩
  unfold Buffered.onEvent
  rw [← hattached]
  rfl

theorem Buffered.onTimer_calls (timerId : TimerId) (hattached : run.timer.attached = buffered.attached) :
    ∃ calls : List (Call T A), (∀ inner, .owner inner ∉ calls) ∧
      (calls.foldl (Run.call unset) run).timer = (buffered.onTimer unset handler timerId run.timer.inner).wrapped := by
  unfold Buffered.onTimer
  rw [← hattached]
  split
  · refine ⟨[], by simp, ?_⟩
    rw [Returned.wrapped, ← hattached]
    rfl
  · next a ha =>
    have hfire : (run.call unset (.fire timerId)).timer =
        ⟨run.timer.inner, Function.update run.timer.attached timerId (some (Closure.call a).2)⟩ := by
      simp [Run.call, BufferedTimer.fire, ha]
    obtain ⟨calls, hcalls, htimer⟩ := Buffered.onEvent_calls unset handler
      { buffered with attached := Function.update run.timer.attached timerId (some (Closure.call a).2) }
      (run.call unset (.fire timerId)) (Closure.call a).1 (by rw [hfire])
    refine ⟨.fire timerId :: calls, by simpa using hcalls, htimer.trans ?_⟩
    rw [hfire]

end

/-- The owner of the inner timer sets and unsets none itself. -/
def callMachine (T A M : Type) [FreshTimer T] [Closure A M] (unset : Unset T A) : Machine (Run T A) (Call T A) where
  init run := FreshTimer.live run.timer.inner = ∅ ∧ run = { timer := { inner := run.timer.inner } }
  next run call run' := run' = run.call unset call ∧
    ∀ inner, call = .owner inner → FreshTimer.live inner = FreshTimer.live run.timer.inner

end

end Neatworks.Event
