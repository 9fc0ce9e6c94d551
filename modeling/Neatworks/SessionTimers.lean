import Neatworks.Session

/-!
# Timers of a session

A timer is live twice over, in `handles` of the session and in `attached` of
the buffered state, and its ticks may be in the channel when it is unset. Each
id is handed out once, so an event is dispatched only between the `set` that
attached it and the `unset` of its id.
-/

namespace Neatworks.Session

open Outcome

section
variable {S M : Type} {trace : List (Mark M)} {timerId : TimerId} {event : M}

/-- The timer was set for the event, by the only `set` that returned its id, and
has not been unset since. -/
def Live (trace : List (Mark M)) (timerId : TimerId) (event : M) : Prop :=
  ∃ earlier later, trace = earlier ++ .set timerId event :: later ∧ .unset timerId ∉ later ∧
    ∀ event', .set timerId event' ∉ earlier ∧ .set timerId event' ∉ later

theorem Live.snoc (h : Live trace timerId event) {mark : Mark M} (hunset : mark ≠ .unset timerId)
    (hset : ∀ event', mark ≠ .set timerId event') : Live (trace ++ [mark]) timerId event := by
  obtain ⟨earlier, later, rfl, hlater, honce⟩ := h
  refine ⟨earlier, later ++ [mark], by simp, ?_, fun event' => ⟨(honce event').1, ?_⟩⟩
  · simp [hlater, hunset.symm]
  · simp [(honce event').2, (hset event').symm]

/-- The events are dispatched while their timers are live, and neither a `set`
nor a tick has failed. -/
structure Disciplined (trace : List (Mark M)) : Prop where
  dispatched : ∀ before timerId event after, trace = before ++ .dispatch timerId event :: after →
    Live before timerId event
  setsSucceed : .failed duplicatedTimerId ∉ trace
  ticksSucceed : .failed missingTimerAttachment ∉ trace

theorem Disciplined.snoc (h : Disciplined trace) {mark : Mark M}
    (hdispatch : ∀ timerId event, mark = .dispatch timerId event → Live trace timerId event)
    (hfailed : ∀ error, mark ≠ .failed error) : Disciplined (trace ++ [mark]) := by
  constructor
  case dispatched =>
    intro before timerId event after heq
    rcases List.eq_nil_or_concat after with rfl | ⟨after, last, rfl⟩
    · obtain ⟨rfl, hlast⟩ := List.append_inj' heq rfl
      simp at hlast
      exact hdispatch timerId event hlast
    · rw [List.concat_eq_append, ← List.cons_append, ← List.append_assoc] at heq
      exact h.dispatched before timerId event after (List.append_inj' heq rfl).1
  case setsSucceed => simp [h.setsSucceed, (hfailed _).symm]
  case ticksSucceed => simp [h.ticksSucceed, (hfailed _).symm]

/-! ## The tables and the trace -/

structure Tracked (timer : BufferedTimer M) (trace : List (Mark M)) : Prop where
  le : ∀ timerId event, .set timerId event ∈ trace → timerId.id.toNat ≤ timer.inner.id.toNat
  attached : ∀ timerId event, timer.attached timerId = some event → .set timerId event ∈ trace
  live : ∀ timerId ∈ timer.inner.handles, ∃ event, timer.attached timerId = some event ∧ Live trace timerId event
  disciplined : Disciplined trace

theorem SessionTimer.set_sat {self : SessionTimer} {period : Nat} {Q : TimerId × SessionTimer → List (Mark M) → Prop}
    {R : List (Mark M) → Prop}
    (hok : ∀ id : UInt32, id.toNat = self.id.toNat + 1 →
      Q (⟨id⟩, ⟨id, self.sessions ++ [(⟨id⟩, period)], insert ⟨id⟩ self.handles⟩) [])
    (hR : R []) : (self.set period).Sat Q R := by
  unfold set addU32
  rw [sat_bind]
  split
  · next hlt =>
    apply hok
    rw [UInt32.toNat_add, Nat.mod_eq_of_lt hlt]
    rfl
  · exact hR

namespace Tracked

theorem new : Tracked ({} : BufferedTimer M) [] := by
  constructor <;> try simp
  constructor <;> simp

variable {timer : BufferedTimer M}

theorem set (h : Tracked timer trace) (period : Nat) (event : M) : (timer.set period event).Sat
    (fun r es => Tracked r.2 (trace ++ es)) fun es => Disciplined (trace ++ es) := by
  unfold BufferedTimer.set
  rw [sat_bind]
  refine SessionTimer.set_sat (fun id hid => ?_) (by simpa using h.disciplined)
  have hfresh (event' : M) : .set ⟨id⟩ event' ∉ trace := by
    intro hmem
    have : id.toNat ≤ timer.inner.id.toNat := h.le _ _ hmem
    omega
  have hnone : timer.attached ⟨id⟩ = none := by
    by_contra hsome
    obtain ⟨event', hevent'⟩ := Option.ne_none_iff_exists'.mp hsome
    exact hfresh event' (h.attached _ _ hevent')
  simp only [hnone, sat_bind, sat_emit, Option.isSome_none, Bool.false_eq_true, if_false, sat_pure, List.nil_append,
    List.append_nil]
  constructor
  case le =>
    intro timerId event' hmem
    rcases List.mem_append.mp hmem with hmem | hmem
    · have := h.le _ _ hmem
      show _ ≤ id.toNat
      omega
    · simp at hmem
      rw [hmem.1]
  case attached =>
    intro timerId event' heq
    by_cases hnew : timerId = ⟨id⟩
    · subst hnew
      simp at heq
      simp [heq]
    · simp [hnew] at heq
      exact List.mem_append_left _ (h.attached _ _ heq)
  case live =>
    intro timerId hmem
    by_cases hnew : timerId = ⟨id⟩
    · subst hnew
      exact ⟨event, by simp, trace, [], rfl, by simp, fun event' => ⟨hfresh event', by simp⟩⟩
    · obtain ⟨event', heq, hlive⟩ := h.live timerId ((Finset.mem_insert.mp hmem).resolve_left hnew)
      refine ⟨event', by simpa [hnew] using heq, hlive.snoc (by simp) fun event' heq' => ?_⟩
      injection heq' with hid'
      exact hnew hid'.symm
  case disciplined => exact h.disciplined.snoc (by simp) (by simp)

theorem unset (h : Tracked timer trace) (timerId : TimerId) : (timer.unset timerId).Sat
    (fun r es => Tracked r.2 (trace ++ es)) fun es => Disciplined (trace ++ es) := by
  have hdisciplined : Disciplined (trace ++ [.unset timerId]) := h.disciplined.snoc (by simp) (by simp)
  have hle : ∀ timerId' event, .set timerId' event ∈ trace ++ [.unset timerId] →
      timerId'.id.toNat ≤ timer.inner.id.toNat := by
    intro timerId' event hmem
    simp at hmem
    exact h.le _ _ hmem
  have hattached : ∀ timerId' event, timer.attached timerId' = some event →
      .set timerId' event ∈ trace ++ [.unset timerId] :=
    fun timerId' event heq => List.mem_append_left _ (h.attached _ _ heq)
  have hlive : ∀ timerId' ∈ timer.inner.handles, timerId' ≠ timerId →
      ∃ event, timer.attached timerId' = some event ∧ Live (trace ++ [.unset timerId]) timerId' event := by
    intro timerId' hmem hne
    obtain ⟨event, heq, hlive⟩ := h.live timerId' hmem
    exact ⟨event, heq, hlive.snoc (by simp [hne.symm]) (by simp)⟩
  unfold BufferedTimer.unset SessionTimer.unset
  simp only [sat_bind, sat_emit]
  split
  · refine ⟨hle, hattached, fun timerId' hmem => ?_, hdisciplined⟩
    obtain ⟨hne, hmem⟩ := Finset.mem_erase.mp hmem
    exact hlive timerId' hmem hne
  · next hnot =>
    exact ⟨hle, hattached, fun timerId' hmem => hlive timerId' hmem fun heq => hnot (heq ▸ hmem), hdisciplined⟩

/-- The induction is on the calls of the handler. -/
theorem run (handler : Handler S M) (h : Tracked timer trace) : (handler.run timer).Sat
    (fun r es => Tracked r.2 (trace ++ es)) fun es => Disciplined (trace ++ es) := by
  induction handler generalizing timer trace with
  | done state => simpa [Handler.run] using h
  | fail error => simpa [Handler.run] using h.disciplined
  | set period event k ih =>
    rw [Handler.run, sat_bind]
    refine (h.set period event).mono (fun r es hr => ?_) fun _ hes => hes
    simpa using ih r.1 hr
  | unset timerId k ih =>
    rw [Handler.run, sat_bind]
    refine (h.unset timerId).mono (fun r es hr => ?_) fun _ hes => hes
    simpa using ih r.1 hr

end Tracked

/-! ## Runs -/

variable {handler : S → M → Handler S M}

/-- The timer that the handlers of the run are given. -/
def Run.buffered (self : Run S M) : BufferedTimer M := ⟨self.timer, self.state.attached⟩

theorem Tracked.onEvent {self : Buffered S M} {timer : SessionTimer} (h : Tracked ⟨timer, self.attached⟩ trace)
    (event : M) : (self.onEvent handler event timer).Sat (fun r es => Tracked ⟨r.2, r.1.attached⟩ (trace ++ es))
      fun es => Disciplined (trace ++ es) := by
  unfold Buffered.onEvent
  rw [sat_bind]
  refine (h.run (handler self.inner event)).mono (fun r es hr => ?_) fun _ hes => hes
  simpa using hr

theorem Tracked.onTimer {self : Buffered S M} {timer : SessionTimer} (h : Tracked ⟨timer, self.attached⟩ trace)
    {timerId : TimerId} (hmem : timerId ∈ timer.handles) :
    (self.onTimer handler timerId timer).Sat (fun r es => Tracked ⟨r.2, r.1.attached⟩ (trace ++ es))
      fun es => Disciplined (trace ++ es) := by
  obtain ⟨event, heq, hlive⟩ := h.live timerId hmem
  have heq' : self.attached timerId = some event := heq
  have hdispatch : Tracked ⟨timer, self.attached⟩ (trace ++ [.dispatch timerId event]) := by
    constructor
    case le =>
      intro timerId' event' hmem
      simp at hmem
      exact h.le _ _ hmem
    case attached => exact fun timerId' event' heq => List.mem_append_left _ (h.attached _ _ heq)
    case live =>
      intro timerId' hmem
      obtain ⟨event', heq, hlive⟩ := h.live timerId' hmem
      exact ⟨event', heq, hlive.snoc (by simp) (by simp)⟩
    case disciplined =>
      refine h.disciplined.snoc (fun timerId' event' hmark => ?_) (by simp)
      cases hmark
      exact hlive
  unfold Buffered.onTimer
  rw [heq']
  simp only [sat_bind, sat_emit]
  refine (hdispatch.onEvent event).mono (fun r es hr => ?_) fun es hes => ?_
  · simpa using hr
  · simpa using hes

theorem Tracked.step {self : Run S M} (h : Tracked self.buffered trace) (input : Input M) :
    (self.step handler input).Sat (fun r es => Tracked r.buffered (trace ++ es)) fun es => Disciplined (trace ++ es) := by
  have hsame : Tracked self.buffered (trace ++ []) := by simpa using h
  cases input with
  | send event => exact hsame
  | tick timerId =>
    simp only [Run.step]
    split <;> exact hsame
  | joinNext timerId =>
    simp only [Run.step]
    split
    · exact hsame.disciplined
    · exact hsame
  | recv =>
    simp only [Run.step, Run.receive]
    split
    · exact hsame
    · split
      · next hmem =>
        rw [sat_bind]
        refine (h.onTimer hmem).mono (fun r es hr => ?_) fun _ hes => hes
        simpa [Run.buffered] using hr
      · exact hsame
    · rw [sat_bind]
      refine (Tracked.onEvent h _).mono (fun r es hr => ?_) fun _ hes => hes
      simpa [Run.buffered] using hr

/-- In every run, whatever the handlers call and whenever the timers tick, an
event is dispatched only between its `set` and its `unset`, and no `set` and no
tick fails. -/
theorem timer_discipline (handler : S → M → Handler S M) (state : S) (inputs : List (Input M)) :
    (run handler state inputs).Sat (fun _ trace => Disciplined trace) fun trace => Disciplined trace := by
  have hnew : Tracked ({ state := { inner := state } } : Run S M).buffered [] := Tracked.new
  have hstep (r : Run S M) (trace : List (Mark M)) (input : Input M) (hr : Tracked r.buffered trace) :
      (r.step handler input).Sat (fun r' es => Tracked r'.buffered (trace ++ es)) fun es => Disciplined (trace ++ es) :=
    hr.step input
  have hrun := sat_foldlM hstep hnew inputs
  exact hrun.mono (fun r trace hr => hr.disciplined) fun trace h => h

/-- Event 0 sets a timer for event 1, which unsets it. -/
def oneShot : Unit → Nat → Handler Unit Nat
  | _, 0 => .set 1 1 fun _ => .done ()
  | _, _ => .unset ⟨1⟩ fun _ => .done ()

/-- The second tick is in the channel when the timer is unset. -/
example : ∃ r, run oneShot () [.send 0, .recv, .tick ⟨1⟩, .tick ⟨1⟩, .recv, .recv] =
    .ok r [.set ⟨1⟩ 1, .dispatch ⟨1⟩ 1, .unset ⟨1⟩] :=
  ⟨_, rfl⟩

end

end Neatworks.Session
