import Neatworks.Event
import Neatworks.Runs
import Neatworks.SortedSet
import Neatworks.Timers

/-!
# The timers of a blocking run

`ordered::Timer` has each timer in two containers, by its deadline and by its id.
It refines a plain set of timers: which are live, and when each fires.
-/

namespace Neatworks.Ordered

structure TimerState where
  period : Nat
  deadline : Nat
  deriving DecidableEq, Repr

structure Timer where
  id : UInt32 := 0
  deadlines : SortedSet (Nat ×ₗ UInt32) := SortedMap.empty
  states : Table UInt32 TimerState := .empty

def missingTimerState : Error := .bail "missing timer state"

def emptyDeadlines : Error := .bail "empty deadlines"

def inconsistency : Error := .bail "inconsistency between states and deadlines"

namespace Timer

/-- `now` is what `Instant::now` returns. -/
def set (self : Timer) (now period : Nat) : Except Error TimerId × Timer :=
  if self.id.toNat + 1 < 2 ^ 32 then
    let id := self.id + 1
    let deadline := now + period
    (.ok ⟨id⟩, ⟨id, SortedSet.insert self.deadlines (toLex (deadline, id)), self.states.insert id ⟨period, deadline⟩⟩)
  else (.error (.panic .overflow), self)

def unset (self : Timer) (timerId : TimerId) : Except Error Unit × Timer :=
  match self.states.lookup timerId.id with
  | none => (.error missingTimerState, self)
  | some state =>
    let key := toLex (state.deadline, timerId.id)
    let removed := key ∈ self.deadlines
    let self := ⟨self.id, SortedSet.remove self.deadlines key, self.states.remove timerId.id⟩
    (if removed then .ok () else .error inconsistency, self)

def deadline (self : Timer) : Option Nat := (SortedSet.first self.deadlines).map fun key => (ofLex key).1

def advance (self : Timer) : Except Error TimerId × Timer :=
  match SortedSet.popFirst self.deadlines with
  | none => (.error emptyDeadlines, self)
  | some (key, deadlines) =>
    let id := (ofLex key).2
    match self.states.lookup id with
    | none => (.error inconsistency, { self with deadlines := deadlines })
    | some state =>
      let state := { state with deadline := state.deadline + state.period }
      (.ok ⟨id⟩, ⟨self.id, SortedSet.insert deadlines (toLex (state.deadline, id)), self.states.insert id state⟩)

end Timer

/-! ## Plain timers -/

/-- Which timers are live, each with its period and when it fires. -/
abbrev TimerSet := UInt32 → Option TimerState

/-- The live timer with the least deadline, and of those the one that was set first. -/
def TimerSet.First (timers : TimerSet) (id : UInt32) (state : TimerState) : Prop :=
  timers id = some state ∧
    ∀ id' state', timers id' = some state' → state.deadline < state'.deadline ∨ state.deadline = state'.deadline ∧ id ≤ id'

/-! ## The two containers -/

structure Consistent (timer : Timer) : Prop where
  deadlines : ∀ deadline id, toLex (deadline, id) ∈ timer.deadlines ↔
    ∃ state, timer.states.lookup id = some state ∧ state.deadline = deadline
  le : ∀ id state, timer.states.lookup id = some state → id ≤ timer.id

namespace Consistent

theorem new : Consistent {} where
  deadlines deadline id := by simp
  le id state h := by simp at h

variable {timer : Timer} (h : Consistent timer)
include h

theorem mem {id : UInt32} {state : TimerState} (hstate : timer.states.lookup id = some state) :
    toLex (state.deadline, id) ∈ timer.deadlines :=
  (h.deadlines state.deadline id).mpr ⟨state, hstate, rfl⟩

theorem insert {id : UInt32} (state : TimerState) (hnone : timer.states.lookup id = none) {id' : UInt32}
    (hle : timer.id ≤ id') (hid : id ≤ id') :
    Consistent ⟨id', SortedSet.insert timer.deadlines (toLex (state.deadline, id)), timer.states.insert id state⟩ := by
  constructor
  case deadlines =>
    intro deadline id''
    rw [SortedSet.mem_insert, h.deadlines, Table.lookup_insert]
    by_cases heq : id'' = id
    · subst heq
      simp [hnone, eq_comm]
    · simp [heq]
  case le =>
    rw [Table.lookup_insert]
    exact forall_update_some (fun id'' state' hstate => (h.le id'' state' hstate).trans hle) hid

theorem remove {id : UInt32} {state : TimerState} (hstate : timer.states.lookup id = some state) :
    Consistent ⟨timer.id, SortedSet.remove timer.deadlines (toLex (state.deadline, id)), timer.states.remove id⟩ := by
  constructor
  case deadlines =>
    intro deadline id'
    rw [SortedSet.mem_remove, h.deadlines, Table.lookup_remove]
    by_cases heq : id' = id
    · subst heq
      simp [hstate, eq_comm]
    · simp [heq]
  case le =>
    rw [Table.lookup_remove]
    exact forall_update_none h.le

/-! ## What the calls return -/

theorem lookup_next (hlt : timer.id.toNat + 1 < 2 ^ 32) : timer.states.lookup (timer.id + 1) = none := by
  cases hstate : timer.states.lookup (timer.id + 1) with
  | none => rfl
  | some state =>
    have hle := UInt32.le_iff_toNat_le.mp (h.le _ _ hstate)
    rw [toNat_succ hlt] at hle
    omega

theorem unset_eq {timerId : TimerId} {state : TimerState} (hstate : timer.states.lookup timerId.id = some state) :
    timer.unset timerId = (.ok (), ⟨timer.id, SortedSet.remove timer.deadlines (toLex (state.deadline, timerId.id)),
      timer.states.remove timerId.id⟩) := by
  simp [Timer.unset, hstate, h.mem hstate]

theorem first_eq_some {key : Nat ×ₗ UInt32} : SortedSet.first timer.deadlines = some key ↔
    ∃ state, TimerSet.First timer.states.lookup (ofLex key).2 state ∧ state.deadline = (ofLex key).1 := by
  obtain ⟨⟨deadline, id⟩, rfl⟩ := toLex.surjective key
  rw [SortedSet.first_eq_some, h.deadlines]
  constructor
  · rintro ⟨⟨state, hstate, rfl⟩, hleast⟩
    exact ⟨state, ⟨hstate, fun id' state' hstate' => Prod.Lex.toLex_le_toLex.mp (hleast _ (h.mem hstate'))⟩, rfl⟩
  · rintro ⟨state, ⟨hstate, hleast⟩, rfl⟩
    refine ⟨⟨state, hstate, rfl⟩, fun key' hkey' => ?_⟩
    obtain ⟨⟨deadline', id'⟩, rfl⟩ := toLex.surjective key'
    obtain ⟨state', hstate', rfl⟩ := (h.deadlines deadline' id').mp hkey'
    exact Prod.Lex.toLex_le_toLex.mpr (hleast id' state' hstate')

theorem exists_first {id : UInt32} {state : TimerState} (hstate : timer.states.lookup id = some state) :
    ∃ id' state', TimerSet.First timer.states.lookup id' state' := by
  obtain ⟨key, hkey⟩ := SortedSet.exists_first (h.mem hstate)
  obtain ⟨state', hfirst, _⟩ := h.first_eq_some.mp hkey
  exact ⟨_, state', hfirst⟩

theorem advance_eq {id : UInt32} {state : TimerState} (hfirst : TimerSet.First timer.states.lookup id state) :
    timer.advance = (.ok ⟨id⟩, ⟨timer.id,
      SortedSet.insert (SortedSet.remove timer.deadlines (toLex (state.deadline, id))) (toLex (state.deadline + state.period, id)),
      timer.states.insert id { state with deadline := state.deadline + state.period }⟩) := by
  have hkey : SortedSet.first timer.deadlines = some (toLex (state.deadline, id)) :=
    h.first_eq_some.mpr ⟨state, hfirst, rfl⟩
  simp [Timer.advance, SortedSet.popFirst, hkey, hfirst.1]

theorem advance_eq_empty (hnone : ∀ id, timer.states.lookup id = none) : timer.advance = (.error emptyDeadlines, timer) := by
  have hkey : SortedSet.first timer.deadlines = none := by
    rw [SortedSet.first_eq_none]
    intro key hkey
    obtain ⟨state, hstate, _⟩ := (h.deadlines (ofLex key).1 (ofLex key).2).mp hkey
    rw [hnone] at hstate
    cases hstate
  simp [Timer.advance, SortedSet.popFirst, hkey]

omit h in
theorem set_eq {now period : Nat} (hlt : timer.id.toNat + 1 < 2 ^ 32) : timer.set now period =
    (.ok ⟨timer.id + 1⟩, ⟨timer.id + 1, SortedSet.insert timer.deadlines (toLex (now + period, timer.id + 1)),
      timer.states.insert (timer.id + 1) ⟨period, now + period⟩⟩) := if_pos hlt

omit h in
theorem set_eq_error {now period : Nat} (hfull : ¬timer.id.toNat + 1 < 2 ^ 32) :
    timer.set now period = (.error (.panic .overflow), timer) := if_neg hfull

theorem set {now period : Nat} (hlt : timer.id.toNat + 1 < 2 ^ 32) :
    Consistent ⟨timer.id + 1, SortedSet.insert timer.deadlines (toLex (now + period, timer.id + 1)),
      timer.states.insert (timer.id + 1) ⟨period, now + period⟩⟩ := by
  have hle : timer.id ≤ timer.id + 1 := by
    rw [UInt32.le_iff_toNat_le, toNat_succ hlt]
    exact Nat.le_add_right ..
  exact h.insert ⟨period, now + period⟩ (h.lookup_next hlt) hle (le_refl _)

theorem set_snd (now period : Nat) : Consistent (timer.set now period).2 := by
  by_cases hlt : timer.id.toNat + 1 < 2 ^ 32
  · rw [set_eq hlt]
    exact h.set hlt
  · rw [set_eq_error hlt]
    exact h

theorem unset_snd (timerId : TimerId) : Consistent (timer.unset timerId).2 := by
  cases hstate : timer.states.lookup timerId.id with
  | none =>
    simp only [Timer.unset, hstate]
    exact h
  | some state =>
    rw [h.unset_eq hstate]
    exact h.remove hstate

theorem advance {id : UInt32} {state : TimerState} (hstate : timer.states.lookup id = some state) (deadline : Nat) :
    Consistent ⟨timer.id, SortedSet.insert (SortedSet.remove timer.deadlines (toLex (state.deadline, id))) (toLex (deadline, id)),
      timer.states.insert id { state with deadline := deadline }⟩ := by
  rw [← Table.insert_remove]
  exact (h.remove hstate).insert { state with deadline := deadline } (Table.lookup_remove_self ..) (le_refl _) (h.le id state hstate)

end Consistent

/-! ## Runs -/

inductive Call
  | set (now period : Nat)
  | unset (timerId : TimerId)
  | advance

/-- A timer, and the calls of `set` and `unset` on it that have succeeded. -/
structure Run where
  timer : Timer := {}
  calls : List (TimerCall TimerId Nat) := []

def Run.call (self : Run) : Call → Run
  | .set now period =>
    match self.timer.set now period with
    | (.ok timerId, timer) => ⟨timer, self.calls ++ [.set timerId period]⟩
    | (.error _, timer) => { self with timer := timer }
  | .unset timerId =>
    match self.timer.unset timerId with
    | (.ok _, timer) => ⟨timer, self.calls ++ [.unset timerId]⟩
    | (.error _, timer) => { self with timer := timer }
  | .advance => { self with timer := self.timer.advance.2 }

def run (calls : List Call) : Run := calls.foldl Run.call {}

/-- The ids that have been set and not unset since. -/
def Run.live (self : Run) : List TimerId := (TimerCall.live self.calls).map Prod.fst

structure Tracked (run : Run) : Prop where
  consistent : Consistent run.timer
  live : ∀ id, (∃ state, run.timer.states.lookup id = some state) ↔ ⟨id⟩ ∈ run.live
  count : (TimerCall.handedOut run.calls).length = run.timer.id.toNat

namespace Tracked

theorem new : Tracked {} where
  consistent := .new
  live id := by simp [Run.live, TimerCall.live]
  count := rfl

variable {run : Run} (h : Tracked run)
include h

theorem lookup_eq_none {id : UInt32} (hid : ⟨id⟩ ∉ run.live) : run.timer.states.lookup id = none := by
  rw [Option.eq_none_iff_forall_ne_some]
  exact fun state hstate => hid ((h.live id).mp ⟨state, hstate⟩)

theorem set (now period : Nat) : Tracked (run.call (.set now period)) := by
  by_cases hlt : run.timer.id.toNat + 1 < 2 ^ 32
  · simp only [Run.call, Consistent.set_eq hlt]
    constructor
    case consistent => exact h.consistent.set hlt
    case live =>
      intro id
      simp only [Run.live, TimerCall.live_set, List.map_append, List.map_singleton, List.mem_append, List.mem_singleton,
        TimerId.mk.injEq, Table.lookup_insert]
      by_cases hid : id = run.timer.id + 1
      · simp [hid]
      · rw [Function.update_of_ne hid, h.live, or_iff_left hid]
        rfl
    case count =>
      rw [TimerCall.handedOut_append, List.length_append, h.count, toNat_succ hlt]
      rfl
  · simp only [Run.call, Consistent.set_eq_error hlt]
    exact h

theorem unset (timerId : TimerId) : Tracked (run.call (.unset timerId)) := by
  cases hstate : run.timer.states.lookup timerId.id with
  | none =>
    simp only [Run.call, Timer.unset, hstate]
    exact h
  | some state =>
    simp only [Run.call, h.consistent.unset_eq hstate]
    constructor
    case consistent => exact h.consistent.remove hstate
    case live =>
      intro id
      have hlive : ⟨id⟩ ∈ (TimerCall.live (run.calls ++ [.unset timerId])).map Prod.fst ↔
          ⟨id⟩ ∈ run.live ∧ id ≠ timerId.id := by
        rw [TimerCall.live_unset]
        obtain ⟨id'⟩ := timerId
        simp [Run.live]
      simp only [Run.live, hlive, Table.lookup_remove]
      by_cases hid : id = timerId.id
      · simp [hid]
      · rw [Function.update_of_ne hid, h.live, and_iff_left hid]
        rfl
    case count =>
      rw [TimerCall.handedOut_append, List.length_append, h.count]
      rfl

theorem advance : Tracked (run.call .advance) := by
  by_cases hnone : ∀ id, run.timer.states.lookup id = none
  · simp only [Run.call, h.consistent.advance_eq_empty hnone]
    exact h
  · obtain ⟨id, hid⟩ := not_forall.mp hnone
    obtain ⟨state, hstate⟩ := Option.ne_none_iff_exists'.mp hid
    obtain ⟨first, state', hfirst⟩ := h.consistent.exists_first hstate
    simp only [Run.call, h.consistent.advance_eq hfirst]
    constructor
    case consistent => exact h.consistent.advance hfirst.1 _
    case live =>
      intro id'
      simp only [Table.lookup_insert]
      by_cases heq : id' = first
      · subst heq
        rw [Function.update_self]
        exact iff_of_true ⟨_, rfl⟩ ((h.live id').mp ⟨_, hfirst.1⟩)
      · rw [Function.update_of_ne heq]
        exact h.live id'
    case count => exact h.count

theorem call (call : Call) : Tracked (run.call call) := by
  cases call with
  | set now period => exact h.set now period
  | unset timerId => exact h.unset timerId
  | advance => exact h.advance

end Tracked

theorem tracked_run (calls : List Call) : Tracked (run calls) := by
  induction calls using List.reverseRecOn with
  | nil => exact .new
  | append_singleton calls call ih =>
    rw [run, List.foldl_append]
    exact ih.call call

/-- What the timer of a run does is what its live timers, as a plain set, call for. -/
structure Refines (run : Run) : Prop where
  deadlines : ∀ deadline id, toLex (deadline, id) ∈ run.timer.deadlines ↔
    ∃ state, run.timer.states.lookup id = some state ∧ state.deadline = deadline
  live : ∀ id, (∃ state, run.timer.states.lookup id = some state) ↔ ⟨id⟩ ∈ run.live
  set : ∀ now period, (TimerCall.handedOut run.calls).length + 1 < 2 ^ 32 →
    ∃ id timer, run.timer.set now period = (.ok ⟨id⟩, timer) ∧ ⟨id⟩ ∉ run.live ∧
      timer.states.lookup = Function.update run.timer.states.lookup id (some ⟨period, now + period⟩)
  unset : ∀ timerId ∈ run.live, ∃ timer, run.timer.unset timerId = (.ok (), timer) ∧
    timer.states.lookup = Function.update run.timer.states.lookup timerId.id none
  unset_missing : ∀ timerId ∉ run.live, run.timer.unset timerId = (.error missingTimerState, run.timer)
  advance : run.live ≠ [] → ∃ id state timer, TimerSet.First run.timer.states.lookup id state ∧
    run.timer.advance = (.ok ⟨id⟩, timer) ∧ timer.states.lookup =
      Function.update run.timer.states.lookup id (some { state with deadline := state.deadline + state.period })
  advance_empty : run.live = [] → run.timer.advance = (.error emptyDeadlines, run.timer)
  deadline : ∀ deadline, run.timer.deadline = some deadline ↔
    ∃ id state, TimerSet.First run.timer.states.lookup id state ∧ state.deadline = deadline

theorem ordered_refines (calls : List Call) : Refines (run calls) := by
  have h := tracked_run calls
  constructor
  case deadlines => exact h.consistent.deadlines
  case live => exact h.live
  case set =>
    intro now period hlt
    rw [h.count] at hlt
    refine ⟨(run calls).timer.id + 1, _, Consistent.set_eq hlt, fun hlive => ?_, Table.lookup_insert ..⟩
    obtain ⟨state, hstate⟩ := (h.live _).mpr hlive
    rw [h.consistent.lookup_next hlt] at hstate
    cases hstate
  case unset =>
    intro timerId hlive
    obtain ⟨state, hstate⟩ := (h.live timerId.id).mpr hlive
    exact ⟨_, h.consistent.unset_eq hstate, Table.lookup_remove ..⟩
  case unset_missing =>
    intro timerId hlive
    simp [Timer.unset, h.lookup_eq_none hlive]
  case advance =>
    intro hne
    obtain ⟨⟨id⟩, hlive⟩ := List.exists_mem_of_ne_nil _ hne
    obtain ⟨state, hstate⟩ := (h.live id).mpr hlive
    obtain ⟨first, state', hfirst⟩ := h.consistent.exists_first hstate
    exact ⟨first, state', _, hfirst, h.consistent.advance_eq hfirst, Table.lookup_insert ..⟩
  case advance_empty =>
    intro hnil
    exact h.consistent.advance_eq_empty fun id => h.lookup_eq_none (by simp [hnil])
  case deadline =>
    intro deadline
    simp only [Timer.deadline, Option.map_eq_some_iff, h.consistent.first_eq_some]
    constructor
    · rintro ⟨key, ⟨state, hfirst, heq⟩, rfl⟩
      exact ⟨_, state, hfirst, heq⟩
    · rintro ⟨id, state, hfirst, rfl⟩
      exact ⟨toLex (state.deadline, id), ⟨state, hfirst, rfl⟩, rfl⟩

end Neatworks.Ordered
