import Neatworks.Handler
import Neatworks.Message

/-!
# Errors and timers

How a call of `event.rs`, `workload.rs` or `unreplicated.rs` fails, and the
timer of `event/linear.rs`. Durations are in milliseconds.
-/

namespace Neatworks

inductive Panic
  | overflow
  | index
  | unwrap
  | assert
  deriving DecidableEq, Repr

/-- An error of `anyhow` by its message, `UnexpectedResult` of a workload, an
error of `app.execute`, or a panic. -/
inductive Error
  | bail (message : String)
  | unexpectedResult (expect actual : Payload)
  | execute
  | panic (panic : Panic)
  deriving DecidableEq, Repr

structure TimerId where
  id : UInt32
  deriving DecidableEq, Repr

/-- The checked addition of `u32`. -/
def addU32 {ε : Type} (a b : UInt32) : Outcome ε Error UInt32 :=
  if a.toNat + b.toNat < 2 ^ 32 then .ok (a + b) [] else Outcome.throw (.panic .overflow)

theorem addU32_eq_ok {ε : Type} {a b c : UInt32} {es : List ε} (h : addU32 a b = .ok c es) :
    c = a + b ∧ es = [] ∧ a.toNat + b.toNat < 2 ^ 32 := by
  unfold addU32 at h
  split at h
  · injection h with hc hes
    exact ⟨hc.symm, hes.symm, by assumption⟩
  · exact nomatch h

theorem toNat_succ {a : UInt32} (h : a.toNat + 1 < 2 ^ 32) : (a + 1).toNat = a.toNat + 1 := by
  rw [UInt32.toNat_add, show (1 : UInt32).toNat = 1 from rfl, Nat.mod_eq_of_lt h]

/-- `linear::Timer`: the timers in the order in which they were set or stepped. -/
structure Timer where
  pending : List (UInt32 × Nat) := []
  timerId : UInt32 := 0
  deriving DecidableEq, Repr

namespace Timer

/-- The loop of `events`, up to the first period that is not shorter than the one before. -/
def eventsFrom : Option Nat → List (UInt32 × Nat) → List TimerId
  | _, [] => []
  | prevPeriod, (id, period) :: pending =>
    if prevPeriod.any (· ≤ period) then [] else ⟨id⟩ :: eventsFrom (some period) pending

def events (self : Timer) : List TimerId := eventsFrom none self.pending

section
variable {ε : Type}

/-- The inherent `unset`, which returns the removed timer. -/
def remove (self : Timer) (timerId : TimerId) : Outcome ε Error ((UInt32 × Nat) × Timer) :=
  match self.pending.find? (·.1 = timerId.id) with
  | none => Outcome.throw (.bail "timer not found")
  | some event => return (event, { self with pending := self.pending.eraseP (·.1 = timerId.id) })

def stepTimer (self : Timer) (timerId : TimerId) : Outcome ε Error Timer := do
  let (event, self) ← self.remove timerId
  return { self with pending := self.pending ++ [event] }

def set (self : Timer) (period : Nat) : Outcome ε Error (TimerId × Timer) := do
  let timerId ← addU32 self.timerId 1
  return (⟨timerId⟩, { self with pending := self.pending ++ [(timerId, period)], timerId := timerId })

def unset (self : Timer) (timerId : TimerId) : Outcome ε Error Timer := do
  let (_, self) ← self.remove timerId
  return self

/-! ## What the calls return -/

/-- `self` without the first of its timers with this id. -/
def without (self : Timer) (timerId : TimerId) : Timer :=
  { self with pending := self.pending.eraseP (·.1 = timerId.id) }

variable {self : Timer} {timerId : TimerId} {event : UInt32 × Nat}

theorem remove_eq (h : self.pending.find? (·.1 = timerId.id) = some event) :
    self.remove timerId = (pure (event, self.without timerId) : Outcome ε Error _) := by
  unfold remove
  rw [h]
  rfl

theorem unset_eq (h : self.pending.find? (·.1 = timerId.id) = some event) :
    self.unset timerId = (pure (self.without timerId) : Outcome ε Error Timer) := by
  rw [unset, remove_eq h, pure_bind]

theorem stepTimer_eq (h : self.pending.find? (·.1 = timerId.id) = some event) :
    self.stepTimer timerId =
      (pure { self with pending := (self.without timerId).pending ++ [event] } : Outcome ε Error Timer) := by
  rw [stepTimer, remove_eq h, pure_bind]
  rfl

theorem unset_sat {Q : Timer → List ε → Prop}
    (h : ∀ event, self.pending.find? (·.1 = timerId.id) = some event → Q (self.without timerId) []) :
    (self.unset timerId).Sat Q fun _ => True := by
  cases hfind : self.pending.find? (·.1 = timerId.id) with
  | none =>
    unfold unset remove
    rw [hfind]
    trivial
  | some event =>
    rw [unset_eq hfind]
    exact h event hfind

theorem stepTimer_sat {Q : Timer → List ε → Prop}
    (h : ∀ event, self.pending.find? (·.1 = timerId.id) = some event →
      Q { self with pending := (self.without timerId).pending ++ [event] } []) :
    (self.stepTimer timerId).Sat Q fun _ => True := by
  cases hfind : self.pending.find? (·.1 = timerId.id) with
  | none =>
    unfold stepTimer remove
    rw [hfind]
    trivial
  | some event =>
    rw [stepTimer_eq hfind]
    exact h event hfind

end

end Timer

end Neatworks
