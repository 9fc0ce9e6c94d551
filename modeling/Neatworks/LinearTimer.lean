import Mathlib.Data.List.Nodup
import Mathlib.Order.Basic
import Neatworks.Event
import Neatworks.Runs

/-!
# The timers of the model checker

A pending timer can fire next if its period is shorter than the periods of all
timers before it in the list. `events` of `linear::Timer` offers the timers up
to the first that is not shorter than the one just before it, so it misses the
ones after that.
-/

namespace Neatworks.Timer

/-- A timer before it with a period that is not longer would fire first. -/
def CanFire (self : Timer) (timerId : TimerId) : Prop :=
  ∃ before period after, self.pending = before ++ (timerId.id, period) :: after ∧ ∀ e ∈ before, period < e.2

/-- Of the timers after one that is not shorter than the one just before it,
none is shorter than all before it. -/
def StopsInTime (self : Timer) : Prop :=
  ∀ before a b between c after, self.pending = before ++ a :: b :: (between ++ c :: after) → a.2 ≤ b.2 →
    ∃ e ∈ before ++ a :: b :: between, e.2 ≤ c.2

/-! ## What the loop offers -/

/-- The loop offers a run of the list, in which each timer is shorter than the
one before it, and stops at a timer that is not. -/
structure Offers (prevPeriod : Option Nat) (pending run rest : List (UInt32 × Nat)) : Prop where
  split : pending = run ++ rest
  offered : eventsFrom prevPeriod pending = run.map fun e => ⟨e.1⟩
  shorter : ∀ e ∈ run, ∀ period ∈ prevPeriod, e.2 < period
  sorted : run.Pairwise fun e e' => e'.2 < e.2
  stop : ∀ b ∈ rest.head?, ∃ period ∈ (run.getLast?.map Prod.snd).or prevPeriod, period ≤ b.2

theorem exists_offers (prevPeriod : Option Nat) (pending : List (UInt32 × Nat)) :
    ∃ run rest, Offers prevPeriod pending run rest := by
  induction pending generalizing prevPeriod with
  | nil => exact ⟨[], [], by constructor <;> simp [eventsFrom]⟩
  | cons e pending ih =>
    by_cases hstop : prevPeriod.any (· ≤ e.2)
    · refine ⟨[], e :: pending, rfl, by simp [eventsFrom, hstop], by simp, .nil, ?_⟩
      obtain ⟨period, hperiod, hle⟩ := (Option.any_eq_true ..).mp hstop
      intro b hb
      cases hb
      exact ⟨period, by simpa using hperiod, by simpa using hle⟩
    · obtain ⟨run, rest, h⟩ := ih (some e.2)
      have hlt : ∀ period ∈ prevPeriod, e.2 < period := by
        intro period hperiod
        cases hperiod
        simpa using hstop
      refine ⟨e :: run, rest, by rw [h.split, List.cons_append], ?_, ?_, ?_, ?_⟩
      · simp [eventsFrom, hstop, h.offered]
      · intro e' he' period hperiod
        rcases List.mem_cons.mp he' with rfl | he'
        · exact hlt period hperiod
        · exact Nat.lt_trans (h.shorter e' he' e.2 rfl) (hlt period hperiod)
      · exact List.pairwise_cons.mpr ⟨fun e' he' => h.shorter e' he' e.2 rfl, h.sorted⟩
      · intro b hb
        obtain ⟨period, hperiod, hle⟩ := h.stop b hb
        refine ⟨period, ?_, hle⟩
        cases hlast : run.getLast? with
        | none => simpa [List.getLast?_cons, hlast] using hperiod
        | some last => simpa [List.getLast?_cons, hlast] using hperiod

section
variable {self : Timer} {run rest : List (UInt32 × Nat)} (h : Offers none self.pending run rest)
include h

theorem Offers.mem_events {timerId : TimerId} : timerId ∈ self.events ↔ timerId.id ∈ run.map Prod.fst := by
  rw [events, h.offered]
  simp only [List.mem_map]
  apply exists_congr
  intro e
  exact and_congr_right fun _ => ⟨fun heq => by rw [← heq], fun heq => by rw [heq]⟩

theorem Offers.canFire {timerId : TimerId} (hmem : timerId ∈ self.events) : self.CanFire timerId := by
  obtain ⟨e, he, hid⟩ := List.mem_map.mp (h.mem_events.mp hmem)
  obtain ⟨before, after, rfl⟩ := List.append_of_mem he
  refine ⟨before, e.2, after ++ rest, ?_, fun e' he' => ?_⟩
  · rw [h.split, ← hid, List.append_assoc, List.cons_append]
  · exact (List.pairwise_append.mp h.sorted).2.2 e' he' e (List.mem_cons_self ..)

/-- Where the list is cut in two neighbours of which the second is not shorter, the
loop has stopped at the second or before. -/
theorem Offers.rest_of_rise {before after : List (UInt32 × Nat)} {a b : UInt32 × Nat}
    (hsplit : self.pending = before ++ a :: b :: after) (hle : a.2 ≤ b.2) :
    ∃ middle, rest = middle ++ after ∧ run ++ middle = before ++ [a, b] := by
  have heq : run ++ rest = (before ++ [a, b]) ++ after := by rw [← h.split, hsplit]; simp
  rcases List.append_eq_append_iff.mp heq with ⟨middle, hmiddle, hrest⟩ | ⟨more, hmore, hafter⟩
  · exact ⟨middle, hrest, hmiddle.symm⟩
  · -- both neighbours would be in the run, which is sorted
    have hsorted := h.sorted
    rw [hmore, List.append_assoc, List.pairwise_append] at hsorted
    have := List.rel_of_pairwise_cons hsorted.2.1 (List.mem_cons_self ..)
    omega

theorem Offers.mem_of_canFire (hstops : self.StopsInTime) {timerId : TimerId} (hfire : self.CanFire timerId) :
    timerId ∈ self.events := by
  obtain ⟨before, period, after, hsplit, hbefore⟩ := hfire
  have heq : run ++ rest = before ++ (timerId.id, period) :: after := by rw [← h.split, hsplit]
  rcases split_append heq with ⟨after', hrun, _⟩ | ⟨between, rfl, hrest⟩
  · rw [h.mem_events, hrun]
    simp
  · -- the loop has stopped at the head of `rest`
    exfalso
    cases between with
    | nil =>
      obtain ⟨last, hlast, hle⟩ := h.stop (timerId.id, period) (by rw [hrest]; rfl)
      rw [Option.or_none] at hlast
      obtain ⟨e, he, rfl⟩ := Option.map_eq_some_iff.mp hlast
      have := hbefore e (List.mem_append_left _ (List.mem_of_getLast? he))
      exact Nat.not_lt.mpr hle this
    | cons b between =>
      obtain ⟨last, hlast, hle⟩ := h.stop b (by rw [hrest]; rfl)
      rw [Option.or_none] at hlast
      obtain ⟨a, ha, rfl⟩ := Option.map_eq_some_iff.mp hlast
      obtain ⟨init, rfl⟩ := List.getLast?_eq_some_iff.mp ha
      obtain ⟨e, he, hshort⟩ := hstops init a b between (timerId.id, period) after (by rw [hsplit]; simp) hle
      exact Nat.not_lt.mpr hshort (hbefore e (by simpa using he))

theorem Offers.stopsInTime (hids : (self.pending.map Prod.fst).Nodup)
    (hall : ∀ timerId, self.CanFire timerId → timerId ∈ self.events) : self.StopsInTime := by
  intro before a b between c after hsplit hle
  by_contra hshorter
  have hbefore : ∀ e ∈ before ++ a :: b :: between, c.2 < e.2 := by
    intro e he
    by_contra hnot
    exact hshorter ⟨e, he, Nat.not_lt.mp hnot⟩
  obtain ⟨middle, hrest, _⟩ := h.rest_of_rise hsplit hle
  have hrun : c.1 ∈ run.map Prod.fst := h.mem_events.mp (hall ⟨c.1⟩ ⟨_, c.2, after, by rw [hsplit]; simp, hbefore⟩)
  -- the ids of the list are distinct
  rw [h.split, hrest, List.map_append, List.nodup_append] at hids
  exact hids.2.2 c.1 hrun c.1 (by simp) rfl

end

/-! ## The timers that are reached -/

inductive Call
  | set (period : Nat)
  | unset (timerId : TimerId)
  | stepTimer (timerId : TimerId)

/-- The timer after a call that does not fail. A call that fails changes nothing. -/
def call (self : Timer) : Call → Outcome Empty Error Timer
  | .set period => Prod.snd <$> self.set period
  | .unset timerId => self.unset timerId
  | .stepTimer timerId => self.stepTimer timerId

def linearMachine : Machine Timer Call where
  init self := self = {}
  next self call self' := ∃ es, self.call call = .ok self' es

structure Numbered (timer : Timer) : Prop where
  ids : (timer.pending.map Prod.fst).Nodup
  le : ∀ e ∈ timer.pending, e.1.toNat ≤ timer.timerId.toNat

theorem perm_without {self : Timer} {timerId : TimerId} {event : UInt32 × Nat}
    (h : self.pending.find? (·.1 = timerId.id) = some event) :
    ((self.without timerId).pending ++ [event]).Perm self.pending := by
  obtain ⟨hevent, before, after, hsplit, hbefore⟩ := List.find?_eq_some_iff_append.mp h
  have herase : (self.without timerId).pending = before ++ after := by
    rw [without, hsplit, List.eraseP_append_right _ (by simpa using hbefore)]
    simp [of_decide_eq_true hevent]
  rw [herase, hsplit]
  exact (List.perm_append_singleton ..).trans List.perm_middle.symm

theorem Numbered.without {self : Timer} (h : self.Numbered) (timerId : TimerId) : (self.without timerId).Numbered where
  ids := h.ids.sublist (List.eraseP_sublist.map _)
  le e he := h.le e (List.mem_of_mem_eraseP he)

theorem Numbered.call {self : Timer} (h : self.Numbered) (call : Call) :
    (self.call call).Sat (fun self' _ => self'.Numbered) fun _ => True := by
  cases call with
  | set period =>
    rw [Timer.call, Outcome.sat_map, set, Outcome.sat_bind]
    unfold addU32
    split
    · next hlt =>
      have hnum := toNat_succ hlt
      have hfresh : self.timerId + 1 ∉ self.pending.map Prod.fst := by
        intro hmem
        obtain ⟨e, he, heq⟩ := List.mem_map.mp hmem
        have := h.le e he
        rw [heq] at this
        omega
      refine ⟨?_, fun e he => ?_⟩
      · simpa using h.ids.concat hfresh
      · simp only [List.mem_append, List.mem_singleton] at he
        rcases he with he | rfl
        · have := h.le e he
          show e.1.toNat ≤ (self.timerId + 1).toNat
          omega
        · exact Nat.le_refl _
    · trivial
  | unset timerId => exact unset_sat fun _ _ => h.without timerId
  | stepTimer timerId =>
    refine stepTimer_sat fun event hfind => ⟨?_, fun e he => ?_⟩
    · exact ((perm_without hfind).map _).nodup_iff.mpr h.ids
    · exact h.le e ((perm_without hfind).subset he)

theorem numbered_of_reach {self : Timer} (h : linearMachine.Reach Machine.always self) : self.Numbered := by
  refine h.invariant ?_ ?_
  · rintro _ rfl
    exact ⟨List.nodup_nil, by simp⟩
  · rintro self call self' _ hnum _ ⟨es, hcall⟩
    have := hnum.call call
    rw [hcall] at this
    exact this

/-- What `events` offers can fire. It offers all that can fire just when it stops in time. -/
theorem events_exact {self : Timer} (h : linearMachine.Reach Machine.always self) :
    (∀ timerId ∈ self.events, self.CanFire timerId) ∧
      ((∀ timerId, timerId ∈ self.events ↔ self.CanFire timerId) ↔ self.StopsInTime) := by
  obtain ⟨run, rest, hoffers⟩ := exists_offers none self.pending
  refine ⟨fun _ => hoffers.canFire, fun hexact => ?_, fun hstops timerId => ⟨hoffers.canFire, fun hfire => ?_⟩⟩
  · exact hoffers.stopsInTime (numbered_of_reach h).ids fun timerId => (hexact timerId).mpr
  · exact hoffers.mem_of_canFire hstops hfire

/-- The timer after calls that do not fail. -/
def callAll (self : Timer) (calls : List Call) : Option Timer :=
  calls.foldlM (fun self call =>
    match self.call call with
    | .ok self' _ => some self'
    | .fail _ _ => none) self

theorem reach_of_callAll {calls : List Call} {self : Timer} (h : ({} : Timer).callAll calls = some self) :
    linearMachine.Reach Machine.always self := by
  refine Machine.Reach.of_foldlM (fun s l s' hs => ?_) (.init rfl) h
  split at hs
  · next self' es hcall =>
    cases hs
    exact ⟨trivial, es, hcall⟩
  · cases hs

/-- A timer of the period 2, and one of the period 3 after it. -/
def twoTimers : Timer := { pending := [(1, 2), (2, 3)], timerId := 2 }

theorem events_exact_two : (∀ timerId ∈ twoTimers.events, twoTimers.CanFire timerId) ∧
    ((∀ timerId, timerId ∈ twoTimers.events ↔ twoTimers.CanFire timerId) ↔ twoTimers.StopsInTime) := by
  have hreach : linearMachine.Reach Machine.always twoTimers :=
    reach_of_callAll (show ({} : Timer).callAll [.set 2, .set 3] = some twoTimers by decide)
  exact events_exact hreach

/-- A timer of the period 1 that is set after these would fire first. -/
theorem events_misses : ¬∀ self, linearMachine.Reach Machine.always self →
    ∀ timerId, timerId ∈ self.events ↔ self.CanFire timerId := by
  intro hclaim
  have hreach : linearMachine.Reach Machine.always { pending := [(1, 2), (2, 3), (3, 1)], timerId := 3 } :=
    reach_of_callAll (show ({} : Timer).callAll [.set 2, .set 3, .set 1] = some _ by rfl)
  have hfire := (hclaim _ hreach ⟨3⟩).mpr ⟨[(1, 2), (2, 3)], 1, [], rfl, by decide⟩
  exact absurd hfire (by decide)

end Neatworks.Timer
