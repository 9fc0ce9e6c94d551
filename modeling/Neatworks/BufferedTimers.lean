import Neatworks.Buffered
import Neatworks.OrderedTimer

/-!
# Attachments and live timers

What each `unset` does to the timers that have an attachment. The typed one
fails on every such timer and leaves it live in the inner timer without its
attachment; the type-erased one leaves the attachment of a timer that is no
longer live. Without such calls the timers with an attachment are the live ones.
-/

namespace Neatworks.Event

section
variable {T A M : Type} [FreshTimer T] [Closure A M] {run : Run T A} {unset : Unset T A}

theorem FreshTimer.live_unset {inner : T} {timerId : TimerId}
    (hnot : timerId ∈ FreshTimer.live inner → (Timer.unset inner timerId).1 ≠ .ok ()) :
    FreshTimer.live (Timer.unset inner timerId).2 = FreshTimer.live inner := by
  cases hresult : (Timer.unset inner timerId).1 with
  | error error => exact FreshTimer.unset_error inner timerId error hresult
  | ok =>
    rw [FreshTimer.unset_ok inner timerId hresult]
    exact Set.sdiff_singleton_eq_self fun hmem => hnot hmem hresult

/-- The timers with an attachment are those live, and those set and not unset since. -/
structure Attached (run : Run T A) : Prop where
  attached : ∀ timerId, (run.timer.attached timerId).isSome ↔ timerId ∈ FreshTimer.live run.timer.inner
  live : ∀ timerId, timerId ∈ run.live ↔ timerId ∈ FreshTimer.live run.timer.inner

namespace Attached

theorem of_live (h : Attached run) {inner : T} (hinner : FreshTimer.live inner = FreshTimer.live run.timer.inner) :
    Attached { run with timer := { run.timer with inner := inner } } := by
  constructor
  case attached =>
    intro timerId
    rw [hinner]
    exact h.attached timerId
  case live =>
    intro timerId
    rw [hinner]
    exact h.live timerId

theorem eq_none (h : Attached run) {timerId : TimerId} (hlive : timerId ∉ FreshTimer.live run.timer.inner) :
    run.timer.attached timerId = none := by
  rw [← Option.not_isSome_iff_eq_none, h.attached]
  exact hlive

theorem not_live (h : Attached run) {timerId : TimerId} (hnone : run.timer.attached timerId = none) :
    timerId ∉ FreshTimer.live run.timer.inner := by
  rw [← h.attached, hnone]
  simp

theorem set_eq (h : Attached run) {period : Nat} {timerId : TimerId} {inner : T}
    (hset : Timer.set run.timer.inner period = (.ok timerId, inner)) (event : A) :
    run.timer.set period event = (.ok timerId, ⟨inner, Function.update run.timer.attached timerId (some event)⟩) := by
  have hnone := h.eq_none (FreshTimer.set_ok run.timer.inner period timerId (by rw [hset])).1
  simp [BufferedTimer.set, hset, hnone]

theorem set (h : Attached run) (period : Nat) (event : A) : Attached (run.call unset (.set period event)) := by
  cases hresult : (Timer.set run.timer.inner period).1 with
  | error error =>
    have hset : Timer.set run.timer.inner period = (.error error, (Timer.set run.timer.inner period).2) := by rw [← hresult]
    simp only [Run.call, BufferedTimer.set]
    rw [hset]
    exact h.of_live (FreshTimer.set_error _ _ error hresult)
  | ok timerId =>
    obtain ⟨_, hlive⟩ := FreshTimer.set_ok _ _ _ hresult
    have hset : Timer.set run.timer.inner period = (.ok timerId, (Timer.set run.timer.inner period).2) := by rw [← hresult]
    simp only [Run.call, h.set_eq hset]
    constructor
    case attached =>
      intro timerId'
      rw [hlive, Set.mem_insert_iff, ← h.attached]
      by_cases heq : timerId' = timerId
      · simp [heq]
      · simp [heq]
    case live =>
      intro timerId'
      rw [hlive, Set.mem_insert_iff, ← h.live, Run.live, TimerCall.live_set]
      simp [Run.live, or_comm]

theorem fire (h : Attached run) (timerId : TimerId) : Attached (run.call unset (.fire timerId)) := by
  simp only [Run.call, BufferedTimer.fire]
  split
  · exact h
  · next a ha =>
    refine ⟨fun timerId' => ?_, h.live⟩
    rw [← h.attached]
    by_cases heq : timerId' = timerId
    · simp [heq, ha]
    · simp [heq]

theorem unset_inner (h : Attached run) {timerId : TimerId}
    (hunset : unset run.timer timerId = ((Timer.unset run.timer.inner timerId).1,
      { run.timer with inner := (Timer.unset run.timer.inner timerId).2 }))
    (hnot : timerId ∈ FreshTimer.live run.timer.inner → (Timer.unset run.timer.inner timerId).1 ≠ .ok ()) :
    Attached (run.call unset (.unset timerId)) := by
  have hlive := FreshTimer.live_unset hnot
  simp only [Run.call, hunset]
  cases hresult : (Timer.unset run.timer.inner timerId).1 with
  | error error => exact h.of_live hlive
  | ok =>
    have hrun : timerId ∉ run.live := fun hmem => hnot ((h.live timerId).mp hmem) hresult
    have hsame : TimerCall.live (run.calls ++ [.unset timerId]) = TimerCall.live run.calls := by
      rw [TimerCall.live_unset, List.filter_eq_self]
      intro e he
      simp only [decide_eq_true_eq]
      rintro rfl
      exact hrun (List.mem_map_of_mem he)
    refine ⟨(h.of_live hlive).attached, fun timerId' => ?_⟩
    rw [Run.live, hsame]
    exact (h.of_live hlive).live timerId'

end Attached

/-- The run rule, by what a version does in the `unset` calls that meet its condition. -/
theorem attached_of_reach {C : Run T A → Call T A → Prop}
    (hunset : ∀ run timerId, Attached run → C run (.unset timerId) → Attached (run.call unset (.unset timerId)))
    (h : (callMachine T A M unset).Reach C run) : Attached run := by
  refine h.invariant ?_ ?_
  · rintro run ⟨hlive, hrun⟩
    rw [hrun]
    exact ⟨by simp [hlive], by simp [hlive, Run.live, TimerCall.live]⟩
  · rintro run call run' _ hattached hc ⟨rfl, howner⟩
    cases call with
    | set period event => exact hattached.set period event
    | unset timerId => exact hunset run timerId hattached hc
    | fire timerId => exact hattached.fire timerId
    | owner inner => exact hattached.of_live (howner inner rfl)

/-! ## The typed version -/

/-- No timer with an attachment is unset. -/
def SparesAttached (run : Run T A) (call : Call T A) : Prop :=
  ∀ timerId, call = .unset timerId → run.timer.attached timerId = none

/-- An `unset` undoes a `set`, and if it fails it leaves the attachments and the
live timers as they are. -/
structure Unsets (run : Run T A) (timerId : TimerId) : Prop where
  succeeds : timerId ∈ run.live → (run.timer.unset timerId).1 = .ok () ∧
    (run.timer.unset timerId).2.attached timerId = none ∧ timerId ∉ FreshTimer.live (run.timer.unset timerId).2.inner
  fails : ∀ error, (run.timer.unset timerId).1 = .error error →
    (run.timer.unset timerId).2.attached = run.timer.attached ∧
      FreshTimer.live (run.timer.unset timerId).2.inner = FreshTimer.live run.timer.inner
  attached : ∀ timerId', ((run.timer.unset timerId).2.attached timerId').isSome ↔
    timerId' ∈ FreshTimer.live (run.timer.unset timerId).2.inner

theorem BufferedTimer.unset_of_none {timer : BufferedTimer T A} {timerId : TimerId} (hnone : timer.attached timerId = none) :
    timer.unset timerId = ((Timer.unset timer.inner timerId).1, { timer with inner := (Timer.unset timer.inner timerId).2 }) := by
  have hattached : Function.update timer.attached timerId none = timer.attached := by
    rw [← hnone, Function.update_eq_self]
  simp [BufferedTimer.unset, hnone, hattached]

theorem Attached.unsets (h : Attached run) {timerId : TimerId} (hnone : run.timer.attached timerId = none) :
    Unsets run timerId := by
  have hdead := h.not_live hnone
  have hlive := FreshTimer.live_unset (fun hmem => absurd hmem hdead)
  rw [← h.live] at hdead
  constructor
  case succeeds => exact fun hmem => absurd hmem hdead
  case fails =>
    intro error _
    rw [BufferedTimer.unset_of_none hnone]
    exact ⟨rfl, hlive⟩
  case attached =>
    intro timerId'
    rw [BufferedTimer.unset_of_none hnone, hlive]
    exact h.attached timerId'

theorem unset_attached_iff (h : (callMachine T A M BufferedTimer.unset).Reach SparesAttached run) :
    (∀ timerId, (run.timer.attached timerId).isSome ↔ timerId ∈ FreshTimer.live run.timer.inner) ∧
      ∀ timerId, Unsets run timerId ↔ run.timer.attached timerId = none := by
  have hattached : Attached run := by
    refine attached_of_reach (fun run timerId hattached hc => ?_) h
    have hnone := hc timerId rfl
    exact hattached.unset_inner (BufferedTimer.unset_of_none hnone) fun hmem => absurd hmem (hattached.not_live hnone)
  refine ⟨hattached.attached, fun timerId => ⟨fun hunsets => ?_, hattached.unsets⟩⟩
  by_contra hsome
  obtain ⟨a, ha⟩ := Option.ne_none_iff_exists'.mp hsome
  have hlive : timerId ∈ run.live := (hattached.live timerId).mpr ((hattached.attached timerId).mp (by simp [ha]))
  -- the check is the wrong way round
  have hresult := (hunsets.succeeds hlive).1
  simp [BufferedTimer.unset, ha] at hresult

/-! ## The type-erased version -/

/-- No timer that is live is unset, unless the inner timer refuses. -/
def SparesLive (run : Run T A) (call : Call T A) : Prop :=
  ∀ timerId, call = .unset timerId → timerId ∈ FreshTimer.live run.timer.inner →
    (Timer.unset run.timer.inner timerId).1 ≠ .ok ()

theorem attached_live_iff (h : (callMachine T A M Erased.unset).Reach SparesLive run) :
    (∀ timerId, (run.timer.attached timerId).isSome ↔ timerId ∈ run.live) ∧
      (∀ period event timerId inner, Timer.set run.timer.inner period = (.ok timerId, inner) →
        (run.timer.set period event).1 = .ok timerId) ∧
      ∀ timerId, (∀ timerId', ((run.call Erased.unset (.unset timerId)).timer.attached timerId').isSome ↔
          timerId' ∈ (run.call Erased.unset (.unset timerId)).live) ↔ SparesLive run (.unset timerId) := by
  have hattached : Attached run := by
    refine attached_of_reach (fun run timerId hattached hc => ?_) h
    exact hattached.unset_inner rfl (hc timerId rfl)
  have hkeys {run : Run T A} (h : Attached run) (timerId : TimerId) :
      (run.timer.attached timerId).isSome ↔ timerId ∈ run.live := by
    rw [h.attached, h.live]
  refine ⟨hkeys hattached, fun period event timerId inner hset => ?_, fun timerId => ⟨fun hafter => ?_, fun hspares => ?_⟩⟩
  · rw [hattached.set_eq hset]
  · rintro _ hcall hmem hok
    cases hcall
    cases hinner : Timer.unset run.timer.inner timerId with
    | mk result inner =>
      rw [hinner] at hok
      cases hok
      -- the attachment is still there
      have hkey := (hafter timerId).mp
      simp only [Run.call, Erased.unset, hinner, Run.live, TimerCall.live_unset] at hkey
      have hmem' := hkey ((hattached.attached timerId).mpr hmem)
      simp at hmem'
  · exact hkeys (hattached.unset_inner rfl (hspares timerId rfl))

end

/-! ## The timer of a blocking run -/

/-- The timer, and what its clock reads. -/
abbrev OrderedTimer := { timer : Ordered.Timer × Nat // Ordered.Consistent timer.1 }

namespace OrderedTimer

def set (self : OrderedTimer) (period : Nat) : Except Error TimerId × OrderedTimer :=
  let result := self.1.1.set self.1.2 period
  (result.1, ⟨(result.2, self.1.2), self.2.set_snd self.1.2 period⟩)

def unset (self : OrderedTimer) (timerId : TimerId) : Except Error Unit × OrderedTimer :=
  let result := self.1.1.unset timerId
  (result.1, ⟨(result.2, self.1.2), self.2.unset_snd timerId⟩)

instance : UnsetTimer OrderedTimer where
  set := set
  unset := unset
  live self := { timerId | ∃ state, self.1.1.states.lookup timerId.id = some state }
  set_ok := by
    rintro ⟨⟨timer, now⟩, h⟩ period timerId hok
    by_cases hlt : timer.id.toNat + 1 < 2 ^ 32
    · simp only [set, Ordered.Consistent.set_eq hlt] at hok ⊢
      cases hok
      refine ⟨by simp [h.lookup_next hlt], Set.ext fun timerId' => ?_⟩
      obtain ⟨id⟩ := timerId'
      by_cases hid : id = timer.id + 1
      · simp [hid]
      · simp [hid, Table.lookup_insert]
    · simp only [set, Ordered.Consistent.set_eq_error hlt] at hok
      cases hok
  set_error := by
    rintro ⟨⟨timer, now⟩, h⟩ period error herror
    by_cases hlt : timer.id.toNat + 1 < 2 ^ 32
    · simp only [set, Ordered.Consistent.set_eq hlt] at herror
      cases herror
    · simp only [set, Ordered.Consistent.set_eq_error hlt]
  unset_ok := by
    rintro ⟨⟨timer, now⟩, h⟩ ⟨id⟩ hok
    cases hstate : timer.states.lookup id with
    | none => simp [unset, Ordered.Timer.unset, hstate] at hok
    | some state =>
      have hunset := h.unset_eq (show timer.states.lookup (⟨id⟩ : TimerId).id = some state from hstate)
      refine Set.ext fun timerId' => ?_
      obtain ⟨id'⟩ := timerId'
      by_cases hid : id' = id
      · simp [unset, hunset, hid]
      · simp [unset, hunset, hid, Table.lookup_remove]
  unset_error := by
    rintro ⟨⟨timer, now⟩, h⟩ timerId error herror
    cases hstate : timer.states.lookup timerId.id with
    | none => simp [unset, Ordered.Timer.unset, hstate]
    | some state => simp [unset, h.unset_eq hstate] at herror
  unset_live := by
    rintro ⟨⟨timer, now⟩, h⟩ timerId ⟨state, hstate⟩
    simp [unset, h.unset_eq hstate]

end OrderedTimer

/-! ## A timer that is set, and unset -/

instance : Closure Unit Unit := ⟨fun _ => ((), ())⟩

/-- No timer is set yet. -/
def Run.new : Run OrderedTimer Unit := { timer := { inner := ⟨({}, 0), .new⟩ } }

section
variable {unset : Unset OrderedTimer Unit} {C : Run OrderedTimer Unit → Call OrderedTimer Unit → Prop}

theorem reach_new : (callMachine OrderedTimer Unit Unit unset).Reach C .new := by
  refine .init ⟨Set.eq_empty_of_forall_notMem fun timerId => ?_, rfl⟩
  simp [Run.new, FreshTimer.live]

theorem reach_set (hc : C .new (.set 5 ())) : (callMachine OrderedTimer Unit Unit unset).Reach C (Run.new.call unset (.set 5 ())) :=
  .next reach_new hc ⟨rfl, nofun⟩

end

theorem unset_attached_iff_one : (∀ timerId, ((Run.new.call BufferedTimer.unset (.set 5 ())).timer.attached timerId).isSome ↔
      timerId ∈ FreshTimer.live (Run.new.call BufferedTimer.unset (.set 5 ())).timer.inner) ∧
    ∀ timerId, Unsets (Run.new.call BufferedTimer.unset (.set 5 ())) timerId ↔
      (Run.new.call BufferedTimer.unset (.set 5 ())).timer.attached timerId = none :=
  unset_attached_iff (reach_set nofun)

theorem unset_attached_fails : ¬∀ run, (callMachine OrderedTimer Unit Unit BufferedTimer.unset).Reach Machine.always run →
    ∀ timerId, Unsets run timerId := by
  intro hclaim
  have hunsets := hclaim _ (reach_set trivial) ⟨1⟩
  have hresult := (hunsets.succeeds (by decide)).1
  exact nomatch hresult

/-- A run of the type-erased version in which the timer has been set. -/
def Run.one : Run OrderedTimer Unit := Run.new.call Erased.unset (.set 5 ())

theorem attached_live_iff_one : (∀ timerId, (Run.one.timer.attached timerId).isSome ↔ timerId ∈ Run.one.live) ∧
    (∀ period event timerId inner, Timer.set Run.one.timer.inner period = (.ok timerId, inner) →
      (Run.one.timer.set period event).1 = .ok timerId) ∧
    ∀ timerId, (∀ timerId', ((Run.one.call Erased.unset (.unset timerId)).timer.attached timerId').isSome ↔
        timerId' ∈ (Run.one.call Erased.unset (.unset timerId)).live) ↔ SparesLive Run.one (.unset timerId) :=
  attached_live_iff (reach_set nofun)

theorem attached_live_fails : ¬∀ run, (callMachine OrderedTimer Unit Unit Erased.unset).Reach Machine.always run →
    ∀ timerId, (run.timer.attached timerId).isSome ↔ timerId ∈ run.live := by
  intro hclaim
  have hkeys := hclaim _ (.next (reach_set trivial) trivial ⟨rfl, nofun⟩ :
    (callMachine OrderedTimer Unit Unit Erased.unset).Reach Machine.always (Run.one.call Erased.unset (.unset ⟨1⟩))) ⟨1⟩
  exact absurd (hkeys.mp (by decide)) (by decide)

end Neatworks.Event
