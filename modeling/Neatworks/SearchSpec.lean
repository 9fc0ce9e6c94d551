import Mathlib.Data.Set.Finite.Basic
import Neatworks.Levels
import Neatworks.Search

/-!
# What a search explores

States reachable by enabled events, the paths that leave no pruned state after
the initial one, and the assumption on the dry map: states with equal dry form
have the same events, equal dry successors and the same answers of the
settings. Under it the search runs on the graph of dry states (`Edge`), whose
levels are those of the paths.
-/

namespace Neatworks.Search

section
variable {S T E ε : Type*} [State S E ε] (dry : S → T) (settings : Settings S ε) (initial : S)

inductive Reachable : S → Prop
  | initial : Reachable initial
  | step {s s' : S} {event : E} : Reachable s → event ∈ State.events s →
      State.step s event = .ok s' → Reachable s'

/-- `n` steps from the initial state, no intermediate state after it pruned. -/
inductive Path : Nat → S → Prop
  | initial : Path 0 initial
  | step {n : Nat} {s s' : S} {event : E} : Path n s → n = 0 ∨ settings.prune s = false →
      event ∈ State.events s → State.step s event = .ok s' → Path (n + 1) s'

/-- Both steps fail, or both succeed with equal dry forms. -/
def SameDry : Except ε S → Except ε S → Prop
  | .ok s, .ok s' => dry s = dry s'
  | .error _, .error _ => True
  | _, _ => False

def Holds (s : S) : Prop := settings.invariant s = .ok ()

/-- The assumption on `State`, its dry map and the settings. -/
structure Lawful : Prop where
  events : ∀ s₁ s₂, Reachable initial s₁ → Reachable initial s₂ → dry s₁ = dry s₂ →
    State.events s₁ = State.events s₂
  step : ∀ s₁ s₂, Reachable initial s₁ → Reachable initial s₂ → dry s₁ = dry s₂ →
    ∀ event ∈ State.events s₁, SameDry dry (State.step s₁ event) (State.step s₂ event)
  invariant : ∀ s₁ s₂, Reachable initial s₁ → Reachable initial s₂ → dry s₁ = dry s₂ →
    (Holds settings s₁ ↔ Holds settings s₂)
  goal : ∀ s₁ s₂, Reachable initial s₁ → Reachable initial s₂ → dry s₁ = dry s₂ →
    settings.goal s₁ = settings.goal s₂
  prune : ∀ s₁ s₂, Reachable initial s₁ → Reachable initial s₂ → dry s₁ = dry s₂ →
    settings.prune s₁ = settings.prune s₂

/-- The invariant holds and the goal is not met. -/
def Clean (s : S) : Prop := Holds settings s ∧ settings.goal s = false

def WithinMax (n : Nat) : Prop := ∀ m, settings.maxDepth = some m → n ≤ m

def BelowMax (n : Nat) : Prop := ∀ m, settings.maxDepth = some m → n < m

/-! ## The graph of dry states -/

/-- `event` leads from dry state `t` to dry state `t'`. -/
def Edge (t : T) (event : E) (t' : T) : Prop :=
  ∃ s s', Reachable initial s ∧ dry s = t ∧ event ∈ State.events s ∧ State.step s event = .ok s' ∧ dry s' = t'

def DryNext (t t' : T) : Prop := ∃ event, Edge dry initial t event t'

def DryOpen (t : T) : Prop := ∃ s, Reachable initial s ∧ dry s = t ∧ settings.prune s = false

abbrev DryLevel : Nat → T → Prop := Level (DryNext dry initial) (DryOpen dry settings initial) (dry initial)

abbrev DryFirst : Nat → T → Prop := First (DryNext dry initial) (DryOpen dry settings initial) (dry initial)

/-- Every enabled event of a dry state steps to a dry state in `P`. -/
def Expanded (P : T → Prop) (t : T) : Prop :=
  ∀ s, Reachable initial s → dry s = t → ∀ event ∈ State.events s,
    ∃ s', State.step s event = .ok s' ∧ P (dry s')

variable {dry settings initial}

theorem Path.reachable {n : Nat} {s : S} (h : Path settings initial n s) : Reachable initial s := by
  induction h with
  | initial => exact .initial
  | step _ _ he hs ih => exact .step ih he hs

variable (dry) in
theorem Path.level {n : Nat} {s : S} (h : Path settings initial n s) :
    DryLevel dry settings initial n (dry s) := by
  induction h with
  | initial => exact .root
  | @step n s s' event hp ho he hs ih =>
    refine .step ih ?_ ⟨event, s, s', hp.reachable, rfl, he, hs, rfl⟩
    exact ho.imp_right fun h0 => ⟨s, hp.reachable, rfl, h0⟩

section
variable (law : Lawful dry settings initial)
include law

theorem Lawful.step_ok {s₁ s₂ s₁' : S} {event : E} (h₁ : Reachable initial s₁) (h₂ : Reachable initial s₂)
    (hd : dry s₁ = dry s₂) (he : event ∈ State.events s₁) (hs : State.step s₁ event = .ok s₁') :
    event ∈ State.events s₂ ∧ ∃ s₂', State.step s₂ event = .ok s₂' ∧ dry s₁' = dry s₂' := by
  refine ⟨law.events s₁ s₂ h₁ h₂ hd ▸ he, ?_⟩
  have := law.step s₁ s₂ h₁ h₂ hd event he
  rw [hs] at this
  cases h : State.step s₂ event with
  | error err => rw [h] at this; exact this.elim
  | ok s₂' => rw [h] at this; exact ⟨s₂', rfl, this⟩

theorem Lawful.step_error {s₁ s₂ : S} {event : E} {err : ε} (h₁ : Reachable initial s₁)
    (h₂ : Reachable initial s₂) (hd : dry s₁ = dry s₂) (he : event ∈ State.events s₁)
    (hs : State.step s₁ event = .error err) :
    event ∈ State.events s₂ ∧ ∃ err', State.step s₂ event = .error err' := by
  refine ⟨law.events s₁ s₂ h₁ h₂ hd ▸ he, ?_⟩
  have := law.step s₁ s₂ h₁ h₂ hd event he
  rw [hs] at this
  cases h : State.step s₂ event with
  | ok s₂' => rw [h] at this; exact this.elim
  | error err' => exact ⟨err', rfl⟩

theorem Lawful.not_open {s : S} (h : Reachable initial s) (hp : settings.prune s = true) :
    ¬ DryOpen dry settings initial (dry s) := by
  rintro ⟨s', h', hd, hp'⟩
  rw [law.prune s' s h' h hd, hp] at hp'
  cases hp'

theorem Lawful.prune_of_open {s : S} (h : Reachable initial s) (ho : DryOpen dry settings initial (dry s)) :
    settings.prune s = false := by
  cases hp : settings.prune s with
  | false => rfl
  | true => exact absurd ho (law.not_open h hp)

theorem Lawful.clean {s s' : S} (h : Reachable initial s) (h' : Reachable initial s') (hd : dry s = dry s')
    (hc : Clean settings s) : Clean settings s' :=
  ⟨(law.invariant s s' h h' hd).mp hc.1, (law.goal s s' h h' hd) ▸ hc.2⟩

theorem Lawful.path_of_level {n : Nat} {t : T} (h : DryLevel dry settings initial n t) :
    ∃ s, Path settings initial n s ∧ dry s = t := by
  induction h with
  | root => exact ⟨initial, .initial, rfl⟩
  | @step n u v _ ho hn ih =>
    obtain ⟨s, hs, rfl⟩ := ih
    obtain ⟨event, r, r', hr, hd, he, hstep, rfl⟩ := hn
    obtain ⟨he', s', hs', hd'⟩ := law.step_ok hr hs.reachable hd he hstep
    refine ⟨s', .step hs (ho.imp_right fun h0 => law.prune_of_open hs.reachable h0) he' hs', hd'.symm⟩

end

/-! ## A finite graph has finitely many levels -/

theorem DryLevel.reachable {n : Nat} {t : T} (h : DryLevel dry settings initial n t) :
    ∃ s, Reachable initial s ∧ dry s = t := by
  cases h with
  | root => exact ⟨initial, .initial, rfl⟩
  | step _ _ hn =>
    obtain ⟨event, s, s', hr, _, he, hs, hd⟩ := hn
    exact ⟨s', .step hr he hs, hd⟩

/-- The vertices first met at levels `0` to `d` are `d + 1` different ones. -/
theorem first_lt_card {R : Finset T} (hR : ∀ s, Reachable initial s → dry s ∈ R) {d : Nat} {t : T}
    (h : DryFirst dry settings initial d t) : d < R.card := by
  have hlev : ∀ m : Fin (d + 1), ∃ u, DryFirst dry settings initial m u := by
    intro m
    obtain ⟨u, hu, _⟩ := h.below (d - m)
    have hm : d - (d - m) = m := by omega
    exact ⟨u, hm ▸ hu⟩
  choose f hf using hlev
  have hinj : Function.Injective f := by
    intro a b hab
    have hb := hf b
    rw [← hab] at hb
    exact Fin.ext ((hf a).unique hb)
  have hmem : ∀ m ∈ (Finset.univ : Finset (Fin (d + 1))), f m ∈ R := by
    intro m _
    obtain ⟨s, hs, hd⟩ := DryLevel.reachable (hf m).1
    exact hd ▸ hR s hs
  have := Finset.card_le_card_of_injOn f hmem hinj.injOn
  rw [Finset.card_univ, Fintype.card_fin] at this
  exact this

end

end Neatworks.Search
