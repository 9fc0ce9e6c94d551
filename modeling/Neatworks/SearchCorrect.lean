import Mathlib.Data.Set.Finite.Lattice
import Neatworks.SearchRun

/-!
# Breadth-first search is exhaustive, and its traces are shortest

`breadthFirst_exhaustive`: on finitely many dry states the search returns, and
it returns `SpaceExhausted` exactly when the space is `Exhausted`.
`breadthFirst_trace_shortest`: the trace of a reported state or step is a
shortest unpruned path to it, and rebuilding it never fails.
-/

namespace Neatworks.Search

section
variable {S T E ε : Type*} [State S E ε] (dry : S → T) (settings : Settings S ε) (initial : S)

/-- The listed events lead from the first state to the last one, through
states with the listed dry forms. -/
inductive Follows : S → List (E × T) → S → Prop
  | nil {s : S} : Follows s [] s
  | cons {s s' z : S} {event : E} {t : T} {tr : List (E × T)} : event ∈ State.events s →
      State.step s event = .ok s' → dry s' = t → Follows s' tr z → Follows s ((event, t) :: tr) z

/-- `tr` leads from the initial state to `z` and no unpruned path to the dry
form of `z` has fewer events. -/
structure ShortestTrace (tr : List (E × T)) (z : S) : Prop where
  follows : Follows dry initial tr z
  path : Path settings initial tr.length z
  shortest : ∀ n s, Path settings initial n s → dry s = dry z → tr.length ≤ n

variable {dry settings initial}

theorem Follows.snoc {s z z' : S} {event : E} {tr : List (E × T)} (h : Follows dry s tr z)
    (he : event ∈ State.events z) (hs : State.step z event = .ok z') :
    Follows dry s (tr ++ [(event, dry z')]) z' := by
  induction h with
  | nil => exact .cons he hs rfl .nil
  | cons he' hs' hd _ ih => exact .cons he' hs' hd (ih he hs)

theorem trace_spec (law : Lawful dry settings initial) {D : Discovered T E}
    (hD : Entries dry settings initial D) :
    ∀ (fuel : Nat) (t : T) (info : StateInfo T E), D t = some info → info.depth < fuel →
      ∃ tr z, trace D fuel t = some (.ok tr) ∧ tr.length = info.depth ∧ dry z = t ∧
        Follows dry initial tr z ∧ Path settings initial tr.length z := by
  intro fuel
  induction fuel with
  | zero => intro t info _ h; exact absurd h (Nat.not_lt_zero _)
  | succ fuel ih =>
    intro t info hi hlt
    rcases hD.prev t info hi with ⟨hnone, rfl⟩ | ⟨event, t', info', hprev, hi', hdep, ho, hedge⟩
    · have h0 : info.depth = 0 := (hD.first _ _ hi).unique first_root
      exact ⟨[], initial, by simp only [trace, hi, hnone], h0.symm, rfl, .nil, .initial⟩
    · obtain ⟨tr, z, htr, hlen, hz, hfol, hpath⟩ := ih t' info' hi' (by omega)
      obtain ⟨s, s', hs, hds, he, hstep, rfl⟩ := hedge
      obtain ⟨he', z', hstep', hd'⟩ := law.step_ok hs hpath.reachable (hds.trans hz.symm) he hstep
      have ho' : tr.length = 0 ∨ settings.prune z = false := by
        rw [hlen]
        exact ho.imp_right fun h => law.prune_of_open hpath.reachable (hz ▸ h)
      refine ⟨tr ++ [(event, dry s')], z', ?_, ?_, hd'.symm, ?_, ?_⟩
      · simp only [trace, hi, hprev, htr]
      · rw [List.length_append, hlen, hdep]; rfl
      · rw [hd']; exact hfol.snoc he' hstep'
      · rw [List.length_append]; exact .step hpath ho' he' hstep'

theorem trace_shortest (law : Lawful dry settings initial) {D : Discovered T E}
    (hD : Entries dry settings initial D) (fuel : Nat) {d : Nat} {t : T} (hk : Known D t)
    (hf : DryFirst dry settings initial d t) (hlt : d < fuel) :
    ∃ tr z, trace D fuel t = some (.ok tr) ∧ dry z = t ∧ ShortestTrace dry settings initial tr z := by
  obtain ⟨info, hi⟩ := hk
  have hdep : info.depth = d := (hD.first _ _ hi).unique hf
  obtain ⟨tr, z, htr, hlen, hz, hfol, hpath⟩ := trace_spec law hD fuel t info hi (by omega)
  refine ⟨tr, z, htr, hz, hfol, hpath, fun n s hs hd => ?_⟩
  rw [hlen, hdep]
  refine hf.2 n ?_
  have := hs.level dry
  rwa [hd, hz] at this

theorem trace_mono {D : Discovered T E} : ∀ (fuel : Nat) (t : T) (x : Except Panic (List (E × T))),
    trace D fuel t = some x → trace D (fuel + 1) t = some x := by
  intro fuel
  induction fuel with
  | zero => intro t x h; cases h
  | succ fuel ih =>
    intro t x h
    rw [trace] at h ⊢
    cases hD : D t with
    | none => simp only [hD] at h ⊢; exact h
    | some info =>
      simp only [hD] at h ⊢
      cases hp : info.prev with
      | none => simp only [hp] at h ⊢; exact h
      | some p =>
        simp only [hp] at h ⊢
        cases ht : trace D fuel p.2 with
        | none => simp only [ht] at h; cases h
        | some y => rw [ih p.2 y ht]; simp only [ht] at h; exact h

/-! ## The result of `breadth_first` -/

variable (dry settings initial) in
/-- What a result says: a trace that is real and shortest, or a clean space.
`v` is the state the search itself holds; `z` ends the trace from the initial
state and has the same dry form. -/
def Reported : SearchResult S T E ε → Prop
  | .err tr event err => ∃ z v, ShortestTrace dry settings initial tr z ∧ event ∈ State.events z ∧
      (∃ err', State.step z event = .error err') ∧
      Reachable initial v ∧ dry v = dry z ∧ State.step v event = .error err
  | .invariantViolation tr err => ∃ z v, ShortestTrace dry settings initial tr z ∧ ¬ Holds settings z ∧
      Reachable initial v ∧ dry v = dry z ∧ settings.invariant v = .error err
  | .goalFound s => Reachable initial s ∧ settings.goal s = true ∧ ¬ Exhausted dry settings initial
  | .spaceExhausted => Exhausted dry settings initial
  | .timeout => False

section
variable [DecidableEq T]

/-- Once the worker returns, so does the search, and its result is right. -/
theorem breadthFirst_spec (law : Lawful dry settings initial) {fuel : Nat}
    {x : Except Panic (SearchWorkerResult S E ε × Discovered T E)}
    (hx : breathFirstWorker dry settings fuel 0 [(initial, dry initial)] (initialDiscovered (dry initial)) = some x) :
    ∃ r, breadthFirst dry settings fuel initial = some (.ok r) ∧ Reported dry settings initial r ∧
      (r = .spaceExhausted ∨ ¬ Exhausted dry settings initial) := by
  have hout := worker_spec law fuel 0 _ _ x layer_initial hx
  cases x with
  | error p => exact hout.elim
  | ok y =>
    obtain ⟨r, D⟩ := y
    obtain ⟨hD, ⟨rfl, hex⟩ | ⟨k, hk, hb, hv⟩⟩ := hout
    · exact ⟨.spaceExhausted, by simp only [breadthFirst, hx], hex, Or.inl rfl⟩
    have hnot := verdict_not_exhausted law hb hv
    cases r with
    | error s event err =>
      obtain ⟨hq, hkn, he, hs⟩ := hv
      obtain ⟨tr, z, htr, hz, hshort⟩ := trace_shortest law hD (fuel + 1) hkn hq.first (by omega)
      refine ⟨.err tr event err, ?_, ?_, Or.inr hnot⟩
      · simp only [breadthFirst, hx, htr]; rfl
      · have hzr := hshort.path.reachable
        obtain ⟨he', herr⟩ := law.step_error hq.reachable hzr hz.symm he hs
        exact ⟨z, s, hshort, he', herr, hq.reachable, hz.symm, hs⟩
    | invariantViolation s err =>
      obtain ⟨hs, hf, hkn, hinv⟩ := hv
      obtain ⟨tr, z, htr, hz, hshort⟩ := trace_shortest law hD (fuel + 1) hkn hf (by omega)
      refine ⟨.invariantViolation tr err, ?_, ?_, Or.inr hnot⟩
      · simp only [breadthFirst, hx, htr]; rfl
      · have hzr := hshort.path.reachable
        refine ⟨z, s, hshort, fun hz' => ?_, hs, hz.symm, hinv⟩
        have := (law.invariant z s hzr hs hz).mp hz'
        unfold Holds at this
        rw [hinv] at this; cases this
    | goalFound s =>
      obtain ⟨hs, _, hgoal⟩ := hv
      exact ⟨.goalFound s, by simp only [breadthFirst, hx], ⟨hs, hgoal, hnot⟩, Or.inr hnot⟩
    | spaceExhausted => exact hv.elim

theorem breadthFirst_mono {fuel : Nat} {x : Except Panic (SearchResult S T E ε)}
    (h : breadthFirst dry settings fuel initial = some x) :
    breadthFirst dry settings (fuel + 1) initial = some x := by
  unfold breadthFirst at h ⊢
  dsimp only at h ⊢
  cases hw : breathFirstWorker dry settings fuel 0 [(initial, dry initial)] (initialDiscovered (dry initial)) with
  | none => rw [hw] at h; cases h
  | some y =>
    have htr : ∀ (D : Discovered T E) (t : T) (f : List (E × T) → SearchResult S T E ε),
        (trace D (fuel + 1) t).map (·.map f) = some x →
        (trace D (fuel + 1 + 1) t).map (·.map f) = some x := by
      intro D t f ht
      cases hD : trace D (fuel + 1) t with
      | none => rw [hD] at ht; cases ht
      | some z => rw [trace_mono _ _ _ hD, ← hD]; exact ht
    rw [worker_mono fuel 0 _ _ y hw]
    rw [hw] at h
    cases y with
    | error p => exact h
    | ok y =>
      obtain ⟨r, D⟩ := y
      cases r with
      | error s event err => exact htr _ _ _ h
      | invariantViolation s err => exact htr _ _ _ h
      | goalFound s => exact h
      | spaceExhausted => exact h

/-- The search of a finite space returns, and says `SpaceExhausted` exactly
when the space is. -/
theorem breadthFirst_exhaustive (law : Lawful dry settings initial)
    (hfin : Set.Finite {t | ∃ s, Reachable initial s ∧ dry s = t}) :
    ∃ (N : Nat) (r : SearchResult S T E ε),
      (∀ fuel, N ≤ fuel → breadthFirst dry settings fuel initial = some (.ok r)) ∧
      (r = .spaceExhausted ↔ Exhausted dry settings initial) := by
  have hR : ∀ s, Reachable initial s → dry s ∈ hfin.toFinset := fun s hs => by
    rw [Set.Finite.mem_toFinset]; exact ⟨s, hs, rfl⟩
  obtain ⟨x, hx⟩ := worker_returns law hR hfin.toFinset.card 0 _ _ layer_initial (by simp) (by omega)
  obtain ⟨r, hr, hrep, hor⟩ := breadthFirst_spec law hx
  refine ⟨hfin.toFinset.card, r, fun fuel hle => ?_, ?_⟩
  · induction fuel, hle using Nat.le_induction with
    | base => exact hr
    | succ n _ ih => exact breadthFirst_mono ih
  · constructor
    · rintro rfl; exact hrep
    · intro hex; exact hor.resolve_right fun h => h hex

/-- Whenever the worker of `breadth_first` returns, rebuilding the trace does
not fail; and the trace of an `InvariantViolation` or `Err` is a shortest
unpruned path to the reported state. -/
theorem breadthFirst_trace_shortest (law : Lawful dry settings initial) (fuel : Nat) :
    ((breathFirstWorker dry settings fuel 0 [(initial, dry initial)]
        (initialDiscovered (dry initial))).isSome →
      ∃ r, breadthFirst dry settings fuel initial = some (.ok r)) ∧
    ∀ x, breadthFirst dry settings fuel initial = some x →
      ∃ r, x = .ok r ∧ Reported dry settings initial r := by
  refine ⟨fun h => ?_, fun x h => ?_⟩
  · obtain ⟨x, hx⟩ := Option.isSome_iff_exists.mp h
    obtain ⟨r, hr, _⟩ := breadthFirst_spec law hx
    exact ⟨r, hr⟩
  · cases hw : breathFirstWorker dry settings fuel 0 [(initial, dry initial)] (initialDiscovered (dry initial)) with
    | none =>
      unfold breadthFirst at h
      dsimp only at h
      rw [hw] at h; cases h
    | some y =>
      obtain ⟨r, hr, hrep, _⟩ := breadthFirst_spec law hw
      rw [hr] at h
      cases h
      exact ⟨r, rfl, hrep⟩

end
end

/-! ## A ring of three positions -/

/-- The dry form forgets `laps`, so finitely many dry states stand for
infinitely many states. -/
structure Ring where
  position : Nat
  laps : Nat

instance : State Ring Unit String where
  events _ := [()]
  step r _ := .ok ⟨(r.position + 1) % 3, r.laps + 1⟩

def ringSettings : Settings Ring String where
  invariant r := if r.position = 2 then .error "two" else .ok ()
  goal _ := false
  prune _ := false
  maxDepth := none

theorem ring_lawful : Lawful Ring.position ringSettings ⟨0, 0⟩ where
  events _ _ _ _ _ := rfl
  step s₁ s₂ _ _ h _ _ := by simp [State.step, SameDry, h]
  invariant s₁ s₂ _ _ h := by simp [Holds, ringSettings, h]
  goal _ _ _ _ _ := rfl
  prune _ _ _ _ _ := rfl

theorem ring_finite : Set.Finite {t | ∃ s : Ring, Reachable ⟨0, 0⟩ s ∧ s.position = t} := by
  refine (Set.finite_lt_nat 3).subset ?_
  rintro t ⟨s, hs, rfl⟩
  cases hs with
  | initial => exact Nat.zero_lt_succ _
  | step _ _ h =>
    simp only [State.step, Except.ok.injEq] at h
    subst h
    exact Nat.mod_lt _ (by decide)

theorem ring_exhaustive : ∃ (N : Nat) (r : SearchResult Ring Nat Unit String),
    (∀ fuel, N ≤ fuel → breadthFirst Ring.position ringSettings fuel ⟨0, 0⟩ = some (.ok r)) ∧
      (r = .spaceExhausted ↔ Exhausted Ring.position ringSettings ⟨0, 0⟩) :=
  breadthFirst_exhaustive ring_lawful ring_finite

theorem ring_trace_shortest :
    ((breathFirstWorker Ring.position ringSettings 4 0 [(⟨0, 0⟩, 0)] (initialDiscovered 0)).isSome →
      ∃ r, breadthFirst Ring.position ringSettings 4 ⟨0, 0⟩ = some (.ok r)) ∧
    ∀ x, breadthFirst Ring.position ringSettings 4 ⟨0, 0⟩ = some x →
      ∃ r, x = .ok r ∧ Reported Ring.position ringSettings ⟨0, 0⟩ r :=
  breadthFirst_trace_shortest ring_lawful 4

example : breadthFirst Ring.position ringSettings 4 ⟨0, 0⟩ =
    some (.ok (.invariantViolation [((), 1), ((), 2)] "two")) := rfl

end Neatworks.Search
