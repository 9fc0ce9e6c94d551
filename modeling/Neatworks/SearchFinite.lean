import Neatworks.SearchSingle

/-!
# Searches that end

Where a step leaves the state as it is or raises a bounded rank, the states are
finitely many; where no state but a goal is left as it is by every step, there
is a way to the goal. Then one worker ends, having found a goal, or having
exhausted the space if goals are pruned.
-/

namespace Neatworks.Search

section
variable {S T E ε : Type*} [State S E ε] {dry : S → T} {settings : Settings S ε} {initial : S}

/-! ## Ranked steps -/

/-- A step that changes the state raises the rank, which is bounded. -/
structure Ranked (initial : S) (rank : S → Nat) (bound : Nat) : Prop where
  le : ∀ s, Reachable initial s → rank s ≤ bound
  grows : ∀ s event s', Reachable initial s → event ∈ State.events s → State.step s event = .ok s' → s' = s ∨ rank s < rank s'

variable {rank : S → Nat} {bound : Nat}

theorem Ranked.last (h : Ranked initial rank bound) {s : S} (hs : Reachable initial s) :
    s = initial ∨ ∃ s₀ event, Reachable initial s₀ ∧ rank s₀ < rank s ∧ event ∈ State.events s₀ ∧
      State.step s₀ event = .ok s := by
  induction hs with
  | initial => exact Or.inl rfl
  | step hs he hstep ih =>
    rcases h.grows _ _ _ hs he hstep with heq | hlt
    · rw [heq]
      exact ih
    · exact Or.inr ⟨_, _, hs, hlt, he, hstep⟩

theorem next_finite (s : S) : Set.Finite {s' | ∃ event ∈ State.events s, State.step s event = .ok s'} := by
  have himage : Set.Finite {result | ∃ event ∈ State.events s, State.step s event = result} :=
    (List.finite_toSet (State.events s)).image (State.step s)
  exact himage.preimage (f := Except.ok) fun _ _ _ _ h => Except.ok.inj h

theorem Ranked.finite (h : Ranked initial rank bound) : Set.Finite {s | Reachable initial s} := by
  have hbelow : ∀ n, Set.Finite {s | Reachable initial s ∧ rank s ≤ n} := by
    intro n
    induction n with
    | zero =>
      refine (Set.finite_singleton initial).subset fun s ⟨hs, hrank⟩ => ?_
      rcases h.last hs with heq | ⟨_, _, _, hlt, _⟩
      · exact heq
      · omega
    | succ n ih =>
      refine ((Set.finite_singleton initial).union (ih.biUnion fun s _ => next_finite s)).subset fun s ⟨hs, hrank⟩ => ?_
      rcases h.last hs with heq | ⟨s₀, event, hs₀, hlt, he, hstep⟩
      · exact Or.inl heq
      · exact Or.inr (Set.mem_biUnion ⟨hs₀, by omega⟩ ⟨event, he, hstep⟩)
  exact (hbelow bound).subset fun s hs => ⟨hs, h.le s hs⟩

theorem Ranked.exists_reachable (h : Ranked initial rank bound) {P : S → Prop}
    (hsteps : ∀ s, Reachable initial s → ∀ event ∈ State.events s, ∃ s', State.step s event = .ok s')
    (hstays : ∀ s, Reachable initial s → (∀ event ∈ State.events s, State.step s event = .ok s) → P s) {s : S}
    (hs : Reachable initial s) : ∃ s', Reachable initial s' ∧ P s' := by
  obtain ⟨n, hn⟩ : ∃ n, bound - rank s ≤ n := ⟨_, Nat.le_refl _⟩
  induction n generalizing s with
  | zero =>
    refine ⟨s, hs, hstays s hs fun event he => ?_⟩
    obtain ⟨s', hstep⟩ := hsteps s hs event he
    rcases h.grows s event s' hs he hstep with heq | hlt
    · rw [hstep, heq]
    · have := h.le s' (.step hs he hstep)
      omega
  | succ n ih =>
    by_cases hall : ∀ event ∈ State.events s, State.step s event = .ok s
    · exact ⟨s, hs, hstays s hs hall⟩
    · obtain ⟨event, hall⟩ := not_forall.mp hall
      obtain ⟨he, hne⟩ := Classical.not_imp.mp hall
      obtain ⟨s', hstep⟩ := hsteps s hs event he
      rcases h.grows s event s' hs he hstep with heq | hlt
      · rw [heq] at hstep
        exact absurd hstep hne
      · exact ih (.step hs he hstep) (by omega)

theorem Reachable.path (hprune : ∀ s, Reachable initial s → settings.prune s = false) {s : S} (h : Reachable initial s) :
    ∃ n, Path settings initial n s := by
  induction h with
  | initial => exact ⟨0, .initial⟩
  | step hs he hstep ih =>
    obtain ⟨n, hpath⟩ := ih
    exact ⟨n + 1, .step hpath (Or.inr (hprune _ hs)) he hstep⟩

omit [State S E ε] in
theorem withinMax_none (h : settings.maxDepth = none) (n : Nat) : WithinMax settings n := fun m hm => by
  rw [h] at hm
  cases hm

/-! ## What is found -/

variable (dry settings initial)

/-- Every result that threads return meets `P`, and one worker returns some. -/
structure Finds (P : SearchWorkerResult S E ε → Prop) : Prop where
  result : ∀ [DecidableEq T] (timed : Bool) (numWorker : ℕ+) (σ : Threads S T E ε) r,
    (threads dry settings timed numWorker initial).Reach Machine.always σ → σ.caller = .joined (some r) → P r
  ends : ∀ [DecidableEq T], ∃ N, ∀ (turns : List Turn) (σ : Threads S T E ε),
    turns.foldlM (turn dry settings false) (spawned dry 1 initial) = some σ →
      turns.length ≤ N ∧ ((∀ t, turn dry settings false σ t = none) → ∃ r, σ.caller = .joined (some r))

variable {dry settings initial}

theorem one_worker_ends [DecidableEq T] (law : Lawful dry settings initial) (hfin : Set.Finite {s | Reachable initial s}) :
    ∃ N, ∀ (turns : List Turn) (σ : Threads S T E ε), turns.foldlM (turn dry settings false) (spawned dry 1 initial) = some σ →
      turns.length ≤ N ∧ ((∀ t, turn dry settings false σ t = none) → ∃ r, σ.caller = .joined (some r)) := by
  have hdry : Set.Finite {t | ∃ s, Reachable initial s ∧ dry s = t} := hfin.image dry
  have hR : ∀ s, Reachable initial s → dry s ∈ hdry.toFinset := fun s hs => hdry.mem_toFinset.mpr ⟨s, hs, rfl⟩
  obtain ⟨n, hn⟩ := exists_events_bound law hdry
  have hb : ∀ s : S, Reachable initial s → 2 * (State.events s).length + 2 ≤ 2 * n + 2 := fun s hs => by
    have := hn s hs
    omega
  refine ⟨(spawned dry 1 initial : Threads S T E ε).rank hdry.toFinset (2 * n + 2), fun turns σ hrun => ⟨?_, fun hnone => ?_⟩⟩
  · have := rank_run law hR hb ⟨0, sound_spawned 1⟩ hrun
    omega
  · have hreach : (threads dry settings false 1 initial).Reach Machine.always σ :=
      .of_foldlM (fun _ _ _ ht => ⟨trivial, ht⟩) (.init rfl) hrun
    obtain ⟨d, hsound⟩ := sound_reach law hreach
    rcases (no_turn_iff law hreach).mp hnone with ⟨r, hr⟩ | hstuck
    · cases r with
      | none => exact absurd (hsound.timed (by rw [hr]; rfl)) Bool.false_ne_true
      | some r => exact ⟨r, hr⟩
    · obtain ⟨l, hworkers, _⟩ := single_reach hreach
      obtain ⟨l₁, hl₁, hexited⟩ := hstuck.exited
      obtain ⟨l₂, hl₂, hwaiting⟩ := hstuck.waiting
      rw [hworkers] at hl₁ hl₂
      rw [List.mem_singleton.mp hl₁] at hexited
      rw [List.mem_singleton.mp hl₂, hexited] at hwaiting
      cases hwaiting

theorem exhausted_of_joined [DecidableEq T] (law : Lawful dry settings initial) {timed : Bool} {numWorker : ℕ+}
    {σ : Threads S T E ε} (h : (threads dry settings timed numWorker initial).Reach Machine.always σ)
    (hr : σ.caller = .joined (some .spaceExhausted)) : Exhausted dry settings initial := by
  obtain ⟨d, hs⟩ := sound_reach law h
  rcases hs.taken _ (by rw [hr]; rfl) with ⟨_, hexhausted⟩ | ⟨_, _, hv⟩
  · refine hexhausted.resolve_right ?_
    rintro ⟨⟨l, hl, hin⟩, _⟩
    rw [hs.joined _ hr l hl] at hin
    exact hin
  · exact hv.elim

/-- Where nothing is wrong, the result is a goal or an exhausted space. -/
theorem joined_cases [DecidableEq T] (law : Lawful dry settings initial)
    (hholds : ∀ s, Reachable initial s → Holds settings s)
    (hsteps : ∀ n s, Path settings initial n s → BelowMax settings n → ∀ event ∈ State.events s,
      ∃ s', State.step s event = .ok s') {timed : Bool} {numWorker : ℕ+} {σ : Threads S T E ε} {r : SearchWorkerResult S E ε}
    (h : (threads dry settings timed numWorker initial).Reach Machine.always σ) (hr : σ.caller = .joined (some r)) :
    (r = .spaceExhausted ∧ Exhausted dry settings initial) ∨
      ∃ s, r = .goalFound s ∧ Reachable initial s ∧ settings.goal s = true := by
  obtain ⟨d, hs⟩ := sound_reach law h
  rcases hs.taken r (by rw [hr]; rfl) with ⟨rfl, _⟩ | ⟨k, hbelow, hv⟩
  · exact Or.inl ⟨rfl, exhausted_of_joined law h hr⟩
  · cases r with
    | error s event err =>
      obtain ⟨hq, _, he, hfails⟩ := hv
      obtain ⟨z, hz, hd⟩ := law.path_of_level hq.first.1
      have he' : event ∈ State.events z := law.events _ _ hq.reachable hz.reachable hd.symm ▸ he
      obtain ⟨z', hstep⟩ := hsteps k z hz hbelow event he'
      obtain ⟨_, s', hok, _⟩ := law.step_ok hz.reachable hq.reachable hd he' hstep
      rw [hfails] at hok
      cases hok
    | invariantViolation s err =>
      obtain ⟨hs, _, _, hinv⟩ := hv
      have hok := hholds s hs
      unfold Holds at hok
      rw [hinv] at hok
      cases hok
    | goalFound s => exact Or.inr ⟨s, rfl, hv.1, hv.2.2⟩
    | spaceExhausted => exact hv.elim

section
variable (law : Lawful dry settings initial) (hranked : Ranked initial rank bound)
  (hholds : ∀ s, Reachable initial s → Holds settings s)
include law hranked hholds

/-- A goal that can be reached and is not met at once is found. -/
theorem finds_goal (hsteps : ∀ s, Reachable initial s → ∀ event ∈ State.events s, ∃ s', State.step s event = .ok s')
    (hgoal : ∃ s, Reachable initial s ∧ settings.goal s = true) (hinitial : settings.goal initial = false)
    (hprune : ∀ s, Reachable initial s → settings.prune s = false) (hdepth : settings.maxDepth = none) :
    Finds dry settings initial fun r => ∃ s, r = .goalFound s ∧ Reachable initial s ∧ settings.goal s = true := by
  refine ⟨fun timed numWorker σ r h hr => ?_, one_worker_ends law hranked.finite⟩
  rcases joined_cases law hholds (fun n s hpath _ => hsteps s hpath.reachable) h hr with ⟨_, hexhausted⟩ | hfound
  · obtain ⟨s, hs, hmet⟩ := hgoal
    obtain ⟨n, hpath⟩ := hs.path hprune
    have hclean := hexhausted.clean n s (withinMax_none hdepth n) hpath fun hdry => by
      rw [law.goal s initial hs .initial hdry, hinitial] at hmet
      cases hmet
    rw [hclean.2] at hmet
    cases hmet
  · exact hfound

/-- Without a goal the space is exhausted. -/
theorem finds_exhausted (hsteps : ∀ s, Reachable initial s → ∀ event ∈ State.events s, ∃ s', State.step s event = .ok s')
    (hgoal : ∀ s, settings.goal s = false) : Finds dry settings initial (· = .spaceExhausted) := by
  refine ⟨fun timed numWorker σ r h hr => ?_, one_worker_ends law hranked.finite⟩
  rcases joined_cases law hholds (fun n s hpath _ => hsteps s hpath.reachable) h hr with ⟨hr, _⟩ | ⟨s, _, _, hmet⟩
  · exact hr
  · rw [hgoal] at hmet
    cases hmet

/-- A step that fails is found if no goal is. -/
theorem finds_error (hgoal : ∀ s, Reachable initial s → settings.goal s = false)
    (hprune : ∀ s, Reachable initial s → settings.prune s = false) (hdepth : settings.maxDepth = none)
    (hfails : ∃ s, Reachable initial s ∧ ∃ event ∈ State.events s, ∃ err, State.step s event = .error err) :
    Finds dry settings initial fun r => ∃ s event err, r = .error s event err := by
  refine ⟨fun timed numWorker σ r h hr => ?_, one_worker_ends law hranked.finite⟩
  cases r with
  | error s event err => exact ⟨s, event, err, rfl⟩
  | spaceExhausted =>
    obtain ⟨s, hs, event, he, err, hfails⟩ := hfails
    obtain ⟨n, hpath⟩ := hs.path hprune
    have hexhausted := exhausted_of_joined law h hr
    obtain ⟨s', hok⟩ := hexhausted.steps n s (withinMax_none hdepth (n + 1)) hpath (Or.inr (hprune s hs)) event he
    rw [hfails] at hok
    cases hok
  | invariantViolation s err =>
    obtain ⟨d, hsound⟩ := sound_reach law h
    rcases hsound.taken _ (by rw [hr]; rfl) with ⟨hr', _⟩ | ⟨_, _, hs, _, _, hinv⟩
    · cases hr'
    · have hok := hholds s hs
      unfold Holds at hok
      rw [hinv] at hok
      cases hok
  | goalFound s =>
    obtain ⟨d, hsound⟩ := sound_reach law h
    rcases hsound.taken _ (by rw [hr]; rfl) with ⟨hr', _⟩ | ⟨_, _, hs, _, hmet⟩
    · cases hr'
    · rw [hgoal s hs] at hmet
      cases hmet

end

end

end Neatworks.Search
