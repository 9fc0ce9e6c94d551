import Neatworks.SearchEnds

/-!
# Random depth-first search by several threads

`search.rs`: `random_depth_first_worker`. A probe walks from the initial state
along events that `thread_rng` chooses; the choice is part of the turn. The
counters of probes and states only print.

Nothing is assumed of the dry map: the trace is the walk itself. Nor can the
workers get stuck, since none waits for another one.
-/

namespace Neatworks.Search

/-- Where a worker is: at the head of the outer loop, at the head of the loop
over the depth, before the flag is read at its end, and with the slot filled. -/
inductive Probe (S T E : Type*)
  | looping
  | probing (state : S) (trace : List (E × T)) (depth : Nat)
  | pausing (state : S) (trace : List (E × T)) (depth : Nat)
  | finishing
  | exited

def Probe.isExited {S T E : Type*} : Probe S T E → Bool
  | .exited => true
  | _ => false

structure Probes (S T E ε : Type*) where
  finished : SearchFinished (SearchResult S T E ε)
  workers : List (Probe S T E)
  caller : Caller (SearchResult S T E ε)

inductive ProbeTurn
  | worker (i choice : Nat)
  | caller (timeOut : Bool)
  deriving DecidableEq, Repr

section
variable {S T E ε : Type*} [State S E ε] (dry : S → T) (settings : Settings S ε) (initial : S)

/-- The next access of a worker to the slot or the flag. -/
def probeStep (choice : Nat) (fin : SearchFinished (SearchResult S T E ε)) :
    Probe S T E → Option (SearchFinished (SearchResult S T E ε) × Probe S T E)
  | .looping => if fin.flag then some (fin, .exited) else some (fin, .probing initial [] 0)
  | .probing state trace depth =>
    match State.events state with
    | [] => some (fin, .looping)
    | event :: events =>
      match (event :: events)[choice]? with
      | none => none
      | some event =>
        match State.step state event with
        | .error err => some (fin.getOrInsert (.err trace event err), .finishing)
        | .ok state =>
          let trace := trace ++ [(event, dry state)]
          match settings.invariant state with
          | .error err => some (fin.getOrInsert (.invariantViolation trace err), .finishing)
          | .ok () =>
            if settings.goal state then some (fin.getOrInsert (.goalFound state), .finishing)
            else if settings.prune state || !belowMax settings depth then some (fin, .looping)
            else some (fin, .pausing state trace depth)
  | .pausing state trace depth =>
    if fin.flag then some (fin, .looping) else some (fin, .probing state trace (depth + 1))
  | .finishing => some (fin.store, .looping)
  | .exited => none

def probeTurn (timed : Bool) (σ : Probes S T E ε) : ProbeTurn → Option (Probes S T E ε)
  | .worker i choice =>
    match σ.workers[i]? with
    | none => none
    | some l =>
      match probeStep dry settings initial choice σ.finished l with
      | none => none
      | some (fin, l) => some { σ with finished := fin, workers := σ.workers.set i l }
  | .caller timeOut =>
    match callerStep timed timeOut (σ.workers.all (·.isExited)) σ.finished σ.caller with
    | none => none
    | some (fin, caller) => some { σ with finished := fin, caller := caller }

/-- `random_depth_first`. -/
def probes (timed : Bool) (numWorker : ℕ+) : Machine (Probes S T E ε) ProbeTurn where
  init σ := σ = ⟨⟨none, false⟩, List.replicate numWorker .looping, .waiting⟩
  next σ t σ' := probeTurn dry settings initial timed σ t = some σ'

/-- `result.unwrap_or(SearchResult::Timeout)`. -/
def probeResult (result : Option (SearchResult S T E ε)) : SearchResult S T E ε := result.getD .timeout

/-! ## What a probe finds is real -/

/-- A walk that goes on from `z`. -/
structure Walked (trace : List (E × T)) (z : S) : Prop where
  follows : Follows dry initial trace z
  path : Path settings initial trace.length z
  unpruned : trace.length = 0 ∨ settings.prune z = false
  below : BelowMax settings trace.length

/-- What a result of the random search says, of the very state it walked to. -/
def Probed : SearchResult S T E ε → Prop
  | .err trace event err => ∃ z, Walked dry settings initial trace z ∧ event ∈ State.events z ∧
      State.step z event = .error err
  | .invariantViolation trace err => ∃ z, Follows dry initial trace z ∧ Path settings initial trace.length z ∧
      WithinMax settings trace.length ∧ settings.invariant z = .error err
  | .goalFound s => ∃ n, Path settings initial n s ∧ WithinMax settings n ∧ settings.goal s = true
  | .spaceExhausted => False
  | .timeout => False

def Probe.Sound : Probe S T E → Prop
  | .probing state trace depth => Walked dry settings initial trace state ∧ trace.length = depth
  | .pausing state trace depth => Walked dry settings initial trace state ∧ trace.length = depth + 1
  | _ => True

structure ProbesSound (timed : Bool) (σ : Probes S T E ε) : Prop where
  workers : ∀ l ∈ σ.workers, l.Sound dry settings initial
  slot : ∀ r, σ.finished.result = some r → Probed dry settings initial r
  taken : ∀ r, σ.caller.outcome = some (some r) → Probed dry settings initial r
  timed : σ.caller.outcome = some none → timed = true

variable {dry settings initial} {timed : Bool} {σ σ' : Probes S T E ε} {fin fin' : SearchFinished (SearchResult S T E ε)}
  {l l' : Probe S T E} {choice : Nat}

/-- One more step of a walk. -/
theorem Walked.step {trace : List (E × T)} {z z' : S} {event : E} (h : Walked dry settings initial trace z)
    (he : event ∈ State.events z) (hs : State.step z event = .ok z') :
    Follows dry initial (trace ++ [(event, dry z')]) z' ∧
      Path settings initial (trace ++ [(event, dry z')]).length z' ∧
      WithinMax settings (trace ++ [(event, dry z')]).length := by
  rw [List.length_append, List.length_singleton]
  exact ⟨h.follows.snoc he hs, .step h.path h.unpruned he hs, h.below⟩

theorem probeStep_sound (hl : l.Sound dry settings initial)
    (h : probeStep dry settings initial choice fin l = some (fin', l')) :
    l'.Sound dry settings initial ∧ (∀ r, fin'.result = some r → fin.result = some r ∨ Probed dry settings initial r) := by
  cases l with
  | looping =>
    simp only [probeStep] at h
    split at h <;> cases h
    · exact ⟨trivial, fun _ => Or.inl⟩
    · exact ⟨⟨⟨.nil, .initial, Or.inl rfl, fun m _ => m.pos⟩, rfl⟩, fun _ => Or.inl⟩
  | probing state trace depth =>
    obtain ⟨hw, rfl⟩ := hl
    simp only [probeStep] at h
    split at h
    · cases h
      exact ⟨trivial, fun _ => Or.inl⟩
    · next hevents =>
      split at h
      · cases h
      · next event hchoice =>
        have he : event ∈ State.events state := hevents ▸ List.mem_of_getElem? hchoice
        split at h
        · next hs =>
          cases h
          refine ⟨trivial, fun r hr => (getOrInsert_cases hr).imp_right ?_⟩
          rintro rfl
          exact ⟨state, hw, he, hs⟩
        · next state' hs =>
          obtain ⟨hfollows, hpath, hwithin⟩ := hw.step he hs
          split at h
          · next hinv =>
            cases h
            refine ⟨trivial, fun r hr => (getOrInsert_cases hr).imp_right ?_⟩
            rintro rfl
            exact ⟨state', hfollows, hpath, hwithin, hinv⟩
          · split at h
            · next hgoal =>
              cases h
              refine ⟨trivial, fun r hr => (getOrInsert_cases hr).imp_right ?_⟩
              rintro rfl
              exact ⟨_, hpath, hwithin, hgoal⟩
            · split at h <;> cases h
              · exact ⟨trivial, fun _ => Or.inl⟩
              · next hgo =>
                simp only [Bool.or_eq_true, Bool.not_eq_true', not_or, Bool.not_eq_true, Bool.not_eq_false] at hgo
                have hbelow : BelowMax settings (trace ++ [(event, dry state')]).length := by
                  intro m hm
                  have hle := hwithin m hm
                  have hne := belowMax_iff.mp hgo.2 m hm
                  rw [List.length_append, List.length_singleton] at hle ⊢
                  omega
                exact ⟨⟨⟨hfollows, hpath, Or.inr hgo.1, hbelow⟩, by simp⟩, fun _ => Or.inl⟩
  | pausing state trace depth =>
    simp only [probeStep] at h
    split at h <;> cases h
    · exact ⟨trivial, fun _ => Or.inl⟩
    · exact ⟨hl, fun _ => Or.inl⟩
  | finishing =>
    cases h
    exact ⟨trivial, fun _ => Or.inl⟩
  | exited => cases h

theorem probesSound_turn {t : ProbeTurn} (hs : ProbesSound dry settings initial timed σ)
    (ht : probeTurn dry settings initial timed σ t = some σ') : ProbesSound dry settings initial timed σ' := by
  cases t with
  | worker i choice =>
    simp only [probeTurn] at ht
    split at ht
    · cases ht
    · next hl =>
      split at ht <;> cases ht
      next hstep =>
      obtain ⟨hsound, hslot⟩ := probeStep_sound (hs.workers _ (List.mem_of_getElem? hl)) hstep
      refine ⟨fun k hk => ?_, fun r hr => (hslot r hr).elim (hs.slot r) id, hs.taken, hs.timed⟩
      rcases List.mem_or_eq_of_mem_set hk with hk | rfl
      · exact hs.workers k hk
      · exact hsound
  | caller timeOut =>
    simp only [probeTurn] at ht
    split at ht <;> cases ht
    next hc =>
    obtain ⟨_, hslot, htaken, htimed, _⟩ := callerStep_cases hc
    exact ⟨hs.workers, fun r hr => hs.slot r (hslot r hr), fun r hr => (htaken r hr).elim (hs.taken r) (hs.slot r),
      fun hr => (htimed hr).elim hs.timed id⟩

theorem probesSound_reach {numWorker : ℕ+}
    (h : (probes dry settings initial timed numWorker).Reach Machine.always σ) :
    ProbesSound dry settings initial timed σ := by
  refine h.invariant (fun σ hσ => ?_) fun σ t σ' _ hs _ (ht : probeTurn dry settings initial timed σ t = some σ') =>
    probesSound_turn hs ht
  obtain rfl := hσ
  exact ⟨fun l hl => (List.eq_of_mem_replicate hl) ▸ trivial, nofun, nofun, nofun⟩

/-- Whatever the choices and the order of the turns, what `random_depth_first`
returns is real: an unpruned walk within the depth limit to a state whose event
fails, that breaks the invariant or that meets the goal. It never says that the
space is exhausted, and times out only if it may. -/
theorem probes_real {numWorker : ℕ+} (h : (probes dry settings initial timed numWorker).Reach Machine.always σ)
    {r : Option (SearchResult S T E ε)} (hr : σ.caller = .joined r) :
    (r = none ∧ timed = true) ∨ Probed dry settings initial (probeResult r) := by
  have hs := probesSound_reach h
  cases r with
  | none => exact Or.inl ⟨rfl, hs.timed (by rw [hr]; rfl)⟩
  | some r => exact Or.inr (hs.taken r (by rw [hr]; rfl))

/-- What the random search finds keeps the breadth-first search of the same
space from reporting it exhausted, unless the walk came back to the dry form of
the initial state. -/
theorem probes_not_exhausted {numWorker : ℕ+}
    (h : (probes dry settings initial timed numWorker).Reach Machine.always σ) {r : SearchResult S T E ε}
    (hr : σ.caller = .joined (some r)) :
    ¬ Exhausted dry settings initial ∨ ∃ n z, Path settings initial n z ∧ dry z = dry initial ∧ ¬ Clean settings z := by
  have hprobed : Probed dry settings initial r := (probesSound_reach h).taken r (by rw [hr]; rfl)
  have hdirty : ∀ n z, Path settings initial n z → WithinMax settings n → ¬ Clean settings z →
      ¬ Exhausted dry settings initial ∨
        ∃ n z, Path settings initial n z ∧ dry z = dry initial ∧ ¬ Clean settings z := by
    intro n z hpath hwithin hdirty
    by_cases hd : dry z = dry initial
    · exact Or.inr ⟨n, z, hpath, hd, hdirty⟩
    · exact Or.inl fun hx => hdirty (hx.clean n z hwithin hpath hd)
  cases r with
  | err trace event err =>
    obtain ⟨z, hw, he, hs⟩ := hprobed
    refine Or.inl fun hx => ?_
    obtain ⟨z', hs'⟩ := hx.steps _ z hw.below hw.path hw.unpruned event he
    rw [hs] at hs'
    cases hs'
  | invariantViolation trace err =>
    obtain ⟨z, _, hpath, hwithin, hinv⟩ := hprobed
    refine hdirty _ z hpath hwithin fun hc => ?_
    have hholds := hc.1
    unfold Holds at hholds
    rw [hinv] at hholds
    cases hholds
  | goalFound s =>
    obtain ⟨n, hpath, hwithin, hgoal⟩ := hprobed
    refine hdirty n s hpath hwithin fun hc => ?_
    rw [hc.2] at hgoal
    cases hgoal
  | spaceExhausted => exact hprobed.elim
  | timeout => exact hprobed.elim

/-! ## A random search stops once it has a result -/

/-- The turns a worker has left once the flag is stored. -/
def Probe.rank : Probe S T E → Nat
  | .probing .. => 3
  | .pausing .. => 2
  | .finishing => 2
  | .looping => 1
  | .exited => 0

def Probes.rank (σ : Probes S T E ε) : Nat := (σ.workers.map Probe.rank).sum + σ.caller.rank

theorem probeStep_none (h : ∀ choice, probeStep dry settings initial choice fin l = none) : l.isExited = true := by
  have hzero := h 0
  cases l with
  | exited => rfl
  | looping =>
    simp only [probeStep] at hzero
    split at hzero <;> cases hzero
  | probing state trace depth =>
    simp only [probeStep] at hzero
    split at hzero
    · cases hzero
    · simp only [List.getElem?_cons_zero] at hzero
      split at hzero
      · cases hzero
      · split at hzero
        · cases hzero
        · split at hzero
          · cases hzero
          · split at hzero <;> cases hzero
  | pausing state trace depth =>
    simp only [probeStep] at hzero
    split at hzero <;> cases hzero
  | finishing => cases hzero

theorem probeStep_rank (hflag : fin.flag = true) (h : probeStep dry settings initial choice fin l = some (fin', l')) :
    fin'.flag = true ∧ l'.rank < l.rank := by
  cases l with
  | looping =>
    simp only [probeStep, hflag, if_true] at h
    cases h
    exact ⟨hflag, Nat.lt_succ_self 0⟩
  | probing state trace depth =>
    simp only [probeStep] at h
    split at h
    · cases h
      exact ⟨hflag, by simp [Probe.rank]⟩
    · split at h
      · cases h
      · split at h
        · cases h
          exact ⟨hflag, by simp [Probe.rank]⟩
        · split at h
          · cases h
            exact ⟨hflag, by simp [Probe.rank]⟩
          · split at h
            · cases h
              exact ⟨hflag, by simp [Probe.rank]⟩
            · split at h <;> cases h <;> exact ⟨hflag, by simp [Probe.rank]⟩
  | pausing state trace depth =>
    simp only [probeStep, hflag, if_true] at h
    cases h
    exact ⟨hflag, by simp [Probe.rank]⟩
  | finishing =>
    cases h
    exact ⟨rfl, by simp [Probe.rank]⟩
  | exited => cases h

/-- A worker that ends, or is about to, has left a result behind. -/
structure ProbesSignalled (σ : Probes S T E ε) : Prop where
  nonempty : σ.workers ≠ []
  flag : σ.finished.flag = true → σ.caller ≠ .waiting ∨ σ.finished.result ≠ none
  filled : ∀ l ∈ σ.workers, l = .finishing → σ.caller ≠ .waiting ∨ σ.finished.result ≠ none
  exited : ∀ l ∈ σ.workers, l.isExited = true → σ.finished.flag = true
  joined : ∀ r, σ.caller = .joined r → ∀ l ∈ σ.workers, l.isExited = true

/-- What a worker's turn does to the slot and the flag. -/
theorem probeStep_finished (h : probeStep dry settings initial choice fin l = some (fin', l')) :
    (fin' = fin ∧ l' ≠ .finishing ∧ (l'.isExited = true → fin.flag = true)) ∨
      (fin'.flag = fin.flag ∧ fin'.result ≠ none ∧ l' = .finishing) ∨
      (fin' = fin.store ∧ l = .finishing ∧ l' = .looping) := by
  cases l with
  | looping =>
    simp only [probeStep] at h
    split at h <;> cases h
    · next hf => exact Or.inl ⟨rfl, nofun, fun _ => hf⟩
    · exact Or.inl ⟨rfl, nofun, nofun⟩
  | probing state trace depth =>
    simp only [probeStep] at h
    split at h
    · cases h
      exact Or.inl ⟨rfl, nofun, nofun⟩
    · split at h
      · cases h
      · split at h
        · cases h
          exact Or.inr (Or.inl ⟨rfl, Option.some_ne_none _, rfl⟩)
        · split at h
          · cases h
            exact Or.inr (Or.inl ⟨rfl, Option.some_ne_none _, rfl⟩)
          · split at h
            · cases h
              exact Or.inr (Or.inl ⟨rfl, Option.some_ne_none _, rfl⟩)
            · split at h <;> cases h <;> exact Or.inl ⟨rfl, nofun, nofun⟩
  | pausing state trace depth =>
    simp only [probeStep] at h
    split at h <;> cases h <;> exact Or.inl ⟨rfl, nofun, nofun⟩
  | finishing =>
    cases h
    exact Or.inr (Or.inr ⟨rfl, rfl, rfl⟩)
  | exited => cases h

theorem probesSignalled_turn {t : ProbeTurn} (hs : ProbesSignalled σ)
    (ht : probeTurn dry settings initial timed σ t = some σ') : ProbesSignalled σ' := by
  cases t with
  | worker i choice =>
    simp only [probeTurn] at ht
    split at ht
    · cases ht
    · next l hl =>
      split at ht <;> cases ht
      next fin' l' hstep =>
      have hmem := List.mem_of_getElem? hl
      have hnonempty : σ.workers.set i l' ≠ [] := by
        intro hnil
        have := congrArg List.length hnil
        rw [List.length_set] at this
        exact hs.nonempty (List.length_eq_zero_iff.mp this)
      have hjoined : ∀ r, σ.caller = .joined r → ∀ k ∈ σ.workers.set i l', k.isExited = true := by
        intro r hr
        have := hs.joined r hr l hmem
        cases l with
        | exited => cases hstep
        | _ => cases this
      rcases probeStep_finished hstep with ⟨rfl, hne, hexited⟩ | ⟨hflag, hfilled, rfl⟩ | ⟨rfl, rfl, rfl⟩
      · refine ⟨hnonempty, hs.flag, fun k hk hph => ?_, fun k hk hph => ?_, hjoined⟩
        · rcases List.mem_or_eq_of_mem_set hk with hk | rfl
          · exact hs.filled k hk hph
          · exact absurd hph hne
        · rcases List.mem_or_eq_of_mem_set hk with hk | rfl
          · exact hs.exited k hk hph
          · exact hexited hph
      · refine ⟨hnonempty, fun _ => Or.inr hfilled, fun _ _ _ => Or.inr hfilled, fun k hk hph => ?_, hjoined⟩
        rcases List.mem_or_eq_of_mem_set hk with hk | rfl
        · exact hflag.trans (hs.exited k hk hph)
        · cases hph
      · have hslot := hs.filled _ hmem rfl
        exact ⟨hnonempty, fun _ => hslot, fun _ _ _ => hslot, fun _ _ _ => rfl, hjoined⟩
  | caller timeOut =>
    simp only [probeTurn] at ht
    split at ht <;> cases ht
    next hc =>
    have hmoved := caller_moved hc
    obtain ⟨hflag, _, _, _, hjoined⟩ := callerStep_cases hc
    exact ⟨hs.nonempty, fun _ => Or.inl hmoved, fun _ _ _ => Or.inl hmoved, fun l hl hph => hflag (hs.exited l hl hph),
      fun r hr => List.all_eq_true.mp (hjoined r hr)⟩

theorem probesSignalled_reach {numWorker : ℕ+}
    (h : (probes dry settings initial timed numWorker).Reach Machine.always σ) : ProbesSignalled σ := by
  refine h.invariant (fun σ hσ => ?_) fun σ t σ' _ hs _ (ht : probeTurn dry settings initial timed σ t = some σ') =>
    probesSignalled_turn hs ht
  obtain rfl := hσ
  have hlooping : ∀ l ∈ (List.replicate numWorker .looping : List (Probe S T E)), l = .looping :=
    fun l hl => List.eq_of_mem_replicate hl
  refine ⟨?_, nofun, fun l hl hph => ?_, fun l hl hph => ?_, nofun⟩
  · intro hnil
    have := congrArg List.length hnil
    rw [List.length_replicate] at this
    exact numWorker.pos.ne' this
  · rw [hlooping l hl] at hph
    cases hph
  · rw [hlooping l hl] at hph
    cases hph

theorem rank_probeTurn {t : ProbeTurn} (hflag : σ.finished.flag = true)
    (ht : probeTurn dry settings initial timed σ t = some σ') : σ'.finished.flag = true ∧ σ'.rank < σ.rank := by
  cases t with
  | worker i choice =>
    simp only [probeTurn] at ht
    split at ht
    · cases ht
    · next l hl =>
      split at ht <;> cases ht
      next fin' l' hstep =>
      obtain ⟨hflag', hlt⟩ := probeStep_rank hflag hstep
      have hsum := sum_map_set Probe.rank l' hl
      refine ⟨hflag', ?_⟩
      simp only [Probes.rank]
      omega
  | caller timeOut =>
    simp only [probeTurn] at ht
    split at ht <;> cases ht
    next hc =>
    have hlt := caller_rank hc
    refine ⟨(callerStep_cases hc).1 hflag, ?_⟩
    simp only [Probes.rank]
    omega

theorem rank_probeRun {turns : List ProbeTurn} (hflag : σ.finished.flag = true)
    (hrun : turns.foldlM (probeTurn dry settings initial timed) σ = some σ') : σ'.rank + turns.length ≤ σ.rank := by
  induction turns generalizing σ with
  | nil =>
    cases hrun
    exact Nat.le_refl _
  | cons t turns ih =>
    rw [List.foldlM_cons] at hrun
    obtain ⟨σ₁, ht, hrun⟩ := Option.bind_eq_some_iff.mp hrun
    obtain ⟨hflag', hlt⟩ := rank_probeTurn hflag ht
    have hrest := ih hflag' hrun
    rw [List.length_cons]
    omega

/-- The random search never gets stuck: as long as the caller has not joined, a
turn is possible. Once the flag is stored, `3 * n + 3` turns are left at most. -/
theorem probes_end {numWorker : ℕ+} (h : (probes dry settings initial timed numWorker).Reach Machine.always σ) :
    ((∀ t, probeTurn dry settings initial timed σ t = none) ↔ ∃ r, σ.caller = .joined r) ∧
      (σ.finished.flag = true → ∀ (turns : List ProbeTurn) σ',
        turns.foldlM (probeTurn dry settings initial timed) σ = some σ' → turns.length ≤ 3 * σ.workers.length + 3) := by
  have hs := probesSignalled_reach h
  refine ⟨⟨fun hnone => ?_, ?_⟩, fun hflag turns σ' hrun => ?_⟩
  · have hall : ∀ l ∈ σ.workers, l.isExited = true := by
      intro l hl
      obtain ⟨i, hi⟩ := List.mem_iff_getElem?.mp hl
      have hstep : ∀ choice, probeStep dry settings initial choice σ.finished l = none := by
        intro choice
        have := hnone (.worker i choice)
        simp only [probeTurn, hi] at this
        split at this
        · assumption
        · cases this
      exact probeStep_none hstep
    obtain ⟨l, hl⟩ := List.exists_mem_of_ne_nil _ hs.nonempty
    have hcaller := hnone (.caller false)
    simp only [probeTurn, List.all_eq_true.mpr hall] at hcaller
    have hstep : callerStep timed false true σ.finished σ.caller = none := by
      split at hcaller
      · assumption
      · cases hcaller
    exact caller_moves (hs.flag (hs.exited l hl (hall l hl))) hstep
  · rintro ⟨r, hr⟩ t
    cases t with
    | worker i choice =>
      simp only [probeTurn]
      split
      · rfl
      · next l hl =>
        have hexited := hs.joined r hr l (List.mem_of_getElem? hl)
        cases l with
        | exited => rfl
        | _ => cases hexited
    | caller timeOut => simp only [probeTurn, hr, callerStep]
  · have hrun := rank_probeRun hflag hrun
    have hworkers : (σ.workers.map Probe.rank).sum ≤ σ.workers.length * 3 := by
      refine (List.sum_le_card_nsmul _ 3 fun n hn => ?_).trans_eq (by simp)
      obtain ⟨l, _, rfl⟩ := List.mem_map.mp hn
      cases l <;> simp [Probe.rank]
    have hcaller : σ.caller.rank ≤ 3 := by cases σ.caller <;> simp [Caller.rank]
    simp only [Probes.rank] at hrun
    omega

end

/-! ## A probe on the ring -/

/-- One worker walks to the second position. -/
def ringProbe : List ProbeTurn :=
  [.worker 0 0, .worker 0 0, .worker 0 0, .worker 0 0, .worker 0 0, .caller false, .caller false, .worker 0 0,
    .caller false]

theorem ring_probed : ∃ σ r, (probes Ring.position ringSettings ⟨0, 0⟩ false 1).Reach Machine.always σ ∧
    σ.caller = .joined (some r) := by
  obtain ⟨σ, hreach, hjoined⟩ := Machine.exists_reach (M := probes Ring.position ringSettings ⟨0, 0⟩ false 1)
    (C := Machine.always) (fun _ _ _ h => h) rfl ringProbe
    (fun σ => σ.caller.outcome.any (·.isSome) ∧ σ.caller.isJoined = true) (by decide)
  cases hc : σ.caller with
  | joined r =>
    rw [hc] at hjoined
    cases r with
    | none => cases hjoined.1
    | some r => exact ⟨σ, r, hreach, hc⟩
  | _ =>
    rw [hc] at hjoined
    cases hjoined.2

theorem ring_probes_real : ∃ (σ : Probes Ring Nat Unit String) (r : SearchResult Ring Nat Unit String),
    σ.caller = .joined (some r) ∧ ((some r = none ∧ false = true) ∨
      Probed Ring.position ringSettings ⟨0, 0⟩ (probeResult (some r))) := by
  obtain ⟨σ, r, hreach, hr⟩ := ring_probed
  exact ⟨σ, r, hr, probes_real hreach hr⟩

theorem ring_probes_not_exhausted : ¬ Exhausted Ring.position ringSettings ⟨0, 0⟩ ∨
    ∃ n z, Path ringSettings ⟨0, 0⟩ n z ∧ z.position = 0 ∧ ¬ Clean ringSettings z := by
  obtain ⟨σ, r, hreach, hr⟩ := ring_probed
  exact probes_not_exhausted hreach hr

theorem ring_probes_end : ∃ σ : Probes Ring Nat Unit String,
    ((∀ t, probeTurn Ring.position ringSettings ⟨0, 0⟩ false σ t = none) ↔ ∃ r, σ.caller = .joined r) ∧
      (σ.finished.flag = true → ∀ (turns : List ProbeTurn) σ',
        turns.foldlM (probeTurn Ring.position ringSettings ⟨0, 0⟩ false) σ = some σ' →
        turns.length ≤ 3 * σ.workers.length + 3) := by
  obtain ⟨σ, r, hreach, hr⟩ := ring_probed
  exact ⟨σ, probes_end hreach⟩

end Neatworks.Search
