import Neatworks.SearchSpec

/-!
# One depth of the search

`Entries`: every discovered dry state is recorded with its distance from the
initial one, and its predecessor is recorded one depth earlier. `Frontier`
adds what is known while depth `d` is drained: all levels up to `d` are
discovered, and the next queue holds every open state first met at `d + 1`.
`expand_spec` and `drainDepth_spec` keep it, or end with a `Verdict`.
-/

namespace Neatworks.Search

section
variable {S T E ε : Type*} [State S E ε] (dry : S → T) (settings : Settings S ε) (initial : S)

def Known (D : Discovered T E) (t : T) : Prop := ∃ info, D t = some info

structure Entries (D : Discovered T E) : Prop where
  first : ∀ t info, D t = some info → DryFirst dry settings initial info.depth t
  prev : ∀ t info, D t = some info → (info.prev = none ∧ t = dry initial) ∨
    ∃ event t' info', info.prev = some (event, t') ∧ D t' = some info' ∧
      info.depth = info'.depth + 1 ∧ (info'.depth = 0 ∨ DryOpen dry settings initial t') ∧
      Edge dry initial t' event t

structure Frontier (d : Nat) (wk : Worker S T E ε) : Prop where
  entries : Entries dry settings initial wk.discovered
  running : wk.finished = none
  low : ∀ m ≤ d, ∀ t, DryLevel dry settings initial m t → Known wk.discovered t
  depth : ∀ t info, wk.discovered t = some info → info.depth ≤ d + 1
  checked : ∀ s, Reachable initial s → Known wk.discovered (dry s) → dry s ≠ dry initial → Clean settings s
  pushed : ∀ p ∈ wk.pushingQueue, Reachable initial p.1 ∧ dry p.1 = p.2 ∧
    DryFirst dry settings initial (d + 1) p.2 ∧ DryOpen dry settings initial p.2 ∧ belowMax settings d = true
  fresh : ∀ t info, wk.discovered t = some info → info.depth = d + 1 → belowMax settings d = true →
    DryOpen dry settings initial t → ∃ p ∈ wk.pushingQueue, p.2 = t
  past : ∀ m < d, ∀ t, DryFirst dry settings initial m t → m = 0 ∨ DryOpen dry settings initial t →
    Expanded dry initial (Known wk.discovered) t

/-- A state of the queue of depth `d`. -/
structure Queued (d : Nat) (p : S × T) : Prop where
  reachable : Reachable initial p.1
  dry_eq : dry p.1 = p.2
  first : DryFirst dry settings initial d p.2
  unpruned : d = 0 ∨ DryOpen dry settings initial p.2

/-- What a result found while draining depth `d` says. -/
def Verdict (d : Nat) (D : Discovered T E) : SearchWorkerResult S E ε → Prop
  | .error s event err => Queued dry settings initial d (s, dry s) ∧ Known D (dry s) ∧
      event ∈ State.events s ∧ State.step s event = .error err
  | .invariantViolation s err => Reachable initial s ∧ DryFirst dry settings initial (d + 1) (dry s) ∧
      Known D (dry s) ∧ settings.invariant s = .error err
  | .goalFound s => Reachable initial s ∧ DryFirst dry settings initial (d + 1) (dry s) ∧
      settings.goal s = true
  | .spaceExhausted => False

variable {dry settings initial}

theorem Entries.insert [DecidableEq T] {D : Discovered T E} (h : Entries dry settings initial D) {u t : T}
    {info : StateInfo T E} {event : E} (hu : D u = some info) (hnone : D t = none)
    (hf : DryFirst dry settings initial (info.depth + 1) t)
    (ho : info.depth = 0 ∨ DryOpen dry settings initial u) (he : Edge dry initial u event t) :
    Entries dry settings initial (Function.update D t (some ⟨some (event, u), info.depth + 1⟩)) := by
  have hkeep : ∀ v i, D v = some i →
      Function.update D t (some ⟨some (event, u), info.depth + 1⟩) v = some i := by
    intro v i hv
    have hne : v ≠ t := fun e => by rw [e, hnone] at hv; cases hv
    rw [Function.update_of_ne hne]; exact hv
  constructor
  · intro v i hv
    by_cases hvt : v = t
    · subst hvt
      rw [Function.update_self] at hv; cases hv
      exact hf
    · rw [Function.update_of_ne hvt] at hv; exact h.first v i hv
  · intro v i hv
    by_cases hvt : v = t
    · subst hvt
      rw [Function.update_self] at hv; cases hv
      exact Or.inr ⟨event, u, info, rfl, hkeep u info hu, rfl, ho, he⟩
    · rw [Function.update_of_ne hvt] at hv
      rcases h.prev v i hv with h0 | ⟨ev, t', i', h1, h2, h3⟩
      · exact Or.inl h0
      · exact Or.inr ⟨ev, t', i', h1, hkeep t' i' h2, h3⟩

theorem Expanded.mono {P Q : T → Prop} (hPQ : ∀ t, P t → Q t) {t : T} (h : Expanded dry initial P t) :
    Expanded dry initial Q t := by
  intro s hs hd event he
  obtain ⟨s', hs', hp⟩ := h s hs hd event he
  exact ⟨s', hs', hPQ _ hp⟩

theorem belowMax_iff {d : Nat} : belowMax settings d = true ↔ ∀ m, settings.maxDepth = some m → d + 1 ≠ m := by
  unfold belowMax
  cases settings.maxDepth with
  | none => simp
  | some m => simp

theorem known_update [DecidableEq T] {D : Discovered T E} {t : T} {info : StateInfo T E} {v : T} :
    Known (Function.update D t (some info)) v ↔ v = t ∨ Known D v := by
  unfold Known
  by_cases h : v = t
  · subst h; simp
  · simp [h]

/-- A dry state that is not discovered is one level below the popped state. -/
theorem first_succ {d : Nat} {wk : Worker S T E ε} (hf : Frontier dry settings initial d wk) {p : S × T}
    (hp : Queued dry settings initial d p) {event : E} {s' : S} (he : event ∈ State.events p.1)
    (hs : State.step p.1 event = .ok s') (hnone : wk.discovered (dry s') = none) :
    (∃ info, wk.discovered p.2 = some info ∧ info.depth = d) ∧
      Edge dry initial p.2 event (dry s') ∧ DryFirst dry settings initial (d + 1) (dry s') := by
  have hedge : Edge dry initial p.2 event (dry s') := ⟨p.1, s', hp.reachable, hp.dry_eq, he, hs, rfl⟩
  refine ⟨?_, hedge, .step hp.first.1 hp.unpruned ⟨event, hedge⟩, ?_⟩
  · obtain ⟨info, hi⟩ := hf.low d (Nat.le_refl d) p.2 hp.first.1
    exact ⟨info, hi, (hf.entries.first _ _ hi).unique hp.first⟩
  · intro m hm
    rcases Nat.lt_or_ge d m with h | h
    · exact h
    · obtain ⟨info, hi⟩ := hf.low m h _ hm
      rw [hnone] at hi; cases hi

section
variable [DecidableEq T] (law : Lawful dry settings initial)
include law

/-- The frontier after a clean new state is recorded, and queued if it is to
be expanded later. -/
theorem Frontier.insert {d : Nat} {wk : Worker S T E ε} (hf : Frontier dry settings initial d wk) {s' : S}
    {info : StateInfo T E} {q : List (S × T)} (hs' : Reachable initial s')
    (hfst : DryFirst dry settings initial (d + 1) (dry s'))
    (hD : Entries dry settings initial (Function.update wk.discovered (dry s') (some info)))
    (hdepth : info.depth = d + 1) (hclean : Clean settings s')
    (hq : ∀ p, p ∈ q ↔ p ∈ wk.pushingQueue ∨
      (p = (s', dry s') ∧ belowMax settings d = true ∧ settings.prune s' = false)) :
    Frontier dry settings initial d ⟨Function.update wk.discovered (dry s') (some info), q, wk.finished⟩ := by
  have hmono : ∀ t, Known wk.discovered t → Known (Function.update wk.discovered (dry s') (some info)) t :=
    fun t h => known_update.mpr (Or.inr h)
  constructor
  · exact hD
  · exact hf.running
  · intro m hm t ht; exact hmono t (hf.low m hm t ht)
  · intro t i hi
    dsimp only at hi
    by_cases ht : t = dry s'
    · subst ht; rw [Function.update_self] at hi; cases hi; omega
    · rw [Function.update_of_ne ht] at hi; exact hf.depth t i hi
  · intro s hs hk hne
    rcases known_update.mp hk with h | h
    · exact law.clean hs' hs h.symm hclean
    · exact hf.checked s hs h hne
  · intro p hp
    rcases (hq p).mp hp with h | ⟨rfl, hb, hpr⟩
    · exact hf.pushed p h
    · exact ⟨hs', rfl, hfst, ⟨s', hs', rfl, hpr⟩, hb⟩
  · intro t i hi hdep hb ho
    dsimp only at hi
    by_cases ht : t = dry s'
    · subst ht
      exact ⟨_, (hq _).mpr (Or.inr ⟨rfl, hb, law.prune_of_open hs' ho⟩), rfl⟩
    · rw [Function.update_of_ne ht] at hi
      obtain ⟨p, hp, hpt⟩ := hf.fresh t i hi hdep hb ho
      exact ⟨p, (hq p).mpr (Or.inl hp), hpt⟩
  · intro m hm t ht ho; exact (hf.past m hm t ht ho).mono hmono

end

/-! ## Draining a depth -/

variable (dry settings initial) in
/-- From `wk` to `wk'` the frontier is kept and `P` holds, or a verdict is found. -/
def Drained (d : Nat) (wk wk' : Worker S T E ε) (P : Discovered T E → Prop) : Prop :=
  match wk'.finished with
  | some r => Entries dry settings initial wk'.discovered ∧ Verdict dry settings initial d wk'.discovered r
  | none => Frontier dry settings initial d wk' ∧ (∀ t, Known wk.discovered t → Known wk'.discovered t) ∧
      P wk'.discovered

theorem Drained.kept {d : Nat} {wk : Worker S T E ε} {P : Discovered T E → Prop}
    (hf : Frontier dry settings initial d wk) (hP : P wk.discovered) :
    Drained dry settings initial d wk wk P := by
  unfold Drained
  rw [hf.running]
  exact ⟨hf, fun _ h => h, hP⟩

/-- `wk` may be replaced by an earlier worker, and `P` by what it gives. -/
theorem Drained.weaken {d : Nat} {wk₀ wk wk' : Worker S T E ε} {P Q : Discovered T E → Prop}
    (hm : ∀ t, Known wk₀.discovered t → Known wk.discovered t)
    (hPQ : (∀ t, Known wk.discovered t → Known wk'.discovered t) → P wk'.discovered → Q wk'.discovered)
    (h : Drained dry settings initial d wk wk' P) : Drained dry settings initial d wk₀ wk' Q := by
  unfold Drained at *
  cases hfin : wk'.finished with
  | some r => rw [hfin] at h; exact h
  | none =>
    rw [hfin] at h
    exact ⟨h.1, fun t ht => h.2.1 t (hm t ht), hPQ h.2.1 h.2.2⟩

section
variable [DecidableEq T] (law : Lawful dry settings initial)
include law

theorem expand_spec {d : Nat} {p : S × T} (hp : Queued dry settings initial d p) :
    ∀ (events : List E) (wk : Worker S T E ε), (∀ event ∈ events, event ∈ State.events p.1) →
      Frontier dry settings initial d wk →
      Drained dry settings initial d wk (expand dry settings d p.1 p.2 events wk)
        (fun D => ∀ event ∈ events, ∃ s', State.step p.1 event = .ok s' ∧ Known D (dry s')) := by
  intro events
  induction events with
  | nil => intro wk _ hf; exact .kept hf (by simp)
  | cons event events ih =>
    intro wk hsub hf
    have he : event ∈ State.events p.1 := hsub event (by simp)
    have hrest : ∀ e ∈ events, e ∈ State.events p.1 := fun e h => hsub e (by simp [h])
    -- the rest of the loop, once `event` led to a known state
    have next : ∀ (wk' : Worker S T E ε) (s' : S), State.step p.1 event = .ok s' → Known wk'.discovered (dry s') →
        (∀ t, Known wk.discovered t → Known wk'.discovered t) → Frontier dry settings initial d wk' →
        Drained dry settings initial d wk (expand dry settings d p.1 p.2 events wk')
          (fun D => ∀ e ∈ event :: events, ∃ s', State.step p.1 e = .ok s' ∧ Known D (dry s')) := by
      intro wk' s' hs hk hm hf'
      refine (ih wk' hrest hf').weaken hm fun hm' hD e h => ?_
      rcases List.mem_cons.mp h with rfl | h
      · exact ⟨s', hs, hm' _ hk⟩
      · exact hD e h
    cases hs : State.step p.1 event with
    | error err =>
      simp only [expand, hs, Drained]
      refine ⟨hf.entries, ⟨hp.reachable, rfl, hp.dry_eq ▸ hp.first, hp.dry_eq ▸ hp.unpruned⟩, ?_, he, hs⟩
      rw [hp.dry_eq]
      exact hf.low d (Nat.le_refl d) p.2 hp.first.1
    | ok s' =>
      have hs' : Reachable initial s' := .step hp.reachable he hs
      cases hD : wk.discovered (dry s') with
      | some info =>
        simp only [expand, hs, hD]
        exact next wk s' hs ⟨info, hD⟩ (fun _ h => h) hf
      | none =>
        obtain ⟨⟨info, hi, hdep⟩, hedge, hfst⟩ := first_succ hf hp he hs hD
        have hent := hf.entries.insert hi hD (hdep ▸ hfst) (hdep ▸ hp.unpruned) hedge
        rw [hdep] at hent
        have hknown : Known (Function.update wk.discovered (dry s') (some ⟨some (event, p.2), d + 1⟩)) (dry s') :=
          known_update.mpr (Or.inl rfl)
        have hmono : ∀ t, Known wk.discovered t →
            Known (Function.update wk.discovered (dry s') (some ⟨some (event, p.2), d + 1⟩)) t :=
          fun t h => known_update.mpr (Or.inr h)
        cases hinv : settings.invariant s' with
        | error err =>
          simp only [expand, hs, hD, hinv, Drained]
          exact ⟨hent, hs', hfst, hknown, hinv⟩
        | ok u =>
          cases hgoal : settings.goal s' with
          | true =>
            simp only [expand, hs, hD, hinv, hgoal, if_true, Drained]
            exact ⟨hent, hs', hfst, hgoal⟩
          | false =>
            have hclean : Clean settings s' := ⟨hinv, hgoal⟩
            simp only [expand, hs, hD, hinv, hgoal, Bool.false_eq_true, if_false]
            split
            · rename_i hpush
              simp only [Bool.and_eq_true, Bool.not_eq_true'] at hpush
              refine next _ s' hs hknown hmono (hf.insert law hs' hfst hent rfl hclean fun q => ?_)
              simp [hpush.1, hpush.2]
            · rename_i hpush
              refine next _ s' hs hknown hmono (hf.insert law hs' hfst hent rfl hclean fun q => ?_)
              simp only [Bool.and_eq_true, Bool.not_eq_true'] at hpush
              exact ⟨Or.inl, fun h => h.elim id fun h => absurd h.2 hpush⟩

theorem drainDepth_spec {d : Nat} :
    ∀ (queue : List (S × T)) (wk : Worker S T E ε), (∀ p ∈ queue, Queued dry settings initial d p) →
      Frontier dry settings initial d wk →
      Drained dry settings initial d wk (drainDepth dry settings d queue wk)
        (fun D => ∀ p ∈ queue, Expanded dry initial (Known D) p.2) := by
  intro queue
  induction queue with
  | nil => intro wk _ hf; exact .kept hf (by simp)
  | cons p queue ih =>
    intro wk hq hf
    obtain ⟨state, dryState⟩ := p
    have hp : Queued dry settings initial d (state, dryState) := hq _ (by simp)
    have hx := expand_spec law hp (State.events state) wk (fun _ h => h) hf
    simp only [drainDepth]
    cases hfin : (expand dry settings d state dryState (State.events state) wk).finished with
    | some r =>
      unfold Drained at hx ⊢
      rw [hfin] at hx
      simp only [hfin]
      exact hx
    | none =>
      unfold Drained at hx
      simp only [hfin] at hx
      obtain ⟨hf', hm, hexp⟩ := hx
      refine (ih _ (fun p h => hq p (by simp [h])) hf').weaken hm fun hm' hD p h => ?_
      rcases List.mem_cons.mp h with rfl | h
      · intro s hs hd event he
        have he' : event ∈ State.events state :=
          law.events s state hs hp.reachable (hd.trans hp.dry_eq.symm) ▸ he
        obtain ⟨s', hs', hk⟩ := hexp event he'
        obtain ⟨_, s'', hs'', hd'⟩ := law.step_ok hp.reachable hs (hp.dry_eq.trans hd.symm) he' hs'
        exact ⟨s'', hs'', hd' ▸ hm' _ hk⟩
      · exact hD p h

end

end

end Neatworks.Search
