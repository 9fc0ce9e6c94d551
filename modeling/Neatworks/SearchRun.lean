import Neatworks.SearchSound

/-!
# Whole runs of the search

A worker that starts depth `d` with a complete queue ends with a verdict, with
an exhausted space, or starts depth `d + 1` with a complete queue. Hence the
search of a finite space returns, the result says whether the space is clean,
and the trace rebuilt from the discovered map is a shortest path.
-/

namespace Neatworks.Search

section
variable {S T E ε : Type*} [State S E ε] (dry : S → T) (settings : Settings S ε) (initial : S)

/-- What the worker knows when it starts depth `d`. -/
structure Layer (d : Nat) (queue : List (S × T)) (D : Discovered T E) : Prop where
  frontier : Frontier dry settings initial d ⟨D, [], none⟩
  below : BelowMax settings d
  queued : ∀ p ∈ queue, Queued dry settings initial d p
  complete : ∀ t, DryFirst dry settings initial d t → d = 0 ∨ DryOpen dry settings initial t →
    ∃ p ∈ queue, p.2 = t

/-- No state reached within the depth limit breaks the invariant or meets the
goal, and no event of an expanded state fails. -/
structure Exhausted : Prop where
  clean : ∀ n s, WithinMax settings n → Path settings initial n s → dry s ≠ dry initial → Clean settings s
  steps : ∀ n s, BelowMax settings n → Path settings initial n s → n = 0 ∨ settings.prune s = false →
    ∀ event ∈ State.events s, ∃ s', State.step s event = .ok s'

variable {dry settings initial}

theorem within_of_below {d : Nat} (h : BelowMax settings d) : WithinMax settings (d + 1) := h

section
variable {d : Nat} {queue : List (S × T)} {wk : Worker S T E ε}
  (hf : Frontier dry settings initial d wk)
  (hc : ∀ t, DryFirst dry settings initial d t → d = 0 ∨ DryOpen dry settings initial t → ∃ p ∈ queue, p.2 = t)
  (hx : ∀ p ∈ queue, Expanded dry initial (Known wk.discovered) p.2)
include hf hc hx

theorem expanded_le {m : Nat} (hm : m ≤ d) {t : T} (ht : DryFirst dry settings initial m t)
    (ho : m = 0 ∨ DryOpen dry settings initial t) : Expanded dry initial (Known wk.discovered) t := by
  rcases Nat.lt_or_ge m d with h | h
  · exact hf.past m h t ht ho
  · have : m = d := by omega
    subst this
    obtain ⟨p, hp, rfl⟩ := hc t ht ho
    exact hx p hp

/-- Once the queue of depth `d` is expanded, level `d + 1` is discovered. -/
theorem low_succ : ∀ m ≤ d + 1, ∀ t, DryLevel dry settings initial m t → Known wk.discovered t := by
  refine level_closed hf.low fun u v hu ho hn => ?_
  obtain ⟨event, s, s', hs, hd, he, hstep, rfl⟩ := hn
  obtain ⟨s'', hs'', hk⟩ := expanded_le hf hc hx (Nat.le_refl d) hu ho s hs hd event he
  rw [hstep] at hs''
  cases hs''
  exact hk

theorem in_pushing {t : T} (ht : DryFirst dry settings initial (d + 1) t)
    (hb : belowMax settings d = true) (ho : DryOpen dry settings initial t) : ∃ p ∈ wk.pushingQueue, p.2 = t := by
  obtain ⟨info, hi⟩ := low_succ hf hc hx (d + 1) (Nat.le_refl _) t ht.1
  exact hf.fresh t info hi ((hf.entries.first t info hi).unique ht) hb ho

theorem layer_next (hbelow : BelowMax settings d) (hb : belowMax settings d = true) :
    Layer dry settings initial (d + 1) wk.pushingQueue wk.discovered := by
  have hlow := low_succ hf hc hx
  constructor
  · constructor
    · exact hf.entries
    · rfl
    · exact hlow
    · intro t info hi; have := hf.depth t info hi; omega
    · exact hf.checked
    · intro p hp; cases hp
    · intro t info hi hdep
      have := hf.depth t info hi
      omega
    · intro m hm t ht ho; exact expanded_le hf hc hx (by omega) ht ho
  · intro m hm
    have h1 := hbelow m hm
    have h2 := belowMax_iff.mp hb m hm
    omega
  · intro p hp
    obtain ⟨h1, h2, h3, h4, _⟩ := hf.pushed p hp
    exact ⟨h1, h2, h3, Or.inr h4⟩
  · intro t ht ho
    exact in_pushing hf hc hx ht hb (ho.resolve_left (by omega))

/-- With an empty next queue no dry state within the limit is first met past
level `d + 1`, and none at `d + 1` is to be expanded. -/
theorem first_le_of_empty (hempty : wk.pushingQueue = []) {m : Nat} {t : T}
    (ht : DryFirst dry settings initial m t) (hw : WithinMax settings m) : m ≤ d + 1 := by
  apply Nat.le_of_not_lt; intro hlt
  by_cases hb : belowMax settings d = true
  · obtain ⟨u, hu, ho⟩ := ht.below (m - (d + 1))
    have hm : m - (m - (d + 1)) = d + 1 := by omega
    rw [hm] at hu ho
    have ho' : DryOpen dry settings initial u := by
      rcases ho with h0 | h0 | h0
      · omega
      · omega
      · exact h0
    obtain ⟨p, hp, _⟩ := in_pushing hf hc hx hu hb ho'
    rw [hempty] at hp; cases hp
  · rw [belowMax_iff] at hb
    push Not at hb
    obtain ⟨k, hk, hdk⟩ := hb
    have := hw k hk
    omega

theorem exhausted_of_empty (hempty : wk.pushingQueue = []) : Exhausted dry settings initial := by
  constructor
  · intro n s hw hp hne
    obtain ⟨m, hmn, hm⟩ := (hp.level dry).first
    have hle := first_le_of_empty hf hc hx hempty hm fun k hk => Nat.le_trans hmn (hw k hk)
    exact hf.checked s hp.reachable (low_succ hf hc hx m hle _ hm.1) hne
  · intro n s hbelow hp ho event he
    obtain ⟨m, hmn, hm⟩ := (hp.level dry).first
    have hbm : BelowMax settings m := fun k hk => Nat.lt_of_le_of_lt hmn (hbelow k hk)
    have hle := first_le_of_empty hf hc hx hempty hm fun k hk => Nat.le_of_lt (hbm k hk)
    have ho' : m = 0 ∨ DryOpen dry settings initial (dry s) := by
      rcases ho with h0 | h0
      · left; omega
      · exact Or.inr ⟨s, hp.reachable, rfl, h0⟩
    rcases Nat.lt_or_ge d m with h | h
    · -- first met at `d + 1`: it would be in the empty queue
      have hmd : m = d + 1 := by omega
      subst hmd
      have hb : belowMax settings d = true :=
        belowMax_iff.mpr fun k hk => Nat.ne_of_lt (hbm k hk)
      obtain ⟨p, hq, _⟩ := in_pushing hf hc hx hm hb (ho'.resolve_left (by omega))
      rw [hempty] at hq; cases hq
    · obtain ⟨s', hs', _⟩ := expanded_le hf hc hx h hm ho' s hp.reachable rfl event he
      exact ⟨s', hs'⟩

end

/-- A verdict names a state or a step that keeps the space from being exhausted. -/
theorem verdict_not_exhausted (law : Lawful dry settings initial) {d : Nat} {D : Discovered T E}
    {r : SearchWorkerResult S E ε} (hb : BelowMax settings d) (hv : Verdict dry settings initial d D r) :
    ¬ Exhausted dry settings initial := by
  intro hex
  have hclean : ∀ s, Reachable initial s → DryFirst dry settings initial (d + 1) (dry s) → Clean settings s := by
    intro s hs hf
    obtain ⟨s₀, hp, hd⟩ := law.path_of_level hf.1
    have hne : dry s₀ ≠ dry initial := by
      intro h
      rw [← hd, h] at hf
      have := hf.unique first_root
      omega
    exact law.clean hp.reachable hs hd (hex.clean _ s₀ (within_of_below hb) hp hne)
  cases r with
  | error s event err =>
    obtain ⟨hq, _, he, hs⟩ := hv
    obtain ⟨s₀, hp, hd⟩ := law.path_of_level hq.first.1
    obtain ⟨he₀, err', hs₀⟩ := law.step_error hq.reachable hp.reachable hd.symm he hs
    have ho : d = 0 ∨ settings.prune s₀ = false :=
      hq.unpruned.imp_right fun h => law.prune_of_open hp.reachable (hd ▸ h)
    obtain ⟨s', hs'⟩ := hex.steps d s₀ hb hp ho event he₀
    rw [hs₀] at hs'; cases hs'
  | invariantViolation s err =>
    obtain ⟨hs, hf, _, hinv⟩ := hv
    have hok := (hclean s hs hf).1
    unfold Holds at hok
    rw [hinv] at hok; cases hok
  | goalFound s =>
    obtain ⟨hs, hf, hgoal⟩ := hv
    have hok := (hclean s hs hf).2
    rw [hgoal] at hok; cases hok
  | spaceExhausted => exact hv

/-! ## The loop over the depths -/

section
variable [DecidableEq T] (law : Lawful dry settings initial)

variable (dry settings initial) in
/-- The outcome of a worker that started depth `d`. -/
def Finished (d fuel : Nat) : Except Panic (SearchWorkerResult S E ε × Discovered T E) → Prop
  | .error _ => False
  | .ok (r, D) => Entries dry settings initial D ∧
      ((r = .spaceExhausted ∧ Exhausted dry settings initial) ∨
        ∃ k, k < d + fuel ∧ BelowMax settings k ∧ Verdict dry settings initial k D r)

include law in
theorem worker_spec : ∀ (fuel d : Nat) (queue : List (S × T)) (D : Discovered T E)
    (x : Except Panic (SearchWorkerResult S E ε × Discovered T E)), Layer dry settings initial d queue D →
    breathFirstWorker dry settings fuel d queue D = some x → Finished dry settings initial d fuel x := by
  intro fuel
  induction fuel with
  | zero => intro d queue D x _ h; cases h
  | succ fuel ih =>
    intro d queue D x hl h
    have hd := drainDepth_spec law queue ⟨D, [], none⟩ hl.queued hl.frontier
    unfold Drained at hd
    simp only [breathFirstWorker] at h
    cases hfin : (drainDepth dry settings d queue ⟨D, [], none⟩).finished with
    | some r =>
      rw [hfin] at hd h
      cases h
      exact ⟨hd.1, Or.inr ⟨d, by omega, hl.below, hd.2⟩⟩
    | none =>
      rw [hfin] at hd h
      obtain ⟨hf, _, hx⟩ := hd
      dsimp only at h hf hx
      split at h
      · rename_i hempty
        cases h
        exact ⟨hf.entries, Or.inl ⟨rfl, exhausted_of_empty hf hl.complete hx (List.isEmpty_iff.mp hempty)⟩⟩
      · rename_i hpush
        obtain ⟨p, hp⟩ := List.exists_mem_of_ne_nil _ (fun e => hpush (List.isEmpty_iff.mpr e))
        have hb : belowMax settings d = true := (hf.pushed p hp).2.2.2.2
        simp only [hb, Bool.not_true, Bool.false_eq_true, if_false] at h
        have := ih (d + 1) _ _ x (layer_next hf hl.complete hx hl.below hb) h
        cases x with
        | error p => exact this
        | ok y =>
          refine ⟨this.1, this.2.imp_right ?_⟩
          rintro ⟨k, hk, h2⟩
          exact ⟨k, by omega, h2⟩

include law in
/-- Every depth the worker starts has a dry state first met there, so a finite
space bounds the depths. -/
theorem worker_returns {R : Finset T} (hR : ∀ s, Reachable initial s → dry s ∈ R) :
    ∀ (fuel d : Nat) (queue : List (S × T)) (D : Discovered T E), Layer dry settings initial d queue D →
      queue ≠ [] → R.card ≤ d + fuel → ∃ x, breathFirstWorker dry settings fuel d queue D = some x := by
  intro fuel
  induction fuel with
  | zero =>
    intro d queue D hl hne hcard
    obtain ⟨p, hp⟩ := List.exists_mem_of_ne_nil _ hne
    have := first_lt_card hR (hl.queued p hp).first
    omega
  | succ fuel ih =>
    intro d queue D hl hne hcard
    have hd := drainDepth_spec law queue ⟨D, [], none⟩ hl.queued hl.frontier
    unfold Drained at hd
    simp only [breathFirstWorker]
    cases hfin : (drainDepth dry settings d queue ⟨D, [], none⟩).finished with
    | some r => exact ⟨_, rfl⟩
    | none =>
      rw [hfin] at hd
      obtain ⟨hf, _, hx⟩ := hd
      dsimp only
      split
      · exact ⟨_, rfl⟩
      · rename_i hpush
        have hpush' : (drainDepth dry settings d queue ⟨D, [], none⟩).pushingQueue ≠ [] :=
          fun e => hpush (List.isEmpty_iff.mpr e)
        obtain ⟨p, hp⟩ := List.exists_mem_of_ne_nil _ hpush'
        have hb : belowMax settings d = true := (hf.pushed p hp).2.2.2.2
        simp only [hb, Bool.not_true, Bool.false_eq_true, if_false]
        exact ih (d + 1) _ _ (layer_next hf hl.complete hx hl.below hb) hpush' (by omega)

theorem worker_mono : ∀ (fuel d : Nat) (queue : List (S × T)) (D : Discovered T E)
    (x : Except Panic (SearchWorkerResult S E ε × Discovered T E)),
    breathFirstWorker dry settings fuel d queue D = some x →
    breathFirstWorker dry settings (fuel + 1) d queue D = some x := by
  intro fuel
  induction fuel with
  | zero => intro d queue D x h; cases h
  | succ fuel ih =>
    intro d queue D x h
    rw [breathFirstWorker] at h ⊢
    split at h
    · exact h
    · rename_i hfin
      split at h
      · rename_i hempty; rw [if_pos hempty]; exact h
      · rename_i hempty
        rw [if_neg hempty]
        split at h
        · rename_i hb; rw [if_pos hb]; exact h
        · rename_i hb
          rw [if_neg hb]
          exact ih _ _ _ _ h

theorem layer_initial : Layer dry settings initial 0 [(initial, dry initial)]
    (initialDiscovered (dry initial)) := by
  have hknown : ∀ t info, (initialDiscovered (dry initial) : Discovered T E) t = some info →
      t = dry initial ∧ info = ⟨none, 0⟩ := by
    intro t info h
    unfold initialDiscovered at h
    by_cases ht : t = dry initial
    · subst ht; rw [Function.update_self] at h; cases h; exact ⟨rfl, rfl⟩
    · rw [Function.update_of_ne ht] at h; cases h
  constructor
  · constructor
    · constructor
      · intro t info h
        obtain ⟨rfl, rfl⟩ := hknown t info h
        exact first_root
      · intro t info h
        obtain ⟨rfl, rfl⟩ := hknown t info h
        exact Or.inl ⟨rfl, rfl⟩
    · rfl
    · intro m hm t ht
      have : m = 0 := by omega
      subst this
      rw [ht.zero]
      exact known_update.mpr (Or.inl rfl)
    · intro t info h
      obtain ⟨rfl, rfl⟩ := hknown t info h
      exact Nat.zero_le _
    · intro s _ ⟨info, h⟩ hne
      exact absurd (hknown _ info h).1 hne
    · intro p hp; cases hp
    · intro t info h hdep
      obtain ⟨rfl, rfl⟩ := hknown t info h
      cases hdep
    · intro m hm; omega
  · intro m _; exact m.pos
  · intro p hp
    rw [List.mem_singleton] at hp
    subst hp
    exact ⟨.initial, rfl, first_root, Or.inl rfl⟩
  · intro t ht _
    exact ⟨_, List.mem_singleton.mpr rfl, ht.1.zero.symm⟩

end

end

end Neatworks.Search
