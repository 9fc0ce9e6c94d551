import Mathlib.Data.Nat.Bits
import Neatworks.SearchWorkers

/-!
# One depth drained by several workers

All workers are inside one depth, or have passed the barrier before it
(`Placed`). `Draining` is what holds while somebody may expand that depth: what
`Frontier` and `Layer` say of a single worker holds up to the states that some
worker has in hand, and up to a worker that has found a result. Every turn of a
worker keeps it.
-/

namespace Neatworks.Search

section
variable {S T E ε : Type*}

namespace Phase

/-- From the depth loop to the barrier after it. -/
def Inside : Phase S T E → Prop
  | .popping | .stepping .. | .checking .. | .finishing | .waiting => True
  | _ => False

/-- From the barrier to the next depth, or out of the search. -/
def Outside : Phase S T E → Prop
  | .released | .testing | .exhausting | .exited => True
  | _ => False

def Leaving : Phase S T E → Prop
  | .exhausting | .exited => True
  | _ => False

/-- The worker expands the popped `p`. -/
def Holds (p : S × T) : Phase S T E → Prop
  | .stepping s t _ | .checking s t _ _ => (s, t) = p
  | _ => False

/-- The worker has inserted `t` and not yet looked at its state. -/
def Pending (dry : S → T) (t : T) : Phase S T E → Prop
  | .checking _ _ _ s' => dry s' = t
  | _ => False

end Phase

/-- Depth `d` is the one being drained. -/
inductive Placed (d : Nat) : Local S T E → Prop
  | inside {phase : Phase S T E} (h : phase.Inside) : Placed d ⟨d, d.bodd, phase⟩
  | outside {e : Nat} {phase : Phase S T E} (he : e + 1 = d) (h : phase.Outside) : Placed d ⟨e, e.bodd, phase⟩

/-- A result is found: the flag is stored, or about to be. -/
def Halting (sh : Shared S T E ε) (workers : List (Local S T E)) : Prop :=
  sh.finished.flag = true ∨ ∃ l ∈ workers, l.phase = .finishing

section
variable {sh : Shared S T E ε} {workers : List (Local S T E)} {i : Nat} {l l' : Local S T E}

theorem mem_set_self (hl : workers[i]? = some l) : l' ∈ workers.set i l' := by
  obtain ⟨hi, _⟩ := List.getElem?_eq_some_iff.mp hl
  exact List.mem_of_getElem? (List.getElem?_set_self hi)

theorem halting_self (hl : workers[i]? = some l) (hph : l'.phase = .finishing) : Halting sh (workers.set i l') :=
  Or.inr ⟨l', mem_set_self hl, hph⟩

/-- What some worker has, some worker still has, or it was the one that moved. -/
theorem some_step {P : Phase S T E → Prop} (l' : Local S T E) (hl : workers[i]? = some l) (h : ∃ k ∈ workers, P k.phase) :
    (∃ k ∈ workers.set i l', P k.phase) ∨ P l.phase := by
  obtain ⟨k, hk, hP⟩ := h
  rcases eq_or_mem_set hl hk with rfl | hmem
  · exact Or.inr hP
  · exact Or.inl ⟨k, hmem, hP⟩

end

variable [State S E ε] (dry : S → T) (settings : Settings S ε) (initial : S)

/-- The events of `s` but the listed ones lead to discovered states. -/
structure Stepping (D : Discovered T E) (d : Nat) (s : S) (t : T) (events : List E) : Prop where
  queued : Queued dry settings initial d (s, t)
  sub : ∀ event ∈ events, event ∈ State.events s
  done : ∀ event ∈ State.events s, event ∈ events ∨ ∃ s', State.step s event = .ok s' ∧ Known D (dry s')

def Working (D : Discovered T E) (d : Nat) : Phase S T E → Prop
  | .stepping s t events => Stepping dry settings initial D d s t events
  | .checking s t events s' => Stepping dry settings initial D d s t events ∧ Reachable initial s' ∧
      DryFirst dry settings initial (d + 1) (dry s') ∧ Known D (dry s')
  | _ => True

/-- `layer` is what the queue held when the depth began. -/
structure Draining (d : Nat) (layer : List (S × T)) (sh : Shared S T E ε) (workers : List (Local S T E)) : Prop where
  below : BelowMax settings d
  nonempty : layer ≠ []
  queued : ∀ p ∈ layer, Queued dry settings initial d p
  complete : ∀ t, DryFirst dry settings initial d t → d = 0 ∨ DryOpen dry settings initial t → ∃ p ∈ layer, p.2 = t
  low : ∀ m ≤ d, ∀ t, DryLevel dry settings initial m t → Known sh.discovered t
  depth : ∀ t info, sh.discovered t = some info → info.depth ≤ d + 1
  past : ∀ m < d, ∀ t, DryFirst dry settings initial m t → m = 0 ∨ DryOpen dry settings initial t →
    Expanded dry initial (Known sh.discovered) t
  rest : ∀ p ∈ sh.queues d.bodd, p ∈ layer
  next : ∀ p ∈ sh.queues (!d.bodd), Reachable initial p.1 ∧ dry p.1 = p.2 ∧
    DryFirst dry settings initial (d + 1) p.2 ∧ DryOpen dry settings initial p.2 ∧ belowMax settings d = true
  working : ∀ l ∈ workers, Working dry settings initial sh.discovered d l.phase
  begun : sh.queues d.bodd = layer ∨ ∃ l ∈ workers, l.phase.Inside
  drained : ∀ l ∈ workers, l.phase = .waiting → Halting sh workers ∨ sh.queues d.bodd = []
  covered : ∀ p ∈ layer, Halting sh workers ∨ p ∈ sh.queues d.bodd ∨ (∃ l ∈ workers, l.phase.Holds p) ∨
    Expanded dry initial (Known sh.discovered) p.2
  fresh : ∀ t info, sh.discovered t = some info → info.depth = d + 1 → belowMax settings d = true →
    DryOpen dry settings initial t →
    Halting sh workers ∨ (∃ l ∈ workers, l.phase.Pending dry t) ∨ ∃ p ∈ sh.queues (!d.bodd), p.2 = t
  checked : ∀ s, Reachable initial s → Known sh.discovered (dry s) → dry s ≠ dry initial →
    Halting sh workers ∨ (∃ l ∈ workers, l.phase.Pending dry (dry s)) ∨ Clean settings s

variable {dry settings initial}

/-! ## What a turn of a worker changes -/

section
variable {d : Nat} {D D' : Discovered T E} {sh sh' : Shared S T E ε} {workers : List (Local S T E)} {i : Nat}
  {l l' : Local S T E}

theorem Stepping.mono {s : S} {t : T} {events : List E} (hD : ∀ t, Known D t → Known D' t)
    (h : Stepping dry settings initial D d s t events) : Stepping dry settings initial D' d s t events where
  queued := h.queued
  sub := h.sub
  done event he := (h.done event he).imp_right fun ⟨s', hs, hk⟩ => ⟨s', hs, hD _ hk⟩

theorem Working.mono {phase : Phase S T E} (hD : ∀ t, Known D t → Known D' t)
    (h : Working dry settings initial D d phase) : Working dry settings initial D' d phase := by
  cases phase with
  | stepping s t events => exact Stepping.mono hD h
  | checking s t events s' =>
    obtain ⟨hstep, hs', hfirst, hk⟩ := h
    exact ⟨hstep.mono hD, hs', hfirst, hD _ hk⟩
  | _ => trivial

/-- One event fewer, which led to a discovered state. -/
theorem Stepping.tail {s s' : S} {t : T} {event : E} {events : List E}
    (h : Stepping dry settings initial D d s t (event :: events)) (hs : State.step s event = .ok s')
    (hk : Known D (dry s')) : Stepping dry settings initial D d s t events where
  queued := h.queued
  sub e he := h.sub e (List.mem_cons_of_mem _ he)
  done e he := by
    rcases h.done e he with hmem | hdone
    · rcases List.mem_cons.mp hmem with rfl | hmem
      · exact Or.inr ⟨s', hs, hk⟩
      · exact Or.inl hmem
    · exact Or.inr hdone

/-- All events of a popped state have led to discovered states. -/
theorem Stepping.expanded (law : Lawful dry settings initial) {s : S} {t : T}
    (h : Stepping dry settings initial D d s t []) : Expanded dry initial (Known D) t := by
  intro r hr hd event he
  have hsame : dry r = dry s := hd.trans h.queued.dry_eq.symm
  have he' : event ∈ State.events s := law.events r s hr h.queued.reachable hsame ▸ he
  obtain ⟨s', hs', hk⟩ := (h.done event he').resolve_left List.not_mem_nil
  obtain ⟨_, r', hr', hd'⟩ := law.step_ok h.queued.reachable hr hsame.symm he' hs'
  exact ⟨r', hr', hd' ▸ hk⟩

variable [DecidableEq T]

theorem stepped_known (h : Stepped dry settings sh l sh' l') {t : T} (ht : Known sh.discovered t) :
    Known sh'.discovered t := by
  cases h with
  | inserted hs hk => exact known_update.mpr (Or.inr ht)
  | _ => exact ht

theorem stepped_flag (h : Stepped dry settings sh l sh' l') (hf : sh.finished.flag = true) :
    sh'.finished.flag = true := by
  cases h <;> first | exact hf | rfl

theorem halting_step (hl : workers[i]? = some l) (h : Stepped dry settings sh l sh' l') (hh : Halting sh workers) :
    Halting sh' (workers.set i l') := by
  rcases hh with hf | ⟨k, hk, hph⟩
  · exact Or.inl (stepped_flag h hf)
  · rcases eq_or_mem_set hl hk with rfl | hmem
    · cases h <;> cases hph
      exact Or.inl rfl
    · exact Or.inr ⟨k, hmem, hph⟩

theorem placed_step (hp : Placed d l) (h : Stepped dry settings sh l sh' l') (hpanic : l'.phase ≠ .panicked) :
    Placed d l' := by
  cases hp with
  | inside hin => cases h <;> first | exact .inside trivial | exact hin.elim
  | outside he hout =>
    cases h with
    | left _ => exact .outside he trivial
    | passed _ => exact .outside he trivial
    | emptied _ => exact .outside he trivial
    | asserted _ _ => exact absurd rfl hpanic
    | @swapped e _ _ _ =>
      subst he
      rw [← Nat.bodd_succ]
      exact .inside trivial
    | ended => exact .outside he trivial
    | _ => exact hout.elim

end

/-! ## A turn keeps the depth -/

section
variable [DecidableEq T] {d : Nat} {layer : List (S × T)} {sh sh' : Shared S T E ε} {workers : List (Local S T E)}
  {i : Nat} {l l' : Local S T E}

/-- A dry state that is not discovered is one level below the state in hand. -/
theorem Draining.first_succ (h : Draining dry settings initial d layer sh workers)
    (hent : Entries dry settings initial sh.discovered) {s s' : S} {t : T} {event : E} {events : List E}
    (hw : Stepping dry settings initial sh.discovered d s t (event :: events)) (hs : State.step s event = .ok s')
    (hnone : sh.discovered (dry s') = none) :
    Entries dry settings initial (sh.discover (dry s') ⟨some (event, t), d + 1⟩).discovered ∧
      Reachable initial s' ∧ DryFirst dry settings initial (d + 1) (dry s') := by
  have hq := hw.queued
  have he : event ∈ State.events s := hw.sub event List.mem_cons_self
  have hedge : Edge dry initial t event (dry s') := ⟨s, s', hq.reachable, hq.dry_eq, he, hs, rfl⟩
  have hfirst : DryFirst dry settings initial (d + 1) (dry s') := by
    refine ⟨.step hq.first.1 hq.unpruned ⟨event, hedge⟩, fun m hm => ?_⟩
    rcases Nat.lt_or_ge d m with hlt | hle
    · exact hlt
    · obtain ⟨info, hi⟩ := h.low m hle _ hm
      rw [hnone] at hi
      cases hi
  obtain ⟨info, hi⟩ := h.low d (Nat.le_refl d) t hq.first.1
  have hdep : info.depth = d := (hent.first _ _ hi).unique hq.first
  have hins := hent.insert hi hnone (hdep.symm ▸ hfirst) (hdep.symm ▸ hq.unpruned) hedge
  rw [hdep] at hins
  exact ⟨hins, .step hq.reachable he hs, hfirst⟩

theorem Draining.entries_step (h : Draining dry settings initial d layer sh workers)
    (hent : Entries dry settings initial sh.discovered) (hl : workers[i]? = some l) (hp : Placed d l)
    (hs : Stepped dry settings sh l sh' l') : Entries dry settings initial sh'.discovered := by
  have hw := h.working l (List.mem_of_getElem? hl)
  cases hs with
  | inserted hs hk =>
    cases hp with
    | inside _ => exact (h.first_succ hent hw hs hk).1
    | outside _ hout => exact hout.elim
  | _ => exact hent

theorem Draining.working_step (h : Draining dry settings initial d layer sh workers)
    (hent : Entries dry settings initial sh.discovered) (hl : workers[i]? = some l) (hp : Placed d l)
    (hs : Stepped dry settings sh l sh' l') :
    ∀ k ∈ workers.set i l', Working dry settings initial sh'.discovered d k.phase := by
  intro k hmem
  rcases List.mem_or_eq_of_mem_set hmem with hmem | rfl
  · exact (h.working k hmem).mono fun t => stepped_known hs
  have hw := h.working l (List.mem_of_getElem? hl)
  cases hs with
  | @popped e q s t queue hq =>
    cases hp with
    | inside _ =>
      have hmem : (s, t) ∈ layer := h.rest _ (hq ▸ List.mem_cons_self)
      exact ⟨h.queued _ hmem, fun _ he => he, fun _ he => Or.inl he⟩
    | outside _ hout => exact hout.elim
  | known hs hk => exact Stepping.tail hw hs hk
  | @inserted _ _ _ t event _ s' hs hk =>
    cases hp with
    | inside _ =>
      obtain ⟨_, hreach, hfirst⟩ := h.first_succ hent hw hs hk
      have hself : Known (sh.discover (dry s') ⟨some (event, t), d + 1⟩).discovered (dry s') :=
        known_update.mpr (Or.inl rfl)
      exact ⟨Stepping.tail (hw.mono fun _ ht => known_update.mpr (Or.inr ht)) hs hself, hreach, hfirst, hself⟩
    | outside _ hout => exact hout.elim
  | pushed _ _ _ => exact hw.1
  | kept _ _ => exact hw.1
  | _ => trivial

/-- The queue of the depth only shrinks. -/
theorem queue_step (hp : Placed d l) (hs : Stepped dry settings sh l sh' l') :
    sh'.queues d.bodd = sh.queues d.bodd ∨
      l.phase.Inside ∧ l'.phase.Inside ∧ ∃ p, sh.queues d.bodd = p :: sh'.queues d.bodd ∧ l'.phase.Holds p := by
  cases hs with
  | @popped e q s t queue hq =>
    cases hp with
    | inside _ =>
      refine Or.inr ⟨trivial, trivial, (s, t), ?_, rfl⟩
      simp [hq]
    | outside _ hout => exact hout.elim
  | pushed _ _ _ =>
    cases hp with
    | inside _ => exact Or.inl (by simp)
    | outside _ hout => exact hout.elim
  | _ => exact Or.inl rfl

/-- The next queue only grows, by states that are to be expanded. -/
theorem next_step (hp : Placed d l) (hs : Stepped dry settings sh l sh' l') :
    sh'.queues (!d.bodd) = sh.queues (!d.bodd) ∨
      ∃ s t events s', l.phase = .checking s t events s' ∧ belowMax settings d = true ∧ settings.prune s' = false ∧
        sh'.queues (!d.bodd) = sh.queues (!d.bodd) ++ [(s', dry s')] := by
  cases hs with
  | popped hq =>
    cases hp with
    | inside _ => exact Or.inl (by simp)
    | outside _ hout => exact hout.elim
  | pushed _ hb hprune =>
    cases hp with
    | inside _ => exact Or.inr ⟨_, _, _, _, rfl, hb, hprune, by simp⟩
    | outside _ hout => exact hout.elim
  | _ => exact Or.inl rfl

/-- A discovered state is an old one, or the moving worker has it in hand. -/
theorem entry_step (hp : Placed d l) (hs : Stepped dry settings sh l sh' l') {t : T} {info : StateInfo T E}
    (hi : sh'.discovered t = some info) : sh.discovered t = some info ∨ info.depth = d + 1 ∧ l'.phase.Pending dry t := by
  cases hs with
  | @inserted e q s u event events s' hs hk =>
    cases hp with
    | inside _ =>
      by_cases ht : t = dry s'
      · subst ht
        simp only [Shared.discover, Function.update_self] at hi
        cases hi
        exact Or.inr ⟨rfl, rfl⟩
      · simp only [Shared.discover, Function.update_of_ne ht] at hi
        exact Or.inl hi
    | outside _ hout => exact hout.elim
  | _ => exact Or.inl hi

/-- A worker that lets go of a popped state has expanded it, or halts. -/
theorem Draining.holds_step (law : Lawful dry settings initial) (h : Draining dry settings initial d layer sh workers)
    (hl : workers[i]? = some l) (hs : Stepped dry settings sh l sh' l') {p : S × T} (hh : l.phase.Holds p) :
    Halting sh' (workers.set i l') ∨ l'.phase.Holds p ∨ Expanded dry initial (Known sh'.discovered) p.2 := by
  have hw := h.working l (List.mem_of_getElem? hl)
  cases hs with
  | stopped hf => exact Or.inl (Or.inl hf)
  | next _ =>
    cases hh
    exact Or.inr (Or.inr (Stepping.expanded law hw))
  | failed _ => exact Or.inl (halting_self hl rfl)
  | violated _ => exact Or.inl (halting_self hl rfl)
  | found _ _ => exact Or.inl (halting_self hl rfl)
  | known _ _ => exact Or.inr (Or.inl hh)
  | inserted _ _ => exact Or.inr (Or.inl hh)
  | pushed _ _ _ => exact Or.inr (Or.inl hh)
  | kept _ _ => exact Or.inr (Or.inl hh)
  | _ => exact hh.elim

/-- A worker that has looked at the state in hand halts, or the state is clean
and queued if it is to be expanded. -/
theorem pending_step (hl : workers[i]? = some l) (hp : Placed d l) (hs : Stepped dry settings sh l sh' l') {t : T}
    (hpend : l.phase.Pending dry t) :
    Halting sh' (workers.set i l') ∨ ∃ s', Working dry settings initial sh.discovered d l.phase → dry s' = t ∧
      Reachable initial s' ∧ Clean settings s' ∧
      (belowMax settings d = true → settings.prune s' = false → ∃ p ∈ sh'.queues (!d.bodd), p.2 = t) := by
  cases hs with
  | violated _ => exact Or.inl (halting_self hl rfl)
  | found _ _ => exact Or.inl (halting_self hl rfl)
  | @pushed e q s u events s' hc hb hprune =>
    cases hp with
    | inside _ =>
      refine Or.inr ⟨s', fun hw => ⟨hpend, hw.2.1, hc, fun _ _ => ⟨(s', dry s'), ?_, hpend⟩⟩⟩
      simp
    | outside _ hout => exact hout.elim
  | @kept e q s u events s' hc hb =>
    cases hp with
    | inside _ =>
      refine Or.inr ⟨s', fun hw => ⟨hpend, hw.2.1, hc, fun hbelow hprune => ?_⟩⟩
      rw [hb hbelow] at hprune
      cases hprune
    | outside _ hout => exact hout.elim
  | _ => exact hpend.elim

theorem Draining.step (law : Lawful dry settings initial) (h : Draining dry settings initial d layer sh workers)
    (hent : Entries dry settings initial sh.discovered) (hl : workers[i]? = some l) (hp : Placed d l)
    (hs : Stepped dry settings sh l sh' l') : Draining dry settings initial d layer sh' (workers.set i l') := by
  have hw := h.working l (List.mem_of_getElem? hl)
  have hmono : ∀ t, Known sh.discovered t → Known sh'.discovered t := fun t => stepped_known hs
  have hhalt : Halting sh workers → Halting sh' (workers.set i l') := halting_step hl hs
  have hnext : ∀ p ∈ sh.queues (!d.bodd), p ∈ sh'.queues (!d.bodd) := by
    intro p hmem
    rcases next_step hp hs with heq | ⟨_, _, _, _, _, _, _, heq⟩ <;> rw [heq]
    · exact hmem
    · exact List.mem_append_left _ hmem
  constructor
  · exact h.below
  · exact h.nonempty
  · exact h.queued
  · exact h.complete
  · exact fun m hm t ht => hmono t (h.low m hm t ht)
  · intro t info hi
    rcases entry_step hp hs hi with hold | ⟨hdep, _⟩
    · exact h.depth t info hold
    · omega
  · exact fun m hm t ht ho => (h.past m hm t ht ho).mono hmono
  · intro p hmem
    rcases queue_step hp hs with heq | ⟨_, _, q, heq, _⟩
    · exact h.rest p (heq ▸ hmem)
    · exact h.rest p (heq ▸ List.mem_cons_of_mem _ hmem)
  · intro p hmem
    rcases next_step hp hs with heq | ⟨s, t, events, s', hph, hb, hprune, heq⟩
    · exact h.next p (heq ▸ hmem)
    · rw [heq] at hmem
      rcases List.mem_append.mp hmem with hmem | hmem
      · exact h.next p hmem
      · rw [hph] at hw
        obtain rfl := List.mem_singleton.mp hmem
        exact ⟨hw.2.1, rfl, hw.2.2.1, ⟨s', hw.2.1, rfl, hprune⟩, hb⟩
  · exact h.working_step hent hl hp hs
  · rcases queue_step hp hs with heq | ⟨_, hin, _⟩
    · rw [heq]
      rcases h.begun with hlayer | hsome
      · exact Or.inl hlayer
      · rcases some_step l' hl hsome with hsome | hin
        · exact Or.inr hsome
        · refine Or.inr ⟨l', mem_set_self hl, ?_⟩
          cases hs <;> trivial
    · exact Or.inr ⟨l', mem_set_self hl, hin⟩
  · intro k hk hph
    have hshrink : sh.queues d.bodd = [] → sh'.queues d.bodd = [] := by
      intro hnil
      rcases queue_step hp hs with heq | ⟨_, _, _, heq, _⟩
      · rw [heq, hnil]
      · rw [hnil] at heq
        cases heq
    rcases List.mem_or_eq_of_mem_set hk with hmem | rfl
    · exact (h.drained k hmem hph).imp hhalt hshrink
    · cases hs with
      | drained hq =>
        cases hp with
        | inside _ => exact Or.inr hq
        | outside _ hout => exact hout.elim
      | stopped hf => exact Or.inl (Or.inl hf)
      | stored => exact Or.inl (Or.inl rfl)
      | _ => cases hph
  · intro p hmem
    rcases h.covered p hmem with hh | hq | hhold | hx
    · exact Or.inl (hhalt hh)
    · rcases queue_step hp hs with heq | ⟨_, _, q, heq, hhold⟩
      · exact Or.inr (Or.inl (heq ▸ hq))
      · rw [heq] at hq
        rcases List.mem_cons.mp hq with rfl | hq
        · exact Or.inr (Or.inr (Or.inl ⟨l', mem_set_self hl, hhold⟩))
        · exact Or.inr (Or.inl hq)
    · rcases some_step l' hl hhold with hhold | hhold
      · exact Or.inr (Or.inr (Or.inl hhold))
      · rcases h.holds_step law hl hs hhold with hh | hhold | hx
        · exact Or.inl hh
        · exact Or.inr (Or.inr (Or.inl ⟨l', mem_set_self hl, hhold⟩))
        · exact Or.inr (Or.inr (Or.inr hx))
    · exact Or.inr (Or.inr (Or.inr (hx.mono hmono)))
  · intro t info hi hdep hb ho
    rcases entry_step hp hs hi with hold | ⟨_, hpend⟩
    · rcases h.fresh t info hold hdep hb ho with hh | hpend | ⟨p, hmem, hpt⟩
      · exact Or.inl (hhalt hh)
      · rcases some_step l' hl hpend with hpend | hpend
        · exact Or.inr (Or.inl hpend)
        · rcases pending_step hl hp hs hpend with hh | ⟨s', hs'⟩
          · exact Or.inl hh
          · obtain ⟨rfl, hreach, _, hpush⟩ := hs' hw
            exact Or.inr (Or.inr (hpush hb (law.prune_of_open hreach ho)))
      · exact Or.inr (Or.inr ⟨p, hnext p hmem, hpt⟩)
    · exact Or.inr (Or.inl ⟨l', mem_set_self hl, hpend⟩)
  · intro s hreach ⟨info, hi⟩ hne
    rcases entry_step hp hs hi with hold | ⟨_, hpend⟩
    · rcases h.checked s hreach ⟨info, hold⟩ hne with hh | hpend | hc
      · exact Or.inl (hhalt hh)
      · rcases some_step l' hl hpend with hpend | hpend
        · exact Or.inr (Or.inl hpend)
        · rcases pending_step hl hp hs hpend with hh | ⟨s', hs'⟩
          · exact Or.inl hh
          · obtain ⟨hd, hreach', hc, _⟩ := hs' hw
            exact Or.inr (Or.inr (law.clean hreach' hreach hd hc))
      · exact Or.inr (Or.inr hc)
    · exact Or.inr (Or.inl ⟨l', mem_set_self hl, hpend⟩)

end

end

end Neatworks.Search
