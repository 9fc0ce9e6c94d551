import Neatworks.SearchCorrect
import Neatworks.SearchDraining

/-!
# What several workers report

`Sound`: in every order of turns the depth is drained, or the space is found
exhausted at the barrier, or the flag stops everybody there. A result in the
slot is right, except that a worker which looks at the next queue late may take
it for empty. Such a worker has left while another one is inside the depth, and
that one never gets through its barrier: a result that `breadth_first` returns
is right.
-/

namespace Neatworks.Search

section
variable {S T E ε : Type*} [State S E ε] (dry : S → T) (settings : Settings S ε) (initial : S)

/-- One worker has left the search, another one is inside a depth. -/
def Deserted (workers : List (Local S T E)) : Prop :=
  (∃ l ∈ workers, l.phase.Inside) ∧ ∃ l ∈ workers, l.phase.Leaving

def Right (D : Discovered T E) (workers : List (Local S T E)) (r : SearchWorkerResult S E ε) : Prop :=
  (r = .spaceExhausted ∧ (Exhausted dry settings initial ∨ Deserted workers)) ∨
    ∃ k, BelowMax settings k ∧ Verdict dry settings initial k D r

/-- What the workers are at. -/
inductive Live (d : Nat) (sh : Shared S T E ε) (workers : List (Local S T E)) : Prop
  | draining {layer : List (S × T)} (h : Draining dry settings initial d layer sh workers)
  | empty (hout : ∀ l ∈ workers, l.phase.Outside) (hq : sh.queues d.bodd = []) (hx : Exhausted dry settings initial)
  | flagged (hf : sh.finished.flag = true) (hout : ∀ l ∈ workers, l.phase = .released ∨ l.phase = .exited)

structure Sound (timed : Bool) (d : Nat) (σ : Threads S T E ε) : Prop where
  entries : Entries dry settings initial σ.shared.discovered
  nonempty : σ.workers ≠ []
  placed : ∀ l ∈ σ.workers, Placed d l
  live : Live dry settings initial d σ.shared σ.workers
  slot : ∀ r, σ.shared.finished.result = some r → Right dry settings initial σ.shared.discovered σ.workers r
  taken : ∀ r, σ.caller.outcome = some (some r) → Right dry settings initial σ.shared.discovered σ.workers r
  timed : σ.caller.outcome = some none → timed = true
  joined : ∀ r, σ.caller = .joined r → ∀ l ∈ σ.workers, l.phase = .exited

variable {dry settings initial} {timed : Bool} {d : Nat} {sh sh' : Shared S T E ε} {workers : List (Local S T E)}
  {i : Nat} {l l' : Local S T E} {r : SearchWorkerResult S E ε}

/-! ## Changes that only add -/

theorem Verdict.mono {D D' : Discovered T E} {k : Nat} (hD : ∀ t, Known D t → Known D' t)
    (h : Verdict dry settings initial k D r) : Verdict dry settings initial k D' r := by
  cases r with
  | error s event err =>
    obtain ⟨hq, hk, hrest⟩ := h
    exact ⟨hq, hD _ hk, hrest⟩
  | invariantViolation s err =>
    obtain ⟨hs, hfirst, hk, hrest⟩ := h
    exact ⟨hs, hfirst, hD _ hk, hrest⟩
  | goalFound s => exact h
  | spaceExhausted => exact h

theorem Right.mono {D D' : Discovered T E} {workers' : List (Local S T E)} (hD : ∀ t, Known D t → Known D' t)
    (hw : Deserted workers → Deserted workers') (h : Right dry settings initial D workers r) :
    Right dry settings initial D' workers' r := by
  rcases h with ⟨hr, hx⟩ | ⟨k, hb, hv⟩
  · exact Or.inl ⟨hr, hx.imp_right hw⟩
  · exact Or.inr ⟨k, hb, hv.mono hD⟩

theorem Draining.finished {layer : List (S × T)} (h : Draining dry settings initial d layer sh workers)
    (fin : SearchFinished (SearchWorkerResult S E ε)) (hflag : sh.finished.flag = true → fin.flag = true) :
    Draining dry settings initial d layer { sh with finished := fin } workers := by
  have hhalt : Halting sh workers → Halting { sh with finished := fin } workers := fun hh => hh.imp_left hflag
  exact ⟨h.below, h.nonempty, h.queued, h.complete, h.low, h.depth, h.past, h.rest, h.next, h.working, h.begun,
    fun l hl hph => (h.drained l hl hph).imp_left hhalt, fun p hp => (h.covered p hp).imp_left hhalt,
    fun t info hi hdep hb ho => (h.fresh t info hi hdep hb ho).imp_left hhalt,
    fun s hs hk hne => (h.checked s hs hk hne).imp_left hhalt⟩

theorem Live.finished (h : Live dry settings initial d sh workers)
    (fin : SearchFinished (SearchWorkerResult S E ε)) (hflag : sh.finished.flag = true → fin.flag = true) :
    Live dry settings initial d { sh with finished := fin } workers := by
  cases h with
  | draining h => exact .draining (h.finished fin hflag)
  | empty hout hq hx => exact .empty hout hq hx
  | flagged hf hout => exact .flagged (hflag hf) hout

theorem Live.inside (h : Live dry settings initial d sh workers) (hl : l ∈ workers) (hin : l.phase.Inside) :
    ∃ layer, Draining dry settings initial d layer sh workers := by
  cases h with
  | draining h => exact ⟨_, h⟩
  | empty hout _ _ =>
    have := hout l hl
    obtain ⟨_, _, phase⟩ := l
    cases phase <;> first | exact this.elim | exact hin.elim
  | flagged _ hout =>
    rcases hout l hl with hph | hph <;> rw [hph] at hin <;> exact hin.elim

/-- The queue a worker looks at after the barrier. -/
theorem testing_queue {e : Nat} {q : Bool} (hp : Placed d (⟨e, q, .testing⟩ : Local S T E)) :
    (!q) = d.bodd ∧ e + 1 = d := by
  cases hp with
  | inside hin => exact hin.elim
  | outside he _ =>
    subst he
    exact ⟨(Nat.bodd_succ e).symm, rfl⟩

variable [DecidableEq T]

theorem inside_step (h : Stepped dry settings sh l sh' l') (hin : l.phase.Inside) : l'.phase.Inside := by
  cases h <;> trivial

theorem leaving_step (h : Stepped dry settings sh l sh' l') (hleave : l.phase.Leaving) : l'.phase.Leaving := by
  cases h <;> trivial

theorem deserted_step (hl : workers[i]? = some l) (h : Stepped dry settings sh l sh' l') (hd : Deserted workers) :
    Deserted (workers.set i l') := by
  constructor
  · rcases some_step l' hl hd.1 with hsome | hin
    · exact hsome
    · exact ⟨l', mem_set_self hl, inside_step h hin⟩
  · rcases some_step l' hl hd.2 with hsome | hleave
    · exact hsome
    · exact ⟨l', mem_set_self hl, leaving_step h hleave⟩

/-! ## A turn of a worker -/

theorem Live.not_panicked (h : Live dry settings initial d sh workers) (hl : workers[i]? = some l) (hp : Placed d l)
    (hs : Stepped dry settings sh l sh' l') : l'.phase ≠ .panicked := by
  have hmem := List.mem_of_getElem? hl
  intro hph
  cases hs with
  | @asserted e q hq hb =>
    obtain ⟨hqd, hed⟩ := testing_queue hp
    cases h with
    | draining h =>
      -- depth `d` is below the limit, so it is not the limit
      have : belowMax settings e = true := belowMax_iff.mpr fun m hm => by
        have := h.below m hm
        omega
      rw [hb] at this
      cases this
    | empty _ hnil _ => exact hq (hqd ▸ hnil)
    | flagged _ hout => exact (hout _ hmem).elim nofun nofun
  | _ => cases hph

theorem Live.step (law : Lawful dry settings initial) (h : Live dry settings initial d sh workers)
    (hent : Entries dry settings initial sh.discovered) (hl : workers[i]? = some l) (hp : Placed d l)
    (hs : Stepped dry settings sh l sh' l') : Live dry settings initial d sh' (workers.set i l') := by
  have hmem := List.mem_of_getElem? hl
  have hpanic := h.not_panicked hl hp hs
  cases h with
  | draining h => exact .draining (h.step law hent hl hp hs)
  | empty hout hq hx =>
    have hqueues : sh'.queues d.bodd = [] := by
      rcases queue_step hp hs with heq | ⟨_, _, _, heq, _⟩
      · rw [heq, hq]
      · rw [hq] at heq
        cases heq
    refine .empty (fun k hk => ?_) hqueues hx
    rcases List.mem_or_eq_of_mem_set hk with hk | rfl
    · exact hout k hk
    · have hlout := hout l hmem
      cases hs with
      | swapped hne _ => exact absurd ((testing_queue hp).1 ▸ hq) hne
      | asserted => exact absurd rfl hpanic
      | _ => trivial
  | flagged hf hout =>
    refine .flagged (stepped_flag hs hf) fun k hk => ?_
    rcases List.mem_or_eq_of_mem_set hk with hk | rfl
    · exact hout k hk
    · cases hs with
      | left _ => exact Or.inr rfl
      | passed hf' =>
        rw [hf] at hf'
        cases hf'
      | _ => exact (hout _ hmem).elim nofun nofun

theorem getOrInsert_cases {R : Type*} {fin : SearchFinished R} {r r' : R}
    (h : (fin.getOrInsert r).result = some r') : fin.result = some r' ∨ r' = r := by
  unfold SearchFinished.getOrInsert at h
  cases hr : fin.result with
  | none =>
    simp only [hr, Option.getD_none, Option.some.injEq] at h
    exact Or.inr h.symm
  | some r₀ =>
    simp only [hr, Option.getD_some, Option.some.injEq] at h
    exact Or.inl (congrArg some h)

/-- A result that a worker puts into the slot. -/
theorem Live.right_step (h : Live dry settings initial d sh workers) (hl : workers[i]? = some l) (hp : Placed d l)
    (hs : Stepped dry settings sh l sh' l') (hr : sh'.finished.result = some r) :
    sh.finished.result = some r ∨ Right dry settings initial sh'.discovered (workers.set i l') r := by
  have hmem := List.mem_of_getElem? hl
  cases hs with
  | @failed e q s t event events err hs =>
    refine (getOrInsert_cases hr).imp_right ?_
    rintro rfl
    obtain ⟨layer, hd⟩ := h.inside hmem trivial
    obtain ⟨hq, hsub, _⟩ := hd.working _ hmem
    cases hp with
    | inside _ =>
      have hqs : Queued dry settings initial d (s, dry s) := by
        rw [show dry s = t from hq.dry_eq]
        exact hq
      exact Or.inr ⟨d, hd.below, hqs, hd.low d (Nat.le_refl d) _ hqs.first.1, hsub event List.mem_cons_self, hs⟩
    | outside _ hout => exact hout.elim
  | violated hi =>
    refine (getOrInsert_cases hr).imp_right ?_
    rintro rfl
    obtain ⟨layer, hd⟩ := h.inside hmem trivial
    obtain ⟨_, hreach, hfirst, hk⟩ := hd.working _ hmem
    exact Or.inr ⟨d, hd.below, hreach, hfirst, hk, hi⟩
  | found _ hg =>
    refine (getOrInsert_cases hr).imp_right ?_
    rintro rfl
    obtain ⟨layer, hd⟩ := h.inside hmem trivial
    obtain ⟨_, hreach, hfirst, _⟩ := hd.working _ hmem
    exact Or.inr ⟨d, hd.below, hreach, hfirst, hg⟩
  | emptied hq =>
    refine (getOrInsert_cases hr).imp_right ?_
    rintro rfl
    rw [(testing_queue hp).1] at hq
    refine Or.inl ⟨rfl, ?_⟩
    cases h with
    | draining h =>
      -- the queue was not empty at the barrier, so somebody is inside the depth
      have hin := h.begun.resolve_left fun heq => h.nonempty (heq ▸ hq)
      refine Or.inr ⟨?_, _, mem_set_self hl, trivial⟩
      exact (some_step _ hl hin).resolve_right id
    | empty _ _ hx => exact Or.inl hx
    | flagged _ hout => exact (hout _ hmem).elim nofun nofun
  | stored => exact Or.inl hr
  | ended => exact Or.inl hr
  | _ => exact Or.inl hr

theorem Sound.worker {σ : Threads S T E ε} (law : Lawful dry settings initial)
    (h : Sound dry settings initial timed d σ) (hl : σ.workers[i]? = some l)
    (hs : Stepped dry settings σ.shared l sh' l') :
    Sound dry settings initial timed d ⟨sh', σ.workers.set i l', σ.caller⟩ := by
  have hmem := List.mem_of_getElem? hl
  have hp := h.placed l hmem
  have hright : ∀ r, Right dry settings initial σ.shared.discovered σ.workers r →
      Right dry settings initial sh'.discovered (σ.workers.set i l') r :=
    fun r => Right.mono (fun t => stepped_known hs) (deserted_step hl hs)
  have hent : Entries dry settings initial sh'.discovered := by
    cases h.live with
    | draining hd => exact hd.entries_step h.entries hl hp hs
    | empty hout _ _ =>
      have hlout := hout l hmem
      cases hs <;> first | exact h.entries | exact hlout.elim
    | flagged _ hout =>
      have hlout := hout l hmem
      cases hs <;> first | exact h.entries | exact hlout.elim nofun nofun
  constructor
  · exact hent
  · intro hnil
    have := congrArg List.length hnil
    rw [List.length_set] at this
    exact h.nonempty (List.length_eq_zero_iff.mp this)
  · intro k hk
    rcases List.mem_or_eq_of_mem_set hk with hk | rfl
    · exact h.placed k hk
    · exact placed_step hp hs (h.live.not_panicked hl hp hs)
  · exact h.live.step law h.entries hl hp hs
  · intro r hr
    rcases h.live.right_step hl hp hs hr with hold | hnew
    · exact hright r (h.slot r hold)
    · exact hnew
  · exact fun r hr => hright r (h.taken r hr)
  · exact h.timed
  · intro r hr
    have hexited := h.joined r hr l hmem
    cases hs <;> cases hexited

end

/-! ## The barrier -/

section
variable {S T E ε : Type*} [State S E ε] {dry : S → T} {settings : Settings S ε} {initial : S} {timed : Bool} {d : Nat}
  {σ : Threads S T E ε}

theorem Placed.waiting {l : Local S T E} (h : Placed d l) (hph : l.phase = .waiting) : l = ⟨d, d.bodd, .waiting⟩ := by
  cases h with
  | inside _ =>
    dsimp only at hph
    rw [hph]
  | outside _ hout =>
    dsimp only at hph
    rw [hph] at hout
    exact hout.elim

/-- All workers wait and none has found a result: the depth is expanded. -/
theorem Draining.drained_all {layer : List (S × T)} {sh : Shared S T E ε} {workers : List (Local S T E)}
    (h : Draining dry settings initial d layer sh workers) (hent : Entries dry settings initial sh.discovered)
    (hne : workers ≠ []) (hwait : ∀ l ∈ workers, l.phase = .waiting) (hflag : sh.finished.flag = false) :
    Frontier dry settings initial d ⟨sh.discovered, sh.queues (!d.bodd), none⟩ ∧
      ∀ p ∈ layer, Expanded dry initial (Known sh.discovered) p.2 := by
  have hhalt : ¬ Halting sh workers := by
    rintro (hf | ⟨l, hl, hph⟩)
    · rw [hflag] at hf
      cases hf
    · rw [hwait l hl] at hph
      cases hph
  have hnobody : ∀ P : Phase S T E → Prop, ¬ P .waiting → ¬ ∃ l ∈ workers, P l.phase := by
    rintro P hP ⟨l, hl, hph⟩
    exact hP (hwait l hl ▸ hph)
  obtain ⟨l, hl⟩ := List.exists_mem_of_ne_nil _ hne
  have hnil : sh.queues d.bodd = [] := (h.drained l hl (hwait l hl)).resolve_left hhalt
  refine ⟨⟨hent, rfl, h.low, h.depth, ?_, h.next, ?_, h.past⟩, ?_⟩
  · intro s hs hk hne
    exact ((h.checked s hs hk hne).resolve_left hhalt).resolve_left (hnobody _ id)
  · intro t info hi hdep hb ho
    exact ((h.fresh t info hi hdep hb ho).resolve_left hhalt).resolve_left (hnobody _ id)
  · intro p hp
    have hrest := (h.covered p hp).resolve_left hhalt
    rw [hnil] at hrest
    exact (hrest.resolve_left List.not_mem_nil).resolve_left (hnobody _ id)

theorem Draining.start {layer : List (S × T)} {sh : Shared S T E ε} {workers : List (Local S T E)}
    (hl : Layer dry settings initial d layer sh.discovered) (hne : layer ≠ []) (hq : sh.queues d.bodd = layer)
    (hnext : sh.queues (!d.bodd) = []) (hout : ∀ l ∈ workers, l.phase = .released ∨ l.phase = .popping) :
    Draining dry settings initial d layer sh workers where
  below := hl.below
  nonempty := hne
  queued := hl.queued
  complete := hl.complete
  low := hl.frontier.low
  depth := hl.frontier.depth
  past := hl.frontier.past
  rest p hp := hq ▸ hp
  next p hp := by
    rw [hnext] at hp
    cases hp
  working l hl := by
    rcases hout l hl with hph | hph <;> rw [hph] <;> trivial
  begun := Or.inl hq
  drained l hl hwait := by
    rcases hout l hl with hph | hph <;> rw [hph] at hwait <;> cases hwait
  covered p hp := Or.inr (Or.inl (hq ▸ hp))
  fresh t info hi hdep hb ho := by
    obtain ⟨p, hp, _⟩ := hl.frontier.fresh t info hi hdep hb ho
    cases hp
  checked s hs hk hne := Or.inr (Or.inr (hl.frontier.checked s hs hk hne))

theorem Sound.barrier (h : Sound dry settings initial timed d σ) (hwait : ∀ l ∈ σ.workers, l.phase = .waiting) :
    Sound dry settings initial timed (d + 1) { σ with workers := σ.workers.map Local.release } := by
  obtain ⟨l, hl⟩ := List.exists_mem_of_ne_nil _ h.nonempty
  have hreleased : ∀ k ∈ σ.workers.map Local.release, k.phase = .released := by
    intro k hk
    obtain ⟨k₀, _, rfl⟩ := List.mem_map.mp hk
    rfl
  have hstay : ¬ Deserted σ.workers := by
    rintro ⟨_, k, hk, hleave⟩
    rw [hwait k hk] at hleave
    exact hleave
  have hright : ∀ r, Right dry settings initial σ.shared.discovered σ.workers r →
      Right dry settings initial σ.shared.discovered (σ.workers.map Local.release) r :=
    fun r => Right.mono (fun _ ht => ht) (fun hd => absurd hd hstay)
  obtain ⟨layer, hd⟩ := h.live.inside hl (by rw [hwait l hl]; trivial)
  constructor
  · exact h.entries
  · simpa using h.nonempty
  · intro k hk
    obtain ⟨k₀, hk₀, rfl⟩ := List.mem_map.mp hk
    rw [(h.placed k₀ hk₀).waiting (hwait k₀ hk₀)]
    exact .outside rfl trivial
  · by_cases hf : σ.shared.finished.flag = true
    · exact .flagged hf fun k hk => Or.inl (hreleased k hk)
    rw [Bool.not_eq_true] at hf
    obtain ⟨hfront, hx⟩ := hd.drained_all h.entries h.nonempty hwait hf
    have hnil : σ.shared.queues d.bodd = [] := by
      refine (hd.drained l hl (hwait l hl)).resolve_left ?_
      rintro (hf' | ⟨k, hk, hph⟩)
      · rw [hf] at hf'
        cases hf'
      · rw [hwait k hk] at hph
        cases hph
    by_cases hnext : σ.shared.queues (!d.bodd) = []
    · refine .empty (fun k hk => ?_) (by rw [Nat.bodd_succ]; exact hnext) ?_
      · rw [hreleased k hk]
        trivial
      · exact exhausted_of_empty hfront hd.complete hx hnext
    · obtain ⟨p, hp⟩ := List.exists_mem_of_ne_nil _ hnext
      have hb : belowMax settings d = true := (hd.next p hp).2.2.2.2
      refine .draining (.start (layer_next hfront hd.complete hx hd.below hb) hnext ?_ ?_ ?_)
      · rw [Nat.bodd_succ]
      · rw [Nat.bodd_succ, Bool.not_not]
        exact hnil
      · exact fun k hk => Or.inl (hreleased k hk)
  · exact fun r hr => hright r (h.slot r hr)
  · exact fun r hr => hright r (h.taken r hr)
  · exact h.timed
  · intro r hr
    have hexited := h.joined r hr l hl
    rw [hwait l hl] at hexited
    cases hexited

/-! ## Whole runs -/

/-- What the waiting thread does in one turn. -/
theorem callerStep_cases {R : Type*} {timed timeOut exited : Bool} {fin fin' : SearchFinished R} {c c' : Caller R}
    (h : callerStep timed timeOut exited fin c = some (fin', c')) :
    (fin.flag = true → fin'.flag = true) ∧ (∀ r, fin'.result = some r → fin.result = some r) ∧
      (∀ r, c'.outcome = some (some r) → c.outcome = some (some r) ∨ fin.result = some r) ∧
      (c'.outcome = some none → c.outcome = some none ∨ timed = true) ∧
      (∀ r, c' = .joined r → exited = true) := by
  cases c with
  | waiting =>
    simp only [callerStep] at h
    split at h
    · next hr =>
      cases h
      exact ⟨id, nofun, fun r hr' => Or.inr (hr.trans (Option.some.inj hr')), nofun, nofun⟩
    · split at h <;> cases h
      next ht =>
      rw [Bool.and_eq_true] at ht
      exact ⟨id, fun _ => id, nofun, fun _ => Or.inr ht.1, nofun⟩
  | taken result =>
    cases h
    exact ⟨fun _ => rfl, fun _ => id, fun _ => Or.inl, Or.inl, nofun⟩
  | stored result =>
    simp only [callerStep] at h
    split at h <;> cases h
    next hexited => exact ⟨id, fun _ => id, fun _ => Or.inl, Or.inl, fun _ _ => hexited⟩
  | joined result => cases h

theorem Sound.caller (h : Sound dry settings initial timed d σ) {timeOut : Bool}
    {fin : SearchFinished (SearchWorkerResult S E ε)} {c : Caller (SearchWorkerResult S E ε)}
    (hc : callerStep timed timeOut (σ.workers.all (·.phase.isExited)) σ.shared.finished σ.caller = some (fin, c)) :
    Sound dry settings initial timed d { σ with shared := { σ.shared with finished := fin }, caller := c } := by
  obtain ⟨hflag, hslot, htaken, htimed, hjoined⟩ := callerStep_cases hc
  constructor
  · exact h.entries
  · exact h.nonempty
  · exact h.placed
  · exact h.live.finished fin hflag
  · exact fun r hr => h.slot r (hslot r hr)
  · exact fun r hr => (htaken r hr).elim (h.taken r) (h.slot r)
  · exact fun hr => (htimed hr).elim h.timed id
  · intro r hr l hl
    have := List.all_eq_true.mp (hjoined r hr) l hl
    cases hph : l.phase <;> rw [hph] at this <;> first | rfl | cases this

variable [DecidableEq T]

theorem sound_spawned (numWorker : ℕ+) : Sound dry settings initial timed 0 (spawned dry numWorker initial) := by
  have hpop : ∀ l ∈ (spawned dry numWorker initial : Threads S T E ε).workers, l = ⟨0, false, .popping⟩ :=
    fun l hl => List.eq_of_mem_replicate hl
  constructor
  · exact layer_initial.frontier.entries
  · intro hnil
    have := congrArg List.length hnil
    rw [spawned, List.length_replicate] at this
    exact numWorker.pos.ne' this
  · intro l hl
    rw [hpop l hl]
    exact .inside trivial
  · exact .draining (.start layer_initial (by simp) rfl rfl fun l hl => Or.inr (by rw [hpop l hl]))
  · nofun
  · nofun
  · nofun
  · nofun

theorem sound_turn (law : Lawful dry settings initial) {σ' : Threads S T E ε} {t : Turn}
    (h : Sound dry settings initial timed d σ) (ht : turn dry settings timed σ t = some σ') :
    ∃ d', Sound dry settings initial timed d' σ' := by
  cases t with
  | worker i =>
    simp only [turn] at ht
    split at ht
    · cases ht
    · next hl =>
      split at ht <;> cases ht
      next hs => exact ⟨d, h.worker law hl (stepped_of_step hs)⟩
  | barrier =>
    simp only [turn] at ht
    split at ht <;> cases ht
    next hall =>
    refine ⟨d + 1, h.barrier fun l hl => ?_⟩
    have := List.all_eq_true.mp hall l hl
    cases hph : l.phase <;> rw [hph] at this <;> first | rfl | cases this
  | caller timeOut =>
    simp only [turn] at ht
    split at ht <;> cases ht
    next hc => exact ⟨d, h.caller hc⟩

theorem sound_reach (law : Lawful dry settings initial) {numWorker : ℕ+}
    (h : (threads dry settings timed numWorker initial).Reach Machine.always σ) :
    ∃ d, Sound dry settings initial timed d σ := by
  refine h.invariant (I := fun σ => ∃ d, Sound dry settings initial timed d σ) (fun σ hσ => ⟨0, ?_⟩)
    fun σ t σ' _ ⟨d, hs⟩ _ ht => sound_turn law hs ht
  obtain rfl := hσ
  exact sound_spawned numWorker

def Caller.isJoined {R : Type*} : Caller R → Bool
  | .joined _ => true
  | _ => false

/-- `assert_ne!` on the depth holds in every order of the turns. -/
theorem workers_panic_free (law : Lawful dry settings initial) {numWorker : ℕ+}
    (h : (threads dry settings timed numWorker initial).Reach Machine.always σ) :
    ∀ l ∈ σ.workers, l.phase ≠ .panicked := by
  intro l hl hph
  obtain ⟨d, hs⟩ := sound_reach law h
  cases hs.placed l hl with
  | inside hin =>
    dsimp only at hph
    rw [hph] at hin
    exact hin
  | outside _ hout =>
    dsimp only at hph
    rw [hph] at hout
    exact hout

end

end Neatworks.Search
