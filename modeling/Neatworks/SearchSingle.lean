import Neatworks.SearchProbe

/-!
# One worker among threads is the sequential search

`breathFirstWorker` describes one worker as a loop. What a run of the threads
with one worker ends in is what that loop returns: every turn leaves the
outcome of the rest of the loop (`resume`) as it was.
-/

namespace Neatworks.Search

section
variable {S T E ε : Type*} [State S E ε] [DecidableEq T] (dry : S → T) (settings : Settings S ε) (initial : S)

/-- The loop of `breathFirstWorker` from the end of a depth. -/
def depthEnd (fuel d : Nat) (wk : Worker S T E ε) : Option (Except Panic (SearchWorkerResult S E ε × Discovered T E)) :=
  match wk.finished with
  | some result => some (.ok (result, wk.discovered))
  | none =>
    if wk.pushingQueue.isEmpty then some (.ok (.spaceExhausted, wk.discovered))
    else if !belowMax settings d then some (.error .assertNe)
    else breathFirstWorker dry settings fuel (d + 1) wk.pushingQueue wk.discovered

/-- The rest of a depth after the loop over the events. -/
def drainRest (d : Nat) (queue : List (S × T)) (wk : Worker S T E ε) : Worker S T E ε :=
  match wk.finished with
  | some _ => wk
  | none => drainDepth dry settings d queue wk

/-- The loop over the events from where an inserted state is looked at. -/
def checkRest (d : Nat) (s : S) (t : T) (events : List E) (s' : S) (wk : Worker S T E ε) : Worker S T E ε :=
  match settings.invariant s' with
  | .error err => { wk with finished := some (.invariantViolation s' err) }
  | .ok () =>
    if settings.goal s' then { wk with finished := some (.goalFound s') }
    else if belowMax settings d && !settings.prune s' then
      expand dry settings d s t events { wk with pushingQueue := wk.pushingQueue ++ [(s', dry s')] }
    else expand dry settings d s t events wk

/-- The worker's record at the end of the depth, when no result is found yet. -/
def Phase.rest (d : Nat) (queue : List (S × T)) (wk : Worker S T E ε) : Phase S T E → Worker S T E ε
  | .popping => drainDepth dry settings d queue wk
  | .stepping s t events => drainRest dry settings d queue (expand dry settings d s t events wk)
  | .checking s t events s' => drainRest dry settings d queue (checkRest dry settings d s t events s' wk)
  | _ => wk

/-- What the loop returns from here on, when no result is found yet. -/
def resume (fuel : Nat) (sh : Shared S T E ε) (l : Local S T E) :
    Option (Except Panic (SearchWorkerResult S E ε × Discovered T E)) :=
  depthEnd dry settings fuel l.localDepth
    (l.phase.rest dry settings l.localDepth (sh.queues l.queue) ⟨sh.discovered, sh.queues (!l.queue), none⟩)

/-- The result that is in the slot or was taken from it. -/
def Threads.answer (σ : Threads S T E ε) : Option (SearchWorkerResult S E ε) :=
  match σ.caller.outcome with
  | some r => r
  | none => σ.shared.finished.result

/-- The worker looks for a result. -/
def Phase.Seeking : Phase S T E → Prop
  | .popping | .stepping .. | .checking .. | .testing => True
  | _ => False

/-- The worker has found a result. -/
def Phase.Done : Phase S T E → Prop
  | .finishing | .exhausting | .exited => True
  | _ => False

/-- The worker stands between two depths. -/
def Phase.Between : Phase S T E → Prop
  | .waiting | .released | .testing => True
  | _ => False

variable {dry settings initial} {sh sh' : Shared S T E ε} {l l' : Local S T E}

theorem drainDepth_cons (d : Nat) (s : S) (t : T) (queue : List (S × T)) (wk : Worker S T E ε) :
    drainDepth dry settings d ((s, t) :: queue) wk =
      drainRest dry settings d queue (expand dry settings d s t (State.events s) wk) := rfl

theorem expand_inserted {d : Nat} {s s' : S} {t : T} {event : E} {events : List E} {wk : Worker S T E ε}
    (hs : State.step s event = .ok s') (hnone : wk.discovered (dry s') = none) :
    expand dry settings d s t (event :: events) wk = checkRest dry settings d s t events s'
      { wk with discovered := Function.update wk.discovered (dry s') (some ⟨some (event, t), d + 1⟩) } := by
  simp only [expand, hs, hnone]
  rfl

/-- A turn that finds no result keeps what the loop returns. -/
theorem resume_step (h : Stepped dry settings sh l sh' l') (hq : l.phase.Between → sh.queues l.queue = [])
    (hflag : sh.finished.flag = false) (hdone : ¬ l'.phase.Done) (hpanic : l'.phase ≠ .panicked) (fuel : Nat) :
    ∃ fuel', resume dry settings fuel sh' l' = resume dry settings fuel' sh l := by
  cases h with
  | @drained d q hnil =>
    refine ⟨fuel, ?_⟩
    simp only [resume, Phase.rest, hnil, drainDepth]
  | @popped d q s t queue hcons =>
    refine ⟨fuel, ?_⟩
    simp only [resume, Phase.rest, hcons, drainDepth_cons, setQueue_self, setQueue_other, setQueue_discovered]
  | stopped hf =>
    rw [hflag] at hf
    cases hf
  | next _ => exact ⟨fuel, rfl⟩
  | failed _ => exact absurd trivial hdone
  | known hs hk =>
    obtain ⟨info, hk⟩ := hk
    refine ⟨fuel, ?_⟩
    simp only [resume, Phase.rest, expand, hs, hk]
  | @inserted d q s t event events s' hs hk =>
    refine ⟨fuel, ?_⟩
    simp only [resume, Phase.rest]
    rw [expand_inserted hs hk]
    rfl
  | violated _ => exact absurd trivial hdone
  | found _ => exact absurd trivial hdone
  | @pushed d q s t events s' hc hb hprune =>
    refine ⟨fuel, ?_⟩
    have hinv : settings.invariant s' = .ok () := hc.1
    simp only [resume, Phase.rest, checkRest, hinv, hc.2, hb, hprune, setQueue_self, setQueue_not, setQueue_discovered,
      Bool.false_eq_true, if_false, Bool.not_false, Bool.and_self, if_true]
  | @kept d q s t events s' hc hb =>
    refine ⟨fuel, ?_⟩
    have hinv : settings.invariant s' = .ok () := hc.1
    have hpush : (belowMax settings d && !settings.prune s') = false := by
      cases hbelow : belowMax settings d with
      | false => rfl
      | true => simp [hb hbelow]
    simp only [resume, Phase.rest, checkRest, hinv, hc.2, hpush, Bool.false_eq_true, if_false]
  | stored => exact ⟨fuel, rfl⟩
  | left hf =>
    rw [hflag] at hf
    cases hf
  | passed _ => exact ⟨fuel, rfl⟩
  | emptied _ => exact absurd trivial hdone
  | asserted _ _ => exact absurd rfl hpanic
  | @swapped d q hne hb =>
    refine ⟨fuel + 1, ?_⟩
    have hnil : sh.queues q = [] := hq trivial
    have hempty : (sh.queues (!q)).isEmpty = false := by simpa using hne
    simp only [resume, Phase.rest, Bool.not_not, hnil, depthEnd, hempty, hb, Bool.not_true, Bool.false_eq_true, if_false,
      breathFirstWorker]
    rfl
  | ended => exact absurd trivial hdone

/-- A turn that finds a result finds the one that the loop returns. -/
theorem resume_found (h : Stepped dry settings sh l sh' l') (hflag : sh.finished.flag = false)
    (hl : ¬ l.phase.Done) (hdone : l'.phase.Done) (fuel : Nat) :
    ∃ r, sh'.finished = sh.finished.getOrInsert r ∧ sh'.discovered = sh.discovered ∧
      resume dry settings fuel sh l = some (.ok (r, sh.discovered)) := by
  cases h with
  | failed hs =>
    refine ⟨_, rfl, rfl, ?_⟩
    simp only [resume, Phase.rest, expand, hs, drainRest, depthEnd]
  | violated hinv =>
    refine ⟨_, rfl, rfl, ?_⟩
    simp only [resume, Phase.rest, checkRest, hinv, drainRest, depthEnd]
  | found hinv hgoal =>
    refine ⟨_, rfl, rfl, ?_⟩
    simp only [resume, Phase.rest, checkRest, hinv, hgoal, if_true, drainRest, depthEnd]
  | emptied hnil =>
    refine ⟨_, rfl, rfl, ?_⟩
    simp only [resume, Phase.rest, depthEnd, hnil, List.isEmpty_nil, if_true]
  | left hf =>
    rw [hflag] at hf
    cases hf
  | ended => exact absurd trivial hl
  | _ => exact hdone.elim

theorem stepped_quiet (h : Stepped dry settings sh l sh' l') (hl : ¬ l.phase.Done) (hl' : ¬ l'.phase.Done) :
    sh'.finished = sh.finished := by
  cases h with
  | failed _ => exact absurd trivial hl'
  | violated _ => exact absurd trivial hl'
  | found _ _ => exact absurd trivial hl'
  | stored => exact absurd trivial hl
  | emptied _ => exact absurd trivial hl'
  | ended => exact absurd trivial hl'
  | _ => rfl

/-! ## The invariant of a run with one worker -/

variable (dry settings initial) in
/-- The state of a run whose one worker is `l`. -/
structure Single (σ : Threads S T E ε) (l : Local S T E) : Prop where
  untimed : σ.caller.outcome ≠ some none
  joined : ∀ r, σ.caller = .joined r → l.phase = .exited
  flag : σ.shared.finished.flag = true → σ.answer ≠ none
  seeking : l.phase.Seeking → σ.answer = none
  done : l.phase.Done → σ.answer ≠ none
  between : l.phase.Between → σ.shared.finished.flag = true ∨ σ.answer = none ∧ σ.shared.queues l.queue = []
  answered : ∀ r, σ.answer = some r → ∃ fuel, breathFirstWorker dry settings fuel 0 [(initial, dry initial)]
    (initialDiscovered (dry initial)) = some (.ok (r, σ.shared.discovered))
  unanswered : σ.answer = none → ∀ fuel, ∃ fuel', resume dry settings fuel σ.shared l =
    breathFirstWorker dry settings fuel' 0 [(initial, dry initial)] (initialDiscovered (dry initial))

variable {σ σ' : Threads S T E ε}

omit [State S E ε] [DecidableEq T] in
theorem answer_none (hu : σ.caller.outcome ≠ some none) (h : σ.answer = none) :
    σ.caller.outcome = none ∧ σ.shared.finished.result = none := by
  unfold Threads.answer at h
  cases hc : σ.caller.outcome with
  | none => exact ⟨rfl, by simpa only [hc] using h⟩
  | some r =>
    simp only [hc] at h
    exact absurd (hc.trans (congrArg some h)) hu

theorem Single.worker (h : Single dry settings initial σ l) (hs : Stepped dry settings σ.shared l sh' l')
    (hpanic : l'.phase ≠ .panicked) : Single dry settings initial ⟨sh', [l'], σ.caller⟩ l' := by
  have hjoined : ∀ r, σ.caller = .joined r → l'.phase = .exited := by
    intro r hr
    have hexited := h.joined r hr
    cases hs <;> cases hexited
  cases ha : σ.answer with
  | none =>
    obtain ⟨hcaller, hslot⟩ := answer_none h.untimed ha
    have hflag : σ.shared.finished.flag = false := by
      rw [← Bool.not_eq_true]
      exact fun hf => h.flag hf ha
    have hl : ¬ l.phase.Done := fun hd => h.done hd ha
    have hanswer : (⟨sh', [l'], σ.caller⟩ : Threads S T E ε).answer = sh'.finished.result := by
      simp only [Threads.answer, hcaller]
    by_cases hl' : l'.phase.Done
    · obtain ⟨r, hfin, hdisc, hres⟩ := resume_found hs hflag hl hl' 0
      have hr : (⟨sh', [l'], σ.caller⟩ : Threads S T E ε).answer = some r := by
        rw [hanswer, hfin, SearchFinished.getOrInsert, hslot]
        rfl
      obtain ⟨fuel', hfuel⟩ := h.unanswered ha 0
      have hne : (⟨sh', [l'], σ.caller⟩ : Threads S T E ε).answer ≠ none := by
        rw [hr]
        exact Option.some_ne_none r
      refine ⟨h.untimed, hjoined, fun _ => hne, fun hseek => ?_, fun _ => hne, fun hb => ?_, fun r' hr' => ?_,
        fun hn => absurd hn hne⟩
      · obtain ⟨_, _, phase⟩ := l'
        cases phase <;> first | exact hseek.elim | exact hl'.elim
      · obtain ⟨_, _, phase⟩ := l'
        cases phase <;> first | exact hb.elim | exact hl'.elim
      · rw [hr] at hr'
        cases hr'
        exact ⟨fuel', by rw [← hfuel, hres, hdisc]⟩
    · have hfin := stepped_quiet hs hl hl'
      have hn : (⟨sh', [l'], σ.caller⟩ : Threads S T E ε).answer = none := by rw [hanswer, hfin, hslot]
      have hqueue : l.phase.Between → σ.shared.queues l.queue = [] := fun hb =>
        ((h.between hb).resolve_left (by rw [hflag]; nofun)).2
      refine ⟨h.untimed, hjoined, fun hf => ?_, fun _ => hn, fun hd => absurd hd hl', fun hb => Or.inr ⟨hn, ?_⟩,
        fun r hr => ?_, fun _ fuel => ?_⟩
      · rw [hfin, hflag] at hf
        cases hf
      · cases hs with
        | drained hnil => exact hnil
        | stopped hf =>
          rw [hflag] at hf
          cases hf
        | stored => exact absurd trivial hl
        | passed _ => exact hqueue trivial
        | _ => exact hb.elim
      · rw [hn] at hr
        cases hr
      · obtain ⟨fuel₁, h₁⟩ := resume_step hs hqueue hflag hl' hpanic fuel
        obtain ⟨fuel₂, h₂⟩ := h.unanswered ha fuel₁
        exact ⟨fuel₂, h₁.trans h₂⟩
  | some r =>
    -- the result is there: the worker only leaves
    have hnot : ¬ l.phase.Seeking := fun hseek => by
      rw [h.seeking hseek] at ha
      cases ha
    have hkeep : sh'.discovered = σ.shared.discovered ∧ sh'.finished.result = σ.shared.finished.result ∧
        sh'.finished.flag = true ∧ ¬ l'.phase.Seeking := by
      cases hs with
      | stored => exact ⟨rfl, rfl, rfl, id⟩
      | left hf => exact ⟨rfl, rfl, hf, id⟩
      | passed hf =>
        rcases h.between trivial with hf' | ⟨hn, _⟩
        · rw [hf] at hf'
          cases hf'
        · rw [hn] at ha
          cases ha
      | ended => exact ⟨rfl, rfl, rfl, id⟩
      | _ => exact absurd trivial hnot
    obtain ⟨hdisc, hresult, hflag, hseek⟩ := hkeep
    have ha' : (⟨sh', [l'], σ.caller⟩ : Threads S T E ε).answer = some r := by
      rw [← ha]
      simp only [Threads.answer, hresult]
    have hne : (⟨sh', [l'], σ.caller⟩ : Threads S T E ε).answer ≠ none := by
      rw [ha']
      exact Option.some_ne_none r
    refine ⟨h.untimed, hjoined, fun _ => hne, fun hs => absurd hs hseek, fun _ => hne, fun _ => Or.inl hflag,
      fun r' hr' => ?_, fun hn => absurd hn hne⟩
    rw [ha'] at hr'
    cases hr'
    obtain ⟨fuel, hfuel⟩ := h.answered r ha
    exact ⟨fuel, by rw [hfuel, hdisc]⟩

theorem Single.release (h : Single dry settings initial σ l) (hwait : l.phase = .waiting) :
    Single dry settings initial { σ with workers := [l.release] } l.release := by
  have hres : ∀ fuel, resume dry settings fuel σ.shared l.release = resume dry settings fuel σ.shared l := by
    intro fuel
    obtain ⟨d, q, phase⟩ := l
    dsimp only at hwait
    subst hwait
    rfl
  have hjoined : ∀ r, σ.caller ≠ .joined r := fun r hr => by
    have := h.joined r hr
    rw [hwait] at this
    cases this
  exact ⟨h.untimed, fun r hr => absurd hr (hjoined r), h.flag, False.elim, False.elim,
    fun _ => h.between (by rw [hwait]; trivial), h.answered,
    fun hn fuel => (h.unanswered hn fuel).imp fun _ heq => (hres fuel).trans heq⟩

theorem Single.caller (h : Single dry settings initial σ l) (hw : σ.workers = [l])
    {fin : SearchFinished (SearchWorkerResult S E ε)} {c : Caller (SearchWorkerResult S E ε)} {timeOut : Bool}
    (hc : callerStep false timeOut (σ.workers.all (·.phase.isExited)) σ.shared.finished σ.caller = some (fin, c)) :
    Single dry settings initial { σ with shared := { σ.shared with finished := fin }, caller := c } l := by
  obtain ⟨hmono, _, _, htimed, hexited⟩ := callerStep_cases hc
  have hanswer : ({ σ with shared := { σ.shared with finished := fin }, caller := c } : Threads S T E ε).answer =
      σ.answer ∧ (fin.flag = true → σ.shared.finished.flag = true ∨ σ.answer ≠ none) := by
    cases hcaller : σ.caller with
    | waiting =>
      simp only [hcaller, callerStep] at hc
      split at hc
      · next r hr =>
        cases hc
        refine ⟨?_, Or.inl⟩
        simp only [Threads.answer, hcaller, Caller.outcome, hr]
      · simp at hc
    | taken r =>
      simp only [hcaller, callerStep] at hc
      cases hc
      refine ⟨by simp only [Threads.answer, hcaller, Caller.outcome], fun _ => Or.inr ?_⟩
      have hr : r ≠ none := fun hn => h.untimed (by rw [hcaller, hn]; rfl)
      simpa only [Threads.answer, hcaller, Caller.outcome] using hr
    | stored r =>
      simp only [hcaller, callerStep] at hc
      split at hc <;> cases hc
      exact ⟨by simp only [Threads.answer, hcaller, Caller.outcome], Or.inl⟩
    | joined r =>
      simp only [hcaller, callerStep] at hc
      cases hc
  obtain ⟨hanswer, hstored⟩ := hanswer
  constructor
  · exact fun hn => (htimed hn).elim h.untimed Bool.false_ne_true
  · intro r hr
    have hall := hexited r hr
    rw [hw, List.all_cons, Bool.and_eq_true] at hall
    exact isExited_iff.mp hall.1
  · intro hf
    rw [hanswer]
    exact (hstored hf).elim h.flag id
  · exact fun hs => hanswer.trans (h.seeking hs)
  · exact fun hd => hanswer ▸ h.done hd
  · exact fun hb => (h.between hb).imp hmono (And.imp_left hanswer.trans)
  · exact fun r hr => h.answered r (hanswer.symm.trans hr)
  · exact fun hn => h.unanswered (hanswer.symm.trans hn)

theorem single_reach (h : (threads dry settings false 1 initial).Reach Machine.always σ) :
    ∃ l, σ.workers = [l] ∧ (l.phase = .panicked ∧ (∀ r, σ.caller ≠ .joined r) ∨ Single dry settings initial σ l) := by
  refine h.invariant (I := fun σ => ∃ l, σ.workers = [l] ∧
    (l.phase = .panicked ∧ (∀ r, σ.caller ≠ .joined r) ∨ Single dry settings initial σ l)) (fun σ hσ => ?_) ?_
  · obtain rfl := hσ
    refine ⟨_, rfl, Or.inr ?_⟩
    refine ⟨nofun, nofun, nofun, fun _ => rfl, False.elim, False.elim, nofun, fun _ fuel => ⟨fuel + 1, rfl⟩⟩
  · rintro σ t σ' - ⟨l, hw, hl⟩ - (ht : turn dry settings false σ t = some σ')
    rcases turn_cases ht with ⟨i, k, sh', l', _, hk, hs, rfl⟩ | ⟨_, hwait, rfl⟩ | ⟨timeOut, fin, c, _, hc, rfl⟩
    · rw [hw] at hk
      obtain ⟨rfl, rfl⟩ : i = 0 ∧ k = l := by
        cases i with
        | zero => exact ⟨rfl, (Option.some.inj hk).symm⟩
        | succ i => simp at hk
      refine ⟨l', by rw [hw]; rfl, ?_⟩
      rcases hl with ⟨hpanic, _⟩ | hsingle
      · cases hs <;> cases hpanic
      · by_cases hpanic : l'.phase = .panicked
        · refine Or.inl ⟨hpanic, fun r hr => ?_⟩
          have hexited := hsingle.joined r hr
          cases hs <;> cases hexited
        · rw [hw]
          exact Or.inr (hsingle.worker hs hpanic)
    · refine ⟨l.release, by rw [hw]; rfl, ?_⟩
      have hwait := hwait l (by rw [hw]; exact List.mem_singleton_self l)
      rcases hl with ⟨hpanic, _⟩ | hsingle
      · rw [hwait] at hpanic
        cases hpanic
      · rw [hw]
        exact Or.inr (hsingle.release hwait)
    · refine ⟨l, hw, ?_⟩
      rcases hl with ⟨hpanic, _⟩ | hsingle
      · refine Or.inl ⟨hpanic, fun r hr => ?_⟩
        have hall := (callerStep_cases hc).2.2.2.2 r hr
        rw [hw, List.all_cons, hpanic] at hall
        cases hall
      · exact Or.inr (hsingle.caller hw hc)

/-- With one worker and no limit, whatever the turns, the threads return what
the sequential search returns. -/
theorem one_worker_agrees (h : (threads dry settings false 1 initial).Reach Machine.always σ)
    {r : Option (SearchWorkerResult S E ε)} (hr : σ.caller = .joined r) :
    ∃ fuel result, r = some result ∧
      breathFirstWorker dry settings fuel 0 [(initial, dry initial)] (initialDiscovered (dry initial)) =
        some (.ok (result, σ.shared.discovered)) ∧
      breadthFirst dry settings fuel initial = report dry (fuel + 1) σ.shared.discovered r := by
  obtain ⟨l, _, ⟨_, hnot⟩ | hs⟩ := single_reach h
  · exact absurd hr (hnot r)
  cases r with
  | none => exact absurd (by rw [hr]; rfl) hs.untimed
  | some result =>
    have hanswer : σ.answer = some result := by simp only [Threads.answer, hr, Caller.outcome]
    obtain ⟨fuel, hfuel⟩ := hs.answered result hanswer
    refine ⟨fuel, result, rfl, hfuel, ?_⟩
    simp only [breadthFirst, hfuel]
    cases result <;> rfl

end

theorem ring_one_worker_agrees : ∃ (σ : Threads Ring Nat Unit String) (r : Option (SearchWorkerResult Ring Unit String)),
    σ.caller = .joined r ∧ ∃ fuel result, r = some result ∧
      breathFirstWorker Ring.position ringSettings fuel 0 [(⟨0, 0⟩, 0)] (initialDiscovered 0) =
        some (.ok (result, σ.shared.discovered)) ∧
      breadthFirst Ring.position ringSettings fuel ⟨0, 0⟩ = report Ring.position (fuel + 1) σ.shared.discovered r := by
  obtain ⟨σ, hreach, hjoined⟩ := Machine.exists_reach (M := threads Ring.position ringSettings false 1 ⟨0, 0⟩)
    (C := Machine.always) (fun _ _ _ h => h) rfl [.worker 0, .worker 0, .worker 0, .worker 0, .worker 0, .barrier,
      .worker 0, .worker 0, .worker 0, .worker 0, .worker 0, .worker 0, .barrier, .worker 0, .caller false, .caller false,
      .caller false] (fun σ => σ.caller.isJoined = true) (by decide)
  cases hc : σ.caller with
  | joined r => exact ⟨σ, r, hc, one_worker_agrees hreach hc⟩
  | _ =>
    rw [hc] at hjoined
    cases hjoined

end Neatworks.Search
