import Mathlib.Algebra.Order.BigOperators.Group.List
import Neatworks.SearchJoined

/-!
# How a search by several workers ends

On finitely many dry states no order of turns goes on for ever. It ends with
the caller joined; or it is stuck: one worker left the search after a barrier
that another one has used to start the next depth, and that one waits at its
own barrier for good.
-/

namespace Neatworks.Search

section
variable {S T E ε : Type*} {timed : Bool} {d : Nat} {σ σ' : Threads S T E ε} {sh sh' : Shared S T E ε}
  {l l' : Local S T E} {t : Turn}

theorem isExited_iff {phase : Phase S T E} : phase.isExited = true ↔ phase = .exited := by
  cases phase <;> simp [Phase.isExited]

theorem isWaiting_iff {phase : Phase S T E} : phase.isWaiting = true ↔ phase = .waiting := by
  cases phase <;> simp [Phase.isWaiting]

/-! ## The flag is stored only after a result -/

/-- A worker that ends, or is about to, has left a result behind. -/
structure Signalled (σ : Threads S T E ε) : Prop where
  flag : σ.shared.finished.flag = true → σ.caller ≠ .waiting ∨ σ.shared.finished.result ≠ none
  filled : ∀ l ∈ σ.workers, l.phase = .finishing ∨ l.phase = .exhausting →
    σ.caller ≠ .waiting ∨ σ.shared.finished.result ≠ none
  exited : ∀ l ∈ σ.workers, l.phase = .exited → σ.shared.finished.flag = true

theorem caller_moved {R : Type*} {timeOut exited : Bool} {fin fin' : SearchFinished R} {c c' : Caller R}
    (h : callerStep timed timeOut exited fin c = some (fin', c')) : c' ≠ .waiting := by
  rintro rfl
  cases c <;> simp only [callerStep] at h
  · split at h
    · cases h
    · split at h <;> cases h
  · cases h
  · split at h <;> cases h
  · cases h

/-- With the slot filled or all workers ended, the waiting thread moves until it has joined. -/
theorem caller_moves {R : Type*} {fin : SearchFinished R} {c : Caller R}
    (hc : c ≠ .waiting ∨ fin.result ≠ none) (h : callerStep timed false true fin c = none) : ∃ r, c = .joined r := by
  cases c with
  | waiting =>
    obtain ⟨r, hr⟩ := Option.ne_none_iff_exists'.mp (hc.resolve_left fun hne => hne rfl)
    simp only [callerStep, hr] at h
    cases h
  | taken r => cases h
  | stored r => cases h
  | joined r => exact ⟨r, rfl⟩

theorem Signalled.caller (h : Signalled σ) {timeOut exited : Bool} {fin : SearchFinished (SearchWorkerResult S E ε)}
    {c : Caller (SearchWorkerResult S E ε)}
    (hc : callerStep timed timeOut exited σ.shared.finished σ.caller = some (fin, c)) :
    Signalled { σ with shared := { σ.shared with finished := fin }, caller := c } := by
  have hmoved := caller_moved hc
  have hflag := (callerStep_cases hc).1
  exact ⟨fun _ => Or.inl hmoved, fun _ _ _ => Or.inl hmoved, fun l hl hph => hflag (h.exited l hl hph)⟩

variable [State S E ε] [DecidableEq T] {dry : S → T} {settings : Settings S ε} {initial : S}

theorem stepped_result (h : Stepped dry settings sh l sh' l') (hr : sh.finished.result ≠ none) :
    sh'.finished.result ≠ none := by
  cases h <;> first | exact hr | exact Option.some_ne_none _

theorem stepped_filled (h : Stepped dry settings sh l sh' l') (hl : l'.phase = .finishing ∨ l'.phase = .exhausting) :
    sh'.finished.result ≠ none := by
  cases h <;> first | exact Option.some_ne_none _ | exact hl.elim nofun nofun

theorem stepped_stores (h : Stepped dry settings sh l sh' l') (hf : sh'.finished.flag = true) :
    sh.finished.flag = true ∨ l.phase = .finishing ∨ l.phase = .exhausting := by
  cases h <;> first | exact Or.inl hf | exact Or.inr (Or.inl rfl) | exact Or.inr (Or.inr rfl)

theorem stepped_exited (h : Stepped dry settings sh l sh' l') (hl : l'.phase = .exited) :
    sh'.finished.flag = true := by
  cases h with
  | left hf => exact hf
  | ended => rfl
  | _ => cases hl

theorem Signalled.worker (h : Signalled σ) {i : Nat} (hl : σ.workers[i]? = some l)
    (hs : Stepped dry settings σ.shared l sh' l') : Signalled ⟨sh', σ.workers.set i l', σ.caller⟩ := by
  have hkeep : σ.caller ≠ .waiting ∨ σ.shared.finished.result ≠ none →
      σ.caller ≠ .waiting ∨ sh'.finished.result ≠ none := Or.imp_right (stepped_result hs)
  constructor
  · intro hf
    rcases stepped_stores hs hf with hold | hfill
    · exact hkeep (h.flag hold)
    · exact hkeep (h.filled l (List.mem_of_getElem? hl) hfill)
  · intro k hk hfill
    rcases List.mem_or_eq_of_mem_set hk with hk | rfl
    · exact hkeep (h.filled k hk hfill)
    · exact Or.inr (stepped_filled hs hfill)
  · intro k hk hph
    rcases List.mem_or_eq_of_mem_set hk with hk | rfl
    · exact stepped_flag hs (h.exited k hk hph)
    · exact stepped_exited hs hph

/-- The three kinds of turns. -/
theorem turn_cases (h : turn dry settings timed σ t = some σ') :
    (∃ i l sh' l', t = .worker i ∧ σ.workers[i]? = some l ∧ Stepped dry settings σ.shared l sh' l' ∧
      σ' = ⟨sh', σ.workers.set i l', σ.caller⟩) ∨
    (t = .barrier ∧ (∀ l ∈ σ.workers, l.phase = .waiting) ∧ σ' = { σ with workers := σ.workers.map Local.release }) ∨
    ∃ timeOut fin c, t = .caller timeOut ∧
      callerStep timed timeOut (σ.workers.all (·.phase.isExited)) σ.shared.finished σ.caller = some (fin, c) ∧
      σ' = { σ with shared := { σ.shared with finished := fin }, caller := c } := by
  cases t with
  | worker i =>
    simp only [turn] at h
    split at h
    · cases h
    · next hl =>
      split at h <;> cases h
      next hs => exact Or.inl ⟨i, _, _, _, rfl, hl, stepped_of_step hs, rfl⟩
  | barrier =>
    simp only [turn] at h
    split at h <;> cases h
    next hall =>
    refine Or.inr (Or.inl ⟨rfl, fun l hl => ?_, rfl⟩)
    have := List.all_eq_true.mp hall l hl
    cases hph : l.phase <;> rw [hph] at this <;> first | rfl | cases this
  | caller timeOut =>
    simp only [turn] at h
    split at h <;> cases h
    next hc => exact Or.inr (Or.inr ⟨timeOut, _, _, rfl, hc, rfl⟩)

theorem signalled_turn (h : Signalled σ) (ht : turn dry settings timed σ t = some σ') : Signalled σ' := by
  rcases turn_cases ht with ⟨i, l, sh', l', _, hl, hs, rfl⟩ | ⟨_, _, rfl⟩ | ⟨_, fin, c, _, hc, rfl⟩
  · exact h.worker hl hs
  · refine ⟨h.flag, fun l hl hph => ?_, fun l hl hph => ?_⟩
    · obtain ⟨_, _, rfl⟩ := List.mem_map.mp hl
      exact hph.elim nofun nofun
    · obtain ⟨_, _, rfl⟩ := List.mem_map.mp hl
      cases hph
  · exact h.caller hc

theorem signalled_reach {numWorker : ℕ+} (h : (threads dry settings timed numWorker initial).Reach Machine.always σ) :
    Signalled σ := by
  refine h.invariant (fun σ hσ => ?_) fun σ t σ' _ hs _ (ht : turn dry settings timed σ t = some σ') =>
    signalled_turn hs ht
  obtain rfl := hσ
  have hpop : ∀ l ∈ (spawned dry numWorker initial : Threads S T E ε).workers, l.phase = .popping :=
    fun l hl => (List.eq_of_mem_replicate hl) ▸ rfl
  refine ⟨nofun, fun l hl hph => ?_, fun l hl hph => ?_⟩
  · rw [hpop l hl] at hph
    exact hph.elim nofun nofun
  · rw [hpop l hl] at hph
    cases hph

/-! ## Where no turn is possible -/

theorem step_none (h : workerStep dry settings sh l = none) :
    l.phase = .waiting ∨ l.phase = .exited ∨ l.phase = .panicked := by
  obtain ⟨d, q, phase⟩ := l
  cases phase with
  | waiting => exact Or.inl rfl
  | exited => exact Or.inr (Or.inl rfl)
  | panicked => exact Or.inr (Or.inr rfl)
  | popping =>
    simp only [workerStep] at h
    split at h <;> cases h
  | stepping s t events =>
    cases events with
    | nil =>
      simp only [workerStep] at h
      split at h <;> cases h
    | cons event events =>
      simp only [workerStep] at h
      split at h
      · cases h
      · split at h <;> cases h
  | checking s t events s' =>
    simp only [workerStep] at h
    split at h
    · cases h
    · split at h
      · cases h
      · split at h <;> cases h
  | released =>
    simp only [workerStep] at h
    split at h <;> cases h
  | testing =>
    simp only [workerStep] at h
    split at h
    · cases h
    · split at h <;> cases h
  | finishing => cases h
  | exhausting => cases h

/-- Some workers have ended, the others wait at a barrier for them. -/
structure Stuck (σ : Threads S T E ε) : Prop where
  caller : ∃ r, σ.caller = .stored r
  exited : ∃ l ∈ σ.workers, l.phase = .exited
  waiting : ∃ l ∈ σ.workers, l.phase = .waiting
  all : ∀ l ∈ σ.workers, l.phase = .exited ∨ l.phase = .waiting

theorem no_turn_worker {i : Nat} (h : ∀ l ∈ σ.workers, l.phase = .exited ∨ l.phase = .waiting) :
    turn dry settings timed σ (.worker i) = none := by
  simp only [turn]
  split
  · rfl
  · next l hl =>
    have hnone : workerStep dry settings σ.shared l = none := by
      obtain ⟨d, q, phase⟩ := l
      rcases h _ (List.mem_of_getElem? hl) with hph | hph <;> dsimp only at hph <;> subst hph <;> rfl
    rw [hnone]

theorem no_turn_barrier (h : ∃ l ∈ σ.workers, l.phase = .exited) : turn dry settings timed σ .barrier = none := by
  obtain ⟨l, hl, hph⟩ := h
  have hall : σ.workers.all (·.phase.isWaiting) = false := by
    rw [List.all_eq_false]
    exact ⟨l, hl, by rw [hph]; exact Bool.false_ne_true⟩
  simp only [turn, hall, Bool.false_eq_true, if_false]

/-- A run stops where the caller has joined the workers, or where it waits for
workers that wait for one that has left. -/
theorem no_turn_iff (law : Lawful dry settings initial) {numWorker : ℕ+}
    (h : (threads dry settings timed numWorker initial).Reach Machine.always σ) :
    (∀ t, turn dry settings timed σ t = none) ↔ (∃ r, σ.caller = .joined r) ∨ Stuck σ := by
  obtain ⟨d, hs⟩ := sound_reach law h
  have hsig := signalled_reach h
  constructor
  · intro hnone
    have hall : ∀ l ∈ σ.workers, l.phase = .exited ∨ l.phase = .waiting := by
      intro l hl
      obtain ⟨i, hi⟩ := List.mem_iff_getElem?.mp hl
      have hnoStep : workerStep dry settings σ.shared l = none := by
        have := hnone (.worker i)
        simp only [turn, hi] at this
        split at this
        · assumption
        · cases this
      rcases step_none hnoStep with hph | hph | hph
      · exact Or.inr hph
      · exact Or.inl hph
      · exact absurd hph (workers_panic_free law h l hl)
    have hexited : ∃ l ∈ σ.workers, l.phase = .exited := by
      have hbarrier := hnone .barrier
      simp only [turn] at hbarrier
      split at hbarrier
      · cases hbarrier
      · next hnot =>
        rw [Bool.not_eq_true, List.all_eq_false] at hnot
        obtain ⟨l, hl, hph⟩ := hnot
        exact ⟨l, hl, (hall l hl).resolve_right fun hwait => hph (isWaiting_iff.mpr hwait)⟩
    have hcaller := hnone (.caller false)
    simp only [turn] at hcaller
    cases hc : σ.caller with
    | waiting =>
      obtain ⟨l, hl, hph⟩ := hexited
      have hfilled := (hsig.flag (hsig.exited l hl hph)).resolve_left fun hne => hne hc
      obtain ⟨r, hr⟩ := Option.ne_none_iff_exists'.mp hfilled
      simp only [hc, callerStep, hr] at hcaller
      cases hcaller
    | taken r =>
      simp only [hc, callerStep] at hcaller
      cases hcaller
    | stored r =>
      refine Or.inr ⟨⟨r, hc⟩, hexited, ?_, hall⟩
      by_cases hwait : ∃ l ∈ σ.workers, l.phase = .waiting
      · exact hwait
      · have hdone : σ.workers.all (·.phase.isExited) = true := List.all_eq_true.mpr fun l hl =>
          isExited_iff.mpr ((hall l hl).resolve_right fun hw => hwait ⟨l, hl, hw⟩)
        simp only [hc, callerStep, hdone, if_true] at hcaller
        cases hcaller
    | joined r => exact Or.inl ⟨r, rfl⟩
  · intro hend t
    cases t with
    | worker i =>
      refine no_turn_worker fun l hl => ?_
      rcases hend with ⟨r, hr⟩ | hstuck
      · exact Or.inl (hs.joined r hr l hl)
      · exact hstuck.all l hl
    | barrier =>
      refine no_turn_barrier ?_
      rcases hend with ⟨r, hr⟩ | hstuck
      · obtain ⟨l, hl⟩ := List.exists_mem_of_ne_nil _ hs.nonempty
        exact ⟨l, hl, hs.joined r hr l hl⟩
      · exact hstuck.exited
    | caller timeOut =>
      simp only [turn]
      rcases hend with ⟨r, hr⟩ | hstuck
      · simp only [hr, callerStep]
      · obtain ⟨r, hr⟩ := hstuck.caller
        obtain ⟨l, hl, hph⟩ := hstuck.waiting
        have hnot : σ.workers.all (·.phase.isExited) = false := by
          rw [List.all_eq_false]
          exact ⟨l, hl, by rw [hph]; exact Bool.false_ne_true⟩
        simp only [hr, callerStep, hnot, Bool.false_eq_true, if_false]

/-! ## Deserted workers never get through -/

/-- The accesses left in one depth; a state of which `n` events are left has at
most two for each, and `b` bounds what a queued state costs. -/
def Phase.rank (b : Nat) : Phase S T E → Nat
  | .popping => 6
  | .stepping _ _ events => 2 * events.length + 7
  | .checking _ _ events _ => 2 * events.length + 8 + b
  | .finishing => 6
  | .waiting => 5
  | .released => 4
  | .testing => 3
  | .exhausting => 2
  | .exited => 0
  | .panicked => 0

def Local.rank (b m : Nat) (l : Local S T E) : Nat := 4 * (m - l.localDepth) + l.phase.rank b

def Caller.rank {R : Type*} : Caller R → Nat
  | .waiting => 3
  | .taken _ => 2
  | .stored _ => 1
  | .joined _ => 0

def undiscovered (R : Finset T) (D : Discovered T E) : Nat := (R.filter fun t => (D t).isNone).card

theorem caller_rank {R : Type*} {timeOut exited : Bool} {fin fin' : SearchFinished R} {c c' : Caller R}
    (h : callerStep timed timeOut exited fin c = some (fin', c')) : c'.rank < c.rank := by
  cases c with
  | waiting =>
    simp only [callerStep] at h
    split at h
    · cases h
      exact Nat.lt_succ_self 2
    · split at h <;> cases h
      exact Nat.lt_succ_self 2
  | taken result =>
    cases h
    exact Nat.lt_succ_self 1
  | stored result =>
    simp only [callerStep] at h
    split at h <;> cases h
    exact Nat.lt_succ_self 0
  | joined result => cases h

/-- `R` holds the dry states. -/
def Shared.rank (R : Finset T) (b : Nat) (sh : Shared S T E ε) : Nat :=
  (b + 1) * undiscovered R sh.discovered + b * ((sh.queues false).length + (sh.queues true).length)

def Threads.rank (R : Finset T) (b : Nat) (σ : Threads S T E ε) : Nat :=
  σ.shared.rank R b + (σ.workers.map (Local.rank b R.card)).sum + σ.caller.rank

variable {R : Finset T} {b : Nat}

omit [State S E ε] [DecidableEq T] in
theorem rank_setQueue (sh : Shared S T E ε) (q : Bool) (queue : List (S × T)) :
    (sh.setQueue q queue).rank R b + b * (sh.queues q).length = sh.rank R b + b * queue.length := by
  cases q <;> simp only [Shared.rank, Shared.setQueue, Function.update_self, Function.update_of_ne, ne_eq,
    Bool.true_eq_false, Bool.false_eq_true, not_false_eq_true, Nat.mul_add] <;> omega

omit [State S E ε] in
theorem undiscovered_update {D : Discovered T E} {t : T} (info : StateInfo T E) (ht : t ∈ R) (hnone : D t = none) :
    undiscovered R (Function.update D t (some info)) < undiscovered R D := by
  refine Finset.card_lt_card ((Finset.ssubset_iff_of_subset fun u hu => ?_).mpr ⟨t, ?_, ?_⟩)
  · by_cases hut : u = t
    · subst hut
      simp at hu
    · simpa [hut] using hu
  · simp [ht, hnone]
  · simp

omit [State S E ε] in
theorem rank_discover {t : T} (info : StateInfo T E) (ht : t ∈ R) (hnone : sh.discovered t = none) :
    (sh.discover t info).rank R b + (b + 1) ≤ sh.rank R b := by
  have hlt := undiscovered_update info ht hnone
  have hmul := Nat.mul_le_mul_left (b + 1) hlt
  rw [Nat.mul_succ] at hmul
  simp only [Shared.rank, Shared.discover]
  omega

theorem rank_worker (hR : ∀ s, Reachable initial s → dry s ∈ R)
    (hb : ∀ s : S, Reachable initial s → 2 * (State.events s).length + 2 ≤ b)
    (hs : Sound dry settings initial timed d σ) {i : Nat} (hl : σ.workers[i]? = some l)
    (h : Stepped dry settings σ.shared l sh' l') :
    sh'.rank R b + l'.rank b R.card < σ.shared.rank R b + l.rank b R.card := by
  have hmem := List.mem_of_getElem? hl
  cases h with
  | @popped e q s t queue hq =>
    obtain ⟨layer, hd⟩ := hs.live.inside hmem trivial
    cases hs.placed _ hmem with
    | inside _ =>
      have hreach : Reachable initial s := (hd.queued _ (hd.rest _ (hq ▸ List.mem_cons_self))).reachable
      have hbound := hb s hreach
      have hset := rank_setQueue σ.shared (R := R) (b := b) d.bodd queue
      rw [hq, List.length_cons, Nat.mul_succ] at hset
      simp only [Local.rank, Phase.rank]
      omega
    | outside _ hout => exact hout.elim
  | @inserted e q s t event events s' hstep hnone =>
    obtain ⟨layer, hd⟩ := hs.live.inside hmem trivial
    cases hs.placed _ hmem with
    | inside _ =>
      have hreach := (hd.first_succ hs.entries (hd.working _ hmem) hstep hnone).2.1
      have hdisc := rank_discover (b := b) ⟨some (event, t), d + 1⟩ (hR s' hreach) hnone
      simp only [Local.rank, Phase.rank, List.length_cons]
      omega
    | outside _ hout => exact hout.elim
  | @pushed e q s t events s' _ _ _ =>
    have hset := rank_setQueue σ.shared (R := R) (b := b) (!q) (σ.shared.queues (!q) ++ [(s', dry s')])
    rw [List.length_append, List.length_singleton, Nat.mul_succ] at hset
    simp only [Local.rank, Phase.rank]
    omega
  | @swapped e q hne _ =>
    obtain ⟨hqd, hed⟩ := testing_queue (hs.placed _ hmem)
    have hlt : e + 1 < R.card := by
      rw [hed]
      cases hs.live with
      | draining hd =>
        obtain ⟨p, hp⟩ := List.exists_mem_of_ne_nil _ hd.nonempty
        exact first_lt_card hR (hd.queued p hp).first
      | empty _ hnil _ => exact absurd (hqd ▸ hnil) hne
      | flagged _ hout => exact (hout _ hmem).elim nofun nofun
    simp only [Local.rank, Phase.rank]
    omega
  | _ =>
    simp only [Local.rank, Phase.rank, List.length_cons, Shared.rank, Shared.finish, Shared.store]
    omega

theorem rank_turn (hR : ∀ s, Reachable initial s → dry s ∈ R)
    (hb : ∀ s : S, Reachable initial s → 2 * (State.events s).length + 2 ≤ b)
    (hs : Sound dry settings initial timed d σ) (ht : turn dry settings timed σ t = some σ') :
    σ'.rank R b < σ.rank R b := by
  rcases turn_cases ht with ⟨i, l, sh', l', _, hl, h, rfl⟩ | ⟨_, hwait, rfl⟩ | ⟨_, fin, c, _, hc, rfl⟩
  · have hsum := sum_map_set (Local.rank b R.card) l' hl
    have hlt := rank_worker hR hb hs hl h
    simp only [Threads.rank]
    omega
  · have hsum : ((σ.workers.map Local.release).map (Local.rank b R.card)).sum <
        (σ.workers.map (Local.rank b R.card)).sum := by
      rw [List.map_map]
      refine List.sum_lt_sum_of_ne_nil hs.nonempty _ _ fun l hl => ?_
      simp only [Function.comp_apply, Local.rank, Local.release, hwait l hl, Phase.rank]
      omega
    simp only [Threads.rank]
    omega
  · have hrank := caller_rank hc
    have hshared : ({ σ.shared with finished := fin } : Shared S T E ε).rank R b = σ.shared.rank R b := rfl
    simp only [Threads.rank, hshared]
    omega

theorem rank_run (law : Lawful dry settings initial) (hR : ∀ s, Reachable initial s → dry s ∈ R)
    (hb : ∀ s : S, Reachable initial s → 2 * (State.events s).length + 2 ≤ b) {turns : List Turn}
    (hs : ∃ d, Sound dry settings initial timed d σ) (hrun : turns.foldlM (turn dry settings timed) σ = some σ') :
    σ'.rank R b + turns.length ≤ σ.rank R b := by
  induction turns generalizing σ with
  | nil =>
    cases hrun
    exact Nat.le_refl _
  | cons t turns ih =>
    rw [List.foldlM_cons] at hrun
    obtain ⟨σ₁, ht, hrun⟩ := Option.bind_eq_some_iff.mp hrun
    obtain ⟨d, hs⟩ := hs
    have hlt := rank_turn hR hb hs ht
    have hrest := ih (sound_turn law hs ht) hrun
    rw [List.length_cons]
    omega

omit [DecidableEq T] in
/-- Finitely many dry states have finitely many events to look at. -/
theorem exists_events_bound (law : Lawful dry settings initial)
    (hfin : Set.Finite {t | ∃ s, Reachable initial s ∧ dry s = t}) :
    ∃ n, ∀ s, Reachable initial s → (State.events s).length ≤ n := by
  have hone : ∀ t : T, ∃ n, ∀ s, Reachable initial s → dry s = t → (State.events s).length ≤ n := by
    intro t
    by_cases ht : ∃ s, Reachable initial s ∧ dry s = t
    · obtain ⟨s, hs, hd⟩ := ht
      exact ⟨(State.events s).length, fun s' hs' hd' => by rw [law.events s' s hs' hs (hd'.trans hd.symm)]⟩
    · exact ⟨0, fun s hs hd => absurd ⟨s, hs, hd⟩ ht⟩
  choose bound hbound using hone
  refine ⟨hfin.toFinset.sup bound, fun s hs => ?_⟩
  exact (hbound (dry s) s hs rfl).trans (Finset.le_sup (f := bound) (hfin.mem_toFinset.mpr ⟨s, hs, rfl⟩))

end

/-- The first worker has emptied the next queue before the second one looks at
it: the second one leaves, the first one waits at its second barrier. -/
example : (([.worker 0, .worker 1, .worker 0, .worker 0, .worker 0, .worker 0, .barrier, .worker 0, .worker 0, .worker 0,
    .worker 0, .worker 0, .worker 0, .worker 0, .worker 1, .worker 1, .worker 1, .caller false,
    .caller false] : List Turn).foldlM (turn Ring.position { ringSettings with invariant := fun _ => .ok () } false)
      (spawned Ring.position 2 ⟨0, 0⟩)).any (fun σ => σ.workers.map (fun l => (l.localDepth, l.phase.isWaiting,
        l.phase.isExited)) = [(1, true, false), (0, false, true)]) = true := by decide

end Neatworks.Search
