import Mathlib.Data.PNat.Basic
import Neatworks.Runs
import Neatworks.SearchRun

/-!
# Breadth-first search by several threads

`search.rs`: `breath_first_worker` in `num_worker` threads, and the thread that
called `search_internal`. A turn is one access to what the threads share: a
queue, the discovered map, the slot or the flag of `search_finished`. The work
between two accesses is local to a thread. The barrier lets all the workers
through at once. The depth counter and the status thread only print.
-/

namespace Neatworks.Search

/-! ## The thread that waits for a result -/

/-- `SearchFinished`: the slot behind the mutex, and the flag. -/
structure SearchFinished (R : Type*) where
  result : Option R
  flag : Bool

/-- `get_or_insert`, under the lock. -/
def SearchFinished.getOrInsert {R : Type*} (fin : SearchFinished R) (r : R) : SearchFinished R :=
  { fin with result := some (fin.result.getD r) }

def SearchFinished.store {R : Type*} (fin : SearchFinished R) : SearchFinished R :=
  { fin with flag := true }

/-- Where `search_internal` is, and the result it took from the slot. -/
inductive Caller (R : Type*)
  | waiting
  | taken (result : Option R)
  | stored (result : Option R)
  | joined (result : Option R)

def Caller.outcome {R : Type*} : Caller R → Option (Option R)
  | .waiting => none
  | .taken result | .stored result | .joined result => some result

/-- `search_internal` after the threads are spawned. The duration limit, if
there is one, may run out at any turn that finds the slot empty. -/
def callerStep {R : Type*} (timed timeOut exited : Bool) (fin : SearchFinished R) :
    Caller R → Option (SearchFinished R × Caller R)
  | .waiting =>
    match fin.result with
    | some r => some ({ fin with result := none }, .taken (some r))
    | none => if timed && timeOut then some (fin, .taken none) else none
  | .taken result => some (fin.store, .stored result)
  | .stored result => if exited then some (fin, .joined result) else none
  | .joined _ => none

/-! ## The workers -/

/-- Where a worker is. `stepping` is at the head of the loop over the events of
a popped state, `checking` has inserted `nextState`, `finishing` and
`exhausting` have filled the slot and not yet stored the flag. -/
inductive Phase (S T E : Type*)
  | popping
  | stepping (state : S) (dryState : T) (events : List E)
  | checking (state : S) (dryState : T) (events : List E) (nextState : S)
  | finishing
  | waiting
  | released
  | testing
  | exhausting
  | exited
  | panicked

/-- What a worker holds: `queue` says which of the two queues it pops; it
pushes to the other one. -/
structure Local (S T E : Type*) where
  localDepth : Nat
  queue : Bool
  phase : Phase S T E

/-- Past the barrier. -/
def Local.release {S T E : Type*} (l : Local S T E) : Local S T E :=
  { l with phase := .released }

structure Shared (S T E ε : Type*) where
  discovered : Discovered T E
  queues : Bool → List (S × T)
  finished : SearchFinished (SearchWorkerResult S E ε)

def Shared.finish {S T E ε : Type*} (sh : Shared S T E ε) (r : SearchWorkerResult S E ε) : Shared S T E ε :=
  { sh with finished := sh.finished.getOrInsert r }

def Shared.store {S T E ε : Type*} (sh : Shared S T E ε) : Shared S T E ε :=
  { sh with finished := sh.finished.store }

def Shared.setQueue {S T E ε : Type*} (sh : Shared S T E ε) (q : Bool) (queue : List (S × T)) : Shared S T E ε :=
  { sh with queues := Function.update sh.queues q queue }

section
variable {S T E ε : Type*} (sh : Shared S T E ε) (q : Bool) (queue : List (S × T))

@[simp] theorem setQueue_self : (sh.setQueue q queue).queues q = queue := Function.update_self ..

@[simp] theorem setQueue_other : (sh.setQueue q queue).queues (!q) = sh.queues (!q) :=
  Function.update_of_ne (Bool.not_ne_self q) ..

@[simp] theorem setQueue_not : (sh.setQueue (!q) queue).queues q = sh.queues q :=
  Function.update_of_ne (Bool.not_ne_self q).symm ..

@[simp] theorem setQueue_discovered : (sh.setQueue q queue).discovered = sh.discovered := rfl

end

section
variable {S T E ε : Type*} [State S E ε] [DecidableEq T] (dry : S → T) (settings : Settings S ε)

def Shared.discover (sh : Shared S T E ε) (t : T) (info : StateInfo T E) : Shared S T E ε :=
  { sh with discovered := Function.update sh.discovered t (some info) }

/-- The next access of a worker; `none` where it waits or has ended. -/
def workerStep (sh : Shared S T E ε) : Local S T E → Option (Shared S T E ε × Local S T E)
  | ⟨d, q, .popping⟩ =>
    match sh.queues q with
    | [] => some (sh, ⟨d, q, .waiting⟩)
    | (state, dryState) :: queue => some (sh.setQueue q queue, ⟨d, q, .stepping state dryState (State.events state)⟩)
  | ⟨d, q, .stepping _ _ []⟩ =>
    if sh.finished.flag then some (sh, ⟨d, q, .waiting⟩) else some (sh, ⟨d, q, .popping⟩)
  | ⟨d, q, .stepping state dryState (event :: events)⟩ =>
    match State.step state event with
    | .error err => some (sh.finish (.error state event err), ⟨d, q, .finishing⟩)
    | .ok nextState =>
      match sh.discovered (dry nextState) with
      | some _ => some (sh, ⟨d, q, .stepping state dryState events⟩)
      | none =>
        some (sh.discover (dry nextState) ⟨some (event, dryState), d + 1⟩,
          ⟨d, q, .checking state dryState events nextState⟩)
  | ⟨d, q, .checking state dryState events nextState⟩ =>
    match settings.invariant nextState with
    | .error err => some (sh.finish (.invariantViolation nextState err), ⟨d, q, .finishing⟩)
    | .ok () =>
      if settings.goal nextState then some (sh.finish (.goalFound nextState), ⟨d, q, .finishing⟩)
      else if belowMax settings d && !settings.prune nextState then
        some (sh.setQueue (!q) (sh.queues (!q) ++ [(nextState, dry nextState)]), ⟨d, q, .stepping state dryState events⟩)
      else some (sh, ⟨d, q, .stepping state dryState events⟩)
  | ⟨d, q, .finishing⟩ => some (sh.store, ⟨d, q, .waiting⟩)
  | ⟨_, _, .waiting⟩ => none
  | ⟨d, q, .released⟩ =>
    if sh.finished.flag then some (sh, ⟨d, q, .exited⟩) else some (sh, ⟨d, q, .testing⟩)
  | ⟨d, q, .testing⟩ =>
    if (sh.queues (!q)).isEmpty then some (sh.finish .spaceExhausted, ⟨d, q, .exhausting⟩)
    else if !belowMax settings d then some (sh, ⟨d, q, .panicked⟩)
    else some (sh, ⟨d + 1, !q, .popping⟩)
  | ⟨d, q, .exhausting⟩ => some (sh.store, ⟨d, q, .exited⟩)
  | ⟨_, _, .exited⟩ => none
  | ⟨_, _, .panicked⟩ => none

def Phase.isWaiting : Phase S T E → Bool
  | .waiting => true
  | _ => false

def Phase.isExited : Phase S T E → Bool
  | .exited => true
  | _ => false

structure Threads (S T E ε : Type*) where
  shared : Shared S T E ε
  workers : List (Local S T E)
  caller : Caller (SearchWorkerResult S E ε)

inductive Turn
  | worker (i : Nat)
  | barrier
  | caller (timeOut : Bool)
  deriving DecidableEq, Repr

/-- One turn. `timed` says whether `max_duration` is given. -/
def turn (timed : Bool) (σ : Threads S T E ε) : Turn → Option (Threads S T E ε)
  | .worker i =>
    match σ.workers[i]? with
    | none => none
    | some l =>
      match workerStep dry settings σ.shared l with
      | none => none
      | some (sh, l) => some { σ with shared := sh, workers := σ.workers.set i l }
  | .barrier =>
    if σ.workers.all (·.phase.isWaiting) then
      some { σ with workers := σ.workers.map Local.release }
    else none
  | .caller timeOut =>
    match callerStep timed timeOut (σ.workers.all (·.phase.isExited)) σ.shared.finished σ.caller with
    | none => none
    | some (fin, caller) => some { σ with shared := { σ.shared with finished := fin }, caller := caller }

/-- `breadth_first` once it has spawned the workers. -/
def spawned (numWorker : ℕ+) (initialState : S) : Threads S T E ε where
  shared :=
    { discovered := initialDiscovered (dry initialState)
      queues := fun q => if q then [] else [(initialState, dry initialState)]
      finished := ⟨none, false⟩ }
  workers := List.replicate numWorker ⟨0, false, .popping⟩
  caller := .waiting

def threads (timed : Bool) (numWorker : ℕ+) (initialState : S) : Machine (Threads S T E ε) Turn where
  init σ := σ = spawned dry numWorker initialState
  next σ t σ' := turn dry settings timed σ t = some σ'

/-- The end of `breadth_first`, after `search_internal` returned. -/
def report (fuel : Nat) (discovered : Discovered T E) :
    Option (SearchWorkerResult S E ε) → Option (Except Panic (SearchResult S T E ε))
  | none => some (.ok .timeout)
  | some (.error state event err) => (trace discovered fuel (dry state)).map (·.map (.err · event err))
  | some (.invariantViolation state err) => (trace discovered fuel (dry state)).map (·.map (.invariantViolation · err))
  | some (.goalFound state) => some (.ok (.goalFound state))
  | some .spaceExhausted => some (.ok .spaceExhausted)

/-! ## What a worker does in one turn -/

/-- One constructor per branch of the worker. -/
inductive Stepped (sh : Shared S T E ε) : Local S T E → Shared S T E ε → Local S T E → Prop
  | drained {d q} : sh.queues q = [] → Stepped sh ⟨d, q, .popping⟩ sh ⟨d, q, .waiting⟩
  | popped {d q s t queue} : sh.queues q = (s, t) :: queue →
      Stepped sh ⟨d, q, .popping⟩ (sh.setQueue q queue) ⟨d, q, .stepping s t (State.events s)⟩
  | stopped {d q s t} : sh.finished.flag = true → Stepped sh ⟨d, q, .stepping s t []⟩ sh ⟨d, q, .waiting⟩
  | next {d q s t} : sh.finished.flag = false → Stepped sh ⟨d, q, .stepping s t []⟩ sh ⟨d, q, .popping⟩
  | failed {d q s t event events err} : State.step s event = .error err →
      Stepped sh ⟨d, q, .stepping s t (event :: events)⟩ (sh.finish (.error s event err)) ⟨d, q, .finishing⟩
  | known {d q s t event events s'} : State.step s event = .ok s' → Known sh.discovered (dry s') →
      Stepped sh ⟨d, q, .stepping s t (event :: events)⟩ sh ⟨d, q, .stepping s t events⟩
  | inserted {d q s t event events s'} : State.step s event = .ok s' → sh.discovered (dry s') = none →
      Stepped sh ⟨d, q, .stepping s t (event :: events)⟩ (sh.discover (dry s') ⟨some (event, t), d + 1⟩)
        ⟨d, q, .checking s t events s'⟩
  | violated {d q s t events s' err} : settings.invariant s' = .error err →
      Stepped sh ⟨d, q, .checking s t events s'⟩ (sh.finish (.invariantViolation s' err)) ⟨d, q, .finishing⟩
  | found {d q s t events s'} : settings.invariant s' = .ok () → settings.goal s' = true →
      Stepped sh ⟨d, q, .checking s t events s'⟩ (sh.finish (.goalFound s')) ⟨d, q, .finishing⟩
  | pushed {d q s t events s'} : Clean settings s' → belowMax settings d = true → settings.prune s' = false →
      Stepped sh ⟨d, q, .checking s t events s'⟩ (sh.setQueue (!q) (sh.queues (!q) ++ [(s', dry s')]))
        ⟨d, q, .stepping s t events⟩
  | kept {d q s t events s'} : Clean settings s' → (belowMax settings d = true → settings.prune s' = true) →
      Stepped sh ⟨d, q, .checking s t events s'⟩ sh ⟨d, q, .stepping s t events⟩
  | stored {d q} : Stepped sh ⟨d, q, .finishing⟩ sh.store ⟨d, q, .waiting⟩
  | left {d q} : sh.finished.flag = true → Stepped sh ⟨d, q, .released⟩ sh ⟨d, q, .exited⟩
  | passed {d q} : sh.finished.flag = false → Stepped sh ⟨d, q, .released⟩ sh ⟨d, q, .testing⟩
  | emptied {d q} : sh.queues (!q) = [] →
      Stepped sh ⟨d, q, .testing⟩ (sh.finish .spaceExhausted) ⟨d, q, .exhausting⟩
  | asserted {d q} : sh.queues (!q) ≠ [] → belowMax settings d = false →
      Stepped sh ⟨d, q, .testing⟩ sh ⟨d, q, .panicked⟩
  | swapped {d q} : sh.queues (!q) ≠ [] → belowMax settings d = true →
      Stepped sh ⟨d, q, .testing⟩ sh ⟨d + 1, !q, .popping⟩
  | ended {d q} : Stepped sh ⟨d, q, .exhausting⟩ sh.store ⟨d, q, .exited⟩

variable {dry settings} {sh sh' : Shared S T E ε} {l l' : Local S T E}

theorem stepped_of_step (h : workerStep dry settings sh l = some (sh', l')) : Stepped dry settings sh l sh' l' := by
  obtain ⟨d, q, phase⟩ := l
  cases phase with
  | popping =>
    simp only [workerStep] at h
    split at h <;> cases h
    · next hq => exact .drained hq
    · next hq => exact .popped hq
  | stepping s t events =>
    cases events with
    | nil =>
      simp only [workerStep] at h
      split at h <;> cases h
      · next hf => exact .stopped hf
      · next hf => exact .next (by simpa using hf)
    | cons event events =>
      simp only [workerStep] at h
      split at h
      · next hs =>
        cases h
        exact .failed hs
      · next hs =>
        split at h <;> cases h
        · next hk => exact .known hs ⟨_, hk⟩
        · next hk => exact .inserted hs hk
  | checking s t events s' =>
    simp only [workerStep] at h
    split at h
    · next hi =>
      cases h
      exact .violated hi
    · next hi =>
      split at h
      · next hg =>
        cases h
        exact .found hi hg
      · next hg =>
        have hclean : Clean settings s' := ⟨hi, by simpa using hg⟩
        split at h <;> cases h
        · next hb =>
          rw [Bool.and_eq_true, Bool.not_eq_true'] at hb
          exact .pushed hclean hb.1 hb.2
        · next hb => exact .kept hclean (by simpa using hb)
  | finishing =>
    cases h
    exact .stored
  | waiting => cases h
  | released =>
    simp only [workerStep] at h
    split at h <;> cases h
    · next hf => exact .left hf
    · next hf => exact .passed (by simpa using hf)
  | testing =>
    simp only [workerStep] at h
    split at h
    · next hq =>
      cases h
      exact .emptied (List.isEmpty_iff.mp hq)
    · next hq =>
      have hne : sh.queues (!q) ≠ [] := fun hnil => hq (List.isEmpty_iff.mpr hnil)
      split at h <;> cases h
      · next hb => exact .asserted hne (by simpa using hb)
      · next hb => exact .swapped hne (by simpa using hb)
  | exhausting =>
    cases h
    exact .ended
  | exited => cases h
  | panicked => cases h

end

end Neatworks.Search
