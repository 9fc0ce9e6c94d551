import Mathlib.Data.PNat.Defs
import Mathlib.Logic.Function.Basic

/-!
# Breadth-first search over a `State`

`search.rs`: `breadth_first` with one worker and no duration limit. One worker
makes the barrier, the condition variable and the flag of `search_finished`
sequential: the worker's first `search_finish` is the result. The loop over
`local_depth` and the recursion of `trace` take fuel; `none` means the fuel
ran out.
-/

namespace Neatworks.Search

universe u v w

/-- `trait State`. The result of `step` is the stepped state. -/
class State (S : Type u) (E : outParam (Type v)) (ε : outParam (Type w)) where
  events : S → List E
  step : S → E → Except ε S

structure Settings (S : Type u) (ε : Type w) where
  invariant : S → Except ε Unit
  goal : S → Bool
  prune : S → Bool
  maxDepth : Option ℕ+

inductive SearchResult (S T E ε : Type*)
  | err (trace : List (E × T)) (event : E) (error : ε)
  | invariantViolation (trace : List (E × T)) (error : ε)
  | goalFound (state : S)
  | spaceExhausted
  | timeout

inductive SearchWorkerResult (S E ε : Type*)
  | error (state : S) (event : E) (error : ε)
  | invariantViolation (state : S) (error : ε)
  | goalFound (state : S)
  | spaceExhausted

/-- The panics of the search itself: `assert_ne!` on the depth, and `unwrap`
of a missing entry in `trace`. -/
inductive Panic
  | assertNe
  | unwrapNone
  deriving DecidableEq, Repr

structure StateInfo (T E : Type*) where
  prev : Option (E × T)
  depth : Nat

/-- The `DashMap` of discovered dry states. -/
abbrev Discovered (T E : Type*) := T → Option (StateInfo T E)

def trace {T E : Type*} (discovered : Discovered T E) : Nat → T → Option (Except Panic (List (E × T)))
  | 0, _ => none
  | fuel + 1, target =>
    match discovered target with
    | none => some (.error .unwrapNone)
    | some info =>
      match info.prev with
      | none => some (.ok [])
      | some (prevEvent, prevState) =>
        match trace discovered fuel prevState with
        | none => none
        | some (.error p) => some (.error p)
        | some (.ok tr) => some (.ok (tr ++ [(prevEvent, target)]))

section
variable {S : Type u} {T E ε : Type*} [State S E ε] [DecidableEq T] (dry : S → T)
  (settings : Settings S ε)

/-- `Some(local_depth + 1) != settings.max_depth`. -/
def belowMax (localDepth : Nat) : Bool :=
  some (localDepth + 1) != settings.maxDepth.map PNat.val

/-- What a worker shares while it drains one depth: the discovered map, the
queue of the next depth, and the result of `search_finish` once it is called. -/
structure Worker (S T E ε : Type*) where
  discovered : Discovered T E
  pushingQueue : List (S × T)
  finished : Option (SearchWorkerResult S E ε)

/-- `for event in state.events()` of one popped state. -/
def expand (localDepth : Nat) (state : S) (dryState : T) : List E → Worker S T E ε → Worker S T E ε
  | [], wk => wk
  | event :: events, wk =>
    match State.step state event with
    | .error err => { wk with finished := some (.error state event err) }
    | .ok nextState =>
      let nextDryState := dry nextState
      match wk.discovered nextDryState with
      | some _ => expand localDepth state dryState events wk
      | none =>
        let info : StateInfo T E := { prev := some (event, dryState), depth := localDepth + 1 }
        let wk := { wk with discovered := Function.update wk.discovered nextDryState (some info) }
        match settings.invariant nextState with
        | .error err => { wk with finished := some (.invariantViolation nextState err) }
        | .ok () =>
          if settings.goal nextState then { wk with finished := some (.goalFound nextState) }
          else if belowMax settings localDepth && !settings.prune nextState then
            expand localDepth state dryState events
              { wk with pushingQueue := wk.pushingQueue ++ [(nextState, nextDryState)] }
          else expand localDepth state dryState events wk

/-- `'depth: while let Some((state, dry_state)) = queue.pop()`. -/
def drainDepth (localDepth : Nat) : List (S × T) → Worker S T E ε → Worker S T E ε
  | [], wk => wk
  | (state, dryState) :: queue, wk =>
    let wk := expand dry settings localDepth state dryState (State.events state) wk
    match wk.finished with
    | some _ => wk
    | none => drainDepth localDepth queue wk

/-- `breath_first_worker`: from `localDepth` on, with the queue of that depth. -/
def breathFirstWorker : Nat → Nat → List (S × T) → Discovered T E →
    Option (Except Panic (SearchWorkerResult S E ε × Discovered T E))
  | 0, _, _, _ => none
  | fuel + 1, localDepth, queue, discovered =>
    let wk := drainDepth dry settings localDepth queue ⟨discovered, [], none⟩
    match wk.finished with
    | some result => some (.ok (result, wk.discovered))
    | none =>
      if wk.pushingQueue.isEmpty then some (.ok (.spaceExhausted, wk.discovered))
      else if !belowMax settings localDepth then some (.error .assertNe)
      else breathFirstWorker fuel (localDepth + 1) wk.pushingQueue wk.discovered

/-- The discovered map before the first depth. -/
def initialDiscovered (initialDryState : T) : Discovered T E :=
  Function.update (fun _ => none) initialDryState (some { prev := none, depth := 0 })

/-- `breadth_first` with one worker and `max_duration` `None`. -/
def breadthFirst (fuel : Nat) (initialState : S) : Option (Except Panic (SearchResult S T E ε)) :=
  let initialDryState := dry initialState
  match breathFirstWorker dry settings fuel 0 [(initialState, initialDryState)]
    (initialDiscovered initialDryState) with
  | none => none
  | some (.error p) => some (.error p)
  | some (.ok (result, discovered)) =>
    match result with
    | .error state event err =>
      (trace discovered (fuel + 1) (dry state)).map (·.map (.err · event err))
    | .invariantViolation state err =>
      (trace discovered (fuel + 1) (dry state)).map (·.map (.invariantViolation · err))
    | .goalFound state => some (.ok (.goalFound state))
    | .spaceExhausted => some (.ok .spaceExhausted)

end

end Neatworks.Search
