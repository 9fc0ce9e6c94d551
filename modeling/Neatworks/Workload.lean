import Neatworks.Event

/-!
# Workloads and the close loop

`workload.rs`. An iterator of the standard library is a state with a function
`next`, so it is deterministic. `CloseLoop` has no `stop` here: the states of
the model checker cannot be cloned with one. What the close loop hands to its
workload is an effect.
-/

namespace Neatworks

/-- `Iterator<Item = α>`. -/
class Iterator (I : Type) (α : outParam Type) where
  next : I → Option α × I

/-- `vec::IntoIter`. -/
instance {α : Type} : Iterator (List α) α where
  next
    | [] => (none, [])
    | a :: l => (some a, l)

class Workload (W : Type) where
  Attach : Type
  nextOp : W → Except Error (Option (Payload × Attach) × W)
  onResult : W → Payload → Attach → Except Error W

export Workload (Attach)

structure Iter (I : Type) where
  iter : I

instance {I : Type} [Iterator I Payload] : Workload (Iter I) where
  Attach := Unit
  nextOp self :=
    let (op, iter) := Iterator.next self.iter
    .ok (op.map (·, ()), ⟨iter⟩)
  onResult self _ _ := .ok self

structure Recorded (W : Type) where
  inner : W
  invocations : List (Payload × Payload) := []

instance {W : Type} [Workload W] : Workload (Recorded W) where
  Attach := Payload × Attach W
  nextOp self := do
    let (next, inner) ← Workload.nextOp self.inner
    return (next.map fun (op, attach) => (op, (op, attach)), { self with inner := inner })
  onResult self result attach := do
    let inner ← Workload.onResult self.inner result attach.2
    return { self with inner := inner, invocations := self.invocations ++ [(attach.1, result)] }

structure Check (I : Type) where
  inner : I
  expectedResult : Option Payload := none

instance {I : Type} [Iterator I (Payload × Payload)] : Workload (Check I) where
  Attach := Unit
  nextOp self :=
    let (next, inner) := Iterator.next self.inner
    match next with
    | none => .ok (none, { self with inner := inner })
    | some (op, expectedResult) =>
      if self.expectedResult.isSome then .error (.bail "only support close loop")
      else .ok (some (op, ()), { inner := inner, expectedResult := some expectedResult })
  onResult self result _ :=
    match self.expectedResult with
    | none => .error (.bail "missing invocation")
    | some expectedResult =>
      if result = expectedResult then .ok { self with expectedResult := none }
      else .error (.unexpectedResult expectedResult result)

/-- `sender` is the `Transient` buffer of `Invoke`. -/
structure CloseLoop (W : Type) [Workload W] where
  sender : List Payload := []
  workload : W
  workloadAttach : Option (Attach W) := none
  done : Bool := false

namespace CloseLoop

section
variable {W : Type} [Workload W] {ε : Type}

/-- `OnEvent<Init>`. -/
def onInit (self : CloseLoop W) : Outcome ε Error (CloseLoop W) := do
  let (next, workload) ← Outcome.ofExcept (Workload.nextOp self.workload)
  match next with
  | none => Outcome.throw (.bail "not enough op")
  | some (op, attach) =>
    Outcome.assert self.workloadAttach.isNone (.bail "duplicated launch")
    return { self with workload := workload, workloadAttach := some attach, sender := self.sender ++ [op] }

/-- `OnEvent<InvokeOk>`; `deliver` is the call of `on_result`. -/
def onInvokeOk (self : CloseLoop W) (deliver : ε) (result : Payload) : Outcome ε Error (CloseLoop W) :=
  match self.workloadAttach with
  | none => Outcome.throw (.bail "missing workload attach")
  | some attach => do
    Outcome.emit deliver
    let workload ← Outcome.ofExcept (Workload.onResult self.workload result attach)
    let (next, workload) ← Outcome.ofExcept (Workload.nextOp workload)
    match next with
    | some (op, attach) =>
      return { self with workload := workload, workloadAttach := some attach, sender := self.sender ++ [op] }
    | none => return { self with workload := workload, workloadAttach := none, done := true }

/-! ## What the close loop makes of a result -/

theorem onInvokeOk_none {self : CloseLoop W} {deliver : ε} {result : Payload} {attach : Attach W} {w w' : W}
    (hattach : self.workloadAttach = some attach) (hresult : Workload.onResult self.workload result attach = .ok w)
    (hnext : Workload.nextOp w = .ok (none, w')) :
    self.onInvokeOk deliver result = .ok { self with workload := w', workloadAttach := none, done := true } [deliver] := by
  unfold onInvokeOk
  simp only [hattach, hresult, Outcome.ofExcept, Outcome.ok_bind, hnext]
  rfl

theorem onInvokeOk_some {self : CloseLoop W} {deliver : ε} {result op : Payload} {attach attach' : Attach W} {w w' : W}
    (hattach : self.workloadAttach = some attach) (hresult : Workload.onResult self.workload result attach = .ok w)
    (hnext : Workload.nextOp w = .ok (some (op, attach'), w')) :
    self.onInvokeOk deliver result =
      .ok { self with workload := w', workloadAttach := some attach', sender := self.sender ++ [op] } [deliver] := by
  unfold onInvokeOk
  simp only [hattach, hresult, Outcome.ofExcept, Outcome.ok_bind, hnext]
  rfl

theorem onInvokeOk_sat {self : CloseLoop W} {deliver : ε} {result : Payload} {Q : CloseLoop W → List ε → Prop}
    (hdone : ∀ attach w w', self.workloadAttach = some attach → Workload.onResult self.workload result attach = .ok w →
      Workload.nextOp w = .ok (none, w') →
      Q { self with workload := w', workloadAttach := none, done := true } [deliver])
    (hnext : ∀ attach w op attach' w', self.workloadAttach = some attach →
      Workload.onResult self.workload result attach = .ok w → Workload.nextOp w = .ok (some (op, attach'), w') →
      Q { self with workload := w', workloadAttach := some attach', sender := self.sender ++ [op] } [deliver]) :
    (self.onInvokeOk deliver result).Sat Q fun _ => True := by
  unfold onInvokeOk
  split
  · trivial
  · next attach hattach =>
    simp only [Outcome.sat_bind, Outcome.sat_emit, Outcome.sat_ofExcept, implies_true, and_true]
    intro w hw next hnextOp
    obtain ⟨_ | ⟨op, attach'⟩, w'⟩ := next
    · exact hdone attach w w' hattach hw hnextOp
    · exact hnext attach w op attach' w' hattach hw hnextOp

end

end CloseLoop

end Neatworks
