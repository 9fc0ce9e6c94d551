import Mathlib.Algebra.GroupWithZero.Nat
import Neatworks.Event

/-!
# Circuits at an assignment

A circuit over the Goldilocks field, read at an assignment of its targets. The
gadgets of the circuit builder compute on the values of targets, and the
constraints are the effects of building; the assignment satisfies the circuit if
all of them hold.
-/

namespace Neatworks

namespace Outcome

universe u

section
variable {φ : Type*} {α β : Type u}

/-- It is built, the constraints hold, and `P` holds of the value. -/
def Satisfies (x : Outcome Bool φ α) (P : α → Prop) : Prop :=
  match x with
  | .ok a es => (∀ c ∈ es, c = true) ∧ P a
  | .fail _ _ => False

variable {P : α → Prop}

@[simp] theorem satisfies_pure {a : α} : (pure a : Outcome Bool φ α).Satisfies P ↔ P a := by
  change (∀ c ∈ ([] : List Bool), c = true) ∧ P a ↔ P a
  simp

@[simp] theorem satisfies_throw {reason : φ} : (throw reason : Outcome Bool φ α).Satisfies P ↔ False := Iff.rfl

@[simp] theorem satisfies_emit {P : Unit → Prop} {c : Bool} :
    (emit c : Outcome Bool φ Unit).Satisfies P ↔ c = true ∧ P () := by
  simp [emit, Satisfies]

@[simp] theorem satisfies_assert {P : Unit → Prop} {p : Prop} [Decidable p] {reason : φ} :
    (assert p reason : Outcome Bool φ Unit).Satisfies P ↔ p ∧ P () := by
  by_cases h : p <;> simp [assert, h, Satisfies]

@[simp] theorem satisfies_bind {P : β → Prop} {x : Outcome Bool φ α} {f : α → Outcome Bool φ β} :
    (x >>= f).Satisfies P ↔ x.Satisfies fun a => (f a).Satisfies P := by
  cases x with
  | fail reason es => rfl
  | ok a es =>
    change (bind _ _).Satisfies P ↔ (∀ c ∈ es, c = true) ∧ (f a).Satisfies P
    unfold bind
    dsimp only
    cases f a with
    | fail reason es' => simp [Satisfies]
    | ok b es' =>
      simp only [Satisfies, List.mem_append]
      constructor
      · exact fun h => ⟨fun c hc => h.1 c (Or.inl hc), fun c hc => h.1 c (Or.inr hc), h.2⟩
      · exact fun h => ⟨fun c hc => hc.elim (h.1 c) (h.2.1 c), h.2.2⟩

end

end Outcome

namespace Boson

/-- `F::ORDER`. -/
def order : Nat := 2 ^ 64 - 2 ^ 32 + 1

/-- A field element by its canonical value. -/
abbrev F := Fin order

instance : NeZero order := ⟨by decide⟩

def negOne : F := ⟨order - 1, by decide⟩

abbrev HashOut := Vector F 4

abbrev Builder (α : Type) := Outcome Bool Panic α

/-! ## Gadgets -/

/-- `F::from_canonical_usize` and `F::from_canonical_u32`; a number that is not
canonical fails their assertion. -/
def fromCanonical (n : Nat) : Builder F :=
  if h : n < order then .ok ⟨n, h⟩ [] else Outcome.throw .assert

def select (b : Bool) (x y : F) : F := if b then x else y

/-- `select` element by element. -/
def selectHash (b : Bool) (x y : HashOut) : HashOut :=
  ⟨((x.toList.zip y.toList).map fun (x, y) => select b x y).toArray, by simp⟩

def isEqual (x y : F) : Bool := decide (x = y)

def connect (x y : F) : Builder Unit := Outcome.emit (decide (x = y))

def connectHashes (x y : HashOut) : Builder Unit := Outcome.emit (decide (x.toList = y.toList))

/-- `range_check_u32_circuit`. -/
def rangeCheckU32 : List F → Builder Unit
  | [] => return ()
  | x :: xs => do
    Outcome.emit (decide (x.val < 2 ^ 32))
    rangeCheckU32 xs

/-- The number with these 32-bit limbs, lowest first. -/
def limbs : List F → Nat
  | [] => 0
  | x :: xs => x.val + 2 ^ 32 * limbs xs

/-- `list_le_u32_circuit`. -/
def listLeU32 (a b : List F) : Bool := decide (limbs a ≤ limbs b)

/-! What the gadgets of the library mean for an assignment. -/

@[simp] theorem satisfies_fromCanonical {n : Nat} {P : F → Prop} :
    (fromCanonical n).Satisfies P ↔ ∃ h : n < order, P ⟨n, h⟩ := by
  unfold fromCanonical
  split
  · next h => simp [Outcome.Satisfies, h]
  · next h => simp [h]

@[simp] theorem satisfies_connect {x y : F} {P : Unit → Prop} : (connect x y).Satisfies P ↔ x = y ∧ P () := by
  simp [connect]

@[simp] theorem satisfies_connectHashes {x y : HashOut} {P : Unit → Prop} :
    (connectHashes x y).Satisfies P ↔ x = y ∧ P () := by
  simp [connectHashes, Vector.toList_inj]

@[simp] theorem satisfies_rangeCheckU32 {xs : List F} {P : Unit → Prop} :
    (rangeCheckU32 xs).Satisfies P ↔ (∀ x ∈ xs, x.val < 2 ^ 32) ∧ P () := by
  induction xs with
  | nil => simp [rangeCheckU32]
  | cons x xs ih => simp [rangeCheckU32, ih, and_assoc]

@[simp] theorem listLeU32_singleton (x y : F) : listLeU32 [x] [y] = decide (x.val ≤ y.val) := by
  simp [listLeU32, limbs]

theorem selectHash_eq (b : Bool) (x y : HashOut) : selectHash b x y = if b then x else y := by
  cases b <;> ext i hi <;> simp [selectHash, select]

end Boson

end Neatworks
