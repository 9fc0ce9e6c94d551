import Neatworks.Circuit

/-!
# The clock circuit

`ClockCircuit::new` and `Clock` of the `boson` crate. The proof system is outside
the repository: `Plonk` stands for the hash, the verifier data of the circuits,
their proofs and the verifier of these.
-/

namespace Neatworks.Boson

/-- `VerifierOnlyCircuitData`. -/
structure VerifierData (capHeight : Nat) where
  constantsSigmasCap : Vector HashOut (2 ^ capHeight)
  circuitDigest : HashOut
  deriving DecidableEq

/-- `ProofWithPublicInputs`. -/
structure Proof (π : Type) where
  publicInputs : List F
  proof : π

/-- How a circuit has been built. -/
inductive Circuit (S : Nat)
  | empty (numPublicInputs : Nat)
  | clock (inner : Circuit S) (keys : Vector HashOut S) (dummyKey : HashOut)

def Circuit.numPublicInputs {S : Nat} (capHeight : Nat) : Circuit S → Nat
  | .empty numPublicInputs => numPublicInputs
  | .clock _ _ _ => S + (2 ^ capHeight * 4 + 4)

/-- The targets of `ClockCircuitTargets` with their values. -/
structure Assignment (capHeight : Nat) (π : Type) where
  isGenesis : Bool
  verifierData : VerifierData capHeight
  proof1 : Proof π
  updatedIndex : F
  updatedCounter : F
  sig : F
  proof2 : Proof π

structure Plonk (capHeight S : Nat) (π : Type) where
  hashNToHashNoPad : List F → HashOut
  verifierOnly : Circuit S → VerifierData capHeight
  prove : Circuit S → List F → π
  /-- `verify_proof` for proofs with the common data of a circuit. -/
  verifyProof : Circuit S → VerifierData capHeight → Proof π → Bool

section
variable {capHeight S : Nat} {π : Type}

def VerifierData.elements (data : VerifierData capHeight) : List F :=
  data.constantsSigmasCap.toList.flatMap (·.toList) ++ data.circuitDigest.toList

/-- The loop over the public inputs of a proof past its counters. -/
def connectData (isGenesis : Bool) : List (F × F) → Builder Unit
  | [] => return ()
  | (publicInput, target) :: rest => do
    connect (select isGenesis publicInput target) publicInput
    connectData isGenesis rest

/-- The map over the counters from index `i` on; `updatedKey` is changed on the way. -/
def outputCounters (w : Assignment capHeight π) : Nat → List HashOut → List (F × F) → HashOut → Builder (List F × HashOut)
  | i, key :: keys, (inputCounter1, inputCounter2) :: counters, updatedKey => do
    let index ← fromCanonical i
    let isUpdated := isEqual w.updatedIndex index
    let x1 := select isUpdated w.updatedCounter inputCounter1
    let updatedKey := selectHash isUpdated key updatedKey
    let x2 := inputCounter2
    rangeCheckU32 [x1, x2]
    -- max(x1, x2)
    let le := listLeU32 [x1] [x2]
    let output := select w.isGenesis 0 (select le x2 x1)
    let (outputs, updatedKey) ← outputCounters w (i + 1) keys counters updatedKey
    return (output :: outputs, updatedKey)
  | _, _, _, updatedKey => return ([], updatedKey)

/-- The constraints of `ClockCircuit::new` and the public inputs. A proof has as
many public inputs as there are targets for it. -/
def clockCircuit (plonk : Plonk capHeight S π) (inner : Circuit S) (keys : Vector HashOut S) (dummyKey : HashOut)
    (w : Assignment capHeight π) : Builder (List F) := do
  let outputData := w.verifierData.elements
  Outcome.assert (w.proof1.publicInputs.length = inner.numPublicInputs capHeight) .assert
  Outcome.assert (w.proof2.publicInputs.length = inner.numPublicInputs capHeight) .assert
  Outcome.assert (S ≤ inner.numPublicInputs capHeight) .index
  let inputCounters1 := w.proof1.publicInputs.take S
  let inputCounters2 := w.proof2.publicInputs.take S
  connectData w.isGenesis ((w.proof1.publicInputs.drop S).zip outputData)
  Outcome.emit (plonk.verifyProof inner w.verifierData w.proof1)
  connectData w.isGenesis ((w.proof2.publicInputs.drop S).zip outputData)
  Outcome.emit (plonk.verifyProof inner w.verifierData w.proof2)
  let (outputs, updatedKey) ← outputCounters w 0 keys.toList (inputCounters1.zip inputCounters2) dummyKey
  connectHashes (plonk.hashNToHashNoPad [w.sig]) updatedKey
  return outputs ++ outputData

/-! ## Clocks -/

/-- An error of `anyhow`, a panic, or an assignment that does not satisfy the circuit. -/
inductive Fail
  | bail (message : String)
  | panic (panic : Panic)
  | unsatisfied
  deriving DecidableEq

abbrev Result (α : Type) := Outcome Empty Fail α

structure Clock (π : Type) where
  proof : Proof π

/-- `to_canonical_u64() as u32`. -/
def Clock.counters (S : Nat) (self : Clock π) : List Nat := (self.proof.publicInputs.take S).map fun counter => counter.val % 2 ^ 32

/-- A call that panics as the builder does. -/
def Result.ofBuilder {α : Type} : Builder α → Result α
  | .ok a _ => .ok a []
  | .fail reason _ => .fail (.panic reason) []

def prove (plonk : Plonk capHeight S π) (circuit : Circuit S) (w : Assignment capHeight π) : Result (Clock π) :=
  match circuit with
  | .empty _ => Outcome.throw (.panic .unwrap)
  | .clock inner keys dummyKey =>
    match clockCircuit plonk inner keys dummyKey w with
    | .fail reason _ => Outcome.throw (.panic reason)
    | .ok publicInputs constraints =>
      if constraints.all id then return ⟨publicInputs, plonk.prove circuit publicInputs⟩ else Outcome.throw .unsatisfied

def dummySecret : F := negOne

def publicKey (plonk : Plonk capHeight S π) (secret : F) : HashOut := plonk.hashNToHashNoPad [secret]

/-- The circuit of `Clock::genesis`. -/
def genesisCircuit (plonk : Plonk capHeight S π) (keys : Vector HashOut S) : Circuit S :=
  (List.range 4).foldl (fun circuit _ => .clock circuit keys (publicKey plonk dummySecret)) (.empty S)

def emptyCircuit (plonk : Plonk capHeight S π) (keys : Vector HashOut S) : Circuit S :=
  .empty ((genesisCircuit plonk keys).numPublicInputs capHeight)

/-- `dummy_proof` of `Clock::genesis`; the public inputs of an empty circuit are zero. -/
def dummyProof (plonk : Plonk capHeight S π) (keys : Vector HashOut S) : Proof π :=
  let publicInputs := List.replicate ((genesisCircuit plonk keys).numPublicInputs capHeight) 0
  ⟨publicInputs, plonk.prove (emptyCircuit plonk keys) publicInputs⟩

/-- The assignment of `Clock::genesis`, which does not set the targets of the update. -/
def genesisAssignment (plonk : Plonk capHeight S π) (keys : Vector HashOut S) (updatedIndex updatedCounter : F) :
    Assignment capHeight π where
  isGenesis := true
  verifierData := plonk.verifierOnly (emptyCircuit plonk keys)
  proof1 := dummyProof plonk keys
  updatedIndex := updatedIndex
  updatedCounter := updatedCounter
  sig := dummySecret
  proof2 := dummyProof plonk keys

/-- `Clock::genesis`, for any values of the targets that it does not set. -/
def genesis (plonk : Plonk capHeight S π) (keys : Vector HashOut S) (updatedIndex updatedCounter : F) : Result (Clock π) := do
  let clock ← prove plonk (genesisCircuit plonk keys) (genesisAssignment plonk keys updatedIndex updatedCounter)
  Outcome.assert ((clock.counters S).all (· = 0)) (.panic .assert)
  return clock

namespace Clock

variable (plonk : Plonk capHeight S π) (circuit : Circuit S)

def incrementAssignment (self : Clock π) (index : Nat) (secret : F) : Result (Nat × Assignment capHeight π) := do
  match (self.counters S)[index]? with
  | none => Outcome.throw (.bail ("out of bound index " ++ toString index))
  | some counter => do
    Outcome.assert (counter + 1 < 2 ^ 32) (.panic .overflow)
    let updatedIndex ← Result.ofBuilder (fromCanonical index)
    let updatedCounter ← Result.ofBuilder (fromCanonical (counter + 1))
    return (counter + 1, {
      isGenesis := false
      verifierData := plonk.verifierOnly circuit
      proof1 := self.proof
      updatedIndex := updatedIndex
      updatedCounter := updatedCounter
      sig := secret
      proof2 := self.proof })

def increment (self : Clock π) (index : Nat) (secret : F) : Result (Clock π) := do
  let (counter, w) ← self.incrementAssignment plonk circuit index secret
  let clock ← prove plonk circuit w
  Outcome.assert (((clock.counters S).zip (self.counters S)).zipIdx.all fun ((output, input), i) =>
    if i = index then output = counter else output = input) (.panic .assert)
  return clock

def mergeAssignment (self other : Clock π) : Result (Assignment capHeight π) := do
  let updatedIndex ← Result.ofBuilder (fromCanonical (S + 1))
  let updatedCounter ← Result.ofBuilder (fromCanonical (2 ^ 32 - 1))
  return {
    isGenesis := false
    verifierData := plonk.verifierOnly circuit
    proof1 := self.proof
    updatedIndex := updatedIndex
    updatedCounter := updatedCounter
    sig := dummySecret
    proof2 := other.proof }

def merge (self other : Clock π) : Result (Clock π) := do
  let w ← self.mergeAssignment plonk circuit other
  let clock ← prove plonk circuit w
  Outcome.assert ((((clock.counters S).zip (self.counters S)).zip (other.counters S)).all fun ((output, input1), input2) =>
    output = max input1 input2) (.panic .assert)
  return clock

end Clock

/-- A proof system that runs can be evaluated with: a proof is the elements of the
verifier data of its circuit and its public inputs. -/
def Plonk.toy : Plonk capHeight S (List F × List F) :=
  let data : Circuit S → VerifierData capHeight
    | .empty _ => ⟨.replicate _ (.replicate 4 0), .replicate 4 0⟩
    | .clock .. => ⟨.replicate _ (.replicate 4 1), .replicate 4 1⟩
  { hashNToHashNoPad := fun elements => .replicate 4 (elements.headD 0)
    verifierOnly := data
    prove := fun circuit publicInputs => ((data circuit).elements, publicInputs)
    verifyProof := fun _ data proof => decide (proof.proof = (data.elements, proof.publicInputs)) }

end

end Neatworks.Boson
