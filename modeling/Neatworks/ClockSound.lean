import Mathlib.Logic.Relation
import Mathlib.Order.Fin.Basic
import Mathlib.Order.MinMax
import Neatworks.Clock

/-!
# What the clock circuit accepts

The constraints of the circuit as conditions on the assignment, and from them
what they say about the counters. An updated counter replaces the counter of the
first proof before the comparison, so only the second proof bounds it from below.
-/

namespace Neatworks.Boson

open Outcome

section
variable {capHeight S : Nat} {π : Type}

/-! ## The loops -/

@[simp] theorem VerifierData.elements_length (data : VerifierData capHeight) :
    data.elements.length = 2 ^ capHeight * 4 + 4 := by
  rw [elements, List.length_append, List.length_flatMap, Vector.length_toList]
  congr 1
  rw [List.map_congr_left fun (hash : HashOut) _ => (Vector.length_toList : hash.toList.length = 4), List.map_const', List.sum_replicate_nat,
    Vector.length_toList]

theorem satisfies_connectData {isGenesis : Bool} {pairs : List (F × F)} {P : Unit → Prop} :
    (connectData isGenesis pairs).Satisfies P ↔ (isGenesis = false → ∀ pair ∈ pairs, pair.2 = pair.1) ∧ P () := by
  induction pairs with
  | nil => simp [connectData]
  | cons pair pairs ih =>
    simp only [connectData, satisfies_bind, satisfies_connect, ih, List.mem_cons, forall_eq_or_imp]
    cases isGenesis with
    | false => simp [select, and_assoc]
    | true => simp [select]

/-- The first argument of the comparison at index `i`. -/
def Assignment.input1 (w : Assignment capHeight π) (i : Nat) (inputCounter1 : F) : F :=
  if w.updatedIndex.val = i then w.updatedCounter else inputCounter1

def Assignment.output (w : Assignment capHeight π) (i : Nat) (inputCounter1 inputCounter2 : F) : F :=
  if w.isGenesis then 0
  else if (w.input1 i inputCounter1).val ≤ inputCounter2.val then inputCounter2 else w.input1 i inputCounter1

/-- `updated_key` after the indices from `i` on. -/
def Assignment.keyFrom (w : Assignment capHeight π) : Nat → List HashOut → HashOut → HashOut
  | _, [], updatedKey => updatedKey
  | i, key :: keys, updatedKey => w.keyFrom (i + 1) keys (if w.updatedIndex.val = i then key else updatedKey)

theorem Assignment.keyFrom_of_lt {w : Assignment capHeight π} {i : Nat} (h : w.updatedIndex.val < i) (keys : List HashOut)
    (updatedKey : HashOut) : w.keyFrom i keys updatedKey = updatedKey := by
  induction keys generalizing i with
  | nil => rfl
  | cons key keys ih => rw [keyFrom, if_neg (Nat.ne_of_lt h), ih (Nat.lt_succ_of_lt h)]

/-- The key at the updated index, if there is one. -/
theorem Assignment.keyFrom_eq {w : Assignment capHeight π} {i : Nat} (h : i ≤ w.updatedIndex.val) (keys : List HashOut)
    (updatedKey : HashOut) : w.keyFrom i keys updatedKey = keys.getD (w.updatedIndex.val - i) updatedKey := by
  induction keys generalizing i with
  | nil => simp [keyFrom]
  | cons key keys ih =>
    rw [keyFrom]
    rcases Nat.eq_or_lt_of_le h with heq | hlt
    · rw [if_pos heq.symm, keyFrom_of_lt (by omega), ← heq, Nat.sub_self]
      rfl
    · rw [if_neg (Nat.ne_of_gt hlt), ih hlt]
      have hsub : w.updatedIndex.val - i = w.updatedIndex.val - (i + 1) + 1 := by omega
      rw [hsub, List.getD_cons_succ]

theorem satisfies_outputCounters {w : Assignment capHeight π} {i : Nat} {keys : List HashOut} {counters : List (F × F)}
    {updatedKey : HashOut} (hlength : keys.length = counters.length) {P : List F × HashOut → Prop} :
    (outputCounters w i keys counters updatedKey).Satisfies P ↔
      (∀ k, k < keys.length → i + k < order) ∧
      (∀ pair ∈ counters.zipIdx i, (w.input1 pair.2 pair.1.1).val < 2 ^ 32 ∧ pair.1.2.val < 2 ^ 32) ∧
      P ((counters.zipIdx i).map (fun pair => w.output pair.2 pair.1.1 pair.1.2), w.keyFrom i keys updatedKey) := by
  induction keys generalizing i counters updatedKey P with
  | nil =>
    have hnil : counters = [] := List.length_eq_zero_iff.mp hlength.symm
    subst hnil
    simp [outputCounters, Assignment.keyFrom]
  | cons key keys ih =>
    cases counters with
    | nil => cases hlength
    | cons counter counters =>
      obtain ⟨c1, c2⟩ := counter
      have hlength' : keys.length = counters.length := Nat.succ.inj hlength
      simp only [outputCounters, satisfies_bind, satisfies_fromCanonical, satisfies_rangeCheckU32, ih hlength',
        satisfies_pure, selectHash_eq, listLeU32_singleton, List.zipIdx_cons, List.map_cons, Assignment.keyFrom]
      have hindex (h : i < order) : isEqual w.updatedIndex ⟨i, h⟩ = decide (w.updatedIndex.val = i) := by
        simp only [isEqual, Fin.ext_iff]
      have hlt : (∀ k, k < (key :: keys).length → i + k < order) ↔ i < order ∧ ∀ k, k < keys.length → i + 1 + k < order := by
        constructor
        · intro h
          refine ⟨h 0 (Nat.succ_pos _), fun k hk => ?_⟩
          have := h (k + 1) (Nat.succ_lt_succ hk)
          omega
        · rintro ⟨h, hrest⟩ k hk
          cases k with
          | zero => exact h
          | succ k =>
            have := hrest k (Nat.lt_of_succ_lt_succ hk)
            omega
      rw [hlt]
      simp only [hindex, select, decide_eq_true_eq, List.forall_mem_cons, List.not_mem_nil, false_implies, implies_true,
        and_true, Assignment.output, Assignment.input1]
      constructor
      · rintro ⟨h, ⟨hx1, hx2⟩, hrest, hranges, hP⟩
        exact ⟨⟨h, hrest⟩, ⟨⟨hx1, hx2⟩, hranges⟩, hP⟩
      · rintro ⟨⟨h, hrest⟩, ⟨⟨hx1, hx2⟩, hranges⟩, hP⟩
        exact ⟨h, ⟨hx1, hx2⟩, hrest, hranges, hP⟩

/-! ## The circuit -/

def Proof.counter (proof : Proof π) (i : Nat) : F := proof.publicInputs.getD i 0

/-- The public inputs for the counters. -/
def Assignment.outputs (S : Nat) (w : Assignment capHeight π) : List F :=
  (List.range S).map fun i => w.output i (w.proof1.counter i) (w.proof2.counter i)

structure Accepts (plonk : Plonk capHeight S π) (inner : Circuit S) (keys : Vector HashOut S) (dummyKey : HashOut)
    (w : Assignment capHeight π) : Prop where
  length1 : w.proof1.publicInputs.length = inner.numPublicInputs capHeight
  length2 : w.proof2.publicInputs.length = inner.numPublicInputs capHeight
  le : S ≤ inner.numPublicInputs capHeight
  data1 : w.isGenesis = false → ∀ pair ∈ (w.proof1.publicInputs.drop S).zip w.verifierData.elements, pair.2 = pair.1
  verify1 : plonk.verifyProof inner w.verifierData w.proof1 = true
  data2 : w.isGenesis = false → ∀ pair ∈ (w.proof2.publicInputs.drop S).zip w.verifierData.elements, pair.2 = pair.1
  verify2 : plonk.verifyProof inner w.verifierData w.proof2 = true
  canonical : S ≤ order
  ranges : ∀ i < S, (w.input1 i (w.proof1.counter i)).val < 2 ^ 32 ∧ (w.proof2.counter i).val < 2 ^ 32
  key : plonk.hashNToHashNoPad [w.sig] = keys.toList.getD w.updatedIndex.val dummyKey

theorem zip_counters {proof1 proof2 : Proof π} (h1 : S ≤ proof1.publicInputs.length) (h2 : S ≤ proof2.publicInputs.length) :
    ((proof1.publicInputs.take S).zip (proof2.publicInputs.take S)).zipIdx =
      (List.range S).map fun i => ((proof1.counter i, proof2.counter i), i) := by
  refine List.ext_getElem (by simp; omega) fun i hi hi' => ?_
  have hlt : i < S := by simpa using hi'
  have hget {proof : Proof π} (h : i < proof.publicInputs.length) : proof.counter i = proof.publicInputs[i] := by
    rw [Proof.counter, List.getD_eq_getElem?_getD, List.getElem?_eq_getElem h, Option.getD_some]
  simp only [List.getElem_zipIdx, List.getElem_zip, List.getElem_take, List.getElem_map, List.getElem_range, Nat.zero_add,
    hget (Nat.lt_of_lt_of_le hlt h1), hget (Nat.lt_of_lt_of_le hlt h2)]

theorem satisfies_clockCircuit {plonk : Plonk capHeight S π} {inner : Circuit S} {keys : Vector HashOut S} {dummyKey : HashOut}
    {w : Assignment capHeight π} {P : List F → Prop} :
    (clockCircuit plonk inner keys dummyKey w).Satisfies P ↔
      Accepts plonk inner keys dummyKey w ∧ P (w.outputs S ++ w.verifierData.elements) := by
  have hcanonical : (∀ k, k < keys.toList.length → 0 + k < order) ↔ S ≤ order := by
    rw [Vector.length_toList]
    constructor
    · intro h
      by_contra hlt
      have := h order (by omega)
      omega
    · intro h k hk
      omega
  by_cases hfits : w.proof1.publicInputs.length = inner.numPublicInputs capHeight ∧
      w.proof2.publicInputs.length = inner.numPublicInputs capHeight ∧ S ≤ inner.numPublicInputs capHeight
  · obtain ⟨h1, h2, hle⟩ := hfits
    have hlength : keys.toList.length = ((w.proof1.publicInputs.take S).zip (w.proof2.publicInputs.take S)).length := by
      simp [h1, h2, hle]
    have hzip := @zip_counters S π w.proof1 w.proof2 (h1.symm ▸ hle) (h2.symm ▸ hle)
    simp only [clockCircuit, satisfies_bind, satisfies_assert, satisfies_emit, satisfies_connectData,
      satisfies_outputCounters hlength, satisfies_connectHashes, satisfies_pure, hzip, hcanonical,
      Assignment.keyFrom_eq (Nat.zero_le _), Nat.sub_zero, List.map_map, List.forall_mem_map, List.mem_range]
    constructor
    · rintro ⟨_, _, _, hdata1, hverify1, hdata2, hverify2, hS, hranges, hkey, hP⟩
      exact ⟨⟨h1, h2, hle, hdata1, hverify1, hdata2, hverify2, hS, hranges, hkey⟩, hP⟩
    · rintro ⟨h, hP⟩
      exact ⟨h1, h2, hle, h.data1, h.verify1, h.data2, h.verify2, h.canonical, h.ranges, h.key, hP⟩
  · simp only [clockCircuit, satisfies_bind, satisfies_assert]
    constructor
    · rintro ⟨h1, h2, hle, _⟩
      exact absurd ⟨h1, h2, hle⟩ hfits
    · rintro ⟨h, _⟩
      exact absurd ⟨h.length1, h.length2, h.le⟩ hfits

/-! ## The counters -/

/-- What the output counters are to say about those of the two proofs. -/
def Grows (plonk : Plonk capHeight S π) (keys : Vector HashOut S) (w : Assignment capHeight π) (publicInputs : List F) : Prop :=
  ∀ i, (hi : i < S) → ∃ output, publicInputs[i]? = some output ∧
    w.proof1.counter i ≤ output ∧ w.proof2.counter i ≤ output ∧
    (output = max (w.proof1.counter i) (w.proof2.counter i) ∨
      w.updatedIndex.val = i ∧ plonk.hashNToHashNoPad [w.sig] = keys[i])

/-- The counter of the first proof at the updated index is not above both the
updated counter and the counter of the second proof. -/
def Assignment.Bounded (S : Nat) (w : Assignment capHeight π) : Prop :=
  w.updatedIndex.val < S →
    w.proof1.counter w.updatedIndex.val ≤ w.updatedCounter ∨
      w.proof1.counter w.updatedIndex.val ≤ w.proof2.counter w.updatedIndex.val

section
variable {plonk : Plonk capHeight S π} {inner : Circuit S} {keys : Vector HashOut S} {dummyKey : HashOut}
  {w : Assignment capHeight π}

theorem output_getElem {i : Nat} (hi : i < S) (rest : List F) :
    (w.outputs S ++ rest)[i]? = some (w.output i (w.proof1.counter i) (w.proof2.counter i)) := by
  rw [List.getElem?_append_left (by simpa [Assignment.outputs] using hi), Assignment.outputs, List.getElem?_map,
    List.getElem?_range hi]
  rfl

/-- Not in a genesis the output is the maximum of what is compared. -/
theorem output_eq_max (hgenesis : w.isGenesis = false) (i : Nat) (c1 c2 : F) : w.output i c1 c2 = max (w.input1 i c1) c2 := by
  rw [Assignment.output, if_neg (by simp [hgenesis])]
  split
  · next hle =>
    have hle' : w.input1 i c1 ≤ c2 := hle
    exact (max_eq_right hle').symm
  · next hlt =>
    have hlt' : ¬ w.input1 i c1 ≤ c2 := hlt
    exact (max_eq_left (le_of_not_ge hlt')).symm

theorem updated_key (h : Accepts plonk inner keys dummyKey w) {i : Nat} (hi : i < S) (hupdated : w.updatedIndex.val = i) :
    plonk.hashNToHashNoPad [w.sig] = keys[i] := by
  rw [h.key, hupdated, List.getD_eq_getElem?_getD, List.getElem?_eq_getElem (by simpa using hi), Option.getD_some,
    Vector.getElem_toList]

/-- An assignment that satisfies the circuit, not in a genesis, does not let a
counter go backwards if and only if the updated one is bounded from below. -/
theorem clock_grows_iff {publicInputs : List F} {constraints : List Bool}
    (hbuilt : clockCircuit plonk inner keys dummyKey w = .ok publicInputs constraints)
    (hsatisfied : ∀ c ∈ constraints, c = true) (hgenesis : w.isGenesis = false) :
    Grows plonk keys w publicInputs ↔ w.Bounded S := by
  have hall : (clockCircuit plonk inner keys dummyKey w).Satisfies (· = publicInputs) := by
    rw [hbuilt]
    exact ⟨hsatisfied, rfl⟩
  obtain ⟨haccepts, rfl⟩ := satisfies_clockCircuit.mp hall
  constructor
  · intro hgrows hindex
    obtain ⟨output, houtput, hle, _⟩ := hgrows _ hindex
    rw [output_getElem hindex, output_eq_max hgenesis, Assignment.input1, if_pos rfl] at houtput
    cases houtput
    exact le_max_iff.mp hle
  · intro hbounded i hi
    refine ⟨_, output_getElem hi _, ?_⟩
    rw [output_eq_max hgenesis, Assignment.input1]
    by_cases hupdated : w.updatedIndex.val = i
    · rw [if_pos hupdated]
      have hkey := updated_key haccepts hi hupdated
      subst hupdated
      exact ⟨le_max_iff.mpr (hbounded hi), le_max_right _ _, Or.inr ⟨rfl, hkey⟩⟩
    · rw [if_neg hupdated]
      exact ⟨le_max_left _ _, le_max_right _ _, Or.inl rfl⟩

/-- These counters are the output of an accepted clock that has consumed a proof
with those, with the updated one bounded from below. -/
inductive Succeeds (plonk : Plonk capHeight S π) (inner : Circuit S) (keys : Vector HashOut S) (dummyKey : HashOut) :
    List F → List F → Prop
  | intro {w : Assignment capHeight π} {proof : Proof π} {publicInputs : List F} {constraints : List Bool}
    (hbuilt : clockCircuit plonk inner keys dummyKey w = .ok publicInputs constraints)
    (hsatisfied : ∀ c ∈ constraints, c = true) (hgenesis : w.isGenesis = false) (hbounded : w.Bounded S)
    (hproof : proof = w.proof1 ∨ proof = w.proof2) :
    Succeeds plonk inner keys dummyKey proof.publicInputs publicInputs

theorem counters_mono {before after : List F}
    (h : Relation.ReflTransGen (Succeeds plonk inner keys dummyKey) before after) {i : Nat} (hi : i < S) :
    before.getD i 0 ≤ after.getD i 0 := by
  induction h with
  | refl => exact le_refl _
  | tail _ hstep ih =>
    refine le_trans ih ?_
    cases hstep with
    | intro hbuilt hsatisfied hgenesis hbounded hproof =>
      obtain ⟨output, houtput, h1, h2, _⟩ := (clock_grows_iff hbuilt hsatisfied hgenesis).mpr hbounded i hi
      rw [List.getD_eq_getElem?_getD (i := i), List.getD_eq_getElem?_getD (i := i), houtput, Option.getD_some,
        ← List.getD_eq_getElem?_getD]
      rcases hproof with rfl | rfl
      · exact h1
      · exact h2

end

end

/-! ## An updated counter -/

section

/-- One counter, with the key of the secret 7. -/
def toyKeys : Vector HashOut 1 := #v[.replicate 4 7]

def toyPlonk : Plonk 0 1 (List F × List F) := Plonk.toy

def toyCircuit : Circuit 1 := genesisCircuit toyPlonk toyKeys

/-- A clock of the circuit with this counter. -/
def toyProof (counter : F) : Proof (List F × List F) :=
  let data := toyPlonk.verifierOnly toyCircuit
  ⟨counter :: data.elements, data.elements, counter :: data.elements⟩

/-- The key signs an update from 5 to this counter; the second proof is at 2. -/
def toyUpdate (updatedCounter : F) : Assignment 0 (List F × List F) where
  isGenesis := false
  verifierData := toyPlonk.verifierOnly toyCircuit
  proof1 := toyProof 5
  updatedIndex := 0
  updatedCounter := updatedCounter
  sig := 7
  proof2 := toyProof 2

theorem clock_grows_iff_six : ∃ publicInputs, (Grows toyPlonk toyKeys (toyUpdate 6) publicInputs ↔ (toyUpdate 6).Bounded 1) :=
  ⟨_, clock_grows_iff (show clockCircuit toyPlonk toyCircuit toyKeys (.replicate 4 0) (toyUpdate 6) = .ok _ _ from rfl)
    (by decide) rfl⟩

/-- The counter goes back from 5 to 3. -/
theorem clock_grows_fails : ∃ publicInputs constraints,
    clockCircuit toyPlonk toyCircuit toyKeys (.replicate 4 0) (toyUpdate 3) = .ok publicInputs constraints ∧
      (∀ c ∈ constraints, c = true) ∧ (toyUpdate 3).isGenesis = false ∧ ¬ Grows toyPlonk toyKeys (toyUpdate 3) publicInputs := by
  refine ⟨_, _, rfl, by decide, rfl, fun h => ?_⟩
  obtain ⟨output, houtput, hle, _⟩ := h 0 (by decide)
  cases houtput
  exact absurd hle (by decide)

end

end Neatworks.Boson
