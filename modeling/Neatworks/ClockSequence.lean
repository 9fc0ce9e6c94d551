import Neatworks.Bytes
import Neatworks.ClockSound
import Mathlib.Data.List.Induction

/-!
# Sequences of clocks

A clock publishes the verifier data that was used for the proofs it consumed, and
an operation asks of its input clocks that this is the data of the circuit. The
clock of `Clock::genesis` publishes the data of another circuit, so no operation
on it satisfies the circuit. From a clock that publishes the data of the circuit
every operation does.
-/

namespace Neatworks.Boson

open Outcome

/-! ## Verifier data -/

theorem hashOut_selfDelimiting : SelfDelimiting fun hash : HashOut => hash.toList :=
  .of_length (fun _ => Vector.length_toList) fun _ _ h => Vector.toList_inj.mp h

section
variable {capHeight S : Nat} {π : Type}

theorem VerifierData.elements_inj {data data' : VerifierData capHeight} (h : data.elements = data'.elements) : data = data' := by
  have hlength (cap : Vector HashOut (2 ^ capHeight)) : (cap.toList.flatMap fun hash : HashOut => hash.toList).length =
      2 ^ capHeight * 4 := by
    rw [List.length_flatMap, List.map_congr_left fun (hash : HashOut) _ => (Vector.length_toList : hash.toList.length = 4), List.map_const',
      List.sum_replicate_nat, Vector.length_toList]
  obtain ⟨hcap, hdigest⟩ := List.append_inj h ((hlength _).trans (hlength _).symm)
  have hself : SelfDelimitingOn (fun _ => True) fun hash : HashOut => hash.toList := fun a b _ _ => hashOut_selfDelimiting a b
  have hcap' := hself.flatMap_inj (fun hash hnil => by
    have := congrArg List.length hnil
    rw [Vector.length_toList] at this
    cases this) (fun _ _ => trivial) (fun _ _ => trivial) hcap
  cases data
  cases data'
  exact VerifierData.mk.injEq .. ▸ ⟨Vector.toList_inj.mp hcap', Vector.toList_inj.mp hdigest⟩

theorem eq_of_zip {l l' : List F} (hlength : l.length = l'.length) (h : ∀ pair ∈ l.zip l', pair.2 = pair.1) : l' = l := by
  refine List.ext_getElem hlength.symm fun i hi' hi => ?_
  have hmem : (l[i], l'[i]) ∈ l.zip l' := by
    rw [List.mem_iff_getElem]
    exact ⟨i, by rw [List.length_zip]; omega, List.getElem_zip ..⟩
  exact h _ hmem

/-! ## Operations -/

inductive Op (π : Type)
  | increment (clock : Clock π) (index : Nat) (secret : F)
  | merge (clock1 clock2 : Clock π)

variable (plonk : Plonk capHeight S π) (circuit : Circuit S)

def Op.assignment : Op π → Result (Assignment capHeight π)
  | .increment clock index secret => do
    let (_, w) ← clock.incrementAssignment plonk circuit index secret
    return w
  | .merge clock1 clock2 => clock1.mergeAssignment plonk circuit clock2

def Op.run : Op π → Result (Clock π)
  | .increment clock index secret => clock.increment plonk circuit index secret
  | .merge clock1 clock2 => clock1.merge plonk circuit clock2

/-- The operation is on clocks that there are; an increment is signed with the
secret of its key and does not overflow. -/
def Op.Valid (keys : Vector HashOut S) (clocks : List (Clock π)) : Op π → Prop
  | .increment clock index secret => clock ∈ clocks ∧ (∃ h : index < S, publicKey plonk secret = keys[index]) ∧
      ∃ counter, (clock.counters S)[index]? = some counter ∧ counter < 2 ^ 32 - 1
  | .merge clock1 clock2 => clock1 ∈ clocks ∧ clock2 ∈ clocks

/-- The clocks after the operations, each with the new clock. -/
def execute (clocks : List (Clock π)) (ops : List (Op π)) : Result (List (Clock π)) :=
  ops.foldlM (fun clocks op => do
    let clock ← op.run plonk circuit
    return clocks ++ [clock]) clocks

def Satisfied (w : Assignment capHeight π) : Prop :=
  match circuit with
  | .empty _ => False
  | .clock inner keys dummyKey => (clockCircuit plonk inner keys dummyKey w).Satisfies fun _ => True

/-- Each operation that is reached is valid. -/
def ValidRun (keys : Vector HashOut S) (start : Clock π) (ops : List (Op π)) : Prop :=
  ∀ before op after, ops = before ++ op :: after → ∀ clocks, execute plonk circuit [start] before = .ok clocks [] →
    op.Valid plonk keys clocks

/-- Each operation that is reached assigns a witness that satisfies the circuit. -/
def Complete (start : Clock π) (ops : List (Op π)) : Prop :=
  ∀ before op after, ops = before ++ op :: after → ∀ clocks, execute plonk circuit [start] before = .ok clocks [] →
    ∃ w, op.assignment plonk circuit = .ok w [] ∧ Satisfied plonk circuit w

/-- The clock publishes the verifier data of the circuit. -/
def Clock.Own (clock : Clock π) : Prop := clock.proof.publicInputs.drop S = (plonk.verifierOnly circuit).elements

variable {plonk} {circuit}

theorem ofBuilder_fromCanonical {n : Nat} {value : F} {es : List Empty}
    (h : Result.ofBuilder (fromCanonical n) = .ok value es) : value.val = n := by
  unfold fromCanonical at h
  split at h
  · cases h
    rfl
  · cases h

theorem Op.assignment_eq {op : Op π} {w : Assignment capHeight π} {es : List Empty}
    (h : op.assignment plonk circuit = .ok w es) : w.isGenesis = false ∧ w.verifierData = plonk.verifierOnly circuit ∧
      match op with
      | .increment clock index secret => w.proof1 = clock.proof ∧ w.proof2 = clock.proof ∧ w.updatedIndex.val = index ∧
          w.sig = secret ∧ ∃ counter, (clock.counters S)[index]? = some counter ∧ w.updatedCounter.val = counter + 1
      | .merge clock1 clock2 => w.proof1 = clock1.proof ∧ w.proof2 = clock2.proof ∧ w.updatedIndex.val = S + 1 ∧
          w.sig = dummySecret := by
  cases op with
  | increment clock index secret =>
    obtain ⟨⟨counter, w'⟩, es₁, es₂, hw, hpure, _⟩ := bind_eq_ok.mp h
    cases hpure
    unfold Clock.incrementAssignment at hw
    cases hcounter : (clock.counters S)[index]? with
    | none =>
      rw [hcounter] at hw
      cases hw
    | some counter' =>
      rw [hcounter] at hw
      obtain ⟨_, _, _, _, hw, _⟩ := bind_eq_ok.mp hw
      obtain ⟨updatedIndex, _, _, hindex, hw, _⟩ := bind_eq_ok.mp hw
      obtain ⟨updatedCounter, _, _, hupdated, hw, _⟩ := bind_eq_ok.mp hw
      cases hw
      exact ⟨rfl, rfl, rfl, rfl, ofBuilder_fromCanonical hindex, rfl, counter', hcounter, ofBuilder_fromCanonical hupdated⟩
  | merge clock1 clock2 =>
    obtain ⟨updatedIndex, _, _, hindex, hw, _⟩ := bind_eq_ok.mp h
    obtain ⟨updatedCounter, _, _, _, hw, _⟩ := bind_eq_ok.mp hw
    cases hw
    exact ⟨rfl, rfl, rfl, rfl, ofBuilder_fromCanonical hindex, rfl⟩

/-! ## The clock of a genesis -/

theorem genesisCircuit_eq (plonk : Plonk capHeight S π) (keys : Vector HashOut S) :
    ∃ inner : Circuit S, genesisCircuit plonk keys = .clock inner keys (publicKey plonk dummySecret) ∧
      inner.numPublicInputs capHeight = S + (2 ^ capHeight * 4 + 4) := ⟨_, rfl, rfl⟩

theorem prove_eq_ok {w : Assignment capHeight π} {clock : Clock π} {es : List Empty} (h : prove plonk circuit w = .ok clock es) :
    Satisfied plonk circuit w ∧
      clock.proof = ⟨w.outputs S ++ w.verifierData.elements, plonk.prove circuit (w.outputs S ++ w.verifierData.elements)⟩ := by
  cases circuit with
  | empty numPublicInputs => cases h
  | clock inner keys dummyKey =>
    unfold prove at h
    dsimp only at h
    cases hbuilt : clockCircuit plonk inner keys dummyKey w with
    | fail reason es' =>
      rw [hbuilt] at h
      cases h
    | ok publicInputs constraints =>
      rw [hbuilt] at h
      dsimp only at h
      by_cases hall : constraints.all id = true
      · rw [if_pos hall] at h
        cases h
        have hsatisfies : (clockCircuit plonk inner keys dummyKey w).Satisfies (· = publicInputs) := by
          rw [hbuilt]
          exact ⟨fun c hc => List.all_eq_true.mp hall c hc, rfl⟩
        obtain ⟨haccepts, rfl⟩ := satisfies_clockCircuit.mp hsatisfies
        exact ⟨satisfies_clockCircuit.mpr ⟨haccepts, trivial⟩, rfl⟩
      · rw [if_neg hall] at h
        cases h

theorem genesis_publicInputs {keys : Vector HashOut S} {updatedIndex updatedCounter : F} {clock : Clock π} {es : List Empty}
    (h : genesis plonk keys updatedIndex updatedCounter = .ok clock es) :
    clock.proof.publicInputs = List.replicate S 0 ++ (plonk.verifierOnly (emptyCircuit plonk keys)).elements := by
  obtain ⟨clock', _, _, hprove, hrest, _⟩ := bind_eq_ok.mp h
  obtain ⟨_, _, _, _, hpure, _⟩ := bind_eq_ok.mp hrest
  cases hpure
  rw [(prove_eq_ok hprove).2]
  have houtputs : (genesisAssignment plonk keys updatedIndex updatedCounter).outputs S = List.replicate S 0 := by
    simp [Assignment.outputs, Assignment.output, genesisAssignment]
  rw [houtputs]
  rfl

theorem genesis_drop {keys : Vector HashOut S} {updatedIndex updatedCounter : F} {clock : Clock π} {es : List Empty}
    (h : genesis plonk keys updatedIndex updatedCounter = .ok clock es) :
    clock.proof.publicInputs.drop S = (plonk.verifierOnly (emptyCircuit plonk keys)).elements := by
  rw [genesis_publicInputs h, List.drop_append, List.length_replicate, Nat.sub_self, List.drop_zero,
    List.drop_eq_nil_of_le (by simp), List.nil_append]

/-- A witness that satisfies the circuit has consumed clocks that publish its data. -/
theorem own_of_satisfied {inner : Circuit S} {keys : Vector HashOut S} {dummyKey : HashOut} {w : Assignment capHeight π}
    (hinner : inner.numPublicInputs capHeight = S + (2 ^ capHeight * 4 + 4))
    (h : Satisfied plonk (.clock inner keys dummyKey) w) (hgenesis : w.isGenesis = false) :
    w.proof1.publicInputs.drop S = w.verifierData.elements ∧ w.proof2.publicInputs.drop S = w.verifierData.elements := by
  obtain ⟨haccepts, _⟩ := satisfies_clockCircuit.mp h
  have hlength (proof : Proof π) (hproof : proof.publicInputs.length = inner.numPublicInputs capHeight) :
      (proof.publicInputs.drop S).length = w.verifierData.elements.length := by
    rw [List.length_drop, hproof, hinner, VerifierData.elements_length, Nat.add_sub_cancel_left]
  exact ⟨(eq_of_zip (hlength _ haccepts.length1) (haccepts.data1 hgenesis)).symm,
    (eq_of_zip (hlength _ haccepts.length2) (haccepts.data2 hgenesis)).symm⟩

theorem genesis_not_satisfied {keys : Vector HashOut S} {updatedIndex updatedCounter : F} {start : Clock π}
    (hdistinct : plonk.verifierOnly (emptyCircuit plonk keys) ≠ plonk.verifierOnly (genesisCircuit plonk keys))
    (hgenesis : genesis plonk keys updatedIndex updatedCounter = .ok start []) {op : Op π} (hop : op.Valid plonk keys [start])
    {w : Assignment capHeight π} (hw : op.assignment plonk (genesisCircuit plonk keys) = .ok w []) :
    ¬ Satisfied plonk (genesisCircuit plonk keys) w := by
  intro hsatisfied
  obtain ⟨hnot, hdata, hproofs⟩ := Op.assignment_eq hw
  obtain ⟨inner, hcircuit, hinner⟩ := genesisCircuit_eq plonk keys
  rw [hcircuit] at hsatisfied
  have hown := (own_of_satisfied hinner hsatisfied hnot).1
  have hfirst : w.proof1 = start.proof := by
    cases op with
    | increment clock index secret => rw [hproofs.1, List.mem_singleton.mp hop.1]
    | merge clock1 clock2 => rw [hproofs.1, List.mem_singleton.mp hop.1]
  rw [hfirst, genesis_drop hgenesis, hdata] at hown
  exact hdistinct (VerifierData.elements_inj hown)

/-- Of the sequences of operations from the clock of a genesis only the empty one
goes through. -/
theorem clock_complete_iff {keys : Vector HashOut S} {updatedIndex updatedCounter : F} {start : Clock π}
    (hdistinct : plonk.verifierOnly (emptyCircuit plonk keys) ≠ plonk.verifierOnly (genesisCircuit plonk keys))
    (hgenesis : genesis plonk keys updatedIndex updatedCounter = .ok start []) {ops : List (Op π)}
    (hvalid : ValidRun plonk (genesisCircuit plonk keys) keys start ops) :
    Complete plonk (genesisCircuit plonk keys) start ops ↔ ops = [] := by
  constructor
  · intro hcomplete
    cases ops with
    | nil => rfl
    | cons op ops =>
      obtain ⟨w, hw, hsatisfied⟩ := hcomplete [] op ops rfl [start] rfl
      exact absurd hsatisfied (genesis_not_satisfied hdistinct hgenesis (hvalid [] op ops rfl [start] rfl) hw)
  · intro hnil before op after heq
    rw [hnil] at heq
    exact absurd heq.symm (by simp)

/-! ## Clocks that publish the data of the circuit -/

/-- The clock is a proof of the circuit, and it publishes the data of the circuit. -/
structure Made (plonk : Plonk capHeight S π) (circuit : Circuit S) (clock : Clock π) : Prop where
  length : clock.proof.publicInputs.length = S + (2 ^ capHeight * 4 + 4)
  accepted : ∀ inner, plonk.verifyProof inner (plonk.verifierOnly circuit) clock.proof = true
  u32 : ∀ i < S, (clock.proof.counter i).val < 2 ^ 32
  own : clock.Own plonk circuit

theorem Made.counters {clock : Clock π} (h : Made plonk circuit clock) :
    clock.counters S = (List.range S).map fun i => (clock.proof.counter i).val := by
  have hlength := h.length
  refine List.ext_getElem (by simp [Clock.counters, hlength]) fun i hi hi' => ?_
  have hlt : i < S := by simpa using hi'
  have hget : i < clock.proof.publicInputs.length := by omega
  have hcounter : clock.proof.counter i = clock.proof.publicInputs[i] := by
    rw [Proof.counter, List.getD_eq_getElem?_getD, List.getElem?_eq_getElem hget, Option.getD_some]
  have hmod := Nat.mod_eq_of_lt (h.u32 i hlt)
  rw [hcounter] at hmod
  simp only [Clock.counters, List.getElem_map, List.getElem_take, List.getElem_range, hmod, hcounter]

section
variable {inner : Circuit S} {keys : Vector HashOut S} {dummyKey : HashOut} {w : Assignment capHeight π}
  {clock1 clock2 : Clock π}

theorem accepts_of_made (h1 : Made plonk circuit clock1) (h2 : Made plonk circuit clock2) (hproof1 : w.proof1 = clock1.proof)
    (hproof2 : w.proof2 = clock2.proof) (hdata : w.verifierData = plonk.verifierOnly circuit)
    (hinner : inner.numPublicInputs capHeight = S + (2 ^ capHeight * 4 + 4)) (hcanonical : S ≤ order)
    (hcounter : w.updatedIndex.val < S → w.updatedCounter.val < 2 ^ 32)
    (hkey : plonk.hashNToHashNoPad [w.sig] = keys.toList.getD w.updatedIndex.val dummyKey) :
    Accepts plonk inner keys dummyKey w := by
  have hzip {clock : Clock π} (h : Made plonk circuit clock) :
      ∀ pair ∈ (clock.proof.publicInputs.drop S).zip w.verifierData.elements, pair.2 = pair.1 := by
    intro pair hpair
    rw [h.own, hdata] at hpair
    obtain ⟨i, _, rfl⟩ := List.getElem_of_mem hpair
    rw [List.getElem_zip]
  constructor
  case length1 => rw [hproof1, h1.length, hinner]
  case length2 => rw [hproof2, h2.length, hinner]
  case le => rw [hinner]; exact Nat.le_add_right _ _
  case data1 => rw [hproof1]; exact fun _ => hzip h1
  case verify1 => rw [hproof1, hdata]; exact h1.accepted inner
  case data2 => rw [hproof2]; exact fun _ => hzip h2
  case verify2 => rw [hproof2, hdata]; exact h2.accepted inner
  case canonical => exact hcanonical
  case ranges =>
    intro i hi
    rw [hproof1, hproof2, Assignment.input1]
    refine ⟨?_, h2.u32 i hi⟩
    split
    · next hupdated =>
      subst hupdated
      exact hcounter hi
    · exact h1.u32 i hi
  case key => exact hkey

theorem prove_of_accepts (h : Accepts plonk inner keys dummyKey w) :
    ∃ clock, prove plonk (.clock inner keys dummyKey) w = .ok clock [] := by
  have hsatisfies : (clockCircuit plonk inner keys dummyKey w).Satisfies fun _ => True := satisfies_clockCircuit.mpr ⟨h, trivial⟩
  unfold prove
  dsimp only
  cases hbuilt : clockCircuit plonk inner keys dummyKey w with
  | fail reason es =>
    rw [hbuilt] at hsatisfies
    cases hsatisfies
  | ok publicInputs constraints =>
    rw [hbuilt] at hsatisfies
    dsimp only
    have hall : constraints.all id = true := List.all_eq_true.mpr fun c hc => hsatisfies.1 c hc
    rw [if_pos hall]
    exact ⟨_, rfl⟩

theorem made_of_prove (haccept : ∀ inner circuit publicInputs,
      plonk.verifyProof inner (plonk.verifierOnly circuit) ⟨publicInputs, plonk.prove circuit publicInputs⟩ = true)
    (h : Accepts plonk inner keys dummyKey w) (hgenesis : w.isGenesis = false)
    (hdata : w.verifierData = plonk.verifierOnly (.clock inner keys dummyKey)) {clock : Clock π}
    (hprove : prove plonk (.clock inner keys dummyKey) w = .ok clock []) :
    Made plonk (.clock inner keys dummyKey) clock ∧
      ∀ i < S, clock.proof.counter i = max (w.input1 i (w.proof1.counter i)) (w.proof2.counter i) := by
  have hproof := (prove_eq_ok hprove).2
  have hcounter : ∀ i < S, clock.proof.counter i = max (w.input1 i (w.proof1.counter i)) (w.proof2.counter i) := by
    intro i hi
    rw [hproof, Proof.counter, List.getD_eq_getElem?_getD, output_getElem hi, Option.getD_some, output_eq_max hgenesis]
  have houtputs : (w.outputs S).length = S := by simp [Assignment.outputs]
  refine ⟨⟨?_, fun inner' => ?_, fun i hi => ?_, ?_⟩, hcounter⟩
  · rw [hproof, List.length_append, houtputs, VerifierData.elements_length]
  · rw [hproof]
    exact haccept _ _ _
  · rw [hcounter i hi]
    rcases max_choice (w.input1 i (w.proof1.counter i)) (w.proof2.counter i) with hmax | hmax
    · rw [hmax]
      exact (h.ranges i hi).1
    · rw [hmax]
      exact (h.ranges i hi).2
  · rw [Clock.Own, hproof, ← hdata, List.drop_append, houtputs, Nat.sub_self, List.drop_zero,
      List.drop_eq_nil_of_le (Nat.le_of_eq houtputs), List.nil_append]

end

theorem fromCanonical_eq {n : Nat} (h : n < order) : Result.ofBuilder (fromCanonical n) = .ok ⟨n, h⟩ [] := by
  rw [fromCanonical, dif_pos h]
  rfl

/-- The assignment of an increment, when the counter does not overflow. -/
theorem incrementAssignment_eq {clock : Clock π} {index : Nat} {secret : F} {counter : Nat} (hindex : index < order)
    (hcounter : (clock.counters S)[index]? = some counter) (hlt : counter + 1 < 2 ^ 32) (hupdated : counter + 1 < order) :
    clock.incrementAssignment plonk circuit index secret = .ok (counter + 1,
      ⟨false, plonk.verifierOnly circuit, clock.proof, ⟨index, hindex⟩, ⟨counter + 1, hupdated⟩, secret, clock.proof⟩) [] := by
  rw [Clock.incrementAssignment, hcounter]
  dsimp only
  rw [Outcome.assert, if_pos hlt, ok_bind, fromCanonical_eq hindex, ok_bind, fromCanonical_eq hupdated, ok_bind]
  rfl

section
variable {inner : Circuit S} {keys : Vector HashOut S} (hS : S + 1 < order)
  (hinner : inner.numPublicInputs capHeight = S + (2 ^ capHeight * 4 + 4))
  (haccept : ∀ inner circuit publicInputs,
    plonk.verifyProof inner (plonk.verifierOnly circuit) ⟨publicInputs, plonk.prove circuit publicInputs⟩ = true)
  (hcircuit : circuit = .clock inner keys (publicKey plonk dummySecret))

include hS hinner haccept hcircuit

/-- An increment with the secret of its key, on a clock that publishes the data of the circuit. -/
theorem increment_of_made {clock : Clock π} (hmade : Made plonk circuit clock)
    {index : Nat} {secret : F} (hindex : index < S) (hkey : publicKey plonk secret = keys[index]) {counter : Nat}
    (hcounter : (clock.counters S)[index]? = some counter) (hlt : counter < 2 ^ 32 - 1) :
    (∃ w, (Op.increment clock index secret).assignment plonk circuit = .ok w [] ∧ Satisfied plonk circuit w) ∧
      ∃ clock', clock.increment plonk circuit index secret = .ok clock' [] ∧ Made plonk circuit clock' := by
  have hpow : (2 : Nat) ^ 32 < order := by decide
  set w : Assignment capHeight π := ⟨false, plonk.verifierOnly circuit, clock.proof, ⟨index, by omega⟩, ⟨counter + 1, by omega⟩,
    secret, clock.proof⟩ with hw
  have hassign : clock.incrementAssignment plonk circuit index secret = .ok (counter + 1, w) [] :=
    incrementAssignment_eq _ hcounter (by omega) _
  have haccepts : Accepts plonk inner keys (publicKey plonk dummySecret) w := by
    refine accepts_of_made hmade hmade rfl rfl rfl hinner (by omega) (fun _ => ?_) ?_
    · show counter + 1 < 2 ^ 32
      omega
    · show _ = keys.toList.getD index _
      rw [List.getD_eq_getElem?_getD, List.getElem?_eq_getElem (by simpa using hindex), Option.getD_some, Vector.getElem_toList]
      exact hkey
  subst hcircuit
  obtain ⟨clock', hprove⟩ := prove_of_accepts haccepts
  obtain ⟨hmade', hcounters⟩ := made_of_prove haccept haccepts rfl rfl hprove
  refine ⟨⟨w, ?_, satisfies_clockCircuit.mpr ⟨haccepts, trivial⟩⟩, clock', ?_, hmade'⟩
  · rw [Op.assignment, hassign]
    rfl
  · rw [hmade.counters, List.getElem?_map, List.getElem?_range hindex] at hcounter
    have hold : (clock.proof.counter index).val = counter := Option.some.inj hcounter
    rw [Clock.increment, hassign, ok_bind]
    dsimp only
    rw [hprove, ok_bind, Outcome.assert, if_pos]
    · rfl
    · rw [List.all_eq_true, hmade'.counters, hmade.counters]
      intro pair hpair
      obtain ⟨i, hi, rfl⟩ := List.getElem_of_mem hpair
      have hlt' : i < S := by simpa using hi
      simp only [List.getElem_zipIdx, List.getElem_zip, List.getElem_map, List.getElem_range, Nat.zero_add,
        hcounters i hlt', hw, Assignment.input1]
      by_cases heq : i = index
      · subst heq
        rw [if_pos rfl, if_pos rfl, max_eq_left]
        · exact decide_eq_true rfl
        · show (clock.proof.counter i).val ≤ counter + 1
          omega
      · rw [if_neg heq, if_neg (Ne.symm heq), max_self]
        exact decide_eq_true rfl

theorem merge_of_made {clock1 clock2 : Clock π}
    (hmade1 : Made plonk circuit clock1) (hmade2 : Made plonk circuit clock2) :
    (∃ w, (Op.merge clock1 clock2).assignment plonk circuit = .ok w [] ∧ Satisfied plonk circuit w) ∧
      ∃ clock', clock1.merge plonk circuit clock2 = .ok clock' [] ∧ Made plonk circuit clock' := by
  have hpow : (2 : Nat) ^ 32 - 1 < order := by decide
  set w : Assignment capHeight π := ⟨false, plonk.verifierOnly circuit, clock1.proof, ⟨S + 1, hS⟩, ⟨2 ^ 32 - 1, hpow⟩,
    dummySecret, clock2.proof⟩ with hw
  have hassign : clock1.mergeAssignment plonk circuit clock2 = .ok w [] := by
    rw [Clock.mergeAssignment, fromCanonical_eq hS, ok_bind, fromCanonical_eq hpow, ok_bind]
    rfl
  have haccepts : Accepts plonk inner keys (publicKey plonk dummySecret) w := by
    refine accepts_of_made hmade1 hmade2 rfl rfl rfl hinner (by omega) (fun hlt => ?_) ?_
    · have : S + 1 < S := hlt
      omega
    · show _ = keys.toList.getD (S + 1) _
      rw [List.getD_eq_getElem?_getD, List.getElem?_eq_none (by simp), Option.getD_none]
      rfl
  subst hcircuit
  obtain ⟨clock', hprove⟩ := prove_of_accepts haccepts
  obtain ⟨hmade', hcounters⟩ := made_of_prove haccept haccepts rfl rfl hprove
  refine ⟨⟨w, hassign, satisfies_clockCircuit.mpr ⟨haccepts, trivial⟩⟩, clock', ?_, hmade'⟩
  rw [Clock.merge, hassign, ok_bind]
  rw [hprove, ok_bind, Outcome.assert, if_pos]
  · rfl
  · rw [List.all_eq_true, hmade'.counters, hmade1.counters, hmade2.counters]
    intro pair hpair
    obtain ⟨i, hi, rfl⟩ := List.getElem_of_mem hpair
    have hlt : i < S := by simpa using hi
    have hnot : ¬ S + 1 = i := by omega
    simp only [List.getElem_zip, List.getElem_map, List.getElem_range, decide_eq_true_eq, hcounters i hlt, hw,
      Assignment.input1, if_neg hnot]
    rcases le_total (clock1.proof.counter i) (clock2.proof.counter i) with hle | hle
    · rw [max_eq_right hle]
      exact (Nat.max_eq_right hle).symm
    · rw [max_eq_left hle]
      exact (Nat.max_eq_left hle).symm

/-- From a clock that publishes the data of the circuit every sequence of valid
operations goes through. -/
theorem complete_of_made {start : Clock π} (hmade : Made plonk circuit start)
    {ops : List (Op π)} (hvalid : ValidRun plonk circuit keys start ops) :
    Complete plonk circuit start ops ∧ ∃ clocks, execute plonk circuit [start] ops = .ok clocks [] ∧
      ∀ clock ∈ clocks, Made plonk circuit clock := by
  have hop {clocks : List (Clock π)} (hclocks : ∀ clock ∈ clocks, Made plonk circuit clock) {op : Op π}
      (hop : op.Valid plonk keys clocks) : (∃ w, op.assignment plonk circuit = .ok w [] ∧ Satisfied plonk circuit w) ∧
        ∃ clock, op.run plonk circuit = .ok clock [] ∧ Made plonk circuit clock := by
    cases op with
    | increment clock index secret =>
      obtain ⟨hmem, ⟨hindex, hkey⟩, counter, hcounter, hlt⟩ := hop
      exact increment_of_made hS hinner haccept hcircuit (hclocks clock hmem) hindex hkey hcounter hlt
    | merge clock1 clock2 => exact merge_of_made hS hinner haccept hcircuit (hclocks _ hop.1) (hclocks _ hop.2)
  induction ops using List.reverseRecOn with
  | nil =>
    refine ⟨fun before op after heq => absurd heq.symm (by simp), [start], rfl, fun clock hclock => ?_⟩
    rw [List.mem_singleton.mp hclock]
    exact hmade
  | append_singleton ops last ih =>
    have hvalid' : ValidRun plonk circuit keys start ops := fun before op after heq =>
      hvalid before op (after ++ [last]) (by rw [heq, List.append_assoc, List.cons_append])
    obtain ⟨hcomplete, clocks, hrun, hclocks⟩ := ih hvalid'
    obtain ⟨hsatisfied, clock, hlast, hmade'⟩ := hop hclocks (hvalid ops last [] rfl clocks hrun)
    constructor
    · intro before op after heq clocks' hrun'
      rcases List.eq_nil_or_concat after with rfl | ⟨after', last', rfl⟩
      · obtain ⟨rfl, hlast'⟩ := List.append_inj' heq rfl
        cases hlast'
        exact hsatisfied
      · rw [List.concat_eq_append, ← List.cons_append, ← List.append_assoc] at heq
        exact hcomplete before op after' (List.append_inj' heq rfl).1 clocks' hrun'
    · refine ⟨clocks ++ [clock], ?_, fun c hc => ?_⟩
      · have hstep := hrun
        unfold execute at hstep ⊢
        rw [List.foldlM_append, hstep, ok_bind, List.foldlM_cons, hlast, ok_bind]
        rfl
      · rcases List.mem_append.mp hc with hc | hc
        · exact hclocks c hc
        · rw [List.mem_singleton.mp hc]
          exact hmade'

end

end

/-! ## An increment after a genesis -/

section

def toyStart : Clock (List F × List F) :=
  let publicInputs := 0 :: (toyPlonk.verifierOnly (emptyCircuit toyPlonk toyKeys)).elements
  ⟨publicInputs, toyPlonk.prove toyCircuit publicInputs⟩

theorem toyStart_genesis : genesis toyPlonk toyKeys 2 0 = .ok toyStart [] := rfl

def toyIncrement : Op (List F × List F) := .increment toyStart 0 7

theorem toyIncrement_valid : ValidRun toyPlonk toyCircuit toyKeys toyStart [toyIncrement] := by
  intro before op after heq clocks hclocks
  cases before with
  | nil =>
    cases heq
    cases hclocks
    exact ⟨List.mem_singleton.mpr rfl, ⟨by decide, rfl⟩, 0, rfl, by decide⟩
  | cons op' before =>
    have hlength := congrArg List.length heq
    simp at hlength

theorem clock_complete_iff_one : Complete toyPlonk toyCircuit toyStart [toyIncrement] ↔ [toyIncrement] = [] :=
  clock_complete_iff (by decide) toyStart_genesis toyIncrement_valid

/-- The increment is valid, and its witness does not satisfy the circuit. -/
theorem clock_complete_fails : genesis toyPlonk toyKeys 2 0 = .ok toyStart [] ∧
    ValidRun toyPlonk toyCircuit toyKeys toyStart [toyIncrement] ∧ ¬ Complete toyPlonk toyCircuit toyStart [toyIncrement] := by
  refine ⟨toyStart_genesis, toyIncrement_valid, fun hcomplete => ?_⟩
  obtain ⟨w, hw, hsatisfied⟩ := hcomplete [] toyIncrement [] rfl [toyStart] rfl
  have hvalid := toyIncrement_valid [] toyIncrement [] rfl [toyStart] rfl
  exact genesis_not_satisfied (by decide) toyStart_genesis hvalid hw hsatisfied

end

end Neatworks.Boson
