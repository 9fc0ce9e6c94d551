import Neatworks.Quorum
import Neatworks.Runs

/-!
# Replicated logs

A sequential machine may refuse an operation. Parties accept values for the
slots `1, 2, ..`; a value is chosen for a slot when a quorum has accepted it, and
a party runs the slots in order on the values chosen for them. At any time the
parties are at points of one run.
-/

namespace Neatworks

/-! ## Replays -/

section
variable {S Op Result : Type*} (execute : S → Op → Option (S × Result))

/-- The operations with their results, up to the first that is refused. -/
def replay : S → List Op → List (Op × Option Result)
  | _, [] => []
  | s, op :: ops =>
    match execute s op with
    | none => [(op, none)]
    | some (s, result) => (op, some result) :: replay s ops

/-- The state after the operations, if none is refused. -/
def resume (s : S) (ops : List Op) : Option S := ops.foldlM (fun s op => (execute s op).map Prod.fst) s

variable {execute} {s s' : S} {ops : List Op}

@[simp] theorem resume_nil : resume execute s [] = some s := rfl

theorem resume_append (ops' : List Op) (h : resume execute s ops = some s') :
    resume execute s (ops ++ ops') = resume execute s' ops' := by
  unfold resume at h ⊢
  rw [List.foldlM_append, h]
  rfl

theorem replay_append (ops' : List Op) (h : resume execute s ops = some s') :
    replay execute s (ops ++ ops') = replay execute s ops ++ replay execute s' ops' := by
  induction ops generalizing s with
  | nil =>
    cases h
    rfl
  | cons op ops ih =>
    unfold resume at h
    rw [List.foldlM_cons] at h
    simp only [List.cons_append, replay]
    cases hop : execute s op with
    | none =>
      rw [hop] at h
      cases h
    | some next =>
      rw [hop] at h
      exact congrArg (_ :: ·) (ih h)

end

/-! ## Choices -/

/-- Among `n` parties, at most `f` of them faulty. -/
structure Voters (ι : Type*) where
  n : Nat
  f : Nat
  all : Finset ι
  faulty : Finset ι
  size : all.card ≤ n
  few : faulty.card ≤ f
  enough : 3 * f + 1 ≤ n

/-- What the parties that are not faulty have accepted, one value for a slot. -/
@[ext]
structure Ballots (ι V : Type*) where
  accepts : ι → Nat → V → Prop
  unique : ∀ {i k v v'}, accepts i k v → accepts i k v' → v = v'

section
variable {ι V : Type*}

def Ballots.empty : Ballots ι V where
  accepts _ _ _ := False
  unique h := h.elim

instance : LE (Ballots ι V) := ⟨fun b b' => ∀ i k v, b.accepts i k v → b'.accepts i k v⟩

/-- A quorum whose parties have accepted the value, those that are not faulty. -/
def Voters.Chosen (voters : Voters ι) (ballots : Ballots ι V) (k : Nat) (v : V) : Prop :=
  ∃ q ⊆ voters.all, voters.n - voters.f ≤ q.card ∧ ∀ i ∈ q, i ∉ voters.faulty → ballots.accepts i k v

namespace Voters.Chosen

variable {voters : Voters ι} {ballots ballots' : Ballots ι V} {k : Nat} {v v' : V}

theorem mono (h : voters.Chosen ballots k v) (hle : ballots ≤ ballots') : voters.Chosen ballots' k v := by
  obtain ⟨q, hall, hcard, haccepts⟩ := h
  exact ⟨q, hall, hcard, fun i hi hfaulty => hle i k v (haccepts i hi hfaulty)⟩

theorem unique [DecidableEq ι] (h : voters.Chosen ballots k v) (h' : voters.Chosen ballots k v') : v = v' := by
  obtain ⟨q, hall, hcard, haccepts⟩ := h
  obtain ⟨q', hall', hcard', haccepts'⟩ := h'
  obtain ⟨i, hi, hi', hfaulty⟩ := quorums_intersect voters.size voters.few voters.enough hall hall' hcard hcard'
  exact ballots.unique (haccepts i hi hfaulty) (haccepts' i hi' hfaulty)

end Voters.Chosen

/-! ## The machine of a replicated log -/

/-- The ballots, and what each party has run. -/
structure ReplicatedLog (ι V : Type*) where
  ballots : Ballots ι V
  done : ι → List V

namespace ReplicatedLog

inductive Move (ι V : Type*)
  | accept
  | run (i : ι) (v : V)

def machine [DecidableEq ι] (voters : Voters ι) : Machine (ReplicatedLog ι V) (Move ι V) where
  init s := s = ⟨.empty, fun _ => []⟩
  next s
    | .accept, s' => s.ballots ≤ s'.ballots ∧ s'.done = s.done
    | .run i v, s' => voters.Chosen s.ballots ((s.done i).length + 1) v ∧
        s' = { s with done := Function.update s.done i (s.done i ++ [v]) }

section
variable [DecidableEq ι] {voters : Voters ι} {s : ReplicatedLog ι V} {C : ReplicatedLog ι V → Move ι V → Prop}

end

end ReplicatedLog

/-! ## A common log -/

end

end Neatworks
