import Mathlib.Logic.Function.Iterate
import Neatworks.UnreplicatedCheck

/-!
# Driven workloads

A close loop drives its workload: it takes an operation, gives back the result
and takes the next one. How far it has got tells the whole workload when the
workload does nothing with the results but record them.
-/

namespace Neatworks.Unreplicated

section
variable {W : Type} [Workload W]

/-- The workload has got results for its operations so far, and its next
operation is the current one, if it has one. -/
inductive Drives (w₀ : W) : List (Payload × Payload) → Option (Payload × Attach W) → W → Prop
  | start {op : Payload} {attach : Attach W} {w : W} (h : Workload.nextOp w₀ = .ok (some (op, attach), w)) :
    Drives w₀ [] (some (op, attach)) w
  | next {past : List (Payload × Payload)} {op result : Payload} {attach : Attach W} {w w' w'' : W}
    {current : Option (Payload × Attach W)} (h : Drives w₀ past (some (op, attach)) w)
    (hresult : Workload.onResult w result attach = .ok w') (hnext : Workload.nextOp w' = .ok (current, w'')) :
    Drives w₀ (past ++ [(op, result)]) current w''

/-! ## Workloads that can be recovered -/

theorem Drives.iterate {after : W → W} (hafter : ∀ w op attach w' result w'',
    Workload.nextOp w = .ok (some (op, attach), w') → Workload.onResult w' result attach = .ok w'' → w'' = after w)
    {w₀ w : W} {past : List (Payload × Payload)} {current : Option (Payload × Attach W)} (h : Drives w₀ past current w) :
    Workload.nextOp (after^[past.length] w₀) = .ok (current, w) := by
  induction h with
  | start h => exact h
  | next _ hresult hnext ih =>
    rw [hafter _ _ _ _ _ _ ih hresult] at hnext
    rw [List.length_append, List.length_singleton, Function.iterate_succ_apply']
    exact hnext

/-- The number of results and the dry workload tell the workload. -/
def Recoverable (W : Type) {T : Type} [Workload W] [DryWorkload W T] : Prop :=
  ∀ {w₀ w w' : W} {past past' : List (Payload × Payload)} {current current' : Option (Payload × Attach W)},
    Drives w₀ past current w → Drives w₀ past' current' w' → past.length = past'.length →
    (DryWorkload.dry w : T) = DryWorkload.dry w' → current = current' ∧ w = w'

theorem Recoverable.of_after {T : Type} [DryWorkload W T] (after : W → W) (hafter : ∀ w op attach w' result w'',
    Workload.nextOp w = .ok (some (op, attach), w') → Workload.onResult w' result attach = .ok w'' → w'' = after w) :
    Recoverable W := by
  intro w₀ w w' past past' current current' h h' hlength _
  have hsame := h.iterate hafter
  rw [hlength, h'.iterate hafter] at hsame
  cases hsame
  exact ⟨rfl, rfl⟩

theorem iter_recoverable {I : Type} [Iterator I Payload] : Recoverable (Iter I) := by
  apply Recoverable.of_after fun w => ⟨(Iterator.next w.iter).2⟩
  intro w op attach w' result w'' hnext hresult
  cases hresult
  obtain ⟨iter⟩ := w
  have := congrArg (Except.map Prod.snd) hnext
  cases this
  rfl

theorem check_recoverable {I : Type} [Iterator I (Payload × Payload)] : Recoverable (Check I) := by
  apply Recoverable.of_after fun w => ⟨(Iterator.next w.inner).2, none⟩
  intro w op attach w' result w'' hnext hresult
  obtain ⟨inner, expectedResult⟩ := w
  simp only [Workload.nextOp] at hnext
  simp only [Workload.onResult] at hresult
  cases hop : (Iterator.next inner).1 with
  | none => simp [hop] at hnext
  | some call =>
    by_cases hsome : expectedResult.isSome
    · simp [hop, hsome] at hnext
    · simp only [hop, hsome] at hnext
      cases hnext
      by_cases heq : result = call.2
      · simp only [heq, if_true] at hresult
        cases hresult
        rfl
      · simp [heq] at hresult

theorem recorded_nextOp {w w' : Recorded W} {next : Option (Payload × Attach (Recorded W))}
    (h : Workload.nextOp w = .ok (next, w')) :
    ∃ next', Workload.nextOp w.inner = .ok (next', w'.inner) ∧
      next = (next'.map fun c => (c.1, (c.1, c.2))) ∧ w'.invocations = w.invocations := by
  simp only [Workload.nextOp] at h
  cases hinner : Workload.nextOp w.inner with
  | error reason =>
    rw [hinner] at h
    cases h
  | ok out =>
    rw [hinner] at h
    cases h
    exact ⟨out.1, rfl, rfl, rfl⟩

theorem recorded_onResult {w w' : Recorded W} {result : Payload} {attach : Attach (Recorded W)}
    (h : Workload.onResult w result attach = .ok w') :
    Workload.onResult w.inner result attach.2 = .ok w'.inner ∧ w'.invocations = w.invocations ++ [(attach.1, result)] := by
  simp only [Workload.onResult] at h
  cases hinner : Workload.onResult w.inner result attach.2 with
  | error reason =>
    rw [hinner] at h
    cases h
  | ok inner =>
    rw [hinner] at h
    cases h
    exact ⟨rfl, rfl⟩

theorem Drives.inner {w₀ w : Recorded W} {past : List (Payload × Payload)}
    {current : Option (Payload × Attach (Recorded W))} (h : Drives w₀ past current w) :
    ∃ current', Drives w₀.inner past current' w.inner ∧ current = current'.map fun c => (c.1, (c.1, c.2)) := by
  induction h with
  | start h =>
    obtain ⟨_ | next, hinner, hcurrent, _⟩ := recorded_nextOp h
    · cases hcurrent
    · cases hcurrent
      exact ⟨some next, .start hinner, rfl⟩
  | next _ hresult hnext ih =>
    obtain ⟨_ | current', hdrives, hcurrent⟩ := ih
    · cases hcurrent
    · cases hcurrent
      obtain ⟨next', hinner, rfl, _⟩ := recorded_nextOp hnext
      exact ⟨next', .next hdrives (recorded_onResult hresult).1 hinner, rfl⟩

theorem recorded_recoverable {T : Type} [DryWorkload W T] (hrecover : Recoverable W) : Recoverable (Recorded W) := by
  intro w₀ w w' past past' current current' h h' hlength hdry
  obtain ⟨c, hdrives, rfl⟩ := h.inner
  obtain ⟨c', hdrives', rfl⟩ := h'.inner
  obtain ⟨inner, invocations⟩ := w
  obtain ⟨inner', invocations'⟩ := w'
  obtain ⟨hinner, rfl⟩ := DryRecorded.mk.inj hdry
  obtain ⟨rfl, rfl⟩ := hrecover hdrives hdrives' hlength hinner
  exact ⟨rfl, rfl⟩

/-! ## Workloads that take any result -/

/-- The operation that the workload gives after so many others. -/
def opAt : Nat → W → Option Payload
  | 0, w =>
    match Workload.nextOp w with
    | .ok (some (op, _), _) => some op
    | _ => none
  | k + 1, w =>
    match Workload.nextOp w with
    | .ok (some _, w') => opAt k w'
    | _ => none

/-- No call fails, and the results do not change the operations. -/
structure Oblivious (W : Type) [Workload W] : Prop where
  next : ∀ w : W, ∃ out, Workload.nextOp w = .ok out
  result : ∀ (w : W) (result : Payload) (attach : Attach W), ∃ w', Workload.onResult w result attach = .ok w' ∧
    ∀ k, opAt k w' = opAt k w

theorem iter_oblivious {I : Type} [Iterator I Payload] : Oblivious (Iter I) :=
  ⟨fun _ => ⟨_, rfl⟩, fun w _ _ => ⟨w, rfl, fun _ => rfl⟩⟩

theorem recorded_opAt (ho : Oblivious W) (k : Nat) (w : Recorded W) : opAt k w = opAt k w.inner := by
  induction k generalizing w with
  | zero =>
    obtain ⟨⟨_ | next, w'⟩, hnext⟩ := ho.next w.inner <;> simp only [opAt, Workload.nextOp, hnext] <;> rfl
  | succ k ih =>
    obtain ⟨⟨_ | next, w'⟩, hnext⟩ := ho.next w.inner
    · simp only [opAt, Workload.nextOp, hnext]
      rfl
    · simp only [opAt, Workload.nextOp, hnext]
      exact ih { w with inner := w' }

theorem recorded_oblivious (ho : Oblivious W) : Oblivious (Recorded W) := by
  refine ⟨fun w => ?_, fun w result attach => ?_⟩
  · obtain ⟨out, hout⟩ := ho.next w.inner
    simp only [Workload.nextOp, hout]
    exact ⟨_, rfl⟩
  · obtain ⟨inner, hinner, hops⟩ := ho.result w.inner result attach.2
    refine ⟨{ w with inner := inner, invocations := w.invocations ++ [(attach.1, result)] }, ?_, fun k => ?_⟩
    · simp only [Workload.onResult, hinner]
      rfl
    · rw [recorded_opAt ho, recorded_opAt ho]
      exact hops k

theorem Drives.ops (ho : Oblivious W) {w₀ w : W} {past : List (Payload × Payload)}
    {current : Option (Payload × Attach W)} (h : Drives w₀ past current w) :
    (∀ k call, past[k]? = some call → opAt k w₀ = some call.1) ∧ opAt past.length w₀ = current.map Prod.fst ∧
      (current ≠ none → ∀ k, opAt k w = opAt (past.length + 1 + k) w₀) := by
  induction h with
  | start h =>
    refine ⟨fun k call hcall => (by cases hcall), ?_, fun _ k => ?_⟩
    · simp only [List.length_nil, opAt, h]
      rfl
    · rw [List.length_nil, Nat.zero_add, Nat.add_comm, opAt, h]
  | @next past op result attach w w' w'' current _ hresult hnext ih =>
    obtain ⟨hpast, hcurrent, hrest⟩ := ih
    have hsame : ∀ k, opAt k w' = opAt (past.length + 1 + k) w₀ := by
      intro k
      obtain ⟨w₁, hw₁, hops⟩ := ho.result w result attach
      rw [hresult] at hw₁
      cases hw₁
      rw [hops k]
      exact hrest (Option.some_ne_none _) k
    refine ⟨fun k call hcall => ?_, ?_, fun hne k => ?_⟩
    · rcases Nat.lt_trichotomy k past.length with hlt | rfl | hgt
      · rw [List.getElem?_append_left hlt] at hcall
        exact hpast k call hcall
      · rw [List.getElem?_concat_length] at hcall
        cases hcall
        exact hcurrent
      · rw [List.getElem?_eq_none (by simp; omega)] at hcall
        cases hcall
    · rw [List.length_append, List.length_singleton]
      rw [← Nat.add_zero (past.length + 1), ← hsame 0, opAt, hnext]
      cases current <;> rfl
    · obtain ⟨next, rfl⟩ := Option.ne_none_iff_exists'.mp hne
      rw [List.length_append, List.length_singleton, Nat.add_assoc, Nat.add_comm 1 k, ← hsame (k + 1),
        opAt, hnext]

end

end Neatworks.Unreplicated
