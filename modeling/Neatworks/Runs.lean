import Mathlib.Algebra.GroupWithZero.Nat

/-!
# Machines and their runs

A machine has initial states and labelled steps. A run is restricted by a
condition on the state before a step and the label of the step; what holds at
the start and is kept by the steps that meet the condition holds of every state
such a run reaches.
-/

namespace Neatworks

structure Machine (State Label : Type*) where
  init : State → Prop
  next : State → Label → State → Prop

namespace Machine

section
variable {State Label : Type*} {M : Machine State Label}

/-- The states of the runs whose steps all meet `C`. -/
inductive Reach (M : Machine State Label) (C : State → Label → Prop) : State → Prop
  | init {s : State} (h : M.init s) : Reach M C s
  | next {s s' : State} {l : Label} (h : Reach M C s) (hc : C s l) (hs : M.next s l s') : Reach M C s'

/-- The condition every step meets. -/
def always : State → Label → Prop := fun _ _ => True

instance (s : State) (l : Label) : Decidable (always s l) := .isTrue trivial

theorem Reach.mono {C C' : State → Label → Prop} (hC : ∀ s l, C s l → C' s l) {s : State} (h : M.Reach C s) :
    M.Reach C' s := by
  induction h with
  | init h => exact .init h
  | next _ hc hs ih => exact .next ih (hC _ _ hc) hs

/-- The invariant rule. A step may use that its start is reachable, and so any
invariant proved before. -/
theorem Reach.invariant {C : State → Label → Prop} {I : State → Prop} (hinit : ∀ s, M.init s → I s)
    (hstep : ∀ s l s', M.Reach C s → I s → C s l → M.next s l s' → I s') {s : State} (h : M.Reach C s) : I s := by
  induction h with
  | init h => exact hinit _ h
  | next h hc hs ih => exact hstep _ _ _ h ih hc hs

/-- A run given by its labels, for a machine whose steps a function computes. -/
theorem Reach.of_foldlM {C : State → Label → Prop} {f : State → Label → Option State}
    (hf : ∀ s l s', f s l = some s' → C s l ∧ M.next s l s') {ls : List Label} {s s' : State} (h : M.Reach C s)
    (hrun : ls.foldlM f s = some s') : M.Reach C s' := by
  induction ls generalizing s with
  | nil =>
    cases hrun
    exact h
  | cons l ls ih =>
    rw [List.foldlM_cons] at hrun
    cases hl : f s l with
    | none =>
      rw [hl] at hrun
      cases hrun
    | some s₁ =>
      rw [hl] at hrun
      obtain ⟨hc, hs⟩ := hf _ _ _ hl
      exact ih (.next h hc hs) hrun

/-- What a computed run ends in. -/
theorem exists_of_foldlM {C : State → Label → Prop} {f : State → Label → Option State}
    (hf : ∀ s l s', f s l = some s' → C s l ∧ M.next s l s') {start : State} (hstart : M.init start) {ls : List Label}
    {Q : State → Prop} [DecidablePred Q] (h : (ls.foldlM f start).any (fun s => Q s) = true) :
    ∃ s, M.Reach C s ∧ Q s := by
  obtain ⟨s, hrun, hQ⟩ := (Option.any_eq_true ..).mp h
  exact ⟨s, .of_foldlM hf (.init hstart) hrun, of_decide_eq_true hQ⟩

/-- What a computed run whose steps meet `C` ends in. -/
theorem exists_reach {C : State → Label → Prop} [∀ s l, Decidable (C s l)] {step : State → Label → Option State}
    (hstep : ∀ s l s', step s l = some s' → M.next s l s') {start : State} (hstart : M.init start) (ls : List Label)
    (Q : State → Prop) [DecidablePred Q]
    (h : (ls.foldlM (fun s l => if C s l then step s l else none) start).any (fun s => Q s) = true) :
    ∃ s, M.Reach C s ∧ Q s := by
  refine exists_of_foldlM (fun s l s' hs => ?_) hstart h
  split at hs
  · next hc => exact ⟨hc, hstep s l s' hs⟩
  · cases hs

/-- The machine with a record, which a step updates by the states before and after it. -/
def recorded {Record : Type*} (M : Machine State Label) (start : Record) (update : State → State → Record → Record) :
    Machine (State × Record) Label where
  init s := M.init s.1 ∧ s.2 = start
  next s l s' := M.next s.1 l s'.1 ∧ s'.2 = update s.1 s'.1 s.2

/-- Every run can be recorded. -/
theorem Reach.exists_record {Record : Type*} {C : State → Label → Prop} (start : Record)
    (update : State → State → Record → Record) {s : State} (h : M.Reach C s) :
    ∃ record, (M.recorded start update).Reach (fun s => C s.1) (s, record) := by
  induction h with
  | init h => exact ⟨start, .init ⟨h, rfl⟩⟩
  | @next s s' l _ hc hs ih =>
    obtain ⟨record, hreach⟩ := ih
    exact ⟨update s s' record, .next hreach hc ⟨hs, rfl⟩⟩

end

end Machine

/-! ## Parties in a list -/

section
variable {α : Type*} {l : List α} {i j : Nat} {a a' b : α}

theorem getElem?_set_cases (h : (l.set i a')[j]? = some b) : j = i ∧ b = a' ∨ j ≠ i ∧ l[j]? = some b := by
  by_cases hji : j = i
  · subst hji
    rw [List.getElem?_set_self'] at h
    obtain ⟨_, _, heq⟩ := Option.map_eq_some_iff.mp h
    exact Or.inl ⟨rfl, heq.symm⟩
  · rw [List.getElem?_set_ne (Ne.symm hji)] at h
    exact Or.inr ⟨hji, h⟩

theorem eq_or_mem_set (h : l[i]? = some a) (hb : b ∈ l) : b = a ∨ b ∈ l.set i a' := by
  obtain ⟨j, hj⟩ := List.mem_iff_getElem?.mp hb
  by_cases hij : i = j
  · subst hij
    exact Or.inl (Option.some.inj (hj.symm.trans h))
  · exact Or.inr (List.mem_of_getElem? ((List.getElem?_set_ne hij).trans hj))

theorem sum_map_set (f : α → Nat) (a' : α) : ∀ {as : List α} {i : Nat}, as[i]? = some a →
    ((as.set i a').map f).sum + f a = (as.map f).sum + f a'
  | [], _, h => nomatch h
  | a₀ :: as, 0, h => by
    cases h
    simp only [List.set_cons_zero, List.map_cons, List.sum_cons]
    omega
  | a₀ :: as, i + 1, h => by
    have := sum_map_set f a' (by simpa using h)
    simp only [List.set_cons_succ, List.map_cons, List.sum_cons]
    omega

end

/-- Where an entry of a history that has grown stands. -/
theorem split_append {α : Type*} {history new before rest : List α} {e : α} (h : history ++ new = before ++ e :: rest) :
    (∃ rest', history = before ++ e :: rest' ∧ rest = rest' ++ new) ∨ ∃ before', before = history ++ before' ∧ new = before' ++ e :: rest := by
  rcases List.append_eq_append_iff.mp h with ⟨before', hbefore, hnew⟩ | ⟨rest', hhistory, hrest⟩
  · exact Or.inr ⟨before', hbefore, hnew⟩
  · cases rest' with
    | nil => exact Or.inr ⟨[], by simpa using hhistory.symm, hrest.symm⟩
    | cons e' rest' =>
      injection hrest with he hrest
      subst he
      exact Or.inl ⟨rest', hhistory, hrest⟩

end Neatworks
