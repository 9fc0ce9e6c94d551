import Mathlib.Data.Nat.Find
import Mathlib.Order.Basic

/-!
# Levels of a graph

`Level n v`: some walk of `n` edges leads from the root to `v`, where every
vertex that is left after the first one is open. `First n v` makes `n` the
least such number. A layered exploration needs two facts: a vertex first met
at level `n + 1` has a predecessor first met at level `n`, and a set closed
under the edges of the vertices first met at level `d` holds level `d + 1`.
-/

namespace Neatworks

section
variable {V : Type*} (next : V → V → Prop) (isOpen : V → Prop) (root : V)

inductive Level : Nat → V → Prop
  | root : Level 0 root
  | step {n u v} : Level n u → n = 0 ∨ isOpen u → next u v → Level (n + 1) v

def First (n : Nat) (v : V) : Prop :=
  Level next isOpen root n v ∧ ∀ m, Level next isOpen root m v → n ≤ m

variable {next isOpen root}

theorem Level.zero {v : V} (h : Level next isOpen root 0 v) : v = root := by
  cases h with
  | root => rfl

theorem Level.succ {n : Nat} {v : V} (h : Level next isOpen root (n + 1) v) :
    ∃ u, Level next isOpen root n u ∧ (n = 0 ∨ isOpen u) ∧ next u v := by
  cases h with
  | step hu ho hn => exact ⟨_, hu, ho, hn⟩

theorem Level.first {n : Nat} {v : V} (h : Level next isOpen root n v) :
    ∃ m ≤ n, First next isOpen root m v := by
  classical
  have hex : ∃ m, Level next isOpen root m v := ⟨n, h⟩
  exact ⟨Nat.find hex, Nat.find_min' hex h, Nat.find_spec hex, fun m hm => Nat.find_min' hex hm⟩

theorem first_root : First next isOpen root 0 root :=
  ⟨.root, fun _ _ => Nat.zero_le _⟩

theorem First.unique {m n : Nat} {v : V} (hm : First next isOpen root m v)
    (hn : First next isOpen root n v) : m = n :=
  Nat.le_antisymm (hm.2 n hn.1) (hn.2 m hm.1)

theorem First.pred {n : Nat} {v : V} (h : First next isOpen root (n + 1) v) :
    ∃ u, First next isOpen root n u ∧ (n = 0 ∨ isOpen u) ∧ next u v := by
  obtain ⟨u, hu, ho, hn⟩ := h.1.succ
  obtain ⟨m, hmn, hm⟩ := hu.first
  have hstep : Level next isOpen root (m + 1) v := by
    refine .step hm.1 ?_ hn
    rcases ho with h0 | h0
    · left; omega
    · exact Or.inr h0
  have : n + 1 ≤ m + 1 := h.2 _ hstep
  have : m = n := by omega
  subst this
  exact ⟨u, hm, ho, hn⟩

theorem First.below {n : Nat} {v : V} (h : First next isOpen root n v) :
    ∀ k, ∃ u, First next isOpen root (n - k) u ∧ (k = 0 ∨ n - k = 0 ∨ isOpen u) := by
  intro k
  induction k with
  | zero => exact ⟨v, h, Or.inl rfl⟩
  | succ k ih =>
    obtain ⟨u, hu, _⟩ := ih
    rcases Nat.eq_zero_or_pos (n - k) with h0 | h0
    · have : n - (k + 1) = n - k := by omega
      exact ⟨u, this ▸ hu, Or.inr (Or.inl (by omega))⟩
    · have : n - k = n - (k + 1) + 1 := by omega
      rw [this] at hu
      obtain ⟨w, hw, ho, _⟩ := hu.pred
      exact ⟨w, hw, Or.inr ho⟩

/-- A set that holds every level up to `d`, and every successor of an open
vertex first met at level `d`, holds level `d + 1`. -/
theorem level_closed {P : V → Prop} {d : Nat}
    (hle : ∀ m ≤ d, ∀ v, Level next isOpen root m v → P v)
    (hnext : ∀ u v, First next isOpen root d u → d = 0 ∨ isOpen u → next u v → P v) :
    ∀ m ≤ d + 1, ∀ v, Level next isOpen root m v → P v := by
  intro m hm v hv
  rcases Nat.lt_or_ge m (d + 1) with h | h
  · exact hle m (by omega) v hv
  have : m = d + 1 := by omega
  subst this
  obtain ⟨k, hk, hf⟩ := hv.first
  rcases Nat.lt_or_ge k (d + 1) with h' | h'
  · exact hle k (by omega) v hf.1
  have : k = d + 1 := by omega
  subst this
  obtain ⟨u, hu, ho, hn⟩ := hf.pred
  exact hnext u v hu ho hn

end

end Neatworks
