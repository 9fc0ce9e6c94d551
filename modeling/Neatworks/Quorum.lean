import Mathlib.Data.Finset.Card
import Mathlib.Data.Fintype.Card

/-!
# Quorum intersection

Among at most `n` parties of which at most `f` are faulty, two sets of `n - f`
parties share one that is not, when `n` is more than `3 * f`.
-/

namespace Neatworks

section
variable {ι : Type*} [DecidableEq ι]

theorem quorums_intersect {n f : Nat} {all faulty q₁ q₂ : Finset ι} (hall : all.card ≤ n)
    (hfaulty : faulty.card ≤ f) (hn : 3 * f + 1 ≤ n) (hs₁ : q₁ ⊆ all) (hs₂ : q₂ ⊆ all) (h₁ : n - f ≤ q₁.card)
    (h₂ : n - f ≤ q₂.card) : ∃ i ∈ q₁, i ∈ q₂ ∧ i ∉ faulty := by
  have hunion : (q₁ ∪ q₂).card ≤ n := (Finset.card_le_card (Finset.union_subset hs₁ hs₂)).trans hall
  have hsum := Finset.card_union_add_card_inter q₁ q₂
  have hlt : faulty.card < (q₁ ∩ q₂).card := by omega
  obtain ⟨i, hi, hnot⟩ := Finset.exists_mem_notMem_of_card_lt_card hlt
  rw [Finset.mem_inter] at hi
  exact ⟨i, hi.1, hi.2, hnot⟩

end

end Neatworks
