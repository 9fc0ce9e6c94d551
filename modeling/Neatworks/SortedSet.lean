import Mathlib.Data.Prod.Lex
import Neatworks.SortedMap

/-!
# Sorted sets

A `BTreeSet` is a `BTreeMap` without values. Its first key is the least.
-/

namespace Neatworks

instance wordOrder : LinearOrder UInt32 where
  le_refl := UInt32.le_refl
  le_trans _ _ _ := UInt32.le_trans
  le_antisymm _ _ := UInt32.le_antisymm
  le_total := UInt32.le_total
  lt_iff_le_not_ge _ _ := by rw [UInt32.not_le]; exact ⟨fun h => ⟨UInt32.le_of_lt h, h⟩, fun h => h.2⟩
  toDecidableLE := inferInstance
  toDecidableEq := inferInstance
  toDecidableLT := inferInstance

abbrev SortedSet (K : Type*) [LinearOrder K] := SortedMap K Unit

namespace SortedSet

section
variable {K : Type*} [LinearOrder K]

instance : Membership K (SortedSet K) where
  mem s k := (k, ()) ∈ s.entries

instance (k : K) (s : SortedSet K) : Decidable (k ∈ s) := inferInstanceAs (Decidable ((k, ()) ∈ s.entries))

def insert (s : SortedSet K) (k : K) : SortedSet K := SortedMap.insert s k ()

def remove (s : SortedSet K) (k : K) : SortedSet K := SortedMap.remove s k

def first (s : SortedSet K) : Option K := s.entries.head?.map Prod.fst

/-- The first key, and the set without it. -/
def popFirst (s : SortedSet K) : Option (K × SortedSet K) := (first s).map fun k => (k, remove s k)

variable {s : SortedSet K} {k k' : K}

theorem mem_def : k ∈ s ↔ (k, ()) ∈ s.entries := Iff.rfl

@[simp] theorem not_mem_empty : k ∉ (SortedMap.empty : SortedSet K) := List.not_mem_nil

@[simp] theorem mem_insert : k' ∈ insert s k ↔ k' = k ∨ k' ∈ s := by
  simp only [mem_def, insert, SortedMap.insert, List.mem_append, List.mem_cons, List.mem_filter, decide_eq_true_eq]
  rcases lt_trichotomy k' k with hlt | rfl | hlt
  · simp [hlt, hlt.ne, hlt.not_gt]
  · simp
  · simp [hlt, hlt.ne', hlt.not_gt]

@[simp] theorem mem_remove : k' ∈ remove s k ↔ k' ∈ s ∧ k' ≠ k := by
  simp [mem_def, remove, SortedMap.remove]

theorem first_eq_none : first s = none ↔ ∀ k, k ∉ s := by
  rw [first, Option.map_eq_none_iff, List.head?_eq_none_iff, List.eq_nil_iff_forall_not_mem]
  exact ⟨fun h k => h (k, ()), fun h e => h e.1⟩

theorem first_eq_some : first s = some k ↔ k ∈ s ∧ ∀ k' ∈ s, k ≤ k' := by
  cases hentries : s.entries with
  | nil => simp [first, mem_def, hentries]
  | cons e rest =>
    have hsorted := s.sorted
    rw [hentries, List.pairwise_cons] at hsorted
    have hmem (k' : K) : k' ∈ s ↔ k' = e.1 ∨ (k', ()) ∈ rest := by
      rw [mem_def, hentries, List.mem_cons, Prod.ext_iff]
      simp
    have hleast (k' : K) (hk' : k' ∈ s) : e.1 ≤ k' := by
      rcases (hmem k').mp hk' with rfl | hrest
      · exact le_refl _
      · exact (hsorted.1 (k', ()) hrest).le
    have hfirst : first s = some e.1 := by simp [first, hentries]
    have he : e.1 ∈ s := (hmem e.1).mpr (Or.inl rfl)
    rw [hfirst, Option.some_inj]
    constructor
    · rintro rfl
      exact ⟨he, hleast⟩
    · intro h
      exact le_antisymm (hleast k h.1) (h.2 e.1 he)

theorem exists_first (h : k ∈ s) : ∃ k', first s = some k' := by
  cases hfirst : first s with
  | none => exact absurd h (first_eq_none.mp hfirst k)
  | some k' => exact ⟨k', rfl⟩

end

end SortedSet

end Neatworks
