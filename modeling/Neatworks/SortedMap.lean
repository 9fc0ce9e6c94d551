import Mathlib.Data.List.Pairwise
import Mathlib.Data.List.Perm.Basic
import Mathlib.Order.Defs.LinearOrder
import Neatworks.Table

/-!
# Sorted maps

A `BTreeMap` as the list of its entries, whose keys increase. A list of rows
in any order with the same entries answers a query by key as the map does.
-/

namespace Neatworks

structure SortedMap (K V : Type*) [LinearOrder K] where
  entries : List (K × V)
  sorted : entries.Pairwise fun e e' => e.1 < e'.1

namespace SortedMap

section
variable {K V : Type*} [LinearOrder K]

theorem keys_nodup (m : SortedMap K V) : (m.entries.map Prod.fst).Nodup :=
  List.pairwise_map.mpr (m.sorted.imp ne_of_lt)

def toTable (m : SortedMap K V) : Table K V := ⟨m.entries, m.keys_nodup⟩

def empty : SortedMap K V := ⟨[], .nil⟩

def get (m : SortedMap K V) (k : K) : Option V := m.toTable.lookup k

def insert (m : SortedMap K V) (k : K) (v : V) : SortedMap K V where
  entries := m.entries.filter (fun e => e.1 < k) ++ (k, v) :: m.entries.filter fun e => k < e.1
  sorted := by
    rw [List.pairwise_append, List.pairwise_cons]
    refine ⟨m.sorted.filter _, ⟨fun e he => ?_, m.sorted.filter _⟩, fun e he e' he' => ?_⟩
    · exact of_decide_eq_true (List.mem_filter.mp he).2
    · have hlt : e.1 < k := of_decide_eq_true (List.mem_filter.mp he).2
      rcases List.mem_cons.mp he' with rfl | he'
      · exact hlt
      · exact lt_trans hlt (of_decide_eq_true (List.mem_filter.mp he').2)

/-- `get_mut`, and `f` of what is there. -/
def modify (m : SortedMap K V) (k : K) (f : V → V) : SortedMap K V where
  entries := m.entries.map fun e => if e.1 = k then (e.1, f e.2) else e
  sorted := by
    have hkey (e : K × V) : (if e.1 = k then (e.1, f e.2) else e).1 = e.1 := by split <;> rfl
    rw [List.pairwise_map]
    simp only [hkey]
    exact m.sorted

def remove (m : SortedMap K V) (k : K) : SortedMap K V := ⟨m.entries.filter fun e => e.1 ≠ k, m.sorted.filter _⟩

/-- The entries of `range(k..)`. -/
def range (m : SortedMap K V) (k : K) : List (K × V) := m.entries.filter fun e => k ≤ e.1

/-! ## Rows in any order -/

variable {m : SortedMap K V} {k : K} {v : V}

theorem get_eq_some : m.get k = some v ↔ (k, v) ∈ m.entries := Table.lookup_eq_some

theorem get_eq_none : m.get k = none ↔ ∀ v, (k, v) ∉ m.entries := Table.lookup_eq_none

theorem ext_entries {m' : SortedMap K V} (h : m.entries = m'.entries) : m = m' := by
  cases m
  cases h
  rfl

theorem ne_of_get_eq_none (hnone : m.get k = none) {e : K × V} (he : e ∈ m.entries) : e.1 ≠ k := by
  rintro rfl
  exact get_eq_none.mp hnone e.2 he

theorem modify_of_none (hnone : m.get k = none) (f : V → V) : m.modify k f = m := by
  refine ext_entries ((List.map_congr_left fun e he => ?_).trans (List.map_id _))
  exact if_neg (ne_of_get_eq_none hnone he)

theorem remove_of_none (hnone : m.get k = none) : m.remove k = m := by
  refine ext_entries (List.filter_eq_self.mpr fun e he => ?_)
  exact decide_eq_true (ne_of_get_eq_none hnone he)

section
variable {rows : List (K × V)} (h : rows.Perm m.entries)
include h

theorem filter_key : rows.filter (fun row => row.1 = k) = (m.get k).toList.map fun v => (k, v) := by
  have hnodup : (rows.filter fun row => row.1 = k).Nodup := (h.nodup_iff.mpr (m.keys_nodup.of_map _)).filter _
  cases hget : m.get k with
  | none =>
    rw [List.filter_eq_nil_iff.mpr]
    · rfl
    · rintro ⟨k', v'⟩ hmem hkey
      exact ne_of_get_eq_none hget (h.subset hmem) (of_decide_eq_true hkey)
  | some v =>
    refine List.perm_singleton.mp ((List.perm_ext_iff_of_nodup hnodup (List.nodup_singleton _)).mpr fun row => ?_)
    rw [List.mem_filter, List.mem_singleton, decide_eq_true_eq, h.mem_iff]
    constructor
    · rintro ⟨hmem, rfl⟩
      have hv := get_eq_some.mpr hmem
      rw [hget] at hv
      rw [Option.some.inj hv]
    · rintro rfl
      exact ⟨get_eq_some.mp hget, rfl⟩

theorem mergeSort_range :
    (rows.filter fun row => k ≤ row.1).mergeSort (fun a b => a.1 ≤ b.1) = m.range k := by
  have hperm : ((rows.filter fun row => k ≤ row.1).mergeSort fun a b => a.1 ≤ b.1).Perm (m.range k) :=
    (List.mergeSort_perm ..).trans (h.filter _)
  refine hperm.eq_of_pairwise (fun a b ha hb (hab : a.1 ≤ b.1) (hba : b.1 ≤ a.1) => ?_) ?_ ?_
  · have hkeys := List.inj_on_of_nodup_map m.keys_nodup
    refine hkeys (List.mem_filter.mp (hperm.subset ha)).1 (List.mem_filter.mp hb).1 (le_antisymm hab hba)
  · refine (List.pairwise_mergeSort (fun a b c hab hbc => ?_) (fun a b => ?_) _).imp of_decide_eq_true
    · exact decide_eq_true (le_trans (of_decide_eq_true hab) (of_decide_eq_true hbc))
    · simpa using le_total a.1 b.1
  · exact (m.sorted.filter _).imp le_of_lt

theorem perm_insert (hnone : m.get k = none) : (rows ++ [(k, v)]).Perm (m.insert k v).entries := by
  have hother : (m.entries.filter fun e => k < e.1) = m.entries.filter fun e => !decide (e.1 < k) := by
    refine List.filter_congr fun e he => ?_
    have hne := ne_of_get_eq_none hnone he
    have hiff : k < e.1 ↔ ¬e.1 < k := ⟨lt_asymm, fun hnot => lt_of_le_of_ne (not_lt.mp hnot) hne.symm⟩
    simp only [hiff, decide_not]
  have hsplit : (m.entries.filter (fun e => e.1 < k) ++ m.entries.filter fun e => k < e.1).Perm m.entries := by
    rw [hother]
    exact List.filter_append_perm ..
  have hcons : ((k, v) :: rows).Perm ((k, v) :: (m.entries.filter (fun e => e.1 < k) ++ m.entries.filter fun e => k < e.1)) :=
    (h.trans hsplit.symm).cons _
  exact (List.perm_append_singleton ..).trans (hcons.trans List.perm_middle.symm)

theorem perm_modify (f : V → V) :
    (rows.map fun row => if row.1 = k then (row.1, f row.2) else row).Perm (m.modify k f).entries := h.map _

theorem perm_remove : (rows.filter fun row => row.1 ≠ k).Perm (m.remove k).entries := h.filter _

end

end

end SortedMap

end Neatworks
