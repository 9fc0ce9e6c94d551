import Mathlib.Data.Finset.Card
import Mathlib.Data.List.Nodup
import Mathlib.Logic.Function.Basic

/-!
# Tables

A finite map as the list of its entries, each key once. The order of the
entries is not observed.
-/

namespace Neatworks

structure Table (K V : Type*) where
  entries : List (K × V)
  nodup : (entries.map Prod.fst).Nodup

namespace Table

section
variable {K V : Type*}

def empty : Table K V := ⟨[], List.nodup_nil⟩

def len (t : Table K V) : Nat := t.entries.length

theorem nodup_filter {l : List (K × V)} (h : (l.map Prod.fst).Nodup) (p : K × V → Bool) :
    ((l.filter p).map Prod.fst).Nodup :=
  h.sublist (List.filter_sublist.map Prod.fst)

theorem eq_of_mem {t : Table K V} {k : K} {v v' : V} (h : (k, v) ∈ t.entries) (h' : (k, v') ∈ t.entries) : v = v' :=
  congrArg Prod.snd (List.inj_on_of_nodup_map t.nodup h h' rfl)

@[simp] theorem not_mem_empty {e : K × V} : e ∉ (empty : Table K V).entries := List.not_mem_nil

def retain (t : Table K V) (p : V → Bool) : Table K V :=
  ⟨t.entries.filter fun e => p e.2, nodup_filter t.nodup _⟩

@[simp] theorem mem_retain {t : Table K V} {p : V → Bool} {e : K × V} :
    e ∈ (t.retain p).entries ↔ e ∈ t.entries ∧ p e.2 = true := by
  simp [retain]

variable [DecidableEq K]

def insert (t : Table K V) (k : K) (v : V) : Table K V where
  entries := (k, v) :: t.entries.filter fun p => p.1 ≠ k
  nodup := by
    rw [List.map_cons, List.nodup_cons]
    refine ⟨?_, nodup_filter t.nodup _⟩
    intro h
    obtain ⟨p, hp, hk⟩ := List.mem_map.mp h
    rw [List.mem_filter] at hp
    exact of_decide_eq_true hp.2 hk

def lookup (t : Table K V) (k : K) : Option V := (t.entries.find? fun e => e.1 = k).map Prod.snd

def remove (t : Table K V) (k : K) : Table K V := ⟨t.entries.filter fun e => e.1 ≠ k, nodup_filter t.nodup _⟩

@[simp] theorem mem_remove {t : Table K V} {k : K} {e : K × V} :
    e ∈ (t.remove k).entries ↔ e ∈ t.entries ∧ e.1 ≠ k := by
  simp [remove]

@[simp] theorem mem_insert {t : Table K V} {k : K} {v : V} {e : K × V} :
    e ∈ (t.insert k v).entries ↔ e = (k, v) ∨ e ∈ t.entries ∧ e.1 ≠ k := by
  simp [insert]

theorem lookup_eq_some {t : Table K V} {k : K} {v : V} : t.lookup k = some v ↔ (k, v) ∈ t.entries := by
  unfold lookup
  rw [Option.map_eq_some_iff]
  constructor
  · rintro ⟨⟨k', v'⟩, hfind, rfl⟩
    have hk : k' = k := by simpa using List.find?_some hfind
    subst hk
    exact List.mem_of_find?_eq_some hfind
  · intro hmem
    cases hfind : t.entries.find? fun e => e.1 = k with
    | none => simpa using List.find?_eq_none.mp hfind (k, v) hmem
    | some e =>
      have hk : e.1 = k := by simpa using List.find?_some hfind
      refine ⟨e, rfl, eq_of_mem ?_ hmem⟩
      rw [← hk]
      exact List.mem_of_find?_eq_some hfind

theorem lookup_eq_none {t : Table K V} {k : K} : t.lookup k = none ↔ ∀ v, (k, v) ∉ t.entries := by
  rw [← Option.not_isSome_iff_eq_none, Option.isSome_iff_exists, not_exists]
  exact forall_congr' fun v => not_congr lookup_eq_some

@[simp] theorem lookup_insert_self (t : Table K V) (k : K) (v : V) : (t.insert k v).lookup k = some v :=
  lookup_eq_some.mpr (mem_insert.mpr (Or.inl rfl))

theorem lookup_insert_ne {t : Table K V} {k k' : K} (h : k' ≠ k) (v : V) : (t.insert k v).lookup k' = t.lookup k' := by
  ext v'
  simp [lookup_eq_some, h]

@[simp] theorem lookup_remove_self (t : Table K V) (k : K) : (t.remove k).lookup k = none :=
  lookup_eq_none.mpr fun _ hmem => (mem_remove.mp hmem).2 rfl

theorem lookup_remove_ne {t : Table K V} {k k' : K} (h : k' ≠ k) : (t.remove k).lookup k' = t.lookup k' := by
  ext v
  simp [lookup_eq_some, h]

theorem lookup_insert (t : Table K V) (k : K) (v : V) : (t.insert k v).lookup = Function.update t.lookup k (some v) := by
  funext k'
  by_cases hk : k' = k
  · subst hk
    simp
  · rw [lookup_insert_ne hk, Function.update_of_ne hk]

theorem lookup_remove (t : Table K V) (k : K) : (t.remove k).lookup = Function.update t.lookup k none := by
  funext k'
  by_cases hk : k' = k
  · subst hk
    simp
  · rw [lookup_remove_ne hk, Function.update_of_ne hk]

theorem len_insert {t : Table K V} {k : K} (h : t.lookup k = none) (v : V) : (t.insert k v).len = t.len + 1 := by
  have hkeep : t.entries.filter (fun p => p.1 ≠ k) = t.entries := by
    apply List.filter_eq_self.mpr
    intro e he
    simp only [decide_eq_true_eq]
    rintro rfl
    exact lookup_eq_none.mp h e.2 he
  simp only [len, insert, hkeep, List.length_cons]

theorem len_remove_le (t : Table K V) (k : K) : (t.remove k).len ≤ t.len := List.length_filter_le ..

theorem insert_remove (t : Table K V) (k : K) (v : V) : (t.remove k).insert k v = t.insert k v := by
  simp [insert, remove, List.filter_filter]

@[simp] theorem lookup_empty (k : K) : (empty : Table K V).lookup k = none := rfl

end

end Table

/-! ## Tables as functions -/

section
variable {K V : Type*} [DecidableEq K] {f : K → Option V} {P : K → V → Prop}

theorem forall_update_some (h : ∀ k v, f k = some v → P k v) {k : K} {v : V} (hv : P k v) (k' : K) (v' : V)
    (h' : Function.update f k (some v) k' = some v') : P k' v' := by
  by_cases hk : k' = k
  · subst hk
    rw [Function.update_self] at h'
    cases h'
    exact hv
  · rw [Function.update_of_ne hk] at h'
    exact h k' v' h'

theorem forall_update_none (h : ∀ k v, f k = some v → P k v) {k : K} (k' : K) (v' : V)
    (h' : Function.update f k none k' = some v') : P k' v' := by
  by_cases hk : k' = k
  · subst hk
    rw [Function.update_self] at h'
    cases h'
  · rw [Function.update_of_ne hk] at h'
    exact h k' v' h'

end

/-- The keys of a list of entries, as a set of their number. -/
theorem card_keys {K V : Type*} [DecidableEq K] {l : List (K × V)} (h : (l.map Prod.fst).Nodup) :
    (l.map Prod.fst).toFinset.card = l.length := by
  rw [List.toFinset_card_of_nodup h, List.length_map]

end Neatworks
