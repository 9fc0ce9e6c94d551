import Mathlib.Data.List.Nodup

/-!
# A least recently used cache

`LruCache` of the `lru` crate: the entries, the most recent first, each key once.
-/

namespace Neatworks

structure LruCache (K V : Type*) (cap : Nat) where
  entries : List (K × V)
  nodup : (entries.map Prod.fst).Nodup
  bound : entries.length ≤ cap

namespace LruCache

section
variable {K V : Type*} {cap : Nat}

def new : LruCache K V cap := ⟨[], List.nodup_nil, Nat.zero_le _⟩

variable [DecidableEq K]

def contains (cache : LruCache K V cap) (k : K) : Prop := k ∈ cache.entries.map Prod.fst

instance (cache : LruCache K V cap) (k : K) : Decidable (cache.contains k) :=
  inferInstanceAs (Decidable (k ∈ cache.entries.map Prod.fst))

/-- The entry of `k` as the most recent one, with this value. The least recent
one is dropped if there are too many. -/
def push (cache : LruCache K V cap) (k : K) (v : V) : LruCache K V cap where
  entries := ((k, v) :: cache.entries.filter fun e => e.1 ≠ k).take cap
  nodup := by
    refine List.Nodup.sublist ((List.take_sublist _ _).map Prod.fst) ?_
    rw [List.map_cons, List.nodup_cons]
    refine ⟨?_, cache.nodup.sublist (List.filter_sublist.map Prod.fst)⟩
    intro h
    obtain ⟨e, he, hk⟩ := List.mem_map.mp h
    exact of_decide_eq_true (List.mem_filter.mp he).2 hk
  bound := by
    rw [List.length_take]
    exact Nat.min_le_left _ _

/-- The value of `k`, which is then the most recent entry. -/
def get (cache : LruCache K V cap) (k : K) : Option (V × LruCache K V cap) :=
  (cache.entries.find? (·.1 = k)).map fun e => (e.2, cache.push k e.2)

theorem mem_push {cache : LruCache K V cap} {k : K} {v : V} {e : K × V} (h : e ∈ (cache.push k v).entries) :
    e = (k, v) ∨ e ∈ cache.entries := by
  rcases List.mem_cons.mp (List.mem_of_mem_take h) with h | h
  · exact Or.inl h
  · exact Or.inr (List.mem_filter.mp h).1

/-- A value that is found has been pushed with this key. -/
theorem get_eq_some {cache cache' : LruCache K V cap} {k : K} {v : V} (h : cache.get k = some (v, cache')) :
    (k, v) ∈ cache.entries ∧ cache' = cache.push k v := by
  unfold get at h
  rw [Option.map_eq_some_iff] at h
  obtain ⟨⟨k', v'⟩, hfind, heq⟩ := h
  cases heq
  have hk : k' = k := by simpa using List.find?_some hfind
  subst hk
  exact ⟨List.mem_of_find?_eq_some hfind, rfl⟩

end

end LruCache

end Neatworks
