import Mathlib.Data.List.Dedup
import Mathlib.Data.List.DropRight
import Mathlib.Data.List.Perm.Subperm

/-!
# Histories by recency

A history of entries with keys, the oldest first. `latest` are the last entries
of the keys, in the order of these, `firstKeys` the keys in the order in which
they have come. Of these the first `n` are `kept`; of the entries of the others
the last `n` are `spare`.
-/

namespace Neatworks.Recency

section
variable {α κ : Type*} [DecidableEq κ] (key : α → κ)

def latest : List α → List α
  | [] => []
  | a :: history => if key a ∈ history.map key then latest history else a :: latest history

def firstKeys (history : List α) : List κ := (history.map key).reverse.dedup.reverse

def keptKeys (n : Nat) (history : List α) : List κ := (firstKeys key history).take n

def kept (n : Nat) (history : List α) : List α := (latest key history).filter fun a => key a ∈ keptKeys key n history

/-- The last entries of the keys that are not among the first `n`. -/
def rest (n : Nat) (history : List α) : List α := (latest key history).filter fun a => key a ∉ keptKeys key n history

def spare (n : Nat) (history : List α) : List α := (rest key n history).rtake n

/-- The entries with other keys. -/
def others (a : α) (entries : List α) : List α := entries.filter fun b => key b ≠ key a

variable {key}

/-! ## The keys of a history -/

theorem mem_latest_map {history : List α} {k : κ} : k ∈ (latest key history).map key ↔ k ∈ history.map key := by
  induction history with
  | nil => rfl
  | cons a history ih =>
    rw [latest, List.map_cons, List.mem_cons]
    split
    · next hmem =>
      rw [ih]
      exact ⟨Or.inr, fun h => h.elim (fun heq => by rwa [heq]) id⟩
    · rw [List.map_cons, List.mem_cons, ih]

theorem latest_nodup (history : List α) : ((latest key history).map key).Nodup := by
  induction history with
  | nil => exact List.nodup_nil
  | cons a history ih =>
    rw [latest]
    split
    · exact ih
    · next hnot =>
      rw [List.map_cons, List.nodup_cons, mem_latest_map]
      exact ⟨hnot, ih⟩

theorem mem_firstKeys {history : List α} {k : κ} : k ∈ firstKeys key history ↔ k ∈ history.map key := by
  rw [firstKeys, List.mem_reverse, List.mem_dedup, List.mem_reverse]

theorem firstKeys_nodup (history : List α) : (firstKeys key history).Nodup :=
  List.nodup_reverse.mpr (List.nodup_dedup _)

/-! ## One more entry -/

theorem latest_snoc (history : List α) (a : α) :
    latest key (history ++ [a]) = others key a (latest key history) ++ [a] := by
  induction history with
  | nil => simp [latest, others]
  | cons b history ih =>
    have hmem : key b ∈ (history ++ [a]).map key ↔ key b ∈ history.map key ∨ key b = key a := by simp
    rw [List.cons_append, latest, latest, ih]
    by_cases hb : key b ∈ history.map key
    · rw [if_pos (hmem.mpr (Or.inl hb)), if_pos hb]
    · rw [if_neg hb]
      by_cases hkey : key b = key a
      · rw [if_pos (hmem.mpr (Or.inr hkey)), others, others, List.filter_cons_of_neg (by simpa using hkey)]
      · rw [if_neg fun h => (hmem.mp h).elim hb hkey, others, others, List.filter_cons_of_pos (by simpa using hkey)]
        rfl

theorem firstKeys_snoc (history : List α) (a : α) :
    firstKeys key (history ++ [a]) =
      if key a ∈ firstKeys key history then firstKeys key history else firstKeys key history ++ [key a] := by
  have hmem : key a ∈ firstKeys key history ↔ key a ∈ (history.map key).reverse := by
    rw [mem_firstKeys, List.mem_reverse]
  rw [firstKeys, List.map_append, List.reverse_append, List.map_singleton, List.reverse_singleton, List.singleton_append]
  by_cases h : key a ∈ (history.map key).reverse
  · rw [if_pos (hmem.mpr h), List.dedup_cons_of_mem h, firstKeys]
  · rw [if_neg (mt hmem.mp h), List.dedup_cons_of_notMem h, List.reverse_cons, firstKeys]

theorem keptKeys_sub {n : Nat} {history : List α} {k : κ} (h : k ∈ keptKeys key n history) : k ∈ firstKeys key history :=
  List.mem_of_mem_take h

theorem keptKeys_snoc_of_mem {n : Nat} {history : List α} {a : α} (h : key a ∈ firstKeys key history) :
    keptKeys key n (history ++ [a]) = keptKeys key n history := by
  rw [keptKeys, firstKeys_snoc, if_pos h, keptKeys]

theorem keptKeys_snoc_of_full {n : Nat} {history : List α} {a : α} (h : n ≤ (firstKeys key history).length) :
    keptKeys key n (history ++ [a]) = keptKeys key n history := by
  rw [keptKeys, firstKeys_snoc, keptKeys]
  split
  · rfl
  · rw [List.take_append_of_le_length h]

theorem keptKeys_snoc_of_new {n : Nat} {history : List α} {a : α} (hnew : key a ∉ firstKeys key history)
    (h : (firstKeys key history).length < n) : keptKeys key n (history ++ [a]) = firstKeys key history ++ [key a] := by
  rw [keptKeys, firstKeys_snoc, if_neg hnew]
  refine List.take_of_length_le ?_
  rw [List.length_append]
  exact h

theorem keptKeys_length (n : Nat) (history : List α) :
    (keptKeys key n history).length = min n (firstKeys key history).length := List.length_take

theorem kept_perm (n : Nat) (history : List α) : ((kept key n history).map key).Perm (keptKeys key n history) := by
  refine (List.perm_ext_iff_of_nodup ?_ ?_).mpr fun k => ?_
  · exact (latest_nodup history).sublist (List.filter_sublist.map key)
  · exact (firstKeys_nodup history).sublist (List.take_sublist _ _)
  · constructor
    · intro hk
      obtain ⟨a, ha, rfl⟩ := List.mem_map.mp hk
      exact of_decide_eq_true (List.mem_filter.mp ha).2
    · intro hk
      have hmem := mem_latest_map.mpr (mem_firstKeys.mp (keptKeys_sub hk))
      obtain ⟨a, ha, rfl⟩ := List.mem_map.mp hmem
      exact List.mem_map_of_mem (List.mem_filter.mpr ⟨ha, decide_eq_true hk⟩)

theorem kept_length (n : Nat) (history : List α) : (kept key n history).length = min n (firstKeys key history).length := by
  rw [← keptKeys_length, ← (kept_perm n history).length_eq, List.length_map]

theorem mem_kept_map {n : Nat} {history : List α} {k : κ} :
    k ∈ (kept key n history).map key ↔ k ∈ keptKeys key n history :=
  (kept_perm n history).mem_iff

theorem others_of_not_mem {entries : List α} {a : α} (h : key a ∉ entries.map key) : others key a entries = entries := by
  refine List.filter_eq_self.mpr fun b hb => decide_eq_true fun heq => h ?_
  rw [← heq]
  exact List.mem_map_of_mem hb

theorem filter_others (p : α → Bool) (a : α) (entries : List α) :
    (others key a entries).filter p = others key a (entries.filter p) := by
  rw [others, others, List.filter_filter, List.filter_filter]
  simp only [Bool.and_comm]

/-- The entries of `latest` after one more, by what holds of their keys. -/
theorem filter_latest_snoc (p : κ → Bool) (history : List α) (a : α) :
    (latest key (history ++ [a])).filter (fun b => p (key b)) =
      others key a ((latest key history).filter fun b => p (key b)) ++ if p (key a) then [a] else [] := by
  rw [latest_snoc, List.filter_append, filter_others]
  congr 1
  rw [List.filter_singleton]
  cases p (key a) <;> rfl

theorem kept_snoc_of_mem {n : Nat} {history : List α} {a : α} (h : key a ∈ keptKeys key n history) :
    kept key n (history ++ [a]) = others key a (kept key n history) ++ [a] ∧
      rest key n (history ++ [a]) = rest key n history := by
  have hsame := keptKeys_snoc_of_mem (n := n) (keptKeys_sub h)
  constructor
  · rw [kept, hsame, filter_latest_snoc fun k => decide (k ∈ keptKeys key n history), if_pos (decide_eq_true h), kept]
  · rw [rest, hsame, filter_latest_snoc fun k => decide (k ∉ keptKeys key n history), if_neg (by simpa using h),
      List.append_nil]
    refine others_of_not_mem fun hmem => ?_
    obtain ⟨b, hb, hkey⟩ := List.mem_map.mp hmem
    have hnot := of_decide_eq_true (List.mem_filter.mp hb).2
    rw [hkey] at hnot
    exact hnot h

theorem kept_snoc_of_room {n : Nat} {history : List α} {a : α} (hnot : key a ∉ keptKeys key n history)
    (h : (firstKeys key history).length < n) :
    kept key n (history ++ [a]) = kept key n history ++ [a] ∧ rest key n (history ++ [a]) = rest key n history := by
  have hall : keptKeys key n history = firstKeys key history := List.take_of_length_le (Nat.le_of_lt h)
  rw [hall] at hnot
  have hkeys := keptKeys_snoc_of_new hnot h
  have hnew : key a ∉ (latest key history).map key := fun hmem => hnot (mem_firstKeys.mpr (mem_latest_map.mp hmem))
  have hmem : ∀ b ∈ latest key history, key b ∈ firstKeys key history := fun b hb =>
    mem_firstKeys.mpr (mem_latest_map.mp (List.mem_map_of_mem hb))
  have hnil : rest key n history = [] := by
    rw [rest, hall, List.filter_eq_nil_iff]
    intro b hb
    simpa using hmem b hb
  constructor
  · rw [kept, kept, hkeys, hall, latest_snoc, others_of_not_mem hnew, List.filter_append]
    congr 1
    · refine List.filter_congr fun b hb => ?_
      simp [hmem b hb]
    · simp
  · rw [hnil, rest, hkeys, latest_snoc, others_of_not_mem hnew, List.filter_append, List.append_eq_nil_iff,
      List.filter_eq_nil_iff, List.filter_eq_nil_iff]
    refine ⟨fun b hb => ?_, fun b hb => ?_⟩
    · simp [hmem b hb]
    · simp [List.mem_singleton.mp hb]

/-- Afterwards an entry with another key is the last one of the rest. -/
theorem kept_snoc_of_full {n : Nat} {history : List α} {a : α} (hnot : key a ∉ keptKeys key n history)
    (h : n ≤ (firstKeys key history).length) :
    kept key n (history ++ [a]) = kept key n history ∧
      rest key n (history ++ [a]) = others key a (rest key n history) ++ [a] := by
  have hsame := keptKeys_snoc_of_full (a := a) h
  constructor
  · rw [kept, hsame, filter_latest_snoc fun k => decide (k ∈ keptKeys key n history), if_neg (by simpa using hnot),
      List.append_nil]
    exact others_of_not_mem fun hmem => hnot (mem_kept_map.mp hmem)
  · rw [rest, hsame, filter_latest_snoc fun k => decide (k ∉ keptKeys key n history), if_pos (decide_eq_true hnot), rest]

/-! ## The last entries -/

theorem rtake_append (n : Nat) (before after : List α) (h : n ≤ after.length) :
    (before ++ after).rtake n = after.rtake n := by
  have hlength : (before ++ after).length - n = before.length + (after.length - n) := by
    rw [List.length_append]
    omega
  rw [List.rtake, List.rtake, hlength, List.drop_append, List.drop_eq_nil_of_le (Nat.le_add_right _ _),
    List.nil_append, Nat.add_sub_cancel_left]

theorem length_rtake (n : Nat) (entries : List α) : (entries.rtake n).length = min n entries.length := by
  rw [List.rtake, List.length_drop]
  omega

theorem rtake_of_length_le {n : Nat} {entries : List α} (h : entries.length ≤ n) : entries.rtake n = entries := by
  rw [List.rtake, Nat.sub_eq_zero_of_le h, List.drop_zero]

theorem others_length {entries : List α} {a : α} (hnodup : (entries.map key).Nodup) (h : key a ∈ entries.map key) :
    (others key a entries).length + 1 = entries.length := by
  have hkeys : (others key a entries).map key = (entries.map key).erase (key a) := by
    rw [List.Nodup.erase_eq_filter hnodup, others, List.filter_map]
    congr 2
    funext b
    by_cases hb : key b = key a <;> simp [hb]
  rw [← List.length_map key, hkeys, List.length_erase_of_mem h, List.length_map]
  have := List.length_pos_of_mem h
  rw [List.length_map] at this
  omega

/-- A buffer of the last `n` entries of a list with different keys, when one
more takes the last place. -/
theorem rtake_others_snoc {n : Nat} (hn : 0 < n) {entries : List α} (hnodup : (entries.map key).Nodup) (a : α) :
    (others key a entries ++ [a]).rtake n =
      (if (others key a (entries.rtake n)).length = n then (others key a (entries.rtake n)).tail
        else others key a (entries.rtake n)) ++ [a] := by
  obtain ⟨m, rfl⟩ := Nat.exists_eq_succ_of_ne_zero (Nat.ne_of_gt hn)
  rw [List.rtake_concat_succ]
  congr 1
  set last := entries.rtake (m + 1) with hlast
  have hsplit : entries = entries.take (entries.length - (m + 1)) ++ last := (List.take_append_drop _ _).symm
  have hlength : last.length = min (m + 1) entries.length := length_rtake _ _
  have hothers : others key a entries = others key a (entries.take (entries.length - (m + 1))) ++ others key a last := by
    rw [others, others, others, ← List.filter_append, ← hsplit]
  have hnodupLast : (last.map key).Nodup := hnodup.sublist ((List.drop_sublist _ _).map key)
  by_cases hfew : entries.length < m + 1
  · -- Nothing has been dropped so far.
    have hall : last = entries := rtake_of_length_le (Nat.le_of_lt hfew)
    have hle : (others key a entries).length ≤ entries.length := (List.filter_sublist).length_le
    rw [hall, if_neg (by omega)]
    exact rtake_of_length_le (by omega)
  · have hfull : last.length = m + 1 := by omega
    by_cases hmem : key a ∈ last.map key
    · have hone := others_length hnodupLast hmem
      rw [hothers, rtake_append _ _ _ (by omega), if_neg (by omega)]
      exact rtake_of_length_le (by omega)
    · rw [hothers, others_of_not_mem hmem, rtake_append _ _ _ (by omega), if_pos hfull, List.rtake, hfull]
      rw [Nat.add_sub_cancel_left, List.drop_one]

theorem rest_nodup (n : Nat) (history : List α) : ((rest key n history).map key).Nodup :=
  (latest_nodup history).sublist (List.filter_sublist.map key)

theorem spare_snoc_of_full {n : Nat} (hn : 0 < n) {history : List α} {a : α} (hnot : key a ∉ keptKeys key n history)
    (h : n ≤ (firstKeys key history).length) :
    spare key n (history ++ [a]) =
      (if (others key a (spare key n history)).length = n then (others key a (spare key n history)).tail
        else others key a (spare key n history)) ++ [a] := by
  rw [spare, (kept_snoc_of_full hnot h).2]
  exact rtake_others_snoc hn (rest_nodup n history) a

end

end Neatworks.Recency
