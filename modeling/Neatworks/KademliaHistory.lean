import Neatworks.KademliaTable
import Neatworks.Recency

/-!
# What a bucket holds after inserts

The records of a bucket are the latest ones of the peers that were there first,
its cache the latest ones of the other peers, by recency.
-/

namespace Neatworks.Kademlia

namespace Buckets

open Outcome XorOrder Recency

section
variable {K A : Type} {self : Buckets K A}

/-- The table after any calls of `insert`; one that fails leaves it as it is. -/
def inserts (self : Buckets K A) (records : List (PeerRecord K A)) : Buckets K A :=
  records.foldl (fun self record =>
    match (self.insert record : Outcome Empty (Fail K A) (Buckets K A)) with
    | .ok self _ => self
    | .fail _ _ => self) self

/-- The highest bit of the distance from the origin is this one. -/
def belongs (origin : PeerRecord K A) (index : Nat) (record : PeerRecord K A) : Bool :=
  decide (2 ^ index ≤ (distance origin.id record.id).toNat ∧ (distance origin.id record.id).toNat < 2 ^ (index + 1))

/-- What has been inserted in a bucket, the latest last. -/
def history (origin : PeerRecord K A) (records : List (PeerRecord K A)) (index : Nat) : List (PeerRecord K A) :=
  records.filter (belongs origin index)

theorem belongs_iff {origin record : PeerRecord K A} {index : Nat} :
    belongs origin index record = true ↔ Top (distance origin.id record.id).toNat index := by
  rw [belongs, decide_eq_true_iff]
  constructor
  · intro h
    have hne : (distance origin.id record.id).toNat ≠ 0 := by
      have := Nat.two_pow_pos index
      omega
    have htop := top_log2 hne
    rwa [(Nat.log2_eq_iff hne).mpr h] at htop
  · intro h
    have hne : (distance origin.id record.id).toNat ≠ 0 := by
      intro hzero
      have hset := h.set
      rw [hzero, Nat.zero_testBit] at hset
      cases hset
    exact (Nat.log2_eq_iff hne).mp ((top_log2 hne).unique h)

theorem not_belongs_origin {origin record : PeerRecord K A} (h : record.id = origin.id) (index : Nat) :
    belongs origin index record = false := by
  rw [belongs, h, distance, BitVec.xor_self, decide_eq_false_iff_not]
  have := Nat.two_pow_pos index
  simp

theorem without_eq {records : List (PeerRecord K A)} (h : (records.map (·.id)).Nodup) (record : PeerRecord K A) :
    without records record.id = others (·.id) record records := by
  induction records with
  | nil => rfl
  | cons r records ih =>
    rw [List.map_cons, List.nodup_cons] at h
    by_cases hid : r.id = record.id
    · rw [without, List.eraseP_cons_of_pos (by simpa using hid), others, List.filter_cons_of_neg (by simpa using hid)]
      refine (others_of_not_mem ?_).symm
      rw [← hid]
      exact h.1
    · rw [without, List.eraseP_cons_of_neg (by simpa using hid), others, List.filter_cons_of_pos (by simpa using hid)]
      exact congrArg (List.cons r) (ih h.2)

/-- The contents of a bucket with this history. -/
def Bucket.of (history : List (PeerRecord K A)) : Bucket K A :=
  ⟨kept (·.id) bucketSize history, spare (·.id) bucketSize history⟩

theorem inserted_of (history : List (PeerRecord K A)) (record : PeerRecord K A) :
    Bucket.inserted (Bucket.of history) record = Bucket.of (history ++ [record]) := by
  have hnodup : ((kept (·.id) bucketSize history).map (·.id)).Nodup :=
    (latest_nodup history).sublist (List.filter_sublist.map _)
  have hlength : (kept (fun r : PeerRecord K A => r.id) bucketSize history).length = _ := kept_length bucketSize history
  have hrecords := without_eq hnodup record
  have hspare : ((spare (·.id) bucketSize history).map (·.id)).Nodup :=
    (rest_nodup bucketSize history).sublist ((List.drop_sublist _ _).map _)
  have hcached := without_eq hspare record
  unfold Bucket.inserted
  by_cases hkept : record.id ∈ keptKeys (·.id) bucketSize history
  · obtain ⟨hkept', hrest⟩ := kept_snoc_of_mem hkept
    have hone := others_length hnodup (mem_kept_map.mpr hkept)
    have hroom : (others (·.id) record (kept (·.id) bucketSize history)).length < bucketSize := by omega
    simp only [Bucket.of, hrecords, if_pos hroom, hkept', spare, hrest]
  · have hsame : others (·.id) record (kept (·.id) bucketSize history) = kept (·.id) bucketSize history :=
      others_of_not_mem fun hmem => hkept (mem_kept_map.mp hmem)
    rcases Nat.lt_or_ge (firstKeys (·.id) history).length bucketSize with hroom | hfull
    · obtain ⟨hkept', hrest⟩ := kept_snoc_of_room hkept hroom
      have hroom' : (kept (·.id) bucketSize history).length < bucketSize := by omega
      simp only [Bucket.of, hrecords, hsame, if_pos hroom', hkept', spare, hrest]
    · have hkept' := (kept_snoc_of_full hkept hfull).1
      have hspare := spare_snoc_of_full (by decide) hkept hfull
      have hfull' : ¬ (kept (·.id) bucketSize history).length < bucketSize := by omega
      simp only [Bucket.of, hrecords, hsame, if_neg hfull', hkept', hcached, hspare]

theorem inserts_snoc (records : List (PeerRecord K A)) (record : PeerRecord K A) :
    self.inserts (records ++ [record]) = (self.inserts records).inserts [record] := List.foldl_append

theorem inserts_origin (records : List (PeerRecord K A)) : (self.inserts records).origin = self.origin := by
  induction records using List.reverseRecOn with
  | nil => rfl
  | append_singleton records record ih =>
    rw [inserts_snoc, ← ih]
    by_cases hid : record.id = (self.inserts records).origin.id
    · rw [inserts, List.foldl_cons, List.foldl_nil, insert_origin hid]
    · obtain ⟨index, hindex, _, heq⟩ := insert_eq (E := Empty) hid
      rw [inserts, List.foldl_cons, List.foldl_nil, heq]
      rfl

/-- After any inserts a bucket has the latest records of the first peers that
were inserted in it, and of the other ones those inserted last. -/
theorem inserts_history (origin : PeerRecord K A) (records : List (PeerRecord K A)) (index : Fin 256) :
    ((new origin).inserts records).distances[index] = Bucket.of (history origin records index) := by
  induction records using List.reverseRecOn with
  | nil => exact Vector.getElem_replicate ..
  | append_singleton records record ih =>
    have horigin : ((new origin).inserts records).origin = origin := inserts_origin records
    rw [inserts_snoc, history, List.filter_append]
    by_cases hid : record.id = origin.id
    · rw [List.filter_cons_of_neg (by simp [not_belongs_origin hid]), List.filter_nil, List.append_nil]
      rw [inserts, List.foldl_cons, List.foldl_nil, insert_origin (by rwa [horigin])]
      exact ih
    · have hother : record.id ≠ ((new origin).inserts records).origin.id := by rwa [horigin]
      obtain ⟨i, hi, htop, heq⟩ := insert_eq (E := Empty) hother
      rw [horigin] at htop
      rw [inserts, List.foldl_cons, List.foldl_nil, heq]
      change (((new origin).inserts records).set i _).distances[(index : Nat)] = _
      rw [getElem_set index.isLt]
      by_cases hindex : i = index
      · subst hindex
        rw [if_pos rfl, List.filter_cons_of_pos (belongs_iff.mpr htop), List.filter_nil, ← inserted_of]
        exact congrArg (Bucket.inserted · record) ih
      · have hnot : ¬ belongs origin index record = true := fun h => hindex (htop.unique (belongs_iff.mp h))
        rw [if_neg hindex, List.filter_cons_of_neg hnot, List.filter_nil, List.append_nil]
        exact ih

end

end Buckets

end Neatworks.Kademlia
