import Mathlib.Data.List.Nodup
import Neatworks.KademliaClosest

/-!
# The buckets over any inserts and removes

What `insert` and `remove` keep: the place of a record, one entry for an id, and
the bounds of the lists. The records of a bucket are never fewer than before.
-/

namespace Neatworks.Kademlia

namespace Buckets

open Outcome XorOrder

section
variable {K A E : Type} {self : Buckets K A}

/-! ## One bucket -/

/-- What an operation makes of the bucket of its id. -/
def Bucket.applied (bucket : Bucket K A) : Op K A → Bucket K A
  | .insert record => Bucket.inserted bucket record
  | .remove id => Bucket.removed bucket id

theorem apply_eq {op : Op K A} (h : op.id ≠ self.origin.id) :
    ∃ index, ∃ hindex : index < 256, Top (distance self.origin.id op.id).toNat index ∧
      (self.apply op : Outcome E (Fail K A) _) = pure (self.set index (Bucket.applied self.distances[index] op)) := by
  cases op with
  | insert record => exact insert_eq h
  | remove id =>
    have hid : id ≠ self.origin.id := h
    obtain ⟨index, hindex, htop, record, heq⟩ := remove_eq (E := E) hid
    exact ⟨index, hindex, htop, by rw [apply, heq]; rfl⟩

theorem applied_wf {origin : PeerRecord K A} {index : Nat} {bucket : Bucket K A} {op : Op K A}
    (htop : Top (distance origin.id op.id).toNat index) (h : BucketWf origin index bucket) :
    BucketWf origin index (Bucket.applied bucket op) := by
  cases op with
  | insert record => exact inserted_wf htop h
  | remove id => exact removed_wf id h

theorem applied_cached {bucket : Bucket K A} (op : Op K A) (h : bucket.cachedRecords.length ≤ bucketSize) :
    (Bucket.applied bucket op).cachedRecords.length ≤ bucketSize := by
  cases op with
  | insert record =>
    have hlength := (without_sublist bucket.cachedRecords record.id).length_le
    rw [Bucket.applied, Bucket.inserted]
    dsimp only
    split
    · exact h
    · split
      · next hfull =>
        rw [List.length_append, List.length_tail, List.length_singleton, hfull]
        decide
      · next hnot =>
        rw [List.length_append, List.length_singleton]
        omega
  | remove id =>
    rw [Bucket.applied, Bucket.removed]
    split
    · exact h
    · split
      · rw [List.length_dropLast]
        omega
      · exact h

theorem applied_records {origin : PeerRecord K A} {index : Nat} {bucket : Bucket K A} (op : Op K A)
    (h : BucketWf origin index bucket) : bucket.records.length ≤ (Bucket.applied bucket op).records.length := by
  cases op with
  | insert record =>
    rw [Bucket.applied, Bucket.inserted]
    dsimp only
    split
    · rw [List.length_append, List.length_singleton, without, List.length_eraseP]
      split
      · omega
      · omega
    · next hnot => exact Nat.le_trans h.bound (Nat.not_lt.mp hnot)
  | remove id =>
    rw [Bucket.applied, Bucket.removed]
    split
    · exact Nat.le_refl _
    · next record hfind =>
      have hlength := (without_perm hfind).length_eq
      rw [List.length_cons] at hlength
      split
      · rw [List.length_append, List.length_singleton, hlength]
      · rw [List.length_cons, hlength]

/-! ## The table -/

/-- All records of the table, those in the caches as well. -/
def all (self : Buckets K A) : List (PeerRecord K A) :=
  self.distances.toList.flatMap fun bucket => bucket.records ++ bucket.cachedRecords

def CacheBound (self : Buckets K A) : Prop :=
  ∀ index, (h : index < 256) → self.distances[index].cachedRecords.length ≤ bucketSize

/-- No bucket has fewer records. -/
def Grows (self self' : Buckets K A) : Prop :=
  ∀ index, (h : index < 256) → self.distances[index].records.length ≤ self'.distances[index].records.length

theorem Grows.trans {a b c : Buckets K A} (hab : a.Grows b) (hbc : b.Grows c) : a.Grows c := fun index h =>
  Nat.le_trans (hab index h) (hbc index h)

/-- What a run of the operations keeps. -/
structure Keeps (buckets buckets' : Buckets K A) : Prop where
  origin : buckets'.origin = buckets.origin
  wf : buckets'.Wf
  cache : buckets'.CacheBound
  grows : buckets.Grows buckets'

theorem apply_keeps (h : self.Wf) (hcache : self.CacheBound) {op : Op K A} (hop : op.id ≠ self.origin.id) :
    ∃ self' : Buckets K A, (self.apply op : Outcome E (Fail K A) _) = pure self' ∧ self.Keeps self' := by
  obtain ⟨index, hindex, htop, heq⟩ := apply_eq (E := E) hop
  refine ⟨_, heq, rfl, set_wf h (applied_wf htop (h index hindex)), fun i hi => ?_, fun i hi => ?_⟩
  · rw [getElem_set hi]
    split
    · exact applied_cached op (hcache index hindex)
    · exact hcache i hi
  · rw [getElem_set hi]
    split
    · next heq =>
      subst heq
      exact applied_records op (h index hindex)
    · exact Nat.le_refl _

theorem foldlM_keeps (h : self.Wf) (hcache : self.CacheBound) {ops : List (Op K A)}
    (hops : ∀ op ∈ ops, op.id ≠ self.origin.id) :
    ∃ self' : Buckets K A, (ops.foldlM apply self : Outcome E (Fail K A) _) = pure self' ∧ self.Keeps self' := by
  induction ops generalizing self with
  | nil => exact ⟨self, rfl, rfl, h, hcache, fun _ _ => Nat.le_refl _⟩
  | cons op ops ih =>
    obtain ⟨middle, happly, hkeeps⟩ := apply_keeps (E := E) h hcache (hops op List.mem_cons_self)
    obtain ⟨self', hfold, hkeeps'⟩ := ih hkeeps.wf hkeeps.cache (by
      rw [hkeeps.origin]
      exact fun op hmem => hops op (List.mem_cons_of_mem _ hmem))
    refine ⟨self', by rw [List.foldlM_cons, happly, pure_bind, hfold], hkeeps'.origin.trans hkeeps.origin, hkeeps'.wf,
      hkeeps'.cache, hkeeps.grows.trans hkeeps'.grows⟩

/-- An id has one place in the table: its bucket is that of its distance. -/
theorem all_nodup (h : self.Wf) : (self.all.map (·.id)).Nodup := by
  rw [all, List.map_flatMap, List.nodup_flatMap]
  refine ⟨fun bucket hmem => ?_, ?_⟩
  · obtain ⟨index, hindex, rfl⟩ := List.getElem_of_mem hmem
    exact (h index (by simpa using hindex)).nodup
  · rw [List.pairwise_iff_getElem]
    intro i j hi hj hlt id hi' hj'
    obtain ⟨a, ha, hid⟩ := List.mem_map.mp hi'
    obtain ⟨b, hb, hid'⟩ := List.mem_map.mp hj'
    have htop := (h i (by simpa using hi)).top a ha
    have htop' := (h j (by simpa using hj)).top b hb
    rw [hid] at htop
    rw [hid'] at htop'
    exact Nat.ne_of_lt hlt (htop.unique htop')

theorem new_cacheBound (origin : PeerRecord K A) : (new origin).CacheBound := by
  intro index h
  rw [new, Vector.getElem_replicate]
  exact Nat.zero_le _

/-- A table that inserts and removes have built, with what it was at any point
on the way. -/
theorem buckets_invariant (origin : PeerRecord K A) {ops : List (Op K A)} (hops : ∀ op ∈ ops, op.id ≠ origin.id) :
    ∃ buckets : Buckets K A, (ops.foldlM apply (new origin) : Outcome E (Fail K A) _) = .ok buckets [] ∧
      (∀ i, (hi : i < 256) → ∀ record ∈ buckets.distances[i].records ++ buckets.distances[i].cachedRecords,
        Top (distance origin.id record.id).toNat i) ∧
      (buckets.all.map (·.id)).Nodup ∧
      (∀ i, (hi : i < 256) → buckets.distances[i].records.length ≤ bucketSize ∧
        buckets.distances[i].cachedRecords.length ≤ bucketSize ∧
        (buckets.distances[i].records.length ≠ bucketSize → buckets.distances[i].cachedRecords = [])) ∧
      ∀ before after, ops = before ++ after →
        ∃ earlier : Buckets K A, (before.foldlM apply (new origin) : Outcome E (Fail K A) _) = .ok earlier [] ∧
          ∀ i, (hi : i < 256) → earlier.distances[i].records.length ≤ buckets.distances[i].records.length := by
  obtain ⟨buckets, hfold, hkeeps⟩ := foldlM_keeps (E := E) (new_wf origin) (new_cacheBound origin) hops
  refine ⟨buckets, hfold, fun i hi record hmem => ?_, all_nodup hkeeps.wf, fun i hi => ⟨(hkeeps.wf i hi).bound,
    hkeeps.cache i hi, fun hne => ?_⟩, ?_⟩
  · have htop := (hkeeps.wf i hi).top record hmem
    rwa [hkeeps.origin] at htop
  · by_contra hcached
    exact hne ((hkeeps.wf i hi).full hcached)
  · intro before after heq
    subst heq
    obtain ⟨earlier, hbefore, hearlier⟩ := foldlM_keeps (E := E) (new_wf origin) (new_cacheBound origin)
      fun op hmem => hops op (List.mem_append_left _ hmem)
    have hrest : ∀ op ∈ after, op.id ≠ earlier.origin.id := by
      rw [hearlier.origin]
      exact fun op hmem => hops op (List.mem_append_right _ hmem)
    obtain ⟨later, hafter, hlater⟩ := foldlM_keeps (E := E) hearlier.wf hearlier.cache hrest
    rw [List.foldlM_append, hbefore, pure_bind, hafter] at hfold
    cases hfold
    exact ⟨earlier, hbefore, hlater.grows⟩

theorem buckets_invariant_three :
    ∃ buckets : Buckets Unit Unit, ([.insert ⟨idOf 1, (), ()⟩, .insert ⟨idOf 2, (), ()⟩, .remove (idOf 1)].foldlM apply
        (new ⟨idOf 0, (), ()⟩) : Outcome Empty (Fail Unit Unit) _) = .ok buckets [] ∧
      (buckets.all.map (·.id)).Nodup := by
  have hops : ∀ op ∈ ([.insert ⟨idOf 1, (), ()⟩, .insert ⟨idOf 2, (), ()⟩, .remove (idOf 1)] : List (Op Unit Unit)),
      op.id ≠ idOf 0 := by decide
  obtain ⟨buckets, hfold, _, hnodup, _⟩ := buckets_invariant (E := Empty) (⟨idOf 0, (), ()⟩ : PeerRecord Unit Unit) hops
  exact ⟨buckets, hfold, hnodup⟩

end

end Buckets

end Neatworks.Kademlia
