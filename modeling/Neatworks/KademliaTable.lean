import Neatworks.Kademlia
import Neatworks.XorOrder

/-!
# The bucket table

A record is in the bucket of the highest bit of its distance from the origin,
and a bucket has no id twice. A bucket is never emptied: a record that is
removed is replaced by a cached one or goes back to the front.
-/

namespace Neatworks.Kademlia

open Outcome XorOrder

/-! ## Distances -/

theorem U256.fromLittleEndian_toNat (bytes : Digest) : (U256.fromLittleEndian bytes).toNat = leNat bytes.toList := by
  have hlt := leNat_lt bytes.toList
  rw [Vector.length_toList] at hlt
  exact Nat.mod_eq_of_lt hlt

theorem U256.fromLittleEndian_inj {a b : Digest} (h : fromLittleEndian a = fromLittleEndian b) : a = b := by
  have hnat : leNat a.toList = leNat b.toList := by
    rw [← fromLittleEndian_toNat, ← fromLittleEndian_toNat, h]
  have ha := leBytes_leNat a.toList
  have hb := leBytes_leNat b.toList
  rw [Vector.length_toList] at ha hb
  rw [hnat, hb] at ha
  exact Vector.toList_inj.mp ha.symm

theorem U256.fromLittleEndian_toLittleEndian (n : U256) : fromLittleEndian n.toLittleEndian = n := by
  apply BitVec.eq_of_toNat_eq
  rw [fromLittleEndian_toNat]
  change leNat (leBytes 32 n.toNat) = _
  have hlt : n.toNat < 256 ^ 32 := n.isLt
  rw [leNat_leBytes, Nat.mod_eq_of_lt hlt]

theorem distance_inj {a b target : PeerId} (h : distance a target = distance b target) : a = b :=
  U256.fromLittleEndian_inj <| by
    have hxor := congrArg (· ^^^ U256.fromLittleEndian target) h
    simpa [distance, BitVec.xor_assoc] using hxor

theorem distance_eq_zero {a b : PeerId} (h : distance a b = 0) : a = b := by
  refine distance_inj (h.trans ?_)
  exact BitVec.xor_self.symm

theorem distance_distanceFrom (peerId : PeerId) (d : U256) : distance peerId (distanceFrom peerId d) = d := by
  rw [distance, distanceFrom, U256.fromLittleEndian_toLittleEndian, ← BitVec.xor_assoc, BitVec.xor_self, BitVec.zero_xor]

theorem distanceFrom_distance (peerId : PeerId) (target : Target) : distanceFrom peerId (distance peerId target) = target := by
  apply U256.fromLittleEndian_inj
  rw [distanceFrom, distance, U256.fromLittleEndian_toLittleEndian, ← BitVec.xor_assoc, BitVec.xor_self, BitVec.zero_xor]

theorem distance_toNat (origin id target : PeerId) :
    (distance id target).toNat = (distance origin id).toNat ^^^ (distance origin target).toNat := by
  rw [← BitVec.toNat_xor]
  congr 1
  rw [distance, distance, distance, BitVec.xor_comm (U256.fromLittleEndian origin) (U256.fromLittleEndian id),
    BitVec.xor_assoc, ← BitVec.xor_assoc (U256.fromLittleEndian origin), BitVec.xor_self, BitVec.zero_xor]

namespace Buckets

section
variable {K A E : Type} {self : Buckets K A}

/-! ## Indices -/

theorem index_eq {target : Target} (h : target ≠ self.origin.id) :
    (self.index target : Outcome E (Fail K A) Nat) = pure (distance self.origin.id target).toNat.log2 ∧
      Top (distance self.origin.id target).toNat (distance self.origin.id target).toNat.log2 ∧
      (distance self.origin.id target).toNat.log2 < 256 := by
  have hne : distance self.origin.id target ≠ 0 := fun hzero => h (distance_eq_zero hzero).symm
  have hnat : (distance self.origin.id target).toNat ≠ 0 := fun hzero => hne (BitVec.eq_of_toNat_eq hzero)
  have hlt : (distance self.origin.id target).toNat.log2 < 256 := (Nat.log2_lt hnat).mpr (BitVec.isLt _)
  refine ⟨?_, top_log2 hnat, hlt⟩
  unfold index U256.leadingZeros
  have hzeros : 255 - (distance self.origin.id target).toNat.log2 < 256 := by omega
  have hindex : 256 - 1 - (255 - (distance self.origin.id target).toNat.log2) =
      (distance self.origin.id target).toNat.log2 := by omega
  simp only [if_neg hne, Outcome.assert, if_pos hzeros, ok_bind, hindex]

theorem index_distanceFrom {d : U256} {i : Nat} (h : Top d.toNat i) :
    (self.index (distanceFrom self.origin.id d) : Outcome E (Fail K A) Nat) = pure i := by
  have hdistance : distance self.origin.id (distanceFrom self.origin.id d) = d := distance_distanceFrom _ d
  have hne : distanceFrom self.origin.id d ≠ self.origin.id := fun heq => by
    rw [heq, distance, BitVec.xor_self] at hdistance
    have hset := h.set
    rw [← hdistance] at hset
    simp at hset
  obtain ⟨hindex, htop, _⟩ := index_eq (E := E) hne
  rw [hdistance] at hindex htop
  rw [hindex, htop.unique h]

theorem bucket_eq {index : Nat} (h : index < 256) :
    (self.bucket index : Outcome E (Fail K A) (Bucket K A)) = pure self.distances[index] := by
  unfold bucket
  rw [Vector.getElem?_eq_getElem h]

/-! ## Well-formed tables -/

/-- The bucket of the numbers with highest bit `index`. -/
structure BucketWf (origin : PeerRecord K A) (index : Nat) (bucket : Bucket K A) : Prop where
  top : ∀ record ∈ bucket.records ++ bucket.cachedRecords, Top (distance origin.id record.id).toNat index
  nodup : ((bucket.records ++ bucket.cachedRecords).map (·.id)).Nodup
  bound : bucket.records.length ≤ bucketSize
  full : bucket.cachedRecords ≠ [] → bucket.records.length = bucketSize

def Wf (self : Buckets K A) : Prop := ∀ index, (h : index < 256) → BucketWf self.origin index self.distances[index]

/-- The records in the lists of the buckets. -/
def records (self : Buckets K A) : List (PeerRecord K A) := self.distances.toList.flatMap (·.records)

theorem new_wf (origin : PeerRecord K A) : (new origin).Wf := by
  intro index h
  have : (new origin).distances[index] = {} := Vector.getElem_replicate ..
  rw [this]
  exact ⟨fun _ hmem => absurd hmem List.not_mem_nil, List.nodup_nil, Nat.zero_le _, fun hne => absurd rfl hne⟩

theorem getElem_set {index i : Nat} {bucket : Bucket K A} (hi : i < 256) :
    (self.set index bucket).distances[i] = if index = i then bucket else self.distances[i] :=
  Vector.getElem_setIfInBounds hi

theorem set_wf (h : self.Wf) {index : Nat} {bucket : Bucket K A}
    (hbucket : BucketWf self.origin index bucket) : (self.set index bucket).Wf := by
  intro i hi
  rw [getElem_set hi]
  split
  · next heq =>
    subst heq
    exact hbucket
  · exact h i hi

theorem without_perm {records : List (PeerRecord K A)} {record : PeerRecord K A} {id : PeerId}
    (h : records.find? (·.id = id) = some record) : records.Perm (record :: without records id) := by
  obtain ⟨hid, before, rest, rfl, hbefore⟩ := List.find?_eq_some_iff_append.mp h
  unfold without
  rw [List.eraseP_append_right _ (by simpa using hbefore), List.eraseP_cons_of_pos (p := fun r : PeerRecord K A => decide (r.id = id)) hid]
  exact List.perm_middle

theorem without_of_not_mem {records : List (PeerRecord K A)} {id : PeerId} (h : id ∉ records.map (·.id)) :
    without records id = records := by
  refine List.eraseP_of_forall_not fun record hmem heq => h ?_
  rw [← of_decide_eq_true heq]
  exact List.mem_map_of_mem hmem

theorem without_sublist (records : List (PeerRecord K A)) (id : PeerId) : (without records id).Sublist records :=
  List.eraseP_sublist

theorem not_mem_without {records : List (PeerRecord K A)} (h : (records.map (·.id)).Nodup) (id : PeerId) :
    id ∉ (without records id).map (·.id) := by
  by_cases hmem : id ∈ records.map (·.id)
  · obtain ⟨record, hrecord, hid⟩ := List.mem_map.mp hmem
    cases hfind : records.find? (·.id = id) with
    | none => exact absurd hid (by simpa using List.find?_eq_none.mp hfind record hrecord)
    | some found =>
      have hperm := (without_perm hfind).map (·.id)
      have hfound : found.id = id := by simpa using List.find?_some hfind
      rw [hperm.nodup_iff, List.map_cons, List.nodup_cons, hfound] at h
      exact h.1
  · rw [without_of_not_mem hmem]
    exact hmem

/-! ## Inserting and removing -/

/-- What `insert` makes of the bucket of the record. -/
def Bucket.inserted (bucket : Bucket K A) (record : PeerRecord K A) : Bucket K A :=
  let records := without bucket.records record.id
  if records.length < bucketSize then { bucket with records := records ++ [record] }
  else
    let cachedRecords := without bucket.cachedRecords record.id
    ⟨records, (if cachedRecords.length = bucketSize then cachedRecords.tail else cachedRecords) ++ [record]⟩

theorem insert_eq {record : PeerRecord K A} (h : record.id ≠ self.origin.id) :
    ∃ index, ∃ hindex : index < 256, Top (distance self.origin.id record.id).toNat index ∧
      (self.insert record : Outcome E (Fail K A) (Buckets K A)) =
        pure (self.set index (Bucket.inserted self.distances[index] record)) := by
  obtain ⟨hindex, htop, hlt⟩ := index_eq (E := E) h
  refine ⟨_, hlt, htop, ?_⟩
  unfold insert Bucket.inserted
  simp only [hindex, bucket_eq hlt, Outcome.assert, if_pos h, ok_bind, pure_bind]
  split <;> rfl

theorem insert_origin {record : PeerRecord K A} (hid : record.id = self.origin.id) :
    (self.insert record : Outcome E (Fail K A) _) = .fail (.bail "cannot insert origin id") [] := by
  unfold insert
  rw [Outcome.assert, if_neg (not_not.mpr hid)]
  rfl

theorem inserted_wf {origin record : PeerRecord K A} {index : Nat} {bucket : Bucket K A}
    (htop : Top (distance origin.id record.id).toNat index) (h : BucketWf origin index bucket) :
    BucketWf origin index (Bucket.inserted bucket record) := by
  have hrecords := without_sublist bucket.records record.id
  have hnodup := h.nodup
  rw [List.map_append, List.nodup_append] at hnodup
  obtain ⟨hnodupRecords, hnodupCached, hdisjoint⟩ := hnodup
  have hnot := not_mem_without hnodupRecords record.id
  have hnodupWithout := hnodupRecords.sublist (hrecords.map (·.id))
  unfold Bucket.inserted
  dsimp only
  split
  · next hlt =>
    -- A record that is not in the list is not cached, as nothing is.
    have hcached : ∀ r ∈ bucket.cachedRecords, r.id ≠ record.id := by
      intro r hr heq
      by_cases hmem : record.id ∈ bucket.records.map (·.id)
      · exact hdisjoint _ hmem _ (List.mem_map_of_mem hr) heq.symm
      · rw [without_of_not_mem hmem, h.full (List.ne_nil_of_mem hr)] at hlt
        exact Nat.lt_irrefl _ hlt
    refine ⟨fun r hr => ?_, ?_, ?_, fun hcache => ?_⟩
    · simp only [List.mem_append, List.mem_singleton] at hr
      rcases hr with (hr | rfl) | hr
      · exact h.top r (List.mem_append_left _ (hrecords.subset hr))
      · exact htop
      · exact h.top r (List.mem_append_right _ hr)
    · simp only [List.map_append, List.map_cons, List.append_assoc, List.singleton_append]
      rw [List.perm_middle.nodup_iff, List.nodup_cons, List.mem_append, not_or]
      refine ⟨⟨hnot, fun hmem => ?_⟩, List.nodup_append.mpr ⟨hnodupWithout, hnodupCached, fun a ha b hb => ?_⟩⟩
      · obtain ⟨r, hr, heq⟩ := List.mem_map.mp hmem
        exact hcached r hr heq
      · exact hdisjoint a ((hrecords.map (·.id)).subset ha) b hb
    · rw [List.length_append]
      exact hlt
    · have hfull := h.full hcache
      by_cases hmem : record.id ∈ bucket.records.map (·.id)
      · obtain ⟨r, hr, hid⟩ := List.mem_map.mp hmem
        cases hfind : bucket.records.find? (·.id = record.id) with
        | none => exact absurd hid (by simpa using List.find?_eq_none.mp hfind r hr)
        | some found =>
          rw [(without_perm hfind).length_eq, List.length_cons] at hfull
          rw [List.length_append]
          exact hfull
      · rw [without_of_not_mem hmem, hfull] at hlt
        exact absurd hlt (Nat.lt_irrefl _)
  · next hnlt =>
    have hlength : (without bucket.records record.id).length = bucketSize :=
      Nat.le_antisymm (Nat.le_trans hrecords.length_le h.bound) (Nat.not_lt.mp hnlt)
    have hnotCached := not_mem_without hnodupCached record.id
    have hcached : (if (without bucket.cachedRecords record.id).length = bucketSize then
        (without bucket.cachedRecords record.id).tail else without bucket.cachedRecords record.id).Sublist
        (without bucket.cachedRecords record.id) := by
      split
      · exact List.tail_sublist _
      · exact List.Sublist.refl _
    have hsub := hcached.trans (without_sublist bucket.cachedRecords record.id)
    refine ⟨fun r hr => ?_, ?_, Nat.le_of_eq hlength, fun _ => hlength⟩
    · simp only [List.mem_append, List.mem_singleton] at hr
      rcases hr with hr | hr | rfl
      · exact h.top r (List.mem_append_left _ (hrecords.subset hr))
      · exact h.top r (List.mem_append_right _ (hsub.subset hr))
      · exact htop
    · simp only [List.map_append, List.map_cons, List.map_nil]
      rw [← List.append_assoc, (List.perm_append_singleton _ _).nodup_iff, List.nodup_cons, List.mem_append, not_or]
      refine ⟨⟨hnot, fun hmem => hnotCached ((hcached.map (·.id)).subset hmem)⟩,
        List.nodup_append.mpr ⟨hnodupWithout, hnodupCached.sublist (hsub.map (·.id)), fun a ha b hb => ?_⟩⟩
      exact hdisjoint a ((hrecords.map (·.id)).subset ha) b ((hsub.map (·.id)).subset hb)

theorem insert_wf (h : self.Wf) {record : PeerRecord K A} (hid : record.id ≠ self.origin.id) :
    ∃ buckets : Buckets K A, (self.insert record : Outcome E (Fail K A) (Buckets K A)) = pure buckets ∧
      buckets.origin = self.origin ∧ buckets.Wf := by
  obtain ⟨index, hindex, htop, heq⟩ := insert_eq (E := E) hid
  exact ⟨_, heq, rfl, set_wf h (inserted_wf htop (h index hindex))⟩

/-- What `remove` makes of the bucket of the id. -/
def Bucket.removed (bucket : Bucket K A) (id : PeerId) : Bucket K A :=
  match bucket.records.find? (·.id = id) with
  | none => bucket
  | some record =>
    let records := without bucket.records id
    match bucket.cachedRecords.getLast? with
    | some cacheRecord => ⟨records ++ [cacheRecord], bucket.cachedRecords.dropLast⟩
    | none => { bucket with records := record :: records }

theorem set_getElem (self : Buckets K A) {index : Nat} (h : index < 256) : self.set index self.distances[index] = self := by
  have hsame : self.distances.setIfInBounds index self.distances[index] = self.distances := by
    ext i hi
    rw [Vector.getElem_setIfInBounds hi]
    split
    · next heq => simp only [heq]
    · rfl
  rw [set, hsame]

theorem remove_eq {id : PeerId} (h : id ≠ self.origin.id) :
    ∃ index, ∃ hindex : index < 256, Top (distance self.origin.id id).toNat index ∧
      ∃ record, (self.remove id : Outcome E (Fail K A) _) =
        pure (record, self.set index (Bucket.removed self.distances[index] id)) := by
  obtain ⟨hindex, htop, hlt⟩ := index_eq (E := E) h
  refine ⟨_, hlt, htop, ?_⟩
  unfold remove Bucket.removed
  cases hfind : self.distances[(distance self.origin.id id).toNat.log2].records.find? (·.id = id) with
  | none =>
    refine ⟨none, ?_⟩
    simp only [hindex, bucket_eq hlt, pure_bind, hfind, set_getElem self hlt]
  | some record =>
    refine ⟨some record, ?_⟩
    cases hlast : self.distances[(distance self.origin.id id).toNat.log2].cachedRecords.getLast? with
    | none => simp only [hindex, bucket_eq hlt, pure_bind, hfind, hlast]
    | some cacheRecord => simp only [hindex, bucket_eq hlt, pure_bind, hfind, hlast]

theorem removed_wf {origin : PeerRecord K A} {index : Nat} {bucket : Bucket K A} (id : PeerId)
    (h : BucketWf origin index bucket) : BucketWf origin index (Bucket.removed bucket id) := by
  unfold Bucket.removed
  split
  · exact h
  · next record hfind =>
    have hperm := without_perm hfind
    have htop := h.top
    have hnodup := h.nodup
    split
    · next cached hcached =>
      have hlast := List.dropLast_append_getLast? cached hcached
      rw [← hlast] at htop hnodup
      refine ⟨fun r hr => htop r ?_, ?_, ?_, fun _ => ?_⟩
      · simp only [List.mem_append, hperm.mem_iff, List.mem_cons] at hr ⊢
        tauto
      · have hmap := hperm.map (·.id)
        simp only [List.map_append, List.map_cons, List.map_nil, List.append_assoc] at hnodup ⊢
        rw [(hmap.append_right _).nodup_iff, List.map_cons, List.cons_append, List.nodup_cons] at hnodup
        refine ((List.Perm.append_left _ ?_).nodup_iff).mp hnodup.2
        exact List.perm_append_comm
      · rw [List.length_append, List.length_singleton, ← List.length_cons, ← hperm.length_eq]
        exact h.bound
      · rw [List.length_append, List.length_singleton, ← List.length_cons, ← hperm.length_eq]
        exact h.full fun hnil => by simp [hnil] at hcached
    · refine ⟨fun r hr => htop r ?_, ?_, ?_, fun hne => ?_⟩
      · rw [List.mem_append, ← hperm.mem_iff, ← List.mem_append] at hr
        exact hr
      · rw [List.map_append, ((hperm.map (·.id)).append_right _).nodup_iff.symm, ← List.map_append]
        exact hnodup
      · rw [← hperm.length_eq]
        exact h.bound
      · rw [← hperm.length_eq]
        exact h.full hne

theorem remove_wf (h : self.Wf) {id : PeerId} (hid : id ≠ self.origin.id) :
    ∃ record, ∃ buckets : Buckets K A, (self.remove id : Outcome E (Fail K A) _) = pure (record, buckets) ∧
      buckets.origin = self.origin ∧ buckets.Wf := by
  obtain ⟨index, hindex, _, record, heq⟩ := remove_eq (E := E) hid
  exact ⟨record, _, heq, rfl, set_wf h (removed_wf id (h index hindex))⟩

end

end Buckets

end Neatworks.Kademlia
