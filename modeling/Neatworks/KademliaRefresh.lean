import Neatworks.KademliaNode
import Neatworks.KademliaReply

/-!
# The buckets of a refresh

`refresh_buckets` of a bootstrap is to skip the buckets up to and including the
closest one with a record. Its scan does not look at bucket 0 and the loop after
it starts at the bucket that the scan has found.
-/

namespace Neatworks.Kademlia

open Outcome

section
variable {K A σ : Type}

namespace Buckets

/-- The closest bucket with a record. -/
def IsClosest (self : Buckets K A) (index : Nat) : Prop := self.FirstFrom 0 index

theorem FirstFrom.unique {self : Buckets K A} {first i j : Nat} (hi : self.FirstFrom first i) (hj : self.FirstFrom first j) :
    i = j := by
  rcases Nat.lt_trichotomy i j with hlt | heq | hlt
  · exact absurd (hj.before i hlt hi.le) hi.records
  · exact heq
  · exact absurd (hi.before j hlt hj.le) hj.records

end Buckets

namespace Peer

/-- A target for the bucket of this index is to be refreshed. -/
def Refreshes (self : Peer K A σ) (index : Nat) : Prop :=
  ∃ target ∈ self.refreshTargets, (self.buckets.index target : Handler K A σ Nat) = pure index

/-- `refresh_buckets` ends, and it refreshes exactly the buckets beyond the
closest one with a record. -/
def RefreshesBeyond (self : Peer K A σ) (chance : Chance) : Prop :=
  ∃ self' es, self.refreshBuckets chance = .ok self' es ∧
    ∀ closest, self.buckets.IsClosest closest → ∀ index, self'.Refreshes index ↔ closest < index ∧ index < 256

variable {self : Peer K A σ}

theorem refreshBuckets_refreshes (chance : Chance) (horigin : self.buckets.origin = self.record)
    (hboot : self.onBootstrap = true) (hempty : self.refreshTargets = ∅) :
    (∃ start self' es, self.buckets.FirstFrom 1 start ∧ self.refreshBuckets chance = .ok self' es ∧
      ∀ index, self'.Refreshes index ↔ start ≤ index ∧ index < 256) ∨
    ¬ self.buckets.Beyond ∧ self.refreshBuckets chance = .fail (.panic .index) [] := by
  rcases refreshBuckets_start chance horigin hboot with ⟨start, targets, target, es, hstart, heq, hmem, _⟩ | hpanic
  · refine Or.inl ⟨start, _, es, hstart, heq, fun index => ⟨fun ⟨t, ht, hindex⟩ => ?_, fun ⟨hle, hlt⟩ => ?_⟩⟩
    · have hchosen := (hmem t).mp ht
      rw [hempty] at hchosen
      obtain ⟨i, hle, hlt, rfl⟩ := hchosen.resolve_left (Finset.notMem_empty t)
      have hindex' : (pure i : Handler K A σ Nat) = pure index :=
        (index_refreshTarget chance hlt horigin).symm.trans hindex
      cases hindex'
      exact ⟨hle, hlt⟩
    · exact ⟨self.refreshTarget chance index, (hmem _).mpr (Or.inr ⟨index, hle, hlt, rfl⟩),
        index_refreshTarget chance hlt horigin⟩
  · exact Or.inr hpanic

/-- The bucket that the scan finds is refreshed, and it is not beyond itself. -/
theorem not_refreshesBeyond_zero (chance : Chance) (horigin : self.buckets.origin = self.record)
    (hboot : self.onBootstrap = true) (hempty : self.refreshTargets = ∅) (hzero : self.buckets.distances[0].records = []) :
    ¬ self.RefreshesBeyond chance := by
  intro ⟨self', es, hok, hbeyond⟩
  rcases refreshBuckets_refreshes chance horigin hboot hempty with ⟨start, self'', es', hstart, heq, hrange⟩ | ⟨_, hpanic⟩
  · rw [heq] at hok
    cases hok
    have hclosest : self.buckets.IsClosest start := by
      refine ⟨Nat.zero_le _, hstart.lt, hstart.records, fun j hj _ => ?_⟩
      rcases Nat.eq_zero_or_pos j with rfl | hpos
      · exact hzero
      · exact hstart.before j hj hpos
    have hself := (hbeyond start hclosest start).mp ((hrange start).mpr ⟨Nat.le_refl _, hstart.lt⟩)
    exact Nat.lt_irrefl _ hself.1
  · rw [hpanic] at hok
    cases hok

theorem isClosest_zero (hzero : self.buckets.distances[0].records ≠ []) : self.buckets.IsClosest 0 :=
  ⟨Nat.le_refl _, by decide, hzero, fun j hj _ => absurd hj (Nat.not_lt_zero j)⟩

/-- Next to the closest bucket the scan goes on to one with a record. -/
theorem not_refreshesBeyond_one (chance : Chance) (horigin : self.buckets.origin = self.record)
    (hboot : self.onBootstrap = true) (hempty : self.refreshTargets = ∅) (hzero : self.buckets.distances[0].records ≠ [])
    (hone : self.buckets.distances[1].records = []) : ¬ self.RefreshesBeyond chance := by
  intro ⟨self', es, hok, hbeyond⟩
  rcases refreshBuckets_refreshes chance horigin hboot hempty with ⟨start, self'', es', hstart, heq, hrange⟩ | ⟨_, hpanic⟩
  · rw [heq] at hok
    cases hok
    have hfirst := (hrange 1).mp ((hbeyond 0 (isClosest_zero hzero) 1).mpr ⟨by decide, by decide⟩)
    have hstart_one : start = 1 := Nat.le_antisymm hfirst.1 hstart.le
    subst hstart_one
    exact hstart.records hone
  · rw [hpanic] at hok
    cases hok

/-- In a bootstrap the refresh covers the buckets beyond the closest one with a
record if and only if the two closest buckets both have one. -/
theorem refreshBuckets_range (chance : Chance) (horigin : self.buckets.origin = self.record)
    (hboot : self.onBootstrap = true) (hempty : self.refreshTargets = ∅) :
    self.RefreshesBeyond chance ↔ self.buckets.distances[0].records ≠ [] ∧ self.buckets.distances[1].records ≠ [] := by
  constructor
  · intro h
    have hzero : self.buckets.distances[0].records ≠ [] := fun hnil =>
      not_refreshesBeyond_zero chance horigin hboot hempty hnil h
    exact ⟨hzero, fun hnil => not_refreshesBeyond_one chance horigin hboot hempty hzero hnil h⟩
  · intro ⟨hzero, hone⟩
    rcases refreshBuckets_refreshes chance horigin hboot hempty with ⟨start, self', es, hstart, heq, hrange⟩ | ⟨hnot, _⟩
    · have hstart_one : start = 1 :=
        hstart.unique ⟨Nat.le_refl _, by decide, hone, fun j hj hle => absurd hle (Nat.not_le.mpr hj)⟩
      refine ⟨self', es, heq, fun closest hclosest index => ?_⟩
      rw [hrange, hclosest.unique (isClosest_zero hzero), hstart_one]
      omega
    · exact absurd ⟨1, by decide, Nat.le_refl _, hone⟩ hnot

end Peer

end

/-- A peer in a bootstrap with these buckets. -/
def bootstrapping (buckets : Buckets UInt8 UInt8) : Peer UInt8 UInt8 UInt8 := { Peer.new buckets with onBootstrap := true }

/-- A record at this distance from `peerOf 0`. -/
def recordAt (d : U256) : PeerRecord UInt8 UInt8 := ⟨distanceFrom (peerOf 0).id d, 1, 1⟩

theorem distance_recordAt (d : U256) : distance (peerOf 0).id (recordAt d).id = d := distance_distanceFrom _ d

theorem recordAt_id_ne {d : U256} (h : d ≠ 0) : (recordAt d).id ≠ (peerOf 0).id := by
  intro heq
  have hd := distance_recordAt d
  rw [heq, distance, BitVec.xor_self] at hd
  exact h hd.symm

theorem refreshBuckets_range_one : ∃ buckets : Buckets UInt8 UInt8,
    ((Buckets.new (peerOf 0)).insert (recordAt 1) : Outcome Empty (Fail UInt8 UInt8) _) = .ok buckets [] ∧
      ((bootstrapping buckets).RefreshesBeyond Chance.least ↔
        buckets.distances[0].records ≠ [] ∧ buckets.distances[1].records ≠ []) := by
  obtain ⟨buckets, heq, _⟩ := Buckets.insert_wf (E := Empty) (Buckets.new_wf (peerOf 0)) (recordAt_id_ne (d := 1) (by decide))
  have horigin : (bootstrapping buckets).buckets.origin = (bootstrapping buckets).record := rfl
  exact ⟨buckets, heq, Peer.refreshBuckets_range Chance.least horigin rfl rfl⟩

/-- With one known peer, in bucket 1, that bucket is refreshed as well. -/
theorem refreshBuckets_range_fails : ∃ buckets : Buckets UInt8 UInt8,
    ((Buckets.new (peerOf 0)).insert (recordAt 2) : Outcome Empty (Fail UInt8 UInt8) _) = .ok buckets [] ∧
      ¬ (bootstrapping buckets).RefreshesBeyond Chance.least := by
  have hid : (recordAt 2).id ≠ (Buckets.new (peerOf 0)).origin.id := recordAt_id_ne (by decide)
  obtain ⟨index, hindex, htop, heq⟩ := Buckets.insert_eq (E := Empty) hid
  rw [show (Buckets.new (peerOf 0)).origin = peerOf 0 from rfl, distance_recordAt] at htop
  refine ⟨_, heq, Peer.not_refreshesBeyond_zero Chance.least rfl rfl rfl ?_⟩
  have hne : index ≠ 0 := by
    intro hzero
    subst hzero
    exact absurd htop.set (by decide)
  have hget : ((Buckets.new (peerOf 0)).set index
      (Buckets.Bucket.inserted (Buckets.new (peerOf 0)).distances[index] (recordAt 2))).distances[0] =
      (Buckets.new (peerOf 0)).distances[0] := Vector.getElem_setIfInBounds_ne (by decide) hne
  change ((Buckets.new (peerOf 0)).set index _).distances[0].records = []
  rw [hget, Buckets.new, Vector.getElem_replicate]

end Neatworks.Kademlia
