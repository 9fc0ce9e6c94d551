import Neatworks.KademliaMoves

/-!
# Random distances

`rand_distance` draws the bytes below the one that holds the bit of the index,
and this byte from a range that may end at 256. Whatever it draws, the highest
bit is the one of the index, so the target at that distance is in that bucket.
-/

namespace Neatworks.Kademlia

open Outcome XorOrder

/-- What `fill_bytes` and `gen_range(lower..upper)` give. -/
structure RandDraw (index : Nat) where
  filled : List UInt8
  value : Nat
  length : filled.length = index / 8
  lower : 2 ^ (index % 8) ≤ value
  upper : value < 2 ^ (index % 8 + 1)

namespace RandDraw

section
variable {index : Nat}

def distance (draw : RandDraw index) : U256 :=
  BitVec.ofNat 256 (leNat (draw.filled ++ UInt8.ofNat draw.value :: List.replicate (31 - index / 8) 0))

/-- The bytes from which `randDistance` has this draw. -/
def bytes (h : index < 256) (draw : RandDraw index) : Digest where
  toArray := (draw.filled ++ UInt8.ofNat (draw.value - 2 ^ (index % 8)) :: List.replicate (31 - index / 8) 0).toArray
  size_toArray := by
    have hlength := draw.length
    simp only [List.size_toArray, List.length_append, List.length_cons, List.length_replicate]
    omega

theorem randDistance_bytes (h : index < 256) (draw : RandDraw index) : randDistance index (draw.bytes h) = draw.distance := by
  have hlist : (draw.bytes h).toList =
      draw.filled ++ UInt8.ofNat (draw.value - 2 ^ (index % 8)) :: List.replicate (31 - index / 8) 0 := rfl
  have hlength := draw.length
  have hlower := draw.lower
  have hupper := draw.upper
  rw [Nat.pow_succ] at hupper
  have hbound : 2 ^ (index % 8) ≤ 2 ^ 7 := Nat.pow_le_pow_right (by decide) (by omega)
  have hdrawn : (UInt8.ofNat (draw.value - 2 ^ (index % 8))).toNat = draw.value - 2 ^ (index % 8) :=
    UInt8.toNat_ofNat_of_lt' (by change _ < 256; omega)
  have hmod : (draw.value - 2 ^ (index % 8)) % 2 ^ (index % 8) = draw.value - 2 ^ (index % 8) :=
    Nat.mod_eq_of_lt (by omega)
  have hbyte : 2 ^ (index % 8) + (draw.value - 2 ^ (index % 8)) % 2 ^ (index % 8) = draw.value := by
    rw [hmod, Nat.add_sub_of_le hlower]
  have hget : (draw.filled ++ UInt8.ofNat (draw.value - 2 ^ (index % 8)) :: List.replicate (31 - index / 8) 0).getD (index / 8) 0 =
      UInt8.ofNat (draw.value - 2 ^ (index % 8)) := by
    rw [← hlength]
    simp
  have htake : (draw.filled ++ UInt8.ofNat (draw.value - 2 ^ (index % 8)) :: List.replicate (31 - index / 8) 0).take (index / 8) =
      draw.filled := List.take_left' hlength
  unfold randDistance distance
  simp only [hlist, hget, htake, hdrawn, hbyte]

theorem top (h : index < 256) (draw : RandDraw index) : Top draw.distance.toNat index := by
  rw [← draw.randDistance_bytes h]
  exact Peer.randDistance_top h _

end

end RandDraw

/-! ## The refresh -/

section
variable {K A σ : Type}

namespace Peer

/-- No call fails but for the scan that finds no record. -/
theorem refreshBuckets_post {self : Peer K A σ} (chance : Chance) (horigin : self.buckets.origin = self.record) :
    (self.refreshBuckets chance).Post (fun _ _ => True) fun fail => fail = .panic .index := by
  by_cases hboot : self.onBootstrap = true
  · rcases refreshBuckets_start chance horigin hboot with ⟨start, targets, target, es, _, heq, _⟩ | ⟨_, heq⟩
    · rw [heq]
      trivial
    · rw [heq]
      rfl
  · have hall : ∀ i ∈ List.range' 0 256, i < 256 := fun i hi => by
      rw [List.mem_range'_1] at hi
      omega
    obtain ⟨targets, heq, _⟩ := chooseTargets_eq chance hall horigin
    unfold refreshBuckets
    rw [if_neg hboot]
    simp only [pure_bind, heq, ok_bind, refreshNext]
    cases chance.first targets <;> trivial

end Peer

section
variable [DigestHash K] [DigestHash A] [DecidableEq K] [DecidableEq A] {E : Type} (crypto : PeerCrypto K σ)

/-- Whatever is drawn for a bucket, the target at this distance is in the bucket,
and so the assertion of `refresh_buckets` holds. -/
theorem distance_laws (peerId target : PeerId) (d : U256) {i : Nat} (hi : i < 256) (draw : RandDraw i) :
    distance peerId (distanceFrom peerId d) = d ∧ distanceFrom peerId (distance peerId target) = target ∧
      Top draw.distance.toNat i ∧
      (∀ buckets : Buckets K A, buckets.origin.id = peerId →
        (buckets.index (distanceFrom peerId draw.distance) : Outcome E (Fail K A) Nat) = pure i) ∧
      (∀ node : Node K A σ, (machine crypto).Reach Machine.always node → node.peer.buckets.origin = node.peer.record) ∧
      ∀ self : Peer K A σ, self.buckets.origin = self.record → ∀ chance,
        (self.refreshBuckets chance).Post (fun _ _ => True) fun fail => fail ≠ .panic .assert := by
  refine ⟨distance_distanceFrom peerId d, distanceFrom_distance peerId target, draw.top hi, fun buckets hid => ?_,
    fun node hreach => (reach_sound hreach).origin, fun self horigin chance => ?_⟩
  · subst hid
    exact Buckets.index_distanceFrom (draw.top hi)
  · have hpost := Peer.refreshBuckets_post chance horigin
    cases hrefresh : self.refreshBuckets chance with
    | ok self' es => trivial
    | fail fail es =>
      rw [hrefresh] at hpost
      intro hassert
      cases hpost.symm.trans hassert

end

end

/-- The draw of the byte of bucket 7 whose range ends at 256. -/
def highestDraw : RandDraw 7 := ⟨[], 255, rfl, by decide, by decide⟩

theorem distance_laws_highest : Top highestDraw.distance.toNat 7 ∧
    ((Buckets.new (peerOf 0)).index (distanceFrom (peerOf 0).id highestDraw.distance) : Outcome Empty (Fail UInt8 UInt8) Nat) =
      pure 7 := by
  have hlaws := distance_laws (A := UInt8) (E := Empty) (cryptoOf 1) (peerOf 0).id (peerOf 1).id 1 (by decide) highestDraw
  exact ⟨hlaws.2.2.1, hlaws.2.2.2.1 (Buckets.new (peerOf 0)) rfl⟩

end Neatworks.Kademlia
