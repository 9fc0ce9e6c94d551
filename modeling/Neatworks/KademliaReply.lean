import Mathlib.Data.List.Pairwise
import Neatworks.KademliaSpec

/-!
# What a reply does

The records of a reply are merged into those of its query, unless two of them
differ and have one id. What follows on the verdict depends on the stage of the
bootstrap.
-/

namespace Neatworks.Kademlia

open Outcome XorOrder

section
variable {K A σ : Type}

/-- In increasing distance, no two at the same. -/
def Sorted (target : Target) (records : List (PeerRecord K A)) : Prop :=
  records.Pairwise fun a b => distance a.id target < distance b.id target

/-- Records of one id are the same. -/
def Agree (records : List (PeerRecord K A)) : Prop := ∀ a ∈ records, ∀ b ∈ records, a.id = b.id → a = b

theorem Sorted.agree {target : Target} {records : List (PeerRecord K A)} (h : Sorted target records) : Agree records := by
  have hne : records.Pairwise fun a b => a.id = b.id → a = b := h.imp fun hlt heq => absurd hlt (by
    rw [heq]
    exact BitVec.lt_irrefl _)
  have hsymm : Std.Symm fun a b : PeerRecord K A => a.id = b.id → a = b := ⟨fun _ _ hab heq => (hab heq.symm).symm⟩
  exact fun a ha b hb => hne.forall_of_forall (fun _ _ _ => rfl) ha hb

theorem Agree.mono {records records' : List (PeerRecord K A)} (h : Agree records) (hsub : ∀ record ∈ records', record ∈ records) :
    Agree records' := fun a ha b hb => h a (hsub a ha) b (hsub b hb)

/-- `merged` is the records of both lists, in increasing distance. -/
structure Merges (target : Target) (closest records merged : List (PeerRecord K A)) : Prop where
  sorted : Sorted target merged
  mem : ∀ record, record ∈ merged ↔ record ∈ closest ∨ record ∈ records

theorem Merges.unique {target : Target} {closest records merged merged' : List (PeerRecord K A)}
    (h : Merges target closest records merged) (h' : Merges target closest records merged') : merged = merged' := by
  have hasymm : Std.Asymm fun a b : PeerRecord K A => distance a.id target < distance b.id target :=
    ⟨fun _ _ => BitVec.lt_asymm⟩
  have hnodup : ∀ {records : List (PeerRecord K A)}, Sorted target records → records.Nodup := fun hsorted =>
    hsorted.imp fun hlt heq => absurd hlt (by
      rw [heq]
      exact BitVec.lt_irrefl _)
  have hperm : merged.Perm merged' := (List.perm_ext_iff_of_nodup (hnodup h.sorted) (hnodup h'.sorted)).mpr fun record =>
    (h.mem record).trans (h'.mem record).symm
  exact hperm.eq_of_pairwise (fun a b _ _ hab hba => absurd hab (BitVec.lt_asymm hba)) h.sorted h'.sorted

namespace Buckets

variable {E : Type} {self : Buckets K A} {record : PeerRecord K A}

/-- A bucket other than the first has records. -/
def Beyond (self : Buckets K A) : Prop := ∃ index, ∃ h : index < 256, 1 ≤ index ∧ self.distances[index].records ≠ []

/-- The first index from `first` on with a record. -/
structure FirstFrom (buckets : Buckets K A) (first start : Nat) : Prop where
  le : first ≤ start
  lt : start < 256
  records : buckets.distances[start].records ≠ []
  before : ∀ j, (hj : j < start) → first ≤ j → buckets.distances[j].records = []

theorem top_beyond {d index : Nat} (h : Top d index) : 1 ≤ index ↔ 1 < d := by
  constructor
  · intro hle
    have hge : 2 ^ index ≤ d := Nat.ge_two_pow_of_testBit h.set
    have hpow : 2 ^ 1 ≤ 2 ^ index := Nat.pow_le_pow_right (by decide) hle
    omega
  · intro hlt
    by_contra hzero
    obtain rfl : index = 0 := by omega
    have : d < 2 ^ 1 := Nat.lt_pow_two_of_testBit d fun j hj => h.clear j hj
    omega

theorem inserted_ne_nil (bucket : Bucket K A) (record : PeerRecord K A) : (Bucket.inserted bucket record).records ≠ [] := by
  unfold Bucket.inserted
  by_cases hlt : (without bucket.records record.id).length < bucketSize
  · simp [hlt]
  · simp only [hlt, if_false]
    intro hnil
    rw [hnil] at hlt
    exact hlt (Nat.zero_lt_succ 19)

/-- A table that has taken a record. -/
structure Takes (s : Buckets K A) (record : PeerRecord K A) (s' : Buckets K A) : Prop where
  origin : s'.origin = s.origin
  wf : s'.Wf
  beyond : s'.Beyond ↔ 1 < (distance s.origin.id record.id).toNat ∨ s.Beyond

theorem insert_takes (record : PeerRecord K A) (h : self.Wf) (hid : record.id ≠ self.origin.id) :
    ∃ buckets, (self.insert record : Outcome E (Fail K A) _) = .ok buckets [] ∧ self.Takes record buckets := by
  obtain ⟨index, hindex, htop, heq⟩ := insert_eq (E := E) hid
  refine ⟨_, heq, rfl, set_wf h (inserted_wf htop (h index hindex)), ?_⟩
  have hget : ∀ i, (hi : i < 256) → (self.set index (Bucket.inserted self.distances[index] record)).distances[i] =
      if index = i then Bucket.inserted self.distances[index] record else self.distances[i] :=
    fun i hi => Vector.getElem_setIfInBounds hi
  rw [← top_beyond htop]
  constructor
  · intro ⟨i, hi, hle, hne⟩
    by_cases heq : index = i
    · exact Or.inl (by rw [heq]; exact hle)
    · rw [hget i hi, if_neg heq] at hne
      exact Or.inr ⟨i, hi, hle, hne⟩
  · intro hbeyond
    rcases hbeyond with hle | ⟨i, hi, hle, hne⟩
    · refine ⟨index, hindex, hle, ?_⟩
      rw [hget index hindex, if_pos rfl]
      exact inserted_ne_nil _ _
    · refine ⟨i, hi, hle, ?_⟩
      rw [hget i hi]
      by_cases heq : index = i
      · rw [if_pos heq]
        exact inserted_ne_nil _ _
      · rw [if_neg heq]
        exact hne

end Buckets

namespace Peer

/-! ## The records of a reply -/

section
variable {target : Target}

theorem search_split {records : List (PeerRecord K A)} (h : Sorted target records) (id : PeerId) :
    (∃ known ∈ records, known.id = id ∧ (search target records id).2 = some known) ∨
    ∃ before after, records = before ++ after ∧ search target records id = (before.length, none) ∧
      (∀ record ∈ before, distance record.id target < distance id target) ∧
      ∀ record ∈ after, distance id target < distance record.id target := by
  induction records with
  | nil => exact Or.inr ⟨[], [], rfl, rfl, by simp, by simp⟩
  | cons record records ih =>
    obtain ⟨hfirst, hrest⟩ := List.pairwise_cons.mp h
    by_cases hle : distance id target ≤ distance record.id target
    · have hsearch : search target (record :: records) id =
          (0, (some record).filter fun record => distance record.id target = distance id target) := by
        simp [search, List.findIdx_cons, hle]
      by_cases heq : distance record.id target = distance id target
      · exact Or.inl ⟨record, List.mem_cons_self, distance_inj heq, by simp [hsearch, heq]⟩
      · have hlt : distance id target < distance record.id target :=
          BitVec.lt_of_le_ne hle (Ne.symm heq)
        refine Or.inr ⟨[], record :: records, rfl, by simp [hsearch, heq], by simp, fun r hr => ?_⟩
        rcases List.mem_cons.mp hr with rfl | hr
        · exact hlt
        · exact BitVec.lt_trans hlt (hfirst r hr)
    · have hsearch : search target (record :: records) id =
          ((search target records id).1 + 1, (search target records id).2) := by
        simp [search, List.findIdx_cons, hle]
      rcases ih hrest with ⟨known, hknown, hid, hsome⟩ | ⟨before, after, hrecords, hnone, hbefore, hafter⟩
      · exact Or.inl ⟨known, List.mem_cons_of_mem _ hknown, hid, by rw [hsearch, hsome]⟩
      · refine Or.inr ⟨record :: before, after, by rw [hrecords]; rfl, by rw [hsearch, hnone]; rfl, fun r hr => ?_, hafter⟩
        rcases List.mem_cons.mp hr with rfl | hr
        · exact BitVec.not_le.mp hle
        · exact hbefore r hr

theorem insertIdx_append_length (before after : List (PeerRecord K A)) (record : PeerRecord K A) :
    (before ++ after).insertIdx before.length record = before ++ record :: after := by
  induction before with
  | nil => rfl
  | cons r before ih => simpa using ih

variable [DecidableEq K] [DecidableEq A]

theorem addRecords_known {closest records : List (PeerRecord K A)} {record known : PeerRecord K A}
    (h : (search target records record.id).2 = some known) :
    (addRecords target (record :: closest) records : Handler K A σ _) =
      if record = known then addRecords target closest records else .fail (.bail "non-distinct distance") [] := by
  rw [addRecords]
  split
  · next hsearch =>
    rw [hsearch] at h
    cases h
    by_cases heq : record = known
    · simp only [Outcome.assert, if_pos heq, ok_bind]
    · simp only [Outcome.assert, if_neg heq]
      rfl
  · next hsearch =>
    rw [hsearch] at h
    cases h

theorem addRecords_new {closest before after : List (PeerRecord K A)} {record : PeerRecord K A}
    (h : search target (before ++ after) record.id = (before.length, none)) :
    (addRecords target (record :: closest) (before ++ after) : Handler K A σ _) =
      addRecords target closest (before ++ record :: after) := by
  rw [addRecords, h]
  dsimp only
  rw [insertIdx_append_length]

theorem addRecords_eq (closest : List (PeerRecord K A)) {records : List (PeerRecord K A)} (h : Sorted target records) :
    (Agree (closest ++ records) → ∃ merged, Merges target closest records merged ∧
      (addRecords target closest records : Handler K A σ _) = .ok merged []) ∧
    (¬ Agree (closest ++ records) →
      (addRecords target closest records : Handler K A σ _) = .fail (.bail "non-distinct distance") []) := by
  induction closest generalizing records with
  | nil => exact ⟨fun _ => ⟨records, ⟨h, by simp⟩, rfl⟩, fun hnot => absurd h.agree hnot⟩
  | cons record closest ih =>
    -- The record is known, or takes its place; what is known is the same after either.
    have hstep : ∀ {records' : List (PeerRecord K A)}, Sorted target records' →
        (∀ r, r ∈ record :: closest ++ records ↔ r ∈ closest ++ records') →
        (addRecords target (record :: closest) records : Handler K A σ _) = addRecords target closest records' →
        (Agree (record :: closest ++ records) → ∃ merged, Merges target (record :: closest) records merged ∧
          (addRecords target (record :: closest) records : Handler K A σ _) = .ok merged []) ∧
        (¬ Agree (record :: closest ++ records) →
          (addRecords target (record :: closest) records : Handler K A σ _) = .fail (.bail "non-distinct distance") []) := by
      intro records' hsorted hmem hadd
      rw [hadd]
      refine ⟨fun hagree => ?_, fun hnot => (ih hsorted).2 fun hagree => hnot (hagree.mono fun r => (hmem r).mp)⟩
      obtain ⟨merged, hmerges, hok⟩ := (ih hsorted).1 (hagree.mono fun r => (hmem r).mpr)
      refine ⟨merged, ⟨hmerges.sorted, fun r => ?_⟩, hok⟩
      rw [hmerges.mem, ← List.mem_append, ← hmem, List.mem_append]
    rcases search_split h record.id with ⟨known, hknown, hid, hsome⟩ | ⟨before, after, rfl, hnone, hbefore, hafter⟩
    · by_cases heq : record = known
      · refine hstep h (fun r => ?_) (by rw [addRecords_known hsome, if_pos heq])
        subst heq
        simp only [List.cons_append, List.mem_cons, List.mem_append]
        refine ⟨fun hr => ?_, Or.inr⟩
        rcases hr with rfl | hr
        · exact Or.inr hknown
        · exact hr
      · rw [addRecords_known hsome, if_neg heq]
        exact ⟨fun hagree => absurd (hagree record (by simp) known (by simp [hknown]) hid.symm) heq, fun _ => rfl⟩
    · refine hstep ?_ (fun r => ?_) (addRecords_new hnone)
      · obtain ⟨hpre, hpost, hacross⟩ := List.pairwise_append.mp h
        refine List.pairwise_append.mpr ⟨hpre, List.pairwise_cons.mpr ⟨hafter, hpost⟩, fun a ha b hb => ?_⟩
        rcases List.mem_cons.mp hb with rfl | hb
        · exact hbefore a ha
        · exact hacross a ha b hb
      · simp only [List.cons_append, List.mem_cons, List.mem_append]
        tauto

end

/-! ## The targets of a refresh -/

theorem randDistance_top {index : Nat} (h : index < 256) (bytes : Digest) : Top (randDistance index bytes).toNat index := by
  set quot := index / 8 with hquot
  set rem := index % 8 with hrem
  set byte := 2 ^ rem + (bytes.toList.getD quot 0).toNat % 2 ^ rem with hbyte
  have hindex : index = 8 * quot + rem := (Nat.div_add_mod index 8).symm
  have hlower : 2 ^ rem ≤ byte := Nat.le_add_right _ _
  have hupper : byte < 2 ^ (rem + 1) := by
    have := Nat.mod_lt (bytes.toList.getD quot 0).toNat (Nat.two_pow_pos rem)
    rw [Nat.pow_succ]
    omega
  have hbyte256 : byte < 256 := by
    have hle : 2 ^ (rem + 1) ≤ 2 ^ 8 := Nat.pow_le_pow_right (by decide) (by omega)
    omega
  have hlength : (bytes.toList.take quot).length = quot := by
    rw [List.length_take, Vector.length_toList]
    omega
  have hnat : leNat (bytes.toList.take quot ++ UInt8.ofNat byte :: List.replicate (31 - quot) 0) =
      leNat (bytes.toList.take quot) + 256 ^ quot * byte := by
    rw [leNat_append, hlength, leNat, leNat_replicate_zero, UInt8.toNat_ofNat_of_lt' hbyte256]
    simp
  have hlow : leNat (bytes.toList.take quot) < 256 ^ quot := by
    have hlt := leNat_lt (bytes.toList.take quot)
    rwa [hlength] at hlt
  have hpow : 256 ^ quot = 2 ^ (8 * quot) := (Nat.pow_mul 2 8 quot).symm
  have hge : 2 ^ index ≤ leNat (bytes.toList.take quot) + 256 ^ quot * byte := by
    rw [hindex, Nat.pow_add, ← hpow]
    exact Nat.le_add_left_of_le (Nat.mul_le_mul_left _ hlower)
  have hlt : leNat (bytes.toList.take quot) + 256 ^ quot * byte < 2 ^ (index + 1) := by
    have hsucc : 256 ^ quot * (byte + 1) ≤ 256 ^ quot * 2 ^ (rem + 1) := Nat.mul_le_mul_left _ hupper
    rw [hindex, Nat.add_assoc, Nat.pow_add, ← hpow]
    rw [Nat.mul_succ] at hsucc
    omega
  have hbound : (2 : Nat) ^ (index + 1) ≤ 2 ^ 256 := Nat.pow_le_pow_right (by decide) h
  have htoNat : (randDistance index bytes).toNat = leNat (bytes.toList.take quot) + 256 ^ quot * byte := by
    rw [← hnat]
    exact Nat.mod_eq_of_lt (by rw [hnat]; omega)
  rw [htoNat]
  have hne : leNat (bytes.toList.take quot) + 256 ^ quot * byte ≠ 0 := fun hzero => by
    rw [hzero] at hge
    exact absurd hge (Nat.not_le.mpr (Nat.two_pow_pos index))
  have hlog : (leNat (bytes.toList.take quot) + 256 ^ quot * byte).log2 = index := (Nat.log2_eq_iff hne).mpr ⟨hge, hlt⟩
  have htop := top_log2 hne
  rwa [hlog] at htop

variable {self : Peer K A σ}

/-- The target that `refresh_buckets` takes for a bucket. -/
def refreshTarget (self : Peer K A σ) (chance : Chance) (i : Nat) : Target :=
  distanceFrom self.record.id (randDistance i (chance.bytes i))

theorem index_refreshTarget (chance : Chance) {i : Nat} (hi : i < 256) (horigin : self.buckets.origin = self.record) :
    (self.buckets.index (self.refreshTarget chance i) : Handler K A σ Nat) = pure i := by
  unfold refreshTarget
  rw [← horigin]
  exact Buckets.index_distanceFrom (randDistance_top hi (chance.bytes i))

theorem chooseTargets_eq (chance : Chance) {indices : List Nat} (h : ∀ i ∈ indices, i < 256) {self : Peer K A σ}
    (horigin : self.buckets.origin = self.record) :
    ∃ targets, chooseTargets chance indices self = .ok { self with refreshTargets := targets } [] ∧
      ∀ t, t ∈ targets ↔ t ∈ self.refreshTargets ∨ ∃ i ∈ indices, t = self.refreshTarget chance i := by
  induction indices generalizing self with
  | nil => exact ⟨self.refreshTargets, rfl, by simp⟩
  | cons i indices ih =>
    obtain ⟨hi, hindices⟩ := List.forall_mem_cons.mp h
    have hindex := index_refreshTarget chance hi horigin
    obtain ⟨targets, heq, hmem⟩ := @ih hindices
      { self with refreshTargets := insert (self.refreshTarget chance i) self.refreshTargets } horigin
    refine ⟨targets, ?_, fun t => ?_⟩
    · rw [refreshTarget] at hindex
      rw [chooseTargets]
      simp only [hindex, pure_bind, Outcome.assert, if_pos, ok_bind]
      exact heq
    · rw [hmem, Finset.mem_insert, List.exists_mem_cons_iff, or_assoc, or_left_comm]
      rfl

theorem startIndex_eq (self : Peer K A σ) {first n : Nat} (h : first + n = 256) :
    (∃ start, self.buckets.FirstFrom first start ∧ self.startIndex (List.range' first n) = .ok start []) ∨
      (∀ j, (hj : j < 256) → first ≤ j → self.buckets.distances[j].records = []) ∧
        self.startIndex (List.range' first n) = .fail (.panic .index) [] := by
  induction n generalizing first with
  | zero => exact Or.inr ⟨fun j hj hle => absurd hj (by omega), rfl⟩
  | succ n ih =>
    have hfirst : first < 256 := by omega
    rw [List.range'_succ, startIndex]
    simp only [Buckets.bucket_eq hfirst, pure_bind]
    by_cases hempty : self.buckets.distances[first].records = []
    · rw [if_pos hempty]
      have hrest : first + 1 + n = 256 := by omega
      rcases ih hrest with ⟨start, hstart, heq⟩ | ⟨hnone, heq⟩
      · refine Or.inl ⟨start, ⟨by have := hstart.le; omega, hstart.lt, hstart.records, fun j hj hle => ?_⟩, heq⟩
        rcases Nat.eq_or_lt_of_le hle with rfl | hlt
        · exact hempty
        · exact hstart.before j hj hlt
      · refine Or.inr ⟨fun j hj hle => ?_, heq⟩
        rcases Nat.eq_or_lt_of_le hle with rfl | hlt
        · exact hempty
        · exact hnone j hj hlt
    · rw [if_neg hempty]
      exact Or.inl ⟨first, ⟨Nat.le_refl _, hfirst, hempty, fun j hj hle => absurd hj (by omega)⟩, rfl⟩

/-- The first index from 1 on with a record is where the refresh starts. -/
theorem refreshBuckets_start (chance : Chance) (horigin : self.buckets.origin = self.record) (hboot : self.onBootstrap = true) :
    (∃ start targets target es, self.buckets.FirstFrom 1 start ∧
      self.refreshBuckets chance = .ok { self with refreshTargets := targets } es ∧
      (∀ t, t ∈ targets ↔ t ∈ self.refreshTargets ∨ ∃ i, start ≤ i ∧ i < 256 ∧ t = self.refreshTarget chance i) ∧
      target ∈ targets ∧ marks es = [.refresh targets, .submit (.signFindPeer ⟨target, 20, self.record⟩)]) ∨
    ¬ self.buckets.Beyond ∧ self.refreshBuckets chance = .fail (.panic .index) [] := by
  unfold refreshBuckets
  rw [if_pos hboot]
  have hall : 1 + 255 = 256 := rfl
  rcases startIndex_eq self hall with ⟨start, hstart, heq⟩ | ⟨hnone, heq⟩
  · have hlt := hstart.lt
    have hrange : ∀ i, i ∈ List.range' start (256 - start) ↔ start ≤ i ∧ i < 256 := fun i => by
      rw [List.mem_range'_1]
      omega
    obtain ⟨targets, hchoose, hmem⟩ := chooseTargets_eq chance (fun i hi => ((hrange i).mp hi).2) horigin
    have hmem' : ∀ t, t ∈ targets ↔ t ∈ self.refreshTargets ∨ ∃ i, start ≤ i ∧ i < 256 ∧ t = self.refreshTarget chance i := by
      intro t
      simp only [hmem, hrange, and_assoc]
    have hne : targets ≠ ∅ :=
      Finset.ne_empty_of_mem ((hmem' _).mpr (Or.inr ⟨start, Nat.le_refl _, hlt, rfl⟩))
    cases hfirst : chance.first targets with
    | none => exact absurd (chance.first_none _ hfirst) hne
    | some target =>
      refine Or.inl ⟨start, targets, target, [.refresh targets, .submit (.signFindPeer ⟨target, 20, self.record⟩)], hstart, ?_,
        hmem', chance.first_mem _ _ hfirst, rfl⟩
      simp only [heq, ok_bind, hchoose, refreshNext, hfirst]
      rfl
  · refine Or.inr ⟨fun ⟨j, hj, hle, hrecords⟩ => hrecords (hnone j hj hle), ?_⟩
    rw [heq]
    rfl

theorem refreshBuckets_eq (chance : Chance) (horigin : self.buckets.origin = self.record) (hboot : self.onBootstrap = true) :
    (self.buckets.Beyond → ∃ targets target es, self.refreshBuckets chance = .ok { self with refreshTargets := targets } es ∧
      target ∈ targets ∧ marks es = [.refresh targets, .submit (.signFindPeer ⟨target, 20, self.record⟩)]) ∧
    (¬ self.buckets.Beyond → self.refreshBuckets chance = .fail (.panic .index) []) := by
  rcases refreshBuckets_start chance horigin hboot with ⟨start, targets, target, es, hstart, heq, _, htarget, hmarks⟩ | ⟨hnot, heq⟩
  · have hbeyond : self.buckets.Beyond := ⟨start, hstart.lt, hstart.le, hstart.records⟩
    exact ⟨fun _ => ⟨targets, target, es, heq, htarget, hmarks⟩, fun hnot => absurd hbeyond hnot⟩
  · exact ⟨fun hbeyond => absurd hbeyond hnot, fun _ => heq⟩

/-! ## What follows on a verdict -/

/-- The peer and the marks that follow on the status of a query. -/
inductive Concludes (s : Peer K A σ) (target : Target) (closest : List (PeerRecord K A)) : QueryStatus → Peer K A σ → List (Effect K A σ) → Prop
  | upcall {status : QueryStatus} (hboot : s.onBootstrap = false) (h : target ∉ s.refreshTargets) :
    Concludes s target closest status s [.upcall ⟨status, target, closest⟩]
  | refreshed {status : QueryStatus} {targets : Finset Target} (hboot : s.onBootstrap = false)
    (h : target ∈ s.refreshTargets) (hsub : targets ⊆ s.refreshTargets) :
    Concludes s target closest status { s with refreshTargets := targets } []
  | going (hboot : s.onBootstrap = true) : Concludes s target closest .progress s []
  | first {status : QueryStatus} {targets : Finset Target} {t : Target} (hboot : s.onBootstrap = true)
    (hstatus : status ≠ .progress) (hempty : s.refreshTargets = ∅) (ht : t ∈ targets) :
    Concludes s target closest status { s with refreshTargets := targets }
      [.refresh targets, .submit (.signFindPeer ⟨t, 20, s.record⟩)]
  | next {status : QueryStatus} {t : Target} (hboot : s.onBootstrap = true) (hstatus : status ≠ .progress)
    (hmem : target ∈ s.refreshTargets) (ht : t ∈ s.refreshTargets.erase target) :
    Concludes s target closest status { s with refreshTargets := s.refreshTargets.erase target }
      [.submit (.signFindPeer ⟨t, 20, s.record⟩)]
  | last {status : QueryStatus} (hboot : s.onBootstrap = true) (hstatus : status ≠ .progress)
    (hmem : target ∈ s.refreshTargets) (hlast : s.refreshTargets.erase target = ∅) :
    Concludes s target closest status { s with refreshTargets := ∅, onBootstrap := false } [.onBootstrap]

/-- The bootstrap can go on from the query that has ended. -/
structure Continues (s : Peer K A σ) (target : Target) : Prop where
  beyond : s.refreshTargets = ∅ → s.buckets.Beyond
  mem : s.refreshTargets ≠ ∅ → target ∈ s.refreshTargets

theorem conclude_eq (self : Peer K A σ) (chance : Chance) (target : Target) (status : QueryStatus)
    (closest : List (PeerRecord K A)) (horigin : self.buckets.origin = self.record) :
    ((self.onBootstrap = true → status ≠ .progress → self.Continues target) →
      ∃ self' es, self.conclude chance target status closest = .ok self' es ∧
        self.Concludes target closest status self' (marks es)) ∧
    (¬ (self.onBootstrap = true → status ≠ .progress → self.Continues target) →
      ∃ panic, self.conclude chance target status closest = .fail (.panic panic) [] ∧
        (panic = .assert → self.onBootstrap = true ∧ self.refreshTargets ≠ ∅ ∧ target ∉ self.refreshTargets)) := by
  unfold conclude
  by_cases hboot : self.onBootstrap = false
  · refine ⟨fun _ => ?_, fun hnot => absurd (fun htrue => by simp [hboot] at htrue) hnot⟩
    by_cases hmem : target ∉ self.refreshTargets
    · rw [if_pos hboot, if_pos hmem]
      exact ⟨_, _, rfl, .upcall hboot hmem⟩
    · rw [if_pos hboot, if_neg hmem]
      have hmem := not_not.mp hmem
      by_cases hstatus : status = .progress
      · rw [if_pos hstatus]
        exact ⟨_, _, rfl, .refreshed hboot hmem (Finset.Subset.refl _)⟩
      · rw [if_neg hstatus]
        exact ⟨_, _, rfl, .refreshed hboot hmem (Finset.erase_subset _ _)⟩
  · rw [if_neg hboot]
    have hboot : self.onBootstrap = true := by simpa using hboot
    by_cases hstatus : status = .progress
    · subst hstatus
      rw [if_pos rfl]
      exact ⟨fun _ => ⟨_, _, rfl, .going hboot⟩, fun hnot => absurd (fun _ hne => absurd rfl hne) hnot⟩
    · rw [if_neg hstatus]
      have hcontinues : (self.onBootstrap = true → status ≠ .progress → self.Continues target) ↔ self.Continues target :=
        ⟨fun h => h hboot hstatus, fun h _ _ => h⟩
      rw [hcontinues]
      by_cases hempty : self.refreshTargets = ∅
      · rw [if_pos hempty]
        obtain ⟨hbeyond, hpanic⟩ := refreshBuckets_eq chance horigin hboot
        refine ⟨fun h => ?_, fun hnot => ⟨.index, ?_, fun h => nomatch h⟩⟩
        · obtain ⟨targets, t, es, heq, ht, hmarks⟩ := hbeyond (h.beyond hempty)
          have hne : targets ≠ ∅ := Finset.ne_empty_of_mem ht
          refine ⟨{ self with refreshTargets := targets }, es, ?_, ?_⟩
          · rw [heq]
            exact (ok_bind_ok (if_neg hne)).trans (by rw [List.append_nil])
          · rw [hmarks]
            exact .first hboot hstatus hempty ht
        · rw [hpanic fun hb => hnot ⟨fun _ => hb, fun hne => absurd hempty hne⟩]
          rfl
      · rw [if_neg hempty]
        refine ⟨fun h => ?_, fun hnot => ?_⟩
        · have hmem := h.mem hempty
          simp only [Outcome.assert, if_pos hmem, ok_bind, refreshNext]
          cases hfirst : chance.first (self.refreshTargets.erase target) with
          | some t => exact ⟨_, _, rfl, .next hboot hstatus hmem (chance.first_mem _ _ hfirst)⟩
          | none =>
            have hlast := chance.first_none _ hfirst
            refine ⟨_, [.onBootstrap], ?_, .last hboot hstatus hmem hlast⟩
            simp only [callBootstrap, Outcome.assert, if_pos hboot, ok_bind, hlast]
            rfl
        · have hnotmem : target ∉ self.refreshTargets := fun hmem => hnot ⟨fun h => absurd h hempty, fun _ => hmem⟩
          refine ⟨.assert, ?_, fun _ => ⟨hboot, hempty, hnotmem⟩⟩
          simp only [Outcome.assert, if_neg hnotmem]
          rfl

/-! ## The reply to a query -/

/-- The state of a query that has the reply and the records merged with those of the reply. -/
def QueryState.replied (state : QueryState K A σ) (peerId : PeerId) (merged : List (PeerRecord K A)) : QueryState K A σ :=
  { state with
    contacting := state.contacting.remove peerId
    contacted := insert peerId state.contacted
    records := merged }

/-- The query in this state has come to its end. -/
def QueryState.Ends (state : QueryState K A σ) : Prop :=
  state.findPeer.inner.count ≤ (state.records.takeWhile (·.id ∈ state.contacted)).length ∨
    state.contacting.entries = [] ∧ nextContact state state.contacting = none

theorem Judges.ends {s s' : Peer K A σ} {target : Target} {state state' : QueryState K A σ} {status : QueryStatus}
    (h : s.Judges target state status state' s') : status ≠ .progress ↔ QueryState.Ends state := by
  cases h with
  | converge h => exact ⟨fun _ => Or.inl h, fun _ hstatus => nomatch hstatus⟩
  | halted h hold hnone hnext => exact ⟨fun _ => Or.inr ⟨hold, hnext⟩, fun _ hstatus => nomatch hstatus⟩
  | progress h hsome hnext =>
    refine ⟨fun hne => absurd rfl hne, fun hends => ?_⟩
    rcases hends with hcount | ⟨hold, hnone⟩
    · exact absurd hcount h
    · exact absurd hnone (hnext hold)

theorem Judges.closest {s s' : Peer K A σ} {target : Target} {state state' : QueryState K A σ} {status : QueryStatus}
    (h : s.Judges target state status state' s') : QueryState.closest state' = QueryState.closest state := by
  cases h <;> rfl

/-- The reply is to a query in this state, and comes from a peer that it is contacting. -/
structure Live (s : Peer K A σ) (reply : FindPeerOk K A) (state : QueryState K A σ) : Prop where
  lookup : s.queryStates.lookup reply.target = some state
  contacting : state.contacting.lookup reply.record.id ≠ none

section
variable [DecidableEq K] [DecidableEq A] {chance : Chance} {findPeerOk : Verifiable (FindPeerOk K A) σ}

theorem onVerifiedFindPeerOk_origin (horigin : self.buckets.origin = self.record)
    (hid : findPeerOk.inner.record.id = self.record.id) :
    self.onVerifiedFindPeerOk chance findPeerOk = .fail (.bail "cannot insert origin id") [] := by
  unfold onVerifiedFindPeerOk
  simp only [Buckets.insert_origin (hid.trans (congrArg PeerRecord.id horigin).symm)]
  rfl

theorem onVerifiedFindPeerOk_idle {buckets : Buckets K A}
    (hinsert : (self.buckets.insert findPeerOk.inner.record : Handler K A σ _) = .ok buckets [])
    (h : ∀ state, ¬ self.Live findPeerOk.inner state) :
    self.onVerifiedFindPeerOk chance findPeerOk = .ok { self with buckets := buckets } [] := by
  unfold onVerifiedFindPeerOk
  simp only [hinsert, ok_bind]
  cases hstate : self.queryStates.lookup findPeerOk.inner.target with
  | none => rfl
  | some state =>
    cases htimer : state.contacting.lookup findPeerOk.inner.record.id with
    | none => simp only [htimer]; rfl
    | some timer => exact absurd ⟨hstate, by rw [htimer]; exact Option.some_ne_none _⟩ (h state)

theorem onVerifiedFindPeerOk_live (chance : Chance) {buckets : Buckets K A} {state : QueryState K A σ}
    (hinsert : (self.buckets.insert findPeerOk.inner.record : Handler K A σ _) = .ok buckets [])
    (h : self.Live findPeerOk.inner state) (hsorted : Sorted findPeerOk.inner.target state.records) :
    (¬ Agree (findPeerOk.inner.closest ++ state.records) → ∃ es, self.onVerifiedFindPeerOk chance findPeerOk =
      .fail (.bail "non-distinct distance") es) ∧
    (Agree (findPeerOk.inner.closest ++ state.records) → ∃ merged,
      Merges findPeerOk.inner.target findPeerOk.inner.closest state.records merged ∧
      ∃ status state' self' es, Judges { self with buckets := buckets } findPeerOk.inner.target
          (QueryState.replied state findPeerOk.inner.record.id merged) status state' self' ∧
        marks es = [.verdict findPeerOk.inner.target status state' (QueryState.closest state')] ∧
        self.onVerifiedFindPeerOk chance findPeerOk =
          .ok () es >>= fun _ => self'.conclude chance findPeerOk.inner.target status (QueryState.closest state')) := by
  obtain ⟨timer, htimer⟩ := Option.ne_none_iff_exists'.mp h.contacting
  obtain ⟨hagree, hdiffer⟩ := @addRecords_eq K A σ _ _ _ findPeerOk.inner.closest _ hsorted
  unfold onVerifiedFindPeerOk
  simp only [hinsert, ok_bind, h.lookup, htimer]
  refine ⟨fun hnot => ?_, fun hok => ?_⟩
  · rw [hdiffer hnot]
    exact ⟨_, rfl⟩
  · obtain ⟨merged, hmerges, heq⟩ := hagree hok
    obtain ⟨status, state', self', es, hjudges, hmarks, hadvance⟩ := advance_eq { self with buckets := buckets } chance
      findPeerOk.inner.target (QueryState.replied state findPeerOk.inner.record.id merged)
    have hclosest := hjudges.closest
    rw [← hclosest] at hmarks hadvance
    refine ⟨merged, hmerges, status, state', self', .unsetTimer timer :: es, hjudges, hmarks, ?_⟩
    refine ok_bind_bind ?_
    rw [heq, ok_bind]
    exact hadvance

end

/-! ## The request of another peer -/

section
variable {findPeer : Verifiable (FindPeer K A) σ}

theorem onVerifiedFindPeer_origin (horigin : self.buckets.origin = self.record)
    (hid : findPeer.inner.record.id = self.record.id) :
    self.onVerifiedFindPeer findPeer = .fail (.bail "cannot insert origin id") [] := by
  unfold onVerifiedFindPeer
  simp only [Buckets.insert_origin (hid.trans (congrArg PeerRecord.id horigin).symm)]
  rfl

theorem onVerifiedFindPeer_eq {buckets : Buckets K A} (hwf : buckets.Wf)
    (hinsert : (self.buckets.insert findPeer.inner.record : Handler K A σ _) = .ok buckets []) :
    (self.findPeerOkSeq.toNat + 1 < 2 ^ 32 → ∃ seq dests es, self.onVerifiedFindPeer findPeer =
      .ok { self with buckets := buckets, findPeerOkSeq := seq, findPeerOkDests := dests } es ∧ marks es = []) ∧
    (¬ self.findPeerOkSeq.toNat + 1 < 2 ^ 32 → self.onVerifiedFindPeer findPeer = .fail (.panic .overflow) []) := by
  obtain ⟨closest, hclosest, _⟩ := Buckets.findClosest_closest (E := Effect K A σ) hwf findPeer.inner.target
    findPeer.inner.count
  unfold onVerifiedFindPeer
  simp only [hinsert, ok_bind, Outcome.assert]
  refine ⟨fun hlt => ?_, fun hge => ?_⟩
  · rw [if_pos hlt, ok_bind, hclosest]
    exact ⟨_, _, _, rfl, rfl⟩
  · rw [if_neg hge]
    rfl

end

end Peer

end

end Neatworks.Kademlia
