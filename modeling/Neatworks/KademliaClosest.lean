import Mathlib.Data.List.Perm.Basic
import Neatworks.KademliaTable

/-!
# The closest records

`find_closest` takes the records of the buckets group by group. The groups
come in the order of their distances from the target, so what it has taken is
always the front of all records sorted by distance.
-/

namespace Neatworks.Kademlia

open Outcome XorOrder

section
variable {K A : Type}

/-- `out` is the `count` records of `all` that are closest to `target`, the closest first. -/
structure Closest (target : Target) (all : List (PeerRecord K A)) (count : Nat) (out : List (PeerRecord K A)) : Prop where
  length : out.length = min count all.length
  sorted : out.Pairwise fun a b => distance a.id target < distance b.id target
  subset : ∀ record ∈ out, record ∈ all
  closest : ∀ record ∈ all, record ∉ out → ∀ found ∈ out, distance found.id target < distance record.id target

theorem Closest.of_sorted {target : Target} {all sorted : List (PeerRecord K A)} (hperm : sorted.Perm all)
    (hsorted : sorted.Pairwise fun a b => distance a.id target < distance b.id target) (count : Nat) :
    Closest target all count (sorted.take count) := by
  refine ⟨?_, hsorted.sublist (List.take_sublist _ _), fun record hmem => hperm.subset (List.mem_of_mem_take hmem),
    fun record hmem hnot found hfound => ?_⟩
  · rw [List.length_take, hperm.length_eq]
  · have hrecord : record ∈ sorted.take count ++ sorted.drop count := by
      rw [List.take_append_drop]
      exact hperm.mem_iff.mpr hmem
    have hdrop := (List.mem_append.mp hrecord).resolve_left hnot
    rw [← List.take_append_drop count sorted] at hsorted
    exact (List.pairwise_append.mp hsorted).2.2 found hfound record hdrop

end

namespace Buckets

section
variable {K A E : Type} {self : Buckets K A}

/-- The records that `find_closest` takes at an index. -/
def group (self : Buckets K A) (index : Nat) : List (PeerRecord K A) :=
  (self.distances[index]?.elim [] (·.records)) ++ if index = 0 then [self.origin] else []

theorem group_eq {index : Nat} (h : index < 256) :
    self.group index = self.distances[index].records ++ if index = 0 then [self.origin] else [] := by
  unfold group
  rw [Vector.getElem?_eq_getElem h, Option.elim_some]

theorem collect_eq (self : Buckets K A) (target : Target) (count : ℕ+) {order : List Nat} (horder : ∀ index ∈ order, index < 256)
    {records : List (PeerRecord K A)} (hrecords : records.length ≤ count) :
    (self.collect target count order records : Outcome E (Fail K A) _) =
      pure ((records ++ order.flatMap fun index => sortByDistance target (self.group index)).take count) := by
  induction order generalizing records with
  | nil =>
    rw [collect, List.flatMap_nil, List.append_nil, List.take_of_length_le hrecords]
  | cons index order ih =>
    have hindex := horder index List.mem_cons_self
    have hbound : (records ++ (sortByDistance target (self.group index)).take (count - records.length)).length ≤
        count := by
      rw [List.length_append, List.length_take]
      omega
    unfold collect
    rw [bucket_eq hindex, pure_bind, ← group_eq hindex]
    simp only [Outcome.assert, if_pos hbound, ok_bind, List.flatMap_cons]
    rw [← List.append_assoc, List.take_append]
    split
    · next hfull =>
      have htake : (records ++ sortByDistance target (self.group index)).take count =
          records ++ (sortByDistance target (self.group index)).take (count - records.length) := by
        rw [List.take_append, List.take_of_length_le hrecords]
      have hrest : (count : Nat) - (records ++ sortByDistance target (self.group index)).length = 0 := by
        rw [← htake, List.length_take] at hfull
        omega
      rw [htake, hrest, List.take_zero, List.append_nil]
    · next hnot =>
      -- The group is not cut off.
      have hwhole : (sortByDistance target (self.group index)).take (count - records.length) =
          sortByDistance target (self.group index) := by
        rw [List.length_append, List.length_take] at hnot hbound
        exact List.take_of_length_le (by omega)
      rw [hwhole] at hbound ⊢
      rw [ih (fun i hi => horder i (List.mem_cons_of_mem _ hi)) hbound, List.take_append]

theorem sortByDistance_perm (target : Target) (records : List (PeerRecord K A)) :
    (sortByDistance target records).Perm records := List.perm_insertionSort _ _

theorem sortByDistance_sorted (target : Target) {records : List (PeerRecord K A)}
    (h : (records.map (·.id)).Nodup) :
    (sortByDistance target records).Pairwise fun a b => distance a.id target < distance b.id target := by
  have htotal : Std.Total fun a b : PeerRecord K A => distance a.id target ≤ distance b.id target :=
    ⟨fun a b => BitVec.le_total _ _⟩
  have htrans : IsTrans (PeerRecord K A) fun a b => distance a.id target ≤ distance b.id target :=
    ⟨fun a b c => BitVec.le_trans⟩
  have hle : (sortByDistance target records).Pairwise fun a b => distance a.id target ≤ distance b.id target :=
    List.pairwise_insertionSort ..
  have hnodup : (sortByDistance target records).Pairwise fun a b => a.id ≠ b.id := by
    rw [← List.pairwise_map (R := (· ≠ ·)) (f := fun r : PeerRecord K A => r.id)]
    exact ((sortByDistance_perm target records).map _).nodup_iff.mpr h
  exact (hle.and hnodup).imp fun ⟨hle, hne⟩ =>
    Nat.lt_of_le_of_ne hle fun heq => hne (distance_inj (BitVec.eq_of_toNat_eq heq))

variable (h : self.Wf)

include h in
theorem mem_group {index : Nat} (hindex : index < 256) {record : PeerRecord K A} (hmem : record ∈ self.group index) :
    InGroup (distance self.origin.id record.id).toNat index := by
  rw [group_eq hindex] at hmem
  rcases List.mem_append.mp hmem with hmem | hmem
  · exact Or.inl ((h index hindex).top record (List.mem_append_left _ hmem))
  · split at hmem
    · next hzero =>
      rw [List.mem_singleton.mp hmem]
      exact Or.inr ⟨hzero, by rw [distance, BitVec.xor_self]; rfl⟩
    · cases hmem

include h in
theorem group_nodup {index : Nat} (hindex : index < 256) : ((self.group index).map (·.id)).Nodup := by
  have hbucket := h index hindex
  have hnodup := hbucket.nodup
  rw [List.map_append, List.nodup_append] at hnodup
  rw [group_eq hindex]
  split
  · rw [List.map_append, List.map_singleton]
    refine List.nodup_append.mpr ⟨hnodup.1, List.nodup_singleton _, fun a ha b hb hab => ?_⟩
    obtain ⟨record, hrecord, rfl⟩ := List.mem_map.mp ha
    have htop := (hbucket.top record (List.mem_append_left _ hrecord)).set
    rw [hab, List.mem_singleton.mp hb, distance, BitVec.xor_self] at htop
    simp at htop
  · rw [List.append_nil]
    exact hnodup.1

include h in
/-- The groups in the order of `find_closest`, each sorted, are sorted. -/
theorem lookup_sorted (target : Target) {order : List Nat} (horder : ∀ index ∈ order, index < 256)
    (hprecedes : order.Pairwise (Precedes (distance self.origin.id target).toNat)) :
    (order.flatMap fun index => sortByDistance target (self.group index)).Pairwise
      fun a b => distance a.id target < distance b.id target := by
  refine List.pairwise_flatMap.mpr ⟨fun index hindex => sortByDistance_sorted target (group_nodup h (horder index hindex)), ?_⟩
  refine hprecedes.imp_of_mem fun {i j} hi hj hprec a ha b hb => ?_
  have hga := mem_group h (horder i hi) ((sortByDistance_perm ..).mem_iff.mp ha)
  have hgb := mem_group h (horder j hj) ((sortByDistance_perm ..).mem_iff.mp hb)
  change (distance a.id target).toNat < (distance b.id target).toNat
  rw [distance_toNat self.origin.id a.id, distance_toNat self.origin.id b.id]
  exact xor_lt_xor hprec hga hgb

theorem groups_perm (self : Buckets K A) : ((List.range 256).flatMap self.group).Perm (self.origin :: self.records) := by
  have hsucc : ∀ index, self.group (index + 1) = self.distances[index + 1]?.elim [] (·.records) := fun index => by
    rw [group, if_neg (Nat.succ_ne_zero _), List.append_nil]
  have hrecords : self.records = (List.range 256).flatMap fun index => self.distances[index]?.elim [] (·.records) := by
    have hlist : self.distances.toList = (List.range 256).map fun index => self.distances[index]?.getD {} := by
      refine List.ext_getElem (by simp) fun index h₁ h₂ => ?_
      rw [Vector.length_toList] at h₁
      simp [Vector.getElem?_eq_getElem h₁]
    rw [records, hlist, List.flatMap_map]
    refine List.flatMap_congr fun index hindex => ?_
    rw [Vector.getElem?_eq_getElem (List.mem_range.mp hindex)]
    rfl
  rw [hrecords, List.range_succ_eq_map, List.flatMap_cons, List.flatMap_cons, group, if_pos rfl, List.flatMap_map,
    List.flatMap_map]
  rw [List.flatMap_congr fun index _ => hsucc index, List.append_assoc]
  exact List.perm_middle

include h in
theorem findClosest_closest (target : Target) (count : ℕ+) :
    ∃ out, (self.findClosest target count : Outcome E (Fail K A) _) = pure out ∧
      Closest target (self.origin :: self.records) count out := by
  have hindex : ∃ index, (self.startIndex target : Outcome E (Fail K A) Nat) = pure index ∧ index < 256 ∧
      ∀ j, (distance self.origin.id target).toNat.testBit j = true → j ≤ index := by
    unfold startIndex
    split
    · next heq =>
      refine ⟨0, rfl, by decide, fun j hj => ?_⟩
      rw [heq, distance, BitVec.xor_self] at hj
      simp at hj
    · next hne =>
      obtain ⟨heq, htop, hlt⟩ := index_eq (E := E) hne
      refine ⟨_, heq, hlt, fun j hj => ?_⟩
      by_contra hgt
      rw [htop.clear j (Nat.not_le.mp hgt)] at hj
      cases hj
  obtain ⟨index, hindex, hlt, hhigh⟩ := hindex
  have hvisit : lookupOrder index (distance self.origin.id target) =
      visit (distance self.origin.id target).toNat index 256 := rfl
  have horder : ∀ i ∈ visit (distance self.origin.id target).toNat index 256, i < 256 :=
    fun i hi => mem_visit_lt hlt hi
  have hsorted := lookup_sorted h target horder (visit_pairwise _ index 256)
  have hnodup : (visit (distance self.origin.id target).toNat index 256).Nodup :=
    (visit_pairwise _ index 256).imp fun {i j} hprec heq => by
      subst heq
      rcases hprec with ⟨_, _, hlt⟩ | ⟨hset, hclear⟩ | ⟨_, _, hlt⟩
      · exact Nat.lt_irrefl _ hlt
      · rw [hset] at hclear
        cases hclear
      · exact Nat.lt_irrefl _ hlt
  have hrange : (visit (distance self.origin.id target).toNat index 256).Perm (List.range 256) :=
    (List.perm_ext_iff_of_nodup hnodup List.nodup_range).mpr fun i =>
      ⟨fun hi => List.mem_range.mpr (horder i hi), fun hi => mem_visit hhigh (List.mem_range.mp hi)⟩
  have hperm : ((visit (distance self.origin.id target).toNat index 256).flatMap fun i =>
      sortByDistance target (self.group i)).Perm (self.origin :: self.records) :=
    (hrange.flatMap fun i _ => sortByDistance_perm target (self.group i)).trans self.groups_perm
  have hclosest := Closest.of_sorted hperm hsorted count
  have hchain := (hclosest.sorted.imp fun {_ _} hlt => BitVec.le_of_lt hlt).isChain
  have hcollect := collect_eq (E := E) self target count horder
    (show ([] : List (PeerRecord K A)).length ≤ count from Nat.zero_le _)
  rw [List.nil_append] at hcollect
  refine ⟨_, ?_, hclosest⟩
  unfold findClosest
  simp only [hindex, pure_bind, hvisit, hcollect, Outcome.assert]
  rw [if_pos hchain, ok_bind]

end

/-! ## Tables that are built -/

inductive Op (K A : Type)
  | insert (record : PeerRecord K A)
  | remove (id : PeerId)

section
variable {K A E : Type}

def Op.id : Op K A → PeerId
  | .insert record => record.id
  | .remove id => id

def apply (self : Buckets K A) : Op K A → Outcome E (Fail K A) (Buckets K A)
  | .insert record => self.insert record
  | .remove id => do
    let (_, self) ← self.remove id
    return self

theorem apply_wf {self : Buckets K A} (h : self.Wf) {op : Op K A} (hop : op.id ≠ self.origin.id) :
    ∃ buckets : Buckets K A, (self.apply op : Outcome E (Fail K A) _) = pure buckets ∧
      buckets.origin = self.origin ∧ buckets.Wf := by
  cases op with
  | insert record => exact insert_wf h hop
  | remove id =>
    have hid : id ≠ self.origin.id := hop
    obtain ⟨record, buckets, hremove, hrest⟩ := remove_wf (E := E) h hid
    exact ⟨buckets, by rw [apply, hremove, pure_bind], hrest⟩

theorem apply_origin {self : Buckets K A} {op : Op K A} (hop : op.id = self.origin.id) :
    ∃ reason, (self.apply op : Outcome E (Fail K A) _) = .fail reason [] := by
  cases op with
  | insert record => exact ⟨_, insert_origin hop⟩
  | remove id =>
    have hid : id = self.origin.id := hop
    have hindex : (self.index id : Outcome E (Fail K A) Nat) = .fail (.panic .assert) [] := by
      rw [hid, index, distance, BitVec.xor_self]
      rfl
    refine ⟨.panic .assert, ?_⟩
    rw [apply, remove, hindex]
    rfl

theorem foldlM_wf {self : Buckets K A} (h : self.Wf) {ops : List (Op K A)} (hops : ∀ op ∈ ops, op.id ≠ self.origin.id) :
    ∃ buckets : Buckets K A, (ops.foldlM apply self : Outcome E (Fail K A) _) = pure buckets ∧
      buckets.origin = self.origin ∧ buckets.Wf := by
  induction ops generalizing self with
  | nil => exact ⟨self, rfl, rfl, h⟩
  | cons op ops ih =>
    obtain ⟨buckets, happly, horigin, hwf⟩ := apply_wf (E := E) h (hops op List.mem_cons_self)
    obtain ⟨buckets', hfold, horigin', hwf'⟩ := ih hwf (by
      rw [horigin]
      exact fun op hmem => hops op (List.mem_cons_of_mem _ hmem))
    exact ⟨buckets', by rw [List.foldlM_cons, happly, pure_bind, hfold], horigin'.trans horigin, hwf'⟩

/-- A table that has been built without a failure. -/
theorem foldlM_ok {self : Buckets K A} (h : self.Wf) {ops : List (Op K A)} {buckets : Buckets K A} {es : List E}
    (hok : (ops.foldlM apply self : Outcome E (Fail K A) _) = .ok buckets es) :
    buckets.origin = self.origin ∧ buckets.Wf := by
  induction ops generalizing self es with
  | nil =>
    cases hok
    exact ⟨rfl, h⟩
  | cons op ops ih =>
    rw [List.foldlM_cons] at hok
    obtain ⟨middle, es₁, es₂, happly, hfold, _⟩ := bind_eq_ok.mp hok
    by_cases hop : op.id = self.origin.id
    · obtain ⟨reason, hfail⟩ := apply_origin (E := E) hop
      rw [hfail] at happly
      cases happly
    · obtain ⟨buckets', heq, horigin, hwf⟩ := apply_wf (E := E) h hop
      rw [heq] at happly
      cases happly
      obtain ⟨horigin', hwf'⟩ := ih hwf hfold
      exact ⟨horigin'.trans horigin, hwf'⟩

/-- A table that inserts and removes have built finds the records closest to a
target among its records and the origin. -/
theorem findClosest_exact (origin : PeerRecord K A) {ops : List (Op K A)} (hops : ∀ op ∈ ops, op.id ≠ origin.id)
    (target : Target) (count : ℕ+) :
    ∃ buckets : Buckets K A, (ops.foldlM apply (new origin) : Outcome E (Fail K A) _) = .ok buckets [] ∧
      ∃ out, (buckets.findClosest target count : Outcome E (Fail K A) _) = .ok out [] ∧
        Closest target (origin :: buckets.records) count out := by
  obtain ⟨buckets, hfold, horigin, hwf⟩ := foldlM_wf (E := E) (new_wf origin) hops
  obtain ⟨out, hout, hclosest⟩ := findClosest_closest (E := E) hwf target count
  rw [horigin] at hclosest
  exact ⟨buckets, hfold, out, hout, hclosest⟩

end

/-- An id for tables that are evaluated. -/
def idOf (byte : UInt8) : PeerId := .replicate 32 byte

theorem findClosest_exact_three :
    ∃ buckets : Buckets Unit Unit, ([.insert ⟨idOf 1, (), ()⟩, .insert ⟨idOf 2, (), ()⟩, .remove (idOf 1)].foldlM apply
        (new ⟨idOf 0, (), ()⟩) : Outcome Empty (Fail Unit Unit) _) = .ok buckets [] ∧
      ∃ out, (buckets.findClosest (idOf 3) 2 : Outcome Empty (Fail Unit Unit) _) = .ok out [] ∧
        Closest (idOf 3) (⟨idOf 0, (), ()⟩ :: buckets.records) (2 : ℕ+) out :=
  findClosest_exact _ (by decide) (idOf 3) 2

end Buckets

end Neatworks.Kademlia
