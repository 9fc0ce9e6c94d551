import Mathlib.Data.List.Sort
import Mathlib.Data.PNat.Basic
import Neatworks.Event

/-!
# Records and the bucket table

`Buckets` of `kademlia.rs` and the messages around it, at the default of 256
buckets. A `NonZeroUsize` is a positive number. Sorting is stable here and not
in the source; the keys it sorts by are distinct.
-/

namespace Neatworks.Kademlia

abbrev PeerId := Digest

abbrev Target := Digest

abbrev U256 := BitVec 256

def U256.fromLittleEndian (bytes : Digest) : U256 := BitVec.ofNat 256 (leNat bytes.toList)

def U256.toLittleEndian (n : U256) : Digest := ⟨(leBytes 32 n.toNat).toArray, by simp⟩

/-- The index of the highest bit, from the top. -/
def U256.leadingZeros (n : U256) : Nat := if n = 0 then 256 else 255 - n.toNat.log2

def distance (peerId : PeerId) (target : Target) : U256 :=
  U256.fromLittleEndian peerId ^^^ U256.fromLittleEndian target

def distanceFrom (peerId : PeerId) (distance : U256) : Target :=
  U256.toLittleEndian (U256.fromLittleEndian peerId ^^^ distance)

structure PeerRecord (K A : Type) where
  id : PeerId
  key : K
  addr : A
  deriving DecidableEq, Repr

structure Query where
  target : Target
  count : ℕ+
  deriving DecidableEq

inductive QueryStatus
  | progress
  | converge
  | halted
  deriving DecidableEq, Repr

structure QueryResult (K A : Type) where
  status : QueryStatus
  target : Target
  closest : List (PeerRecord K A)

/-- The errors and panics of a handler; the timer, the network and the other
components that it calls do not fail. -/
inductive Fail (K A : Type)
  | bail (message : String)
  | emptyBuckets (target : Target)
  | concurrentQuery (target : Target)
  | timeout (target : Target) (count : ℕ+) (record : PeerRecord K A)
  | unknownSeq (seq : UInt32)
  | panic (panic : Panic)

/-! ## Buckets -/

structure Bucket (K A : Type) where
  records : List (PeerRecord K A) := []
  cachedRecords : List (PeerRecord K A) := []

structure Buckets (K A : Type) where
  origin : PeerRecord K A
  distances : Vector (Bucket K A) 256

def bucketSize : Nat := 20

def numConcurrency : Nat := 30

namespace Buckets

section
variable {K A ε : Type}

def new (origin : PeerRecord K A) : Buckets K A := ⟨origin, .replicate 256 {}⟩

def index (self : Buckets K A) (target : Target) : Outcome ε (Fail K A) Nat := do
  let zeros := (distance self.origin.id target).leadingZeros
  Outcome.assert (zeros < 256) (.panic .assert)
  return 256 - 1 - zeros

/-- `self.distances[index]`. -/
def bucket (self : Buckets K A) (index : Nat) : Outcome ε (Fail K A) (Bucket K A) :=
  match self.distances[index]? with
  | none => Outcome.throw (.panic .index)
  | some bucket => return bucket

def set (self : Buckets K A) (index : Nat) (bucket : Bucket K A) : Buckets K A :=
  { self with distances := self.distances.setIfInBounds index bucket }

/-- The records of a bucket in which `record` goes to the end. -/
def without (records : List (PeerRecord K A)) (id : PeerId) : List (PeerRecord K A) := records.eraseP (·.id = id)

def insert (self : Buckets K A) (record : PeerRecord K A) : Outcome ε (Fail K A) (Buckets K A) := do
  Outcome.assert (record.id ≠ self.origin.id) (.bail "cannot insert origin id")
  let index ← self.index record.id
  let bucket ← self.bucket index
  let records := without bucket.records record.id
  if records.length < bucketSize then
    return self.set index { bucket with records := records ++ [record] }
  else
    let cachedRecords := without bucket.cachedRecords record.id
    let cachedRecords := if cachedRecords.length = bucketSize then cachedRecords.tail else cachedRecords
    return self.set index ⟨records, cachedRecords ++ [record]⟩

def remove (self : Buckets K A) (id : PeerId) : Outcome ε (Fail K A) (Option (PeerRecord K A) × Buckets K A) := do
  let index ← self.index id
  let bucket ← self.bucket index
  match bucket.records.find? (·.id = id) with
  | none => return (none, self)
  | some record =>
    let records := without bucket.records id
    match bucket.cachedRecords.getLast? with
    | some cacheRecord => return (some record, self.set index ⟨records ++ [cacheRecord], bucket.cachedRecords.dropLast⟩)
    | none => return (some record, self.set index { bucket with records := record :: records })

def sortByDistance (target : Target) (records : List (PeerRecord K A)) : List (PeerRecord K A) :=
  records.insertionSort fun a b => distance a.id target ≤ distance b.id target

/-- The loop of `find_closest`; the records found so far come last. -/
def collect (self : Buckets K A) (target : Target) (count : ℕ+) :
    List Nat → List (PeerRecord K A) → Outcome ε (Fail K A) (List (PeerRecord K A))
  | [], records => return records
  | index :: order, records => do
    let bucket ← self.bucket index
    let indexRecords := bucket.records ++ if index = 0 then [self.origin] else []
    let indexRecords := sortByDistance target indexRecords
    let records := records ++ indexRecords.take (count - records.length)
    Outcome.assert (records.length ≤ count) (.panic .assert)
    if records.length = count then return records else collect self target count order records

/-- The order in which `find_closest` looks the buckets up. -/
def lookupOrder (index : Nat) (originDistance : U256) : List Nat :=
  (List.range (index + 1)).reverse.filter (fun i => originDistance.getLsbD i) ++
    (List.range 256).filter fun i => !originDistance.getLsbD i

/-- `let index = ..` of `find_closest`. -/
def startIndex (self : Buckets K A) (target : Target) : Outcome ε (Fail K A) Nat :=
  if target = self.origin.id then pure 0 else self.index target

def findClosest (self : Buckets K A) (target : Target) (count : ℕ+) :
    Outcome ε (Fail K A) (List (PeerRecord K A)) := do
  let index ← self.startIndex target
  let originDistance := distance self.origin.id target
  let records ← self.collect target count (lookupOrder index originDistance) []
  Outcome.assert (records.IsChain fun a b => distance a.id target ≤ distance b.id target) (.panic .assert)
  return records

end

end Buckets

/-! ## Messages -/

structure FindPeer (K A : Type) where
  target : Target
  count : ℕ+
  record : PeerRecord K A
  deriving DecidableEq

structure FindPeerOk (K A : Type) where
  seq : UInt32
  target : Target
  closest : List (PeerRecord K A)
  record : PeerRecord K A
  deriving DecidableEq

end Neatworks.Kademlia
