import Neatworks.Bytes

/-!
# Requests and their bytes under `derive(Hash)`

`message.rs`, and what `DigestHash::hash` of `crypto.rs` writes: `ImplHasher`
passes `u8` through and writes the wider integers in little-endian order; a
slice is its length as a `usize` and then its elements.
-/

namespace Neatworks

abbrev Payload := List UInt8

structure Request (A : Type*) where
  clientId : UInt32
  clientAddr : A
  seq : UInt32
  op : Payload
  deriving DecidableEq, Repr

/-- `[u8; 32]`. -/
abbrev Digest := Vector UInt8 32

/-- The bytes `DigestHash::hash` feeds to its `DigestHasher`. -/
class DigestHash (α : Type*) where
  hash : α → List UInt8

instance : DigestHash UInt8 where
  hash i := [i]

instance : DigestHash UInt32 where
  hash i := leBytes 4 i.toNat

def writeUsize (n : Nat) : List UInt8 := leBytes 8 n

instance {α : Type*} [DigestHash α] : DigestHash (List α) where
  hash l := writeUsize l.length ++ l.flatMap DigestHash.hash

instance : DigestHash Digest where
  hash d := DigestHash.hash d.toList

instance {A : Type*} [DigestHash A] : DigestHash (Request A) where
  hash r := DigestHash.hash r.clientId ++ (DigestHash.hash r.clientAddr ++
    (DigestHash.hash r.seq ++ DigestHash.hash r.op))

theorem hash_u32_selfDelimiting : SelfDelimiting (DigestHash.hash : UInt32 → List UInt8) := by
  refine .of_length (w := 4) (fun _ => leBytes_length ..) fun a b h => ?_
  exact UInt32.toNat_inj.mp (leBytes_inj a.toNat_lt b.toNat_lt h)

theorem hash_u8_selfDelimiting : SelfDelimiting (DigestHash.hash : UInt8 → List UInt8) :=
  .of_length (w := 1) (fun _ => rfl) fun _ _ h => (List.cons.inj h).1

theorem flatMap_singleton_hash (l : List UInt8) : l.flatMap DigestHash.hash = l := by
  induction l with
  | nil => rfl
  | cons a l ih => rw [List.flatMap_cons, ih]; rfl

@[simp] theorem hash_digest_length (d : Digest) : (DigestHash.hash d).length = 40 := by
  simp [DigestHash.hash, writeUsize]

theorem hash_digest_selfDelimiting : SelfDelimiting (DigestHash.hash : Digest → List UInt8) := by
  refine .of_length (w := 40) hash_digest_length fun a b h => ?_
  simp only [DigestHash.hash, Vector.length_toList] at h
  have := (List.append_cancel_left h)
  exact Vector.toList_inj.mp ((flatMap_singleton_hash _).symm.trans (this.trans (flatMap_singleton_hash _)))

end Neatworks
