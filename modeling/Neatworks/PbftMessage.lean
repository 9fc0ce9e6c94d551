import Neatworks.Crypto

/-!
# The signed messages of PBFT

`Prepare` and `Commit` have the same four fields, so they are one record with a
phase in its type. `derive(Hash)` writes neither the type nor the phase.
-/

namespace Neatworks.Pbft

structure PrePrepare where
  viewNum : UInt32
  opNum : UInt32
  digest : Digest
  deriving DecidableEq

inductive Phase
  | prepare
  | commit
  deriving DecidableEq, Repr

structure Vote (phase : Phase) where
  viewNum : UInt32
  opNum : UInt32
  digest : Digest
  replicaId : UInt8
  deriving DecidableEq

abbrev Prepare := Vote .prepare

abbrev Commit := Vote .commit

structure Reply where
  seq : UInt32
  result : Payload
  viewNum : UInt32
  replicaId : UInt8
  deriving DecidableEq, Repr

instance : DigestHash PrePrepare where
  hash m := DigestHash.hash m.viewNum ++ (DigestHash.hash m.opNum ++ DigestHash.hash m.digest)

instance {phase : Phase} : DigestHash (Vote phase) where
  hash m := DigestHash.hash m.viewNum ++ (DigestHash.hash m.opNum ++
    (DigestHash.hash m.digest ++ DigestHash.hash m.replicaId))

/-- The same fields in another phase. -/
def Vote.recast {phase : Phase} (phase' : Phase) (v : Vote phase) : Vote phase' :=
  ⟨v.viewNum, v.opNum, v.digest, v.replicaId⟩

inductive SignedMessage
  | prePrepare (m : PrePrepare)
  | vote (phase : Phase) (m : Vote phase)
  deriving DecidableEq

/-- What `sign` and `verify` feed to SHA-256. -/
def SignedMessage.bytes : SignedMessage → List UInt8
  | .prePrepare m => DigestHash.hash m
  | .vote _ m => DigestHash.hash m

/-! ## The byte layout -/

theorem hash_u32_length (n : UInt32) : (DigestHash.hash n).length = 4 := leBytes_length ..

theorem hash_prePrepare_length (m : PrePrepare) : (DigestHash.hash m).length = 48 := by
  rw [DigestHash.hash]
  simp only [instDigestHashPrePrepare, List.length_append, hash_u32_length, hash_digest_length]

theorem hash_vote_length {phase : Phase} (m : Vote phase) : (DigestHash.hash m).length = 49 := by
  rw [DigestHash.hash]
  simp only [instDigestHashVote, List.length_append, hash_u32_length, hash_digest_length]
  rfl

theorem hash_prePrepare_inj {m₁ m₂ : PrePrepare} (h : DigestHash.hash m₁ = DigestHash.hash m₂) : m₁ = m₂ := by
  obtain ⟨hv, h⟩ := hash_u32_selfDelimiting _ _ _ _ h
  obtain ⟨ho, h⟩ := hash_u32_selfDelimiting _ _ _ _ h
  have hd := hash_digest_selfDelimiting.injective h
  cases m₁; cases m₂
  exact PrePrepare.mk.injEq .. ▸ ⟨hv, ho, hd⟩

/-- The bytes of a vote determine its fields, and nothing about its phase. -/
theorem hash_vote_inj {phase₁ phase₂ : Phase} {m₁ : Vote phase₁} {m₂ : Vote phase₂}
    (h : DigestHash.hash m₁ = DigestHash.hash m₂) : m₁.recast phase₂ = m₂ := by
  obtain ⟨hv, h⟩ := hash_u32_selfDelimiting _ _ _ _ h
  obtain ⟨ho, h⟩ := hash_u32_selfDelimiting _ _ _ _ h
  obtain ⟨hd, h⟩ := hash_digest_selfDelimiting _ _ _ _ h
  have hr := hash_u8_selfDelimiting.injective h
  cases m₁; cases m₂
  exact Vote.mk.injEq .. ▸ ⟨hv, ho, hd, hr⟩

theorem prePrepare_bytes_ne_vote (m : PrePrepare) {phase : Phase} (v : Vote phase) :
    DigestHash.hash m ≠ DigestHash.hash v := by
  intro h
  have := congrArg List.length h
  rw [hash_prePrepare_length, hash_vote_length] at this
  omega

/-- Equal bytes mean equal messages, or two votes with equal fields. -/
theorem signed_bytes_eq_iff (m₁ m₂ : SignedMessage) :
    m₁.bytes = m₂.bytes ↔ m₁ = m₂ ∨ ∃ (phase₁ phase₂ : Phase) (v : Vote phase₁),
      m₁ = .vote phase₁ v ∧ m₂ = .vote phase₂ (v.recast phase₂) := by
  constructor
  · intro h
    cases m₁ with
    | prePrepare m₁ =>
      cases m₂ with
      | prePrepare m₂ => exact Or.inl (congrArg _ (hash_prePrepare_inj h))
      | vote phase v => exact absurd h (prePrepare_bytes_ne_vote m₁ v)
    | vote phase₁ v₁ =>
      cases m₂ with
      | prePrepare m₂ => exact absurd h.symm (prePrepare_bytes_ne_vote m₂ v₁)
      | vote phase₂ v₂ => exact Or.inr ⟨phase₁, phase₂, v₁, rfl, congrArg _ (hash_vote_inj h).symm⟩
  · rintro (rfl | ⟨phase₁, phase₂, v, rfl, rfl⟩) <;> rfl

/-- A `Prepare` and a `Commit` with the same fields are signed as the same bytes. -/
theorem prepare_bytes_eq_commit :
    let v : Prepare := ⟨0, 1, Vector.replicate 32 0, 2⟩
    (SignedMessage.vote .prepare v).bytes = (SignedMessage.vote .commit (v.recast .commit)).bytes ∧
      SignedMessage.vote .prepare v ≠ SignedMessage.vote .commit (v.recast .commit) := by
  refine ⟨rfl, fun h => ?_⟩
  cases h

end Neatworks.Pbft
