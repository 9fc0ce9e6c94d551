import Neatworks.Message

/-!
# Signing and verifying

`crypto.rs`: `Crypto` signs the SHA-256 digest of the hashed bytes with the key
of its replica, and verifies against the public key of an index. SHA-256 and
the signature scheme are outside the repository: `Scheme` stands for them.
-/

namespace Neatworks

structure Verifiable (M : Type*) (σ : Type*) where
  inner : M
  signature : σ
  deriving DecidableEq

/-- `sha2` and one `CryptoProvider`; keys are named by the index of their replica. -/
structure Scheme (σ : Type*) where
  sha256 : List UInt8 → Digest
  signDigest : Nat → Digest → σ
  verifyDigest : Nat → Digest → σ → Bool

/-- `Crypto::new_hardcoded_replication`: the keys of replicas `0` to
`numReplica - 1`, and the secret key of `id`, which is one of them. -/
structure Crypto (σ : Type*) where
  scheme : Scheme σ
  numReplica : Nat
  id : Nat
  known : id < numReplica

/-- A scheme that runs can be evaluated with: the digest adds the bytes that are
a block apart, and a signature names its key and digest. -/
def Scheme.toy : Scheme (Nat × Digest) where
  sha256 bytes := .ofFn fun i => bytes.getD i 0 + bytes.getD (i + 32) 0
  signDigest key digest := (key, digest)
  verifyDigest key digest signature := signature = (key, digest)

section
variable {σ : Type*} {M : Type*} [DigestHash M]

def Scheme.digest (scheme : Scheme σ) (message : M) : Digest := scheme.sha256 (DigestHash.hash message)

def Crypto.sign (crypto : Crypto σ) (message : M) : Verifiable M σ :=
  ⟨message, crypto.scheme.signDigest crypto.id (crypto.scheme.digest message)⟩

def Crypto.verify (crypto : Crypto σ) (index : Nat) (signed : Verifiable M σ) : Bool :=
  decide (index < crypto.numReplica) &&
    crypto.scheme.verifyDigest index (crypto.scheme.digest signed.inner) signed.signature

end

end Neatworks
