import Neatworks.Crypto

/-!
# The crypto of a peer

`crypto::peer`. A peer signs with its own key pair and verifies against the
public key that a message carries. The key pairs are named by their public
keys; SHA-256 and the signatures are outside the repository.
-/

namespace Neatworks

structure PeerScheme (K σ : Type) where
  sha256 : List UInt8 → Digest
  signDigest : K → Digest → σ
  verifyDigest : K → Digest → σ → Bool

structure PeerCrypto (K σ : Type) where
  scheme : PeerScheme K σ
  publicKey : K

section
variable {K σ M : Type} [DigestHash M]

def PeerScheme.digest (scheme : PeerScheme K σ) (message : M) : Digest := scheme.sha256 (DigestHash.hash message)

namespace PeerCrypto

def sign (crypto : PeerCrypto K σ) (message : M) : Verifiable M σ :=
  ⟨message, crypto.scheme.signDigest crypto.publicKey (crypto.scheme.digest message)⟩

def verify (crypto : PeerCrypto K σ) (publicKey : K) (signed : Verifiable M σ) : Bool :=
  crypto.scheme.verifyDigest publicKey (crypto.scheme.digest signed.inner) signed.signature

end PeerCrypto

end

/-- A scheme that runs can be evaluated with; a key is a byte, and the digest
is all copies of the first byte. -/
def PeerScheme.toy : PeerScheme UInt8 UInt8 where
  sha256 bytes := .replicate 32 (bytes.headD 0)
  signDigest key _ := key
  verifyDigest key _ signature := signature = key

end Neatworks
