import Neatworks.PbftSpec

/-!
# The digest of a batch

A pre-prepare names its batch by the digest of the bytes that are hashed for the
batch. The bytes determine the batch, so two batches share a digest only if
SHA-256 has a collision.
-/

namespace Neatworks

/-! ## The bytes of a batch -/

/-- The length of a `Vec` is a `usize`. -/
def Request.Sized {A : Type*} (request : Request A) : Prop := request.op.length < 2 ^ 64

instance {A : Type*} (request : Request A) : Decidable request.Sized := inferInstanceAs (Decidable (_ < _))

theorem hash_payload_selfDelimiting :
    SelfDelimitingOn (fun payload => payload.length < 2 ^ 64) (DigestHash.hash : Payload → List UInt8) := by
  intro a b ha hb r r' h
  simp only [DigestHash.hash, List.append_assoc] at h
  obtain ⟨hlength, h⟩ := List.append_inj h (by simp [writeUsize])
  have hlength' : a.length = b.length := leBytes_inj ha hb hlength
  rw [show a.flatMap (fun i => [i]) = a from flatMap_singleton_hash a,
    show b.flatMap (fun i => [i]) = b from flatMap_singleton_hash b] at h
  exact List.append_inj h hlength'

section
variable {A : Type*} [DigestHash A]

theorem hash_request_selfDelimiting (haddr : SelfDelimiting (DigestHash.hash : A → List UInt8)) :
    SelfDelimitingOn Request.Sized (DigestHash.hash : Request A → List UInt8) := by
  intro a b ha hb r r' h
  have hsplit (request : Request A) (rest : List UInt8) : DigestHash.hash request ++ rest =
      DigestHash.hash request.clientId ++ (DigestHash.hash request.clientAddr ++
        (DigestHash.hash request.seq ++ (DigestHash.hash request.op ++ rest))) := by
    change (_ ++ (_ ++ (_ ++ _))) ++ rest = _
    simp only [List.append_assoc]
  rw [hsplit, hsplit] at h
  obtain ⟨hid, h⟩ := hash_u32_selfDelimiting _ _ _ _ h
  obtain ⟨haddr', h⟩ := haddr _ _ _ _ h
  obtain ⟨hseq, h⟩ := hash_u32_selfDelimiting _ _ _ _ h
  obtain ⟨hop, hrest⟩ := hash_payload_selfDelimiting _ _ ha hb _ _ h
  refine ⟨?_, hrest⟩
  cases a
  cases b
  exact Request.mk.injEq .. ▸ ⟨hid, haddr', hseq, hop⟩

theorem hash_request_ne_nil (request : Request A) : DigestHash.hash request ≠ [] := by
  intro hnil
  have hid : DigestHash.hash request.clientId = [] := (List.append_eq_nil_iff.mp hnil).1
  have hlength := congrArg List.length hid
  rw [show DigestHash.hash request.clientId = leBytes 4 _ from rfl, leBytes_length] at hlength
  cases hlength

theorem hash_batch_inj (haddr : SelfDelimiting (DigestHash.hash : A → List UInt8)) {batch batch' : List (Request A)}
    (h : ∀ request ∈ batch, request.Sized) (h' : ∀ request ∈ batch', request.Sized)
    (heq : DigestHash.hash batch = DigestHash.hash batch') : batch = batch' := by
  -- The bytes of a request are not empty, so the length in front adds nothing here.
  have hrequests : batch.flatMap DigestHash.hash = batch'.flatMap DigestHash.hash :=
    (List.append_inj heq (by simp [writeUsize])).2
  exact (hash_request_selfDelimiting haddr).flatMap_inj hash_request_ne_nil h h' hrequests

end

/-- Two inputs of SHA-256 with one digest. -/
def Scheme.Collision {σ : Type*} (scheme : Scheme σ) (bytes bytes' : List UInt8) : Prop :=
  bytes ≠ bytes' ∧ scheme.sha256 bytes = scheme.sha256 bytes'

/-! ## The digest of a pre-prepare -/

namespace Pbft

section
variable {A σ : Type}

/-- The pre-prepare that the worker has made or checked, with its batch. -/
def Event.batch : Event A σ → Option (PrePrepare × List (Request A))
  | .signedPrePrepare prePrepare requests | .verifiedPrePrepare prePrepare requests => some (prePrepare.inner, requests)
  | .signedVote .. | .verifiedVote .. => none

variable [DigestHash A] {crypto : Crypto σ}

theorem Job.run_batch {job : Job A σ} {event : Event A σ} {prePrepare : PrePrepare} {requests : List (Request A)}
    (hrun : job.run crypto = some event) (hbatch : event.batch = some (prePrepare, requests)) :
    prePrepare.digest = crypto.scheme.digest requests := by
  cases event with
  | signedPrePrepare p r =>
    cases hbatch
    obtain ⟨viewNum, opNum, _, rfl⟩ := Job.run_signedPrePrepare hrun
    rfl
  | verifiedPrePrepare p r =>
    cases hbatch
    obtain ⟨i, _, hdigest, _⟩ := Job.run_verifiedPrePrepare hrun
    exact hdigest.symm
  | signedVote phase vote => cases hbatch
  | verifiedVote phase vote => cases hbatch

/-- The bytes that are hashed for a batch determine it. So if replicas have made
or checked two pre-prepares with the same digest, they have the same batch or a
collision. -/
theorem batch_digest_binds (haddr : SelfDelimiting (DigestHash.hash : A → List UInt8)) {batch batch' : List (Request A)}
    (h : ∀ request ∈ batch, request.Sized) (h' : ∀ request ∈ batch', request.Sized) :
    (DigestHash.hash batch = DigestHash.hash batch' → batch = batch') ∧
      ∀ (crypto crypto' : Crypto σ) (job job' : Job A σ) (event event' : Event A σ) (prePrepare prePrepare' : PrePrepare),
        crypto.scheme = crypto'.scheme → job.run crypto = some event → job'.run crypto' = some event' →
        event.batch = some (prePrepare, batch) → event'.batch = some (prePrepare', batch') →
        prePrepare.digest = prePrepare'.digest →
        batch = batch' ∨ crypto.scheme.Collision (DigestHash.hash batch) (DigestHash.hash batch') := by
  have hinj := hash_batch_inj haddr h h'
  refine ⟨hinj, fun crypto crypto' job job' event event' prePrepare prePrepare' hscheme hrun hrun' hbatch hbatch' hdigest => ?_⟩
  rw [Job.run_batch hrun hbatch, Job.run_batch hrun' hbatch', ← hscheme] at hdigest
  by_cases heq : DigestHash.hash batch = DigestHash.hash batch'
  · exact Or.inl (hinj heq)
  · exact Or.inr ⟨heq, hdigest⟩

/-- One request, and the same request twice. -/
theorem batch_digest_binds_two :
    let batch : List (Request UInt8) := [⟨1, 2, 3, [4]⟩]
    let batch' : List (Request UInt8) := [⟨1, 2, 3, [4]⟩, ⟨1, 2, 3, [4]⟩]
    DigestHash.hash batch ≠ DigestHash.hash batch' := by
  intro batch batch' heq
  have hbinds := @batch_digest_binds UInt8 (Nat × Digest) _ hash_u8_selfDelimiting batch batch' (by decide) (by decide)
  exact absurd (hbinds.1 heq) (by decide)

end

end Pbft

end Neatworks
