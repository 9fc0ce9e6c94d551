import Neatworks.PbftProposal

/-!
# Certificates

What the votes in the log and in the quorums of a replica are worth, when no
vote is inserted that does not match the pre-prepare of its slot and no quorum
of prepares is closed on a slot that has no pre-prepare. What is known of a
single vote, and in what sense it agrees with the pre-prepare, is a parameter.
-/

namespace Neatworks.Pbft

open Outcome

section
variable {S A σ : Type}

structure Policy where
  stored : (phase : Phase) → Vote phase → Prop
  agrees : (phase : Phase) → PrePrepare → Vote phase → Prop
  of_digest : ∀ {phase p v}, v.digest = p.digest → agrees phase p v

structure VoteAt (π : Policy) (r : Replica S A σ) (phase : Phase) (k : Nat)
    (e : UInt8 × Verifiable (Vote phase) σ) : Prop where
  key : e.1 = e.2.inner.replicaId
  opNum : e.2.inner.opNum.toNat = k
  viewNum : e.2.inner.viewNum = r.viewNum
  known : e.2.inner.replicaId.toNat < r.numReplica
  stored : π.stored phase e.2.inner
  agrees : ∀ p, (r.entry k).prePrepare = some p → π.agrees phase p.inner e.2.inner

/-- A vote of the replica itself is for the pre-prepare in the slot. -/
structure Own (r : Replica S A σ) (phase : Phase) (v : Vote phase) : Prop where
  replicaId : v.replicaId = r.id
  viewNum : v.viewNum = r.viewNum
  backup : phase = .prepare → r.isPrimary = false
  filled : ∃ p, (r.entry v.opNum.toNat).prePrepare = some p ∧ v.digest = p.inner.digest

structure Certified [DigestHash A] (π : Policy) (scheme : Scheme σ) (r : Replica S A σ) : Prop where
  known : r.id.toNat < r.numReplica
  slot : ∀ k p, (r.entry k).prePrepare = some p → p.inner.opNum.toNat = k ∧ p.inner.viewNum = r.viewNum ∧
    scheme.digest (r.entry k).requests = p.inner.digest
  quorum : ∀ phase k t, r.quorums phase k = some t → ∀ e ∈ t.entries, VoteAt π r phase k.toNat e
  votes : ∀ phase k, ∀ e ∈ (r.entry k).votes phase, VoteAt π r phase k e
  nodup : ∀ phase k, (((r.entry k).votes phase).map Prod.fst).Nodup
  prepared : ∀ k, (r.entry k).prepares ≠ [] → (r.entry k).prePrepare ≠ none ∧
    r.numReplica - r.numFaulty ≤ (r.entry k).prepares.length + 1
  committed : ∀ k, (r.entry k).commits ≠ [] → (r.entry k).prepares ≠ [] ∧
    r.numReplica - r.numFaulty ≤ (r.entry k).commits.length

/-- The vote is for the digest of the pre-prepare in its slot. While the slot
has none, it does not complete a quorum of prepares. -/
def Replica.Matched (r : Replica S A σ) (phase : Phase) (vote : Verifiable (Vote phase) σ) : Prop :=
  match (r.entry vote.inner.opNum.toNat).prePrepare with
  | some p => vote.inner.digest = p.inner.digest
  | none => phase = .prepare → vote.inner.opNum.toNat < r.log.length →
      (r.quorumWith phase vote).len + 1 < r.numReplica - r.numFaulty

instance {r : Replica S A σ} {phase : Phase} {vote : Verifiable (Vote phase) σ} : Decidable (r.Matched phase vote) := by
  unfold Replica.Matched
  exact match (r.entry vote.inner.opNum.toNat).prePrepare with
    | some p => inferInstanceAs (Decidable (_ = _))
    | none => inferInstanceAs (Decidable (_ → _))

/-! ## What persists -/

/-- A slot that has a pre-prepare keeps it and its batch. -/
structure Kept (r r' : Replica S A σ) : Prop where
  params : r'.params = r.params
  slot : ∀ k p, (r.entry k).prePrepare = some p →
    (r'.entry k).prePrepare = some p ∧ (r'.entry k).requests = (r.entry k).requests

theorem Kept.refl (r : Replica S A σ) : Kept r r := ⟨rfl, fun _ _ h => ⟨h, rfl⟩⟩

theorem Kept.trans {r r' r'' : Replica S A σ} (h : Kept r r') (h' : Kept r' r'') : Kept r r'' where
  params := h'.params.trans h.params
  slot k _ hp := by
    obtain ⟨hp', hr⟩ := h.slot k _ hp
    obtain ⟨hp'', hr'⟩ := h'.slot k _ hp'
    exact ⟨hp'', hr'.trans hr⟩

theorem Kept.of_entry {r r' : Replica S A σ} (hparams : r'.params = r.params)
    (hentry : ∀ k, (r'.entry k).prePrepare = (r.entry k).prePrepare ∧ (r'.entry k).requests = (r.entry k).requests) :
    Kept r r' where
  params := hparams
  slot k _ hp := ⟨(hentry k).1.trans hp, (hentry k).2⟩

theorem Own.kept {r r' : Replica S A σ} (h : Kept r r') {phase : Phase} {v : Vote phase} (ho : Own r phase v) :
    Own r' phase v := by
  have hparams := h.params
  simp only [Replica.params, Prod.mk.injEq] at hparams
  obtain ⟨p, hp, hd⟩ := ho.filled
  exact ⟨ho.replicaId.trans hparams.1.symm, ho.viewNum.trans hparams.2.2.2.symm,
    fun hphase => (Replica.isPrimary_congr h.params).trans (ho.backup hphase), p, (h.slot _ _ hp).1, hd⟩

theorem VoteAt.congr {π : Policy} {r r' : Replica S A σ} (hparams : r'.params = r.params) {phase : Phase} {k : Nat}
    (hslot : (r'.entry k).prePrepare = (r.entry k).prePrepare) {e : UInt8 × Verifiable (Vote phase) σ}
    (h : VoteAt π r phase k e) : VoteAt π r' phase k e := by
  simp only [Replica.params, Prod.mk.injEq] at hparams
  exact ⟨h.key, h.opNum, h.viewNum.trans hparams.2.2.2.symm, h.known.trans_eq hparams.2.1.symm, h.stored,
    fun p hp => h.agrees p (hslot ▸ hp)⟩

theorem setVotes_prePrepare (phase : Phase) (entry : LogEntry A σ) (votes : List (UInt8 × Verifiable (Vote phase) σ)) :
    (entry.setVotes phase votes).prePrepare = entry.prePrepare := by
  cases phase <;> rfl

theorem setVotes_requests (phase : Phase) (entry : LogEntry A σ) (votes : List (UInt8 × Verifiable (Vote phase) σ)) :
    (entry.setVotes phase votes).requests = entry.requests := by
  cases phase <;> rfl

@[simp] theorem votes_setVotes_self (phase : Phase) (entry : LogEntry A σ)
    (votes : List (UInt8 × Verifiable (Vote phase) σ)) : (entry.setVotes phase votes).votes phase = votes := by
  cases phase <;> rfl

theorem votes_setVotes_of_ne {phase phase' : Phase} (h : phase' ≠ phase) (entry : LogEntry A σ)
    (votes : List (UInt8 × Verifiable (Vote phase) σ)) :
    (entry.setVotes phase votes).votes phase' = entry.votes phase' := by
  cases phase <;> cases phase' <;> first | rfl | exact absurd rfl h

/-- The votes of the closed slot, and those of the others. -/
theorem Replica.votes_closeQuorum_cases {r : Replica S A σ} {phase : Phase} {k : UInt32} (hk : k.toNat < r.log.length)
    (q : Table UInt8 (Verifiable (Vote phase) σ)) (phase' : Phase) (j : Nat) :
    ((r.closeQuorum phase k q).entry j).votes phase' = (r.entry j).votes phase' ∨
      ∃ hp : phase = phase', j = k.toNat ∧ ((r.closeQuorum phase k q).entry j).votes phase' = hp ▸ q.entries := by
  by_cases hj : j = k.toNat
  · subst hj
    rw [Replica.entry_closeQuorum_self hk]
    by_cases hp : phase' = phase
    · subst hp
      exact Or.inr ⟨rfl, rfl, votes_setVotes_self ..⟩
    · exact Or.inl (votes_setVotes_of_ne hp ..)
  · exact Or.inl (by rw [Replica.entry_closeQuorum_of_ne hj])

namespace Certified

section
variable [DigestHash A] {π : Policy} {scheme : Scheme σ} {r r' : Replica S A σ}

theorem mono {π' : Policy} (h : Certified π scheme r) (hs : ∀ phase v, π.stored phase v → π'.stored phase v)
    (ha : ∀ phase p v, π.stored phase v → π.agrees phase p v → π'.agrees phase p v) : Certified π' scheme r where
  known := h.known
  slot := h.slot
  quorum phase k t ht e he := by
    have := h.quorum phase k t ht e he
    exact ⟨this.key, this.opNum, this.viewNum, this.known, hs _ _ this.stored,
      fun p hp => ha _ _ _ this.stored (this.agrees p hp)⟩
  votes phase k e he := by
    have := h.votes phase k e he
    exact ⟨this.key, this.opNum, this.viewNum, this.known, hs _ _ this.stored,
      fun p hp => ha _ _ _ this.stored (this.agrees p hp)⟩
  nodup := h.nodup
  prepared := h.prepared
  committed := h.committed

/-- Only the log, the quorums and the parameters of the system matter. -/
theorem congr (h : Certified π scheme r) (hparams : r'.params = r.params) (hentry : ∀ k, r'.entry k = r.entry k)
    (hquorums : r'.quorums = r.quorums) : Certified π scheme r' := by
  have hp := hparams
  simp only [Replica.params, Prod.mk.injEq] at hp
  obtain ⟨hid, hn, hf, hv⟩ := hp
  constructor
  case known => rw [hid, hn]; exact h.known
  case slot => intro k p; rw [hentry, hv]; exact h.slot k p
  case quorum =>
    intro phase k t ht e he
    rw [hquorums] at ht
    exact (h.quorum phase k t ht e he).congr hparams (by rw [hentry])
  case votes =>
    intro phase k e he
    rw [hentry] at he
    exact (h.votes phase k e he).congr hparams (by rw [hentry])
  case nodup => intro phase k; rw [hentry]; exact h.nodup phase k
  case prepared => intro k; rw [hentry, hn, hf]; exact h.prepared k
  case committed => intro k; rw [hentry, hn, hf]; exact h.committed k

theorem votes_eq_nil (h : Certified π scheme r) {k : Nat} (hnone : (r.entry k).prePrepare = none) (phase : Phase) :
    (r.entry k).votes phase = [] := by
  have hprepares : (r.entry k).prepares = [] := by
    by_contra hne
    exact (h.prepared k hne).1 hnone
  cases phase with
  | prepare => exact hprepares
  | commit =>
    by_contra hne
    exact (h.committed k hne).1 hprepares

theorem quorumWith (h : Certified π scheme r) {phase : Phase} {vote : Verifiable (Vote phase) σ}
    (hvote : VoteAt π r phase vote.inner.opNum.toNat (vote.inner.replicaId, vote)) :
    ∀ e ∈ (r.quorumWith phase vote).entries, VoteAt π r phase vote.inner.opNum.toNat e := by
  intro e he
  rw [Replica.quorumWith, Table.mem_insert] at he
  rcases he with rfl | ⟨he, -⟩
  · exact hvote
  · cases ht : r.quorums phase vote.inner.opNum with
    | none =>
      rw [ht] at he
      exact absurd he Table.not_mem_empty
    | some t =>
      rw [ht] at he
      exact h.quorum phase _ t ht e he

theorem record (h : Certified π scheme r) {phase : Phase} {vote : Verifiable (Vote phase) σ}
    (hvote : VoteAt π r phase vote.inner.opNum.toNat (vote.inner.replicaId, vote)) :
    Certified π scheme (r.record phase vote) := by
  have hcongr : ∀ {phase' : Phase} {k : Nat} {e : UInt8 × Verifiable (Vote phase') σ}, VoteAt π r phase' k e →
      VoteAt π (r.record phase vote) phase' k e := fun he => he.congr (by simp) (by simp)
  constructor
  case known => simpa [Replica.record] using h.known
  case slot => simpa [Replica.record] using h.slot
  case quorum =>
    intro phase' k t ht e he
    refine hcongr ?_
    by_cases hp : phase' = phase
    · subst hp
      rw [Replica.record, Replica.quorums_setQuorum_self] at ht
      by_cases hk : k = vote.inner.opNum
      · subst hk
        rw [Function.update_self] at ht
        cases ht
        exact h.quorumWith hvote e he
      · rw [Function.update_of_ne hk] at ht
        exact h.quorum _ _ _ ht e he
    · rw [Replica.record, Replica.quorums_setQuorum_of_ne hp] at ht
      exact h.quorum _ _ _ ht e he
  case votes =>
    intro phase' k e he
    rw [Replica.entry_record] at he
    exact hcongr (h.votes phase' k e he)
  case nodup => simpa [Replica.record] using h.nodup
  case prepared => simpa [Replica.record] using h.prepared
  case committed => simpa [Replica.record] using h.committed

theorem close (h : Certified π scheme r) {phase : Phase} {k : UInt32} {q : Table UInt8 (Verifiable (Vote phase) σ)}
    (hk : k.toNat < r.log.length) (hq : ∀ e ∈ q.entries, VoteAt π r phase k.toNat e)
    (hprepared : phase = .prepare → (r.entry k.toNat).prePrepare ≠ none ∧ q.entries ≠ [] ∧
      r.numReplica - r.numFaulty ≤ q.len + 1)
    (hcommitted : phase = .commit → (r.entry k.toNat).prepares ≠ [] ∧ r.numReplica - r.numFaulty ≤ q.len) :
    Certified π scheme (r.closeQuorum phase k q) := by
  have hslot : ∀ j, ((r.closeQuorum phase k q).entry j).prePrepare = (r.entry j).prePrepare :=
    Replica.entry_closeQuorum_eq (f := LogEntry.prePrepare) (setVotes_prePrepare phase)
  have hrequests : ∀ j, ((r.closeQuorum phase k q).entry j).requests = (r.entry j).requests :=
    Replica.entry_closeQuorum_eq (f := LogEntry.requests) (setVotes_requests phase)
  have hcongr : ∀ {phase' : Phase} {j : Nat} {e : UInt8 × Verifiable (Vote phase') σ}, VoteAt π r phase' j e →
      VoteAt π (r.closeQuorum phase k q) phase' j e := fun he => he.congr (by simp) (hslot _)
  have hparams : (r.closeQuorum phase k q).params = r.params := by simp
  simp only [Replica.params, Prod.mk.injEq] at hparams
  obtain ⟨hid, hn, hf, hv⟩ := hparams
  have hvotes := Replica.votes_closeQuorum_cases hk q
  constructor
  case known => rw [hid, hn]; exact h.known
  case slot =>
    intro j p hp
    rw [hslot] at hp
    rw [hrequests, hv]
    exact h.slot j p hp
  case quorum =>
    intro phase' j t ht e he
    refine hcongr ?_
    by_cases hp : phase' = phase
    · subst hp
      rw [Replica.closeQuorum, Replica.quorums_setQuorum_self] at ht
      by_cases hj : j = k
      · subst hj
        rw [Function.update_self] at ht
        cases ht
      · rw [Function.update_of_ne hj] at ht
        exact h.quorum _ _ _ (by simpa using ht) e he
    · rw [Replica.closeQuorum, Replica.quorums_setQuorum_of_ne hp] at ht
      exact h.quorum _ _ _ (by simpa using ht) e he
  case votes =>
    intro phase' j e he
    refine hcongr ?_
    rcases hvotes phase' j with heq | ⟨rfl, rfl, heq⟩
    · rw [heq] at he
      exact h.votes phase' j e he
    · rw [heq] at he
      exact hq e he
  case nodup =>
    intro phase' j
    rcases hvotes phase' j with heq | ⟨rfl, rfl, heq⟩
    · rw [heq]
      exact h.nodup phase' j
    · rw [heq]
      exact q.nodup
  case prepared =>
    intro j hne
    rw [hslot, hn, hf]
    rcases hvotes .prepare j with heq | ⟨rfl, rfl, heq⟩
    · have heq' : ((r.closeQuorum phase k q).entry j).prepares = (r.entry j).prepares := heq
      rw [heq'] at hne ⊢
      exact h.prepared j hne
    · have heq' : ((r.closeQuorum .prepare k q).entry k.toNat).prepares = q.entries := heq
      rw [heq']
      exact ⟨(hprepared rfl).1, (hprepared rfl).2.2⟩
  case committed =>
    intro j hne
    rw [hn, hf]
    have hprepares : (r.entry j).prepares ≠ [] → ((r.closeQuorum phase k q).entry j).prepares ≠ [] := by
      intro hp
      rcases hvotes .prepare j with heq | ⟨rfl, rfl, heq⟩
      · exact fun h0 => hp (heq.symm.trans h0)
      · exact fun h0 => (hprepared rfl).2.1 (heq.symm.trans h0)
    rcases hvotes .commit j with heq | ⟨rfl, rfl, heq⟩
    · have heq' : ((r.closeQuorum phase k q).entry j).commits = (r.entry j).commits := heq
      rw [heq'] at hne ⊢
      exact ⟨hprepares (h.committed j hne).1, (h.committed j hne).2⟩
    · have heq' : ((r.closeQuorum .commit k q).entry k.toNat).commits = q.entries := heq
      rw [heq']
      exact ⟨hprepares (hcommitted rfl).1, (hcommitted rfl).2⟩

/-- A pre-prepare and its batch fill a slot that is free; of the votes in the
quorums those for that slot agree with it. -/
theorem fill (h : Certified π scheme r) {p : Verifiable PrePrepare σ} {requests : List (Request A)}
    (hview : p.inner.viewNum = r.viewNum) (hdigest : scheme.digest requests = p.inner.digest)
    (hnone : (r.entry p.inner.opNum.toNat).prePrepare = none) (hparams : r'.params = r.params)
    (hself : (r'.entry p.inner.opNum.toNat).prePrepare = some p ∧
      (r'.entry p.inner.opNum.toNat).requests = requests)
    (hvotes : ∀ phase k, (r'.entry k).votes phase = (r.entry k).votes phase)
    (hother : ∀ k, k ≠ p.inner.opNum.toNat → r'.entry k = r.entry k)
    (hquorum : ∀ phase k t, r'.quorums phase k = some t → ∀ e ∈ t.entries,
      (∃ t₀, r.quorums phase k = some t₀ ∧ e ∈ t₀.entries) ∧
      (k = p.inner.opNum → π.agrees phase p.inner e.2.inner)) :
    Certified π scheme r' ∧ Kept r r' := by
  have hp := hparams
  simp only [Replica.params, Prod.mk.injEq] at hp
  obtain ⟨hid, hn, hf, hv⟩ := hp
  have hempty : ∀ phase k, (r'.entry k).votes phase ≠ [] → r'.entry k = r.entry k := by
    intro phase k hne
    refine hother k fun hk => ?_
    rw [hvotes, hk, h.votes_eq_nil hnone] at hne
    exact hne rfl
  constructor
  · constructor
    case known => rw [hid, hn]; exact h.known
    case slot =>
      intro k q hq
      by_cases hk : k = p.inner.opNum.toNat
      · subst hk
        rw [hself.1] at hq
        cases hq
        exact ⟨rfl, hview.trans hv.symm, by rw [hself.2]; exact hdigest⟩
      · rw [hother k hk] at hq ⊢
        rw [hv]
        exact h.slot k q hq
    case quorum =>
      intro phase k t ht e he
      obtain ⟨⟨t₀, ht₀, he₀⟩, hagrees⟩ := hquorum phase k t ht e he
      have hat := h.quorum phase k t₀ ht₀ e he₀
      by_cases hk : k = p.inner.opNum
      · subst hk
        refine ⟨hat.key, hat.opNum, hat.viewNum.trans hv.symm, hat.known.trans_eq hn.symm, hat.stored, fun q hq => ?_⟩
        rw [hself.1] at hq
        cases hq
        exact hagrees rfl
      · exact hat.congr hparams (by rw [hother _ fun heq => hk (UInt32.toNat_inj.mp heq)])
    case votes =>
      intro phase k e he
      have hentry := hempty phase k (List.ne_nil_of_mem he)
      rw [hentry] at he
      exact (h.votes phase k e he).congr hparams (by rw [hentry])
    case nodup =>
      intro phase k
      rw [hvotes]
      exact h.nodup phase k
    case prepared =>
      intro k hne
      have hentry := hempty .prepare k hne
      rw [hentry] at hne ⊢
      rw [hn, hf]
      exact h.prepared k hne
    case committed =>
      intro k hne
      have hentry := hempty .commit k hne
      rw [hentry] at hne ⊢
      rw [hn, hf]
      exact h.committed k hne
  · refine ⟨hparams, fun k q hq => ?_⟩
    have hk : k ≠ p.inner.opNum.toNat := by
      rintro rfl
      rw [hnone] at hq
      cases hq
    rw [hother k hk]
    exact ⟨hq, rfl⟩

end

section
variable {r : Replica S A σ} {p : Verifiable PrePrepare σ} {requests : List (Request A)}

theorem entry_fill_reserve :
    (((r.reserve p.inner.opNum.toNat).fill p requests).entry p.inner.opNum.toNat).prePrepare = some p ∧
      (((r.reserve p.inner.opNum.toNat).fill p requests).entry p.inner.opNum.toNat).requests = requests := by
  rw [Replica.entry_fill_self (Replica.lt_length_reserve _)]
  exact ⟨rfl, rfl⟩

theorem votes_fill_reserve (phase : Phase) (k : Nat) :
    (((r.reserve p.inner.opNum.toNat).fill p requests).entry k).votes phase = (r.entry k).votes phase := by
  by_cases hk : k = p.inner.opNum.toNat
  · rw [hk, Replica.entry_fill_self (Replica.lt_length_reserve _), Replica.entry_reserve]
    cases phase <;> rfl
  · rw [Replica.entry_fill_of_ne hk, Replica.entry_reserve]

theorem retainDigest_quorums {phase : Phase} {opNum : UInt32} {digest : Digest} (k : UInt32) :
    (r.retainDigest opNum digest).quorums phase k = if k = opNum then
      (r.quorums phase opNum).map (·.retain fun vote => vote.inner.digest = digest) else r.quorums phase k := by
  cases phase <;> simp [Replica.retainDigest, Replica.setQuorum, Replica.quorums, Function.update_apply]

theorem quorums_retainDigest {phase : Phase} {opNum : UInt32} {digest : Digest} {k : UInt32}
    {t : Table UInt8 (Verifiable (Vote phase) σ)} (ht : (r.retainDigest opNum digest).quorums phase k = some t)
    {e : UInt8 × Verifiable (Vote phase) σ} (he : e ∈ t.entries) :
    (∃ t₀, r.quorums phase k = some t₀ ∧ e ∈ t₀.entries) ∧ (k = opNum → e.2.inner.digest = digest) := by
  rw [retainDigest_quorums] at ht
  split at ht
  · next hk =>
    subst hk
    obtain ⟨t₀, ht₀, rfl⟩ := Option.map_eq_some_iff.mp ht
    rw [Table.mem_retain] at he
    exact ⟨⟨t₀, ht₀, he.1⟩, fun _ => of_decide_eq_true he.2⟩
  · next hk => exact ⟨⟨t, ht, he⟩, fun heq => absurd heq hk⟩

end

section
variable [DigestHash A] {π : Policy} {scheme : Scheme σ} {r : Replica S A σ}

section
variable {p : Verifiable PrePrepare σ} {requests : List (Request A)}

theorem fillOwn (h : Certified π scheme r) (hview : p.inner.viewNum = r.viewNum)
    (hdigest : scheme.digest requests = p.inner.digest) (hnone : (r.entry p.inner.opNum.toNat).prePrepare = none)
    (hquorum : ∀ phase t, r.quorums phase p.inner.opNum = some t → ∀ e ∈ t.entries,
      π.agrees phase p.inner e.2.inner) :
    Certified π scheme ((r.reserve p.inner.opNum.toNat).fill p requests) ∧
      Kept r ((r.reserve p.inner.opNum.toNat).fill p requests) := by
  refine h.fill hview hdigest hnone (by simp) entry_fill_reserve votes_fill_reserve
    (fun k hk => by rw [Replica.entry_fill_of_ne hk, Replica.entry_reserve]) fun phase k t ht e he => ?_
  have ht' : r.quorums phase k = some t := by simpa [Replica.fill] using ht
  refine ⟨⟨t, ht', he⟩, ?_⟩
  rintro rfl
  exact hquorum phase t ht' e he

theorem fillVerified (h : Certified π scheme r) (hview : p.inner.viewNum = r.viewNum)
    (hdigest : scheme.digest requests = p.inner.digest) (hnone : (r.entry p.inner.opNum.toNat).prePrepare = none) :
    Certified π scheme
        (((r.reserve p.inner.opNum.toNat).fill p requests).retainDigest p.inner.opNum p.inner.digest) ∧
      Kept r (((r.reserve p.inner.opNum.toNat).fill p requests).retainDigest p.inner.opNum p.inner.digest) := by
  refine h.fill hview hdigest hnone (by simp) (by simpa using entry_fill_reserve)
    (fun phase k => by rw [Replica.entry_retainDigest, votes_fill_reserve])
    (fun k hk => by rw [Replica.entry_retainDigest, Replica.entry_fill_of_ne hk, Replica.entry_reserve])
    fun phase k t ht e he => ?_
  obtain ⟨⟨t₀, ht₀, he₀⟩, hd⟩ := quorums_retainDigest ht he
  exact ⟨⟨t₀, by simpa [Replica.fill] using ht₀, he₀⟩, fun hk => π.of_digest (hd hk)⟩

end

theorem insertVote [App S] (h : Certified π scheme r) {phase : Phase} {vote : Verifiable (Vote phase) σ}
    (hview : vote.inner.viewNum = r.viewNum) (hknown : vote.inner.replicaId.toNat < r.numReplica)
    (hstored : π.stored phase vote.inner) (hmatched : r.Matched phase vote) :
    (r.insertVote phase vote).Sat (fun r' es => Certified π scheme r' ∧ Kept r r' ∧
      ∀ phase v, Job.signVote phase v ∈ submitted es → Own r' phase v) fun _ => True := by
  have hat : VoteAt π r phase vote.inner.opNum.toNat (vote.inner.replicaId, vote) := by
    refine ⟨rfl, rfl, hview, hknown, hstored, fun p hp => π.of_digest ?_⟩
    rw [Replica.Matched, hp] at hmatched
    exact hmatched
  have hrecord := h.record hat
  have hkeptRecord : Kept r (r.record phase vote) := .of_entry (by simp) fun k => by simp
  have hkeptClose : Kept r ((r.record phase vote).closeQuorum phase vote.inner.opNum (r.quorumWith phase vote)) :=
    hkeptRecord.trans (.of_entry (by simp) fun k =>
      ⟨Replica.entry_closeQuorum_eq (f := LogEntry.prePrepare) (setVotes_prePrepare phase) k,
        Replica.entry_closeQuorum_eq (f := LogEntry.requests) (setVotes_requests phase) k⟩)
  have hentries : ∀ e ∈ (r.quorumWith phase vote).entries,
      VoteAt π (r.record phase vote) phase vote.inner.opNum.toNat e :=
    fun e he => (h.quorumWith hat e he).congr (by simp) (by simp)
  cases phase with
  | prepare =>
    refine Replica.insertPrepare_sat ⟨hrecord, hkeptRecord, by simp⟩ (fun hlen hk _ => ?_) trivial
    -- The slot has a pre-prepare, or the vote would not have completed the quorum.
    obtain ⟨p, hp⟩ : ∃ p, (r.entry vote.inner.opNum.toNat).prePrepare = some p := by
      cases hp : (r.entry vote.inner.opNum.toNat).prePrepare with
      | none =>
        rw [Replica.Matched, hp] at hmatched
        have := hmatched rfl hk
        omega
      | some p => exact ⟨p, rfl⟩
    rw [Replica.Matched, hp] at hmatched
    have hne : (r.quorumWith .prepare vote).entries ≠ [] := by simp [Replica.quorumWith, Table.insert]
    refine ⟨hrecord.close (by simpa [Replica.record] using hk) hentries
      (fun _ => ⟨by simp [hp], hne, by simpa [Replica.record] using hlen⟩) (fun h => by cases h), hkeptClose, ?_⟩
    intro phase v hmem
    rw [submitted_submit, submitted_nil, List.mem_singleton] at hmem
    cases hmem
    exact Own.kept hkeptClose ⟨rfl, rfl, (fun h => by cases h), p, hp, hmatched⟩
  | commit =>
    refine Replica.insertCommit_sat ⟨hrecord, hkeptRecord, by simp⟩ (fun hlen hk _ hprepares => ?_) trivial
    have hclose := hrecord.close (k := vote.inner.opNum) (by simpa [Replica.record] using hk) hentries
      (fun h => by cases h) (fun _ => ⟨by simpa using hprepares, by simpa [Replica.record] using hlen⟩)
    refine Replica.advance_sat (R := fun _ => True) (I := fun r' es => Certified π scheme r' ∧ Kept r r' ∧
      ∀ phase v, Job.signVote phase v ∈ submitted es → Own r' phase v) (fun _ _ _ => trivial)
      (fun entry r₁ es h₁ _ _ _ => ?_) (fun r₁ es h₁ => ?_) [] ⟨hclose, hkeptClose, by simp⟩
    · obtain ⟨hc, hk, ho⟩ := h₁
      refine Replica.executeRequests_sat (R := fun _ => True) (I := fun _ r' es => Certified π scheme r' ∧ Kept r r' ∧
        ∀ phase v, Job.signVote phase v ∈ submitted es → Own r' phase v) (fun _ _ _ _ _ _ => trivial)
        (fun request rest r₂ es app result h₂ _ => ?_) entry.requests es ?_
      · obtain ⟨hc, hk, ho⟩ := h₂
        have hkept : Kept r₂ (r₂.executed request app ⟨request.seq, result, r₂.viewNum, r₂.id⟩) :=
          .of_entry rfl fun _ => ⟨rfl, rfl⟩
        exact ⟨hc.congr rfl (fun _ => rfl) rfl, hk.trans hkept,
          fun phase v hmem => (ho phase v (by simpa using hmem)).kept hkept⟩
      · have hkept : Kept r₁ { r₁ with commitNum := r₁.commitNum + 1 } := .of_entry rfl fun _ => ⟨rfl, rfl⟩
        exact ⟨hc.congr rfl (fun _ => rfl) rfl, hk.trans hkept, fun phase v hmem => (ho phase v hmem).kept hkept⟩
    · obtain ⟨hc, hk, ho⟩ := h₁
      refine Replica.closeBatch_sat (fun _ _ _ => ?_) trivial
      have hkept : Kept r₁ { r₁ with opNum := r₁.opNum + 1, requests := r₁.requests.drop 100 } :=
        .of_entry rfl fun _ => ⟨rfl, rfl⟩
      exact ⟨hc.congr rfl (fun _ => rfl) rfl, hk.trans hkept,
        fun phase v hmem => (ho phase v (by simpa using hmem)).kept hkept⟩

end

end Certified

/-! ## Steps of a node -/

structure Node.Certifies [DigestHash A] (π : Policy) (scheme : Scheme σ) (node : Node S A σ) : Prop where
  replica : Certified π scheme node.replica
  jobs : ∀ phase v, Job.signVote phase v ∈ node.jobs → Own node.replica phase v
  signed : ∀ phase v, SignedMessage.vote phase v ∈ node.signed → Own node.replica phase v

namespace Node.Certifies

section
variable [DigestHash A] {π : Policy} {scheme : Scheme σ} {node : Node S A σ}

theorem mono {π' : Policy} (h : node.Certifies π scheme) (hs : ∀ phase v, π.stored phase v → π'.stored phase v)
    (ha : ∀ phase p v, π.stored phase v → π.agrees phase p v → π'.agrees phase p v) : node.Certifies π' scheme :=
  ⟨h.replica.mono hs ha, h.jobs, h.signed⟩

theorem apply (h : node.Certifies π scheme) {out : Handler A σ (Replica S A σ)}
    (hout : out.Sat (fun r es => Certified π scheme r ∧ Kept node.replica r ∧
      ∀ phase v, Job.signVote phase v ∈ submitted es → Own r phase v) fun _ => True) :
    (node.apply out).Certifies π scheme := by
  refine Node.apply_sat (J := Node.Certifies π scheme) (hout.mono (fun r es hr => ?_) fun _ _ _ => ⟨h.1, h.2, h.3⟩)
  obtain ⟨hc, hk, ho⟩ := hr
  refine ⟨hc, fun phase v hmem => ?_, fun phase v hmem => (h.signed phase v hmem).kept hk⟩
  rcases List.mem_append.mp hmem with hmem | hmem
  · exact (h.jobs phase v hmem).kept hk
  · exact ho phase v hmem

theorem apply_congr (h : node.Certifies π scheme) {out : Handler A σ (Replica S A σ)}
    (hout : out.Sat (fun r es => r.params = node.replica.params ∧ (∀ k, r.entry k = node.replica.entry k) ∧
      r.quorums = node.replica.quorums ∧ ∀ phase v, Job.signVote phase v ∉ submitted es) fun _ => True) :
    (node.apply out).Certifies π scheme := by
  refine h.apply (hout.mono (fun r es hr => ?_) fun _ _ => trivial)
  obtain ⟨hparams, hentry, hquorums, hjobs⟩ := hr
  exact ⟨h.replica.congr hparams hentry hquorums, .of_entry hparams fun k => by rw [hentry]; exact ⟨rfl, rfl⟩,
    fun phase v hmem => absurd hmem (hjobs phase v)⟩

theorem recv (h : node.Certifies π scheme) (message : ToReplica A σ) :
    (node.apply (node.replica.onRecv message)).Certifies π scheme := by
  refine h.apply_congr ?_
  cases message with
  | request request =>
    refine Replica.onRecvRequest_sat ⟨rfl, fun _ => rfl, rfl, by simp⟩ (fun _ _ => ⟨rfl, fun _ => rfl, rfl, by simp⟩)
      (fun _ _ => ⟨⟨rfl, fun _ => rfl, rfl, by simp⟩, ?_⟩) trivial
    exact Replica.closeBatch_sat (fun _ _ _ => ⟨rfl, fun _ => rfl, rfl, by simp⟩) trivial
  | prePrepare prePrepare requests =>
    exact Replica.onRecvPrePrepare_sat ⟨rfl, fun _ => rfl, rfl, by simp⟩
      (fun _ _ => ⟨rfl, fun _ => rfl, rfl, by simp⟩) trivial
  | vote phase vote =>
    exact Replica.onRecvVote_sat (fun _ _ => ⟨by simp, by simp, by simp, by simp⟩) ⟨rfl, fun _ => rfl, rfl, by simp⟩
      (fun _ _ _ => ⟨by simp, by simp, by simp, by simp⟩) trivial

variable [App S]

theorem insert (h : node.Certifies π scheme) {phase : Phase} (vote : Verifiable (Vote phase) σ)
    (hknown : vote.inner.replicaId.toNat < node.replica.numReplica) (hstored : π.stored phase vote.inner)
    (hmatched : node.replica.Matched phase vote) :
    (node.apply (node.replica.onSignedVote phase vote)).Certifies π scheme ∧
      (node.apply (node.replica.onVerifiedVote phase vote)).Certifies π scheme := by
  have hkeep : Certified π scheme node.replica ∧ Kept node.replica node.replica ∧
      ∀ phase v, Job.signVote phase v ∈ submitted ([] : List (Effect A σ)) → Own node.replica phase v :=
    ⟨h.replica, .refl _, by simp⟩
  constructor
  · refine h.apply (Replica.onSignedVote_sat (fun _ => hkeep) hkeep (fun hv _ => ?_) trivial)
    exact (h.replica.insertVote hv hknown hstored hmatched).mono (fun _ _ hr => by simpa using hr) fun _ _ => trivial
  · refine h.apply (Replica.onVerifiedVote_sat (fun _ => hkeep) fun hv => ?_)
    refine (h.replica.insertVote hv hknown hstored hmatched).mono (fun r es hr => ⟨fun _ => hr, fun votes _ => ?_⟩)
      fun _ _ => trivial
    obtain ⟨hc, hk, ho⟩ := hr
    have hdrain : ∀ vs, Certified π scheme (r.setPending phase vote.inner.opNum vs) ∧
        Kept r (r.setPending phase vote.inner.opNum vs) := fun vs =>
      ⟨hc.congr (by simp) (by simp) (by simp), .of_entry (by simp) fun k => by simp⟩
    refine Replica.drainPending_sat votes ?_ (fun popped v rest _ _ _ => ?_) trivial
    · exact ⟨(hdrain _).1, hk.trans (hdrain _).2, fun phase v hmem => (ho phase v (by simpa using hmem)).kept (hdrain _).2⟩
    · exact ⟨(hdrain _).1, hk.trans (hdrain _).2, fun phase v hmem => (ho phase v (by simpa using hmem)).kept (hdrain _).2⟩

variable {crypto : Crypto σ} {input : Input A σ}

/-- A step whose votes are known and match their slots. The votes in the
quorums for the op number of a pre-prepare that the replica has signed agree
with it, and only a backup accepts one that it has verified. -/
theorem step (h : node.Certifies π crypto.scheme) (hproposes : node.Proposes)
    (hn : node.replica.numReplica = crypto.numReplica)
    (hbackup : ∀ i p requests, node.finishes input = some (.verifyPrePrepare i p requests) →
      crypto.verify i p = true → (node.replica.entry p.inner.opNum.toNat).prePrepare = none →
      node.replica.isPrimary = false)
    (hlog : ∀ viewNum opNum requests, node.finishes input = some (.signPrePrepare viewNum opNum requests) →
      ∀ phase t, node.replica.quorums phase opNum = some t → ∀ e ∈ t.entries,
        π.agrees phase ⟨viewNum, opNum, crypto.scheme.digest requests⟩ e.2.inner)
    (hsign : ∀ phase v, node.finishes input = some (.signVote phase v) → π.stored phase v)
    (hverify : ∀ phase vote, node.finishes input = some (.verifyVote phase vote) →
      crypto.verify vote.inner.replicaId.toNat vote = true →
      π.stored phase vote.inner ∧ node.replica.Matched phase vote) :
    (node.step crypto input).Certifies π crypto.scheme := by
  refine Node.step_sat (J := Node.Certifies π crypto.scheme) (fun message _ => h.recv message) (fun _ => h)
    fun n job hinput hjob => ?_
  subst hinput
  have hmem := List.mem_of_getElem? hjob
  have hleft : ∀ l : List SignedMessage, (∀ phase v, SignedMessage.vote phase v ∈ l → Own node.replica phase v) →
      Node.Certifies π crypto.scheme { node with jobs := node.jobs.eraseIdx n, signed := node.signed ++ l } := by
    refine fun l hl => ⟨h.replica, fun phase v hm => h.jobs phase v (List.mem_of_mem_eraseIdx hm), fun phase v hm => ?_⟩
    rcases List.mem_append.mp hm with hm | hm
    · exact h.signed phase v hm
    · exact hl phase v hm
  cases job with
  | signPrePrepare viewNum opNum requests =>
    obtain ⟨-, hv, -, hnone⟩ := hproposes.primary _ _ _ hmem
    refine (hleft _ (by simp [Job.signs])).apply (Replica.onSignedPrePrepare_sat (fun hne => absurd hv hne)
      (fun _ _ => ?_) fun _ _ => trivial)
    have hfill := h.replica.fillOwn (p := crypto.sign ⟨viewNum, opNum, crypto.scheme.digest requests⟩) hv rfl hnone
      (hlog viewNum opNum requests hjob)
    exact ⟨hfill.1, hfill.2, by simp⟩
  | verifyPrePrepare i p requests =>
    simp only [Node.finish, Job.run]
    by_cases hvalid : crypto.scheme.digest requests = p.inner.digest ∧ crypto.verify i p = true
    · rw [if_pos hvalid]
      refine (hleft [] (by simp)).apply (Replica.onVerifiedPrePrepare_sat ⟨h.replica, .refl _, by simp⟩ ?_
        fun hv hnone => ?_)
      · exact ⟨h.replica.congr (by simp) (by simp) (by simp), .of_entry (by simp) fun k => by simp, by simp⟩
      have hfill := h.replica.fillVerified hv hvalid.1 hnone
      refine ⟨hfill.1, hfill.2, fun phase v hm => ?_⟩
      rw [submitted_submit, submitted_nil, List.mem_singleton] at hm
      cases hm
      have hparams := hfill.2.params
      simp only [Replica.params, Prod.mk.injEq] at hparams
      refine ⟨hparams.1.symm, hparams.2.2.2.symm, fun _ => ?_, p, by simpa using Certified.entry_fill_reserve.1, rfl⟩
      rw [Replica.isPrimary_congr hfill.2.params]
      exact hbackup i p requests hjob hvalid.2 hnone
    · rw [if_neg hvalid]
      exact hleft [] (by simp)
  | signVote phase vote =>
    have hown := h.jobs phase vote hmem
    obtain ⟨p, hp, hd⟩ := hown.filled
    have hcert := hleft [.vote phase vote] fun phase v hm => by
      rw [List.mem_singleton] at hm
      cases hm
      exact hown
    refine (hcert.insert (crypto.sign vote) ?_ (hsign phase vote hjob) ?_).1
    · exact (congrArg UInt8.toNat hown.replicaId).trans_lt h.replica.known
    · have hslot : (node.replica.entry (crypto.sign vote).inner.opNum.toNat).prePrepare = some p := hp
      simp only [Replica.Matched, hslot]
      exact hd
  | verifyVote phase vote =>
    simp only [Node.finish, Job.run]
    by_cases hvalid : crypto.verify vote.inner.replicaId.toNat vote = true
    · rw [if_pos hvalid]
      obtain ⟨hstored, hmatched⟩ := hverify phase vote hjob hvalid
      refine ((hleft [] (by simp)).insert vote ?_ hstored hmatched).2
      have := hvalid
      simp only [Crypto.verify, Bool.and_eq_true, decide_eq_true_eq] at this
      rw [hn]
      exact this.1
    · rw [if_neg hvalid]
      exact hleft [] (by simp)

end

end Node.Certifies

end

end Neatworks.Pbft
