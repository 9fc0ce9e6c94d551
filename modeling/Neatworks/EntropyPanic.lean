import Neatworks.EntropyRun

/-!
# Handlers that do not panic

The jobs that an event comes from are those of an upload, of a download or of a
fragment that is persisted, one for each chunk at most. A handler panics if the
state that its event is routed to is not the one that the job was submitted
for; as long as no step lets the two part, none does.
-/

namespace Neatworks.Entropy

open Outcome
open Kademlia (PeerId Target)

/-- What a job is for. -/
inductive Kind
  | upload
  | download
  | persist
  deriving DecidableEq

section
variable {K P σ : Type} {codec : Codec}

def decodeKind : Option UInt32 → Kind
  | none => .download
  | some _ => .persist

/-- The chunk that an event of the job changes the state of, and which state. -/
def Job.work : Job codec → Option (Kind × Chunk)
  | .newEncoder chunk _ _ => some (.upload, chunk)
  | .encode .. => none
  | .decode chunk _ _ encodeIndex _ => some (decodeKind encodeIndex, chunk)

def work (es : List (Effect K P σ codec)) : List (Kind × Chunk) := (submitted es).filterMap Job.work

@[simp] theorem work_append (es es' : List (Effect K P σ codec)) : work (es ++ es') = work es ++ work es' := by
  rw [work, submitted_append, List.filterMap_append]
  rfl

def Run.work (run : Run K P σ codec) : List (Kind × Chunk) := run.jobs.filterMap Job.work

def Fail.IsPanic : Fail → Prop
  | .panic _ | .unreachable => True
  | .bail _ | .duplicatedUpload _ | .duplicatedDownload _ | .codec => False

/-- The decoder is out with a job. -/
def PersistStatus.IsDecoding {D : Type} : PersistStatus D → Prop
  | .recovering recover => recover.decoder = none
  | .storing | .available => False

theorem PersistStatus.IsDecoding.recovering {D : Type} {status : PersistStatus D} (h : status.IsDecoding) :
    status.IsRecovering := by
  cases status with
  | recovering => trivial
  | storing => exact h
  | available => exact h

/-! ## The joint invariant -/

/-- Every job in flight finds the state that it was submitted for. -/
structure Settled (peer : Peer K P σ codec) (jobs : List (Kind × Chunk)) (stores : List Chunk) : Prop where
  nodup : jobs.Nodup
  upload : ∀ chunk state, peer.uploads chunk = some state → state.encoder ≠ none → (.upload, chunk) ∉ jobs
  download : ∀ chunk, (.download, chunk) ∈ jobs → ∃ state, peer.downloads chunk = some state ∧ state.recover.decoder = none
  persist : ∀ chunk, (.persist, chunk) ∈ jobs → peer.downloads chunk = none ∧
    ∃ state, peer.persists chunk = some state ∧ state.status.IsDecoding
  store : ∀ chunk ∈ stores, ∃ state, peer.persists chunk = some state ∧ ¬ state.status.IsRecovering

namespace Settled

variable {self : Peer K P σ codec} {jobs : List (Kind × Chunk)} {stores : List Chunk} {chunk : Chunk}

theorem setUpload (h : Settled self jobs stores) {state : Option (UploadState K codec.Encoder)}
    (hstate : ∀ st, state = some st → st.encoder ≠ none → (.upload, chunk) ∉ jobs) :
    Settled (self.setUpload chunk state) jobs stores := by
  refine ⟨h.nodup, fun c st hst hencoder => ?_, h.download, h.persist, h.store⟩
  rw [Peer.setUpload_uploads] at hst
  by_cases hc : c = chunk
  · subst hc
    rw [Function.update_self] at hst
    exact hstate st hst hencoder
  · rw [Function.update_of_ne hc] at hst
    exact h.upload c st hst hencoder

theorem setDownload (h : Settled self jobs stores) {state : Option (DownloadState K codec.Decoder)}
    (hdownload : (.download, chunk) ∈ jobs → ∃ st, state = some st ∧ st.recover.decoder = none)
    (hpersist : (.persist, chunk) ∈ jobs → state = none) : Settled (self.setDownload chunk state) jobs stores := by
  refine ⟨h.nodup, h.upload, fun c hmem => ?_, fun c hmem => ⟨?_, (h.persist c hmem).2⟩, h.store⟩
  · rw [Peer.setDownload_downloads]
    by_cases hc : c = chunk
    · subst hc
      rw [Function.update_self]
      exact hdownload hmem
    · rw [Function.update_of_ne hc]
      exact h.download c hmem
  · rw [Peer.setDownload_downloads]
    by_cases hc : c = chunk
    · subst hc
      rw [Function.update_self]
      exact hpersist hmem
    · rw [Function.update_of_ne hc]
      exact (h.persist c hmem).1

theorem setPersist (h : Settled self jobs stores) {state : PersistState codec.Decoder}
    (hpersist : (.persist, chunk) ∈ jobs → state.status.IsDecoding) (hstore : chunk ∈ stores → ¬ state.status.IsRecovering) :
    Settled (self.setPersist chunk (some state)) jobs stores := by
  refine ⟨h.nodup, h.upload, h.download, fun c hmem => ⟨(h.persist c hmem).1, ?_⟩, fun c hmem => ?_⟩
  · rw [Peer.setPersist_persists]
    by_cases hc : c = chunk
    · subst hc
      exact ⟨state, Function.update_self .., hpersist hmem⟩
    · rw [Function.update_of_ne hc]
      exact (h.persist c hmem).2
  · rw [Peer.setPersist_persists]
    by_cases hc : c = chunk
    · subst hc
      exact ⟨state, Function.update_self .., hstore hmem⟩
    · rw [Function.update_of_ne hc]
      exact h.store c hmem

theorem perm {jobs' : List (Kind × Chunk)} {stores' : List Chunk} (h : Settled self jobs stores) (hjobs : jobs.Perm jobs')
    (hstores : ∀ c ∈ stores', c ∈ stores) : Settled self jobs' stores' :=
  ⟨hjobs.nodup h.nodup, fun c st hst hencoder hmem => h.upload c st hst hencoder (hjobs.mem_iff.mpr hmem),
    fun c hmem => h.download c (hjobs.mem_iff.mpr hmem), fun c hmem => h.persist c (hjobs.mem_iff.mpr hmem),
    fun c hmem => h.store c (hstores c hmem)⟩

theorem drop {job : Kind × Chunk} (h : Settled self (job :: jobs) stores) : Settled self jobs stores ∧ job ∉ jobs :=
  ⟨⟨(List.nodup_cons.mp h.nodup).2, fun c st hst hencoder hmem => h.upload c st hst hencoder (List.mem_cons_of_mem _ hmem),
    fun c hmem => h.download c (List.mem_cons_of_mem _ hmem), fun c hmem => h.persist c (List.mem_cons_of_mem _ hmem),
    h.store⟩, (List.nodup_cons.mp h.nodup).1⟩

theorem add {job : Kind × Chunk} (h : Settled self jobs stores) (hnot : job ∉ jobs)
    (hupload : ∀ chunk, job = (.upload, chunk) → ∀ state, self.uploads chunk = some state → state.encoder = none)
    (hdownload : ∀ chunk, job = (.download, chunk) →
      ∃ state, self.downloads chunk = some state ∧ state.recover.decoder = none)
    (hpersist : ∀ chunk, job = (.persist, chunk) → self.downloads chunk = none ∧
      ∃ state, self.persists chunk = some state ∧ state.status.IsDecoding) : Settled self (jobs ++ [job]) stores := by
  have hmem : ∀ {job'}, job' ∈ jobs ++ [job] → job' ∈ jobs ∨ job = job' := fun hmem =>
    (List.mem_append.mp hmem).imp_right fun hone => (List.mem_singleton.mp hone).symm
  refine ⟨?_, fun c st hst hencoder hc => ?_, fun c hc => ?_, fun c hc => ?_, h.store⟩
  · refine List.nodup_append.mpr ⟨h.nodup, List.nodup_singleton _, fun a ha b hb heq => hnot ?_⟩
    rw [← List.mem_singleton.mp hb, ← heq]
    exact ha
  · rcases hmem hc with hc | heq
    · exact h.upload c st hst hencoder hc
    · exact hencoder (hupload c heq st hst)
  · exact (hmem hc).elim (h.download c) (hdownload c)
  · exact (hmem hc).elim (h.persist c) (hpersist c)

theorem addUpload (h : Settled self jobs stores) (hnot : (.upload, chunk) ∉ jobs)
    (hstate : ∀ state, self.uploads chunk = some state → state.encoder = none) :
    Settled self (jobs ++ [(.upload, chunk)]) stores := by
  refine h.add hnot (fun c hjob => ?_) nofun nofun
  cases hjob
  exact hstate

theorem addDownload (h : Settled self jobs stores) (hnot : (.download, chunk) ∉ jobs)
    (hstate : ∃ state, self.downloads chunk = some state ∧ state.recover.decoder = none) :
    Settled self (jobs ++ [(.download, chunk)]) stores := by
  refine h.add hnot nofun (fun c hjob => ?_) nofun
  cases hjob
  exact hstate

theorem addPersist (h : Settled self jobs stores) (hnot : (.persist, chunk) ∉ jobs) (hnone : self.downloads chunk = none)
    (hstate : ∃ state, self.persists chunk = some state ∧ state.status.IsDecoding) :
    Settled self (jobs ++ [(.persist, chunk)]) stores := by
  refine h.add hnot nofun nofun fun c hjob => ?_
  cases hjob
  exact ⟨hnone, hstate⟩

theorem addStore (h : Settled self jobs stores)
    (hstate : ∃ state, self.persists chunk = some state ∧ ¬ state.status.IsRecovering) : Settled self jobs (stores ++ [chunk]) := by
  refine ⟨h.nodup, h.upload, h.download, h.persist, fun c hmem => ?_⟩
  rcases List.mem_append.mp hmem with hmem | hmem
  · exact h.store c hmem
  · rw [List.mem_singleton.mp hmem]
    exact hstate

theorem of_eq {peer : Peer K P σ codec} (h : Settled self jobs stores) (huploads : peer.uploads = self.uploads)
    (hdownloads : peer.downloads = self.downloads) (hpersists : peer.persists = self.persists) : Settled peer jobs stores := by
  refine ⟨h.nodup, ?_, ?_, ?_, ?_⟩
  · rw [huploads]
    exact h.upload
  · rw [hdownloads]
    exact h.download
  · rw [hdownloads, hpersists]
    exact h.persist
  · rw [hpersists]
    exact h.store

end Settled

/-! ## What a handler keeps -/

/-- The handler keeps the invariant and does not panic. -/
def Keeps (jobs : List (Kind × Chunk)) (stores : List Chunk) (x : Handler K P σ codec (Peer K P σ codec)) : Prop :=
  x.Post (fun peer es => Settled peer (jobs ++ work es) (stores ++ stored es)) fun reason => ¬ reason.IsPanic

variable {self : Peer K P σ codec} {jobs : List (Kind × Chunk)} {stores : List Chunk} {chunk : Chunk}

theorem keeps_pure (h : Settled self jobs stores) : Keeps jobs stores (return self) := by
  change Settled self (jobs ++ []) (stores ++ [])
  rw [List.append_nil, List.append_nil]
  exact h

theorem RecoverState.new_post (fragmentLen : UInt32) (chunkK : ℕ+) :
    (RecoverState.new fragmentLen chunkK : Handler K P σ codec _).Post
      (fun recover es => es = [] ∧ recover.decoder ≠ none) fun reason => ¬ reason.IsPanic := by
  unfold RecoverState.new
  split
  · exact not_false
  · exact ⟨rfl, Option.some_ne_none _⟩

theorem RecoverState.submitDecode_post (recover : RecoverState codec.Decoder) (chunk : Chunk) (index : UInt32)
    (fragment : Bytes) (encodeIndex : Option UInt32) :
    (recover.submitDecode chunk index fragment encodeIndex : Handler K P σ codec _).Post
      (fun recover' es => recover'.decoder = none ∧ stored es = [] ∧
        (recover.decoder = none ∧ work es = [] ∨
          recover.decoder ≠ none ∧ work es = [(decodeKind encodeIndex, chunk)])) fun reason => ¬ reason.IsPanic := by
  unfold RecoverState.submitDecode
  split
  · next decoder hsome => exact ⟨rfl, rfl, Or.inr ⟨by rw [hsome]; exact Option.some_ne_none _, rfl⟩⟩
  · next hnone => exact ⟨hnone, rfl, Or.inl ⟨hnone, rfl⟩⟩

theorem RecoverState.onDecode_post {recover : RecoverState codec.Decoder} (h : recover.decoder = none) (chunk : Chunk)
    (decoder : codec.Decoder) (encodeIndex : Option UInt32) (pick : Nat) :
    (recover.onDecode chunk decoder encodeIndex pick : Handler K P σ codec _).Post
      (fun recover' es => stored es = [] ∧
        (work es = [] ∨ recover'.decoder = none ∧ work es = [(decodeKind encodeIndex, chunk)])) fun reason => ¬ reason.IsPanic := by
  unfold RecoverState.onDecode
  simp only [post_bind, post_assert, List.nil_append]
  refine ⟨fun _ => ?_, fun hnot => absurd (Option.isNone_iff_eq_none.mpr h) hnot⟩
  split
  · exact ⟨rfl, Or.inl rfl⟩
  · refine (RecoverState.submitDecode_post ..).mono fun recover' es hsubmit => ?_
    obtain ⟨hdecoder, hes, hwork⟩ := hsubmit
    refine ⟨hes, ?_⟩
    exact hwork.imp (fun hw => hw.2) fun hw => ⟨hdecoder, hw.2⟩

/-! ## Put -/

theorem onPut_keeps [Preimage K] (h : Settled self jobs stores) (preimage : K) (buf : Bytes)
    (hfree : (.upload, Preimage.target preimage) ∉ jobs) : Keeps jobs stores (self.onPut preimage buf) := by
  unfold Peer.onPut Keeps
  simp only [post_bind, post_assert, post_emit, post_pure]
  refine ⟨fun _ => ⟨fun _ => ?_, fun _ => not_false⟩, fun _ => not_false⟩
  change Settled _ (jobs ++ [(.upload, Preimage.target preimage)]) (stores ++ [])
  rw [List.append_nil]
  refine (h.setUpload ?_).addUpload hfree ?_
  · intro st hst hencoder
    cases hst
    exact absurd rfl hencoder
  · intro state hstate
    rw [Peer.setUpload_uploads, Function.update_self] at hstate
    cases hstate
    rfl

theorem onNewEncoder_keeps (h : Settled self ((.upload, chunk) :: jobs) stores) (encoder : codec.Encoder) :
    Keeps jobs stores (self.onNewEncoder chunk encoder) := by
  obtain ⟨hrest, hnot⟩ := h.drop
  unfold Peer.onNewEncoder
  split
  · exact keeps_pure hrest
  · next state hstate =>
    unfold Keeps
    simp only [post_bind, post_assert, post_emit, post_pure]
    refine ⟨fun _ => ?_, fun hsome => ?_⟩
    · change Settled _ (jobs ++ []) (stores ++ [])
      rw [List.append_nil, List.append_nil]
      exact hrest.setUpload fun _ _ _ => hnot
    · refine absurd List.mem_cons_self (h.upload chunk state hstate fun hnone => hsome ?_)
      rw [hnone]
      rfl

theorem onRecvInvite_keeps (h : Settled self jobs stores) (invite : Invite) (index : UInt32) :
    Keeps jobs stores (self.onRecvInvite invite index) := by
  unfold Peer.onRecvInvite
  split
  · exact keeps_pure h
  · unfold Keeps
    rw [post_bind]
    refine (RecoverState.new_post _ _).mono fun recover es ⟨hes, _⟩ => ?_
    subst hes
    simp only [post_bind, post_emit, post_pure]
    change Settled _ (jobs ++ []) (stores ++ [])
    rw [List.append_nil, List.append_nil]
    refine h.setPersist (fun hmem => ?_) fun hmem => ?_
    · obtain ⟨state, hstate, hdecoding⟩ := (h.persist _ hmem).2
      rw [hstate]
      exact hdecoding
    · obtain ⟨state, hstate, hrecovering⟩ := h.store _ hmem
      rw [hstate]
      exact hrecovering

theorem onRecvInviteOk_keeps (h : Settled self jobs stores) (inviteOk : InviteOk)
    (hencoded : ∀ state, self.uploads inviteOk.chunk = some state → state.pending inviteOk.index = none → state.encoder ≠ none) :
    Keeps jobs stores (self.onRecvInviteOk inviteOk) := by
  unfold Peer.onRecvInviteOk
  split
  · exact keeps_pure h
  · next state hstate =>
    split
    · exact keeps_pure h
    · next hpending =>
      have hpending : state.pending inviteOk.index = none := Option.not_isSome_iff_eq_none.mp hpending
      split
      · next hnone => exact absurd hnone (hencoded state hstate hpending)
      · next encoder hsome =>
        unfold Keeps
        simp only [post_bind, post_emit, post_pure]
        change Settled _ (jobs ++ []) (stores ++ [])
        rw [List.append_nil, List.append_nil]
        refine h.setUpload fun st hst hencoder => ?_
        cases hst
        exact h.upload _ state hstate hencoder

theorem onEncode_keeps (h : Settled self jobs stores) (index : UInt32) (fragment : Bytes) :
    Keeps jobs stores (self.onEncode chunk index fragment) := by
  unfold Peer.onEncode
  split
  · exact keeps_pure h
  · split
    · exact keeps_pure h
    · exact keeps_pure h

theorem onDownloadOk_keeps (h : Settled self jobs stores) (index : UInt32) (fragment : Bytes)
    (hown : self.downloads chunk = none → ∀ state, self.persists chunk = some state → index = state.index →
      (.persist, chunk) ∉ jobs) : Keeps jobs stores (self.onDownloadOk chunk index fragment) := by
  unfold Peer.onDownloadOk
  split
  · next state hstate =>
    unfold Keeps
    rw [post_bind]
    refine (RecoverState.submitDecode_post ..).mono fun recover es hsubmit => ?_
    obtain ⟨hdecoder, hes, hwork⟩ := hsubmit
    rw [post_pure, List.append_nil, hes, List.append_nil]
    have hpersist : (.persist, chunk) ∉ jobs := fun hmem => by
      have hnone := (h.persist chunk hmem).1
      rw [hstate] at hnone
      cases hnone
    have hset : Settled (self.setDownload chunk (some { state with recover := recover })) jobs stores :=
      h.setDownload (fun _ => ⟨_, rfl, hdecoder⟩) fun hmem => absurd hmem hpersist
    rcases hwork with ⟨_, hnil⟩ | ⟨hsome, hone⟩
    · rw [hnil, List.append_nil]
      exact hset
    · rw [hone]
      refine hset.addDownload (fun hmem => ?_) ⟨_, Function.update_self .., hdecoder⟩
      obtain ⟨state', hstate', hnone⟩ := h.download chunk hmem
      rw [hstate] at hstate'
      cases hstate'
      exact hsome hnone
  · next hdownload =>
    split
    · exact keeps_pure h
    · next state hstate =>
      have hstored : ∀ recover, state.status = .recovering recover → chunk ∉ stores := fun recover hstatus hmem => by
        obtain ⟨state', hstate', hrecovering⟩ := h.store _ hmem
        rw [hstate] at hstate'
        cases hstate'
        rw [hstatus] at hrecovering
        exact hrecovering trivial
      split
      · next recover hstatus =>
        split
        · next hindex =>
          unfold Keeps
          simp only [post_bind, post_emit, post_pure]
          change Settled _ (jobs ++ []) (stores ++ [chunk])
          rw [List.append_nil]
          refine (h.setPersist (fun hmem => absurd hmem (hown hdownload state hstate hindex)) fun hmem =>
            absurd hmem (hstored recover hstatus)).addStore ⟨_, Function.update_self .., ?_⟩
          exact not_false
        · split
          · exact keeps_pure h
          · unfold Keeps
            simp only [post_bind]
            refine (RecoverState.submitDecode_post ..).mono fun recover' es hsubmit => ?_
            obtain ⟨hdecoder, hes, hwork⟩ := hsubmit
            rw [post_pure, List.append_nil, hes, List.append_nil]
            have hset : Settled (self.setPersist chunk (some { state with status := .recovering recover' })) jobs stores :=
              h.setPersist (fun _ => hdecoder) fun hmem => absurd hmem (hstored recover hstatus)
            rcases hwork with ⟨_, hnil⟩ | ⟨hsome, hone⟩
            · rw [hnil, List.append_nil]
              exact hset
            · rw [hone]
              refine hset.addPersist (fun hmem => ?_) hdownload ⟨_, Function.update_self .., hdecoder⟩
              obtain ⟨state', hstate', hdecoding⟩ := (h.persist chunk hmem).2
              rw [hstate] at hstate'
              cases hstate'
              rw [hstatus] at hdecoding
              exact hsome hdecoding
      · exact keeps_pure h
      · exact keeps_pure h

section
variable [DigestHash P]

/-- The offer finds the entry in the state for it: a fragment with the own index
is the first, and one that is not needed has the own index. -/
def Expects (status : PersistStatus codec.Decoder) (state : PersistState codec.Decoder) (sendFragment : SendFragment) : Prop :=
  match status with
  | .recovering _ => sendFragment.index = state.index → state.notify = none
  | .storing | .available => sendFragment.peerId ≠ none → sendFragment.index = state.index

theorem onRecvOffer_keeps (h : Settled self jobs stores) (sendFragment : SendFragment)
    (hexpects : self.downloads sendFragment.chunk = none → ∀ state, self.persists sendFragment.chunk = some state →
      Expects state.status state sendFragment) : Keeps jobs stores (self.onRecvOffer sendFragment) := by
  unfold Peer.onRecvOffer
  split
  · exact keeps_pure h
  · next hnone =>
    split
    · exact keeps_pure h
    · next state hstate =>
      have hexpect := hexpects hnone state hstate
      have hsettled : ∀ hpersist : (.persist, sendFragment.chunk) ∈ jobs, state.status.IsDecoding := fun hmem => by
        obtain ⟨state', hstate', hdecoding⟩ := (h.persist _ hmem).2
        rw [hstate] at hstate'
        cases hstate'
        exact hdecoding
      have hstored : ∀ hstore : sendFragment.chunk ∈ stores, ¬ state.status.IsRecovering := fun hmem => by
        obtain ⟨state', hstate', hrecovering⟩ := h.store _ hmem
        rw [hstate] at hstate'
        cases hstate'
        exact hrecovering
      split
      · next recover hstatus =>
        rw [hstatus] at hexpect
        split
        · next hindex =>
          unfold Keeps
          simp only [post_bind, post_assert, post_emit, post_pure]
          refine ⟨fun _ => ⟨fun _ => ?_, fun _ => not_false⟩,
            fun hnot => absurd (Option.isNone_iff_eq_none.mpr (hexpect hindex)) hnot⟩
          change Settled _ (jobs ++ []) (stores ++ [])
          rw [List.append_nil, List.append_nil]
          exact h.setPersist hsettled hstored
        · exact keeps_pure h
      all_goals
        next hstatus =>
        rw [hstatus] at hexpect
        split
        · exact keeps_pure h
        · next peerId hpeer =>
          unfold Keeps
          simp only [post_bind, post_assert, post_emit, post_pure]
          refine ⟨fun _ => keeps_pure h, fun hnot => absurd (hexpect ?_) hnot⟩
          rw [hpeer]
          exact Option.some_ne_none _

theorem onStoreOk_keeps (h : Settled self jobs stores)
    (hstore : ∃ state, self.persists chunk = some state ∧ ¬ state.status.IsRecovering) :
    Keeps jobs stores (self.onStoreOk chunk) := by
  obtain ⟨state', hstate', hrecovering⟩ := hstore
  have hidle : (.persist, chunk) ∉ jobs := fun hmem => by
    obtain ⟨state, hstate, hdecoding⟩ := (h.persist chunk hmem).2
    rw [hstate'] at hstate
    cases hstate
    exact hrecovering hdecoding.recovering
  unfold Peer.onStoreOk
  split
  · exact keeps_pure h
  · next state hstate =>
    split
    · exact keeps_pure (h.setPersist (fun hmem => absurd hmem hidle) fun _ => not_false)
    · exact keeps_pure (h.setPersist (fun hmem => absurd hmem hidle) fun _ => not_false)

theorem onRecvFragmentAvailable_keeps (h : Settled self jobs stores) (m : Verifiable (FragmentAvailable P) σ) :
    Keeps jobs stores (self.onRecvFragmentAvailable m) := by
  unfold Peer.onRecvFragmentAvailable
  dsimp only
  split
  · exact keeps_pure h
  · next state hstate =>
    split
    · exact keeps_pure h
    · split
      · exact keeps_pure (h.setUpload nofun)
      · refine keeps_pure (h.setUpload fun st hst hencoder => ?_)
        cases hst
        exact h.upload _ state hstate hencoder

end

/-! ## Get -/

theorem onGet_keeps [Preimage K] (h : Settled self jobs stores) (preimage : K)
    (hidle : (.persist, Preimage.target preimage) ∉ jobs) : Keeps jobs stores (self.onGet preimage) := by
  unfold Peer.onGet Keeps
  rw [post_bind]
  refine (RecoverState.new_post _ _).mono fun recover es ⟨hes, _⟩ => ?_
  subst hes
  simp only [post_bind, post_assert, post_emit, post_pure]
  refine ⟨fun hnone => keeps_pure (h.setDownload (fun hmem => ?_) fun hmem => absurd hmem hidle), fun _ => not_false⟩
  obtain ⟨state, hstate, _⟩ := h.download _ hmem
  rw [hstate] at hnone
  cases hnone

theorem onRecvPull_keeps (h : Settled self jobs stores) (pull : Pull) : Keeps jobs stores (self.onRecvPull pull) := by
  unfold Peer.onRecvPull
  split
  · exact keeps_pure h
  · split
    · exact keeps_pure (h.of_eq rfl rfl rfl)
    · exact keeps_pure h
    · exact keeps_pure h

theorem offerEach_post (sendFragment : SendFragment) (fragment : Bytes) (pending : List PeerId) :
    (Peer.offerEach sendFragment fragment pending : Handler K P σ codec Unit).Post
      (fun _ es => work es = [] ∧ stored es = []) fun reason => ¬ reason.IsPanic := by
  induction pending with
  | nil => exact ⟨rfl, rfl⟩
  | cons peerId pending ih =>
    rw [Peer.offerEach, post_bind]
    exact ih.mono fun _ es ⟨hwork, hstored⟩ => ⟨by rw [work_append, hwork]; rfl, by rw [stored_append, hstored]; rfl⟩

theorem onLoadOk_keeps (h : Settled self jobs stores) (index : UInt32) (fragment : Bytes) :
    Keeps jobs stores (self.onLoadOk chunk index fragment) := by
  unfold Peer.onLoadOk
  split
  · exact keeps_pure h
  · unfold Keeps
    rw [post_bind]
    refine (offerEach_post ..).mono fun _ es ⟨hwork, hstored⟩ => ?_
    rw [post_pure, List.append_nil, hwork, hstored, List.append_nil, List.append_nil]
    exact h.of_eq rfl rfl rfl

/-! ## Events of the decode jobs -/

theorem onDecode_keeps_download (h : Settled self ((.download, chunk) :: jobs) stores) (decoder : codec.Decoder) (pick : Nat) :
    Keeps jobs stores (self.onDecode chunk decoder pick) := by
  obtain ⟨hrest, hnot⟩ := h.drop
  obtain ⟨state, hstate, hnone⟩ := h.download chunk List.mem_cons_self
  unfold Peer.onDecode
  rw [hstate]
  unfold Keeps
  simp only [post_bind]
  refine (RecoverState.onDecode_post hnone ..).mono fun recover es hdecode => ?_
  obtain ⟨hes, hwork⟩ := hdecode
  rw [post_pure, List.append_nil, hes, List.append_nil]
  have hpersist : (.persist, chunk) ∉ jobs := fun hmem => by
    have hdownloads := (hrest.persist chunk hmem).1
    rw [hstate] at hdownloads
    cases hdownloads
  have hset : Settled (self.setDownload chunk (some { state with recover := recover })) jobs stores :=
    hrest.setDownload (fun hmem => absurd hmem hnot) fun hmem => absurd hmem hpersist
  rcases hwork with hnil | ⟨hdecoder, hone⟩
  · rw [hnil, List.append_nil]
    exact hset
  · rw [hone]
    exact hset.addDownload hnot ⟨_, Function.update_self .., hdecoder⟩

theorem onDecode_keeps_persist (h : Settled self ((.persist, chunk) :: jobs) stores) (decoder : codec.Decoder) (pick : Nat) :
    Keeps jobs stores (self.onDecode chunk decoder pick) := by
  obtain ⟨hrest, hnot⟩ := h.drop
  obtain ⟨hdownload, state, hstate, hdecoding⟩ := h.persist chunk List.mem_cons_self
  have hstored : state.status.IsRecovering → chunk ∉ stores := fun hrecovering hmem => by
    obtain ⟨state', hstate', hnot'⟩ := h.store _ hmem
    rw [hstate] at hstate'
    cases hstate'
    exact hnot' hrecovering
  unfold Peer.onDecode
  rw [hdownload]
  dsimp only
  rw [hstate]
  dsimp only
  split
  · next recover hstatus =>
    rw [hstatus] at hdecoding hstored
    unfold Keeps
    simp only [post_bind]
    refine (RecoverState.onDecode_post hdecoding ..).mono fun recover' es hdecode => ?_
    obtain ⟨hes, hwork⟩ := hdecode
    rw [post_pure, List.append_nil, hes, List.append_nil]
    have hset : Settled (self.setPersist chunk (some { state with status := .recovering recover' })) jobs stores :=
      hrest.setPersist (fun hmem => absurd hmem hnot) fun hmem => absurd hmem (hstored trivial)
    rcases hwork with hnil | ⟨hdecoder, hone⟩
    · rw [hnil, List.append_nil]
      exact hset
    · rw [hone]
      exact hset.addPersist hnot hdownload ⟨_, Function.update_self .., hdecoder⟩
  · next hstatus =>
    rw [hstatus] at hdecoding
    exact absurd hdecoding not_false
  · next hstatus =>
    rw [hstatus] at hdecoding
    exact absurd hdecoding not_false

theorem onRecover_keeps (h : Settled self ((.download, chunk) :: jobs) stores) (buf : Bytes) :
    Keeps jobs stores (self.onRecover chunk buf) := by
  obtain ⟨hrest, hnot⟩ := h.drop
  unfold Peer.onRecover
  split
  · exact keeps_pure hrest
  · exact keeps_pure (hrest.setDownload (fun hmem => absurd hmem hnot) fun _ => rfl)

theorem onRecoverEncode_keeps (h : Settled self ((.persist, chunk) :: jobs) stores) (fragment : Bytes) :
    Keeps jobs stores (self.onRecoverEncode chunk fragment) := by
  obtain ⟨hrest, hnot⟩ := h.drop
  obtain ⟨_, state, hstate, hdecoding⟩ := h.persist chunk List.mem_cons_self
  have hstored : state.status.IsRecovering → chunk ∉ stores := fun hrecovering hmem => by
    obtain ⟨state', hstate', hnot'⟩ := h.store _ hmem
    rw [hstate] at hstate'
    cases hstate'
    exact hnot' hrecovering
  unfold Peer.onRecoverEncode
  rw [hstate]
  dsimp only
  split
  · next recover hstatus =>
    rw [hstatus] at hstored
    unfold Keeps
    simp only [post_bind, post_emit, post_pure]
    change Settled _ (jobs ++ []) (stores ++ [chunk])
    rw [List.append_nil]
    refine (hrest.setPersist (fun hmem => absurd hmem hnot) fun hmem => absurd hmem (hstored trivial)).addStore
      ⟨_, Function.update_self .., ?_⟩
    exact not_false
  · next hstatus =>
    rw [hstatus] at hdecoding
    exact absurd hdecoding not_false
  · next hstatus =>
    rw [hstatus] at hdecoding
    exact absurd hdecoding not_false

theorem onCodec_keeps {self : Peer K P σ codec} {job : Job codec} {event : CodecEvent codec} {rest : List (Kind × Chunk)}
    {stores : List Chunk} (hrun : job.run = some event) (h : Settled self (job.work.toList ++ rest) stores) (pick : Nat) :
    Keeps rest stores (self.onCodec pick event) := by
  cases job with
  | newEncoder chunk buf fragmentLen =>
    obtain ⟨encoder, _, rfl⟩ := Option.map_eq_some_iff.mp hrun
    exact onNewEncoder_keeps h encoder
  | encode chunk index encoder =>
    obtain ⟨fragment, _, rfl⟩ := Option.map_eq_some_iff.mp hrun
    exact onEncode_keeps h index fragment
  | decode chunk index fragment encodeIndex decoder =>
    cases hdecode : codec.decode decoder index fragment with
    | none =>
      simp only [Job.run, hdecode] at hrun
      cases hrun
    | some decoded =>
      obtain ⟨decoder', complete⟩ := decoded
      cases complete with
      | false =>
        simp only [Job.run, hdecode] at hrun
        cases hrun
        cases encodeIndex with
        | none => exact onDecode_keeps_download h decoder' pick
        | some encodeIndex => exact onDecode_keeps_persist h decoder' pick
      | true =>
        cases encodeIndex with
        | none =>
          simp only [Job.run, hdecode] at hrun
          obtain ⟨buf, _, rfl⟩ := Option.map_eq_some_iff.mp hrun
          exact onRecover_keeps h buf
        | some encodeIndex =>
          simp only [Job.run, hdecode] at hrun
          obtain ⟨fragment, _, rfl⟩ := Option.map_eq_some_iff.mp hrun
          exact onRecoverEncode_keeps h fragment

/-! ## Runs -/

variable [Preimage K] [DigestHash P] {run : Run K P σ codec}

/-- What comes finds the peer ready for it: no job of an earlier put or get of
the chunk is left that its event would be mistaken for, and a reply or an offer
meets the state that it was sent for. -/
def Careful (run : Run K P σ codec) : Input K P σ → Prop
  | .put preimage _ => (.upload, Preimage.target preimage) ∉ run.work
  | .get preimage => (.persist, Preimage.target preimage) ∉ run.work
  | .recvInviteOk inviteOk => ∀ state, run.peer.uploads inviteOk.chunk = some state →
    state.pending inviteOk.index = none → state.encoder ≠ none
  | .recvOffer sendFragment => run.peer.downloads sendFragment.chunk = none →
    ∀ state, run.peer.persists sendFragment.chunk = some state → Expects state.status state sendFragment
  | .downloadOk chunk index _ => run.peer.downloads chunk = none →
    ∀ state, run.peer.persists chunk = some state → index = state.index → (.persist, chunk) ∉ run.work
  | _ => True

theorem handle_keeps (h : Settled run.peer run.work run.stores) {input : Input K P σ} (hcareful : Careful run input) :
    Keeps ((run.remaining input).filterMap Job.work) (run.unstored input) (run.handle input) := by
  cases input with
  | put preimage buf => exact onPut_keeps h preimage buf hcareful
  | get preimage => exact onGet_keeps h preimage hcareful
  | recvInvite invite index => exact onRecvInvite_keeps h invite index
  | recvInviteOk inviteOk => exact onRecvInviteOk_keeps h inviteOk hcareful
  | recvOffer sendFragment => exact onRecvOffer_keeps h sendFragment hcareful
  | recvFragmentAvailable m => exact onRecvFragmentAvailable_keeps h m
  | recvPull pull => exact onRecvPull_keeps h pull
  | downloadOk chunk index fragment => exact onDownloadOk_keeps h index fragment hcareful
  | loadOk chunk index fragment => exact onLoadOk_keeps h index fragment
  | storeOk n =>
    have hrest : Settled run.peer run.work (run.stores.eraseIdx n) :=
      h.perm (.refl _) fun c hmem => List.mem_of_mem_eraseIdx hmem
    rw [Run.handle]
    split
    · exact keeps_pure hrest
    · next chunk hget => exact onStoreOk_keeps hrest (h.store chunk (List.mem_of_getElem? hget))
  | complete n pick =>
    rw [Run.handle]
    split
    · next hnone =>
      refine keeps_pure ?_
      change Settled run.peer ((run.jobs.eraseIdx n).filterMap Job.work) run.stores
      rw [List.eraseIdx_of_length_le (List.getElem?_eq_none_iff.mp hnone)]
      exact h
    · next job hget =>
      obtain ⟨hn, hjob⟩ := List.getElem?_eq_some_iff.mp hget
      have hperm : run.work.Perm (job.work.toList ++ (run.jobs.eraseIdx n).filterMap Job.work) := by
        refine ((List.getElem_cons_eraseIdx_perm hn).symm.filterMap Job.work).trans ?_
        rw [hjob, List.filterMap_cons]
        cases job.work <;> exact .refl _
      have hsettled := h.perm hperm fun c hmem => hmem
      split
      · refine keeps_pure ?_
        cases hwork : job.work with
        | none =>
          rw [hwork] at hsettled
          exact hsettled
        | some w =>
          rw [hwork] at hsettled
          exact hsettled.drop.1
      · next event hrun => exact onCodec_keeps hrun hsettled pick

theorem reach_settled (h : (machine K P σ codec).Reach Careful run) : Settled run.peer run.work run.stores := by
  refine reach_induct (I := fun run => Settled run.peer run.work run.stores) (fun _ _ _ _ _ _ => ?_)
    (fun run input hrun hcareful => ?_) h
  · exact ⟨List.nodup_nil, fun _ _ => nofun, fun _ => nofun, fun _ => nofun, fun _ => nofun⟩
  · have hkeeps := handle_keeps hrun hcareful
    unfold Keeps at hkeeps
    cases hhandle : run.handle input with
    | fail reason es => trivial
    | ok peer es =>
      rw [hhandle] at hkeeps
      change Settled peer (List.filterMap Job.work (run.remaining input ++ submitted es)) _
      rw [List.filterMap_append]
      exact hkeeps

/-- No handler panics in a run whose steps are all careful. -/
theorem handle_ne_panic (h : (machine K P σ codec).Reach Careful run) : ∀ input, Careful run input →
    ∀ reason es, run.handle input = .fail reason es → ¬ reason.IsPanic := by
  intro input hcareful reason es hfail
  have hkeeps := handle_keeps (reach_settled h) hcareful
  unfold Keeps at hkeeps
  rw [hfail] at hkeeps
  exact hkeeps

instance (status : PersistStatus codec.Decoder) (state : PersistState codec.Decoder) (sendFragment : SendFragment) :
    Decidable (Expects status state sendFragment) :=
  match status with
  | .recovering _ => inferInstanceAs (Decidable (_ → _))
  | .storing | .available => inferInstanceAs (Decidable (_ → _))

instance (run : Run K P σ codec) : (input : Input K P σ) → Decidable (Careful run input)
  | .put .. | .get _ => inferInstanceAs (Decidable (_ ∉ run.work))
  | .recvInviteOk inviteOk => inferInstanceAs (Decidable (∀ state ∈ run.peer.uploads inviteOk.chunk, _))
  | .recvOffer sendFragment => inferInstanceAs (Decidable (_ → ∀ state ∈ run.peer.persists sendFragment.chunk, _))
  | .downloadOk chunk _ _ => inferInstanceAs (Decidable (_ → ∀ state ∈ run.peer.persists chunk, _))
  | .recvInvite .. | .recvFragmentAvailable _ | .recvPull _ | .loadOk .. | .storeOk _ | .complete .. => instDecidableTrue

/-- The peer has made such a call. -/
def Run.Made (run : Run K P σ codec) (p : Effect K P σ codec → Bool) : Prop :=
  (run.history.any fun
    | .effect e => p e
    | .input _ => false) = true

/-- What has come is what honest peers send, and what the blob service and the
file system report; any of it may come again. -/
def Honest (run : Run K P σ codec) : Input K P σ → Prop
  | .recvInviteOk inviteOk => run.Made fun
    | .multicastInvite _ _ invite => invite.chunk = inviteOk.chunk
    | _ => false
  | .recvOffer sendFragment => run.Made fun
    | .sendInviteOk dest inviteOk => decide (sendFragment.peerId = some dest) &&
      decide (inviteOk.chunk = sendFragment.chunk) && decide (inviteOk.index = sendFragment.index)
    | .multicastPull _ _ pull => decide (sendFragment.peerId = none) && decide (pull.chunk = sendFragment.chunk)
    | _ => false
  | .recvFragmentAvailable m => run.Made fun
    | .offer dest sendFragment _ => decide (dest = m.inner.peerId) && decide (sendFragment.chunk = m.inner.chunk)
    | _ => false
  | .downloadOk chunk index _ => run.Made fun
    | .accept sendFragment _ => decide (sendFragment.chunk = chunk) && decide (sendFragment.index = index)
    | _ => false
  | .loadOk chunk index _ => run.Made fun
    | .load chunk' index' _ => decide (chunk' = chunk) && decide (index' = index)
    | _ => false
  | .put .. | .get _ | .recvInvite .. | .recvPull _ | .storeOk _ | .complete .. => True

instance (run : Run K P σ codec) : (input : Input K P σ) → Decidable (Honest run input)
  | .recvInviteOk _ | .recvOffer _ | .recvFragmentAvailable _ | .downloadOk .. | .loadOk .. => inferInstanceAs (Decidable (_ = true))
  | .put .. | .get _ | .recvInvite .. | .recvPull _ | .storeOk _ | .complete .. => instDecidableTrue

end

def chunkOf : Chunk := .replicate 32 9

/-- A fragment that has been downloaded and is being stored. -/
theorem handle_ne_panic_storing : ∃ run : Run Digest UInt8 UInt8 .toy, (machine Digest UInt8 UInt8 .toy).Reach Careful run ∧
    run.stores = [chunkOf] ∧ ∀ reason es, run.handle (.storeOk 0) = .fail reason es → ¬ reason.IsPanic := by
  obtain ⟨run, hreach, hstores⟩ := reach_of_exec (Careful : Run Digest UInt8 UInt8 .toy → _) (.replicate 32 1) ⟨.toy, 1⟩ 1 1 1 1
    [.recvInvite ⟨chunkOf, .replicate 32 2⟩ 5, .recvOffer ⟨chunkOf, 5, some (.replicate 32 2)⟩, .downloadOk chunkOf 5 [0]]
    (fun run => run.stores = [chunkOf]) (by decide +kernel)
  exact ⟨run, hreach, hstores, handle_ne_panic hreach (.storeOk 0) trivial⟩

/-- An offer of the own fragment that comes twice. -/
theorem offer_duplicated : ∃ run : Run Digest UInt8 UInt8 .toy, (machine Digest UInt8 UInt8 .toy).Reach Honest run ∧
    ∃ input reason es, Honest run input ∧ run.handle input = .fail reason es ∧ reason.IsPanic := by
  obtain ⟨run, hreach, hhonest, hfail⟩ := reach_of_exec (Honest : Run Digest UInt8 UInt8 .toy → _) (.replicate 32 1) ⟨.toy, 1⟩ 1 1 1 1
    [.recvInvite ⟨chunkOf, .replicate 32 2⟩ 5, .recvOffer ⟨chunkOf, 5, some (.replicate 32 2)⟩]
    (fun run => Honest run (.recvOffer ⟨chunkOf, 5, some (.replicate 32 2)⟩) ∧
      (match run.handle (.recvOffer ⟨chunkOf, 5, some (.replicate 32 2)⟩) with
        | .fail (.panic .assert) _ => true
        | _ => false) = true) (by decide +kernel)
  split at hfail
  · next es heq => exact ⟨run, hreach, _, _, es, hhonest, heq, trivial⟩
  · cases hfail

end Neatworks.Entropy
