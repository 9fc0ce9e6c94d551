import Neatworks.EntropyLog

/-!
# The recoveries of the entropy peer

A recovery is the download of a chunk, or the entry of `persists` for one while
it is `Recovering`. Downloads and entries keep a `RecoverState` and share its
functions; what an event does to one of them, and which decode jobs it submits
for it, is one relation.
-/

namespace Neatworks.Entropy

open Outcome
open Kademlia (PeerId)

inductive Recovery
  | download (chunk : Chunk)
  | persist (chunk : Chunk)
  deriving DecidableEq

/-- How far a recovery is; an entry that has left `Recovering` is past. -/
inductive Stage (D : Type)
  | absent
  | recovering (recover : RecoverState D)
  | past

namespace Recovery

/-- Entries hand their index on with a job. -/
def of (chunk : Chunk) : Option UInt32 → Recovery
  | none => .download chunk
  | some _ => .persist chunk

def chunk : Recovery → Chunk
  | .download chunk | .persist chunk => chunk

/-- `received` when an index has come: a download does not note it. -/
def receive (index : UInt32) (received : Finset UInt32) : Recovery → Finset UInt32
  | .download _ => received
  | .persist _ => insert index received

theorem mem_receive {r : Recovery} (hr : r = .persist r.chunk) {index index' : UInt32} {received : Finset UInt32} :
    index' ∈ r.receive index received ↔ index' = index ∨ index' ∈ received := by
  rw [hr]
  exact Finset.mem_insert

end Recovery

def PersistStatus.stage {D : Type} : PersistStatus D → Stage D
  | .recovering recover => .recovering recover
  | .storing | .available => .past

section
variable {K P σ : Type} {codec : Codec}

/-- The recovery that a decode job is submitted for. -/
def Job.recovery : Job codec → Option Recovery
  | .decode chunk _ _ encodeIndex _ => some (.of chunk encodeIndex)
  | .newEncoder .. | .encode .. => none

/-- The index that is fed to the decoder. -/
def Job.index : Job codec → Option UInt32
  | .decode _ index .. => some index
  | .newEncoder .. | .encode .. => none

/-- The jobs of a recovery. -/
def decodes (r : Recovery) (jobs : List (Job codec)) : List (Job codec) := jobs.filter fun job => job.recovery = some r

@[simp] theorem decodes_nil (r : Recovery) : decodes r ([] : List (Job codec)) = [] := rfl

@[simp] theorem decodes_append (r : Recovery) (jobs jobs' : List (Job codec)) :
    decodes r (jobs ++ jobs') = decodes r jobs ++ decodes r jobs' :=
  List.filter_append ..

@[simp] theorem decodes_singleton (r : Recovery) (job : Job codec) :
    decodes r [job] = if job.recovery = some r then [job] else [] := by
  by_cases h : job.recovery = some r <;> simp [decodes, h]

namespace Peer

variable (self : Peer K P σ codec)

def stage : Recovery → Stage codec.Decoder
  | .download chunk =>
    match self.downloads chunk with
    | none => .absent
    | some state => .recovering state.recover
  | .persist chunk =>
    match self.persists chunk with
    | none => .absent
    | some state => state.status.stage

/-- Where fragments and decoders of the chunk go. -/
def recovery (chunk : Chunk) : Recovery := if (self.downloads chunk).isSome then .download chunk else .persist chunk

/-- The recovery that takes the event of the worker. -/
def receiver : CodecEvent codec → Option Recovery
  | .decode chunk _ => some (self.recovery chunk)
  | .recover chunk _ => some (.download chunk)
  | .recoverEncode chunk _ => some (.persist chunk)
  | .newEncoder .. | .encode .. => none

def addressee : Event K P σ codec → Option Recovery
  | .downloadOk chunk _ _ => some (self.recovery chunk)
  | .codec event _ => self.receiver event
  | _ => none

variable {self} {peer : Peer K P σ codec} {chunk : Chunk} {r : Recovery}

theorem stage_congr (hdownloads : peer.downloads = self.downloads) (hpersists : peer.persists = self.persists) :
    peer.stage r = self.stage r := by
  cases r <;> simp only [stage, hdownloads, hpersists]

theorem stage_download (state : Option (DownloadState K codec.Decoder)) :
    (self.setDownload chunk state).stage (.download chunk) = (state.map (.recovering ·.recover)).getD .absent := by
  cases state <;> simp [stage]

theorem stage_download_ne (hr : r ≠ .download chunk) (state : Option (DownloadState K codec.Decoder)) :
    (self.setDownload chunk state).stage r = self.stage r := by
  cases r with
  | download c =>
    have hc : c ≠ chunk := fun heq => hr (congrArg _ heq)
    simp [stage, hc]
  | persist c => rfl

theorem stage_persist (state : PersistState codec.Decoder) :
    (self.setPersist chunk (some state)).stage (.persist chunk) = state.status.stage := by
  simp [stage]

theorem stage_persist_ne (hr : r ≠ .persist chunk) (state : Option (PersistState codec.Decoder)) :
    (self.setPersist chunk state).stage r = self.stage r := by
  cases r with
  | download c => rfl
  | persist c =>
    have hc : c ≠ chunk := fun heq => hr (congrArg _ heq)
    simp [stage, hc]

end Peer

end

/-! ## What an event does to a recovery -/

section
variable {K P σ : Type} {codec : Codec}

theorem RecoverState.new_decoder (fragmentLen : UInt32) (chunkK : ℕ+) :
    (RecoverState.new fragmentLen chunkK : Handler K P σ codec _).Sat
      (fun recover es => es = [] ∧ ∃ decoder, recover = { decoder := some decoder }) fun _ => True := by
  unfold RecoverState.new
  split <;> simp

theorem RecoverState.submitDecode_decodes {r : Recovery} {chunk : Chunk} {encodeIndex : Option UInt32}
    (hr : .of chunk encodeIndex ≠ r)
    (recover : RecoverState codec.Decoder) (index : UInt32) (fragment : Bytes) :
    (recover.submitDecode chunk index fragment encodeIndex : Handler K P σ codec _).Sat
      (fun _ es => decodes r (submitted es) = []) fun _ => True := by
  unfold RecoverState.submitDecode
  split
  · next decoder _ =>
    simp only [sat_bind, sat_emit, sat_pure, List.append_nil]
    simp [submitted, Effect.job, Job.recovery, hr]
  · rfl

theorem RecoverState.onDecode_decodes {r : Recovery} {chunk : Chunk} {encodeIndex : Option UInt32}
    (hr : .of chunk encodeIndex ≠ r)
    (recover : RecoverState codec.Decoder) (decoder : codec.Decoder) (pick : Nat) :
    (recover.onDecode chunk decoder encodeIndex pick : Handler K P σ codec _).Sat
      (fun _ es => decodes r (submitted es) = []) fun _ => True := by
  unfold RecoverState.onDecode
  simp only [sat_bind, sat_assert, List.nil_append, implies_true, and_true]
  intro _
  split
  · rfl
  · exact submitDecode_decodes hr ..

variable [Preimage K]

/-- A download starts with its get. -/
def Event.starts (r : Recovery) : Event K P σ codec → Bool
  | .get preimage => r = .download (Preimage.target preimage)
  | _ => false

/-- The stage of the recovery before and after the event, and the decode jobs
that are submitted for it. -/
inductive Progress (self : Peer K P σ codec) (event : Event K P σ codec) (r : Recovery) :
    Stage codec.Decoder → Stage codec.Decoder → List (Job codec) → Prop
  | idle {stage : Stage codec.Decoder} (hstart : event.starts r = false)
    (haddressee : ∀ recover, stage = .recovering recover → self.addressee event ≠ some r) :
    Progress self event r stage stage []
  /-- A fragment that the entry has got. -/
  | again {recover : RecoverState codec.Decoder} {index : UInt32} {fragment : Bytes} (hr : r = .persist r.chunk)
    (hevent : event = .downloadOk r.chunk index fragment) (hreceived : index ∈ recover.received) :
    Progress self event r (.recovering recover) (.recovering recover) []
  | start {decoder : codec.Decoder} (hstart : r = .persist r.chunk ∨ event.starts r = true) :
    Progress self event r .absent (.recovering { decoder := some decoder }) []
  /-- A fragment is fed to the decoder. -/
  | fed {recover : RecoverState codec.Decoder} {decoder : codec.Decoder} {index : UInt32} {fragment : Bytes}
    {job : Job codec} (hdecoder : recover.decoder = some decoder) (hevent : event = .downloadOk r.chunk index fragment)
    (hnew : r = .persist r.chunk → index ∉ recover.received) (hrecovery : job.recovery = some r)
    (hindex : job.index = some index) :
    Progress self event r (.recovering recover)
      (.recovering { recover with decoder := none, received := r.receive index recover.received }) [job]
  /-- A fragment waits for the decoder. -/
  | pending {recover : RecoverState codec.Decoder} {index : UInt32} {fragment : Bytes}
    (hdecoder : recover.decoder = none) (hevent : event = .downloadOk r.chunk index fragment)
    (hnew : r = .persist r.chunk → index ∉ recover.received) :
    Progress self event r (.recovering recover)
      (.recovering { recover with
        pending := recover.pending.insert index fragment, received := r.receive index recover.received }) []
  /-- The decoder is back. -/
  | back {recover : RecoverState codec.Decoder} {decoder : codec.Decoder} {pick : Nat} (hdecoder : recover.decoder = none)
    (hevent : event = .codec (.decode r.chunk decoder) pick) (hreceiver : self.recovery r.chunk = r)
    (hpending : recover.pending.entries = []) :
    Progress self event r (.recovering recover) (.recovering { recover with decoder := some decoder }) []
  /-- The decoder is back, and a fragment has waited for it. -/
  | next {recover : RecoverState codec.Decoder} {decoder : codec.Decoder} {pick : Nat} {index : UInt32} {fragment : Bytes}
    {job : Job codec} (hdecoder : recover.decoder = none) (hevent : event = .codec (.decode r.chunk decoder) pick)
    (hreceiver : self.recovery r.chunk = r) (hpending : (index, fragment) ∈ recover.pending.entries)
    (hrecovery : job.recovery = some r) (hindex : job.index = some index) :
    Progress self event r (.recovering recover)
      (.recovering { recover with decoder := none, pending := recover.pending.remove index }) [job]
  | recovered {recover : RecoverState codec.Decoder} {buf : Bytes} {pick : Nat} (hr : r = .download r.chunk)
    (hevent : event = .codec (.recover r.chunk buf) pick) : Progress self event r (.recovering recover) .absent []
  | past {stage : Stage codec.Decoder} (hr : r = .persist r.chunk) : Progress self event r stage .past []

variable {self : Peer K P σ codec} {r : Recovery}

theorem Progress.of_past {event : Event K P σ codec} {stage' : Stage codec.Decoder} {jobs : List (Job codec)}
    (h : Progress self event r .past stage' jobs) : stage' = .past := by
  cases h with
  | idle => rfl
  | past => rfl

/-- A fragment for a recovery, with the entry's `received` as it is then. -/
theorem RecoverState.submitDecode_progress (recover : RecoverState codec.Decoder) (self : Peer K P σ codec) {index : UInt32}
    {fragment : Bytes} {encodeIndex : Option UInt32} (hr : .of r.chunk encodeIndex = r)
    (hnew : r = .persist r.chunk → index ∉ recover.received) :
    ({ recover with received := r.receive index recover.received }.submitDecode r.chunk index fragment encodeIndex :
      Handler K P σ codec _).Sat
      (fun recover' es => Progress self (.downloadOk r.chunk index fragment) r (.recovering recover) (.recovering recover')
        (decodes r (submitted es))) fun _ => True := by
  unfold RecoverState.submitDecode
  split
  · next decoder hdecoder =>
    simp only [sat_bind, sat_emit, sat_pure, List.append_nil]
    simp only [submitted, List.filterMap_cons, Effect.job, List.filterMap_nil, decodes_singleton, Job.recovery, hr, if_true]
    exact .fed hdecoder rfl hnew (congrArg some hr) rfl
  · next hdecoder => exact .pending hdecoder rfl hnew

theorem RecoverState.onDecode_progress (recover : RecoverState codec.Decoder) {decoder : codec.Decoder}
    {encodeIndex : Option UInt32} (hr : .of r.chunk encodeIndex = r) (hreceiver : self.recovery r.chunk = r) (pick : Nat) :
    (recover.onDecode r.chunk decoder encodeIndex pick : Handler K P σ codec _).Sat
      (fun recover' es => Progress self (.codec (.decode r.chunk decoder) pick) r (.recovering recover)
        (.recovering recover') (decodes r (submitted es))) fun _ => True := by
  unfold RecoverState.onDecode
  simp only [sat_bind, sat_assert, List.nil_append, implies_true, and_true]
  intro hassert
  have hdecoder : recover.decoder = none := Option.isNone_iff_eq_none.mp hassert
  split
  · next hnone =>
    have hpending : recover.pending.entries = [] := by
      by_contra hne
      have hlen : 0 < recover.pending.len := List.length_pos_iff.mpr hne
      exact absurd (List.getElem?_eq_none_iff.mp hnone) (Nat.not_le.mpr (Nat.mod_lt pick hlen))
    exact .back hdecoder rfl hreceiver hpending
  · next index fragment hentry =>
    simp only [RecoverState.submitDecode, sat_bind, sat_emit, sat_pure, List.append_nil]
    simp only [submitted, List.filterMap_cons, Effect.job, List.filterMap_nil, decodes_singleton, Job.recovery, hr, if_true]
    exact .next hdecoder rfl hreceiver (List.mem_of_getElem? hentry) (congrArg some hr) rfl

theorem none_ne : (none : Option Recovery) ≠ some r := (Option.some_ne_none r).symm

theorem some_ne {r' r'' : Recovery} (h : r' = r'') (hr : r ≠ r'') : some r' ≠ some r :=
  fun heq => hr ((Option.some.inj heq).symm.trans h)

theorem progress_idle {event : Event K P σ codec} {peer : Peer K P σ codec} {es : List (Effect K P σ codec)}
    (hstart : event.starts r = false) (haddressee : self.addressee event ≠ some r) (hstage : peer.stage r = self.stage r)
    (hes : decodes r (submitted es) = []) :
    Progress self event r (self.stage r) (peer.stage r) (decodes r (submitted es)) := by
  rw [hstage, hes]
  exact .idle hstart fun _ _ => haddressee

theorem progress_of_quiet {event : Event K P σ codec} {x : Handler K P σ codec (Peer K P σ codec)}
    (hstart : event.starts r = false) (haddressee : self.addressee event = none)
    (h : x.Sat (fun peer es => peer.downloads = self.downloads ∧ peer.persists = self.persists ∧
      decodes r (submitted es) = []) fun _ => True) :
    x.Sat (fun peer es => Progress self event r (self.stage r) (peer.stage r) (decodes r (submitted es))) fun _ => True := by
  refine h.mono (fun peer es h => ?_) fun _ _ => trivial
  refine progress_idle hstart ?_ (Peer.stage_congr h.1 h.2.1) h.2.2
  rw [haddressee]
  exact none_ne

theorem onGet_progress (preimage : K) :
    (self.onGet preimage).Sat
      (fun peer es => Progress self (.get preimage) r (self.stage r) (peer.stage r) (decodes r (submitted es)))
      fun _ => True := by
  unfold Peer.onGet
  rw [sat_bind]
  refine (RecoverState.new_decoder ..).mono (fun recover es hnew => ?_) fun _ _ => trivial
  obtain ⟨rfl, decoder, rfl⟩ := hnew
  simp only [sat_bind, sat_assert, sat_emit, sat_pure, List.nil_append, implies_true, and_true]
  intro hnone
  have hdownload : self.downloads (Preimage.target preimage) = none := Option.isNone_iff_eq_none.mp hnone
  by_cases hr : r = .download (Preimage.target preimage)
  · subst hr
    rw [Peer.stage_download]
    simp only [Peer.stage, hdownload]
    exact .start (Or.inr (decide_eq_true rfl))
  · exact progress_idle (decide_eq_false hr) none_ne (Peer.stage_download_ne hr _) rfl

theorem onRecvInvite_progress (invite : Invite) (index : UInt32) :
    (self.onRecvInvite invite index).Sat
      (fun peer es => Progress self (.recvInvite invite index) r (self.stage r) (peer.stage r) (decodes r (submitted es)))
      fun _ => True := by
  unfold Peer.onRecvInvite
  split
  · exact progress_idle rfl none_ne rfl rfl
  · rw [sat_bind]
    refine (RecoverState.new_decoder ..).mono (fun recover es hnew => ?_) fun _ _ => trivial
    obtain ⟨rfl, decoder, rfl⟩ := hnew
    simp only [sat_bind, sat_emit, sat_pure, List.nil_append]
    by_cases hr : r = .persist invite.chunk
    · subst hr
      rw [Peer.stage_persist]
      cases hstate : self.persists invite.chunk with
      | none =>
        simp only [Peer.stage, hstate, Option.getD_none, PersistStatus.stage]
        exact .start (Or.inl rfl)
      | some state =>
        simp only [Peer.stage, hstate, Option.getD_some]
        exact .idle rfl fun _ _ => none_ne
    · exact progress_idle rfl none_ne (Peer.stage_persist_ne hr _) rfl

theorem onRecvOffer_progress [DigestHash P] (sendFragment : SendFragment) :
    (self.onRecvOffer sendFragment).Sat
      (fun peer es => Progress self (.recvOffer sendFragment) r (self.stage r) (peer.stage r) (decodes r (submitted es)))
      fun _ => True := by
  have hidle (es : List (Effect K P σ codec)) (hes : submitted es = []) :
      Progress self (.recvOffer sendFragment) r (self.stage r) (self.stage r) (decodes r (submitted es)) :=
    progress_idle rfl none_ne rfl (congrArg (decodes r) hes)
  unfold Peer.onRecvOffer
  split
  · exact hidle _ rfl
  · split
    · exact hidle _ rfl
    · next state hstate =>
      split
      · next recover hstatus =>
        split
        · simp only [sat_bind, sat_assert, sat_emit, sat_pure, List.nil_append, implies_true, and_true]
          intro _ _
          refine progress_idle rfl none_ne ?_ rfl
          by_cases hr : r = .persist sendFragment.chunk
          · subst hr
            rw [Peer.stage_persist]
            simp only [Peer.stage, hstate]
          · exact Peer.stage_persist_ne hr _
        · exact hidle _ rfl
      all_goals
        split
        · exact hidle _ rfl
        · simp only [sat_bind, sat_assert, sat_emit, sat_pure, List.nil_append, implies_true, and_true]
          exact fun _ => hidle _ rfl

theorem onDownloadOk_progress (chunk : Chunk) (index : UInt32) (fragment : Bytes) :
    (self.onDownloadOk chunk index fragment).Sat
      (fun peer es => Progress self (.downloadOk chunk index fragment) r (self.stage r) (peer.stage r)
        (decodes r (submitted es))) fun _ => True := by
  unfold Peer.onDownloadOk
  split
  · next state hstate =>
    have hrecovery : self.recovery chunk = .download chunk := by simp [Peer.recovery, hstate]
    rw [sat_bind]
    by_cases hr : r = .download chunk
    · subst hr
      refine (state.recover.submitDecode_progress self (r := .download chunk) rfl fun heq => by cases heq).mono
        (fun recover es h => ?_) fun _ _ => trivial
      rw [sat_pure, List.append_nil, Peer.stage_download]
      simp only [Peer.stage, hstate]
      exact h
    · refine (RecoverState.submitDecode_decodes (Ne.symm hr) ..).mono (fun recover es hes => ?_) fun _ _ => trivial
      rw [sat_pure, List.append_nil]
      exact progress_idle rfl (some_ne hrecovery hr) (Peer.stage_download_ne hr _) hes
  · next hdownload =>
    have hrecovery : self.recovery chunk = .persist chunk := by simp [Peer.recovery, hdownload]
    by_cases hr : r = .persist chunk
    · subst hr
      split
      · next hstate => exact .idle rfl fun recover hrecover => by simp [Peer.stage, hstate] at hrecover
      · next state hstate =>
        split
        · next recover hstatus =>
          have hstage : self.stage (.persist chunk) = .recovering recover := by
            simp [Peer.stage, hstate, hstatus, PersistStatus.stage]
          split
          · simp only [sat_bind, sat_emit, sat_pure]
            rw [Peer.stage_persist]
            exact .past rfl
          · split
            · next hreceived =>
              rw [sat_pure, hstage]
              exact .again rfl rfl hreceived
            · next hnew =>
              rw [sat_bind]
              refine (recover.submitDecode_progress self (r := .persist chunk) rfl fun _ => hnew).mono
                (fun recover es h => ?_) fun _ _ => trivial
              rw [sat_pure, List.append_nil, Peer.stage_persist, hstage]
              exact h
        all_goals
          next hstatus =>
          refine .idle rfl fun recover hrecover => ?_
          simp [Peer.stage, hstate, hstatus, PersistStatus.stage] at hrecover
    · have hidle {peer : Peer K P σ codec} {es : List (Effect K P σ codec)} (hstage : peer.stage r = self.stage r)
          (hes : decodes r (submitted es) = []) :
          Progress self (.downloadOk chunk index fragment) r (self.stage r) (peer.stage r) (decodes r (submitted es)) :=
        progress_idle rfl (some_ne hrecovery hr) hstage hes
      split
      · exact hidle rfl rfl
      · next state _ =>
        split
        · split
          · exact hidle (Peer.stage_persist_ne hr _) rfl
          · split
            · exact hidle rfl rfl
            · rw [sat_bind]
              refine (RecoverState.submitDecode_decodes (Ne.symm hr) ..).mono (fun recover es hes => ?_) fun _ _ => trivial
              rw [sat_pure, List.append_nil]
              exact hidle (Peer.stage_persist_ne hr _) hes
        · exact hidle rfl rfl
        · exact hidle rfl rfl

theorem onStoreOk_progress [DigestHash P] (chunk : Chunk) :
    (self.onStoreOk chunk).Sat
      (fun peer es => Progress self (.storeOk chunk) r (self.stage r) (peer.stage r) (decodes r (submitted es)))
      fun _ => True := by
  have hpast (state : PersistState codec.Decoder) (hstatus : state.status = .available) (es : List (Effect K P σ codec))
      (hes : submitted es = []) : Progress self (.storeOk chunk) r (self.stage r)
        ((self.setPersist chunk (some state)).stage r) (decodes r (submitted es)) := by
    rw [hes]
    by_cases hr : r = .persist chunk
    · subst hr
      rw [Peer.stage_persist, hstatus]
      exact .past rfl
    · rw [Peer.stage_persist_ne hr]
      exact .idle rfl fun _ _ => none_ne
  unfold Peer.onStoreOk
  split
  · exact progress_idle rfl none_ne rfl rfl
  · split
    · exact hpast _ rfl _ rfl
    · exact hpast _ rfl _ rfl

theorem onDecode_progress (chunk : Chunk) (decoder : codec.Decoder) (pick : Nat) :
    (self.onDecode chunk decoder pick).Sat
      (fun peer es => Progress self (.codec (.decode chunk decoder) pick) r (self.stage r) (peer.stage r)
        (decodes r (submitted es))) fun _ => True := by
  unfold Peer.onDecode
  split
  · next state hstate =>
    have hrecovery : self.recovery chunk = .download chunk := by simp [Peer.recovery, hstate]
    rw [sat_bind]
    by_cases hr : r = .download chunk
    · subst hr
      refine (state.recover.onDecode_progress (r := .download chunk) rfl hrecovery pick).mono
        (fun recover es h => ?_) fun _ _ => trivial
      rw [sat_pure, List.append_nil, Peer.stage_download]
      simp only [Peer.stage, hstate]
      exact h
    · refine (RecoverState.onDecode_decodes (Ne.symm hr) ..).mono (fun recover es hes => ?_) fun _ _ => trivial
      rw [sat_pure, List.append_nil]
      exact progress_idle rfl (some_ne hrecovery hr) (Peer.stage_download_ne hr _) hes
  · next hdownload =>
    have hrecovery : self.recovery chunk = .persist chunk := by simp [Peer.recovery, hdownload]
    split
    · next hstate =>
      refine .idle rfl fun recover hrecover heq => ?_
      have hr : r = .persist chunk := (hrecovery ▸ Option.some.inj heq).symm
      subst hr
      simp [Peer.stage, hstate] at hrecover
    · next state hstate =>
      split
      · next recover hstatus =>
        rw [sat_bind]
        by_cases hr : r = .persist chunk
        · subst hr
          have hstage : self.stage (.persist chunk) = .recovering recover := by
            simp [Peer.stage, hstate, hstatus, PersistStatus.stage]
          refine (recover.onDecode_progress (r := .persist chunk) rfl hrecovery pick).mono
            (fun recover es h => ?_) fun _ _ => trivial
          rw [sat_pure, List.append_nil, Peer.stage_persist, hstage]
          exact h
        · refine (RecoverState.onDecode_decodes (Ne.symm hr) ..).mono (fun recover es hes => ?_) fun _ _ => trivial
          rw [sat_pure, List.append_nil]
          exact progress_idle rfl (some_ne hrecovery hr) (Peer.stage_persist_ne hr _) hes
      · trivial
      · trivial

theorem onRecover_progress (chunk : Chunk) (buf : Bytes) (pick : Nat) :
    (self.onRecover chunk buf).Sat
      (fun peer es => Progress self (.codec (.recover chunk buf) pick) r (self.stage r) (peer.stage r)
        (decodes r (submitted es))) fun _ => True := by
  unfold Peer.onRecover
  by_cases hr : r = .download chunk
  · subst hr
    split
    · next hstate => exact .idle rfl fun recover hrecover => by simp [Peer.stage, hstate] at hrecover
    · next state hstate =>
      simp only [sat_bind, sat_emit, sat_pure]
      rw [Peer.stage_download]
      simp only [Peer.stage, hstate]
      exact .recovered rfl rfl
  · have haddressee : self.addressee (.codec (.recover chunk buf) pick : Event K P σ codec) ≠ some r :=
      some_ne rfl hr
    split
    · exact progress_idle rfl haddressee rfl rfl
    · exact progress_idle rfl haddressee (Peer.stage_download_ne hr _) rfl

theorem onRecoverEncode_progress (chunk : Chunk) (fragment : Bytes) (pick : Nat) :
    (self.onRecoverEncode chunk fragment).Sat
      (fun peer es => Progress self (.codec (.recoverEncode chunk fragment) pick) r (self.stage r) (peer.stage r)
        (decodes r (submitted es))) fun _ => True := by
  unfold Peer.onRecoverEncode
  by_cases hr : r = .persist chunk
  · subst hr
    split
    · next hstate => exact .idle rfl fun recover hrecover => by simp [Peer.stage, hstate] at hrecover
    · split
      · simp only [sat_bind, sat_emit, sat_pure]
        rw [Peer.stage_persist]
        exact .past rfl
      · trivial
      · trivial
  · have haddressee : self.addressee (.codec (.recoverEncode chunk fragment) pick : Event K P σ codec) ≠ some r :=
      some_ne rfl hr
    split
    · exact progress_idle rfl haddressee rfl rfl
    · split
      · exact progress_idle rfl haddressee (Peer.stage_persist_ne hr _) rfl
      · trivial
      · trivial

theorem onEvent_progress [DigestHash P] (event : Event K P σ codec) :
    (self.onEvent event).Sat
      (fun peer es => Progress self event r (self.stage r) (peer.stage r) (decodes r (submitted es))) fun _ => True := by
  cases event with
  | put preimage buf =>
    apply progress_of_quiet rfl rfl
    show (self.onPut preimage buf).Sat _ _
    unfold Peer.onPut
    simp [submitted, Effect.job, Job.recovery]
  | get preimage => exact onGet_progress preimage
  | recvInvite invite index => exact onRecvInvite_progress invite index
  | recvInviteOk inviteOk =>
    apply progress_of_quiet rfl rfl
    show (self.onRecvInviteOk inviteOk).Sat _ _
    unfold Peer.onRecvInviteOk
    repeat' split
    all_goals simp [submitted, Effect.job, Job.recovery]
  | recvOffer sendFragment => exact onRecvOffer_progress sendFragment
  | recvFragmentAvailable m =>
    apply progress_of_quiet rfl rfl
    show (self.onRecvFragmentAvailable m).Sat _ _
    unfold Peer.onRecvFragmentAvailable
    dsimp only
    repeat' split
    all_goals simp [submitted, Effect.job, decodes]
  | recvPull pull =>
    apply progress_of_quiet rfl rfl
    show (self.onRecvPull pull).Sat _ _
    unfold Peer.onRecvPull
    repeat' split
    all_goals simp [submitted, Effect.job, decodes]
  | downloadOk chunk index fragment => exact onDownloadOk_progress chunk index fragment
  | storeOk chunk => exact onStoreOk_progress chunk
  | loadOk chunk index fragment =>
    apply progress_of_quiet rfl rfl
    show (self.onLoadOk chunk index fragment).Sat _ _
    unfold Peer.onLoadOk
    split
    · exact ⟨rfl, rfl, rfl⟩
    · rw [sat_bind]
      refine (offerEach_effects ..).mono (fun _ es hes => ?_) fun _ _ => trivial
      rw [sat_pure, List.append_nil, hes]
      have hsubmitted (pending : List PeerId) : submitted (pending.map fun peerId =>
          (.offer peerId ⟨chunk, index, none⟩ fragment : Effect K P σ codec)) = [] := by
        simp [submitted, Effect.job]
      exact ⟨rfl, rfl, by rw [hsubmitted, decodes_nil]⟩
  | codec event pick =>
    cases event with
    | newEncoder chunk encoder =>
      apply progress_of_quiet rfl rfl
      show (self.onNewEncoder chunk encoder).Sat _ _
      unfold Peer.onNewEncoder
      split <;> simp [submitted, Effect.job, decodes]
    | encode chunk index fragment =>
      apply progress_of_quiet rfl rfl
      show (self.onEncode chunk index fragment).Sat _ _
      unfold Peer.onEncode
      repeat' split
      all_goals simp [submitted, Effect.job, decodes]
    | decode chunk decoder => exact onDecode_progress chunk decoder pick
    | recover chunk buf => exact onRecover_progress chunk buf pick
    | recoverEncode chunk fragment => exact onRecoverEncode_progress chunk fragment pick

theorem progress_of_ok [DigestHash P] {peer : Peer K P σ codec} {event : Event K P σ codec} {es : List (Effect K P σ codec)}
    (h : self.onEvent event = .ok peer es) (r : Recovery) :
    Progress self event r (self.stage r) (peer.stage r) (decodes r (submitted es)) := by
  have hprogress : (self.onEvent event).Sat
      (fun peer es => Progress self event r (self.stage r) (peer.stage r) (decodes r (submitted es))) fun _ => True :=
    onEvent_progress event
  rw [h] at hprogress
  exact hprogress

end

end Neatworks.Entropy
