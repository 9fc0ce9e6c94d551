import Neatworks.EntropyFlight
import Neatworks.EntropyIntegrity

/-!
# What is fed to a decoder

An entry of `persists` notes the indices that have come in `received`, and a
fragment that comes again is not fed again. A download does not: it feeds an
index once as long as no fragment comes that it has fed already.
-/

namespace Neatworks.Entropy

section
variable {K P σ : Type} {codec : Codec} {r : Recovery} {fed : List UInt32}

/-- What has been fed does not wait, and an entry has noted both. -/
structure RecoverState.Once (r : Recovery) (recover : RecoverState codec.Decoder) (fed : List UInt32) : Prop where
  idle : recover.decoder ≠ none → recover.pending.entries = []
  waiting : ∀ entry ∈ recover.pending.entries, entry.1 ∉ fed
  fed : r = .persist r.chunk → ∀ index ∈ fed, index ∈ recover.received
  pending : r = .persist r.chunk → ∀ entry ∈ recover.pending.entries, entry.1 ∈ recover.received

structure FedOnce (r : Recovery) (stage : Stage codec.Decoder) (fed : List UInt32) : Prop where
  nodup : fed.Nodup
  absent : stage = .absent → r = .persist r.chunk → fed = []
  recovering : ∀ recover, stage = .recovering recover → recover.Once r fed

theorem FedOnce.of_recovering {recover : RecoverState codec.Decoder} (hnodup : fed.Nodup) (h : recover.Once r fed) :
    FedOnce r (.recovering recover) fed := by
  refine ⟨hnodup, nofun, fun recover' heq => ?_⟩
  cases heq
  exact h

variable [Preimage K]

/-- One step. A download relies on the fragment that comes to be new to its decoder. -/
theorem FedOnce.progress {self : Peer K P σ codec} {event : Event K P σ codec} {stage stage' : Stage codec.Decoder}
    {jobs : List (Job codec)} (h : FedOnce r stage fed) (hprogress : Progress self event r stage stage' jobs)
    (hfresh : ∀ recover index fragment, stage = .recovering recover → event = .downloadOk r.chunk index fragment →
      r = .download r.chunk → index ∉ fed) :
    FedOnce r stage' ((if event.starts r then [] else fed) ++ jobs.filterMap Job.index) := by
  have hnew {recover : RecoverState codec.Decoder} {index : UInt32} {fragment : Bytes} (hstage : stage = .recovering recover)
      (hevent : event = .downloadOk r.chunk index fragment) (hnew : r = .persist r.chunk → index ∉ recover.received) :
      index ∉ fed := by
    cases r with
    | download chunk => exact hfresh recover index fragment hstage hevent rfl
    | persist chunk => exact fun hmem => hnew rfl ((h.recovering recover hstage).fed rfl index hmem)
  cases hprogress with
  | idle hstart =>
    simpa [hstart] using h
  | again _ hevent =>
    subst hevent
    simpa [Event.starts] using h
  | start hstart =>
    have hnone : (if event.starts r then [] else fed) = [] := by
      split
      · rfl
      · next hnot => exact h.absent rfl (hstart.resolve_right hnot)
    rw [hnone]
    exact .of_recovering List.nodup_nil ⟨fun _ => rfl, nofun, fun _ => nofun, fun _ => nofun⟩
  | @fed recover decoder index fragment job hdecoder hevent hreceived hrecovery hindex =>
    have hold := h.recovering recover rfl
    have hempty : recover.pending.entries = [] := hold.idle (by simp [hdecoder])
    have hfed := hnew rfl hevent hreceived
    subst hevent
    simp only [Event.starts, List.filterMap_cons, hindex, List.filterMap_nil]
    apply FedOnce.of_recovering
    · exact h.nodup.append (List.nodup_singleton _) (List.disjoint_singleton.mpr hfed)
    · refine ⟨fun hne => absurd rfl hne, by simp [hempty], fun hr index' hmem => ?_, by simp [hempty]⟩
      rw [Recovery.mem_receive hr]
      rcases List.mem_append.mp hmem with hmem | hmem
      · exact Or.inr (hold.fed hr index' hmem)
      · exact Or.inl (List.mem_singleton.mp hmem)
  | @pending recover index fragment hdecoder hevent hreceived =>
    have hold := h.recovering recover rfl
    have hfed := hnew rfl hevent hreceived
    subst hevent
    simp only [Event.starts, List.filterMap_nil, List.append_nil]
    apply FedOnce.of_recovering h.nodup
    refine ⟨fun hne => absurd hdecoder hne, fun entry hmem => ?_, fun hr index' hmem => ?_, fun hr entry hmem => ?_⟩
    · rcases Table.mem_insert.mp hmem with rfl | ⟨hmem, _⟩
      · exact hfed
      · exact hold.waiting entry hmem
    · exact (Recovery.mem_receive hr).mpr (Or.inr (hold.fed hr index' hmem))
    · rw [Recovery.mem_receive hr]
      rcases Table.mem_insert.mp hmem with rfl | ⟨hmem, _⟩
      · exact Or.inl rfl
      · exact Or.inr (hold.pending hr entry hmem)
  | @back recover decoder pick hdecoder hevent hreceiver hpending =>
    have hold := h.recovering recover rfl
    subst hevent
    simp only [Event.starts, List.filterMap_nil, List.append_nil]
    exact .of_recovering h.nodup ⟨fun _ => hpending, hold.waiting, hold.fed, hold.pending⟩
  | @next recover decoder pick index fragment job hdecoder hevent hreceiver hpending hrecovery hindex =>
    have hold := h.recovering recover rfl
    have hfed : index ∉ fed := hold.waiting _ hpending
    subst hevent
    simp only [Event.starts, List.filterMap_cons, hindex, List.filterMap_nil]
    apply FedOnce.of_recovering
    · exact h.nodup.append (List.nodup_singleton _) (List.disjoint_singleton.mpr hfed)
    · refine ⟨fun hne => absurd rfl hne, fun entry hmem => ?_, fun hr index' hmem => ?_, fun hr entry hmem => ?_⟩
      · obtain ⟨hmem, hne⟩ := Table.mem_remove.mp hmem
        simp [hold.waiting entry hmem, hne]
      · rcases List.mem_append.mp hmem with hmem | hmem
        · exact hold.fed hr index' hmem
        · cases List.mem_singleton.mp hmem
          exact hold.pending hr _ hpending
      · exact hold.pending hr entry (Table.mem_remove.mp hmem).1
  | recovered hr hevent =>
    subst hevent
    simp only [Event.starts, List.filterMap_nil, List.append_nil]
    refine ⟨h.nodup, fun _ hpersist => ?_, nofun⟩
    rw [hr] at hpersist
    cases hpersist
  | past hr =>
    refine ⟨?_, nofun, nofun⟩
    split
    · exact List.nodup_nil
    · simpa using h.nodup

variable [DigestHash P]

/-- A fragment that comes for the download is not one that it has fed to its
decoder. Nothing is asked for an entry of `persists`. -/
def Fresh (r : Recovery) (flight : Flight K P σ codec) : Hop K P σ codec → Prop
  | .event (.downloadOk chunk index _) => r = .download chunk → (flight.peer.downloads chunk).isSome → index ∉ flight.fed r
  | _ => True

theorem FedOnce.step {flight flight' : Flight K P σ codec} {hop : Hop K P σ codec}
    (h : FedOnce r (flight.peer.stage r) (flight.fed r)) (hfresh : Fresh r flight hop) (hstep : flight.Steps hop flight') :
    FedOnce r (flight'.peer.stage r) (flight'.fed r) := by
  cases hstep with
  | @event event peer es hworker hevent =>
    rw [fed_after]
    refine h.progress (progress_of_ok hevent r) fun recover index fragment hstage heq hr => ?_
    subst heq
    refine hfresh hr ?_
    rw [hr] at hstage
    cases hdownload : flight.peer.downloads r.chunk with
    | none => simp [Peer.stage, hdownload] at hstage
    | some state => rfl
  | run => exact h
  | handle _ hevent =>
    have hprogress := h.progress (progress_of_ok hevent r) fun _ _ _ _ heq => by cases heq
    rw [fed_after]
    exact hprogress

/-- A recovery feeds an index to its decoder once. -/
theorem fed_once {flight : Flight K P σ codec} (h : (flightMachine K P σ codec).Reach (Fresh r) flight) :
    (flight.fed r).Nodup := by
  have honce : FedOnce r (flight.peer.stage r) (flight.fed r) := by
    refine h.invariant (I := fun flight => FedOnce r (flight.peer.stage r) (flight.fed r)) ?_
      fun flight hop flight' _ hI hfresh hstep => hI.step hfresh (Flight.steps_of_step hstep)
    rintro _ ⟨id, crypto, fragmentLen, chunkK, chunkN, chunkM, rfl⟩
    cases r with
    | download chunk => exact ⟨List.nodup_nil, fun _ _ => rfl, nofun⟩
    | persist chunk => exact ⟨List.nodup_nil, fun _ _ => rfl, nofun⟩
  exact honce.nodup

instance (flight : Flight K P σ codec) : (hop : Hop K P σ codec) → Decidable (Fresh r flight hop)
  | .event (.downloadOk chunk index _) => inferInstanceAs
      (Decidable (r = .download chunk → (flight.peer.downloads chunk).isSome → index ∉ flight.fed r))
  | .event (.put ..) | .event (.get _) | .event (.recvInvite ..) | .event (.recvInviteOk _) | .event (.recvOffer _)
  | .event (.recvFragmentAvailable _) | .event (.recvPull _) | .event (.storeOk _) | .event (.loadOk ..) | .event (.codec ..)
  | .run _ | .handle .. => instDecidableTrue

end

/-- A download of two blocks. -/
theorem fed_once_two : ∃ flight : Flight Digest UInt8 UInt8 .blocks,
    flight.fed (.download (.replicate 32 9)) = [1, 0] ∧ (flight.fed (.download (.replicate 32 9))).Nodup := by
  let start : Flight Digest UInt8 UInt8 .blocks := { peer := Peer.new (.replicate 32 1) ⟨.toy, 1⟩ 1 2 1 1 }
  have hstart : (flightMachine Digest UInt8 UInt8 .blocks).init start := ⟨_, _, _, _, _, _, rfl⟩
  obtain ⟨flight, hreach, hfed⟩ := Machine.exists_reach (C := Fresh (.download (.replicate 32 9)))
    (fun _ _ _ hstep => hstep) hstart
    [.event (.get (.replicate 32 9)), .event (.downloadOk (.replicate 32 9) 1 [8]),
      .event (.downloadOk (.replicate 32 9) 0 [7]), .run 0, .handle 0 0]
    (fun flight => flight.fed (.download (.replicate 32 9)) = [1, 0]) (by decide +kernel)
  exact ⟨flight, hfed, fed_once hreach⟩

/-- The fragment is offered, and comes, twice. -/
theorem fed_once_fails : ¬ ∀ (flight : Flight Digest UInt8 UInt8 .blocks) (r : Recovery),
    (flightMachine Digest UInt8 UInt8 .blocks).Reach Machine.always flight → (flight.fed r).Nodup := by
  intro h
  let start : Flight Digest UInt8 UInt8 .blocks := { peer := Peer.new (.replicate 32 1) ⟨.toy, 1⟩ 1 2 1 1 }
  have hstart : (flightMachine Digest UInt8 UInt8 .blocks).init start := ⟨_, _, _, _, _, _, rfl⟩
  obtain ⟨flight, hreach, hfed⟩ := Machine.exists_reach (C := Machine.always) (fun _ _ _ hstep => hstep) hstart
    [.event (.get (.replicate 32 9)), .event (.recvOffer ⟨.replicate 32 9, 0, none⟩),
      .event (.recvOffer ⟨.replicate 32 9, 0, none⟩),
      .event (.downloadOk (.replicate 32 9) 0 [7]), .run 0, .handle 0 0, .event (.downloadOk (.replicate 32 9) 0 [7])]
    (fun flight => flight.fed (.download (.replicate 32 9)) = [0, 0]) (by decide +kernel)
  have hnodup := h flight (.download (.replicate 32 9)) hreach
  rw [hfed] at hnodup
  exact absurd hnodup (by decide)

end Neatworks.Entropy
