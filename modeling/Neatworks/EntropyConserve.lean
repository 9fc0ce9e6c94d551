import Neatworks.EntropyFlight
import Neatworks.EntropyIntegrity

/-!
# No fragment is forgotten

The decoder of a recovery is with its `RecoverState`, with one job, with the
event of that job, or has gone. As long as the events of the worker find the
recovery whose jobs they are from, a fragment that has come is fed to the
decoder or waits for it.
-/

namespace Neatworks.Entropy

section
variable {K P σ : Type} {codec : Codec} {r : Recovery}

/-- Where the decoder is. -/
inductive Token (recover : RecoverState codec.Decoder) : List (Job codec) → List (CodecEvent codec) → Bool → Prop
  | held (hdecoder : recover.decoder ≠ none) (hpending : recover.pending.entries = []) : Token recover [] [] false
  | working {job : Job codec} (hdecoder : recover.decoder = none) : Token recover [job] [] false
  | sent {event : CodecEvent codec} (hdecoder : recover.decoder = none) : Token recover [] [event] (!event.returns)
  | gone (hdecoder : recover.decoder = none) : Token recover [] [] true

theorem Token.congr {recover recover' : RecoverState codec.Decoder} {jobs : List (Job codec)} {events : List (CodecEvent codec)}
    {finished : Bool} (h : Token recover jobs events finished) (hdecoder : recover.decoder = none)
    (hdecoder' : recover'.decoder = none) : Token recover' jobs events finished := by
  cases h with
  | held hsome => exact absurd hdecoder hsome
  | working => exact .working hdecoder'
  | sent => exact .sent hdecoder'
  | gone => exact .gone hdecoder'

/-- The fragment has been fed to the decoder, or waits for it. -/
def RecoverState.Has (recover : RecoverState codec.Decoder) (fed : List UInt32) (index : UInt32) : Prop :=
  index ∈ fed ∨ ∃ fragment, (index, fragment) ∈ recover.pending.entries

/-- An entry has what is in `received`. -/
def RecoverState.Keeps (r : Recovery) (recover : RecoverState codec.Decoder) (arrived fed : List UInt32) : Prop :=
  ∀ index, index ∈ arrived ∨ r = .persist r.chunk ∧ index ∈ recover.received → recover.Has fed index

structure Conserved (r : Recovery) (stage : Stage codec.Decoder) (jobs : List (Job codec)) (events : List (CodecEvent codec))
    (finished : Bool) (arrived fed : List UInt32) : Prop where
  absent : stage = .absent → jobs = [] ∧ events = [] ∧ (r = .persist r.chunk → finished = false ∧ arrived = [])
  token : ∀ recover, stage = .recovering recover → Token recover jobs events finished
  keeps : ∀ recover, stage = .recovering recover → recover.Keeps r arrived fed

namespace Conserved

variable {jobs : List (Job codec)} {events : List (CodecEvent codec)} {finished : Bool} {arrived fed : List UInt32}

theorem of_recovering {recover : RecoverState codec.Decoder} (htoken : Token recover jobs events finished)
    (hkeeps : recover.Keeps r arrived fed) : Conserved r (.recovering recover) jobs events finished arrived fed := by
  refine ⟨nofun, fun recover' heq => ?_, fun recover' heq => ?_⟩
  · cases heq
    exact htoken
  · cases heq
    exact hkeeps

theorem past : Conserved r (.past : Stage codec.Decoder) jobs events finished arrived fed := ⟨nofun, nofun, nofun⟩

variable [Preimage K] {self : Peer K P σ codec} {event : Event K P σ codec} {stage' : Stage codec.Decoder}
  {jobs' : List (Job codec)}

theorem keeps_arrive {recover recover' : RecoverState codec.Decoder} {index : UInt32} {fragment : Bytes} {fed' : List UInt32}
    (h : recover.Keeps r arrived fed) (hhas : recover'.Has fed' index) (hkeep : ∀ i, recover.Has fed i → recover'.Has fed' i)
    (hreceived : r = .persist r.chunk → ∀ i ∈ recover'.received, i = index ∨ i ∈ recover.received) :
    recover'.Keeps r (self.arrive (.downloadOk r.chunk index fragment) r arrived) fed' := by
  have hold (i : UInt32) (hmem : i = index ∨ i ∈ arrived ∨ r = .persist r.chunk ∧ i ∈ recover.received) :
      recover'.Has fed' i := by
    rcases hmem with rfl | hmem
    · exact hhas
    · exact hkeep i (h i hmem)
  intro i hmem
  apply hold
  rcases hmem with hmem | ⟨hr, hmem⟩
  · rcases mem_arrive hmem with ⟨_, hmem⟩ | ⟨_, _, heq, _⟩
    · exact Or.inr (Or.inl hmem)
    · cases heq
      exact Or.inl rfl
  · exact (hreceived hr i hmem).imp_right fun hmem => Or.inr ⟨hr, hmem⟩

/-- An event that brings no decoder to the recovery. -/
theorem progress (h : Conserved r (self.stage r) jobs events finished arrived fed)
    (hprogress : Progress self event r (self.stage r) stage' jobs')
    (hworker : ∀ e pick, event = .codec e pick → self.receiver e ≠ some r) :
    Conserved r stage' (jobs ++ jobs') events (finished && !event.starts r) (self.arrive event r arrived)
      ((if event.starts r then [] else fed) ++ jobs'.filterMap Job.index) := by
  have harrive (index : UInt32) (hmem : index ∈ self.arrive event r arrived) := mem_arrive hmem
  generalize self.stage r = stage at h hprogress harrive
  cases hprogress with
  | idle hstart haddressee =>
    have hold (hother : self.addressee event ≠ some r) (index : UInt32)
        (hmem : index ∈ self.arrive event r arrived) : index ∈ arrived := by
      rcases harrive index hmem with ⟨_, hmem⟩ | ⟨_, _, _, haddress, _⟩
      · exact hmem
      · exact absurd haddress hother
    simp only [hstart, List.filterMap_nil, List.append_nil, Bool.not_false, Bool.and_true, Bool.false_eq_true, if_false]
    refine ⟨fun hstage => ?_, h.token, fun recover hstage index hmem => ?_⟩
    · obtain ⟨hjobs, hevents, hpersist⟩ := h.absent hstage
      refine ⟨hjobs, hevents, fun hr => ⟨(hpersist hr).1, List.eq_nil_iff_forall_not_mem.mpr fun index hmem => ?_⟩⟩
      rcases harrive index hmem with ⟨_, hmem⟩ | ⟨_, _, _, _, hrecovering⟩
      · rw [(hpersist hr).2] at hmem
        cases hmem
      · rw [hstage] at hrecovering
        cases hrecovering
    · exact h.keeps recover hstage index (hmem.imp_left (hold (haddressee recover hstage) index))
  | @again recover index fragment hr hevent hreceived =>
    have hkeeps := h.keeps recover rfl
    subst hevent
    simp only [Event.starts, List.filterMap_nil, List.append_nil, Bool.not_false, Bool.and_true, Bool.false_eq_true, if_false]
    apply of_recovering (h.token recover rfl)
    exact keeps_arrive hkeeps (hkeeps index (Or.inr ⟨hr, hreceived⟩)) (fun _ hhas => hhas) fun _ _ => Or.inr
  | @start decoder hstart =>
    obtain ⟨rfl, rfl, hpersist⟩ := h.absent rfl
    have hfinished : (finished && !event.starts r) = false := by
      cases hstarts : event.starts r with
      | true => exact Bool.and_false _
      | false => rw [(hpersist (hstart.resolve_right (by simp [hstarts]))).1, Bool.false_and]
    rw [hfinished]
    refine of_recovering (.held (Option.some_ne_none decoder) rfl) fun index hmem => ?_
    rcases hmem with hmem | ⟨_, hmem⟩
    · rcases harrive index hmem with ⟨hstarts, hmem⟩ | ⟨_, _, _, _, hrecovering⟩
      · rw [(hpersist (hstart.resolve_right (by simp [hstarts]))).2] at hmem
        cases hmem
      · cases hrecovering
    · cases hmem
  | @fed recover decoder index fragment job hdecoder hevent hnew hrecovery hindex =>
    have hkeeps := h.keeps recover rfl
    have htoken := h.token recover rfl
    have hsome : recover.decoder ≠ none := by simp [hdecoder]
    subst hevent
    simp only [Event.starts, List.filterMap_cons, hindex, List.filterMap_nil, Bool.not_false, Bool.and_true,
      Bool.false_eq_true, if_false]
    cases htoken with
    | held =>
      apply of_recovering (.working rfl)
      refine keeps_arrive hkeeps (Or.inl ?_) (fun i hhas => hhas.imp_left ?_) fun hr _ => (Recovery.mem_receive hr).mp
      · exact List.mem_append_right _ List.mem_cons_self
      · exact List.mem_append_left _
    | working hnone => exact absurd hnone hsome
    | sent hnone => exact absurd hnone hsome
    | gone hnone => exact absurd hnone hsome
  | @pending recover index fragment hdecoder hevent hnew =>
    have hkeeps := h.keeps recover rfl
    have htoken := h.token recover rfl
    subst hevent
    simp only [Event.starts, List.filterMap_nil, List.append_nil, Bool.not_false, Bool.and_true, Bool.false_eq_true, if_false]
    refine of_recovering (htoken.congr hdecoder ?_) ?_
    · exact hdecoder
    refine keeps_arrive hkeeps (Or.inr ⟨fragment, ?_⟩) (fun i hhas => ?_) fun hr _ => (Recovery.mem_receive hr).mp
    · exact Table.mem_insert.mpr (Or.inl rfl)
    · by_cases hindex : i = index
      · subst hindex
        exact Or.inr ⟨fragment, Table.mem_insert.mpr (Or.inl rfl)⟩
      · refine hhas.imp_right fun hwaits => ?_
        obtain ⟨fragment', hmem⟩ := hwaits
        exact ⟨fragment', Table.mem_insert.mpr (Or.inr ⟨hmem, hindex⟩)⟩
  | back _ hevent hreceiver => exact absurd (congrArg some hreceiver) (hworker _ _ hevent)
  | next _ hevent hreceiver => exact absurd (congrArg some hreceiver) (hworker _ _ hevent)
  | recovered hr hevent => exact absurd (congrArg some hr.symm) (hworker _ _ hevent)
  | past => exact past

/-- The event of the job of the recovery. -/
theorem handle {recover : RecoverState codec.Decoder} {e : CodecEvent codec} {pick : Nat}
    (h : Conserved r (.recovering recover) jobs [e] finished arrived fed)
    (hprogress : Progress self (.codec e pick) r (.recovering recover) stage' jobs') (hreceiver : self.receiver e = some r) :
    Conserved r stage' (jobs ++ jobs') [] finished arrived (fed ++ jobs'.filterMap Job.index) := by
  have htoken := h.token recover rfl
  have hkeeps := h.keeps recover rfl
  cases htoken with
  | sent hdecoder =>
    cases hprogress with
    | idle _ haddressee => exact absurd hreceiver (haddressee recover rfl)
    | again _ hevent => cases hevent
    | fed _ hevent => cases hevent
    | pending _ hevent => cases hevent
    | @back _ decoder _ _ hevent _ hpending =>
      cases hevent
      simp only [List.filterMap_nil, List.append_nil]
      refine of_recovering (.held (Option.some_ne_none decoder) hpending) hkeeps
    | @next _ decoder _ index fragment job _ hevent _ hpending _ hindex =>
      cases hevent
      simp only [List.filterMap_cons, hindex, List.filterMap_nil]
      refine of_recovering (.working rfl) fun index' hmem => ?_
      by_cases hsame : index' = index
      · subst hsame
        exact Or.inl (List.mem_append_right _ List.mem_cons_self)
      · refine (hkeeps index' hmem).imp (List.mem_append_left _) fun hwaits => ?_
        obtain ⟨fragment', hmem⟩ := hwaits
        exact ⟨fragment', Table.mem_remove.mpr ⟨hmem, hsame⟩⟩
    | recovered hr =>
      refine ⟨fun _ => ⟨rfl, rfl, fun hpersist => ?_⟩, nofun, nofun⟩
      rw [hr] at hpersist
      cases hpersist
    | past => exact past

theorem run {stage : Stage codec.Decoder} {job : Job codec} (h : Conserved r stage [job] events finished arrived fed) :
    Conserved r stage [] (events ++ job.run.toList) (finished || !job.run.any CodecEvent.returns) arrived fed := by
  refine ⟨fun hstage => ?_, fun recover hstage => ?_, h.keeps⟩
  · exact absurd (h.absent hstage).1 (List.cons_ne_nil job [])
  · cases h.token recover hstage with
    | working hdecoder =>
      cases job.run with
      | none => exact .gone hdecoder
      | some event => exact .sent hdecoder

theorem append_eq_singleton {α : Type} {l₁ l₂ : List α} {a b : α} (h : l₁ ++ a :: l₂ = [b]) : l₁ = [] ∧ l₂ = [] := by
  cases l₁ with
  | nil => exact ⟨rfl, (List.cons.inj h).2⟩
  | cons c l₁ => cases l₁ <;> cases h

theorem one_job {stage : Stage codec.Decoder} {l₁ l₂ : List (Job codec)} {job : Job codec}
    (h : Conserved r stage (l₁ ++ job :: l₂) events finished arrived fed) : stage = .past ∨ l₁ = [] ∧ l₂ = [] := by
  cases stage with
  | absent => exact absurd (h.absent rfl).1 (by simp)
  | recovering recover =>
    have htoken := h.token recover rfl
    generalize hjobs : l₁ ++ job :: l₂ = jobs at htoken
    cases htoken with
    | working => exact Or.inr (append_eq_singleton hjobs)
    | held => simp at hjobs
    | sent => simp at hjobs
    | gone => simp at hjobs
  | past => exact Or.inl rfl

theorem one_event {stage : Stage codec.Decoder} {l₁ l₂ : List (CodecEvent codec)} {e : CodecEvent codec}
    (h : Conserved r stage jobs (l₁ ++ e :: l₂) finished arrived fed) :
    stage = .past ∨ (∃ recover, stage = .recovering recover) ∧ l₁ = [] ∧ l₂ = [] := by
  cases stage with
  | absent => exact absurd (h.absent rfl).2.1 (by simp)
  | recovering recover =>
    have htoken := h.token recover rfl
    generalize hevents : l₁ ++ e :: l₂ = events at htoken
    cases htoken with
    | sent => exact Or.inr ⟨⟨recover, rfl⟩, append_eq_singleton hevents⟩
    | held => simp at hevents
    | working => simp at hevents
    | gone => simp at hevents
  | past => exact Or.inl rfl

end Conserved

/-! ## Runs -/

theorem filter_eraseIdx {α : Type} {l : List α} {n : Nat} {a : α} (h : l[n]? = some a) (p : α → Bool) :
    (p a = false ∧ (l.eraseIdx n).filter p = l.filter p) ∨
      (p a = true ∧ ∃ l₁ l₂, l.filter p = l₁ ++ a :: l₂ ∧ (l.eraseIdx n).filter p = l₁ ++ l₂) := by
  obtain ⟨hn, rfl⟩ := List.getElem?_eq_some_iff.mp h
  have hl : l = l.take n ++ l[n] :: l.drop (n + 1) := by simp
  have herase : l.eraseIdx n = l.take n ++ l.drop (n + 1) := List.eraseIdx_eq_take_drop_succ ..
  have hfilter : l.filter p = (l.take n).filter p ++ (l[n] :: l.drop (n + 1)).filter p := by
    rw [← List.filter_append, ← hl]
  cases hp : p l[n] with
  | false =>
    refine Or.inl ⟨rfl, ?_⟩
    rw [herase, hfilter, List.filter_append, List.filter_cons_of_neg (by simp [hp])]
  | true =>
    refine Or.inr ⟨rfl, _, _, ?_, by rw [herase, List.filter_append]⟩
    rw [hfilter, List.filter_cons_of_pos hp]

theorem decoded_ran (flight : Flight K P σ codec) (n : Nat) (job : Job codec) : (flight.ran n job).decoded r =
    flight.decoded r ++ if job.recovery = some r then job.run.toList else [] := by
  unfold Flight.decoded Flight.ran
  rw [List.filter_append, List.map_append]
  congr 1
  cases job.run <;> by_cases hr : job.recovery = some r <;> simp [hr]

variable [Preimage K] [DigestHash P]

/-- An event of the worker goes to the recovery whose job it is from. -/
def Own (flight : Flight K P σ codec) : Hop K P σ codec → Prop
  | .handle n _ => ∀ entry ∈ flight.events[n]?, entry.1 = flight.peer.receiver entry.2
  | _ => True

def Flight.Conserves (flight : Flight K P σ codec) (r : Recovery) : Prop :=
  Conserved r (flight.peer.stage r) (flight.decoding r) (flight.decoded r) (flight.finished r) (flight.arrived r)
    (flight.fed r)

theorem Flight.Conserves.step {flight flight' : Flight K P σ codec} {hop : Hop K P σ codec} (h : flight.Conserves r)
    (hown : Own flight hop) (hstep : flight.Steps hop flight') : flight'.Conserves r := by
  unfold Flight.Conserves at h ⊢
  cases hstep with
  | @event event peer es hworker hevent =>
    rw [fed_after, decoding_after]
    refine h.progress (progress_of_ok hevent r) fun e pick heq => ?_
    subst heq
    cases hworker
  | @run n job hjob =>
    have hpeer : Conserved r (flight.peer.stage r) (decodes r flight.jobs) (flight.decoded r) (flight.finished r)
      (flight.arrived r) (flight.fed r) := h
    show Conserved r (flight.peer.stage r) (decodes r (flight.jobs.eraseIdx n)) ((flight.ran n job).decoded r)
      (flight.finished r || (job.recovery = some r && !job.run.any CodecEvent.returns)) (flight.arrived r) (flight.fed r)
    rw [decoded_ran]
    rcases filter_eraseIdx hjob fun job => job.recovery = some r with ⟨hother, herase⟩ | ⟨hmine, l₁, l₂, hjobs, herase⟩
    · have hother := of_decide_eq_false hother
      have hdecoding : decodes r (flight.jobs.eraseIdx n) = decodes r flight.jobs := herase
      simpa [hother, hdecoding] using hpeer
    · have hmine := of_decide_eq_true hmine
      rw [decodes, hjobs] at hpeer
      rw [decodes, herase]
      rcases hpeer.one_job with hpast | ⟨rfl, rfl⟩
      · rw [hpast]
        exact .past
      · simpa [hmine] using hpeer.run
  | @handle n pick owner event peer es hentry hevent =>
    have howner : owner = flight.peer.receiver event := hown _ hentry
    have hprogress := progress_of_ok hevent r
    rw [fed_after, decoding_after]
    rcases filter_eraseIdx hentry fun entry => entry.1 = some r with ⟨hother, herase⟩ | ⟨hmine, l₁, l₂, hevents, herase⟩
    · have hother := of_decide_eq_false hother
      have hdecoded : Flight.decoded { flight with events := flight.events.eraseIdx n } r = flight.decoded r :=
        congrArg (List.map Prod.snd) herase
      have hleft : Conserved r (flight.peer.stage r) (flight.decoding r)
          (Flight.decoded { flight with events := flight.events.eraseIdx n } r) (flight.finished r) (flight.arrived r)
          (flight.fed r) := by
        rw [hdecoded]
        exact h
      refine hleft.progress hprogress fun e pick' heq => ?_
      cases heq
      rw [← howner]
      exact hother
    · have hreceiver : flight.peer.receiver event = some r := howner ▸ of_decide_eq_true hmine
      have hdecoded : flight.decoded r = l₁.map Prod.snd ++ event :: l₂.map Prod.snd := by
        rw [Flight.decoded, hevents, List.map_append, List.map_cons]
      have hleft : Flight.decoded { flight with events := flight.events.eraseIdx n } r =
          l₁.map Prod.snd ++ l₂.map Prod.snd := by
        rw [Flight.decoded, herase, List.map_append]
      rw [hdecoded] at h
      rcases h.one_event with hpast | ⟨⟨recover, hstage⟩, hl₁, hl₂⟩
      · rw [hpast] at hprogress
        have hstays := hprogress.of_past
        show Conserved r (peer.stage r) ..
        rw [hstays]
        exact .past
      · rw [hl₁, hl₂] at h hleft
        rw [hstage] at h hprogress
        show Conserved r (peer.stage r) (flight.decoding r ++ decodes r (submitted es))
          (Flight.decoded { flight with events := flight.events.eraseIdx n } r) (flight.finished r && true) (flight.arrived r)
          (flight.fed r ++ (decodes r (submitted es)).filterMap Job.index)
        rw [hleft, Bool.and_true]
        exact h.handle hprogress hreceiver

theorem conserves_reach {flight : Flight K P σ codec} (h : (flightMachine K P σ codec).Reach Own flight) :
    flight.Conserves r := by
  refine h.invariant (I := fun flight => flight.Conserves r) ?_
    fun flight hop flight' _ hI hown hstep => hI.step hown (Flight.steps_of_step hstep)
  rintro _ ⟨id, crypto, fragmentLen, chunkK, chunkN, chunkM, rfl⟩
  cases r with
  | download chunk => exact ⟨fun _ => ⟨rfl, rfl, nofun⟩, nofun, nofun⟩
  | persist chunk => exact ⟨fun _ => ⟨rfl, rfl, fun _ => ⟨rfl, rfl⟩⟩, nofun, nofun⟩

/-- What is said of the `RecoverState` of a recovery. -/
structure Flight.Sound (flight : Flight K P σ codec) (r : Recovery) (recover : RecoverState codec.Decoder) : Prop where
  job : (flight.decoding r).length + (flight.decoded r).length ≤ 1
  decoder : recover.decoder = none ↔ flight.decoding r ≠ [] ∨ flight.decoded r ≠ [] ∨ flight.finished r = true
  pending : recover.pending.entries ≠ [] → recover.decoder = none
  fragments : ∀ index ∈ flight.arrived r, index ∈ flight.fed r ∨ ∃ fragment, (index, fragment) ∈ recover.pending.entries

/-- While a recovery goes on, its decoder is with it or with one job, and no
fragment that has come for it is lost. -/
theorem fragments_conserved {flight : Flight K P σ codec} (h : (flightMachine K P σ codec).Reach Own flight)
    {recover : RecoverState codec.Decoder} (hstage : flight.peer.stage r = .recovering recover) : flight.Sound r recover := by
  have hconserved : flight.Conserves r := conserves_reach h
  have htoken := hconserved.token recover hstage
  have hkeeps := hconserved.keeps recover hstage
  generalize hjobs : flight.decoding r = jobs at htoken
  generalize hevents : flight.decoded r = events at htoken
  generalize hfinished : flight.finished r = finished at htoken
  refine ⟨?_, ?_, fun hpending => ?_, fun index hmem => hkeeps index (Or.inl hmem)⟩
  · rw [hjobs, hevents]
    cases htoken <;> simp
  · rw [hjobs, hevents, hfinished]
    cases htoken with
    | held hdecoder => simpa using hdecoder
    | working hdecoder => simpa using hdecoder
    | sent hdecoder => simpa using hdecoder
    | gone hdecoder => simpa using hdecoder
  · cases htoken with
    | held _ hempty => exact absurd hempty hpending
    | working hdecoder => exact hdecoder
    | sent hdecoder => exact hdecoder
    | gone hdecoder => exact hdecoder

instance (flight : Flight K P σ codec) : (hop : Hop K P σ codec) → Decidable (Own flight hop)
  | .handle n _ => inferInstanceAs (Decidable (∀ entry ∈ flight.events[n]?, entry.1 = flight.peer.receiver entry.2))
  | .event _ | .run _ => instDecidableTrue

end

/-- A fragment comes while the decoder is on its way back, and another one when it is back. -/
theorem fragments_conserved_two :
    ∃ (flight : Flight Digest UInt8 UInt8 .blocks) (recover : RecoverState Codec.blocks.Decoder),
    flight.fed (.download (.replicate 32 9)) = [1, 0] ∧ recover.pending.entries ≠ [] ∧
      flight.Sound (.download (.replicate 32 9)) recover := by
  let start : Flight Digest UInt8 UInt8 .blocks := { peer := Peer.new (.replicate 32 1) ⟨.toy, 1⟩ 1 2 1 1 }
  have hstart : (flightMachine Digest UInt8 UInt8 .blocks).init start := ⟨_, _, _, _, _, _, rfl⟩
  obtain ⟨flight, hreach, hfed, hwaits⟩ := Machine.exists_reach (C := Own) (fun _ _ _ hstep => hstep) hstart
    [.event (.get (.replicate 32 9)), .event (.downloadOk (.replicate 32 9) 1 [8]), .run 0,
      .event (.downloadOk (.replicate 32 9) 0 [7]), .handle 0 0, .event (.downloadOk (.replicate 32 9) 1 [8])]
    (fun flight => flight.fed (.download (.replicate 32 9)) = [1, 0] ∧
      (flight.peer.downloads (.replicate 32 9)).any (fun state => 0 < state.recover.pending.len) = true) (by decide +kernel)
  obtain ⟨state, hstate, hlen⟩ := (Option.any_eq_true ..).mp hwaits
  have hstage : flight.peer.stage (.download (.replicate 32 9)) = .recovering state.recover := by
    simp only [Peer.stage, hstate]
  exact ⟨flight, state.recover, hfed, List.length_pos_iff.mp (of_decide_eq_true hlen), fragments_conserved hreach hstage⟩

end Neatworks.Entropy
