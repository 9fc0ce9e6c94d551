import Neatworks.KademliaNode

/-!
# The moves of a peer

Every handler that succeeds makes one of five moves. What holds of a peer over
its whole life is derived from them.
-/

namespace Neatworks.Kademlia

open Outcome

section
variable {K A σ : Type}

namespace Peer

/-- What holds of the peer whatever has come. -/
structure Sound (s : Peer K A σ) : Prop where
  wf : s.buckets.Wf
  origin : s.buckets.origin = s.record
  sorted : ∀ target state, s.queryStates.lookup target = some state → Sorted target state.records
  refresh : s.onBootstrap = false → s.refreshTargets = ∅

/-- What has made a peer move. -/
inductive Cause
  | bootstrap
  /-- The query to this target has been signed. -/
  | signed (target : Target)
  | other

def Cause.signing : Cause → List Target
  | .signed target => [target]
  | .bootstrap | .other => []

/-- What a handler that succeeds does: the peer that it leaves and its marks. -/
inductive Moves (s : Peer K A σ) : Cause → Peer K A σ → List (Effect K A σ) → Prop
  | calm {s' : Peer K A σ} (hbuckets : s'.buckets = s.buckets ∨ ∃ record, s.buckets.Takes record s'.buckets)
    (hrecord : s'.record = s.record) (hqueries : s'.queryStates = s.queryStates)
    (hrefresh : s'.refreshTargets = s.refreshTargets) (hboot : s'.onBootstrap = s.onBootstrap) : Moves s .other s' []
  | query (target : Target) (count : ℕ+) (hboot : s.onBootstrap = false) :
    Moves s .other s [.submit (.signFindPeer ⟨target, count, s.record⟩)]
  | bootstrap (hqueries : s.queryStates.entries = []) (hrefresh : s.refreshTargets = ∅) (hboot : s.onBootstrap = false) :
    Moves s .bootstrap { s with onBootstrap := true } [.bootstrap, .submit (.signFindPeer ⟨s.record.id, 20, s.record⟩)]
  | start {v : Verifiable (FindPeer K A) σ} {state : QueryState K A σ} {timer : UInt32}
    (hnone : s.queryStates.lookup v.inner.target = none) (hstate : s.Starts v state) :
    Moves s (.signed v.inner.target)
      { s with timer := timer, queryStates := s.queryStates.insert v.inner.target state } [.start v.inner.target]
  | reply {reply : FindPeerOk K A} {buckets : Buckets K A} {state state' : QueryState K A σ}
    {merged : List (PeerRecord K A)} {status : QueryStatus} {s₁ s₂ : Peer K A σ} {ms : List (Effect K A σ)}
    (htakes : s.buckets.Takes reply.record buckets) (hlive : s.Live reply state)
    (hmerges : Merges reply.target reply.closest state.records merged)
    (hjudges : Judges { s with buckets := buckets } reply.target (QueryState.replied state reply.record.id merged) status state' s₁)
    (hconcludes : s₁.Concludes reply.target (QueryState.closest state') status s₂ ms) :
    Moves s .other s₂ (.verdict reply.target status state' (QueryState.closest state') :: ms)

theorem Judges.frame {s s' : Peer K A σ} {target : Target} {state state' : QueryState K A σ} {status : QueryStatus}
    (h : s.Judges target state status state' s') : s'.buckets = s.buckets ∧ s'.record = s.record ∧
      s'.refreshTargets = s.refreshTargets ∧ s'.onBootstrap = s.onBootstrap := by
  cases h <;> exact ⟨rfl, rfl, rfl, rfl⟩

theorem Judges.queries {s s' : Peer K A σ} {target : Target} {state state' : QueryState K A σ} {status : QueryStatus}
    (h : s.Judges target state status state' s') : s'.queryStates =
      if status = .progress then s.queryStates.insert target state' else s.queryStates.remove target := by
  cases h <;> rfl

theorem Concludes.frame {s s' : Peer K A σ} {target : Target} {closest : List (PeerRecord K A)} {status : QueryStatus}
    {ms : List (Effect K A σ)} (h : s.Concludes target closest status s' ms) : s'.buckets = s.buckets ∧ s'.record = s.record ∧
      s'.queryStates = s.queryStates := by
  cases h <;> exact ⟨rfl, rfl, rfl⟩

theorem Moves.sound {s s' : Peer K A σ} {cause : Cause} {ms : List (Effect K A σ)} (hs : s.Sound)
    (h : s.Moves cause s' ms) : s'.Sound := by
  cases h with
  | calm hbuckets hrecord hqueries hrefresh hboot =>
    have hframe : s'.buckets.Wf ∧ s'.buckets.origin = s.buckets.origin := by
      rcases hbuckets with heq | ⟨record, htakes⟩
      · rw [heq]
        exact ⟨hs.wf, rfl⟩
      · exact ⟨htakes.wf, htakes.origin⟩
    refine ⟨hframe.1, by rw [hframe.2, hs.origin, hrecord], ?_, ?_⟩
    · rw [hqueries]
      exact hs.sorted
    · rw [hrefresh, hboot]
      exact hs.refresh
  | query => exact hs
  | bootstrap hqueries hrefresh hboot => exact ⟨hs.wf, hs.origin, hs.sorted, fun _ => hrefresh⟩
  | @start v state timer hnone hstate =>
    refine ⟨hs.wf, hs.origin, ?_, hs.refresh⟩
    rw [Table.lookup_insert]
    exact forall_update_some hs.sorted hstate.closest.sorted
  | @reply reply buckets state state' merged status s₁ _ ms htakes hlive hmerges hjudges hconcludes =>
    obtain ⟨hbuckets₁, hrecord₁, hrefresh₁, hboot₁⟩ := hjudges.frame
    obtain ⟨hbuckets₂, hrecord₂, hqueries₂⟩ := hconcludes.frame
    refine ⟨?_, ?_, ?_, fun hboot => ?_⟩
    · rw [hbuckets₂, hbuckets₁]
      exact htakes.wf
    · rw [hbuckets₂, hbuckets₁, hrecord₂, hrecord₁]
      exact htakes.origin.trans hs.origin
    · have hmerged : Sorted reply.target state'.records := by
        cases hjudges <;> exact hmerges.sorted
      rw [hqueries₂, hjudges.queries]
      by_cases hstatus : status = .progress
      · rw [if_pos hstatus, Table.lookup_insert]
        exact forall_update_some hs.sorted hmerged
      · rw [if_neg hstatus, Table.lookup_remove]
        exact forall_update_none hs.sorted
    · have hempty : s₁.onBootstrap = false → s₁.refreshTargets = ∅ := by
        rw [hboot₁, hrefresh₁]
        exact hs.refresh
      cases hconcludes with
      | upcall hb => exact hempty hb
      | refreshed hb hmem hsub => exact Finset.subset_empty.mp (hempty hb ▸ hsub)
      | going hb => exact hempty hboot
      | first hb => rw [hb] at hboot; cases hboot
      | next hb => rw [hb] at hboot; cases hboot
      | last => rfl

/-! ## The handlers -/

section
variable {self peer : Peer K A σ} {es : List (Effect K A σ)}

theorem bootstrap_moves (h : self.bootstrap = .ok peer es) : self.Moves .bootstrap peer (marks es) := by
  unfold bootstrap at h
  by_cases hqueries : self.queryStates.entries = []
  · by_cases hrefresh : self.refreshTargets = ∅
    · by_cases hboot : self.onBootstrap = false
      · simp only [Outcome.assert, if_pos hqueries, if_pos hrefresh, if_pos hboot, ok_bind] at h
        cases h
        exact .bootstrap hqueries hrefresh hboot
      · simp only [Outcome.assert, if_pos hqueries, if_pos hrefresh, if_neg hboot, ok_bind] at h
        cases h
    · simp only [Outcome.assert, if_pos hqueries, if_neg hrefresh, ok_bind] at h
      cases h
  · simp only [Outcome.assert, if_neg hqueries] at h
    cases h

theorem onQuery_moves {query : Query} (h : self.onQuery query = .ok peer es) : self.Moves .other peer (marks es) := by
  unfold onQuery at h
  by_cases hboot : self.onBootstrap = false
  · simp only [Outcome.assert, if_pos hboot, ok_bind] at h
    cases h
    exact .query query.target query.count hboot
  · simp only [Outcome.assert, if_neg hboot] at h
    cases h

theorem onSignedFindPeer_moves (hs : self.Sound) {findPeer : Verifiable (FindPeer K A) σ}
    (h : self.onSignedFindPeer findPeer = .ok peer es) : self.Moves (.signed findPeer.inner.target) peer (marks es) := by
  obtain ⟨hstart, hconcurrent⟩ := onSignedFindPeer_eq hs.wf hs.origin findPeer
  by_cases hnone : self.queryStates.lookup findPeer.inner.target = none
  · obtain ⟨state, timer, es', heq, hmarks, hstarts⟩ := hstart hnone
    rw [heq] at h
    cases h
    rw [hmarks]
    exact .start hnone hstarts
  · obtain ⟨es', heq⟩ := hconcurrent hnone
    rw [heq] at h
    cases h

theorem onSignedFindPeerOk_moves {findPeerOk : Verifiable (FindPeerOk K A) σ}
    (h : self.onSignedFindPeerOk findPeerOk = .ok peer es) : self.Moves .other peer (marks es) := by
  unfold onSignedFindPeerOk at h
  cases hdest : self.findPeerOkDests findPeerOk.inner.seq with
  | none =>
    rw [hdest] at h
    cases h
  | some dest =>
    rw [hdest] at h
    cases h
    exact .calm (Or.inl rfl) rfl rfl rfl rfl

theorem onVerifiedFindPeer_moves (hs : self.Sound) {findPeer : Verifiable (FindPeer K A) σ}
    (h : self.onVerifiedFindPeer findPeer = .ok peer es) : self.Moves .other peer (marks es) := by
  by_cases hid : findPeer.inner.record.id = self.record.id
  · rw [onVerifiedFindPeer_origin hs.origin hid] at h
    cases h
  · obtain ⟨buckets, hinsert, htakes⟩ := Buckets.insert_takes (E := Effect K A σ) findPeer.inner.record hs.wf
      (by rw [hs.origin]; exact hid)
    obtain ⟨hok, hoverflow⟩ := onVerifiedFindPeer_eq htakes.wf hinsert
    by_cases hseq : self.findPeerOkSeq.toNat + 1 < 2 ^ 32
    · obtain ⟨seq, dests, es', heq, hmarks⟩ := hok hseq
      rw [heq] at h
      cases h
      rw [hmarks]
      exact .calm (Or.inr ⟨_, htakes⟩) rfl rfl rfl rfl
    · rw [hoverflow hseq] at h
      cases h

variable [DecidableEq K] [DecidableEq A]

theorem onVerifiedFindPeerOk_reply (hs : self.Sound) {chance : Chance} {findPeerOk : Verifiable (FindPeerOk K A) σ}
    {state : QueryState K A σ} (hlive : self.Live findPeerOk.inner state)
    (h : self.onVerifiedFindPeerOk chance findPeerOk = .ok peer es) :
    ∃ buckets merged status state' s₁ ms, self.buckets.Takes findPeerOk.inner.record buckets ∧
      Merges findPeerOk.inner.target findPeerOk.inner.closest state.records merged ∧
      Judges { self with buckets := buckets } findPeerOk.inner.target
        (QueryState.replied state findPeerOk.inner.record.id merged) status state' s₁ ∧
      s₁.Concludes findPeerOk.inner.target (QueryState.closest state') status peer ms ∧
      marks es = .verdict findPeerOk.inner.target status state' (QueryState.closest state') :: ms := by
  by_cases hid : findPeerOk.inner.record.id = self.record.id
  · rw [onVerifiedFindPeerOk_origin hs.origin hid] at h
    cases h
  · obtain ⟨buckets, hinsert, htakes⟩ := Buckets.insert_takes (E := Effect K A σ) findPeerOk.inner.record hs.wf
      (by rw [hs.origin]; exact hid)
    obtain ⟨hdiffer, hagree⟩ := onVerifiedFindPeerOk_live chance hinsert hlive (hs.sorted _ _ hlive.lookup)
    by_cases hok : Agree (findPeerOk.inner.closest ++ state.records)
    · obtain ⟨merged, hmerges, status, state', self', es', hjudges, hmarks, heq⟩ := hagree hok
      rw [heq] at h
      obtain ⟨_, es₁, es₂, h₁, h₂, rfl⟩ := bind_eq_ok.mp h
      cases h₁
      obtain ⟨hconcludes, hpanic⟩ := conclude_eq self' chance findPeerOk.inner.target status (QueryState.closest state') (by
          rw [hjudges.frame.1, hjudges.frame.2.1]
          exact htakes.origin.trans hs.origin)
      by_cases hcontinue : self'.onBootstrap = true → status ≠ .progress → self'.Continues findPeerOk.inner.target
      · obtain ⟨s₂, es₃, heq₂, hc⟩ := hconcludes hcontinue
        rw [heq₂] at h₂
        cases h₂
        exact ⟨buckets, merged, status, state', self', _, htakes, hmerges, hjudges, hc, by rw [marks_append, hmarks]; rfl⟩
      · obtain ⟨panic, heq₂, _⟩ := hpanic hcontinue
        rw [heq₂] at h₂
        cases h₂
    · obtain ⟨es', heq⟩ := hdiffer hok
      rw [heq] at h
      cases h

theorem onVerifiedFindPeerOk_moves (hs : self.Sound) {chance : Chance} {findPeerOk : Verifiable (FindPeerOk K A) σ}
    (h : self.onVerifiedFindPeerOk chance findPeerOk = .ok peer es) : self.Moves .other peer (marks es) := by
  by_cases hlive : ∃ state, self.Live findPeerOk.inner state
  · obtain ⟨state, hlive⟩ := hlive
    obtain ⟨buckets, merged, status, state', s₁, ms, htakes, hmerges, hjudges, hconcludes, hmarks⟩ :=
      onVerifiedFindPeerOk_reply hs hlive h
    rw [hmarks]
    exact .reply htakes hlive hmerges hjudges hconcludes
  · by_cases hid : findPeerOk.inner.record.id = self.record.id
    · rw [onVerifiedFindPeerOk_origin hs.origin hid] at h
      cases h
    · obtain ⟨buckets, hinsert, htakes⟩ := Buckets.insert_takes (E := Effect K A σ) findPeerOk.inner.record
        hs.wf (by rw [hs.origin]; exact hid)
      rw [onVerifiedFindPeerOk_idle hinsert fun state hl => hlive ⟨state, hl⟩] at h
      cases h
      exact .calm (Or.inr ⟨_, htakes⟩) rfl rfl rfl rfl

end

end Peer

/-! ## The steps of a node -/

/-- The targets of the queries among these calls. -/
def signs (es : List (Effect K A σ)) : List Target := (submitted es).filterMap Job.signing

@[simp] theorem submitted_append (es es' : List (Effect K A σ)) : submitted (es ++ es') = submitted es ++ submitted es' :=
  List.filterMap_append ..

theorem signs_marks (es : List (Effect K A σ)) : signs (marks es) = signs es := by
  induction es with
  | nil => rfl
  | cons e es ih =>
    have hcons : ∀ es' : List (Effect K A σ), signs (e :: es') = signs [e] ++ signs es' := fun es' => by
      rw [signs, signs, signs, ← List.filterMap_append, ← submitted_append]
      rfl
    rw [hcons, ← ih]
    rcases e with job | _ | _ | _ | _ | _ | _ | _ | _ | _ | _
    · cases job <;> rfl
    all_goals rfl

theorem new_sound {buckets : Buckets K A} (h : buckets.Wf) : (Peer.new buckets : Peer K A σ).Sound :=
  ⟨h, rfl, fun _ _ => nofun, fun _ => rfl⟩

variable [DigestHash K] [DigestHash A] [DecidableEq K] [DecidableEq A] {crypto : PeerCrypto K σ}

/-- A step of a node, by the move of its peer. -/
structure Steps (node : Node K A σ) (input : Input K A σ) (node' : Node K A σ) (cause : Peer.Cause)
    (ms : List (Effect K A σ)) : Prop where
  moves : node.peer.Moves cause node'.peer ms
  history : marks node'.history = marks node.history ++ ms
  before : node.signing.Perm (cause.signing ++ (node.remaining input).filterMap Job.signing)
  after : node'.signing = (node.remaining input).filterMap Job.signing ++ signs ms
  bootstrap : cause = .bootstrap → input = .bootstrap
  signed : ∀ target, cause = .signed target → ∃ findPeer, node.finishes input = some (.signFindPeer findPeer)

theorem onEvent_moves {self peer : Peer K A σ} {es : List (Effect K A σ)} (hs : self.Sound) {chance : Chance}
    {job : Job K A σ} {event : Event K A σ} (hrun : job.run crypto = some event) (h : self.onEvent chance event = .ok peer es) :
    ∃ cause, self.Moves cause peer (marks es) ∧ cause.signing = job.signing.toList ∧ cause ≠ .bootstrap ∧
      ∀ target, cause = .signed target → ∃ findPeer, job = .signFindPeer findPeer := by
  cases job with
  | signFindPeer findPeer =>
    cases hrun
    exact ⟨_, Peer.onSignedFindPeer_moves hs h, rfl, nofun, fun _ _ => ⟨findPeer, rfl⟩⟩
  | verifyFindPeer findPeer =>
    rw [Job.run] at hrun
    split at hrun
    · cases hrun
      exact ⟨_, Peer.onVerifiedFindPeer_moves hs h, rfl, nofun, nofun⟩
    · cases hrun
  | signFindPeerOk findPeerOk =>
    cases hrun
    exact ⟨_, Peer.onSignedFindPeerOk_moves h, rfl, nofun, nofun⟩
  | verifyFindPeerOk findPeerOk =>
    rw [Job.run] at hrun
    split at hrun
    · cases hrun
      exact ⟨_, Peer.onVerifiedFindPeerOk_moves hs h, rfl, nofun, nofun⟩
    · cases hrun

theorem handle_moves {node : Node K A σ} {input : Input K A σ} {peer : Peer K A σ} {es : List (Effect K A σ)}
    (hs : node.peer.Sound) (h : node.handle crypto input = .ok peer es) :
    ∃ cause, node.peer.Moves cause peer (marks es) ∧
      node.signing.Perm (cause.signing ++ (node.remaining input).filterMap Job.signing) ∧
      (cause = .bootstrap → input = .bootstrap) ∧
      ∀ target, cause = .signed target → ∃ findPeer, node.finishes input = some (.signFindPeer findPeer) := by
  have hcalm : node.peer.Moves .other node.peer [] := .calm (Or.inl rfl) rfl rfl rfl rfl
  cases input with
  | bootstrap => exact ⟨_, Peer.bootstrap_moves h, .refl _, fun _ => rfl, nofun⟩
  | query query => exact ⟨_, Peer.onQuery_moves h, .refl _, nofun, nofun⟩
  | recvFindPeer findPeer =>
    cases h
    exact ⟨_, hcalm, .refl _, nofun, nofun⟩
  | recvFindPeerOk findPeerOk =>
    cases h
    exact ⟨_, hcalm, .refl _, nofun, nofun⟩
  | complete n chance =>
    unfold Node.handle at h
    cases hjob : node.jobs[n]? with
    | none =>
      simp only [hjob] at h
      cases h
      refine ⟨_, hcalm, ?_, nofun, nofun⟩
      change (node.jobs.filterMap _).Perm ((node.jobs.eraseIdx n).filterMap _)
      rw [List.eraseIdx_of_length_le (List.getElem?_eq_none_iff.mp hjob)]
    | some job =>
      simp only [hjob] at h
      obtain ⟨hn, hget⟩ := List.getElem?_eq_some_iff.mp hjob
      have hperm : node.signing.Perm (job.signing.toList ++ (node.jobs.eraseIdx n).filterMap Job.signing) := by
        refine ((List.getElem_cons_eraseIdx_perm hn).symm.filterMap Job.signing).trans ?_
        rw [hget, List.filterMap_cons]
        cases job.signing <;> exact .refl _
      cases hrun : job.run crypto with
      | none =>
        simp only [hrun] at h
        cases h
        refine ⟨_, hcalm, ?_, nofun, nofun⟩
        have hsigning : job.signing = none := by
          cases job with
          | signFindPeer => cases hrun
          | _ => rfl
        rwa [hsigning] at hperm
      | some event =>
        simp only [hrun] at h
        obtain ⟨cause, hmoves, hcause, hne, hsigned⟩ := onEvent_moves hs hrun h
        refine ⟨cause, hmoves, ?_, fun heq => absurd heq hne, fun target heq => ?_⟩
        · rw [hcause]
          exact hperm
        · obtain ⟨findPeer, rfl⟩ := hsigned target heq
          exact ⟨findPeer, hjob⟩

theorem next_steps {node node' : Node K A σ} {input : Input K A σ} (hs : node.peer.Sound)
    (h : (machine crypto).next node input node') : ∃ cause ms, Steps node input node' cause ms := by
  obtain ⟨peer, es, hhandle, rfl⟩ := h
  obtain ⟨cause, hmoves, hperm, hbootstrap, hsigned⟩ := handle_moves hs hhandle
  refine ⟨cause, marks es, hmoves, marks_append _ _, hperm, ?_, hbootstrap, hsigned⟩
  rw [signs_marks]
  exact List.filterMap_append ..

theorem init_sound {node : Node K A σ} (h : (machine crypto).init node) : node.peer.Sound := by
  obtain ⟨origin, ops, buckets, hok, rfl⟩ := h
  exact new_sound (Buckets.foldlM_ok (Buckets.new_wf origin) hok).2

theorem reach_sound {C : Node K A σ → Input K A σ → Prop} {node : Node K A σ} (h : (machine crypto).Reach C node) :
    node.peer.Sound := by
  refine h.invariant (fun node => init_sound) fun node input node' _ hs _ hnext => ?_
  obtain ⟨cause, ms, hsteps⟩ := next_steps hs hnext
  exact hsteps.moves.sound hs

/-- The invariant rule of the machine, by the moves of the peer. -/
theorem reach_induct {C : Node K A σ → Input K A σ → Prop} {I : Node K A σ → Prop}
    (hinit : ∀ buckets : Buckets K A, I { peer := Peer.new buckets })
    (hstep : ∀ node input node' cause ms, I node → node.peer.Sound → C node input → Steps node input node' cause ms → I node')
    {node : Node K A σ} (h : (machine crypto).Reach C node) : I node := by
  refine h.invariant ?_ fun node input node' hreach hI hC hnext => ?_
  · rintro _ ⟨origin, ops, buckets, _, rfl⟩
    exact hinit buckets
  · obtain ⟨cause, ms, hsteps⟩ := next_steps (reach_sound hreach) hnext
    exact hstep node input node' cause ms hI (reach_sound hreach) hC hsteps

end

end Neatworks.Kademlia
