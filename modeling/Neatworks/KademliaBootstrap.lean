import Neatworks.KademliaMoves

/-!
# The stages of a bootstrap

A bootstrap that starts while no query is being signed has one query at a time:
first the one to the own id, and then one to each target of the refresh, until
the last of them has ended.
-/

namespace Neatworks.Kademlia

open Outcome

/-- What has happened since the last bootstrap was accepted; the queries are
those from the refresh on, until `on_bootstrap` is called. -/
structure BootstrapLog where
  targets : Option (Finset Target) := none
  queried : List Target := []
  ended : List Target := []
  called : Nat := 0

section
variable {K A σ : Type}

namespace BootstrapLog

/-- The queries are recorded. -/
def Open (log : BootstrapLog) : Prop := log.targets.isSome ∧ log.called = 0

instance (log : BootstrapLog) : Decidable log.Open := inferInstanceAs (Decidable (_ ∧ _))

def next (log : BootstrapLog) : Effect K A σ → BootstrapLog
  | .bootstrap => {}
  | .refresh targets => { log with targets := some targets }
  | .submit (.signFindPeer findPeer) =>
    if log.Open then { log with queried := log.queried ++ [findPeer.target] } else log
  | .verdict target status _ _ =>
    if log.Open ∧ status ≠ .progress then { log with ended := log.ended ++ [target] } else log
  | .onBootstrap => { log with called := log.called + 1 }
  | _ => log

def of (es : List (Effect K A σ)) : BootstrapLog := es.foldl next {}

theorem foldl_marks (es : List (Effect K A σ)) (log : BootstrapLog) : (marks es).foldl next log = es.foldl next log := by
  induction es generalizing log with
  | nil => rfl
  | cons e es ih =>
    cases he : e.mark with
    | true =>
      rw [marks, List.filter_cons_of_pos he]
      exact ih _
    | false =>
      have hsame : log.next e = log := by
        rcases e with job | _ | _ | _ | _ | _ | _ | _ | _ | _ | _
        · cases job <;> first | rfl | cases he
        all_goals first | rfl | cases he
      rw [marks, List.filter_cons_of_neg (by simp [he]), List.foldl_cons, hsame]
      exact ih _

end BootstrapLog

/-! ## The stages -/

/-- The query to the target is the only one, and it is being signed or runs. -/
def Node.Only (node : Node K A σ) (target : Target) : Prop :=
  node.signing = [target] ∧ node.peer.queryStates.entries = [] ∨
  node.signing = [] ∧ ∃ state, node.peer.queryStates.entries = [(target, state)]

/-- The stage that the bootstrap of a node is at. -/
inductive Stage (node : Node K A σ) : BootstrapLog → Prop
  | idle (hboot : node.peer.onBootstrap = false) : Stage node {}
  | first {target : Target} (hboot : node.peer.onBootstrap = true) (hrefresh : node.peer.refreshTargets = ∅)
    (honly : node.Only target) : Stage node {}
  | refreshing {targets : Finset Target} {ended : List Target} {target : Target} (hboot : node.peer.onBootstrap = true)
    (honly : node.Only target) (hmem : target ∈ node.peer.refreshTargets)
    (hended : ∀ t ∈ ended, t ∉ node.peer.refreshTargets) (hnodup : ended.Nodup)
    (htargets : ∀ t, t ∈ targets ↔ t ∈ ended ∨ t ∈ node.peer.refreshTargets) :
    Stage node ⟨some targets, ended ++ [target], ended, 0⟩
  | done {targets : Finset Target} {ended : List Target} (hboot : node.peer.onBootstrap = false) (hnodup : ended.Nodup)
    (htargets : ∀ t, t ∈ targets ↔ t ∈ ended) : Stage node ⟨some targets, ended, ended, 1⟩

/-- The bootstrap that this step accepts finds no query that is being signed. -/
def Quiet (node : Node K A σ) (input : Input K A σ) : Prop :=
  match input with
  | .bootstrap => node.signing = []
  | _ => True

theorem Node.Only.live {node : Node K A σ} {target t : Target} {state : QueryState K A σ} (h : node.Only target)
    (hlookup : node.peer.queryStates.lookup t = some state) :
    node.signing = [] ∧ t = target ∧ node.peer.queryStates.entries = [(target, state)] := by
  have hmem := Table.lookup_eq_some.mp hlookup
  rcases h with ⟨_, hnil⟩ | ⟨hsigning, state', hone⟩
  · rw [hnil] at hmem
    exact absurd hmem List.not_mem_nil
  · rw [hone, List.mem_singleton] at hmem
    cases hmem
    exact ⟨hsigning, rfl, hone⟩

theorem Stage.still {node node' : Node K A σ} {log : BootstrapLog} (h : Stage node log)
    (hold : node.peer.onBootstrap = false) (hnew : node'.peer.onBootstrap = false) : Stage node' log := by
  cases h with
  | idle => exact .idle hnew
  | first hboot => rw [hboot] at hold; cases hold
  | refreshing hboot => rw [hboot] at hold; cases hold
  | done _ hnodup htargets => exact .done hnew hnodup htargets

theorem Stage.not_open {node : Node K A σ} {log : BootstrapLog} (h : Stage node log) (hold : node.peer.onBootstrap = false) :
    ¬ log.Open := by
  cases h with
  | idle => exact fun hopen => nomatch hopen.1
  | first hboot => rw [hboot] at hold; cases hold
  | refreshing hboot => rw [hboot] at hold; cases hold
  | done => exact fun hopen => nomatch hopen.2

theorem Stage.keep {node node' : Node K A σ} {log : BootstrapLog} (h : Stage node log)
    (hboot : node'.peer.onBootstrap = node.peer.onBootstrap) (hrefresh : node'.peer.refreshTargets = node.peer.refreshTargets)
    (honly : ∀ target, node.Only target → node'.Only target) : Stage node' log := by
  cases h with
  | idle h => exact .idle (hboot.trans h)
  | first h hempty hone => exact .first (hboot.trans h) (hrefresh.trans hempty) (honly _ hone)
  | refreshing h hone hmem hended hnodup htargets =>
    rw [← hrefresh] at hmem hended htargets
    exact .refreshing (hboot.trans h) (honly _ hone) hmem hended hnodup htargets
  | done h hnodup htargets => exact .done (hboot.trans h) hnodup htargets

/-! ## What a step does to the stage -/

theorem Node.Only.of_perm {node node' : Node K A σ} {target : Target} (h : node.Only target)
    (hperm : node.signing.Perm node'.signing) (hqueries : node'.peer.queryStates = node.peer.queryStates) :
    node'.Only target := by
  unfold Only
  rw [hqueries]
  rcases h with ⟨hone, hnil⟩ | ⟨hnone, hlive⟩
  · rw [hone] at hperm
    exact Or.inl ⟨List.perm_singleton.mp hperm.symm, hnil⟩
  · rw [hnone] at hperm
    exact Or.inr ⟨List.perm_nil.mp hperm.symm, hlive⟩

theorem Node.Only.start {node node' : Node K A σ} {target t : Target} {state : QueryState K A σ} (h : node.Only target)
    (hperm : node.signing.Perm (t :: node'.signing))
    (hqueries : node'.peer.queryStates = node.peer.queryStates.insert t state) : node'.Only target := by
  rcases h with ⟨hone, hnil⟩ | ⟨hnone, _⟩
  · rw [hone] at hperm
    have heq := List.perm_singleton.mp hperm.symm
    rw [List.cons.injEq] at heq
    obtain ⟨rfl, hsigning⟩ := heq
    refine Or.inr ⟨hsigning, state, ?_⟩
    simp [hqueries, Table.insert, hnil]
  · rw [hnone] at hperm
    exact absurd (List.perm_nil.mp hperm.symm) (List.cons_ne_nil _ _)

theorem nodup_ended {ended : List Target} {remaining : Finset Target} {target : Target} (hnodup : ended.Nodup)
    (hended : ∀ t ∈ ended, t ∉ remaining) (hmem : target ∈ remaining) : (ended ++ [target]).Nodup := by
  refine List.nodup_append.mpr ⟨hnodup, List.nodup_singleton _, fun x hx y hy heq => ?_⟩
  rw [List.mem_singleton.mp hy] at heq
  exact hended x hx (heq ▸ hmem)

theorem Stage.of_mem {node : Node K A σ} {log : BootstrapLog} (h : Stage node log) (hboot : node.peer.onBootstrap = true)
    {t : Target} (hmem : t ∈ node.peer.refreshTargets) : ∃ targets ended target,
      log = ⟨some targets, ended ++ [target], ended, 0⟩ ∧ node.Only target ∧ target ∈ node.peer.refreshTargets ∧
      (∀ t ∈ ended, t ∉ node.peer.refreshTargets) ∧ ended.Nodup ∧
      ∀ t, t ∈ targets ↔ t ∈ ended ∨ t ∈ node.peer.refreshTargets := by
  cases h with
  | idle hnot => exact absurd (hboot.symm.trans hnot) (by decide)
  | done hnot => exact absurd (hboot.symm.trans hnot) (by decide)
  | first _ hempty =>
    rw [hempty] at hmem
    exact absurd hmem (Finset.notMem_empty _)
  | refreshing _ honly htarget hended hnodup htargets =>
    exact ⟨_, _, _, rfl, honly, htarget, hended, hnodup, htargets⟩

theorem Stage.reply {node node' : Node K A σ} {log : BootstrapLog} (h : Stage node log) {reply : FindPeerOk K A}
    {buckets : Buckets K A} {state state' : QueryState K A σ} {merged : List (PeerRecord K A)} {status : QueryStatus}
    {s₁ : Peer K A σ} {ms : List (Effect K A σ)} {closest : List (PeerRecord K A)} (hboot : node.peer.onBootstrap = true)
    (hlive : node.peer.Live reply state)
    (hjudges : Peer.Judges { node.peer with buckets := buckets } reply.target
      (Peer.QueryState.replied state reply.record.id merged) status state' s₁)
    (hconcludes : s₁.Concludes reply.target closest status node'.peer ms)
    (hperm : ∃ rest, node.signing.Perm rest ∧ node'.signing = rest ++ signs ms) :
    Stage node' ((.verdict reply.target status state' closest :: ms).foldl BootstrapLog.next log) := by
  obtain ⟨rest, hperm, hsigning⟩ := hperm
  obtain ⟨_, _, hrefresh₁, hboot₁⟩ := hjudges.frame
  have hqueries := hconcludes.frame.2.2.trans hjudges.queries
  have hquiet : ∀ target, node.Only target → rest = [] ∧ reply.target = target ∧
      node.peer.queryStates.entries = [(target, state)] := by
    intro target honly
    obtain ⟨hnil, htarget, hentries⟩ := honly.live hlive.lookup
    rw [hnil] at hperm
    exact ⟨List.perm_nil.mp hperm.symm, htarget, hentries⟩
  have hremoved : ∀ target, node.Only target → status ≠ .progress → node'.peer.queryStates.entries = [] := by
    intro target honly hstatus
    obtain ⟨_, htarget, hentries⟩ := hquiet target honly
    rw [hqueries, if_neg hstatus]
    simp [Table.remove, hentries, htarget]
  generalize hpeer : node'.peer = peer at hconcludes hqueries hremoved
  cases hconcludes with
  | upcall hb => rw [hboot₁] at hb; exact absurd (hboot.symm.trans hb) (by decide)
  | refreshed hb => rw [hboot₁] at hb; exact absurd (hboot.symm.trans hb) (by decide)
  | going hb =>
    have hlog : BootstrapLog.next log (.verdict reply.target .progress state' closest : Effect K A σ) = log :=
      if_neg fun hand => hand.2 rfl
    rw [List.foldl_cons, hlog]
    refine h.keep (by rw [hpeer, hboot₁]) (by rw [hpeer, hrefresh₁]) fun target honly => Or.inr ?_
    obtain ⟨hrest, htarget, hentries⟩ := hquiet target honly
    refine ⟨by rw [hsigning, hrest]; rfl, state', ?_⟩
    rw [hpeer, hqueries, if_pos rfl]
    simp [Table.insert, hentries, htarget]
  | @first _ targets t hb hstatus hempty ht =>
    cases h with
    | idle hnot => exact absurd (hboot.symm.trans hnot) (by decide)
    | done hnot => exact absurd (hboot.symm.trans hnot) (by decide)
    | refreshing _ _ hmem =>
      rw [← hrefresh₁, hempty] at hmem
      exact absurd hmem (Finset.notMem_empty _)
    | @first target _ _ honly =>
      have hlog : [.verdict reply.target status state' closest, .refresh targets,
          .submit (.signFindPeer ⟨t, 20, s₁.record⟩)].foldl BootstrapLog.next {} =
          ⟨some targets, [] ++ [t], [], 0⟩ := by
        simp [BootstrapLog.next, BootstrapLog.Open]
      rw [hlog]
      refine .refreshing (by rw [hpeer]; exact hb) (Or.inl ⟨?_, ?_⟩) (by rw [hpeer]; exact ht) (by simp) List.nodup_nil
        (by simp [hpeer])
      · rw [hsigning, (hquiet target honly).1]
        rfl
      · rw [hpeer]
        exact hremoved target honly hstatus
  | @next _ t hb hstatus hmem ht =>
    rw [hrefresh₁] at hmem
    obtain ⟨targets, ended, target, rfl, honly, htarget, hended, hnodup, htargets⟩ := h.of_mem hboot hmem
    obtain ⟨hrest, rfl, _⟩ := hquiet target honly
    have hlog : [.verdict reply.target status state' closest, .submit (.signFindPeer ⟨t, 20, s₁.record⟩)].foldl
        BootstrapLog.next ⟨some targets, ended ++ [reply.target], ended, 0⟩ =
        ⟨some targets, (ended ++ [reply.target]) ++ [t], ended ++ [reply.target], 0⟩ := by
      simp [BootstrapLog.next, BootstrapLog.Open, hstatus]
    rw [hlog]
    have hrefresh : node'.peer.refreshTargets = node.peer.refreshTargets.erase reply.target := by
      rw [hpeer, ← hrefresh₁]
    refine .refreshing (by rw [hpeer]; exact hb) (Or.inl ⟨?_, ?_⟩) ?_ (fun x hx => ?_) (nodup_ended hnodup hended htarget)
      fun x => ?_
    · rw [hsigning, hrest]
      rfl
    · rw [hpeer]
      exact hremoved _ honly hstatus
    · rw [hpeer]
      exact ht
    · rw [hrefresh, Finset.mem_erase]
      intro hand
      rcases List.mem_append.mp hx with hx | hx
      · exact hended x hx hand.2
      · exact hand.1 (List.mem_singleton.mp hx)
    · rw [htargets, hrefresh, Finset.mem_erase, List.mem_append, List.mem_singleton]
      by_cases hx : x = reply.target
      · simp [hx, htarget]
      · simp [hx]
  | last hb hstatus hmem hlast =>
    rw [hrefresh₁] at hmem
    obtain ⟨targets, ended, target, rfl, honly, htarget, hended, hnodup, htargets⟩ := h.of_mem hboot hmem
    obtain ⟨hrest, rfl, _⟩ := hquiet target honly
    have hlog : [.verdict reply.target status state' closest, .onBootstrap].foldl
        BootstrapLog.next ⟨some targets, ended ++ [reply.target], ended, 0⟩ =
        ⟨some targets, ended ++ [reply.target], ended ++ [reply.target], 1⟩ := by
      simp [BootstrapLog.next, BootstrapLog.Open, hstatus]
    rw [hlog]
    have hall : ∀ x ∈ node.peer.refreshTargets, x = reply.target := fun x hx => by
      by_contra hne
      have herase := Finset.mem_erase.mpr ⟨hne, hx⟩
      rw [← hrefresh₁, hlast] at herase
      exact Finset.notMem_empty _ herase
    refine .done (by rw [hpeer]) (nodup_ended hnodup hended htarget) fun x => ?_
    rw [htargets, List.mem_append, List.mem_singleton]
    exact or_congr_right ⟨hall x, fun heq => heq ▸ htarget⟩

theorem Stage.step [DigestHash K] [DigestHash A] [DecidableEq K] [DecidableEq A] {node node' : Node K A σ}
    {log : BootstrapLog} {input : Input K A σ} {cause : Peer.Cause} {ms : List (Effect K A σ)} (h : Stage node log)
    (hquiet : Quiet node input) (hsteps : Steps node input node' cause ms) :
    Stage node' (ms.foldl BootstrapLog.next log) := by
  obtain ⟨hmoves, _, hbefore, hafter, hbootstrap, _⟩ := hsteps
  generalize hpeer : node'.peer = peer at hmoves
  cases hmoves with
  | calm _ _ hqueries hrefresh hboot =>
    refine h.keep (by rw [hpeer, hboot]) (by rw [hpeer, hrefresh]) fun target honly => honly.of_perm ?_ (by rw [hpeer, hqueries])
    rw [hafter]
    exact hbefore.trans (.of_eq (List.append_nil _).symm)
  | query target count hboot =>
    have hlog : log.next (.submit (.signFindPeer ⟨target, count, node.peer.record⟩) : Effect K A σ) = log :=
      if_neg (h.not_open hboot)
    rw [List.foldl_cons, hlog]
    exact h.still hboot (by rw [hpeer, hboot])
  | bootstrap hqueries hrefresh hboot =>
    rw [hbootstrap rfl] at hquiet
    have hnil : node.signing = [] := hquiet
    rw [hnil] at hbefore
    have hlog : ([.bootstrap, .submit (.signFindPeer ⟨node.peer.record.id, 20, node.peer.record⟩)] :
        List (Effect K A σ)).foldl BootstrapLog.next log = {} := by
      simp [BootstrapLog.next, BootstrapLog.Open]
    rw [hlog]
    have honly : node'.Only node.peer.record.id := Or.inl ⟨?_, ?_⟩
    · exact .first (by rw [hpeer]) (by rw [hpeer]; exact hrefresh) honly
    · have hrest : (node.remaining input).filterMap Job.signing = [] := List.perm_nil.mp hbefore.symm
      rw [hafter, hrest]
      rfl
    · rw [hpeer]
      exact hqueries
  | @start v state timer hnone hstate =>
    refine h.keep (by rw [hpeer]) (by rw [hpeer]) fun target honly => honly.start (t := v.inner.target) ?_
      (by rw [hpeer])
    rw [hafter]
    exact hbefore.trans (.of_eq (by rw [show signs [(.start v.inner.target : Effect K A σ)] = [] from rfl, List.append_nil]; rfl))
  | @reply reply buckets state state' merged status s₁ _ ms htakes hlive hmerges hjudges hconcludes =>
    by_cases hboot : node.peer.onBootstrap = true
    · exact h.reply hboot hlive hjudges (hpeer ▸ hconcludes) ⟨_, hbefore, hafter⟩
    · have hboot : node.peer.onBootstrap = false := by simpa using hboot
      have hboot₁ : s₁.onBootstrap = false := hjudges.frame.2.2.2.trans hboot
      have hlog : log.next (.verdict reply.target status state' (Peer.QueryState.closest state') : Effect K A σ) = log :=
        if_neg fun hand => h.not_open hboot hand.1
      rw [List.foldl_cons, hlog]
      cases hconcludes with
      | upcall => exact h.still hboot (by rw [hpeer]; exact hboot₁)
      | refreshed => exact h.still hboot (by rw [hpeer]; exact hboot₁)
      | going hb => exact absurd (hboot₁.symm.trans hb) (by decide)
      | first hb => exact absurd (hboot₁.symm.trans hb) (by decide)
      | next hb => exact absurd (hboot₁.symm.trans hb) (by decide)
      | last hb => exact absurd (hboot₁.symm.trans hb) (by decide)

/-! ## Handlers that fail an assertion -/

theorem Peer.onVerifiedFindPeerOk_assert [DecidableEq K] [DecidableEq A] {self : Peer K A σ} (hs : self.Sound)
    {chance : Chance} {findPeerOk : Verifiable (FindPeerOk K A) σ} {es : List (Effect K A σ)}
    (h : self.onVerifiedFindPeerOk chance findPeerOk = .fail (.panic .assert) es) :
    ∃ state, self.Live findPeerOk.inner state ∧ self.onBootstrap = true ∧ self.refreshTargets ≠ ∅ ∧
      findPeerOk.inner.target ∉ self.refreshTargets := by
  by_cases hid : findPeerOk.inner.record.id = self.record.id
  · rw [onVerifiedFindPeerOk_origin hs.origin hid] at h
    cases h
  obtain ⟨buckets, hinsert, htakes⟩ := Buckets.insert_takes (E := Effect K A σ) findPeerOk.inner.record hs.wf
    (by rw [hs.origin]; exact hid)
  by_cases hidle : ∀ state, ¬ self.Live findPeerOk.inner state
  · rw [onVerifiedFindPeerOk_idle hinsert hidle] at h
    cases h
  obtain ⟨state, hlive⟩ := not_forall_not.mp hidle
  refine ⟨state, hlive, ?_⟩
  obtain ⟨hdiffer, hagree⟩ := onVerifiedFindPeerOk_live chance hinsert hlive (hs.sorted _ _ hlive.lookup)
  by_cases hok : Agree (findPeerOk.inner.closest ++ state.records)
  · obtain ⟨merged, hmerges, status, state', self', es', hjudges, _, heq⟩ := hagree hok
    obtain ⟨_, _, hrefresh, hboot⟩ := hjudges.frame
    obtain ⟨hconcludes, hpanic⟩ := conclude_eq self' chance findPeerOk.inner.target status (QueryState.closest state') (by
        rw [hjudges.frame.1, hjudges.frame.2.1]
        exact htakes.origin.trans hs.origin)
    rw [heq] at h
    by_cases hcontinue : self'.onBootstrap = true → status ≠ .progress → self'.Continues findPeerOk.inner.target
    · obtain ⟨s₂, es₂, heq', _⟩ := hconcludes hcontinue
      change Outcome.bind _ _ = _ at h
      simp only [Outcome.bind, heq'] at h
      cases h
    · obtain ⟨panic, heq', hassert⟩ := hpanic hcontinue
      change Outcome.bind _ _ = _ at h
      simp only [Outcome.bind, heq'] at h
      cases h
      have hfacts := hassert rfl
      rw [hboot, hrefresh] at hfacts
      exact hfacts
  · obtain ⟨es', heq⟩ := hdiffer hok
    rw [heq] at h
    cases h

theorem onEvent_assert [DecidableEq K] [DecidableEq A] {self : Peer K A σ} (hs : self.Sound) {chance : Chance}
    {event : Event K A σ} {es : List (Effect K A σ)} (h : self.onEvent chance event = .fail (.panic .assert) es) :
    ∃ reply state, self.Live reply state ∧ self.onBootstrap = true ∧ self.refreshTargets ≠ ∅ ∧
      reply.target ∉ self.refreshTargets := by
  cases event with
  | signedFindPeer findPeer =>
    obtain ⟨hstart, hconcurrent⟩ := Peer.onSignedFindPeer_eq hs.wf hs.origin findPeer
    rw [Peer.onEvent] at h
    by_cases hnone : self.queryStates.lookup findPeer.inner.target = none
    · obtain ⟨state, timer, es', heq, _⟩ := hstart hnone
      rw [heq] at h
      cases h
    · obtain ⟨es', heq⟩ := hconcurrent hnone
      rw [heq] at h
      cases h
  | verifiedFindPeer findPeer =>
    rw [Peer.onEvent] at h
    by_cases hid : findPeer.inner.record.id = self.record.id
    · rw [Peer.onVerifiedFindPeer_origin hs.origin hid] at h
      cases h
    · obtain ⟨buckets, hinsert, htakes⟩ := Buckets.insert_takes (E := Effect K A σ) findPeer.inner.record hs.wf
        (by rw [hs.origin]; exact hid)
      obtain ⟨hok, hoverflow⟩ := Peer.onVerifiedFindPeer_eq htakes.wf hinsert
      by_cases hseq : self.findPeerOkSeq.toNat + 1 < 2 ^ 32
      · obtain ⟨seq, dests, es', heq, _⟩ := hok hseq
        rw [heq] at h
        cases h
      · rw [hoverflow hseq] at h
        cases h
  | signedFindPeerOk findPeerOk =>
    rw [Peer.onEvent, Peer.onSignedFindPeerOk] at h
    cases hdest : self.findPeerOkDests findPeerOk.inner.seq with
    | none =>
      rw [hdest] at h
      cases h
    | some dest =>
      rw [hdest] at h
      cases h
  | verifiedFindPeerOk findPeerOk =>
    obtain ⟨state, hfacts⟩ := Peer.onVerifiedFindPeerOk_assert hs h
    exact ⟨findPeerOk.inner, state, hfacts⟩

theorem handle_assert [DigestHash K] [DigestHash A] [DecidableEq K] [DecidableEq A] {crypto : PeerCrypto K σ}
    {node : Node K A σ} (hs : node.peer.Sound) {input : Input K A σ} {es : List (Effect K A σ)}
    (h : node.handle crypto input = .fail (.panic .assert) es) :
    ∃ reply state, node.peer.Live reply state ∧ node.peer.onBootstrap = true ∧ node.peer.refreshTargets ≠ ∅ ∧
      reply.target ∉ node.peer.refreshTargets := by
  cases input with
  | bootstrap =>
    rw [Node.handle, Peer.bootstrap] at h
    by_cases hqueries : node.peer.queryStates.entries = [] <;> by_cases hrefresh : node.peer.refreshTargets = ∅ <;>
      by_cases hboot : node.peer.onBootstrap = false <;>
      simp only [Outcome.assert, hqueries, hrefresh, hboot, if_true, if_false, ok_bind] at h <;> cases h
  | query query =>
    rw [Node.handle, Peer.onQuery] at h
    by_cases hboot : node.peer.onBootstrap = false <;> simp only [Outcome.assert, hboot, if_true, ok_bind] at h <;>
      cases h
  | recvFindPeer findPeer => cases h
  | recvFindPeerOk findPeerOk => cases h
  | complete n chance =>
    rw [Node.handle] at h
    cases hjob : node.jobs[n]? with
    | none =>
      simp only [hjob] at h
      cases h
    | some job =>
      simp only [hjob] at h
      cases hrun : job.run crypto with
      | none =>
        simp only [hrun] at h
        cases h
      | some event =>
        simp only [hrun] at h
        exact onEvent_assert hs h

/-! ## The sequence of a bootstrap -/

variable [DigestHash K] [DigestHash A] [DecidableEq K] [DecidableEq A] {crypto : PeerCrypto K σ}

theorem reach_stage {node : Node K A σ} (h : (machine crypto).Reach Quiet node) : Stage node (.of node.history) := by
  refine reach_induct (I := fun node => Stage node (.of node.history)) (fun buckets => .idle rfl)
    (fun node input node' cause ms hstage _ hquiet hsteps => ?_) h
  have hstep := hstage.step hquiet hsteps
  unfold BootstrapLog.of at hstep ⊢
  rwa [← BootstrapLog.foldl_marks node'.history, hsteps.history, List.foldl_append, BootstrapLog.foldl_marks]

/-- Until `on_bootstrap` is called one query runs at most; no assertion fails;
the targets of the refresh are queried once each; and `on_bootstrap` has been
called once when all of them have ended, and not before. -/
theorem bootstrap_sequence {node : Node K A σ} (h : (machine crypto).Reach Quiet node) :
    (node.peer.onBootstrap = true → node.peer.queryStates.len + node.signing.length ≤ 1) ∧
    (∀ input es, node.handle crypto input ≠ .fail (.panic .assert) es) ∧
    (∀ targets, (BootstrapLog.of node.history).targets = some targets →
      (BootstrapLog.of node.history).queried.Nodup ∧
      (∀ target ∈ (BootstrapLog.of node.history).queried, target ∈ targets) ∧
      ((BootstrapLog.of node.history).called ≠ 0 → ∀ target ∈ targets, target ∈ (BootstrapLog.of node.history).queried)) ∧
    (BootstrapLog.of node.history).called ≤ 1 ∧
    ((BootstrapLog.of node.history).called = 1 ↔ ∃ targets, (BootstrapLog.of node.history).targets = some targets ∧
      ∀ target ∈ targets, target ∈ (BootstrapLog.of node.history).ended) := by
  have hstage := reach_stage h
  have hone : ∀ target, node.Only target → node.peer.queryStates.len + node.signing.length ≤ 1 := by
    intro target honly
    unfold Table.len
    rcases honly with ⟨hsigning, hnil⟩ | ⟨hnil, state, hentries⟩
    · rw [hsigning, hnil]
      exact le_refl 1
    · rw [hnil, hentries]
      exact le_refl 1
  generalize BootstrapLog.of node.history = log at hstage
  refine ⟨fun hboot => ?_, fun input es hassert => ?_, ?_⟩
  · cases hstage with
    | idle hnot => exact absurd (hboot.symm.trans hnot) (by decide)
    | first _ _ honly => exact hone _ honly
    | refreshing _ honly => exact hone _ honly
    | done hnot => exact absurd (hboot.symm.trans hnot) (by decide)
  · obtain ⟨reply, state, hlive, hboot, hne, hnot⟩ := handle_assert (reach_sound h) hassert
    cases hstage with
    | idle hfalse => exact absurd (hboot.symm.trans hfalse) (by decide)
    | first _ hempty => exact hne hempty
    | refreshing _ honly hmem =>
      obtain ⟨_, rfl, _⟩ := honly.live hlive.lookup
      exact hnot hmem
    | done hfalse => exact absurd (hboot.symm.trans hfalse) (by decide)
  · cases hstage with
    | idle => simp
    | first => simp
    | @refreshing targets ended target _ honly hmem hended hnodup htargets =>
      refine ⟨fun targets' heq => ?_, Nat.zero_le _, ?_⟩
      · cases heq
        refine ⟨nodup_ended hnodup hended hmem, fun t ht => ?_, fun hne => absurd rfl hne⟩
        rcases List.mem_append.mp ht with ht | ht
        · exact (htargets t).mpr (Or.inl ht)
        · rw [List.mem_singleton.mp ht]
          exact (htargets target).mpr (Or.inr hmem)
      · refine ⟨fun hcalled => absurd hcalled Nat.zero_ne_one, fun ⟨targets', heq, hall⟩ => ?_⟩
        cases heq
        exact absurd hmem (hended target (hall target ((htargets target).mpr (Or.inr hmem))))
    | @done targets ended _ hnodup htargets =>
      refine ⟨fun targets' heq => ?_, le_refl 1, fun _ => ⟨targets, rfl, fun t ht => (htargets t).mp ht⟩, fun _ => rfl⟩
      cases heq
      exact ⟨hnodup, fun t ht => (htargets t).mpr ht, fun _ t ht => (htargets t).mp ht⟩

end

instance (node : Node K A σ) : (input : Input K A σ) → Decidable (Quiet node input)
  | .bootstrap => inferInstanceAs (Decidable (node.signing = []))
  | .query _ | .recvFindPeer _ | .recvFindPeerOk _ | .complete _ _ => instDecidableTrue

/-- A bootstrap that has come to the targets of its refresh. -/
theorem bootstrap_sequence_refreshing : ∃ node : Node UInt8 UInt8 UInt8, (machine (cryptoOf 1)).Reach Quiet node ∧
    node.peer.refreshTargets ≠ ∅ ∧ node.peer.queryStates.len + node.signing.length ≤ 1 := by
  obtain ⟨node, hreach, hrefresh, hboot⟩ := reach_of_exec (cryptoOf 1) Quiet (peerOf 1) [.insert (peerOf 2)]
    [.bootstrap, .complete 0 .least, .recvFindPeerOk ((cryptoOf 2).sign ⟨1, .replicate 32 1, [], peerOf 2⟩), .complete 0 .least]
    (fun node => node.peer.refreshTargets ≠ ∅ ∧ node.peer.onBootstrap = true) (by decide +kernel)
  exact ⟨node, hreach, hrefresh, (bootstrap_sequence hreach).1 hboot⟩

/-- A bootstrap that a query still being signed overtakes: two queries run, and
when the own one ends its target is not among those of the refresh. -/
theorem bootstrap_overtaken : ∃ node : Node UInt8 UInt8 UInt8, (machine (cryptoOf 1)).Reach Machine.always node ∧
    node.peer.onBootstrap = true ∧ 2 ≤ node.peer.queryStates.len + node.signing.length ∧
    ∃ input es, node.handle (cryptoOf 1) input = .fail (.panic .assert) es := by
  obtain ⟨node, hreach, hboot, htwo, hfail⟩ := reach_of_exec (cryptoOf 1) Machine.always (peerOf 1) [.insert (peerOf 2)]
    [.query ⟨.replicate 32 3, 2⟩, .bootstrap, .complete 0 .least, .complete 0 .least,
      .recvFindPeerOk ((cryptoOf 2).sign ⟨1, .replicate 32 3, [], peerOf 2⟩), .complete 0 .least,
      .recvFindPeerOk ((cryptoOf 2).sign ⟨2, .replicate 32 1, [], peerOf 2⟩)]
    (fun node => node.peer.onBootstrap = true ∧ 2 ≤ node.peer.queryStates.len + node.signing.length ∧
      (match node.handle (cryptoOf 1) (.complete 1 .least) with
        | .fail (.panic .assert) _ => true
        | _ => false) = true) (by decide +kernel)
  split at hfail
  · next es heq => exact ⟨node, hreach, hboot, htwo, _, es, heq⟩
  · cases hfail

end Neatworks.Kademlia
