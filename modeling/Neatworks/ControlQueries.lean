import Neatworks.ControlRun

/-!
# The queries of the control

A query that has not ended is known from two tables, as long as no result of
another query, and no result that only reports progress, takes its unicast off
them. What is held for a target waits for a query to it, as long as no unicast
that turns out to be unreachable leaves multicasts behind.
-/

namespace Neatworks.Control

open Outcome
open Kademlia (PeerId Target PeerRecord Query QueryStatus QueryResult)

section
variable {M A K : Type}

/-- A query to the target is known to run. -/
def Querying (self : Control M A) (target : Target) : Prop :=
  (self.queryingUnicasts target).isSome ∨ (self.queryingMulticasts target).isSome

/-- The messages held for the target. -/
def held (self : Control M A) (target : Target) : List M :=
  (self.queryingUnicasts target).elim [] (·.messages) ++
    (self.queryingMulticasts target).elim [] (·.messages.map Prod.snd) ++
    (self.pendingMulticasts target).elim [] (·.map Prod.snd)

/-- The result takes a unicast off its table before the query for it has ended. -/
def ResolvesEarly (self : Control M A) (upcall : QueryResult K A) : Prop :=
  ∃ record ∈ upcall.closest, (self.queryingUnicasts record.id).isSome ∧
    (upcall.status = .progress ∨ record.id ≠ upcall.target)

/-- The result ends the query of a unicast without its record. -/
def Unreachable (self : Control M A) (upcall : QueryResult K A) : Prop :=
  (self.queryingUnicasts upcall.target).isSome ∧ upcall.target ∉ upcall.closest.map (·.id)

/-- The result finds a unicast unreachable that multicasts are pending behind. -/
def Strands (self : Control M A) (upcall : QueryResult K A) : Prop :=
  upcall.status ≠ .progress ∧ self.Unreachable upcall ∧ (self.pendingMulticasts upcall.target).isSome

def Exclusive (self : Control M A) : Prop :=
  ∀ target, (self.queryingUnicasts target).isSome → self.queryingMulticasts target = none

/-! ## What a result does to the tables -/

/-- The tables after a result that ends the query to its target. -/
structure Ends (s : Control M A) (upcall : QueryResult K A) (c : Control M A) (es : List (Effect M A)) : Prop where
  unicast : c.queryingUnicasts upcall.target = none
  others : ∀ target, target ≠ upcall.target →
    c.queryingUnicasts target =
      (if target ∈ upcall.closest.map (·.id) then none else s.queryingUnicasts target) ∧
    c.queryingMulticasts target = s.queryingMulticasts target ∧
    c.pendingMulticasts target = s.pendingMulticasts target
  unreachable : s.Unreachable upcall → c.queryingMulticasts upcall.target = s.queryingMulticasts upcall.target ∧
    c.pendingMulticasts upcall.target = s.pendingMulticasts upcall.target ∧ queries es = []
  reachable : ¬ s.Unreachable upcall → c.pendingMulticasts upcall.target = none ∧
    (c.queryingMulticasts upcall.target = none ∧ queries es = [] ∨
      (c.queryingMulticasts upcall.target).isSome ∧ queries es = [upcall.target])

theorem onResult_ends {self : Control M A} {upcall : QueryResult K A} (h : upcall.status ≠ .progress) :
    (self.onResult upcall).Sat (self.Ends upcall) fun _ => True := by
  unfold onResult
  rw [sat_bind]
  refine (resolve_tables upcall.closest).mono (fun c es ⟨hunicasts, hmulticasts, hpending, hqueries⟩ => ?_)
    fun _ _ => trivial
  rw [if_neg h]
  have hothers : ∀ target, c.queryingUnicasts target =
      (if target ∈ upcall.closest.map (·.id) then none else self.queryingUnicasts target) ∧
      c.queryingMulticasts target = self.queryingMulticasts target ∧
      c.pendingMulticasts target = self.pendingMulticasts target :=
    fun target => ⟨hunicasts target, by rw [hmulticasts], by rw [hpending]⟩
  have hreach : c.queryingUnicasts upcall.target = none → ¬ self.Unreachable upcall := by
    intro hnone ⟨hsome, hmem⟩
    rw [hunicasts, if_neg hmem] at hnone
    rw [hnone] at hsome
    cases hsome
  split
  · next querying hquerying =>
    have hunreachable : self.Unreachable upcall := by
      rw [hunicasts] at hquerying
      split at hquerying
      · cases hquerying
      · next hmem => exact ⟨by rw [hquerying]; rfl, hmem⟩
    simp only [unsetTimer, sat_bind, sat_emit, sat_assert, sat_pure, implies_true, and_true]
    refine fun _ => ⟨by simp, fun target htarget => ?_, fun _ => ?_, fun hnot => absurd hunreachable hnot⟩
    · rw [setUnicast_unicasts, Function.update_of_ne htarget]
      exact hothers target
    · refine ⟨(hothers upcall.target).2.1, (hothers upcall.target).2.2, ?_⟩
      rw [queries_append, hqueries]
      rfl
  · next hnone =>
    simp only [sat_bind]
    refine finishMulticast_sat (fun hmulticast => ?_) fun querying hmulticast => ?_
    · refine startPending_sat (fun hpend => ?_) (fun multicasts count timerId timer _ _ _ _ => ?_) fun _ => trivial
      · refine ⟨hnone, fun target _ => hothers target, fun hnot => absurd hnot (hreach hnone), fun _ => ⟨hpend, ?_⟩⟩
        exact Or.inl ⟨hmulticast, by simpa using hqueries⟩
      · refine ⟨hnone, fun target htarget => ?_, fun hnot => absurd hnot (hreach hnone), fun _ => ⟨by simp, ?_⟩⟩
        · simpa [htarget] using hothers target
        · exact Or.inr ⟨by simp, by simp [hqueries]; rfl⟩
    · have htables := pushAddrs_tables (c.setMulticast upcall.target none) upcall.closest
      have hsends : queries (Effect.unsetTimer querying.timer ::
          querying.messages.map fun e => .sendToEach ((upcall.closest.take e.1).map (·.addr)) e.2) = [] := by
        simp [queries, List.filterMap_map]
      refine startPending_sat (fun hpend => ?_) (fun multicasts count timerId timer _ _ _ _ => ?_) fun _ => trivial
      · refine ⟨by rw [htables.1]; exact hnone, fun target htarget => ?_, fun hnot => absurd hnot (hreach hnone),
          fun _ => ⟨hpend, ?_⟩⟩
        · rw [htables.1, htables.2.1, htables.2.2, setMulticast_multicasts, Function.update_of_ne htarget]
          exact hothers target
        · refine Or.inl ⟨by rw [htables.2.1]; simp, ?_⟩
          rw [queries_append, queries_append, hqueries, hsends]
          rfl
      · refine ⟨by simpa [htables.1] using hnone, fun target htarget => ?_, fun hnot => absurd hnot (hreach hnone),
          fun _ => ⟨by simp, Or.inr ⟨by simp, ?_⟩⟩⟩
        · simpa [htables.1, htables.2.1, htables.2.2, htarget] using hothers target
        · rw [queries_append, queries_append, hqueries, hsends]
          rfl

theorem onResult_progress {self : Control M A} {upcall : QueryResult K A} (h : upcall.status = .progress) :
    (self.onResult upcall).Sat (fun c es =>
      (∀ id, c.queryingUnicasts id = if id ∈ upcall.closest.map (·.id) then none else self.queryingUnicasts id) ∧
      c.queryingMulticasts = self.queryingMulticasts ∧ c.pendingMulticasts = self.pendingMulticasts ∧
      queries es = []) fun _ => True := by
  unfold onResult
  rw [sat_bind]
  refine (resolve_tables upcall.closest).mono (fun c es hc => ?_) fun _ _ => trivial
  rw [if_pos h, sat_pure, List.append_nil]
  exact hc

/-! ## No target is in both tables -/

theorem exclusive_step {run : Run M A K} (h : run.control.Exclusive) (input : Input M A K) :
    (run.handle input).Sat (fun c _ => c.Exclusive) fun _ => True := by
  rcases input with submission | upcall | query
  · cases submission with
    | unicast peerId message =>
      refine onUnicast_sat (fun addr addrs _ => h) (fun querying hquerying target hsome => ?_)
        (fun querying hnone hquerying target hsome => ?_) fun timerId timer hmulticast _ _ target hsome => ?_
      · by_cases htarget : target = peerId
        · subst htarget
          rw [h target hsome] at hquerying
          cases hquerying
        · simpa [htarget] using h target hsome
      · by_cases htarget : target = peerId
        · subst htarget
          exact hnone
        · exact h target (by simpa [htarget] using hsome)
      · by_cases htarget : target = peerId
        · subst htarget
          exact hmulticast
        · exact h target (by simpa [htarget] using hsome)
    | multicast target count message =>
      refine onMulticast_sat (fun querying hquerying _ target' hsome => ?_) (fun _ => h)
        fun timerId timer _ hunicast target' hsome => ?_
      · by_cases htarget : target' = target
        · subst htarget
          rw [h target' hsome] at hquerying
          cases hquerying
        · simpa [htarget] using h target' hsome
      · by_cases htarget : target' = target
        · subst htarget
          simp [hunicast] at hsome
        · simpa [htarget] using h target' hsome
  · by_cases hstatus : upcall.status = .progress
    · refine (onResult_progress hstatus).mono (fun c es ⟨hunicasts, hmulticasts, _⟩ target hsome => ?_) fun _ _ => trivial
      rw [hunicasts] at hsome
      split at hsome
      · cases hsome
      · rw [hmulticasts]
        exact h target hsome
    · refine (onResult_ends hstatus).mono (fun c es hends target hsome => ?_) fun _ _ => trivial
      by_cases htarget : target = upcall.target
      · subst htarget
        rw [hends.unicast] at hsome
        cases hsome
      · obtain ⟨hunicast, hmulticast, _⟩ := hends.others target htarget
        rw [hunicast] at hsome
        split at hsome
        · cases hsome
        · rw [hmulticast]
          exact h target hsome
  · trivial

/-! ## Queries do not overlap -/

structure Single (run : Run M A K) : Prop where
  exclusive : run.control.Exclusive
  nodup : run.unanswered.Nodup
  querying : ∀ target, target ∈ run.unanswered ↔ run.control.Querying target

/-- No result of this step resolves a unicast early. -/
def NeverEarly (run : Run M A K) (input : Input M A K) : Prop :=
  ∀ upcall, input = .result upcall → ¬ run.control.ResolvesEarly upcall

theorem Single.query {run : Run M A K} (h : Single run) {target : Target} {c : Control (Nat × M) A}
    (hfree : ¬ run.control.Querying target) (hc : ∀ t, c.Querying t ↔ t = target ∨ run.control.Querying t) :
    (run.unanswered ++ [target]).Nodup ∧ ∀ t, t ∈ run.unanswered ++ [target] ↔ c.Querying t := by
  have hnot : target ∉ run.unanswered := fun hmem => hfree ((h.querying target).mp hmem)
  refine ⟨List.nodup_append.mpr ⟨h.nodup, List.nodup_singleton _, fun a ha b hb hab => ?_⟩, fun t => ?_⟩
  · rw [List.mem_singleton.mp hb] at hab
    exact hnot (hab ▸ ha)
  · rw [List.mem_append, List.mem_singleton, h.querying t, hc t, or_comm]

theorem Single.submit {run : Run M A K} (h : Single run) (submission : Submission M) :
    (run.handle (.submit submission)).Sat (fun c es => (run.unanswered ++ queries es).Nodup ∧
      ∀ target, target ∈ run.unanswered ++ queries es ↔ c.Querying target) fun _ => True := by
  have hsame : ∀ c : Control (Nat × M) A, (∀ target, c.Querying target ↔ run.control.Querying target) →
      (run.unanswered ++ []).Nodup ∧ ∀ target, target ∈ run.unanswered ++ [] ↔ c.Querying target := by
    intro c hc
    rw [List.append_nil]
    exact ⟨h.nodup, fun target => (h.querying target).trans (hc target).symm⟩
  cases submission with
  | unicast peerId message =>
    refine onUnicast_sat (fun addr addrs _ => hsame _ fun target => Iff.rfl) (fun querying hquerying => hsame _ fun target => ?_)
      (fun querying _ hquerying => hsame _ fun target => ?_) fun timerId timer hmulticast hunicast _ => ?_
    · by_cases htarget : target = peerId <;> simp [Querying, htarget, hquerying]
    · by_cases htarget : target = peerId <;> simp [Querying, htarget, hquerying]
    · refine h.query (by simp [Querying, hmulticast, hunicast]) fun target => ?_
      by_cases htarget : target = peerId <;> simp [Querying, htarget]
  | multicast target count message =>
    refine onMulticast_sat (fun querying hquerying _ => hsame _ fun t => ?_) (fun _ => hsame _ fun t => Iff.rfl)
      fun timerId timer hmulticast hunicast => ?_
    · by_cases htarget : t = target <;> simp [Querying, htarget, hquerying]
    · refine h.query (by simp [Querying, hmulticast, hunicast]) fun t => ?_
      by_cases htarget : t = target <;> simp [Querying, htarget]

theorem Single.result {run : Run M A K} (h : Single run) {upcall : QueryResult K A}
    (hearly : ¬ run.control.ResolvesEarly upcall) :
    (run.control.onResult upcall).Sat (fun c es =>
      (run.remaining (.result upcall) ++ queries es).Nodup ∧
      ∀ target, target ∈ run.remaining (.result upcall) ++ queries es ↔ c.Querying target) fun _ => True := by
  rw [Run.remaining_result]
  by_cases hstatus : upcall.status = .progress
  · refine (onResult_progress hstatus).mono (fun c es ⟨hunicasts, hmulticasts, _, hqueries⟩ => ?_) fun _ _ => trivial
    rw [if_pos hstatus, hqueries, List.append_nil]
    refine ⟨h.nodup, fun target => (h.querying target).trans ?_⟩
    have hunicast : c.queryingUnicasts target = run.control.queryingUnicasts target := by
      rw [hunicasts]
      split
      · next hmem =>
        obtain ⟨record, hrecord, rfl⟩ := List.mem_map.mp hmem
        by_cases hsome : (run.control.queryingUnicasts record.id).isSome
        · exact absurd ⟨record, hrecord, hsome, Or.inl hstatus⟩ hearly
        · exact (Option.not_isSome_iff_eq_none.mp hsome).symm
      · rfl
    rw [Querying, Querying, hunicast, hmulticasts]
  · refine (onResult_ends hstatus).mono (fun c es hends => ?_) fun _ _ => trivial
    rw [if_neg hstatus]
    have hother : ∀ target, target ≠ upcall.target → (c.Querying target ↔ run.control.Querying target) := by
      intro target htarget
      obtain ⟨hunicast, hmulticast, _⟩ := hends.others target htarget
      have hsame : c.queryingUnicasts target = run.control.queryingUnicasts target := by
        rw [hunicast]
        split
        · next hmem =>
          obtain ⟨record, hrecord, rfl⟩ := List.mem_map.mp hmem
          by_cases hsome : (run.control.queryingUnicasts record.id).isSome
          · exact absurd ⟨record, hrecord, hsome, Or.inr htarget⟩ hearly
          · exact (Option.not_isSome_iff_eq_none.mp hsome).symm
        · rfl
      rw [Querying, Querying, hsame, hmulticast]
    -- The query that has ended, and the one for what was pending behind it.
    have hcases : (¬ c.Querying upcall.target ∧ queries es = []) ∨
        (c.Querying upcall.target ∧ queries es = [upcall.target]) := by
      by_cases hunreachable : run.control.Unreachable upcall
      · obtain ⟨hmulticast, _, hqueries⟩ := hends.unreachable hunreachable
        refine Or.inl ⟨?_, hqueries⟩
        simp [Querying, hends.unicast, hmulticast, h.exclusive _ hunreachable.1]
      · obtain ⟨_, ⟨hmulticast, hqueries⟩ | ⟨hmulticast, hqueries⟩⟩ := hends.reachable hunreachable
        · exact Or.inl ⟨by simp [Querying, hends.unicast, hmulticast], hqueries⟩
        · exact Or.inr ⟨Or.inr hmulticast, hqueries⟩
    have herase : ∀ target, target ∈ run.unanswered.erase upcall.target ↔
        target ≠ upcall.target ∧ run.control.Querying target := fun target => by
      rw [h.nodup.mem_erase_iff, h.querying]
    rcases hcases with ⟨hnot, hqueries⟩ | ⟨hagain, hqueries⟩
    · rw [hqueries, List.append_nil]
      refine ⟨h.nodup.erase _, fun target => ?_⟩
      by_cases htarget : target = upcall.target
      · subst htarget
        simp [herase, hnot]
      · simp [herase, htarget, hother target htarget]
    · rw [hqueries]
      refine ⟨List.nodup_append.mpr ⟨h.nodup.erase _, List.nodup_singleton _, fun a ha b hb hab => ?_⟩, fun target => ?_⟩
      · rw [hab, List.mem_singleton.mp hb] at ha
        exact ((herase _).mp ha).1 rfl
      · by_cases htarget : target = upcall.target
        · subst htarget
          simp [hagain]
        · simp [herase, htarget, hother target htarget]

/-- Two queries to one target never run at once, as long as no unicast is
resolved early. -/
theorem queries_nodup {run : Run M A K} (h : (machine M A K).Reach NeverEarly run) : run.unanswered.Nodup := by
  have hsingle : Single run := by
    refine reach_induct ⟨fun _ hsome => by simp at hsome, List.nodup_nil, fun target => by simp [Querying]⟩ ?_ h
    intro run input hrun hearly _
    have hexclusive := exclusive_step hrun.exclusive input
    rcases input with submission | upcall | query
    · refine (hexclusive.and (hrun.submit submission)).mono (fun c es ⟨hc, hnodup, hquerying⟩ => ?_) fun _ _ => trivial
      exact ⟨hc, hnodup, hquerying⟩
    · refine (hexclusive.and (hrun.result (hearly upcall rfl))).mono (fun c es ⟨hc, hnodup, hquerying⟩ => ?_)
        fun _ _ => trivial
      exact ⟨hc, hnodup, hquerying⟩
    · trivial
  exact hsingle.nodup

end

instance {M A K : Type} (run : Run M A K) : (input : Input M A K) → Decidable (NeverEarly run input)
  | .result upcall =>
    decidable_of_iff (∀ record ∈ upcall.closest, ¬ ((run.control.queryingUnicasts record.id).isSome ∧
        (upcall.status = .progress ∨ record.id ≠ upcall.target))) <| by
      simp [NeverEarly, ResolvesEarly]
  | .submit _ | .timeout _ => .isTrue fun _ h => nomatch h

/-- A unicast whose query reports progress before it ends. -/
theorem queries_nodup_unicast : ∃ run, (machine Unit UInt8 Unit).Reach NeverEarly run ∧
    run.history.length = 4 ∧ run.unanswered.Nodup := by
  obtain ⟨run, hreach, hlength⟩ := reach_of_exec NeverEarly
    [.submit (.unicast (peerOf 1) ()), .result ⟨.progress, peerOf 1, [recordOf 2]⟩,
      .submit (.multicast (peerOf 3) 2 ())] (fun run => run.history.length = 4) (by decide)
  exact ⟨run, hreach, hlength, queries_nodup hreach⟩

/-- A unicast to a peer is resolved by a result that reports progress, and a
multicast to the same id starts another query. -/
theorem queries_overlap : ∃ run, (machine Unit UInt8 Unit).Reach Machine.always run ∧ ¬ run.unanswered.Nodup :=
  reach_of_exec Machine.always [.submit (.unicast (peerOf 1) ()), .result ⟨.progress, peerOf 1, [recordOf 1]⟩,
    .submit (.multicast (peerOf 1) 2 ())] (fun run => ¬ run.unanswered.Nodup) (by decide)

section
variable {M A K : Type}

/-! ## Nothing is held without a query -/

structure Kept (run : Run M A K) : Prop where
  exclusive : run.control.Exclusive
  querying : ∀ target, run.control.Querying target → target ∈ run.unanswered
  pending : ∀ target, (run.control.pendingMulticasts target).isSome → target ∈ run.unanswered

/-- No result of this step leaves multicasts behind an unreachable unicast. -/
def NeverStrands (run : Run M A K) (input : Input M A K) : Prop :=
  ∀ upcall, input = .result upcall → ¬ run.control.Strands upcall

/-- The tables have changed at one target, to which a query runs. -/
theorem Kept.update {run : Run M A K} (h : Kept run) {target : Target} {c : Control (Nat × M) A} {targets : List Target}
    (htarget : target ∈ run.unanswered ++ targets)
    (hc : ∀ t, t ≠ target → c.queryingUnicasts t = run.control.queryingUnicasts t ∧
      c.queryingMulticasts t = run.control.queryingMulticasts t ∧
      c.pendingMulticasts t = run.control.pendingMulticasts t) :
    (∀ t, c.Querying t → t ∈ run.unanswered ++ targets) ∧
      ∀ t, (c.pendingMulticasts t).isSome → t ∈ run.unanswered ++ targets := by
  refine ⟨fun t hquerying => ?_, fun t hpending => ?_⟩
  · by_cases ht : t = target
    · rw [ht]
      exact htarget
    · obtain ⟨hunicast, hmulticast, _⟩ := hc t ht
      rw [Querying, hunicast, hmulticast] at hquerying
      exact List.mem_append_left _ (h.querying t hquerying)
  · by_cases ht : t = target
    · rw [ht]
      exact htarget
    · rw [(hc t ht).2.2] at hpending
      exact List.mem_append_left _ (h.pending t hpending)

theorem Kept.submit {run : Run M A K} (h : Kept run) (submission : Submission M) :
    (run.handle (.submit submission)).Sat (fun c es =>
      (∀ target, c.Querying target → target ∈ run.unanswered ++ queries es) ∧
      ∀ target, (c.pendingMulticasts target).isSome → target ∈ run.unanswered ++ queries es) fun _ => True := by
  cases submission with
  | unicast peerId message =>
    refine onUnicast_sat (fun addr addrs _ => ?_) (fun querying hquerying => ?_) (fun querying _ hquerying => ?_)
      fun timerId timer _ _ _ => ?_
    · exact ⟨fun t ht => List.mem_append_left _ (h.querying t ht), fun t ht => List.mem_append_left _ (h.pending t ht)⟩
    · refine h.update (List.mem_append_left _ (h.querying peerId (Or.inr ?_))) fun t ht => by simp [ht]
      rw [hquerying]
      rfl
    · refine h.update (List.mem_append_left _ (h.querying peerId (Or.inl ?_))) fun t ht => by simp [ht]
      rw [hquerying]
      rfl
    · exact h.update (List.mem_append_right _ (List.mem_singleton_self peerId)) fun t ht => by simp [ht]
  | multicast target count message =>
    refine onMulticast_sat (fun querying hquerying _ => ?_) (fun hquerying => ?_) fun timerId timer _ _ => ?_
    · refine h.update (List.mem_append_left _ (h.querying target (Or.inr ?_))) fun t ht => by simp [ht]
      rw [hquerying]
      rfl
    · exact h.update (List.mem_append_left _ (h.querying target hquerying)) fun t ht => by simp [pushPending, ht]
    · exact h.update (List.mem_append_right _ (List.mem_singleton_self target)) fun t ht => by simp [ht]

theorem Kept.result {run : Run M A K} (h : Kept run) {upcall : QueryResult K A}
    (hstrands : ¬ run.control.Strands upcall) :
    (run.control.onResult upcall).Sat (fun c es =>
      (∀ target, c.Querying target → target ∈ run.remaining (.result upcall) ++ queries es) ∧
      ∀ target, (c.pendingMulticasts target).isSome → target ∈ run.remaining (.result upcall) ++ queries es)
      fun _ => True := by
  rw [Run.remaining_result]
  have hfewer : ∀ target, (if target ∈ upcall.closest.map (·.id) then none
      else run.control.queryingUnicasts target).isSome → (run.control.queryingUnicasts target).isSome := by
    intro target hsome
    split at hsome
    · cases hsome
    · exact hsome
  by_cases hstatus : upcall.status = .progress
  · refine (onResult_progress hstatus).mono (fun c es ⟨hunicasts, hmulticasts, hpending, _⟩ => ?_) fun _ _ => trivial
    rw [if_pos hstatus, hpending]
    refine ⟨fun target hquerying => List.mem_append_left _ (h.querying target ?_),
      fun target hsome => List.mem_append_left _ (h.pending target hsome)⟩
    rw [Querying, hunicasts, hmulticasts] at hquerying
    exact hquerying.imp_left (hfewer target)
  · refine (onResult_ends hstatus).mono (fun c es hends => ?_) fun _ _ => trivial
    rw [if_neg hstatus]
    -- At the target of the result nothing is left, or there is a new query.
    have htarget : c.Querying upcall.target ∨ (c.pendingMulticasts upcall.target).isSome →
        upcall.target ∈ queries es := by
      intro hheld
      by_cases hunreachable : run.control.Unreachable upcall
      · obtain ⟨hmulticast, hpending, _⟩ := hends.unreachable hunreachable
        have hnone : run.control.pendingMulticasts upcall.target = none :=
          Option.not_isSome_iff_eq_none.mp fun hsome => hstrands ⟨hstatus, hunreachable, hsome⟩
        simp [Querying, hends.unicast, hmulticast, h.exclusive _ hunreachable.1, hpending, hnone] at hheld
      · obtain ⟨hpending, ⟨hmulticast, _⟩ | ⟨_, hqueries⟩⟩ := hends.reachable hunreachable
        · simp [Querying, hends.unicast, hmulticast, hpending] at hheld
        · rw [hqueries]
          exact List.mem_singleton_self _
    have hother : ∀ target, target ≠ upcall.target → target ∈ run.unanswered →
        target ∈ run.unanswered.erase upcall.target ++ queries es := fun target hne hmem =>
      List.mem_append_left _ ((List.mem_erase_of_ne hne).mpr hmem)
    refine ⟨fun target hquerying => ?_, fun target hsome => ?_⟩
    · by_cases hne : target = upcall.target
      · subst hne
        exact List.mem_append_right _ (htarget (Or.inl hquerying))
      · obtain ⟨hunicast, hmulticast, _⟩ := hends.others target hne
        rw [Querying, hunicast, hmulticast] at hquerying
        exact hother target hne (h.querying target (hquerying.imp_left (hfewer target)))
    · by_cases hne : target = upcall.target
      · subst hne
        exact List.mem_append_right _ (htarget (Or.inr hsome))
      · rw [(hends.others target hne).2.2] at hsome
        exact hother target hne (h.pending target hsome)

/-- What is held for a target waits for a query, as long as no unreachable
unicast leaves multicasts behind. -/
theorem held_unanswered {run : Run M A K} (h : (machine M A K).Reach NeverStrands run) :
    (∀ target, run.control.held target ≠ [] → target ∈ run.unanswered) ∧
      (run.unanswered = [] → ∀ target, run.control.held target = []) := by
  have hkept : Kept run := by
    refine reach_induct ⟨fun _ hsome => by simp at hsome, fun target hquerying => by simp [Querying] at hquerying,
      fun target hsome => by simp at hsome⟩ ?_ h
    intro run input hrun hstrands _
    have hexclusive := exclusive_step hrun.exclusive input
    rcases input with submission | upcall | query
    · refine (hexclusive.and (hrun.submit submission)).mono (fun c es ⟨hc, hquerying, hpending⟩ => ?_) fun _ _ => trivial
      exact ⟨hc, hquerying, hpending⟩
    · refine (hexclusive.and (hrun.result (hstrands upcall rfl))).mono (fun c es ⟨hc, hquerying, hpending⟩ => ?_)
        fun _ _ => trivial
      exact ⟨hc, hquerying, hpending⟩
    · trivial
  have hheld : ∀ target, run.control.held target ≠ [] → target ∈ run.unanswered := by
    intro target hne
    by_cases hquerying : run.control.Querying target
    · exact hkept.querying target hquerying
    · rw [Querying, not_or, Option.not_isSome_iff_eq_none, Option.not_isSome_iff_eq_none] at hquerying
      refine hkept.pending target (Option.ne_none_iff_isSome.mp fun hnone => hne ?_)
      simp [held, hquerying.1, hquerying.2, hnone]
  refine ⟨hheld, fun hnil target => ?_⟩
  by_contra hne
  have := hheld target hne
  rw [hnil] at this
  cases this

end

instance {M A K : Type} (run : Run M A K) : (input : Input M A K) → Decidable (NeverStrands run input)
  | .result upcall =>
    decidable_of_iff (¬ (upcall.status ≠ .progress ∧ ((run.control.queryingUnicasts upcall.target).isSome ∧
        upcall.target ∉ upcall.closest.map (·.id)) ∧ (run.control.pendingMulticasts upcall.target).isSome)) <| by
      simp [NeverStrands, Strands, Unreachable]
  | .submit _ | .timeout _ => .isTrue fun _ h => nomatch h

/-- A multicast that is pending behind a unicast, whose query has ended. -/
theorem held_unanswered_pending : ∃ run, (machine Unit UInt8 Unit).Reach NeverStrands run ∧
    run.control.held (peerOf 1) ≠ [] ∧
    ((∀ target, run.control.held target ≠ [] → target ∈ run.unanswered) ∧
      (run.unanswered = [] → ∀ target, run.control.held target = [])) := by
  obtain ⟨run, hreach, hheld⟩ := reach_of_exec NeverStrands
    [.submit (.unicast (peerOf 1) ()), .submit (.multicast (peerOf 1) 2 ()),
      .result ⟨.converge, peerOf 1, [recordOf 1]⟩] (fun run => run.control.held (peerOf 1) ≠ []) (by decide)
  exact ⟨run, hreach, hheld, held_unanswered hreach⟩

/-- A multicast that is pending behind a unicast to a peer that is not found. -/
theorem held_stranded : ∃ run, (machine Unit UInt8 Unit).Reach Machine.always run ∧
    run.control.held (peerOf 1) ≠ [] ∧ run.unanswered = [] :=
  reach_of_exec Machine.always [.submit (.unicast (peerOf 1) ()), .submit (.multicast (peerOf 1) 2 ()),
    .result ⟨.halted, peerOf 1, [recordOf 2]⟩] (fun run => run.control.held (peerOf 1) ≠ [] ∧ run.unanswered = [])
    (by decide)

end Neatworks.Control
