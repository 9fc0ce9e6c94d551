import Neatworks.ControlQueries
import Neatworks.Timers

/-!
# The tables and the timers of the control

A target is in at most one of the tables of queries, a unicast never waits for
an address that is cached, and the live timers are those of the entries. This
holds whatever results come, and whether or not a query to their target runs,
and so the handler of a result never fails.
-/

namespace Neatworks.Control

open Outcome TimerCall
open Kademlia (PeerId Target PeerRecord Query QueryStatus QueryResult)

section
variable {M A K : Type}

/-! ## The timers of the entries -/

def Effect.timerCall : Effect M A → Option (TimerCall TimerId Query)
  | .setTimer timerId timeout => some (.set timerId timeout)
  | .unsetTimer timerId => some (.unset timerId)
  | _ => none

def timerCalls (es : List (Effect M A)) : List (TimerCall TimerId Query) := es.filterMap Effect.timerCall

@[simp] theorem timerCalls_append (es es' : List (Effect M A)) : timerCalls (es ++ es') = timerCalls es ++ timerCalls es' :=
  List.filterMap_append ..

/-- The timer of the entry of a target, in either table. -/
def timerOf (self : Control M A) (target : Target) : Option TimerId :=
  ((self.queryingUnicasts target).map (·.timer)).or ((self.queryingMulticasts target).map (·.timer))

variable {c : Control M A} {history : List (Effect M A)}

theorem timerOf_setUnicast {target : Target} (querying : Option (QueryingUnicast M)) (h : c.queryingMulticasts target = none) :
    (c.setUnicast target querying).timerOf = Function.update c.timerOf target (querying.map (·.timer)) := by
  funext t
  by_cases ht : t = target
  · subst ht
    simp [timerOf, h]
  · simp [timerOf, ht]

theorem timerOf_setMulticast {target : Target} (querying : Option (QueryMulticast M)) (h : c.queryingUnicasts target = none) :
    (c.setMulticast target querying).timerOf = Function.update c.timerOf target (querying.map (·.timer)) := by
  funext t
  by_cases ht : t = target
  · subst ht
    simp [timerOf, h]
  · simp [timerOf, ht]

theorem contains_push {K V : Type} {cap : Nat} [DecidableEq K] {cache : LruCache K V cap} {k k' : K} {v : V}
    (h : (cache.push k v).contains k') : k' = k ∨ cache.contains k' := by
  obtain ⟨e, he, rfl⟩ := List.mem_map.mp h
  rcases LruCache.mem_push he with rfl | he
  · exact Or.inl rfl
  · exact Or.inr (List.mem_map.mpr ⟨e, he, rfl⟩)

theorem contains_pushAddrs {closest : List (PeerRecord K A)} {peerId : PeerId}
    (h : (c.pushAddrs closest).addrs.contains peerId) : peerId ∈ closest.map (·.id) ∨ c.addrs.contains peerId := by
  induction closest generalizing c with
  | nil => exact Or.inr h
  | cons record closest ih =>
    rcases ih h with hmem | hmem
    · exact Or.inl (List.mem_cons_of_mem _ hmem)
    · rcases contains_push hmem with rfl | hmem
      · exact Or.inl List.mem_cons_self
      · exact Or.inr hmem

/-! ## The invariant -/

structure Bookkeeping (c : Control M A) (history : List (Effect M A)) : Prop where
  exclusive : c.Exclusive
  uncached : ∀ peerId, (c.queryingUnicasts peerId).isSome → ¬ c.addrs.contains peerId
  counts : ∀ target querying, c.queryingMulticasts target = some querying → ∀ e ∈ querying.messages, e.1 ≤ querying.count
  timers : Follows Query.target (timerCalls history) c.timerOf
  pending : ∀ target, c.pendingMulticasts target ≠ some []

theorem Exclusive.unicast (h : c.Exclusive) {target : Target} {querying : QueryMulticast M}
    (hquerying : c.queryingMulticasts target = some querying) : c.queryingUnicasts target = none := by
  by_contra hsome
  rw [h target (Option.isSome_iff_ne_none.mpr hsome)] at hquerying
  cases hquerying

namespace Bookkeeping

theorem new : Bookkeeping ({} : Control M A) [] := by
  refine ⟨by simp [Exclusive], by simp, by simp, ?_, by simp⟩
  exact Follows.nil

theorem setUnicast (h : Bookkeeping c history) {peerId : PeerId} (querying : QueryingUnicast M) {es : List (Effect M A)}
    (hmulticast : c.queryingMulticasts peerId = none) (huncached : ¬ c.addrs.contains peerId) {timer : SessionTimer}
    (htimers : Follows Query.target (timerCalls (history ++ es)) (Function.update c.timerOf peerId (some querying.timer))) :
    Bookkeeping ({ c with timer := timer }.setUnicast peerId (some querying)) (history ++ es) := by
  constructor
  case exclusive =>
    intro target hsome
    by_cases htarget : target = peerId
    · subst htarget
      exact hmulticast
    · exact h.exclusive target (by simpa [htarget] using hsome)
  case uncached =>
    intro id hsome
    by_cases hid : id = peerId
    · subst hid
      exact huncached
    · exact h.uncached id (by simpa [hid] using hsome)
  case counts => exact h.counts
  case timers =>
    rw [timerOf_setUnicast]
    · exact htimers
    · exact hmulticast
  case pending => exact h.pending

theorem setMulticast (h : Bookkeeping c history) {target : Target} (querying : QueryMulticast M) {es : List (Effect M A)}
    (hunicast : c.queryingUnicasts target = none) (hcounts : ∀ e ∈ querying.messages, e.1 ≤ querying.count)
    {timer : SessionTimer}
    (htimers : Follows Query.target (timerCalls (history ++ es)) (Function.update c.timerOf target (some querying.timer))) :
    Bookkeeping ({ c with timer := timer }.setMulticast target (some querying)) (history ++ es) := by
  constructor
  case exclusive =>
    intro t hsome
    by_cases ht : t = target
    · subst ht
      simp [hunicast] at hsome
    · simpa [ht] using h.exclusive t hsome
  case uncached => exact h.uncached
  case counts => exact forall_update_some h.counts hcounts
  case timers =>
    rw [timerOf_setMulticast]
    · exact htimers
    · exact hunicast
  case pending => exact h.pending

theorem calls (h : Bookkeeping c history) {es : List (Effect M A)} (hes : timerCalls es = []) :
    Bookkeeping c (history ++ es) := by
  refine ⟨h.exclusive, h.uncached, h.counts, ?_, h.pending⟩
  rw [timerCalls_append, hes, List.append_nil]
  exact h.timers

theorem set (h : Bookkeeping c history) {target : Target} {count : ℕ+} {timerId : TimerId}
    (hunicast : c.queryingUnicasts target = none) (hmulticast : c.queryingMulticasts target = none) :
    Follows Query.target (timerCalls (history ++ [.query ⟨target, count⟩, .setTimer timerId ⟨target, count⟩]))
      (Function.update c.timerOf target (some timerId)) := by
  have hnone : c.timerOf (Query.target ⟨target, count⟩) = none := by simp [timerOf, hunicast, hmulticast]
  rw [timerCalls_append]
  exact h.timers.set hnone

theorem keep (h : Bookkeeping c history) {target : Target} {timerId : TimerId} (htimer : c.timerOf target = some timerId) :
    Follows Query.target (timerCalls (history ++ [])) (Function.update c.timerOf target (some timerId)) := by
  rw [← htimer, Function.update_eq_self, List.append_nil]
  exact h.timers

/-! ## The handlers -/

theorem pushPending (h : Bookkeeping c history) (target : Target) (count : ℕ+) (message : M) :
    Bookkeeping (c.pushPending target count message) history := by
  refine ⟨h.exclusive, h.uncached, h.counts, h.timers, fun t => ?_⟩
  by_cases ht : t = target
  · subst ht
    simp [Control.pushPending]
  · simpa [Control.pushPending, ht] using h.pending t

theorem onUnicast (h : Bookkeeping c history) (peerId : PeerId) (message : M) :
    (c.onUnicast peerId message).Sat (fun c' es => Bookkeeping c' (history ++ es)) fun _ => True := by
  refine onUnicast_sat (fun addr addrs hget => ?_) (fun querying hquerying => ?_) (fun querying hmulticast hquerying => ?_)
    fun timerId timer hmulticast hunicast hget => ?_
  · obtain ⟨hmem, rfl⟩ := LruCache.get_eq_some hget
    have hpushed : Bookkeeping { c with addrs := c.addrs.push peerId addr } history := by
      refine ⟨h.exclusive, fun id hsome hcontains => ?_, h.counts, h.timers, h.pending⟩
      rcases contains_push hcontains with rfl | hcontains
      · exact h.uncached _ hsome (List.mem_map.mpr ⟨_, hmem, rfl⟩)
      · exact h.uncached id hsome hcontains
    exact hpushed.calls rfl
  · have hunicast := h.exclusive.unicast hquerying
    refine h.setMulticast _ hunicast (fun e he => ?_) (h.keep (by simp [timerOf, hunicast, hquerying]))
    rcases List.mem_append.mp he with he | he
    · exact h.counts _ _ hquerying e he
    · rw [List.mem_singleton.mp he]
      exact one_le
  · have hsome : (c.queryingUnicasts peerId).isSome := by rw [hquerying]; rfl
    exact h.setUnicast _ hmulticast (h.uncached _ hsome) (h.keep (by simp [timerOf, hquerying]))
  · refine h.setUnicast _ hmulticast (fun hcontains => ?_) (h.set hunicast hmulticast)
    obtain ⟨e, he, rfl⟩ := List.mem_map.mp hcontains
    simp [LruCache.get] at hget
    exact hget _ _ he rfl

theorem onMulticast (h : Bookkeeping c history) (target : Target) (count : ℕ+) (message : M) :
    (c.onMulticast target count message).Sat (fun c' es => Bookkeeping c' (history ++ es)) fun _ => True := by
  refine onMulticast_sat (fun querying hquerying hle => ?_) (fun _ => ?_) fun timerId timer hmulticast hunicast => ?_
  · have hunicast := h.exclusive.unicast hquerying
    refine h.setMulticast _ hunicast (fun e he => ?_) (h.keep (by simp [timerOf, hunicast, hquerying]))
    rcases List.mem_append.mp he with he | he
    · exact h.counts _ _ hquerying e he
    · rw [List.mem_singleton.mp he]
      exact hle
  · exact (h.pushPending target count message).calls rfl
  · exact h.setMulticast _ hunicast (by simp) (h.set hunicast hmulticast)

theorem leave (h : Bookkeeping c history) {peerId : PeerId} {querying : QueryingUnicast M}
    (hquerying : c.queryingUnicasts peerId = some querying) :
    Bookkeeping (c.setUnicast peerId none) (history ++ [.unsetTimer querying.timer]) := by
  have hmulticast : c.queryingMulticasts peerId = none := h.exclusive peerId (by rw [hquerying]; rfl)
  have hold {id : PeerId} (hsome : ((c.setUnicast peerId none).queryingUnicasts id).isSome) :
      (c.queryingUnicasts id).isSome := by
    by_cases hid : id = peerId
    · simp [hid] at hsome
    · simpa [hid] using hsome
  refine ⟨fun target hsome => h.exclusive target (hold hsome), fun id hsome => h.uncached id (hold hsome), h.counts, ?_, h.pending⟩
  rw [timerOf_setUnicast _ hmulticast, timerCalls_append]
  exact h.timers.unset (by simp [timerOf, hquerying])

/-- A unicast that is resolved by a record has left its table before the address is cached. -/
theorem resolved (h : Bookkeeping c history) {record : PeerRecord K A} {querying : QueryingUnicast M}
    (hquerying : c.queryingUnicasts record.id = some querying) :
    Bookkeeping (c.resolved record) (history ++ resolveCalls querying record) := by
  have hleave := h.leave hquerying
  have hcached : Bookkeeping (c.resolved record) (history ++ [.unsetTimer querying.timer]) := by
    refine ⟨hleave.exclusive, fun id hsome hcontains => ?_, hleave.counts, hleave.timers, hleave.pending⟩
    rcases contains_push hcontains with rfl | hcontains
    · simp [Control.resolved] at hsome
    · exact hleave.uncached id hsome hcontains
  have hsends : timerCalls (querying.messages.map (Effect.send record.addr)) = [] := by
    simp [timerCalls, List.filterMap_map, Effect.timerCall]
  simpa [resolveCalls] using hcached.calls hsends

theorem finishMulticast (h : Bookkeeping c history) {target : Target} {closest : List (PeerRecord K A)}
    (hresolved : ∀ id ∈ closest.map (·.id), c.queryingUnicasts id = none) :
    (c.finishMulticast target closest).Sat (fun c' es => Bookkeeping c' (history ++ es) ∧
      c'.queryingUnicasts = c.queryingUnicasts ∧ c'.queryingMulticasts target = none) fun _ => False := by
  refine finishMulticast_sat (fun hnone => ⟨h.calls rfl, rfl, hnone⟩) fun querying hquerying => ?_
  have hunicast := h.exclusive.unicast hquerying
  obtain ⟨hunicasts, hmulticasts, hpending⟩ := pushAddrs_tables (c.setMulticast target none) closest
  have htimerOf : ((c.setMulticast target none).pushAddrs closest).timerOf = (c.setMulticast target none).timerOf := by
    funext t
    simp only [timerOf, hunicasts, hmulticasts]
  have hfinished : Bookkeeping ((c.setMulticast target none).pushAddrs closest) (history ++ [.unsetTimer querying.timer]) := by
    constructor
    case exclusive =>
      intro t hsome
      rw [hunicasts] at hsome
      rw [hmulticasts]
      by_cases ht : t = target
      · simp [ht]
      · simpa [ht] using h.exclusive t hsome
    case uncached =>
      intro id hsome hcontains
      rw [hunicasts] at hsome
      rcases contains_pushAddrs hcontains with hmem | hcontains
      · have hnone : (c.setMulticast target none).queryingUnicasts id = none := hresolved id hmem
        rw [hnone] at hsome
        cases hsome
      · exact h.uncached id hsome hcontains
    case counts =>
      rw [hmulticasts]
      exact forall_update_none h.counts
    case timers =>
      rw [htimerOf, timerOf_setMulticast _ hunicast, timerCalls_append]
      exact h.timers.unset (by simp [timerOf, hunicast, hquerying])
    case pending =>
      rw [hpending]
      exact h.pending
  have hsends : timerCalls (querying.messages.map fun e =>
      (.sendToEach ((closest.take e.1).map (·.addr)) e.2 : Effect M A)) = [] := by
    simp [timerCalls, List.filterMap_map, Effect.timerCall]
  refine ⟨by simpa using hfinished.calls hsends, hunicasts, ?_⟩
  rw [hmulticasts]
  simp

theorem startPending (h : Bookkeeping c history) {target : Target} (hunicast : c.queryingUnicasts target = none)
    (hmulticast : c.queryingMulticasts target = none) :
    (c.startPending target).Sat (fun c' es => Bookkeeping c' (history ++ es)) fun _ => False := by
  refine startPending_sat (fun _ => h.calls rfl) (fun multicasts count timerId timer _ _ _ hmax => ?_) fun hfail => ?_
  · have htaken : Bookkeeping (c.setPending target none) history := by
      refine ⟨h.exclusive, h.uncached, h.counts, h.timers, fun t => ?_⟩
      by_cases ht : t = target
      · simp [ht]
      · simpa [ht] using h.pending t
    refine htaken.setMulticast _ hunicast (fun e he => ?_) (htaken.set hunicast hmulticast)
    exact (List.max?_le_iff hmax).mp le_rfl _ (List.mem_map.mpr ⟨e, he, rfl⟩)
  · rcases hfail with hne | hne | hnil
    · exact hne hunicast
    · exact hne hmulticast
    · exact h.pending target hnil

/-- The handler of a result never fails: what it asserts is what the loops over
the closest records have left. -/
theorem onResult (h : Bookkeeping c history) (upcall : QueryResult K A) :
    (c.onResult upcall).Sat (fun c' es => Bookkeeping c' (history ++ es)) fun _ => False := by
  have hstart : Bookkeeping c (history ++ []) := by rwa [List.append_nil]
  have hone : ∀ record ∈ upcall.closest, ∀ c es querying, Bookkeeping c (history ++ es) →
      c.queryingUnicasts record.id = some querying →
      Bookkeeping (c.resolved record) (history ++ (es ++ resolveCalls querying record)) :=
    fun record _ c es querying hc hquerying => by simpa using hc.resolved hquerying
  have hresolve := resolve_sat (I := fun c es => Bookkeeping c (history ++ es)) hstart hone
  unfold Control.onResult
  rw [sat_bind]
  refine (hresolve.and (resolve_tables upcall.closest)).mono (fun c' es hc => ?_) fun _ hes => hes.1
  obtain ⟨hc, hunicasts, _⟩ := hc
  have hresolved : ∀ id ∈ upcall.closest.map (·.id), c'.queryingUnicasts id = none := by
    intro id hid
    rw [hunicasts, if_pos hid]
  simp only [List.nil_append] at hc
  rw [sat_ite]
  refine ⟨fun _ => by simpa using hc, fun _ => ?_⟩
  split
  · next querying hquerying =>
    have hsome : (c'.queryingUnicasts upcall.target).isSome := by rw [hquerying]; rfl
    have huncached : ¬ c'.addrs.contains upcall.target := hc.uncached _ hsome
    simp only [unsetTimer, sat_bind, sat_emit, sat_assert, sat_pure, setUnicast_addrs, huncached]
    simpa using hc.leave hquerying
  · next hunicast =>
    rw [sat_bind]
    refine (hc.finishMulticast hresolved).mono (fun c'' es' hfinished => ?_) fun _ h => h
    obtain ⟨hfinished, hsame, hmulticast⟩ := hfinished
    refine (hfinished.startPending (by rw [hsame]; exact hunicast) hmulticast).mono (fun c₃ es'' hc₃ => ?_) fun _ h => h
    simpa using hc₃

end Bookkeeping

/-! ## Runs -/

/-- Results come at any time, whether or not a query to their target runs. -/
def openMachine (M A K : Type) : Machine (Run M A K) (Input M A K) where
  init run := run = {}
  next run input run' := ∃ control es, run.handle input = .ok control es ∧ run' = run.after input control es

theorem bookkeeping_step {run : Run M A K} (h : Bookkeeping run.control run.history) (input : Input M A K) :
    (run.handle input).Sat (fun control es => Bookkeeping control (run.history ++ es)) fun _ => True := by
  rcases input with submission | upcall | query
  · cases submission with
    | unicast peerId message => exact h.onUnicast peerId _
    | multicast target count message => exact h.onMulticast target count _
  · exact (h.onResult upcall).mono (fun _ _ hc => hc) fun _ _ => trivial
  · trivial

theorem bookkeeping_reach {run : Run M A K} (h : (openMachine M A K).Reach Machine.always run) :
    Bookkeeping run.control run.history := by
  refine h.invariant (I := fun run => Bookkeeping run.control run.history) ?_ fun run input run' _ hrun _ hnext => ?_
  · rintro _ rfl
    exact .new
  · obtain ⟨control, es, hhandle, rfl⟩ := hnext
    have hstep := bookkeeping_step hrun input
    rw [hhandle] at hstep
    exact hstep

/-- In every run whose handlers return, the tables of queries are disjoint, no
unicast waits for an address that is cached, the messages of a multicast fit its
query, the live timers are those of the entries, and the handler of a result
meets no assertion that fails. A `set` that returns has handed out a new id: the
buffered timer fails on one that it has. -/
theorem control_bookkeeping {run : Run M A K} (h : (openMachine M A K).Reach Machine.always run)
    (hset : (handedOut (timerCalls run.history)).Nodup) :
    (∀ target, run.control.queryingUnicasts target = none ∨ run.control.queryingMulticasts target = none) ∧
    (∀ peerId, run.control.queryingUnicasts peerId ≠ none → ¬ run.control.addrs.contains peerId) ∧
    (∀ target querying, run.control.queryingMulticasts target = some querying →
      ∀ e ∈ querying.messages, e.1 ≤ querying.count) ∧
    Mirrors Query.target (live (timerCalls run.history)) run.control.timerOf ∧
    ∀ upcall : QueryResult K A, ∃ control es, run.control.onResult upcall = .ok control es := by
  have hrun := bookkeeping_reach h
  refine ⟨fun target => ?_, fun peerId hsome => ?_, hrun.counts, hrun.timers hset, fun upcall => ?_⟩
  · by_cases hnone : run.control.queryingUnicasts target = none
    · exact Or.inl hnone
    · exact Or.inr (hrun.exclusive target (Option.isSome_iff_ne_none.mpr hnone))
  · exact hrun.uncached peerId (Option.isSome_iff_ne_none.mpr hsome)
  · have hresult := hrun.onResult upcall
    cases heq : run.control.onResult upcall with
    | ok control es => exact ⟨control, es, rfl⟩
    | fail reason es =>
      rw [heq] at hresult
      exact hresult.elim

def Run.step (run : Run M A K) (input : Input M A K) : Option (Run M A K) :=
  match run.handle input with
  | .ok control es => some (run.after input control es)
  | .fail _ _ => none

theorem Run.step_next {run run' : Run M A K} {input : Input M A K} (h : run.step input = some run') :
    (openMachine M A K).next run input run' := by
  unfold step at h
  cases hhandle : run.handle input with
  | ok control es =>
    rw [hhandle] at h
    cases h
    exact ⟨control, es, hhandle, rfl⟩
  | fail reason es =>
    rw [hhandle] at h
    cases h

/-- A unicast and two multicasts are queried, and the end of the first query
resolves the unicast. -/
theorem control_bookkeeping_three : ∃ run : Run Unit UInt8 Unit, (openMachine Unit UInt8 Unit).Reach Machine.always run ∧
    run.control.timerOf (peerOf 3) = some ⟨3⟩ ∧
    Mirrors Query.target (live (timerCalls run.history)) run.control.timerOf := by
  obtain ⟨run, hrun, hset, htimer⟩ := Machine.exists_reach (C := Machine.always) (fun _ _ _ => Run.step_next) rfl
    [.submit (.unicast (peerOf 1) ()), .submit (.multicast (peerOf 2) 1 ()), .submit (.multicast (peerOf 3) 2 ()),
      .result ⟨.converge, peerOf 2, [recordOf 1]⟩]
    (fun run : Run Unit UInt8 Unit =>
      (handedOut (timerCalls run.history)).Nodup ∧ run.control.timerOf (peerOf 3) = some ⟨3⟩) (by decide)
  obtain ⟨_, _, _, hmirrors, _⟩ := control_bookkeeping hrun hset
  exact ⟨run, hrun, htimer, hmirrors⟩

end

end Neatworks.Control
