import Neatworks.Control
import Neatworks.Table

/-!
# Runs of the control

Messages are numbered in the order in which they are submitted, so that two of
them can be told apart; `Control` does not look at a message. The peer answers
a query with any number of results that report progress and one that ends it.
-/

namespace Neatworks.Control

open Outcome
open Kademlia (PeerId Target PeerRecord Query QueryStatus QueryResult)

inductive Submission (M : Type)
  | unicast (peerId : PeerId) (message : M)
  | multicast (target : Target) (count : ℕ+) (message : M)
  deriving DecidableEq

inductive Input (M A K : Type)
  | submit (submission : Submission M)
  | result (upcall : QueryResult K A)
  | timeout (query : Query)

structure Run (M A K : Type) where
  control : Control (Nat × M) A := {}
  submissions : List (Submission M) := []
  /-- The targets of the queries that have not ended, each query once. -/
  unanswered : List Target := []
  results : List (QueryResult K A) := []
  history : List (Effect (Nat × M) A) := []

section
variable {M A K : Type}

def queries (es : List (Effect M A)) : List Target :=
  es.filterMap fun
    | .query query => some query.target
    | _ => none

namespace Run

def handle (run : Run M A K) : Input M A K → Handler (Nat × M) A (Control (Nat × M) A)
  | .submit (.unicast peerId message) => run.control.onUnicast peerId (run.submissions.length, message)
  | .submit (.multicast target count message) =>
    run.control.onMulticast target count (run.submissions.length, message)
  | .result upcall => run.control.onResult upcall
  | .timeout query => onTimeout query

/-- The queries that are left when the input has come. -/
def remaining (run : Run M A K) : Input M A K → List Target
  | .result upcall => if upcall.status = .progress then run.unanswered else run.unanswered.erase upcall.target
  | _ => run.unanswered

theorem remaining_result (run : Run M A K) (upcall : QueryResult K A) : run.remaining (.result upcall) =
    if upcall.status = .progress then run.unanswered else run.unanswered.erase upcall.target := rfl

def after (run : Run M A K) (input : Input M A K) (control : Control (Nat × M) A)
    (es : List (Effect (Nat × M) A)) : Run M A K where
  control := control
  submissions := run.submissions ++ match input with
    | .submit submission => [submission]
    | _ => []
  unanswered := run.remaining input ++ queries es
  results := run.results ++ match input with
    | .result upcall => [upcall]
    | _ => []
  history := run.history ++ es

/-- A result is for a query that has not ended. -/
def Answers (run : Run M A K) : Input M A K → Prop
  | .result upcall => upcall.target ∈ run.unanswered
  | _ => True

end Run

def machine (M A K : Type) : Machine (Run M A K) (Input M A K) where
  init run := run = {}
  next run input run' := run.Answers input ∧
    ∃ control es, run.handle input = .ok control es ∧ run' = run.after input control es

/-- The invariant rule of the machine, by the postconditions of the handlers. -/
theorem reach_induct {C : Run M A K → Input M A K → Prop} {I : Run M A K → Prop} (hinit : I {})
    (hstep : ∀ run input, I run → C run input → run.Answers input →
      (run.handle input).Sat (fun control es => I (run.after input control es)) fun _ => True)
    {run : Run M A K} (h : (machine M A K).Reach C run) : I run := by
  refine h.invariant ?_ ?_
  · rintro _ rfl
    exact hinit
  · rintro run input _ _ hI hC ⟨hanswers, control, es, hhandle, rfl⟩
    have := hstep run input hI hC hanswers
    rw [hhandle] at this
    exact this

/-! ## Runs that are computed -/

instance : (run : Run M A K) → (input : Input M A K) → Decidable (run.Answers input)
  | run, .result upcall => inferInstanceAs (Decidable (upcall.target ∈ run.unanswered))
  | _, .submit _ | _, .timeout _ => instDecidableTrue

section
variable (C : Run M A K → Input M A K → Prop) [∀ run input, Decidable (C run input)]

def Run.exec (run : Run M A K) (input : Input M A K) : Option (Run M A K) :=
  if run.Answers input ∧ C run input then
    match run.handle input with
    | .ok control es => some (run.after input control es)
    | .fail _ _ => none
  else none

/-- What a computed run ends in is reached by a run whose steps meet `C`. -/
theorem reach_of_exec (inputs : List (Input M A K)) (P : Run M A K → Prop) [DecidablePred P]
    (h : (inputs.foldlM (Run.exec C) {}).any (fun run => P run) = true) :
    ∃ run, (machine M A K).Reach C run ∧ P run := by
  refine Machine.exists_of_foldlM (M := machine M A K) (fun s l s' hs => ?_) rfl h
  unfold Run.exec at hs
  split at hs
  · next hc =>
    split at hs
    · next control es hhandle =>
      cases hs
      exact ⟨hc.2, hc.1, control, es, hhandle, rfl⟩
    · cases hs
  · cases hs

end

/-! ## What the handlers do -/

@[simp] theorem queries_nil : queries ([] : List (Effect M A)) = [] := rfl

@[simp] theorem queries_append (es es' : List (Effect M A)) : queries (es ++ es') = queries es ++ queries es' :=
  List.filterMap_append ..

variable {self : Control M A}

theorem onUnicast_sat {peerId : PeerId} {message : M} {Q : Control M A → List (Effect M A) → Prop}
    (hcached : ∀ addr addrs, self.addrs.get peerId = some (addr, addrs) → Q { self with addrs := addrs } [.send addr message])
    (hride : ∀ querying, self.queryingMulticasts peerId = some querying →
      Q (self.setMulticast peerId (some { querying with messages := querying.messages ++ [(1, message)] })) [])
    (hqueue : ∀ querying, self.queryingMulticasts peerId = none → self.queryingUnicasts peerId = some querying →
      Q (self.setUnicast peerId (some { querying with messages := querying.messages ++ [message] })) [])
    (hquery : ∀ timerId timer, self.queryingMulticasts peerId = none → self.queryingUnicasts peerId = none →
      self.addrs.get peerId = none →
      Q ({ self with timer := timer }.setUnicast peerId (some ⟨[message], timerId⟩))
        [.query ⟨peerId, 1⟩, .setTimer timerId ⟨peerId, 1⟩]) :
    (self.onUnicast peerId message).Sat Q fun _ => True := by
  unfold onUnicast
  split
  · next addr addrs hget => exact hcached addr addrs hget
  · next hget =>
    split
    · next querying hquerying => exact hride querying hquerying
    · next hnone =>
      split
      · next querying hquerying => exact hqueue querying hnone hquerying
      · next hnone' => exact hquery _ _ hnone hnone' hget

theorem onMulticast_sat {target : Target} {count : ℕ+} {message : M} {Q : Control M A → List (Effect M A) → Prop}
    (hjoin : ∀ querying, self.queryingMulticasts target = some querying → count ≤ querying.count →
      Q (self.setMulticast target (some { querying with messages := querying.messages ++ [(count, message)] })) [])
    (hpend : (self.queryingUnicasts target).isSome ∨ (self.queryingMulticasts target).isSome →
      Q (self.pushPending target count message) [])
    (hquery : ∀ timerId timer, self.queryingMulticasts target = none → self.queryingUnicasts target = none →
      Q ({ self with timer := timer }.setMulticast target (some ⟨count, [(count, message)], timerId⟩))
        [.query ⟨target, count⟩, .setTimer timerId ⟨target, count⟩]) :
    (self.onMulticast target count message).Sat Q fun _ => True := by
  unfold onMulticast
  split
  · next querying hquerying =>
    split
    · next hle => exact hjoin querying hquerying hle
    · exact hpend (Or.inr (by rw [hquerying]; rfl))
  · next hnone =>
    split
    · next hsome => exact hpend (Or.inl hsome)
    · next hnone' => exact hquery _ _ hnone (Option.not_isSome_iff_eq_none.mp hnone')

theorem sendMessages_eq (addr : A) (messages : List M) :
    sendMessages addr messages = .ok () (messages.map (.send addr)) := by
  induction messages with
  | nil => rfl
  | cons message messages ih =>
    rw [sendMessages, ih]
    rfl

theorem sendMulticasts_eq (closest : List (PeerRecord K A)) (messages : List (ℕ+ × M)) :
    sendMulticasts closest messages =
      .ok () (messages.map fun e => .sendToEach ((closest.take e.1).map (·.addr)) e.2) := by
  induction messages with
  | nil => rfl
  | cons e messages ih =>
    rw [sendMulticasts, ih]
    rfl

/-- A unicast is resolved by `record`. -/
def resolved (self : Control M A) (record : PeerRecord K A) : Control M A :=
  { self.setUnicast record.id none with addrs := self.addrs.push record.id record.addr }

/-- The calls when a unicast is resolved by `record`. -/
def resolveCalls (querying : QueryingUnicast M) (record : PeerRecord K A) : List (Effect M A) :=
  .unsetTimer querying.timer :: querying.messages.map (.send record.addr)

/-- The rule of the first loop of the handler of a result. -/
theorem resolve_sat {closest : List (PeerRecord K A)} {es : List (Effect M A)}
    {I : Control M A → List (Effect M A) → Prop} (h : I self es)
    (hstep : ∀ record ∈ closest, ∀ c es querying, I c es → c.queryingUnicasts record.id = some querying →
      I (c.resolved record) (es ++ resolveCalls querying record)) :
    (self.resolve closest).Sat (fun c es' => I c (es ++ es')) fun _ => False := by
  induction closest generalizing self es with
  | nil => simpa [resolve] using h
  | cons record closest ih =>
    have hrest : ∀ r ∈ closest, ∀ c es querying, I c es → c.queryingUnicasts r.id = some querying →
        I (c.resolved r) (es ++ resolveCalls querying r) := fun r hr => hstep r (List.mem_cons_of_mem _ hr)
    unfold resolve
    split
    · exact ih h hrest
    · next querying hquerying =>
      have hone := hstep record List.mem_cons_self self es querying h hquerying
      simp only [sendMessages_eq, unsetTimer, sat_bind, sat_emit, sat_ok]
      refine (ih hone hrest).mono (fun c es' hI => ?_) fun _ h => h
      simpa [resolveCalls] using hI

/-- The first loop takes the unicasts to the records it has seen off the table. -/
theorem resolve_tables (closest : List (PeerRecord K A)) : (self.resolve closest).Sat (fun c es =>
    (∀ id, c.queryingUnicasts id = if id ∈ closest.map (·.id) then none else self.queryingUnicasts id) ∧
    c.queryingMulticasts = self.queryingMulticasts ∧ c.pendingMulticasts = self.pendingMulticasts ∧
    queries es = []) fun _ => True := by
  induction closest generalizing self with
  | nil => simp [resolve]
  | cons record closest ih =>
    unfold resolve
    split
    · next hnone =>
      refine ih.mono (fun c es hresolve => ?_) fun _ _ => trivial
      obtain ⟨hunicasts, hrest⟩ := hresolve
      refine ⟨fun id => ?_, hrest⟩
      rw [hunicasts id]
      by_cases hid : id = record.id
      · subst hid
        simp [hnone]
      · simp [hid]
    · next querying hquerying =>
      simp only [sendMessages_eq, unsetTimer, sat_bind, sat_emit, sat_ok]
      refine ih.mono (fun c es hresolve => ?_) fun _ _ => trivial
      obtain ⟨hunicasts, hmulticasts, hpending, hqueries⟩ := hresolve
      refine ⟨fun id => ?_, hmulticasts, hpending, ?_⟩
      · rw [hunicasts id]
        by_cases hid : id = record.id
        · subst hid
          simp
        · simp [hid]
      · simp [queries, List.filterMap_map] at hqueries ⊢
        exact hqueries

theorem pushAddrs_tables (self : Control M A) (closest : List (PeerRecord K A)) :
    (self.pushAddrs closest).queryingUnicasts = self.queryingUnicasts ∧
      (self.pushAddrs closest).queryingMulticasts = self.queryingMulticasts ∧
      (self.pushAddrs closest).pendingMulticasts = self.pendingMulticasts := by
  induction closest generalizing self with
  | nil => exact ⟨rfl, rfl, rfl⟩
  | cons record closest ih => exact ih _

theorem finishMulticast_sat {target : Target} {closest : List (PeerRecord K A)}
    {Q : Control M A → List (Effect M A) → Prop} {R : List (Effect M A) → Prop}
    (hnone : self.queryingMulticasts target = none → Q self [])
    (hsome : ∀ querying, self.queryingMulticasts target = some querying →
      Q ((self.setMulticast target none).pushAddrs closest)
        (.unsetTimer querying.timer ::
          querying.messages.map fun e => .sendToEach ((closest.take e.1).map (·.addr)) e.2)) :
    (self.finishMulticast target closest).Sat Q R := by
  unfold finishMulticast
  split
  · next h => exact hnone h
  · next querying h =>
    simp only [sendMulticasts_eq, unsetTimer, sat_bind, sat_emit, sat_ok, sat_pure, List.append_nil]
    exact hsome querying h

theorem startPending_sat {target : Target} {Q : Control M A → List (Effect M A) → Prop} {R : List (Effect M A) → Prop}
    (hnone : self.pendingMulticasts target = none → Q self [])
    (hsome : ∀ multicasts count timerId timer, self.pendingMulticasts target = some multicasts →
      self.queryingUnicasts target = none → self.queryingMulticasts target = none →
      (multicasts.map Prod.fst).max? = some count →
      Q ({ self.setPending target none with timer := timer }.setMulticast target (some ⟨count, multicasts, timerId⟩))
        [.query ⟨target, count⟩, .setTimer timerId ⟨target, count⟩])
    (hR : self.queryingUnicasts target ≠ none ∨ self.queryingMulticasts target ≠ none ∨
      self.pendingMulticasts target = some [] → R []) : (self.startPending target).Sat Q R := by
  unfold startPending
  split
  · next h => exact hnone h
  · next multicasts h =>
    simp only [sat_bind, sat_assert, Option.isNone_iff_eq_none, List.nil_append]
    refine ⟨fun hunicast => ⟨fun hmulticast => ?_, fun hsome => hR (Or.inr (Or.inl hsome))⟩, fun hsome => hR (Or.inl hsome)⟩
    split
    · next hmax =>
      refine hR (Or.inr (Or.inr ?_))
      simpa [List.max?_eq_none_iff, h] using hmax
    · next count hmax => exact hsome multicasts count _ _ h hunicast hmulticast hmax

end

/-- A peer id for runs that are evaluated. -/
def peerOf (byte : UInt8) : PeerId := .replicate 32 byte

def recordOf (byte : UInt8) : PeerRecord Unit UInt8 := ⟨peerOf byte, (), byte⟩

end Neatworks.Control
