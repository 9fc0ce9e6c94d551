import Neatworks.ControlQueries

/-!
# Where the messages of the control go

A unicast waits in one place until it is sent, and it is sent at most once.
The address is the one of a record with the right id, unless the unicast rides
on a multicast to the same id whose closest record is another peer's.
-/

namespace Neatworks.Control

open Outcome
open Kademlia (PeerId Target PeerRecord Query QueryStatus QueryResult)

section
variable {M A K : Type}

/-- The addresses that the message with this number is sent to by a call. -/
def Effect.to (n : Nat) : Effect (Nat × M) A → List A
  | .send addr message => if message.1 = n then [addr] else []
  | .sendToEach addrs message => if message.1 = n then addrs else []
  | _ => []

/-- The addresses that the message with this number has been sent to. -/
def sentTo (n : Nat) (es : List (Effect (Nat × M) A)) : List A := es.flatMap (Effect.to n)

def Submission.target : Submission M → Target
  | .unicast peerId _ => peerId
  | .multicast target _ _ => target

def IsUnicast (submissions : List (Submission M)) (n : Nat) : Prop :=
  ∃ peerId message, submissions[n]? = some (.unicast peerId message)

/-- A result has returned a record with this id and address. -/
def Known (results : List (QueryResult K A)) (peerId : PeerId) (addr : A) : Prop :=
  ∃ upcall ∈ results, ∃ record ∈ upcall.closest, record.id = peerId ∧ record.addr = addr

/-- The result ends the query of a multicast that a unicast rides on, and its
first record is another peer's. -/
def Misdirects (run : Run M A K) (upcall : QueryResult K A) : Prop :=
  upcall.status ≠ .progress ∧ (∃ record, upcall.closest.head? = some record ∧ record.id ≠ upcall.target) ∧
    ∃ querying, run.control.queryingMulticasts upcall.target = some querying ∧
      ∃ e ∈ querying.messages, IsUnicast run.submissions e.2.1

def NeverMisdirects (run : Run M A K) (input : Input M A K) : Prop :=
  ∀ upcall, input = .result upcall → ¬ Misdirects run upcall

/-! ## What a list of sends adds -/

@[simp] theorem sentTo_append (n : Nat) (es es' : List (Effect (Nat × M) A)) :
    sentTo n (es ++ es') = sentTo n es ++ sentTo n es' := List.flatMap_append

theorem sentTo_query (n : Nat) (query query' : Query) (timerId : TimerId) :
    sentTo n ([.query query, .setTimer timerId query'] : List (Effect (Nat × M) A)) = [] := rfl

@[simp] theorem sentTo_unsetTimer (n : Nat) (timerId : TimerId) (es : List (Effect (Nat × M) A)) :
    sentTo n (.unsetTimer timerId :: es) = sentTo n es := rfl

section
variable {α : Type} {l : List α} {k : α → Nat} {f : α → List A} {g : α → Effect (Nat × M) A}

theorem sentTo_map_of_not_mem (hg : ∀ n e, (g e).to n = if k e = n then f e else []) {n : Nat}
    (h : n ∉ l.map k) : sentTo n (l.map g) = [] := by
  induction l with
  | nil => rfl
  | cons e l ih =>
    rw [List.map_cons, List.mem_cons, not_or] at h
    rw [List.map_cons, sentTo, List.flatMap_cons, hg, if_neg (Ne.symm h.1)]
    exact ih h.2

theorem sentTo_map_of_mem (hg : ∀ n e, (g e).to n = if k e = n then f e else []) (hl : (l.map k).Nodup)
    {e : α} (he : e ∈ l) : sentTo (k e) (l.map g) = f e := by
  induction l with
  | nil => cases he
  | cons e' l ih =>
    rw [List.map_cons, List.nodup_cons] at hl
    rw [List.map_cons, sentTo, List.flatMap_cons, hg]
    rcases List.mem_cons.mp he with rfl | he
    · rw [if_pos rfl]
      have := sentTo_map_of_not_mem hg hl.1
      rw [sentTo] at this
      rw [this, List.append_nil]
    · have hne : k e' ≠ k e := by
        intro heq
        rw [heq] at hl
        exact hl.1 (List.mem_map_of_mem he)
      rw [if_neg hne]
      exact ih hl.2 he

end

theorem to_send (addr : A) (n : Nat) (e : Nat × M) :
    (Effect.send addr e : Effect (Nat × M) A).to n = if e.1 = n then [addr] else [] := rfl

theorem to_sendToEach (closest : List (PeerRecord K A)) (n : Nat) (e : ℕ+ × Nat × M) :
    (Effect.sendToEach ((closest.take e.1).map (·.addr)) e.2 : Effect (Nat × M) A).to n =
      if e.2.1 = n then (closest.take e.1).map (·.addr) else [] := rfl

/-! ## Where the messages are -/

structure Delivery (submissions : List (Submission M)) (results : List (QueryResult K A)) (c : Control (Nat × M) A)
    (history : List (Effect (Nat × M) A)) : Prop where
  nodup : ∀ target, ((c.held target).map Prod.fst).Nodup
  owner : ∀ target, ∀ e ∈ c.held target, ∃ submission, submissions[e.1]? = some submission ∧ submission.target = target
  unsent : ∀ target, ∀ e ∈ c.held target, sentTo e.1 history = []
  fresh : ∀ n, submissions.length ≤ n → sentTo n history = []
  ride : ∀ target querying, c.queryingMulticasts target = some querying →
    ∀ e ∈ querying.messages, IsUnicast submissions e.2.1 → e.1 = 1
  pend : ∀ target pending, c.pendingMulticasts target = some pending → ∀ e ∈ pending, ¬ IsUnicast submissions e.2.1
  addrs : ∀ e ∈ c.addrs.entries, Known results e.1 e.2
  sent : ∀ n peerId message, submissions[n]? = some (.unicast peerId message) →
    (sentTo n history).length ≤ 1 ∧ ∀ addr ∈ sentTo n history, Known results peerId addr

theorem mem_held {c : Control M A} {target : Target} {e : M} : e ∈ c.held target ↔
    (∃ querying, c.queryingUnicasts target = some querying ∧ e ∈ querying.messages) ∨
    (∃ querying, c.queryingMulticasts target = some querying ∧ ∃ t ∈ querying.messages, t.2 = e) ∨
    ∃ pending, c.pendingMulticasts target = some pending ∧ ∃ t ∈ pending, t.2 = e := by
  unfold held
  cases c.queryingUnicasts target <;> cases c.queryingMulticasts target <;> cases c.pendingMulticasts target <;>
    simp

namespace Delivery

section
variable {submissions : List (Submission M)} {results : List (QueryResult K A)} {c c' : Control (Nat × M) A}
  {history es : List (Effect (Nat × M) A)}

theorem owner_lt (h : Delivery submissions results c history) {target : Target} {e : Nat × M}
    (he : e ∈ c.held target) : e.1 < submissions.length := by
  obtain ⟨submission, hget, _⟩ := h.owner target e he
  exact (List.getElem?_eq_some_iff.mp hget).1

theorem target_unique (h : Delivery submissions results c history) {target target' : Target} {e e' : Nat × M}
    (he : e ∈ c.held target) (he' : e' ∈ c.held target') (heq : e.1 = e'.1) : target = target' := by
  obtain ⟨submission, hget, rfl⟩ := h.owner target e he
  obtain ⟨submission', hget', rfl⟩ := h.owner target' e' he'
  rw [heq, hget'] at hget
  cases hget
  rfl

theorem known_append {upcall : QueryResult K A} {peerId : PeerId} {addr : A} (h : Known results peerId addr) :
    Known (results ++ [upcall]) peerId addr := by
  obtain ⟨upcall', hmem, hrecord⟩ := h
  exact ⟨upcall', List.mem_append_left _ hmem, hrecord⟩

theorem results_append (h : Delivery submissions results c history) (upcall : QueryResult K A) :
    Delivery submissions (results ++ [upcall]) c history :=
  { h with
    addrs := fun e he => known_append (h.addrs e he)
    sent := fun n peerId message hget => ⟨(h.sent n peerId message hget).1,
      fun addr haddr => known_append ((h.sent n peerId message hget).2 addr haddr)⟩ }

theorem submissions_append (h : Delivery submissions results c history) (submission : Submission M) :
    Delivery (submissions ++ [submission]) results c history := by
  have hunicast : ∀ n, n < submissions.length → IsUnicast (submissions ++ [submission]) n → IsUnicast submissions n := by
    intro n hn ⟨peerId, message, hget⟩
    rw [List.getElem?_append_left hn] at hget
    exact ⟨peerId, message, hget⟩
  refine ⟨h.nodup, fun target e he => ?_, h.unsent, fun n hn => ?_, fun target querying hquerying e he hu => ?_,
    fun target pending hpending e he hu => ?_, h.addrs, fun n peerId message hget => ?_⟩
  · rw [List.getElem?_append_left (h.owner_lt he)]
    exact h.owner target e he
  · rw [List.length_append] at hn
    exact h.fresh n (Nat.le_of_succ_le hn)
  · have hlt : e.2.1 < submissions.length := h.owner_lt (mem_held.mpr (Or.inr (Or.inl ⟨querying, hquerying, e, he, rfl⟩)))
    exact h.ride target querying hquerying e he (hunicast _ hlt hu)
  · have hlt : e.2.1 < submissions.length := h.owner_lt (mem_held.mpr (Or.inr (Or.inr ⟨pending, hpending, e, he, rfl⟩)))
    exact h.pend target pending hpending e he (hunicast _ hlt hu)
  · by_cases hn : n < submissions.length
    · rw [List.getElem?_append_left hn] at hget
      exact h.sent n peerId message hget
    · rw [h.fresh n (Nat.not_lt.mp hn)]
      exact ⟨Nat.zero_le _, fun _ haddr => absurd haddr List.not_mem_nil⟩

/-- Messages leave the tables, and each is sent at most once. -/
theorem extend (h : Delivery submissions results c history)
    (hnodup : ∀ target, ((c'.held target).map Prod.fst).Nodup) (hsub : ∀ target, ∀ e ∈ c'.held target, e ∈ c.held target)
    (hunsent : ∀ target, ∀ e ∈ c'.held target, sentTo e.1 es = []) (hfresh : ∀ n, submissions.length ≤ n → sentTo n es = [])
    (hride : ∀ target querying, c'.queryingMulticasts target = some querying →
      ∀ e ∈ querying.messages, IsUnicast submissions e.2.1 → e.1 = 1)
    (hpend : ∀ target pending, c'.pendingMulticasts target = some pending → ∀ e ∈ pending, ¬ IsUnicast submissions e.2.1)
    (haddrs : ∀ e ∈ c'.addrs.entries, Known results e.1 e.2)
    (hsent : ∀ n peerId message, submissions[n]? = some (.unicast peerId message) → sentTo n es = [] ∨
      sentTo n history = [] ∧ ∃ addr, sentTo n es = [addr] ∧ Known results peerId addr) :
    Delivery submissions results c' (history ++ es) := by
  refine ⟨hnodup, fun target e he => h.owner target e (hsub target e he), fun target e he => ?_, fun n hn => ?_,
    hride, hpend, haddrs, fun n peerId message hget => ?_⟩
  · rw [sentTo_append, h.unsent target e (hsub target e he), hunsent target e he]
    rfl
  · rw [sentTo_append, h.fresh n hn, hfresh n hn]
    rfl
  · rw [sentTo_append]
    rcases hsent n peerId message hget with hnil | ⟨hnil, addr, hone, hknown⟩
    · rw [hnil, List.append_nil]
      exact h.sent n peerId message hget
    · rw [hnil, hone]
      refine ⟨Nat.le_refl _, fun addr' haddr => ?_⟩
      rw [List.mem_singleton.mp haddr]
      exact hknown

theorem quiet (h : Delivery submissions results c history) (hes : ∀ n, sentTo n es = []) :
    Delivery submissions results c (history ++ es) :=
  h.extend h.nodup (fun _ _ he => he) (fun _ _ _ => hes _) (fun n _ => hes n) h.ride h.pend h.addrs
    fun n _ _ _ => Or.inl (hes n)

/-- A message that has not been held before is held for its target. -/
theorem add (h : Delivery submissions results c history) {n : Nat} {message : M} {submission : Submission M}
    (hget : submissions[n]? = some submission) (hfree : ∀ target, ∀ e ∈ c.held target, e.1 ≠ n)
    (hunsent : sentTo n history = []) (hperm : (c'.held submission.target).Perm ((n, message) :: c.held submission.target))
    (hother : ∀ target, target ≠ submission.target → c'.held target = c.held target)
    (hride : ∀ target querying, c'.queryingMulticasts target = some querying →
      ∀ e ∈ querying.messages, IsUnicast submissions e.2.1 → e.1 = 1)
    (hpend : ∀ target pending, c'.pendingMulticasts target = some pending → ∀ e ∈ pending, ¬ IsUnicast submissions e.2.1)
    (haddrs : c'.addrs = c.addrs) : Delivery submissions results c' history := by
  have hmem : ∀ target, ∀ e ∈ c'.held target, e = (n, message) ∧ target = submission.target ∨ e ∈ c.held target := by
    intro target e he
    by_cases htarget : target = submission.target
    · subst htarget
      rcases List.mem_cons.mp (hperm.mem_iff.mp he) with he | he
      · exact Or.inl ⟨he, rfl⟩
      · exact Or.inr he
    · rw [hother target htarget] at he
      exact Or.inr he
  refine ⟨fun target => ?_, fun target e he => ?_, fun target e he => ?_, h.fresh, hride, hpend, ?_, h.sent⟩
  · by_cases htarget : target = submission.target
    · subst htarget
      rw [(hperm.map Prod.fst).nodup_iff, List.map_cons, List.nodup_cons]
      refine ⟨fun hn => ?_, h.nodup _⟩
      obtain ⟨e, he, hfst⟩ := List.mem_map.mp hn
      exact hfree _ e he hfst
    · rw [hother target htarget]
      exact h.nodup target
  · rcases hmem target e he with ⟨rfl, rfl⟩ | he
    · exact ⟨submission, hget, rfl⟩
    · exact h.owner target e he
  · rcases hmem target e he with ⟨rfl, rfl⟩ | he
    · exact hunsent
    · exact h.unsent target e he
  · rw [haddrs]
    exact h.addrs

theorem submit (h : Delivery submissions results c history) (submission : Submission M) (message : M)
    (hperm : (c'.held submission.target).Perm ((submissions.length, message) :: c.held submission.target))
    (hother : ∀ target, target ≠ submission.target → c'.held target = c.held target)
    (hride : ∀ target querying, c'.queryingMulticasts target = some querying →
      ∀ e ∈ querying.messages, IsUnicast (submissions ++ [submission]) e.2.1 → e.1 = 1)
    (hpend : ∀ target pending, c'.pendingMulticasts target = some pending →
      ∀ e ∈ pending, ¬ IsUnicast (submissions ++ [submission]) e.2.1)
    (haddrs : c'.addrs = c.addrs) : Delivery (submissions ++ [submission]) results c' history :=
  (h.submissions_append submission).add (by simp) (fun _ _ he => Nat.ne_of_lt (h.owner_lt he))
    (h.fresh _ (Nat.le_refl _)) hperm hother hride hpend haddrs

theorem onUnicast (h : Delivery submissions results c history) (peerId : PeerId) (message : M) :
    (c.onUnicast peerId (submissions.length, message)).Sat (fun c' es =>
      Delivery (submissions ++ [.unicast peerId message]) results c' (history ++ es)) fun _ => True := by
  have hnew := h.submissions_append (.unicast peerId message)
  refine onUnicast_sat (fun addr addrs hget => ?_) (fun querying hquerying => ?_) (fun querying hmulticast hquerying => ?_)
    fun timerId timer hmulticast hunicast _ => ?_
  · obtain ⟨hmem, rfl⟩ := LruCache.get_eq_some hget
    have hone : ∀ n, sentTo n [(Effect.send addr (submissions.length, message) : Effect (Nat × M) A)] =
        if submissions.length = n then [addr] else [] := fun n => List.append_nil _
    refine hnew.extend h.nodup (fun _ _ he => he) (fun target e he => ?_) (fun n hn => ?_) hnew.ride hnew.pend
      (fun e he => ?_) fun n peerId' message' hn => ?_
    · rw [hone, if_neg (Nat.ne_of_gt (h.owner_lt he))]
    · rw [List.length_append] at hn
      rw [hone, if_neg (show submissions.length ≠ n from Nat.ne_of_lt hn)]
    · rcases LruCache.mem_push he with rfl | he
      · exact h.addrs _ hmem
      · exact h.addrs e he
    · by_cases hlen : submissions.length = n
      · subst hlen
        simp at hn
        obtain ⟨rfl, rfl⟩ := hn
        exact Or.inr ⟨h.fresh _ (Nat.le_refl _), addr, by rw [hone, if_pos rfl], h.addrs _ hmem⟩
      · exact Or.inl (by rw [hone, if_neg hlen])
  · rw [List.append_nil]
    refine h.submit _ message ?_ (fun target htarget => ?_) (fun target querying' hquerying' e he hu => ?_) hnew.pend rfl
    · simp only [held, Submission.target, setMulticast_unicasts, setMulticast_multicasts, setMulticast_pending,
        Function.update_self, hquerying, Option.elim_some, List.map_append, List.map_cons, List.map_nil]
      rw [← List.append_assoc, List.append_assoc _ [_]]
      exact List.perm_middle
    · rw [Submission.target] at htarget
      simp [held, htarget]
    · by_cases htarget : target = peerId
      · subst htarget
        simp only [setMulticast_multicasts, Function.update_self, Option.some.injEq] at hquerying'
        subst hquerying'
        rcases List.mem_append.mp he with he | he
        · exact hnew.ride target querying hquerying e he hu
        · rw [List.mem_singleton.mp he]
      · simp only [setMulticast_multicasts, Function.update_of_ne htarget] at hquerying'
        exact hnew.ride target querying' hquerying' e he hu
  · rw [List.append_nil]
    refine h.submit _ message ?_ (fun target htarget => ?_) hnew.ride hnew.pend rfl
    · simp only [held, Submission.target, setUnicast_unicasts, setUnicast_multicasts, setUnicast_pending,
        Function.update_self, hquerying, Option.elim_some, List.append_assoc, List.singleton_append]
      exact List.perm_middle
    · rw [Submission.target] at htarget
      simp [held, htarget]
  · refine quiet ?_ fun n => sentTo_query n ..
    refine h.submit _ message ?_ (fun target htarget => ?_) hnew.ride hnew.pend rfl
    · simp [held, Submission.target, hunicast, hmulticast]
    · rw [Submission.target] at htarget
      simp [held, htarget]

theorem onMulticast (h : Delivery submissions results c history) (target : Target) (count : ℕ+) (message : M) :
    (c.onMulticast target count (submissions.length, message)).Sat (fun c' es =>
      Delivery (submissions ++ [.multicast target count message]) results c' (history ++ es)) fun _ => True := by
  have hnew := h.submissions_append (.multicast target count message)
  have hmulti : ¬ IsUnicast (submissions ++ [.multicast target count message]) submissions.length := by
    intro ⟨peerId, message', hget⟩
    simp at hget
  refine onMulticast_sat (fun querying hquerying _ => ?_) (fun hsome => ?_) fun timerId timer hmulticast hunicast => ?_
  · rw [List.append_nil]
    refine h.submit _ message ?_ (fun t ht => ?_) (forall_update_some hnew.ride fun e he hu => ?_) hnew.pend rfl
    · simp only [held, Submission.target, setMulticast_unicasts, setMulticast_multicasts, setMulticast_pending,
        Function.update_self, hquerying, Option.elim_some, List.map_append, List.map_cons, List.map_nil]
      rw [← List.append_assoc, List.append_assoc _ [_]]
      exact List.perm_middle
    · rw [Submission.target] at ht
      simp [held, ht]
    · rcases List.mem_append.mp he with he | he
      · exact hnew.ride target querying hquerying e he hu
      · rw [List.mem_singleton.mp he] at hu
        exact absurd hu hmulti
  · rw [List.append_nil]
    refine h.submit _ message ?_ (fun t ht => ?_) hnew.ride (forall_update_some hnew.pend fun e he hu => ?_) rfl
    · have hpending : (c.pendingMulticasts target).elim [] (fun pending : List (ℕ+ × Nat × M) => pending.map Prod.snd) =
          ((c.pendingMulticasts target).getD []).map Prod.snd := by
        cases c.pendingMulticasts target <;> rfl
      simp only [held, pushPending, Submission.target, setPending_unicasts, setPending_multicasts, setPending_pending,
        Function.update_self, Option.elim_some, List.map_append, List.map_cons, List.map_nil, hpending]
      rw [← List.append_assoc]
      exact List.perm_append_singleton _ _
    · rw [Submission.target] at ht
      simp [held, pushPending, ht]
    · rcases List.mem_append.mp he with he | he
      · cases hold : c.pendingMulticasts target with
        | none =>
          rw [hold] at he
          cases he
        | some old =>
          rw [hold] at he
          exact hnew.pend target old hold e he hu
      · rw [List.mem_singleton.mp he] at hu
        exact absurd hu hmulti
  · refine quiet ?_ fun n => sentTo_query n ..
    refine h.submit _ message ?_ (fun t ht => ?_) (forall_update_some hnew.ride fun e he hu => ?_) hnew.pend rfl
    · simp [held, Submission.target, hunicast, hmulticast]
    · rw [Submission.target] at ht
      simp [held, ht]
    · rw [List.mem_singleton.mp he] at hu
      exact absurd hu hmulti

/-- The messages in `l` are sent and leave the tables. -/
theorem unsent_of_disjoint {α : Type} {l : List α} {k : α → Nat × M} {f : α → List A} {g : α → Effect (Nat × M) A}
    (hg : ∀ n e, (g e).to n = if (k e).1 = n then f e else []) {kept : List (Nat × M)}
    (hnodup : ((l.map k ++ kept).map Prod.fst).Nodup) {e : Nat × M} (he : e ∈ kept) : sentTo e.1 (l.map g) = [] := by
  refine sentTo_map_of_not_mem (k := fun e => (k e).1) hg fun hmem => ?_
  rw [List.map_append, List.nodup_append] at hnodup
  obtain ⟨e', he', heq⟩ := List.mem_map.mp hmem
  exact hnodup.2.2 _ (List.mem_map_of_mem (List.mem_map_of_mem he')) _ (List.mem_map_of_mem he) heq

/-- The messages in `l`, which are held for `target`, are sent and leave the tables. -/
theorem leave (h : Delivery submissions results c history) {α : Type} {l : List α} {k : α → Nat × M} {f : α → List A}
    {g : α → Effect (Nat × M) A} (hg : ∀ n e, (g e).to n = if (k e).1 = n then f e else []) (target : Target)
    (hperm : (c.held target).Perm (l.map k ++ c'.held target))
    (hother : ∀ t, t ≠ target → c'.held t = c.held t)
    (hride : ∀ t querying, c'.queryingMulticasts t = some querying →
      ∀ e ∈ querying.messages, IsUnicast submissions e.2.1 → e.1 = 1)
    (hpend : ∀ t pending, c'.pendingMulticasts t = some pending → ∀ e ∈ pending, ¬ IsUnicast submissions e.2.1)
    (haddrs : ∀ e ∈ c'.addrs.entries, Known results e.1 e.2)
    (hsent : ∀ e ∈ l, IsUnicast submissions (k e).1 → f e = [] ∨ ∃ addr, f e = [addr] ∧ Known results target addr) :
    Delivery submissions results c' (history ++ l.map g) := by
  have hl : ∀ e ∈ l, k e ∈ c.held target := fun e he =>
    hperm.mem_iff.mpr (List.mem_append_left _ (List.mem_map_of_mem he))
  have hnodup : ((l.map k ++ c'.held target).map Prod.fst).Nodup := (hperm.map _).nodup_iff.mp (h.nodup target)
  have hkeys : (l.map fun e => (k e).1).Nodup := by
    rw [List.map_append, List.map_map] at hnodup
    exact (List.nodup_append.mp hnodup).1
  refine h.extend (fun t => ?_) (fun t e he => ?_) (fun t e he => ?_) (fun n hn => ?_) hride hpend haddrs
    fun n peerId message hget => ?_
  · by_cases ht : t = target
    · subst ht
      rw [List.map_append] at hnodup
      exact (List.nodup_append.mp hnodup).2.1
    · rw [hother t ht]
      exact h.nodup t
  · by_cases ht : t = target
    · subst ht
      exact hperm.mem_iff.mpr (List.mem_append_right _ he)
    · rwa [hother t ht] at he
  · by_cases ht : t = target
    · subst ht
      exact unsent_of_disjoint hg hnodup he
    · refine sentTo_map_of_not_mem (k := fun e => (k e).1) hg fun hmem => ht ?_
      obtain ⟨e', he', heq⟩ := List.mem_map.mp hmem
      rw [hother t ht] at he
      exact h.target_unique he (hl e' he') heq.symm
  · refine sentTo_map_of_not_mem (k := fun e => (k e).1) hg fun hmem => ?_
    obtain ⟨e', he', rfl⟩ := List.mem_map.mp hmem
    exact absurd (h.owner_lt (hl e' he')) (Nat.not_lt.mpr hn)
  · by_cases hmem : n ∈ l.map fun e => (k e).1
    · obtain ⟨e, he, rfl⟩ := List.mem_map.mp hmem
      obtain ⟨submission, hsub, rfl⟩ := h.owner target (k e) (hl e he)
      rw [hget] at hsub
      cases hsub
      rw [sentTo_map_of_mem (k := fun e => (k e).1) hg hkeys he]
      rcases hsent e he ⟨peerId, message, hget⟩ with hnil | hone
      · exact Or.inl hnil
      · exact Or.inr ⟨h.unsent _ _ (hl e he), hone⟩
    · exact Or.inl (sentTo_map_of_not_mem (k := fun e => (k e).1) hg hmem)

theorem resolved {upcall : QueryResult K A} (hmem : upcall ∈ results) (h : Delivery submissions results c history)
    {record : PeerRecord K A} (hrecord : record ∈ upcall.closest) {querying : QueryingUnicast (Nat × M)}
    (hquerying : c.queryingUnicasts record.id = some querying) :
    Delivery submissions results (c.resolved record) (history ++ resolveCalls querying record) := by
  have hknown : Known results record.id record.addr := ⟨upcall, hmem, record, hrecord, rfl, rfl⟩
  have hleave : Delivery submissions results (c.resolved record)
      ((history ++ [.unsetTimer querying.timer]) ++ querying.messages.map (.send record.addr)) := by
    have hquiet : Delivery submissions results c (history ++ [.unsetTimer querying.timer]) := h.quiet fun _ => rfl
    refine hquiet.leave (k := id) (to_send record.addr) record.id ?_
      (fun t ht => ?_) h.ride h.pend (fun e he => ?_) fun e _ _ => Or.inr ⟨_, rfl, hknown⟩
    · simp [held, Control.resolved, hquerying]
    · simp [held, Control.resolved, ht]
    · rcases LruCache.mem_push he with rfl | he
      · exact hknown
      · exact h.addrs e he
  rw [List.append_assoc] at hleave
  exact hleave

theorem mem_pushAddrs {c : Control M A} {closest : List (PeerRecord K A)} {e : PeerId × A}
    (h : e ∈ (c.pushAddrs closest).addrs.entries) :
    e ∈ c.addrs.entries ∨ ∃ record ∈ closest, record.id = e.1 ∧ record.addr = e.2 := by
  induction closest generalizing c with
  | nil => exact Or.inl h
  | cons record closest ih =>
    rcases ih h with h | ⟨record', hmem, hrecord⟩
    · rcases LruCache.mem_push h with rfl | h
      · exact Or.inr ⟨record, List.mem_cons_self, rfl, rfl⟩
      · exact Or.inl h
    · exact Or.inr ⟨record', List.mem_cons_of_mem _ hmem, hrecord⟩

theorem finishMulticast {upcall : QueryResult K A} (hmem : upcall ∈ results) (h : Delivery submissions results c history)
    (hdirect : ∀ querying, c.queryingMulticasts upcall.target = some querying →
      ∀ e ∈ querying.messages, IsUnicast submissions e.2.1 →
        ∀ record, upcall.closest.head? = some record → record.id = upcall.target) :
    (c.finishMulticast upcall.target upcall.closest).Sat (fun c' es =>
      Delivery submissions results c' (history ++ es)) fun _ => True := by
  refine finishMulticast_sat (fun _ => by rwa [List.append_nil]) fun querying hquerying => ?_
  obtain ⟨hunicasts, hmulticasts, hpending⟩ :=
    pushAddrs_tables (c.setMulticast upcall.target none) upcall.closest
  have hheld : ∀ t, ((c.setMulticast upcall.target none).pushAddrs upcall.closest).held t =
      (c.setMulticast upcall.target none).held t := fun t => by rw [held, held, hunicasts, hmulticasts, hpending]
  have hleave : Delivery submissions results ((c.setMulticast upcall.target none).pushAddrs upcall.closest)
      ((history ++ [.unsetTimer querying.timer]) ++
        querying.messages.map fun e => .sendToEach ((upcall.closest.take e.1).map (·.addr)) e.2) := by
    have hquiet : Delivery submissions results c (history ++ [.unsetTimer querying.timer]) := h.quiet fun _ => rfl
    refine hquiet.leave (k := Prod.snd) (to_sendToEach upcall.closest) upcall.target ?_ (fun t ht => ?_)
      ?_ ?_ (fun e he => ?_) fun e he hu => ?_
    · rw [hheld]
      simp only [held, hquerying, setMulticast_unicasts, setMulticast_multicasts, setMulticast_pending,
        Function.update_self, Option.elim_some, Option.elim_none, List.append_nil, List.append_assoc]
      exact List.perm_append_comm_assoc ..
    · rw [hheld]
      simp [held, ht]
    · rw [hmulticasts]
      exact forall_update_none h.ride
    · rw [hpending]
      exact h.pend
    · rcases mem_pushAddrs he with he | ⟨record, hrecord, heq⟩
      · exact h.addrs e he
      · exact ⟨upcall, hmem, record, hrecord, heq⟩
    · have hone := h.ride _ querying hquerying e he hu
      cases hclosest : upcall.closest with
      | nil => exact Or.inl (by simp)
      | cons record closest =>
        refine Or.inr ⟨record.addr, by simp [hone], upcall, hmem, record, by simp [hclosest], ?_, rfl⟩
        exact hdirect querying hquerying e he hu record (by simp [hclosest])
  rw [List.append_assoc] at hleave
  exact hleave

theorem startPending (h : Delivery submissions results c history) (target : Target) :
    (c.startPending target).Sat (fun c' es => Delivery submissions results c' (history ++ es)) fun _ => True := by
  refine startPending_sat (fun _ => by rwa [List.append_nil])
    (fun multicasts count timerId timer hpending hunicast hmulticast _ => ?_) fun _ => trivial
  have hheld : ∀ t, ({ c.setPending target none with timer := timer }.setMulticast target
      (some ⟨count, multicasts, timerId⟩)).held t = c.held t := by
    intro t
    by_cases ht : t = target
    · subst ht
      simp [held, hpending, hunicast, hmulticast]
    · simp [held, ht]
  refine h.extend (fun t => ?_) (fun t e he => ?_) (fun t e _ => sentTo_query ..) (fun n _ => sentTo_query ..)
    (forall_update_some h.ride fun e he hu => ?_) (forall_update_none h.pend) h.addrs
    fun n _ _ _ => Or.inl (sentTo_query ..)
  · rw [hheld]
    exact h.nodup t
  · rwa [hheld] at he
  · exact absurd hu (h.pend target multicasts hpending e he)

theorem onResult {upcall : QueryResult K A} (h : Delivery submissions results c history)
    (hdirect : upcall.status ≠ .progress → ∀ querying, c.queryingMulticasts upcall.target = some querying →
      ∀ e ∈ querying.messages, IsUnicast submissions e.2.1 →
        ∀ record, upcall.closest.head? = some record → record.id = upcall.target) :
    (c.onResult upcall).Sat (fun c' es => Delivery submissions (results ++ [upcall]) c' (history ++ es))
      fun _ => True := by
  have hmem : upcall ∈ results ++ [upcall] := List.mem_append_right _ (List.mem_singleton_self _)
  unfold Control.onResult
  rw [sat_bind]
  have hresolve : (c.resolve upcall.closest).Sat (fun c es =>
      Delivery submissions (results ++ [upcall]) c (history ++ es)) fun _ => False :=
    resolve_sat (I := fun c es => Delivery submissions (results ++ [upcall]) c es) (h.results_append upcall)
      fun record hrecord c es querying hc hquerying => hc.resolved hmem hrecord hquerying
  refine (hresolve.and (resolve_tables upcall.closest)).mono (fun c₁ es ⟨hc, _, hmulticasts, _⟩ => ?_) fun _ _ => trivial
  by_cases hstatus : upcall.status = .progress
  · rw [if_pos hstatus, sat_pure, List.append_nil]
    exact hc
  · rw [if_neg hstatus]
    split
    · next querying hquerying =>
      simp only [unsetTimer, sat_bind, sat_emit, sat_assert, sat_pure, implies_true, and_true]
      intro _
      rw [← List.append_assoc]
      have hheld : ∀ t, ∀ e ∈ (c₁.setUnicast upcall.target none).held t, e ∈ c₁.held t := by
        intro t e he
        by_cases ht : t = upcall.target
        · subst ht
          simp only [held, setUnicast_unicasts, Function.update_self, setUnicast_multicasts, setUnicast_pending,
            Option.elim_none, List.nil_append] at he
          rw [held, List.append_assoc]
          exact List.mem_append_right _ he
        · simpa [held, ht] using he
      refine hc.extend (fun t => (hc.nodup t).sublist ?_) hheld (fun _ _ _ => rfl) (fun _ _ => rfl) hc.ride hc.pend
        hc.addrs fun _ _ _ _ => Or.inl rfl
      by_cases ht : t = upcall.target
      · subst ht
        simp only [held, setUnicast_unicasts, Function.update_self, setUnicast_multicasts, setUnicast_pending,
          Option.elim_none, List.nil_append, List.append_assoc]
        exact (List.sublist_append_right _ _).map _
      · simp [held, ht]
    · rw [sat_bind]
      refine (hc.finishMulticast hmem ?_).mono (fun c₂ es₂ hc₂ => ?_) fun _ _ => trivial
      · rw [hmulticasts]
        exact hdirect hstatus
      · refine (hc₂.startPending upcall.target).mono (fun c₃ es₃ hc₃ => ?_) fun _ _ => trivial
        simpa only [List.append_assoc] using hc₃

end

end Delivery

/-- A unicast is sent at most once, and to the address of a record with its id
that a result has returned, as long as no unicast rides on a multicast whose
closest record is another peer's. -/
theorem unicast_sent {run : Run M A K} (h : (machine M A K).Reach NeverMisdirects run) {n : Nat} {peerId : PeerId}
    {message : M} (hget : run.submissions[n]? = some (.unicast peerId message)) :
    (sentTo n run.history).length ≤ 1 ∧ ∀ addr ∈ sentTo n run.history, Known run.results peerId addr := by
  have hdelivery : Delivery run.submissions run.results run.control run.history := by
    refine reach_induct (I := fun run => Delivery run.submissions run.results run.control run.history) ?_ ?_ h
    · exact ⟨fun _ => List.nodup_nil, fun _ _ he => absurd he List.not_mem_nil, fun _ _ he => absurd he List.not_mem_nil,
        fun _ _ => rfl, fun _ _ hsome => (nomatch hsome), fun _ _ hsome => (nomatch hsome),
        fun _ he => absurd he List.not_mem_nil, fun _ _ _ hsome => (nomatch hsome)⟩
    · intro run input hrun hdirect _
      rcases input with (⟨peerId, message⟩ | ⟨target, count, message⟩) | upcall | query
      · simp only [Run.after, List.append_nil]
        exact hrun.onUnicast peerId message
      · simp only [Run.after, List.append_nil]
        exact hrun.onMulticast target count message
      · simp only [Run.after, List.append_nil]
        refine hrun.onResult fun hstatus querying hquerying e he hu record hrecord => ?_
        by_contra hne
        exact hdirect upcall rfl ⟨hstatus, ⟨record, hrecord, hne⟩, querying, hquerying, e, he, hu⟩
      · trivial
  exact hdelivery.sent n peerId message hget

end

instance {M : Type} (submissions : List (Submission M)) (n : Nat) : Decidable (IsUnicast submissions n) :=
  match h : submissions[n]? with
  | some (.unicast peerId message) => .isTrue ⟨peerId, message, h⟩
  | some (.multicast ..) | none => .isFalse fun ⟨_, _, h'⟩ => by
    rw [h] at h'
    cases h'

instance {M A K : Type} (run : Run M A K) : (input : Input M A K) → Decidable (NeverMisdirects run input)
  | .result upcall =>
    decidable_of_iff (¬ (upcall.status ≠ .progress ∧ (∃ record ∈ upcall.closest.head?, record.id ≠ upcall.target) ∧
        ∃ querying ∈ run.control.queryingMulticasts upcall.target,
          ∃ e ∈ querying.messages, IsUnicast run.submissions e.2.1)) <| by
      simp [NeverMisdirects, Misdirects]
  | .submit _ | .timeout _ => .isTrue fun _ h => nomatch h

/-- A unicast that rides on a multicast whose closest record is its peer's. -/
theorem unicast_sent_riding : ∃ run, (machine Unit UInt8 Unit).Reach NeverMisdirects run ∧
    sentTo 1 run.history = [1] ∧
    ((sentTo 1 run.history).length ≤ 1 ∧ ∀ addr ∈ sentTo 1 run.history, Known run.results (peerOf 1) addr) := by
  obtain ⟨run, hreach, hsent, hget⟩ := reach_of_exec NeverMisdirects
    [.submit (.multicast (peerOf 1) 2 ()), .submit (.unicast (peerOf 1) ()),
      .result ⟨.converge, peerOf 1, [recordOf 1, recordOf 2]⟩]
    (fun run => sentTo 1 run.history = [1] ∧ run.submissions[1]? = some (.unicast (peerOf 1) ())) (by decide)
  exact ⟨run, hreach, hsent, unicast_sent hreach hget⟩

/-- A unicast that rides on a multicast to an id that no peer has. -/
theorem unicast_misdirected : ∃ run, (machine Unit UInt8 Unit).Reach Machine.always run ∧
    run.submissions[1]? = some (.unicast (peerOf 1) ()) ∧ sentTo 1 run.history = [2] ∧
    ¬ Known run.results (peerOf 1) 2 := by
  obtain ⟨run, hreach, hget, hsent, hresults⟩ := reach_of_exec Machine.always
    [.submit (.multicast (peerOf 1) 2 ()), .submit (.unicast (peerOf 1) ()),
      .result ⟨.converge, peerOf 1, [recordOf 2, recordOf 3]⟩]
    (fun run => run.submissions[1]? = some (.unicast (peerOf 1) ()) ∧ sentTo 1 run.history = [2] ∧
      ∀ upcall ∈ run.results, ∀ record ∈ upcall.closest, ¬ (record.id = peerOf 1 ∧ record.addr = 2)) (by decide)
  refine ⟨run, hreach, hget, hsent, fun ⟨upcall, hmem, record, hrecord, heq⟩ => ?_⟩
  exact hresults upcall hmem record hrecord heq

end Neatworks.Control
