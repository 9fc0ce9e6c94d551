import Mathlib.Data.List.Nodup
import Neatworks.Bulk

/-!
# Whole buffers

The id of an offer is used once, and its entry of `pending_accept` is removed
before a task writes its buffer, so one connection at most gets it. What
`read_exact` reads is as long as the receiver expects. `read_to_end` takes any
end of stream for the end of the buffer; what it reads is whole as long as no
stream that a receiver reads to the end is cut.
-/

namespace Neatworks.Bulk

section
variable {P A M N : Type}

/-! ## A connection -/

/-- What holds of a connection when these buffers have been offered. -/
structure Connection.Traced (offered : List ((P × UInt32) × List UInt8)) (c : Connection P N) : Prop where
  idle : c.phase = .waiting → c.buf = none
  writing : ∀ cancel, c.phase = .writing cancel → c.buf ≠ none
  buf : ∀ buf, c.buf = some buf → (c.key, buf) ∈ offered
  task : ∀ task, c.task = some task → task.accept.serveInternal = c.key ∧ ∃ buf, (c.key, buf) ∈ offered
  exact : ∀ task arg expectLen, c.task = some task → task.result = some (some arg) →
    task.accept.expectLen = some expectLen → ∃ buf, (c.key, buf) ∈ offered ∧ (expectLen = buf.length → arg = buf)

/-- The streams that are read to their ends are whole. -/
structure Connection.Whole (offered : List ((P × UInt32) × List UInt8)) (c : Connection P N) : Prop where
  ended : c.readsToEnd = true → c.phase = .ended → (c.key, c.delivered) ∈ offered
  called : ∀ task arg, c.task = some task → task.result = some (some arg) → task.accept.expectLen = none →
    (c.key, arg) ∈ offered

namespace Connection

/-- A move leaves to a connection what it is made for and what has been called. -/
structure Same (c c' : Connection P N) : Prop where
  key : c'.key = c.key
  buf : c'.buf = c.buf
  call : ∀ call, c.call = some call → c'.call = some call

section
variable {offered offered' : List ((P × UInt32) × List UInt8)} {c c' : Connection P N}
  {cancelled : List CancellationToken}

theorem Traced.mono (h : c.Traced offered) (hsub : offered ⊆ offered') : c.Traced offered' where
  idle := h.idle
  writing := h.writing
  buf := fun buf hbuf => hsub (h.buf buf hbuf)
  task := by
    intro task htask
    obtain ⟨hkey, buf, hmem⟩ := h.task task htask
    exact ⟨hkey, buf, hsub hmem⟩
  exact := by
    intro task arg expectLen htask hresult hlen
    obtain ⟨buf, hmem, harg⟩ := h.exact task arg expectLen htask hresult hlen
    exact ⟨buf, hsub hmem, harg⟩

theorem Whole.mono (h : c.Whole offered) (hsub : offered ⊆ offered') : c.Whole offered' where
  ended := fun hreads hphase => hsub (h.ended hreads hphase)
  called := fun task arg htask hresult hlen => hsub (h.called task arg htask hresult hlen)

theorem delivered_of_buf {buf : List UInt8} (h : c.buf = some buf) : c.delivered = buf.take c.written := by
  simp [delivered, h]

theorem delivered_of_none (h : c.buf = none) : c.delivered = [] := by simp [delivered, h]

theorem readsToEnd_iff : c.readsToEnd = true ↔
    ∃ task, c.task = some task ∧ task.result = none ∧ task.accept.expectLen = none := by
  simp [readsToEnd, Option.any_eq_true]

theorem call_iff {call : Accept P N × List UInt8} : c.call = some call ↔
    ∃ task arg, c.task = some task ∧ task.result = some (some arg) ∧ call = (task.accept, arg) := by
  simp only [Connection.call, Option.bind_eq_bind, Option.bind_eq_some_iff, Option.join_eq_some_iff]
  constructor
  · rintro ⟨task, htask, arg, hresult, hcall⟩
    exact ⟨task, arg, htask, hresult, (Option.some.inj hcall).symm⟩
  · rintro ⟨task, arg, htask, hresult, rfl⟩
    exact ⟨task, htask, arg, hresult, rfl⟩

theorem read_some {expectLen : Nat} {arg : List UInt8} (h : c.read (some expectLen) = some arg) :
    expectLen ≤ c.delivered.length ∧ arg = c.delivered.take expectLen := by
  by_cases hlen : expectLen ≤ c.delivered.length
  · exact ⟨hlen, by simpa [read, hlen] using h.symm⟩
  · simp [read, hlen] at h

theorem read_none {arg : List UInt8} (h : c.read none = some arg) : c.phase = .ended ∧ arg = c.delivered := by
  by_cases hphase : c.phase = .ended
  · exact ⟨hphase, by simpa [read, hphase] using h.symm⟩
  · simp [read, hphase] at h

theorem send_cases {move : SendMove} (h : c.send cancelled move = some c') :
    (∃ cancel count, move = .write count ∧ c.phase = .writing cancel ∧ c' = { c with written := c.written + count }) ∨
      (∃ cancel, c.phase = .writing cancel ∧ (move = .finish ∧ c.buf = some c.delivered ∨ move = .cancel) ∧
        c' = { c with phase := .ended }) ∨
      move = .fail ∧ c' = { c with phase := .broken } := by
  cases move with
  | write count =>
    simp only [send] at h
    split at h
    · next cancel hphase =>
      split at h
      · cases h
        exact Or.inl ⟨cancel, count, rfl, hphase, rfl⟩
      · cases h
    · cases h
  | finish =>
    simp only [send] at h
    split at h
    · next cancel hphase =>
      split at h
      · next hwhole =>
        cases h
        exact Or.inr (Or.inl ⟨cancel, hphase, Or.inl ⟨rfl, hwhole⟩, rfl⟩)
      · cases h
    · cases h
  | cancel =>
    simp only [send] at h
    split at h
    · next token hphase =>
      split at h
      · cases h
        exact Or.inr (Or.inl ⟨some token, hphase, Or.inr rfl, rfl⟩)
      · cases h
    · cases h
  | fail =>
    cases h
    exact Or.inr (Or.inr ⟨rfl, rfl⟩)

/-- A move of the receive task makes it return. -/
theorem recv_cases {move : RecvMove} (h : c.recv cancelled move = some c') :
    ∃ task result, c.task = some task ∧ task.result = none ∧ c' = c.returned task result ∧
      ∀ arg, result = some arg → c.read task.accept.expectLen = some arg := by
  unfold recv at h
  split at h
  · next task htask =>
    split at h
    · next hresult =>
      split at h
      · obtain ⟨arg, hread, rfl⟩ := Option.map_eq_some_iff.mp h
        refine ⟨task, some arg, htask, hresult, rfl, ?_⟩
        rintro _ ⟨⟩
        exact hread
      · split at h
        · cases h
          exact ⟨task, none, htask, hresult, rfl, nofun⟩
        · cases h
      · split at h
        · cases h
          exact ⟨task, none, htask, hresult, rfl, nofun⟩
        · cases h
    · cases h
  · cases h

theorem send_cancel (h : c.send cancelled .cancel = some c') :
    (∃ cancel, c.phase = .writing cancel) ∧ c' = { c with phase := .ended } := by
  rcases send_cases h with ⟨_, _, hmove, _⟩ | ⟨cancel, hphase, -, rfl⟩ | ⟨hmove, _⟩
  · cases hmove
  · exact ⟨⟨cancel, hphase⟩, rfl⟩
  · cases hmove

theorem send_same {move : SendMove} (h : c.send cancelled move = some c') : c.Same c' := by
  rcases send_cases h with ⟨_, _, _, _, rfl⟩ | ⟨_, _, _, rfl⟩ | ⟨_, rfl⟩ <;> exact ⟨rfl, rfl, fun _ hcall => hcall⟩

theorem recv_same {move : RecvMove} (h : c.recv cancelled move = some c') : c.Same c' := by
  obtain ⟨task, _, htask, hresult, rfl, _⟩ := recv_cases h
  refine ⟨rfl, rfl, fun call hcall => ?_⟩
  obtain ⟨task, arg, htask', hresult', -⟩ := call_iff.mp hcall
  rw [htask] at htask'
  cases htask'
  rw [hresult] at hresult'
  cases hresult'

theorem Traced.send {move : SendMove} (h : c.Traced offered) (hsend : c.send cancelled move = some c') :
    c'.Traced offered := by
  rcases send_cases hsend with ⟨_, _, _, _, rfl⟩ | ⟨_, _, _, rfl⟩ | ⟨_, rfl⟩
  · exact { h with }
  · exact { h with idle := nofun, writing := nofun }
  · exact { h with idle := nofun, writing := nofun }

/-- What `read_exact` reads is the whole buffer if the length is. -/
theorem read_exact (h : c.Traced offered) {task : RecvTask P N} (htask : c.task = some task) {expectLen : Nat}
    {arg : List UInt8} (hread : c.read (some expectLen) = some arg) :
    ∃ buf, (c.key, buf) ∈ offered ∧ (expectLen = buf.length → arg = buf) := by
  obtain ⟨hlen, rfl⟩ := read_some hread
  cases hbuf : c.buf with
  | none =>
    obtain ⟨-, buf, hmem⟩ := h.task task htask
    refine ⟨buf, hmem, fun heq => ?_⟩
    rw [delivered_of_none hbuf] at hlen ⊢
    have : buf.length = 0 := by
      rw [← heq]
      exact Nat.le_zero.mp hlen
    rw [List.eq_nil_of_length_eq_zero this, List.take_nil]
  | some buf =>
    refine ⟨buf, h.buf buf hbuf, fun heq => ?_⟩
    rw [delivered_of_buf hbuf] at hlen ⊢
    rw [List.length_take] at hlen
    rw [List.take_take, List.take_of_length_le (by omega)]

theorem Traced.recv {move : RecvMove} (h : c.Traced offered) (hrecv : c.recv cancelled move = some c') :
    c'.Traced offered := by
  obtain ⟨task, result, htask, -, rfl, hread⟩ := recv_cases hrecv
  refine { h with task := ?_, exact := ?_ }
  · rintro _ ⟨⟩
    exact h.task task htask
  · rintro _ arg expectLen ⟨⟩ hresult hlen
    have hread := hread arg (Option.some.inj hresult)
    rw [show task.accept.expectLen = some expectLen from hlen] at hread
    exact read_exact h htask hread

theorem Whole.recv {move : RecvMove} (h : c.Whole offered) (hrecv : c.recv cancelled move = some c') :
    c'.Whole offered := by
  obtain ⟨task, result, htask, hrunning, rfl, hread⟩ := recv_cases hrecv
  refine ⟨fun hreads => ?_, ?_⟩
  · obtain ⟨_, ⟨⟩, hresult, -⟩ := readsToEnd_iff.mp hreads
    cases hresult
  · rintro _ arg ⟨⟩ hresult hlen
    have hread := hread arg (Option.some.inj hresult)
    have hlen : task.accept.expectLen = none := hlen
    rw [hlen] at hread
    obtain ⟨hphase, rfl⟩ := read_none hread
    exact h.ended (readsToEnd_iff.mpr ⟨task, htask, hrunning, hlen⟩) hphase

/-- A stream that is read to its end is not closed in mid-write. -/
theorem Whole.send {move : SendMove} (h : c.Whole offered) (htraced : c.Traced offered)
    (huncut : move = .cancel → c.readsToEnd = true → c.buf = some c.delivered)
    (hsend : c.send cancelled move = some c') : c'.Whole offered := by
  rcases send_cases hsend with ⟨cancel, _, -, hphase, rfl⟩ | ⟨_, _, hmove, rfl⟩ | ⟨-, rfl⟩
  · refine { h with ended := fun _ hended => ?_ }
    rw [hphase] at hended
    cases hended
  · refine { h with ended := fun hreads _ => htraced.buf _ ?_ }
    rcases hmove with ⟨_, hwhole⟩ | hmove
    · exact hwhole
    · exact huncut hmove hreads
  · exact { h with ended := nofun }

end

end Connection

/-! ## The connections that get a buffer -/

/-- No two connections with one key have got a buffer. -/
def Once (connections : List (Connection P N)) : Prop :=
  ∀ (i j : Nat) (c c' : Connection P N), connections[i]? = some c → connections[j]? = some c' →
    c.buf ≠ none → c'.buf ≠ none → c.key = c'.key → i = j

section
variable {connections : List (Connection P N)} {c c' : Connection P N} {n : Nat}

theorem Once.concat (h : Once connections) (hc : c.buf = none) : Once (connections ++ [c]) := by
  have hold : ∀ (i : Nat) (c' : Connection P N), (connections ++ [c])[i]? = some c' → c'.buf ≠ none → connections[i]? = some c' := by
    intro i c' hi hbuf
    rw [List.getElem?_append] at hi
    split at hi
    · exact hi
    · obtain rfl := List.mem_singleton.mp (List.mem_of_getElem? hi)
      exact absurd hc hbuf
  intro i j c₁ c₂ hi hj hbuf₁ hbuf₂ hkey
  exact h i j c₁ c₂ (hold i c₁ hi hbuf₁) (hold j c₂ hj hbuf₂) hbuf₁ hbuf₂ hkey

theorem Once.set (h : Once connections) (hc : connections[n]? = some c) (hkey : c'.key = c.key)
    (hnew : c'.buf ≠ none → c.buf = none → ∀ other ∈ connections, other.key = c.key → other.buf = none) :
    Once (connections.set n c') := by
  have hother : ∀ (i : Nat) (other : Connection P N), n ≠ i → connections[i]? = some other → c'.buf ≠ none → other.buf ≠ none →
      other.key ≠ c'.key := by
    intro i other hne hi hbuf hbuf' hkey'
    rw [hkey] at hkey'
    by_cases hempty : c.buf = none
    · exact hbuf' (hnew hbuf hempty other (List.mem_of_getElem? hi) hkey')
    · exact hne (h n i c other hc hi hempty hbuf' hkey'.symm)
  intro i j c₁ c₂ hi hj hbuf₁ hbuf₂ hkey₁
  rcases getElem?_set_cases hi with ⟨hin, rfl⟩ | ⟨hin, hi'⟩ <;> rcases getElem?_set_cases hj with ⟨hjn, rfl⟩ | ⟨hjn, hj'⟩
  · rw [hin, hjn]
  · exact absurd hkey₁.symm (hother j c₂ (Ne.symm hjn) hj' hbuf₁ hbuf₂)
  · exact absurd hkey₁ (hother i c₁ (Ne.symm hin) hi' hbuf₂ hbuf₁)
  · exact h i j c₁ c₂ hi' hj' hbuf₁ hbuf₂ hkey₁

end

/-! ## What holds in every run -/

structure System.Tracked (s : System P A M N) : Prop where
  ids : ∀ key buf, (key, buf) ∈ s.offered → key.2.toNat ≤ (s.session key.1).id.toNat
  keys : (s.offered.map Prod.fst).Nodup
  pending : ∀ addr id buf cancel, (s.session addr).pendingAccept id = some (buf, cancel) → ((addr, id), buf) ∈ s.offered
  sent : ∀ entry ∈ s.sent, ∃ buf, ((entry.2.addr, entry.2.id), buf) ∈ s.offered
  recvOffers : ∀ addr, ∀ recvOffer ∈ s.recvOffers addr, ∀ key, recvOffer.serveInternal = some key →
    ∃ buf, (key, buf) ∈ s.offered
  traced : ∀ c ∈ s.connections, c.Traced s.offered
  taken : ∀ c ∈ s.connections, c.buf ≠ none → (s.session c.key.1).pendingAccept c.key.2 = none
  once : Once s.connections
  recvEvents : ∀ addr, ∀ event ∈ s.recvEvents addr, ∃ call ∈ s.calls, event = call.1.intoRecvEvent call.2

theorem tracked_init : ({} : System P A M N).Tracked where
  ids := fun _ _ hmem => absurd hmem List.not_mem_nil
  keys := List.nodup_nil
  pending := fun _ _ _ _ hentry => nomatch hentry
  sent := fun _ hmem => absurd hmem List.not_mem_nil
  recvOffers := fun _ _ hmem => absurd hmem List.not_mem_nil
  traced := fun _ hmem => absurd hmem List.not_mem_nil
  taken := fun _ hmem => absurd hmem List.not_mem_nil
  once := fun _ _ _ _ hi => absurd (List.mem_of_getElem? hi) List.not_mem_nil
  recvEvents := fun _ _ hmem => absurd hmem List.not_mem_nil

namespace System

theorem Tracked.buf_eq {s : System P A M N} (h : s.Tracked) {key : P × UInt32} {buf buf' : List UInt8}
    (hbuf : (key, buf) ∈ s.offered) (hbuf' : (key, buf') ∈ s.offered) : buf = buf' :=
  congrArg Prod.snd (List.inj_on_of_nodup_map h.keys hbuf hbuf' rfl)

variable {s s' : System P A M N} {n : Nat} {c c' : Connection P N}

theorem Tracked.fresh (h : s.Tracked) {addr : P} {id : UInt32} (hid : (s.session addr).id.toNat < id.toNat)
    {key : P × UInt32} {buf : List UInt8} (hmem : (key, buf) ∈ s.offered) : key ≠ (addr, id) := by
  rintro rfl
  exact Nat.not_le_of_lt hid (h.ids _ buf hmem)

theorem calls_set (hc : s.connections[n]? = some c) (hcall : ∀ call, c.call = some call → c'.call = some call) :
    s.calls ⊆ (s.setConnection n c').calls := by
  intro call hmem
  obtain ⟨c₁, hc₁, hcall₁⟩ := List.mem_filterMap.mp hmem
  refine List.mem_filterMap.mpr ?_
  rcases eq_or_mem_set hc hc₁ with rfl | hc₁
  · exact ⟨c', List.mem_set (List.getElem?_eq_some_iff.mp hc).1 c', hcall call hcall₁⟩
  · exact ⟨c₁, hc₁, hcall₁⟩

theorem mem_calls {call : Accept P N × List UInt8} (h : s.Tracked) (hcall : call ∈ s.calls) :
    ∃ c ∈ s.connections, ∃ task, c.task = some task ∧ task.result = some (some call.2) ∧ task.accept = call.1 ∧
      call.1.serveInternal = c.key := by
  obtain ⟨c, hc, hcall⟩ := List.mem_filterMap.mp hcall
  obtain ⟨task, arg, htask, hresult, rfl⟩ := Connection.call_iff.mp hcall
  exact ⟨c, hc, task, htask, hresult, rfl, ((h.traced c hc).task task htask).1⟩

theorem Tracked.setConnection (h : s.Tracked) (hc : s.connections[n]? = some c) (hkey : c'.key = c.key)
    (htraced : c'.Traced s.offered) (hcall : ∀ call, c.call = some call → c'.call = some call)
    (hnew : c'.buf ≠ none → c.buf = none → (s.session c.key.1).pendingAccept c.key.2 = none ∧
      ∀ other ∈ s.connections, other.key = c.key → other.buf = none) :
    (s.setConnection n c').Tracked := by
  refine { h with traced := ?_, taken := ?_, recvEvents := ?_
                  once := h.once.set hc hkey fun hbuf hempty => (hnew hbuf hempty).2 }
  · intro c₁ hc₁
    rcases List.mem_or_eq_of_mem_set hc₁ with hc₁ | rfl
    · exact h.traced c₁ hc₁
    · exact htraced
  · intro c₁ hc₁ hbuf
    rcases List.mem_or_eq_of_mem_set hc₁ with hc₁ | rfl
    · exact h.taken c₁ hc₁ hbuf
    · rw [hkey]
      by_cases hempty : c.buf = none
      · exact (hnew hbuf hempty).1
      · exact h.taken c (List.mem_of_getElem? hc) hempty
  · intro addr event hmem
    obtain ⟨call, hmem, hevent⟩ := h.recvEvents addr event hmem
    exact ⟨call, calls_set hc hcall hmem, hevent⟩

theorem Tracked.setSame (h : s.Tracked) (hc : s.connections[n]? = some c) (hsame : c.Same c')
    (htraced : c'.Traced s.offered) : (s.setConnection n c').Tracked :=
  h.setConnection hc hsame.key htraced hsame.call fun hbuf hempty => absurd (hsame.buf.trans hempty) hbuf

theorem Tracked.connect (h : s.Tracked) (htraced : c.Traced s.offered) (hbuf : c.buf = none) :
    (s.connect c).Tracked := by
  refine { h with traced := ?_, taken := ?_, once := h.once.concat hbuf, recvEvents := ?_ }
  · intro c₁ hc₁
    rcases List.mem_append.mp hc₁ with hc₁ | hc₁
    · exact h.traced c₁ hc₁
    · rw [List.mem_singleton.mp hc₁]
      exact htraced
  · intro c₁ hc₁ hbuf₁
    rcases List.mem_append.mp hc₁ with hc₁ | hc₁
    · exact h.taken c₁ hc₁ hbuf₁
    · rw [List.mem_singleton.mp hc₁] at hbuf₁
      exact absurd hbuf hbuf₁
  · intro addr event hmem
    obtain ⟨call, hmem, hevent⟩ := h.recvEvents addr event hmem
    refine ⟨call, ?_, hevent⟩
    rw [calls, System.connect, List.filterMap_append]
    exact List.mem_append_left _ hmem

theorem traced_new {offered : List ((P × UInt32) × List UInt8)} {key : P × UInt32} {task : Option (RecvTask P N)}
    (htask : ∀ t, task = some t → t.result = none ∧ t.accept.serveInternal = key ∧ ∃ buf, (key, buf) ∈ offered) :
    ({ key := key, task := task } : Connection P N).Traced offered where
  idle := fun _ => rfl
  writing := nofun
  buf := nofun
  task := fun t ht => (htask t ht).2
  exact := by
    intro t _ _ ht hresult
    rw [(htask t ht).1] at hresult
    cases hresult

theorem join_same {task : RecvTask P N} (htask : c.task = some task) :
    c.Same { c with task := some { task with joined := true } } := by
  refine ⟨rfl, rfl, fun call hcall => ?_⟩
  obtain ⟨task', arg, htask', hresult, rfl⟩ := Connection.call_iff.mp hcall
  rw [htask] at htask'
  cases htask'
  exact Connection.call_iff.mpr ⟨_, arg, rfl, hresult, rfl⟩

theorem whole_set (h : ∀ c ∈ s.connections, c.Whole s.offered) (hwhole : c'.Whole s.offered) :
    ∀ c ∈ (s.setConnection n c').connections, c.Whole s.offered := by
  intro c₁ hc₁
  rcases List.mem_or_eq_of_mem_set hc₁ with hc₁ | rfl
  · exact h c₁ hc₁
  · exact hwhole

theorem whole_connect (h : ∀ c ∈ s.connections, c.Whole s.offered) {key : P × UInt32} {task : Option (RecvTask P N)}
    (htask : ∀ t, task = some t → t.result = none) :
    ∀ c ∈ s.connections ++ [{ key := key, task := task }], c.Whole s.offered := by
  intro c hc
  rcases List.mem_append.mp hc with hc | hc
  · exact h c hc
  · rw [List.mem_singleton.mp hc]
    refine ⟨nofun, fun t arg ht hresult => ?_⟩
    rw [htask t ht] at hresult
    cases hresult

variable [DecidableEq P]

/-- An entry of `pending_accept` may be removed at any time. -/
theorem Tracked.removePending (h : s.Tracked) {addr : P} {session : Session} {id : UInt32}
    (hid : session.id = (s.session addr).id)
    (hpending : session.pendingAccept = Function.update (s.session addr).pendingAccept id none) :
    (s.setSession addr session).Tracked := by
  refine { h with ids := ?_, pending := ?_, taken := ?_ }
  · intro key buf hmem
    simp only [setSession, Function.update_apply]
    split
    · next haddr =>
      rw [hid, ← haddr]
      exact h.ids key buf hmem
    · exact h.ids key buf hmem
  · intro addr' id' buf cancel hentry
    simp only [setSession, Function.update_apply] at hentry
    split at hentry
    · next haddr =>
      rw [hpending, Function.update_apply] at hentry
      split at hentry
      · cases hentry
      · rw [haddr]
        exact h.pending addr id' buf cancel hentry
    · exact h.pending addr' id' buf cancel hentry
  · intro c hc hbuf
    have := h.taken c hc hbuf
    simp only [setSession, Function.update_apply]
    split
    · next haddr =>
      rw [hpending, Function.update_apply]
      split
      · rfl
      · rw [← haddr]
        exact this
    · exact this

theorem Tracked.setRecvOffers (h : s.Tracked) {addr : P} {recvOffers : List (RecvOffer P M)}
    (hoffers : ∀ recvOffer ∈ recvOffers, ∀ key, recvOffer.serveInternal = some key → ∃ buf, (key, buf) ∈ s.offered) :
    (s.setRecvOffers addr recvOffers).Tracked := by
  refine { h with recvOffers := ?_ }
  intro addr' recvOffer hmem
  simp only [System.setRecvOffers, Function.update_apply] at hmem
  split at hmem
  · exact hoffers recvOffer hmem
  · exact h.recvOffers addr' recvOffer hmem

theorem offer_cases {addr : P} {offer : Offer A M} (hoffer : s.offer addr offer = some s') :
    ∃ session : Session, session.id.toNat = (s.session addr).id.toNat + 1 ∧
      session.pendingAccept =
        Function.update (s.session addr).pendingAccept session.id (some (offer.buf, offer.cancel)) ∧
      s' = { s.setSession addr session with
        sent := s.sent ++ [(offer.dest, ⟨offer.message, addr, session.id⟩)]
        offered := s.offered ++ [((addr, session.id), offer.buf)] } := by
  obtain ⟨⟨session, serve⟩, honOffer, hs'⟩ := Option.map_eq_some_iff.mp hoffer
  unfold Session.onOffer at honOffer
  split at honOffer
  · next hid =>
    cases honOffer
    refine ⟨_, ?_, rfl, hs'.symm⟩
    rw [UInt32.toNat_add, UInt32.toNat_one, Nat.mod_eq_of_lt hid]
  · cases honOffer

theorem Tracked.offer (h : s.Tracked) {addr : P} {offer : Offer A M} (hoffer : s.offer addr offer = some s') :
    s'.Tracked ∧ s.offered ⊆ s'.offered ∧ s'.connections = s.connections := by
  obtain ⟨session, hid, hpending, rfl⟩ := offer_cases hoffer
  have hlt : (s.session addr).id.toNat < session.id.toNat := by omega
  have hsub : s.offered ⊆ s.offered ++ [((addr, session.id), offer.buf)] := List.subset_append_left ..
  have hnew : ((addr, session.id), offer.buf) ∈ s.offered ++ [((addr, session.id), offer.buf)] := by simp
  refine ⟨?_, hsub, rfl⟩
  refine { h with ids := ?_, keys := ?_, pending := ?_, sent := ?_, recvOffers := ?_, traced := ?_, taken := ?_ }
  · intro key buf hmem
    simp only [setSession, Function.update_apply]
    rcases List.mem_append.mp hmem with hmem | hmem
    · have hle := h.ids key buf hmem
      split
      · next haddr =>
        rw [haddr] at hle
        omega
      · exact hle
    · obtain ⟨rfl, rfl⟩ := Prod.mk.inj (List.mem_singleton.mp hmem)
      simp
  · rw [List.map_append]
    refine List.Nodup.append h.keys (List.nodup_singleton _) ?_
    intro key hmem hkey
    obtain ⟨⟨key', buf⟩, hold, rfl⟩ := List.mem_map.mp hmem
    exact h.fresh hlt hold (List.mem_singleton.mp hkey)
  · intro addr' id buf cancel hentry
    simp only [setSession, Function.update_apply] at hentry
    split at hentry
    · next haddr =>
      rw [hpending, Function.update_apply] at hentry
      rw [haddr]
      split at hentry
      · next hid' =>
        cases hentry
        rw [hid']
        exact hnew
      · exact hsub (h.pending addr id buf cancel hentry)
    · exact hsub (h.pending addr' id buf cancel hentry)
  · intro entry hmem
    rcases List.mem_append.mp hmem with hmem | hmem
    · obtain ⟨buf, hbuf⟩ := h.sent entry hmem
      exact ⟨buf, hsub hbuf⟩
    · rw [List.mem_singleton.mp hmem]
      exact ⟨offer.buf, hnew⟩
  · intro addr' recvOffer hmem key hkey
    obtain ⟨buf, hbuf⟩ := h.recvOffers addr' recvOffer hmem key hkey
    exact ⟨buf, hsub hbuf⟩
  · exact fun c hc => (h.traced c hc).mono hsub
  · intro c hc hbuf
    have htaken := h.taken c hc hbuf
    obtain ⟨buf, hbuf⟩ := Option.ne_none_iff_exists'.mp hbuf
    have hne := h.fresh hlt ((h.traced c hc).buf buf hbuf)
    simp only [setSession, Function.update_apply]
    split
    · next haddr =>
      rw [hpending, Function.update_apply, if_neg fun hid' => hne (Prod.ext haddr hid'), ← haddr]
      exact htaken
    · exact htaken

theorem Tracked.joinNextCancel (h : s.Tracked) {addr : P} (hjoin : s.joinNextCancel addr n = some s') :
    s'.Tracked ∧ s'.offered = s.offered ∧ s'.connections = s.connections := by
  obtain ⟨⟨id, cancel⟩, -, hjoin⟩ := Option.bind_eq_some_iff.mp hjoin
  dsimp only at hjoin
  split at hjoin
  · cases hjoin
    exact ⟨h.removePending rfl rfl, rfl, rfl⟩
  · cases hjoin

theorem Tracked.recvServe (h : s.Tracked) {addr : P} (hrecv : s.recvServe addr n = some s') :
    s'.Tracked ∧ s'.offered = s.offered ∧ s'.connections = s.connections := by
  obtain ⟨entry, hentry, rfl⟩ := Option.map_eq_some_iff.mp hrecv
  refine ⟨h.setRecvOffers fun recvOffer hmem key hkey => ?_, rfl, rfl⟩
  rcases List.mem_append.mp hmem with hmem | hmem
  · exact h.recvOffers addr recvOffer hmem key hkey
  · obtain rfl := List.mem_singleton.mp hmem
    cases hkey
    exact h.sent entry (List.mem_of_getElem? hentry)

/-- An offer that is accepted is connected to by the task of the receiver. -/
theorem Tracked.accept (h : s.Tracked) {addr : P} {expectLen : Option Nat} {intoRecvEvent : List UInt8 → N}
    {cancel : Option CancellationToken} (haccept : s.accept addr n expectLen intoRecvEvent cancel = some s') :
    s'.Tracked ∧ s'.offered = s.offered ∧
      ∃ key task, s'.connections = s.connections ++ [{ key := key, task := some task }] ∧ task.result = none := by
  obtain ⟨recvOffer, hget, haccept⟩ := Option.bind_eq_some_iff.mp haccept
  obtain ⟨⟨recvOffer', accept⟩, htake, haccept⟩ := Option.bind_eq_some_iff.mp haccept
  cases haccept
  obtain ⟨key, hkey, htake⟩ := Option.map_eq_some_iff.mp htake
  cases htake
  have hoffered := h.recvOffers addr recvOffer (List.mem_of_getElem? hget) key hkey
  refine ⟨(h.setRecvOffers ?_).connect (traced_new ?_) rfl, rfl, key, _, rfl, rfl⟩
  · intro recvOffer' hmem key' hkey'
    rcases List.mem_or_eq_of_mem_set hmem with hmem | rfl
    · exact h.recvOffers addr recvOffer' hmem key' hkey'
    · cases hkey'
  · rintro t ⟨⟩
    exact ⟨rfl, rfl, hoffered⟩

theorem incoming_cases (hincoming : s.incoming n = some s') :
    ∃ c, s.connections[n]? = some c ∧ c.phase = .waiting ∧
      s' = (s.setSession c.key.1 ((s.session c.key.1).removePending c.key.2)).setConnection n
        (c.serve ((s.session c.key.1).pendingAccept c.key.2)) := by
  obtain ⟨c, hc, hincoming⟩ := Option.bind_eq_some_iff.mp hincoming
  dsimp only at hincoming
  split at hincoming
  · next hphase => exact ⟨c, hc, hphase, (Option.some.inj hincoming).symm⟩
  · cases hincoming

/-- A buffer leaves `pending_accept` for one connection. -/
theorem Tracked.incoming (h : s.Tracked) (hincoming : s.incoming n = some s') : s'.Tracked := by
  obtain ⟨c, hc, hphase, rfl⟩ := incoming_cases hincoming
  have hmem := List.mem_of_getElem? hc
  have htraced := h.traced c hmem
  have hremoved : (s.setSession c.key.1 ((s.session c.key.1).removePending c.key.2)).Tracked := h.removePending rfl rfl
  cases hpending : (s.session c.key.1).pendingAccept c.key.2 with
  | none => exact hremoved.setSame hc ⟨rfl, rfl, fun _ hcall => hcall⟩ { htraced with idle := nofun, writing := nofun }
  | some entry =>
    obtain ⟨buf, cancel⟩ := entry
    have hoffered := h.pending _ _ _ _ hpending
    refine hremoved.setConnection hc rfl { htraced with idle := nofun, writing := ?_, buf := ?_ }
      (fun _ hcall => hcall) fun _ _ => ⟨?_, ?_⟩
    · exact fun _ _ => Option.some_ne_none _
    · rintro _ ⟨⟩
      exact hoffered
    · simp [setSession, Session.removePending]
    · intro other hother hkey
      by_contra hbuf
      have := h.taken other hother hbuf
      rw [hkey, hpending] at this
      cases this

theorem joinNextRecv_cases (hjoin : s.joinNextRecv n = some s') :
    ∃ c task result, s.connections[n]? = some c ∧ c.task = some task ∧ task.result = some result ∧
      s' = { s.setConnection n { c with task := some { task with joined := true } } with
        recvEvents := Function.update s.recvEvents task.receiver
          (s.recvEvents task.receiver ++ (result.map task.accept.intoRecvEvent).toList) } := by
  obtain ⟨c, hc, hjoin⟩ := Option.bind_eq_some_iff.mp hjoin
  obtain ⟨task, htask, hjoin⟩ := Option.bind_eq_some_iff.mp hjoin
  obtain ⟨result, hresult, hjoin⟩ := Option.bind_eq_some_iff.mp hjoin
  dsimp only at hjoin
  split at hjoin
  · cases hjoin
  · exact ⟨c, task, result, hc, htask, hresult, (Option.some.inj hjoin).symm⟩

theorem Tracked.joinNextRecv (h : s.Tracked) (hjoin : s.joinNextRecv n = some s') : s'.Tracked := by
  obtain ⟨c, task, result, hc, htask, hresult, rfl⟩ := joinNextRecv_cases hjoin
  have htraced := h.traced c (List.mem_of_getElem? hc)
  have hset : (s.setConnection n { c with task := some { task with joined := true } }).Tracked := by
    refine h.setSame hc (join_same htask) { htraced with task := ?_, exact := ?_ }
    · rintro _ ⟨⟩
      exact htraced.task task htask
    · rintro _ arg expectLen ⟨⟩ hresult' hlen
      exact htraced.exact task arg expectLen htask hresult' hlen
  refine { hset with recvEvents := ?_ }
  intro addr event hmem
  simp only [Function.update_apply] at hmem
  split at hmem
  · rcases List.mem_append.mp hmem with hmem | hmem
    · exact hset.recvEvents _ event hmem
    · obtain ⟨arg, rfl, rfl⟩ := Option.map_eq_some_iff.mp (Option.mem_toList.mp hmem)
      have hcall : c.call = some (task.accept, arg) := Connection.call_iff.mpr ⟨task, arg, htask, hresult, rfl⟩
      refine ⟨(task.accept, arg), calls_set hc (join_same htask).call ?_, rfl⟩
      exact List.mem_filterMap.mpr ⟨c, List.mem_of_getElem? hc, hcall⟩
  · exact hset.recvEvents addr event hmem

theorem Tracked.step (h : s.Tracked) {move : Move P A M N} (hs : s.step move = some s') : s'.Tracked := by
  cases move with
  | offer addr offer => exact (h.offer hs).1
  | cancel token =>
    cases hs
    exact { h with }
  | joinNextCancel addr index => exact (h.joinNextCancel hs).1
  | recvServe addr index => exact (h.recvServe hs).1
  | accept addr index expectLen intoRecvEvent cancel => exact (h.accept hs).1
  | connect addr id =>
    cases hs
    exact h.connect (traced_new nofun) rfl
  | incoming index => exact h.incoming hs
  | send index move =>
    obtain ⟨c, hc, hs⟩ := Option.bind_eq_some_iff.mp hs
    obtain ⟨c', hsend, hs⟩ := Option.bind_eq_some_iff.mp hs
    cases hs
    exact h.setSame hc (Connection.send_same hsend) ((h.traced c (List.mem_of_getElem? hc)).send hsend)
  | recv index move =>
    obtain ⟨c, hc, hs⟩ := Option.bind_eq_some_iff.mp hs
    obtain ⟨c', hrecv, hs⟩ := Option.bind_eq_some_iff.mp hs
    cases hs
    exact h.setSame hc (Connection.recv_same hrecv) ((h.traced c (List.mem_of_getElem? hc)).recv hrecv)
  | joinNextRecv index => exact h.joinNextRecv hs

theorem tracked_reach {C : System P A M N → Move P A M N → Prop} (h : (bulkMachine P A M N).Reach C s) : s.Tracked := by
  refine h.invariant ?_ fun s move s' _ htracked _ hs => htracked.step hs
  rintro _ rfl
  exact tracked_init

/-! ## Streams that are not cut -/

/-- No stream that a receiver reads to the end is cut: when the id comes, its
buffer is there or is empty, and when the send task is cancelled, it has written
the buffer. -/
def Uncut (s : System P A M N) : Move P A M N → Prop
  | .incoming index => ∀ c ∈ s.connections[index]?, c.readsToEnd = true →
    (s.session c.key.1).pendingAccept c.key.2 ≠ none ∨ (c.key, []) ∈ s.offered
  | .send index .cancel => ∀ c ∈ s.connections[index]?, c.readsToEnd = true → c.buf = some c.delivered
  | _ => True

instance : (s : System P A M N) → (move : Move P A M N) → Decidable (s.Uncut move)
  | s, .incoming index => inferInstanceAs (Decidable (∀ c ∈ s.connections[index]?, c.readsToEnd = true →
    (s.session c.key.1).pendingAccept c.key.2 ≠ none ∨ (c.key, []) ∈ s.offered))
  | s, .send index .cancel =>
    inferInstanceAs (Decidable (∀ c ∈ s.connections[index]?, c.readsToEnd = true → c.buf = some c.delivered))
  | _, .send _ (.write _) | _, .send _ .finish | _, .send _ .fail | _, .offer .. | _, .cancel _
  | _, .joinNextCancel .. | _, .recvServe .. | _, .accept .. | _, .connect .. | _, .recv .. | _, .joinNextRecv _ =>
    instDecidableTrue

theorem whole_incoming (h : s.Tracked) (hwhole : ∀ c ∈ s.connections, c.Whole s.offered)
    (huncut : s.Uncut (.incoming n)) (hincoming : s.incoming n = some s') :
    ∀ c ∈ s'.connections, c.Whole s'.offered := by
  obtain ⟨c, hc, hphase, rfl⟩ := incoming_cases hincoming
  have hmem := List.mem_of_getElem? hc
  refine whole_set hwhole ?_
  cases hpending : (s.session c.key.1).pendingAccept c.key.2 with
  | none =>
    refine { hwhole c hmem with ended := fun hreads _ => ?_ }
    rcases huncut c hc hreads with hentry | hempty
    · exact absurd hpending hentry
    · have hdelivered : c.delivered = [] := Connection.delivered_of_none ((h.traced c hmem).idle hphase)
      rw [← hdelivered] at hempty
      exact hempty
  | some entry => exact { hwhole c hmem with ended := nofun }

theorem whole_step (h : s.Tracked) (hwhole : ∀ c ∈ s.connections, c.Whole s.offered) {move : Move P A M N}
    (huncut : s.Uncut move) (hs : s.step move = some s') : ∀ c ∈ s'.connections, c.Whole s'.offered := by
  cases move with
  | offer addr offer =>
    obtain ⟨-, hsub, hconnections⟩ := h.offer hs
    rw [hconnections]
    exact fun c hc => (hwhole c hc).mono hsub
  | cancel token =>
    cases hs
    exact hwhole
  | joinNextCancel addr index =>
    obtain ⟨-, hoffered, hconnections⟩ := h.joinNextCancel hs
    rw [hconnections, hoffered]
    exact hwhole
  | recvServe addr index =>
    obtain ⟨-, hoffered, hconnections⟩ := h.recvServe hs
    rw [hconnections, hoffered]
    exact hwhole
  | accept addr index expectLen intoRecvEvent cancel =>
    obtain ⟨-, hoffered, key, task, hconnections, hresult⟩ := h.accept hs
    rw [hconnections, hoffered]
    refine whole_connect hwhole ?_
    rintro _ ⟨⟩
    exact hresult
  | connect addr id =>
    cases hs
    exact whole_connect hwhole nofun
  | incoming index => exact whole_incoming h hwhole huncut hs
  | send index move =>
    obtain ⟨c, hc, hs⟩ := Option.bind_eq_some_iff.mp hs
    obtain ⟨c', hsend, hs⟩ := Option.bind_eq_some_iff.mp hs
    cases hs
    have hmem := List.mem_of_getElem? hc
    refine whole_set hwhole ((hwhole c hmem).send (h.traced c hmem) ?_ hsend)
    rintro rfl
    exact huncut c hc
  | recv index move =>
    obtain ⟨c, hc, hs⟩ := Option.bind_eq_some_iff.mp hs
    obtain ⟨c', hrecv, hs⟩ := Option.bind_eq_some_iff.mp hs
    cases hs
    exact whole_set hwhole ((hwhole c (List.mem_of_getElem? hc)).recv hrecv)
  | joinNextRecv index =>
    obtain ⟨c, task, result, hc, htask, hresult, rfl⟩ := joinNextRecv_cases hs
    have hold := hwhole c (List.mem_of_getElem? hc)
    refine whole_set hwhole ⟨fun hreads => ?_, ?_⟩
    · obtain ⟨_, ⟨⟩, hrunning, -⟩ := Connection.readsToEnd_iff.mp hreads
      cases hresult.symm.trans hrunning
    · rintro _ arg ⟨⟩ hresult' hlen
      exact hold.called task arg htask hresult' hlen

theorem whole_reach (h : (bulkMachine P A M N).Reach Uncut s) : ∀ c ∈ s.connections, c.Whole s.offered := by
  refine h.invariant (I := fun s => ∀ c ∈ s.connections, c.Whole s.offered) ?_ fun s move s' hreach hwhole huncut hs =>
    whole_step (tracked_reach hreach) hwhole huncut hs
  rintro _ rfl
  exact fun c hc => absurd hc List.not_mem_nil

/-- A call of `into_recv_event` is for an offer and, if its length is as
expected, with the whole buffer. -/
def DeliversWhole (s : System P A M N) (call : Accept P N × List UInt8) : Prop :=
  (∃ buf, (call.1.serveInternal, buf) ∈ s.offered) ∧
    ∀ buf, (call.1.serveInternal, buf) ∈ s.offered → (∀ n, call.1.expectLen = some n → n = buf.length) → call.2 = buf

/-- With a length, in every run. -/
theorem delivers_exact {C : System P A M N → Move P A M N → Prop} (h : (bulkMachine P A M N).Reach C s)
    {call : Accept P N × List UInt8} (hcall : call ∈ s.calls) {expectLen : Nat}
    (hlen : call.1.expectLen = some expectLen) : s.DeliversWhole call := by
  have htracked := tracked_reach h
  obtain ⟨c, hc, task, htask, hresult, haccept, hkey⟩ := mem_calls htracked hcall
  rw [← haccept] at hlen
  obtain ⟨buf, hmem, harg⟩ := (htracked.traced c hc).exact task call.2 expectLen htask hresult hlen
  rw [← hkey] at hmem
  refine ⟨⟨buf, hmem⟩, fun buf' hmem' hexpect => ?_⟩
  obtain rfl := htracked.buf_eq hmem hmem'
  rw [haccept] at hlen
  exact harg (hexpect expectLen hlen)

theorem delivers_whole (h : (bulkMachine P A M N).Reach Uncut s) {call : Accept P N × List UInt8}
    (hcall : call ∈ s.calls) : s.DeliversWhole call := by
  cases hlen : call.1.expectLen with
  | some expectLen => exact delivers_exact h hcall hlen
  | none =>
    have htracked := tracked_reach h
    obtain ⟨c, hc, task, htask, hresult, haccept, hkey⟩ := mem_calls htracked hcall
    rw [← haccept] at hlen
    have hmem := (whole_reach h c hc).called task call.2 htask hresult hlen
    rw [← hkey] at hmem
    exact ⟨⟨call.2, hmem⟩, fun buf hmem' _ => htracked.buf_eq hmem hmem'⟩

/-! ## Bulk transfer -/

end System

variable [DecidableEq P]

/-- What receivers are called with is the buffers that were offered, and a
buffer goes to one connection at most. -/
theorem transfers_whole {s : System P A M N} (h : (bulkMachine P A M N).Reach System.Uncut s) :
    (∀ call ∈ s.calls, s.DeliversWhole call) ∧
      (∀ c ∈ s.connections, ∀ buf, c.buf = some buf → (c.key, buf) ∈ s.offered) ∧ Once s.connections := by
  have htracked := System.tracked_reach h
  exact ⟨fun _ hcall => System.delivers_whole h hcall, fun c hc => (htracked.traced c hc).buf, htracked.once⟩

/-- One buffer is read to its end, and a send task that is cancelled in
mid-write gives a receiver that knows the length nothing. -/
theorem transfers_whole_two : ∃ s : System Nat Nat Unit (List UInt8),
    (bulkMachine Nat Nat Unit (List UInt8)).Reach System.Uncut s ∧ s.recvEvents 1 = [[1, 2, 3]] ∧
      ∀ call ∈ s.calls, s.DeliversWhole call := by
  obtain ⟨s, hreach, hevents⟩ := Machine.exists_reach (M := bulkMachine Nat Nat Unit (List UInt8))
    (C := System.Uncut) (fun _ _ _ hs => hs) rfl
    [.offer 0 ⟨1, (), [1, 2, 3], none⟩, .offer 0 ⟨1, (), [4, 5], some 7⟩, .recvServe 1 1, .recvServe 1 0,
      .accept 1 0 (some 2) id none, .accept 1 1 none id none, .incoming 0, .incoming 1, .send 0 (.write 1),
      .send 1 (.write 3), .cancel 7, .send 0 .cancel, .send 1 .finish, .recv 0 .fail, .recv 1 .read,
      .joinNextRecv 0, .joinNextRecv 1]
    (fun s => s.recvEvents 1 = [[1, 2, 3]]) (by decide +kernel)
  exact ⟨s, hreach, hevents, (transfers_whole hreach).1⟩

/-- The entry of an offer times out, and a receiver that accepts it later is
called with an empty buffer. -/
theorem transfer_cut : ∃ s : System Nat Nat Unit (List UInt8),
    (bulkMachine Nat Nat Unit (List UInt8)).Reach Machine.always s ∧
      ∃ call ∈ s.calls, call.1.serveInternal = (0, 1) ∧ call.1.expectLen = none ∧ call.2 = [] ∧
        ((0, 1), [1, 2]) ∈ s.offered ∧ ¬s.DeliversWhole call := by
  obtain ⟨s, hreach, call, hcall, hkey, hlen, harg, hoffered⟩ :=
    Machine.exists_reach (M := bulkMachine Nat Nat Unit (List UInt8)) (C := Machine.always) (fun _ _ _ hs => hs) rfl
    [.offer 0 ⟨1, (), [1, 2], none⟩, .recvServe 1 0, .joinNextCancel 0 0, .accept 1 0 none id none, .incoming 0,
      .recv 0 .read]
    (fun s => ∃ call ∈ s.calls, call.1.serveInternal = (0, 1) ∧ call.1.expectLen = none ∧ call.2 = [] ∧
      ((0, 1), [1, 2]) ∈ s.offered) (by decide +kernel)
  refine ⟨s, hreach, call, hcall, hkey, hlen, harg, hoffered, fun hwhole => ?_⟩
  rw [← hkey] at hoffered
  have := hwhole.2 [1, 2] hoffered fun n hn => nomatch hlen.symm.trans hn
  rw [harg] at this
  cases this

theorem read_misleads {s : System P A M N} (h : s.Tracked) {index : Nat} {c : Connection P N} {buf : List UInt8}
    (hc : s.connections[index]? = some c) (hreads : c.readsToEnd = true) (hphase : c.phase = .ended)
    (hoffered : (c.key, buf) ∈ s.offered) (hne : c.delivered ≠ buf) :
    ∃ s', s.step (.recv index .read) = some s' ∧ ∃ call ∈ s'.calls, ¬s'.DeliversWhole call := by
  obtain ⟨task, htask, hresult, hlen⟩ := Connection.readsToEnd_iff.mp hreads
  have hkey := ((h.traced c (List.mem_of_getElem? hc)).task task htask).1
  have hrecv : c.recv s.cancelled .read = some (c.returned task (some c.delivered)) := by
    simp [Connection.recv, Connection.read, htask, hresult, hlen, hphase]
  refine ⟨s.setConnection index (c.returned task (some c.delivered)), ?_, (task.accept, c.delivered), ?_, ?_⟩
  · simp [System.step, hc, hrecv]
  · refine List.mem_filterMap.mpr ⟨_, List.mem_set (List.getElem?_eq_some_iff.mp hc).1 _, ?_⟩
    exact Connection.call_iff.mpr ⟨_, c.delivered, rfl, rfl, rfl⟩
  · intro hwhole
    rw [← hkey] at hoffered
    refine hne (hwhole.2 buf hoffered fun n hn => ?_)
    cases hlen.symm.trans hn

/-- A stream that is cut may be taken for the buffer. -/
theorem cut_misleads {s s' : System P A M N} (h : (bulkMachine P A M N).Reach Machine.always s)
    {move : Move P A M N} (hcut : ¬s.Uncut move) (hs : s.step move = some s') :
    ∃ index s'', s'.step (.recv index .read) = some s'' ∧ ∃ call ∈ s''.calls, ¬s''.DeliversWhole call := by
  have htracked := System.tracked_reach h
  match move with
  | .incoming index =>
    refine ⟨index, ?_⟩
    have htracked' := htracked.step hs
    obtain ⟨c, hc, hphase, rfl⟩ := System.incoming_cases hs
    simp only [System.Uncut, not_forall, not_or, not_not] at hcut
    obtain ⟨c', hc', hreads, hpending, hempty⟩ := hcut
    cases (Option.mem_def.mp hc').symm.trans hc
    have htraced := htracked.traced c (List.mem_of_getElem? hc)
    obtain ⟨task, htask, -, -⟩ := Connection.readsToEnd_iff.mp hreads
    obtain ⟨-, buf, hoffered⟩ := htraced.task task htask
    rw [hpending] at htracked' ⊢
    refine read_misleads htracked' (List.getElem?_set_self (List.getElem?_eq_some_iff.mp hc).1) hreads rfl hoffered ?_
    intro heq
    have hdelivered : c.delivered = buf := heq
    rw [Connection.delivered_of_none (htraced.idle hphase)] at hdelivered
    rw [← hdelivered] at hoffered
    exact hempty hoffered
  | .send index .cancel =>
    refine ⟨index, ?_⟩
    have htracked' := htracked.step hs
    obtain ⟨c, hc, hs⟩ := Option.bind_eq_some_iff.mp hs
    obtain ⟨c', hsend, hs⟩ := Option.bind_eq_some_iff.mp hs
    cases hs
    obtain ⟨⟨cancel, hphase⟩, rfl⟩ := Connection.send_cancel hsend
    simp only [System.Uncut, not_forall] at hcut
    obtain ⟨c', hc', hreads, hpart⟩ := hcut
    cases (Option.mem_def.mp hc').symm.trans hc
    have htraced := htracked.traced c (List.mem_of_getElem? hc)
    obtain ⟨buf, hbuf⟩ := Option.ne_none_iff_exists'.mp (htraced.writing cancel hphase)
    refine read_misleads htracked' (List.getElem?_set_self (List.getElem?_eq_some_iff.mp hc).1) hreads rfl
      (htraced.buf buf hbuf) fun heq => hpart ?_
    have hdelivered : c.delivered = buf := heq
    rw [hbuf, hdelivered]
  | .send _ (.write _) | .send _ .finish | .send _ .fail | .offer .. | .cancel _ | .joinNextCancel .. | .recvServe ..
  | .accept .. | .connect .. | .recv .. | .joinNextRecv _ => exact absurd trivial hcut

end

end Neatworks.Bulk
