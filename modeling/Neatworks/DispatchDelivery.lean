import Mathlib.Data.List.Perm.Subperm
import Neatworks.DispatchLinks

/-!
# What dispatchers deliver

A buffer that is handed over has been asked for, and as often. When nothing
fails, nothing is lost, also not on the connections that the timers reclaim.
-/

namespace Neatworks.Net

section
variable {A : Type} [DecidableEq A] {preamble : A → Option A} {net net' : Network A} {turn : Turn A} {a b : A}
  {history es : List (Observed A)}

/-! ## Counting buffers -/

section
variable {links : List (Link A)} {link link' : Link A} {i : Nat} {task : Task} {out : Option Bytes} {buf : Bytes}

theorem asked_outgoing (source remote : A) (buf : Bytes) (route : Option Nat) :
    asked a b [.outgoing source remote buf route] = if source = a ∧ remote = b then [buf] else [] := by
  by_cases heq : source = a ∧ remote = b
  · simp [asked, heq]
  · rw [if_neg heq]
    simpa [asked] using fun hsource hremote => heq ⟨hsource, hremote⟩

theorem handed_outgoing (source remote : A) (buf : Bytes) (route : Option Nat) :
    handed a b [.outgoing source remote buf route] = [] :=
  rfl

theorem handed_onBuf (source dest : A) (sender : Nat) (buf : Bytes) :
    handed a b [.onBuf source dest sender buf] = if source = a ∧ dest = b then [buf] else [] := by
  by_cases heq : source = a ∧ dest = b
  · simp [handed, heq]
  · rw [if_neg heq]
    simpa [handed] using fun hsource hdest => heq ⟨hsource, hdest⟩

theorem accounted_set (a b : A) (history es : List (Observed A)) (hlink : links[i]? = some link) (link' : Link A) (x : Bytes) :
    (accounted a b (history ++ es) (links.set i link')).count x + (link.share a b).count x =
      (accounted a b history links).count x + (handed a b es).count x + (link'.share a b).count x := by
  have hsum := sum_map_set (fun l => (l.share a b).count x) link' hlink
  simp only [accounted, handed_append, List.count_append, List.count_flatMap, Function.comp_def]
  omega

theorem accounted_setLink (a b : A) (history : List (Observed A)) (hlink : links[i]? = some link) (link' : Link A) (x : Bytes) :
    (accounted a b history (links.set i link')).count x + (link.share a b).count x =
      (accounted a b history links).count x + (link'.share a b).count x := by
  have hset := accounted_set a b history [] hlink link' x
  rwa [List.append_nil, handed, List.filterMap_nil, List.count_nil, Nat.add_zero] at hset

theorem accounted_append (a b : A) (history es : List (Observed A)) (links : List (Link A)) (link : Link A) (x : Bytes) :
    (accounted a b (history ++ es) (links ++ [link])).count x =
      (accounted a b history links).count x + (handed a b es).count x + (link.share a b).count x := by
  simp only [accounted, handed_append, List.flatMap_append, List.flatMap_singleton, List.count_append]
  omega

theorem Ran.share_le (h : Ran link task link' out) (x : Bytes) :
    (link'.share a b).count x + (if link.source = a ∧ link.dest = b then out.toList else []).count x ≤
      (link.share a b).count x := by
  obtain ⟨hsource, hdest, _⟩ := h.ends
  unfold Link.share
  rw [hsource, hdest]
  split
  · exact h.pending_le x
  · simp

theorem Ran.share_eq (h : Ran link task link' out) (hsound : link.Sound) (hsucceeds : task.succeeds = true) (x : Bytes) :
    (link'.share a b).count x + (if link.source = a ∧ link.dest = b then out.toList else []).count x =
      (link.share a b).count x := by
  obtain ⟨hsource, hdest, _⟩ := h.ends
  unfold Link.share
  rw [hsource, hdest]
  split
  · exact h.pending_eq hsound hsucceeds x
  · simp

theorem Link.share_put_le (link : Link A) (buf x : Bytes) :
    (({ link with queue := link.queue ++ [buf] } : Link A).share a b).count x ≤
      (link.share a b).count x + (if link.source = a ∧ link.dest = b then [buf] else []).count x := by
  unfold Link.share Link.pending
  dsimp only
  split
  · split
    · simp
    · refine Nat.le_of_eq ?_
      rw [← List.append_assoc, List.count_append]
  · simp

theorem Link.share_put (hphase : link.phase ≠ .ended) (buf x : Bytes) :
    (({ link with queue := link.queue ++ [buf] } : Link A).share a b).count x =
      (link.share a b).count x + (if link.source = a ∧ link.dest = b then [buf] else []).count x := by
  unfold Link.share Link.pending
  dsimp only
  split
  · rw [← List.append_assoc, List.count_append]
  · simp

end

/-- No address is told of a connection but its own. -/
def Honest (preamble : A → Option A) : Prop := ∀ a r, preamble a = some r → r = a

def Turn.succeeds : Turn A → Bool
  | .outgoing _ _ buf failed => !failed && decide (buf.length ≤ maxBufLen)
  | .incoming _ ok => ok
  | .task _ t => t.succeeds
  | .onTimer _ => true

theorem remote_eq_of_moved (h : Moved preamble net turn net') (hhonest : Honest preamble)
    (hdest : ∀ link ∈ net.links, link.remote = link.dest) : ∀ link ∈ net'.links, link.remote = link.dest := by
  have hkept : ∀ {i : Nat} {link link' : Link A}, net.links[i]? = some link → link'.remote = link.remote →
      link'.dest = link.dest → ∀ l ∈ net.links.set i link', l.remote = l.dest := by
    intro i link link' hlink hremote hdest' l hl
    rcases List.mem_or_eq_of_mem_set hl with hl | rfl
    · exact hdest l hl
    · rw [hremote, hdest']
      exact hdest link (List.mem_of_getElem? hlink)
  cases h with
  | sent hconnection hlink hopen => exact hkept hlink rfl rfl
  | opened =>
    refine List.forall_mem_append.mpr ⟨hdest, ?_⟩
    simp
  | failed | ticked => exact hdest
  | @accepted sender link hlink hphase =>
    refine List.forall_mem_append.mpr ⟨hkept hlink rfl rfl, fun l hl => ?_⟩
    rw [Option.mem_toList] at hl
    obtain ⟨remote, hremote, rfl⟩ := Option.map_eq_some_iff.mp hl
    exact hhonest _ _ hremote
  | rejected hlink => exact hkept hlink rfl rfl
  | ran hlink hran | handed hlink hran => exact hkept hlink hran.ends.2.2 hran.ends.2.1

/-- With what a turn asks for, no more than before is handed over or on the way,
and as much if the turn does not fail. -/
theorem account_of_moved (h : Moved preamble net turn net') (hcarried : Carried net)
    (hdest : ∀ link ∈ net.links, link.remote = link.dest) (a b : A) (x : Bytes) :
    (accounted a b net'.history net'.links).count x + (asked a b net.history).count x ≤
        (accounted a b net.history net.links).count x + (asked a b net'.history).count x ∧
      (turn.succeeds = true → (∀ link ∈ net.links, link.Sound) →
        (accounted a b net'.history net'.links).count x + (asked a b net.history).count x =
          (accounted a b net.history net.links).count x + (asked a b net'.history).count x) := by
  cases h with
  | @sent source remote buf failed connection link hconnection hlink hopen =>
    obtain ⟨link₀, hlink₀, rfl, hremote⟩ := hcarried.connections source remote connection hconnection
    rw [hlink] at hlink₀
    cases hlink₀
    rw [hdest link (List.mem_of_getElem? hlink)] at hremote
    subst hremote
    have hset := accounted_set a b net.history [.outgoing link.source link.dest buf (some connection.sender)] hlink
      { link with queue := link.queue ++ [buf] } x
    have hle := link.share_put_le (a := a) (b := b) buf x
    rw [handed_outgoing, List.count_nil] at hset
    simp only [asked_append, asked_outgoing, List.count_append]
    refine ⟨by omega, fun _ hsound => ?_⟩
    have heq := Link.share_put (a := a) (b := b) (hsound link (List.mem_of_getElem? hlink)).phase buf x
    omega
  | @opened source remote buf =>
    have happend := accounted_append a b net.history [.outgoing source remote buf (some net.links.length)] net.links
      { source := source, dest := remote, remote := remote, queue := [buf], phase := .connecting } x
    rw [handed_outgoing, List.count_nil] at happend
    simp only [asked_append, asked_outgoing, List.count_append]
    have hshare : Link.share a b
        { source := source, dest := remote, remote := remote, queue := [buf], phase := .connecting } =
        if source = a ∧ remote = b then [buf] else [] :=
      rfl
    rw [hshare] at happend
    exact ⟨by omega, fun _ _ => by omega⟩
  | @failed source remote buf =>
    simp only [accounted, handed_append, handed_outgoing, List.append_nil, asked_append, List.count_append]
    exact ⟨by omega, fun hsucceeds => by simp [Turn.succeeds] at hsucceeds⟩
  | @accepted sender link hlink hphase =>
    have hset := accounted_setLink a b net.history hlink { link with phase := .reading } x
    have hshare : Link.share a b { link with phase := .reading } = link.share a b := by
      simp [Link.share, Link.pending, hphase]
    have hnew :
        (accounted a b (net.incoming preamble sender link).history (net.incoming preamble sender link).links).count x =
        (accounted a b net.history (net.links.set sender { link with phase := .reading })).count x := by
      cases hpreamble : preamble link.source with
      | none => simp [Network.incoming, hpreamble]
      | some remote => simp [Network.incoming, hpreamble, accounted, Link.share, Link.pending]
    have hhistory : (net.incoming preamble sender link).history = net.history := rfl
    rw [hshare] at hset
    rw [hnew, hhistory]
    exact ⟨by omega, fun _ _ => by omega⟩
  | @rejected sender link hlink =>
    have hset := accounted_setLink a b net.history hlink { link with phase := .ended } x
    have hshare : Link.share a b { link with phase := .ended } = [] := by simp [Link.share, Link.pending]
    rw [hshare, List.count_nil] at hset
    refine ⟨?_, fun hsucceeds => nomatch hsucceeds⟩
    simp only [Network.setLink]
    omega
  | @ran sender link link' task hlink hran =>
    have hset := accounted_setLink a b net.history hlink link' x
    have hle := hran.share_le (a := a) (b := b) x
    rw [Option.toList_none, ite_self, List.count_nil] at hle
    simp only [Network.setLink]
    refine ⟨by omega, fun hsucceeds hsound => ?_⟩
    have heq := hran.share_eq (a := a) (b := b) (hsound link (List.mem_of_getElem? hlink)) hsucceeds x
    rw [Option.toList_none, ite_self, List.count_nil] at heq
    omega
  | @handed sender link link' task buf hlink hran =>
    have hset := accounted_set a b net.history [.onBuf link.source link.dest sender buf] hlink link' x
    have hle := hran.share_le (a := a) (b := b) x
    rw [handed_onBuf] at hset
    rw [Option.toList_some] at hle
    have hasked : asked a b [.onBuf link.source link.dest sender buf] = [] := rfl
    simp only [Network.setLink, Network.observe, asked_append, hasked, List.append_nil]
    refine ⟨by omega, fun hsucceeds hsound => ?_⟩
    have heq := hran.share_eq (a := a) (b := b) (hsound link (List.mem_of_getElem? hlink)) hsucceeds x
    rw [Option.toList_some] at heq
    omega
  | @ticked addr =>
    have hnone : handed a b [.onTimer addr] = [] := rfl
    have hasked : asked a b [.onTimer addr] = [] := rfl
    simp only [accounted, handed_append, hnone, List.append_nil, asked_append, hasked]
    exact ⟨Nat.le_refl _, fun _ _ => trivial⟩

/-! ## Whatever fails -/

structure Delivered (net : Network A) : Prop where
  carried : Carried net
  remote_eq : ∀ link ∈ net.links, link.remote = link.dest
  accounted_le : ∀ a b x, (accounted a b net.history net.links).count x ≤ (asked a b net.history).count x

theorem Delivered.init : Delivered ({} : Network A) where
  carried := ⟨fun _ _ h => (nomatch h), fun _ _ => ⟨rfl, rfl⟩, fun _ _ _ h => (nomatch h), fun _ _ _ _ h => (nomatch h),
    fun _ _ _ _ h => (nomatch h)⟩
  remote_eq := fun _ h => nomatch h
  accounted_le := fun _ _ _ => Nat.le_refl _

theorem Delivered.moved (h : Delivered net) (hhonest : Honest preamble) (hmoved : Moved preamble net turn net') :
    Delivered net' := by
  refine ⟨h.carried.moved hmoved, remote_eq_of_moved hmoved hhonest h.remote_eq, fun a b x => ?_⟩
  have hbefore := h.accounted_le a b x
  have haccount := (account_of_moved hmoved h.carried h.remote_eq a b x).1
  omega

theorem Delivered.of_reach (hhonest : Honest preamble) {C : Network A → Turn A → Prop} (h : (network preamble).Reach C net) :
    Delivered net := by
  induction h with
  | init h =>
    rw [show _ = _ from h]
    exact .init
  | next _ _ hs ih => exact ih.moved hhonest (moved_of_step hs)

theorem sound_of_moved (h : Moved preamble net turn net') (hsucceeds : turn.succeeds = true)
    (hsound : ∀ link ∈ net.links, link.Sound) : ∀ link ∈ net'.links, link.Sound := by
  have hset : ∀ {i : Nat} {link' : Link A}, link'.Sound → ∀ l ∈ net.links.set i link', l.Sound := by
    intro i link' hnew l hl
    rcases List.mem_or_eq_of_mem_set hl with hl | rfl
    · exact hsound l hl
    · exact hnew
  cases h with
  | sent hconnection hlink hopen =>
    simp only [Turn.succeeds, Bool.and_eq_true, decide_eq_true_eq] at hsucceeds
    exact hset ((hsound _ (List.mem_of_getElem? hlink)).put hsucceeds.2)
  | @opened source remote buf =>
    simp only [Turn.succeeds, Bool.and_eq_true, decide_eq_true_eq] at hsucceeds
    refine List.forall_mem_append.mpr ⟨hsound, fun l hl => ?_⟩
    rw [List.mem_singleton.mp hl]
    exact ⟨rfl, Phase.noConfusion, fun b hb => by rw [List.mem_singleton.mp hb]; exact hsucceeds.2⟩
  | failed | ticked => exact hsound
  | @accepted sender link hlink hphase =>
    have hlinkSound := hsound link (List.mem_of_getElem? hlink)
    refine List.forall_mem_append.mpr ⟨hset ⟨hlinkSound.isOpen, Phase.noConfusion, hlinkSound.fits⟩, fun l hl => ?_⟩
    rw [Option.mem_toList] at hl
    obtain ⟨remote, _, rfl⟩ := Option.map_eq_some_iff.mp hl
    exact ⟨rfl, Phase.noConfusion, fun b hb => nomatch hb⟩
  | rejected => cases hsucceeds
  | ran hlink hran | handed hlink hran => exact hset (hran.sound (hsound _ (List.mem_of_getElem? hlink)) hsucceeds)

/-- The turns that bring a buffer further. -/
def Turn.drains : Turn A → Bool
  | .incoming _ ok => ok
  | .task _ t => t.succeeds
  | _ => false

/-- How many turns a link can still take. -/
def Link.weight (link : Link A) : Nat :=
  (match link.phase with
    | .connecting => 2
    | .connected => 1
    | _ => 0) + 2 * link.queue.length + link.stream.length

def Network.weight (net : Network A) : Nat := (net.links.map Link.weight).sum

omit [DecidableEq A] in
theorem weight_set {links : List (Link A)} {i : Nat} {link link' : Link A} (hlink : links[i]? = some link)
    (hlt : link'.weight < link.weight) : ((links.set i link').map Link.weight).sum < (links.map Link.weight).sum := by
  have := sum_map_set Link.weight link' hlink
  omega

omit [DecidableEq A] in
theorem Ran.weight_lt {link link' : Link A} {task : Task} {out : Option Bytes} (h : Ran link task link' out)
    (hsound : link.Sound) (hsucceeds : task.succeeds = true) : link'.weight < link.weight := by
  cases h with
  | connected hphase => simp [Link.weight, hphase]
  | refused | broken | hungUp => cases hsucceeds
  | written hqueue =>
    simp only [Link.weight, hqueue, List.length_cons, List.length_append, List.length_nil]
    omega
  | handed hstream =>
    simp only [Link.weight, hstream, List.length_cons]
    omega
  | @long buf stream hstream hlong =>
    have := hsound.fits buf (by simp [hstream])
    omega

/-- A turn that brings a buffer further asks for none, and there are only so many of them. -/
theorem drained_of_moved (h : Moved preamble net turn net') (hdrains : turn.drains = true)
    (hsound : ∀ link ∈ net.links, link.Sound) :
    turn.succeeds = true ∧ net'.weight < net.weight ∧ ∀ a b, asked a b net'.history = asked a b net.history := by
  cases h with
  | sent | opened | failed | ticked => cases hdrains
  | @accepted sender link hlink hphase =>
    have hlt : ((net.links.set sender { link with phase := .reading }).map Link.weight).sum < (net.links.map Link.weight).sum :=
      weight_set hlink (by simp [Link.weight, hphase])
    refine ⟨rfl, ?_, fun a b => rfl⟩
    cases hpreamble : preamble link.source with
    | none => simpa [Network.weight, Network.incoming, hpreamble] using hlt
    | some remote => simpa [Network.weight, Network.incoming, hpreamble, Link.weight] using hlt
  | rejected => cases hdrains
  | ran hlink hran =>
    exact ⟨hdrains, weight_set hlink (hran.weight_lt (hsound _ (List.mem_of_getElem? hlink)) hdrains), fun a b => rfl⟩
  | handed hlink hran =>
    refine ⟨hdrains, weight_set hlink (hran.weight_lt (hsound _ (List.mem_of_getElem? hlink)) hdrains), fun a b => ?_⟩
    simp [Network.setLink, Network.observe, asked]

omit [DecidableEq A] in
/-- As long as a buffer is on the way, some turn brings it further. -/
theorem Link.Sound.drains {link : Link A} (hsound : link.Sound) (hne : link.stream ++ link.queue ≠ []) :
    link.phase = .connected ∨ ∃ task link' out, task.succeeds = true ∧ link.run task = some (link', out) := by
  have hfits := hsound.fits
  cases hphase : link.phase with
  | connected => exact Or.inl rfl
  | ended => exact absurd hphase hsound.phase
  | connecting => exact Or.inr ⟨.connect true, _, _, rfl, by rw [Link.run, if_pos hphase, if_pos rfl]⟩
  | reading =>
    right
    cases hstream : link.stream with
    | cons buf stream =>
      have hlen := hfits buf (by simp [hstream])
      exact ⟨.read, { link with stream := stream }, some buf, rfl, by simp [Link.run, hstream, hphase, hlen]⟩
    | nil =>
      cases hqueue : link.queue with
      | nil => simp [hstream, hqueue] at hne
      | cons buf queue =>
        exact ⟨.write true, { link with queue := queue, stream := link.stream ++ [buf] }, none, rfl,
          by simp [Link.run, hqueue, hphase, hsound.isOpen]⟩

/-- Nothing has failed and nothing is lost. -/
structure Intact (net : Network A) : Prop where
  delivered : Delivered net
  sound : ∀ link ∈ net.links, link.Sound
  accounted_eq : ∀ a b x, (accounted a b net.history net.links).count x = (asked a b net.history).count x

theorem Intact.moved (h : Intact net) (hhonest : Honest preamble) (hmoved : Moved preamble net turn net')
    (hsucceeds : turn.succeeds = true) : Intact net' := by
  refine ⟨h.delivered.moved hhonest hmoved, sound_of_moved hmoved hsucceeds h.sound, fun a b x => ?_⟩
  have hbefore := h.accounted_eq a b x
  have haccount := (account_of_moved hmoved h.delivered.carried h.delivered.remote_eq a b x).2 hsucceeds h.sound
  omega

theorem Intact.of_reach (hhonest : Honest preamble) (h : (network preamble).Reach (fun _ turn => turn.succeeds = true) net) :
    Intact net := by
  induction h with
  | init h =>
    rw [show _ = _ from h]
    exact ⟨.init, fun _ h => (nomatch h), fun _ _ _ => rfl⟩
  | next _ hc hs ih => exact ih.moved hhonest (moved_of_step hs) hc

/-- Turns that bring buffers further. -/
theorem Intact.drained (hhonest : Honest preamble) : ∀ {turns : List (Turn A)} {net net' : Network A}, Intact net →
    (∀ turn ∈ turns, turn.drains = true) → turns.foldlM (Network.step preamble) net = some net' →
    Intact net' ∧ turns.length + net'.weight ≤ net.weight ∧ ∀ a b, asked a b net'.history = asked a b net.history
  | [], _, _, h, _, hrun => by
    cases hrun
    exact ⟨h, by simp, fun _ _ => rfl⟩
  | turn :: turns, net, net', h, hdrains, hrun => by
    rw [List.foldlM_cons] at hrun
    obtain ⟨net₁, hstep, hrun⟩ := Option.bind_eq_some_iff.mp hrun
    obtain ⟨hturn, hrest⟩ := List.forall_mem_cons.mp hdrains
    have hmoved := moved_of_step hstep
    obtain ⟨hsucceeds, hlt, hasked⟩ := drained_of_moved hmoved hturn h.sound
    obtain ⟨hintact, hle, hasked'⟩ := (h.moved hhonest hmoved hsucceeds).drained hhonest hrest hrun
    refine ⟨hintact, ?_, fun a b => (hasked' a b).trans (hasked a b)⟩
    rw [List.length_cons]
    omega

/-- Where no turn brings a buffer further, everything has been handed over. -/
theorem Intact.perm (h : Intact net)
    (hdone : ∀ turn net', turn.drains = true → net.step preamble turn ≠ some net') (a b : A) :
    (asked a b net.history).Perm (handed a b net.history) := by
  have hnone : ∀ link ∈ net.links, link.share a b = [] := by
    intro link hmem
    obtain ⟨i, hlink⟩ := List.mem_iff_getElem?.mp hmem
    by_contra hne
    have hne : link.stream ++ link.queue ≠ [] := by
      intro heq
      simp [Link.share, Link.pending, heq] at hne
    rcases (h.sound link hmem).drains hne with hphase | ⟨task, link', out, hsucceeds, hrun⟩
    · exact hdone (.incoming i true) (net.incoming preamble i link) rfl (by simp [Network.step, hlink, hphase])
    · cases out with
      | none => exact hdone (.task i task) (net.setLink i link') hsucceeds (by simp [Network.step, hlink, hrun])
      | some buf =>
        exact hdone (.task i task) ((net.setLink i link').observe (.onBuf link.source link.dest i buf)) hsucceeds
          (by simp [Network.step, hlink, hrun])
  refine List.perm_iff_count.mpr fun x => ?_
  have heq := h.accounted_eq a b x
  rw [accounted, List.flatMap_eq_nil_iff.mpr hnone, List.append_nil] at heq
  exact heq.symm

/-- Nothing has been sent to `remote` since the last timer at `addr`. -/
def Idle (addr remote : A) (history : List (Observed A)) : Prop :=
  ∃ before after, history = before ++ .onTimer addr :: after ∧ ∀ buf route, .outgoing addr remote buf route ∉ after

section
variable {addr remote : A} {history es : List (Observed A)}

omit [DecidableEq A] in
theorem Idle.append (h : Idle addr remote history) (hes : ∀ buf route, .outgoing addr remote buf route ∉ es) :
    Idle addr remote (history ++ es) := by
  obtain ⟨before, after, rfl, hafter⟩ := h
  refine ⟨before, after ++ es, by simp, fun buf route hmem => ?_⟩
  exact (List.mem_append.mp hmem).elim (hafter buf route) (hes buf route)

omit [DecidableEq A] in
theorem idle_onTimer (addr remote : A) (history : List (Observed A)) : Idle addr remote (history ++ [.onTimer addr]) :=
  ⟨history, [], rfl, fun _ _ => List.not_mem_nil⟩

end

def Unused (net : Network A) : Prop :=
  ∀ a r c, (net.dispatches a).connections r = some c → c.isUsing = false → Idle a r net.history

theorem Unused.moved (h : Unused net) (hmoved : Moved preamble net turn net') : Unused net' := by
  intro a r c hc hunused
  cases hmoved with
  | @sent source remote buf failed connection link hconnection hlink hopen =>
    rcases update_connections hc with ⟨rfl, hnew⟩ | ⟨hne, hold⟩
    · rcases Dispatch.insert_eq_some hnew with ⟨rfl, rfl⟩ | ⟨hne, hold⟩
      · cases hunused
      · exact (h a r c hold hunused).append fun buf' route hmem => by simp [hne] at hmem
    · exact (h a r c hold hunused).append fun buf' route hmem => by simp [hne] at hmem
  | @opened source remote buf =>
    rcases update_connections hc with ⟨rfl, hnew⟩ | ⟨hne, hold⟩
    · rcases Dispatch.insert_eq_some hnew with ⟨rfl, rfl⟩ | ⟨hne, hold⟩
      · cases hunused
      · exact (h a r c hold hunused).append fun buf' route hmem => by simp [hne] at hmem
    · exact (h a r c hold hunused).append fun buf' route hmem => by simp [hne] at hmem
  | @failed source remote buf =>
    rcases update_connections hc with ⟨rfl, hnew⟩ | ⟨hne, hold⟩
    · obtain ⟨hne, hold⟩ := Dispatch.remove_eq_some hnew
      exact (h a r c hold hunused).append fun buf' route hmem => by simp [hne] at hmem
    · exact (h a r c hold hunused).append fun buf' route hmem => by simp [hne] at hmem
  | @accepted sender link hlink hphase =>
    rcases update_connections hc with ⟨rfl, hnew⟩ | ⟨_, hold⟩
    · rcases Dispatch.onIncoming_eq_some hnew with ⟨_, rfl⟩ | hold
      · cases hunused
      · exact h _ r c hold hunused
    · exact h a r c hold hunused
  | rejected | ran => exact h a r c hc hunused
  | handed => exact (h a r c hc hunused).append fun buf' route hmem => by simp at hmem
  | @ticked addr =>
    rcases update_connections hc with ⟨rfl, _⟩ | ⟨_, hold⟩
    · exact idle_onTimer ..
    · exact (h a r c hold hunused).append fun buf' route hmem => by simp at hmem

theorem Unused.of_reach {C : Network A → Turn A → Prop} (h : (network preamble).Reach C net) : Unused net := by
  induction h with
  | init h =>
    rw [show _ = _ from h]
    exact fun _ _ _ hc => (nomatch hc)
  | next _ _ hs ih => exact ih.moved (moved_of_step hs)

/-- In every run a timer leaves no closed connection, and takes an open one only
if nothing has been sent to the remote since the timer before. -/
theorem reclaimed_idle (preamble : A → Option A) (net net' : Network A) (h : (network preamble).Reach Machine.always net)
    (addr : A) (hstep : net.step preamble (.onTimer addr) = some net') :
    (∀ r c, (net'.dispatches addr).connections r = some c → net'.isOpen c.sender = true) ∧
      ∀ r c, (net.dispatches addr).connections r = some c → net.isOpen c.sender = true →
        (net'.dispatches addr).connections r = some { c with isUsing := false } ∨
          (net'.dispatches addr).connections r = none ∧ Idle addr r net.history := by
  have hunused := Unused.of_reach h
  cases hstep
  dsimp only
  rw [Function.update_self]
  refine ⟨fun r c hc => (Dispatch.onTimer_eq_some hc).2.1, fun r c hc hopen => ?_⟩
  cases husing : c.isUsing with
  | true =>
    left
    simp [Dispatch.onTimer, hc, husing, hopen]
  | false =>
    right
    exact ⟨by simp [Dispatch.onTimer, hc, husing], hunused addr r c hc husing⟩

theorem reclaimed_idle_twice : ∃ net net' : Network Bool, net.step some (.onTimer false) = some net' ∧
    (net'.dispatches false).connections true = none ∧ Idle false true net.history := by
  obtain ⟨net, hreach, hconnection, hopen, hstep⟩ := Machine.exists_reach (M := network some) (C := Machine.always)
    (fun _ _ _ h => h) rfl [.outgoing false true [1] false, .onTimer false]
    (fun net => (net.dispatches false).connections true = some ⟨0, false⟩ ∧ net.isOpen 0 = true ∧
      (net.step some (.onTimer false)).any (fun net' => (net'.dispatches false).connections true = none) = true) (by decide)
  obtain ⟨net', hstep, hnone⟩ := (Option.any_eq_true ..).mp hstep
  have hnone := of_decide_eq_true hnone
  refine ⟨net, net', hstep, hnone, ?_⟩
  rcases (reclaimed_idle some net net' hreach false hstep).2 true ⟨0, false⟩ hconnection hopen with hkept | ⟨_, hidle⟩
  · rw [hnone] at hkept
    cases hkept
  · exact hidle

end

end Neatworks.Net
