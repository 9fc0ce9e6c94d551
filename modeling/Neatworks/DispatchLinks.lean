import Neatworks.Dispatch

/-!
# The links between dispatchers

However the tasks run and whatever fails, a link hands over what was put on it
in the order in which it was put, and its ends are those that the dispatchers
know.
-/

namespace Neatworks.Net

section
variable {A : Type}

/-! ## One link -/

/-- What has been put on a link and what has been handed over. -/
structure Carries (link : Link A) (sent handed : List Bytes) : Prop where
  order : handed <+: sent
  whole : link.phase ≠ .ended → ∃ lost, sent = handed ++ (link.stream ++ (link.queue ++ lost)) ∧
    (link.isOpen = true → lost = [])

/-- What is still to be handed over. -/
def Link.pending (link : Link A) : List Bytes := if link.phase = .ended then [] else link.stream ++ link.queue

/-- Nothing has failed on the link, and nothing will for the length of a buffer. -/
structure Link.Sound (link : Link A) : Prop where
  isOpen : link.isOpen = true
  phase : link.phase ≠ .ended
  fits : ∀ buf ∈ link.stream ++ link.queue, buf.length ≤ maxBufLen

def Task.succeeds : Task → Bool
  | .connect ok => ok
  | .write ok => ok
  | .read => true
  | .hangUp => false

/-- One constructor for each branch of a task. -/
inductive Ran (link : Link A) : Task → Link A → Option Bytes → Prop
  | connected (hphase : link.phase = .connecting) : Ran link (.connect true) { link with phase := .connected } none
  | refused (hphase : link.phase = .connecting) :
      Ran link (.connect false) { link with queue := [], isOpen := false, phase := .ended } none
  | written {buf : Bytes} {queue : List Bytes} (hqueue : link.queue = buf :: queue) :
      Ran link (.write true) { link with queue := queue, stream := link.stream ++ [buf] } none
  | broken : Ran link (.write false) { link with queue := [], isOpen := false } none
  | handed {buf : Bytes} {stream : List Bytes} (hstream : link.stream = buf :: stream) (hphase : link.phase = .reading) :
      Ran link .read { link with stream := stream } (some buf)
  | long {buf : Bytes} {stream : List Bytes} (hstream : link.stream = buf :: stream) (hlong : maxBufLen < buf.length) :
      Ran link .read { link with phase := .ended } none
  | hungUp : Ran link .hangUp { link with phase := .ended } none

theorem ran_of_run {link link' : Link A} {task : Task} {handed : Option Bytes} (h : link.run task = some (link', handed)) :
    Ran link task link' handed := by
  cases task with
  | connect ok =>
    simp only [Link.run] at h
    split at h
    · next hphase =>
      cases ok <;> cases h
      · exact .refused hphase
      · exact .connected hphase
    · cases h
  | write ok =>
    simp only [Link.run] at h
    split at h
    · cases h
    · next hqueue =>
      split at h
      · cases ok <;> cases h
        · exact .broken
        · exact .written hqueue
      · cases h
  | read =>
    simp only [Link.run] at h
    split at h
    · cases h
    · next hstream =>
      split at h
      · next hphase =>
        split at h <;> cases h
        · exact .handed hstream hphase
        · next hlong => exact .long hstream (Nat.not_le.mp hlong)
      · cases h
  | hangUp =>
    simp only [Link.run] at h
    split at h <;> cases h
    exact .hungUp

section
variable {link link' : Link A} {task : Task} {out : Option Bytes} {sent handed : List Bytes} {buf : Bytes}

theorem Ran.ends (h : Ran link task link' out) :
    link'.source = link.source ∧ link'.dest = link.dest ∧ link'.remote = link.remote := by
  cases h <;> exact ⟨rfl, rfl, rfl⟩

theorem Carries.ran (h : Carries link sent handed) (hran : Ran link task link' out) :
    Carries link' sent (handed ++ out.toList) := by
  obtain ⟨horder, hwhole⟩ := h
  cases hran with
  | connected hphase =>
    rw [Option.toList_none, List.append_nil]
    exact ⟨horder, fun _ => hwhole (by rw [hphase]; exact Phase.noConfusion)⟩
  | refused | long | hungUp =>
    rw [Option.toList_none, List.append_nil]
    exact ⟨horder, fun hne => absurd rfl hne⟩
  | written hqueue =>
    rw [Option.toList_none, List.append_nil]
    refine ⟨horder, fun hne => ?_⟩
    obtain ⟨lost, hsent, hlost⟩ := hwhole hne
    exact ⟨lost, by simp [hsent, hqueue], hlost⟩
  | broken =>
    rw [Option.toList_none, List.append_nil]
    refine ⟨horder, fun hne => ?_⟩
    obtain ⟨lost, hsent, _⟩ := hwhole hne
    exact ⟨link.queue ++ lost, by simp [hsent], fun hopen => absurd hopen Bool.false_ne_true⟩
  | handed hstream hphase =>
    obtain ⟨lost, hsent, hlost⟩ := hwhole (by rw [hphase]; exact Phase.noConfusion)
    rw [hstream] at hsent
    rw [hsent]
    exact ⟨by simp, fun _ => ⟨lost, by simp, hlost⟩⟩

theorem Carries.put (h : Carries link sent handed) (hopen : link.isOpen = true) (buf : Bytes) :
    Carries { link with queue := link.queue ++ [buf] } (sent ++ [buf]) handed := by
  refine ⟨h.order.trans (List.prefix_append _ _), fun hne => ?_⟩
  obtain ⟨lost, hsent, hlost⟩ := h.whole hne
  rw [hlost hopen, List.append_nil] at hsent
  exact ⟨[], by simp [hsent], fun _ => rfl⟩

theorem Ran.pending_le (h : Ran link task link' out) (x : Bytes) :
    link'.pending.count x + out.toList.count x ≤ link.pending.count x := by
  unfold Link.pending
  cases h with
  | connected hphase => simp [hphase]
  | refused | long | hungUp => simp
  | written hqueue =>
    dsimp only
    split
    · simp
    · simp [hqueue]
  | broken =>
    dsimp only
    split
    · simp
    · simp
  | handed hstream hphase =>
    simp [hphase, hstream, List.count_cons]

theorem Ran.pending_eq (h : Ran link task link' out) (hsound : link.Sound) (hsucceeds : task.succeeds = true) (x : Bytes) :
    link'.pending.count x + out.toList.count x = link.pending.count x := by
  have hphase := hsound.phase
  unfold Link.pending
  cases h with
  | connected hconnecting => simp [hconnecting]
  | refused | broken | hungUp => cases hsucceeds
  | written hqueue => simp [hphase, hqueue]
  | handed hstream hreading =>
    simp [hreading, hstream, List.count_cons]
  | @long buf stream hstream hlong =>
    have hfits := hsound.fits buf (by simp [hstream])
    omega

theorem Ran.sound (h : Ran link task link' out) (hsound : link.Sound) (hsucceeds : task.succeeds = true) : link'.Sound := by
  obtain ⟨hopen, hphase, hfits⟩ := hsound
  cases h with
  | connected => exact ⟨hopen, Phase.noConfusion, hfits⟩
  | refused | broken | hungUp => cases hsucceeds
  | written hqueue => exact ⟨hopen, hphase, fun buf hbuf => hfits buf (by simpa [hqueue] using hbuf)⟩
  | handed hstream =>
    refine ⟨hopen, hphase, fun buf hbuf => hfits buf ?_⟩
    rw [hstream]
    exact List.mem_cons_of_mem _ hbuf
  | @long buf stream hstream hlong =>
    have := hfits buf (by simp [hstream])
    omega

theorem Link.Sound.put (h : link.Sound) (hfits : buf.length ≤ maxBufLen) :
    ({ link with queue := link.queue ++ [buf] } : Link A).Sound := by
  refine ⟨h.isOpen, h.phase, fun b hb => ?_⟩
  rw [← List.append_assoc] at hb
  rcases List.mem_append.mp hb with hb | hb
  · exact h.fits b hb
  · rw [List.mem_singleton.mp hb]
    exact hfits

end

/-! ## What has been observed -/

section
variable [DecidableEq A]

def sentOn (sender : Nat) (history : List (Observed A)) : List Bytes := history.filterMap fun
  | .outgoing _ _ buf (some i) => if i = sender then some buf else none
  | _ => none

def handedOn (sender : Nat) (history : List (Observed A)) : List Bytes := history.filterMap fun
  | .onBuf _ _ i buf => if i = sender then some buf else none
  | _ => none

/-- What the dispatcher at `source` has been asked to send to `remote`. -/
def asked (source remote : A) (history : List (Observed A)) : List Bytes := history.filterMap fun
  | .outgoing a r buf _ => if a = source ∧ r = remote then some buf else none
  | _ => none

/-- What has been handed over at `dest` on links from `source`. -/
def handed (source dest : A) (history : List (Observed A)) : List Bytes := history.filterMap fun
  | .onBuf a b _ buf => if a = source ∧ b = dest then some buf else none
  | _ => none

def Link.share (source dest : A) (link : Link A) : List Bytes :=
  if link.source = source ∧ link.dest = dest then link.pending else []

/-- What has been handed over at `dest` on links from `source` and what is on the way. -/
def accounted (source dest : A) (history : List (Observed A)) (links : List (Link A)) : List Bytes :=
  handed source dest history ++ links.flatMap (Link.share source dest)

variable {sender : Nat} {a b : A} {history es : List (Observed A)}

omit [DecidableEq A] in
@[simp] theorem sentOn_append : sentOn sender (history ++ es) = sentOn sender history ++ sentOn sender es :=
  List.filterMap_append

omit [DecidableEq A] in
@[simp] theorem handedOn_append : handedOn sender (history ++ es) = handedOn sender history ++ handedOn sender es :=
  List.filterMap_append

@[simp] theorem asked_append : asked a b (history ++ es) = asked a b history ++ asked a b es := List.filterMap_append

@[simp] theorem handed_append : handed a b (history ++ es) = handed a b history ++ handed a b es := List.filterMap_append

/-! ## One turn -/

variable (preamble : A → Option A)

/-- One constructor for each branch of a turn. -/
inductive Moved (net : Network A) : Turn A → Network A → Prop
  | sent {source remote : A} {buf : Bytes} {failed : Bool} {connection : Connection} {link : Link A}
      (hconnection : (net.dispatches source).connections remote = some connection)
      (hlink : net.links[connection.sender]? = some link) (hopen : link.isOpen = true) :
      Moved net (.outgoing source remote buf failed) {
        dispatches := Function.update net.dispatches source
          ((net.dispatches source).insert remote { connection with isUsing := true })
        links := net.links.set connection.sender { link with queue := link.queue ++ [buf] }
        history := net.history ++ [.outgoing source remote buf (some connection.sender)] }
  | opened {source remote : A} {buf : Bytes} :
      Moved net (.outgoing source remote buf false) {
        dispatches := Function.update net.dispatches source ((net.dispatches source).insert remote ⟨net.links.length, true⟩)
        links := net.links ++ [{ source := source, dest := remote, remote := remote, queue := [buf], phase := .connecting }]
        history := net.history ++ [.outgoing source remote buf (some net.links.length)] }
  | failed {source remote : A} {buf : Bytes} :
      Moved net (.outgoing source remote buf true) {
        dispatches := Function.update net.dispatches source ((net.dispatches source).remove remote)
        links := net.links
        history := net.history ++ [.outgoing source remote buf none] }
  | accepted {sender : Nat} {link : Link A} (hlink : net.links[sender]? = some link) (hphase : link.phase = .connected) :
      Moved net (.incoming sender true) (net.incoming preamble sender link)
  | rejected {sender : Nat} {link : Link A} (hlink : net.links[sender]? = some link) :
      Moved net (.incoming sender false) (net.setLink sender { link with phase := .ended })
  | ran {sender : Nat} {link link' : Link A} {task : Task} (hlink : net.links[sender]? = some link)
      (hran : Ran link task link' none) : Moved net (.task sender task) (net.setLink sender link')
  | handed {sender : Nat} {link link' : Link A} {task : Task} {buf : Bytes} (hlink : net.links[sender]? = some link)
      (hran : Ran link task link' (some buf)) :
      Moved net (.task sender task) ((net.setLink sender link').observe (.onBuf link.source link.dest sender buf))
  | ticked {addr : A} :
      Moved net (.onTimer addr) {
        dispatches := Function.update net.dispatches addr ((net.dispatches addr).onTimer net.isOpen)
        links := net.links
        history := net.history ++ [.onTimer addr] }

variable {preamble} {net net' : Network A} {turn : Turn A}

omit [DecidableEq A] in
theorem Network.exists_open {net : Network A} {sender : Nat} (h : net.isOpen sender = true) :
    ∃ link, net.links[sender]? = some link ∧ link.isOpen = true := by
  unfold Network.isOpen at h
  cases hlink : net.links[sender]? with
  | none =>
    rw [hlink] at h
    cases h
  | some link =>
    rw [hlink] at h
    exact ⟨link, rfl, h⟩

/-- An open connection takes the buffer, otherwise there is a new one. -/
theorem Dispatch.onOutgoing_cases (self : Dispatch A) (isOpen : Nat → Bool) (sender : Nat) (failed : Bool) (remote : A) :
    (∃ connection, self.connections remote = some connection ∧ isOpen connection.sender = true ∧
      self.onOutgoing isOpen sender failed remote =
        (self.insert remote { connection with isUsing := true }, .existing connection.sender)) ∨
      self.onOutgoing isOpen sender failed remote = self.connect sender failed remote := by
  unfold onOutgoing
  cases self.connections remote with
  | none => exact Or.inr rfl
  | some connection =>
    by_cases hopen : isOpen connection.sender = true
    · exact Or.inl ⟨connection, rfl, hopen, if_pos hopen⟩
    · exact Or.inr (if_neg hopen)

theorem moved_of_step (h : net.step preamble turn = some net') : Moved preamble net turn net' := by
  cases turn with
  | outgoing source remote buf failed =>
    simp only [Network.step, Option.some.injEq] at h
    rw [← h]
    rcases (net.dispatches source).onOutgoing_cases net.isOpen net.links.length failed remote with
      ⟨connection, hconnection, hopen, heq⟩ | heq
    · rw [heq]
      obtain ⟨link, hlink, hopen⟩ := Network.exists_open hopen
      have hmodify : (net.links.modify connection.sender fun link => { link with queue := link.queue ++ [buf] }) =
          net.links.set connection.sender { link with queue := link.queue ++ [buf] } := by
        rw [List.modify_eq_set_getElem?, hlink]
        rfl
      simp only [Network.outgoing, hmodify]
      exact .sent hconnection hlink hopen
    · rw [heq]
      cases failed
      · exact .opened
      · exact .failed
  | incoming sender ok =>
    simp only [Network.step] at h
    split at h
    · cases h
    · next hlink =>
      split at h
      · next hphase =>
        cases ok <;> cases h
        · exact .rejected hlink
        · exact .accepted hlink hphase
      · cases h
  | task sender task =>
    simp only [Network.step] at h
    split at h
    · cases h
    · next hlink =>
      split at h <;> cases h
      · next hrun => exact .ran hlink (ran_of_run hrun)
      · next hrun => exact .handed hlink (ran_of_run hrun)
  | onTimer addr =>
    cases h
    exact .ticked

/-! ## Tables -/

section
variable {dispatch : Dispatch A} {remote r : A} {connection c : Connection}

theorem Dispatch.insert_eq_some (h : (dispatch.insert remote connection).connections r = some c) :
    (r = remote ∧ c = connection) ∨ (r ≠ remote ∧ dispatch.connections r = some c) := by
  rw [Dispatch.insert_connections] at h
  split at h
  · next heq =>
    cases h
    exact Or.inl ⟨heq, rfl⟩
  · next hne => exact Or.inr ⟨hne, h⟩

theorem Dispatch.remove_eq_some (h : (dispatch.remove remote).connections r = some c) :
    r ≠ remote ∧ dispatch.connections r = some c := by
  rw [Dispatch.remove_connections] at h
  split at h
  · cases h
  · next hne => exact ⟨hne, h⟩

theorem Dispatch.onIncoming_eq_some {sender : Nat} {accepted : Option A}
    (h : (dispatch.onIncoming sender accepted).connections r = some c) :
    (accepted = some r ∧ c = ⟨sender, true⟩) ∨ dispatch.connections r = some c := by
  cases accepted with
  | none => exact Or.inr h
  | some remote =>
    unfold Dispatch.onIncoming at h
    dsimp only at h
    split at h
    · rcases Dispatch.insert_eq_some h with ⟨rfl, rfl⟩ | ⟨_, h⟩
      · exact Or.inl ⟨rfl, rfl⟩
      · exact Or.inr h
    · exact Or.inr h

omit [DecidableEq A] in
theorem Dispatch.onTimer_eq_some {isOpen : Nat → Bool} (h : (dispatch.onTimer isOpen).connections r = some c) :
    c.isUsing = false ∧ isOpen c.sender = true ∧ dispatch.connections r = some ⟨c.sender, true⟩ := by
  unfold Dispatch.onTimer at h
  obtain ⟨⟨sender, isUsing⟩, hconnection, h⟩ := Option.bind_eq_some_iff.mp h
  split at h <;> cases h
  next hkept =>
  rw [Bool.and_eq_true] at hkept
  obtain ⟨hkept, hopen⟩ := hkept
  dsimp only at hkept
  rw [hkept] at hconnection
  exact ⟨rfl, hopen, hconnection⟩

end

/-! ## Every run -/

/-- The links have the same ends. -/
structure Link.Same (link link' : Link A) : Prop where
  source : link'.source = link.source
  dest : link'.dest = link.dest
  remote : link'.remote = link.remote

omit [DecidableEq A] in
theorem Link.Same.refl (link : Link A) : link.Same link := ⟨rfl, rfl, rfl⟩

section
variable {links : List (Link A)} {i : Nat} {link link' : Link A}

omit [DecidableEq A] in
theorem same_set (hlink : links[i]? = some link) (hsame : link.Same link') (j : Nat) (l : Link A) (hl : links[j]? = some l) :
    ∃ l', (links.set i link')[j]? = some l' ∧ l.Same l' := by
  by_cases heq : i = j
  · subst heq
    rw [hlink] at hl
    cases hl
    exact ⟨link', List.getElem?_set_self (List.getElem?_eq_some_iff.mp hlink).1, hsame⟩
  · exact ⟨l, by rwa [List.getElem?_set_ne heq], .refl l⟩

omit [DecidableEq A] in
theorem same_append (more : List (Link A)) (j : Nat) (l : Link A) (hl : links[j]? = some l) :
    ∃ l', (links ++ more)[j]? = some l' ∧ l.Same l' :=
  ⟨l, by rwa [List.getElem?_append_left (List.getElem?_eq_some_iff.mp hl).1], .refl l⟩

end

structure Carried (net : Network A) : Prop where
  carries : ∀ i link, net.links[i]? = some link → Carries link (sentOn i net.history) (handedOn i net.history)
  fresh : ∀ i, net.links.length ≤ i → sentOn i net.history = [] ∧ handedOn i net.history = []
  connections : ∀ a r c, (net.dispatches a).connections r = some c →
    ∃ link, net.links[c.sender]? = some link ∧ link.source = a ∧ link.remote = r
  sent : ∀ a r buf i, .outgoing a r buf (some i) ∈ net.history →
    ∃ link, net.links[i]? = some link ∧ link.source = a ∧ link.remote = r
  handed : ∀ a b i buf, .onBuf a b i buf ∈ net.history →
    ∃ link, net.links[i]? = some link ∧ link.source = a ∧ link.dest = b

omit [DecidableEq A] in
/-- What a turn adds to the links and to the history. -/
theorem Carried.next (h : Carried net) {es : List (Observed A)} (hhistory : net'.history = net.history ++ es)
    (hkeeps : ∀ (i : Nat) (link : Link A), net.links[i]? = some link →
      ∃ link', net'.links[i]? = some link' ∧ link.Same link')
    (hcarries : ∀ (i : Nat) (link : Link A), net'.links[i]? = some link →
      Carries link (sentOn i net.history ++ sentOn i es) (handedOn i net.history ++ handedOn i es))
    (hfresh : ∀ i, net'.links.length ≤ i → sentOn i es = [] ∧ handedOn i es = [])
    (hconnections : ∀ a r c, (net'.dispatches a).connections r = some c →
      (∃ c', (net.dispatches a).connections r = some c' ∧ c'.sender = c.sender) ∨
        ∃ link, net'.links[c.sender]? = some link ∧ link.source = a ∧ link.remote = r)
    (hsent : ∀ a r buf i, .outgoing a r buf (some i) ∈ es →
      ∃ link, net'.links[i]? = some link ∧ link.source = a ∧ link.remote = r)
    (hhanded : ∀ a b i buf, .onBuf a b i buf ∈ es → ∃ link, net'.links[i]? = some link ∧ link.source = a ∧ link.dest = b) :
    Carried net' := by
  have hold : ∀ {i : Nat} {a r : A}, (∃ link : Link A, net.links[i]? = some link ∧ link.source = a ∧ link.remote = r) →
      ∃ link : Link A, net'.links[i]? = some link ∧ link.source = a ∧ link.remote = r := by
    intro i a r ⟨link, hlink, hsource, hremote⟩
    obtain ⟨link', hlink', hsame⟩ := hkeeps i link hlink
    exact ⟨link', hlink', hsame.source.trans hsource, hsame.remote.trans hremote⟩
  refine ⟨fun i link hlink => ?_, fun i hi => ?_, fun a r c hc => ?_, fun a r buf i hmem => ?_, fun a b i buf hmem => ?_⟩
  · rw [hhistory, sentOn_append, handedOn_append]
    exact hcarries i link hlink
  · have hlength : net.links.length ≤ i := by
      by_contra hlt
      obtain ⟨link', hlink', _⟩ := hkeeps i _ (List.getElem?_eq_getElem (Nat.not_le.mp hlt))
      exact absurd (List.getElem?_eq_some_iff.mp hlink').1 (Nat.not_lt.mpr hi)
    rw [hhistory, sentOn_append, handedOn_append, (h.fresh i hlength).1, (h.fresh i hlength).2]
    exact hfresh i hi
  · rcases hconnections a r c hc with ⟨c', hc', hsender⟩ | hnew
    · rw [← hsender]
      exact hold (h.connections a r c' hc')
    · exact hnew
  · rw [hhistory] at hmem
    exact (List.mem_append.mp hmem).elim (fun hmem => hold (h.sent a r buf i hmem)) (hsent a r buf i)
  · rw [hhistory] at hmem
    rcases List.mem_append.mp hmem with hmem | hmem
    · obtain ⟨link, hlink, hsource, hdest⟩ := h.handed a b i buf hmem
      obtain ⟨link', hlink', hsame⟩ := hkeeps i link hlink
      exact ⟨link', hlink', hsame.source.trans hsource, hsame.dest.trans hdest⟩
    · exact hhanded a b i buf hmem

theorem update_connections {dispatches : A → Dispatch A} {source a r : A} {dispatch : Dispatch A} {c : Connection}
    (h : (Function.update dispatches source dispatch a).connections r = some c) :
    (a = source ∧ dispatch.connections r = some c) ∨ (a ≠ source ∧ (dispatches a).connections r = some c) := by
  by_cases heq : a = source
  · rw [heq, Function.update_self] at h
    exact Or.inl ⟨heq, h⟩
  · rw [Function.update_of_ne heq] at h
    exact Or.inr ⟨heq, h⟩

omit [DecidableEq A] in
/-- A turn of a task of one link. -/
theorem Carried.setLink (h : Carried net) {i : Nat} {link link' : Link A} (hlink : net.links[i]? = some link)
    (hsame : link.Same link') {es : List (Observed A)}
    (hcarries : Carries link' (sentOn i net.history) (handedOn i net.history ++ handedOn i es))
    (hes : ∀ j, sentOn j es = [] ∧ (j ≠ i → handedOn j es = []))
    (hhanded : ∀ a b j buf, .onBuf a b j buf ∈ es → j = i ∧ a = link.source ∧ b = link.dest)
    (hsent : ∀ a r buf j, .outgoing a r buf (some j) ∉ es) :
    Carried { net.setLink i link' with history := net.history ++ es } := by
  have hlt := (List.getElem?_eq_some_iff.mp hlink).1
  refine h.next rfl (same_set hlink hsame) (fun j l hl => ?_) (fun j hj => ⟨(hes j).1, (hes j).2 ?_⟩)
    (fun a r c hc => Or.inl ⟨c, hc, rfl⟩) (fun a r buf j hmem => absurd hmem (hsent a r buf j)) fun a b j buf hmem => ?_
  · rw [(hes j).1, List.append_nil]
    rcases getElem?_set_cases hl with ⟨rfl, rfl⟩ | ⟨hne, hl⟩
    · exact hcarries
    · rw [(hes j).2 hne, List.append_nil]
      exact h.carries j l hl
  · rintro rfl
    rw [Network.setLink, List.length_set] at hj
    omega
  · obtain ⟨rfl, rfl, rfl⟩ := hhanded a b j buf hmem
    exact ⟨link', List.getElem?_set_self hlt, hsame.source, hsame.dest⟩

omit [DecidableEq A] in
theorem Carried.quiet (h : Carried net) {i : Nat} {link link' : Link A} (hlink : net.links[i]? = some link)
    (hsame : link.Same link') (hcarries : Carries link' (sentOn i net.history) (handedOn i net.history)) :
    Carried (net.setLink i link') := by
  have hquiet : Carried { net.setLink i link' with history := net.history ++ [] } := by
    refine h.setLink hlink hsame ?_ (fun j => ⟨rfl, fun _ => rfl⟩) (fun a b j buf hmem => ?_)
      fun a r buf j => List.not_mem_nil
    · simpa [handedOn] using hcarries
    · cases hmem
  rw [List.append_nil] at hquiet
  exact hquiet

/-- A dispatcher keeps a connection only to a link from its address to the remote one. -/
theorem Carried.dispatch {links : List (Link A)} {source : A} {dispatch : Dispatch A}
    (h : ∀ r c, dispatch.connections r = some c →
      (∃ c', (net.dispatches source).connections r = some c' ∧ c'.sender = c.sender) ∨
        ∃ link, links[c.sender]? = some link ∧ link.source = source ∧ link.remote = r) (a r : A) (c : Connection)
    (hc : (Function.update net.dispatches source dispatch a).connections r = some c) :
    (∃ c', (net.dispatches a).connections r = some c' ∧ c'.sender = c.sender) ∨
      ∃ link, links[c.sender]? = some link ∧ link.source = a ∧ link.remote = r := by
  rcases update_connections hc with ⟨heq, hnew⟩ | ⟨_, hold⟩
  · rw [heq]
    exact h r c hnew
  · exact Or.inl ⟨c, hold, rfl⟩

theorem Carried.put (h : Carried net) {source remote : A} {buf : Bytes} {connection : Connection} {link : Link A}
    (hconnection : (net.dispatches source).connections remote = some connection)
    (hlink : net.links[connection.sender]? = some link) (hopen : link.isOpen = true) :
    Carried {
      dispatches := Function.update net.dispatches source
        ((net.dispatches source).insert remote { connection with isUsing := true })
      links := net.links.set connection.sender { link with queue := link.queue ++ [buf] }
      history := net.history ++ [.outgoing source remote buf (some connection.sender)] } := by
  obtain ⟨link₀, hlink₀, hsource, hremote⟩ := h.connections source remote connection hconnection
  rw [hlink] at hlink₀
  cases hlink₀
  have hlt := (List.getElem?_eq_some_iff.mp hlink).1
  refine h.next rfl (same_set hlink ⟨rfl, rfl, rfl⟩) (fun j l hl => ?_) (fun j hj => ?_)
    (Carried.dispatch fun r c hc => Or.inl ?_) (fun a r buf' j hmem => ?_) fun a b j buf' hmem => by simp at hmem
  · rcases getElem?_set_cases hl with ⟨rfl, rfl⟩ | ⟨hne, hl⟩
    · simpa [sentOn, handedOn] using (h.carries _ _ hlink).put hopen buf
    · simpa [sentOn, handedOn, Ne.symm hne] using h.carries j l hl
  · have hne : connection.sender ≠ j := by
      rintro rfl
      rw [List.length_set] at hj
      omega
    simp [sentOn, handedOn, hne]
  · rcases Dispatch.insert_eq_some hc with ⟨rfl, rfl⟩ | ⟨_, hc⟩
    · exact ⟨connection, hconnection, rfl⟩
    · exact ⟨c, hc, rfl⟩
  · simp only [List.mem_singleton, Observed.outgoing.injEq, Option.some.injEq] at hmem
    obtain ⟨rfl, rfl, -, rfl⟩ := hmem
    exact ⟨_, List.getElem?_set_self hlt, hsource, hremote⟩

/-- A new link, with what it starts with. -/
theorem Carried.append (h : Carried net) {source : A} {dispatch : Dispatch A} {link : Link A} {es : List (Observed A)}
    (hqueue : link.stream = []) (hsent : ∀ j, sentOn j es = if j = net.links.length then link.queue else [])
    (hhanded : ∀ a b j buf, .onBuf a b j buf ∉ es)
    (hes : ∀ a r buf j, .outgoing a r buf (some j) ∈ es → j = net.links.length ∧ a = link.source ∧ r = link.remote)
    (hdispatch : ∀ r c, dispatch.connections r = some c →
      (r = link.remote ∧ c.sender = net.links.length) ∨ (net.dispatches source).connections r = some c)
    (hsource : link.source = source) :
    Carried {
      dispatches := Function.update net.dispatches source dispatch
      links := net.links ++ [link]
      history := net.history ++ es } := by
  have hnone : ∀ j, handedOn j es = [] := by
    intro j
    refine List.filterMap_eq_nil_iff.mpr fun e he => ?_
    cases e with
    | onBuf a b i buf => exact absurd he (hhanded a b i buf)
    | _ => rfl
  refine h.next rfl (same_append _) (fun j l hl => ?_) (fun j hj => ?_) (Carried.dispatch fun r c hc => ?_)
    (fun a r buf' j hmem => ?_) fun a b j buf' hmem => absurd hmem (hhanded a b j buf')
  · rw [hnone, List.append_nil, hsent]
    rcases Nat.lt_trichotomy j net.links.length with hlt | rfl | hgt
    · rw [List.getElem?_append_left hlt] at hl
      rw [if_neg (Nat.ne_of_lt hlt), List.append_nil]
      exact h.carries j l hl
    · rw [List.getElem?_concat_length] at hl
      cases hl
      obtain ⟨hsent, hhanded⟩ := h.fresh _ (Nat.le_refl _)
      rw [hsent, hhanded, if_pos rfl]
      exact ⟨List.nil_prefix, fun _ => ⟨[], by simp [hqueue], fun _ => rfl⟩⟩
    · rw [List.getElem?_eq_none (by simp; omega)] at hl
      cases hl
  · rw [List.length_append, List.length_singleton] at hj
    rw [hsent, if_neg (by omega)]
    exact ⟨rfl, hnone j⟩
  · rcases hdispatch r c hc with ⟨rfl, hsender⟩ | hc
    · rw [hsender]
      exact Or.inr ⟨link, List.getElem?_concat_length .., hsource, rfl⟩
    · exact Or.inl ⟨c, hc, rfl⟩
  · obtain ⟨rfl, rfl, rfl⟩ := hes a r buf' j hmem
    exact ⟨link, List.getElem?_concat_length .., rfl, rfl⟩

/-- The other side of a link takes its connection, with what it is told of the address. -/
theorem Carried.accepted (h : Carried net) (source dest : A) (accepted : Option A) :
    Carried {
      dispatches := Function.update net.dispatches dest ((net.dispatches dest).onIncoming net.links.length accepted)
      links := net.links ++ (accepted.map fun remote => {
        source := dest, dest := source, remote := remote, phase := .reading : Link A }).toList
      history := net.history } := by
  cases accepted with
  | none =>
    rw [Dispatch.onIncoming, Function.update_eq_self, Option.map_none, Option.toList_none, List.append_nil]
    exact h
  | some remote =>
    let link : Link A := { source := dest, dest := source, remote := remote, phase := .reading }
    have hnew : Carried {
        dispatches := Function.update net.dispatches dest ((net.dispatches dest).onIncoming net.links.length (some remote))
        links := net.links ++ [link]
        history := net.history ++ [] } := by
      refine h.append rfl (fun j => (ite_self _).symm) (fun a b j buf => List.not_mem_nil)
        (fun a r buf j hmem => by cases hmem) (fun r c hc => ?_) rfl
      rcases Dispatch.onIncoming_eq_some hc with ⟨hremote, rfl⟩ | hc
      · exact Or.inl ⟨(Option.some.inj hremote).symm, rfl⟩
      · exact Or.inr hc
    rw [List.append_nil] at hnew
    exact hnew

theorem Carried.moved (h : Carried net) (hmoved : Moved preamble net turn net') : Carried net' := by
  cases hmoved with
  | sent hconnection hlink hopen => exact h.put hconnection hlink hopen
  | @opened source remote buf =>
    refine h.append rfl (fun j => ?_) (fun a b j buf' hmem => by simp at hmem) (fun a r buf' j hmem => ?_)
      (fun r c hc => ?_) rfl
    · by_cases heq : j = net.links.length
      · simp [sentOn, heq]
      · simp [sentOn, heq, Ne.symm heq]
    · simp only [List.mem_singleton, Observed.outgoing.injEq, Option.some.injEq] at hmem
      exact ⟨hmem.2.2.2, hmem.1, hmem.2.1⟩
    · rcases Dispatch.insert_eq_some hc with ⟨rfl, rfl⟩ | ⟨_, hc⟩
      · exact Or.inl ⟨rfl, rfl⟩
      · exact Or.inr hc
  | @failed source remote buf =>
    refine h.next rfl (fun i link hlink => ⟨link, hlink, .refl link⟩) (fun j l hl => ?_) (fun j hj => ?_)
      (Carried.dispatch fun r c hc => Or.inl ⟨c, (Dispatch.remove_eq_some hc).2, rfl⟩)
      (fun a r buf' j hmem => by simp at hmem) fun a b j buf' hmem => by simp at hmem
    · simpa [sentOn, handedOn] using h.carries j l hl
    · simp [sentOn, handedOn]
  | @accepted sender link hlink hphase =>
    obtain ⟨horder, hwhole⟩ := h.carries sender link hlink
    have hreading : Carried (net.setLink sender { link with phase := .reading }) :=
      h.quiet hlink ⟨rfl, rfl, rfl⟩ ⟨horder, fun _ => hwhole (by rw [hphase]; exact Phase.noConfusion)⟩
    have haccepted := hreading.accepted link.source link.dest (preamble link.source)
    simp only [Network.setLink, List.length_set] at haccepted
    exact haccepted
  | @rejected sender link hlink =>
    exact h.quiet hlink ⟨rfl, rfl, rfl⟩ ⟨(h.carries sender link hlink).order, fun hne => absurd rfl hne⟩
  | @ran sender link link' task hlink hran =>
    obtain ⟨hsource, hdest, hremote⟩ := hran.ends
    have hcarries := (h.carries sender link hlink).ran hran
    rw [Option.toList_none, List.append_nil] at hcarries
    exact h.quiet hlink ⟨hsource, hdest, hremote⟩ hcarries
  | @handed sender link link' task buf hlink hran =>
    obtain ⟨hsource, hdest, hremote⟩ := hran.ends
    refine h.setLink hlink ⟨hsource, hdest, hremote⟩ ?_ (fun j => ⟨rfl, fun hne => ?_⟩) (fun a b j buf' hmem => ?_)
      fun a r buf' j hmem => by simp at hmem
    · simpa [handedOn] using (h.carries sender link hlink).ran hran
    · simp [handedOn, Ne.symm hne]
    · simp only [List.mem_singleton, Observed.onBuf.injEq] at hmem
      exact ⟨hmem.2.2.1, hmem.1, hmem.2.1⟩
  | @ticked addr =>
    refine h.next rfl (fun i link hlink => ⟨link, hlink, .refl link⟩) (fun j l hl => ?_) (fun j hj => ?_)
      (Carried.dispatch fun r c hc => Or.inl ⟨_, (Dispatch.onTimer_eq_some hc).2.2, rfl⟩)
      (fun a r buf' j hmem => by simp at hmem) fun a b j buf' hmem => by simp at hmem
    · simpa [sentOn, handedOn] using h.carries j l hl
    · simp [sentOn, handedOn]

end

end

end Neatworks.Net
