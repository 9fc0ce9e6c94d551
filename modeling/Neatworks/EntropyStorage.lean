import Neatworks.EntropyNode

/-!
# The storage of the entropy peer

Of a chunk there is one request or task at a time, and it goes through one
store and then one load. A load takes the fragment away, so the session fails
when a second one is asked for.
-/

namespace Neatworks.Entropy

open Outcome

section
variable {K P σ : Type} {codec : Codec}

def Entry.isStore (chunk : Chunk) : Entry K P σ codec → Bool
  | .call (.store c _ _) => c = chunk
  | _ => false

def Entry.isLoad (chunk : Chunk) : Entry K P σ codec → Bool
  | .call (.load c _ _) => c = chunk
  | _ => false

/-- How many stores and loads of a chunk have been asked for. -/
def counts (chunk : Chunk) (history : List (Entry K P σ codec)) : Nat × Nat :=
  (history.countP (Entry.isStore chunk), history.countP (Entry.isLoad chunk))

def onChunk (chunk : Chunk) (tasks : List Task) : List Task := tasks.filter (·.chunk = chunk)

/-- Where a chunk is: its entry, what there is to do for it, its directory, and
the stores and loads that have been asked for. -/
inductive Phase {D : Type} (chunk : Chunk) : Option (PersistState D) → List Task → Option Directory → Nat × Nat → Prop
  | fresh {entry : Option (PersistState D)} (h : ∀ state, entry = some state → state.status.IsRecovering) :
    Phase chunk entry [] none (0, 0)
  | creating {state : PersistState D} {fragment : Bytes} (h : state.status = .storing) :
    Phase chunk (some state) [.createDir chunk state.index fragment] none (1, 0)
  | writing {state : PersistState D} {fragment : Bytes} {dir : Directory} (h : state.status = .storing) :
    Phase chunk (some state) [.write chunk state.index fragment] (some dir) (1, 0)
  | written {state : PersistState D} {dir : Directory} (h : state.status = .storing) (hfile : dir state.index ≠ none) :
    Phase chunk (some state) [.stored chunk] (some dir) (1, 0)
  | stored {state : PersistState D} {dir : Directory} (h : state.status = .available) (hfile : dir state.index ≠ none) :
    Phase chunk (some state) [] (some dir) (1, 0)
  | reading {state : PersistState D} {dir : Directory} (h : state.status = .available) (hfile : dir state.index ≠ none) :
    Phase chunk (some state) [.read chunk state.index true] (some dir) (1, 1)
  | removing {state : PersistState D} {dir : Directory} {fragment : Bytes} (h : state.status = .available) :
    Phase chunk (some state) [.removeDirAll chunk state.index fragment] (some dir) (1, 1)
  | removed {state : PersistState D} {fragment : Bytes} (h : state.status = .available) :
    Phase chunk (some state) [.loaded chunk state.index fragment] none (1, 1)
  | taken {state : PersistState D} (h : state.status = .available) : Phase chunk (some state) [] none (1, 1)

section
variable {D : Type} {chunk : Chunk} {entry : Option (PersistState D)} {tasks : List Task} {dir : Option Directory} {n : Nat × Nat}

theorem Phase.length_le (h : Phase chunk entry tasks dir n) : tasks.length ≤ 1 := by
  cases h <;> simp

theorem Phase.counts_le (h : Phase chunk entry tasks dir n) : n.1 ≤ 1 ∧ n.2 ≤ 1 := by
  cases h <;> decide

theorem Phase.one {l₁ l₂ : List Task} {task : Task} (h : Phase chunk entry (l₁ ++ task :: l₂) dir n) : l₁ = [] ∧ l₂ = [] := by
  have hlength := h.length_le
  simp only [List.length_append, List.length_cons] at hlength
  exact ⟨List.eq_nil_of_length_eq_zero (by omega), List.eq_nil_of_length_eq_zero (by omega)⟩

theorem Phase.perm {tasks' : List Task} (h : Phase chunk entry tasks dir n) (hperm : tasks.Perm tasks') :
    Phase chunk entry tasks' dir n := by
  have hsame : tasks' = tasks := by
    cases h with
    | fresh => exact hperm.symm.eq_nil
    | stored => exact hperm.symm.eq_nil
    | taken => exact hperm.symm.eq_nil
    | _ => exact List.perm_singleton.mp hperm.symm
  rwa [hsame]

theorem Phase.of_recovering (h : Phase chunk entry tasks dir n)
    (hentry : ∀ state, entry = some state → state.status.IsRecovering) : tasks = [] ∧ dir = none ∧ n = (0, 0) := by
  have hnot {state : PersistState D} (h : some state = entry) (hstatus : state.status = .storing ∨ state.status = .available) :
      False := by
    have hrecovering := hentry state h.symm
    rcases hstatus with hstatus | hstatus <;> simp [hstatus, PersistStatus.IsRecovering] at hrecovering
  cases h with
  | fresh => exact ⟨rfl, rfl, rfl⟩
  | creating h => exact (hnot rfl (Or.inl h)).elim
  | writing h => exact (hnot rfl (Or.inl h)).elim
  | written h => exact (hnot rfl (Or.inl h)).elim
  | stored h => exact (hnot rfl (Or.inr h)).elim
  | reading h => exact (hnot rfl (Or.inr h)).elim
  | removing h => exact (hnot rfl (Or.inr h)).elim
  | removed h => exact (hnot rfl (Or.inr h)).elim
  | taken h => exact (hnot rfl (Or.inr h)).elim

theorem Phase.of_available {state : PersistState D} (h : Phase chunk (some state) tasks dir n)
    (havailable : state.status = .available) (hn : n.2 = 0) :
    tasks = [] ∧ (∃ d, dir = some d ∧ d state.index ≠ none) ∧ n = (1, 0) := by
  cases h with
  | fresh hentry =>
    have hrecovering := hentry state rfl
    simp [havailable, PersistStatus.IsRecovering] at hrecovering
  | creating hstoring => simp [havailable] at hstoring
  | writing hstoring => simp [havailable] at hstoring
  | written hstoring => simp [havailable] at hstoring
  | stored _ hfile => exact ⟨rfl, ⟨_, rfl, hfile⟩, rfl⟩
  | reading => simp at hn
  | removing => simp at hn
  | removed => simp at hn
  | taken => simp at hn

theorem Phase.run {task : Task} {disk : Disk} (h : Phase chunk entry [task] dir n) (hchunk : task.chunk = chunk)
    (hdir : disk chunk = dir) : ∃ task' disk', task.run disk = .ok (task', disk') ∧ task'.chunk = chunk ∧
      (∀ c, c ≠ chunk → disk' c = disk c) ∧ Phase chunk entry [task'] (disk' chunk) n := by
  cases h with
  | @creating state fragment hstoring =>
    refine ⟨.write chunk state.index fragment, Function.update disk chunk (some fun _ => none), by simp [Task.run, hdir], rfl,
      fun c hc => Function.update_of_ne hc .., ?_⟩
    rw [Function.update_self]
    exact .writing hstoring
  | @writing state fragment dir hstoring =>
    refine ⟨.stored chunk, Function.update disk chunk (some (Function.update dir state.index (some fragment))),
      by simp [Task.run, hdir], rfl, fun c hc => Function.update_of_ne hc .., ?_⟩
    rw [Function.update_self]
    exact .written hstoring (by simp)
  | written hstoring hfile =>
    refine ⟨.stored chunk, disk, rfl, rfl, fun _ _ => rfl, ?_⟩
    rw [hdir]
    exact .written hstoring hfile
  | @reading state dir havailable hfile =>
    obtain ⟨fragment, hfragment⟩ := Option.ne_none_iff_exists'.mp hfile
    refine ⟨.removeDirAll chunk state.index fragment, disk, by simp [Task.run, hdir, hfragment], rfl, fun _ _ => rfl, ?_⟩
    rw [hdir]
    exact .removing havailable
  | @removing state dir fragment havailable =>
    refine ⟨.loaded chunk state.index fragment, Function.update disk chunk none, by simp [Task.run, hdir], rfl,
      fun c hc => Function.update_of_ne hc .., ?_⟩
    rw [Function.update_self]
    exact .removed havailable
  | @removed state fragment havailable =>
    refine ⟨.loaded chunk state.index fragment, disk, rfl, rfl, fun _ _ => rfl, ?_⟩
    rw [hdir]
    exact .removed havailable

end

/-- Every chunk is in one of its phases. -/
def Phases (peer : Peer K P σ codec) (todo : List Task) (disk : Disk) (history : List (Entry K P σ codec)) : Prop :=
  ∀ chunk, Phase chunk (peer.persists chunk) (onChunk chunk todo) (disk chunk) (counts chunk history)

section
variable {peer : Peer K P σ codec} {todo : List Task} {disk : Disk} {history : List (Entry K P σ codec)}

theorem Phases.perm {todo' : List Task} (h : Phases peer todo disk history) (hperm : todo.Perm todo') :
    Phases peer todo' disk history := fun chunk => (h chunk).perm (hperm.filter _)

@[simp] theorem onChunk_append (chunk : Chunk) (l l' : List Task) : onChunk chunk (l ++ l') = onChunk chunk l ++ onChunk chunk l' :=
  List.filter_append ..

theorem Phases.update {l₁ l₂ new : List Task} {task : Task} {peer' : Peer K P σ codec} {disk' : Disk}
    {history' : List (Entry K P σ codec)} (h : Phases peer (l₁ ++ task :: l₂) disk history)
    (hnew : ∀ t ∈ new, t.chunk = task.chunk) (hpeer : ∀ chunk, chunk ≠ task.chunk → peer'.persists chunk = peer.persists chunk)
    (hdisk : ∀ chunk, chunk ≠ task.chunk → disk' chunk = disk chunk)
    (hhistory : ∀ chunk, counts chunk history' = counts chunk history)
    (hphase : Phase task.chunk (peer.persists task.chunk) [task] (disk task.chunk) (counts task.chunk history) →
      Phase task.chunk (peer'.persists task.chunk) new (disk' task.chunk) (counts task.chunk history)) :
    Phases peer' (l₁ ++ new ++ l₂) disk' history' := by
  intro chunk
  have hchunk := h chunk
  rw [hhistory]
  by_cases hc : chunk = task.chunk
  · subst hc
    have hfilter : onChunk task.chunk new = new := List.filter_eq_self.mpr fun t ht => decide_eq_true (hnew t ht)
    have htask : onChunk task.chunk (l₁ ++ task :: l₂) = onChunk task.chunk l₁ ++ task :: onChunk task.chunk l₂ := by
      simp [onChunk]
    rw [htask] at hchunk
    obtain ⟨h₁, h₂⟩ := hchunk.one
    rw [h₁, h₂] at hchunk
    rw [onChunk_append, onChunk_append, h₁, h₂, hfilter, List.nil_append, List.append_nil]
    exact hphase hchunk
  · have hnone : onChunk chunk new = [] := by
      refine List.filter_eq_nil_iff.mpr fun t ht hsame => hc ?_
      rw [← hnew t ht]
      exact (of_decide_eq_true hsame).symm
    have htask : onChunk chunk (l₁ ++ task :: l₂) = onChunk chunk l₁ ++ onChunk chunk l₂ := by
      have hne : ¬ task.chunk = chunk := fun heq => hc heq.symm
      simp [onChunk, hne]
    rw [htask] at hchunk
    rw [onChunk_append, onChunk_append, hnone, List.append_nil, hpeer chunk hc, hdisk chunk hc]
    exact hchunk

/-- No call of a task fails, and the task goes on in its phase. -/
theorem Phases.run {l₁ l₂ : List Task} {task : Task} (h : Phases peer (l₁ ++ task :: l₂) disk history) :
    ∃ task' disk', task.run disk = .ok (task', disk') ∧ Phases peer (l₁ ++ task' :: l₂) disk' history := by
  have hself := h task.chunk
  have htask : onChunk task.chunk (l₁ ++ task :: l₂) = onChunk task.chunk l₁ ++ task :: onChunk task.chunk l₂ := by
    simp [onChunk]
  rw [htask] at hself
  obtain ⟨h₁, h₂⟩ := hself.one
  rw [h₁, h₂, List.nil_append] at hself
  obtain ⟨task', disk', hrun, hchunk, hdisk, hphase⟩ := hself.run rfl rfl
  refine ⟨task', disk', hrun, ?_⟩
  have hupdate : Phases peer (l₁ ++ [task'] ++ l₂) disk' history :=
    h.update (by simpa using hchunk) (fun _ _ => rfl) hdisk (fun _ => rfl) fun _ => hphase
  simpa using hupdate

end

/-! ## Events -/

section
variable {s peer : Peer K P σ codec} {event : Event K P σ codec} {es : List (Effect K P σ codec)} {todo : List Task}
  {disk : Disk} {history : List (Entry K P σ codec)}

def Request.isStore (chunk : Chunk) : Request → Bool
  | .store c _ _ => c = chunk
  | .load .. => false

def Request.isLoad (chunk : Chunk) : Request → Bool
  | .store .. => false
  | .load c _ _ => c = chunk

@[simp] theorem requests_nil : requests ([] : List (Effect K P σ codec)) = [] := rfl

@[simp] theorem requests_cons (e : Effect K P σ codec) (es : List (Effect K P σ codec)) :
    requests (e :: es) = e.request.toList ++ requests es := by
  unfold requests
  rw [List.filterMap_cons]
  cases e.request <;> rfl

theorem requests_persistCalls (es : List (Effect K P σ codec)) : requests (persistCalls es) = requests es := by
  induction es with
  | nil => rfl
  | cons e es ih =>
    unfold persistCalls at ih ⊢
    cases e <;> simp [List.filter_cons, Effect.request, Effect.onPersist, ih]

theorem counts_after (chunk : Chunk) (history : List (Entry K P σ codec)) (event : Event K P σ codec)
    (es : List (Effect K P σ codec)) : counts chunk (history ++ .event event :: es.map .call) =
      ((counts chunk history).1 + (requests es).countP (Request.isStore chunk),
        (counts chunk history).2 + (requests es).countP (Request.isLoad chunk)) := by
  have hcalls : (es.map Entry.call).countP (Entry.isStore chunk) = (requests es).countP (Request.isStore chunk) ∧
      (es.map Entry.call).countP (Entry.isLoad chunk) = (requests es).countP (Request.isLoad chunk) := by
    induction es with
    | nil => exact ⟨rfl, rfl⟩
    | cons e es ih =>
      cases e <;> simp [Effect.request, Entry.isStore, Entry.isLoad, Request.isStore, Request.isLoad, List.countP_cons, ih]
  simp [counts, hcalls, Entry.isStore, Entry.isLoad]

theorem Phases.ask {c : Chunk} {new : List Request} (h : Phases s todo disk history)
    (hpeer : ∀ chunk, chunk ≠ c → peer.persists chunk = s.persists chunk) (hes : requests es = new)
    (hnew : ∀ request ∈ new, request.spawn.chunk = c)
    (hphase : Phase c (s.persists c) (onChunk c todo) (disk c) (counts c history) →
      Phase c (peer.persists c) (onChunk c todo ++ new.map Request.spawn) (disk c)
        ((counts c history).1 + new.countP (Request.isStore c), (counts c history).2 + new.countP (Request.isLoad c))) :
    Phases peer (todo ++ (requests es).map Request.spawn) disk (history ++ .event event :: es.map .call) := by
  intro chunk
  rw [counts_after, hes, onChunk_append]
  by_cases hc : chunk = c
  · subst hc
    have hfilter : onChunk chunk (new.map Request.spawn) = new.map Request.spawn := by
      refine List.filter_eq_self.mpr fun t ht => decide_eq_true ?_
      obtain ⟨request, hrequest, rfl⟩ := List.mem_map.mp ht
      exact hnew request hrequest
    rw [hfilter]
    exact hphase (h chunk)
  · have hother (request : Request) (hrequest : request ∈ new) : request.spawn.chunk ≠ chunk := fun heq =>
      hc (heq.symm.trans (hnew request hrequest))
    have hnone : onChunk chunk (new.map Request.spawn) = [] := by
      refine List.filter_eq_nil_iff.mpr fun t ht hsame => ?_
      obtain ⟨request, hrequest, rfl⟩ := List.mem_map.mp ht
      exact hother request hrequest (of_decide_eq_true hsame)
    have hstores : new.countP (Request.isStore chunk) = 0 := by
      refine List.countP_eq_zero.mpr fun request hrequest hstore => hother request hrequest ?_
      cases request with
      | store => exact of_decide_eq_true hstore
      | load => cases hstore
    have hloads : new.countP (Request.isLoad chunk) = 0 := by
      refine List.countP_eq_zero.mpr fun request hrequest hload => hother request hrequest ?_
      cases request with
      | store => cases hload
      | load => exact of_decide_eq_true hload
    rw [hnone, hstores, hloads, List.append_nil, hpeer chunk hc]
    exact h chunk

theorem Phases.loaded {c : Chunk} {index : UInt32} {fragment : Bytes} {l₁ l₂ : List Task}
    (h : Phases s (l₁ ++ .loaded c index fragment :: l₂) disk history) : Phases s (l₁ ++ l₂) disk history := by
  have hphases : Phases s (l₁ ++ [] ++ l₂) disk history := by
    refine h.update (by simp) (fun _ _ => rfl) (fun _ _ => rfl) (fun _ => rfl) fun hphase => ?_
    simp only [Task.chunk] at hphase ⊢
    generalize s.persists c = entry at hphase ⊢
    generalize disk c = dir at hphase ⊢
    generalize counts c history = n at hphase ⊢
    cases hphase with
    | removed hstatus => exact .taken hstatus
  simpa using hphases

variable [DigestHash P]

theorem Phases.after (h : Phases s todo disk history) (hchange : Change s event peer (persistCalls es))
    (hstoreOk : ∀ chunk, event ≠ .storeOk chunk)
    (hpull : ∀ pull state, event = .recvPull pull → s.persists pull.chunk = some state → state.status = .available →
      (counts pull.chunk history).2 = 0) :
    Phases peer (todo ++ (requests es).map Request.spawn) disk (history ++ .event event :: es.map .call) := by
  have hes := requests_persistCalls es
  generalize persistCalls es = calls at hes hchange
  have hsame {c : Chunk} {state : PersistState codec.Decoder}
      (hpersists : peer.persists = Function.update s.persists c (some state)) (chunk : Chunk) (hc : chunk ≠ c) :
      peer.persists chunk = s.persists chunk := by
    rw [hpersists, Function.update_of_ne hc]
  have hquiet (hpersists : peer.persists = s.persists) (hnone : requests es = []) :
      Phases peer (todo ++ (requests es).map Request.spawn) disk (history ++ .event event :: es.map .call) := by
    intro chunk
    have hchunk := h chunk
    rw [counts_after, hnone, hpersists]
    simpa using hchunk
  cases hchange with
  | idle hpersists => exact hquiet hpersists hes.symm
  | @invited invite index _ state _ hstate hpersists =>
    refine h.ask (hsame hpersists) hes.symm (by simp [Effect.request]) fun hphase => ?_
    simp only [requests_cons, requests_nil, Effect.request, Option.toList_none, List.append_nil, List.map_nil, List.countP_nil,
      Nat.add_zero]
    rw [hpersists, Function.update_self]
    rcases hstate with hold | ⟨hnone, _, hrecovering⟩
    · rwa [← hold]
    · obtain ⟨htasks, hdir, hn⟩ := hphase.of_recovering (by simp [hnone])
      rw [htasks, hdir, hn]
      exact .fresh fun _ hsome => by cases hsome; exact hrecovering
  | @recovers _ _ chunk state state' hstate hrecovering _ hstatus hpersists =>
    refine h.ask (hsame hpersists) hes.symm (by simp) fun hphase => ?_
    obtain ⟨htasks, hdir, hn⟩ := hphase.of_recovering fun _ hsome => by
      rw [hstate] at hsome
      cases hsome
      exact hrecovering
    rw [hpersists, Function.update_self, htasks, hdir, hn]
    exact .fresh fun _ hsome => by cases hsome; exact hstatus
  | @stores _ _ chunk state fragment hstate hrecovering hpersists =>
    refine h.ask (hsame hpersists) hes.symm (by simp [Effect.request, Request.spawn, Task.chunk]) fun hphase => ?_
    obtain ⟨htasks, hdir, hn⟩ := hphase.of_recovering fun _ hsome => by
      rw [hstate] at hsome
      cases hsome
      exact hrecovering
    rw [hpersists, Function.update_self, htasks, hdir, hn]
    simp only [requests_cons, requests_nil, Effect.request, Option.toList_some, List.append_nil, List.map_cons, List.map_nil,
      Request.spawn, List.nil_append, List.countP_cons, List.countP_nil, Request.isStore, Request.isLoad]
    have hcreating : Phase chunk (some (⟨state.index, .storing, state.notify⟩ : PersistState codec.Decoder))
        [.createDir chunk state.index fragment] none (1, 0) := .creating rfl
    simpa using hcreating
  | stored => exact absurd rfl (hstoreOk _)
  | receipts => exact hquiet rfl hes.symm
  | @loads pull _ state hstate hstatus hpersists =>
    refine h.ask (c := pull.chunk) (fun _ _ => by rw [hpersists]) hes.symm
      (by simp [Effect.request, Request.spawn, Task.chunk]) fun hphase => ?_
    have hloads := hpull pull state rfl hstate hstatus
    rw [hstate] at hphase
    obtain ⟨htasks, ⟨dir, hdir, hfile⟩, hn⟩ := hphase.of_available hstatus hloads
    rw [hpersists, hstate, htasks, hdir, hn]
    simp only [requests_cons, requests_nil, Effect.request, Option.toList_some, List.append_nil, List.map_cons, List.map_nil,
      Request.spawn, List.nil_append, List.countP_cons, List.countP_nil, Request.isStore, Request.isLoad]
    simpa using Phase.reading hstatus hfile

theorem Change.load_origin {calls : List (Effect K P σ codec)} (h : Change s event peer calls) {chunk : Chunk} {index : UInt32}
    {take : Bool} (hmem : .load chunk index take ∈ calls) : ∃ pull state, event = .recvPull pull ∧ pull.chunk = chunk ∧
      s.persists chunk = some state ∧ state.status = .available ∧ state.index = index := by
  cases h with
  | idle => cases hmem
  | invited => simp at hmem
  | recovers => cases hmem
  | stores => simp at hmem
  | stored _ _ hcalls =>
    rcases hcalls with rfl | ⟨peerId, rfl⟩
    · cases hmem
    · simp at hmem
  | receipts => simp at hmem
  | @loads pull _ state hstate hstatus _ =>
    cases List.mem_singleton.mp hmem
    exact ⟨pull, state, rfl, rfl, hstate, hstatus, rfl⟩

theorem onStoreOk_available {chunk : Chunk} {state : PersistState codec.Decoder} (hstate : s.persists chunk = some state) :
    (s.onStoreOk chunk).Sat (fun peer es => (∃ notify, peer.persists =
      Function.update s.persists chunk (some ⟨state.index, .available, notify⟩)) ∧ requests es = []) fun _ => True := by
  unfold Peer.onStoreOk
  rw [hstate]
  dsimp only
  split
  · next hnotify => exact ⟨⟨state.notify, rfl⟩, rfl⟩
  · exact ⟨⟨none, rfl⟩, rfl⟩

theorem Phases.storeOk {c : Chunk} {l₁ l₂ : List Task} (h : Phases s (l₁ ++ .stored c :: l₂) disk history)
    (hevent : s.onStoreOk c = .ok peer es) :
    Phases peer (l₁ ++ l₂ ++ (requests es).map Request.spawn) disk (history ++ .event (.storeOk c) :: es.map .call) := by
  have hself := h c
  have hstored : onChunk c (l₁ ++ .stored c :: l₂) = onChunk c l₁ ++ .stored c :: onChunk c l₂ := by
    simp [onChunk, Task.chunk]
  rw [hstored] at hself
  obtain ⟨h₁, h₂⟩ := hself.one
  rw [h₁, h₂, List.nil_append] at hself
  generalize hentry : s.persists c = entry at hself
  generalize hdir : disk c = dir at hself
  generalize hn : counts c history = n at hself
  cases hself with
  | @written state dir hstatus hfile =>
    have havailable := onStoreOk_available hentry
    rw [hevent] at havailable
    obtain ⟨⟨notify, hpersists⟩, hnone⟩ := havailable
    have hcounts (chunk : Chunk) :
        counts chunk (history ++ .event (.storeOk c) :: es.map .call) = counts chunk history := by
      rw [counts_after, hnone]
      rfl
    have hphases : Phases peer (l₁ ++ [] ++ l₂) disk (history ++ .event (.storeOk c) :: es.map .call) := by
      refine h.update (by simp) (fun chunk hc => ?_) (fun _ _ => rfl) hcounts fun _ => ?_
      · rw [hpersists]
        exact Function.update_of_ne hc ..
      · show Phase c (peer.persists c) [] (disk c) (counts c history)
        rw [hpersists, Function.update_self, hdir, hn]
        exact .stored rfl hfile
    rw [hnone]
    simpa using hphases

end

/-! ## Runs -/

def PersistStatus.IsAvailable {D : Type} : PersistStatus D → Prop
  | .available => True
  | .recovering _ | .storing => False

instance {D : Type} : DecidablePred (PersistStatus.IsAvailable (D := D))
  | .available => .isTrue trivial
  | .recovering _ | .storing => .isFalse not_false

/-- No pull comes for a stored chunk that a load has been asked for before. -/
def Single (node : Node K P σ codec) : Move K P σ codec → Prop
  | .event (.recvPull pull) => ∀ state, node.peer.persists pull.chunk = some state → state.status.IsAvailable →
    (counts pull.chunk node.history).2 = 0
  | _ => True

structure Stored (node : Node K P σ codec) : Prop where
  running : node.failed = none
  phases : Phases node.peer node.fs.todo node.fs.disk node.history

section
variable [Preimage K] [DigestHash P] {node : Node K P σ codec}

theorem Stored.after {event : Event K P σ codec} {peer : Peer K P σ codec} {es : List (Effect K P σ codec)}
    (h : Stored node) (hevent : node.peer.onEvent event = .ok peer es) (hstoreOk : ∀ chunk, event ≠ .storeOk chunk)
    (hpull : ∀ pull state, event = .recvPull pull → node.peer.persists pull.chunk = some state →
      state.status = .available → (counts pull.chunk node.history).2 = 0) : Stored (node.after event peer es) := by
  exact ⟨h.running, (h.phases.after (change_of_ok hevent) hstoreOk hpull).perm (node.fs.todo_after (requests es))⟩

theorem Stored.step {node' : Node K P σ codec} {move : Move K P σ codec} (h : Stored node) (hsingle : Single node move)
    (hstep : node.Steps move node') : Stored node' := by
  cases hstep with
  | event hext hevent =>
    refine h.after hevent (fun chunk heq => ?_) fun pull state heq hstate hstatus => ?_
    · subst heq
      exact hext
    · subst heq
      exact hsingle state hstate (by rw [hstatus]; trivial)
  | @complete n pick _ _ _ _ hjob hrun hevent =>
    have hnode : Stored { node with jobs := node.jobs.eraseIdx n } := ⟨h.running, h.phases⟩
    exact hnode.after hevent (fun chunk heq => by cases heq) fun pull state heq => by cases heq
  | dropped => exact ⟨h.running, h.phases⟩
  | @recv request events hevents =>
    refine ⟨h.running, h.phases.perm ?_⟩
    simp only [Fs.todo, hevents, List.map_cons, List.cons_append]
    rw [← List.append_assoc]
    exact List.perm_append_singleton _ _ |>.symm
  | @run n task task' disk htask hrun =>
    obtain ⟨l₁, l₂, htodo, hset, _⟩ := Fs.todo_tasks htask
    have hphases := h.phases
    rw [htodo] at hphases
    obtain ⟨task'', disk', hrun', hnext⟩ := hphases.run
    rw [hrun] at hrun'
    cases hrun'
    refine ⟨h.running, ?_⟩
    rw [← hset] at hnext
    exact hnext
  | @fail n task error htask hrun =>
    obtain ⟨l₁, l₂, htodo, _⟩ := Fs.todo_tasks htask
    have hphases := h.phases
    rw [htodo] at hphases
    obtain ⟨task', disk', hrun', _⟩ := hphases.run
    rw [hrun] at hrun'
    cases hrun'
  | @join n task event peer es htask hdone hevent =>
    obtain ⟨l₁, l₂, htodo, _, herase⟩ := Fs.todo_tasks htask
    have hphases := h.phases
    rw [htodo] at hphases
    cases task with
    | createDir => cases hdone
    | write => cases hdone
    | read => cases hdone
    | removeDirAll => cases hdone
    | stored chunk =>
      cases hdone
      refine ⟨h.running, Phases.perm ?_ (Fs.todo_after _ (requests es))⟩
      rw [herase]
      exact hphases.storeOk hevent
    | loaded chunk index fragment =>
      cases hdone
      have hnode : Stored { node with fs := { node.fs with tasks := node.fs.tasks.eraseIdx n } } := by
        refine ⟨h.running, ?_⟩
        rw [herase]
        exact hphases.loaded
      exact hnode.after hevent (fun chunk heq => by cases heq) fun pull state heq => by cases heq

theorem stored_reach (h : (nodeMachine K P σ codec).Reach Single node) : Stored node := by
  refine h.invariant (I := Stored) ?_ fun node move node' _ hnode hsingle hstep => hnode.step hsingle (Node.step_steps hstep)
  rintro _ ⟨id, crypto, fragmentLen, chunkK, chunkN, chunkM, rfl⟩
  exact ⟨rfl, fun chunk => .fresh fun state hstate => by cases hstate⟩

theorem load_step {node' : Node K P σ codec} {move : Move K P σ codec} {new : List (Entry K P σ codec)}
    (hstep : node.Steps move node') (hnew : node'.history = node.history ++ new) {chunk : Chunk} {index : UInt32} {take : Bool}
    (hmem : .call (.load chunk index take) ∈ new) : ∃ pull state, move = .event (.recvPull pull) ∧ pull.chunk = chunk ∧
      node.peer.persists chunk = some state ∧ state.status = .available ∧ state.index = index := by
  have hnone (hsame : node.history = node.history ++ new) : False := by
    rw [List.self_eq_append_right] at hsame
    rw [hsame] at hmem
    cases hmem
  have hafter {event : Event K P σ codec} {peer : Peer K P σ codec} {es : List (Effect K P σ codec)}
      (hevent : node.peer.onEvent event = .ok peer es)
      (hes : node.history ++ .event event :: es.map .call = node.history ++ new) : ∃ pull state, event = .recvPull pull ∧
        pull.chunk = chunk ∧ node.peer.persists chunk = some state ∧ state.status = .available ∧ state.index = index := by
    rw [List.append_cancel_left_eq] at hes
    subst hes
    have hload : .load chunk index take ∈ es := by simpa using hmem
    exact (change_of_ok hevent).load_origin ((mem_persistCalls rfl).mpr hload)
  cases hstep with
  | event hext hevent =>
    obtain ⟨pull, state, rfl, hstate⟩ := hafter hevent hnew
    exact ⟨pull, state, rfl, hstate⟩
  | complete hjob hrun hevent =>
    obtain ⟨pull, state, heq, _⟩ := hafter hevent hnew
    cases heq
  | dropped => exact (hnone hnew).elim
  | recv => exact (hnone hnew).elim
  | run => exact (hnone hnew).elim
  | fail => exact (hnone hnew).elim
  | @join n task event peer es htask hdone hevent =>
    obtain ⟨pull, state, rfl, _⟩ := hafter hevent hnew
    cases task <;> cases hdone

/-- In a run in which no pull comes for a stored chunk after a load of it, no
store and no load fails: of a chunk there is one of each, and the load is asked
for when its file is there. -/
theorem storage_disciplined (h : (nodeMachine K P σ codec).Reach Single node) :
    node.failed = none ∧ (∀ chunk, (counts chunk node.history).1 ≤ 1 ∧ (counts chunk node.history).2 ≤ 1) ∧
      ∀ move node' new, Single node move → node.step move = some node' → node'.history = node.history ++ new →
        ∀ chunk index take, .call (.load chunk index take) ∈ new →
          (∃ dir, node.fs.disk chunk = some dir ∧ dir index ≠ none) ∧ (counts chunk node.history).2 = 0 := by
  have hstored := stored_reach h
  refine ⟨hstored.running, fun chunk => (hstored.phases chunk).counts_le, ?_⟩
  intro move node' new hsingle hstep hnew chunk index take hmem
  obtain ⟨pull, state, rfl, rfl, hstate, hstatus, rfl⟩ := load_step (Node.step_steps hstep) hnew hmem
  have hloads := hsingle state hstate (by rw [hstatus]; trivial)
  have hphase := hstored.phases pull.chunk
  rw [hstate] at hphase
  exact ⟨(hphase.of_available hstatus hloads).2.1, hloads⟩

instance (node : Node K P σ codec) : (move : Move K P σ codec) → Decidable (Single node move)
  | .event (.recvPull pull) =>
    inferInstanceAs (Decidable (∀ state ∈ node.peer.persists pull.chunk, state.status.IsAvailable → _ = 0))
  | .event (.put ..) | .event (.get _) | .event (.recvInvite ..) | .event (.recvInviteOk _) | .event (.recvOffer _)
  | .event (.recvFragmentAvailable _) | .event (.downloadOk ..) | .event (.storeOk _) | .event (.loadOk ..)
  | .event (.codec ..) | .complete .. | .recv | .run _ | .join _ => instDecidableTrue

end

end

/-- A fragment is stored and then pulled. -/
theorem storage_disciplined_one : ∃ node : Node Digest UInt8 UInt8 .toy,
    node.failed = none ∧ counts (.replicate 32 9) node.history = (1, 1) := by
  obtain ⟨node, hreach, hcounts⟩ := node_of_exec (Single : Node Digest UInt8 UInt8 .toy → _) (.replicate 32 1) ⟨.toy, 1⟩ 1 1 1 1
    [.event (.recvInvite ⟨.replicate 32 9, .replicate 32 2⟩ 5),
      .event (.recvOffer ⟨.replicate 32 9, 5, some (.replicate 32 2)⟩), .event (.downloadOk (.replicate 32 9) 5 [0]),
      .recv, .run 0, .run 0, .join 0, .event (.recvPull ⟨.replicate 32 9, .replicate 32 3⟩), .recv, .run 0, .run 0, .join 0]
    (fun node => counts (.replicate 32 9) node.history = (1, 1)) (by decide +kernel)
  exact ⟨node, (storage_disciplined hreach).1, hcounts⟩

/-- Two pulls of a stored fragment; the second load finds no file. -/
theorem storage_undisciplined : ∃ node : Node Digest UInt8 UInt8 .toy,
    (nodeMachine Digest UInt8 UInt8 .toy).Reach Machine.always node ∧ node.failed = some .notFound :=
  node_of_exec (Machine.always : Node Digest UInt8 UInt8 .toy → _) (.replicate 32 1) ⟨.toy, 1⟩ 1 1 1 1
    [.event (.recvInvite ⟨.replicate 32 9, .replicate 32 2⟩ 5),
      .event (.recvOffer ⟨.replicate 32 9, 5, some (.replicate 32 2)⟩), .event (.downloadOk (.replicate 32 9) 5 [0]),
      .recv, .run 0, .run 0, .join 0, .event (.recvPull ⟨.replicate 32 9, .replicate 32 3⟩),
      .event (.recvPull ⟨.replicate 32 9, .replicate 32 4⟩), .recv, .recv, .run 0, .run 0, .run 1]
    (fun node => node.failed = some .notFound) (by decide +kernel)

end Neatworks.Entropy
