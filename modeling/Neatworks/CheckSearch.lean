import Neatworks.SearchFinite
import Neatworks.UnreplicatedDry
import Neatworks.UnreplicatedLinear

/-!
# Searches of the unreplicated protocol

`impl crate::search::State for State` of `unreplicated.rs`. A dry state tells
the whole state, so the searches are right whatever the settings. They find
nothing wrong where nothing is wrong with the states that the steps reach.
-/

namespace Neatworks

namespace Search

section
variable {S T E ε : Type*} [State S E ε] (dry : S → T) (settings : Settings S ε) (initial : S)

/-- No search, by whatever threads in whatever order, returns an error or a
violated invariant. -/
def Passes : Prop :=
  ∀ [DecidableEq T] (timed : Bool) (numWorker : ℕ+),
    (∀ σ r, (threads dry settings timed numWorker initial).Reach Machine.always σ → σ.caller = .joined (some r) →
      r = .spaceExhausted ∨ ∃ s, r = .goalFound s ∧ Reachable initial s ∧ settings.goal s = true) ∧
    ∀ σ r, (probes dry settings initial timed numWorker).Reach Machine.always σ → σ.caller = .joined (some r) →
      ∃ s, r = .goalFound s ∧ Reachable initial s ∧ settings.goal s = true

variable {dry settings initial}

theorem passes_of (law : Lawful dry settings initial) (hholds : ∀ s, Reachable initial s → Holds settings s)
    (hsteps : ∀ n s, Path settings initial n s → BelowMax settings n → ∀ event ∈ State.events s,
      ∃ s', State.step s event = .ok s') : Passes dry settings initial := by
  intro _ timed numWorker
  refine ⟨fun σ r h hr => ?_, fun σ r h hr => ?_⟩
  · exact (joined_cases law hholds hsteps h hr).imp And.left id
  · have hprobed := (probesSound_reach h).taken r (by rw [hr]; rfl)
    cases r with
    | err trace event err =>
      obtain ⟨z, hw, he, hfails⟩ := hprobed
      obtain ⟨z', hok⟩ := hsteps _ z hw.path hw.below event he
      rw [hfails] at hok
      cases hok
    | invariantViolation trace err =>
      obtain ⟨z, _, hpath, _, hinv⟩ := hprobed
      have hok := hholds z hpath.reachable
      unfold Holds at hok
      rw [hinv] at hok
      cases hok
    | goalFound s =>
      obtain ⟨n, hpath, _, hgoal⟩ := hprobed
      exact ⟨s, rfl, hpath.reachable, hgoal⟩
    | spaceExhausted => exact hprobed.elim
    | timeout => exact hprobed.elim

end

end Search

namespace Unreplicated

open Outcome

section
variable {W : Type} [Workload W] [SerdeJson]

/-- A panic of `step` is an error here; no search below makes a step that fails. -/
instance : Search.State (State W) Event Error where
  events := State.events
  step self event :=
    match self.step event with
    | .ok s _ => .ok s
    | .fail reason _ => .error reason

theorem search_step_ok {s s' : State W} {event : Event} :
    Search.State.step s event = .ok s' ↔ ∃ es, s.step event = .ok s' es := by
  simp only [Search.State.step]
  cases s.step event <;> simp

/-! ## Counters -/

omit [SerdeJson] in
theorem State.flushed_seq {s : State W} {client : ClientState W} (h : client ∈ s.flushed.clients) :
    ∃ c ∈ s.clients, client.state.seq = c.state.seq := by
  obtain ⟨c, hc, rfl⟩ := List.mem_map.mp h
  exact ⟨c, hc, rfl⟩

/-- A step adds at most one to the counter of a client. -/
theorem State.step_seq {s : State W} (h : ∀ client ∈ s.clients, client.Settled) (event : Event) :
    (s.step event).Sat (fun s' _ => ∀ client ∈ s'.clients, ∃ c ∈ s.clients,
      client.state.seq.toNat ≤ c.state.seq.toNat + 1) fun _ => True := by
  have hsame : ∀ {s' : State W}, (∀ client ∈ s'.clients, ∃ c ∈ s.clients, client.state.seq = c.state.seq) →
      ∀ client ∈ s'.flushed.clients, ∃ c ∈ s.clients, client.state.seq.toNat ≤ c.state.seq.toNat + 1 := by
    intro s' hs' client hclient
    obtain ⟨c, hc, heq⟩ := State.flushed_seq hclient
    obtain ⟨c', hc', heq'⟩ := hs' c hc
    exact ⟨c', hc', by rw [heq, heq']; exact Nat.le_succ _⟩
  refine State.step_sat h (fun request _ => ?_) (fun _ _ _ _ _ _ => hsame fun c hc => ⟨c, hc, rfl⟩)
    (fun index c timerId op event' _ hc _ _ => hsame fun client hclient => ?_) fun index c reply invoke event' _ hc _ _ _ => ?_
  · have htrue : (s.replica.onRecv request).Sat (fun _ _ => True) fun _ => True :=
      Replica.onRecv_sat (fun _ _ _ => trivial) (fun _ _ _ => trivial) fun _ _ _ _ => trivial
    exact htrue.mono (fun _ _ _ => hsame fun c hc => ⟨c, hc, rfl⟩) fun _ _ => trivial
  · rcases List.mem_or_eq_of_mem_set hclient with hclient | rfl
    · exact ⟨client, hclient, rfl⟩
    · exact ⟨c, List.mem_of_getElem? hc, rfl⟩
  · have hmem := List.mem_of_getElem? hc
    have hset : ∀ {c' : ClientState W}, c'.state.seq.toNat ≤ c.state.seq.toNat + 1 →
        ∀ client ∈ s.flushed.clients.set index c', ∃ c ∈ s.clients, client.state.seq.toNat ≤ c.state.seq.toNat + 1 := by
      intro c' hle client hclient
      rcases List.mem_or_eq_of_mem_set hclient with hclient | rfl
      · exact hsame (fun c hc => ⟨c, hc, rfl⟩) client hclient
      · exact ⟨c, hmem, hle⟩
    refine ClientState.accepted_sat (h c hmem) (fun _ _ _ _ _ _ => hset (Nat.le_succ _)) fun _ _ _ _ _ _ _ _ hroom => hset ?_
    exact (toNat_succ hroom.seq).le

omit [SerdeJson] in
theorem launched_seq {workloads : List W} {s s' : State W} {history : List Observed}
    (hof : State.ofWorkloads workloads = .ok s []) (hlaunch : s.launch = .ok s' history) :
    ∀ client ∈ s'.clients, client.state.seq = 1 := by
  obtain ⟨rfl, _⟩ := ofWorkloads_eq_ok hof
  have hsettled : ∀ client ∈ workloads.mapIdx fresh, client.Settled := by
    intro client hmem
    obtain ⟨index, w, _, rfl⟩ := List.mem_mapIdx.mp hmem
    exact ⟨rfl, rfl⟩
  obtain ⟨outs, hall, _, rfl⟩ := State.launch_eq_ok hsettled hlaunch
  intro client hmem
  obtain ⟨out, hout, rfl⟩ := List.mem_map.mp hmem
  obtain ⟨index, hindex, rfl⟩ := List.mem_iff_getElem.mp hout
  have hw : index < workloads.length := by
    rwa [← hall.length_eq, List.length_mapIdx] at hindex
  have hlaunches : State.Launches (fresh index workloads[index]) outs[index] := by
    simpa using hall.get (by rwa [List.length_mapIdx]) hindex
  obtain ⟨op, attach, workload, _, _, _, _, heq⟩ := hlaunches
  rw [heq]
  rfl

/-! ## Reachable states -/

variable {workloads : List W} {run₀ : Run W} (hinit : (checkMachine workloads).init run₀)
include hinit

theorem reachable_reach {s : State W} (h : Search.Reachable run₀.state s) :
    ∃ history, (checkMachine workloads).Reach Machine.always ⟨s, history⟩ := by
  induction h with
  | initial => exact ⟨run₀.history, .init hinit⟩
  | step _ he hs ih =>
    obtain ⟨history, hreach⟩ := ih
    obtain ⟨es, hstep⟩ := search_step_ok.mp hs
    exact ⟨history ++ es, .next hreach trivial ⟨he, es, hstep, rfl⟩⟩

theorem path_seq {settings : Search.Settings (State W) Error} {n : Nat} {s : State W}
    (h : Search.Path settings run₀.state n s) : ∀ client ∈ s.clients, client.state.seq.toNat ≤ n + 1 := by
  induction h with
  | initial =>
    obtain ⟨s, hof, hlaunch⟩ := hinit
    intro client hclient
    rw [launched_seq hof hlaunch client hclient]
    rfl
  | @step n s s' event hpath _ _ hs ih =>
    obtain ⟨history, hreach⟩ := reachable_reach hinit hpath.reachable
    obtain ⟨ps, htracked⟩ := tracked_reach hreach
    obtain ⟨es, hstep⟩ := search_step_ok.mp hs
    have hsat := State.step_seq htracked.settled event
    rw [hstep] at hsat
    intro client hclient
    obtain ⟨c, hc, hle⟩ := hsat client hclient
    exact hle.trans (Nat.succ_le_succ (ih c hc))

variable {T : Type} [DryWorkload W T]

theorem lawful (hrecover : Recoverable W (T := T)) (settings : Search.Settings (State W) Error) :
    Search.Lawful (State.dry : State W → DryState T) settings run₀.state := by
  have hunique : ∀ s₁ s₂, Search.Reachable run₀.state s₁ → Search.Reachable run₀.state s₂ →
      (s₁.dry : DryState T) = s₂.dry → s₁ = s₂ := by
    intro s₁ s₂ h₁ h₂ hdry
    obtain ⟨history₁, hreach₁⟩ := reachable_reach hinit h₁
    obtain ⟨history₂, hreach₂⟩ := reachable_reach hinit h₂
    exact state_unique hrecover hreach₁ hreach₂ hdry
  constructor
  · intro s₁ s₂ h₁ h₂ hdry
    rw [hunique s₁ s₂ h₁ h₂ hdry]
  · intro s₁ s₂ h₁ h₂ hdry event _
    rw [hunique s₁ s₂ h₁ h₂ hdry]
    cases Search.State.step s₂ event <;> simp [Search.SameDry]
  all_goals
    intro s₁ s₂ h₁ h₂ hdry
    rw [hunique s₁ s₂ h₁ h₂ hdry]

end

/-! ## Searches that pass -/

section
variable {W : Type} [Workload W]

/-- The workload has less than 2³² operations. -/
def Short (w₀ : W) : Prop := ∀ past call w, Drives w₀ past (some call) w → past.length + 1 < 2 ^ 32

/-- No client counts beyond `u32` within the depth of the search. -/
def Fits (workloads : List W) (maxDepth : Option ℕ+) : Prop :=
  (∀ w ∈ workloads, Short w) ∨ ∃ m, maxDepth = some m ∧ m.val + 1 < 2 ^ 32

variable [SerdeJson]

theorem Tracked.not_exhausts {workloads : List W} {ps : Nat → Progress (Attach W)} {s : State W} {history : List Observed}
    (h : Tracked workloads ps s history) (hshort : ∀ w ∈ workloads, Short w) (event : Event) : ¬ s.Exhausts event := by
  rintro ⟨index, client, reply, _, hclient, _, hinvoke, hnext, hlast⟩
  obtain ⟨w₀, hw⟩ := h.workload hclient
  have htracks := h.clients index w₀ client hw hclient
  obtain ⟨invoke, hinvoke⟩ := Option.ne_none_iff_exists'.mp hinvoke
  obtain ⟨attach, hwaiting⟩ := htracks.waiting hinvoke
  unfold CloseLoop.hasNext at hnext
  rw [hwaiting.attach] at hnext
  dsimp only at hnext
  split at hnext
  · cases hnext
  · next w hresult =>
    split at hnext
    · next call w' hcall =>
      have hdrives := htracks.drives
      rw [hwaiting.current] at hdrives
      have hlt := hshort w₀ (List.mem_of_getElem? hw) _ _ _ (.next hdrives hresult hcall)
      rw [htracks.seq_toNat, Progress.count, hwaiting.current] at hlast
      rw [List.length_append, List.length_singleton] at hlt
      simp only [Option.isSome_some, if_true] at hlast
      omega
    · cases hnext

/-- Only the counter makes a step fail. -/
def StepsFit (workloads : List W) : Prop :=
  ∀ run, (checkMachine workloads).Reach Machine.always run → ∀ event ∈ run.state.events,
    (∃ s es, run.state.step event = .ok s es) ↔ ¬ run.state.Exhausts event

theorem StepsFit.passes {T : Type} [DryWorkload W T] (hrecover : Recoverable W (T := T)) {workloads : List W} {run₀ : Run W}
    (hinit : (checkMachine workloads).init run₀) (hsteps : StepsFit workloads) {settings : Search.Settings (State W) Error}
    (hfits : Fits workloads settings.maxDepth)
    (hholds : ∀ run, (checkMachine workloads).Reach Machine.always run → Search.Holds settings run.state) :
    Search.Passes (State.dry : State W → DryState T) settings run₀.state := by
  refine Search.passes_of (lawful hinit hrecover settings) (fun s hs => ?_) fun n s hpath hbelow event hevent => ?_
  · obtain ⟨history, hreach⟩ := reachable_reach hinit hs
    exact hholds _ hreach
  · obtain ⟨history, hreach⟩ := reachable_reach hinit hpath.reachable
    have hroom : ¬ s.Exhausts event := by
      rcases hfits with hshort | ⟨m, hm, hlt⟩
      · obtain ⟨ps, htracked⟩ := tracked_reach hreach
        exact htracked.not_exhausts hshort event
      · rintro ⟨index, client, reply, _, hclient, _, _, _, hlast⟩
        have hle := path_seq hinit hpath client (List.mem_of_getElem? hclient)
        have hdepth := hbelow m hm
        have hval : m.val = (m : Nat) := rfl
        omega
    obtain ⟨s', es, hstep⟩ := (hsteps _ hreach event hevent).mpr hroom
    exact ⟨s', search_step_ok.mpr ⟨es, hstep⟩⟩

end

end Unreplicated

end Neatworks
