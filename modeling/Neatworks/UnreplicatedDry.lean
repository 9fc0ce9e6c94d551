import Neatworks.UnreplicatedTracked

/-!
# Equal dry states

A dry state has neither the nets nor the timers, and of a close loop only the
dry workload. After the launch of the same workloads it tells all of them: the
number of invocations tells how far a client is, and the messages that have
been sent tell whether its request is among them.
-/

namespace Neatworks.Unreplicated

section
variable {W T : Type} [Workload W] [DryWorkload W T]

theorem Progress.client_congr {p p' : Progress (Attach W)} (hcurrent : p.stage.current = p'.stage.current)
    (hlength : p.past.length = p'.past.length) (index : Nat) (messageEvents : Finset MessageEvent) (w : W) :
    p.client index messageEvents w = p'.client index messageEvents w := by
  have hcount : p.count = p'.count := by
    unfold Progress.count
    rw [hcurrent, hlength]
  have hnet : p.net index messageEvents = p'.net index messageEvents := by
    unfold Progress.net
    rw [hcurrent, hlength]
  unfold Progress.client
  rw [hcurrent, hcount, hnet]

theorem Tracks.client_unique (hrecover : Recoverable W (T := T)) {w₀ : W} {index : Nat} {client client' : ClientState W}
    {stored stored' : Option Reply} {messageEvents : Finset MessageEvent} {view view' : List Observed}
    {p p' : Progress (Attach W)} (h : Tracks w₀ index client stored messageEvents view p)
    (h' : Tracks w₀ index client' stored' messageEvents view' p') (hseq : client.state.seq = client'.state.seq)
    (hinvoke : client.state.invoke = client'.state.invoke)
    (hdry : (DryWorkload.dry client.closeLoop.workload : T) = DryWorkload.dry client'.closeLoop.workload) :
    client = client' := by
  have hcount : p.count = p'.count := by
    rw [h.client, h'.client] at hseq
    exact ofNat_inj h.count h'.count hseq
  have hsome : p.stage.current.isSome = p'.stage.current.isSome := by
    rw [h.client, h'.client] at hinvoke
    have hmap := congrArg Option.isSome hinvoke
    simpa [Progress.client] using hmap
  have hlength : p.past.length = p'.past.length := by
    unfold Progress.count at hcount
    rw [hsome] at hcount
    exact Nat.add_right_cancel hcount
  obtain ⟨hcurrent, hworkload⟩ := hrecover h.drives h'.drives hlength hdry
  rw [h.client, h'.client, hworkload]
  exact Progress.client_congr hcurrent hlength _ _ _

variable [SerdeJson]

theorem state_unique (hrecover : Recoverable W (T := T)) {workloads : List W} {r₁ r₂ : Run W}
    (h₁ : (checkMachine workloads).Reach Machine.always r₁) (h₂ : (checkMachine workloads).Reach Machine.always r₂)
    (hdry : (r₁.state.dry : DryState T) = r₂.state.dry) : r₁.state = r₂.state := by
  obtain ⟨ps₁, h₁⟩ := tracked_reach h₁
  obtain ⟨ps₂, h₂⟩ := tracked_reach h₂
  obtain ⟨⟨clients₁, ⟨replies₁, app₁, net₁⟩, messageEvents₁⟩, history₁⟩ := r₁
  obtain ⟨⟨clients₂, ⟨replies₂, app₂, net₂⟩, messageEvents₂⟩, history₂⟩ := r₂
  obtain ⟨hclients, hreplica, rfl⟩ := DryState.mk.inj hdry
  obtain ⟨rfl, rfl⟩ := DryReplica.mk.inj hreplica
  obtain rfl : net₁ = [] := h₁.replica
  obtain rfl : net₂ = [] := h₂.replica
  have hsame : clients₁ = clients₂ := by
    apply List.ext_getElem?
    intro index
    have hindex := congrArg (·[index]?) hclients
    simp only [List.getElem?_map] at hindex
    cases hc₁ : clients₁[index]? with
    | none =>
      rw [hc₁] at hindex
      exact (Option.map_eq_none_iff.mp hindex.symm).symm
    | some c₁ =>
      rw [hc₁] at hindex
      obtain ⟨c₂, hc₂, hclient⟩ := Option.map_eq_some_iff.mp hindex.symm
      obtain ⟨w₀, hw⟩ := h₁.workload hc₁
      have hfields := DryClientState.mk.inj hclient
      have hunique := (h₁.clients index w₀ c₁ hw hc₁).client_unique hrecover (h₂.clients index w₀ c₂ hw hc₂)
        hfields.2.2.1.symm hfields.2.2.2.1.symm hfields.2.2.2.2.symm
      rw [hc₂, hunique]
  rw [hsame]

end

/-- Two states with equal dry states have the same events, and each either
fails in both or leads to equal dry states again. -/
def Deduplicates (W : Type) {T : Type} [Workload W] [DryWorkload W T] [SerdeJson] : Prop :=
  ∀ (workloads : List W) (r₁ r₂ : Run W), (checkMachine workloads).Reach Machine.always r₁ →
    (checkMachine workloads).Reach Machine.always r₂ → (r₁.state.dry : DryState T) = r₂.state.dry →
    r₁.state.events = r₂.state.events ∧ ∀ event ∈ r₁.state.events,
      (∃ reason₁ es₁ reason₂ es₂, r₁.state.step event = .fail reason₁ es₁ ∧ r₂.state.step event = .fail reason₂ es₂) ∨
      ∃ s₁ es₁ s₂ es₂, r₁.state.step event = .ok s₁ es₁ ∧ r₂.state.step event = .ok s₂ es₂ ∧
        (s₁.dry : DryState T) = s₂.dry

theorem Recoverable.deduplicates {W T : Type} [Workload W] [DryWorkload W T] [SerdeJson]
    (hrecover : Recoverable W (T := T)) : Deduplicates W (T := T) := by
  intro workloads r₁ r₂ h₁ h₂ hdry
  have hstate := state_unique hrecover h₁ h₂ hdry
  rw [hstate]
  refine ⟨rfl, fun event _ => ?_⟩
  cases hstep : r₂.state.step event with
  | ok s es => exact Or.inr ⟨s, es, s, es, rfl, rfl, rfl⟩
  | fail reason es => exact Or.inl ⟨reason, es, reason, es, rfl, rfl⟩

/-- Deduplication by dry states is sound for the workloads of the model checker. -/
theorem dry_sound [SerdeJson] {I J : Type} [Iterator I Payload] [Iterator J (Payload × Payload)] :
    Deduplicates (Iter I) ∧ Deduplicates (Check J) ∧ Deduplicates (Recorded (Iter I)) :=
  ⟨iter_recoverable.deduplicates, check_recoverable.deduplicates,
    Recoverable.deduplicates (recorded_recoverable iter_recoverable)⟩

end Neatworks.Unreplicated
