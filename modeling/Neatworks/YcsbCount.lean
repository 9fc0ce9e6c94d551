import Neatworks.Runs
import Neatworks.YcsbWorkload

/-!
# The number of YCSB transactions

A workload in a close loop: each result is handed to `on_result` before the next
`next_op`. There is one latency for each transaction. `next_op` compares
`transaction_count` with the number of operations asked for, and no code
increments it.
-/

namespace Neatworks.Ycsb

open Ycsb.Workload

section
variable [KeyHasher] [ClientBincode]

/-- A workload with the transactions it has yielded, and what goes with the
operation whose result has not come. -/
structure LoopRun where
  workload : Workload
  transactions : Nat := 0
  awaiting : Option (Option Nat) := none
  finished : Bool := false

/-- What the clones have made of the shared state is an input. -/
inductive LoopLabel
  | nextOp (shared : InsertState) (draws : Draws) (now : Nat)
  | onResult (shared : InsertState) (result : Payload) (now : Nat)

/-- The update of a read-modify-write belongs to the transaction of its read. -/
inductive LoopStep (run : LoopRun) : LoopLabel → LoopRun → Prop
  | nextOp {shared shared' : InsertState} {draws : Draws} {now : Nat} {payload : Payload} {attach : Option Nat}
      {workload : Workload} {es : List Empty} (hawaiting : run.awaiting = none) (hfinished : run.finished = false)
      (hcall : run.workload.nextOp shared draws now = .ok (.ok (some (payload, attach)), workload, shared') es) :
      LoopStep run (.nextOp shared draws now)
        { workload := workload
          transactions := if run.workload.rmwUpdate.isNone then run.transactions + 1 else run.transactions
          awaiting := some attach }
  | finish {shared shared' : InsertState} {draws : Draws} {now : Nat} {workload : Workload} {es : List Empty}
      (hawaiting : run.awaiting = none) (hfinished : run.finished = false)
      (hcall : run.workload.nextOp shared draws now = .ok (.ok none, workload, shared') es) :
      LoopStep run (.nextOp shared draws now) { run with workload := workload, finished := true }
  | onResult {shared shared' : InsertState} {payload : Payload} {now : Nat} {attach : Option Nat} {workload : Workload}
      {es : List Empty} (hawaiting : run.awaiting = some attach)
      (hcall : run.workload.onResult shared payload attach now = .ok (.ok (), workload, shared') es) :
      LoopStep run (.onResult shared payload now) { run with workload := workload, awaiting := none }

def loopMachine (settings : WorkloadSettings) : Machine LoopRun LoopLabel where
  init run := run = { workload := (Workload.new settings).1 }
  next := LoopStep

/-- The workload can come to its end, does so after `n` transactions and not before, and
has then `n` latencies. -/
structure CountsTo (settings : WorkloadSettings) (n : Nat) : Prop where
  ends : ∃ run, (loopMachine settings).Reach Machine.always run ∧ run.finished
  exact : ∀ run, (loopMachine settings).Reach Machine.always run → run.finished →
    run.transactions = n ∧ run.workload.latencies.length = n
  stops : ∀ run, (loopMachine settings).Reach Machine.always run → run.awaiting = none → run.workload.rmwUpdate = none →
    run.transactions = n → ∀ shared draws now, run.workload.nextOp shared draws now = .ok (.ok none, run.workload, shared) []
  le : ∀ run, (loopMachine settings).Reach Machine.always run → run.transactions ≤ n
  latencies : ∀ run, (loopMachine settings).Reach Machine.always run → run.awaiting = none → run.workload.rmwUpdate = none →
    run.workload.latencies.length = run.transactions

/-! ## What a run keeps -/

variable {settings : WorkloadSettings} {run : LoopRun}

/-- There is a latency for each transaction but the one under way. -/
structure Counted (settings : WorkloadSettings) (run : LoopRun) : Prop where
  settings_eq : run.workload.settings = settings
  transactionCount : run.workload.transactionCount = 0
  idle : run.awaiting = none → run.workload.rmwUpdate = none → run.workload.latencies.length = run.transactions
  busy : run.awaiting.isSome ∨ run.workload.rmwUpdate.isSome → run.workload.latencies.length + 1 = run.transactions
  finished : run.finished = true → some 0 = settings.operationCount ∧ run.awaiting = none ∧ run.workload.rmwUpdate = none

/-- What `next_op` makes of a workload. -/
structure Picked (client : Workload) (yields : Bool) (client' : Workload) : Prop where
  settings_eq : client'.settings = client.settings
  transactionCount : client'.transactionCount = client.transactionCount
  latencies : client'.latencies = client.latencies
  stop : yields = false → client.rmwUpdate = none ∧ client' = client ∧ some client.transactionCount = client.settings.operationCount
  update : client.rmwUpdate.isSome → client'.rmwUpdate = none
  start : yields = true → client.rmwUpdate = none → some client.transactionCount ≠ client.settings.operationCount

theorem nextOp_picked {client : Workload} {shared : InsertState} {draws : Draws} {now : Nat} :
    (client.nextOp shared draws now).Sat (fun r _ => ∀ next, r.1 = .ok next → Picked client next.isSome r.2.1) fun _ => True := by
  unfold Workload.nextOp
  rw [Outcome.sat_bind]
  refine chooseOp_choice.mono (fun r _ hchoice => ?_) fun _ _ => trivial
  cases hchoice with
  | stop hrmw hcount =>
    intro next hnext
    cases hnext
    exact ⟨rfl, rfl, rfl, fun _ => ⟨hrmw, rfl, hcount⟩, by simp [hrmw], nofun⟩
  | update hrmw =>
    dsimp only
    split
    · exact nofun
    · intro next hnext
      cases hnext
      exact ⟨rfl, rfl, rfl, nofun, fun _ => rfl, by simp [hrmw]⟩
  | start hrmw hcount =>
    dsimp only
    split
    · exact nofun
    · intro next hnext
      cases hnext
      exact ⟨rfl, rfl, rfl, nofun, by simp [hrmw], fun _ _ => hcount⟩

theorem picked_of_ok {client client' : Workload} {shared shared' : InsertState} {draws : Draws} {now : Nat}
    {next : Option (Payload × Option Nat)} {es : List Empty}
    (hcall : client.nextOp shared draws now = .ok (.ok next, client', shared') es) : Picked client next.isSome client' := by
  have hsat : (client.nextOp shared draws now).Sat _ _ := nextOp_picked
  rw [hcall] at hsat
  exact hsat next rfl

/-- What a result adds to the latencies. -/
structure Resulted (client client' : Workload) : Prop where
  settings_eq : client'.settings = client.settings
  transactionCount : client'.transactionCount = client.transactionCount
  rmwUpdate : client'.rmwUpdate = client.rmwUpdate
  last : client.rmwUpdate = none → client'.latencies.length = client.latencies.length + 1
  first : client.rmwUpdate.isSome → client'.latencies = client.latencies

omit [KeyHasher] in
theorem onResult_resulted {client : Workload} {shared : InsertState} {payload : Payload} {keyNum : Option Nat} {now : Nat} :
    (client.onResult shared payload keyNum now).Sat (fun r _ => r.1 = .ok () → Resulted client r.2.1) fun _ => True := by
  unfold Workload.onResult
  cases accepts payload with
  | error error => exact nofun
  | ok =>
    dsimp only
    rw [Outcome.sat_bind]
    refine Outcome.Sat.trivial.mono (fun shared' _ _ => ?_) fun _ _ => trivial
    cases hrmw : client.rmwUpdate with
    | some op => exact fun _ => ⟨rfl, rfl, rfl, by simp [hrmw], fun _ => rfl⟩
    | none =>
      rw [Option.isNone_none, if_pos rfl]
      cases client.start with
      | none => exact nofun
      | some start => exact fun _ => ⟨rfl, rfl, hrmw.symm, fun _ => by simp, by simp [hrmw]⟩

omit [KeyHasher] in
theorem resulted_of_ok {client client' : Workload} {shared shared' : InsertState} {payload : Payload} {keyNum : Option Nat}
    {now : Nat} {es : List Empty} (hcall : client.onResult shared payload keyNum now = .ok (.ok (), client', shared') es) :
    Resulted client client' := by
  have hsat : (client.onResult shared payload keyNum now).Sat _ _ := onResult_resulted
  rw [hcall] at hsat
  exact hsat rfl

theorem LoopStep.counted {run' : LoopRun} {label : LoopLabel} (h : Counted settings run) (hstep : LoopStep run label run') :
    Counted settings run' := by
  cases hstep with
  | nextOp hawaiting hfinished hcall =>
    have hpicked := picked_of_ok hcall
    refine ⟨hpicked.settings_eq.trans h.settings_eq, hpicked.transactionCount.trans h.transactionCount, nofun, fun _ => ?_, nofun⟩
    dsimp only
    rw [hpicked.latencies]
    cases hrmw : run.workload.rmwUpdate with
    | none =>
      have := h.idle hawaiting hrmw
      simp [this]
    | some update =>
      have := h.busy (Or.inr (by simp [hrmw]))
      simp [this]
  | finish hawaiting hfinished hcall =>
    have hpicked := picked_of_ok hcall
    obtain ⟨hrmw, hsame, hcount⟩ := hpicked.stop rfl
    subst hsame
    refine ⟨h.settings_eq, h.transactionCount, h.idle, h.busy, fun _ => ⟨?_, hawaiting, hrmw⟩⟩
    rw [← h.transactionCount, ← h.settings_eq]
    exact hcount
  | onResult hawaiting hcall =>
    have hresulted := resulted_of_ok hcall
    have hbusy := h.busy (Or.inl (by simp [hawaiting]))
    constructor
    case settings_eq => exact hresulted.settings_eq.trans h.settings_eq
    case transactionCount => exact hresulted.transactionCount.trans h.transactionCount
    case idle =>
      intro _ hrmw
      dsimp only at hrmw ⊢
      rw [hresulted.rmwUpdate] at hrmw
      rw [hresulted.last hrmw, hbusy]
    case busy =>
      intro hpending
      dsimp only at hpending ⊢
      rw [hresulted.rmwUpdate] at hpending
      rw [hresulted.first (hpending.resolve_left (by simp)), hbusy]
    case finished =>
      intro hfinished
      have hnone := (h.finished hfinished).2.1
      rw [hnone] at hawaiting
      cases hawaiting

theorem counted_of_reach (h : (loopMachine settings).Reach Machine.always run) : Counted settings run := by
  refine h.invariant ?_ ?_
  · rintro _ rfl
    exact ⟨rfl, rfl, fun _ _ => rfl, by simp [Workload.new], by simp⟩
  · exact fun _ _ _ _ hcounted _ hstep => hstep.counted hcounted

/-! ## When the workload ends -/

theorem nextOp_stop {client : Workload} (hrmw : client.rmwUpdate = none)
    (hcount : some client.transactionCount = client.settings.operationCount) (shared : InsertState) (draws : Draws) (now : Nat) :
    client.nextOp shared draws now = .ok (.ok none, client, shared) [] := by
  unfold Workload.nextOp chooseOp
  rw [hrmw]
  dsimp only
  rw [if_pos hcount]
  rfl

theorem unchanged_of_reach (hcount : settings.operationCount = some 0) (h : (loopMachine settings).Reach Machine.always run) :
    run.workload = (Workload.new settings).1 ∧ run.transactions = 0 ∧ run.awaiting = none := by
  have hstop (shared : InsertState) (draws : Draws) (now : Nat) :
      (Workload.new settings).1.nextOp shared draws now = .ok (.ok none, (Workload.new settings).1, shared) [] :=
    nextOp_stop rfl hcount.symm shared draws now
  refine Machine.Reach.invariant
    (I := fun run => run.workload = (Workload.new settings).1 ∧ run.transactions = 0 ∧ run.awaiting = none) ?_ ?_ h
  · rintro _ rfl
    exact ⟨rfl, rfl, rfl⟩
  · rintro run label run' _ ⟨hworkload, htransactions, hawaiting⟩ _ hstep
    cases hstep with
    | nextOp _ _ hcall =>
      rw [hworkload, hstop] at hcall
      cases hcall
    | finish _ _ hcall =>
      rw [hworkload, hstop] at hcall
      cases hcall
      exact ⟨rfl, htransactions, hawaiting⟩
    | onResult hsome hcall =>
      rw [hawaiting] at hsome
      cases hsome

theorem counts_iff (settings : WorkloadSettings) (n : Nat) :
    CountsTo { settings with operationCount := some n } n ↔ n = 0 := by
  constructor
  · intro h
    obtain ⟨run, hreach, hfinished⟩ := h.ends
    have hcount := ((counted_of_reach hreach).finished hfinished).1
    exact (Option.some.inj hcount).symm
  · rintro rfl
    constructor
    case ends =>
      let settings := { settings with operationCount := some 0 }
      have hcall := nextOp_stop (show (Workload.new settings).1.rmwUpdate = none from rfl) rfl (Workload.new settings).2
        ⟨0, 0, [], [], 0⟩ 0
      exact ⟨_, .next (.init rfl) trivial (.finish rfl rfl hcall), rfl⟩
    case exact =>
      intro run h _
      obtain ⟨hworkload, htransactions, _⟩ := unchanged_of_reach rfl h
      exact ⟨htransactions, by rw [hworkload]; rfl⟩
    case stops =>
      intro run h _ _ _ shared draws now
      obtain ⟨hworkload, _, _⟩ := unchanged_of_reach rfl h
      rw [hworkload]
      exact nextOp_stop rfl rfl shared draws now
    case le =>
      intro run h
      exact Nat.le_of_eq (unchanged_of_reach rfl h).2.1
    case latencies => exact fun run h => (counted_of_reach h).idle

end

section
local instance countHasher : KeyHasher := KeyHasher.fx

local instance countBincode : ClientBincode := ClientBincode.ops

/-- A workload that is to end after one transaction. -/
def oneOperation : WorkloadSettings := { recordCount := 1, operationCount := some 1 }

/-- The workload when it has yielded a read of record 0. -/
def oneRead : Workload := { settings := oneOperation, start := some 0 }

theorem oneRead_yields : ∃ payload, (Workload.new oneOperation).1.nextOp (Workload.new oneOperation).2 ⟨0, 0, [0], [], 0⟩ 0 =
    .ok (.ok (some (payload, none)), oneRead, (Workload.new oneOperation).2) [] := ⟨_, rfl⟩

/-- The read is answered, and the workload yields another. -/
theorem counts_fails : ¬CountsTo oneOperation 1 := by
  intro h
  obtain ⟨payload, hread⟩ := oneRead_yields
  have hanswer : LoopStep { workload := oneRead, transactions := 1, awaiting := some none }
      (.onResult (Workload.new oneOperation).2 [3] 0)
      { workload := { oneRead with start := none, latencies := [0] }, transactions := 1 } := .onResult rfl rfl
  have hreach : (loopMachine oneOperation).Reach Machine.always _ :=
    .next (.next (.init rfl) trivial (.nextOp rfl rfl hread)) trivial hanswer
  have hstop := h.stops _ hreach rfl rfl rfl (Workload.new oneOperation).2 ⟨0, 0, [0], [], 0⟩ 0
  have hcount := ((picked_of_ok hstop).stop rfl).2.2
  cases hcount

end

end Neatworks.Ycsb
