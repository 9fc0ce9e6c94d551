import Mathlib.Order.Bounds.Basic
import Neatworks.Runs
import Neatworks.YcsbWorkload

/-!
# Inserts of YCSB and their acknowledgements

Workloads that share an `InsertState` take numbers for their inserts and
acknowledge them in any order. The shared state has the least number that is not
acknowledged, and every key that is read, updated or scanned is below it.
-/

namespace Neatworks.Ycsb

open Ycsb.Workload

/-! ## The least number that is not acknowledged -/

/-- All from `start` to `next` are acknowledged, `next` is not, and `inserted` has
those after it. -/
structure Watermark (start : Nat) (acked : Finset Nat) (next : Nat) (inserted : Finset Nat) : Prop where
  le : start ≤ next
  below : ∀ n, start ≤ n → n < next → n ∈ acked
  notAcked : next ∉ acked
  above : ∀ n, next < n → (n ∈ inserted ↔ n ∈ acked)

theorem Watermark.isLeast {start next : Nat} {acked inserted : Finset Nat} (h : Watermark start acked next inserted) :
    IsLeast {n | start ≤ n ∧ n ∉ acked} next := by
  refine ⟨⟨h.le, h.notAcked⟩, fun n hn => ?_⟩
  by_contra hlt
  exact hn.2 (h.below n hn.1 (Nat.lt_of_not_le hlt))

theorem Watermark.acked_of_lt {start next : Nat} {acked inserted : Finset Nat} (h : Watermark start acked next inserted)
    {n : Nat} (hn : n < next) : n < start ∨ n ∈ acked := by
  rcases Nat.lt_or_ge n start with hlt | hge
  · exact Or.inl hlt
  · exact Or.inr (h.below n hge hn)

theorem advance_sat {start : Nat} {acked : Finset Nat} {shared : InsertState} (hle : start ≤ shared.nextInsertedNum)
    (hbelow : ∀ n, start ≤ n → n ≤ shared.nextInsertedNum → n ∈ acked)
    (habove : ∀ n, shared.nextInsertedNum < n → (n ∈ shared.insertedNums ↔ n ∈ acked)) :
    shared.advance.Sat (fun shared' _ => Watermark start acked shared'.nextInsertedNum shared'.insertedNums ∧
      shared.nextInsertedNum ≤ shared'.nextInsertedNum) fun _ => True := by
  induction hcard : shared.insertedNums.card using Nat.strongRecOn generalizing shared with
  | ind k ih =>
  rw [InsertState.advance]
  split
  · dsimp only
    split
    · next hmem =>
      have hlt := Finset.card_erase_lt_of_mem hmem
      have hnext : shared.nextInsertedNum + 1 ∈ acked := (habove _ (Nat.lt_succ_self _)).mp hmem
      refine (ih _ (hcard ▸ hlt) ?_ ?_ ?_ rfl).mono (fun shared' _ h => ⟨h.1, ?_⟩) fun _ _ => trivial
      · exact Nat.le_succ_of_le hle
      · intro n hn hn'
        rcases Nat.lt_or_eq_of_le hn' with hlt | rfl
        · exact hbelow n hn (Nat.lt_succ_iff.mp hlt)
        · exact hnext
      · intro n hn
        dsimp only at hn ⊢
        rw [Finset.mem_erase, and_iff_right (by omega)]
        exact habove n (by omega)
      · exact Nat.le_of_succ_le h.2
    · next hmem =>
      refine ⟨⟨Nat.le_succ_of_le hle, fun n hn hn' => hbelow n hn (Nat.lt_succ_iff.mp hn'), ?_, fun n hn => ?_⟩, Nat.le_succ _⟩
      · rwa [← habove _ (Nat.lt_succ_self _)]
      · exact habove n (Nat.lt_of_succ_lt hn)
  · trivial

theorem ack_sat {start : Nat} {acked : Finset Nat} {shared : InsertState}
    (h : Watermark start acked shared.nextInsertedNum shared.insertedNums) (n : Nat) :
    (shared.ack n).Sat (fun shared' _ => Watermark start (insert n acked) shared'.nextInsertedNum shared'.insertedNums ∧
      shared.nextInsertedNum ≤ shared'.nextInsertedNum) fun _ => True := by
  unfold InsertState.ack
  split
  · next hne =>
    refine ⟨⟨h.le, fun m hm hm' => Finset.mem_insert_of_mem (h.below m hm hm'), ?_, fun m hm => ?_⟩, Nat.le_refl _⟩
    · simp [h.notAcked, Ne.symm hne]
    · simp [h.above m hm]
  · next heq =>
    have heq := not_ne_iff.mp heq
    subst heq
    refine advance_sat h.le (fun m hm hm' => ?_) fun m hm => ?_
    · rcases Nat.lt_or_eq_of_le hm' with hlt | rfl
      · exact Finset.mem_insert_of_mem (h.below m hm hlt)
      · exact Finset.mem_insert_self ..
    · rw [Finset.mem_insert, or_iff_right (by omega)]
      exact h.above m hm

/-! ## The keys of the operations -/

/-- In mode `Latest` the sampler gives a number from 1 to the number of records. -/
def InRange (settings : WorkloadSettings) (draws : Draws) : Prop :=
  settings.requestDistr = .latest → ∀ draw ∈ draws.keyNums, 1 ≤ draw ∧ draw ≤ settings.recordCount

section
variable {settings : WorkloadSettings}

theorem keyNumBelow_post (next : Nat) (draws : List Nat) :
    (keyNumBelow next draws).Post (fun keyNum _ => keyNum < next) fun stuck => stuck = .loop := by
  induction draws with
  | nil => rfl
  | cons draw draws ih =>
    rw [keyNumBelow, Outcome.post_ite]
    exact ⟨fun _ => ih, fun hlt => Nat.lt_of_not_le hlt⟩

theorem keyNum_post {client : Workload} {shared : InsertState} {draws : Draws} (hsettings : client.settings = settings)
    (hle : settings.recordCount ≤ shared.nextInsertedNum) (hrange : InRange settings draws) :
    (client.keyNum shared draws).Post (fun keyNum _ => keyNum < shared.nextInsertedNum) fun stuck => stuck = .loop := by
  unfold Workload.keyNum
  rw [hsettings, Outcome.post_ite]
  refine ⟨fun hlatest => ?_, fun _ => keyNumBelow_post ..⟩
  have hdraws := hrange hlatest
  cases hkeys : draws.keyNums with
  | nil => rfl
  | cons draw rest =>
    rw [hkeys] at hdraws
    obtain ⟨hpos, hdraw⟩ := hdraws draw (List.mem_cons_self ..)
    simp only [show draw ≤ shared.nextInsertedNum by omega, if_true, Outcome.post_pure]
    omega

variable [KeyHasher]

/-- The operation names a record with a number below `next`. -/
def Names (settings : WorkloadSettings) (next : Nat) (op : Op) : Prop :=
  ∃ keyNum < next, buildKeyName settings keyNum = .ok op.key []

theorem Names.mono {next next' : Nat} {op : Op} (h : Names settings next op) (hle : next ≤ next') : Names settings next' op := by
  obtain ⟨keyNum, hlt, hname⟩ := h
  exact ⟨keyNum, Nat.lt_of_lt_of_le hlt hle, hname⟩

/-- What a workload keeps: its settings, and an update of a record that is there. -/
structure Sound (settings : WorkloadSettings) (next : Nat) (client : Workload) : Prop where
  settings_eq : client.settings = settings
  rmwUpdate : ∀ op ∈ client.rmwUpdate, ¬op.IsInsert ∧ Names settings next op

theorem Sound.mono {next next' : Nat} {client : Workload} (h : Sound settings next client) (hle : next ≤ next') :
    Sound settings next' client :=
  ⟨h.settings_eq, fun op hop => ⟨(h.rmwUpdate op hop).1, (h.rmwUpdate op hop).2.mono hle⟩⟩

/-- The number of a transaction other than an insert is below, and the shared state
changes only in the number that is taken next. -/
theorem chooseKeyNum_sat {client : Workload} {shared : InsertState} {draws : Draws} (h : Sound settings shared.nextInsertedNum client)
    (hle : settings.recordCount ≤ shared.nextInsertedNum) (hrange : InRange settings draws) (transaction : Transaction) :
    (client.chooseKeyNum shared draws transaction).Sat
      (fun r _ => (transaction ≠ .insert → r.1 < shared.nextInsertedNum) ∧ r.2.nextInsertedNum = shared.nextInsertedNum ∧
        r.2.insertedNums = shared.insertedNums) fun _ => True := by
  unfold Workload.chooseKeyNum
  split
  · next hinsert => exact ⟨fun hne => absurd hinsert hne, rfl, rfl⟩
  · have hpost := keyNum_post h.settings_eq hle hrange
    cases hkey : client.keyNum shared draws with
    | fail stuck es => trivial
    | ok keyNum es =>
      rw [hkey] at hpost
      exact ⟨fun _ => hpost, rfl, rfl⟩

/-- What `next_op` chooses from a sound state. -/
structure Chosen (settings : WorkloadSettings) (shared : InsertState) (r : Option Op × Nat × Workload × InsertState) : Prop where
  names : ∀ op ∈ r.1, ¬op.IsInsert → Names settings shared.nextInsertedNum op
  sound : Sound settings shared.nextInsertedNum r.2.2.1
  nextInsertedNum : r.2.2.2.nextInsertedNum = shared.nextInsertedNum
  insertedNums : r.2.2.2.insertedNums = shared.insertedNums

theorem Choice.chosen {client : Workload} {shared : InsertState} {draws : Draws} {now : Nat}
    {r : Option Op × Nat × Workload × InsertState} (hchoice : Choice client shared draws now r)
    (h : Sound settings shared.nextInsertedNum client) (hle : settings.recordCount ≤ shared.nextInsertedNum)
    (hrange : InRange settings draws) : Chosen settings shared r := by
  cases hchoice with
  | update hrmw =>
    refine ⟨fun op hop _ => ?_, ⟨h.settings_eq, by simp⟩, rfl, rfl⟩
    cases hop
    exact (h.rmwUpdate _ hrmw).2
  | stop => exact ⟨by simp, h, rfl, rfl⟩
  | start hrmw hcount hkeyNum hname hinsert hupdate =>
    have hsat := chooseKeyNum_sat h hle hrange (transactions draws.transaction)
    rw [hkeyNum] at hsat
    obtain ⟨hlt, hnext, hinserted⟩ := hsat
    rw [h.settings_eq] at hname
    refine ⟨fun op hop hnot => ?_, ⟨h.settings_eq, fun update hrmw' => ?_⟩, hnext, hinserted⟩
    · cases hop
      exact ⟨_, hlt (hinsert hnot), hname⟩
    · obtain ⟨_, hkey, hnot, hne⟩ := hupdate update hrmw'
      exact ⟨hnot, _, hlt hne, by rw [hkey]; exact hname⟩

end

/-! ## Clones of a workload -/

section
variable [KeyHasher] [ClientBincode]

/-- The workloads that share a state, and the numbers that have been acknowledged. -/
structure InsertRun where
  shared : InsertState
  clients : List Workload
  acked : Finset Nat := ∅

inductive InsertLabel
  | nextOp (client : Nat) (draws : Draws) (now : Nat)
  | onResult (client : Nat) (result : Payload) (keyNum : Option Nat) (now : Nat)
  | clone (client : Nat)
  /-- The client panics in `next_op`, and may have taken a number. -/
  | lost (client : Nat) (took : Bool)

def acknowledge (acked : Finset Nat) (result : Payload) : Option Nat → Finset Nat
  | none => acked
  | some keyNum => if (accepts result).isOk then insert keyNum acked else acked

/-- A panic in `ack` poisons the lock of the shared state, and the run ends with it. -/
inductive InsertStep (run : InsertRun) : InsertLabel → InsertRun → Prop
  | nextOp {i : Nat} {draws : Draws} {now : Nat} {client client' : Workload} {shared : InsertState}
      {result : Except Error (Option (Payload × Option Nat))} {es : List Empty} (hclient : run.clients[i]? = some client)
      (hcall : client.nextOp run.shared draws now = .ok (result, client', shared) es) :
      InsertStep run (.nextOp i draws now) { run with shared := shared, clients := run.clients.set i client' }
  | onResult {i : Nat} {payload : Payload} {keyNum : Option Nat} {now : Nat} {client client' : Workload}
      {shared : InsertState} {result : Except Error Unit} {es : List Empty} (hclient : run.clients[i]? = some client)
      (hcall : client.onResult run.shared payload keyNum now = .ok (result, client', shared) es) :
      InsertStep run (.onResult i payload keyNum now)
        { shared := shared, clients := run.clients.set i client', acked := acknowledge run.acked payload keyNum }
  | clone {i : Nat} {client : Workload} (hclient : run.clients[i]? = some client) :
      InsertStep run (.clone i) { run with clients := run.clients ++ [client] }
  | lost {i : Nat} {took : Bool} :
      InsertStep run (.lost i took)
        { run with shared := if took then run.shared.takeNum.2 else run.shared, clients := run.clients.eraseIdx i }

def insertMachine (settings : WorkloadSettings) : Machine InsertRun InsertLabel where
  init run := run = { shared := (Workload.new settings).2, clients := [(Workload.new settings).1] }
  next := InsertStep

/-- The samplers of the call are in range. -/
def SamplesInRange (settings : WorkloadSettings) (_ : InsertRun) (label : InsertLabel) : Prop :=
  ∀ client draws now, label = .nextOp client draws now → InRange settings draws

variable {settings : WorkloadSettings}

structure Acknowledged (settings : WorkloadSettings) (run : InsertRun) : Prop where
  watermark : Watermark settings.recordCount run.acked run.shared.nextInsertedNum run.shared.insertedNums
  clients : ∀ client ∈ run.clients, Sound settings run.shared.nextInsertedNum client

theorem nextOp_sat {client : Workload} {shared : InsertState} {draws : Draws} (h : Sound settings shared.nextInsertedNum client)
    (hle : settings.recordCount ≤ shared.nextInsertedNum) (hrange : InRange settings draws) (now : Nat) :
    (client.nextOp shared draws now).Sat (fun r _ => (∀ payload attach, r.1 = .ok (some (payload, attach)) →
        ∃ op, ClientBincode.serialize op = some payload ∧ (op.IsInsert ∨ Names settings shared.nextInsertedNum op)) ∧
      Sound settings shared.nextInsertedNum r.2.1 ∧ r.2.2.nextInsertedNum = shared.nextInsertedNum ∧
      r.2.2.insertedNums = shared.insertedNums) fun _ => True := by
  unfold Workload.nextOp
  rw [Outcome.sat_bind]
  refine chooseOp_choice.mono (fun r _ hchoice => ?_) fun _ _ => trivial
  have hr := Choice.chosen hchoice h hle hrange
  obtain ⟨op, keyNum, client', shared'⟩ := r
  cases op with
  | none => exact ⟨by simp, hr.sound, hr.nextInsertedNum, hr.insertedNums⟩
  | some op =>
    dsimp only
    split
    · exact ⟨by simp, hr.sound, hr.nextInsertedNum, hr.insertedNums⟩
    · next payload hpayload =>
      refine ⟨fun payload' attach heq => ⟨op, ?_, ?_⟩, hr.sound, hr.nextInsertedNum, hr.insertedNums⟩
      · cases heq
        exact hpayload
      · exact or_iff_not_imp_left.mpr (hr.names op rfl)

omit [KeyHasher] in
theorem ackOf_sat {shared : InsertState} {acked : Finset Nat} {payload : Payload} (haccepts : accepts payload = .ok ())
    (h : Watermark settings.recordCount acked shared.nextInsertedNum shared.insertedNums) (keyNum : Option Nat) :
    (ackOf shared keyNum).Sat (fun shared' _ =>
      Watermark settings.recordCount (acknowledge acked payload keyNum) shared'.nextInsertedNum shared'.insertedNums ∧
        shared.nextInsertedNum ≤ shared'.nextInsertedNum) fun _ => True := by
  cases keyNum with
  | none => exact ⟨h, Nat.le_refl _⟩
  | some keyNum =>
    have hacked : acknowledge acked payload (some keyNum) = insert keyNum acked := by
      simp [acknowledge, haccepts, Except.isOk, Except.toBool]
    rw [hacked]
    exact ack_sat h keyNum

theorem onResult_sat {client : Workload} {shared : InsertState} {acked : Finset Nat}
    (hmark : Watermark settings.recordCount acked shared.nextInsertedNum shared.insertedNums)
    (h : Sound settings shared.nextInsertedNum client) (payload : Payload) (keyNum : Option Nat) (now : Nat) :
    (client.onResult shared payload keyNum now).Sat (fun r _ =>
      Watermark settings.recordCount (acknowledge acked payload keyNum) r.2.2.nextInsertedNum r.2.2.insertedNums ∧
        shared.nextInsertedNum ≤ r.2.2.nextInsertedNum ∧ Sound settings shared.nextInsertedNum r.2.1) fun _ => True := by
  unfold Workload.onResult
  cases haccepts : accepts payload with
  | error error =>
    have hacked : acknowledge acked payload keyNum = acked := by
      cases keyNum <;> simp [acknowledge, haccepts, Except.isOk, Except.toBool]
    rw [hacked]
    exact ⟨hmark, Nat.le_refl _, h⟩
  | ok =>
    dsimp only
    rw [Outcome.sat_bind]
    refine (ackOf_sat haccepts hmark keyNum).mono (fun shared' _ hshared => ?_) fun _ _ => trivial
    split
    · split
      · exact ⟨hshared.1, hshared.2, h⟩
      · exact ⟨hshared.1, hshared.2, h.settings_eq, h.rmwUpdate⟩
    · exact ⟨hshared.1, hshared.2, h⟩

omit [ClientBincode] in
theorem sound_set {next : Nat} {clients : List Workload} (h : ∀ client ∈ clients, Sound settings next client) {i : Nat}
    {client : Workload} (hclient : Sound settings next client) : ∀ c ∈ clients.set i client, Sound settings next c := by
  intro c hc
  rcases List.mem_or_eq_of_mem_set hc with hc | rfl
  · exact h c hc
  · exact hclient

theorem InsertStep.acknowledged {run run' : InsertRun} {label : InsertLabel} (h : Acknowledged settings run)
    (hrange : SamplesInRange settings run label) (hstep : InsertStep run label run') :
    Acknowledged settings run' ∧ run.shared.nextInsertedNum ≤ run'.shared.nextInsertedNum := by
  cases hstep with
  | @nextOp i draws now client client' shared result es hclient hcall =>
    have hsound := h.clients _ (List.mem_of_getElem? hclient)
    have hsat := nextOp_sat hsound h.watermark.le (hrange _ _ _ rfl) now
    rw [hcall] at hsat
    obtain ⟨_, hsound', hnext, hinserted⟩ := hsat
    dsimp only at hnext hinserted
    refine ⟨⟨?_, ?_⟩, Nat.le_of_eq hnext.symm⟩
    · dsimp only
      rw [hnext, hinserted]
      exact h.watermark
    · dsimp only
      rw [hnext]
      exact sound_set h.clients hsound'
  | @onResult i payload keyNum now client client' shared result es hclient hcall =>
    have hsound := h.clients _ (List.mem_of_getElem? hclient)
    have hsat := onResult_sat h.watermark hsound payload keyNum now
    rw [hcall] at hsat
    obtain ⟨hmark, hle, hsound'⟩ := hsat
    exact ⟨⟨hmark, fun c hc => (sound_set h.clients hsound' c hc).mono hle⟩, hle⟩
  | clone hclient =>
    refine ⟨⟨h.watermark, fun c hc => ?_⟩, Nat.le_refl _⟩
    rcases List.mem_append.mp hc with hc | hc
    · exact h.clients c hc
    · rw [List.mem_singleton.mp hc]
      exact h.clients _ (List.mem_of_getElem? hclient)
  | @lost i took =>
    have hclients : ∀ c ∈ run.clients.eraseIdx i, Sound settings run.shared.nextInsertedNum c :=
      fun c hc => h.clients c (List.mem_of_mem_eraseIdx hc)
    cases took
    · exact ⟨⟨h.watermark, hclients⟩, Nat.le_refl _⟩
    · exact ⟨⟨h.watermark, hclients⟩, Nat.le_refl _⟩

theorem acknowledged_of_reach {run : InsertRun} (h : (insertMachine settings).Reach (SamplesInRange settings) run) :
    Acknowledged settings run := by
  refine h.invariant ?_ ?_
  · rintro _ rfl
    refine ⟨⟨Nat.le_refl _, fun n hn hn' => absurd hn' (Nat.not_lt.mpr hn), by simp, fun n _ => by simp [Workload.new]⟩, ?_⟩
    simp only [List.mem_singleton, forall_eq]
    exact ⟨rfl, by simp [Workload.new]⟩
  · exact fun _ _ _ _ hacknowledged hrange hstep => (hstep.acknowledged hacknowledged hrange).1

theorem inserts_acknowledged {run : InsertRun} (h : (insertMachine settings).Reach (SamplesInRange settings) run) :
    IsLeast {n | settings.recordCount ≤ n ∧ n ∉ run.acked} run.shared.nextInsertedNum ∧
      (∀ label run', SamplesInRange settings run label → InsertStep run label run' →
        run.shared.nextInsertedNum ≤ run'.shared.nextInsertedNum) ∧
      ∀ client ∈ run.clients, ∀ draws, InRange settings draws →
        (client.keyNum run.shared draws).Post (fun keyNum _ => keyNum < run.shared.nextInsertedNum) (fun stuck => stuck = .loop) ∧
          ∀ now, (client.nextOp run.shared draws now).Sat (fun r _ => ∀ payload attach, r.1 = .ok (some (payload, attach)) →
            ∃ op, ClientBincode.serialize op = some payload ∧ (op.IsInsert ∨ ∃ keyNum, buildKeyName settings keyNum = .ok op.key [] ∧
              (keyNum < settings.recordCount ∨ keyNum ∈ run.acked))) fun _ => True := by
  have hrun := acknowledged_of_reach h
  refine ⟨hrun.watermark.isLeast, fun label run' hrange hstep => (hstep.acknowledged hrun hrange).2, ?_⟩
  intro client hclient draws hrange
  have hsound := hrun.clients client hclient
  refine ⟨keyNum_post hsound.settings_eq hrun.watermark.le hrange, fun now => ?_⟩
  refine (nextOp_sat hsound hrun.watermark.le hrange now).mono (fun r _ hr payload attach heq => ?_) fun _ _ => trivial
  obtain ⟨op, hop, hnames⟩ := hr.1 payload attach heq
  refine ⟨op, hop, ?_⟩
  rcases hnames with hinsert | ⟨keyNum, hlt, hname⟩
  · exact Or.inl hinsert
  · exact Or.inr ⟨keyNum, hname, hrun.watermark.acked_of_lt hlt⟩

end

section
local instance insertsHasher : KeyHasher := KeyHasher.fx

local instance insertsBincode : ClientBincode := ClientBincode.ops

def twoRecords : WorkloadSettings := { recordCount := 2, requestDistr := .latest }

/-- An insert is acknowledged before the one with the least number. -/
def ackedThree : InsertRun where
  shared := { nextNum := 2, nextInsertedNum := 2, insertedNums := insert 3 ∅ }
  clients := [{ settings := twoRecords }]
  acked := insert 3 ∅

theorem inserts_acknowledged_two : IsLeast {n | 2 ≤ n ∧ n ∉ ackedThree.acked} 2 ∧
    (∀ label run', SamplesInRange twoRecords ackedThree label → InsertStep ackedThree label run' →
      2 ≤ run'.shared.nextInsertedNum) ∧
    ∀ client ∈ ackedThree.clients, ∀ draws, InRange twoRecords draws →
      (client.keyNum ackedThree.shared draws).Post (fun keyNum _ => keyNum < 2) (fun stuck => stuck = .loop) ∧
        ∀ now, (client.nextOp ackedThree.shared draws now).Sat (fun r _ => ∀ payload attach, r.1 = .ok (some (payload, attach)) →
          ∃ op, ClientBincode.serialize op = some payload ∧ (op.IsInsert ∨ ∃ keyNum, buildKeyName twoRecords keyNum = .ok op.key [] ∧
            (keyNum < 2 ∨ keyNum ∈ ackedThree.acked))) fun _ => True := by
  have hrange (run : InsertRun) : SamplesInRange twoRecords run (.onResult 0 [3] (some 3) 0) := by
    intro client draws now heq
    cases heq
  have hstep : InsertStep { shared := (Workload.new twoRecords).2, clients := [(Workload.new twoRecords).1] }
      (.onResult 0 [3] (some 3) 0) ackedThree := .onResult rfl rfl
  have hreach : (insertMachine twoRecords).Reach (SamplesInRange twoRecords) ackedThree := .next (.init rfl) (hrange _) hstep
  exact inserts_acknowledged hreach

end

end Neatworks.Ycsb
