import Neatworks.CheckSearch
import Neatworks.PutGet

/-!
# Appends to one key

`append_linearizable` of `examples/check-unreplicated.rs`: the recorded results
of all clients are one growing value. The replica executes the operations in
one order, and each result is the value so far.
-/

namespace Neatworks

/-- `serde_json::from_slice` of a result. -/
class ResultJson where
  fromSlice : Payload → Option KVStore.Result

/-- `serde_json` writes every result, and reads what it has written. -/
def ReadsResults [SerdeJson] [ResultJson] : Prop :=
  ∀ result, ∃ payload, SerdeJson.toVec result = some payload ∧ ResultJson.fromSlice payload = some result

theorem KVStore.execute_eq_some [SerdeJson] {store store' : KVStore} {payload result : Payload} :
    App.execute store payload = some (store', result) ↔ ∃ op, SerdeJson.fromSlice payload = some op ∧
      SerdeJson.toVec (store.apply op).2 = some result ∧ store' = (store.apply op).1 := by
  simp only [App.execute, Option.bind_eq_bind, Option.bind_eq_some_iff, Option.pure_def, Option.some.injEq, Prod.mk.injEq]
  constructor
  · rintro ⟨op, hop, payload', hpayload, rfl, rfl⟩
    exact ⟨op, hop, hpayload, rfl⟩
  · rintro ⟨op, hop, hpayload, rfl⟩
    exact ⟨op, hop, result, hpayload, rfl, rfl⟩

theorem KVStore.accepts_of [SerdeJson] (hwrites : ∀ result, ∃ payload, SerdeJson.toVec result = some payload)
    {payload : Payload} {op : KVStore.Op} (hop : SerdeJson.fromSlice payload = some op) : KVStore.Accepts payload := by
  intro store
  obtain ⟨result, hresult⟩ := hwrites (store.apply op).2
  exact ⟨_, KVStore.execute_eq_some.mpr ⟨op, hop, hresult, rfl⟩⟩

namespace Unreplicated

/-! ## What has been executed -/

section
variable {A : Type}

theorem executions_round (index k : Nat) (call : Payload × Payload) : executions (Progress.round index k call) = [call] := rfl

theorem executions_view (p : Progress A) (index : Nat) : executions (p.view index) = p.calls := by
  have hpast : executions (p.past.zipIdx.flatMap fun call => Progress.round index call.2 call.1) = p.past := by
    have hfst : ∀ {call : (Payload × Payload) × Nat}, executions (Progress.round index call.2 call.1) = [call.1] := rfl
    unfold executions at hfst ⊢
    rw [List.filterMap_flatMap]
    simp only [hfst]
    rw [← List.map_eq_flatMap, List.zipIdx_map_fst]
  obtain ⟨past, stage⟩ := p
  unfold Progress.view Progress.calls
  rw [executions_append, hpast]
  cases stage <;> rfl

end

section
variable {W : Type} [Workload W] [SerdeJson] {workloads : List W} {ps : Nat → Progress (Attach W)} {s : State W}
  {history : List Observed}

theorem Tracked.executions_client (h : Tracked workloads ps s history) {index : Nat} (hindex : index < workloads.length) :
    executions (history.filter (Observed.ofClient (clientId index))) = (ps index).calls := by
  obtain ⟨w₀, client, hw, hclient⟩ := h.client hindex
  rw [(h.clients index w₀ client hw hclient).view, executions_view]

theorem Tracked.mem_executions (h : Tracked workloads ps s history) {call : Payload × Payload} :
    call ∈ executions history ↔ ∃ index < workloads.length, call ∈ (ps index).calls := by
  constructor
  · intro hmem
    obtain ⟨observed, hobserved, hcall⟩ := List.mem_filterMap.mp hmem
    cases observed with
    | execute request result =>
      obtain ⟨index, hindex, hid⟩ := h.executed request result hobserved
      refine ⟨index, hindex, ?_⟩
      rw [← h.executions_client hindex]
      exact List.mem_filterMap.mpr ⟨_, List.mem_filter.mpr ⟨hobserved, by simpa [Observed.ofClient] using hid⟩, hcall⟩
    | _ => cases hcall
  · rintro ⟨index, hindex, hcall⟩
    rw [← h.executions_client hindex] at hcall
    exact (List.filter_sublist.filterMap _).subset hcall

omit [SerdeJson] in
theorem Progress.calls_opAt (ho : Oblivious W) {w₀ w : W} {p : Progress (Attach W)} (h : Drives w₀ p.past p.stage.current w)
    {call : Payload × Payload} (hcall : call ∈ p.calls) : ∃ k, opAt k w₀ = some call.1 := by
  obtain ⟨hpast, hcurrent, _⟩ := h.ops ho
  rcases List.mem_append.mp hcall with hmem | hmem
  · obtain ⟨k, hk⟩ := List.getElem?_of_mem hmem
    exact ⟨k, hpast k call hk⟩
  · refine ⟨p.past.length, hcurrent.trans ?_⟩
    cases hstage : p.stage with
    | executed op attach result =>
      rw [hstage, List.mem_singleton] at hmem
      rw [hmem]
      rfl
    | _ =>
      rw [hstage] at hmem
      cases hmem

omit [SerdeJson] in
/-- The results that a workload has recorded. -/
theorem Drives.invocations {w₀ w : Recorded W} {past : List (Payload × Payload)}
    {current : Option (Payload × Attach (Recorded W))} (h : Drives w₀ past current w) :
    w.invocations = w₀.invocations ++ past ∧ ∀ call, current = some call → call.2.1 = call.1 := by
  have hattach : ∀ {w w' : Recorded W} {next : Option (Payload × Attach (Recorded W))},
      Workload.nextOp w = .ok (next, w') → ∀ call, next = some call → call.2.1 = call.1 := by
    intro w w' next hnext call hcall
    obtain ⟨next', _, rfl, _⟩ := recorded_nextOp hnext
    obtain ⟨c, _, rfl⟩ := Option.map_eq_some_iff.mp hcall
    rfl
  induction h with
  | start h =>
    obtain ⟨_, _, _, hinvocations⟩ := recorded_nextOp h
    exact ⟨by rw [hinvocations, List.append_nil], hattach h⟩
  | next _ hresult hnext ih =>
    obtain ⟨hrecorded, hcurrent⟩ := ih
    obtain ⟨_, _, _, hinvocations⟩ := recorded_nextOp hnext
    refine ⟨?_, hattach hnext⟩
    rw [hinvocations, (recorded_onResult hresult).2, hrecorded, hcurrent _ rfl, List.append_assoc]

end

/-! ## The check -/

section
variable {W : Type} [Workload W] [SerdeJson] [ResultJson] (debug : Payload → String) (sort : List String → List String)

/-- The body of the loop over the invocations; `debug` is the `Debug` of a payload. -/
def invocationValue (invocation : Payload × Payload) : Except Error String :=
  match SerdeJson.fromSlice invocation.1 with
  | none => .error .execute
  | some (.append _ appendValue) =>
    match ResultJson.fromSlice invocation.2 with
    | none => .error .execute
    | some (.appendResult value) =>
      if appendValue.toList <:+ value.toList then .ok value
      else .error (.bail s!"{debug invocation.1} get {debug invocation.2}")
    | some _ => .error (.bail s!"unexpected {debug invocation.2}")
  | some _ => .error (.bail s!"unexpected {debug invocation.1}")

/-- `for window in all_results.windows(2)`. -/
def checkWindows : List String → Except Error Unit
  | [] => .ok ()
  | [_] => .ok ()
  | prevValue :: value :: values =>
    if prevValue.toList <+: value.toList then checkWindows (value :: values)
    else .error (.bail s!"{value} inconsistent with {prevValue}")

def appendLinearizable (state : State (Recorded W)) : Except Error Unit := do
  let allResults ← (state.clients.flatMap (·.closeLoop.workload.invocations)).mapM (invocationValue debug)
  checkWindows (sort allResults)

end

/-- `sort_unstable_by_key(|s| s.len())`, which leaves the order of equal lengths open. -/
structure SortsByLen (sort : List String → List String) : Prop where
  perm : ∀ values, (sort values).Perm values
  sorted : ∀ values, (sort values).Pairwise (·.utf8ByteSize ≤ ·.utf8ByteSize)

/-! ## Values of one key -/

section
variable [SerdeJson]

/-- The value of a key, as the store appends to it. -/
def valueOf (store : KVStore) (key : String) : List Char := ((store.map key).getD "").toList

theorem appends_runs {key : String} {store store' : KVStore} {calls : List (Payload × Payload)} (h : store.Runs calls store')
    (hops : ∀ call ∈ calls, ∃ suffix, SerdeJson.fromSlice call.1 = some (.append key suffix)) :
    valueOf store key <+: valueOf store' key ∧ ∀ call ∈ calls, ∃ suffix value,
      SerdeJson.fromSlice call.1 = some (.append key suffix) ∧ SerdeJson.toVec (.appendResult value) = some call.2 ∧
      suffix.toList <:+ value.toList ∧ value.toList <+: valueOf store' key := by
  induction calls generalizing store with
  | nil =>
    obtain rfl : store' = store := h
    exact ⟨List.prefix_rfl, fun call hcall => absurd hcall List.not_mem_nil⟩
  | cons call calls ih =>
    obtain ⟨next, hexecute, hruns⟩ := h
    obtain ⟨suffix, hsuffix⟩ := hops call List.mem_cons_self
    obtain ⟨op, hop, hresult, hnext⟩ := KVStore.execute_eq_some.mp hexecute
    rw [hsuffix] at hop
    cases hop
    obtain ⟨hbegins, hrest⟩ := ih hruns fun c hc => hops c (List.mem_cons_of_mem _ hc)
    have hvalue : valueOf next key = valueOf store key ++ suffix.toList := by
      simp only [valueOf, hnext, KVStore.apply, KVStore.insert, Function.update_self, Option.getD_some, String.toList_append]
    refine ⟨List.IsPrefix.trans ?_ hbegins, fun c hc => ?_⟩
    · rw [hvalue]
      exact List.prefix_append _ _
    · rcases List.mem_cons.mp hc with rfl | hc
      · refine ⟨suffix, _, hsuffix, hresult, ?_, ?_⟩
        · rw [String.toList_append]
          exact List.suffix_append _ _
        · rw [String.toList_append, ← valueOf, ← hvalue]
          exact hbegins
      · exact hrest c hc

end

/-- Of two strings that begin the same one, the shorter begins the longer. -/
theorem prefix_of_size {a b : String} {l : List Char} (ha : a.toList <+: l) (hb : b.toList <+: l)
    (hsize : a.utf8ByteSize ≤ b.utf8ByteSize) : a.toList <+: b.toList := by
  rcases List.prefix_or_prefix_of_prefix ha hb with h | ⟨rest, hrest⟩
  · exact h
  · have heq : a = b ++ String.ofList rest := by
      rw [← String.toList_inj, String.toList_append, String.toList_ofList, hrest]
    rw [heq, String.utf8ByteSize_append] at hsize
    have hempty : String.ofList rest = "" := String.utf8ByteSize_eq_zero_iff.mp (by omega)
    rw [heq, hempty, String.append_empty]

theorem checkWindows_ok {values : List String} {l : List Char} (hbegins : ∀ value ∈ values, value.toList <+: l)
    (hsorted : values.Pairwise (·.utf8ByteSize ≤ ·.utf8ByteSize)) : checkWindows values = .ok () := by
  induction values using checkWindows.induct with
  | case1 => rfl
  | case2 => rfl
  | case3 prevValue value values hwindow ih =>
    rw [checkWindows, if_pos hwindow]
    exact ih (fun v hv => hbegins v (List.mem_cons_of_mem _ hv)) (List.pairwise_cons.mp hsorted).2
  | case4 prevValue value values hnot =>
    refine absurd (prefix_of_size (hbegins prevValue List.mem_cons_self) (hbegins value ?_) ?_) hnot
    · exact List.mem_cons_of_mem _ List.mem_cons_self
    · exact (List.pairwise_cons.mp hsorted).1 value List.mem_cons_self

theorem mapM_ok {α β ε : Type} {f : α → Except ε β} {P : β → Prop} {l : List α} (h : ∀ a ∈ l, ∃ b, f a = .ok b ∧ P b) :
    ∃ bs, l.mapM f = .ok bs ∧ ∀ b ∈ bs, P b := by
  induction l with
  | nil => exact ⟨[], rfl, fun b hb => absurd hb List.not_mem_nil⟩
  | cons a l ih =>
    obtain ⟨b, hb, hP⟩ := h a List.mem_cons_self
    obtain ⟨bs, hbs, hrest⟩ := ih fun a' ha' => h a' (List.mem_cons_of_mem _ ha')
    refine ⟨b :: bs, ?_, ?_⟩
    · rw [List.mapM_cons, hb, hbs]
      rfl
    · intro b' hb'
      rcases List.mem_cons.mp hb' with rfl | hb'
      · exact hP
      · exact hrest b' hb'

/-! ## Every run -/

/-- What the operations of these workloads are: appends to one key. -/
def AppendsTo {W : Type} [Workload W] [SerdeJson] (key : String) (workloads : List W) : Prop :=
  ∀ w ∈ workloads, ∀ k op, opAt k w = some op → ∃ suffix, SerdeJson.fromSlice op = some (.append key suffix)

/-- `Recorded::from`. -/
def Recorded.from {W : Type} (inner : W) : Recorded W := { inner := inner }

section
variable {W : Type} [Workload W] [SerdeJson] [ResultJson] {debug : Payload → String} {sort : List String → List String}
  {key : String} {workloads : List W}

omit [ResultJson] in
theorem AppendsTo.recorded (ho : Oblivious W) (h : AppendsTo key workloads) : AppendsTo key (workloads.map Recorded.from) := by
  intro w hw k op hop
  obtain ⟨inner, hinner, rfl⟩ := List.mem_map.mp hw
  rw [recorded_opAt ho] at hop
  exact h inner hinner k op hop

theorem append_linearizable_reach (ho : Oblivious W) (hreads : ReadsResults) (hsort : SortsByLen sort)
    (happends : AppendsTo key workloads) {run : Run (Recorded W)}
    (h : (checkMachine (workloads.map Recorded.from)).Reach Machine.always run) :
    appendLinearizable debug sort run.state = .ok () := by
  obtain ⟨ps, htracked⟩ := tracked_reach h
  have hops : ∀ call ∈ executions run.history, ∃ suffix, SerdeJson.fromSlice call.1 = some (.append key suffix) := by
    intro call hcall
    obtain ⟨index, hindex, hcall⟩ := htracked.mem_executions.mp hcall
    obtain ⟨w₀, client, hw, hclient⟩ := htracked.client hindex
    obtain ⟨k, hk⟩ := Progress.calls_opAt (recorded_oblivious ho) (htracked.clients index w₀ client hw hclient).drives hcall
    exact happends.recorded ho w₀ (List.mem_of_getElem? hw) k _ hk
  obtain ⟨_, hvalues⟩ := appends_runs htracked.sequential hops
  have hinvocations : ∀ invocation ∈ run.state.clients.flatMap (·.closeLoop.workload.invocations),
      ∃ value, invocationValue debug invocation = .ok value ∧ value.toList <+: valueOf run.state.replica.app key := by
    intro invocation hmem
    obtain ⟨client, hclient, hmem⟩ := List.mem_flatMap.mp hmem
    obtain ⟨index, hclient⟩ := List.getElem?_of_mem hclient
    obtain ⟨w₀, hw⟩ := htracked.workload hclient
    have htracks := htracked.clients index w₀ client hw hclient
    obtain ⟨inner, _, rfl⟩ := List.mem_map.mp (List.mem_of_getElem? hw)
    rw [htracks.drives.invocations.1] at hmem
    have hpast : invocation ∈ (ps index).past := by simpa [Recorded.from] using hmem
    have hexecuted : invocation ∈ executions run.history :=
      htracked.mem_executions.mpr ⟨index, (List.getElem?_eq_some_iff.mp hw).1, List.mem_append_left _ hpast⟩
    obtain ⟨suffix, value, hop, hresult, hsuffix, hbegins⟩ := hvalues invocation hexecuted
    obtain ⟨payload, hpayload, hread⟩ := hreads (.appendResult value)
    rw [hresult] at hpayload
    cases hpayload
    refine ⟨value, ?_, hbegins⟩
    simp only [invocationValue, hop, hread, hsuffix, if_true]
  obtain ⟨values, hmapM, hbegins⟩ := mapM_ok hinvocations
  unfold appendLinearizable
  rw [hmapM]
  exact checkWindows_ok (fun value hvalue => hbegins value ((hsort.perm values).subset hvalue)) (hsort.sorted values)

omit [ResultJson] in
theorem Oblivious.stepsFit {workloads : List W} (ho : Oblivious W)
    (haccepts : ∀ w ∈ workloads, ∀ k op, opAt k w = some op → KVStore.Accepts op) : StepsFit workloads := by
  intro run hreach event hevent
  obtain ⟨ps, htracked⟩ := tracked_reach hreach
  exact htracked.step_isOk ho haccepts hevent

theorem AppendsTo.stepsFit (ho : Oblivious W) (hreads : ReadsResults) (h : AppendsTo key workloads) :
    StepsFit (workloads.map Recorded.from) := by
  refine (recorded_oblivious ho).stepsFit fun w hw k op hop => ?_
  obtain ⟨suffix, hsuffix⟩ := h.recorded ho w hw k op hop
  exact KVStore.accepts_of (fun result => (hreads result).imp fun _ => And.left) hsuffix

/-- No search of clients that append to one key finds a result that is not the
value so far. -/
theorem append_linearizable {I : Type} [Iterator I Payload] {workloads : List (Iter I)} (hreads : ReadsResults)
    (hsort : SortsByLen sort) (happends : AppendsTo key workloads) {run₀ : Run (Recorded (Iter I))}
    (hinit : (checkMachine (workloads.map Recorded.from)).init run₀)
    {settings : Search.Settings (State (Recorded (Iter I))) Error}
    (hinvariant : settings.invariant = appendLinearizable debug sort)
    (hfits : Fits (workloads.map Recorded.from) settings.maxDepth) :
    (∀ s, Search.Reachable run₀.state s → appendLinearizable debug sort s = .ok ()) ∧
      Search.Passes State.dry settings run₀.state := by
  have ho : Oblivious (Iter I) := iter_oblivious
  have hholds : ∀ run, (checkMachine (workloads.map Recorded.from)).Reach Machine.always run →
      appendLinearizable debug sort run.state = .ok () :=
    fun run hreach => append_linearizable_reach ho hreads hsort happends hreach
  refine ⟨fun s hs => ?_, (happends.stepsFit ho hreads).passes (recorded_recoverable iter_recoverable) hinit hfits
    fun run hreach => ?_⟩
  · obtain ⟨history, hreach⟩ := reachable_reach hinit hs
    exact hholds _ hreach
  · rw [Search.Holds, hinvariant]
    exact hholds run hreach

end

/-! ## Two clients -/

/-- The texts of the results. -/
@[reducible] def textResults : ResultJson where
  fromSlice
    | [34, 80, 117, 116, 79, 107, 34] => some .putOk
    | 123 :: 34 :: 71 :: 101 :: 116 :: 82 :: 101 :: 115 :: 117 :: 108 :: 116 :: 34 :: 58 :: 34 :: bytes => do
      let (value, bytes) ← KVStore.readJson bytes
      if bytes = [125] then some (.getResult value) else none
    | 123 :: 34 :: 65 :: 112 :: 112 :: 101 :: 110 :: 100 :: 82 :: 101 :: 115 :: 117 :: 108 :: 116 :: 34 :: 58 :: 34 :: bytes => do
      let (value, bytes) ← KVStore.readJson bytes
      if bytes = [125] then some (.appendResult value) else none
    | bytes => if bytes = KVStore.notFound then some .ketyNotFound else none

theorem iter_opAt (ops : List Payload) (k : Nat) : opAt k (⟨ops⟩ : Iter (List Payload)) = ops[k]? := by
  induction ops generalizing k with
  | nil => cases k <;> rfl
  | cons op ops ih =>
    cases k with
    | zero => rfl
    | succ k => exact ih k

theorem Oblivious.short {W : Type} [Workload W] (ho : Oblivious W) {w : W} {n : Nat} (hn : n < 2 ^ 32)
    (hnone : ∀ k, n ≤ k → opAt k w = none) : Short w := by
  intro past call w' h
  have hcurrent := (h.ops ho).2.1
  by_contra hge
  rw [hnone _ (by omega)] at hcurrent
  cases hcurrent

section
local instance appendJson : SerdeJson := KVStore.textJson

local instance appendResults : ResultJson := textResults

theorem text_readsResults : ReadsResults := by
  intro result
  cases result <;> refine ⟨_, rfl, ?_⟩ <;>
    simp [ResultJson.fromSlice, KVStore.readJson_append, KVStore.notFound]

def sortByLen (values : List String) : List String := values.mergeSort (·.utf8ByteSize ≤ ·.utf8ByteSize)

theorem sortByLen_sorts : SortsByLen sortByLen where
  perm values := List.mergeSort_perm values _
  sorted values := by
    have htrans : ∀ a b c : String, decide (a.utf8ByteSize ≤ b.utf8ByteSize) = true →
        decide (b.utf8ByteSize ≤ c.utf8ByteSize) = true → decide (a.utf8ByteSize ≤ c.utf8ByteSize) = true := by
      intro a b c hab hbc
      exact decide_eq_true ((of_decide_eq_true hab).trans (of_decide_eq_true hbc))
    have htotal : ∀ a b : String,
        (decide (a.utf8ByteSize ≤ b.utf8ByteSize) || decide (b.utf8ByteSize ≤ a.utf8ByteSize)) = true := by
      intro a b
      rw [Bool.or_eq_true, decide_eq_true_eq, decide_eq_true_eq]
      exact Nat.le_total _ _
    have hsorted := List.pairwise_mergeSort htrans htotal values
    simpa [sortByLen] using hsorted

/-- `Op::Append(String::from("foo"), x.to_string())`. -/
def fooAppend (suffix : String) : Payload :=
  123 :: 34 :: 65 :: 112 :: 112 :: 101 :: 110 :: 100 :: 34 :: 58 :: 91 :: 34 :: KVStore.jsonPair "foo" suffix

def fooClients : List (Iter (List Payload)) :=
  [⟨["0", "1", "2"].map fooAppend⟩, ⟨["0", "1", "2"].map fooAppend⟩]

theorem fooClients_appends : AppendsTo "foo" fooClients := by
  intro w hw k op hop
  have hw : w = ⟨["0", "1", "2"].map fooAppend⟩ := by simpa [fooClients] using hw
  rw [hw, iter_opAt] at hop
  obtain ⟨suffix, _, rfl⟩ := List.mem_map.mp (List.mem_of_getElem? hop)
  exact ⟨suffix, by simp only [fooAppend, SerdeJson.fromSlice, KVStore.readPair_append, Option.map_some]⟩

theorem fooClients_short : ∀ w ∈ fooClients.map Recorded.from, Short w := by
  intro w hw
  obtain ⟨inner, hinner, rfl⟩ := List.mem_map.mp hw
  have hinner : inner = ⟨["0", "1", "2"].map fooAppend⟩ := by simpa [fooClients] using hinner
  refine (recorded_oblivious iter_oblivious).short (n := 3) (by decide) fun k hk => ?_
  rw [recorded_opAt iter_oblivious, hinner, Recorded.from, iter_opAt]
  exact List.getElem?_eq_none (by simpa using hk)

theorem append_linearizable_two : ∃ run₀, (checkMachine (fooClients.map Recorded.from)).init run₀ ∧
    (∀ s, Search.Reachable run₀.state s → appendLinearizable (fun _ => "") sortByLen s = .ok ()) ∧
    Search.Passes State.dry
      { invariant := appendLinearizable (fun _ => "") sortByLen
        goal := fun state => state.clients.all (·.closeLoop.done)
        prune := fun _ => false
        maxDepth := none } run₀.state := by
  obtain ⟨run₀, hinit⟩ : ∃ run₀, (checkMachine (fooClients.map Recorded.from)).init run₀ := ⟨⟨_, _⟩, _, rfl, rfl⟩
  exact ⟨run₀, hinit,
    append_linearizable text_readsResults sortByLen_sorts fooClients_appends hinit rfl (Or.inl fooClients_short)⟩

end

end Unreplicated

end Neatworks
