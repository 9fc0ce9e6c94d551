import Mathlib.Data.Set.Operations
import Neatworks.CheckAppend

/-!
# Clients that predict their results

`Check` of `workload.rs` pairs each operation with the result that it expects.
What the store does to the keys of one client depends on the operations of this
client only, and each of them is executed once, in order: the results are those
of a store of its own.
-/

namespace Neatworks

namespace KVStore

def Op.key : Op → String
  | .put key _ => key
  | .get key => key
  | .append key _ => key

theorem insert_map (store : KVStore) (key value k : String) :
    (store.insert key value).map k = if k = key then some value else store.map k := by
  simp [insert, Function.update_apply]

/-- The stores agree on these keys. -/
def Agree (keys : Set String) (store alone : KVStore) : Prop := ∀ key ∈ keys, store.map key = alone.map key

theorem Agree.apply {keys : Set String} {store alone : KVStore} (h : Agree keys store alone) {op : Op} (hkey : op.key ∈ keys) :
    (store.apply op).2 = (alone.apply op).2 ∧ Agree keys (store.apply op).1 (alone.apply op).1 := by
  have hsame := h op.key hkey
  have hinsert : ∀ {key value : String}, Agree keys (store.insert key value) (alone.insert key value) := by
    intro key value k hk
    rw [insert_map, insert_map, h k hk]
  cases op with
  | put key value => exact ⟨rfl, hinsert⟩
  | get key =>
    simp only [Op.key] at hsame
    simp only [KVStore.apply, hsame]
    cases alone.map key <;> exact ⟨rfl, h⟩
  | append key suffix =>
    simp only [Op.key] at hsame
    simp only [KVStore.apply, hsame]
    exact ⟨trivial, hinsert⟩

theorem Agree.frame {keys : Set String} {store alone : KVStore} (h : Agree keys store alone) {op : Op} (hkey : op.key ∉ keys) :
    Agree keys (store.apply op).1 alone := by
  have hinsert : ∀ {value : String}, Agree keys (store.insert op.key value) alone := by
    intro value k hk
    have hne : k ≠ op.key := fun heq => hkey (heq ▸ hk)
    rw [insert_map, if_neg hne, h k hk]
  cases op with
  | put key value => exact hinsert
  | get key =>
    simp only [KVStore.apply]
    split <;> exact h
  | append key suffix => exact hinsert

/-- The operations tell the results. -/
theorem Runs.unique [SerdeJson] {store store₁ store₂ : KVStore} {calls₁ calls₂ : List (Payload × Payload)}
    (h₁ : store.Runs calls₁ store₁) (h₂ : store.Runs calls₂ store₂) (hops : calls₁.map Prod.fst = calls₂.map Prod.fst) :
    calls₁ = calls₂ := by
  induction calls₁ generalizing store calls₂ with
  | nil => exact (List.map_eq_nil_iff.mp hops.symm).symm
  | cons call₁ calls₁ ih =>
    cases calls₂ with
    | nil => cases hops
    | cons call₂ calls₂ =>
      obtain ⟨op₁, result₁⟩ := call₁
      obtain ⟨op₂, result₂⟩ := call₂
      obtain ⟨hop, hrest⟩ := List.cons.inj hops
      obtain rfl : op₁ = op₂ := hop
      obtain ⟨next₁, hexecute₁, hrest₁⟩ := h₁
      obtain ⟨next₂, hexecute₂, hrest₂⟩ := h₂
      rw [hexecute₁] at hexecute₂
      cases hexecute₂
      rw [ih hrest₁ hrest₂ hrest]

end KVStore

namespace Unreplicated

/-- What the store does to some keys depends on the operations on them only. -/
theorem executions_alone [SerdeJson] {keys : Set String} {own : Observed → Bool} {history : List Observed}
    {store store' alone : KVStore}
    (hown : ∀ request result, .execute request result ∈ history → ∀ op, SerdeJson.fromSlice request.op = some op →
      (own (.execute request result) = true ↔ op.key ∈ keys))
    (hagree : KVStore.Agree keys store alone) (h : store.Runs (executions history) store') :
    ∃ alone', alone.Runs (executions (history.filter own)) alone' ∧ KVStore.Agree keys store' alone' := by
  induction history generalizing store alone with
  | nil =>
    obtain rfl : store' = store := h
    exact ⟨alone, rfl, hagree⟩
  | cons observed history ih =>
    have hrest := fun request result (hmem : .execute request result ∈ history) =>
      hown request result (List.mem_cons_of_mem _ hmem)
    cases observed with
    | execute request result =>
      obtain ⟨next, hexecute, hruns⟩ := h
      obtain ⟨op, hop, hresult, hnext⟩ := KVStore.execute_eq_some.mp hexecute
      have hkey := hown request result List.mem_cons_self op hop
      by_cases hmine : own (.execute request result) = true
      · obtain ⟨hsame, happly⟩ := hagree.apply (hkey.mp hmine)
        rw [← hnext] at happly
        obtain ⟨alone', hruns', hagree'⟩ := ih hrest happly hruns
        rw [List.filter_cons_of_pos hmine]
        exact ⟨alone', ⟨_, KVStore.execute_eq_some.mpr ⟨op, hop, hsame ▸ hresult, rfl⟩, hruns'⟩, hagree'⟩
      · have hframe := hagree.frame (hkey.not.mp hmine)
        rw [← hnext] at hframe
        rw [List.filter_cons_of_neg hmine]
        exact ih hrest hframe hruns
    | _ =>
      rw [List.filter_cons]
      split <;> exact ih hrest hagree h

/-! ## The workload -/

section
variable {J : Type} [Iterator J (Payload × Payload)]

/-- What an iterator has given, and what is left of it. -/
inductive Gives (inner : J) : List (Payload × Payload) → J → Prop
  | start : Gives inner [] inner
  | next {calls : List (Payload × Payload)} {call : Payload × Payload} {rest rest' : J} (h : Gives inner calls rest)
    (hnext : Iterator.next rest = (some call, rest')) : Gives inner (calls ++ [call]) rest'

/-- `Check::new`. -/
def Check.new (inner : J) : Check J := { inner := inner }

omit [Iterator J (Payload × Payload)] in
theorem Check.new_expectedResult (inner : J) : (Check.new inner).expectedResult = none := rfl

theorem check_nextOp_eq {w : Check J} (h : w.expectedResult = none) :
    Workload.nextOp w = .ok (match Iterator.next w.inner with
      | (none, inner) => (none, { inner := inner, expectedResult := none })
      | (some (op, expectedResult), inner) => (some (op, ()), { inner := inner, expectedResult := some expectedResult })) := by
  simp only [Workload.nextOp, h]
  rcases Iterator.next w.inner with ⟨_ | ⟨op, expectedResult⟩, inner⟩ <;> rfl

theorem check_onResult_eq_ok {w w' : Check J} {result : Payload} {attach : Attach (Check J)} :
    Workload.onResult w result attach = .ok w' ↔ w.expectedResult = some result ∧ w' = { w with expectedResult := none } := by
  obtain ⟨inner, expectedResult⟩ := w
  simp only [Workload.onResult]
  cases expectedResult with
  | none => simp
  | some expectedResult =>
    by_cases heq : result = expectedResult
    · simp [heq, eq_comm]
    · simp [heq, Ne.symm heq]

/-- A driven `Check` has got the results that it expected. -/
theorem check_drives {inner : J} {w : Check J} {past : List (Payload × Payload)}
    {current : Option (Payload × Attach (Check J))} (h : Drives (Check.new inner) past current w) :
    (∃ op expected, current = some (op, ()) ∧ Gives inner (past ++ [(op, expected)]) w.inner ∧
      w.expectedResult = some expected) ∨
      current = none ∧ ∃ rest, Gives inner past rest ∧ (Iterator.next rest : Option (Payload × Payload) × J).1 = none := by
  have hnext : ∀ {w w' : Check J} {past : List (Payload × Payload)} {current : Option (Payload × Attach (Check J))},
      w.expectedResult = none → Gives inner past w.inner → Workload.nextOp w = .ok (current, w') →
      (∃ op expected, current = some (op, ()) ∧ Gives inner (past ++ [(op, expected)]) w'.inner ∧
        w'.expectedResult = some expected) ∨
        current = none ∧ ∃ rest, Gives inner past rest ∧ (Iterator.next rest : Option (Payload × Payload) × J).1 = none := by
    intro w w' past current hnone hgives hnext
    rw [check_nextOp_eq hnone] at hnext
    rcases hcall : Iterator.next w.inner with ⟨_ | ⟨op, expected⟩, rest⟩
    · rw [hcall] at hnext
      cases hnext
      exact Or.inr ⟨rfl, _, hgives, congrArg Prod.fst hcall⟩
    · rw [hcall] at hnext
      cases hnext
      exact Or.inl ⟨op, expected, rfl, hgives.next hcall, rfl⟩
  induction h with
  | start h => exact hnext rfl .start h
  | next _ hresult hop ih =>
    obtain ⟨hexpected, rfl⟩ := check_onResult_eq_ok.mp hresult
    rcases ih with ⟨op, expected, hcurrent, hgives, hsome⟩ | ⟨hcurrent, _⟩
    · cases hcurrent
      rw [hexpected] at hsome
      cases hsome
      exact hnext (w := { inner := _ }) rfl hgives hop
    · cases hcurrent

/-- Alone, a store answers the operations as expected; they are on these keys. -/
structure Predicts [SerdeJson] (keys : Set String) (inner : J) : Prop where
  answers : ∀ calls rest, Gives inner calls rest → ∃ store, KVStore.new.Runs calls store
  keys : ∀ calls rest, Gives inner calls rest → ∀ call ∈ calls, ∃ op, SerdeJson.fromSlice call.1 = some op ∧ op.key ∈ keys

/-- Each client has operations on its own keys only. -/
structure Keyed [SerdeJson] (keys : Nat → Set String) (inners : List J) : Prop where
  ops : ∀ index inner, inners[index]? = some inner → ∀ calls rest, Gives inner calls rest →
    ∀ call ∈ calls, ∃ op, SerdeJson.fromSlice call.1 = some op ∧ op.key ∈ keys index
  apart : ∀ i j, i < inners.length → j < inners.length → i ≠ j → ∀ key ∈ keys i, key ∉ keys j

/-- Each of the clients has keys of its own. -/
structure Predicting [SerdeJson] (keys : Nat → Set String) (inners : List J) : Prop where
  predicts : ∀ index inner, inners[index]? = some inner → Predicts (keys index) inner
  apart : ∀ i j, i < inners.length → j < inners.length → i ≠ j → ∀ key ∈ keys i, key ∉ keys j

end

/-! ## Every run -/

section
variable {J : Type} [Iterator J (Payload × Payload)] [SerdeJson] {keys : Nat → Set String} {inners : List J}
  {ps : Nat → Progress (Attach (Check J))} {s : State (Check J)} {history : List Observed}

theorem Predicting.keyed (h : Predicting keys inners) : Keyed keys inners :=
  ⟨fun index inner hinner => (h.predicts index inner hinner).keys, h.apart⟩

theorem Keyed.op (h : Keyed keys inners) {index : Nat} {inner : J} (hinner : inners[index]? = some inner) {w : Check J}
    {p : Progress (Attach (Check J))} (hdrives : Drives (Check.new inner) p.past p.stage.current w) {payload : Payload}
    (hop : payload ∈ p.ops) : ∃ op, SerdeJson.fromSlice payload = some op ∧ op.key ∈ keys index := by
  have hgives : ∃ calls rest, Gives inner calls rest ∧ calls.map Prod.fst = p.ops := by
    rcases check_drives hdrives with ⟨op, expected, hcurrent, hgives, _⟩ | ⟨hcurrent, rest, hgives, _⟩
    · exact ⟨_, _, hgives, by rw [Progress.ops, hcurrent]; simp⟩
    · exact ⟨_, _, hgives, by rw [Progress.ops, hcurrent]; simp⟩
  obtain ⟨calls, rest, hgives, hops⟩ := hgives
  rw [← hops] at hop
  obtain ⟨call, hcall, rfl⟩ := List.mem_map.mp hop
  exact h.ops index inner hinner calls rest hgives call hcall

omit [SerdeJson] in
theorem Progress.calls_ops {A : Type} (p : Progress A) : ∀ call ∈ p.calls, call.1 ∈ p.ops := by
  intro call hcall
  rcases List.mem_append.mp hcall with hmem | hmem
  · exact List.mem_append_left _ (List.mem_map.mpr ⟨call, hmem, rfl⟩)
  · obtain ⟨past, stage⟩ := p
    cases stage with
    | executed op attach result =>
      rw [List.mem_singleton.mp hmem]
      exact List.mem_append_right _ (List.mem_singleton_self _)
    | _ => cases hmem

omit [SerdeJson] in
theorem Progress.Valid.request_ops {A : Type} {p : Progress A} {index : Nat} {message : MessageEvent} (h : p.Valid index message)
    {request : Request Addr} (hrequest : message.message = .request request) : request.op ∈ p.ops := by
  cases h with
  | past hcall =>
    rw [← Message.request.inj hrequest]
    exact List.mem_append_left _ (List.mem_map.mpr ⟨_, List.mem_of_getElem? hcall, rfl⟩)
  | current hcurrent =>
    rw [← Message.request.inj hrequest, Progress.ops, hcurrent]
    exact List.mem_append_right _ (List.mem_singleton_self _)
  | reply => cases hrequest

omit [SerdeJson] in
/-- The reply that a client waits for is to its current operation. -/
theorem Tracks.reply_executed {W : Type} [Workload W] {w₀ : W} {index : Nat} {client : ClientState W} {stored : Option Reply}
    {messageEvents : Finset MessageEvent} {view : List Observed} {p : Progress (Attach W)}
    (h : Tracks w₀ index client stored messageEvents view p) {reply : Reply}
    (hmem : ⟨.client index, .reply reply⟩ ∈ messageEvents) (hseq : reply.seq = client.state.seq) {attach : Attach W}
    (hattach : client.closeLoop.workloadAttach = some attach) : ∃ op, p.stage = .executed op attach reply.result := by
  obtain ⟨k, call, hcall, rfl⟩ := (h.messages _ hmem rfl).reply_call rfl
  have hcurrent : p.stage.current.map Prod.snd = some attach := by
    rw [← hattach, h.client]
    rfl
  have hcount : p.count = p.past.length + 1 := by
    obtain ⟨current, hsome, _⟩ := Option.map_eq_some_iff.mp hcurrent
    rw [Progress.count, hsome]
    rfl
  have hk : k = p.past.length := by
    have hlt := (List.getElem?_eq_some_iff.mp hcall).1
    have hle := p.calls_length_le
    have hbound := h.count
    rw [h.client] at hseq
    have := ofNat_inj (by omega) hbound hseq
    omega
  obtain ⟨past, stage⟩ := p
  cases stage with
  | finished => cases hcurrent
  | invoked op attach' =>
    rw [Progress.calls, List.append_nil, hk, List.getElem?_length] at hcall
    cases hcall
  | executed op attach' result =>
    rw [Progress.calls, hk, List.getElem?_concat_length] at hcall
    cases hcall
    cases hcurrent
    exact ⟨op, rfl⟩

theorem Tracked.inner (htracked : Tracked (inners.map Check.new) ps s history) {index : Nat}
    (hindex : index < inners.length) : ∃ inner client, inners[index]? = some inner ∧ s.clients[index]? = some client ∧
      Tracks (Check.new inner) index client (s.replica.replies (clientId index)) s.messageEvents
        (history.filter (Observed.ofClient (clientId index))) (ps index) := by
  have hclients : index < (inners.map Check.new).length := by rwa [List.length_map]
  obtain ⟨w₀, client, hw, hclient⟩ := htracked.client hclients
  have htracks := htracked.clients index w₀ client hw hclient
  rw [List.getElem?_map, Option.map_eq_some_iff] at hw
  obtain ⟨inner, hinner, rfl⟩ := hw
  exact ⟨inner, client, hinner, hclient, htracks⟩

/-- The store answers the client as if it were alone. -/
theorem Keyed.alone (h : Keyed keys inners) (htracked : Tracked (inners.map Check.new) ps s history) {index : Nat}
    (hindex : index < inners.length) : ∃ alone, KVStore.new.Runs (ps index).calls alone := by
  have hlength : (inners.map Check.new).length = inners.length := List.length_map ..
  have hmine : ∀ i < inners.length, ∀ request result, .execute request result ∈ history → request.clientId = clientId i →
      ∀ op, SerdeJson.fromSlice request.op = some op → op.key ∈ keys i := by
    intro i hi request result hmem hid op hop
    obtain ⟨inner, client, hinner, _, htracks⟩ := htracked.inner hi
    have hcall : (request.op, result) ∈ (ps i).calls := by
      rw [← htracked.executions_client (hlength ▸ hi)]
      exact List.mem_filterMap.mpr ⟨_, List.mem_filter.mpr ⟨hmem, by simpa [Observed.ofClient] using hid⟩, rfl⟩
    obtain ⟨op', hop', hkey⟩ := h.op hinner htracks.drives (Progress.calls_ops _ _ hcall)
    rw [hop] at hop'
    cases hop'
    exact hkey
  have hown : ∀ request result, .execute request result ∈ history → ∀ op, SerdeJson.fromSlice request.op = some op →
      (Observed.ofClient (clientId index) (.execute request result) = true ↔ op.key ∈ keys index) := by
    intro request result hmem op hop
    rw [Observed.ofClient, decide_eq_true_eq]
    refine ⟨fun hid => hmine index hindex request result hmem hid op hop, fun hkey => ?_⟩
    obtain ⟨i, hi, hid⟩ := htracked.executed request result hmem
    rw [hlength] at hi
    by_cases heq : i = index
    · rw [hid, heq]
    · have hother := hmine i hi request result hmem hid op hop
      exact absurd hkey (h.apart i index hi hindex heq _ hother)
  obtain ⟨alone, hruns, _⟩ := executions_alone hown (fun _ _ => rfl) htracked.sequential
  rw [htracked.executions_client (hlength ▸ hindex)] at hruns
  exact ⟨alone, hruns⟩

/-- The reply that a client waits for has the result that it expects. -/
theorem Predicting.expected (h : Predicting keys inners) (htracked : Tracked (inners.map Check.new) ps s history) {index : Nat}
    {client : ClientState (Check J)} (hclient : s.clients[index]? = some client) {op result : Payload}
    {attach : Attach (Check J)} (hstage : (ps index).stage = .executed op attach result) :
    client.closeLoop.workload.expectedResult = some result := by
  have hindex : index < inners.length := by
    have := (List.getElem?_eq_some_iff.mp hclient).1
    rwa [htracked.length, List.length_map] at this
  obtain ⟨inner, client', hinner, hclient', htracks⟩ := htracked.inner hindex
  rw [hclient] at hclient'
  cases hclient'
  obtain ⟨alone, hruns⟩ := h.keyed.alone htracked hindex
  rcases check_drives htracks.drives with ⟨op', expected, hcurrent, hgives, hexpected⟩ | ⟨hcurrent, _⟩
  · obtain ⟨store, hanswers⟩ := (h.predicts index inner hinner).answers _ _ hgives
    rw [hstage] at hcurrent
    cases hcurrent
    have hcalls : (ps index).calls = (ps index).past ++ [(op, result)] := by
      rw [Progress.calls, hstage]
    rw [hcalls] at hruns
    have hsame := KVStore.Runs.unique hruns hanswers (by simp)
    have hlast := List.append_cancel_left hsame
    rw [hexpected]
    simpa using hlast.symm
  · rw [hstage] at hcurrent
    cases hcurrent

theorem Predicting.stepsFit (h : Predicting keys inners) (hwrites : ∀ result, ∃ payload, SerdeJson.toVec result = some payload) :
    StepsFit (inners.map Check.new) := by
  intro run hreach event hevent
  obtain ⟨ps, htracked⟩ := tracked_reach hreach
  have hlength : (inners.map Check.new).length = inners.length := List.length_map ..
  refine htracked.step_fits (fun request hmem => ?_) (fun index client reply hclient hmem hseq attach hattach => ?_) hevent
  · obtain ⟨index, hindex, howner⟩ := htracked.owners _ hmem
    obtain ⟨inner, client, hinner, _, htracks⟩ := htracked.inner (hlength ▸ hindex)
    obtain ⟨op, hop, _⟩ := h.keyed.op hinner htracks.drives ((htracks.messages _ hmem howner).request_ops rfl)
    exact KVStore.accepts_of hwrites hop
  · obtain ⟨w₀, hw⟩ := htracked.workload hclient
    obtain ⟨op, hstage⟩ := (htracked.clients index w₀ client hw hclient).reply_executed hmem hseq hattach
    exact ⟨_, _, check_onResult_eq_ok.mpr ⟨h.expected htracked hclient hstage, rfl⟩, check_nextOp_eq rfl⟩

end

/-! ## Generators of puts and gets -/

/-- A generator and what its `rng` has still to give. -/
structure Drawing where
  generator : KVStore.InfinitePutGet
  draws : Nat → KVStore.Draw

section
variable [SerdeJson] [KVStore.OpJson]

/-- `Iterator for InfinitePutGet`. What stands for the panic of `unwrap` does not
occur when `serde_json` writes everything. -/
instance : Iterator Drawing (Payload × Payload) where
  next self :=
    match self.generator.next (self.draws 0) with
    | .ok (pair, generator) => (some pair, ⟨generator, fun n => self.draws (n + 1)⟩)
    | .error _ => (none, self)

def Drawing.new (nameSpace : String) (draws : Nat → KVStore.Draw) : Drawing := ⟨{ nameSpace := nameSpace }, draws⟩

variable (hjson : KVStore.JsonRoundTrips)
include hjson

end

section
local instance predictedOps : KVStore.OpJson := KVStore.OpJson.text

local instance predictedJson : SerdeJson := KVStore.textJson

end

end Unreplicated

end Neatworks
