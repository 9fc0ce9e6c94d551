import Neatworks.CheckFinite

/-!
# Searches of static workloads

`static_workload` of `kvstore.rs`: a list of operations with the results that are
expected of them. The search of clients with keys of their own tells whether the
expected results are those that a store gives: it finds the end of all clients if
they are, and a step that fails if they are not.
-/

namespace Neatworks

namespace KVStore

variable [SerdeJson] [OpJson]

/-- A round of `static_workload`, as `serde_json` writes it. -/
def writeRound (round : Op × Result) : Option (Payload × Payload) := do
  let op ← OpJson.toVec round.1
  let result ← SerdeJson.toVec round.2
  return (op, result)

def staticWorkload (rounds : List (Op × Result)) : Option (Check (List (Payload × Payload))) := do
  let inner ← rounds.mapM writeRound
  return { inner := inner }

omit [SerdeJson] [OpJson] in
/-- The results are those that the store gives. -/
def expects : KVStore → List (Op × Result) → Bool
  | _, [] => true
  | store, (op, result) :: rounds => (store.apply op).2 = result && (store.apply op).1.expects rounds

/-! ## Rounds and their texts -/

omit [SerdeJson] [OpJson] in
theorem forall₂_mapM {α β : Type} {f : α → Option β} {l : List α} {l' : List β} (h : l.mapM f = some l') :
    List.Forall₂ (fun a b => f a = some b) l l' := by
  induction l generalizing l' with
  | nil =>
    cases h
    exact .nil
  | cons a l ih =>
    rw [List.mapM_cons] at h
    obtain ⟨b, hb, h⟩ := Option.bind_eq_some_iff.mp h
    obtain ⟨bs, hbs, h⟩ := Option.bind_eq_some_iff.mp h
    cases h
    exact .cons hb (ih hbs)

theorem writeRound_eq_some {round : Op × Result} {call : Payload × Payload} :
    writeRound round = some call ↔ OpJson.toVec round.1 = some call.1 ∧ SerdeJson.toVec round.2 = some call.2 := by
  obtain ⟨op, result⟩ := call
  simp [writeRound, Option.bind_eq_some_iff]

theorem fromSlice_toVec (hjson : JsonRoundTrips) {op : Op} {payload : Payload} (h : OpJson.toVec op = some payload) :
    SerdeJson.fromSlice payload = some op := by
  obtain ⟨payload', hwritten, hread⟩ := hjson.op op
  rw [h] at hwritten
  cases hwritten
  exact hread

/-- A store of its own returns the expected texts exactly if it gives the results. -/
theorem runs_iff_expects (hjson : JsonRoundTrips) (hinj : Function.Injective SerdeJson.toVec) {rounds : List (Op × Result)}
    {calls : List (Payload × Payload)} (h : List.Forall₂ (fun round call => writeRound round = some call) rounds calls)
    (store : KVStore) : (∃ store', store.Runs calls store') ↔ store.expects rounds = true := by
  induction h generalizing store with
  | nil => exact ⟨fun _ => rfl, fun _ => ⟨store, rfl⟩⟩
  | @cons round call rounds calls hround _ ih =>
    obtain ⟨op, result⟩ := round
    obtain ⟨hop, hresult⟩ := writeRound_eq_some.mp hround
    have hread := fromSlice_toVec hjson hop
    rw [expects, Bool.and_eq_true, decide_eq_true_eq, ← ih]
    constructor
    · rintro ⟨store', next, hexecute, hruns⟩
      obtain ⟨op', hop', hwritten, rfl⟩ := execute_eq_some.mp hexecute
      rw [hread] at hop'
      cases hop'
      exact ⟨hinj (hwritten.trans hresult.symm), store', hruns⟩
    · rintro ⟨rfl, store', hruns⟩
      exact ⟨store', _, execute_eq_some.mpr ⟨op, hread, hresult, rfl⟩, hruns⟩

omit [OpJson] in
theorem Runs.of_append {store store' : KVStore} {calls rest : List (Payload × Payload)} (h : store.Runs (calls ++ rest) store') :
    ∃ next, store.Runs calls next := by
  induction calls generalizing store with
  | nil => exact ⟨store, rfl⟩
  | cons call calls ih =>
    obtain ⟨next, hexecute, hrest⟩ := h
    obtain ⟨next', hruns⟩ := ih hrest
    exact ⟨next', next, hexecute, hruns⟩

end KVStore

namespace Unreplicated

theorem gives_list {inner rest : List (Payload × Payload)} {calls : List (Payload × Payload)} (h : Gives inner calls rest) :
    inner = calls ++ rest := by
  induction h with
  | start => rfl
  | @next calls call rest rest' _ hnext ih =>
    cases rest with
    | nil => cases hnext
    | cons call' rest =>
      cases hnext
      rw [ih, List.append_assoc, List.singleton_append]

theorem exists_of_forall₂ {α β : Type} {R : α → β → Prop} {l : List α} {l' : List β} (h : List.Forall₂ R l l') {b : β}
    (hb : b ∈ l') : ∃ a ∈ l, R a b := by
  induction h with
  | nil => cases hb
  | cons hab _ ih =>
    rcases List.mem_cons.mp hb with rfl | hb
    · exact ⟨_, List.mem_cons_self, hab⟩
    · obtain ⟨a, ha, hR⟩ := ih hb
      exact ⟨a, List.mem_cons_of_mem _ ha, hR⟩

section
variable [SerdeJson] [KVStore.OpJson] {rounds : List (List (KVStore.Op × KVStore.Result))}
  {inners : List (List (Payload × Payload))}

/-- What the iterators of the clients have been collected from. -/
def Written (rounds : List (List (KVStore.Op × KVStore.Result))) (inners : List (List (Payload × Payload))) : Prop :=
  List.Forall₂ (List.Forall₂ fun round call => KVStore.writeRound round = some call) rounds inners

theorem exists_written {workloads : List (Check (List (Payload × Payload)))}
    (h : rounds.map KVStore.staticWorkload = workloads.map some) :
    ∃ inners, workloads = inners.map Check.new ∧ Written rounds inners := by
  induction rounds generalizing workloads with
  | nil => exact ⟨[], List.map_eq_nil_iff.mp h.symm, .nil⟩
  | cons rs rounds ih =>
    cases workloads with
    | nil => cases h
    | cons w workloads =>
      obtain ⟨hw, hrest⟩ := List.cons.inj h
      obtain ⟨inners, rfl, hwritten⟩ := ih hrest
      obtain ⟨inner, hinner, hw⟩ := Option.bind_eq_some_iff.mp hw
      cases hw
      exact ⟨inner :: inners, rfl, .cons (KVStore.forall₂_mapM hinner) hwritten⟩

theorem Written.get (h : Written rounds inners) {index : Nat} {inner : List (Payload × Payload)}
    (hinner : inners[index]? = some inner) :
    ∃ rs, rounds[index]? = some rs ∧ List.Forall₂ (fun round call => KVStore.writeRound round = some call) rs inner := by
  obtain ⟨hindex, rfl⟩ := List.getElem?_eq_some_iff.mp hinner
  have hround : index < rounds.length := List.Forall₂.length_eq h ▸ hindex
  exact ⟨rounds[index], List.getElem?_eq_getElem hround, List.Forall₂.get h hround hindex⟩

/-- The operations of different clients are on different keys. -/
def KeysApart (rounds : List (List (KVStore.Op × KVStore.Result))) : Prop :=
  rounds.Pairwise fun rs rs' => ∀ round ∈ rs, ∀ round' ∈ rs', round.1.key ≠ round'.1.key

def keysOf (rounds : List (List (KVStore.Op × KVStore.Result))) (index : Nat) : Set String :=
  {key | ∃ rs, rounds[index]? = some rs ∧ ∃ round ∈ rs, round.1.key = key}

theorem Written.keyed (h : Written rounds inners) (hjson : KVStore.JsonRoundTrips) (hapart : KeysApart rounds) :
    Keyed (keysOf rounds) inners := by
  refine ⟨fun index inner hinner calls rest hgives call hcall => ?_, fun i j hi hj hne key hkey hkey' => ?_⟩
  · obtain ⟨rs, hrs, hwritten⟩ := h.get hinner
    rw [gives_list hgives] at hwritten
    obtain ⟨round, hround, hwrite⟩ := exists_of_forall₂ hwritten (List.mem_append_left _ hcall)
    exact ⟨round.1, KVStore.fromSlice_toVec hjson (KVStore.writeRound_eq_some.mp hwrite).1, rs, hrs, round, hround, rfl⟩
  · obtain ⟨rs, hrs, round, hround, hk⟩ := hkey
    obtain ⟨rs', hrs', round', hround', hk'⟩ := hkey'
    obtain ⟨hi', rfl⟩ := List.getElem?_eq_some_iff.mp hrs
    obtain ⟨hj', rfl⟩ := List.getElem?_eq_some_iff.mp hrs'
    rw [← hk'] at hk
    rcases Nat.lt_or_gt_of_ne hne with hlt | hgt
    · exact List.pairwise_iff_getElem.mp hapart i j hi' hj' hlt round hround round' hround' hk
    · exact List.pairwise_iff_getElem.mp hapart j i hj' hi' hgt round' hround' round hround hk.symm

theorem Written.predicting (h : Written rounds inners) (hjson : KVStore.JsonRoundTrips)
    (hinj : Function.Injective SerdeJson.toVec) (hapart : KeysApart rounds)
    (hexpects : ∀ rs ∈ rounds, KVStore.new.expects rs = true) : Predicting (keysOf rounds) inners := by
  have hkeyed := h.keyed hjson hapart
  refine ⟨fun index inner hinner => ⟨fun calls rest hgives => ?_, hkeyed.ops index inner hinner⟩, hkeyed.apart⟩
  obtain ⟨rs, hrs, hwritten⟩ := h.get hinner
  obtain ⟨store, hruns⟩ := (KVStore.runs_iff_expects hjson hinj hwritten .new).mpr (hexpects rs (List.mem_of_getElem? hrs))
  rw [gives_list hgives] at hruns
  exact hruns.of_append

theorem Written.atMost (h : Written rounds inners) {n : Nat} (hlength : ∀ rs ∈ rounds, rs.length ≤ n) :
    ∀ w ∈ inners.map Check.new, AtMost n w := by
  intro w hw past current w' hdrives
  obtain ⟨inner, hinner, rfl⟩ := List.mem_map.mp hw
  obtain ⟨index, hinner⟩ := List.getElem?_of_mem hinner
  obtain ⟨rs, hrs, hwritten⟩ := h.get hinner
  have hle := hlength rs (List.mem_of_getElem? hrs)
  rw [hwritten.length_eq] at hle
  rcases check_drives hdrives with ⟨op, expected, _, hgives, _⟩ | ⟨_, rest, hgives, _⟩
  · rw [gives_list hgives, List.length_append, List.length_append] at hle
    omega
  · rw [gives_list hgives, List.length_append] at hle
    omega

/-- Clients are done only with the results that a store gives. -/
theorem Tracked.expects_of_done (hwritten : Written rounds inners) (hjson : KVStore.JsonRoundTrips)
    (hinj : Function.Injective SerdeJson.toVec) (hapart : KeysApart rounds)
    {ps : Nat → Progress (Attach (Check (List (Payload × Payload))))} {s : State (Check (List (Payload × Payload)))}
    {history : List Observed} (h : Tracked (inners.map Check.new) ps s history) (hdone : s.allDone = true) :
    ∀ rs ∈ rounds, KVStore.new.expects rs = true := by
  intro rs hrs
  obtain ⟨index, hrs⟩ := List.getElem?_of_mem hrs
  have hindex : index < inners.length := List.Forall₂.length_eq hwritten ▸ (List.getElem?_eq_some_iff.mp hrs).1
  obtain ⟨inner, client, hinner, hclient, htracks⟩ := h.inner hindex
  obtain ⟨rs', hrs', hwrites⟩ := hwritten.get hinner
  rw [hrs] at hrs'
  cases hrs'
  have hfinished : (ps index).stage.current = none := by
    have hclosed := List.all_eq_true.mp hdone client (List.mem_of_getElem? hclient)
    rw [htracks.client] at hclosed
    exact Option.isNone_iff_eq_none.mp hclosed
  obtain ⟨alone, hruns⟩ := (hwritten.keyed hjson hapart).alone h hindex
  rcases check_drives htracks.drives with ⟨op, expected, hcurrent, _⟩ | ⟨_, rest, hgives, hnone⟩
  · rw [hfinished] at hcurrent
    cases hcurrent
  · have hpast : inner = (ps index).past := by
      cases rest with
      | nil => rw [gives_list hgives, List.append_nil]
      | cons call rest => cases hnone
    have hcalls : (ps index).calls = (ps index).past := by
      rcases hp : ps index with ⟨past, stage⟩
      rw [hp] at hfinished
      cases stage with
      | finished => exact List.append_nil past
      | _ => cases hfinished
    rw [hcalls, ← hpast] at hruns
    exact (KVStore.runs_iff_expects hjson hinj hwrites .new).mp ⟨alone, hruns⟩

/-- The search of static workloads on keys of their own: if the expected results
are those that a store gives it finds the end of all clients, otherwise a step
that fails. One worker always ends. -/
theorem static_search_decides (hjson : KVStore.JsonRoundTrips) (hinj : Function.Injective SerdeJson.toVec)
    (hapart : KeysApart rounds) {workloads : List (Check (List (Payload × Payload)))}
    (hworkloads : rounds.map KVStore.staticWorkload = workloads.map some) {n : Nat} (hlength : ∀ rs ∈ rounds, rs.length ≤ n)
    (hn : n + 1 < 2 ^ 32) (hne : rounds ≠ []) {run₀ : Run (Check (List (Payload × Payload)))}
    (hinit : (checkMachine workloads).init run₀) :
    ((∀ rs ∈ rounds, KVStore.new.expects rs = true) →
      Search.Finds State.dry (endSettings fun _ => .ok ()) run₀.state
          (fun r => ∃ s, r = .goalFound s ∧ Search.Reachable run₀.state s ∧ s.allDone = true) ∧
        Search.Finds State.dry (prunedSettings fun _ => .ok ()) run₀.state (· = .spaceExhausted)) ∧
      ((¬ ∀ rs ∈ rounds, KVStore.new.expects rs = true) →
        Search.Finds State.dry (endSettings fun _ => .ok ()) run₀.state (fun r => ∃ s event err, r = .error s event err) ∧
          Search.Finds State.dry (prunedSettings fun _ => .ok ()) run₀.state fun r => ∃ s event err, r = .error s event err) := by
  obtain ⟨inners, rfl, hwritten⟩ := exists_written hworkloads
  have hfinite := hwritten.atMost hlength
  have hnonempty : inners.map (Check.new (J := List (Payload × Payload))) ≠ [] := by
    intro hnil
    have := List.Forall₂.length_eq hwritten
    rw [List.map_eq_nil_iff.mp hnil] at this
    exact hne (List.length_eq_zero_iff.mp this)
  refine ⟨fun hexpects => ?_, fun hwrong => ?_⟩
  · exact ((hwritten.predicting hjson hinj hapart hexpects).stepsFit hjson.result).finds check_recoverable hfinite hn hnonempty
      hinit fun _ _ => rfl
  · have hranked := ranked check_recoverable hfinite hinit
    have hnot : ∀ s, Search.Reachable run₀.state s → s.allDone = false := by
      intro s hs
      obtain ⟨history, hreach⟩ := reachable_reach hinit hs
      obtain ⟨ps, htracked⟩ := tracked_reach hreach
      exact Bool.eq_false_iff.mpr fun hdone => hwrong (htracked.expects_of_done hwritten hjson hinj hapart hdone)
    have hfails : ∃ s, Search.Reachable run₀.state s ∧ ∃ event ∈ Search.State.events s, ∃ err,
        Search.State.step s event = .error err := by
      by_contra hnone
      obtain ⟨s, hs, hdone⟩ := exists_done check_recoverable hfinite hinit fun s hs event hevent => by
        cases hstep : Search.State.step s event with
        | ok s' => exact ⟨s', rfl⟩
        | error err => exact absurd ⟨s, hs, event, hevent, err, hstep⟩ hnone
      rw [hnot s hs] at hdone
      exact Bool.false_ne_true hdone
    exact ⟨Search.finds_error (lawful hinit check_recoverable _) hranked (fun _ _ => rfl) hnot (fun _ _ => rfl) rfl hfails,
      Search.finds_error (lawful hinit check_recoverable _) hranked (fun _ _ => rfl) (fun _ _ => rfl) hnot rfl hfails⟩

end

/-! ## Two clients on different keys -/

section
local instance staticOps : KVStore.OpJson := KVStore.OpJson.text

local instance staticJson : SerdeJson := KVStore.textJson

local instance staticResults : ResultJson := textResults

theorem textJson_injective : Function.Injective (SerdeJson.toVec : KVStore.Result → Option Payload) := by
  intro result result' heq
  obtain ⟨payload, hwritten, hread⟩ := text_readsResults result
  obtain ⟨payload', hwritten', hread'⟩ := text_readsResults result'
  rw [hwritten, hwritten', Option.some.injEq] at heq
  rw [heq, hread'] at hread
  exact (Option.some.inj hread).symm

/-- `Op::Append(format!("KEY-{i}"), x.to_string())`. -/
def keyRounds (key : String) : List (KVStore.Op × KVStore.Result) :=
  [(.append key "0", .appendResult "0"), (.append key "1", .appendResult "01"), (.append key "2", .appendResult "012")]

set_option maxRecDepth 4000 in
theorem static_search_decides_two : ∃ (workloads : List (Check (List (Payload × Payload)))) (run₀ : Run _),
    [keyRounds "KEY-0", keyRounds "KEY-1"].map KVStore.staticWorkload = workloads.map some ∧
    (checkMachine workloads).init run₀ ∧
    Search.Finds State.dry (endSettings fun _ => .ok ()) run₀.state
      (fun r => ∃ s, r = .goalFound s ∧ Search.Reachable run₀.state s ∧ s.allDone = true) := by
  obtain ⟨workloads, hworkloads, run₀, hinit⟩ : ∃ workloads : List (Check (List (Payload × Payload))),
      [keyRounds "KEY-0", keyRounds "KEY-1"].map KVStore.staticWorkload = workloads.map some ∧
        ∃ run₀, (checkMachine workloads).init run₀ := ⟨[_, _], rfl, ⟨_, _⟩, _, rfl, rfl⟩
  refine ⟨workloads, run₀, hworkloads, hinit, ?_⟩
  exact ((static_search_decides (n := 3) KVStore.text_roundTrips textJson_injective (by unfold KeysApart; decide) hworkloads
    (by decide) (by decide) (by decide) hinit).1 (by decide)).1

end

end Unreplicated

end Neatworks
