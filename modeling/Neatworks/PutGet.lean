import Mathlib.Data.List.Nodup
import Neatworks.App
import Neatworks.Bytes
import Neatworks.Event
import Neatworks.Runs

/-!
# Generators of puts and gets

`InfinitePutGet` of `app/kvstore.rs` pairs each operation with the result that it
expects, by a copy of the five values of its namespace. Any number of generators
may share one store: their keys are distinct when their namespaces are, so the
copy of each stays right whatever the others do.
-/

namespace Neatworks.KVStore

/-- `serde_json::to_vec` of an operation. -/
class OpJson where
  toVec : Op → Option Payload

/-- What `rng` gives in a call of `next`. -/
structure Draw where
  index : Fin 5
  chars : Vector Char 8

def Draw.value (draw : Draw) : String := String.ofList draw.chars.toList

/-- `format!("{}-{index}", self.namespace)`. -/
def key (nameSpace : String) (index : Fin 5) : String := nameSpace ++ "-" ++ toString index.val

structure InfinitePutGet where
  nameSpace : String
  values : Vector String 5 := .replicate 5 ""
  shouldGet : Bool := false

namespace InfinitePutGet

/-- The result of a get by the copy of the values. -/
def expected (value : String) : Result := if value = "" then .ketyNotFound else .getResult value

def choose (self : InfinitePutGet) (draw : Draw) : Op × Result :=
  if self.shouldGet then (.get (key self.nameSpace draw.index), expected (self.values[draw.index]))
  else (.put (key self.nameSpace draw.index) draw.value, .putOk)

def advance (self : InfinitePutGet) (draw : Draw) : InfinitePutGet where
  nameSpace := self.nameSpace
  values := if self.shouldGet then self.values else self.values.set draw.index draw.value
  shouldGet := !self.shouldGet

variable [SerdeJson] [OpJson]

def next (self : InfinitePutGet) (draw : Draw) : Except Panic ((Payload × Payload) × InfinitePutGet) :=
  match OpJson.toVec (self.choose draw).1, SerdeJson.toVec (self.choose draw).2 with
  | some op, some result => .ok ((op, result), self.advance draw)
  | _, _ => .error .unwrap

end InfinitePutGet

/-! ## Interleavings -/

/-- A generator, and the pairs that it has given and of which the operation is
still to be executed. -/
structure PutGetClient where
  generator : InfinitePutGet
  queue : List (Payload × Payload) := []

def PutGetClient.nameSpace (client : PutGetClient) : String := client.generator.nameSpace

/-- `history` has for each execution the expected result and what the store has
returned. -/
structure PutGetRun where
  store : KVStore
  clients : List PutGetClient
  history : List (Payload × Option Payload) := []

inductive PutGetLabel
  | next (client : Nat) (draw : Draw)
  | execute (client : Nat)

section
variable [SerdeJson]

/-- The store after an operation, and its result unless it fails. -/
def call (store : KVStore) (op : Payload) : KVStore × Option Payload :=
  match App.execute store op with
  | some (store, result) => (store, some result)
  | none => (store, none)

def PutGetRun.execute (run : PutGetRun) (i : Nat) (client : PutGetClient) : Option PutGetRun :=
  match client.queue with
  | [] => none
  | (op, expected) :: queue =>
    some {
      store := (run.store.call op).1
      clients := run.clients.set i { client with queue := queue }
      history := run.history ++ [(expected, (run.store.call op).2)] }

def PutGetRun.generate [OpJson] (run : PutGetRun) (i : Nat) (client : PutGetClient) (draw : Draw) : Option PutGetRun :=
  match client.generator.next draw with
  | .ok (pair, generator) =>
    some { run with clients := run.clients.set i { generator := generator, queue := client.queue ++ [pair] } }
  | .error _ => none

variable [OpJson]

def PutGetRun.step (run : PutGetRun) : PutGetLabel → Option PutGetRun
  | .next i draw => run.clients[i]?.bind fun client => run.generate i client draw
  | .execute i => run.clients[i]?.bind fun client => run.execute i client

def putGetMachine (nameSpaces : List String) : Machine PutGetRun PutGetLabel where
  init run := run = { store := .new, clients := nameSpaces.map fun nameSpace => { generator := { nameSpace := nameSpace } } }
  next run label run' := run.step label = some run'

/-! ## Keys -/

omit [SerdeJson] [OpJson] in
/-- The last character of a key is the index, whatever the namespace ends in. -/
theorem key_inj {nameSpace nameSpace' : String} {index index' : Fin 5} (h : key nameSpace index = key nameSpace' index') :
    nameSpace = nameSpace' ∧ index = index' := by
  have hdigit : ∀ i j : Fin 5, (toString i.val).toList.length = (toString j.val).toList.length := by decide
  have hindex : ∀ i j : Fin 5, (toString i.val).toList = (toString j.val).toList → i = j := by decide
  have hlist := congrArg String.toList h
  simp only [key, String.toList_append] at hlist
  obtain ⟨hspace, hlast⟩ := List.append_inj' hlist (hdigit index index')
  obtain ⟨hname, -⟩ := List.append_inj' hspace rfl
  exact ⟨String.toList_inj.mp hname, hindex _ _ hlast⟩

/-! ## One operation -/

/-- The store has these values in a namespace; no key has an empty one. -/
def Holds (store : KVStore) (nameSpace : String) (values : Vector String 5) : Prop :=
  ∀ index, store.map (key nameSpace index) = if values[index] = "" then none else some (values[index])

/-- An operation on a namespace that has `values`, its result, and the values after it. -/
inductive Serves (nameSpace : String) (values : Vector String 5) : Op → Result → Vector String 5 → Prop
  | put (index : Fin 5) {value : String} (hne : value ≠ "") :
      Serves nameSpace values (.put (key nameSpace index) value) .putOk (values.set index value)
  | get (index : Fin 5) :
      Serves nameSpace values (.get (key nameSpace index)) (InfinitePutGet.expected (values[index])) values

section
omit [SerdeJson] [OpJson]
variable {store : KVStore} {nameSpace nameSpace' : String} {values values' other : Vector String 5} {op : Op} {result : Result}

theorem Holds.new (nameSpace : String) : Holds .new nameSpace (.replicate 5 "") := by
  intro index
  simp [KVStore.new]

theorem Holds.insert (h : Holds store nameSpace values) (index : Fin 5) {value : String} (hne : value ≠ "") :
    Holds (store.insert (key nameSpace index) value) nameSpace (values.set index value) := by
  intro index'
  by_cases heq : index' = index
  · subst heq
    simp [KVStore.insert, hne]
  · have hkey : key nameSpace index' ≠ key nameSpace index := fun h => heq (key_inj h).2
    have hval : index.val ≠ index'.val := fun h => heq (Fin.ext h.symm)
    have hget : (values.set index value)[index'] = values[index'] := Vector.getElem_set_ne _ _ hval
    rw [hget, ← h index']
    exact Function.update_of_ne hkey _ _

theorem Holds.insert_of_ne (h : Holds store nameSpace' other) (hne : nameSpace' ≠ nameSpace) (index : Fin 5) (value : String) :
    Holds (store.insert (key nameSpace index) value) nameSpace' other := by
  intro index'
  rw [← h index']
  exact Function.update_of_ne (fun heq => hne (key_inj heq).1) _ _

theorem Serves.apply (h : Serves nameSpace values op result values') (hholds : Holds store nameSpace values) :
    (store.apply op).2 = result ∧ Holds (store.apply op).1 nameSpace values' := by
  cases h with
  | put index hne => exact ⟨rfl, hholds.insert index hne⟩
  | get index =>
    have hget := hholds index
    unfold InfinitePutGet.expected
    by_cases hempty : values[index] = ""
    · rw [if_pos hempty] at hget ⊢
      simp only [KVStore.apply, hget]
      exact ⟨trivial, hholds⟩
    · rw [if_neg hempty] at hget ⊢
      simp only [KVStore.apply, hget]
      exact ⟨trivial, hholds⟩

theorem Serves.frame (h : Serves nameSpace values op result values') (hne : nameSpace' ≠ nameSpace)
    (hholds : Holds store nameSpace' other) : Holds (store.apply op).1 nameSpace' other := by
  cases h with
  | put index _ => exact hholds.insert_of_ne hne index _
  | get index =>
    simp only [KVStore.apply]
    cases store.map (key nameSpace index) <;> exact hholds

theorem InfinitePutGet.choose_serves (self : InfinitePutGet) (draw : Draw) :
    Serves self.nameSpace self.values (self.choose draw).1 (self.choose draw).2 (self.advance draw).values := by
  have hvalue : draw.value ≠ "" := fun hempty => by
    have hlength := congrArg String.length hempty
    simp [Draw.value] at hlength
  unfold choose advance
  by_cases hget : self.shouldGet = true
  · rw [if_pos hget, if_pos hget]
    exact .get draw.index
  · rw [if_neg hget, if_neg hget]
    exact .put draw.index hvalue

end

/-! ## Queues -/

/-- A store that has `values` in the namespace returns what the pairs of the
queue expect, and then has `values'`. -/
inductive Predicts (nameSpace : String) : Vector String 5 → List (Payload × Payload) → Vector String 5 → Prop
  | nil {values : Vector String 5} : Predicts nameSpace values [] values
  | cons {values values' values'' : Vector String 5} {op : Op} {result : Result} {payload expected : Payload}
      {queue : List (Payload × Payload)} (hserves : Serves nameSpace values op result values')
      (hop : OpJson.toVec op = some payload) (hresult : SerdeJson.toVec result = some expected)
      (h : Predicts nameSpace values' queue values'') : Predicts nameSpace values ((payload, expected) :: queue) values''

theorem Predicts.append {nameSpace : String} {values values' values'' : Vector String 5} {queue queue' : List (Payload × Payload)}
    (h : Predicts nameSpace values queue values') (h' : Predicts nameSpace values' queue' values'') :
    Predicts nameSpace values (queue ++ queue') values'' := by
  induction h with
  | nil => exact h'
  | cons hserves hop hresult _ ih => exact .cons hserves hop hresult (ih h')

/-- `serde_json` reads an operation that it has written, and writes every result. -/
structure JsonRoundTrips : Prop where
  op : ∀ op, ∃ payload, OpJson.toVec op = some payload ∧ SerdeJson.fromSlice payload = some op
  result : ∀ result, ∃ payload, SerdeJson.toVec result = some payload

theorem InfinitePutGet.next_eq (hjson : JsonRoundTrips) (self : InfinitePutGet) (draw : Draw) :
    ∃ payload expected, self.next draw = .ok ((payload, expected), self.advance draw) ∧
      OpJson.toVec (self.choose draw).1 = some payload ∧ SerdeJson.toVec (self.choose draw).2 = some expected := by
  obtain ⟨payload, hop, -⟩ := hjson.op (self.choose draw).1
  obtain ⟨expected, hresult⟩ := hjson.result (self.choose draw).2
  refine ⟨payload, expected, ?_, hop, hresult⟩
  simp only [next, hop, hresult]

theorem call_eq (hjson : JsonRoundTrips) (store : KVStore) {op : Op} {payload expected : Payload}
    (hop : OpJson.toVec op = some payload) (hresult : SerdeJson.toVec (store.apply op).2 = some expected) :
    store.call payload = ((store.apply op).1, some expected) := by
  obtain ⟨payload', hop', hread⟩ := hjson.op op
  cases hop.symm.trans hop'
  have hexecute : App.execute store payload = some ((store.apply op).1, expected) := by
    simp only [App.execute, hread, Option.bind_eq_bind, Option.bind_some, hresult]
    rfl
  rw [call, hexecute]

/-! ## Runs -/

/-- Each copy of the values is right once the queue of its generator is executed. -/
structure Simulates (nameSpaces : List String) (run : PutGetRun) : Prop where
  nameSpaces : run.clients.map PutGetClient.nameSpace = nameSpaces
  clients : ∀ (i : Nat) (client : PutGetClient), run.clients[i]? = some client →
    ∃ values, run.store.Holds client.nameSpace values ∧ Predicts client.nameSpace values client.queue client.generator.values
  history : ∀ e ∈ run.history, e.2 = some e.1

variable {nameSpaces : List String} {run run' : PutGetRun}

omit [SerdeJson] [OpJson] in
theorem map_set_nameSpace {clients : List PutGetClient} {i : Nat} {client client' : PutGetClient} (h : clients[i]? = some client)
    (hname : client'.nameSpace = client.nameSpace) :
    (clients.set i client').map PutGetClient.nameSpace = clients.map PutGetClient.nameSpace := by
  obtain ⟨hi, rfl⟩ := List.getElem?_eq_some_iff.mp h
  have hi' : i < (clients.map PutGetClient.nameSpace).length := by rwa [List.length_map]
  rw [List.map_set, hname, ← List.getElem_map PutGetClient.nameSpace (h := hi')]
  exact List.set_getElem_self hi'

omit [SerdeJson] [OpJson] in
theorem nameSpace_ne {clients : List PutGetClient} (hdistinct : (clients.map PutGetClient.nameSpace).Nodup) {i j : Nat}
    {client client' : PutGetClient} (h : clients[i]? = some client) (h' : clients[j]? = some client') (hne : j ≠ i) :
    client'.nameSpace ≠ client.nameSpace := by
  intro heq
  have hi : i < (clients.map PutGetClient.nameSpace).length := by
    rw [List.length_map]
    exact (List.getElem?_eq_some_iff.mp h).1
  refine hne.symm ((List.getElem?_inj hi hdistinct).mp ?_)
  rw [List.getElem?_map, List.getElem?_map, h, h', Option.map_some, Option.map_some, heq]

theorem Simulates.generate (hjson : JsonRoundTrips) (h : Simulates nameSpaces run) {i : Nat} {client : PutGetClient} {draw : Draw}
    (hclient : run.clients[i]? = some client) (hgenerate : run.generate i client draw = some run') : Simulates nameSpaces run' := by
  obtain ⟨payload, expected, hnext, hop, hresult⟩ := client.generator.next_eq hjson draw
  rw [PutGetRun.generate, hnext] at hgenerate
  cases hgenerate
  refine ⟨?_, fun j other hother => ?_, h.history⟩
  · rw [← h.nameSpaces]
    exact map_set_nameSpace hclient rfl
  · rcases getElem?_set_cases hother with ⟨rfl, rfl⟩ | ⟨_, hother⟩
    · obtain ⟨values, hholds, hpredicts⟩ := h.clients j client hclient
      exact ⟨values, hholds, hpredicts.append (.cons (client.generator.choose_serves draw) hop hresult .nil)⟩
    · exact h.clients j other hother

theorem Simulates.execute (hjson : JsonRoundTrips) (hdistinct : nameSpaces.Nodup) (h : Simulates nameSpaces run) {i : Nat}
    {client : PutGetClient} (hclient : run.clients[i]? = some client) (hexecute : run.execute i client = some run') :
    Simulates nameSpaces run' := by
  obtain ⟨values, hholds, hpredicts⟩ := h.clients i client hclient
  unfold PutGetRun.execute at hexecute
  cases hqueue : client.queue with
  | nil =>
    rw [hqueue] at hexecute
    cases hexecute
  | cons pair queue =>
    rw [hqueue] at hexecute hpredicts
    cases hpredicts with
    | @cons _ values' _ op result payload expected _ hserves hop hresult hrest =>
      obtain ⟨hreturns, hholds'⟩ := hserves.apply hholds
      have hcall := call_eq hjson run.store hop (hreturns ▸ hresult)
      dsimp only at hexecute
      rw [hcall] at hexecute
      cases hexecute
      refine ⟨?_, fun j other hother => ?_, fun e he => ?_⟩
      · rw [← h.nameSpaces]
        exact map_set_nameSpace hclient rfl
      · rcases getElem?_set_cases hother with ⟨rfl, rfl⟩ | ⟨hne, hother⟩
        · exact ⟨values', hholds', hrest⟩
        · obtain ⟨values'', hholds'', hrest'⟩ := h.clients j other hother
          have hname : other.nameSpace ≠ client.nameSpace :=
            nameSpace_ne (h.nameSpaces.symm ▸ hdistinct) hclient hother hne
          exact ⟨values'', hserves.frame hname hholds'', hrest'⟩
      · rcases List.mem_append.mp he with he | he
        · exact h.history e he
        · rw [List.mem_singleton.mp he]

theorem Simulates.step (hjson : JsonRoundTrips) (hdistinct : nameSpaces.Nodup) (h : Simulates nameSpaces run)
    {label : PutGetLabel} (hstep : run.step label = some run') : Simulates nameSpaces run' := by
  cases label with
  | next i draw =>
    obtain ⟨client, hclient, hgenerate⟩ := Option.bind_eq_some_iff.mp hstep
    exact h.generate hjson hclient hgenerate
  | execute i =>
    obtain ⟨client, hclient, hexecute⟩ := Option.bind_eq_some_iff.mp hstep
    exact h.execute hjson hdistinct hclient hexecute

theorem reach_simulates (hjson : JsonRoundTrips) (hdistinct : nameSpaces.Nodup)
    (h : (putGetMachine nameSpaces).Reach Machine.always run) : Simulates nameSpaces run := by
  refine h.invariant ?_ fun _ _ _ _ hsimulates _ hstep => hsimulates.step hjson hdistinct hstep
  rintro _ rfl
  refine ⟨?_, fun i client hclient => ?_, fun e he => absurd he List.not_mem_nil⟩
  · rw [List.map_map]
    exact List.map_id _
  · rw [List.getElem?_map] at hclient
    obtain ⟨nameSpace, _, rfl⟩ := Option.map_eq_some_iff.mp hclient
    exact ⟨_, .new nameSpace, .nil⟩

/-- However the operations of the generators are interleaved, the store returns
what they expect. -/
theorem putGet_predicted (hjson : JsonRoundTrips) (hdistinct : nameSpaces.Nodup)
    (h : (putGetMachine nameSpaces).Reach Machine.always run) :
    (∀ e ∈ run.history, e.2 = some e.1) ∧
      ∀ client ∈ run.clients, ∀ draw, ∃ pair generator, client.generator.next draw = .ok (pair, generator) := by
  refine ⟨(reach_simulates hjson hdistinct h).history, fun client _ draw => ?_⟩
  obtain ⟨payload, expected, hnext, -⟩ := client.generator.next_eq hjson draw
  exact ⟨_, _, hnext⟩

end

/-! ## The text of an operation -/

/-- A quote and a backslash are escaped, and a quote ends the string. -/
def jsonString (s : String) : Payload :=
  (s.toUTF8.toList.flatMap fun byte => if byte = 34 ∨ byte = 92 then [92, byte] else [byte]) ++ [34]

/-- Whether the byte before is a backslash, and the bytes up to the quote. -/
def readEscaped : Bool → Payload → Option (Payload × Payload)
  | _, [] => none
  | true, byte :: bytes => (readEscaped false bytes).map fun r => (byte :: r.1, r.2)
  | false, byte :: bytes =>
    if byte = 34 then some ([], bytes)
    else if byte = 92 then readEscaped true bytes
    else (readEscaped false bytes).map fun r => (byte :: r.1, r.2)

def readJson (bytes : Payload) : Option (String × Payload) := do
  let (s, bytes) ← readEscaped false bytes
  let s ← String.fromUTF8? ⟨s.toArray⟩
  return (s, bytes)

theorem readEscaped_append (bytes rest : Payload) :
    readEscaped false ((bytes.flatMap fun byte => if byte = 34 ∨ byte = 92 then [92, byte] else [byte]) ++ 34 :: rest) =
      some (bytes, rest) := by
  induction bytes with
  | nil => simp [readEscaped]
  | cons byte bytes ih =>
    rw [List.flatMap_cons, List.append_assoc]
    by_cases hescape : byte = 34 ∨ byte = 92
    · rw [if_pos hescape]
      simp [readEscaped, ih]
    · rw [if_neg hescape]
      rw [not_or] at hescape
      simp [readEscaped, hescape.1, hescape.2, ih]

theorem readJson_append (s : String) (rest : Payload) : readJson (jsonString s ++ rest) = some (s, rest) := by
  unfold readJson jsonString
  rw [List.append_assoc, List.singleton_append, readEscaped_append]
  simp only [Option.bind_eq_bind, Option.bind_some, fromUTF8?_toUTF8]
  rfl

def jsonPair (a b : String) : Payload := jsonString a ++ ([44, 34] ++ (jsonString b ++ [93, 125]))

def readPair (bytes : Payload) : Option (String × String) := do
  let (a, bytes) ← readJson bytes
  match bytes with
  | 44 :: 34 :: bytes => do
    let (b, bytes) ← readJson bytes
    if bytes = [93, 125] then some (a, b) else none
  | _ => none

theorem readPair_append (a b : String) : readPair (jsonPair a b) = some (a, b) := by
  unfold readPair jsonPair
  rw [readJson_append]
  simp [readJson_append]

/-- The texts of the operations, and of the results of puts and gets. -/
@[reducible] def OpJson.text : OpJson where
  toVec
    | .put key value => some (123 :: 34 :: 80 :: 117 :: 116 :: 34 :: 58 :: 91 :: 34 :: jsonPair key value)
    | .get key => some (123 :: 34 :: 71 :: 101 :: 116 :: 34 :: 58 :: 34 :: (jsonString key ++ [125]))
    | .append key suffix =>
      some (123 :: 34 :: 65 :: 112 :: 112 :: 101 :: 110 :: 100 :: 34 :: 58 :: 91 :: 34 :: jsonPair key suffix)

@[reducible] def textJson : SerdeJson where
  fromSlice
    | 123 :: 34 :: 80 :: 117 :: 116 :: 34 :: 58 :: 91 :: 34 :: bytes => (readPair bytes).map fun r => .put r.1 r.2
    | 123 :: 34 :: 71 :: 101 :: 116 :: 34 :: 58 :: 34 :: bytes => do
      let (key, bytes) ← readJson bytes
      if bytes = [125] then some (.get key) else none
    | 123 :: 34 :: 65 :: 112 :: 112 :: 101 :: 110 :: 100 :: 34 :: 58 :: 91 :: 34 :: bytes =>
      (readPair bytes).map fun r => .append r.1 r.2
    | _ => none
  toVec
    | .putOk => some [34, 80, 117, 116, 79, 107, 34]
    | .ketyNotFound => some notFound
    | .getResult value =>
      some (123 :: 34 :: 71 :: 101 :: 116 :: 82 :: 101 :: 115 :: 117 :: 108 :: 116 :: 34 :: 58 :: 34 :: (jsonString value ++ [125]))
    | .appendResult value =>
      some (123 :: 34 :: 65 :: 112 :: 112 :: 101 :: 110 :: 100 :: 82 :: 101 :: 115 :: 117 :: 108 :: 116 :: 34 :: 58 :: 34 ::
        (jsonString value ++ [125]))

section
local instance putGetOps : OpJson := OpJson.text

local instance putGetJson : SerdeJson := textJson

theorem text_roundTrips : JsonRoundTrips where
  op op := by
    cases op with
    | put key value => exact ⟨_, rfl, by simp only [SerdeJson.fromSlice, readPair_append, Option.map_some]⟩
    | get key =>
      refine ⟨_, rfl, ?_⟩
      simp only [SerdeJson.fromSlice, readJson_append, Option.bind_eq_bind, Option.bind_some, if_true]
    | append key suffix => exact ⟨_, rfl, by simp only [SerdeJson.fromSlice, readPair_append, Option.map_some]⟩
  result result := by
    cases result <;> exact ⟨_, rfl⟩

def drawOf (index : Fin 5) (c : Char) : Draw := ⟨index, .replicate 8 c⟩

def putGetLabels : List PutGetLabel :=
  [.next 0 (drawOf 0 'x'), .next 1 (drawOf 0 'y'), .next 0 (drawOf 0 'x'), .execute 1, .next 1 (drawOf 1 'y'), .execute 0,
    .execute 0, .execute 1]

/-- Of the two namespaces one begins the other. -/
theorem putGet_predicted_two : ∃ run, (putGetMachine ["a", "a-"]).Reach Machine.always run ∧ run.history.length = 4 ∧
    ∀ e ∈ run.history, e.2 = some e.1 := by
  have hdistinct : ["a", "a-"].Nodup := by decide
  have hrun : (putGetLabels.foldlM PutGetRun.step
      { store := .new, clients := ["a", "a-"].map fun nameSpace => { generator := { nameSpace := nameSpace } } }).any
      (fun run => run.history.length = 4) = true := by decide +kernel
  obtain ⟨run, hreach, hlength⟩ := Machine.exists_of_foldlM (M := putGetMachine ["a", "a-"]) (C := Machine.always)
    (fun _ _ _ hstep => ⟨trivial, hstep⟩) rfl hrun
  exact ⟨run, hreach, hlength, (putGet_predicted text_roundTrips hdistinct hreach).1⟩

end

end Neatworks.KVStore
