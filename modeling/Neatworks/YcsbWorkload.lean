import Mathlib.Data.Finset.Card
import Neatworks.Preamble
import Neatworks.Ycsb

/-!
# The YCSB workload

`Workload` and `InsertState` of `app/ycsb.rs`. What the samplers and the
generator of random numbers give in a call are inputs, as is the clock. A call
panics, does not come out of the loop of `key_num`, or returns with an error or a
value. A `usize` has 64 bits.
-/

namespace Neatworks.Ycsb

/-- `bincode::options()` on the side of a client. -/
class ClientBincode where
  serialize : Op → Option Payload
  deserialize : Payload → Option Result

/-- `hash_one` of `BuildHasherDefault<FxHasher>` of a `usize`. -/
class KeyHasher where
  hashOne : Nat → UInt64

/-- The hash of one number of `rustc_hash`. -/
@[reducible] def KeyHasher.fx : KeyHasher := ⟨fun n => UInt64.ofNat n * 0x517cc1b727220a95⟩

/-- The encoding of the operations, and of the results without a record. -/
@[reducible] def ClientBincode.ops : ClientBincode where
  serialize
    | .read key => some (0 :: string key)
    | .scan key count => some (1 :: (string key ++ serializeVarint count))
    | .update key field value => some (2 :: (string key ++ (serializeVarint field ++ string value)))
    | .insert key values => some (3 :: (string key ++ (serializeVarint values.length ++ values.flatMap string)))
    | .delete key => some (4 :: string key)
  deserialize
    | [1] => some .notFound
    | [3] => some .ok
    | _ => none
where
  string (s : String) : Payload := serializeVarint s.utf8ByteSize ++ s.toUTF8.toList

def Op.key : Op → String
  | .read key | .scan key _ | .update key _ _ | .insert key _ | .delete key => key

def Op.IsInsert : Op → Prop
  | .insert _ _ => True
  | .read _ | .scan _ _ | .update _ _ _ | .delete _ => False

/-- A call that does not return. -/
inductive Stuck
  | panic (panic : Panic)
  /-- No draw so far ends the loop of `key_num`. -/
  | loop
  deriving DecidableEq, Repr

abbrev Call (α : Type) := Outcome Empty Stuck α

/-! ## `InsertState` -/

structure InsertState where
  nextNum : Nat
  nextInsertedNum : Nat
  insertedNums : Finset Nat := ∅

namespace InsertState

/-- `fetch_add` wraps around. -/
def takeNum (self : InsertState) : Nat × InsertState := (self.nextNum, { self with nextNum := (self.nextNum + 1) % 2 ^ 64 })

/-- The loop of `ack`. -/
def advance (self : InsertState) : Call InsertState :=
  if self.nextInsertedNum + 1 < 2 ^ 64 then
    let next := self.nextInsertedNum + 1
    if next ∈ self.insertedNums then
      advance { self with nextInsertedNum := next, insertedNums := self.insertedNums.erase next }
    else return { self with nextInsertedNum := next }
  else Outcome.throw (.panic .overflow)
termination_by self.insertedNums.card
decreasing_by exact Finset.card_erase_lt_of_mem ‹_›

def ack (self : InsertState) (n : Nat) : Call InsertState :=
  if n ≠ self.nextInsertedNum then return { self with insertedNums := insert n self.insertedNums }
  else self.advance

end InsertState

/-! ## `Workload` -/

inductive SettingsDistr
  | constant
  | uniform
  | zipfian
  | latest
  deriving DecidableEq, Repr

structure WorkloadSettings where
  recordCount : Nat
  operationCount : Option Nat := none
  fieldCount : Nat := 10
  requestDistr : SettingsDistr := .uniform
  zeroPadding : Nat := 20

inductive Transaction
  | read
  | update
  | insert
  | scan
  | readModifyWrite
  deriving DecidableEq, Repr

/-- What the samplers of a call of `next_op` give: an index into `TRANSACTIONS`,
what `gen_range` gives before it is reduced, the draws of `key_num` in order, the
characters of a value and the length of a scan. -/
structure Draws where
  transaction : Fin 5
  field : Nat
  keyNums : List Nat
  value : List Char
  scanLen : Nat

structure Workload where
  settings : WorkloadSettings
  transactionCount : Nat := 0
  rmwUpdate : Option Op := none
  latencies : List Nat := []
  start : Option Nat := none

/-- The draws of `key_num` up to the first that is below. -/
def keyNumBelow (nextInsertedNum : Nat) : List Nat → Call Nat
  | [] => Outcome.throw .loop
  | keyNum :: draws => if nextInsertedNum ≤ keyNum then keyNumBelow nextInsertedNum draws else return keyNum

namespace Workload

/-- `Workload::new`, with the state that its clones share. -/
def new (settings : WorkloadSettings) : Workload × InsertState :=
  ({ settings := settings }, { nextNum := settings.recordCount, nextInsertedNum := settings.recordCount })

def transactions : Fin 5 → Transaction
  | 0 => .read
  | 1 => .update
  | 2 => .insert
  | 3 => .scan
  | 4 => .readModifyWrite

def buildValue (draws : Draws) : Call String := do
  Outcome.assert (draws.value.length ≠ 0) (.panic .assert)
  return String.ofList draws.value

/-- `gen_range(0..n)`. -/
def genRange (draw n : Nat) : Call Nat := do
  Outcome.assert (n ≠ 0) (.panic .assert)
  return draw % n

def keyNum (self : Workload) (shared : InsertState) (draws : Draws) : Call Nat :=
  if self.settings.requestDistr = .latest then
    match draws.keyNums with
    | [] => Outcome.throw .loop
    | draw :: _ =>
      if draw ≤ shared.nextInsertedNum then return shared.nextInsertedNum - draw else Outcome.throw (.panic .overflow)
  else keyNumBelow shared.nextInsertedNum draws.keyNums

/-! The field and the number that `next_op` chooses for a transaction. -/

def chooseField (settings : WorkloadSettings) (draws : Draws) (transaction : Transaction) : Call Nat :=
  if transaction ≠ .insert ∧ transaction ≠ .read then genRange draws.field settings.fieldCount else return 0

def chooseKeyNum (self : Workload) (shared : InsertState) (draws : Draws) (transaction : Transaction) :
    Call (Nat × InsertState) :=
  if transaction = .insert then return shared.takeNum
  else do
    let keyNum ← self.keyNum shared draws
    return (keyNum, shared)

def serializeError : Error := .bail "bincode"

def missingStartInstant : Error := .bail "missing start instant"

/-- The number of the record goes with an insert. -/
def attach (op : Op) (keyNum : Nat) : Option Nat :=
  match op with
  | .insert _ _ => some keyNum
  | .read _ | .scan _ _ | .update _ _ _ | .delete _ => none

def ackOf (shared : InsertState) : Option Nat → Call InsertState
  | none => return shared
  | some keyNum => shared.ack keyNum

section
variable [KeyHasher]

def buildKeyName (settings : WorkloadSettings) (keyNum : Nat) : Call String :=
  let key := toString (KeyHasher.hashOne keyNum).toNat
  if key.length ≤ settings.zeroPadding then
    return "user" ++ String.ofList (List.replicate (settings.zeroPadding - key.length) '0') ++ key
  else Outcome.throw (.panic .overflow)

/-- The block `'op` of `next_op`: the operation and its key. -/
def chooseOp (self : Workload) (shared : InsertState) (draws : Draws) (now : Nat) :
    Call (Option Op × Nat × Workload × InsertState) :=
  match self.rmwUpdate with
  | some op => return (some op, 0, { self with rmwUpdate := none }, shared)
  | none =>
    if some self.transactionCount = self.settings.operationCount then return (none, 0, self, shared)
    else do
      let self := { self with start := some now }
      let transaction := transactions draws.transaction
      let field ← chooseField self.settings draws transaction
      let (keyNum, shared) ← self.chooseKeyNum shared draws transaction
      let keyName ← buildKeyName self.settings keyNum
      match transaction with
      | .read => return (some (.read keyName), keyNum, self, shared)
      | .update => do
        let value ← buildValue draws
        return (some (.update keyName field value), keyNum, self, shared)
      | .insert => do
        let value ← buildValue draws
        return (some (.insert keyName (List.replicate self.settings.fieldCount value)), keyNum, self, shared)
      | .scan => return (some (.scan keyName draws.scanLen), keyNum, self, shared)
      | .readModifyWrite => do
        let value ← buildValue draws
        return (some (.read keyName), keyNum, { self with rmwUpdate := some (.update keyName field value) }, shared)

end

section
variable [ClientBincode]

/-- A result other than `NotFound`. -/
def accepts (result : Payload) : Except Error Unit :=
  match ClientBincode.deserialize result with
  | none => .error serializeError
  | some .notFound => .error (.bail "expected NotFound")
  | some _ => .ok ()

def onResult (self : Workload) (shared : InsertState) (result : Payload) (keyNum : Option Nat) (now : Nat) :
    Call (Except Error Unit × Workload × InsertState) :=
  match accepts result with
  | .error error => return (.error error, self, shared)
  | .ok () => do
    let shared ← ackOf shared keyNum
    if self.rmwUpdate.isNone then
      match self.start with
      | none => return (.error missingStartInstant, self, shared)
      | some start => return (.ok (), { self with start := none, latencies := self.latencies ++ [now - start] }, shared)
    else return (.ok (), self, shared)

def nextOp [KeyHasher] (self : Workload) (shared : InsertState) (draws : Draws) (now : Nat) :
    Call (Except Error (Option (Payload × Option Nat)) × Workload × InsertState) := do
  let (op, keyNum, self, shared) ← self.chooseOp shared draws now
  match op with
  | none => return (.ok none, self, shared)
  | some op =>
    match ClientBincode.serialize op with
    | none => return (.error serializeError, self, shared)
    | some payload => return (.ok (some (payload, attach op keyNum)), self, shared)

end

/-! ## What `next_op` chooses -/

section
variable [KeyHasher] {client : Workload} {shared : InsertState} {draws : Draws} {now : Nat}

/-- The pending update, nothing, or the first operation of a transaction. -/
inductive Choice (client : Workload) (shared : InsertState) (draws : Draws) (now : Nat) :
    Option Op × Nat × Workload × InsertState → Prop
  | update {op : Op} (hrmw : client.rmwUpdate = some op) :
      Choice client shared draws now (some op, 0, { client with rmwUpdate := none }, shared)
  | stop (hrmw : client.rmwUpdate = none) (hcount : some client.transactionCount = client.settings.operationCount) :
      Choice client shared draws now (none, 0, client, shared)
  | start {op : Op} {rmwUpdate : Option Op} {keyNum : Nat} {shared' : InsertState} {es : List Empty}
      (hrmw : client.rmwUpdate = none) (hcount : some client.transactionCount ≠ client.settings.operationCount)
      (hkeyNum : client.chooseKeyNum shared draws (transactions draws.transaction) = .ok (keyNum, shared') es)
      (hname : buildKeyName client.settings keyNum = .ok op.key [])
      (hinsert : ¬op.IsInsert → transactions draws.transaction ≠ .insert)
      (hupdate : ∀ update ∈ rmwUpdate, op = .read op.key ∧ update.key = op.key ∧ ¬update.IsInsert ∧
        transactions draws.transaction ≠ .insert) :
      Choice client shared draws now (some op, keyNum, { client with rmwUpdate := rmwUpdate, start := some now }, shared')

theorem sat_buildKeyName (settings : WorkloadSettings) (keyNum : Nat) :
    (buildKeyName settings keyNum).Sat (fun keyName _ => buildKeyName settings keyNum = .ok keyName []) fun _ => True := by
  cases hkey : buildKeyName settings keyNum with
  | fail stuck es => trivial
  | ok keyName es =>
    cases es with
    | nil => rfl
    | cons e es => exact e.elim

theorem chooseOp_choice : (client.chooseOp shared draws now).Sat (fun r _ => Choice client shared draws now r) fun _ => True := by
  unfold chooseOp
  cases hrmw : client.rmwUpdate with
  | some op => exact .update hrmw
  | none =>
    dsimp only
    rw [Outcome.sat_ite]
    refine ⟨fun hcount => ?_, fun hcount => ?_⟩
    · exact .stop hrmw hcount
    rw [Outcome.sat_bind]
    refine Outcome.Sat.trivial.mono (fun field _ _ => ?_) fun _ _ => trivial
    rw [Outcome.sat_bind]
    change (client.chooseKeyNum shared draws (transactions draws.transaction)).Sat _ _
    cases hkeyNum : client.chooseKeyNum shared draws (transactions draws.transaction) with
    | fail stuck es => trivial
    | ok r es =>
      obtain ⟨keyNum, shared'⟩ := r
      rw [Outcome.sat_ok, Outcome.sat_bind]
      refine (sat_buildKeyName client.settings keyNum).mono (fun keyName _ hname => ?_) fun _ _ => trivial
      cases htransaction : transactions draws.transaction with
      | read => exact .start hrmw hcount hkeyNum hname (by simp [htransaction]) (by simp)
      | update =>
        rw [Outcome.sat_bind]
        refine Outcome.Sat.trivial.mono (fun value _ _ => ?_) fun _ _ => trivial
        exact .start hrmw hcount hkeyNum hname (by simp [htransaction]) (by simp)
      | insert =>
        rw [Outcome.sat_bind]
        refine Outcome.Sat.trivial.mono (fun value _ _ => ?_) fun _ _ => trivial
        exact .start hrmw hcount hkeyNum hname (fun hnot => absurd trivial hnot) (by simp)
      | scan => exact .start hrmw hcount hkeyNum hname (by simp [htransaction]) (by simp)
      | readModifyWrite =>
        rw [Outcome.sat_bind]
        refine Outcome.Sat.trivial.mono (fun value _ _ => ?_) fun _ _ => trivial
        refine .start hrmw hcount hkeyNum hname (by simp [htransaction]) fun update hupdate => ?_
        cases hupdate
        exact ⟨rfl, rfl, id, by simp [htransaction]⟩

end

end Workload

end Neatworks.Ycsb
