import Mathlib.Data.String.Basic
import Neatworks.App
import Neatworks.SortedMap

/-!
# The YCSB applications

`Op` and `Result` of `app/ycsb.rs`, and the two stores that execute them,
`app/btree.rs` and `app/sqlite.rs`. Of SQLite a store has the rows of its one
table, and each statement that it runs is a function by the meaning of the
statement in SQL. The order of strings is that of their code points, and so of
their bytes in UTF-8.
-/

namespace Neatworks.Ycsb

inductive Op
  | read (key : String)
  | scan (key : String) (count : Nat)
  | update (key : String) (field : Nat) (value : String)
  | insert (key : String) (values : List String)
  | delete (key : String)
  deriving DecidableEq, Repr

inductive Result
  | readOk (record : List String)
  | notFound
  | scanOk (records : List (List String))
  | ok
  deriving DecidableEq, Repr

/-- `bincode::options()`. -/
class Bincode where
  deserialize : Payload → Option Op
  serialize : Result → Option Payload

/-- `hash_one` of `BuildHasherDefault<FxHasher>`. -/
class FxHasher where
  hashOne : String → UInt64

/-- `format!("{:x}", .. & 0xf)`. -/
def checksum [FxHasher] (value : String) : String :=
  String.singleton (Nat.digitChar (FxHasher.hashOne value &&& 0xf).toNat)

/-! ## `app::BTreeMap` -/

structure BTreeMap where
  map : SortedMap String (List String)

namespace BTreeMap

def new : BTreeMap := ⟨.empty⟩

def apply [FxHasher] (self : BTreeMap) : Op → Option (BTreeMap × Result)
  | .read key =>
    match self.map.get key with
    | some record => some (self, .readOk record)
    | none => some (self, .notFound)
  | .update key field value =>
    match self.map.get key with
    | some record =>
      -- "panic on out of bound"
      if field < record.length then some (⟨self.map.modify key fun record => record.set field value⟩, .ok) else none
    | none => some (self, .notFound)
  | .insert key values => some (⟨self.map.insert key values⟩, .ok)
  | .scan key count => some (self, .scanOk (((self.map.range key).map fun e => e.2.map checksum).take count))
  | .delete key =>
    match self.map.get key with
    | some _ => some (⟨self.map.remove key⟩, .ok)
    | none => some (self, .notFound)

instance [Bincode] [FxHasher] : App BTreeMap where
  execute self op := do
    let op ← Bincode.deserialize op
    let (self, result) ← self.apply op
    let result ← Bincode.serialize result
    return (self, result)

end BTreeMap

/-! ## `app::Sqlite` -/

/-- `ycsb_key`, and `field0`, `field1`, .. -/
abbrev Row := String × List String

/-- `row.get(i)` of a row of `SELECT *`, which has the columns in the order of the table. -/
def Row.get (row : Row) (i : Nat) : Option String := (row.1 :: row.2)[i]?

structure Sqlite where
  users : List Row
  fieldCount : Nat

namespace Sqlite

/-- `Sqlite::new`; with no field, the comma after the key is an error of syntax. -/
def new (fieldCount : Nat) : Option Sqlite := if fieldCount = 0 then none else some ⟨[], fieldCount⟩

/-- `SELECT * FROM users WHERE ycsb_key = ?1`. -/
def selectKey (self : Sqlite) (key : String) : List Row := self.users.filter fun row => row.1 = key

/-- `UPDATE users SET field{field} = ?2 WHERE ycsb_key = ?1`, with the number
of rows; a column that is not there is an error. -/
def updateField (self : Sqlite) (key : String) (field : Nat) (value : String) : Option (Sqlite × Nat) :=
  if field < self.fieldCount then
    some ({ self with users := self.users.map fun row => if row.1 = key then (row.1, row.2.set field value) else row },
      (self.selectKey key).length)
  else none

/-- `INSERT INTO users (ycsb_key, field0, ..) VALUES(?1, ?2, ..)`; the key is
unique, and each column has a parameter. -/
def insertRow (self : Sqlite) (key : String) (values : List String) : Option Sqlite :=
  if (self.selectKey key).isEmpty ∧ values.length = self.fieldCount then some { self with users := self.users ++ [(key, values)] }
  else none

/-- `SELECT * FROM users WHERE ycsb_key >= ?1 ORDER BY ycsb_key LIMIT ?2`; the
limit is bound as an `i64`. -/
def selectFrom (self : Sqlite) (key : String) (count : Nat) : Option (List Row) :=
  if count < 2 ^ 63 then
    some (((self.users.filter fun row => key ≤ row.1).mergeSort fun a b => a.1 ≤ b.1).take count)
  else none

/-- `DELETE FROM users WHERE ycsb_key = ?1`, with the number of rows. -/
def deleteKey (self : Sqlite) (key : String) : Sqlite × Nat :=
  ({ self with users := self.users.filter fun row => row.1 ≠ key }, (self.selectKey key).length)

def apply [FxHasher] (self : Sqlite) : Op → Option (Sqlite × Result)
  | .read key =>
    match (self.selectKey key).head? with
    | some row => do
      let values ← (List.range self.fieldCount).mapM row.get
      return (self, .readOk values)
    | none => some (self, .notFound)
  | .update key field value => do
    let (self, count) ← self.updateField key field value
    return (self, if count = 0 then .notFound else .ok)
  | .insert key values => do
    let self ← self.insertRow key values
    return (self, .ok)
  | .scan key count => do
    let rows ← self.selectFrom key count
    let records ← rows.mapM fun row => (List.range self.fieldCount).mapM fun i => (row.get i).map checksum
    return (self, .scanOk records)
  | .delete key =>
    let (self, count) := self.deleteKey key
    some (self, if count = 0 then .notFound else .ok)

instance [Bincode] [FxHasher] : App Sqlite where
  execute self op := do
    let op ← Bincode.deserialize op
    let (self, result) ← self.apply op
    let result ← Bincode.serialize result
    return (self, result)

end Sqlite

end Neatworks.Ycsb
