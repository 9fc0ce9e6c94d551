import Mathlib.Logic.Function.Basic
import Neatworks.Message

/-!
# Applications

`app.rs` and `app/kvstore.rs`. The functions of `serde_json` that the store
calls are the methods of a class. A `BTreeMap` that is only looked up and
inserted into is a function to `Option`.
-/

namespace Neatworks

/-- `trait App`; `none` is an error. -/
class App (S : Type) where
  execute : S → Payload → Option (S × Payload)

structure Null

instance : App Null where
  execute app _ := some (app, [])

namespace KVStore

inductive Op
  | put (key value : String)
  | get (key : String)
  | append (key suffix : String)
  deriving DecidableEq, Repr

inductive Result
  | putOk
  | getResult (value : String)
  | ketyNotFound
  | appendResult (value : String)
  deriving DecidableEq, Repr

end KVStore

/-- `serde_json::from_slice` and `serde_json::to_vec`. -/
class SerdeJson where
  fromSlice : Payload → Option KVStore.Op
  toVec : KVStore.Result → Option Payload

structure KVStore where
  map : String → Option String

namespace KVStore

def new : KVStore := ⟨fun _ => none⟩

def insert (self : KVStore) (key value : String) : KVStore := ⟨Function.update self.map key (some value)⟩

def apply (self : KVStore) : Op → KVStore × Result
  | .put key value => (self.insert key value, .putOk)
  | .get key =>
    match self.map key with
    | some value => (self, .getResult value)
    | none => (self, .ketyNotFound)
  | .append key suffix =>
    let value := (self.map key).getD "" ++ suffix
    (self.insert key value, .appendResult value)

instance [SerdeJson] : App KVStore where
  execute self op := do
    let op ← SerdeJson.fromSlice op
    let (store, result) := self.apply op
    let result ← SerdeJson.toVec result
    return (store, result)

/-! ## One operation -/

/-- `{"Get":"a"}`. -/
def getOp : Payload := [123, 34, 71, 101, 116, 34, 58, 34, 97, 34, 125]

/-- `"KetyNotFound"`. -/
def notFound : Payload := [34, 75, 101, 116, 121, 78, 111, 116, 70, 111, 117, 110, 100, 34]

/-- `serde_json` on `getOp` and what a new store answers to it. -/
@[reducible] def getJson : SerdeJson where
  fromSlice payload := if payload = getOp then some (.get "a") else none
  toVec result := some (if result = .ketyNotFound then notFound else [])

end KVStore

end Neatworks
