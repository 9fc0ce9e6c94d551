import Mathlib.Data.Nat.ModEq
import Mathlib.Data.Nat.Prime.Basic
import Neatworks.YcsbWorkload

/-!
# The load of YCSB

`startup_ops` of `app/ycsb.rs`, with the parts of `Workload::new` that it rests
on. A key is named by the hash of its number in decimal, padded with zeros. The
hash is a product with an odd number, so the names are distinct and the load puts
as many records into a store as it has operations.
-/

namespace Neatworks.Ycsb

open Ycsb.Workload

/-- A product modulo a power of two tells its factor if the other factor is odd. -/
theorem eq_of_mul_odd_mod {w a b c : Nat} (hodd : c % 2 = 1) (ha : a < 2 ^ w) (hb : b < 2 ^ w)
    (h : a * c % 2 ^ w = b * c % 2 ^ w) : a = b := by
  have hcoprime : Nat.gcd (2 ^ w) c = 1 :=
    Nat.Coprime.pow_left w (Nat.coprime_two_left.mpr (Nat.odd_iff.mpr hodd))
  have hmod : a ≡ b [MOD 2 ^ w] := Nat.ModEq.cancel_right_of_coprime hcoprime h
  exact hmod.eq_of_lt_of_lt ha hb

/-! ## Names of keys -/

section
variable [KeyHasher]

/-- The hash of a number is its product with this odd number. -/
structure MultipliesBy (c : UInt64) : Prop where
  odd : c.toNat % 2 = 1
  hashOne : ∀ n, KeyHasher.hashOne n = UInt64.ofNat n * c

theorem hashOne_inj {c : UInt64} (hc : MultipliesBy c) {a b : Nat} (ha : a < 2 ^ 64) (hb : b < 2 ^ 64)
    (h : KeyHasher.hashOne a = KeyHasher.hashOne b) : a = b := by
  have hnat := congrArg UInt64.toNat h
  rw [hc.hashOne, hc.hashOne, UInt64.toNat_mul, UInt64.toNat_mul, UInt64.toNat_ofNat_of_lt' ha,
    UInt64.toNat_ofNat_of_lt' hb] at hnat
  exact eq_of_mul_odd_mod hc.odd ha hb hnat

/-- What `build_key_name` returns where it does not underflow. -/
def keyName (settings : WorkloadSettings) (keyNum : Nat) : String :=
  let key := toString (KeyHasher.hashOne keyNum).toNat
  "user" ++ String.ofList (List.replicate (settings.zeroPadding - key.length) '0') ++ key

variable {settings : WorkloadSettings}

theorem length_key_le (keyNum : Nat) : (toString (KeyHasher.hashOne keyNum).toNat).length ≤ 20 := by
  have hlt := (KeyHasher.hashOne keyNum).toNat_lt
  rw [Nat.toString_eq_repr, Nat.length_repr_le_iff (by decide)]
  omega

theorem buildKeyName_eq (h : 20 ≤ settings.zeroPadding) (keyNum : Nat) :
    buildKeyName settings keyNum = .ok (keyName settings keyNum) [] :=
  if_pos (Nat.le_trans (length_key_le keyNum) h)

theorem keyName_length (h : 20 ≤ settings.zeroPadding) (keyNum : Nat) :
    (keyName settings keyNum).length = 4 + settings.zeroPadding := by
  have hle := length_key_le keyNum
  simp only [keyName, String.length_append, String.length_ofList, List.length_replicate]
  change 4 + _ + _ = _
  omega

theorem ofDigitChars_keyName (settings : WorkloadSettings) (keyNum : Nat) :
    Nat.ofDigitChars 10 ((keyName settings keyNum).toList.drop 4) 0 = (KeyHasher.hashOne keyNum).toNat := by
  simp [keyName, Nat.ofDigitChars_append]

theorem keyName_inj {c : UInt64} (hc : MultipliesBy c) {a b : Nat} (ha : a < 2 ^ 64) (hb : b < 2 ^ 64)
    (h : keyName settings a = keyName settings b) : a = b := by
  refine hashOne_inj hc ha hb (UInt64.toNat_inj.mp ?_)
  rw [← ofDigitChars_keyName settings, h, ofDigitChars_keyName]

end

/-! ## `Workload::new` -/

/-- With the settings that only `Workload::new` and the load read; of the
proportions, what `WeightedAliasIndex::new` says to them. -/
structure LoadSettings extends WorkloadSettings where
  fieldLength : Nat := 100
  fieldLengthDistr : SettingsDistr := .constant
  maxScanLength : Nat := 1000
  scanLengthDistr : SettingsDistr := .uniform
  proportions : Except Error Unit := .ok ()

inductive Gen
  | constant (n : Nat)
  | uniform (n : Nat)
  | scrambledZipf (itemCount : Nat)
  | zipf (n : Nat)

namespace Gen

def new (distr : SettingsDistr) (n : Nat) (scrambled : Bool) : Outcome Empty Error Gen :=
  match distr with
  | .constant => return .constant n
  | .uniform => do
    -- `Uniform::new(1, n)` of an empty range
    Outcome.assert (1 < n) (.panic .assert)
    return .uniform n
  | .zipfian =>
    if scrambled then return .scrambledZipf n
    else do
      Outcome.assert (1 ≤ n) (.bail "n < 1 in Zipf distribution")
      return .zipf n
  | .latest => Outcome.throw (.bail "unimplemented")

/-- `gen` may give this number. -/
def Gives : Gen → Nat → Prop
  | .constant n, k => k = n
  | .uniform n, k => 1 ≤ k ∧ k < n
  | .scrambledZipf itemCount, k => k < itemCount
  | .zipf n, k => 1 ≤ k ∧ k ≤ n

end Gen

/-- The fields of a `Workload` that `startup_ops` uses. -/
structure Startup where
  settings : LoadSettings
  insertKeyNum : Nat := 0
  fieldLength : Gen

namespace Startup

/-- The field `key_num`. -/
def newKeyNum (settings : LoadSettings) : Outcome Empty Error Gen :=
  if settings.requestDistr = .latest then Gen.new .zipfian settings.recordCount false
  else Gen.new settings.requestDistr settings.recordCount true

def new (settings : LoadSettings) : Outcome Empty Error Startup := do
  let fieldLength ← Gen.new settings.fieldLengthDistr settings.fieldLength false
  let _ ← newKeyNum settings
  let _ ← Gen.new settings.scanLengthDistr settings.maxScanLength false
  Outcome.ofExcept settings.proportions
  return { settings := settings, fieldLength := fieldLength }

/-! ## `startup_ops` -/

section
variable [KeyHasher]

def startupInsert (self : Startup) (draws : Draws) : Call (Op × Startup) := do
  let key ← buildKeyName self.settings.toWorkloadSettings self.insertKeyNum
  Outcome.assert (self.insertKeyNum + 1 < 2 ^ 64) (.panic .overflow)
  let value ← buildValue draws
  return (.insert key (List.replicate self.settings.fieldCount value), { self with insertKeyNum := self.insertKeyNum + 1 })

variable [ClientBincode]

/-- The first operations of `repeat_with`; the draws are those for each number of a key. -/
def takeOps (draws : Nat → Draws) : Nat → Startup → Call (List Payload × Startup)
  | 0, self => return ([], self)
  | n + 1, self => do
    let (op, self) ← self.startupInsert (draws self.insertKeyNum)
    match ClientBincode.serialize op with
    | none => Outcome.throw (.panic .unwrap)
    | some payload => do
      let (payloads, self) ← takeOps draws n self
      return (payload :: payloads, self)

def startupOps (self : Startup) (draws : Nat → Draws) : Call (List Payload × Startup) :=
  takeOps draws self.settings.recordCount self

end

/-- The lengths of the fields are in range and not zero. -/
theorem new_fieldLength {settings : LoadSettings} {self : Startup} {es : List Empty} (h : new settings = .ok self es) :
    self.settings = settings ∧ self.insertKeyNum = 0 ∧
      (settings.fieldLength ≠ 0 → ∀ n, self.fieldLength.Gives n → n ≠ 0) := by
  obtain ⟨fieldLength, es₁, es₂, hfield, hrest, -⟩ := Outcome.bind_eq_ok.mp h
  obtain ⟨_, _, _, _, hrest, -⟩ := Outcome.bind_eq_ok.mp hrest
  obtain ⟨_, _, _, _, hrest, -⟩ := Outcome.bind_eq_ok.mp hrest
  obtain ⟨_, _, _, _, hrest, -⟩ := Outcome.bind_eq_ok.mp hrest
  cases hrest
  refine ⟨rfl, rfl, fun hne n hgives => ?_⟩
  dsimp only at hgives
  cases hdistr : settings.fieldLengthDistr with
  | constant =>
    rw [hdistr] at hfield
    cases hfield
    rwa [show n = settings.fieldLength from hgives]
  | uniform =>
    rw [hdistr] at hfield
    obtain ⟨_, _, _, _, hgen, -⟩ := Outcome.bind_eq_ok.mp hfield
    cases hgen
    exact Nat.one_le_iff_ne_zero.mp hgives.1
  | zipfian =>
    rw [hdistr] at hfield
    obtain ⟨_, _, _, _, hgen, -⟩ := Outcome.bind_eq_ok.mp hfield
    cases hgen
    exact Nat.one_le_iff_ne_zero.mp hgives.1
  | latest =>
    rw [hdistr] at hfield
    cases hfield

end Startup

/-! ## The store after the load -/

section
variable [KeyHasher] {settings : LoadSettings}

def insertAt (settings : LoadSettings) (draws : Nat → Draws) (keyNum : Nat) : Op :=
  .insert (keyName settings.toWorkloadSettings keyNum)
    (List.replicate settings.fieldCount (String.ofList (draws keyNum).value))

theorem Startup.startupInsert_eq {self : Startup} (hpadding : 20 ≤ self.settings.zeroPadding)
    (hnum : self.insertKeyNum + 1 < 2 ^ 64) {draws : Nat → Draws} (hvalue : (draws self.insertKeyNum).value.length ≠ 0) :
    self.startupInsert (draws self.insertKeyNum) =
      .ok (insertAt self.settings draws self.insertKeyNum, { self with insertKeyNum := self.insertKeyNum + 1 }) [] := by
  simp only [startupInsert, buildKeyName_eq hpadding, buildValue, Outcome.assert, if_pos hnum, if_pos hvalue, Outcome.ok_bind,
    pure_bind]
  rfl

/-- The records of the keys with the first `n` numbers. -/
structure Loaded (settings : WorkloadSettings) (n : Nat) (app : BTreeMap) : Prop where
  length : app.map.entries.length = n
  keys : ∀ e ∈ app.map.entries, ∃ keyNum < n, e.1 = keyName settings keyNum

theorem Loaded.new (settings : WorkloadSettings) : Loaded settings 0 .new :=
  ⟨rfl, fun _ he => absurd he List.not_mem_nil⟩

theorem Loaded.get_none {settings : WorkloadSettings} {c : UInt64} (hc : MultipliesBy c) {n : Nat} (hn : n < 2 ^ 64)
    {app : BTreeMap} (h : Loaded settings n app) : app.map.get (keyName settings n) = none := by
  refine SortedMap.get_eq_none.mpr fun v hmem => ?_
  obtain ⟨keyNum, hlt, hkey⟩ := h.keys _ hmem
  exact Nat.ne_of_lt hlt (keyName_inj hc (Nat.lt_trans hlt hn) hn hkey.symm)

theorem Loaded.insert {settings : WorkloadSettings} {c : UInt64} (hc : MultipliesBy c) {n : Nat} (hn : n < 2 ^ 64)
    {app : BTreeMap} (h : Loaded settings n app) (values : List String) :
    Loaded settings (n + 1) ⟨app.map.insert (keyName settings n) values⟩ := by
  have hperm := SortedMap.perm_insert (List.Perm.refl app.map.entries) (v := values) (h.get_none hc hn)
  constructor
  · rw [← hperm.length_eq, List.length_append, h.length, List.length_singleton]
  · intro e he
    rcases List.mem_append.mp (hperm.symm.subset he) with hmem | hmem
    · obtain ⟨keyNum, hlt, hkey⟩ := h.keys e hmem
      exact ⟨keyNum, Nat.lt_succ_of_lt hlt, hkey⟩
    · rw [List.mem_singleton.mp hmem]
      exact ⟨n, Nat.lt_succ_self n, rfl⟩

variable [ClientBincode] [Bincode] [FxHasher]

/-- The store reads the operation that the client has written. -/
def RoundTrips (op : Op) : Prop := ∃ payload, ClientBincode.serialize op = some payload ∧ Bincode.deserialize payload = some op

/-- `app.execute(&op)?` for each operation. -/
def executeAll (app : BTreeMap) (payloads : List Payload) : Option BTreeMap :=
  payloads.foldlM (fun app op => (App.execute app op).map Prod.fst) app

omit [KeyHasher] [ClientBincode] in
theorem executeAll_insert {app : BTreeMap} {key : String} {values : List String} {payload out : Payload}
    (hread : Bincode.deserialize payload = some (.insert key values)) (hout : Bincode.serialize .ok = some out)
    (payloads : List Payload) :
    executeAll app (payload :: payloads) = executeAll ⟨app.map.insert key values⟩ payloads := by
  have hstep : App.execute app payload = some (⟨app.map.insert key values⟩, out) := by
    simp [App.execute, hread, BTreeMap.apply, hout]
  rw [executeAll, List.foldlM_cons, hstep]
  rfl

theorem takeOps_loaded {c : UInt64} (hc : MultipliesBy c) (hpadding : 20 ≤ settings.zeroPadding) {draws : Nat → Draws}
    (hvalue : ∀ keyNum, (draws keyNum).value.length ≠ 0) {out : Payload} (hout : Bincode.serialize .ok = some out) (n : Nat)
    {self : Startup} (hsettings : self.settings = settings) (hnum : self.insertKeyNum + n < 2 ^ 64)
    (hround : ∀ keyNum < self.insertKeyNum + n, RoundTrips (insertAt settings draws keyNum)) {app : BTreeMap}
    (h : Loaded settings.toWorkloadSettings self.insertKeyNum app) :
    ∃ payloads self' app', Startup.takeOps draws n self = .ok (payloads, self') [] ∧ executeAll app payloads = some app' ∧
      Loaded settings.toWorkloadSettings (self.insertKeyNum + n) app' := by
  induction n generalizing self app with
  | zero => exact ⟨[], self, app, rfl, rfl, h⟩
  | succ n ih =>
    subst hsettings
    obtain ⟨payload, hwrite, hread⟩ := hround self.insertKeyNum (by omega)
    have hlt : self.insertKeyNum < 2 ^ 64 := by omega
    have hinsert := Startup.startupInsert_eq hpadding (by omega) (hvalue self.insertKeyNum)
    have hcount : self.insertKeyNum + (n + 1) = self.insertKeyNum + 1 + n := by omega
    rw [hcount] at hround hnum ⊢
    obtain ⟨payloads, self', app', htake, hexecute, hloaded⟩ :=
      @ih { self with insertKeyNum := self.insertKeyNum + 1 } rfl hnum hround _ (h.insert hc hlt _)
    refine ⟨payload :: payloads, self', app', ?_, ?_, hloaded⟩
    · rw [Startup.takeOps]
      simp only [hinsert, Outcome.ok_bind, hwrite, htake]
      rfl
    · rw [executeAll_insert hread hout]
      exact hexecute

/-- Different numbers have different names, so each operation of the load is a new
record. `build_value` asserts that a field has a character, and a `usize` has 64
bits. -/
theorem startup_records {c : UInt64} (hc : MultipliesBy c) (hpadding : 20 ≤ settings.zeroPadding) :
    (∀ a b, a < 2 ^ 64 → b < 2 ^ 64 → a ≠ b → ∃ name name', buildKeyName settings.toWorkloadSettings a = .ok name [] ∧
      buildKeyName settings.toWorkloadSettings b = .ok name' [] ∧ name.length = name'.length ∧ name ≠ name') ∧
    ∀ self es, Startup.new settings = .ok self es → settings.recordCount < 2 ^ 64 → settings.fieldLength ≠ 0 →
      ∀ draws, (∀ keyNum, self.fieldLength.Gives (draws keyNum).value.length) →
        (∀ keyNum < settings.recordCount, RoundTrips (insertAt settings draws keyNum)) → (Bincode.serialize .ok).isSome →
          ∃ payloads self' app, self.startupOps draws = .ok (payloads, self') [] ∧ executeAll .new payloads = some app ∧
            app.map.entries.length = settings.recordCount := by
  refine ⟨fun a b ha hb hne => ?_, fun self es hnew hcount hlength draws hdraws hround hresult => ?_⟩
  · refine ⟨_, _, buildKeyName_eq hpadding a, buildKeyName_eq hpadding b, ?_, fun heq => ?_⟩
    · rw [keyName_length hpadding, keyName_length hpadding]
    · exact hne (keyName_inj hc ha hb heq)
  · obtain ⟨hsettings, hnum, hgives⟩ := Startup.new_fieldLength hnew
    obtain ⟨out, hout⟩ := Option.isSome_iff_exists.mp hresult
    have hcount' : self.insertKeyNum + settings.recordCount = settings.recordCount := by rw [hnum, Nat.zero_add]
    have hloaded : Loaded settings.toWorkloadSettings self.insertKeyNum .new := by
      rw [hnum]
      exact .new _
    obtain ⟨payloads, self', app, hops, hexecute, happ⟩ :=
      takeOps_loaded hc hpadding (fun keyNum => hgives hlength _ (hdraws keyNum)) hout settings.recordCount hsettings
        (by rwa [hcount']) (by rwa [hcount']) hloaded
    refine ⟨payloads, self', app, ?_, hexecute, happ.length.trans hcount'⟩
    rw [Startup.startupOps, hsettings]
    exact hops

end

/-! ## Two records -/

def readString (bytes : Payload) : Option (String × Payload) := do
  let (n, bytes) ← deserializeVarint bytes
  if n ≤ bytes.length then
    let s ← String.fromUTF8? ⟨(bytes.take n).toArray⟩
    return (s, bytes.drop n)
  else none

def readStrings : Nat → Payload → Option (List String × Payload)
  | 0, bytes => some ([], bytes)
  | n + 1, bytes => do
    let (s, bytes) ← readString bytes
    let (rest, bytes) ← readStrings n bytes
    return (s :: rest, bytes)

/-- The encoding of the inserts and of the result of one. -/
@[reducible] def Bincode.inserts : Bincode where
  deserialize
    | 3 :: bytes => do
      let (key, bytes) ← readString bytes
      let (count, bytes) ← deserializeVarint bytes
      let (values, bytes) ← readStrings count bytes
      if bytes = [] then some (.insert key values) else none
    | _ => none
  serialize
    | .ok => some [3]
    | _ => none

theorem readString_append {s : String} (h : s.utf8ByteSize < 2 ^ 64) (rest : Payload) :
    readString (ClientBincode.ops.string s ++ rest) = some (s, rest) := by
  have hlength := length_toUTF8 s
  have htake : (s.toUTF8.toList ++ rest).take s.utf8ByteSize = s.toUTF8.toList := List.take_left' hlength
  have hdrop : (s.toUTF8.toList ++ rest).drop s.utf8ByteSize = rest := List.drop_left' hlength
  unfold readString ClientBincode.ops.string
  rw [List.append_assoc, deserializeVarint_append h]
  simp only [Option.bind_eq_bind, Option.bind_some, htake, hdrop, List.length_append, hlength, Nat.le_add_right, if_true,
    fromUTF8?_toUTF8]
  rfl

theorem readStrings_append {values : List String} (h : ∀ value ∈ values, value.utf8ByteSize < 2 ^ 64) (rest : Payload) :
    readStrings values.length (values.flatMap ClientBincode.ops.string ++ rest) = some (values, rest) := by
  induction values with
  | nil => rfl
  | cons value values ih =>
    obtain ⟨hvalue, hvalues⟩ := List.forall_mem_cons.mp h
    simp only [List.length_cons, readStrings, List.flatMap_cons, List.append_assoc, readString_append hvalue,
      Option.bind_eq_bind, Option.bind_some, ih hvalues]
    rfl

section
local instance loadHasher : KeyHasher := KeyHasher.fx

local instance loadClient : ClientBincode := ClientBincode.ops

local instance loadBincode : Bincode := Bincode.inserts

/-- An insert does not hash. -/
local instance loadChecksum : FxHasher := ⟨fun _ => 0⟩

/-- What a `String` and a `Vec` can hold is read back. -/
theorem roundTrips_insert {key : String} {values : List String} (hkey : key.utf8ByteSize < 2 ^ 64)
    (hcount : values.length < 2 ^ 64) (hvalues : ∀ value ∈ values, value.utf8ByteSize < 2 ^ 64) :
    RoundTrips (.insert key values) := by
  refine ⟨_, rfl, ?_⟩
  have hstrings := readStrings_append hvalues []
  rw [List.append_nil] at hstrings
  change (do
    let (key, bytes) ← readString _
    let (count, bytes) ← deserializeVarint bytes
    let (values, bytes) ← readStrings count bytes
    if bytes = [] then some (Op.insert key values) else none) = _
  rw [readString_append hkey]
  simp only [Option.bind_eq_bind, Option.bind_some, deserializeVarint_append hcount, hstrings, if_true]

def loadTwo : LoadSettings := { recordCount := 2, fieldCount := 1 }

def fillDraws (_ : Nat) : Draws := ⟨⟨0, Nat.zero_lt_succ 4⟩, 0, [], List.replicate 100 'a', 0⟩

theorem roundTrips_loadTwo {keyNum : Nat} (h : keyNum < 2) : RoundTrips (insertAt loadTwo fillDraws keyNum) := by
  have hkeys : ∀ keyNum < 2, (keyName loadTwo.toWorkloadSettings keyNum).utf8ByteSize < 2 ^ 64 := by decide +kernel
  have hvalue : (String.ofList (List.replicate 100 'a')).utf8ByteSize < 2 ^ 64 := by decide +kernel
  have hcount : (List.replicate 1 (String.ofList (List.replicate 100 'a'))).length < 2 ^ 64 := by decide
  exact roundTrips_insert (hkeys keyNum h) hcount fun value hmem => List.eq_of_mem_replicate hmem ▸ hvalue

theorem startup_records_two : ∃ payloads self' app,
    Startup.startupOps { settings := loadTwo, fieldLength := .constant 100 } fillDraws = .ok (payloads, self') [] ∧
      executeAll .new payloads = some app ∧ app.map.entries.length = 2 := by
  have hc : MultipliesBy 0x517cc1b727220a95 := ⟨by decide, fun _ => rfl⟩
  have hpadding : 20 ≤ loadTwo.zeroPadding := by decide
  exact (startup_records hc hpadding).2 { settings := loadTwo, fieldLength := .constant 100 } [] rfl (by decide) (by decide)
    fillDraws (fun _ => rfl) (fun _ => roundTrips_loadTwo) rfl

end

end Neatworks.Ycsb
