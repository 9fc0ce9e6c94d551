import Neatworks.Ycsb

/-!
# The two YCSB stores

The rows of `Sqlite` are the entries of `BTreeMap`, but it reads the columns
from the key on: a record that it returns has the key first and misses its last
field. The two stores agree where this makes no difference.
-/

namespace Neatworks.Ycsb

/-- The results of a sequence of operations; an error ends it. -/
def run {S : Type} (apply : S → Op → Option (S × Result)) : S → List Op → Option (List Result)
  | _, [] => some []
  | s, op :: ops => do
    let (s, result) ← apply s op
    let results ← run apply s ops
    return result :: results

/-- An `Insert` is of a new key and all fields, an `Update` of one field. -/
def Op.Valid (fieldCount : Nat) (store : BTreeMap) : Op → Prop
  | .insert key values => store.map.get key = none ∧ values.length = fieldCount
  | .update _ field _ => field < fieldCount
  | .read _ | .scan .. | .delete _ => True

/-- What is read is the key in each field, or has its checksum, and the limit of
a scan is an `i64`. -/
def Op.Harmless [FxHasher] (store : BTreeMap) : Op → Prop
  | .read key => ∀ record, store.map.get key = some record → ∀ value ∈ record, value = key
  | .scan key count => count < 2 ^ 63 ∧
      ∀ e ∈ (store.map.range key).take count, ∀ value ∈ e.2, checksum value = checksum e.1
  | .update .. | .insert .. | .delete _ => True

/-- `P` holds of each operation and the store it meets. -/
def Each [FxHasher] (P : BTreeMap → Op → Prop) : BTreeMap → List Op → Prop
  | _, [] => True
  | store, op :: ops => P store op ∧ ∀ store' result, store.apply op = some (store', result) → Each P store' ops

theorem each_cons [FxHasher] {P : BTreeMap → Op → Prop} {store store' : BTreeMap} {op : Op} {result : Result} {ops : List Op}
    (h : store.apply op = some (store', result)) : Each P store (op :: ops) ↔ P store op ∧ Each P store' ops := by
  refine and_congr_right fun _ => ⟨fun hall => hall store' result h, fun hnext store₁ result₁ h₁ => ?_⟩
  rw [h] at h₁
  cases h₁
  exact hnext

/-! ## Columns -/

theorem cons_take_eq_iff {α : Type} (a : α) (l : List α) : (a :: l).take l.length = l ↔ ∀ b ∈ l, b = a := by
  induction l generalizing a with
  | nil => simp
  | cons b l ih =>
    rw [List.length_cons, List.take_succ_cons, List.cons.injEq, ih, List.forall_mem_cons, eq_comm]
    refine and_congr_right fun hba => ?_
    rw [hba]

theorem mapM_getElem? {α : Type} (l : List α) {n : Nat} (h : n ≤ l.length) :
    (List.range n).mapM (fun i => l[i]?) = some (l.take n) := by
  induction n with
  | zero => rfl
  | succ n ih =>
    rw [List.range_succ, List.mapM_append, ih (Nat.le_of_succ_le h), List.take_succ_eq_append_getElem h]
    simp [List.getElem?_eq_getElem h]

theorem mapM_eq_map {α β : Type} {f : α → Option β} {g : α → β} {l : List α} (h : ∀ a ∈ l, f a = some (g a)) :
    l.mapM f = some (l.map g) := by
  induction l with
  | nil => rfl
  | cons a l ih =>
    rw [List.forall_mem_cons] at h
    rw [List.mapM_cons, h.1, ih h.2]
    rfl

theorem forall_shifted_iff [FxHasher] (rows : List Row) :
    (∀ e ∈ rows, ∀ value ∈ e.2, checksum value = checksum e.1) ↔
      (rows.map fun e => (checksum e.1 :: e.2.map checksum).take (e.2.map checksum).length) =
        rows.map fun e => e.2.map checksum := by
  rw [List.map_inj_left]
  refine forall₂_congr fun e _ => ?_
  rw [cons_take_eq_iff, List.forall_mem_map]

/-- A record as `SELECT *` shows it up to the last field. -/
theorem Row.mapM_get (row : Row) : (List.range row.2.length).mapM row.get = some ((row.1 :: row.2).take row.2.length) :=
  mapM_getElem? (row.1 :: row.2) (Nat.le_succ _)

/-! ## The tables -/

/-- The rows of the table are the entries of the map, with a value for each field. -/
structure Mirrors (store : BTreeMap) (db : Sqlite) : Prop where
  rows : db.users.Perm store.map.entries
  widths : ∀ e ∈ store.map.entries, e.2.length = db.fieldCount

section
variable {store : BTreeMap} {db : Sqlite}

namespace Mirrors

theorem selectKey (h : Mirrors store db) (key : String) :
    db.selectKey key = (store.map.get key).toList.map fun record => (key, record) := SortedMap.filter_key h.rows

theorem width (h : Mirrors store db) {key : String} {record : List String} (hget : store.map.get key = some record) :
    record.length = db.fieldCount := h.widths (key, record) (SortedMap.get_eq_some.mp hget)

theorem insertRow (h : Mirrors store db) {key : String} {values : List String} (hnew : store.map.get key = none)
    (hlen : values.length = db.fieldCount) : ∃ db', db.insertRow key values = some db' ∧
      db'.fieldCount = db.fieldCount ∧ Mirrors ⟨store.map.insert key values⟩ db' := by
  refine ⟨{ db with users := db.users ++ [(key, values)] }, ?_, rfl, SortedMap.perm_insert h.rows hnew, fun e he => ?_⟩
  · rw [Sqlite.insertRow, h.selectKey, hnew, if_pos ⟨rfl, hlen⟩]
  · rcases List.mem_append.mp he with he | he
    · exact h.widths e (List.mem_of_mem_filter he)
    · rcases List.mem_cons.mp he with rfl | he
      · exact hlen
      · exact h.widths e (List.mem_of_mem_filter he)

theorem updateField (h : Mirrors store db) (key : String) {field : Nat} (value : String) (hfield : field < db.fieldCount) :
    ∃ db', db.updateField key field value = some (db', (store.map.get key).toList.length) ∧ db'.fieldCount = db.fieldCount ∧
      Mirrors ⟨store.map.modify key fun record => record.set field value⟩ db' := by
  refine ⟨{ db with users := db.users.map fun row => if row.1 = key then (row.1, row.2.set field value) else row }, ?_, rfl,
    SortedMap.perm_modify h.rows fun record => record.set field value, fun e he => ?_⟩
  · rw [Sqlite.updateField, if_pos hfield, h.selectKey, List.length_map]
  · obtain ⟨e', he', rfl⟩ := List.mem_map.mp he
    split
    · rw [List.length_set]
      exact h.widths e' he'
    · exact h.widths e' he'

theorem deleteKey (h : Mirrors store db) (key : String) : (db.deleteKey key).2 = (store.map.get key).toList.length ∧
    (db.deleteKey key).1.fieldCount = db.fieldCount ∧ Mirrors ⟨store.map.remove key⟩ (db.deleteKey key).1 := by
  refine ⟨?_, rfl, SortedMap.perm_remove h.rows, fun e he => h.widths e (List.mem_of_mem_filter he)⟩
  rw [Sqlite.deleteKey, h.selectKey, List.length_map]

theorem selectFrom (h : Mirrors store db) (key : String) {count : Nat} (hcount : count < 2 ^ 63) :
    db.selectFrom key count = some ((store.map.range key).take count) := by
  rw [Sqlite.selectFrom, if_pos hcount, SortedMap.mergeSort_range h.rows]

/-! The results of the two stores. -/

variable [FxHasher]

theorem apply_scan (h : Mirrors store db) (key : String) {count : Nat} (hcount : count < 2 ^ 63) :
    db.apply (.scan key count) = some (db, .scanOk (((store.map.range key).take count).map fun e =>
      (checksum e.1 :: e.2.map checksum).take (e.2.map checksum).length)) := by
  have hrow : ∀ e ∈ (store.map.range key).take count, ((List.range db.fieldCount).mapM fun i => (Row.get e i).map checksum) =
      some ((checksum e.1 :: e.2.map checksum).take (e.2.map checksum).length) := by
    intro e he
    have hwidth : e.2.length = db.fieldCount := h.widths e (List.mem_of_mem_filter (List.mem_of_mem_take he))
    have hget : (fun i => (Row.get e i).map checksum) = fun i => (checksum e.1 :: e.2.map checksum)[i]? := by
      funext i
      exact (List.getElem?_map ..).symm
    rw [hget, List.length_map, ← hwidth]
    exact mapM_getElem? _ (by simp)
  simp only [Sqlite.apply, h.selectFrom key hcount, Option.bind_eq_bind, Option.bind_some, mapM_eq_map hrow]
  rfl

/-- An operation has a result after which the table still mirrors the map, and
it is the result of the database exactly when the operation is harmless. -/
def Agrees (store : BTreeMap) (db : Sqlite) (op : Op) : Prop :=
  ∃ store' result db', store.apply op = some (store', result) ∧ db'.fieldCount = db.fieldCount ∧ Mirrors store' db' ∧
    (op.Harmless store → db.apply op = some (db', result)) ∧
    (¬op.Harmless store → ∀ db', db.apply op ≠ some (db', result))

theorem agrees_of_write {op : Op} (store' : BTreeMap) (result : Result) {db' : Sqlite} (hharmless : op.Harmless store)
    (hcount : db'.fieldCount = db.fieldCount) (h : Mirrors store' db') (hstore : store.apply op = some (store', result))
    (happly : db.apply op = some (db', result)) : Agrees store db op :=
  ⟨store', result, db', hstore, hcount, h, fun _ => happly, fun hnot => absurd hharmless hnot⟩

theorem agrees_read (h : Mirrors store db) (key : String) : Agrees store db (.read key) := by
  have hselect := h.selectKey key
  cases hget : store.map.get key with
  | none =>
    rw [hget] at hselect
    refine ⟨store, .notFound, db, by simp only [BTreeMap.apply, hget], rfl, h, fun _ => ?_, fun hnot => ?_⟩
    · simp [Sqlite.apply, hselect]
    · exact absurd (fun record hrecord => by rw [hget] at hrecord; cases hrecord) hnot
  | some record =>
    rw [hget] at hselect
    have happly : db.apply (.read key) = some (db, .readOk ((key :: record).take record.length)) := by
      have hcolumns := Row.mapM_get (key, record)
      rw [show (key, record).2.length = db.fieldCount from h.width hget] at hcolumns
      simp [Sqlite.apply, hselect, hcolumns, h.width hget]
    have hiff : (Op.read key).Harmless store ↔ (key :: record).take record.length = record := by
      rw [cons_take_eq_iff]
      refine ⟨fun hread => hread record hget, fun hread record' hget' => ?_⟩
      rw [hget] at hget'
      cases hget'
      exact hread
    refine ⟨store, .readOk record, db, by simp only [BTreeMap.apply, hget], rfl, h, fun hread => ?_, fun hnot db' heq => ?_⟩
    · rw [happly, hiff.mp hread]
    · rw [happly] at heq
      injection heq with heq
      injection heq with _ heq
      injection heq with heq
      exact hnot (hiff.mpr heq)

theorem agrees_scan (h : Mirrors store db) (key : String) (count : Nat) : Agrees store db (.scan key count) := by
  have hstore : store.apply (.scan key count) =
      some (store, .scanOk (((store.map.range key).take count).map fun e => e.2.map checksum)) := by
    rw [List.map_take]
    rfl
  refine ⟨store, _, db, hstore, rfl, h, fun hscan => ?_, fun hnot db' heq => hnot ?_⟩
  · rw [h.apply_scan key hscan.1, (forall_shifted_iff _).mp hscan.2]
  · by_cases hcount : count < 2 ^ 63
    · rw [h.apply_scan key hcount] at heq
      injection heq with heq
      injection heq with _ heq
      injection heq with heq
      exact ⟨hcount, (forall_shifted_iff _).mpr heq⟩
    · have hnone : db.selectFrom key count = none := if_neg hcount
      simp [Sqlite.apply, hnone] at heq

theorem agrees_update (h : Mirrors store db) (key : String) {field : Nat} (value : String) (hfield : field < db.fieldCount) :
    Agrees store db (.update key field value) := by
  obtain ⟨db', hupdate, hcount, hmirrors⟩ := h.updateField key value hfield
  cases hget : store.map.get key with
  | none =>
    rw [SortedMap.modify_of_none hget] at hmirrors
    refine agrees_of_write store .notFound trivial hcount hmirrors (by simp only [BTreeMap.apply, hget]) ?_
    simp [Sqlite.apply, hupdate, hget]
  | some record =>
    rw [← h.width hget] at hfield
    refine agrees_of_write _ .ok trivial hcount hmirrors (by simp only [BTreeMap.apply, hget, if_pos hfield]) ?_
    simp [Sqlite.apply, hupdate, hget]

theorem agrees_insert (h : Mirrors store db) {key : String} {values : List String} (hnew : store.map.get key = none)
    (hlen : values.length = db.fieldCount) : Agrees store db (.insert key values) := by
  obtain ⟨db', hinsert, hcount, hmirrors⟩ := h.insertRow hnew hlen
  refine agrees_of_write _ .ok trivial hcount hmirrors rfl ?_
  simp [Sqlite.apply, hinsert]

theorem agrees_delete (h : Mirrors store db) (key : String) : Agrees store db (.delete key) := by
  obtain ⟨hdelete, hcount, hmirrors⟩ := h.deleteKey key
  cases hget : store.map.get key with
  | none =>
    rw [SortedMap.remove_of_none hget] at hmirrors
    refine agrees_of_write store .notFound trivial hcount hmirrors (by simp only [BTreeMap.apply, hget]) ?_
    simp [Sqlite.apply, hdelete, hget]
  | some record =>
    refine agrees_of_write _ .ok trivial hcount hmirrors (by simp only [BTreeMap.apply, hget]) ?_
    simp [Sqlite.apply, hdelete, hget]

theorem step (h : Mirrors store db) {op : Op} (hvalid : op.Valid db.fieldCount store) : Agrees store db op := by
  cases op with
  | read key => exact agrees_read h key
  | scan key count => exact agrees_scan h key count
  | update key field value => exact agrees_update h key value hvalid
  | insert key values => exact agrees_insert h hvalid.1 hvalid.2
  | delete key => exact agrees_delete h key

/-! ## Sequences -/

theorem run_total (h : Mirrors store db) {ops : List Op} (hvalid : Each (fun store op => op.Valid db.fieldCount store) store ops) :
    ∃ results, run BTreeMap.apply store ops = some results := by
  induction ops generalizing store db with
  | nil => exact ⟨[], rfl⟩
  | cons op ops ih =>
    obtain ⟨store', result, db', hstore, hcount, hmirrors, _⟩ := h.step hvalid.1
    obtain ⟨results, hresults⟩ := ih hmirrors (by rw [hcount]; exact hvalid.2 store' result hstore)
    refine ⟨result :: results, ?_⟩
    simp [run, hstore, hresults]

theorem run_eq_iff (h : Mirrors store db) {ops : List Op} (hvalid : Each (fun store op => op.Valid db.fieldCount store) store ops) :
    run BTreeMap.apply store ops = run Sqlite.apply db ops ↔ Each (fun store op => op.Harmless store) store ops := by
  induction ops generalizing store db with
  | nil => exact ⟨fun _ => trivial, fun _ => rfl⟩
  | cons op ops ih =>
    obtain ⟨store', result, db', hstore, hcount, hmirrors, hsame, hother⟩ := h.step hvalid.1
    have hrest : Each (fun store op => op.Valid db'.fieldCount store) store' ops := by
      rw [hcount]
      exact hvalid.2 store' result hstore
    obtain ⟨results, hresults⟩ := run_total hmirrors hrest
    have hleft : run BTreeMap.apply store (op :: ops) = some (result :: results) := by simp [run, hstore, hresults]
    rw [hleft, each_cons hstore]
    by_cases hop : op.Harmless store
    · have hright : run Sqlite.apply db (op :: ops) = (run Sqlite.apply db' ops).map (result :: ·) := by
        simp only [run, hsame hop, Option.bind_eq_bind, Option.bind_some]
        cases run Sqlite.apply db' ops <;> rfl
      rw [hright, ← ih hmirrors hrest, hresults]
      cases run Sqlite.apply db' ops with
      | none => simp
      | some results' => simp [hop]
    · refine ⟨fun heq => ?_, fun hall => absurd hall.1 hop⟩
      obtain ⟨⟨db₁, result₁⟩, happly, heq⟩ := Option.bind_eq_some_iff.mp heq.symm
      obtain ⟨results₁, _, heq⟩ := Option.bind_eq_some_iff.mp heq
      cases heq
      exact absurd happly (hother hop db₁)

end Mirrors

end

/-- For valid operations, the two stores give the same results exactly when
each read and scan is harmless. -/
theorem stores_agree_iff [FxHasher] (fieldCount : Nat) (hfields : 1 ≤ fieldCount) (ops : List Op)
    (hvalid : Each (fun store op => op.Valid fieldCount store) .new ops) :
    run BTreeMap.apply .new ops = (Sqlite.new fieldCount).bind (fun db => run Sqlite.apply db ops) ↔
      Each (fun store op => op.Harmless store) .new ops := by
  rw [Sqlite.new, if_neg (Nat.ne_of_gt hfields)]
  have hnew : Mirrors .new ⟨[], fieldCount⟩ := ⟨.nil, fun _ he => absurd he List.not_mem_nil⟩
  exact hnew.run_eq_iff hvalid

/-- A record with its key in both fields is read as it is by both stores. -/
theorem stores_agree_iff_key : letI : FxHasher := ⟨fun _ => 0⟩
    run BTreeMap.apply .new [.insert "a" ["a", "a"], .read "a", .delete "b"] =
      (Sqlite.new 2).bind fun db => run Sqlite.apply db [.insert "a" ["a", "a"], .read "a", .delete "b"] := by
  let : FxHasher := ⟨fun _ => 0⟩
  have hinsert : BTreeMap.new.apply (.insert "a" ["a", "a"]) = some (_, .ok) := rfl
  have hget : (BTreeMap.new.map.insert "a" ["a", "a"]).get "a" = some ["a", "a"] := by decide +kernel
  refine (stores_agree_iff 2 (by decide) _ ?_).mpr ?_
  · refine (each_cons hinsert).mpr ⟨⟨rfl, rfl⟩, trivial, fun _ _ _ => ⟨trivial, fun _ _ _ => trivial⟩⟩
  · refine (each_cons hinsert).mpr ⟨trivial, fun record hrecord => ?_, fun _ _ _ => ⟨trivial, fun _ _ _ => trivial⟩⟩
    rw [hget] at hrecord
    cases hrecord
    simp

/-- A record of one field is read as its key. -/
theorem stores_disagree : letI : FxHasher := ⟨fun _ => 0⟩
    Each (fun store op => op.Valid 1 store) .new [.insert "a" ["b"], .read "a"] ∧
      run BTreeMap.apply .new [.insert "a" ["b"], .read "a"] = some [.ok, .readOk ["b"]] ∧
      ((Sqlite.new 1).bind fun db => run Sqlite.apply db [.insert "a" ["b"], .read "a"]) = some [.ok, .readOk ["a"]] := by
  refine ⟨⟨⟨rfl, rfl⟩, fun _ _ _ => ⟨trivial, fun _ _ _ => trivial⟩⟩, by decide +kernel, by decide +kernel⟩

end Neatworks.Ycsb
