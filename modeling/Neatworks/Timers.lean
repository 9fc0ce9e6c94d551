import Mathlib.Data.List.Induction
import Mathlib.Data.List.Nodup
import Mathlib.Logic.Function.Basic

/-!
# Live timers

A component that sets and unsets timers keeps the ids of the live ones in
tables of its own. `Mirrors` says that the timers that are live are those of the
tables, one for each key, and its rules follow the calls one by one.
-/

namespace Neatworks

inductive TimerCall (ι Q : Type*)
  | set (id : ι) (event : Q)
  | unset (id : ι)

namespace TimerCall

section
variable {ι Q κ : Type*}

def setId : TimerCall ι Q → Option ι
  | .set id _ => some id
  | .unset _ => none

/-- The ids that `set` has returned. -/
def handedOut (calls : List (TimerCall ι Q)) : List ι := calls.filterMap setId

@[simp] theorem handedOut_append (calls calls' : List (TimerCall ι Q)) :
    handedOut (calls ++ calls') = handedOut calls ++ handedOut calls' := List.filterMap_append ..

/-- The live timers are those of the table, and each is for its key. -/
structure Mirrors (key : Q → κ) (live : List (ι × Q)) (table : κ → Option ι) : Prop where
  ids : (live.map Prod.fst).Nodup
  keys : (live.map fun e => key e.2).Nodup
  mem : ∀ k id, table k = some id ↔ ∃ event, key event = k ∧ (id, event) ∈ live

section
variable {key : Q → κ} {live : List (ι × Q)} {table : κ → Option ι}

theorem Mirrors.empty : Mirrors key ([] : List (ι × Q)) fun _ => none := ⟨List.nodup_nil, List.nodup_nil, by simp⟩

theorem Mirrors.inj (h : Mirrors key live table) {k k' : κ} {id : ι} (hk : table k = some id)
    (hk' : table k' = some id) : k = k' := by
  obtain ⟨event, rfl, hmem⟩ := (h.mem k id).mp hk
  obtain ⟨event', rfl, hmem'⟩ := (h.mem k' id).mp hk'
  have heq := List.inj_on_of_nodup_map h.ids hmem hmem' rfl
  cases heq
  rfl

theorem Mirrors.set [DecidableEq κ] (h : Mirrors key live table) {id : ι} {event : Q} (hid : id ∉ live.map Prod.fst)
    (hnone : table (key event) = none) : Mirrors key (live ++ [(id, event)]) (Function.update table (key event) (some id)) := by
  have hkey : key event ∉ live.map fun e => key e.2 := by
    intro hmem
    obtain ⟨e, he, heq⟩ := List.mem_map.mp hmem
    have hsome := (h.mem (key event) e.1).mpr ⟨e.2, heq, he⟩
    rw [hnone] at hsome
    cases hsome
  constructor
  case ids =>
    rw [List.map_append, List.map_singleton, ← List.concat_eq_append]
    exact h.ids.concat hid
  case keys =>
    rw [List.map_append, List.map_singleton, ← List.concat_eq_append]
    exact h.keys.concat hkey
  case mem =>
    intro k id'
    by_cases hk : k = key event
    · subst hk
      rw [Function.update_self]
      constructor
      · intro heq
        cases heq
        exact ⟨event, rfl, by simp⟩
      · rintro ⟨event', heq, hmem⟩
        rcases List.mem_append.mp hmem with hmem | hmem
        · exact absurd (List.mem_map.mpr ⟨_, hmem, heq⟩) hkey
        · simp at hmem
          rw [hmem.1]
    · rw [Function.update_of_ne hk, h.mem]
      constructor
      · rintro ⟨event', heq, hmem⟩
        exact ⟨event', heq, List.mem_append_left _ hmem⟩
      · rintro ⟨event', heq, hmem⟩
        rcases List.mem_append.mp hmem with hmem | hmem
        · exact ⟨event', heq, hmem⟩
        · simp at hmem
          rw [hmem.2] at heq
          exact absurd heq.symm hk

end

variable [DecidableEq ι]

def note (live : List (ι × Q)) : TimerCall ι Q → List (ι × Q)
  | .set id event => live ++ [(id, event)]
  | .unset id => live.filter fun e => e.1 ≠ id

/-- The timers that have been set and not unset since. -/
def live (calls : List (TimerCall ι Q)) : List (ι × Q) := calls.foldl note []

variable {calls : List (TimerCall ι Q)}

theorem live_set (id : ι) (event : Q) : live (calls ++ [.set id event]) = live calls ++ [(id, event)] := by
  simp [live, note]

theorem live_unset (id : ι) : live (calls ++ [.unset id]) = (live calls).filter fun e => e.1 ≠ id := by
  simp [live, note]

theorem live_unset_all (ids : List ι) : live (calls ++ ids.map .unset) = (live calls).filter fun e => e.1 ∉ ids := by
  induction ids generalizing calls with
  | nil => simp
  | cons id ids ih =>
    have hsplit : calls ++ (id :: ids).map .unset = (calls ++ [.unset id]) ++ ids.map .unset := by simp
    rw [hsplit, ih, live_unset, List.filter_filter]
    apply List.filter_congr
    intro e _
    simp [Bool.and_comm]

theorem mem_handedOut {e : ι × Q} (h : e ∈ live calls) : e.1 ∈ handedOut calls := by
  induction calls using List.reverseRecOn with
  | nil => simp [live] at h
  | append_singleton calls call ih =>
    rw [handedOut_append, List.mem_append]
    cases call with
    | set id event =>
      rw [live_set, List.mem_append] at h
      rcases h with h | h
      · exact Or.inl (ih h)
      · rw [List.mem_singleton.mp h]
        exact Or.inr (by simp [handedOut, setId])
    | unset id =>
      rw [live_unset] at h
      exact Or.inl (ih (List.mem_filter.mp h).1)

namespace Mirrors

variable {key : Q → κ} {live : List (ι × Q)} {table : κ → Option ι}

theorem unset (h : Mirrors key live table) (ids : List ι) :
    Mirrors key (live.filter fun e => e.1 ∉ ids) fun k => (table k).filter fun id => id ∉ ids := by
  constructor
  case ids => exact h.ids.sublist (List.filter_sublist.map _)
  case keys => exact h.keys.sublist (List.filter_sublist.map _)
  case mem =>
    intro k id
    simp only [Option.filter_eq_some_iff, h.mem, List.mem_filter, decide_eq_true_eq]
    constructor
    · rintro ⟨⟨event, heq, hmem⟩, hid⟩
      exact ⟨event, heq, hmem, hid⟩
    · rintro ⟨event, heq, hmem, hid⟩
      exact ⟨⟨event, heq, hmem⟩, hid⟩

theorem unset_keys (h : Mirrors key live table) {p : κ → Prop} [DecidablePred p] {ids : List ι}
    (hids : ∀ id, id ∈ ids ↔ ∃ k, p k ∧ table k = some id) :
    Mirrors key (live.filter fun e => e.1 ∉ ids) fun k => if p k then none else table k := by
  convert h.unset ids using 1
  funext k
  cases hk : table k with
  | none => simp
  | some id =>
    have hmem : id ∈ ids ↔ p k := by
      rw [hids]
      constructor
      · rintro ⟨k', hp, hk'⟩
        rwa [h.inj hk hk']
      · exact fun hp => ⟨k, hp, hk⟩
    by_cases hp : p k
    · simp [hp, hmem.mpr hp, Option.filter_some]
    · simp [hp, mt hmem.mp hp, Option.filter_some]

end Mirrors

/-- As long as no id is handed out twice, the live timers are those of the table. -/
def Follows (key : Q → κ) (calls : List (TimerCall ι Q)) (table : κ → Option ι) : Prop :=
  (handedOut calls).Nodup → Mirrors key (live calls) table

namespace Follows

variable {key : Q → κ} {table : κ → Option ι}

theorem nil : Follows key ([] : List (TimerCall ι Q)) fun _ => none := fun _ => .empty

theorem before {calls' : List (TimerCall ι Q)} (h : Follows key calls table) (hnodup : (handedOut (calls ++ calls')).Nodup) :
    Mirrors key (live calls) table := by
  rw [handedOut_append] at hnodup
  exact h (List.nodup_append.mp hnodup).1

theorem set [DecidableEq κ] (h : Follows key calls table) {id : ι} {event : Q} (hnone : table (key event) = none) :
    Follows key (calls ++ [.set id event]) (Function.update table (key event) (some id)) := by
  intro hnodup
  rw [live_set]
  refine (h.before hnodup).set (fun hmem => ?_) hnone
  obtain ⟨e, he, rfl⟩ := List.mem_map.mp hmem
  rw [handedOut_append] at hnodup
  exact (List.nodup_append.mp hnodup).2.2 _ (mem_handedOut he) _ (by simp [handedOut, setId]) rfl

theorem unset_keys (h : Follows key calls table) {p : κ → Prop} [DecidablePred p] {ids : List ι}
    (hids : ∀ id, id ∈ ids ↔ ∃ k, p k ∧ table k = some id) :
    Follows key (calls ++ ids.map .unset) fun k => if p k then none else table k := by
  intro hnodup
  rw [live_unset_all]
  exact (h.before hnodup).unset_keys hids

theorem unset [DecidableEq κ] (h : Follows key calls table) {k : κ} {id : ι} (hk : table k = some id) :
    Follows key (calls ++ [.unset id]) (Function.update table k none) := by
  have hids : ∀ id', id' ∈ [id] ↔ ∃ k', k' = k ∧ table k' = some id' := fun id' => by simp [hk, eq_comm]
  have htable : Function.update table k none = fun k' => if k' = k then none else table k' := by
    funext k'
    rw [Function.update_apply]
  rw [htable]
  exact h.unset_keys hids

end Follows

end

end TimerCall

end Neatworks
