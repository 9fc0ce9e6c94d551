import Mathlib.Algebra.Group.Nat.Defs
import Mathlib.Data.Nat.Notation
import Mathlib.Data.List.Basic

/-!
# Self-delimiting encodings

An encoding is self-delimiting when what follows an encoded value can be told
from it. Encodings of one width are, and so is what is built from
self-delimiting ones field by field.
-/

namespace Neatworks

/-- The `w` low bytes of `n`, lowest first. -/
def leBytes : Nat → Nat → List UInt8
  | 0, _ => []
  | w + 1, n => UInt8.ofNat n :: leBytes w (n / 256)

@[simp] theorem leBytes_length (w n : Nat) : (leBytes w n).length = w := by
  induction w generalizing n with
  | zero => rfl
  | succ w ih => simp [leBytes, ih]

theorem leBytes_inj {w m n : Nat} (hm : m < 256 ^ w) (hn : n < 256 ^ w) (h : leBytes w m = leBytes w n) :
    m = n := by
  induction w generalizing m n with
  | zero => simp at hm hn; omega
  | succ w ih =>
    rw [Nat.pow_succ] at hm hn
    simp only [leBytes, List.cons.injEq] at h
    have hhead : m % 256 = n % 256 := by
      have := congrArg UInt8.toNat h.1
      simpa using this
    have htail : m / 256 = n / 256 :=
      ih (Nat.div_lt_of_lt_mul (by omega)) (Nat.div_lt_of_lt_mul (by omega)) h.2
    omega

/-- The number with these bytes, lowest first. -/
def leNat : List UInt8 → Nat
  | [] => 0
  | byte :: bytes => byte.toNat + 256 * leNat bytes

theorem leNat_lt (bytes : List UInt8) : leNat bytes < 256 ^ bytes.length := by
  induction bytes with
  | nil => simp [leNat]
  | cons byte bytes ih =>
    have := byte.toNat_lt
    rw [leNat, List.length_cons, Nat.pow_succ]
    omega

theorem leNat_append (bytes bytes' : List UInt8) :
    leNat (bytes ++ bytes') = leNat bytes + 256 ^ bytes.length * leNat bytes' := by
  induction bytes with
  | nil => simp [leNat]
  | cons byte bytes ih =>
    rw [List.cons_append, leNat, leNat, ih, List.length_cons, Nat.pow_succ, Nat.mul_add, Nat.add_assoc,
      Nat.mul_comm (256 ^ bytes.length) 256, Nat.mul_assoc]

theorem leNat_replicate_zero (n : Nat) : leNat (List.replicate n 0) = 0 := by
  induction n with
  | zero => rfl
  | succ n ih => simp [List.replicate_succ, leNat, ih]

theorem leBytes_leNat (bytes : List UInt8) : leBytes bytes.length (leNat bytes) = bytes := by
  induction bytes with
  | nil => rfl
  | cons byte bytes ih =>
    have hbyte := byte.toNat_lt
    have hmod : (byte.toNat + 256 * leNat bytes) / 256 = leNat bytes := by omega
    rw [List.length_cons, leBytes, leNat, hmod, ih]
    congr 1
    apply UInt8.toNat_inj.mp
    rw [UInt8.toNat_ofNat']
    omega

theorem leNat_leBytes (w n : Nat) : leNat (leBytes w n) = n % 256 ^ w := by
  induction w generalizing n with
  | zero => simp [leBytes, leNat, Nat.mod_one]
  | succ w ih =>
    have hpow : 256 ^ (w + 1) = 256 * 256 ^ w := Nat.pow_succ'
    rw [leBytes, leNat, ih, UInt8.toNat_ofNat', hpow, Nat.mod_mul]

/-- The `w` low bytes of `n`, highest first. -/
def beBytes (w n : Nat) : List UInt8 := (leBytes w n).reverse

/-- The number with these bytes, highest first. -/
def beNat (bytes : List UInt8) : Nat := leNat bytes.reverse

@[simp] theorem beBytes_length (w n : Nat) : (beBytes w n).length = w := by simp [beBytes]

theorem beNat_beBytes (w n : Nat) : beNat (beBytes w n) = n % 256 ^ w := by
  rw [beNat, beBytes, List.reverse_reverse, leNat_leBytes]

theorem beBytes_beNat (bytes : List UInt8) : beBytes bytes.length (beNat bytes) = bytes := by
  rw [beBytes, beNat, ← List.length_reverse, leBytes_leNat, List.reverse_reverse]

section
variable {α γ : Type*} {β : Type*}

def SelfDelimiting (enc : α → List β) : Prop :=
  ∀ a b r r', enc a ++ r = enc b ++ r' → a = b ∧ r = r'

/-- Self-delimiting on the values with a property. -/
def SelfDelimitingOn (P : α → Prop) (enc : α → List β) : Prop :=
  ∀ a b, P a → P b → ∀ r r', enc a ++ r = enc b ++ r' → a = b ∧ r = r'

/-- A sequence is told from its encodings one after the other. -/
theorem SelfDelimitingOn.flatMap_inj {P : α → Prop} {enc : α → List β} (h : SelfDelimitingOn P enc) (hne : ∀ a, enc a ≠ [])
    {l l' : List α} (hl : ∀ a ∈ l, P a) (hl' : ∀ a ∈ l', P a) (heq : l.flatMap enc = l'.flatMap enc) : l = l' := by
  have hempty (a : α) (l : List α) : (a :: l).flatMap enc ≠ [] := by
    rw [List.flatMap_cons]
    exact fun hnil => hne a (List.append_eq_nil_iff.mp hnil).1
  induction l generalizing l' with
  | nil =>
    cases l' with
    | nil => rfl
    | cons b l' => exact absurd heq.symm (hempty b l')
  | cons a l ih =>
    cases l' with
    | nil => exact absurd heq (hempty a l)
    | cons b l' =>
      obtain ⟨ha, hl⟩ := List.forall_mem_cons.mp hl
      obtain ⟨hb, hl'⟩ := List.forall_mem_cons.mp hl'
      rw [List.flatMap_cons, List.flatMap_cons] at heq
      obtain ⟨hab, hrest⟩ := h a b ha hb _ _ heq
      rw [hab, ih hl hl' hrest]

theorem SelfDelimiting.injective {enc : α → List β} (h : SelfDelimiting enc) {a b : α} (hab : enc a = enc b) :
    a = b :=
  (h a b [] [] (by rw [hab])).1

/-- An injective encoding of one width. -/
theorem SelfDelimiting.of_length {enc : α → List β} {w : Nat} (hlen : ∀ a, (enc a).length = w)
    (hinj : ∀ a b, enc a = enc b → a = b) : SelfDelimiting enc := by
  intro a b r r' h
  have := List.append_inj h ((hlen a).trans (hlen b).symm)
  exact ⟨hinj a b this.1, this.2⟩

end

/-! ## The bytes of a string -/

theorem toList_loop (bytes : ByteArray) (i : Nat) (acc : List UInt8) :
    ByteArray.toList.loop bytes i acc = acc.reverse ++ bytes.data.toList.drop i := by
  induction hleft : bytes.size - i generalizing i acc with
  | zero =>
    have hle : bytes.size ≤ i := Nat.le_of_sub_eq_zero hleft
    have hnil : bytes.data.toList.drop i = [] := List.drop_eq_nil_of_le hle
    rw [ByteArray.toList.loop, if_neg (Nat.not_lt.mpr hle), hnil, List.append_nil]
  | succ left ih =>
    have hlt : i < bytes.size := by omega
    have hcons : bytes.data.toList.drop i = bytes.get! i :: bytes.data.toList.drop (i + 1) := by
      rw [List.drop_eq_getElem_cons (show i < bytes.data.toList.length from hlt)]
      exact congrArg (· :: _) (getElem!_pos bytes.data i hlt).symm
    rw [ByteArray.toList.loop, if_pos hlt, ih (i + 1) _ (by omega), hcons, List.reverse_cons, List.append_assoc]
    rfl

theorem toList_toUTF8 (s : String) : s.toUTF8.toList = s.toUTF8.data.toList := toList_loop _ 0 []

theorem length_toUTF8 (s : String) : s.toUTF8.toList.length = s.utf8ByteSize := by
  rw [toList_toUTF8]
  rfl

theorem fromUTF8?_toUTF8 (s : String) : String.fromUTF8? ⟨s.toUTF8.toList.toArray⟩ = some s := by
  rw [toList_toUTF8, Array.toArray_toList]
  exact dif_pos s.isValidUTF8

end Neatworks
