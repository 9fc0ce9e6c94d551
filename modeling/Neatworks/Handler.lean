import Mathlib.Tactic.TypeStar

/-!
# Handlers with effects

The outcome of an event handler: it returns a value or fails, and in both
cases it has made its calls to the outside (sends, submitted jobs) in order.
A failed handler leaves no state behind: an error or a panic ends the session
that owns it. `Sat` is a postcondition for both cases, and its rules compute
the condition under which a handler meets it.
-/

namespace Neatworks

inductive Outcome (ε φ α : Type*) : Type _
  | ok (value : α) (effects : List ε)
  | fail (reason : φ) (effects : List ε)

namespace Outcome

universe u

section
variable {ε φ : Type*} {α β : Type u}

def bind (x : Outcome ε φ α) (f : α → Outcome ε φ β) : Outcome ε φ β :=
  match x with
  | .fail reason es => .fail reason es
  | .ok a es =>
    match f a with
    | .ok b es' => .ok b (es ++ es')
    | .fail reason es' => .fail reason (es ++ es')

instance : Monad (Outcome ε φ) where
  pure a := .ok a []
  bind := bind

def emit (e : ε) : Outcome ε φ Unit := .ok () [e]

def throw (reason : φ) : Outcome ε φ α := .fail reason []

/-- `assert!`. -/
def assert (p : Prop) [Decidable p] (reason : φ) : Outcome ε φ Unit :=
  if p then .ok () [] else .fail reason []

/-- A call that makes no calls itself. -/
def ofExcept : Except φ α → Outcome ε φ α
  | .ok a => .ok a []
  | .error reason => .fail reason []

/-- `Q` holds of the value and the effects, or the handler failed and `R`
holds of its effects. -/
def Sat (Q : α → List ε → Prop) (R : List ε → Prop) : Outcome ε φ α → Prop
  | .ok a es => Q a es
  | .fail _ es => R es

end

/-! ## The rules -/

section
variable {ε φ : Type*} {α β : Type u} {Q : α → List ε → Prop} {R : List ε → Prop}

@[simp] theorem sat_ok {a : α} {es : List ε} : (ok a es : Outcome ε φ α).Sat Q R ↔ Q a es := Iff.rfl

@[simp] theorem sat_fail {reason : φ} {es : List ε} : (fail reason es : Outcome ε φ α).Sat Q R ↔ R es := Iff.rfl

@[simp] theorem sat_pure {a : α} : (pure a : Outcome ε φ α).Sat Q R ↔ Q a [] := Iff.rfl

@[simp] theorem sat_throw {reason : φ} : (throw reason : Outcome ε φ α).Sat Q R ↔ R [] := Iff.rfl

@[simp] theorem sat_emit {Q : Unit → List ε → Prop} {e : ε} :
    (emit e : Outcome ε φ Unit).Sat Q R ↔ Q () [e] := Iff.rfl

@[simp] theorem sat_assert {Q : Unit → List ε → Prop} {p : Prop} [Decidable p] {reason : φ} :
    (assert p reason : Outcome ε φ Unit).Sat Q R ↔ (p → Q () []) ∧ (¬p → R []) := by
  by_cases h : p <;> simp [assert, h]

@[simp] theorem sat_bind {Q : β → List ε → Prop} {x : Outcome ε φ α} {f : α → Outcome ε φ β} :
    (x >>= f).Sat Q R ↔
      x.Sat (fun a es => (f a).Sat (fun b es' => Q b (es ++ es')) (fun es' => R (es ++ es'))) R := by
  cases x with
  | fail reason es => rfl
  | ok a es =>
    change (bind _ _).Sat Q R ↔ _
    simp only [bind, sat_ok]
    cases f a <;> rfl

@[simp] theorem sat_map {Q : β → List ε → Prop} {x : Outcome ε φ α} {f : α → β} :
    (f <$> x).Sat Q R ↔ x.Sat (fun a es => Q (f a) es) R := by
  change (x >>= fun a => pure (f a)).Sat Q R ↔ _
  simp

theorem sat_ite {p : Prop} [Decidable p] {x y : Outcome ε φ α} :
    (if p then x else y).Sat Q R ↔ (p → x.Sat Q R) ∧ (¬p → y.Sat Q R) := by
  by_cases h : p <;> simp [h]

theorem Sat.mono {Q' : α → List ε → Prop} {R' : List ε → Prop} {x : Outcome ε φ α} (hx : x.Sat Q R)
    (hQ : ∀ a es, Q a es → Q' a es) (hR : ∀ es, R es → R' es) : x.Sat Q' R' := by
  cases x with
  | ok a es => exact hQ a es hx
  | fail reason es => exact hR es hx

theorem Sat.trivial {x : Outcome ε φ α} : x.Sat (fun _ _ => True) fun _ => True := by
  cases x <;> exact True.intro

theorem Sat.and {Q' : α → List ε → Prop} {R' : List ε → Prop} {x : Outcome ε φ α} (h : x.Sat Q R)
    (h' : x.Sat Q' R') : x.Sat (fun a es => Q a es ∧ Q' a es) (fun es => R es ∧ R' es) := by
  cases x with
  | ok a es => exact ⟨h, h'⟩
  | fail reason es => exact ⟨h, h'⟩

/-- The rule of a loop: the effects so far are part of the invariant. -/
theorem sat_foldlM {ι : Type*} {I : α → List ε → Prop} {f : α → ι → Outcome ε φ α}
    (hstep : ∀ a es i, I a es → (f a i).Sat (fun b es' => I b (es ++ es')) fun es' => R (es ++ es')) {a : α}
    {es : List ε} (h : I a es) (is : List ι) :
    (is.foldlM f a).Sat (fun b es' => I b (es ++ es')) fun es' => R (es ++ es') := by
  induction is generalizing a es with
  | nil => simpa using h
  | cons i is ih =>
    rw [List.foldlM_cons, sat_bind]
    refine (hstep a es i h).mono (fun b es' hb => ?_) fun _ hes => hes
    simpa using ih hb

theorem sat_ofExcept {x : Except φ α} :
    (ofExcept x : Outcome ε φ α).Sat Q R ↔ (∀ a, x = .ok a → Q a []) ∧ (∀ reason, x = .error reason → R []) := by
  cases x <;> simp [ofExcept]

end

/-- The calls that a handler has made, whether or not it failed. -/
def effects {ε φ : Type*} {α : Type u} : Outcome ε φ α → List ε
  | .ok _ es => es
  | .fail _ es => es

theorem sat_effects {ε φ : Type*} {α : Type u} {x : Outcome ε φ α} {P : List ε → Prop} :
    x.Sat (fun _ es => P es) P ↔ P x.effects := by
  cases x <;> rfl

theorem effects_emit_bind {ε φ : Type*} {β : Type} {e : ε} {x : Outcome ε φ β} :
    (emit e >>= fun _ => x).effects = e :: x.effects := by
  change (bind _ _).effects = _
  cases x <;> rfl

/-! ## Reasons of failures -/

section
variable {ε φ : Type*} {α β : Type u}

/-- `Q` holds of the value and the effects, or the handler failed and `P` holds
of the reason. -/
def Post (Q : α → List ε → Prop) (P : φ → Prop) : Outcome ε φ α → Prop
  | .ok a es => Q a es
  | .fail reason _ => P reason

variable {Q : α → List ε → Prop} {P : φ → Prop}

@[simp] theorem post_ok {a : α} {es : List ε} : (ok a es : Outcome ε φ α).Post Q P ↔ Q a es := Iff.rfl

@[simp] theorem post_pure {a : α} : (pure a : Outcome ε φ α).Post Q P ↔ Q a [] := Iff.rfl

@[simp] theorem post_throw {reason : φ} : (throw reason : Outcome ε φ α).Post Q P ↔ P reason := Iff.rfl

@[simp] theorem post_emit {Q : Unit → List ε → Prop} {e : ε} :
    (emit e : Outcome ε φ Unit).Post Q P ↔ Q () [e] := Iff.rfl

@[simp] theorem post_assert {Q : Unit → List ε → Prop} {p : Prop} [Decidable p] {reason : φ} :
    (assert p reason : Outcome ε φ Unit).Post Q P ↔ (p → Q () []) ∧ (¬p → P reason) := by
  by_cases h : p <;> simp [assert, h, Post]

@[simp] theorem post_bind {Q : β → List ε → Prop} {x : Outcome ε φ α} {f : α → Outcome ε φ β} :
    (x >>= f).Post Q P ↔ x.Post (fun a es => (f a).Post (fun b es' => Q b (es ++ es')) P) P := by
  cases x with
  | fail reason es => rfl
  | ok a es =>
    change (bind _ _).Post Q P ↔ _
    simp only [bind, post_ok]
    cases f a <;> rfl

theorem post_ite {p : Prop} [Decidable p] {x y : Outcome ε φ α} :
    (if p then x else y).Post Q P ↔ (p → x.Post Q P) ∧ (¬p → y.Post Q P) := by
  by_cases h : p <;> simp [h]

theorem Post.mono {Q' : α → List ε → Prop} {x : Outcome ε φ α} (hx : x.Post Q P) (hQ : ∀ a es, Q a es → Q' a es) :
    x.Post Q' P := by
  cases x with
  | ok a es => exact hQ a es hx
  | fail reason es => exact hx

end

/-! ## Equations -/

section
variable {ε φ : Type*} {α β : Type u}

instance : LawfulMonad (Outcome ε φ) := LawfulMonad.mk' _
  (by
    intro α x
    change bind x (fun a => .ok a []) = x
    cases x <;> simp [bind])
  (by
    intro α β a f
    change bind (.ok a []) f = f a
    simp only [bind]
    cases f a <;> rfl)
  (by
    intro α β γ x f g
    change bind (bind x f) g = bind x fun a => bind (f a) g
    cases x with
    | fail reason es => rfl
    | ok a es =>
      simp only [bind]
      cases f a with
      | fail reason es' => rfl
      | ok b es' =>
        dsimp only
        cases g b <;> simp)

theorem bind_eq_ok {x : Outcome ε φ α} {f : α → Outcome ε φ β} {b : β} {es : List ε} :
    x >>= f = .ok b es ↔ ∃ a es₁ es₂, x = .ok a es₁ ∧ f a = .ok b es₂ ∧ es = es₁ ++ es₂ := by
  change bind x f = _ ↔ _
  cases x with
  | fail reason es' => simp [bind]
  | ok a es' =>
    simp only [bind]
    constructor
    · intro h
      cases hfa : f a with
      | ok b' es₂ =>
        rw [hfa] at h
        cases h
        exact ⟨a, es', es₂, rfl, hfa, rfl⟩
      | fail reason es₂ =>
        rw [hfa] at h
        cases h
    · intro ⟨a', es₁, es₂, ha, hfa, hes⟩
      cases ha
      rw [hfa, hes]

theorem exists_bind_eq_ok {x : Outcome ε φ α} {f : α → Outcome ε φ β} :
    (∃ b es, x >>= f = .ok b es) ↔ ∃ a es, x = .ok a es ∧ ∃ b es', f a = .ok b es' := by
  simp only [bind_eq_ok]
  constructor
  · intro ⟨b, _, a, es₁, es₂, hx, hf, _⟩
    exact ⟨a, es₁, hx, b, es₂, hf⟩
  · intro ⟨a, es₁, hx, b, es₂, hf⟩
    exact ⟨b, _, a, es₁, es₂, hx, hf, rfl⟩

@[simp] theorem ok_bind {f : α → Outcome ε φ β} {a : α} : (.ok a [] : Outcome ε φ α) >>= f = f a := pure_bind a f

theorem ok_bind_ok {f : α → Outcome ε φ β} {a : α} {b : β} {es es' : List ε} (h : f a = .ok b es') :
    (.ok a es : Outcome ε φ α) >>= f = .ok b (es ++ es') := by
  change bind _ _ = _
  simp only [bind, h]

theorem ok_bind_bind {f : α → Outcome ε φ β} {γ : Type u} {a : α} {c : γ} {es es' : List ε} {g : γ → Outcome ε φ β}
    (h : f a = .ok c es' >>= g) : (.ok a es : Outcome ε φ α) >>= f = .ok c (es ++ es') >>= g := by
  change bind _ _ = bind _ _
  have hfa : f a = bind (.ok c es') g := h
  simp only [bind, hfa]
  cases g c <;> simp

theorem bind_congr_of_sat {Q : α → List ε → Prop} {R : List ε → Prop} {x : Outcome ε φ α}
    {f g : α → Outcome ε φ β} (hx : x.Sat Q R) (hfg : ∀ a es, Q a es → f a = g a) : x >>= f = x >>= g := by
  cases x with
  | fail reason es => rfl
  | ok a es =>
    change bind _ _ = bind _ _
    simp only [bind, hfg a es hx]

end

end Outcome

end Neatworks
