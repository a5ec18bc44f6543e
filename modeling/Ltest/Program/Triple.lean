import Mathlib.Tactic.Common

/-!
# Pre- and postconditions of `EStateM` programs

A program of `EStateM E S` returns a value or stops with an error, and keeps the state it had got to in both cases.
`Triple P m Q X` says that from a state in `P` the program `m` returns with `Q` or stops with `X`. The rules follow the
program: `bind` for a sequence, one rule for each operation on the state.
-/

namespace Program

variable {E S A B : Type}

/-! ## Running a program -/

section Run

variable {s : S}

@[simp] theorem run_bind (m : EStateM E S A) (f : A → EStateM E S B) : (m >>= f) s =
    match m s with
    | .ok a s => f a s
    | .error e s => .error e s := rfl

@[simp] theorem run_pure (a : A) : (pure a : EStateM E S A) s = .ok a s := rfl

@[simp] theorem run_get : (get : EStateM E S S) s = .ok s s := rfl

@[simp] theorem run_modify (f : S → S) : (modify f : EStateM E S PUnit) s = .ok ⟨⟩ (f s) := rfl

@[simp] theorem run_throw (e : E) : (throw e : EStateM E S A) s = .error e s := rfl

@[simp] theorem run_ite {c : Prop} [Decidable c] (m m' : EStateM E S A) :
    (if c then m else m') s = if c then m s else m' s := by
  split <;> rfl

end Run

/-! ## Programs without a state -/

section Except

@[simp] theorem ok_bind (a : A) (f : A → Except E B) : (Except.ok a >>= f) = f a := rfl

@[simp] theorem error_bind (e : E) (f : A → Except E B) : (Except.error e >>= f) = .error e := rfl

/-- A sequence returns when both parts do. -/
theorem bind_eq_ok {x : Except E A} {f : A → Except E B} {b : B} :
    (x >>= f) = .ok b ↔ ∃ a, x = .ok a ∧ f a = .ok b := by
  cases x with
  | error e => simp
  | ok a => simp

theorem map_eq_ok {x : Except E A} {f : A → B} {b : B} : x.map f = .ok b ↔ ∃ a, x = .ok a ∧ f a = b := by
  cases x <;> simp [Except.map]

theorem map_eq_error {x : Except E A} {f : A → B} {e : E} : x.map f = .error e ↔ x = .error e := by
  cases x <;> simp [Except.map]

/-- A program returns with `Q` or stops with `X`. -/
def Returns (Q : A → Prop) (X : E → Prop) : Except E A → Prop
  | .ok a => Q a
  | .error e => X e

theorem Returns.mono {x : Except E A} {Q Q' : A → Prop} {X : E → Prop} (hx : Returns Q X x) (h : ∀ a, Q a → Q' a) :
    Returns Q' X x := by
  cases x with
  | error e => exact hx
  | ok a => exact h a hx

theorem Returns.bind {x : Except E A} {f : A → Except E B} {R : A → Prop} {Q : B → Prop} {X : E → Prop}
    (hx : Returns R X x) (hf : ∀ a, R a → Returns Q X (f a)) : Returns Q X (x >>= f) := by
  cases x with
  | error e => exact hx
  | ok a => exact hf a hx

theorem Returns.of_ok {x : Except E A} {Q : A → Prop} {X : E → Prop} {a : A} (hx : Returns Q X x) (h : x = .ok a) :
    Q a := by
  rw [h] at hx
  exact hx

theorem Returns.of_error {x : Except E A} {Q : A → Prop} {X : E → Prop} {e : E} (hx : Returns Q X x)
    (h : x = .error e) : X e := by
  rw [h] at hx
  exact hx

/-- What is computed from the outcome of a program that returns. -/
theorem ok_of_toOption {x : Except E A} {f : A → B} {b : B} (h : x.toOption.map f = some b) : ∃ a, x = .ok a ∧ f a = b := by
  cases x with
  | error e => cases h
  | ok a => exact ⟨a, rfl, Option.some.inj h⟩

/-- A program that returns nothing. -/
theorem none_of_toOption {x : Except E (Option A × B)} (h : x.toOption.map (fun r => r.1.isNone) = some true) :
    ∃ b, x = .ok (none, b) := by
  obtain ⟨⟨r, b⟩, hx, hr⟩ := ok_of_toOption h
  obtain rfl := Option.isNone_iff_eq_none.1 hr
  exact ⟨b, hx⟩

end Except

/-! ## Outcomes -/

/-- The value that a program returns. -/
def returned : EStateM.Result E S A → Option A
  | .ok a _ => some a
  | .error _ _ => none

/-- The error that a program stops with. -/
def stopped : EStateM.Result E S A → Option E
  | .ok _ _ => none
  | .error e _ => some e

/-- The state that a program leaves. -/
def final : EStateM.Result E S A → S
  | .ok _ s => s
  | .error _ s => s

theorem returned_eq_some {r : EStateM.Result E S A} {a : A} : returned r = some a ↔ r = .ok a (final r) := by
  cases r <;> simp [returned, final]

/-- The outcome of a program satisfies `Q` when it is a value, `X` when it is an error. -/
def Meets (Q : A → S → Prop) (X : E → S → Prop) : EStateM.Result E S A → Prop
  | .ok a s => Q a s
  | .error e s => X e s

/-- From a state in `P` the program returns with `Q` or stops with `X`. -/
def Triple (P : S → Prop) (m : EStateM E S A) (Q : A → S → Prop) (X : E → S → Prop) : Prop :=
  ∀ s, P s → Meets Q X (m s)

namespace Triple

variable {P P' : S → Prop} {m : EStateM E S A} {Q Q' : A → S → Prop} {X : E → S → Prop}

theorem weaken {X' : E → S → Prop} (h : Triple P m Q X) (hP : ∀ s, P' s → P s) (hQ : ∀ a s, Q a s → Q' a s)
    (hX : ∀ e s, X e s → X' e s) : Triple P' m Q' X' := by
  intro s hs
  have hm := h s (hP s hs)
  revert hm
  cases m s with
  | ok a s => exact hQ a s
  | error e s => exact hX e s

/-- A sequence: the postcondition of the first program is the precondition of the rest. -/
theorem bind {f : A → EStateM E S B} {R : A → S → Prop} {Q : B → S → Prop} (hm : Triple P m R X)
    (hf : ∀ a, Triple (R a) (f a) Q X) : Triple P (m >>= f) Q X := by
  intro s hs
  have hm := hm s hs
  change Meets Q X (EStateM.bind m f s)
  unfold EStateM.bind
  revert hm
  cases m s with
  | ok a s => exact fun hm => hf a s hm
  | error e s => exact id

theorem pure {a : A} (h : ∀ s, P s → Q a s) : Triple P (Pure.pure a) Q X := h

theorem throw {e : E} (h : ∀ s, P s → X e s) : Triple P (MonadExcept.throw e : EStateM E S A) Q X := h

theorem update {f : S → S} {Q : PUnit → S → Prop} (h : ∀ s, P s → Q ⟨⟩ (f s)) : Triple P (modify f) Q X := h

/-- Reading the state: the rest may use that it is run from the state that was read. -/
theorem read {f : S → EStateM E S A} (h : ∀ s₀, Triple (fun s => s = s₀ ∧ P s) (f s₀) Q X) :
    Triple P (get >>= f) Q X :=
  fun s hs => h s s ⟨rfl, hs⟩

/-- Reading the state, where only the precondition matters. -/
theorem look {f : S → EStateM E S A} (h : ∀ s₀, Triple P (f s₀) Q X) : Triple P (get >>= f) Q X :=
  fun s hs => h s s hs

theorem ite {c : Prop} [Decidable c] {m' : EStateM E S A} (ht : c → Triple P m Q X) (he : ¬c → Triple P m' Q X) :
    Triple P (if c then m else m') Q X := by
  split
  · exact ht ‹_›
  · exact he ‹_›

end Triple

end Program
