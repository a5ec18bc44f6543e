import Mathlib.Tactic.Common

/-!
# Wrapped values (`value_wrapper.h`)

A result is a `std::any` together with the comparator of the type it was wrapped at, and `==` is the comparator of the
left operand. The default comparator casts both operands to its type, so it raises `bad_any_cast` on a payload of another
type, whereas the comparator of `void_v` holds of everything. So two wrapped values can be compared both ways exactly if
their payloads have the same type (`Wrapped.lawful_iff`).
-/

namespace Ltest

/-- The types that are wrapped, with their `operator==`. -/
structure PayloadTypes where
  Id : Type
  [decEq : DecidableEq Id]
  Value : Id → Type
  equal : (t : Id) → Value t → Value t → Bool
  equal_comm : ∀ t v v', equal t v v' = equal t v' v
  equal_trans : ∀ t v v' v'', equal t v v' = true → equal t v' v'' = true → equal t v v'' = true

attribute [instance] PayloadTypes.decEq

variable {P : PayloadTypes}

/-- The payload of a `std::any` that has one: `Void{}`, or a value of some type. -/
inductive Payload (P : PayloadTypes) where
  | void
  | of (t : P.Id) (v : P.Value t)

/-- What comparing may raise. -/
inductive WrapperError where
  | badAnyCast
  | badFunctionCall
  deriving Repr, DecidableEq

/-- `CompFunc`. A comparator only sees the payloads of its arguments. -/
abbrev CompFunc (P : PayloadTypes) := Option (Payload P) → Option (Payload P) → Except WrapperError Bool

structure ValueWrapper (P : PayloadTypes) where
  value : Option (Payload P) := none
  compare : Option (CompFunc P) := none

/-- `GetValue`, that is `std::any_cast`. -/
def getValue (t : P.Id) : Option (Payload P) → Except WrapperError (P.Value t)
  | some (.of t' v) => if h : t' = t then .ok (h ▸ v) else .error .badAnyCast
  | _ => .error .badAnyCast

/-- `GetDefaultCompator`. -/
def getDefaultCompator (t : P.Id) : CompFunc P := fun a b =>
  if a.isSome != b.isSome then .ok false
  else if !a.isSome && !b.isSome then .ok true
  else do
    let l ← getValue t a
    let r ← getValue t b
    return P.equal t l r

namespace ValueWrapper

/-- The constructor, with the default comparator. -/
def wrap (t : P.Id) (v : P.Value t) : ValueWrapper P := ⟨some (.of t v), some (getDefaultCompator t)⟩

/-- `void_v`. -/
def voidV : ValueWrapper P := ⟨some .void, some fun _ _ => .ok true⟩

/-- `operator==`. -/
def equal (a other : ValueWrapper P) : Except WrapperError Bool :=
  match a.compare with
  | none => .error .badFunctionCall
  | some compare => compare a.value other.value

/-- A value wrapped with the default comparator, or `void_v`. -/
inductive Wrapped : ValueWrapper P → Prop
  | wrap (t : P.Id) (v : P.Value t) : Wrapped (wrap t v)
  | void : Wrapped voidV

/-- The type of the payload; `Void` is `some none`. -/
def typeId (a : ValueWrapper P) : Option (Option P.Id) :=
  a.value.map fun
    | .void => none
    | .of t _ => some t

/-! ## Comparing -/

section Equal

variable {a b c : ValueWrapper P} {t t' : P.Id} (v : P.Value t) (v' : P.Value t')

theorem equal_voidV (a : ValueWrapper P) : voidV.equal a = .ok true := rfl

theorem equal_wrap (w : P.Value t) : (wrap t v).equal (wrap t w) = .ok (P.equal t v w) := by
  simp [equal, wrap, getDefaultCompator, getValue, bind, Except.bind, pure, Except.pure]

theorem equal_wrap_ne (h : t' ≠ t) : (wrap t v).equal (wrap t' v') = .error .badAnyCast := by
  simp [equal, wrap, getDefaultCompator, getValue, bind, Except.bind, h]

theorem equal_wrap_voidV : (wrap t v).equal voidV = .error .badAnyCast := by
  simp [equal, wrap, voidV, getDefaultCompator, getValue, bind, Except.bind]

@[simp] theorem typeId_wrap : (wrap t v).typeId = some (some t) := rfl

@[simp] theorem typeId_voidV : (voidV : ValueWrapper P).typeId = some none := rfl

/-- Values of one type can be compared both ways. -/
theorem Wrapped.equal_comm (ha : a.Wrapped) (hb : b.Wrapped) (h : a.typeId = b.typeId) :
    ∃ r, a.equal b = .ok r ∧ b.equal a = .ok r := by
  cases ha with
  | wrap t v =>
    cases hb with
    | wrap t' v' =>
      obtain rfl : t = t' := by simpa using h
      exact ⟨_, equal_wrap v v', by rw [equal_wrap, P.equal_comm]⟩
    | void => cases h
  | void =>
    cases hb with
    | wrap t' v' => cases h
    | void => exact ⟨true, rfl, rfl⟩

/-- Values of two types cannot: the default comparator of one of them is given the payload of the other. -/
theorem Wrapped.typeId_eq (ha : a.Wrapped) (hb : b.Wrapped) {r r' : Bool} (h : a.equal b = .ok r)
    (h' : b.equal a = .ok r') : a.typeId = b.typeId := by
  cases ha with
  | wrap t v =>
    cases hb with
    | wrap t' v' =>
      by_contra hne
      have hne : t' ≠ t := fun heq => hne (by simp [heq])
      rw [equal_wrap_ne v v' hne] at h
      cases h
    | void =>
      rw [equal_wrap_voidV] at h
      cases h
  | void =>
    cases hb with
    | wrap t' v' =>
      rw [equal_wrap_voidV] at h'
      cases h'
    | void => rfl

/-- The payload on the right of a comparison that holds has the type of the one on the left, unless that is `Void`. -/
theorem equal_trans (ha : a.Wrapped) (hb : b.Wrapped) (hc : c.Wrapped) (hab : a.equal b = .ok true)
    (hbc : b.equal c = .ok true) : a.equal c = .ok true := by
  cases ha with
  | void => rfl
  | wrap t v =>
    cases hb with
    | void =>
      rw [equal_wrap_voidV] at hab
      cases hab
    | wrap t' v' =>
      obtain rfl | hne := eq_or_ne t' t
      · cases hc with
        | void =>
          rw [equal_wrap_voidV] at hbc
          cases hbc
        | wrap t'' v'' =>
          obtain rfl | hne := eq_or_ne t'' t'
          · rw [equal_wrap, Except.ok.injEq] at hab hbc ⊢
            exact P.equal_trans _ _ _ _ hab hbc
          · rw [equal_wrap_ne v' v'' hne] at hbc
            cases hbc
      · rw [equal_wrap_ne v v' hne] at hab
        cases hab

end Equal

end ValueWrapper

end Ltest
