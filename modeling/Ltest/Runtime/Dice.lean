import Mathlib.Data.List.Perm.Basic
import Mathlib.Data.List.Rotate
import Mathlib.Data.Rat.Defs
import Mathlib.Algebra.Order.Ring.Rat

/-!
# Random draws

The strategies and the minimizers draw from a `std::mt19937`. All that is used of a draw is the range it lies in, so a
generator is any state with functions that stay in their ranges, and a statement about all `Dice` is one about all random
draws.
-/

namespace Ltest

/-- What is drawn from a random generator. -/
structure Dice (γ : Type) where
  /-- `std::shuffle`. -/
  shuffle : ∀ {A : Type}, List A → γ → List A × γ
  /-- `std::uniform_int_distribution`. -/
  uniform : Nat → Nat → γ → Nat × γ
  /-- `std::discrete_distribution`. -/
  discrete : List Int → γ → Nat × γ
  /-- `std::uniform_real_distribution(0, 1)`. -/
  real : γ → ℚ × γ
  shuffle_perm : ∀ {A : Type} (l : List A) (g : γ), (shuffle l g).1.Perm l
  uniform_range : ∀ a b g, a ≤ b → a ≤ (uniform a b g).1 ∧ (uniform a b g).1 ≤ b
  discrete_range : ∀ weights g, (∀ w ∈ weights, 0 < w) → weights ≠ [] → (discrete weights g).1 < weights.length
  real_range : ∀ g, 0 ≤ (real g).1 ∧ (real g).1 < 1

/-- Draws that always give the same: nothing is shuffled and the least value is drawn. -/
def leastDice : Dice Unit where
  shuffle l g := (l, g)
  uniform a _ g := (a, g)
  discrete _ g := (0, g)
  real g := (0, g)
  shuffle_perm l _ := .refl l
  uniform_range a _ _ h := ⟨Nat.le_refl a, h⟩
  discrete_range _ _ _ h := List.length_pos_iff.2 h
  real_range _ := ⟨le_refl _, zero_lt_one⟩

/-- Draws that go round: a list is rotated, and the next value is drawn. -/
def cyclicDice : Dice Nat where
  shuffle l g := (l.rotate g, g + 1)
  uniform a b g := (a + g % (b + 1 - a), g + 1)
  discrete weights g := (g % weights.length, g + 1)
  real g := (0, g)
  shuffle_perm l g := List.rotate_perm l g
  uniform_range a b g h := by
    have hlt := Nat.mod_lt g (show 0 < b + 1 - a by omega)
    dsimp only
    omega
  discrete_range weights g _ h := Nat.mod_lt _ (List.length_pos_iff.2 h)
  real_range _ := ⟨le_refl _, zero_lt_one⟩

end Ltest
