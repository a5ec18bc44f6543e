import Mathlib.Data.List.Forall2
import Mathlib.Data.Option.Basic

/-!
# Depth-first search over a ranked space

A search space is a test `done` and an ordered list of moves at every node; a move is a successor or `none`, a failure
that ends the whole search. `dfs` tries the moves in order, with fuel:

* the fuel does not matter once it exceeds the rank of the node (`dfs_fuel`), so `dfs` satisfies its equation without
  fuel (`dfs_unfold`);
* without failures the search decides `Solvable`, the existence of a path to a finished node (`dfs_iff_solvable`);
* nodes that a simulation relates have the same verdict (`dfs_rel`). This is what makes a cache of refuted nodes sound
  when it compares nodes up to such a relation.
-/

namespace Dfs

variable {C : Type}

/-- The moves of a node, tried in order; the first verdict that is not `some false` is the verdict of the list. -/
def tryAll (sub : C → Option Bool) : List (Option C) → Option Bool
  | [] => some false
  | none :: _ => none
  | some c :: ms =>
    match sub c with
    | some false => tryAll sub ms
    | r => r

/-- The search: `some b` is a verdict, `none` a failure (or not enough fuel). -/
def dfs (done : C → Bool) (moves : C → List (Option C)) : Nat → C → Option Bool
  | 0, _ => none
  | n + 1, c => if done c then some true else tryAll (dfs done moves n) (moves c)

theorem tryAll_congr {f g : C → Option Bool} : ∀ {ms : List (Option C)}, (∀ c, some c ∈ ms → f c = g c) →
    tryAll f ms = tryAll g ms
  | [], _ => rfl
  | none :: _, _ => rfl
  | some c :: ms, h => by
    simp only [tryAll, h c List.mem_cons_self, tryAll_congr (fun c' hc' => h c' (List.mem_cons_of_mem _ hc'))]

/-- A refuted move does not change the verdict of the moves after it. -/
theorem tryAll_cons_false {f : C → Option Bool} {c : C} (h : f c = some false) (ms : List (Option C)) :
    tryAll f (some c :: ms) = tryAll f ms := by
  simp only [tryAll, h]

/-- A list of moves is not refuted when its first move is not. -/
theorem tryAll_cons_ne {f : C → Option Bool} {c : C} (h : f c ≠ some false) (ms : List (Option C)) :
    tryAll f (some c :: ms) = f c := by
  simp only [tryAll]

section Ranked

variable (done : C → Bool) (moves : C → List (Option C))

/-- Moves stay inside `Inv` and strictly lower the rank. -/
def Ranked (Inv : C → Prop) (rank : C → Nat) : Prop :=
  ∀ c, Inv c → ∀ c', some c' ∈ moves c → Inv c' ∧ rank c' < rank c

variable {done moves} {Inv : C → Prop} {rank : C → Nat}

/-- Fuel above the rank is enough. -/
theorem dfs_fuel (hr : Ranked moves Inv rank) : ∀ {n m : Nat} {c : C}, Inv c → rank c < n → rank c < m →
    dfs done moves n c = dfs done moves m c
  | 0, _, _, _, h, _ | _, 0, _, _, _, h => absurd h (Nat.not_lt_zero _)
  | n + 1, m + 1, c, hc, hn, hm => by
    simp only [dfs]
    rw [tryAll_congr fun c' hc' => ?_]
    obtain ⟨hi, hlt⟩ := hr c hc c' hc'
    exact dfs_fuel hr hi (by omega) (by omega)

/-- The equation of the search, with one and the same fuel on both sides. -/
theorem dfs_unfold (hr : Ranked moves Inv rank) {n : Nat} {c : C} (hc : Inv c) (hn : rank c < n) :
    dfs done moves n c = if done c then some true else tryAll (dfs done moves n) (moves c) := by
  cases n with
  | zero => exact absurd hn (Nat.not_lt_zero _)
  | succ n =>
    have hsub : tryAll (dfs done moves n) (moves c) = tryAll (dfs done moves (n + 1)) (moves c) :=
      tryAll_congr fun c' hc' => dfs_fuel hr (hr c hc c' hc').1 (by have := (hr c hc c' hc').2; omega)
        (by have := (hr c hc c' hc').2; omega)
    rw [← hsub]
    rfl

end Ranked

/-! ## Solvable nodes -/

/-- A finished node is reachable. -/
inductive Solvable (done : C → Bool) (moves : C → List (Option C)) : C → Prop
  | done {c : C} : done c = true → Solvable done moves c
  | move {c c' : C} : some c' ∈ moves c → Solvable done moves c' → Solvable done moves c

section Solvable

variable {done : C → Bool} {moves : C → List (Option C)} {Inv : C → Prop}

theorem tryAll_eq_true {f : C → Option Bool} : ∀ {ms : List (Option C)}, tryAll f ms = some true →
    ∃ c, some c ∈ ms ∧ f c = some true
  | [], h => by cases h
  | none :: _, h => by cases h
  | some c :: ms, h => by
    by_cases hc : f c = some false
    · rw [tryAll_cons_false hc] at h
      obtain ⟨c', hm, hf⟩ := tryAll_eq_true h
      exact ⟨c', List.mem_cons_of_mem _ hm, hf⟩
    · rw [tryAll_cons_ne hc] at h
      exact ⟨c, List.mem_cons_self, h⟩

/-- Without failing moves, a list with a solved move is solved. -/
theorem tryAll_true {f : C → Option Bool} {c : C} : ∀ {ms : List (Option C)}, none ∉ ms →
    (∀ c', some c' ∈ ms → f c' ≠ none) → some c ∈ ms → f c = some true → tryAll f ms = some true
  | [], _, _, h, _ => by cases h
  | none :: _, hn, _, _, _ => absurd List.mem_cons_self hn
  | some d :: ms, hn, hd, hm, hc => by
    by_cases hf : f d = some false
    · rw [tryAll_cons_false hf]
      rcases List.mem_cons.mp hm with h | h
      · cases h; rw [hc] at hf; cases hf
      · exact tryAll_true (fun h' => hn (List.mem_cons_of_mem _ h'))
          (fun c' hc' => hd c' (List.mem_cons_of_mem _ hc')) h hc
    · rw [tryAll_cons_ne hf]
      have hne := hd d List.mem_cons_self
      revert hf hne
      cases f d with
      | none => exact fun _ h => absurd rfl h
      | some b => cases b with
        | false => exact fun h => absurd rfl h
        | true => exact fun _ _ => rfl

/-- Without failing moves the search of a list is a verdict. -/
theorem tryAll_ne_none {f : C → Option Bool} : ∀ {ms : List (Option C)}, none ∉ ms →
    (∀ c, some c ∈ ms → f c ≠ none) → tryAll f ms ≠ none
  | [], _, _ => by simp [tryAll]
  | none :: _, hn, _ => absurd List.mem_cons_self hn
  | some d :: ms, hn, hd => by
    by_cases hf : f d = some false
    · rw [tryAll_cons_false hf]
      exact tryAll_ne_none (fun h => hn (List.mem_cons_of_mem _ h)) (fun c hc => hd c (List.mem_cons_of_mem _ hc))
    · rw [tryAll_cons_ne hf]
      exact hd d List.mem_cons_self

variable {rank : C → Nat}

/-- Without failing moves the search ends with a verdict. -/
theorem dfs_ne_none (hr : Ranked moves Inv rank) (hn : ∀ c, Inv c → none ∉ moves c) :
    ∀ {n : Nat} {c : C}, Inv c → rank c < n → dfs done moves n c ≠ none
  | 0, _, _, h => absurd h (Nat.not_lt_zero _)
  | n + 1, c, hc, h => by
    simp only [dfs]
    split
    · simp
    · refine tryAll_ne_none (hn c hc) fun c' hc' => ?_
      obtain ⟨hi, hlt⟩ := hr c hc c' hc'
      exact dfs_ne_none hr hn hi (by omega)

/-- **The search decides solvability.** -/
theorem dfs_iff_solvable (hr : Ranked moves Inv rank) (hn : ∀ c, Inv c → none ∉ moves c) {n : Nat} {c : C}
    (hc : Inv c) (h : rank c < n) : dfs done moves n c = some true ↔ Solvable done moves c := by
  constructor
  · intro hd
    induction n generalizing c with
    | zero => exact absurd h (Nat.not_lt_zero _)
    | succ n ih =>
      simp only [dfs] at hd
      split at hd
      · rename_i hdone; exact .done hdone
      · obtain ⟨c', hm, hf⟩ := tryAll_eq_true hd
        obtain ⟨hi, hlt⟩ := hr c hc c' hm
        exact .move hm (ih hi (by omega) hf)
  · intro hs
    induction hs generalizing n with
    | done hd =>
      cases n with
      | zero => exact absurd h (Nat.not_lt_zero _)
      | succ n => simp [dfs, hd]
    | @move c c' hm _ ih =>
      obtain ⟨hi, hlt⟩ := hr c hc c' hm
      rw [dfs_unfold hr hc h]
      split
      · rfl
      · refine tryAll_true (hn c hc) (fun d hd => ?_) hm (ih hi (by omega))
        exact dfs_ne_none hr hn (hr c hc d hd).1 (by have := (hr c hc d hd).2; omega)

end Solvable

/-! ## Related nodes -/

section Related

variable {done : C → Bool} {moves : C → List (Option C)} {R : C → C → Prop}

theorem tryAll_rel {f g : C → Option Bool} (h : ∀ c d, R c d → f c = g d) : ∀ {ms ns : List (Option C)},
    List.Forall₂ (Option.Rel R) ms ns → tryAll f ms = tryAll g ns
  | _, _, .nil => rfl
  | _, _, .cons .none _ => rfl
  | _, _, .cons (.some hr) hs => by simp only [tryAll, h _ _ hr, tryAll_rel h hs]

/-- A simulation relates only nodes with the same verdict. -/
theorem dfs_rel (hd : ∀ c d, R c d → done c = done d)
    (hm : ∀ c d, R c d → List.Forall₂ (Option.Rel R) (moves c) (moves d)) :
    ∀ (n : Nat) (c d : C), R c d → dfs done moves n c = dfs done moves n d
  | 0, _, _, _ => rfl
  | n + 1, c, d, h => by simp only [dfs, hd c d h, tryAll_rel (dfs_rel hd hm n) (hm c d h)]

end Related

end Dfs
