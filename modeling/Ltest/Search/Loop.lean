import Mathlib.Logic.Relation

/-!
# Loops with exits

A loop is a body `S → Except H S`: `.ok` is the state before the next pass, `.error` an exit. `run` passes through it
with fuel. A loop that reaches an exit (`Ends`) is run to it by every large enough fuel (`Ends.run`), and has no other
exit (`Ends.eq_of_reaches`). What a pass keeps holds in every state that is reached (`Reaches.keeps`).
-/

namespace Loop

variable {S H : Type}

/-- At most `n` passes; `none` when the loop is still going. -/
def run (body : S → Except H S) : Nat → S → Option H
  | 0, _ => none
  | n + 1, s =>
    match body s with
    | .error h => some h
    | .ok s' => run body n s'

/-- Zero or more passes lead from `s` to `s'`. -/
def Reaches (body : S → Except H S) : S → S → Prop := Relation.ReflTransGen fun a b => body a = .ok b

/-- The loop leaves through `h`. -/
def Ends (body : S → Except H S) (s : S) (h : H) : Prop := ∃ s', Reaches body s s' ∧ body s' = .error h

variable {body : S → Except H S} {s s' : S} {h : H}

theorem Reaches.refl : Reaches body s s := Relation.ReflTransGen.refl

theorem Reaches.pass (hs : body s = .ok s') {s'' : S} (hr : Reaches body s' s'') : Reaches body s s'' :=
  Relation.ReflTransGen.head hs hr

theorem Reaches.trans {s'' : S} (h₁ : Reaches body s s') (h₂ : Reaches body s' s'') : Reaches body s s'' :=
  Relation.ReflTransGen.trans h₁ h₂

theorem Ends.exit (hs : body s = .error h) : Ends body s h := ⟨s, .refl, hs⟩

theorem Ends.of_reaches (hr : Reaches body s s') : Ends body s' h → Ends body s h
  | ⟨s'', hr', he⟩ => ⟨s'', hr.trans hr', he⟩

theorem Ends.pass (hs : body s = .ok s') (he : Ends body s' h) : Ends body s h :=
  .of_reaches (.pass hs .refl) he

/-- Enough fuel runs the loop to its exit. -/
theorem Ends.run (he : Ends body s h) : ∃ n, ∀ m, n ≤ m → run body m s = some h := by
  obtain ⟨s', hr, he⟩ := he
  induction hr using Relation.ReflTransGen.head_induction_on with
  | refl =>
    refine ⟨1, fun m hm => ?_⟩
    obtain ⟨m, rfl⟩ : ∃ k, m = k + 1 := ⟨m - 1, by omega⟩
    simp [Loop.run, he]
  | head hs _ ih =>
    obtain ⟨n, hn⟩ := ih
    refine ⟨n + 1, fun m hm => ?_⟩
    obtain ⟨m, rfl⟩ : ∃ k, m = k + 1 := ⟨m - 1, by omega⟩
    simp only [Loop.run, hs]
    exact hn m (by omega)

/-- More fuel does not change the result. -/
theorem run_mono : ∀ {n m : Nat} {s : S}, run body n s = some h → n ≤ m → run body m s = some h
  | 0, _, _, hrun, _ => by cases hrun
  | n + 1, 0, _, _, hm => by omega
  | n + 1, m + 1, s, hrun, hm => by
    unfold run at hrun ⊢
    cases hs : body s with
    | error h' => simpa only [hs] using hrun
    | ok s' =>
      simp only [hs] at hrun ⊢
      exact run_mono hrun (Nat.le_of_succ_le_succ hm)

/-- What a run ends with, the loop leaves through. -/
theorem Ends.of_run : ∀ {n : Nat} {s : S}, Loop.run body n s = some h → Ends body s h
  | 0, _, hrun => by cases hrun
  | n + 1, s, hrun => by
    unfold Loop.run at hrun
    split at hrun
    · rename_i hs
      cases hrun
      exact .exit hs
    · rename_i s' hs
      exact .pass hs (Ends.of_run hrun)

/-- A loop has one exit: every exit that it reaches is the one it leaves through. -/
theorem Ends.eq_of_reaches (he : Ends body s h) (hr : Reaches body s s') {h' : H} (hs : body s' = .error h') : h' = h := by
  obtain ⟨s'', hr', he⟩ := he
  induction hr' using Relation.ReflTransGen.head_induction_on with
  | refl =>
    obtain rfl | ⟨s₁, hpass, _⟩ := hr.cases_head
    · exact Except.error.inj (hs.symm.trans he)
    · cases he.symm.trans hpass
  | head hpass _ ih =>
    obtain rfl | ⟨s₁, hpass', hr₁⟩ := hr.cases_head
    · cases hs.symm.trans hpass
    · cases hpass.symm.trans hpass'
      exact ih hr₁

/-- A pass of the loop does not change what it leaves through. -/
theorem ends_pass_iff (hs : body s = .ok s') : Ends body s h ↔ Ends body s' h := by
  refine ⟨fun ⟨s'', hr, he⟩ => ?_, .pass hs⟩
  obtain rfl | ⟨s₁, hpass, hr₁⟩ := hr.cases_head
  · cases hs.symm.trans he
  · cases hs.symm.trans hpass
    exact ⟨s'', hr₁, he⟩

theorem ends_exit_iff {h' : H} (hs : body s = .error h') : Ends body s h ↔ h' = h :=
  ⟨fun he => he.eq_of_reaches .refl hs, fun he => he ▸ .exit hs⟩

/-- What every pass keeps holds in every state of the loop. -/
theorem Reaches.keeps {P : S → Prop} (hpass : ∀ s s', P s → body s = .ok s' → P s') (hr : Reaches body s s') (hs : P s) :
    P s' := by
  induction hr with
  | refl => exact hs
  | tail _ hbody ih => exact hpass _ _ ih hbody

end Loop
