import Ltest.Lincheck.Recursive
import Ltest.Lincheck.Wgl
import Ltest.Runtime.Value

/-!
# The comparisons of a check (`lincheck.h`, `lincheck_recursive.h`, `value_wrapper.h`)

Both checkers compare the results of the specification with those of the tasks (`Compares`), the result of the
specification on the left. If the two have the same type in every comparison, the sides do not matter
(`valueWrapper_lawful`). A specification that returns `0` for a void method is not of that kind.
-/

namespace Ltest

variable {τ α ν σ : Type}

/-! ## What is compared -/

namespace Call

variable {C : Call τ α ν σ}

/-- A result that a checker may get for an answered operation, and the one of its task. -/
def Compares (C : Call τ α ν σ) (res retVal : ν) : Prop :=
  ∃ i t s method, (C.invRes i).isSome = true ∧ InvokeAt C.history i t ∧ C.methods (C.view t).name = some method ∧
    res = (method s (C.view t).args).1 ∧ retVal = (C.view t).retVal

/-- The loop of the recursive checker only depends on these comparisons. -/
theorem walk_congr {left right : BEq ν} (heq : ∀ res retVal, C.Compares res retVal →
    left.beq res retVal = right.beq res retVal) {recursive recursive' : List Bool → σ → Option (Bool × List Bool)}
    (hrec : recursive = recursive') (s : σ) : ∀ (is : List Nat) (lin : List Bool),
    @walk τ α ν σ left C recursive s is lin = @walk τ α ν σ right C recursive' s is lin
  | [], _ => rfl
  | i :: is, lin => by
    subst hrec
    have ih := walk_congr heq (rfl : recursive = recursive) s is
    unfold walk
    split
    · exact ih lin
    · cases hi : C.history[i]? with
      | none => rfl
      | some e =>
        cases e with
        | response t r th => rfl
        | invoke t th =>
          dsimp only
          cases hm : C.methods (C.view t).name with
          | none => rfl
          | some method =>
            dsimp only
            cases hr : C.invRes i with
            | none =>
              dsimp only
              simp only [ih]
            | some j =>
              have hsame := heq _ _ ⟨i, t, s, method, by rw [hr]; rfl, ⟨th, hi⟩, hm, rfl, rfl⟩
              dsimp only
              rw [hsame]
              simp only [ih]

theorem recursiveStep_congr {left right : BEq ν} (heq : ∀ res retVal, C.Compares res retVal →
    left.beq res retVal = right.beq res retVal) : ∀ n,
    @recursiveStep τ α ν σ left C n = @recursiveStep τ α ν σ right C n
  | 0 => rfl
  | n + 1 => by
    funext lin s
    unfold recursiveStep
    rw [walk_congr heq (recursiveStep_congr heq n) s]

/-- So does the loop of the other one. -/
theorem step_congr {left right : BEq ν} (heq : ∀ res retVal, C.Compares res retVal →
    left.beq res retVal = right.beq res retVal) (hashing : Hashing σ) :
    @Wgl.step τ α ν σ left C hashing = @Wgl.step τ α ν σ right C hashing := by
  funext st
  unfold Wgl.step
  cases hi : C.history[st.currentSectionStart]? with
  | none => rfl
  | some e =>
    cases e with
    | response t r th => rfl
    | invoke t th =>
      dsimp only
      cases hm : C.methods (C.view t).name with
      | none => rfl
      | some method =>
        dsimp only
        cases hr : C.invRes st.currentSectionStart with
        | none => rfl
        | some j =>
          rw [heq _ _ ⟨_, t, st.dataStructureState, method, by rw [hr]; rfl, ⟨th, hi⟩, hm, rfl, rfl⟩]

end Call

/-! ## The side of the specification -/

variable [DecidableEq τ] {P : PayloadTypes}

/-- The result of the specification is on the left, as in the checkers. -/
@[reducible] def specificationLeft : BEq (ValueWrapper P) := ⟨fun res retVal => (res.equal retVal).toOption == some true⟩

/-- The result of the task is on the left. -/
@[reducible] def taskLeft : BEq (ValueWrapper P) := ⟨fun res retVal => (retVal.equal res).toOption == some true⟩

/-- The specification returns, for each answered task, a value of the type that the task has returned. -/
def SameTypes (spec : Specification σ α (ValueWrapper P)) (view : τ → TaskView α (ValueWrapper P))
    (history : List (HistoryEvent τ (ValueWrapper P))) : Prop :=
  ∀ t r th, .response t r th ∈ history → ∀ method, spec.methods (view t).name = some method → ∀ s,
    (method s (view t).args).1.Wrapped ∧ (view t).retVal.Wrapped ∧
      (method s (view t).args).1.typeId = (view t).retVal.typeId

/-- Then the sides of a comparison do not matter. -/
theorem SameTypes.side {spec : Specification σ α (ValueWrapper P)} {view : τ → TaskView α (ValueWrapper P)}
    {history : List (HistoryEvent τ (ValueWrapper P))} (h : SameTypes spec view history) {m : Nat → Option Nat}
    (hm : getInvResMapping history = some m) (res retVal : ValueWrapper P)
    (hcompares : (⟨spec.methods, view, history, m⟩ : Call τ α (ValueWrapper P) σ).Compares res retVal) :
    specificationLeft.beq res retVal = taskLeft.beq res retVal := by
  obtain ⟨i, t, s, method, hanswered, hi, hmethod, rfl, rfl⟩ := hcompares
  obtain ⟨j, hj⟩ := Option.isSome_iff_exists.1 hanswered
  obtain ⟨t', hi', r, th, hresponse⟩ :=
    (Call.matched_of_mapping (C := ⟨spec.methods, view, history, m⟩) hm).invoke hj
  obtain rfl := hi.task_eq hi'
  obtain ⟨hres, hret, hid⟩ := h t r th (List.mem_of_getElem? hresponse) method hmethod s
  obtain ⟨b, hleft, hright⟩ := hres.equal_comm hret hid
  unfold specificationLeft taskLeft
  dsimp only [BEq.beq]
  rw [hleft, hright]

/-- **Wrapped values are compared lawfully** exactly if their types are the same, and where the types of the specification
are those of the tasks the checkers do not depend on the side. -/
theorem valueWrapper_lawful (P : PayloadTypes) :
    (∀ a b : ValueWrapper P, a.Wrapped → b.Wrapped →
      (((∃ r, a.equal b = .ok r ∧ b.equal a = .ok r) ∧
        ∀ c : ValueWrapper P, c.Wrapped → a.equal b = .ok true → b.equal c = .ok true → a.equal c = .ok true) ↔
      a.typeId = b.typeId)) ∧
    ∀ (spec : Specification σ α (ValueWrapper P)) (view : τ → TaskView α (ValueWrapper P))
      (history : List (HistoryEvent τ (ValueWrapper P))), SameTypes spec view history →
      @Recursive.check _ _ _ _ _ specificationLeft spec view history =
        @Recursive.check _ _ _ _ _ taskLeft spec view history ∧
      ∀ (hashing : Hashing σ) (fuel : Nat), @Wgl.check _ _ _ _ specificationLeft _ fuel spec hashing view history =
        @Wgl.check _ _ _ _ taskLeft _ fuel spec hashing view history := by
  refine ⟨fun a b ha hb => ⟨?_, fun hid => ⟨ha.equal_comm hb hid, fun c hc => ?_⟩⟩, fun spec view history h => ?_⟩
  · rintro ⟨⟨r, hab, hba⟩, -⟩
    exact ha.typeId_eq hb hab hba
  · exact ValueWrapper.equal_trans ha hb hc
  · unfold Recursive.check Wgl.check
    cases hm : getInvResMapping history with
    | none => exact ⟨rfl, fun _ _ => rfl⟩
    | some m =>
      have hside := h.side hm
      refine ⟨?_, fun hashing fuel => ?_⟩
      · dsimp only
        rw [Call.recursiveStep_congr hside]
      · dsimp only
        rw [Call.step_congr hside]

/-- `int`. -/
def intPayloads : PayloadTypes where
  Id := Unit
  Value _ := Int
  equal _ l r := l == r
  equal_comm _ l r := Bool.beq_comm
  equal_trans _ _ _ _ h h' := by
    rw [beq_iff_eq] at h h' ⊢
    exact h.trans h'

/-- The result `0` of the specification `lock_func` and the `void_v` of the task `Lock`. -/
theorem lock_incomparable : ¬ ∀ a b : ValueWrapper intPayloads, a.Wrapped → b.Wrapped →
    ∃ r, a.equal b = .ok r ∧ b.equal a = .ok r := by
  intro hclaim
  obtain ⟨r, hleft, -⟩ := hclaim _ _ (.wrap (P := intPayloads) () (0 : Int)) .void
  cases (ValueWrapper.equal_wrap_voidV (P := intPayloads) (t := ()) (0 : Int)).symm.trans hleft

end Ltest
