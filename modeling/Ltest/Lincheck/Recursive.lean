import Ltest.Lincheck.Space

/-!
# The recursive checker (`lincheck_recursive.h`)

`LinearizabilityCheckerRecursive::Check` is a backtracking search over one bit vector that all levels of the recursion
share: a level sets the bits of a minimal operation, calls itself, and clears them again when the call fails. The model
returns the vector together with the verdict. `walk` is the loop over the entries, with the recursive call as a
parameter, and `recursiveStep` ties the knot with fuel.

`check_eq_verdict`: the verdict is that of the plain search of the space, and a level that fails hands the bits back
as it found them (`Agrees`).
-/

namespace Ltest

namespace Call

variable {τ α ν σ : Type} [BEq ν]

/-- The loop of `recursive_step` over the entries. `none` is the failed assertion that the task has a method. -/
def walk (C : Call τ α ν σ) (recursive : List Bool → σ → Option (Bool × List Bool)) (state : σ) :
    List Nat → List Bool → Option (Bool × List Bool)
  | [], linearized => some (false, linearized)
  | i :: is, linearized =>
    if linearized[i]? = some true then walk C recursive state is linearized
    else
      match C.history[i]? with
      | some (.invoke minimalOp _) =>
        match C.methods (C.view minimalOp).name with
        | none => none
        | some method =>
          match method state (C.view minimalOp).args with
          | (res, stateCopy) =>
            match C.invRes i with
            | none =>
              -- without a response the result cannot be checked
              match recursive (linearized.set i true) stateCopy with
              | none => none
              | some (true, linearized) => some (true, linearized)
              | some (false, linearized) => walk C recursive state is (linearized.set i false)
            | some j =>
              if res == (C.view minimalOp).retVal then
                match recursive ((linearized.set i true).set j true) stateCopy with
                | none => none
                | some (true, linearized) => some (true, linearized)
                | some (false, linearized) => walk C recursive state is ((linearized.set i false).set j false)
              else walk C recursive state is linearized
      | _ => some (false, linearized) -- all next operations are not minimal

/-- `recursive_step`. Every level sets a bit, so the fuel is the number of entries. -/
def recursiveStep (C : Call τ α ν σ) : Nat → List Bool → σ → Option (Bool × List Bool)
  | 0, _, _ => none
  | n + 1, linearized, state =>
    if linearized.all id then some (true, linearized)
    else C.walk (recursiveStep C n) state (List.range' 0 C.history.length) linearized

end Call

namespace Recursive

variable {τ α ν σ : Type} [DecidableEq τ] [BEq ν]

/-- `LinearizabilityCheckerRecursive::Check`; `none` is a failed assertion. -/
def check (spec : Specification σ α ν) (view : τ → TaskView α ν) (history : List (HistoryEvent τ ν)) : Option Bool :=
  if history.isEmpty then some true
  else
    match getInvResMapping history with
    | none => none
    | some invRes =>
      (Call.recursiveStep ⟨spec.methods, view, history, invRes⟩ (history.length + 1)
        (List.replicate history.length false) spec.firstState).map Prod.fst

end Recursive

/-! ## The bits are handed back -/

namespace Call

variable {τ α ν σ : Type} [BEq ν] {C : Call τ α ν σ} {lin : List Bool} {s : σ}

/-- The outcome `r` of a level that was entered with the bits `lin` has verdict `v`; after a failure the bits are `lin`
again. -/
def Agrees (r : Option (Bool × List Bool)) (v : Option Bool) (lin : List Bool) : Prop :=
  match v with
  | none => r = none
  | some false => r = some (false, lin)
  | some true => ∃ lin', r = some (true, lin')

theorem Agrees.map_fst {r : Option (Bool × List Bool)} {v : Option Bool} {lin : List Bool} (h : Agrees r v lin) :
    r.map Prod.fst = v := by
  cases v with
  | none => rw [show r = none from h]; rfl
  | some b =>
    cases b with
    | false => rw [show r = some (false, lin) from h]; rfl
    | true => obtain ⟨lin', rfl⟩ := h; rfl

/-- The loop at an invoke that is not linearized: the two branches of the source differ only in the bits they set. -/
theorem walk_cons_invoke (recursive : List Bool → σ → Option (Bool × List Bool)) {i : Nat} {t : τ}
    {method : Method σ α ν} (is : List Nat) (hb : lin[i]? ≠ some true) (hi : InvokeAt C.history i t)
    (hm : C.methods (C.view t).name = some method) : C.walk recursive s (i :: is) lin =
      if (C.invRes i).isNone || (method s (C.view t).args).1 == (C.view t).retVal then
        match recursive (C.setBits lin i true) (method s (C.view t).args).2 with
        | none => none
        | some (true, lin') => some (true, lin')
        | some (false, lin') => C.walk recursive s is (C.setBits lin' i false)
      else C.walk recursive s is lin := by
  obtain ⟨th, hi⟩ := hi
  cases hr : C.invRes i with
  | none => simp [walk, hb, hi, hm, hr, setBits]
  | some j => simp [walk, hb, hi, hm, hr, setBits]

/-- The loop tries the moves of the space, if the recursive calls search their nodes. -/
theorem walk_agrees {recursive : List Bool → σ → Option (Bool × List Bool)} {sub : List Bool × σ → Option Bool}
    (hok : C.OK lin) : ∀ {is : List Nat}, (∀ i ∈ is, i < C.history.length) →
      (∀ c, some c ∈ C.scan lin s is → Agrees (recursive c.1 c.2) (sub c) c.1) →
      Agrees (C.walk recursive s is lin) (Dfs.tryAll sub (C.scan lin s is)) lin
  | [], _, _ => rfl
  | i :: is, hlt, hrec => by
    have ih : (∀ c, some c ∈ C.scan lin s is → Agrees (recursive c.1 c.2) (sub c) c.1) →
        Agrees (C.walk recursive s is lin) (Dfs.tryAll sub (C.scan lin s is)) lin :=
      walk_agrees hok fun k hk => hlt k (List.mem_cons_of_mem _ hk)
    by_cases hb : lin[i]? = some true
    · rw [scan_cons_true is hb] at hrec ⊢
      simpa [walk, hb] using ih hrec
    · rcases invoke_or_response (hlt i List.mem_cons_self) with ⟨t, hi⟩ | ⟨t, hr⟩
      · have hfalse := hok.eq_false hi.lt hb
        obtain ⟨th, hget⟩ := id hi
        cases hm : C.methods (C.view t).name with
        | none => rw [scan_cons_unnamed is hb hi hm]; simp [walk, hb, hget, hm, Dfs.tryAll, Agrees]
        | some method =>
          rw [scan_cons_invoke is hb hi hm] at hrec ⊢
          rw [walk_cons_invoke recursive is hb hi hm]
          split
          · rename_i hadm
            rw [if_pos hadm] at hrec
            have hsub := hrec _ List.mem_cons_self
            have hrest := ih fun c hc => hrec c (List.mem_cons_of_mem _ hc)
            revert hsub
            cases hv : sub (C.setBits lin i true, (method s (C.view t).args).2) with
            | none => intro hsub; simp only [Agrees] at hsub; simp [hsub, Dfs.tryAll, hv, Agrees]
            | some b =>
              cases b with
              | true =>
                rintro ⟨lin', hsub⟩
                simp only at hsub
                simp [hsub, Dfs.tryAll, hv, Agrees]
              | false =>
                intro hsub
                simp only [Agrees] at hsub
                simp only [hsub, Dfs.tryAll, hv, hok.setBits_restore hfalse]
                exact hrest
          · rename_i hadm
            rw [if_neg hadm] at hrec
            exact ih hrec
      · obtain ⟨r, th, hget⟩ := id hr
        rw [scan_cons_response is hb hr]
        simp [walk, hb, hget, Dfs.tryAll, Agrees]

/-- A level of the recursion searches its node and hands the bits back. -/
theorem recursiveStep_agrees (hC : C.Matched) : ∀ (n : Nat) {lin : List Bool} {s : σ}, C.OK lin →
    Agrees (C.recursiveStep n lin s) (Dfs.dfs done C.moves n (lin, s)) lin
  | 0, _, _, _ => rfl
  | n + 1, lin, s, hok => by
    cases hd : lin.all id with
    | true => simp [recursiveStep, Dfs.dfs, done, hd, Agrees]
    | false =>
      simp only [recursiveStep, Dfs.dfs, done, hd, Bool.false_eq_true, ↓reduceIte]
      refine walk_agrees hok (fun i hi => by simp at hi; omega) fun c hc => ?_
      exact recursiveStep_agrees hC n (ranked hC (lin, s) hok c hc).1

end Call

/-- **The recursive checker searches the space of the history.** -/
theorem Recursive.check_eq_verdict {τ α ν σ : Type} [DecidableEq τ] [BEq ν] {spec : Specification σ α ν}
    {view : τ → TaskView α ν} {H : List (HistoryEvent τ ν)} {m : Nat → Option Nat}
    (hm : getInvResMapping H = some m) : Recursive.check spec view H =
      Call.verdict ⟨spec.methods, view, H, m⟩ (List.replicate H.length false, spec.firstState) := by
  have hC := Call.matched_of_mapping (C := ⟨spec.methods, view, H, m⟩) hm
  unfold Recursive.check
  split
  · rename_i hnil
    rw [Call.verdict_unfold hC (Call.OK.start hC)]
    simp [List.isEmpty_iff.1 hnil]
  · simp only [hm]
    exact (Call.recursiveStep_agrees hC _ (Call.OK.start hC)).map_fst

end Ltest
