import Ltest.Lincheck.Space
import Ltest.Search.Loop

/-!
# The iterative checker (`lincheck.h`)

`LinearizabilityChecker::Check` walks the same space as the recursive checker with a stack of its own: the invokes of
the open sections, the states they were opened in, and a cache of the pairs (bits, state) that were entered before.
`Wgl.step` is one pass of its `while` loop on the local variables (`Wgl.State`); reading past the end of the history
or popping an empty stack are outcomes of their own (`Wgl.Halt`).

The lemmas `step_…` describe one pass from a state in the form `Wgl.mk`, in which the counter of linearized entries is
the number of set bits.
-/

namespace Ltest

/-- The hash and equality functors that the checker is instantiated with, and `std::hash<std::vector<bool>>`. -/
structure Hashing (σ : Type) where
  hash : σ → UInt64
  equal : σ → σ → Bool
  hashBits : List Bool → UInt64

namespace Hashing

variable {σ : Type}

/-- `PairHash`. -/
def pairHash (h : Hashing σ) (p : List Bool × σ) : UInt64 := h.hashBits p.1 ^^^ h.hash p.2

/-- `PairEqual`. -/
def pairEqual (h : Hashing σ) (lhs rhs : List Bool × σ) : Bool := lhs.1 == rhs.1 && h.equal lhs.2 rhs.2

/-- `states_cache.find(key) != states_cache.end()`: some element has the hash code of the key and equals it. -/
def find (h : Hashing σ) (cache : List (List Bool × σ)) (key : List Bool × σ) : Bool :=
  cache.any fun e => h.pairHash e == h.pairHash key && h.pairEqual key e

end Hashing

namespace Wgl

/-- The local variables of `Check`. The back of a stack is the head of its list. -/
structure State (σ : Type) where
  currentSectionStart : Nat
  dataStructureState : σ
  openSectionsStack : List Nat
  statesStack : List σ
  linearized : List Bool
  linearizedEntriesCount : Nat
  statesCache : List (List Bool × σ)

/-- How `Check` ends. -/
inductive Halt where
  | returned (b : Bool)
  | assertFailed
  | outOfBounds
  | emptyStack
  deriving Repr, DecidableEq

variable {τ α ν σ : Type} [BEq ν]

/-- One pass of the `while` loop. -/
def step (C : Call τ α ν σ) (hashing : Hashing σ) (st : State σ) : Except Halt (State σ) :=
  if st.linearizedEntriesCount = C.history.length then .error (.returned true)
  else
    match st.linearized[st.currentSectionStart]? with
    | none => .error .outOfBounds
    | some true => .ok { st with currentSectionStart := st.currentSectionStart + 1 }
    | some false =>
      match C.history[st.currentSectionStart]? with
      | none => .error .outOfBounds
      | some (.invoke task _) =>
        match C.methods (C.view task).name with
        | none => .error .assertFailed
        | some method =>
          match method st.dataStructureState (C.view task).args with
          | (res, stateCopy) =>
            let entries := if (C.invRes st.currentSectionStart).isNone then 1 else 2
            if (C.invRes st.currentSectionStart).isNone || res == (C.view task).retVal then
              let linearized := C.setBits st.linearized st.currentSectionStart true
              if hashing.find st.statesCache (linearized, stateCopy) then
                -- already checked an equal state: take the bits back and go to the next entry
                .ok { st with
                  linearized := C.setBits linearized st.currentSectionStart false
                  linearizedEntriesCount := st.linearizedEntriesCount + entries - entries
                  currentSectionStart := st.currentSectionStart + 1 }
              else
                .ok {
                  currentSectionStart := 0
                  dataStructureState := stateCopy
                  openSectionsStack := st.currentSectionStart :: st.openSectionsStack
                  statesStack := st.dataStructureState :: st.statesStack
                  linearized := linearized
                  linearizedEntriesCount := st.linearizedEntriesCount + entries
                  statesCache := (linearized, stateCopy) :: st.statesCache }
            else .ok { st with currentSectionStart := st.currentSectionStart + 1 }
      | some (.response _ _ _) =>
        match st.openSectionsStack, st.statesStack with
        | [], _ => .error (.returned false)
        | _ :: _, [] => .error .emptyStack
        | lastInv :: openSections, state :: states =>
          .ok { st with
            dataStructureState := state
            statesStack := states
            openSectionsStack := openSections
            linearized := C.setBits st.linearized lastInv false
            linearizedEntriesCount := st.linearizedEntriesCount - if (C.invRes lastInv).isNone then 1 else 2
            currentSectionStart := lastInv + 1 }

/-- `LinearizabilityChecker::Check` with at most `fuel` passes of its loop. -/
def check [DecidableEq τ] (fuel : Nat) (spec : Specification σ α ν) (hashing : Hashing σ) (view : τ → TaskView α ν)
    (history : List (HistoryEvent τ ν)) : Option Halt :=
  match getInvResMapping history with
  | none => some .assertFailed
  | some invRes =>
    Loop.run (step ⟨spec.methods, view, history, invRes⟩ hashing) fuel {
      currentSectionStart := 0
      dataStructureState := spec.firstState
      openSectionsStack := []
      statesStack := []
      linearized := List.replicate history.length false
      linearizedEntriesCount := 0
      statesCache := [] }

/-! ## The counter -/

section Counter

variable {C : Call τ α ν σ} {lin : List Bool} {p : Nat}

omit [BEq ν] in
/-- The counter reaches the size of the history when all bits are set. -/
theorem count_eq_iff (hok : C.OK lin) : lin.count true = C.history.length ↔ lin.all id = true := by
  rw [← hok.length, List.count_eq_length]
  exact ⟨fun h => List.all_eq_true.2 fun b hb => (h b hb).symm, fun h b hb => (List.all_eq_true.1 h b hb).symm⟩

theorem count_set_false {i : Nat} (hi : lin[i]? = some false) : (lin.set i true).count true = lin.count true + 1 := by
  obtain ⟨hlt, hi⟩ := List.getElem?_eq_some_iff.1 hi
  rw [List.count_set hlt, hi]
  simp

omit [BEq ν] in
/-- Opening a section adds its entries to the counter. -/
theorem count_open (hC : C.Matched) (hok : C.OK lin) (hp : lin[p]? = some false) :
    (C.setBits lin p true).count true = lin.count true + if (C.invRes p).isNone then 1 else 2 := by
  unfold Call.setBits
  cases hm : C.invRes p with
  | none => simpa using count_set_false hp
  | some j =>
    have hne : p ≠ j := Nat.ne_of_lt (hC.lt hm)
    have hj : (lin.set p true)[j]? = some false := by rw [List.getElem?_set_ne hne, ← hok.closed hm, hp]
    simp only [count_set_false hj, count_set_false hp]
    simp

omit [BEq ν] in
theorem count_lt_open (hC : C.Matched) (hok : C.OK lin) (hp : lin[p]? = some false) :
    lin.count true < (C.setBits lin p true).count true := by
  rw [count_open hC hok hp]
  split <;> omega

end Counter

/-! ## One pass -/

/-- The state at node `(lin, s)` with the cursor at `p`. -/
def mk (lin : List Bool) (s : σ) (p : Nat) (opened : List Nat) (states : List σ) (cache : List (List Bool × σ)) :
    State σ :=
  ⟨p, s, opened, states, lin, lin.count true, cache⟩

section Pass

variable {C : Call τ α ν σ} {hashing : Hashing σ} {lin : List Bool} {s : σ} {p : Nat} {opened : List Nat}
  {states : List σ} {cache : List (List Bool × σ)}

theorem step_done (hok : C.OK lin) (hall : lin.all id = true) :
    step C hashing (mk lin s p opened states cache) = .error (.returned true) := by
  simp [step, mk, (count_eq_iff hok).2 hall]

section Going

variable (hok : C.OK lin) (hgo : ¬lin.all id = true)
include hok hgo

/-- The loop goes on at an entry that is linearized. -/
theorem step_skip (hp : lin[p]? = some true) :
    step C hashing (mk lin s p opened states cache) = .ok (mk lin s (p + 1) opened states cache) := by
  simp [step, mk, (count_eq_iff hok).not.2 hgo, hp]

theorem step_unnamed {t : τ} (hp : lin[p]? = some false) (hi : InvokeAt C.history p t)
    (hm : C.methods (C.view t).name = none) :
    step C hashing (mk lin s p opened states cache) = .error .assertFailed := by
  obtain ⟨th, hi⟩ := hi
  simp [step, mk, (count_eq_iff hok).not.2 hgo, hp, hi, hm]

/-- An invoke with another result than the specification's is passed over. -/
theorem step_refuse {t : τ} {method : Method σ α ν} (hp : lin[p]? = some false) (hi : InvokeAt C.history p t)
    (hm : C.methods (C.view t).name = some method)
    (hadm : ¬((C.invRes p).isNone || (method s (C.view t).args).1 == (C.view t).retVal) = true) :
    step C hashing (mk lin s p opened states cache) = .ok (mk lin s (p + 1) opened states cache) := by
  obtain ⟨th, hi⟩ := hi
  simp [step, mk, (count_eq_iff hok).not.2 hgo, hp, hi, hm, hadm]

/-- An invoke that leads to a pair in the cache is passed over, with the bits taken back. -/
theorem step_hit {t : τ} {method : Method σ α ν} (hp : lin[p]? = some false) (hi : InvokeAt C.history p t)
    (hm : C.methods (C.view t).name = some method)
    (hadm : ((C.invRes p).isNone || (method s (C.view t).args).1 == (C.view t).retVal) = true)
    (hhit : hashing.find cache (C.setBits lin p true, (method s (C.view t).args).2) = true) :
    step C hashing (mk lin s p opened states cache) = .ok (mk lin s (p + 1) opened states cache) := by
  obtain ⟨th, hi⟩ := hi
  simp only [step, mk, (count_eq_iff hok).not.2 hgo, hp, hi, hm, hadm, hhit, ↓reduceIte, hok.setBits_restore hp,
    Nat.add_sub_cancel]

/-- A new section is opened, and the scan starts again. -/
theorem step_open {t : τ} {method : Method σ α ν} (hC : C.Matched) (hp : lin[p]? = some false)
    (hi : InvokeAt C.history p t) (hm : C.methods (C.view t).name = some method)
    (hadm : ((C.invRes p).isNone || (method s (C.view t).args).1 == (C.view t).retVal) = true)
    (hmiss : ¬hashing.find cache (C.setBits lin p true, (method s (C.view t).args).2) = true) :
    step C hashing (mk lin s p opened states cache) =
      .ok (mk (C.setBits lin p true) (method s (C.view t).args).2 0 (p :: opened) (s :: states)
        ((C.setBits lin p true, (method s (C.view t).args).2) :: cache)) := by
  obtain ⟨th, hi⟩ := hi
  simp only [step, mk, (count_eq_iff hok).not.2 hgo, hp, hi, hm, hadm, hmiss, ↓reduceIte, count_open hC hok hp]
  rfl

/-- A response with no open section refutes the history. -/
theorem step_refuted {t : τ} (hp : lin[p]? = some false) (hr : ResponseAt C.history p t) :
    step C hashing (mk lin s p [] states cache) = .error (.returned false) := by
  obtain ⟨r, th, hr⟩ := hr
  simp [step, mk, (count_eq_iff hok).not.2 hgo, hp, hr]

end Going

/-- A response closes the last section; the scan goes on after its invoke. -/
theorem step_close {q : Nat} {s' : σ} {t : τ} (hC : C.Matched) (hok : C.OK lin) (hp : lin[p]? = some false)
    {t' : τ} (hi : InvokeAt C.history p t') (hq : (C.setBits lin p true)[q]? = some false)
    (hr : ResponseAt C.history q t) :
    step C hashing (mk (C.setBits lin p true) s' q (p :: opened) (s :: states) cache) =
      .ok (mk lin s (p + 1) opened states cache) := by
  have hgo : ¬(C.setBits lin p true).all id = true := by
    intro hall
    have := List.all_eq_true.1 hall false (List.mem_of_getElem? hq)
    cases this
  have hne := (count_eq_iff (hok.setBits hC hi true)).not.2 hgo
  rw [count_open hC hok hp] at hne
  obtain ⟨r, th, hr⟩ := hr
  simp only [step, mk, count_open hC hok hp, hne, hq, hr, ↓reduceIte, hok.setBits_restore hp, Nat.add_sub_cancel]

end Pass

end Wgl

end Ltest
