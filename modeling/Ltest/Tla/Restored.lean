import Ltest.Tla.Verified

/-!
# The printed history of the exhaustive scheduler

Taking a step back pops `full_history` once or twice, guessing from its last two entries how often the step pushed
(`popCount`). The guess is right exactly when the step is `Counted` (`popped_pushes_iff`): a step that leaves no mark,
or the end of a coroutine, always is; a task that starts with the start of a coroutine has to be the first of its
thread, and a task that starts a coroutine later must not have, as the entry before, the only entry of its thread.

In a run whose steps are all counted `full_history` consists of the entries of the current path wherever a call of
`ResumeTask` begins or returns (`run_restoresHistory`). A task that yields once before it starts a coroutine is already
enough for the opposite (`yield_before_start_loses_history`).
-/

namespace Ltest.Tla

open Program Calls

variable {σ κ α ν ς ρ : Type}

/-- The entries that the steps of a path push. -/
def entries (φ : List (List (Event ς κ α ν))) : FullHistory := φ.reverse.flatten.flatMap Event.pushed

/-- `full_history` consists of the entries of the current path where a call of `ResumeTask` begins, takes its step and
returns without a result. -/
def HistoryOnPath : List (Event ς κ α ν) → Prop :=
  Always fun pre e =>
    match e with
    | .enter full => full = entries (steps pre)
    | .step full .. => full = entries (steps pre)
    | .leave full => full = entries (steps pre).tail
    | _ => True

/-- A call of `ResumeTask` that returns without a result leaves `full_history` as it found it. -/
def CallsRestore (t : List (Event ς κ α ν)) : Prop :=
  ∀ pre before body after post, t = pre ++ .enter before :: body ++ .leave after :: post →
    balanced Event.mark 0 body = true → after = before

/-- A run restores the history everywhere, and never pops it or reads its back when it is empty. -/
structure RestoresHistory [Inhabited ν] (P : Params σ κ α ν ς ρ) (fuel : Nat) (rng : ρ) : Prop where
  calls : CallsRestore (traceOf P fuel rng)
  path : HistoryOnPath (traceOf P fuel rng)
  nonempty : ∀ s, run P fuel rng ≠ .error .emptyHistory s

/-- The undo part of `ResumeTask` will count the entries of this step right. -/
def Counted (full : FullHistory) (thread : Nat) (isNew : Bool) : Option CoroutineStatus → Prop
  | none => True
  | some st => st.hasStarted = true →
    if isNew then ∀ a ∈ full, a.1 ≠ thread
    else ∀ before slot, full = before ++ [(thread, .task slot)] → ∃ a ∈ before, a.1 = thread

/-- The same for an event of a run. -/
def Event.Counted : Event ς κ α ν → Prop
  | .step full thread _ isNew status => Tla.Counted full thread isNew status
  | _ => True

/-! ## Counting -/

section Counting

variable {full : FullHistory} {thread : Nat} {slot : Slot} {st : CoroutineStatus}

/-- The last entry is a task and the only entry of its thread. -/
def OnlyEntry (full : FullHistory) (thread : Nat) : Prop :=
  ∃ before slot, full = before ++ [(thread, .task slot)] ∧ ∀ a ∈ before, a.1 ≠ thread

theorem onlyEntry_snoc {entry : Nat × Entry} : OnlyEntry (full ++ [entry]) thread ↔
    (∃ slot, entry = (thread, .task slot)) ∧ ∀ a ∈ full, a.1 ≠ thread := by
  constructor
  · rintro ⟨before, slot, hfull, hno⟩
    obtain ⟨rfl, heq⟩ := List.append_inj' hfull rfl
    exact ⟨⟨slot, by simpa using heq⟩, hno⟩
  · rintro ⟨⟨slot, rfl⟩, hno⟩
    exact ⟨full, slot, rfl, hno⟩

/-- The search for the first entry of the thread ends at the last entry. -/
theorem findIdx_snoc {entry : Nat × Entry} : (full ++ [entry]).findIdx (fun a => a.1 == thread) = full.length ↔
    entry.1 = thread ∧ ∀ a ∈ full, a.1 ≠ thread := by
  rw [List.findIdx_append]
  by_cases hlt : full.findIdx (fun a => a.1 == thread) < full.length
  · rw [if_pos hlt]
    obtain ⟨a, ha, hat⟩ := List.findIdx_lt_length.1 hlt
    constructor
    · intro h; omega
    · rintro ⟨_, hno⟩
      exact absurd (beq_iff_eq.1 hat) (hno a ha)
  · rw [if_neg hlt]
    have hno : ∀ a ∈ full, a.1 ≠ thread := fun a ha h =>
      hlt (List.findIdx_lt_length.2 ⟨a, ha, beq_iff_eq.2 h⟩)
    rw [List.findIdx_singleton]
    by_cases heq : entry.1 = thread
    · simp [heq]
      exact fun a b h => hno (a, b) h
    · simp [heq]

theorem ite_eq_two {c : Prop} [Decidable c] : (if c then 2 else 1) = 2 ↔ c := by
  split <;> simp [*]

/-- When two entries are popped. -/
theorem popCount_eq_two : popCount (full ++ [(thread, .status st)]) thread (.status st) = 2 ↔
    st.hasStarted = true ∧ OnlyEntry full thread := by
  rcases List.eq_nil_or_concat full with rfl | ⟨full, entry, rfl⟩
  · simp [popCount, OnlyEntry]
  · have hlen : (full ++ [entry] ++ [(thread, Entry.status st)]).length = full.length + 2 := by simp
    have hprev : (full ++ [entry] ++ [(thread, Entry.status st)])[full.length]? = some entry := by simp
    have hidx : ((full ++ [entry]).findIdx (fun a => a.1 == thread) + 2 == full.length + 2) = true ↔
        entry.1 = thread ∧ ∀ a ∈ full, a.1 ≠ thread := by
      rw [beq_iff_eq, ← findIdx_snoc]
      omega
    rw [List.concat_eq_append, onlyEntry_snoc]
    unfold popCount
    simp only [List.dropLast_concat, hlen, Nat.add_sub_cancel, hprev, Option.any_some]
    obtain ⟨i, slot | mark⟩ := entry
    · simp only [Bool.and_true, Prod.mk.injEq, Entry.task.injEq, exists_and_left, exists_eq', and_true]
      rw [ite_eq_two, Bool.and_eq_true, hidx]
    · simp

/-- One status entry is undone unless two entries are popped. -/
theorem popped_status : popped (full ++ [(thread, .status st)]) = some full ↔
    ¬(st.hasStarted = true ∧ OnlyEntry full thread) := by
  rw [← popCount_eq_two]
  simp only [popped, List.getLast?_concat, Option.map_some, Option.some.injEq, List.length_append, List.length_singleton]
  by_cases h : popCount (full ++ [(thread, .status st)]) thread (.status st) = 2
  · obtain ⟨_, before, slot, rfl, _⟩ := popCount_eq_two.1 h
    have hlen : ∀ {a b : FullHistory}, a.length ≠ b.length → a ≠ b := fun h hab => h (by rw [hab])
    simp only [h, not_true_eq_false, iff_false]
    exact hlen (by simp)
  · have hone : popCount (full ++ [(thread, .status st)]) thread (.status st) = 1 := by
      unfold popCount at h ⊢
      dsimp only at h ⊢
      rw [ite_eq_two] at h
      exact if_neg h
    simp [hone]

/-- **The pops undo the pushes of a step exactly when it is counted.** -/
theorem popped_pushes_iff {isNew : Bool} {status : Option CoroutineStatus} (hnew : StartsNew isNew status) :
    popped (full ++ pushes thread slot isNew status) = some full ↔ Counted full thread isNew status := by
  cases status with
  | none => simp [popped, pushes, popCount, Counted]
  | some st =>
    cases isNew with
    | false =>
      simp only [pushes, Counted, Bool.false_eq_true, ↓reduceIte, List.nil_append]
      rw [popped_status]
      simp [OnlyEntry]
    | true =>
      have hst := hnew rfl st rfl
      have honly : OnlyEntry (full ++ [(thread, .task slot)]) thread ↔ ∀ a ∈ full, a.1 ≠ thread := by
        rw [onlyEntry_snoc]
        simp
      simp only [pushes, Counted, ↓reduceIte, hst, forall_const, ← List.append_assoc]
      rw [← honly]
      by_cases h : OnlyEntry (full ++ [(thread, .task slot)]) thread
      · have htwo := popCount_eq_two.2 ⟨hst, h⟩
        simp only [popped, List.getLast?_concat, Option.map_some, htwo, h, iff_true]
        simp
      · have hone : popped (full ++ [(thread, .task slot)] ++ [(thread, .status st)]) = _ :=
          popped_status.2 fun hc => h hc.2
        rw [hone]
        simp [h]

/-- Whether a step is counted, by trying the pops on its pushes. -/
instance (full : FullHistory) (thread : Nat) (isNew : Bool) : ∀ status, Decidable (Counted full thread isNew status)
  | none => isTrue trivial
  | some st =>
    if hst : st.hasStarted = true then
      decidable_of_iff (popped (full ++ pushes thread (0, 0) isNew (some st)) = some full)
        (popped_pushes_iff fun _ _ h => by cases h; exact hst)
    else isTrue fun h => absurd h hst

instance : DecidablePred (Event.Counted (ς := ς) (κ := κ) (α := α) (ν := ν))
  | .step full thread _ isNew status => inferInstanceAs (Decidable (Counted full thread isNew status))
  | .enter _ => isTrue trivial
  | .notify _ => isTrue trivial
  | .verify .. => isTrue trivial
  | .check _ => isTrue trivial
  | .leave _ => isTrue trivial

end Counting

/-! ## Runs -/

theorem entries_cons (top : List (Event ς κ α ν)) (φ : List (List (Event ς κ α ν))) :
    entries (top :: φ) = entries φ ++ top.flatMap Event.pushed := by
  simp [entries]

/-- Every open call consists of a counted step and its notifications. -/
def Stacked : List (List (Event ς κ α ν)) → Prop
  | [] => True
  | top :: φ => (∃ thread slot isNew st, ∃ ns : List (Note κ α ν),
      top = .step (entries φ) thread slot isNew st :: ns.map .notify ∧ StartsNew isNew st ∧
        Counted (entries φ) thread isNew st) ∧ Stacked φ

theorem entries_step (φ : List (List (Event ς κ α ν))) (f : FullHistory) (thread : Nat) (slot : Slot) (isNew : Bool)
    (st : Option CoroutineStatus) (ns : List (Note κ α ν)) :
    entries ((.step f thread slot isNew st :: ns.map .notify) :: φ) = entries φ ++ pushes thread slot isNew st := by
  rw [entries_cons]
  simp [Event.pushed, List.flatMap_map]

/-- Taking back the innermost step leaves the entries of the others. -/
theorem Stacked.popped {top : List (Event ς κ α ν)} {φ : List (List (Event ς κ α ν))} (h : Stacked (top :: φ)) :
    popped (entries (top :: φ)) = some (entries φ) := by
  obtain ⟨⟨thread, slot, isNew, st, ns, rfl, hnew, hc⟩, _⟩ := h
  rw [entries_step]
  exact (popped_pushes_iff hnew).2 hc

/-- `full_history` stays that of the path in a run whose steps are all counted. -/
theorem history_keeps (P : Params σ κ α ν ς ρ) : Keeps P
    (fun t f _ => (∀ e ∈ t, e.Counted) → HistoryOnPath t ∧ Stacked (steps t) ∧ f = entries (steps t))
    (fun t f _ => (∀ e ∈ t, e.Counted) → HistoryOnPath t ∧ ∃ φ, steps t = [] :: φ ∧ Stacked φ ∧ f = entries φ)
    (fun t => (∀ e ∈ t, e.Counted) → HistoryOnPath t) (fun t => ¬∀ e ∈ t, e.Counted) where
  good h hc := (h hc).1
  verified := by
    intro t f v m h hc
    exact always_snoc.2 ⟨(h fun e he => hc e (List.mem_append_left _ he)).1, trivial⟩
  verify := by
    intro t f v m ok v' h _ hc
    obtain ⟨hH, hS, hf⟩ := h fun e he => hc e (List.mem_append_left _ he)
    exact ⟨always_snoc.2 ⟨hH, trivial⟩, by rwa [steps_verify], by rwa [steps_verify]⟩
  check := by
    intro t f v m h hc
    obtain ⟨hH, hS, hf⟩ := h fun e he => hc e (List.mem_append_left _ he)
    exact ⟨always_snoc.2 ⟨hH, trivial⟩, by rwa [steps_check], by rwa [steps_check]⟩
  enter := by
    intro t f v h hc
    obtain ⟨hH, hS, hf⟩ := h fun e he => hc e (List.mem_append_left _ he)
    exact ⟨always_snoc.2 ⟨hH, hf⟩, steps t, steps_enter, hS, hf⟩
  entered h hc := (h hc).1
  giveUp := by
    intro t f v h hc
    obtain ⟨hH, φ, hφ, hS, hf⟩ := h fun e he => hc e (List.mem_append_left _ he)
    have htail : (steps t).tail = φ := by rw [hφ]; rfl
    exact ⟨always_snoc.2 ⟨hH, by rw [htail]; exact hf⟩, by rwa [steps_leave, htail], by rwa [steps_leave, htail]⟩
  stuck := by
    intro t f v thread slot isNew st h hc
    obtain ⟨hH, φ, hφ, hS, hf⟩ := h fun e he => hc e (List.mem_append_left _ he)
    exact always_snoc.2 ⟨hH, by rw [hφ, entries_cons]; simpa using hf⟩
  taken := by
    intro t f v thread slot isNew st ns h hnew hc
    obtain ⟨hH, φ, hφ, hS, rfl⟩ := h fun e he => hc e (List.mem_append_left _ he)
    have hsteps := steps_taken t (entries φ) thread slot isNew st ns
    rw [hφ] at hsteps
    rw [hsteps]
    refine ⟨?_, ⟨⟨thread, slot, isNew, st, ns, rfl, hnew, ?_⟩, hS⟩, (entries_step ..).symm⟩
    · rw [List.append_cons]
      refine Always.append (always_snoc.2 ⟨hH, by rw [hφ, entries_cons]; simp⟩) ?_
      simp
    · exact hc (.step (entries φ) thread slot isNew st) (by simp)
  empty := by
    intro t f v h hopen hnone hc
    obtain ⟨hH, hS, rfl⟩ := h hc
    obtain ⟨top, φ, hφ⟩ := List.exists_cons_of_ne_nil hopen
    rw [hφ] at hS hnone
    rw [hS.popped] at hnone
    cases hnone
  back := by
    intro t f v full h hopen hfull hc
    obtain ⟨hH, hS, rfl⟩ := h fun e he => hc e (List.mem_append_left _ he)
    obtain ⟨top, φ, hφ⟩ := List.exists_cons_of_ne_nil hopen
    rw [hφ] at hS hfull
    rw [hS.popped] at hfull
    cases hfull
    have htail : (steps t).tail = φ := by rw [hφ]; rfl
    refine ⟨always_snoc.2 ⟨hH, by rw [htail]⟩, ?_, ?_⟩
    · rw [steps_leave, htail]; exact hS.2
    · rw [steps_leave, htail]

/-- Calls restore the history when it is that of the path throughout. -/
theorem HistoryOnPath.callsRestore {t : List (Event ς κ α ν)} (h : HistoryOnPath t) : CallsRestore t := by
  rintro pre before body after post rfl hbody
  have hbefore : before = entries (steps pre) := h pre (.enter before) (body ++ .leave after :: post) (by simp)
  have hafter : after = entries (steps (pre ++ .enter before :: body)).tail := h _ (.leave after) post (by simp)
  have hpath : steps (pre ++ .enter before :: body ++ [.leave after]) = steps pre := path_balanced rfl rfl hbody
  rw [steps_leave] at hpath
  rw [hbefore, hafter, hpath]

/-- **In a run whose steps are all counted, backtracking restores `full_history`.** -/
theorem run_restoresHistory [Inhabited ν] (P : Params σ κ α ν ς ρ) (fuel : Nat) (rng : ρ)
    (h : ∀ e ∈ traceOf P fuel rng, e.Counted) : RestoresHistory P fuel rng := by
  have hrun := run_keeps (history_keeps P) (fun _ => ⟨always_nil, trivial, rfl⟩) fuel rng
  have hpath : HistoryOnPath (traceOf P fuel rng) := by
    unfold traceOf at h ⊢
    revert hrun h
    cases run P fuel rng with
    | ok r s => exact fun h hrun => hrun h
    | error e s => exact fun h hrun => hrun.1 h
  refine ⟨hpath.callsRestore, hpath, fun s hs => ?_⟩
  rw [traceOf, hs] at h
  rw [hs] at hrun
  exact hrun.2 rfl h

/-! ## Coroutines that start late and at once -/

/-- Tasks with a coroutine: context `0` yields first, context `1` starts the coroutine at once. -/
def coroutineTarget : Target Unit Nat Int where
  initial := ()
  reset := id
  run ctx _ :=
    match ctx with
    | 0 => (.yield 1, ())
    | 1 => (.status ⟨"read", true⟩ 2, ())
    | 2 => (.status ⟨"read", false⟩ 3, ())
    | _ => (.returned 0, ())
  parked _ _ := false
  word _ _ := 0

/-- One thread that runs one task, which begins with the given context. -/
def coroutineParams (start : Nat) : Params Unit Nat Unit Int Unit Unit where
  target := coroutineTarget
  maxTasks := 1
  maxRounds := 2
  threadsCount := 1
  maxSwitches := 0
  maxDepth := 1
  constructors := [⟨"Recv", fun _ _ g => (((), start, none), g)⟩]
  checker _ := true
  cancel := id
  verifier := defaultStrategyVerifier

/-- A task that starts its coroutine at once is undone right. -/
theorem start_at_once_restoresHistory : RestoresHistory (coroutineParams 1) 5 () :=
  run_restoresHistory (coroutineParams 1) 5 () (by decide +kernel)

/-- How a run stops. -/
def haltOf [Inhabited ν] (P : Params σ κ α ν ς ρ) (fuel : Nat) (rng : ρ) : Option Halt :=
  match run P fuel rng with
  | .ok _ _ => none
  | .error e _ => some e

/-- **A task that yields before it starts its coroutine.** Taking the start back also pops the entry of the yield, so
the call returns with an empty history, and taking the yield back reads the back of that. -/
theorem yield_before_start_loses_history :
    ¬CallsRestore (traceOf (coroutineParams 0) 6 ()) ∧ haltOf (coroutineParams 0) 6 () = some .emptyHistory := by
  refine ⟨fun h => ?_, by decide +kernel⟩
  have hcall := h ((traceOf (coroutineParams 0) 6 ()).take 5) [(0, .task (0, 0))]
    (((traceOf (coroutineParams 0) 6 ()).drop 6).take 14) [] [] (by decide +kernel) (by decide +kernel)
  cases hcall

end Ltest.Tla
