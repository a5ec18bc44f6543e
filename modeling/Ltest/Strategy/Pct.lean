import Ltest.Strategy.Pick
import Mathlib.Data.Finset.Card

/-!
# `PctStrategy` (`pct_strategy.h`)

Threads have priorities, and the eligible thread of the highest priority runs. At the change points, which are drawn from
the lengths of the earlier schedules, the running thread gets a lower priority. New tasks are built from constructors that
are drawn one by one; the verifier is asked only when `forbid_all_same` is set.
-/

namespace Ltest

variable {σ κ α ν ς ρ γ : Type}

/-- The fields of `PctStrategy` that change, and the constructors. -/
structure PctState (σ κ α ρ γ : Type) where
  constructors : List (TaskBuilder σ κ α ρ)
  kStatistics : List Nat
  currentDepth : Nat
  currentScheduleLength : Nat
  priorities : List Nat
  priorityChangePoints : List Nat
  rng : γ

/-! ## Priorities -/

/-- The loop over the threads in `Next` and `NextSchedule`; `best` holds `max` and `index_of_max`. -/
def scanPriorities (skipped : Nat → Bool) (priorities : List Nat) : List Nat → Nat × Nat → Nat × Nat
  | [], best => best
  | i :: threads, best =>
    if skipped i then scanPriorities skipped priorities threads best
    else if best.1 ≤ priorities.getD i 0 then
      scanPriorities skipped priorities threads (priorities.getD i 0, i)
    else scanPriorities skipped priorities threads best

namespace PctState

variable (p : PctState σ κ α ρ γ)

/-- The check whether a priority change is required. -/
def changePriority (indexOfMax : Nat) : PctState σ κ α ρ γ :=
  { p with
    currentScheduleLength := p.currentScheduleLength + 1
    priorities := p.priorityChangePoints.zipIdx.foldl (fun priorities (point, i) =>
      if p.currentScheduleLength + 1 = point then priorities.set indexOfMax (p.currentDepth - i) else priorities)
      p.priorities }

end PctState

/-- The change points that are left to be drawn. -/
def drawChangePoints (D : Dice γ) (k : Nat) : Nat → γ → List Nat × γ
  | 0, g => ([], g)
  | left + 1, g =>
    let (point, g) := D.uniform 1 k g
    let (points, g) := drawChangePoints D k left g
    (point :: points, g)

namespace PctState

/-- `PrepareForDepth`. -/
def prepareForDepth (D : Dice γ) (threadsCount depth k : Nat) (p : PctState σ κ α ρ γ) : PctState σ κ α ρ γ :=
  let (priorities, g) := D.shuffle ((List.range threadsCount).map fun i => p.currentDepth + i) p.rng
  let (points, g) := drawChangePoints D k (depth - 1) g
  { p with priorities := priorities, priorityChangePoints := points, rng := g }

/-- The average of the recorded lengths. -/
def newK (kStatistics : List Nat) : Nat := kStatistics.sum / kStatistics.length

/-- `UpdateStatistics`. -/
def updateStatistics (D : Dice γ) (threadsCount : Nat) (p : PctState σ κ α ρ γ) : PctState σ κ α ρ γ :=
  let depth := if p.currentDepth + 1 ≥ 50 then 50 else p.currentDepth + 1
  let kStatistics := p.kStatistics ++ [p.currentScheduleLength]
  prepareForDepth D threadsCount depth (newK kStatistics)
    { p with currentDepth := depth, kStatistics := kStatistics, currentScheduleLength := 0 }

end PctState

/-- The constructor of `PctStrategy`. -/
def pctStart (D : Dice γ) (threadsCount : Nat) (constructors : List (TaskBuilder σ κ α ρ)) (g : γ) :
    PctState σ κ α ρ γ :=
  PctState.prepareForDepth D threadsCount 1 (0 / constructors.length) ⟨constructors, [], 1, 0, [], [], g⟩

/-! ## Constructors -/

/-- `this->constructors.at(this->constructors_distribution(rng))`. -/
def drawConstructor (D : Dice γ) (constructors : List (TaskBuilder σ κ α ρ)) (g : γ) :
    Except Halt (TaskBuilder σ κ α ρ × γ) :=
  match D.uniform 0 (constructors.length - 1) g with
  | (i, g) =>
    match constructors[i]? with
    | none => .error .badSlot
    | some constructor => .ok (constructor, g)

/-- `CountNames`: the names of the last tasks of the other threads. -/
def countNames (w : World σ κ α ν) (exceptThread : Nat) : Finset String :=
  ((List.range w.threads.length).filterMap fun i =>
    if i = exceptThread then none else (w.lastTask i).map Coro.name).toFinset

/-- The loop that draws until the names are not all the same and the verifier admits the constructor. -/
def retryConstructor (D : Dice γ) (V : StrategyVerifier ς κ α ν) (constructors : List (TaskBuilder σ κ α ρ)) (i : Nat) :
    Nat → Finset String → TaskBuilder σ κ α ρ → ς → γ → Except Halt (TaskBuilder σ κ α ρ × ς × γ)
  | 0, _, _, _, _ => .error .outOfFuel
  | fuel + 1, names, constructor, v, g =>
    let names := insert constructor.name names
    if names.card = 1 then
      match drawConstructor D constructors g with
      | .error e => .error e
      | .ok (constructor, g) => retryConstructor D V constructors i fuel names constructor v g
    else
      match V.verify v ⟨constructor.name, true, i⟩ with
      | none => .error .verifierFailed
      | some (true, v) => .ok (constructor, v, g)
      | some (false, v) =>
        match drawConstructor D constructors g with
        | .error e => .error e
        | .ok (constructor, g) => retryConstructor D V constructors i fuel names constructor v g

/-- The constructor of a new task on thread `i`. -/
def pctConstruct (D : Dice γ) (V : StrategyVerifier ς κ α ν) (forbidAllSame : Bool) (fuel : Nat)
    (r : Round σ κ α ν ς ρ) (i : Nat) (p : PctState σ κ α ρ γ) :
    Except Halt (TaskBuilder σ κ α ρ × ς × PctState σ κ α ρ γ) :=
  match drawConstructor D p.constructors p.rng with
  | .error e => .error e
  | .ok (constructor, g) =>
    if forbidAllSame then
      match retryConstructor D V p.constructors i fuel (countNames r.world i) constructor r.schedChecker g with
      | .error e => .error e
      | .ok (constructor, v, g) => .ok (constructor, v, { p with rng := g })
    else .ok (constructor, r.schedChecker, { p with rng := g })

/-- `PctStrategy`; the loop that draws constructors runs on `fuel`. -/
def pctStrategy (T : Target σ κ ν) (V : StrategyVerifier ς κ α ν) (D : Dice γ) (threadsCount : Nat)
    (forbidAllSame : Bool) (fuel : Nat) : Strategy σ κ α ν ς ρ (PctState σ κ α ρ γ) where
  target := T
  verifier := V
  pick r p :=
    match scanPriorities (r.world.skips T) p.priorities (List.range r.world.threads.length) (0, 0) with
    | (max, indexOfMax) =>
      if max = 0 then .error .deadlock
      else .ok (indexOfMax, (List.range r.world.threads.length).filter (r.world.asks T), p.changePriority indexOfMax)
  construct := pctConstruct D V forbidAllSame fuel
  pickSchedule r p :=
    match scanPriorities (r.skipsSchedule T) p.priorities (List.range r.world.threads.length) (0, 0) with
    | (_, indexOfMax) => .ok (indexOfMax, p.changePriority indexOfMax)
  update := PctState.updateStatistics D threadsCount

/-! ## The scan -/

section Scan

variable (skipped : Nat → Bool) (priorities : List Nat)

/-- **What the scan finds**: the last of the threads of the highest priority that are not skipped, if there is one. -/
theorem scanPriorities_spec : ∀ (threads : List Nat) (best : Nat × Nat),
    (scanPriorities skipped priorities threads best = best ∧
      (∀ i ∈ threads, skipped i = false → priorities.getD i 0 < best.1)) ∨
    ∃ before i after, threads = before ++ i :: after ∧ skipped i = false ∧
      scanPriorities skipped priorities threads best = (priorities.getD i 0, i) ∧ best.1 ≤ priorities.getD i 0 ∧
      (∀ j ∈ before, skipped j = false → priorities.getD j 0 ≤ priorities.getD i 0) ∧
      ∀ j ∈ after, skipped j = false → priorities.getD j 0 < priorities.getD i 0
  | [], best => .inl ⟨rfl, by simp⟩
  | k :: threads, best => by
    unfold scanPriorities
    by_cases hk : skipped k = true
    · rw [if_pos hk]
      rcases scanPriorities_spec threads best with ⟨heq, hlt⟩ | ⟨before, i, after, rfl, hi, heq, hbest, hbefore, hafter⟩
      · refine .inl ⟨heq, List.forall_mem_cons.2 ⟨fun h => ?_, hlt⟩⟩
        rw [hk] at h
        cases h
      · refine .inr ⟨k :: before, i, after, rfl, hi, heq, hbest, List.forall_mem_cons.2 ⟨fun h => ?_, hbefore⟩, hafter⟩
        rw [hk] at h
        cases h
    · rw [if_neg hk]
      have hk' : skipped k = false := by simpa using hk
      split
      · rename_i hle
        rcases scanPriorities_spec threads (priorities.getD k 0, k) with
          ⟨heq, hlt⟩ | ⟨before, i, after, rfl, hi, heq, hbest, hbefore, hafter⟩
        · exact .inr ⟨[], k, threads, rfl, hk', heq, hle, by simp, hlt⟩
        · exact .inr ⟨k :: before, i, after, rfl, hi, heq, hle.trans hbest,
            List.forall_mem_cons.2 ⟨fun _ => hbest, hbefore⟩, hafter⟩
      · rename_i hgt
        rcases scanPriorities_spec threads best with ⟨heq, hlt⟩ | ⟨before, i, after, rfl, hi, heq, hbest, hbefore, hafter⟩
        · exact .inl ⟨heq, List.forall_mem_cons.2 ⟨fun _ => Nat.lt_of_not_le hgt, hlt⟩⟩
        · refine .inr ⟨k :: before, i, after, rfl, hi, heq, hbest, List.forall_mem_cons.2 ⟨fun _ => ?_, hbefore⟩, hafter⟩
          omega

end Scan

end Ltest
