import Ltest.Minimize.Solution
import Ltest.Program.Triple

/-!
# Genetic minimization (`minimization_smart.cpp`)

`SmartMinimizor` keeps the two fittest solutions, crosses and mutates their tasks, and explores the round with the tasks
that are left. An exploration that finds a rejected history makes a new solution. Every attempt marks the tasks anew and
restarts them, so at the end the marks are set for the best solution and its history is replayed.

What a generation keeps is `Evolving`: the solutions of the population are valid on the round, however it has been left.
From that follow the assertions of the minimizer and what it returns (`smartMinimize_sound`).
-/

namespace Ltest

open Program

variable {σ κ α ν ς ρ π γ : Type}

/-- The parameters of `SmartMinimizor`. -/
structure SmartParams where
  explorationRuns : Nat
  minimizationRuns : Nat
  maxOffspringsPerGeneration : Nat
  offspringsGenerationAttempts : Nat

/-- `max_population_size`. -/
def maxPopulationSize : Nat := 2

/-! ## Crossing and mutating -/

section Breeding

variable (D : Dice γ)

/-- The loop of `CrossProduct` over the threads of the parent that has fewer; `others` are those of the other one. -/
def crossTasks (others : TaskIds) : TaskIds → γ → TaskIds × γ
  | [], g => ([], g)
  | (threadId, taskIds) :: threads, g =>
    match others.lookup threadId with
    | none =>
      let (newThreads, g) := crossTasks others threads g
      ((threadId, taskIds) :: newThreads, g)
    | some taskIds' =>
      let (x, g) := D.real g
      let (newThreads, g) := crossTasks others threads g
      ((threadId, if 1 / 2 ≤ x then taskIds' else taskIds) :: newThreads, g)

/-- `CrossProduct`. -/
def crossProduct (p1 p2 : TaskIds) (g : γ) : TaskIds × γ :=
  if p2.length ≤ p1.length then crossTasks D p1 p2 g else crossTasks D p2 p1 g

/-- `DropRandomTask`. -/
def dropRandomTask (threads : TaskIds) (g : γ) : TaskIds × γ :=
  if threads = [] then (threads, g)
  else
    let (threadIndex, g) := D.uniform 0 (threads.length - 1) g
    match threads[threadIndex]? with
    | none => (threads, g)
    | some (threadId, tasks) =>
      if tasks = [] ∨ tasks.length = 1 ∧ threads.length = 2 then (threads, g)
      else
        let (taskIndex, g) := D.uniform 0 (tasks.length - 1) g
        (threads.set threadIndex (threadId, tasks.eraseIdx taskIndex), g)

/-- The mutations that are left of `mutationsCount`. A single one may be left out. -/
def mutate (mutationsCount : Nat) : Nat → TaskIds → γ → TaskIds × γ
  | 0, threads, g => (threads, g)
  | left + 1, threads, g =>
    if 1 < mutationsCount then
      let (threads, g) := dropRandomTask D threads g
      mutate mutationsCount left threads g
    else
      let (x, g) := D.real g
      if x < 95 / 100 then
        let (threads, g) := dropRandomTask D threads g
        mutate mutationsCount left threads g
      else mutate mutationsCount left threads g

variable {D} {tasks₀ : TaskIds}

/-- An entry of the crossed tasks is one of a parent. -/
theorem crossTasks_lookup {others : TaskIds} {i : Nat} {ids : List Int} : ∀ {threads : TaskIds} {g : γ},
    (crossTasks D others threads g).1.lookup i = some ids → threads.lookup i = some ids ∨ others.lookup i = some ids
  | [], g, h => by cases h
  | (threadId, taskIds) :: threads, g, h => by
    unfold crossTasks at h
    by_cases hi : i = threadId
    · subst hi
      rw [List.lookup_cons_self]
      cases hother : others.lookup i with
      | none =>
        simp only [hother, List.lookup_cons_self] at h
        exact .inl h
      | some taskIds' =>
        simp only [hother, List.lookup_cons_self] at h
        split at h
        · exact .inr h
        · exact .inl h
    · have hne : (i == threadId) = false := beq_eq_false_iff_ne.2 hi
      rw [List.lookup_cons, hne]
      cases hother : others.lookup threadId with
      | none =>
        simp only [hother, List.lookup_cons, hne] at h
        exact crossTasks_lookup h
      | some taskIds' =>
        simp only [hother, List.lookup_cons, hne] at h
        exact crossTasks_lookup h

/-- The tasks of a child come from the first solution if those of the parents do. -/
theorem within_crossProduct {p1 p2 : TaskIds} (h1 : Within p1 tasks₀) (h2 : Within p2 tasks₀) (g : γ) :
    Within (crossProduct D p1 p2 g).1 tasks₀ := by
  intro i ids hi
  unfold crossProduct at hi
  split at hi
  · rcases crossTasks_lookup hi with hi | hi
    · exact h2 i ids hi
    · exact h1 i ids hi
  · rcases crossTasks_lookup hi with hi | hi
    · exact h1 i ids hi
    · exact h2 i ids hi

/-- Fewer ids in one entry. -/
theorem within_set {k : Nat} {ids : List Int} : ∀ {threads : TaskIds} {j : Nat} {ids' : List Int},
    threads[j]? = some (k, ids') → ids ⊆ ids' → Within (threads.set j (k, ids)) threads
  | [], j, ids', h, _ => by simp at h
  | p :: threads, 0, ids', h, hsub => by
    cases h
    intro i ids₁ hi
    rw [List.set_cons_zero, List.lookup_cons] at hi
    rw [List.lookup_cons]
    split at hi
    · cases hi
      exact ⟨ids', rfl, hsub⟩
    · exact ⟨ids₁, hi, fun _ hid => hid⟩
  | (k', ids₀) :: threads, j + 1, ids', h, hsub => by
    have hrest : threads[j]? = some (k, ids') := h
    intro i ids₁ hi
    rw [List.set_cons_succ, List.lookup_cons] at hi
    rw [List.lookup_cons]
    split at hi
    · exact ⟨ids₁, hi, fun _ hid => hid⟩
    · exact within_set hrest hsub i ids₁ hi

theorem within_dropRandomTask (threads : TaskIds) (g : γ) : Within (dropRandomTask D threads g).1 threads := by
  unfold dropRandomTask
  split
  · exact .refl threads
  · dsimp only
    split
    · exact .refl threads
    · rename_i threadId tasks hthread
      split
      · exact .refl threads
      · exact within_set hthread (List.eraseIdx_subset)

theorem within_mutate (mutationsCount : Nat) : ∀ (left : Nat) (threads : TaskIds) (g : γ),
    Within (mutate D mutationsCount left threads g).1 threads
  | 0, threads, g => .refl threads
  | left + 1, threads, g => by
    unfold mutate
    split
    · exact (within_mutate mutationsCount left _ _).trans (within_dropRandomTask threads g)
    · dsimp only
      split
      · exact (within_mutate mutationsCount left _ _).trans (within_dropRandomTask threads _)
      · exact within_mutate mutationsCount left threads _

end Breeding

/-! ## The minimizer -/

/-- The fields of `SmartMinimizor` that change, and the solutions that have ever been inserted. -/
structure Evolution (σ κ α ν ς ρ π γ : Type) where
  stage : Stage σ κ α ν ς ρ π
  totalTasks : Nat
  mutationsCount : Nat
  rng : γ
  population : List (Solution ν)
  inserted : List (Solution ν)

section Minimizer

variable [Inhabited ν] (S : Strategy σ κ α ν ς ρ π) (checker : ModelChecker α ν) (fuel : Nat) (D : Dice γ)
  (P : SmartParams)

/-- The attempts at one offspring. -/
def generateOffspring (p1 p2 : TaskIds) (totalTasks mutationsCount : Nat) : Nat → Stage σ κ α ν ς ρ π → γ →
    Except SmartHalt (Option (Solution ν) × Stage σ κ α ν ς ρ π × γ)
  | 0, st, g => .ok (none, st, g)
  | left + 1, st, g => do
    let (newThreads, g) := crossProduct D p1 p2 g
    let (newThreads, g) := mutate D mutationsCount mutationsCount newThreads g
    let (histories, st) ← scheduled (S.exploreRound checker fuel P.explorationRuns (st.removeInvalidTasks newThreads))
    match histories with
    | some histories => do
      let offspring ← Solution.new st.round histories totalTasks
      return (some offspring, st, g)
    | none => generateOffspring p1 p2 totalTasks mutationsCount left st g

/-- The loop of `GenerateOffsprings`. -/
def offspringsLoop (p1 p2 : TaskIds) (totalTasks mutationsCount : Nat) : Nat → Stage σ κ α ν ς ρ π → γ →
    List (Solution ν) → Except SmartHalt (List (Solution ν) × Stage σ κ α ν ς ρ π × γ)
  | 0, st, g, offsprings => .ok (offsprings, st, g)
  | left + 1, st, g, offsprings => do
    let (offspring, st, g) ← generateOffspring S checker fuel D P p1 p2 totalTasks mutationsCount
      P.offspringsGenerationAttempts st g
    offspringsLoop p1 p2 totalTasks mutationsCount left st g (offsprings ++ offspring.toList)

/-- `GenerateOffsprings`, and the new mutations count. -/
def generateOffsprings (p1 p2 : Solution ν) (e : Evolution σ κ α ν ς ρ π γ) :
    Except SmartHalt (List (Solution ν) × Stage σ κ α ν ς ρ π × Nat × γ) :=
  if P.offspringsGenerationAttempts = 0 then .error .noAttempts
  else do
    let (offsprings, st, g) ← offspringsLoop S checker fuel D P p1.tasks p2.tasks e.totalTasks e.mutationsCount
      P.maxOffspringsPerGeneration e.stage e.rng []
    let fewer := offsprings.length * 2 < P.maxOffspringsPerGeneration ∧ 1 < e.mutationsCount
    return (offsprings, st, if fewer then e.mutationsCount - 1 else e.mutationsCount, g)

/-- One iteration of the loop of `Minimize`. -/
def generation (e : Evolution σ κ α ν ς ρ π γ) : Except SmartHalt (Evolution σ κ α ν ς ρ π γ) :=
  match e.population with
  | [] => .error .emptyPopulation
  | p1 :: rest => do
    let (offsprings, st, mutationsCount, g) ← generateOffsprings S checker fuel D P p1 (rest.headD p1) e
    return {
      stage := st
      totalTasks := e.totalTasks
      mutationsCount := mutationsCount
      rng := g
      population := (offsprings.foldl (fun population s => insertSolution s population) e.population).take
        maxPopulationSize
      inserted := e.inserted ++ offsprings }

/-- The loop of `Minimize`. -/
def generations : Nat → Evolution σ κ α ν ς ρ π γ → Except SmartHalt (Evolution σ κ α ν ς ρ π γ)
  | 0, e => .ok e
  | left + 1, e => do
    let e ← generation S checker fuel D P e
    generations left e

omit [Inhabited ν] in
/-- The beginning of `Minimize`. -/
def firstGeneration (st : Stage σ κ α ν ς ρ π) (h : BothHistories ν) (mutationsCount : Nat) (g : γ) :
    Except SmartHalt (Evolution σ κ α ν ς ρ π γ) := do
  let s ← Solution.new st.round h st.round.getTotalTasksCount
  return ⟨st, st.round.getTotalTasksCount, mutationsCount, g, insertSolution s [], [s]⟩

/-- The end of `Minimize`. -/
def finalAnswer (e : Evolution σ κ α ν ς ρ π γ) : Except SmartHalt (BothHistories ν × Stage σ κ α ν ς ρ π) :=
  match e.population with
  | [] => .error .emptyPopulation
  | bestSolution :: _ => do
    let st := e.stage.removeInvalidTasks bestSolution.tasks
    let (replayedResult, st) ← scheduled
      (S.replayRound checker fuel (getTasksOrdering st.round.world bestSolution.nonlinearHistories.full ∅) st)
    match replayedResult with
    | none => throw .acceptedHistory
    | some h => return (h, st)

/-- `SmartMinimizor::Minimize`. -/
def smartMinimize (st : Stage σ κ α ν ς ρ π) (h : BothHistories ν) (mutationsCount : Nat) (g : γ) :
    Except SmartHalt (BothHistories ν × Stage σ κ α ν ς ρ π) := do
  let e ← firstGeneration st h mutationsCount g
  let e ← generations S checker fuel D P P.minimizationRuns e
  finalAnswer S checker fuel e

end Minimizer

/-! ## What a generation keeps -/

section Evolving

variable [Inhabited ν] {S : Strategy σ κ α ν ς ρ π} {checker : ModelChecker α ν} {fuel : Nat} {D : Dice γ}
  {P : SmartParams} {tasks₀ : TaskIds} {w w' w₀ : World σ κ α ν} {st st' : Stage σ κ α ν ς ρ π} {s : Solution ν}

/-- A solution of the round: the checker rejects its history, which resumes the tasks of the solution, and these come from
the first solution. -/
structure Valid (T : Target σ κ ν) (checker : ModelChecker α ν) (tasks₀ : TaskIds) (w : World σ κ α ν)
    (s : Solution ν) : Prop where
  rejected : Rejected T checker w s.nonlinearHistories
  members : ∀ slot c, w.task slot = some c →
    (slot ∈ s.nonlinearHistories.full ↔ s.tasks.has slot.1 c.id = true)
  within : Within s.tasks tasks₀

theorem Valid.alike {T : Target σ κ ν} (hv : Valid T checker tasks₀ w s) (ha : Alike w w') :
    Valid T checker tasks₀ w' s := by
  refine ⟨hv.rejected.alike ha, fun slot c hc => ?_, hv.within⟩
  have hmap := ha.map_id slot
  rw [hc] at hmap
  obtain ⟨c', hc', hid⟩ := Option.map_eq_some_iff.1 hmap.symm
  rw [hv.members slot c' hc', hid]

/-- The errors that a run can end with: the fitness of a solution is bad only if the checker rejects the empty history. -/
def MayFail (checker : ModelChecker α ν) : SmartHalt → Prop
  | .scheduler _ => True
  | .noAttempts => True
  | .badFitness => checker [] = false
  | .emptyPopulation => False
  | .acceptedHistory => False

omit [Inhabited ν] in
/-- A call of the scheduler returns what it returns. -/
theorem returns_scheduled {A : Type} {x : Except Halt A} {Q : A → Prop} (h : ∀ a, x = .ok a → Q a) :
    Returns Q (MayFail checker) (scheduled x) := by
  cases x with
  | ok a => exact h a rfl
  | error e => trivial

theorem getTotalTasksCount_alike (ha : Alike st.round.world st'.round.world) :
    st'.round.getTotalTasksCount = st.round.getTotalTasksCount := by
  have hlen := congrArg (List.map List.length) ha
  simp only [List.map_map] at hlen
  unfold Round.getTotalTasksCount
  refine congrArg List.sum ?_
  calc st'.round.world.threads.map List.length
      = st'.round.world.threads.map (List.length ∘ fun tasks => tasks.map Coro.restart) := by simp [Function.comp_def]
    _ = st.round.world.threads.map (List.length ∘ fun tasks => tasks.map Coro.restart) := hlen
    _ = st.round.world.threads.map List.length := by simp [Function.comp_def]

/-- **A rejected history makes a valid solution** of the tasks that are not removed. -/
theorem returns_new {h : BothHistories ν} {totalTasks : Nat} (hthreads : st.round.world.threads.length ≤ 10000)
    (htotal : totalTasks = st.round.getTotalTasksCount) (hr : Rejected S.target checker st.round.world h)
    (hinvokes : Invokes st h) (hwithin : Within st.round.validTasks tasks₀) :
    Returns (fun s => Valid S.target checker tasks₀ st.round.world s ∧ s.tasks = st.round.validTasks) (MayFail checker)
      (Solution.new st.round h totalTasks) := by
  cases hnew : Solution.new st.round h totalTasks with
  | ok s =>
    obtain ⟨htasks, rfl⟩ := solution_eq hnew
    refine ⟨⟨hr, fun slot c hc => ?_, by rw [htasks]; exact hwithin⟩, htasks⟩
    rw [hinvokes slot c hc, htasks, has_validTasks]
    exact ⟨fun hrem => ⟨slot.2, c, hc, rfl, hrem⟩, fun ⟨_, _, _, _, hrem⟩ => hrem⟩
  | error e =>
    obtain rfl : e = .badFitness := by
      unfold Solution.new at hnew
      dsimp only at hnew
      split at hnew
      · cases hnew
        rfl
      · split at hnew
        · cases hnew
          rfl
        · cases hnew
    -- a history that resumes a task leaves a task to count
    have hfull : h.full = [] := by
      rw [List.eq_nil_iff_forall_not_mem]
      intro slot hs
      obtain ⟨c, hc⟩ := Option.isSome_iff_exists.1 (hr.there slot hs)
      obtain ⟨s, hs⟩ : ∃ s, Solution.new st.round h totalTasks = .ok s :=
        new_isOk hthreads htotal hc ((hinvokes slot c hc).1 hs)
      cases hnew.symm.trans hs
    have hrejected := hr.rejected
    unfold checkedHistory at hrejected
    rw [hr.seq, hfull] at hrejected
    exact hrejected

/-- The attempts at an offspring. -/
theorem returns_generateOffspring (hS : Repeatable S) {p1 p2 : TaskIds} (h1 : Within p1 tasks₀) (h2 : Within p2 tasks₀)
    {totalTasks mutationsCount : Nat} : ∀ (left : Nat) {st : Stage σ κ α ν ς ρ π} {g : γ}, (∃ hs, Session S st hs) →
      st.round.world.threads.length ≤ 10000 → totalTasks = st.round.getTotalTasksCount →
      Returns (fun r => (∃ hs, Session S r.2.1 hs) ∧ Alike st.round.world r.2.1.round.world ∧
        ∀ s ∈ r.1, Valid S.target checker tasks₀ r.2.1.round.world s) (MayFail checker)
        (generateOffspring S checker fuel D P p1 p2 totalTasks mutationsCount left st g)
  | 0, st, g, hsession, _, _ => ⟨hsession, rfl, by simp⟩
  | left + 1, st, g, hsession, hthreads, htotal => by
    obtain ⟨hs, hsession⟩ := hsession
    have hnew : Within (mutate D mutationsCount mutationsCount (crossProduct D p1 p2 g).1 (crossProduct D p1 p2 g).2).1
        tasks₀ := (within_mutate mutationsCount mutationsCount _ _).trans (within_crossProduct h1 h2 g)
    unfold generateOffspring
    dsimp only
    generalize mutate D mutationsCount mutationsCount (crossProduct D p1 p2 g).1 (crossProduct D p1 p2 g).2 = child at hnew ⊢
    obtain ⟨newThreads, g'⟩ := child
    obtain ⟨hworld, hmarks⟩ := removeInvalidTasks_spec hsession.ids.unique newThreads
    refine (returns_scheduled fun r hr =>
      exploreRound_spec hS P.explorationRuns (hsession.removeInvalidTasks newThreads) hr).bind ?_
    rintro ⟨histories, st₁⟩ ⟨hsession₁, ha, hremoved, hres⟩
    rw [hworld] at ha
    have hlen : st₁.round.world.threads.length ≤ 10000 := by
      have : st₁.round.world.threads.length = st.round.world.threads.length := by simpa using congrArg List.length ha
      omega
    have htotal₁ : totalTasks = st₁.round.getTotalTasksCount := by rw [getTotalTasksCount_alike ha, htotal]
    cases histories with
    | none =>
      exact (returns_generateOffspring hS h1 h2 left hsession₁ hlen htotal₁).mono
        fun r ⟨hsession, ha', hvalid⟩ => ⟨hsession, ha'.trans ha, hvalid⟩
    | some h =>
      obtain ⟨hrejected, hinvokes⟩ := hres h rfl
      have hwithin : Within st₁.round.validTasks tasks₀ := by
        refine (within_validTasks fun i j c hc hrem => ?_).trans hnew
        have hmap := ha.map_id (i, j)
        rw [hc] at hmap
        obtain ⟨c', hc', hid⟩ := Option.map_eq_some_iff.1 hmap.symm
        rw [hremoved, ← hid] at hrem
        rw [← hid]
        exact (hmarks (i, j) c' hc').1 hrem
      refine (returns_new (S := S) hlen htotal₁ hrejected hinvokes hwithin).bind fun s hs => ?_
      refine ⟨hsession₁, ha, fun s' hs' => ?_⟩
      obtain rfl := Option.mem_some.1 hs'
      exact hs.1

theorem returns_offspringsLoop (hS : Repeatable S) {p1 p2 : TaskIds} (h1 : Within p1 tasks₀) (h2 : Within p2 tasks₀)
    {totalTasks mutationsCount : Nat} : ∀ (left : Nat) {st : Stage σ κ α ν ς ρ π} {g : γ} {offsprings : List (Solution ν)},
      (∃ hs, Session S st hs) → st.round.world.threads.length ≤ 10000 → totalTasks = st.round.getTotalTasksCount →
      (∀ s ∈ offsprings, Valid S.target checker tasks₀ st.round.world s) →
      Returns (fun r => (∃ hs, Session S r.2.1 hs) ∧ Alike st.round.world r.2.1.round.world ∧
        ∀ s ∈ r.1, Valid S.target checker tasks₀ r.2.1.round.world s) (MayFail checker)
        (offspringsLoop S checker fuel D P p1 p2 totalTasks mutationsCount left st g offsprings)
  | 0, st, g, offsprings, hsession, _, _, hvalid => ⟨hsession, rfl, hvalid⟩
  | left + 1, st, g, offsprings, hsession, hthreads, htotal, hvalid => by
    unfold offspringsLoop
    refine (returns_generateOffspring hS h1 h2 P.offspringsGenerationAttempts hsession hthreads htotal).bind ?_
    rintro ⟨offspring, st₁, g₁⟩ ⟨hsession₁, ha, hoffspring⟩
    have hlen : st₁.round.world.threads.length ≤ 10000 := by
      have : st₁.round.world.threads.length = st.round.world.threads.length := by simpa using congrArg List.length ha
      omega
    refine (returns_offspringsLoop hS h1 h2 left hsession₁ hlen (htotal.trans (getTotalTasksCount_alike ha).symm)
      fun s hs => ?_).mono fun r ⟨hsession, ha', hvalid⟩ => ⟨hsession, ha'.trans ha, hvalid⟩
    rcases List.mem_append.1 hs with hs | hs
    · exact (hvalid s hs).alike ha
    · exact hoffspring s (Option.mem_toList.1 hs)

omit [Inhabited ν] in
/-- The population after the offsprings have been inserted. -/
theorem foldl_insertSolution : ∀ (offsprings : List (Solution ν)) {population : List (Solution ν)}, Sorted population →
    Sorted (offsprings.foldl (fun population s => insertSolution s population) population) ∧
    ∀ x, x ∈ offsprings.foldl (fun population s => insertSolution s population) population ↔
      x ∈ population ∨ x ∈ offsprings
  | [], population, h => ⟨h, fun x => by simp⟩
  | s :: offsprings, population, h => by
    obtain ⟨hsorted, hmem⟩ := foldl_insertSolution offsprings (h.insert (s := s))
    refine ⟨hsorted, fun x => ?_⟩
    rw [List.foldl_cons, hmem x, mem_insertSolution, List.mem_cons]
    constructor
    · rintro ((h | h) | h)
      · exact .inr (.inl h)
      · exact .inl h
      · exact .inr (.inr h)
    · rintro (h | h | h)
      · exact .inl (.inr h)
      · exact .inl (.inl h)
      · exact .inr h

/-- What holds between two generations of a minimization that was started on the tasks of `w₀`. -/
structure Evolving (S : Strategy σ κ α ν ς ρ π) (checker : ModelChecker α ν) (w₀ : World σ κ α ν) (tasks₀ : TaskIds)
    (e : Evolution σ κ α ν ς ρ π γ) : Prop where
  session : ∃ hs, Session S e.stage hs
  alike : Alike w₀ e.stage.round.world
  total : e.totalTasks = e.stage.round.getTotalTasksCount
  nonempty : e.population ≠ []
  sorted : Sorted e.population
  valid : ∀ s ∈ e.population, Valid S.target checker tasks₀ e.stage.round.world s
  inserted : ∀ s ∈ e.inserted, Within s.tasks tasks₀

/-- **A generation** keeps this, and its best solution is at least as fit as those before. -/
theorem returns_generation (hS : Repeatable S) {e : Evolution σ κ α ν ς ρ π γ} (he : Evolving S checker w₀ tasks₀ e)
    (hthreads : w₀.threads.length ≤ 10000) : Returns (fun e' => Evolving S checker w₀ tasks₀ e' ∧
      ∃ best ∈ e'.population, ∀ s ∈ e.population, s.fitness ≤ best.fitness) (MayFail checker)
      (generation S checker fuel D P e) := by
  unfold generation
  obtain ⟨p1, rest, hpopulation⟩ := List.exists_cons_of_ne_nil he.nonempty
  rw [hpopulation]
  have hp1 : p1 ∈ e.population := by simp [hpopulation]
  have hp2 : rest.headD p1 ∈ e.population := by
    rw [hpopulation]
    cases rest <;> simp
  have hlen : e.stage.round.world.threads.length ≤ 10000 := by
    have : e.stage.round.world.threads.length = w₀.threads.length := by simpa using congrArg List.length he.alike
    omega
  refine Returns.bind (R := fun r => (∃ hs, Session S r.2.1 hs) ∧ Alike e.stage.round.world r.2.1.round.world ∧
    ∀ s ∈ r.1, Valid S.target checker tasks₀ r.2.1.round.world s) ?_ ?_
  · unfold generateOffsprings
    split
    · trivial
    · exact (returns_offspringsLoop hS (he.valid p1 hp1).within (he.valid _ hp2).within P.maxOffspringsPerGeneration
        he.session hlen he.total (by simp)).bind fun r hr => hr
  · rintro ⟨offsprings, st, mutationsCount, g⟩ ⟨hsession, ha, hvalid⟩
    obtain ⟨hsorted, hmem⟩ := foldl_insertSolution offsprings he.sorted
    dsimp only
    rw [← hpopulation]
    generalize offsprings.foldl (fun population s => insertSolution s population) e.population = population at hsorted hmem ⊢
    obtain ⟨best, others, rfl⟩ := List.exists_cons_of_ne_nil (List.ne_nil_of_mem ((hmem p1).2 (.inl hp1)))
    refine ⟨⟨hsession, ha.trans he.alike, he.total.trans (getTotalTasksCount_alike ha).symm, by simp [maxPopulationSize],
      hsorted.sublist (List.take_sublist _ _), fun s hs => ?_, fun s hs => ?_⟩, best, by simp [maxPopulationSize],
      fun s hs => ?_⟩
    · rcases (hmem s).1 (List.mem_of_mem_take hs) with hs | hs
      · exact (he.valid s hs).alike ha
      · exact hvalid s hs
    · rcases List.mem_append.1 hs with hs | hs
      · exact he.inserted s hs
      · exact (hvalid s hs).within
    · rcases List.mem_cons.1 ((hmem s).2 (.inl hs)) with rfl | hs
      · exact le_refl _
      · exact (List.pairwise_cons.1 hsorted).1 s hs

/-- The generations of a run. -/
theorem returns_generations (hS : Repeatable S) (hthreads : w₀.threads.length ≤ 10000) : ∀ (left : Nat)
    {e : Evolution σ κ α ν ς ρ π γ}, Evolving S checker w₀ tasks₀ e →
      Returns (Evolving S checker w₀ tasks₀) (MayFail checker) (generations S checker fuel D P left e)
  | 0, _, he => he
  | left + 1, _, he => by
    unfold generations
    exact (returns_generation hS he hthreads).bind fun e' h => returns_generations hS hthreads left h.1

/-- The first generation. -/
theorem returns_firstGeneration {h : BothHistories ν} (hsession : ∃ hs, Session S st hs)
    (hthreads : st.round.world.threads.length ≤ 10000) (hr : Rejected S.target checker st.round.world h)
    (hinvokes : Invokes st h) (mutationsCount : Nat) (g : γ) :
    Returns (Evolving S checker st.round.world st.round.validTasks) (MayFail checker)
      (firstGeneration st h mutationsCount g) := by
  unfold firstGeneration
  refine (returns_new (S := S) hthreads rfl hr hinvokes (.refl _)).bind fun s hs => ?_
  refine ⟨hsession, rfl, rfl, by simp [insertSolution], List.pairwise_singleton _ _, fun s' hs' => ?_, fun s' hs' => ?_⟩
  · rw [List.mem_singleton.1 hs']
    exact hs.1
  · rw [List.mem_singleton.1 hs']
    exact hs.1.within

/-- **The final answer**: the history of the best solution is rejected when it is replayed. -/
theorem returns_finalAnswer (hS : Repeatable S) {e : Evolution σ κ α ν ς ρ π γ} (he : Evolving S checker w₀ tasks₀ e) :
    Returns (fun r => Alike w₀ r.2.round.world ∧ Played S.target r.2.round.world r.1 ∧
      Rejected S.target checker r.2.round.world r.1 ∧ Invokes r.2 r.1 ∧
      ∀ slot c, r.2.round.world.task slot = some c → slot ∈ r.1.full → tasks₀.has slot.1 c.id = true) (MayFail checker)
      (finalAnswer S checker fuel e) := by
  unfold finalAnswer
  obtain ⟨best, rest, hpopulation⟩ := List.exists_cons_of_ne_nil he.nonempty
  rw [hpopulation]
  have hvalid := he.valid best (by simp [hpopulation])
  obtain ⟨hs, hsession⟩ := he.session
  obtain ⟨hworld, hmarks⟩ := removeInvalidTasks_spec hsession.ids.unique best.tasks
  have hsession' := hsession.removeInvalidTasks best.tasks
  dsimp only
  generalize e.stage.removeInvalidTasks best.tasks = st at hworld hmarks hsession' ⊢
  rw [← hworld] at hmarks hvalid
  have hkept : ∀ slot c, st.round.world.task slot = some c →
      (slot ∈ best.nonlinearHistories.full ↔ c.id ∉ st.round.removedTasks) := by
    intro slot c hc
    rw [hvalid.members slot c hc, hmarks slot c hc]
  have hids : ∀ id ∈ getTasksOrdering st.round.world best.nonlinearHistories.full ∅, id ∉ st.round.removedTasks := by
    intro id hid
    obtain ⟨slot, hslot, hid'⟩ := mem_getTasksOrdering.1 hid
    obtain ⟨c, hc, rfl⟩ := Option.map_eq_some_iff.1 hid'
    exact (hkept slot c hc).1 hslot
  refine (returns_scheduled fun r hr => hr).bind ?_
  rintro ⟨res, st'⟩ hreplay
  obtain ⟨⟨h', st₁⟩, hreplayed, hlast⟩ := bind_eq_ok.1 hreplay
  cases hlast
  obtain ⟨rfl, ha, hplayed⟩ := hsession'.replay_recorded hS hvalid.rejected.toRecorded
    (fun slot hs c hc => (hkept slot c hc).1 hs) hreplayed
  obtain ⟨_, _, _, _, hremoved, _⟩ := replayRound_spec hsession' hids hreplay
  have hrejected := hvalid.rejected.alike ha
  have hverdict : verdict checker st'.round.world best.nonlinearHistories = some best.nonlinearHistories := by
    unfold verdict
    rw [hplayed.rejected_iff.2 hrejected]
    rfl
  rw [hverdict]
  refine ⟨ha.trans (hworld ▸ he.alike), hplayed, hrejected, fun slot c hc => ?_, fun slot c hc hslot => ?_⟩
  · have hmap := ha.map_id slot
    rw [hc] at hmap
    obtain ⟨c', hc', hid⟩ := Option.map_eq_some_iff.1 hmap.symm
    rw [hkept slot c' hc', hid, hremoved]
  · have hmap := ha.map_id slot
    rw [hc] at hmap
    obtain ⟨c', hc', hid⟩ := Option.map_eq_some_iff.1 hmap.symm
    rw [← hid]
    exact hvalid.within.has ((hvalid.members slot c' hc').1 hslot)

end Evolving

/-! ## Soundness -/

section Soundness

variable [Inhabited ν] {S : Strategy σ κ α ν ς ρ π} {checker : ModelChecker α ν} {fuel : Nat} {D : Dice γ}
  {P : SmartParams} {st : Stage σ κ α ν ς ρ π} {h : BothHistories ν}

/-- **Genetic minimization is sound and never makes things worse.** The solutions that are inserted keep to the tasks of
the first one, some solution of the next population is at least as fit as all of this one, the population is never empty,
the last replay is rejected, and what is returned mentions the tasks that are not removed. The assertions on the fitness
can only fail when the checker rejects the empty history. -/
theorem smartMinimize_sound (hS : Repeatable S) (hproduced : Produced S st h)
    (hrejected : checker (st.round.world.resolve h.seq) = false)
    (hexact : ∀ slot c, st.round.world.task slot = some c →
      (slot ∈ invokedTasks h.seq ↔ c.id ∉ st.round.removedTasks))
    (hthreads : st.round.world.threads.length ≤ 10000) (mutationsCount : Nat) (g : γ) :
    (∀ e₀, firstGeneration st h mutationsCount g = .ok e₀ → ∀ n e, generations S checker fuel D P n e₀ = .ok e →
      (∀ s ∈ e.inserted, Within s.tasks st.round.validTasks) ∧ e.population ≠ [] ∧
      ∀ e', generation S checker fuel D P e = .ok e' →
        ∃ best ∈ e'.population, ∀ s ∈ e.population, s.fitness ≤ best.fitness) ∧
    smartMinimize S checker fuel D P st h mutationsCount g ≠ .error .emptyPopulation ∧
    smartMinimize S checker fuel D P st h mutationsCount g ≠ .error .acceptedHistory ∧
    (smartMinimize S checker fuel D P st h mutationsCount g = .error .badFitness → checker [] = false) ∧
    ∀ h' st', smartMinimize S checker fuel D P st h mutationsCount g = .ok (h', st') →
      checker (st'.round.world.resolve h'.seq) = false ∧
      (∀ slot c, st'.round.world.task slot = some c → (slot ∈ invokedTasks h'.seq ↔ c.id ∉ st'.round.removedTasks)) ∧
      ∀ slot ∈ invokedTasks h'.seq, slot ∈ invokedTasks h.seq := by
  have hplayed := hproduced.played hS
  obtain ⟨_, hsession⟩ := hproduced.session
  have hfirst := returns_firstGeneration hproduced.session hthreads (hplayed.rejected_iff.1 hrejected)
    (fun slot c hc => by rw [← hplayed.toRecorded.mem_invokedTasks]; exact hexact slot c hc) mutationsCount g
  have hall : Returns _ (MayFail checker) (smartMinimize S checker fuel D P st h mutationsCount g) :=
    hfirst.bind fun e₀ he₀ => (returns_generations hS hthreads P.minimizationRuns he₀).bind fun e he =>
      returns_finalAnswer hS he
  refine ⟨fun e₀ he₀ n e he => ?_, hall.of_error, hall.of_error, hall.of_error, fun h' st' hrun => ?_⟩
  · have hevolving := (returns_generations hS hthreads n (hfirst.of_ok he₀)).of_ok he
    refine ⟨hevolving.inserted, hevolving.nonempty, fun e' he' => ?_⟩
    exact ((returns_generation hS hevolving hthreads).of_ok he').2
  · obtain ⟨ha, hplayed', hrejected', hinvokes, hhas⟩ := hall.of_ok hrun
    refine ⟨hplayed'.rejected_iff.2 hrejected', fun slot c hc => ?_, fun slot hs => ?_⟩
    · rw [hplayed'.toRecorded.mem_invokedTasks]
      exact hinvokes slot c hc
    · rw [hplayed'.toRecorded.mem_invokedTasks] at hs
      obtain ⟨c, hc⟩ := Option.isSome_iff_exists.1 (hplayed'.there slot hs)
      have hmap := ha.map_id slot
      rw [hc] at hmap
      obtain ⟨c', hc', hid⟩ := Option.map_eq_some_iff.1 hmap.symm
      obtain ⟨j, c'', hc'', hid', hrem⟩ := has_validTasks.1 (hhas slot c hc hs)
      -- the id is that of the task in the slot
      have hslot := hsession.ids.unique slot (slot.1, j) c.id (by rw [hc', ← hid]; rfl) (by rw [hc'', ← hid']; rfl)
      rw [← hslot] at hc''
      exact (hexact slot c'' hc'').2 (by rw [hid']; exact hrem)

/-- One generation of one offspring with one mutation. -/
def oneOffspring : SmartParams where
  explorationRuns := 1
  minimizationRuns := 1
  maxOffspringsPerGeneration := 1
  offspringsGenerationAttempts := 1

/-- A checker that rejects what has three events. -/
def rejectsThreeEvents : ModelChecker Unit Nat := fun history => decide (history.length < 3)

/-- A round of three tasks on two threads, and its minimization. -/
def evolvedRound : Except Halt (Stage Nat Bool Unit Nat Unit Unit (PickState Nat Bool Unit Unit Unit) ×
    BothHistories Nat × Except SmartHalt (BothHistories Nat ×
    Stage Nat Bool Unit Nat Unit Unit (PickState Nat Bool Unit Unit Unit))) := do
  let (h, st) ← counterStrategy.generate 10 3 twoCounters
  return (st, h, smartMinimize counterStrategy rejectsThreeEvents 20 leastDice oneOffspring st h 1 ())

/-- The minimization of such a round drops its first task. -/
theorem smartMinimize_sound_twoCounters : ∃ st h h' st', Produced counterStrategy st h ∧
    smartMinimize counterStrategy rejectsThreeEvents 20 leastDice oneOffspring st h 1 () = .ok (h', st') ∧
    h'.full = [(1, 0), (0, 1), (1, 0), (0, 1), (1, 1), (1, 1)] ∧
    rejectsThreeEvents (st'.round.world.resolve h'.seq) = false ∧
    (∀ slot c, st'.round.world.task slot = some c → (slot ∈ invokedTasks h'.seq ↔ c.id ∉ st'.round.removedTasks)) ∧
    ∀ slot ∈ invokedTasks h'.seq, slot ∈ invokedTasks h.seq := by
  obtain ⟨⟨st, h, res⟩, hok, hf⟩ := ok_of_toOption (x := evolvedRound)
    (f := fun (st, h, res) => (res.toOption.map fun r => r.1.full, decide (
      rejectsThreeEvents (st.round.world.resolve h.seq) = false ∧ invokedTasks h.seq = [(0, 0), (1, 0), (0, 1), (1, 1)] ∧
      st.round.removedTasks = ∅ ∧ st.round.world.threads.map List.length = [2, 2])))
    (b := (some [(1, 0), (0, 1), (1, 0), (0, 1), (1, 1), (1, 1)], true)) (by decide +kernel)
  obtain ⟨⟨h₁, st₁⟩, hgen, hok⟩ := bind_eq_ok.1 hok
  cases hok
  simp only [Prod.mk.injEq, decide_eq_true_eq] at hf
  obtain ⟨⟨h', st'⟩, hminimize, hfull⟩ := ok_of_toOption hf.1
  have hproduced := Produced.generate (.new twoCounters_fresh) (by simp [twoCounters]) hgen
  have hlen : st.round.world.threads.length = 2 := by simpa using congrArg List.length hf.2.2.2.2
  refine ⟨_, _, h', st', hproduced, hminimize, hfull, (smartMinimize_sound counterStrategy_replayable.toRepeatable hproduced
    hf.2.1 (fun slot c hc => ?_) (by omega) 1 ()).2.2.2.2 h' st' hminimize⟩
  rw [hf.2.2.1, hf.2.2.2.1]
  refine iff_of_true ?_ (Finset.notMem_empty c.id)
  -- every thread has two tasks
  obtain ⟨tasks, htasks, hj⟩ := World.task_eq_some.1 hc
  have hlens := congrArg (·[slot.1]?) hf.2.2.2.2
  simp only [List.getElem?_map, htasks, Option.map_some] at hlens
  have hlt := (List.getElem?_eq_some_iff.1 hj).1
  obtain ⟨i, j⟩ := slot
  rcases i with _ | _ | i <;> simp at hlens hlt ⊢ <;> omega

end Soundness

end Ltest
