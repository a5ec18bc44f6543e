import Ltest.Minimize.Rejected
import Ltest.Runtime.Dice
import Mathlib.Tactic.Linarith
import Mathlib.Algebra.Order.Field.Basic
import Mathlib.Algebra.Order.Field.Rat
import Mathlib.Tactic.Positivity

/-!
# Solutions of the genetic minimizer (`minimization_smart.h`, `minimization_smart.cpp`)

A `Solution` is a rejected history with the ids of its tasks, thread by thread. The ids of all solutions come from the
first one (`Within`), however they are crossed and mutated, and a solution stays valid while the round is restarted and
its tasks are marked again and again (`Valid`). Solutions are compared by a fitness, which the model takes over exact
rationals.
-/

namespace Ltest

open Program

variable {σ κ α ν ς ρ π γ : Type}

/-- Why `SmartMinimizor` stops: the scheduler stops, or one of its own assertions fails. -/
inductive SmartHalt where
  | scheduler (reason : Halt)
  | noAttempts
  | badFitness
  | emptyPopulation
  | acceptedHistory
  deriving Repr, DecidableEq

/-- A call of the scheduler. -/
def scheduled {A : Type} : Except Halt A → Except SmartHalt A
  | .ok a => .ok a
  | .error e => .error (.scheduler e)

/-! ## Tasks by thread -/

/-- `std::unordered_map<int, std::unordered_set<int>>`: thread ids, with the ids of tasks. -/
abbrev TaskIds := List (Nat × List Int)

/-- Thread `i` is a key, and `id` is one of its ids. -/
def TaskIds.has (tasks : TaskIds) (i : Nat) (id : Int) : Bool := (tasks.lookup i).any (·.contains id)

/-- The tasks of `new` are contained, thread by thread, in those of `old`. -/
def Within (new old : TaskIds) : Prop :=
  ∀ i ids, new.lookup i = some ids → ∃ ids', old.lookup i = some ids' ∧ ids ⊆ ids'

/-- The ids of the tasks of a thread that are not removed. -/
def Round.validIds (r : Round σ κ α ν ς ρ) (thread : List (Coro κ α ν)) : List Int :=
  (thread.filter fun c => !r.isTaskRemoved c.id).map Coro.id

/-- The tasks of these threads that are not removed, the first being thread `i`. -/
def Round.validTasksFrom (r : Round σ κ α ν ς ρ) : Nat → List (List (Coro κ α ν)) → TaskIds
  | _, [] => []
  | i, thread :: threads =>
    if r.validIds thread = [] then r.validTasksFrom (i + 1) threads
    else (i, r.validIds thread) :: r.validTasksFrom (i + 1) threads

/-- The tasks of the round that are not removed. -/
def Round.validTasks (r : Round σ κ α ν ς ρ) : TaskIds := r.validTasksFrom 0 r.world.threads

/-- `SmartMinimizor::RemoveInvalidTasks`. -/
def Stage.removeInvalidTasks (st : Stage σ κ α ν ς ρ π) (validThreads : TaskIds) : Stage σ κ α ν ς ρ π :=
  (st.round.world.threads.zipIdx.flatMap fun (thread, i) => thread.map fun task => (i, task.id)).foldl
    (fun st (i, id) => st.setTaskRemoved id (!validThreads.has i id)) st

section TaskIds

variable {r : Round σ κ α ν ς ρ} {new old : TaskIds}

theorem Within.refl (tasks : TaskIds) : Within tasks tasks := fun _ ids h => ⟨ids, h, fun _ h => h⟩

theorem Within.trans {mid : TaskIds} (h : Within new mid) (h' : Within mid old) : Within new old := by
  intro i ids hi
  obtain ⟨ids₁, hi₁, hsub₁⟩ := h i ids hi
  obtain ⟨ids₂, hi₂, hsub₂⟩ := h' i ids₁ hi₁
  exact ⟨ids₂, hi₂, fun _ hid => hsub₂ (hsub₁ hid)⟩

theorem Within.has {i : Nat} {id : Int} (h : Within new old) (hid : new.has i id = true) : old.has i id = true := by
  unfold TaskIds.has at hid ⊢
  cases hi : new.lookup i with
  | none => simp [hi] at hid
  | some ids =>
    obtain ⟨ids', hi', hsub⟩ := h i ids hi
    rw [hi, Option.any_some, List.contains_iff_mem] at hid
    rw [hi', Option.any_some, List.contains_iff_mem]
    exact hsub hid

/-- An entry of the tasks that are not removed. -/
theorem lookup_validTasksFrom (r : Round σ κ α ν ς ρ) (i : Nat) (ids : List Int) : ∀ (threads : List (List (Coro κ α ν)))
    (k : Nat), (r.validTasksFrom k threads).lookup i = some ids ↔
      k ≤ i ∧ ids ≠ [] ∧ (threads[i - k]?).map r.validIds = some ids
  | [], k => by simp [Round.validTasksFrom]
  | thread :: threads, k => by
    unfold Round.validTasksFrom
    have ih := lookup_validTasksFrom r i ids threads (k + 1)
    rcases Nat.lt_trichotomy i k with hlt | rfl | hlt
    · -- the keys are at least `k`
      have hne : (i == k) = false := beq_eq_false_iff_ne.2 (Nat.ne_of_lt hlt)
      have hno : ¬(k ≤ i ∧ ids ≠ [] ∧ ((thread :: threads)[i - k]?).map r.validIds = some ids) := fun h => by omega
      have hno' : ¬(k + 1 ≤ i ∧ ids ≠ [] ∧ (threads[i - (k + 1)]?).map r.validIds = some ids) := fun h => by omega
      split
      · exact iff_of_false (mt ih.1 hno') hno
      · rw [List.lookup_cons, hne]
        exact iff_of_false (mt ih.1 hno') hno
    · have hno' : ¬(i + 1 ≤ i ∧ ids ≠ [] ∧ (threads[i - (i + 1)]?).map r.validIds = some ids) := fun h => by omega
      split
      · rename_i hempty
        refine iff_of_false (mt ih.1 hno') ?_
        rintro ⟨_, hne, hids⟩
        simp only [Nat.sub_self, List.getElem?_cons_zero, Option.map_some, Option.some.injEq] at hids
        exact hne (hids ▸ hempty)
      · rename_i hne
        rw [List.lookup_cons_self]
        simp only [Nat.sub_self, List.getElem?_cons_zero, Option.map_some, Option.some.injEq, Nat.le_refl, true_and]
        refine ⟨fun h => ⟨h ▸ hne, h⟩, fun h => h.2⟩
    · have hne : (i == k) = false := beq_eq_false_iff_ne.2 (Nat.ne_of_gt hlt)
      have hsub : (thread :: threads)[i - k]? = threads[i - (k + 1)]? := by
        rw [show i - k = (i - (k + 1)) + 1 by omega, List.getElem?_cons_succ]
      have hiff : (k + 1 ≤ i ∧ ids ≠ [] ∧ (threads[i - (k + 1)]?).map r.validIds = some ids) ↔
          (k ≤ i ∧ ids ≠ [] ∧ ((thread :: threads)[i - k]?).map r.validIds = some ids) := by
        rw [hsub]
        exact and_congr ⟨fun h => by omega, fun h => by omega⟩ Iff.rfl
      split
      · exact ih.trans hiff
      · rw [List.lookup_cons, hne]
        exact ih.trans hiff

theorem lookup_validTasks {i : Nat} {ids : List Int} : r.validTasks.lookup i = some ids ↔
    ids ≠ [] ∧ (r.world.threads[i]?).map r.validIds = some ids := by
  unfold Round.validTasks
  rw [lookup_validTasksFrom]
  simp

/-- The tasks that are not removed. -/
theorem has_validTasks {i : Nat} {id : Int} : r.validTasks.has i id = true ↔
    ∃ j c, r.world.task (i, j) = some c ∧ c.id = id ∧ id ∉ r.removedTasks := by
  have hmem : ∀ thread : List (Coro κ α ν), id ∈ r.validIds thread ↔
      ∃ (j : Nat) (c : Coro κ α ν), thread[j]? = some c ∧ c.id = id ∧ id ∉ r.removedTasks := by
    intro thread
    unfold Round.validIds Round.isTaskRemoved
    rw [List.mem_map]
    constructor
    · rintro ⟨c, hc, rfl⟩
      obtain ⟨hc, hrem⟩ := List.mem_filter.1 hc
      obtain ⟨j, hj⟩ := List.getElem?_of_mem hc
      exact ⟨j, c, hj, rfl, by simpa using hrem⟩
    · rintro ⟨j, c, hj, rfl, hrem⟩
      exact ⟨c, List.mem_filter.2 ⟨List.mem_of_getElem? hj, by simpa using hrem⟩, rfl⟩
  unfold TaskIds.has
  constructor
  · intro h
    cases hi : r.validTasks.lookup i with
    | none => simp [hi] at h
    | some ids =>
      rw [hi, Option.any_some, List.contains_iff_mem] at h
      obtain ⟨_, hmap⟩ := lookup_validTasks.1 hi
      obtain ⟨thread, hthread, rfl⟩ := Option.map_eq_some_iff.1 hmap
      obtain ⟨j, c, hj, hid⟩ := (hmem thread).1 h
      exact ⟨j, c, World.task_eq_some.2 ⟨thread, hthread, hj⟩, hid⟩
  · rintro ⟨j, c, hc, hid⟩
    obtain ⟨thread, hthread, hj⟩ := World.task_eq_some.1 hc
    have hin := (hmem thread).2 ⟨j, c, hj, hid⟩
    have hi : r.validTasks.lookup i = some (r.validIds thread) :=
      lookup_validTasks.2 ⟨List.ne_nil_of_mem hin, by rw [hthread]; rfl⟩
    rw [hi, Option.any_some, List.contains_iff_mem]
    exact hin

/-- What is not removed is contained in `old` when every task of it is. -/
theorem within_validTasks (h : ∀ i j c, r.world.task (i, j) = some c → c.id ∉ r.removedTasks → old.has i c.id = true) :
    Within r.validTasks old := by
  intro i ids hi
  obtain ⟨hne, hthread⟩ := lookup_validTasks.1 hi
  have hall : ∀ id ∈ ids, old.has i id = true := by
    intro id hid
    obtain ⟨j, c, hc, rfl, hrem⟩ := has_validTasks.1 (show r.validTasks.has i id = true by
      unfold TaskIds.has
      rw [hi, Option.any_some, List.contains_iff_mem]
      exact hid)
    exact h i j c hc hrem
  cases hold : old.lookup i with
  | none =>
    obtain ⟨id, hid⟩ := List.exists_mem_of_ne_nil ids hne
    have := hall id hid
    simp [TaskIds.has, hold] at this
  | some ids' =>
    refine ⟨ids', rfl, fun id hid => ?_⟩
    have := hall id hid
    rwa [TaskIds.has, hold, Option.any_some, List.contains_iff_mem] at this

/-! ### `RemoveInvalidTasks` -/

/-- Marks that are set one after the other. -/
theorem foldl_setTaskRemoved (f : Nat → Int → Bool) : ∀ (l : List (Nat × Int)) (st : Stage σ κ α ν ς ρ π),
    (l.foldl (fun st (i, id) => st.setTaskRemoved id (f i id)) st).round.world = st.round.world ∧
    (∀ id, (∀ i, (i, id) ∉ l) → (id ∈ (l.foldl (fun st (i, id) => st.setTaskRemoved id (f i id)) st).round.removedTasks ↔
      id ∈ st.round.removedTasks)) ∧
    ((∀ i i' id, (i, id) ∈ l → (i', id) ∈ l → i = i') → ∀ i id, (i, id) ∈ l →
      (id ∈ (l.foldl (fun st (i, id) => st.setTaskRemoved id (f i id)) st).round.removedTasks ↔ f i id = true))
  | [], st => ⟨rfl, fun _ _ => Iff.rfl, fun _ _ _ h => by cases h⟩
  | (i, id) :: l, st => by
    obtain ⟨hworld, hout, hin⟩ := foldl_setTaskRemoved f l (st.setTaskRemoved id (f i id))
    refine ⟨hworld, fun id' hid' => ?_, fun hunique i' id' hmem => ?_⟩
    · rw [List.foldl_cons, hout id' fun i' hi' => hid' i' (List.mem_cons_of_mem _ hi')]
      have hne : id' ≠ id := fun heq => hid' i (heq ▸ List.mem_cons_self)
      simp only [Stage.setTaskRemoved, Round.setTaskRemoved]
      split <;> simp [hne]
    · rw [List.foldl_cons]
      by_cases hlater : ∃ i'', (i'', id') ∈ l
      · obtain ⟨i'', hi''⟩ := hlater
        have heq := hunique i' i'' id' hmem (List.mem_cons_of_mem _ hi'')
        subst heq
        exact hin (fun _ _ _ h h' => hunique _ _ _ (List.mem_cons_of_mem _ h) (List.mem_cons_of_mem _ h')) i' id' hi''
      · rw [not_exists] at hlater
        have heq := (List.mem_cons.1 hmem).resolve_right (hlater i')
        cases heq
        rw [hout id hlater]
        simp only [Stage.setTaskRemoved, Round.setTaskRemoved]
        cases f i id <;> simp

/-- **The marks after `RemoveInvalidTasks`.** -/
theorem removeInvalidTasks_spec {st : Stage σ κ α ν ς ρ π} (hu : UniqueIds st.round.world) (validThreads : TaskIds) :
    (st.removeInvalidTasks validThreads).round.world = st.round.world ∧
    ∀ slot c, st.round.world.task slot = some c →
      (c.id ∉ (st.removeInvalidTasks validThreads).round.removedTasks ↔ validThreads.has slot.1 c.id = true) := by
  obtain ⟨hworld, _, hin⟩ := foldl_setTaskRemoved (fun i id => !validThreads.has i id)
    (st.round.world.threads.zipIdx.flatMap fun (thread, i) => thread.map fun task => (i, task.id)) st
  have hmem : ∀ i id, (i, id) ∈ (st.round.world.threads.zipIdx.flatMap fun (thread, i) =>
      thread.map fun task => (i, task.id)) ↔ ∃ j, (st.round.world.task (i, j)).map Coro.id = some id := by
    intro i id
    rw [List.mem_flatMap]
    constructor
    · rintro ⟨⟨thread, i'⟩, hthread, hid⟩
      obtain ⟨c, hc, heq⟩ := List.mem_map.1 hid
      cases heq
      obtain ⟨j, hj⟩ := List.getElem?_of_mem hc
      refine ⟨j, ?_⟩
      rw [World.task_eq_some.2 ⟨thread, List.mem_zipIdx_iff_getElem?.1 hthread, hj⟩]
      rfl
    · rintro ⟨j, hj⟩
      obtain ⟨c, hc, rfl⟩ := Option.map_eq_some_iff.1 hj
      obtain ⟨thread, hthread, hc⟩ := World.task_eq_some.1 hc
      exact ⟨(thread, i), List.mem_zipIdx_iff_getElem?.2 hthread, List.mem_map.2 ⟨c, List.mem_of_getElem? hc, rfl⟩⟩
  refine ⟨hworld, fun slot c hc => ?_⟩
  have hthis := hin (fun i i' id h h' => by
    obtain ⟨j, hj⟩ := (hmem i id).1 h
    obtain ⟨j', hj'⟩ := (hmem i' id).1 h'
    exact congrArg Prod.fst (hu (i, j) (i', j') id hj hj')) slot.1 c.id
    ((hmem slot.1 c.id).2 ⟨slot.2, by rw [hc]; rfl⟩)
  unfold Stage.removeInvalidTasks
  rw [hthis]
  simp

theorem Session.removeInvalidTasks [Inhabited ν] {S : Strategy σ κ α ν ς ρ π} (validThreads : TaskIds) :
    ∀ {st : Stage σ κ α ν ς ρ π} {hs : List (BothHistories ν)}, Session S st hs →
      Session S (st.removeInvalidTasks validThreads) hs := by
  intro st hs h
  unfold Stage.removeInvalidTasks
  generalize (st.round.world.threads.zipIdx.flatMap fun (thread, i) => thread.map fun task => (i, task.id)) = l
  induction l generalizing st with
  | nil => exact h
  | cons p l ih => exact ih (h.setTaskRemoved p.2 (!validThreads.has p.1 p.2))

end TaskIds

/-! ## Solutions -/

/-- `SmartMinimizor::Solution`. -/
structure Solution (ν : Type) where
  tasks : TaskIds
  nonlinearHistories : BothHistories ν
  fitness : ℚ
  validTasks : Nat

/-- The constructor of `Solution`. A count of threads or tasks that is zero makes a fitness that is not a number, which
fails the assertions too. -/
def Solution.new (r : Round σ κ α ν ς ρ) (histories : BothHistories ν) (totalTasks : Nat) :
    Except SmartHalt (Solution ν) :=
  let totalThreads := r.getThreadsCount
  let tasks := r.validTasks
  let tasksFitness : ℚ := 1 - r.getValidTasksCount / totalTasks
  let threadsFitness : ℚ := 1 / 10000 + 1 - tasks.length / totalThreads
  if totalTasks = 0 ∨ ¬(0 ≤ tasksFitness ∧ tasksFitness ≤ 1) then .error .badFitness
  else if totalThreads = 0 ∨ ¬(0 ≤ threadsFitness ∧ threadsFitness ≤ 1) then .error .badFitness
  else .ok ⟨tasks, histories, tasksFitness * threadsFitness, r.getValidTasksCount⟩

/-- `population.insert`: after the solutions that are as fit. -/
def insertSolution (s : Solution ν) : List (Solution ν) → List (Solution ν)
  | [] => [s]
  | b :: population => if b.fitness < s.fitness then s :: b :: population else b :: insertSolution s population

section Solutions

variable {s : Solution ν} {r : Round σ κ α ν ς ρ} {histories : BothHistories ν} {totalTasks : Nat}

theorem solution_eq (h : Solution.new r histories totalTasks = .ok s) :
    s.tasks = r.validTasks ∧ s.nonlinearHistories = histories := by
  unfold Solution.new at h
  dsimp only at h
  split at h
  · cases h
  · split at h
    · cases h
    · cases h
      exact ⟨rfl, rfl⟩

theorem length_validTasksFrom (r : Round σ κ α ν ς ρ) : ∀ (threads : List (List (Coro κ α ν))) (k : Nat),
    (r.validTasksFrom k threads).length ≤ threads.length
  | [], _ => Nat.le_refl 0
  | thread :: threads, k => by
    have ih := length_validTasksFrom r threads (k + 1)
    unfold Round.validTasksFrom
    split
    · exact ih.trans (Nat.le_succ _)
    · exact Nat.succ_le_succ ih

/-- **The assertions on the fitness hold** for at most 10000 threads, if a task is left. -/
theorem new_isOk (hthreads : r.world.threads.length ≤ 10000) (htotal : totalTasks = r.getTotalTasksCount) {slot : Slot}
    {c : Coro κ α ν} (hc : r.world.task slot = some c) (hrem : c.id ∉ r.removedTasks) :
    ∃ s, Solution.new r histories totalTasks = .ok s := by
  have hhas : r.validTasks.has slot.1 c.id = true := has_validTasks.2 ⟨slot.2, c, hc, rfl, hrem⟩
  have hused : 1 ≤ r.validTasks.length := by
    rcases hlen : r.validTasks with _ | ⟨p, l⟩
    · rw [hlen] at hhas
      cases hhas
    · simp
  have hle : r.validTasks.length ≤ r.world.threads.length := length_validTasksFrom r r.world.threads 0
  have hvalid : r.getValidTasksCount ≤ totalTasks := by
    rw [htotal]
    unfold Round.getValidTasksCount Round.getTotalTasksCount
    rw [← List.length_flatten]
    exact List.countP_le_length
  have hcount : 1 ≤ r.getValidTasksCount := by
    obtain ⟨tasks, htasks, hj⟩ := World.task_eq_some.1 hc
    refine List.countP_pos_iff.2 ⟨c, List.mem_flatten.2 ⟨tasks, List.mem_of_getElem? htasks, List.mem_of_getElem? hj⟩, ?_⟩
    simpa [Round.isTaskRemoved] using hrem
  have hpos : (0 : ℚ) < totalTasks := by exact_mod_cast Nat.lt_of_lt_of_le hcount hvalid
  have hpos' : (0 : ℚ) < r.world.threads.length := by exact_mod_cast Nat.lt_of_lt_of_le hused hle
  have htasks : (r.getValidTasksCount : ℚ) / totalTasks ≤ 1 := by
    rw [div_le_one hpos]
    exact_mod_cast hvalid
  have htasks' : 0 ≤ (r.getValidTasksCount : ℚ) / totalTasks := by positivity
  have hfraction : (r.validTasks.length : ℚ) / r.world.threads.length ≤ 1 := by
    rw [div_le_one hpos']
    exact_mod_cast hle
  have hfraction' : 1 / 10000 ≤ (r.validTasks.length : ℚ) / r.world.threads.length := by
    have h1 : (1 : ℚ) ≤ r.validTasks.length := by exact_mod_cast hused
    have h2 : (r.world.threads.length : ℚ) ≤ 10000 := by exact_mod_cast hthreads
    rw [le_div_iff₀ hpos']
    linarith
  unfold Solution.new Round.getThreadsCount
  dsimp only
  rw [if_neg, if_neg]
  · exact ⟨_, rfl⟩
  · rw [not_or, not_not]
    refine ⟨by omega, by linarith, by linarith⟩
  · rw [not_or, not_not]
    refine ⟨by omega, by linarith, by linarith⟩

/-! ### Populations -/

/-- A population, the fittest first. -/
def Sorted (population : List (Solution ν)) : Prop := population.Pairwise fun a b => b.fitness ≤ a.fitness

theorem mem_insertSolution {x : Solution ν} : ∀ {population : List (Solution ν)},
    x ∈ insertSolution s population ↔ x = s ∨ x ∈ population
  | [] => by simp [insertSolution]
  | b :: population => by
    unfold insertSolution
    split
    · simp
    · rw [List.mem_cons, mem_insertSolution, List.mem_cons]
      exact or_left_comm

theorem Sorted.insert : ∀ {population : List (Solution ν)}, Sorted population → Sorted (insertSolution s population)
  | [], _ => List.pairwise_singleton _ _
  | b :: population, h => by
    obtain ⟨hb, hrest⟩ := List.pairwise_cons.1 h
    unfold insertSolution
    split
    · rename_i hlt
      refine List.pairwise_cons.2 ⟨fun x hx => ?_, h⟩
      rcases List.mem_cons.1 hx with rfl | hx
      · exact hlt.le
      · exact (hb x hx).trans hlt.le
    · rename_i hge
      refine List.pairwise_cons.2 ⟨fun x hx => ?_, Sorted.insert hrest⟩
      rcases mem_insertSolution.1 hx with rfl | hx
      · exact not_lt.1 hge
      · exact hb x hx

end Solutions

end Ltest
