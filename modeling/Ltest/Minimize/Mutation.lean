import Ltest.Minimize.Smart

/-!
# Concurrency under mutation (`SmartMinimizor::DropRandomTask`)

A mutation drops a task from a thread that is drawn. It is meant to leave two threads with tasks, but the guard counts
the entries of the map, and a thread that has lost all its tasks is still an entry. So with three entries of which two have
tasks, the last task of one of these is dropped (`DropsLast`), and two threads stay non-empty over a run of mutations just
as long as this does not happen (`dropTasks_concurrent_iff`).
-/

namespace Ltest

variable {γ : Type} {D : Dice γ}

/-- The threads that have tasks. -/
def TaskIds.concurrency (threads : TaskIds) : Nat := threads.countP fun thread => !thread.2.isEmpty

variable (D) in
/-- `DropRandomTask` one time after the other, each with the generator as it is then. -/
def dropTasks : TaskIds → List γ → TaskIds
  | threads, [] => threads
  | threads, g :: gs => dropTasks (dropRandomTask D threads g).1 gs

variable (D) in
/-- The thread that is drawn is one of two with tasks, it has only one, and the map has a further entry. -/
def DropsLast (threads : TaskIds) (g : γ) : Prop :=
  3 ≤ threads.length ∧ threads.concurrency = 2 ∧
    ∃ threadId task, threads[(D.uniform 0 (threads.length - 1) g).1]? = some (threadId, [task])

/-- `GenerateOffsprings` mutates by such a run. -/
theorem mutate_eq_dropTasks (mutationsCount : Nat) : ∀ (left : Nat) (threads : TaskIds) (g : γ),
    ∃ gs : List γ, gs.length ≤ left ∧ (mutate D mutationsCount left threads g).1 = dropTasks D threads gs
  | 0, threads, g => ⟨[], le_rfl, rfl⟩
  | left + 1, threads, g => by
    unfold mutate
    split
    · obtain ⟨gs, hlen, heq⟩ := mutate_eq_dropTasks mutationsCount left (dropRandomTask D threads g).1
        (dropRandomTask D threads g).2
      exact ⟨g :: gs, Nat.succ_le_succ hlen, heq⟩
    · dsimp only
      split
      · obtain ⟨gs, hlen, heq⟩ := mutate_eq_dropTasks mutationsCount left (dropRandomTask D threads (D.real g).2).1
          (dropRandomTask D threads (D.real g).2).2
        exact ⟨(D.real g).2 :: gs, Nat.succ_le_succ hlen, heq⟩
      · obtain ⟨gs, hlen, heq⟩ := mutate_eq_dropTasks mutationsCount left threads (D.real g).2
        exact ⟨gs, Nat.le_succ_of_le hlen, heq⟩

/-! ## One mutation -/

section Drop

variable {threads : TaskIds} {threadId i : Nat} {tasks tasks' : List Int}

/-- The threads with tasks when those of one thread change. -/
theorem concurrency_set (tasks' : List Int) (h : threads[i]? = some (threadId, tasks)) (hne : tasks ≠ []) :
    TaskIds.concurrency (threads.set i (threadId, tasks')) + (if tasks' = [] then 1 else 0) = threads.concurrency := by
  obtain ⟨hi, hget⟩ := List.getElem?_eq_some_iff.1 h
  have hpos : 0 < threads.concurrency := by
    refine List.countP_pos_iff.2 ⟨_, List.mem_of_getElem? h, ?_⟩
    simpa using hne
  unfold TaskIds.concurrency at hpos ⊢
  rw [List.countP_set hi, hget]
  have hfull : (!tasks.isEmpty) = true := by simpa using hne
  cases tasks' with
  | nil =>
    simp only [hfull, List.isEmpty_nil, Bool.not_true, if_true, Bool.false_eq_true, if_false]
    omega
  | cons t ts =>
    simp only [hfull, List.isEmpty_cons, Bool.not_false, if_true, reduceCtorEq, if_false]
    omega

theorem concurrency_le_length (threads : TaskIds) : threads.concurrency ≤ threads.length := List.countP_le_length

/-- **One mutation** leaves two threads with tasks unless it drops the last task of one of two. -/
theorem dropRandomTask_concurrent_iff (h : 2 ≤ threads.concurrency) (g : γ) :
    2 ≤ (dropRandomTask D threads g).1.concurrency ↔ ¬ DropsLast D threads g := by
  have hlength := concurrency_le_length threads
  have hrange := (D.uniform_range 0 (threads.length - 1) g (Nat.zero_le _)).2
  have hne : threads ≠ [] := by
    rintro rfl
    simp at hlength
    omega
  unfold dropRandomTask DropsLast
  rw [if_neg hne]
  dsimp only
  generalize (D.uniform 0 (threads.length - 1) g).1 = threadIndex at hrange ⊢
  obtain ⟨threadId, tasks, hthread⟩ : ∃ threadId tasks, threads[threadIndex]? = some (threadId, tasks) :=
    ⟨_, _, List.getElem?_eq_getElem (by omega)⟩
  simp only [hthread, Option.some.injEq, Prod.mk.injEq]
  by_cases hguard : tasks = [] ∨ tasks.length = 1 ∧ threads.length = 2
  · -- The guard holds: nothing is dropped.
    rw [if_pos hguard]
    refine ⟨?_, fun _ => h⟩
    rintro - ⟨hthree, -, _, task, -, rfl⟩
    obtain hnil | ⟨-, htwo⟩ := hguard
    · cases hnil
    · omega
  · rw [if_neg hguard]
    obtain ⟨htasks, hmore⟩ := not_or.1 hguard
    generalize hindex : (D.uniform 0 (tasks.length - 1) _).1 = taskIndex
    have hlast : taskIndex ≤ tasks.length - 1 := hindex ▸ (D.uniform_range _ _ _ (Nat.zero_le _)).2
    have hpos := List.length_pos_iff.2 htasks
    have hcount := concurrency_set (tasks.eraseIdx taskIndex) hthread htasks
    have hempty : tasks.eraseIdx taskIndex = [] ↔ ∃ task, tasks = [task] := by
      rw [← List.length_eq_zero_iff, List.length_eraseIdx_of_lt (by omega), ← List.length_eq_one_iff]
      omega
    dsimp only
    by_cases hone : ∃ task, tasks = [task]
    · -- The thread loses its last task.
      rw [if_pos (hempty.2 hone)] at hcount
      obtain ⟨task, rfl⟩ := hone
      have hthree : threads.length ≠ 2 := fun htwo => hmore ⟨rfl, htwo⟩
      refine ⟨fun hleft hlast => ?_, fun hnot => ?_⟩
      · have := hlast.2.1
        omega
      · by_contra hleft
        exact hnot ⟨by omega, by omega, threadId, task, rfl, rfl⟩
    · rw [if_neg (mt hempty.1 hone)] at hcount
      refine ⟨?_, fun _ => by omega⟩
      rintro - ⟨-, -, _, task, -, htask⟩
      exact hone ⟨task, htask⟩

end Drop

/-! ## Runs of mutations -/

/-- **Two threads have tasks after every mutation** exactly if none drops the last task of one of two threads that have
some, while the map has further entries. -/
theorem dropTasks_concurrent_iff (D : Dice γ) : ∀ (gs : List γ) (threads : TaskIds), 2 ≤ threads.concurrency →
    ((∀ n, 2 ≤ (dropTasks D threads (gs.take n)).concurrency) ↔
      ∀ n g, gs[n]? = some g → ¬ DropsLast D (dropTasks D threads (gs.take n)) g)
  | [], threads, h => by
    refine ⟨fun _ n g hg => by simp at hg, fun _ n => ?_⟩
    rw [List.take_nil]
    exact h
  | g :: gs, threads, h => by
    constructor
    · intro hrun n
      have hfirst : 2 ≤ (dropRandomTask D threads g).1.concurrency := hrun 1
      cases n with
      | zero =>
        rintro _ ⟨⟩
        exact (dropRandomTask_concurrent_iff h g).1 hfirst
      | succ n => exact (dropTasks_concurrent_iff D gs _ hfirst).1 (fun n => hrun (n + 1)) n
    · intro hcalm n
      have hfirst := (dropRandomTask_concurrent_iff h g).2 (hcalm 0 g rfl)
      cases n with
      | zero => exact h
      | succ n => exact (dropTasks_concurrent_iff D gs _ hfirst).2 (fun n => hcalm (n + 1)) n

theorem dropTasks_concurrent_iff_pair :
    (∀ n, 2 ≤ (dropTasks cyclicDice [(0, [1]), (1, [2])] ([0, 1].take n)).concurrency) ↔
      ∀ n g, [0, 1][n]? = some g → ¬ DropsLast cyclicDice (dropTasks cyclicDice [(0, [1]), (1, [2])] ([0, 1].take n)) g :=
  dropTasks_concurrent_iff cyclicDice [0, 1] [(0, [1]), (1, [2])] (by decide)

/-- Of three threads with a task each, two lose theirs. -/
theorem dropTasks_leaves_one : ¬ ∀ (D : Dice Nat) (gs : List Nat) (threads : TaskIds), 2 ≤ threads.concurrency →
    ∀ n, 2 ≤ (dropTasks D threads (gs.take n)).concurrency := by
  intro hclaim
  have htwo := hclaim cyclicDice [0, 1] [(0, [1]), (1, [2]), (2, [3])] (by decide) 2
  revert htwo
  decide

end Ltest
