import Ltest.Runtime.Logbook
import Ltest.Strategy.Generated
import Mathlib.Algebra.Order.BigOperators.Group.List
import Mathlib.Algebra.Order.Ring.Nat

/-!
# All tasks and all threads

The invariant of a target says something of every task (`World.Every`), and how many threads do something. `World.total`
adds a weight of the last task over all threads; what a step does to it is what it does to the weight of one task
(`total_pushTask`, `total_set`, `total_askBlocked`), and two threads weigh no more than all of them (`weight_add_le_total`).
-/

namespace Ltest

variable {σ κ α ν : Type} {w : World σ κ α ν} {f : Coro κ α ν → Nat} {i j : Nat} {tasks : List (Coro κ α ν)}
  {c d : Coro κ α ν}

/-! ## All tasks -/

/-- All tasks of the world are such. -/
def World.Every (p : Coro κ α ν → Prop) (w : World σ κ α ν) : Prop := ∀ slot c, w.task slot = some c → p c

section Every

variable {p : Coro κ α ν → Prop} {u : World σ κ α ν} {before : List (Coro κ α ν)}

theorem World.Every.empty (h : ∀ tasks ∈ w.threads, tasks = []) : w.Every p := by
  intro slot c hc
  rw [World.task_of_empty h] at hc
  cases hc

theorem World.Every.askBlocked (h : w.Every p) (hp : ∀ c, p c → p { c with fstate := none }) (T : Target σ κ ν)
    (slot : Slot) : (w.askBlocked T slot).Every p := by
  intro slot' c hc
  unfold World.askBlocked at hc
  split at hc
  · exact h slot' c hc
  · rename_i d hd
    split at hc
    · exact h slot' c hc
    · by_cases hslot : slot' = slot
      · subst hslot
        obtain rfl := Option.some.inj ((World.task_setTask hd).symm.trans hc)
        exact hp d (h slot' d hd)
      · exact h slot' c ((World.task_setTask_of_ne hslot).symm.trans hc)

theorem World.Every.pushTask (h : w.Every p) (hi : w.threads[i]? = some tasks) (hc : p c) : (w.pushTask i c).Every p := by
  intro slot d hd
  rw [task_pushTask hi] at hd
  split at hd
  · obtain rfl := Option.some.inj hd
    exact hc
  · exact h slot d hd

/-- The last task of a thread is replaced. -/
theorem World.Every.set (h : w.Every p) (hi : w.threads[i]? = some (before ++ [c]))
    (hu : u.threads = w.threads.set i (before ++ [d])) (hd : p d) : u.Every p := by
  have hset : (w.setTask (i, before.length) d).threads = u.threads := by
    rw [hu]
    unfold World.setTask
    rw [modify_threads hi, List.set_append_right _ _ (Nat.le_refl _), Nat.sub_self, List.set_cons_zero]
  have hc : w.task (i, before.length) = some c := World.task_eq_some.2 ⟨_, hi, by simp⟩
  intro slot e he
  have he : (w.setTask (i, before.length) d).task slot = some e := by
    unfold World.task at he ⊢
    rwa [hset]
  by_cases hslot : slot = (i, before.length)
  · subst hslot
    obtain rfl := Option.some.inj ((World.task_setTask hc).symm.trans he)
    exact hd
  · exact h slot e ((World.task_setTask_of_ne hslot).symm.trans he)

/-- The last task of a thread. -/
theorem World.Every.last (h : w.Every p) (hi : w.threads[i]? = some (before ++ [c])) : p c :=
  h (i, before.length) c (World.task_eq_some.2 ⟨_, hi, by simp⟩)

theorem World.Every.lastTask (h : w.Every p) (hc : w.lastTask i = some c) : p c := by
  obtain ⟨before, hi⟩ := snoc_of_lastTask hc
  exact h.last hi

end Every

/-! ## The last tasks -/

section LastTask

variable {u : World σ κ α ν} {before : List (Coro κ α ν)}

theorem lastTask_snoc (hi : w.threads[i]? = some (before ++ [c])) : w.lastTask i = some c := by
  simp [World.lastTask, hi]

theorem lastTask_pushTask (hi : w.threads[i]? = some tasks) (c : Coro κ α ν) (k : Nat) :
    (w.pushTask i c).lastTask k = if k = i then some c else w.lastTask k := by
  unfold World.pushTask World.lastTask
  rw [modify_threads hi]
  by_cases hk : k = i
  · subst hk
    rw [if_pos rfl, List.getElem?_set_self (List.getElem?_eq_some_iff.1 hi).1, Option.bind_some, List.getLast?_concat]
  · rw [if_neg hk, List.getElem?_set_ne (Ne.symm hk)]

/-- Tasks that are not finished are still the last ones when a task begins. -/
theorem lastTask_pushTask_of_unfinished {k : Nat} (hi : w.threads[i]? = some tasks)
    (hlast : ∀ d ∈ tasks.getLast?, d.isReturned = true) (hd : w.lastTask k = some d) (hr : d.isReturned = false) :
    (w.pushTask i c).lastTask k = some d := by
  rw [lastTask_pushTask hi, if_neg, hd]
  rintro rfl
  have hret := hlast d (by simpa [World.lastTask, hi] using hd)
  rw [hr] at hret
  cases hret

theorem lastTask_set (hi : w.threads[i]? = some (before ++ [c])) (hu : u.threads = w.threads.set i (before ++ [d]))
    (k : Nat) : u.lastTask k = if k = i then some d else w.lastTask k := by
  unfold World.lastTask
  rw [hu]
  by_cases hk : k = i
  · subst hk
    rw [if_pos rfl, List.getElem?_set_self (List.getElem?_eq_some_iff.1 hi).1, Option.bind_some, List.getLast?_concat]
  · rw [if_neg hk, List.getElem?_set_ne (Ne.symm hk)]

theorem lastTask_of_empty (h : ∀ tasks ∈ w.threads, tasks = []) (i : Nat) : w.lastTask i = none := by
  unfold World.lastTask
  cases hi : w.threads[i]? with
  | none => rfl
  | some tasks =>
    rw [h tasks (List.mem_of_getElem? hi)]
    rfl

/-- What does not look at the futex of a task stays the same. -/
theorem threads_askBlocked {A : Type} {f : Coro κ α ν → A} (hf : ∀ c : Coro κ α ν, f { c with fstate := none } = f c)
    (T : Target σ κ ν) (w : World σ κ α ν) (slot : Slot) :
    (w.askBlocked T slot).threads.map (·.map f) = w.threads.map (·.map f) := by
  unfold World.askBlocked
  split
  · rfl
  · rename_i c hc
    split
    · rfl
    · exact map_setTask hc (hf c)

/-- Asking does not change a task that waits on no futex. -/
theorem lastTask_asked (T : Target σ κ ν) (slot : Slot) (hrested : ∀ c ∈ w.lastTask i, c.fstate = none) :
    (w.askBlocked T slot).lastTask i = w.lastTask i := by
  have hlen : ((w.askBlocked T slot).threads[i]?.getD []).length = (w.threads[i]?.getD []).length := by
    have hsizes := congrArg (·[i]?) (threads_askBlocked (f := fun _ => ()) (fun _ => rfl) T w slot)
    rw [List.getElem?_map, List.getElem?_map] at hsizes
    cases hi : w.threads[i]? <;> cases hi' : (w.askBlocked T slot).threads[i]? <;> simp [hi, hi'] at hsizes ⊢
    exact hsizes
  rw [← task_lastSlot, ← task_lastSlot, hlen]
  rw [← task_lastSlot] at hrested
  generalize (i, (w.threads[i]?.getD []).length - 1) = last at hrested
  unfold World.askBlocked
  split
  · rfl
  · rename_i c hc
    split
    · rfl
    · by_cases hlast : last = slot
      · subst hlast
        rw [World.task_setTask hc, hc, ← hrested c hc]
      · exact World.task_setTask_of_ne hlast

end LastTask

/-! ## The weights of the last tasks -/

/-- The weight of the last task of a thread. -/
def lastWeight (f : Coro κ α ν → Nat) (tasks : List (Coro κ α ν)) : Nat := (tasks.getLast?.map f).getD 0

/-- The weights of the last tasks of all threads. -/
def World.total (f : Coro κ α ν → Nat) (w : World σ κ α ν) : Nat := (w.threads.map (lastWeight f)).sum

@[simp] theorem lastWeight_nil : lastWeight f [] = 0 := rfl

@[simp] theorem lastWeight_snoc (before : List (Coro κ α ν)) : lastWeight f (before ++ [c]) = f c := by
  simp [lastWeight]

/-- One entry of a sum changes. -/
theorem sum_set_add : ∀ {l : List Nat} {i n : Nat} (k : Nat), l[i]? = some n → (l.set i k).sum + n = l.sum + k
  | [], _, _, _, h => by cases h
  | a :: l, 0, n, k, h => by
    obtain rfl : a = n := Option.some.inj h
    rw [List.set_cons_zero, List.sum_cons, List.sum_cons]
    omega
  | a :: l, i + 1, n, k, h => by
    have ih := sum_set_add (l := l) k (show l[i]? = some n from h)
    rw [List.set_cons_succ, List.sum_cons, List.sum_cons]
    omega

theorem total_of_empty (h : ∀ tasks ∈ w.threads, tasks = []) : w.total f = 0 := by
  refine List.sum_eq_zero fun n hn => ?_
  obtain ⟨tasks, htasks, rfl⟩ := List.mem_map.1 hn
  rw [h tasks htasks, lastWeight_nil]

/-- The tasks of one thread change. -/
theorem total_set {u : World σ κ α ν} {tasks' : List (Coro κ α ν)} (hi : w.threads[i]? = some tasks)
    (hu : u.threads = w.threads.set i tasks') :
    u.total f + lastWeight f tasks = w.total f + lastWeight f tasks' := by
  unfold World.total
  rw [hu, List.map_set]
  exact sum_set_add _ (by rw [List.getElem?_map, hi, Option.map_some])

theorem total_pushTask (hi : w.threads[i]? = some tasks) :
    (w.pushTask i c).total f + lastWeight f tasks = w.total f + f c := by
  have hpush : (w.pushTask i c).threads = w.threads.set i (tasks ++ [c]) := by
    unfold World.pushTask
    rw [modify_threads hi]
  rw [total_set hi hpush, lastWeight_snoc]

/-- A weight that does not look at the futex of a task. -/
theorem total_askBlocked (hweight : ∀ c : Coro κ α ν, f { c with fstate := none } = f c) (T : Target σ κ ν)
    (w : World σ κ α ν) (slot : Slot) : (w.askBlocked T slot).total f = w.total f := by
  have hlast : ∀ tasks : List (Coro κ α ν), lastWeight f tasks = ((tasks.map f).getLast?).getD 0 := by
    intro tasks
    rw [List.getLast?_map, lastWeight]
  have htotal : ∀ w : World σ κ α ν, w.total f = ((w.threads.map (·.map f)).map fun l => l.getLast?.getD 0).sum := by
    intro w
    unfold World.total
    rw [List.map_map]
    exact congrArg List.sum (List.map_congr_left fun tasks _ => hlast tasks)
  rw [htotal, htotal, threads_askBlocked hweight]

/-- Weights are added. -/
theorem total_add (f k : Coro κ α ν → Nat) (w : World σ κ α ν) :
    w.total (fun c => f c + k c) = w.total f + w.total k := by
  have hlast : ∀ tasks : List (Coro κ α ν),
      lastWeight (fun c => f c + k c) tasks = lastWeight f tasks + lastWeight k tasks := by
    intro tasks
    unfold lastWeight
    cases tasks.getLast? <;> rfl
  unfold World.total
  rw [← List.sum_map_add]
  exact congrArg List.sum (List.map_congr_left fun tasks _ => hlast tasks)

/-- Threads that weigh at most one are as many as there are. -/
theorem total_le_length (hf : ∀ c, f c ≤ 1) : w.total f ≤ w.threads.length := by
  have hlast : ∀ n ∈ w.threads.map (lastWeight f), n ≤ 1 := by
    intro n hn
    obtain ⟨tasks, -, rfl⟩ := List.mem_map.1 hn
    unfold lastWeight
    cases tasks.getLast? with
    | none => exact Nat.zero_le _
    | some c => exact hf c
  simpa [World.total] using List.sum_le_card_nsmul _ 1 hlast

/-- What the threads weigh without the tasks of one of them. -/
theorem total_without (hi : w.lastTask i = some c) :
    World.total f { w with threads := w.threads.set i [] } + f c = w.total f := by
  obtain ⟨tasks, hi, hc⟩ := Option.bind_eq_some_iff.1 hi
  have hlast : lastWeight f tasks = f c := by rw [lastWeight, hc, Option.map_some, Option.getD_some]
  rw [← hlast, total_set hi rfl, lastWeight_nil, Nat.add_zero]

/-- A thread weighs no more than all threads. -/
theorem weight_le_total (hi : w.lastTask i = some c) : f c ≤ w.total f := by
  rw [← total_without hi]
  exact Nat.le_add_left _ _

/-- Nor do two threads. -/
theorem weight_add_le_total (hi : w.lastTask i = some c) (hj : w.lastTask j = some d) (hij : i ≠ j) :
    f c + f d ≤ w.total f := by
  rw [← total_without hi, Nat.add_comm]
  refine Nat.add_le_add_right (weight_le_total (i := j) ?_) _
  unfold World.lastTask
  dsimp only
  rw [List.getElem?_set_ne hij]
  exact hj

/-- A thread that weighs something. -/
theorem exists_of_total_pos (h : 0 < w.total f) : ∃ i c, w.lastTask i = some c ∧ 0 < f c := by
  by_contra hno
  refine absurd (List.sum_eq_zero fun n hn => ?_) (Nat.ne_of_gt h)
  obtain ⟨tasks, htasks, rfl⟩ := List.mem_map.1 hn
  obtain ⟨i, hi⟩ := List.getElem?_of_mem htasks
  unfold lastWeight
  cases hc : tasks.getLast? with
  | none => rfl
  | some c =>
    by_contra hpos
    exact hno ⟨i, c, by rw [World.lastTask, hi, Option.bind_some, hc], Nat.pos_of_ne_zero hpos⟩

end Ltest
