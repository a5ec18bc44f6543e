import Ltest.Lincheck.History

/-!
# Tasks (`lib.h`, `lib.cpp`)

A task is a coroutine over the memory of the target. What the scheduler sees of its body is how it gives control back
(`Suspension`), so a `Target` is a function from a suspended context and a memory to the next suspension. The memory
also holds the flags of the tokens and the futex words, which the schedulers only read.

`World` is what all schedulers share: the memory, the tasks of each thread and the global `coroutine_status`. Histories
and frames refer to tasks by `Slot`, as the references of the source do, so that restarting a task in its slot shows in
every history that mentions it.
-/

namespace Ltest

/-- `CoroutineStatus`. -/
structure CoroutineStatus where
  name : String
  hasStarted : Bool
  deriving Repr, DecidableEq

/-- How the body of a task gives control back. -/
inductive Suspension (κ ν : Type) where
  | returned (ret : ν)
  /-- `CoroYield`, also from `Token::Park`. -/
  | yield (ctx : κ)
  /-- `CoroutineStatusChange`. -/
  | status (status : CoroutineStatus) (ctx : κ)
  /-- `SetBlocked` and `CoroYield`, from a futex wait. -/
  | blocked (addr : Nat) (value : Int) (ctx : κ)

/-- The object under test: its memory, `Reset`, and what a context does up to its next suspension. -/
structure Target (σ κ ν : Type) where
  initial : σ
  reset : σ → σ
  run : κ → σ → Suspension κ ν × σ
  parked : σ → Nat → Bool
  word : σ → Nat → Int

/-- `Coro`. The context that `New` makes of `func` and `args` is `func`. -/
structure Coro (κ α ν : Type) where
  id : Int
  name : String
  args : α
  func : κ
  token : Option Nat
  ctx : κ
  ret : ν
  isReturned : Bool
  fstate : Option (Nat × Int)
  deriving DecidableEq

/-- Why a run stops: a failed assertion, a bad access, or the end of the fuel. -/
inductive Halt where
  | returnedTask
  | unreturnedTask
  | spinning
  | parkedTask
  | coroutineStart
  | deadlock
  | verifierFailed
  | emptyHistory
  | blockedTask
  | sizesDiffer
  | invalidTaskId
  | noConstructor
  | oddHistory
  | badSlot
  | outOfFuel
  deriving Repr, DecidableEq

/-- A reference to a task: its thread and its position there. -/
abbrev Slot := Nat × Nat

variable {σ κ α ν ρ : Type}

namespace Coro

/-- `Coro::New`, with the token that the builder or `Restart` sets. -/
def new [Inhabited ν] (id : Int) (name : String) (args : α) (func : κ) (token : Option Nat) : Coro κ α ν where
  id := id
  name := name
  args := args
  func := func
  token := token
  ctx := func
  ret := default
  isReturned := false
  fstate := none

/-- `Restart`, once the task has returned. -/
def restart [Inhabited ν] (c : Coro κ α ν) : Coro κ α ν := new c.id c.name c.args c.func c.token

/-- `Resume`, on a task that has not returned: the task, the memory and the mark the task left, if any. -/
def resume (T : Target σ κ ν) (c : Coro κ α ν) (m : σ) : Coro κ α ν × σ × Option CoroutineStatus :=
  match T.run c.ctx m with
  | (.returned v, m) => ({ c with ret := v, isReturned := true }, m, none)
  | (.yield ctx, m) => ({ c with ctx := ctx }, m, none)
  | (.status st ctx, m) => ({ c with ctx := ctx }, m, some st)
  | (.blocked addr value ctx, m) => ({ c with ctx := ctx, fstate := some (addr, value) }, m, none)

/-- `IsParked`. -/
def isParked (T : Target σ κ ν) (c : Coro κ α ν) (m : σ) : Bool := c.token.any (T.parked m)

/-- The condition of `IsBlocked`: the futex word still has the value the task waits on. -/
def waits (T : Target σ κ ν) (c : Coro κ α ν) (m : σ) : Bool := c.fstate.any fun f => T.word m f.1 == f.2

/-- What a checker reads of a task. -/
def view (c : Coro κ α ν) : TaskView α ν := ⟨c.name, c.args, c.ret⟩

end Coro

/-- `TaskBuilder`, as `TargetMethod` makes it: a name, and a generator of arguments that may draw random numbers. -/
structure TaskBuilder (σ κ α ρ : Type) where
  name : String
  gen : σ → Nat → ρ → (α × κ × Option Nat) × ρ

/-- `Build`. -/
def TaskBuilder.build [Inhabited ν] (b : TaskBuilder σ κ α ρ) (m : σ) (thread : Nat) (id : Int) (g : ρ) :
    Coro κ α ν × ρ :=
  match b.gen m thread g with
  | ((args, func, token), g) => (.new id b.name args func token, g)

/-! ## The world of a scheduler -/

/-- The memory, the tasks of every thread, and `coroutine_status`. -/
structure World (σ κ α ν : Type) where
  memory : σ
  threads : List (List (Coro κ α ν))
  coroutineStatus : Option CoroutineStatus

namespace World

/-- The task a reference refers to. -/
def task (w : World σ κ α ν) (slot : Slot) : Option (Coro κ α ν) := w.threads[slot.1]?.bind (·[slot.2]?)

/-- `*task = c`. -/
def setTask (w : World σ κ α ν) (slot : Slot) (c : Coro κ α ν) : World σ κ α ν :=
  { w with threads := w.threads.modify slot.1 (·.set slot.2 c) }

/-- `emplace_back` on the tasks of a thread. -/
def pushTask (w : World σ κ α ν) (i : Nat) (c : Coro κ α ν) : World σ κ α ν :=
  { w with threads := w.threads.modify i (· ++ [c]) }

/-- `pop_back` on the tasks of a thread. -/
def popTask (w : World σ κ α ν) (i : Nat) : World σ κ α ν :=
  { w with threads := w.threads.modify i List.dropLast }

/-- `Resume` on the task in a slot. -/
def resume (T : Target σ κ ν) (w : World σ κ α ν) (slot : Slot) : Except Halt (World σ κ α ν) :=
  match w.task slot with
  | none => .error .badSlot
  | some c =>
    if c.isReturned then .error .returnedTask
    else
      match c.resume T w.memory with
      | (c, m, st) =>
        .ok { (w.setTask slot c) with memory := m, coroutineStatus := st.or w.coroutineStatus }

/-- The loop of `Terminate` with `left` tries left: the assertion fails at the last one. -/
def terminateLoop (T : Target σ κ ν) (slot : Slot) : Nat → World σ κ α ν → Except Halt (World σ κ α ν)
  | 0, _ => .error .spinning
  | left + 1, w =>
    match w.task slot with
    | none => .error .badSlot
    | some c =>
      if c.isReturned then .ok w
      else do
        let w ← w.resume T slot
        if left = 0 then .error .spinning else terminateLoop T slot left w

/-- `Terminate`: `tries < 10000000` is asserted after every resume. -/
def terminate (T : Target σ κ ν) (w : World σ κ α ν) (slot : Slot) : Except Halt (World σ κ α ν) :=
  terminateLoop T slot 10000000 w

/-- `*task = (*task)->Restart(&state)`. -/
def restart [Inhabited ν] (w : World σ κ α ν) (slot : Slot) : Except Halt (World σ κ α ν) :=
  match w.task slot with
  | none => .error .badSlot
  | some c => if c.isReturned then .ok (w.setTask slot c.restart) else .error .unreturnedTask

/-- A history with the tasks its references refer to, as a checker finds them. -/
def resolve (w : World σ κ α ν) (history : List (HistoryEvent Slot ν)) :
    List (HistoryEvent (Slot × Option (TaskView α ν)) ν) :=
  history.map (·.mapTask fun slot => (slot, (w.task slot).map Coro.view))

/-! ### Slots -/

theorem task_eq_some {w : World σ κ α ν} {slot : Slot} {c : Coro κ α ν} :
    w.task slot = some c ↔ ∃ tasks, w.threads[slot.1]? = some tasks ∧ tasks[slot.2]? = some c := by
  simp [task, Option.bind_eq_some_iff]

theorem task_of_empty {w : World σ κ α ν} (h : ∀ tasks ∈ w.threads, tasks = []) (slot : Slot) : w.task slot = none := by
  by_contra hsome
  obtain ⟨c, hc⟩ := Option.ne_none_iff_exists'.1 hsome
  obtain ⟨tasks, htasks, hj⟩ := task_eq_some.1 hc
  rw [h tasks (List.mem_of_getElem? htasks)] at hj
  cases hj

theorem task_setTask {w : World σ κ α ν} {slot : Slot} {c d : Coro κ α ν} (h : w.task slot = some c) :
    (w.setTask slot d).task slot = some d := by
  obtain ⟨tasks, hts, hc⟩ := task_eq_some.1 h
  refine task_eq_some.2 ⟨tasks.set slot.2 d, ?_, ?_⟩
  · simp [setTask, hts]
  · simp [(List.getElem?_eq_some_iff.1 hc).1]

theorem task_setTask_of_ne {w : World σ κ α ν} {slot slot' : Slot} {c : Coro κ α ν} (h : slot' ≠ slot) :
    (w.setTask slot c).task slot' = w.task slot' := by
  obtain ⟨i, j⟩ := slot
  obtain ⟨i', j'⟩ := slot'
  unfold task setTask
  by_cases hi : i = i'
  · subst hi
    have hj : j ≠ j' := fun hj => h (by rw [hj])
    cases hthread : w.threads[i]? <;> simp [hthread, List.getElem?_set_ne hj]
  · simp [hi]

/-- What `Resume` does on a task that has not returned. -/
theorem resume_eq_ok {T : Target σ κ ν} {w w' : World σ κ α ν} {slot : Slot} : w.resume T slot = .ok w' ↔
    ∃ c, w.task slot = some c ∧ c.isReturned = false ∧ w' = { (w.setTask slot (c.resume T w.memory).1) with
      memory := (c.resume T w.memory).2.1
      coroutineStatus := (c.resume T w.memory).2.2.or w.coroutineStatus } := by
  unfold resume
  cases w.task slot with
  | none => simp
  | some c =>
    cases hr : c.isReturned with
    | true => simp [hr]
    | false =>
      simp only [hr, Bool.false_eq_true, ↓reduceIte, Except.ok.injEq, Option.some.injEq, true_and, exists_eq_left']
      exact eq_comm

theorem restart_eq_ok [Inhabited ν] {w w' : World σ κ α ν} {slot : Slot} : w.restart slot = .ok w' ↔
    ∃ c, w.task slot = some c ∧ c.isReturned = true ∧ w' = w.setTask slot c.restart := by
  unfold restart
  split
  · rename_i hnone
    simp [hnone]
  · rename_i c hc
    simp only [hc, Option.some.injEq, exists_eq_left']
    split
    · rename_i hr
      simp only [Except.ok.injEq, hr, true_and]
      exact eq_comm
    · rename_i hr
      simp [hr]

end World

/-! ## The tasks of a world -/

section Worlds

variable {w : World σ κ α ν} {i : Nat} {tasks : List (Coro κ α ν)}

theorem modify_threads (h : w.threads[i]? = some tasks) (f : List (Coro κ α ν) → List (Coro κ α ν)) :
    w.threads.modify i f = w.threads.set i (f tasks) := by
  rw [List.modify_eq_set, h]
  rfl

theorem set_self {A : Type} {l : List A} {a : A} (h : l[i]? = some a) : l.set i a = l := by
  obtain ⟨hlt, rfl⟩ := List.getElem?_eq_some_iff.1 h
  simp

/-- A world is what its tasks are. -/
theorem world_ext {w' : World σ κ α ν} (hmemory : w'.memory = w.memory) (hstatus : w'.coroutineStatus = w.coroutineStatus)
    (hlen : w'.threads.length = w.threads.length) (htask : ∀ slot, w'.task slot = w.task slot) : w' = w := by
  obtain ⟨m, ts, st⟩ := w
  obtain ⟨m', ts', st'⟩ := w'
  obtain rfl : m' = m := hmemory
  obtain rfl : st' = st := hstatus
  congr 1
  refine List.ext_getElem hlen fun i h h' => List.ext_getElem? fun j => ?_
  have hij := htask (i, j)
  unfold World.task at hij
  simpa [List.getElem?_eq_getElem h, List.getElem?_eq_getElem h'] using hij

/-- The tasks after one more has been built. -/
theorem task_pushTask {task : Coro κ α ν}
    (h : w.threads[i]? = some tasks) (slot : Slot) :
    (w.pushTask i task).task slot = if slot = (i, tasks.length) then some task else w.task slot := by
  obtain ⟨i', j⟩ := slot
  unfold World.pushTask World.task
  rw [modify_threads h]
  by_cases hi : i = i'
  · subst hi
    have hlt := (List.getElem?_eq_some_iff.1 h).1
    simp only [List.getElem?_set_self hlt, h, Option.bind_some, Prod.mk.injEq, true_and]
    split
    · rename_i hj
      subst hj
      simp
    · rename_i hj
      rcases Nat.lt_or_ge j tasks.length with hlt | hge
      · rw [List.getElem?_append_left hlt]
      · rw [List.getElem?_eq_none (by simp; omega), List.getElem?_eq_none hge]
  · simp [List.getElem?_set_ne hi, Ne.symm hi]

/-- The tasks after the last one of a thread has been taken away. -/
theorem task_popTask {slot : Slot} {c : Coro κ α ν} (h : (w.popTask i).task slot = some c) : w.task slot = some c := by
  obtain ⟨tasks, htasks, hj⟩ := World.task_eq_some.1 h
  unfold World.popTask at htasks
  rw [List.getElem?_modify] at htasks
  obtain ⟨tasks', htasks', rfl⟩ := Option.map_eq_some_iff.1 htasks
  refine World.task_eq_some.2 ⟨tasks', htasks', ?_⟩
  split at hj
  · rw [List.getElem?_dropLast] at hj
    split at hj
    · exact hj
    · cases hj
  · exact hj

/-- The last task of thread `i` after a resume in memory `m`. -/
theorem resume_last {T : Target σ κ ν} {before after : List (Coro κ α ν)} {task : Coro κ α ν}
    (h : w.threads[i]? = some (before ++ task :: after)) (hr : task.isReturned = false) :
    w.resume T (i, before.length) = .ok ⟨(task.resume T w.memory).2.1,
      w.threads.set i (before ++ (task.resume T w.memory).1 :: after),
      (task.resume T w.memory).2.2.or w.coroutineStatus⟩ := by
  refine World.resume_eq_ok.2 ⟨task, World.task_eq_some.2 ⟨_, h, by simp⟩, hr, ?_⟩
  simp only [World.setTask, modify_threads h, List.set_append_right _ _ (Nat.le_refl _), Nat.sub_self, List.set_cons_zero]

/-- Resuming or restarting a task does not change what it is. -/
theorem restart_resume [Inhabited ν] (T : Target σ κ ν) (c : Coro κ α ν) (m : σ) :
    (c.resume T m).1.restart = c.restart := by
  unfold Coro.resume
  split <;> rfl

theorem token_resume (T : Target σ κ ν) (c : Coro κ α ν) (m : σ) : (c.resume T m).1.token = c.token := by
  unfold Coro.resume
  split <;> rfl

/-- A task is replaced: how many tasks satisfy a condition. -/
theorem countP_setTask {slot : Slot} {c d : Coro κ α ν} (p : Coro κ α ν → Bool) (h : w.task slot = some c) :
    (w.setTask slot d).threads.flatten.countP p + (if p c then 1 else 0) =
      w.threads.flatten.countP p + if p d then 1 else 0 := by
  obtain ⟨tasks, htasks, hj⟩ := World.task_eq_some.1 h
  obtain ⟨hi, hti⟩ := List.getElem?_eq_some_iff.1 htasks
  obtain ⟨hlt, hcj⟩ := List.getElem?_eq_some_iff.1 hj
  have hsplit : tasks = tasks.take slot.2 ++ c :: tasks.drop (slot.2 + 1) := by
    rw [← hcj, List.getElem_cons_drop, List.take_append_drop]
  have hthreads : w.threads = w.threads.take slot.1 ++ tasks :: w.threads.drop (slot.1 + 1) := by
    rw [← hti, List.getElem_cons_drop, List.take_append_drop]
  have hset : (w.setTask slot d).threads =
      w.threads.take slot.1 ++ (tasks.take slot.2 ++ d :: tasks.drop (slot.2 + 1)) :: w.threads.drop (slot.1 + 1) := by
    unfold World.setTask
    rw [modify_threads htasks, List.set_eq_take_append_cons_drop, if_pos hi, List.set_eq_take_append_cons_drop, if_pos hlt]
  have hold : w.threads.flatten.countP p = (w.threads.take slot.1 ++
      (tasks.take slot.2 ++ c :: tasks.drop (slot.2 + 1)) :: w.threads.drop (slot.1 + 1)).flatten.countP p := by
    rw [← hsplit, ← hthreads]
  rw [hset, hold]
  simp only [List.flatten_append, List.flatten_cons, List.countP_append, List.countP_cons]
  omega

variable [Inhabited ν]

/-- The same tasks, in whatever state they are. -/
def Alike (w w' : World σ κ α ν) : Prop :=
  w'.threads.map (·.map Coro.restart) = w.threads.map (·.map Coro.restart)

omit [Inhabited ν] in
/-- A task is replaced by one that is the same in what `f` shows. -/
theorem map_setTask {A : Type} {f : Coro κ α ν → A} {slot : Slot} {c c' : Coro κ α ν} (h : w.task slot = some c)
    (hc : f c' = f c) : (w.setTask slot c').threads.map (·.map f) = w.threads.map (·.map f) := by
  obtain ⟨tasks, htasks, hj⟩ := World.task_eq_some.1 h
  unfold World.setTask
  rw [modify_threads htasks, List.map_set, List.map_set, hc]
  refine set_self ?_
  rw [List.getElem?_map, htasks, set_self (by simp [hj])]
  rfl

/-- A task is replaced by one that restarts the same. -/
theorem alike_setTask {slot : Slot} {c c' : Coro κ α ν} (h : w.task slot = some c) (hc : c'.restart = c.restart) :
    Alike w (w.setTask slot c') := map_setTask h hc

theorem alike_resume {w' : World σ κ α ν} {T : Target σ κ ν} {slot : Slot} (h : w.resume T slot = .ok w') : Alike w w' := by
  obtain ⟨c, htask, _, rfl⟩ := World.resume_eq_ok.1 h
  exact alike_setTask htask (restart_resume T c w.memory)

omit [Inhabited ν] in
theorem task_map {w w' : World σ κ α ν} {A : Type} {f : Coro κ α ν → A}
    (h : w'.threads.map (·.map f) = w.threads.map (·.map f)) (slot : Slot) :
    (w'.task slot).map f = (w.task slot).map f := by
  have hthread := congrArg (·[slot.1]?) h
  simp only [List.getElem?_map] at hthread
  unfold World.task
  cases h' : w'.threads[slot.1]? <;> cases h'' : w.threads[slot.1]? <;> simp_all
  rename_i tasks' tasks
  simpa using congrArg (·[slot.2]?) hthread

end Worlds

/-- `ModelChecker::Check`. -/
abbrev ModelChecker (α ν : Type) := List (HistoryEvent (Slot × Option (TaskView α ν)) ν) → Bool

/-! ## A counter -/

/-- A counter whose tasks yield once before they add to it. -/
def counterTarget : Target Nat Bool Nat where
  initial := 0
  reset _ := 0
  run ctx m := if ctx then (.yield false, m) else (.returned m, m + 1)
  parked _ _ := false
  word _ _ := 0

end Ltest
