import Ltest.Runtime.Verifier
import Mathlib.Algebra.Ring.Nat
import Mathlib.Data.Finset.Basic

/-!
# Strategies (`scheduler.h`)

`Round` holds the fields of `Strategy` and `BaseStrategyWithThreads`: the tasks of the current round, the ids that the
minimizers have marked as removed, and for each thread the task that `NextSchedule` is at. The strategies of the
repository (`PickStrategy` with its subclasses, `PctStrategy`) share how `Next` and `NextSchedule` go on from a thread;
what differs is how they choose the thread and the constructor, and what they remember between calls. A `Strategy` of the
model is such a choice, over any type `π` of hidden fields, so that a statement about every `Strategy` is one about every
policy and every random draw.
-/

namespace Ltest

variable {σ κ α ν ς ρ π : Type}

/-- `IsBlocked` on the task in a slot: a task that does not wait any more forgets its futex. -/
def World.askBlocked (T : Target σ κ ν) (w : World σ κ α ν) (slot : Slot) : World σ κ α ν :=
  match w.task slot with
  | none => w
  | some c => if c.waits T w.memory then w else w.setTask slot { c with fstate := none }

/-- The fields of `Strategy` and `BaseStrategyWithThreads`, and the random generator of the constructors. An entry of
`roundSchedule` is `none` where the source has `-1`. -/
structure Round (σ κ α ν ς ρ : Type) where
  world : World σ κ α ν
  newTaskId : Int
  removedTasks : Finset Int
  roundSchedule : List (Option Nat)
  schedChecker : ς
  rng : ρ

namespace Round

variable (r : Round σ κ α ν ς ρ)

/-- `IsTaskRemoved`. -/
def isTaskRemoved (id : Int) : Bool := decide (id ∈ r.removedTasks)

/-- `SetTaskRemoved`. -/
def setTaskRemoved (id : Int) (isRemoved : Bool) : Round σ κ α ν ς ρ :=
  { r with removedTasks := if isRemoved then insert id r.removedTasks else r.removedTasks.erase id }

/-- `GetTask`: the thread and the position of the first task with this id. -/
def getTask (id : Int) : Option Slot :=
  r.world.threads.zipIdx.findSome? fun (tasks, i) => (tasks.findIdx? (·.id == id)).map fun j => (i, j)

/-- `GetValidTasksCount`. -/
def getValidTasksCount : Nat := r.world.threads.flatten.countP fun c => !r.isTaskRemoved c.id

/-- `GetTotalTasksCount`. -/
def getTotalTasksCount : Nat := (r.world.threads.map List.length).sum

/-- `GetThreadsCount`. -/
def getThreadsCount : Nat := r.world.threads.length

/-- `GetNextTaskInThread`. -/
def getNextTaskInThread (i : Nat) : Nat :=
  let taskIndex := (r.roundSchedule[i]?.join).getD 0
  let tasks := r.world.threads[i]?.getD []
  taskIndex + ((tasks.drop taskIndex).takeWhile fun c => c.isReturned || r.isTaskRemoved c.id).length

end Round

/-! ## Termination -/

/-- What `TerminateTasks` does with thread `i` in one pass: says whether a task was resumed. -/
def terminateThread (T : Target σ κ ν) (i : Nat) (w : World σ κ α ν) (taskIndexes : List Nat) :
    Except Halt (Bool × World σ κ α ν × List Nat) :=
  let tasks := w.threads[i]?.getD []
  let taskIndex := (taskIndexes[i]?).getD 0
  let taskIndex := taskIndex + ((tasks.drop taskIndex).takeWhile fun c => c.isReturned).length
  match tasks[taskIndex]? with
  | none => .ok (false, w, taskIndexes.set i taskIndex)
  | some task =>
    if task.waits T w.memory then
      if taskIndex = tasks.length - 1 then .ok (false, w, taskIndexes.set i (taskIndex + 1)) else .error .blockedTask
    else
      match (w.askBlocked T (i, taskIndex)).resume T (i, taskIndex) with
      | .ok w => .ok (true, w, taskIndexes.set i taskIndex)
      | .error e => .error e

/-- One pass over the threads. -/
def terminatePass (T : Target σ κ ν) : List Nat → Bool → World σ κ α ν → List Nat →
    Except Halt (Bool × World σ κ α ν × List Nat)
  | [], again, w, taskIndexes => .ok (again, w, taskIndexes)
  | i :: threads, again, w, taskIndexes =>
    match terminateThread T i w taskIndexes with
    | .ok (resumed, w, taskIndexes) => terminatePass T threads (again || resumed) w taskIndexes
    | .error e => .error e

/-- The passes, until one resumes no task. -/
def terminatePasses (T : Target σ κ ν) : Nat → World σ κ α ν → List Nat → Except Halt (World σ κ α ν)
  | 0, _, _ => .error .outOfFuel
  | fuel + 1, w, taskIndexes =>
    match terminatePass T (List.range w.threads.length) false w taskIndexes with
    | .ok (again, w, taskIndexes) => if again then terminatePasses T fuel w taskIndexes else .ok w
    | .error e => .error e

/-! ## Strategies -/

/-- A strategy and the fields it keeps for itself. -/
structure Stage (σ κ α ν ς ρ π : Type) where
  round : Round σ κ α ν ς ρ
  policy : π

/-- What the strategies differ in. -/
structure Strategy (σ κ α ν ς ρ π : Type) where
  target : Target σ κ ν
  verifier : StrategyVerifier ς κ α ν
  /-- The thread of `Next`, and the threads whose last tasks are asked whether they are blocked. -/
  pick : Round σ κ α ν ς ρ → π → Except Halt (Nat × List Nat × π)
  /-- The constructor of a new task on a thread, and the verifier after the calls of `Verify`. -/
  construct : Round σ κ α ν ς ρ → Nat → π → Except Halt (TaskBuilder σ κ α ρ × ς × π)
  /-- The thread of `NextSchedule`. -/
  pickSchedule : Round σ κ α ν ς ρ → π → Except Halt (Nat × π)
  /-- What `ResetCurrentRound` and `StartNextRound` do besides what they do in every strategy. -/
  update : π → π

/-- `TaskWithMetaData`, with the slot of its task. -/
structure Picked where
  slot : Slot
  isNew : Bool
  threadId : Nat
  deriving Repr, DecidableEq

namespace Strategy

variable (S : Strategy σ κ α ν ς ρ π)

/-- `TerminateTasks`. -/
def terminateTasks (fuel : Nat) (r : Round σ κ α ν ς ρ) : Except Halt (Round σ κ α ν ς ρ) :=
  if r.roundSchedule.length ≠ r.world.threads.length then .error .sizesDiffer
  else
    match terminatePasses S.target fuel r.world (List.replicate r.world.threads.length 0) with
    | .ok w => .ok { r with
        world := { w with memory := S.target.reset w.memory }
        roundSchedule := r.roundSchedule.map fun _ => none
        schedChecker := S.verifier.reset r.schedChecker }
    | .error e => .error e

variable [Inhabited ν]

/-- The loop of `ResetCurrentRound`: tasks that are not removed are restarted, and have to have returned. -/
def restartTasks (r : Round σ κ α ν ς ρ) : Except Halt (Round σ κ α ν ς ρ) :=
  if r.world.threads.flatten.all fun c => r.isTaskRemoved c.id || c.isReturned then
    .ok { r with world := { r.world with
      threads := r.world.threads.map (·.map fun c => if r.isTaskRemoved c.id then c else c.restart) } }
  else .error .unreturnedTask

/-- `ResetCurrentRound`. -/
def resetCurrentRound (fuel : Nat) (st : Stage σ κ α ν ς ρ π) : Except Halt (Stage σ κ α ν ς ρ π) := do
  let r ← S.terminateTasks fuel st.round
  let r ← restartTasks r
  return ⟨r, S.update st.policy⟩

omit [Inhabited ν] in
/-- `StartNextRound`. -/
def startNextRound (fuel : Nat) (st : Stage σ κ α ν ς ρ π) : Except Halt (Stage σ κ α ν ς ρ π) := do
  let r ← S.terminateTasks fuel { st.round with newTaskId := 0 }
  return ⟨{ r with world := { r.world with threads := r.world.threads.map fun _ => [] } }, S.update st.policy⟩

/-- The part of `Next` that comes after the choice of a thread. -/
def nextOn (i : Nat) (r : Round σ κ α ν ς ρ) (p : π) : Except Halt (Picked × Stage σ κ α ν ς ρ π) :=
  match r.world.threads[i]? with
  | none => .error .badSlot
  | some tasks =>
    match tasks.getLast?.filter (!·.isReturned) with
    | some _ => .ok (⟨(i, tasks.length - 1), false, i⟩, ⟨r, p⟩)
    | none => do
      let (constructor, v, p) ← S.construct r i p
      let (task, g) := constructor.build r.world.memory i r.newTaskId r.rng
      return (⟨(i, tasks.length), true, i⟩, ⟨{ r with
        world := r.world.pushTask i task
        newTaskId := r.newTaskId + 1
        schedChecker := v
        rng := g }, p⟩)

/-- `Next`. -/
def next (st : Stage σ κ α ν ς ρ π) : Except Halt (Picked × Stage σ κ α ν ς ρ π) := do
  let (i, asked, p) ← S.pick st.round st.policy
  let w := asked.foldl (fun w i => w.askBlocked S.target (i, (w.threads[i]?.getD []).length - 1)) st.round.world
  S.nextOn i { st.round with world := w } p

omit [Inhabited ν] in
/-- `NextSchedule`. -/
def nextSchedule (st : Stage σ κ α ν ς ρ π) : Except Halt (Picked × Stage σ κ α ν ς ρ π) := do
  let (i, p) ← S.pickSchedule st.round st.policy
  let j := st.round.getNextTaskInThread i
  if j < (st.round.world.threads[i]?.getD []).length then
    return (⟨(i, j), st.round.roundSchedule[i]?.join != some j, i⟩,
      ⟨{ st.round with roundSchedule := st.round.roundSchedule.set i (some j) }, p⟩)
  else throw .badSlot

end Strategy

end Ltest
