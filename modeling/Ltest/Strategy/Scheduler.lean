import Ltest.Strategy.Base

/-!
# The scheduler of a strategy (`StrategyScheduler`, `scheduler.h`)

`RunRound` generates a round while it runs it, `ExploreRound` runs the tasks of the current round in other
interleavings, `ReplayRound` runs them in a given one. All three keep a full history, with one reference for every
resume, and the sequential history that goes to the checker. The functions up to that call have names of their own
(`generate`, `explore`, `replay`), so that the histories a checker is given can be spoken of whatever it answers.

Loops that the source does not bound run on fuel.
-/

namespace Ltest

variable {σ κ α ν ς ρ π : Type}

/-- `Scheduler::BothHistories`. -/
structure BothHistories (ν : Type) where
  full : List Slot
  seq : List (HistoryEvent Slot ν)
  deriving DecidableEq

namespace BothHistories

/-- The histories before a task is resumed. -/
def push (h : BothHistories ν) (t : Picked) : BothHistories ν where
  full := h.full ++ [t.slot]
  seq := h.seq ++ if t.isNew then [.invoke t.slot t.threadId] else []

/-- The histories after a task has been resumed. -/
def respond (h : BothHistories ν) (t : Picked) (task : Coro κ α ν) : BothHistories ν :=
  if task.isReturned then { h with seq := h.seq ++ [.response t.slot task.ret t.threadId] } else h

end BothHistories

/-- `RoundMinimizor::GetTasksOrdering`. -/
def getTasksOrdering (w : World σ κ α ν) (full : List Slot) (exclude : Finset Int) : List Int :=
  (full.filterMap fun slot => (w.task slot).map Coro.id).filter fun id => decide (id ∉ exclude)

/-- The end of all three: the checker is asked. -/
def verdict (checker : ModelChecker α ν) (w : World σ κ α ν) (h : BothHistories ν) : Option (BothHistories ν) :=
  if !checker (w.resolve h.seq) then some h else none

namespace Stage

variable (st : Stage σ κ α ν ς ρ π)

def withWorld (w : World σ κ α ν) : Stage σ κ α ν ς ρ π := { st with round := { st.round with world := w } }

def setTaskRemoved (id : Int) (isRemoved : Bool) : Stage σ κ α ν ς ρ π :=
  { st with round := st.round.setTaskRemoved id isRemoved }

end Stage

/-- A task is resumed and what happens is logged. -/
def resumeLogged (T : Target σ κ ν) (t : Picked) (w : World σ κ α ν) (h : BothHistories ν) :
    Except Halt (Coro κ α ν × World σ κ α ν × BothHistories ν) := do
  let w ← w.resume T t.slot
  match w.task t.slot with
  | none => throw .badSlot
  | some task => return (task, w, (h.push t).respond t task)

/-- The loop of `RunRound` and `ExploreRound`: tasks are chosen and resumed until `left` of them have returned. -/
def playTasks (T : Target σ κ ν) (choose : Stage σ κ α ν ς ρ π → Except Halt (Picked × Stage σ κ α ν ς ρ π))
    (onFinish : Picked → Coro κ α ν → Stage σ κ α ν ς ρ π → Stage σ κ α ν ς ρ π) :
    Nat → Nat → Stage σ κ α ν ς ρ π → BothHistories ν → Except Halt (BothHistories ν × Stage σ κ α ν ς ρ π)
  | _, 0, st, h => .ok (h, st)
  | 0, _ + 1, _, _ => .error .outOfFuel
  | fuel + 1, left + 1, st, h => do
    let (t, st) ← choose st
    let (task, w, h) ← resumeLogged T t st.round.world h
    if task.isReturned then playTasks T choose onFinish fuel left (onFinish t task (st.withWorld w)) h
    else playTasks T choose onFinish fuel (left + 1) (st.withWorld w) h

namespace Strategy

variable [Inhabited ν] (S : Strategy σ κ α ν ς ρ π)

/-- `OnVerifierTaskFinish`. -/
def onVerifierTaskFinish (t : Picked) (task : Coro κ α ν) (st : Stage σ κ α ν ς ρ π) : Stage σ κ α ν ς ρ π :=
  { st with round := { st.round with
    schedChecker := S.verifier.onFinished st.round.schedChecker ⟨task, t.isNew, t.threadId⟩ } }

/-- `RunRound` up to the checker. -/
def generate (fuel maxTasks : Nat) (st : Stage σ κ α ν ς ρ π) :
    Except Halt (BothHistories ν × Stage σ κ α ν ς ρ π) :=
  playTasks S.target S.next S.onVerifierTaskFinish fuel maxTasks st ⟨[], []⟩

/-- `RunRound`. -/
def runRound (checker : ModelChecker α ν) (fuel maxTasks : Nat) (st : Stage σ κ α ν ς ρ π) :
    Except Halt (Option (BothHistories ν) × Stage σ κ α ν ς ρ π) := do
  let (h, st) ← S.generate fuel maxTasks st
  return (verdict checker st.round.world h, st)

/-- One run of `ExploreRound`, up to the checker. -/
def explore (fuel : Nat) (st : Stage σ κ α ν ς ρ π) : Except Halt (BothHistories ν × Stage σ κ α ν ς ρ π) := do
  let st ← S.resetCurrentRound fuel st
  playTasks S.target S.nextSchedule (fun _ _ st => st) fuel st.round.getValidTasksCount st ⟨[], []⟩

/-- `ExploreRound`. -/
def exploreRound (checker : ModelChecker α ν) (fuel : Nat) : Nat → Stage σ κ α ν ς ρ π →
    Except Halt (Option (BothHistories ν) × Stage σ κ α ν ς ρ π)
  | 0, st => .ok (none, st)
  | runs + 1, st => do
    let (h, st) ← S.explore fuel st
    match verdict checker st.round.world h with
    | some h => return (some h, st)
    | none => exploreRound checker fuel runs st

omit [Inhabited ν] in
/-- What `ReplayRound` does with an unfinished task that has `count` appearances left. -/
def advanceTask (T : Target σ κ ν) (count : Nat) (slot : Slot) (w : World σ κ α ν) : Except Halt (World σ κ α ν) :=
  if count = 0 then w.terminate T slot else w.resume T slot

omit [Inhabited ν] in
/-- The loop of `ReplayRound`. The count of a task is decremented where it is resumed; one that is `0` stays so. -/
def replayTasks (T : Target σ κ ν) : List Int → (Int → Nat) → Finset Int → Round σ κ α ν ς ρ → BothHistories ν →
    Except Halt (BothHistories ν × Round σ κ α ν ς ρ)
  | [], _, _, r, h => .ok (h, r)
  | id :: tasksOrdering, resumesCount, startedTasks, r, h =>
    match r.getTask id with
    | none => .error .invalidTaskId
    | some slot =>
      match r.world.task slot with
      | none => .error .badSlot
      | some task =>
        let t : Picked := ⟨slot, decide (id ∉ startedTasks), slot.1⟩
        if task.isReturned then
          replayTasks T tasksOrdering resumesCount (insert id startedTasks) r (h.push t)
        else do
          let w ← advanceTask T (resumesCount id) slot r.world
          match w.task slot with
          | none => .error .badSlot
          | some task =>
            replayTasks T tasksOrdering (Function.update resumesCount id (resumesCount id - 1))
              (insert id startedTasks) { r with world := w } ((h.push t).respond t task)

/-- `ReplayRound` up to the checker. -/
def replay (fuel : Nat) (tasksOrdering : List Int) (st : Stage σ κ α ν ς ρ π) :
    Except Halt (BothHistories ν × Stage σ κ α ν ς ρ π) := do
  let st ← S.resetCurrentRound fuel st
  let (h, r) ← replayTasks S.target tasksOrdering (fun id => tasksOrdering.count id) ∅ st.round ⟨[], []⟩
  return (h, { st with round := r })

/-- `ReplayRound`. -/
def replayRound (checker : ModelChecker α ν) (fuel : Nat) (tasksOrdering : List Int) (st : Stage σ κ α ν ς ρ π) :
    Except Halt (Option (BothHistories ν) × Stage σ κ α ν ς ρ π) := do
  let (h, st) ← S.replay fuel tasksOrdering st
  return (verdict checker st.round.world h, st)

end Strategy

end Ltest
