import Ltest.Runtime.Verifier

/-!
# The exhaustive scheduler (`TLAScheduler`, `scheduler.h`)

`RunStep` tries every choice of a next step, in thread order: resume the unfinished last task of a thread, or start a
task on a thread whose last task has returned. `ResumeTask` takes the step and calls `RunStep` for the steps after it;
when these are all tried it takes the step back by hand. A coroutine cannot be rewound, so after every choice `Replay`
terminates all tasks, resets the target and takes the steps of the frames again.

A program of the model is an `EStateM` program over the fields of the scheduler (`State`), so a run that stops at an
assertion keeps the state it had got to. `trace` records what the scheduler calls from outside (`Verify`, the
notifications, `Check`) and where calls of `ResumeTask` begin and return without a result; no other part of the
state depends on it. The recursion is on fuel, one unit for every level of `RunStep`.
-/

namespace Ltest.Tla

/-- An entry of `full_history`: `std::variant<std::reference_wrapper<Task>, CoroutineStatus>`. -/
inductive Entry where
  | task (slot : Slot)
  | status (status : CoroutineStatus)
  deriving Repr, DecidableEq

/-- `FullHistoryWithThreads`. -/
abbrev FullHistory := List (Nat × Entry)

/-- `Frame`. -/
structure Frame where
  task : Option Slot
  isNew : Bool
  deriving Repr, DecidableEq

/-- What a run records. -/
inductive Event (ς κ α ν : Type) where
  /-- `ResumeTask` is called. -/
  | enter (full : FullHistory)
  /-- A task of `thread` has been resumed and left `status`. -/
  | step (full : FullHistory) (thread : Nat) (slot : Slot) (isNew : Bool) (status : Option CoroutineStatus)
  | notify (note : Note κ α ν)
  | verify (verifier : ς) (task : CreatedTaskMetaData)
  | check (history : List (HistoryEvent (Slot × Option (TaskView α ν)) ν))
  /-- `ResumeTask` returns `{false, {}}`. -/
  | leave (full : FullHistory)
  deriving DecidableEq

/-- The fields of `TLAScheduler`, the random generator of the constructors, and the trace. -/
structure State (σ κ α ν ς ρ : Type) where
  world : World σ κ α ν
  startedTasks : Nat
  finishedTasks : Nat
  finishedRounds : Nat
  sequentialHistory : List (HistoryEvent Slot ν)
  fullHistory : FullHistory
  threadIdHistory : List Nat
  frames : List Frame
  verifier : ς
  rng : ρ
  trace : List (Event ς κ α ν)

/-- What `TLAScheduler` is constructed from. -/
structure Params (σ κ α ν ς ρ : Type) where
  target : Target σ κ ν
  maxTasks : Nat
  maxRounds : Nat
  threadsCount : Nat
  maxSwitches : Nat
  maxDepth : Nat
  constructors : List (TaskBuilder σ κ α ρ)
  checker : ModelChecker α ν
  cancel : σ → σ
  verifier : StrategyVerifier ς κ α ν

/-- `Scheduler::Result`. -/
abbrev Result (ν : Type) := Option (List Slot × List (HistoryEvent Slot ν))

variable {σ κ α ν ς ρ : Type}

/-- The programs of the scheduler. -/
abbrev Prog (σ κ α ν ς ρ : Type) := EStateM Halt (State σ κ α ν ς ρ)

/-! ## Replay -/

/-- `TerminateTasks` on the tasks in `slots`. -/
def terminateAll (T : Target σ κ ν) : List Slot → World σ κ α ν → Except Halt (World σ κ α ν)
  | [], w => .ok w
  | slot :: slots, w =>
    match w.task slot with
    | none => .error .badSlot
    | some c =>
      if c.isReturned then terminateAll T slots w
      else do
        let w ← w.terminate T slot
        terminateAll T slots w

/-- The slots of all tasks, in the order in which `TerminateTasks` visits them. -/
def allSlots (threads : List (List (Coro κ α ν))) : List Slot :=
  threads.zipIdx.flatMap fun (tasks, i) => (List.range tasks.length).map fun j => (i, j)

/-- `TerminateTasks`. -/
def terminateTasks (P : Params σ κ α ν ς ρ) (w : World σ κ α ν) : Except Halt (World σ κ α ν) :=
  terminateAll P.target (allSlots w.threads) { w with memory := P.cancel w.memory }

section

variable [Inhabited ν]

/-- One step of `Replay`. -/
def replayFrame (T : Target σ κ ν) (frame : Frame) (w : World σ κ α ν) : Except Halt (World σ κ α ν) :=
  match frame.task with
  | none => .error .badSlot
  | some slot => (if frame.isNew then w.restart slot else .ok w) >>= (·.resume T slot)

/-- The loop of `Replay` over the frames. -/
def replayFrames (T : Target σ κ ν) : List Frame → World σ κ α ν → Except Halt (World σ κ α ν)
  | [], w => .ok w
  | frame :: frames, w => do
    let w ← replayFrame T frame w
    replayFrames T frames w

/-- An operation on the world; when it fails the world is left as it was. -/
def onWorld (f : World σ κ α ν → Except Halt (World σ κ α ν)) : Prog σ κ α ν ς ρ Unit := fun s =>
  match f s.world with
  | .ok w => .ok () { s with world := w }
  | .error e => .error e s

/-- What `Replay` does to the world. -/
def replayWorld (P : Params σ κ α ν ς ρ) (frames : List Frame) (w : World σ κ α ν) : Except Halt (World σ κ α ν) := do
  let w ← terminateTasks P w
  let w ← replayFrames P.target frames { w with memory := P.target.reset w.memory }
  return { w with coroutineStatus := none }

/-- `Replay`. -/
def replay (P : Params σ κ α ν ς ρ) (stepEnd : Nat) : Prog σ κ α ν ς ρ Unit := do
  let s ← get
  onWorld (replayWorld P (s.frames.take stepEnd))

/-! ## One step -/

/-- Record an event. -/
def emit (e : Event ς κ α ν) : Prog σ κ α ν ς ρ Unit := modify fun s => { s with trace := s.trace ++ [e] }

/-- A notification to the verifier. -/
def notify (P : Params σ κ α ν ς ρ) (note : Note κ α ν) : Prog σ κ α ν ς ρ Unit := do
  emit (.notify note)
  modify fun s => { s with verifier := P.verifier.notify s.verifier note }

/-- `verifier.Verify`. -/
def verify (P : Params σ κ α ν ς ρ) (task : CreatedTaskMetaData) : Prog σ κ α ν ς ρ Bool := do
  let s ← get
  emit (.verify s.verifier task)
  match P.verifier.verify s.verifier task with
  | none => throw .verifierFailed
  | some (ok, v) =>
    modify fun s => { s with verifier := v }
    return ok

/-- `full_history.emplace_back`. -/
def pushFull (thread : Nat) (entry : Entry) : Prog σ κ α ν ς ρ Unit :=
  modify fun s => { s with fullHistory := s.fullHistory ++ [(thread, entry)] }

/-- `UpdateFullHistory`. -/
def updateFullHistory (P : Params σ κ α ν ς ρ) (thread : Nat) (slot : Slot) (name : String) (isNew : Bool) :
    Prog σ κ α ν ς ρ Unit := do
  let s ← get
  emit (.step s.fullHistory thread slot isNew s.world.coroutineStatus)
  match s.world.coroutineStatus with
  | some st =>
    if isNew && !st.hasStarted then throw .coroutineStart
    else
      if isNew then pushFull thread (.task slot)
      notify P (.updateState st.name thread st.hasStarted)
      pushFull thread (.status st)
      modify fun s => { s with world := { s.world with coroutineStatus := none } }
  | none =>
    notify P (.updateState name thread isNew)
    pushFull thread (.task slot)

/-- The task a reference refers to. -/
def readTask (slot : Slot) : Prog σ κ α ν ς ρ (Coro κ α ν) := do
  let s ← get
  match s.world.task slot with
  | none => throw .badSlot
  | some task => return task

/-- The part of `ResumeTask` that sees whether the task has returned. -/
def finishTask (P : Params σ κ α ν ς ρ) (thread : Nat) (slot : Slot) : Prog σ κ α ν ς ρ Bool := do
  let task ← readTask slot
  if task.isReturned then
    modify fun s => { s with finishedTasks := s.finishedTasks + 1 }
    notify P (.onFinished ⟨task, false, thread⟩)
    modify fun s => { s with sequentialHistory := s.sequentialHistory ++ [.response slot task.ret thread] }
    return true
  else return false

/-- The first part of `ResumeTask`: the last task of the thread is resumed and the histories are filled. Says whether
the task has returned. -/
def takeStep (P : Params σ κ α ν ς ρ) (thread : Nat) (isNew : Bool) : Prog σ κ α ν ς ρ Bool := do
  let s ← get
  let slot : Slot := (thread, (s.world.threads[thread]?.getD []).length - 1)
  modify fun s => { s with
    frames := s.frames.modify (s.frames.length - 1) fun frame => { frame with task := some slot }
    threadIdHistory := s.threadIdHistory ++ [thread]
    sequentialHistory := if isNew then s.sequentialHistory ++ [.invoke slot thread] else s.sequentialHistory }
  let task ← readTask slot
  if task.isParked P.target s.world.memory then throw .parkedTask
  else
    onWorld (·.resume P.target slot)
    updateFullHistory P thread slot task.name isNew
    finishTask P thread slot

/-- How many entries the undo part of `ResumeTask` pops off `full_history`: two when the last one is the start of a
coroutine and the one before it is a task and the first entry of the thread. -/
def popCount (full : FullHistory) (thread : Nat) : Entry → Nat
  | .task _ => 1
  | .status cor =>
    let firstInd := full.dropLast.findIdx fun a => a.1 == thread
    if cor.hasStarted && firstInd + 2 == full.length &&
        (full[full.length - 2]?).any (fun prev => match prev.2 with | .task _ => true | .status _ => false) then 2
    else 1

/-- `full_history` after the pops; `back()` needs an entry. -/
def popped (full : FullHistory) : Option FullHistory :=
  full.getLast?.map fun (thread, entry) => full.take (full.length - popCount full thread entry)

/-- The pops of `full_history`. -/
def popFull : Prog σ κ α ν ς ρ Unit := do
  let s ← get
  match popped s.fullHistory with
  | none => throw .emptyHistory
  | some full => modify fun s => { s with fullHistory := full }

/-- The last part of `ResumeTask`: the step is taken back. -/
def takeBack (isNew isFinished : Bool) : Prog σ κ α ν ς ρ Unit := do
  modify fun s => { s with threadIdHistory := s.threadIdHistory.dropLast }
  popFull
  if isFinished then
    modify fun s => { s with
      finishedTasks := s.finishedTasks - 1
      sequentialHistory := s.sequentialHistory.dropLast }
  if isNew then
    modify fun s => { s with
      startedTasks := s.startedTasks - 1
      sequentialHistory := s.sequentialHistory.dropLast }

/-- The end of a round: the history goes to the checker. -/
def finishRound (P : Params σ κ α ν ς ρ) : Prog σ κ α ν ς ρ (Bool × Result ν) := do
  modify fun s => { s with finishedRounds := s.finishedRounds + 1 }
  let s ← get
  let history := s.world.resolve s.sequentialHistory
  emit (.check history)
  if !P.checker history then return (false, some ([], s.sequentialHistory))
  else return (s.finishedRounds == P.maxRounds, none)

/-- The middle part of `ResumeTask`: the round is over, or the search goes on with the next step. -/
def descend (P : Params σ κ α ν ς ρ) (runStep : Prog σ κ α ν ς ρ (Bool × Result ν)) :
    Prog σ κ α ν ς ρ (Bool × Result ν) := do
  let s ← get
  if s.finishedTasks = P.maxTasks then finishRound P else runStep

/-- `ResumeTask`, with the recursive call of `RunStep` as a parameter. -/
def resumeTask (P : Params σ κ α ν ς ρ) (runStep : Nat → Nat → Prog σ κ α ν ς ρ (Bool × Result ν))
    (step switches thread : Nat) (isNew : Bool) : Prog σ κ α ν ς ρ (Bool × Result ν) := do
  let s ← get
  emit (.enter s.fullHistory)
  let nxtSwitches := if !isNew && s.threadIdHistory.getLast? != some thread then switches + 1 else switches
  if !isNew && decide (P.maxSwitches < nxtSwitches) then
    emit (.leave s.fullHistory)
    return (false, none)
  else
    let isFinished ← takeStep P thread isNew
    let (isOver, res) ← descend P (runStep (step + 1) nxtSwitches)
    if isOver || res.isSome then return (isOver, res)
    else
      takeBack isNew isFinished
      let s ← get
      emit (.leave s.fullHistory)
      return (false, none)

/-! ## The search -/

/-- `frame.is_new = isNew` on the frame of this level. -/
def setFrame (isNew : Bool) : Prog σ κ α ν ς ρ Unit :=
  modify fun s => { s with frames := s.frames.modify (s.frames.length - 1) fun frame => { frame with isNew := isNew } }

/-- The loop of `RunStep` over the constructors. `some` is a `return` out of the loop. -/
def constructorLoop (P : Params σ κ α ν ς ρ) (runStep : Nat → Nat → Prog σ κ α ν ς ρ (Bool × Result ν))
    (step switches i : Nat) : List (TaskBuilder σ κ α ρ) → Prog σ κ α ν ς ρ (Option (Bool × Result ν))
  | [] => return none
  | cons :: constructors => do
    if !(← verify P ⟨cons.name, true, i⟩) then constructorLoop P runStep step switches i constructors
    else
      setFrame true
      modify fun s =>
        let (task, rng) := cons.build s.world.memory i (-1) s.rng
        { s with world := s.world.pushTask i task, rng := rng, startedTasks := s.startedTasks + 1 }
      let (isOver, res) ← resumeTask P runStep step switches i true
      if isOver || res.isSome then return some (isOver, res)
      else
        modify fun s => { s with world := s.world.popTask i }
        replay P step
        constructorLoop P runStep step switches i constructors

/-- The loop of `RunStep` over the threads. `.inl` is a `return` out of the loop, `.inr` the value of `all_parked`. -/
def threadLoop (P : Params σ κ α ν ς ρ) (runStep : Nat → Nat → Prog σ κ α ν ς ρ (Bool × Result ν))
    (step switches : Nat) : List Nat → Bool → Prog σ κ α ν ς ρ ((Bool × Result ν) ⊕ Bool)
  | [], allParked => return .inr allParked
  | i :: threads, allParked => do
    let s ← get
    let tasks := s.world.threads[i]?.getD []
    match tasks.getLast?.filter (!·.isReturned) with
    | some task =>
      if task.isParked P.target s.world.memory then threadLoop P runStep step switches threads allParked
      else if !(← verify P ⟨task.name, false, i⟩) then threadLoop P runStep step switches threads false
      else
        setFrame false
        let (isOver, res) ← resumeTask P runStep step switches i false
        if isOver || res.isSome then return .inl (isOver, res)
        else
          replay P step
          threadLoop P runStep step switches threads false
    | none =>
      if s.startedTasks != P.maxTasks && decide (tasks.length < P.maxDepth) then
        match ← constructorLoop P runStep step switches i P.constructors with
        | some r => return .inl r
        | none => threadLoop P runStep step switches threads false
      else threadLoop P runStep step switches threads false

/-- `RunStep`. -/
def runStep (P : Params σ κ α ν ς ρ) : Nat → Nat → Nat → Prog σ κ α ν ς ρ (Bool × Result ν)
  | 0, _, _ => throw .outOfFuel
  | fuel + 1, step, switches => do
    modify fun s => { s with frames := s.frames ++ [⟨none, false⟩] }
    match ← threadLoop P (runStep P fuel) step switches (List.range P.threadsCount) true with
    | .inl r => return r
    | .inr allParked =>
      if allParked then throw .deadlock
      else
        modify fun s => { s with frames := s.frames.dropLast }
        return (false, none)

/-- A new scheduler. -/
def init (P : Params σ κ α ν ς ρ) (rng : ρ) : State σ κ α ν ς ρ where
  world := ⟨P.target.initial, List.replicate P.threadsCount [], none⟩
  startedTasks := 0
  finishedTasks := 0
  finishedRounds := 0
  sequentialHistory := []
  fullHistory := []
  threadIdHistory := []
  frames := []
  verifier := P.verifier.fresh
  rng := rng
  trace := []

/-- `Run`. -/
def run (P : Params σ κ α ν ς ρ) (fuel : Nat) (rng : ρ) : EStateM.Result Halt (State σ κ α ν ς ρ) (Bool × Result ν) :=
  runStep P fuel 0 0 (init P rng)

end

end Ltest.Tla
