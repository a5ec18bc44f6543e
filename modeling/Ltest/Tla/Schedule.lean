import Ltest.Tla.Scheduler
import Ltest.Search.Words

/-!
# Schedules

The executions that the exhaustive scheduler is to enumerate, in their own terms. A schedule is a list of choices:
resume the unfinished last task of a thread, or start a task on a thread that has none unfinished. Playing it from the
initial configuration gives the memory, the tasks and the sequential history (`playAll`). `Bounded` are the limits on
the number of tasks, the tasks of a thread and the switches, and a `Complete` schedule is a bounded one that ends at the
step where the last task returns.

`Exhaustible` are the targets the enumeration is about: deterministic resumable programs that suspend by plain yields
and return, on every path, before `Terminate` gives up on them.
-/

namespace Ltest.Tla

variable {σ κ α ν ς ρ : Type}

/-- A step of a schedule. -/
inductive Choice where
  | resume (thread : Nat)
  | start (thread constructor : Nat)
  deriving Repr, DecidableEq

namespace Choice

def thread : Choice → Nat
  | .resume i => i
  | .start i _ => i

def isStart : Choice → Bool
  | .resume _ => false
  | .start _ _ => true

/-- The order of the search: the thread index, then the order of the constructors. -/
def Before : Choice → Choice → Prop
  | .resume i, .resume j => i < j
  | .resume i, .start j _ => i ≤ j
  | .start i _, .resume j => i < j
  | .start i k, .start j l => i < j ∨ i = j ∧ k < l

end Choice

/-- What a schedule has led to. -/
structure Conf (σ κ α ν : Type) where
  world : World σ κ α ν
  history : List (HistoryEvent Slot ν)

namespace Conf

/-- Before the first step. -/
def init (P : Params σ κ α ν ς ρ) : Conf σ κ α ν := ⟨⟨P.target.initial, List.replicate P.threadsCount [], none⟩, []⟩

/-- The task in `slot` of thread `i` is resumed; the history gets its response when it returns. -/
def resumeOn (T : Target σ κ ν) (c : Conf σ κ α ν) (i : Nat) (slot : Slot) (task : Coro κ α ν) : Conf σ κ α ν where
  world := { (c.world.setTask slot (task.resume T c.world.memory).1) with
    memory := (task.resume T c.world.memory).2.1 }
  history := c.history ++
    if (task.resume T c.world.memory).1.isReturned then [.response slot (task.resume T c.world.memory).1.ret i] else []

variable [Inhabited ν]

/-- One choice; `none` when it cannot be made. -/
def play (P : Params σ κ α ν ς ρ) (rng : ρ) (c : Conf σ κ α ν) : Choice → Option (Conf σ κ α ν)
  | .resume i =>
    match c.world.threads[i]? with
    | none => none
    | some tasks =>
      match tasks.getLast?.filter (!·.isReturned) with
      | none => none
      | some task => some (c.resumeOn P.target i (i, tasks.length - 1) task)
  | .start i k =>
    match c.world.threads[i]?, P.constructors[k]? with
    | some tasks, some constructor =>
      match tasks.getLast?.filter (!·.isReturned) with
      | some _ => none
      | none =>
        let task : Coro κ α ν := (constructor.build c.world.memory i (-1) rng).1
        some (resumeOn P.target ⟨c.world.pushTask i task, c.history ++ [.invoke (i, tasks.length) i]⟩ i (i, tasks.length)
          task)
    | _, _ => none

/-- The number of tasks that have returned. -/
def finished (c : Conf σ κ α ν) : Nat :=
  c.history.countP fun | .response _ _ _ => true | .invoke _ _ => false

end Conf

section

variable [Inhabited ν]

/-- A whole schedule. -/
def playAll (P : Params σ κ α ν ς ρ) (rng : ρ) (p : List Choice) : Option (Conf σ κ α ν) :=
  p.foldlM (Conf.play P rng) (Conf.init P)

/-- The number of steps that start no task and are on another thread than the step before. -/
def switches : Option Nat → List Choice → Nat
  | _, [] => 0
  | previous, ch :: p =>
    (if !ch.isStart && previous != some ch.thread then 1 else 0) + switches (some ch.thread) p

/-- The tasks that a schedule starts on thread `i`. -/
def startsOn (i : Nat) (p : List Choice) : Nat := p.countP fun ch => ch.isStart && ch.thread == i

/-- The limits of the scheduler. -/
structure Bounded (P : Params σ κ α ν ς ρ) (p : List Choice) : Prop where
  tasks : p.countP Choice.isStart ≤ P.maxTasks
  depth : ∀ i, startsOn i p ≤ P.maxDepth
  switched : switches none p ≤ P.maxSwitches

/-- A schedule within the limits that ends where the last task returns. -/
structure Complete (P : Params σ κ α ν ς ρ) (rng : ρ) (p : List Choice) : Prop where
  bounded : Bounded P p
  finishes : ∃ c, playAll P rng p = some c ∧ c.finished = P.maxTasks
  first : ∀ q c, q <+: p → playAll P rng q = some c → c.finished = P.maxTasks → q = p

/-- The sequential history of a schedule, as the checker finds it. -/
def historyOf (P : Params σ κ α ν ς ρ) (rng : ρ) (p : List Choice) :
    List (HistoryEvent (Slot × Option (TaskView α ν)) ν) :=
  (playAll P rng p).elim [] fun c => c.world.resolve c.history

/-- The configurations that choices and calls of `cancel` lead to, with the number of resumes that the last task of
each thread has had. -/
inductive Reached (P : Params σ κ α ν ς ρ) (rng : ρ) : (Nat → Nat) → Conf σ κ α ν → Prop
  | init : Reached P rng (fun _ => 0) (Conf.init P)
  | resume {n : Nat → Nat} {c c' : Conf σ κ α ν} {i : Nat} : Reached P rng n c → c.play P rng (.resume i) = some c' →
      Reached P rng (Function.update n i (n i + 1)) c'
  | start {n : Nat → Nat} {c c' : Conf σ κ α ν} {i k : Nat} : Reached P rng n c → c.play P rng (.start i k) = some c' →
      Reached P rng (Function.update n i 1) c'
  | cancel {n : Nat → Nat} {c : Conf σ κ α ν} : Reached P rng n c →
      Reached P rng n { c with world := { c.world with memory := P.cancel c.world.memory } }

/-- Deterministic resumable programs over a state that `Reset` restores. -/
structure Exhaustible (P : Params σ κ α ν ς ρ) (rng : ρ) : Prop where
  tasks : 1 ≤ P.maxTasks
  rounds : 1 ≤ P.maxRounds
  /-- The verifier accepts everything. -/
  accepts : ∀ v m, ∃ v', P.verifier.verify v m = some (true, v')
  /-- Tasks suspend by plain yields only. -/
  plain : ∀ ctx m, (∃ v, (P.target.run ctx m).1 = .returned v) ∨ ∃ ctx', (P.target.run ctx m).1 = .yield ctx'
  /-- Tasks carry no token. -/
  tokenless : ∀ b ∈ P.constructors, ∀ m i g, (b.gen m i g).1.2.2 = none
  /-- A constructor builds the same task at the same point. -/
  same : ∀ b ∈ P.constructors, ∀ m i g g', (b.gen m i g).1 = (b.gen m i g').1
  /-- `Reset` restores the state. -/
  restores : ∀ n c, Reached P rng n c → P.target.reset c.world.memory = P.target.initial
  /-- Every task returns before `Terminate` gives up on it. -/
  returns : ∀ n c, Reached P rng n c → ∀ i tasks task, c.world.threads[i]? = some tasks → tasks.getLast? = some task →
    task.isReturned = false → n i + 1 < 10000000

end

end Ltest.Tla
