import Ltest.Runtime.Coro

/-!
# Verifiers (`scheduler.h`, `mutex_verifier.h`, `shared_mutex_verifier.h`, `strategy_verifier.h`)

A verifier says which tasks may be scheduled. It is told of every finished task and of every step, and keeps a state of
its own between these calls.
-/

namespace Ltest

/-- `CreatedTaskMetaData`. -/
structure CreatedTaskMetaData where
  name : String
  isNew : Bool
  threadId : Nat
  deriving Repr, DecidableEq

/-- `TaskWithMetaData`. -/
structure TaskWithMetaData (κ α ν : Type) where
  task : Coro κ α ν
  isNew : Bool
  threadId : Nat
  deriving DecidableEq

/-- The concept `StrategyVerifier`. `fresh` is a newly constructed verifier; `verify` is `none` when an assertion in it
fails. -/
structure StrategyVerifier (ς κ α ν : Type) where
  fresh : ς
  verify : ς → CreatedTaskMetaData → Option (Bool × ς)
  onFinished : ς → TaskWithMetaData κ α ν → ς
  reset : ς → ς
  updateState : ς → String → Nat → Bool → ς

/-- What a verifier is notified of. -/
inductive Note (κ α ν : Type) where
  | onFinished (task : TaskWithMetaData κ α ν)
  | updateState (name : String) (threadId : Nat) (isNew : Bool)
  deriving DecidableEq

variable {ς κ α ν : Type}

/-- One notification. -/
def StrategyVerifier.notify (V : StrategyVerifier ς κ α ν) (s : ς) : Note κ α ν → ς
  | .onFinished t => V.onFinished s t
  | .updateState name threadId isNew => V.updateState s name threadId isNew

/-- `DefaultStrategyVerifier`. -/
def defaultStrategyVerifier : StrategyVerifier Unit κ α ν where
  fresh := ()
  verify _ _ := some (true, ())
  onFinished _ _ := ()
  reset _ := ()
  updateState _ _ _ _ := ()

namespace MutexVerifier

/-- `Verify`; a thread that `status` has no entry for has status `0`, which is also what `Verify` enters for it. -/
def verify (status : Nat → Nat) (ctask : CreatedTaskMetaData) : Option (Bool × (Nat → Nat)) :=
  if !ctask.isNew then some (true, status)
  else if ctask.name = "Lock" then some (status ctask.threadId == 0, status)
  else if ctask.name = "Unlock" then some (status ctask.threadId == 1, status)
  else none

/-- `OnFinished`. -/
def onFinished (status : Nat → Nat) (ctask : TaskWithMetaData κ α ν) : Nat → Nat :=
  if ctask.task.name = "Lock" then fun i => if i = ctask.threadId then 1 else status i
  else if ctask.task.name = "Unlock" then fun i => if i = ctask.threadId then 0 else status i
  else status

end MutexVerifier

/-- `MutexVerifier`. -/
def mutexVerifier : StrategyVerifier (Nat → Nat) κ α ν where
  fresh _ := 0
  verify := MutexVerifier.verify
  onFinished := MutexVerifier.onFinished
  reset _ _ := 0
  updateState status _ _ _ := status

/-- The status of a thread in `SharedMutexVerifier`: `READER = 4`, `WRITER = 1`, `FREE = 0`. -/
inductive SharedStatus where
  | reader
  | writer
  | free
  deriving Repr, DecidableEq

namespace SharedMutexVerifier

/-- `Verify`; a thread that `status` has no entry for is free, which is also what `Verify` enters for it. -/
def verify (status : Nat → SharedStatus) (ctask : CreatedTaskMetaData) : Option (Bool × (Nat → SharedStatus)) :=
  if ctask.name = "lock" then some (status ctask.threadId == .free, status)
  else if ctask.name = "unlock" then some (status ctask.threadId == .writer, status)
  else if ctask.name = "lock_shared" then some (status ctask.threadId == .free, status)
  else if ctask.name = "unlock_shared" then some (status ctask.threadId == .reader, status)
  else none

/-- `OnFinished`. An assertion says that the task has one of the four names; others are ignored here. -/
def onFinished (status : Nat → SharedStatus) (ctask : TaskWithMetaData κ α ν) : Nat → SharedStatus :=
  if ctask.task.name = "lock" then fun i => if i = ctask.threadId then .writer else status i
  else if ctask.task.name = "unlock" then fun i => if i = ctask.threadId then .free else status i
  else if ctask.task.name = "lock_shared" then fun i => if i = ctask.threadId then .reader else status i
  else if ctask.task.name = "unlock_shared" then fun i => if i = ctask.threadId then .free else status i
  else status

end SharedMutexVerifier

/-- `SharedMutexVerifier`. -/
def sharedMutexVerifier : StrategyVerifier (Nat → SharedStatus) κ α ν where
  fresh _ := .free
  verify := SharedMutexVerifier.verify
  onFinished := SharedMutexVerifier.onFinished
  reset _ _ := .free
  updateState status _ _ _ := status

end Ltest
