import Ltest.Strategy.Handout
import Ltest.Program.Triple
import Ltest.Tla.Scheduler

/-!
# Deadlocks of the exhaustive scheduler

At a node of the search where tasks are left to finish, but all that have begun are parked and no other can be begun
(`Stuck`), `RunStep` does nothing but look at the threads. It fails its assertion only if every thread has a parked task: a
thread that is idle, though it cannot start anything any more, sets `all_parked = false` (`runStep_deadlock_iff`).
-/

namespace Ltest.Tla

open Program

variable {σ κ α ν ς ρ : Type}

/-- Thread `i` has no task, or its last task has returned. -/
def Idle (w : World σ κ α ν) (i : Nat) : Prop := (w.threads[i]?.getD []).getLast?.filter (!·.isReturned) = none

instance (w : World σ κ α ν) (i : Nat) : Decidable (Idle w i) :=
  decidable_of_iff (((w.threads[i]?.getD []).getLast?.filter (!·.isReturned)).isNone = true) Option.isNone_iff_eq_none

/-- A node of the search that is deadlocked: there are unfinished tasks, all of them are parked, and no thread can start
another one. -/
structure Stuck (P : Params σ κ α ν ς ρ) (s : State σ κ α ν ς ρ) : Prop where
  unfinished : s.finishedTasks < P.maxTasks
  running : ∃ slot c, s.world.task slot = some c ∧ c.isReturned = false
  parked : ∀ slot c, s.world.task slot = some c → c.isReturned = false → c.isParked P.target s.world.memory = true
  full : s.startedTasks = P.maxTasks ∨
    ∀ i < P.threadsCount, Idle s.world i → P.maxDepth ≤ (s.world.threads[i]?.getD []).length

section Stuck

variable [Inhabited ν] {P : Params σ κ α ν ς ρ} {s : State σ κ α ν ς ρ}

omit [Inhabited ν] in
/-- The task that a busy thread is at. -/
theorem busy_task {w : World σ κ α ν} {i : Nat} {c : Coro κ α ν}
    (h : (w.threads[i]?.getD []).getLast?.filter (!·.isReturned) = some c) :
    ∃ j, w.task (i, j) = some c ∧ c.isReturned = false := by
  rw [Option.filter_eq_some_iff] at h
  obtain ⟨hlast, hr⟩ := h
  cases hi : w.threads[i]? with
  | none => rw [hi] at hlast; cases hlast
  | some tasks =>
    rw [hi, Option.getD_some, List.getLast?_eq_getElem?] at hlast
    exact ⟨tasks.length - 1, World.task_eq_some.2 ⟨tasks, hi, hlast⟩, by simpa using hr⟩

/-- **The loop over the threads** at a deadlocked node: no task is resumed and none is started. -/
theorem threadLoop_stuck (h : Stuck P s) (rs : Nat → Nat → Prog σ κ α ν ς ρ (Bool × Result ν)) (step switches : Nat) :
    ∀ (threads : List Nat) (allParked : Bool), (∀ i ∈ threads, i < P.threadsCount) →
      threadLoop P rs step switches threads allParked s =
        .ok (.inr (allParked && decide (∀ i ∈ threads, ¬Idle s.world i))) s
  | [], allParked, _ => by simp [threadLoop, pure, EStateM.pure]
  | i :: threads, allParked, hthreads => by
    have hi := hthreads i List.mem_cons_self
    have hrest := fun b => threadLoop_stuck h rs step switches threads b fun k hk => hthreads k (List.mem_cons_of_mem i hk)
    unfold threadLoop
    simp only [Program.run_bind, Program.run_get]
    cases hlast : (s.world.threads[i]?.getD []).getLast?.filter (!·.isReturned) with
    | some c =>
      obtain ⟨j, hc, hr⟩ := busy_task hlast
      have hbusy : ¬Idle s.world i := by simp [Idle, hlast]
      simp only [h.parked _ c hc hr, ↓reduceIte, hrest]
      congr 3
      simp [hbusy]
    | none =>
      have hidle : Idle s.world i := hlast
      have hcannot : (s.startedTasks != P.maxTasks && decide ((s.world.threads[i]?.getD []).length < P.maxDepth)) = false := by
        rcases h.full with hstarted | hdepth
        · simp [hstarted]
        · simp [hdepth i hi hidle]
      simp only [hcannot, Bool.false_eq_true, ↓reduceIte, hrest]
      congr 2
      simp [hidle]

/-- **When `RunStep` reports a deadlock**: at a deadlocked node, if and only if no thread is idle. -/
theorem runStep_deadlock_iff (h : Stuck P s) (fuel step switches : Nat) :
    (∃ s', runStep P (fuel + 1) step switches s = .error .deadlock s') ↔ ∀ i < P.threadsCount, ¬Idle s.world i := by
  have hframe : Stuck P { s with frames := s.frames ++ [⟨none, false⟩] } :=
    ⟨h.unfinished, h.running, h.parked, h.full⟩
  have hloop := threadLoop_stuck hframe (runStep P fuel) step switches (List.range P.threadsCount) true
    fun i hi => List.mem_range.1 hi
  unfold runStep
  simp only [Program.run_bind, Program.run_modify, hloop, Bool.true_and, List.mem_range, decide_eq_true_eq]
  by_cases hbusy : ∀ i < P.threadsCount, ¬Idle s.world i
  · rw [if_pos hbusy]
    exact iff_of_true ⟨_, rfl⟩ hbusy
  · rw [if_neg hbusy]
    refine iff_of_false ?_ hbusy
    rintro ⟨s', hs'⟩
    cases hs'

end Stuck

/-! ## A gate that nobody opens -/

/-- A search with one task that waits at a gate. -/
def gateParams (threadsCount : Nat) : Params (List Nat) GateContext Unit Nat Unit Nat where
  target := gateTarget
  maxTasks := 1
  maxRounds := 10
  threadsCount := threadsCount
  maxSwitches := 10
  maxDepth := 1
  constructors := gateBuilders.take 1
  checker _ := true
  cancel tokens := tokens
  verifier := defaultStrategyVerifier

/-- What the search does up to its second node: the task is started on the first thread. -/
def gateEntered (threadsCount : Nat) : Prog (List Nat) GateContext Unit Nat Unit Nat Unit := do
  modify fun s => { s with frames := s.frames ++ [⟨none, false⟩] }
  setFrame true
  modify fun s => { s with
    world := s.world.pushTask 0 (Coro.new (-1) "Wait" () (.wait 0) (some 0)), startedTasks := s.startedTasks + 1 }
  let _ ← takeStep (gateParams threadsCount) 0 true

/-- The second node. -/
def gateNode (threadsCount : Nat) : State (List Nat) GateContext Unit Nat Unit Nat :=
  match gateEntered threadsCount (init (gateParams threadsCount) 0) with
  | .ok _ s => s
  | .error _ s => s

/-- The task that waits. -/
def waitingTask : Coro GateContext Unit Nat := { Coro.new (-1) "Wait" () (.wait 0) (some 0) with ctx := .waited }

theorem gateNode_stuck {n : Nat} (hthreads : (gateNode n).world.threads = [waitingTask] :: List.replicate (n - 1) [])
    (hmemory : (gateNode n).world.memory = [0]) (hcounts : (gateNode n).startedTasks = 1 ∧ (gateNode n).finishedTasks = 0) :
    Stuck (gateParams n) (gateNode n) := by
  have htask : ∀ slot c, (gateNode n).world.task slot = some c → c = waitingTask := by
    intro slot c hc
    obtain ⟨tasks, htasks, hj⟩ := World.task_eq_some.1 hc
    have hmem := List.mem_of_getElem? htasks
    rw [hthreads, List.mem_cons] at hmem
    rcases hmem with rfl | hempty
    · exact List.mem_singleton.1 (List.mem_of_getElem? hj)
    · rw [List.eq_of_mem_replicate hempty] at hj
      cases hj
  refine ⟨by rw [hcounts.2]; exact Nat.zero_lt_one, ⟨(0, 0), waitingTask, ?_, rfl⟩, fun slot c hc _ => ?_, .inl hcounts.1⟩
  · exact World.task_eq_some.2 ⟨[waitingTask], by rw [hthreads]; rfl, rfl⟩
  · rw [htask slot c hc, hmemory]
    rfl

/-- With one thread the deadlock is reported. -/
theorem runStep_deadlock_iff_oneThread : (∃ s', runStep (gateParams 1) 1 1 0 (gateNode 1) = .error .deadlock s') ↔
    ∀ i < 1, ¬Idle (gateNode 1).world i :=
  runStep_deadlock_iff (gateNode_stuck (by decide +kernel) (by decide +kernel) (by decide +kernel)) 0 1 0

/-- **A deadlock that is not reported**: the second thread is idle, and the search ends without an error. -/
theorem deadlock_not_reported : Stuck (gateParams 2) (gateNode 2) ∧
    (¬∃ s', runStep (gateParams 2) 1 1 0 (gateNode 2) = .error .deadlock s') ∧
    ∃ s', run (gateParams 2) 2 0 = .ok (false, none) s' := by
  refine ⟨gateNode_stuck (by decide +kernel) (by decide +kernel) (by decide +kernel), ?_, ?_⟩
  · have hok : Program.stopped (runStep (gateParams 2) 1 1 0 (gateNode 2)) = none := by
      decide +kernel
    rintro ⟨s', hs'⟩
    rw [hs'] at hok
    cases hok
  · have hok : (Program.returned (run (gateParams 2) 2 0)).map (fun r => (r.1, r.2.isSome)) = some (false, false) := by
      decide +kernel
    obtain ⟨⟨isOver, res⟩, hreturned, heq⟩ := Option.map_eq_some_iff.1 hok
    obtain ⟨rfl, hnone⟩ := Prod.mk.inj heq
    obtain rfl : res = none := by simpa using hnone
    exact ⟨_, Program.returned_eq_some.1 hreturned⟩

end Ltest.Tla
