import Ltest.Strategy.Pct
import Ltest.Strategy.Recorded

/-!
# What `NextSchedule` hands out

A thread is runnable if its next task that has neither returned nor been removed is there and is not parked. The two
subclasses of `PickStrategy` hand out the next task of a runnable thread, or fail their assertion when there is none
(`HandsOut`). `PctStrategy` has no such assertion: when no thread is runnable it takes the first thread, whose next task is
parked or is not there (`nextSchedule_hands_out`).
-/

namespace Ltest

open Program

variable {σ κ α ν ς ρ π γ : Type}

/-- The next task of thread `i` is there and is not parked. -/
def Round.Runnable (T : Target σ κ ν) (r : Round σ κ α ν ς ρ) (i : Nat) : Prop :=
  ∃ c, r.world.task (i, r.getNextTaskInThread i) = some c ∧ c.isParked T r.world.memory = false

/-- `NextSchedule` returns the next task of a runnable thread, and fails its assertion when there is none. -/
structure HandsOut (T : Target σ κ ν) (S : Strategy σ κ α ν ς ρ π) (st : Stage σ κ α ν ς ρ π) : Prop where
  runnable : (∃ i, st.round.Runnable T i) → ∃ t st₁, S.nextSchedule st = .ok (t, st₁) ∧
    t.slot = (t.threadId, st.round.getNextTaskInThread t.threadId) ∧ ∃ c, st.round.world.task t.slot = some c ∧
      c.isReturned = false ∧ c.id ∉ st.round.removedTasks ∧ c.isParked T st.round.world.memory = false
  deadlock : (¬∃ i, st.round.Runnable T i) → S.nextSchedule st = .error .deadlock

section Runnable

variable {T : Target σ κ ν} {r : Round σ κ α ν ς ρ} {i : Nat}

theorem skipsSchedule_eq_false : r.skipsSchedule T i = false ↔ r.Runnable T i := by
  unfold Round.skipsSchedule Round.Runnable
  split
  · rename_i hnone
    simp [hnone]
  · rename_i c hc
    simp [hc]

theorem Round.Runnable.lt_length (h : r.Runnable T i) : i < r.world.threads.length := by
  obtain ⟨c, hc, _⟩ := h
  obtain ⟨tasks, htasks, _⟩ := World.task_eq_some.1 hc
  exact (List.getElem?_eq_some_iff.1 htasks).1

theorem Round.Runnable.next_lt (h : r.Runnable T i) :
    r.getNextTaskInThread i < (r.world.threads[i]?.getD []).length := by
  obtain ⟨c, hc, _⟩ := h
  obtain ⟨tasks, htasks, hj⟩ := World.task_eq_some.1 hc
  dsimp only at htasks hj
  rw [htasks]
  exact (List.getElem?_eq_some_iff.1 hj).1

end Runnable

section HandsOut

variable {T : Target σ κ ν} {S : Strategy σ κ α ν ς ρ π} {st : Stage σ κ α ν ς ρ π}

/-- A runnable thread that is picked has its next task handed out. -/
theorem nextSchedule_of_pick {i : Nat} {p : π} (hpick : S.pickSchedule st.round st.policy = .ok (i, p))
    (h : st.round.Runnable T i) : ∃ t st₁, S.nextSchedule st = .ok (t, st₁) ∧
      t.slot = (t.threadId, st.round.getNextTaskInThread t.threadId) ∧ ∃ c, st.round.world.task t.slot = some c ∧
        c.isReturned = false ∧ c.id ∉ st.round.removedTasks ∧ c.isParked T st.round.world.memory = false := by
  obtain ⟨c, hc, hunfinished, _⟩ := next_unfinished h.next_lt
  obtain ⟨c', hc', hparked⟩ := h
  cases hc.symm.trans hc'
  have hlt : st.round.getNextTaskInThread i < (st.round.world.threads[i]?.getD []).length :=
    Round.Runnable.next_lt (T := T) ⟨c, hc, hparked⟩
  simp only [Round.unfinished, Round.isTaskRemoved, Bool.and_eq_true, Bool.not_eq_eq_eq_not, Bool.not_true,
    decide_eq_false_iff_not] at hunfinished
  have hnext : S.nextSchedule st = .ok (⟨(i, st.round.getNextTaskInThread i),
      st.round.roundSchedule[i]?.join != some (st.round.getNextTaskInThread i), i⟩,
      ⟨{ st.round with roundSchedule := st.round.roundSchedule.set i (some (st.round.getNextTaskInThread i)) }, p⟩) := by
    unfold Strategy.nextSchedule
    rw [hpick, ok_bind]
    dsimp only
    rw [if_pos hlt]
    rfl
  exact ⟨_, _, hnext, rfl, c, hc, hunfinished.2, hunfinished.1, hparked⟩

/-- A strategy hands out when it picks a runnable thread or fails its assertion. -/
theorem HandsOut.of_pick (hsome : (∃ i, st.round.Runnable T i) → ∃ i p,
      S.pickSchedule st.round st.policy = .ok (i, p) ∧ st.round.Runnable T i)
    (hnone : (¬∃ i, st.round.Runnable T i) → S.pickSchedule st.round st.policy = .error .deadlock) : HandsOut T S st where
  runnable h := by
    obtain ⟨i, p, hpick, hi⟩ := hsome h
    exact nextSchedule_of_pick hpick hi
  deadlock h := by
    unfold Strategy.nextSchedule
    rw [hnone h]
    rfl

end HandsOut

/-! ## `RoundRobinStrategy` -/

section RoundRobin

variable {T : Target σ κ ν} {r : Round σ κ α ν ς ρ}

/-- **What the cyclic scan finds**: a runnable thread, or all that it has looked at are skipped. -/
theorem roundRobinPickSchedule_spec : ∀ (left nextTask : Nat),
    (∃ i p, roundRobinPickSchedule T r left nextTask = .ok (i, p) ∧ r.Runnable T i) ∨
    (roundRobinPickSchedule T r left nextTask = .error .deadlock ∧
      ∀ k < left, ¬r.Runnable T ((nextTask + k) % r.world.threads.length))
  | 0, _ => .inr ⟨rfl, fun k hk => by omega⟩
  | left + 1, nextTask => by
    unfold roundRobinPickSchedule
    dsimp only
    split
    · rename_i hskips
      have hnot : ¬r.Runnable T (nextTask % r.world.threads.length) := by
        rw [← skipsSchedule_eq_false, hskips]
        simp
      rcases roundRobinPickSchedule_spec left (nextTask + 1) with hfound | ⟨herror, hall⟩
      · exact .inl hfound
      · refine .inr ⟨herror, fun k hk => ?_⟩
        cases k with
        | zero => exact hnot
        | succ k =>
          rw [← Nat.add_assoc, Nat.add_right_comm]
          exact hall k (by omega)
    · rename_i hskips
      exact .inl ⟨_, _, rfl, skipsSchedule_eq_false.1 (by simpa using hskips)⟩

/-- A cyclic scan comes to every thread. -/
theorem exists_add_mod {n i : Nat} (start : Nat) (hi : i < n) : ∃ k < n, (start + k) % n = i := by
  refine ⟨(i + (n - start % n)) % n, Nat.mod_lt _ (by omega), ?_⟩
  have hlt := Nat.mod_lt start (show 0 < n by omega)
  have hdiv := Nat.mod_add_div start n
  rw [Nat.add_mod_mod, ← hdiv]
  calc (start % n + n * (start / n) + (i + (n - (start % n + n * (start / n)) % n))) % n
      = (start % n + n * (start / n) + (i + (n - start % n))) % n := by rw [hdiv]
    _ = (i + n * (start / n + 1)) % n := by
      congr 1
      rw [Nat.mul_add]
      omega
    _ = i := by rw [Nat.add_mul_mod_self_left, Nat.mod_eq_of_lt hi]

theorem roundRobin_handsOut {V : StrategyVerifier ς κ α ν} {D : Dice γ} (st : Stage σ κ α ν ς ρ (PickState σ κ α ρ γ)) :
    HandsOut T (roundRobinStrategy T V D) st := by
  have hspec := roundRobinPickSchedule_spec (T := T) (r := st.round) st.round.world.threads.length st.policy.nextTask
  refine .of_pick (fun ⟨i, hi⟩ => ?_) fun hnone => ?_
  · rcases hspec with ⟨i', p, hpick, hi'⟩ | ⟨_, hall⟩
    · exact ⟨i', _, map_eq_ok.2 ⟨(i', p), hpick, rfl⟩, hi'⟩
    · obtain ⟨k, hk, rfl⟩ := exists_add_mod st.policy.nextTask hi.lt_length
      exact absurd hi (hall k hk)
  · rcases hspec with ⟨i', p, hpick, hi'⟩ | ⟨herror, _⟩
    · exact absurd ⟨i', hi'⟩ hnone
    · exact map_eq_error.2 herror

end RoundRobin

/-! ## `RandomStrategy` -/

/-- A draw among threads of positive weight. -/
theorem drawThread_spec {D : Dice γ} {weights : List Int} {eligible : List Nat} {g : γ}
    (hpos : ∀ i ∈ eligible, 0 < weights.getD i 0) :
    (∃ i g', drawThread D weights eligible g = .ok (i, g') ∧ i ∈ eligible) ∨
    (drawThread D weights eligible g = .error .deadlock ∧ eligible = []) := by
  unfold drawThread
  split
  · rename_i hempty
    exact .inr ⟨rfl, hempty⟩
  · rename_i hne
    have hrange := D.discrete_range (eligible.map fun i => weights.getD i 0) g (by simpa using hpos) (by simpa using hne)
    rw [List.length_map] at hrange
    dsimp only
    rw [List.getElem?_eq_getElem hrange]
    exact .inl ⟨_, _, rfl, List.getElem_mem hrange⟩

theorem random_handsOut {T : Target σ κ ν} {V : StrategyVerifier ς κ α ν} {D : Dice γ} {weights : List Int}
    {st : Stage σ κ α ν ς ρ (PickState σ κ α ρ γ)} (hpos : ∀ i < st.round.world.threads.length, 0 < weights.getD i 0) :
    HandsOut T (randomStrategy T V D weights) st := by
  have hmem : ∀ i, i ∈ ((List.range st.round.world.threads.length).filter fun i => !st.round.skipsSchedule T i) ↔
      st.round.Runnable T i := by
    intro i
    rw [List.mem_filter, List.mem_range, Bool.not_eq_true', skipsSchedule_eq_false]
    exact and_iff_right_of_imp fun h => h.lt_length
  have hspec := drawThread_spec (D := D) (g := st.policy.rng) fun i hi => hpos i ((hmem i).1 hi).lt_length
  refine .of_pick (fun ⟨i, hi⟩ => ?_) fun hnone => ?_
  · rcases hspec with ⟨i', g', hdraw, hi'⟩ | ⟨_, hempty⟩
    · exact ⟨i', _, map_eq_ok.2 ⟨(i', g'), hdraw, rfl⟩, (hmem i').1 hi'⟩
    · rw [← hmem, hempty] at hi
      cases hi
  · rcases hspec with ⟨i', g', hdraw, hi'⟩ | ⟨herror, _⟩
    · exact absurd ⟨i', (hmem i').1 hi'⟩ hnone
    · exact map_eq_error.2 herror

/-! ## `PctStrategy` -/

theorem pct_handsOut_iff {T : Target σ κ ν} {V : StrategyVerifier ς κ α ν} {D : Dice γ} {threadsCount fuel : Nat}
    {forbidAllSame : Bool} {st : Stage σ κ α ν ς ρ (PctState σ κ α ρ γ)} :
    HandsOut T (pctStrategy T V D threadsCount forbidAllSame fuel) st ↔ ∃ i, st.round.Runnable T i := by
  have hpick : (pctStrategy T V D threadsCount forbidAllSame fuel).pickSchedule st.round st.policy =
      .ok ((scanPriorities (st.round.skipsSchedule T) st.policy.priorities (List.range st.round.world.threads.length)
        (0, 0)).2, st.policy.changePriority (scanPriorities (st.round.skipsSchedule T) st.policy.priorities
          (List.range st.round.world.threads.length) (0, 0)).2) := rfl
  constructor
  · intro h
    by_contra hnone
    -- without an assertion nothing stops the scan that finds no thread
    have hdeadlock := h.deadlock hnone
    unfold Strategy.nextSchedule at hdeadlock
    rw [hpick, ok_bind] at hdeadlock
    dsimp only at hdeadlock
    split at hdeadlock <;> cases hdeadlock
  · intro hsome
    refine .of_pick (fun ⟨i, hi⟩ => ⟨_, _, hpick, ?_⟩) fun hnone => absurd hsome hnone
    rcases scanPriorities_spec (st.round.skipsSchedule T) st.policy.priorities (List.range st.round.world.threads.length)
      (0, 0) with ⟨_, hall⟩ | ⟨before, k, after, _, hk, hscan, _⟩
    · have hlt := hall i (List.mem_range.2 hi.lt_length) (skipsSchedule_eq_false.2 hi)
      omega
    · rw [hscan]
      exact skipsSchedule_eq_false.1 hk

/-- **What `NextSchedule` hands out**: `RoundRobinStrategy` and `RandomStrategy` with positive weights always hand out the
next task of a runnable thread or report a deadlock, `PctStrategy` if and only if there is a runnable thread. -/
theorem nextSchedule_hands_out {T : Target σ κ ν} {V : StrategyVerifier ς κ α ν} {D : Dice γ} :
    (∀ st : Stage σ κ α ν ς ρ (PickState σ κ α ρ γ), HandsOut T (roundRobinStrategy T V D) st) ∧
    (∀ (weights : List Int) (st : Stage σ κ α ν ς ρ (PickState σ κ α ρ γ)),
      (∀ i < st.round.world.threads.length, 0 < weights.getD i 0) → HandsOut T (randomStrategy T V D weights) st) ∧
    ∀ (threadsCount : Nat) (forbidAllSame : Bool) (fuel : Nat) (st : Stage σ κ α ν ς ρ (PctState σ κ α ρ γ)),
      HandsOut T (pctStrategy T V D threadsCount forbidAllSame fuel) st ↔ ∃ i, st.round.Runnable T i :=
  ⟨roundRobin_handsOut, fun _ _ hpos => random_handsOut hpos, fun _ _ _ _ => pct_handsOut_iff⟩

/-! ## A gate -/

/-- What the tasks of a gate go on with. -/
inductive GateContext where
  | wait (token : Nat)
  | waited
  | wake
  deriving Repr, DecidableEq

/-- A gate: a task that waits parks its token, one that wakes unparks all. The memory is the list of the parked tokens. -/
def gateTarget : Target (List Nat) GateContext Nat where
  initial := []
  reset tokens := tokens
  run
    | .wait token, tokens => (.yield .waited, token :: tokens)
    | .waited, tokens => (.returned 0, tokens)
    | .wake, _ => (.returned 0, [])
  parked tokens token := tokens.contains token
  word _ _ := 0

/-- The tasks of a gate; one that waits has a token of its own. -/
def gateBuilders : List (TaskBuilder (List Nat) GateContext Unit Nat) :=
  [⟨"Wait", fun _ _ g => (((), .wait g, some g), g + 1)⟩, ⟨"Wake", fun _ _ g => (((), .wake, none), g)⟩]

/-- A gate under `PctStrategy`. -/
def gatePct : Strategy (List Nat) GateContext Unit Nat Unit Nat (PctState (List Nat) GateContext Unit Nat Nat) :=
  pctStrategy gateTarget defaultStrategyVerifier cyclicDice 2 false 1

/-- Two threads of a gate before their first round. -/
def freshGate : Stage (List Nat) GateContext Unit Nat Unit Nat (PctState (List Nat) GateContext Unit Nat Nat) where
  round := ⟨⟨[], [[], []], none⟩, 0, ∅, [none, none], (), 0⟩
  policy := pctStart cyclicDice 2 gateBuilders 1

/-- In the first round one task waits and the other wakes it. -/
theorem nextSchedule_hands_out_freshGate : ∃ h st, gatePct.generate 10 2 freshGate = .ok (h, st) ∧
    (HandsOut gateTarget gatePct st ↔ ∃ i, st.round.Runnable gateTarget i) ∧
    ∀ st' : Stage (List Nat) GateContext Unit Nat Unit Nat (PickState (List Nat) GateContext Unit Nat Nat),
      st'.round.world.threads.length = 2 →
      HandsOut gateTarget (randomStrategy gateTarget defaultStrategyVerifier cyclicDice [1, 2]) st' := by
  obtain ⟨⟨h, st⟩, hrun, _⟩ := ok_of_toOption (x := gatePct.generate 10 2 freshGate) (f := fun (h, _) => h.full)
    (b := [(0, 0), (1, 0), (0, 0)]) (by decide +kernel)
  refine ⟨h, st, hrun, nextSchedule_hands_out.2.2 2 false 1 st, fun st' hlen => ?_⟩
  refine nextSchedule_hands_out.2.1 [1, 2] st' fun i hi => ?_
  rw [hlen] at hi
  obtain rfl | rfl : i = 0 ∨ i = 1 := by omega
  · simp
  · simp

/-- The task that wakes is removed, and the round is scheduled again. -/
def lonelyWait : Except Halt (
    Stage (List Nat) GateContext Unit Nat Unit Nat (PctState (List Nat) GateContext Unit Nat Nat) × Picked ×
    Stage (List Nat) GateContext Unit Nat Unit Nat (PctState (List Nat) GateContext Unit Nat Nat)) := do
  let (_, st) ← gatePct.generate 10 2 freshGate
  let st ← gatePct.resetCurrentRound 10 (st.setTaskRemoved 1 true)
  let (t, st) ← gatePct.nextSchedule st
  let w ← st.round.world.resume gateTarget t.slot
  let (t, st') ← gatePct.nextSchedule (st.withWorld w)
  return (st.withWorld w, t, st')

/-- **`PctStrategy` hands out a parked task** instead of reporting the deadlock. -/
theorem pct_hands_out_parked : ∃ st t st', lonelyWait = .ok (st, t, st') ∧ gatePct.nextSchedule st = .ok (t, st') ∧
    (st.round.world.task t.slot).map (fun c => c.isParked gateTarget st.round.world.memory) = some true ∧
    ¬HandsOut gateTarget gatePct st := by
  obtain ⟨⟨st, t, st'⟩, hrun, hseen⟩ := ok_of_toOption (x := lonelyWait)
    (f := fun (st, t, _) => ((st.round.world.task t.slot).map fun c => c.isParked gateTarget st.round.world.memory,
      st.round.world.threads.length, (List.range 2).all (st.round.skipsSchedule gateTarget)))
    (b := (some true, 2, true)) (by decide +kernel)
  simp only [Prod.mk.injEq, List.all_eq_true, List.mem_range] at hseen
  obtain ⟨hparked, hlen, hskips⟩ := hseen
  obtain ⟨_, _, hrest⟩ := bind_eq_ok.1 hrun
  obtain ⟨_, _, hrest⟩ := bind_eq_ok.1 hrest
  obtain ⟨⟨t₁, st₁⟩, _, hrest⟩ := bind_eq_ok.1 hrest
  obtain ⟨w, _, hrest⟩ := bind_eq_ok.1 hrest
  obtain ⟨⟨t₂, st₂⟩, hnext, hrest⟩ := bind_eq_ok.1 hrest
  cases hrest
  refine ⟨_, t, st', hrun, hnext, hparked, fun hhands => ?_⟩
  have hdeadlock := hhands.deadlock fun ⟨i, hi⟩ => by
    have hskip := hskips i (hlen ▸ hi.lt_length)
    rw [skipsSchedule_eq_false.2 hi] at hskip
    cases hskip
  rw [hnext] at hdeadlock
  cases hdeadlock

end Ltest
