import Ltest.Strategy.Operations
import Ltest.Strategy.Playing
import Ltest.Strategy.Replay

/-!
# The histories that are given to the checker

`RunRound` and `ExploreRound` tell in unrelated ways whether a step is the first one of its task: a task has just been
built, or the entry of `round_schedule` changes. Both are right (`Running.next`, `Exploring.operations`), for every way to
choose the threads. So the checker is given well-formed histories: operations that alternate on every thread, of the
tasks that the strategy has stored and has not marked as removed.
-/

namespace Ltest

open Program

variable {σ κ α ν ς ρ π : Type}

section Positions

variable {w w' : World σ κ α ν} {i : Nat} {tasks : List (Coro κ α ν)}

/-- The positions of the tasks of thread `i`. -/
def World.positions (w : World σ κ α ν) (i : Nat) : List Nat := List.range (w.threads[i]?.getD []).length

theorem positions_of_thread (h : w.threads[i]? = some tasks) : w.positions i = List.range tasks.length := by
  unfold World.positions
  rw [h]
  rfl

theorem positions_alike [Inhabited ν] (ha : Alike w w') (i : Nat) : w'.positions i = w.positions i := by
  have hi := congrArg (·[i]?) ha
  simp only [List.getElem?_map] at hi
  unfold World.positions
  cases h' : w'.threads[i]? <;> cases h : w.threads[i]? <;> simp_all
  simpa using congrArg (fun l => List.range l.length) hi

end Positions

/-! ## `RunRound` -/

section Run

variable [Inhabited ν] {S : Strategy σ κ α ν ς ρ π} {st st₁ st' : Stage σ κ α ν ς ρ π} {h : BothHistories ν} {t : Picked}
  {w : World σ κ α ν} {task : Coro κ α ν} {maxTasks left n : Nat}

/-- What holds while `RunRound` runs a round on `n` threads, with `left` of `maxTasks` tasks left to finish. -/
structure Running (n maxTasks left : Nat) (st : Stage σ κ α ν ς ρ π) (h : BothHistories ν) : Prop where
  calm : Calm st.round.world
  ids : HasIds st
  length : st.round.world.threads.length = n
  operations : Operations st.round.world st.round.world.positions h.seq
  responses : (h.seq.filterMap HistoryEvent.answered).length + left = maxTasks
  idle : left = 0 → h.seq = [] ∨ ∃ i < n, ∀ j c, (st.round.world.positions i).getLast? = some j →
    st.round.world.task (i, j) = some c → c.isReturned = true

/-- The positions of the thread of a call of `Next`, and what they are before its task is resumed. -/
theorem Operations.next (ho : Operations st.round.world st.round.world.positions h.seq) (hcalm : Calm st.round.world)
    (hnext : S.next st = .ok (t, st₁)) (hresume : st₁.round.world.resume S.target t.slot = .ok w)
    (htask : w.task t.slot = some task) : Operations w w.positions ((h.push t).respond t task).seq ∧
      ∃ before, w.positions t.slot.1 = before ++ [t.slot.2] := by
  obtain ⟨w₀, _, hsame, hthread, _, _, hchosen⟩ := chosen_of_next hnext
  obtain rfl := hsame hcalm
  have ha := alike_resume hresume
  have hpositions := positions_alike ha
  cases hchosen with
  | last before c hthr hr hslot hnew hworld hid =>
    rw [hworld] at hresume hpositions
    have hlast : st.round.world.positions t.slot.1 = List.range before.length ++ [t.slot.2] := by
      rw [positions_of_thread hthr, List.length_append, List.length_singleton, List.range_succ, hslot]
    refine ⟨ho.resume hthread hresume htask (fun i _ => hpositions i) (.goesOn hnew hlast ?_), ⟨_, (hpositions _).trans hlast⟩⟩
    rw [hpositions, hlast]
  | new tasks c hthr hslot hnew hbuilt htaskid hworld hid =>
    have hold := positions_of_thread hthr
    have hlt := (List.getElem?_eq_some_iff.1 hthr).1
    have hpush : st₁.round.world.threads = st.round.world.threads.set t.slot.1 (tasks ++ [c]) := by
      rw [hworld, World.pushTask, modify_threads hthr]
    have hthr₁ : st₁.round.world.threads[t.slot.1]? = some (tasks ++ [c]) := by
      rw [hpush, List.getElem?_set_self hlt]
    have hother : ∀ i, i ≠ t.slot.1 → st₁.round.world.positions i = st.round.world.positions i := by
      intro i hi
      unfold World.positions
      rw [hpush, List.getElem?_set_ne (Ne.symm hi)]
    have hlast : w.positions t.slot.1 = List.range tasks.length ++ [t.slot.2] := by
      rw [hpositions, positions_of_thread hthr₁, List.length_append, List.length_singleton, List.range_succ, hslot]
    -- the new task is in none of the slots so far
    have hframe : ∀ i, ∀ j ∈ st.round.world.positions i, st₁.round.world.task (i, j) = st.round.world.task (i, j) := by
      intro i j hj
      rw [hworld, task_pushTask hthr, if_neg]
      rintro ⟨⟩
      rw [hold, List.mem_range] at hj
      exact Nat.lt_irrefl _ hj
    -- the last task of the thread has returned, and so have those before it
    have hreturned : ∀ j ∈ List.range tasks.length, ∀ d, st₁.round.world.task (t.slot.1, j) = some d →
        d.isReturned = true := by
      intro j hj d hd
      rw [hframe _ j (by rw [hold]; exact hj)] at hd
      rw [List.mem_range] at hj
      have hjd : tasks[j]? = some d := by
        obtain ⟨tasks', htasks', hj'⟩ := World.task_eq_some.1 hd
        cases hthr.symm.trans htasks'
        exact hj'
      by_cases hbefore : j < tasks.length - 1
      · refine ho.finished t.slot.1 j ?_ d hd
        rw [hold, show tasks.length = tasks.length - 1 + 1 by omega, List.range_succ, List.dropLast_concat]
        exact List.mem_range.2 hbefore
      · obtain ⟨_, _, hshown⟩ := next_seen hnext hresume htask
        cases hshown with
        | last before hold' => rw [hnew] at hold'; cases hold'
        | new asked p p' r b hnew' hpick hround hseen hlength hconstruct hpolicy hlastSeen hname hbuilt' hafter =>
          have hj' : j = tasks.length - 1 := by omega
          refine hlastSeen (d.name, d.isReturned) ?_
          unfold World.seen
          rw [hthread, hthr, Option.getD_some, List.getLast?_map, List.getLast?_eq_getElem?, ← hj', hjd]
          rfl
    have hcont : Continues st₁.round.world t (List.range tasks.length) (st.round.world.positions t.slot.1)
        (w.positions t.slot.1) := .starts hnew hold hlast (by rw [hslot]; simp) hreturned
    exact ⟨(ho.frame hframe).resume hthread hresume htask (fun i hi => (hpositions i).trans (hother i hi)) hcont, _, hlast⟩

omit [Inhabited ν] in
/-- The responses of a step. -/
theorem answered_stepEvents (t : Picked) (task : Coro κ α ν) :
    ((stepEvents t task).filterMap HistoryEvent.answered).length = if task.isReturned then 1 else 0 := by
  unfold stepEvents
  cases t.isNew <;> cases task.isReturned <;> simp [HistoryEvent.answered, List.filterMap_cons]

/-- **A step of `RunRound`.** -/
theorem Running.next (hT : NonBlocking S.target) (hrun : Running n maxTasks (left + 1) st h)
    (hnext : S.next st = .ok (t, st₁)) (hresume : st₁.round.world.resume S.target t.slot = .ok w)
    (htask : w.task t.slot = some task) :
    Running n maxTasks (if task.isReturned then left else left + 1) (st₁.withWorld w) ((h.push t).respond t task) := by
  obtain ⟨hoperations, before, hlast⟩ := hrun.operations.next hrun.calm hnext hresume htask
  obtain ⟨w₀, ha₀, hsame, hthread, _, _, hchosen⟩ := chosen_of_next hnext
  have ha := alike_resume hresume
  have hlength : w.threads.length = n := by
    have hlen : w.threads.length = st₁.round.world.threads.length := by simpa using congrArg List.length ha
    rw [hlen, next_length hnext, hrun.length]
  have hcalm : Calm st₁.round.world := by
    obtain rfl := hsame hrun.calm
    cases hchosen with
    | last before task hthr hr hslot hnew hworld hid =>
      rw [hworld]
      exact hrun.calm
    | new tasks c hthr hslot hnew hbuilt htaskid hworld hid =>
      intro slot d hd
      rw [hworld, task_pushTask hthr] at hd
      split at hd
      · cases hd
        rw [← hbuilt]
        rfl
      · exact hrun.calm slot d hd
  refine ⟨hcalm.resume hT hresume, (hrun.ids.chosen ha₀ hchosen).alike ha rfl, hlength, hoperations, ?_, fun hleft => .inr ?_⟩
  · have hresponses := hrun.responses
    rw [respond_seq, List.filterMap_append, List.length_append, answered_stepEvents]
    split <;> omega
  · split at hleft
    · rename_i hret
      obtain ⟨tasks, hthr, _⟩ := World.task_eq_some.1 htask
      refine ⟨t.slot.1, hlength ▸ (List.getElem?_eq_some_iff.1 hthr).1, fun j c hj hc => ?_⟩
      have hj : (w.positions t.slot.1).getLast? = some j := hj
      rw [hlast, List.getLast?_concat] at hj
      cases hj
      cases htask.symm.trans hc
      exact hret
    · cases hleft

/-- The history of a round that has been run on the tasks `w`. -/
structure RunHistory (maxTasks : Nat) (w : World σ κ α ν) (seq : List (HistoryEvent Slot ν)) : Prop where
  /-- Every event is one of the thread of its task. -/
  threads : ∀ e ∈ seq, e.thread = e.task.1
  alternating : ∀ i, Alternating (onThread i seq)
  responses : (seq.filterMap HistoryEvent.answered).length = maxTasks
  pending : (pendingInvokes seq).length ≤ w.threads.length - 1
  /-- The stored tasks are invoked, each once. -/
  invokes : ∀ slot, (seq.filterMap HistoryEvent.invoked).count slot = if (w.task slot).isSome then 1 else 0
  ids : UniqueIds w

omit [Inhabited ν] in
theorem mem_positions {w : World σ κ α ν} {slot : Slot} : slot.2 ∈ w.positions slot.1 ↔ (w.task slot).isSome := by
  unfold World.positions World.task
  rw [List.mem_range]
  cases w.threads[slot.1]? <;> simp

omit [Inhabited ν] in
theorem Running.history (hrun : Running n maxTasks 0 st h) : RunHistory maxTasks st.round.world h.seq := by
  have ho := hrun.operations
  refine ⟨fun e he => ?_, ho.alternating, hrun.responses, ?_, fun slot => ?_, hrun.ids.unique⟩
  · exact (mem_operation (ho.mem_iff.1 he).2).2.1
  · rw [hrun.length]
    obtain hnil | ⟨i, hi, hidle⟩ := hrun.idle rfl
    · rw [hnil]
      exact Nat.zero_le _
    · refine ho.length_pending (fun k hk => ?_) hi hidle
      by_contra hge
      refine hk ?_
      unfold World.positions
      rw [List.getElem?_eq_none (by rw [hrun.length]; omega)]
      rfl
  · rw [ho.count_invoked]
    exact if_congr mem_positions rfl rfl

/-- **The history of `RunRound`**, on a strategy that has no tasks yet. -/
theorem runHistory_of_generate {fuel : Nat} (hT : NonBlocking S.target)
    (hempty : ∀ tasks ∈ st.round.world.threads, tasks = []) (hgen : S.generate fuel maxTasks st = .ok (h, st')) :
    st'.round.world.threads.length = st.round.world.threads.length ∧ RunHistory maxTasks st'.round.world h.seq := by
  have hpositions : ∀ i, st.round.world.positions i = [] := by
    intro i
    unfold World.positions
    cases hi : st.round.world.threads[i]? with
    | none => rfl
    | some tasks => simp [hempty tasks (List.mem_of_getElem? hi)]
  have hstart : Running st.round.world.threads.length maxTasks maxTasks st ⟨[], []⟩ := by
    refine ⟨fun slot c hc => ?_, .of_empty hempty, rfl, ⟨fun i => ?_, ?_, ?_, ?_⟩, by simp, fun _ => .inl rfl⟩
    · rw [task_eq_none hempty] at hc
      cases hc
    · rw [hpositions]
      rfl
    all_goals simp [hpositions]
  have hend := playTasks_rule (I := Running st.round.world.threads.length maxTasks)
    (fun left st h t st₁ task w hI hnext hresume htask => ?_) fuel maxTasks hstart hgen
  · exact ⟨hend.length, hend.history⟩
  · have hthen := hI.next hT hnext hresume htask
    split
    · rename_i hret
      rw [if_pos hret] at hthen
      exact ⟨hthen.calm, ⟨hthen.ids.unique, hthen.ids.below⟩, hthen.length, hthen.operations, hthen.responses, hthen.idle⟩
    · rename_i hret
      rwa [if_neg hret] at hthen

end Run

/-! ## `ExploreRound` -/

section Explore

variable [Inhabited ν] {S : Strategy σ κ α ν ς ρ π} {st₀ st st₁ st' : Stage σ κ α ν ς ρ π} {h : BothHistories ν}
  {t : Picked} {w w' : World σ κ α ν} {task : Coro κ α ν} {left : Nat}

/-- Position `j` of thread `i` holds a task that is not removed. -/
def Round.isKept (r : Round σ κ α ν ς ρ) (i j : Nat) : Bool := (r.world.task (i, j)).any fun c => !r.isTaskRemoved c.id

/-- The tasks of thread `i` that are not removed, in the order in which they were created. -/
def Round.keptTasks (r : Round σ κ α ν ς ρ) (i : Nat) : List Nat := (r.world.positions i).filter (r.isKept i)

/-- Those of them that `NextSchedule` has come to. -/
def Round.startedTasks (r : Round σ κ α ν ς ρ) (i : Nat) : List Nat :=
  (List.range ((r.roundSchedule[i]?.join).elim 0 (· + 1))).filter (r.isKept i)

omit [Inhabited ν] in
theorem isKept_iff {r : Round σ κ α ν ς ρ} {i j : Nat} :
    r.isKept i j = true ↔ ∃ c, r.world.task (i, j) = some c ∧ c.id ∉ r.removedTasks := by
  unfold Round.isKept Round.isTaskRemoved
  cases r.world.task (i, j) <;> simp

theorem isKept_alike {r r' : Round σ κ α ν ς ρ} (ha : Alike r.world r'.world) (hrem : r'.removedTasks = r.removedTasks)
    (i j : Nat) : r'.isKept i j = r.isKept i j := by
  have hid := ha.map_id (i, j)
  unfold Round.isKept Round.isTaskRemoved
  rw [hrem]
  cases hc : r.world.task (i, j) <;> cases hc' : r'.world.task (i, j) <;> simp_all

/-- The entries that a filter of a range keeps are all in a shorter one. -/
theorem filter_range_of_none {p : Nat → Bool} {m n : Nat} (hle : m ≤ n) (hnone : ∀ j, m ≤ j → j < n → p j = false) :
    (List.range n).filter p = (List.range m).filter p := by
  induction n, hle using Nat.le_induction with
  | base => rfl
  | succ n hle ih =>
    rw [List.range_succ, List.filter_append, ih fun j hj hlt => hnone j hj (by omega)]
    simp [hnone n hle (Nat.lt_succ_self n)]

/-- What holds besides while a round is explored: tasks that have not been chosen yet are as the reset has left them. -/
structure InOrder (S : Strategy σ κ α ν ς ρ π) (st₀ : Stage σ κ α ν ς ρ π) (left : Nat) (st : Stage σ κ α ν ς ρ π)
    (h : BothHistories ν) : Prop extends Exploring S st₀ left st h where
  operations : Operations st.round.world st.round.startedTasks h.seq
  restarted : ∀ slot c, st₀.round.world.task slot = some c → c.id ∉ st₀.round.removedTasks → c.isReturned = false

/-- A task that is not removed and has returned has been chosen. -/
theorem InOrder.chosen (hi : InOrder S st₀ left st h) {slot : Slot} {c : Coro κ α ν} (hc : st.round.world.task slot = some c)
    (hrem : c.id ∉ st.round.removedTasks) (hret : c.isReturned = true) :
    ∃ k, st.round.roundSchedule[slot.1]?.join = some k ∧ slot.2 ≤ k := by
  refine hi.reached slot ?_
  by_contra hnot
  have hsame : st₀.round.world.task slot = some c := by
    rw [← hc]
    show _ = st.round.world.pool.proc slot
    rw [hi.logged.world, Pool.run_frame h.full hnot]
    rfl
  have hunreturned := hi.restarted slot c hsame (by rwa [← hi.removed])
  rw [hret] at hunreturned
  cases hunreturned

/-- **A step of `ExploreRound`.** -/
theorem InOrder.next (hi : InOrder S st₀ (left + 1) st h) (hnext : S.nextSchedule st = .ok (t, st₁))
    (hresume : st₁.round.world.resume S.target t.slot = .ok w) (htask : w.task t.slot = some task) :
    InOrder S st₀ (if task.isReturned then left else left + 1) (st₁.withWorld w) ((h.push t).respond t task) := by
  refine ⟨hi.toExploring.next hnext hresume htask, ?_, hi.restarted⟩
  obtain ⟨hthread, hnew, hround, c, hc, ⟨hrem, _⟩, hge, hbetween⟩ := unfinished_of_nextSchedule hnext
  have hworld : st₁.round.world = st.round.world := by rw [hround]
  rw [hworld] at hresume
  have hkept : ∀ i j, (st₁.withWorld w).round.isKept i j = st.round.isKept i j :=
    isKept_alike (alike_resume hresume) (by rw [Stage.withWorld, hround])
  have hlt : t.slot.1 < st.round.roundSchedule.length := by
    obtain ⟨tasks, htasks, _⟩ := World.task_eq_some.1 hc
    rw [hi.size]
    exact (List.getElem?_eq_some_iff.1 htasks).1
  have hsched : (st₁.withWorld w).round.roundSchedule = st.round.roundSchedule.set t.slot.1 (some t.slot.2) := by
    rw [Stage.withWorld, hround]
  have hthis : st.round.isKept t.slot.1 t.slot.2 = true := isKept_iff.2 ⟨c, hc, hrem⟩
  have hsnoc : (List.range (t.slot.2 + 1)).filter (st.round.isKept t.slot.1) =
      (List.range t.slot.2).filter (st.round.isKept t.slot.1) ++ [t.slot.2] := by
    rw [List.range_succ, List.filter_append]
    simp [hthis]
  have hafter : (st₁.withWorld w).round.startedTasks t.slot.1 =
      (List.range t.slot.2).filter (st.round.isKept t.slot.1) ++ [t.slot.2] := by
    unfold Round.startedTasks
    rw [hsched, List.getElem?_set_self hlt, ← hsnoc, show (st₁.withWorld w).round.isKept t.slot.1 = _ from funext (hkept _)]
    rfl
  have hother : ∀ i, i ≠ t.slot.1 → (st₁.withWorld w).round.startedTasks i = st.round.startedTasks i := by
    intro i hne
    unfold Round.startedTasks
    rw [hsched, List.getElem?_set_ne (Ne.symm hne), show (st₁.withWorld w).round.isKept i = _ from funext (hkept i)]
  have hcont : Continues st.round.world t ((List.range t.slot.2).filter (st.round.isKept t.slot.1))
      (st.round.startedTasks t.slot.1) ((st₁.withWorld w).round.startedTasks t.slot.1) := by
    by_cases hcur : st.round.roundSchedule[t.slot.1]?.join = some t.slot.2
    · refine .goesOn (by simp [hnew, hcur]) ?_ hafter
      unfold Round.startedTasks
      rw [hcur, ← hsnoc]
      rfl
    · refine .starts (by simp [hnew, hcur]) ?_ hafter (by simp) fun j hj d hd => ?_
      · -- a task between the current one and this one has neither been chosen nor returned, so it is removed
        refine (filter_range_of_none ?_ fun j hle hlt => ?_).symm
        · cases hk : st.round.roundSchedule[t.slot.1]?.join with
          | none => exact Nat.zero_le _
          | some k =>
            rw [hk, Option.getD_some] at hge
            rw [hk, Option.some.injEq] at hcur
            exact Nat.lt_of_le_of_ne hge hcur
        · by_contra hkeep
          rw [Bool.not_eq_false] at hkeep
          obtain ⟨d, hd, hdrem⟩ := isKept_iff.1 hkeep
          have hreturned : d.isReturned = true := by
            refine hbetween j d ?_ hlt hd hdrem
            cases hk : st.round.roundSchedule[t.slot.1]?.join with
            | none => exact Nat.zero_le _
            | some k =>
              rw [hk] at hle
              exact Nat.le_of_succ_le hle
          obtain ⟨k, hk, hjk⟩ := hi.chosen hd hdrem hreturned
          rw [hk] at hle
          exact Nat.not_succ_le_self _ (hle.trans hjk)
      · obtain ⟨hj, hkeep⟩ := List.mem_filter.1 hj
        rw [List.mem_range] at hj
        obtain ⟨d', hd', hdrem⟩ := isKept_iff.1 hkeep
        cases hd.symm.trans hd'
        by_cases hbefore : (st.round.roundSchedule[t.slot.1]?.join).getD 0 ≤ j
        · exact hbetween j d hbefore hj hd hdrem
        · cases hk : st.round.roundSchedule[t.slot.1]?.join with
          | none => simp [hk] at hbefore
          | some k =>
            rw [hk, Option.getD_some, Nat.not_le] at hbefore
            exact hi.passed _ k j d hk hbefore hd hdrem
  exact hi.operations.resume hthread hresume htask hother hcont

/-- What the history shows of a task that has returned. -/
def World.completed (w : World σ κ α ν) (slot : Slot) : List (HistoryEvent Slot ν) :=
  match w.task slot with
  | none => []
  | some c => [.invoke slot slot.1, .response slot c.ret slot.1]

/-- The history of an exploration of the round `r`: on each thread the tasks that are not removed, one after the other. -/
def ExploreHistory (r : Round σ κ α ν ς ρ) (seq : List (HistoryEvent Slot ν)) : Prop :=
  ∀ i, onThread i seq = (r.keptTasks i).flatMap fun j => r.world.completed (i, j)

theorem InOrder.history (hi : InOrder S st₀ 0 st h) : ExploreHistory st.round h.seq := by
  intro i
  have hreturned : ∀ slot c, st.round.world.task slot = some c → c.id ∉ st.round.removedTasks → c.isReturned = true := by
    intro slot c hc hrem
    obtain ⟨tasks, htasks, hj⟩ := World.task_eq_some.1 hc
    have hmem : c ∈ st.round.world.threads.flatten :=
      List.mem_flatten.2 ⟨tasks, List.mem_of_getElem? htasks, List.mem_of_getElem? hj⟩
    have hdone := List.countP_eq_zero.1 hi.left c hmem
    simpa [Round.unfinished, Round.isTaskRemoved, hrem] using hdone
  -- all tasks that are not removed have been chosen
  have hall : st.round.keptTasks i = st.round.startedTasks i := by
    unfold Round.keptTasks Round.startedTasks World.positions
    refine filter_range_of_none ?_ fun j hle _ => ?_
    · cases hk : st.round.roundSchedule[i]?.join with
      | none => exact Nat.zero_le _
      | some k =>
        obtain ⟨c, hc, _⟩ := hi.kept _ (hi.current i k hk)
        exact List.mem_range.1 (mem_positions.2 (by rw [hc]; rfl))
    · by_contra hkeep
      rw [Bool.not_eq_false] at hkeep
      obtain ⟨c, hc, hrem⟩ := isKept_iff.1 hkeep
      obtain ⟨k, hk, hjk⟩ := hi.chosen hc hrem (hreturned _ c hc hrem)
      rw [hk] at hle
      exact Nat.not_succ_le_self _ (hle.trans hjk)
  rw [hi.operations.threads, ← hall]
  refine List.flatMap_congr fun j hj => ?_
  obtain ⟨c, hc, hrem⟩ := isKept_iff.1 (List.mem_filter.1 hj).2
  unfold World.operation World.completed
  rw [hc]
  simp [hreturned _ c hc hrem]

/-- **The history of a run of `ExploreRound`.** -/
theorem exploreHistory_of_explore {fuel : Nat} (hrun : S.explore fuel st = .ok (h, st')) :
    Alike st.round.world st'.round.world ∧ st'.round.removedTasks = st.round.removedTasks ∧
      ExploreHistory st'.round h.seq := by
  obtain ⟨st₀, hreset, hrun⟩ := explore_eq_ok.1 hrun
  obtain ⟨w, _, hr⟩ := restarted_of_reset hreset
  have hnone : ∀ i, st₀.round.startedTasks i = [] := by
    intro i
    unfold Round.startedTasks
    rw [hr.schedule, List.getElem?_replicate]
    split <;> rfl
  have hstart : InOrder S st₀ st₀.round.getValidTasksCount st₀ ⟨[], []⟩ := by
    refine ⟨hr.exploring, ⟨fun i => ?_, ?_, ?_, ?_⟩, fun slot c hc hrem => ?_⟩
    · rw [hnone]
      rfl
    · simp [hnone]
    · simp [hnone]
    · simp [hnone]
    · rw [hr.removed] at hrem
      rw [← hr.restarted slot c hc hrem]
      rfl
  have hend := playTasks_rule (I := InOrder S st₀) (fun left st h t st₁ task w hi hnext hresume htask => ?_) fuel _ hstart hrun
  · exact ⟨hend.alike.trans hr.alike, hend.removed.trans hr.removed, hend.history⟩
  · have hthen := hi.next hnext hresume htask
    split
    · rename_i hret
      rwa [if_pos hret] at hthen
    · rename_i hret
      rwa [if_neg hret] at hthen

end Explore

/-! ## Both -/

/-- **Histories that are given to the checker are well formed**, for every strategy: `RoundRobinStrategy`,
`RandomStrategy` and `PctStrategy` are three of them. -/
theorem histories_wellFormed [Inhabited ν] (S : Strategy σ κ α ν ς ρ π) (hT : NonBlocking S.target) (fuel : Nat) :
    (∀ maxTasks st st' h, (∀ tasks ∈ st.round.world.threads, tasks = []) → S.generate fuel maxTasks st = .ok (h, st') →
      st'.round.world.threads.length = st.round.world.threads.length ∧ RunHistory maxTasks st'.round.world h.seq) ∧
    ∀ st st' h, S.explore fuel st = .ok (h, st') → Alike st.round.world st'.round.world ∧
      st'.round.removedTasks = st.round.removedTasks ∧ ExploreHistory st'.round h.seq :=
  ⟨fun _ _ _ _ hempty hgen => runHistory_of_generate hT hempty hgen, fun _ _ _ hrun => exploreHistory_of_explore hrun⟩

/-- A round of two counters that ends with its first response, and its exploration without the task that responded. -/
theorem histories_wellFormed_twoCounters : ∃ h st h' st', counterStrategy.generate 10 1 twoCounters = .ok (h, st) ∧
    counterStrategy.explore 10 (st.setTaskRemoved 0 true) = .ok (h', st') ∧
    h.seq = [.invoke (0, 0) 0, .invoke (1, 0) 1, .response (0, 0) 0 0] ∧ RunHistory 1 st.round.world h.seq ∧
    h'.seq = [.invoke (1, 0) 1, .response (1, 0) 0 1] ∧ ExploreHistory st'.round h'.seq := by
  obtain ⟨⟨h, st⟩, hgen, hseq⟩ := ok_of_toOption (x := counterStrategy.generate 10 1 twoCounters)
    (f := fun r => (r.1.seq, (counterStrategy.explore 10 (r.2.setTaskRemoved 0 true)).toOption.map fun r' => r'.1.seq))
    (b := ([.invoke (0, 0) 0, .invoke (1, 0) 1, .response (0, 0) 0 0],
      some [.invoke (1, 0) 1, .response (1, 0) 0 1])) (by decide +kernel)
  simp only [Prod.mk.injEq] at hseq
  obtain ⟨⟨h', st'⟩, hexplore, hseq'⟩ := ok_of_toOption hseq.2
  have hboth := histories_wellFormed counterStrategy counterStrategy_replayable.nonBlocking 10
  exact ⟨h, st, h', st', hgen, hexplore, hseq.1, (hboth.1 1 _ _ _ (by simp [twoCounters]) hgen).2, hseq',
    (hboth.2 _ _ _ hexplore).2.2⟩

end Ltest
