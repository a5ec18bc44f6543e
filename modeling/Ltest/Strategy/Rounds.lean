import Ltest.Program.Pool
import Ltest.Program.Triple
import Ltest.Strategy.Scheduler

/-!
# Rounds as pools of tasks

The tasks of a round are a pool of resumable processes, and the histories of a run are the events of the pool
(`Logged`): which tasks were resumed in which order determines everything else.
-/

namespace Ltest

variable {σ κ α ν ς ρ π : Type}

/-! ## The pool of a world -/

/-- A task as a process; a slot without a task holds nothing to do. -/
def machine (T : Target σ κ ν) : Pool.Machine σ (Option (Coro κ α ν)) where
  step
    | none, m => (none, m)
    | some c, m => (some (c.resume T m).1, (c.resume T m).2.1)
  done
    | none => true
    | some c => c.isReturned

/-- The tasks of a world. -/
def World.pool (w : World σ κ α ν) : Pool.Conf σ (Option (Coro κ α ν)) Slot := ⟨w.memory, w.task⟩

/-- What a history shows of an event of the pool. -/
def historyEvent : Pool.Event (Option (Coro κ α ν)) Slot → Option (HistoryEvent Slot ν)
  | .start slot => some (.invoke slot slot.1)
  | .finish slot c => c.map fun c => .response slot c.ret slot.1

/-- The sequential history of resuming the tasks in `full`, one after the other. -/
def seqOf (T : Target σ κ ν) (c : Pool.Conf σ (Option (Coro κ α ν)) Slot) (full : List Slot) :
    List (HistoryEvent Slot ν) :=
  (Pool.events (machine T) c full).filterMap historyEvent

section World

variable {T : Target σ κ ν} {w w' : World σ κ α ν} {slot : Slot}

/-- `Resume` on an unfinished task is a step of the pool. -/
theorem pool_resume (h : w.resume T slot = .ok w') : w'.pool = Pool.resume (machine T) w.pool slot := by
  obtain ⟨c, htask, hr, rfl⟩ := World.resume_eq_ok.1 h
  have hdone : (machine T).done (w.pool.proc slot) = false := by simp [World.pool, machine, htask, hr]
  have hstep : (machine T).step (w.pool.proc slot) w.pool.memory =
      (some (c.resume T w.memory).1, (c.resume T w.memory).2.1) := by simp [World.pool, machine, htask]
  rw [Pool.resume, if_neg (by simp [hdone]), hstep]
  refine (Pool.Conf.mk.injEq ..).mpr ⟨rfl, funext fun slot' => ?_⟩
  by_cases hs : slot' = slot
  · subst hs
    rw [Function.update_self]
    exact World.task_setTask htask
  · rw [Function.update_of_ne hs]
    exact World.task_setTask_of_ne hs

end World

/-! ## Logs -/

/-- The histories `h` log a run of the pool `c` that has led to the world `w`. -/
structure Logged (T : Target σ κ ν) (c : Pool.Conf σ (Option (Coro κ α ν)) Slot) (w : World σ κ α ν)
    (h : BothHistories ν) : Prop where
  world : w.pool = Pool.run (machine T) c h.full
  seq : h.seq = seqOf T c h.full

namespace Logged

variable {T : Target σ κ ν} {c : Pool.Conf σ (Option (Coro κ α ν)) Slot} {w w' : World σ κ α ν} {h : BothHistories ν}
  {t : Picked} {task : Coro κ α ν}

theorem empty (T : Target σ κ ν) (w : World σ κ α ν) : Logged T w.pool w ⟨[], []⟩ := ⟨rfl, rfl⟩

/-- A task is resumed. -/
theorem resume (hl : Logged T c w h) (hnew : t.isNew = decide (t.slot ∉ h.full)) (hthread : t.threadId = t.slot.1)
    (hresume : w.resume T t.slot = .ok w') (htask : w'.task t.slot = some task) :
    Logged T c w' ((h.push t).respond t task) := by
  have hfull : ((h.push t).respond t task).full = h.full ++ [t.slot] := by
    unfold BothHistories.respond
    split <;> rfl
  have hpool := pool_resume hresume
  refine ⟨by rw [hfull, Pool.run_snoc, ← hl.world, hpool], ?_⟩
  obtain ⟨before, hbefore, hr, _⟩ := World.resume_eq_ok.1 hresume
  have hproc : (Pool.resume (machine T) w.pool t.slot).proc t.slot = some task := by rw [← hpool]; exact htask
  have hundone : (machine T).done (w.pool.proc t.slot) = false := by
    simp [World.pool, machine, hbefore, hr]
  unfold seqOf
  rw [hfull, Pool.events_snoc, List.filterMap_append, ← hl.world, Pool.stepEvents, hproc, hundone]
  have hold : (Pool.events (machine T) c h.full).filterMap historyEvent = h.seq := hl.seq.symm
  rw [hold]
  unfold BothHistories.respond BothHistories.push
  by_cases hseen : t.slot ∈ h.full <;> cases hret : task.isReturned <;>
    simp [hnew, hthread, hseen, hret, machine, historyEvent]

/-- A returned task is met again. -/
theorem pass (hl : Logged T c w h) (hnew : t.isNew = decide (t.slot ∉ h.full)) (hthread : t.threadId = t.slot.1)
    (htask : w.task t.slot = some task) (hr : task.isReturned = true) : Logged T c w (h.push t) := by
  have hdone : (machine T).done (w.pool.proc t.slot) = true := by simp [World.pool, machine, htask, hr]
  refine ⟨?_, ?_⟩
  · rw [BothHistories.push, Pool.run_snoc, ← hl.world, Pool.resume_of_done hdone]
  · have hold : (Pool.events (machine T) c h.full).filterMap historyEvent = h.seq := hl.seq.symm
    unfold seqOf BothHistories.push
    rw [Pool.events_snoc, List.filterMap_append, ← hl.world, Pool.stepEvents, hdone, hold]
    by_cases hseen : t.slot ∈ h.full <;> simp [hnew, hthread, hseen, historyEvent]

end Logged

/-! ## The histories of a run -/

section Histories

variable {T : Target σ κ ν} {c : Pool.Conf σ (Option (Coro κ α ν)) Slot} {full : List Slot} {slot : Slot}

/-- Resuming makes no slot empty or full. -/
theorem isSome_resume (i : Slot) : ((Pool.resume (machine T) c i).proc slot).isSome = (c.proc slot).isSome := by
  unfold Pool.resume
  split
  · rfl
  · by_cases hs : slot = i
    · subst hs
      cases c.proc slot <;> simp [machine]
    · simp [Function.update_of_ne hs]

theorem isSome_run (l : List Slot) : ((Pool.run (machine T) c l).proc slot).isSome = (c.proc slot).isSome := by
  induction l using List.reverseRecOn with
  | nil => rfl
  | append_singleton l i ih => rw [Pool.run_snoc, isSome_resume, ih]

/-- Every event of tasks that are there shows in the history. -/
theorem historyEvent_isSome (hsome : ∀ slot ∈ full, (c.proc slot).isSome) {e : Pool.Event (Option (Coro κ α ν)) Slot}
    (he : e ∈ Pool.events (machine T) c full) : (historyEvent e).isSome := by
  cases e with
  | start i => rfl
  | finish i x =>
    have hi : ((Pool.run (machine T) c full).proc i).isSome = (c.proc i).isSome := isSome_run full
    rw [hsome i (Pool.subject_mem full he), ← (Pool.finish_eq full he).1] at hi
    simpa [historyEvent] using hi

theorem length_seqOf (hsome : ∀ slot ∈ full, (c.proc slot).isSome) :
    (seqOf T c full).length = (Pool.events (machine T) c full).length := by
  unfold seqOf
  rw [List.length_filterMap_eq_countP, List.countP_eq_length]
  exact fun e he => historyEvent_isSome hsome he

/-- The invokes of a task are its starts. -/
theorem countP_invoked : (seqOf T c full).countP (fun e => e.invoked == some slot) =
    Pool.starts slot (Pool.events (machine T) c full) := by
  unfold seqOf Pool.starts
  rw [List.countP_filterMap]
  refine List.countP_congr fun e _ => ?_
  cases e with
  | start i => simp [historyEvent, HistoryEvent.invoked, Pool.Event.isStart, Pool.Event.subject]
  | finish i x => cases x <;> simp [historyEvent, HistoryEvent.invoked, Pool.Event.isStart]

/-- The responses of a task are its finishes. -/
theorem countP_answered (hsome : ∀ slot ∈ full, (c.proc slot).isSome) :
    (seqOf T c full).countP (fun e => e.answered == some slot) =
      Pool.finishes slot (Pool.events (machine T) c full) := by
  unfold seqOf Pool.finishes
  rw [List.countP_filterMap]
  refine List.countP_congr fun e he => ?_
  have hshown := historyEvent_isSome hsome he
  cases e with
  | start i => simp [historyEvent, HistoryEvent.answered, Pool.Event.isStart]
  | finish i x =>
    cases x with
    | none => cases hshown
    | some d => simp [historyEvent, HistoryEvent.answered, Pool.Event.isStart, Pool.Event.subject]

/-- A response comes after the invoke of its task. -/
theorem invoked_before {pre post : List (HistoryEvent Slot ν)} {r : ν} {th : Nat}
    (h : seqOf T c full = pre ++ .response slot r th :: post) : .invoke slot slot.1 ∈ pre := by
  obtain ⟨es, es', hes, rfl, hpost⟩ := List.filterMap_eq_append_iff.1 h
  obtain ⟨es₁, e, es₂, rfl, hnone, he, _⟩ := List.filterMap_eq_cons_iff.1 hpost
  cases e with
  | start i => cases he
  | finish i x =>
    obtain ⟨d, _, hd⟩ := Option.map_eq_some_iff.1 he
    cases hd
    have hstart := Pool.start_before_finish full (es ++ es₁) _ es₂ (by rw [hes, List.append_assoc])
    rcases List.mem_append.1 hstart with hmem | hmem
    · exact List.mem_filterMap.2 ⟨_, hmem, rfl⟩
    · cases hnone _ hmem

end Histories

/-! ## Ids -/

section Ids

variable {w w' : World σ κ α ν} {r r' : Round σ κ α ν ς ρ}

/-- No two tasks have the same id. -/
def UniqueIds (w : World σ κ α ν) : Prop :=
  ∀ slot slot' id, (w.task slot).map Coro.id = some id → (w.task slot').map Coro.id = some id → slot = slot'

/-- `GetTask` finds the task with the id. -/
theorem getTask_eq_some (h : UniqueIds r.world) {id : Int} {slot : Slot} :
    r.getTask id = some slot ↔ (r.world.task slot).map Coro.id = some id := by
  have hfound : ∀ slot, r.getTask id = some slot → (r.world.task slot).map Coro.id = some id := by
    intro slot hslot
    obtain ⟨⟨tasks, i⟩, hmem, hmap⟩ := List.exists_of_findSome?_eq_some hslot
    obtain ⟨j, hj, rfl⟩ := Option.map_eq_some_iff.1 hmap
    obtain ⟨hlt, hid, _⟩ := List.findIdx?_eq_some_iff_getElem.1 hj
    have htask : r.world.task (i, j) = some tasks[j] :=
      World.task_eq_some.2 ⟨tasks, List.mem_zipIdx_iff_getElem?.1 hmem, List.getElem?_eq_getElem hlt⟩
    simpa [htask] using hid
  refine ⟨hfound slot, fun hslot => ?_⟩
  obtain ⟨c, hc, hid⟩ := Option.map_eq_some_iff.1 hslot
  obtain ⟨tasks, htasks, hj⟩ := World.task_eq_some.1 hc
  cases hget : r.getTask id with
  | none =>
    have hnone := List.findSome?_eq_none_iff.1 hget (tasks, slot.1) (List.mem_zipIdx_iff_getElem?.2 htasks)
    have hno := List.findIdx?_eq_none_iff.1 (Option.map_eq_none_iff.1 hnone) c (List.mem_of_getElem? hj)
    simp [hid] at hno
  | some slot' => rw [h slot' slot id (hfound slot' hget) hslot]

variable [Inhabited ν]

theorem Alike.map_id (h : Alike w w') (slot : Slot) : (w'.task slot).map Coro.id = (w.task slot).map Coro.id := by
  have hmap := congrArg (Option.map Coro.id) (task_map h slot)
  simp only [Option.map_map] at hmap
  exact hmap

theorem Alike.isSome (h : Alike w w') (slot : Slot) : (w'.task slot).isSome = (w.task slot).isSome := by
  simpa using congrArg Option.isSome (task_map h slot)

theorem UniqueIds.alike (h : UniqueIds w) (ha : Alike w w') : UniqueIds w' := by
  intro slot slot' id hs hs'
  rw [ha.map_id] at hs hs'
  exact h slot slot' id hs hs'

theorem getTask_alike (h : UniqueIds r.world) (ha : Alike r.world r'.world) (id : Int) : r'.getTask id = r.getTask id := by
  ext slot
  rw [getTask_eq_some h, getTask_eq_some (h.alike ha), ha.map_id]

/-! ## The loop of `ReplayRound` -/

/-- The slots of the tasks with these ids. -/
def slotsOf (r : Round σ κ α ν ς ρ) (ids : List Int) : List Slot := ids.filterMap r.getTask

/-- **The loop of `ReplayRound` resumes every task once for each time it is listed.** The counter of a task is at least
the number of times it is still listed, so `Terminate` is not called. -/
theorem replayTasks_run {T : Target σ κ ν} {c₀ : Pool.Conf σ (Option (Coro κ α ν)) Slot} : ∀ (ids : List Int)
    (counts : Int → Nat) (started : Finset Int) (r : Round σ κ α ν ς ρ) (h : BothHistories ν), UniqueIds r.world →
    Logged T c₀ r.world h → (∀ id, ids.count id ≤ counts id) →
    (∀ id slot, (r.world.task slot).map Coro.id = some id → (id ∈ started ↔ slot ∈ h.full)) →
    (∀ id ∈ ids, (r.getTask id).isSome) →
      ∃ h' w', Strategy.replayTasks T ids counts started r h = .ok (h', { r with world := w' }) ∧ Logged T c₀ w' h' ∧
        h'.full = h.full ++ slotsOf r ids ∧ Alike r.world w'
  | [], _, _, r, h, _, hl, _, _, _ => ⟨h, r.world, rfl, hl, by simp [slotsOf], rfl⟩
  | id :: ids, counts, started, r, h, hu, hl, hcounts, hstarted, hids => by
    obtain ⟨slot, hslot⟩ := Option.isSome_iff_exists.1 (hids id List.mem_cons_self)
    have hid := (getTask_eq_some hu).1 hslot
    obtain ⟨task, htask, rfl⟩ := Option.map_eq_some_iff.1 hid
    have hseen := hstarted _ _ hid
    have hnew : (Picked.mk slot (decide (task.id ∉ started)) slot.1).isNew = decide (slot ∉ h.full) := by
      simp [hseen]
    -- the ids that have started are those of the slots that are logged
    have hstarted' : ∀ {h' : BothHistories ν} {w' : World σ κ α ν}, h'.full = h.full ++ [slot] → Alike r.world w' →
        ∀ id' slot', (w'.task slot').map Coro.id = some id' → (id' ∈ insert task.id started ↔ slot' ∈ h'.full) := by
      intro h' w' hfull ha id' slot' hid'
      rw [ha.map_id] at hid'
      rw [hfull, Finset.mem_insert, List.mem_append, List.mem_singleton, hstarted id' slot' hid', or_comm]
      refine or_congr Iff.rfl ⟨?_, ?_⟩
      · rintro rfl
        exact hu slot' slot _ hid' hid
      · rintro rfl
        exact Option.some_injective _ (hid'.symm.trans hid)
    have hslots : ∀ w', Alike r.world w' → slotsOf { r with world := w' } ids = slotsOf r ids := fun w' ha =>
      List.filterMap_congr fun id' _ => getTask_alike hu ha id'
    have hcons : slotsOf r (task.id :: ids) = slot :: slotsOf r ids := by simp [slotsOf, hslot]
    simp only [Strategy.replayTasks, hslot, htask]
    cases hr : task.isReturned with
    | true =>
      obtain ⟨h', w', hrun, hl', hfull, ha⟩ := replayTasks_run ids counts (insert task.id started) r _ hu
        (hl.pass hnew rfl htask hr) (fun id' => (List.count_le_count_cons).trans (hcounts id'))
        (hstarted' rfl rfl) fun id' hid' => hids id' (List.mem_cons_of_mem _ hid')
      refine ⟨h', w', by simpa using hrun, hl', ?_, ha⟩
      rw [hfull, hcons]
      simp [BothHistories.push]
    | false =>
      have hpos : counts task.id ≠ 0 := by
        have := hcounts task.id
        rw [List.count_cons_self] at this
        omega
      obtain ⟨w₁, hresume⟩ : ∃ w₁, r.world.resume T slot = .ok w₁ := ⟨_, World.resume_eq_ok.2 ⟨task, htask, hr, rfl⟩⟩
      have ha₁ := alike_resume hresume
      obtain ⟨task₁, htask₁⟩ := Option.isSome_iff_exists.1 ((ha₁.isSome slot).trans (by rw [htask]; rfl))
      have hcounts' : ∀ id', ids.count id' ≤ Function.update counts task.id (counts task.id - 1) id' := by
        intro id'
        have := hcounts id'
        by_cases heq : id' = task.id
        · subst heq
          rw [List.count_cons_self] at this
          rw [Function.update_self]
          omega
        · rw [List.count_cons_of_ne (Ne.symm heq)] at this
          rwa [Function.update_of_ne heq]
      obtain ⟨h', w', hrun, hl', hfull, ha⟩ := replayTasks_run ids
        (Function.update counts task.id (counts task.id - 1)) (insert task.id started) { r with world := w₁ } _
        (hu.alike ha₁) (hl.resume hnew rfl hresume htask₁) hcounts'
        (hstarted' (by unfold BothHistories.respond; split <;> rfl) ha₁)
        fun id' hid' => by rw [getTask_alike hu ha₁]; exact hids id' (List.mem_cons_of_mem _ hid')
      refine ⟨h', w', ?_, hl', ?_, ha.trans ha₁⟩
      · simp only [Bool.false_eq_true, ↓reduceIte, Strategy.advanceTask, if_neg hpos, hresume]
        show (match w₁.task slot with | none => _ | some task => _) = _
        rw [htask₁]
        exact hrun
      · rw [hfull, hslots w₁ ha₁, hcons]
        unfold BothHistories.respond
        split <;> simp [BothHistories.push]

end Ids

end Ltest
