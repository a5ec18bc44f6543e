import Ltest.Tla.Schedule

/-!
# Replaying a schedule

`Replay` is called on the tasks of a branch that has just been abandoned. It first terminates them, then takes the
steps of the frames again, restarting a task where its frame says it is new. For an `Exhaustible` target this gives the
configuration of the schedule back (`replayWorld_rows`): every terminated task returns (`terminateTasks_ok`), `Reset`
restores the memory, and a restarted task is the one that was built.
-/

namespace Ltest.Tla

variable {σ κ α ν ς ρ : Type}

/-! ## Choices -/

/-- A plain task leaves no mark. -/
theorem resume_plain {P : Params σ κ α ν ς ρ} (hplain : ∀ ctx m, (∃ v, (P.target.run ctx m).1 = .returned v) ∨
    ∃ ctx', (P.target.run ctx m).1 = .yield ctx') (c : Coro κ α ν) (m : σ) : (c.resume P.target m).2.2 = none := by
  unfold Coro.resume
  rcases hplain c.ctx m with ⟨v, h⟩ | ⟨ctx', h⟩
  · split <;> simp_all
  · split <;> simp_all

section Choices

variable [Inhabited ν] {P : Params σ κ α ν ς ρ} {rng : ρ} {c c' : Conf σ κ α ν} {i k : Nat}

/-- No task of the thread is unfinished. -/
def Free (tasks : List (Coro κ α ν)) : Prop := tasks.getLast?.filter (!·.isReturned) = none

omit [Inhabited ν] in
theorem unfinished_iff {tasks : List (Coro κ α ν)} {task : Coro κ α ν} :
    tasks.getLast?.filter (!·.isReturned) = some task ↔ ∃ before, tasks = before ++ [task] ∧ task.isReturned = false := by
  rw [Option.filter_eq_some_iff, List.getLast?_eq_some_iff]
  simp

/-- What resuming the last task of a thread leads to. -/
theorem play_resume : c.play P rng (.resume i) = some c' ↔ ∃ before task,
    c.world.threads[i]? = some (before ++ [task]) ∧ task.isReturned = false ∧
      c' = c.resumeOn P.target i (i, before.length) task := by
  simp only [Conf.play]
  constructor
  · intro h
    split at h
    · cases h
    · rename_i tasks htasks
      split at h
      · cases h
      · rename_i task htask
        obtain ⟨before, rfl, hr⟩ := unfinished_iff.1 htask
        refine ⟨before, task, htasks, hr, ?_⟩
        simpa using h.symm
  · rintro ⟨before, task, htasks, hr, rfl⟩
    simp only [htasks, unfinished_iff.2 ⟨before, rfl, hr⟩]
    simp

/-- What starting a task on a thread leads to. -/
theorem play_start : c.play P rng (.start i k) = some c' ↔ ∃ tasks constructor,
    c.world.threads[i]? = some tasks ∧ P.constructors[k]? = some constructor ∧ Free tasks ∧
      c' = Conf.resumeOn P.target ⟨c.world.pushTask i (constructor.build c.world.memory i (-1) rng).1,
        c.history ++ [.invoke (i, tasks.length) i]⟩ i (i, tasks.length)
        (constructor.build c.world.memory i (-1) rng).1 := by
  simp only [Conf.play]
  constructor
  · intro h
    split at h
    · rename_i tasks constructor htasks hcons
      split at h
      · cases h
      · rename_i hfree
        exact ⟨tasks, constructor, htasks, hcons, hfree, by simpa using h.symm⟩
    · cases h
  · rintro ⟨tasks, constructor, htasks, hcons, hfree, rfl⟩
    simp only [htasks, hcons]
    rw [hfree]

omit [Inhabited ν] in
theorem resumeOn_world {T : Target σ κ ν} {before : List (Coro κ α ν)} {task : Coro κ α ν}
    (h : c.world.threads[i]? = some (before ++ [task])) : (c.resumeOn T i (i, before.length) task).world =
      ⟨(task.resume T c.world.memory).2.1, c.world.threads.set i (before ++ [(task.resume T c.world.memory).1]),
        c.world.coroutineStatus⟩ := by
  simp only [Conf.resumeOn, World.setTask, modify_threads h]
  simp

/-- What a choice does: it resumes `task`, which comes after `before` in its thread and is new when the choice starts
it. -/
structure Moves (P : Params σ κ α ν ς ρ) (rng : ρ) (c : Conf σ κ α ν) (ch : Choice) (c' : Conf σ κ α ν)
    (before : List (Coro κ α ν)) (task : Coro κ α ν) : Prop where
  thread : c.world.threads[ch.thread]? = some (before ++ if ch.isStart then [] else [task])
  unfinished : task.isReturned = false
  free : ch.isStart = true → Free before
  built : ∀ i k, ch = .start i k → ∃ b, P.constructors[k]? = some b ∧ task = (b.build c.world.memory i (-1) rng).1
  world : c'.world = ⟨(task.resume P.target c.world.memory).2.1,
    c.world.threads.set ch.thread (before ++ [(task.resume P.target c.world.memory).1]), c.world.coroutineStatus⟩
  history : c'.history = c.history ++ (if ch.isStart then [.invoke (ch.thread, before.length) ch.thread] else []) ++
    if (task.resume P.target c.world.memory).1.isReturned then
      [.response (ch.thread, before.length) (task.resume P.target c.world.memory).1.ret ch.thread] else []

/-- **Every choice is such a move.** -/
theorem play_moves {ch : Choice} (h : c.play P rng ch = some c') : ∃ before task, Moves P rng c ch c' before task := by
  cases ch with
  | resume i =>
    obtain ⟨before, task, htasks, hr, rfl⟩ := play_resume.1 h
    exact ⟨before, task, htasks, hr, by simp [Choice.isStart], by simp, resumeOn_world htasks,
      by simp [Conf.resumeOn, Choice.isStart, Choice.thread]⟩
  | start i k =>
    obtain ⟨tasks, b, htasks, hb, hfree, rfl⟩ := play_start.1 h
    have hlt : i < c.world.threads.length := (List.getElem?_eq_some_iff.1 htasks).1
    refine ⟨tasks, (b.build c.world.memory i (-1) rng).1, by simpa [Choice.isStart, Choice.thread] using htasks, rfl,
      fun _ => hfree,
      ?_, ?_, ?_⟩
    · rintro i' k' ⟨⟩
      exact ⟨b, hb, rfl⟩
    · rw [resumeOn_world (by simp [World.pushTask, htasks])]
      simp [World.pushTask, modify_threads htasks, Choice.thread]
    · simp only [Conf.resumeOn, Choice.isStart, Choice.thread, ↓reduceIte]
      rfl

/-- What holds of the worlds of a search: a thread has at most its last task unfinished, and no task has a token. -/
structure Sound (P : Params σ κ α ν ς ρ) (w : World σ κ α ν) : Prop where
  size : w.threads.length = P.threadsCount
  status : w.coroutineStatus = none
  tokenless : ∀ tasks ∈ w.threads, ∀ task ∈ tasks, task.token = none
  returned : ∀ tasks ∈ w.threads, ∀ task ∈ tasks.dropLast, task.isReturned = true

omit [Inhabited ν] in
theorem Sound.init : Sound P (Conf.init P).world where
  size := by simp [Conf.init]
  status := rfl
  tokenless := by simp +contextual [Conf.init]
  returned := by simp +contextual [Conf.init]

omit [Inhabited ν] in
/-- The tasks of a free thread have all returned. -/
theorem returned_of_free {tasks : List (Coro κ α ν)} (hfree : Free tasks)
    (h : ∀ task ∈ tasks.dropLast, task.isReturned = true) : ∀ task ∈ tasks, task.isReturned = true := by
  rcases List.eq_nil_or_concat tasks with rfl | ⟨before, last, rfl⟩
  · simp
  · rw [List.concat_eq_append] at *
    have hlast : last.isReturned = true := by simpa [Free] using hfree
    rw [List.dropLast_concat] at h
    intro task htask
    rcases List.mem_append.1 htask with htask | htask
    · exact h task htask
    · rwa [List.mem_singleton.1 htask]

section Move

variable {before : List (Coro κ α ν)} {task : Coro κ α ν} {ch : Choice}

/-- The tasks before the one that moves have returned. -/
theorem Moves.returned_before (hs : Sound P c.world) (h : Moves P rng c ch c' before task) :
    ∀ t ∈ before, t.isReturned = true := by
  have hret := hs.returned _ (List.mem_of_getElem? h.thread)
  cases hch : ch.isStart with
  | true =>
    simp only [hch, ↓reduceIte, List.append_nil] at hret
    exact returned_of_free (h.free hch) hret
  | false => simpa [hch] using hret

variable (hP : Exhaustible P rng)
include hP

/-- The task of a move has no token. -/
theorem Moves.token (hs : Sound P c.world) (h : Moves P rng c ch c' before task) : task.token = none := by
  cases ch with
  | resume i =>
    exact hs.tokenless _ (List.mem_of_getElem? h.thread) task (by simp [Choice.isStart])
  | start i k =>
    obtain ⟨b, hb, rfl⟩ := h.built i k rfl
    exact hP.tokenless b (List.mem_of_getElem? hb) _ _ _

theorem Sound.move (hs : Sound P c.world) (h : Moves P rng c ch c' before task) : Sound P c'.world where
  size := by rw [h.world]; simpa using hs.size
  status := by rw [h.world]; exact hs.status
  tokenless := by
    rw [h.world]
    intro tasks htasks t ht
    rcases List.mem_or_eq_of_mem_set htasks with htasks | rfl
    · exact hs.tokenless tasks htasks t ht
    · rcases List.mem_append.1 ht with ht | ht
      · exact hs.tokenless _ (List.mem_of_getElem? h.thread) t (List.mem_append_left _ ht)
      · rw [List.mem_singleton.1 ht, token_resume]
        exact h.token hP hs
  returned := by
    rw [h.world]
    intro tasks htasks t ht
    rcases List.mem_or_eq_of_mem_set htasks with htasks | rfl
    · exact hs.returned tasks htasks t ht
    · rw [List.dropLast_concat] at ht
      exact h.returned_before hs t ht

/-- **Every configuration that can be reached is sound.** -/
theorem Reached.sound {n : Nat → Nat} (h : Reached P rng n c) : Sound P c.world := by
  induction h with
  | init => exact .init
  | resume _ hplay ih =>
    obtain ⟨_, _, hm⟩ := play_moves hplay
    exact ih.move hP hm
  | start _ hplay ih =>
    obtain ⟨_, _, hm⟩ := play_moves hplay
    exact ih.move hP hm
  | cancel _ ih => exact ⟨ih.size, ih.status, ih.tokenless, ih.returned⟩

end Move

end Choices

/-! ## Termination -/

section Terminate

variable [Inhabited ν] {P : Params σ κ α ν ς ρ} {rng : ρ}

/-- The world `w` is that of `c`, but for last tasks that are no longer there. -/
structure Remains (w : World σ κ α ν) (c : Conf σ κ α ν) : Prop where
  memory : w.memory = c.world.memory
  status : w.coroutineStatus = none
  threads : ∀ i : Nat, w.threads[i]? = c.world.threads[i]? ∨ w.threads[i]? = c.world.threads[i]?.map List.dropLast

/-- Returned tasks stay so. -/
def StaysReturned (w w' : World σ κ α ν) : Prop :=
  ∀ slot c, w.task slot = some c → c.isReturned = true → w'.task slot = some c

omit [Inhabited ν] in
/-- An unfinished task is the last of its thread. -/
theorem eq_last {tasks : List (Coro κ α ν)} {task : Coro κ α ν} {j : Nat} (hj : tasks[j]? = some task)
    (hr : task.isReturned = false) (h : ∀ t ∈ tasks.dropLast, t.isReturned = true) :
    ∃ before, tasks = before ++ [task] ∧ j = before.length := by
  rcases List.eq_nil_or_concat tasks with rfl | ⟨before, last, rfl⟩
  · simp at hj
  · rw [List.concat_eq_append] at *
    rw [List.dropLast_concat] at h
    rcases Nat.lt_trichotomy j before.length with hlt | rfl | hgt
    · rw [List.getElem?_append_left hlt] at hj
      exact absurd (h task (List.mem_of_getElem? hj)) (by simp [hr])
    · simp at hj
      exact ⟨before, by rw [hj], rfl⟩
    · rw [List.getElem?_eq_none (by simp; omega)] at hj
      cases hj

omit [Inhabited ν] in
/-- The tasks that are left of a thread have at most their last one unfinished. -/
theorem Remains.unfinished {w : World σ κ α ν} {c : Conf σ κ α ν} (hs : Sound P c.world) (h : Remains w c) {i j : Nat}
    {task : Coro κ α ν} (htask : w.task (i, j) = some task) (hr : task.isReturned = false) : ∃ before,
      w.threads[i]? = some (before ++ [task]) ∧ c.world.threads[i]? = some (before ++ [task]) ∧ j = before.length := by
  obtain ⟨tasks, htasks, hj⟩ := World.task_eq_some.1 htask
  rcases h.threads i with heq | heq
  · have hc : c.world.threads[i]? = some tasks := heq ▸ htasks
    obtain ⟨before, rfl, hlen⟩ := eq_last hj hr (hs.returned tasks (List.mem_of_getElem? hc))
    exact ⟨before, htasks, hc, hlen⟩
  · obtain ⟨ts, hc, rfl⟩ := Option.map_eq_some_iff.1 (heq.symm.trans htasks)
    exact absurd (hs.returned ts (List.mem_of_getElem? hc) task (List.mem_of_getElem? hj)) (by simp [hr])

omit [Inhabited ν] in
/-- Replacing an unfinished last task leaves the returned ones. -/
theorem staysReturned_set {w w' : World σ κ α ν} {i : Nat} {before : List (Coro κ α ν)} {task task' : Coro κ α ν}
    (hthread : w.threads[i]? = some (before ++ [task])) (hr : task.isReturned = false)
    (hw' : w'.threads = w.threads.set i (before ++ [task'])) : StaysReturned w w' := by
  rintro ⟨i', j⟩ t ht hret
  obtain ⟨tasks, htasks, hj⟩ := World.task_eq_some.1 ht
  refine World.task_eq_some.2 ?_
  rw [hw']
  by_cases hi : i = i'
  · subst hi
    cases hthread.symm.trans htasks
    refine ⟨before ++ [task'], by simp [(List.getElem?_eq_some_iff.1 hthread).1], ?_⟩
    rcases Nat.lt_or_ge j before.length with hlt | hge
    · simpa [List.getElem?_append_left hlt] using hj
    · rw [List.getElem?_append_right hge] at hj
      have hmem := List.mem_of_getElem? hj
      rw [List.mem_singleton.1 hmem, hr] at hret
      cases hret
  · exact ⟨tasks, by rwa [List.getElem?_set_ne hi], hj⟩

variable (hP : Exhaustible P rng)
include hP

/-- `Terminate` returns on the last task of a thread. -/
theorem terminateLoop_ok {i : Nat} : ∀ (left : Nat) {n : Nat → Nat} {c : Conf σ κ α ν} {w : World σ κ α ν}
    {before : List (Coro κ α ν)} {task : Coro κ α ν}, Reached P rng n c → Remains w c →
    w.threads[i]? = some (before ++ [task]) → c.world.threads[i]? = some (before ++ [task]) → 1 ≤ left →
    10000000 ≤ left + n i →
      ∃ n' c' w' task', World.terminateLoop P.target (i, before.length) left w = .ok w' ∧ Reached P rng n' c' ∧
        Remains w' c' ∧ w'.threads = w.threads.set i (before ++ [task']) ∧ task'.isReturned = true ∧
        task'.restart = task.restart
  | 0, _, _, _, _, _, _, _, _, _, hl, _ => absurd hl (by omega)
  | left + 1, n, c, w, before, task, hreach, hw, hthread, hconf, _, htries => by
    have htask : w.task (i, before.length) = some task := World.task_eq_some.2 ⟨_, hthread, by simp⟩
    simp only [World.terminateLoop, htask]
    cases hr : task.isReturned with
    | true => exact ⟨n, c, w, task, rfl, hreach, hw, (set_self hthread).symm, hr, rfl⟩
    | false =>
      have hlimit := hP.returns n c hreach i _ task hconf (by simp) hr
      obtain ⟨w₁, hw₁⟩ : ∃ w₁ : World σ κ α ν, w₁ = ⟨(task.resume P.target w.memory).2.1,
        w.threads.set i (before ++ [(task.resume P.target w.memory).1]), none⟩ := ⟨_, rfl⟩
      have hresume : w.resume P.target (i, before.length) = .ok w₁ := by
        rw [resume_last hthread hr, hw₁, resume_plain hP.plain, hw.status]
        rfl
      have hplay : c.play P rng (.resume i) = some _ := play_resume.2 ⟨before, task, hconf, hr, rfl⟩
      have hconf₁ := resumeOn_world hconf (T := P.target)
      have hlt := (List.getElem?_eq_some_iff.1 hthread).1
      have hlt' := (List.getElem?_eq_some_iff.1 hconf).1
      have hremains : Remains w₁ (c.resumeOn P.target i (i, before.length) task) := by
        refine ⟨by rw [hw₁, hconf₁, hw.memory], by rw [hw₁], fun j => ?_⟩
        rw [hw₁, hconf₁, hw.memory]
        by_cases hj : i = j
        · subst hj
          exact Or.inl (by simp [hlt, hlt'])
        · simpa [List.getElem?_set_ne hj] using hw.threads j
      have hthread₁ : w₁.threads[i]? = some (before ++ [(task.resume P.target w.memory).1]) := by
        rw [hw₁]
        simp [hlt]
      have hsame : (c.resumeOn P.target i (i, before.length) task).world.threads[i]? =
          some (before ++ [(task.resume P.target w.memory).1]) := by
        rw [hconf₁, hw.memory]
        simp [hlt']
      obtain ⟨n', c', w', task', hloop, hreach', hw', hthreads, hret, hrestart⟩ := terminateLoop_ok left
        (hreach.resume hplay) hremains hthread₁ hsame (by omega) (by rw [Function.update_self]; omega)
      refine ⟨n', c', w', task', ?_, hreach', hw', ?_, hret, ?_⟩
      · simp only [Bool.false_eq_true, ↓reduceIte, hresume]
        exact (if_neg (by omega)).trans hloop
      · rw [hthreads, hw₁, List.set_set]
      · rw [hrestart, restart_resume]

/-- The tasks in `slots` are terminated one after the other. -/
theorem terminateAll_ok : ∀ (slots : List Slot) {n : Nat → Nat} {c : Conf σ κ α ν} {w : World σ κ α ν},
    Reached P rng n c → Remains w c → (∀ slot ∈ slots, (w.task slot).isSome) →
      ∃ n' c' w', terminateAll P.target slots w = .ok w' ∧ Reached P rng n' c' ∧ Remains w' c' ∧ Alike w w' ∧
        StaysReturned w w' ∧ ∀ slot ∈ slots, ∀ task, w'.task slot = some task → task.isReturned = true
  | [], n, c, w, hreach, hw, _ => ⟨n, c, w, rfl, hreach, hw, rfl, fun _ _ h _ => h, by simp⟩
  | (i, j) :: slots, n, c, w, hreach, hw, hslots => by
    obtain ⟨task, htask⟩ := Option.isSome_iff_exists.1 (hslots (i, j) List.mem_cons_self)
    simp only [terminateAll, htask]
    cases hr : task.isReturned with
    | true =>
      obtain ⟨n', c', w', hall, hreach', hw', halike, hstays, hret⟩ :=
        terminateAll_ok slots hreach hw fun slot h => hslots slot (List.mem_cons_of_mem _ h)
      refine ⟨n', c', w', by simpa using hall, hreach', hw', halike, hstays, ?_⟩
      intro slot hslot t ht
      rcases List.mem_cons.1 hslot with rfl | hslot
      · cases (hstays _ _ htask hr).symm.trans ht
        exact hr
      · exact hret slot hslot t ht
    | false =>
      obtain ⟨before, hthread, hconf, rfl⟩ := hw.unfinished (hreach.sound hP) htask hr
      obtain ⟨n₁, c₁, w₁, task₁, hloop, hreach₁, hw₁, hthreads, hret₁, hrestart⟩ :=
        terminateLoop_ok hP 10000000 hreach hw hthread hconf (by omega) (by omega)
      have halike₁ : Alike w w₁ := by
        unfold Alike
        rw [hthreads, List.map_set]
        refine set_self ?_
        simp [hthread, hrestart]
      have htask₁ : w₁.task (i, before.length) = some task₁ :=
        World.task_eq_some.2 ⟨_, by rw [hthreads]; simp [(List.getElem?_eq_some_iff.1 hthread).1]; rfl, by simp⟩
      have hslots₁ : ∀ slot ∈ slots, (w₁.task slot).isSome := by
        intro slot hslot
        have hsome := hslots slot (List.mem_cons_of_mem _ hslot)
        have hmap := task_map halike₁ slot
        rw [← Option.isSome_map, hmap, Option.isSome_map]
        exact hsome
      obtain ⟨n', c', w', hall, hreach', hw', halike, hstays, hret⟩ := terminateAll_ok slots hreach₁ hw₁ hslots₁
      have hstays₁ := staysReturned_set hthread hr hthreads
      refine ⟨n', c', w', ?_, hreach', hw', halike.trans halike₁, fun slot t ht hret => ?_, ?_⟩
      · simp only [Bool.false_eq_true, ↓reduceIte, World.terminate, hloop]
        exact hall
      · exact hstays slot t (hstays₁ slot t ht hret) hret
      · intro slot hslot t ht
        rcases List.mem_cons.1 hslot with rfl | hslot
        · cases (hstays _ _ htask₁ hret₁).symm.trans ht
          exact hret₁
        · exact hret slot hslot t ht

omit [Inhabited ν] hP in
theorem mem_allSlots {w : World σ κ α ν} {slot : Slot} : slot ∈ allSlots w.threads ↔ (w.task slot).isSome := by
  obtain ⟨i, j⟩ := slot
  simp only [allSlots, List.mem_flatMap, List.mem_map, List.mem_range, Prod.mk.injEq, Prod.exists]
  constructor
  · rintro ⟨tasks, i', hmem, j', hj, rfl, rfl⟩
    have hthread := List.mem_zipIdx_iff_getElem?.1 hmem
    exact Option.isSome_iff_exists.2 ⟨tasks[j'], World.task_eq_some.2 ⟨tasks, hthread, by simp [hj]⟩⟩
  · intro h
    obtain ⟨task, htask⟩ := Option.isSome_iff_exists.1 h
    obtain ⟨tasks, hthread, hj⟩ := World.task_eq_some.1 htask
    exact ⟨tasks, i, List.mem_zipIdx_iff_getElem?.2 hthread, j, (List.getElem?_eq_some_iff.1 hj).1, rfl, rfl⟩

/-- **`TerminateTasks` returns**, and leaves returned tasks and a memory that `Reset` restores. -/
theorem terminateTasks_ok {n : Nat → Nat} {c : Conf σ κ α ν} {w : World σ κ α ν} (hreach : Reached P rng n c)
    (hw : Remains w c) : ∃ w', terminateTasks P w = .ok w' ∧ P.target.reset w'.memory = P.target.initial ∧ Alike w w' ∧
      ∀ slot task, w'.task slot = some task → task.isReturned = true := by
  have hremains : Remains { w with memory := P.cancel w.memory }
      { c with world := { c.world with memory := P.cancel c.world.memory } } :=
    ⟨congrArg P.cancel hw.memory, hw.status, hw.threads⟩
  obtain ⟨n', c', w', hall, hreach', hw', halike, _, hret⟩ := terminateAll_ok hP (allSlots w.threads)
    hreach.cancel hremains fun slot h => mem_allSlots.1 h
  refine ⟨w', hall, by rw [hw'.memory, hP.restores n' c' hreach'], halike, fun slot task htask => ?_⟩
  refine hret slot (mem_allSlots.2 ?_) task htask
  have hmap := task_map halike slot
  rw [htask] at hmap
  rw [← Option.isSome_map (f := Coro.restart)]
  exact hmap ▸ rfl

end Terminate

/-! ## The frames of a schedule -/

section Rows

/-- The frame of the choice `ch` after the choices `q`. -/
def frameAt (q : List Choice) (ch : Choice) : Frame :=
  ⟨some (ch.thread, startsOn ch.thread (q ++ [ch]) - 1), ch.isStart⟩

/-- The frames of the choices `p` after the choices `q`. -/
def rowsFrom (q : List Choice) : List Choice → List Frame
  | [] => []
  | ch :: p => frameAt q ch :: rowsFrom (q ++ [ch]) p

/-- The frames of a schedule: one row of the table per choice. -/
def rows (p : List Choice) : List Frame := rowsFrom [] p

theorem rowsFrom_snoc (ch : Choice) : ∀ (p q : List Choice),
    rowsFrom q (p ++ [ch]) = rowsFrom q p ++ [frameAt (q ++ p) ch]
  | [], q => by simp [rowsFrom]
  | ch' :: p, q => by simp [rowsFrom, rowsFrom_snoc ch p]

theorem rows_snoc (p : List Choice) (ch : Choice) : rows (p ++ [ch]) = rows p ++ [frameAt p ch] := by
  simpa [rows] using rowsFrom_snoc ch p []

theorem length_rowsFrom : ∀ (p q : List Choice), (rowsFrom q p).length = p.length
  | [], _ => rfl
  | ch :: p, q => by simp [rowsFrom, length_rowsFrom p]

theorem startsOn_snoc (i : Nat) (p : List Choice) (ch : Choice) :
    startsOn i (p ++ [ch]) = startsOn i p + if ch.isStart = true ∧ ch.thread = i then 1 else 0 := by
  simp [startsOn, List.countP_append, List.countP_cons]

variable [Inhabited ν] {P : Params σ κ α ν ς ρ} {rng : ρ} {c c' : Conf σ κ α ν} {ch : Choice}
  {before : List (Coro κ α ν)} {task : Coro κ α ν} {q : List Choice}

/-- Every thread has as many tasks as the schedule has started on it. -/
def Counts (q : List Choice) (c : Conf σ κ α ν) : Prop :=
  ∀ i tasks, c.world.threads[i]? = some tasks → tasks.length = startsOn i q

theorem Moves.lt (h : Moves P rng c ch c' before task) : ch.thread < c.world.threads.length :=
  (List.getElem?_eq_some_iff.1 h.thread).1

theorem Moves.thread_after (h : Moves P rng c ch c' before task) :
    c'.world.threads[ch.thread]? = some (before ++ [(task.resume P.target c.world.memory).1]) := by
  rw [h.world]
  simp [h.lt]

theorem Moves.other (h : Moves P rng c ch c' before task) {i : Nat} (hi : ch.thread ≠ i) :
    c'.world.threads[i]? = c.world.threads[i]? := by
  rw [h.world]
  exact List.getElem?_set_ne hi

theorem Counts.move (hc : Counts q c) (h : Moves P rng c ch c' before task) : Counts (q ++ [ch]) c' := by
  intro i tasks hi
  rw [startsOn_snoc]
  by_cases heq : ch.thread = i
  · subst heq
    have hold := hc _ _ h.thread
    rw [h.thread_after] at hi
    cases hi
    cases hs : ch.isStart <;> simp_all
  · rw [h.other heq] at hi
    simpa [heq] using hc i tasks hi

/-- The frame of a move points to its task. -/
theorem Moves.frameAt (hc : Counts q c) (h : Moves P rng c ch c' before task) :
    frameAt q ch = ⟨some (ch.thread, before.length), ch.isStart⟩ := by
  have hlen := hc.move h _ _ h.thread_after
  simp only [List.length_append, List.length_singleton] at hlen
  unfold Tla.frameAt
  rw [← hlen]
  simp

end Rows

/-! ## Replay -/

section Replay

variable [Inhabited ν] {P : Params σ κ α ν ς ρ} {rng : ρ}

/-- The tasks of `w` are those of `w'`, as far as they are there. -/
def Grows (w w' : World σ κ α ν) : Prop :=
  ∀ (i : Nat) (tasks' : List (Coro κ α ν)), w'.threads[i]? = some tasks' → ∃ tasks : List (Coro κ α ν),
    w.threads[i]? = some tasks ∧ tasks.map Coro.restart <+: tasks'.map Coro.restart

theorem Grows.refl (w : World σ κ α ν) : Grows w w := fun _ tasks h => ⟨tasks, h, List.prefix_refl _⟩

theorem Grows.trans {w w' w'' : World σ κ α ν} (h : Grows w w') (h' : Grows w' w'') : Grows w w'' := by
  intro i tasks'' hi
  obtain ⟨tasks', hi', hp'⟩ := h' i tasks'' hi
  obtain ⟨tasks, hi, hp⟩ := h i tasks' hi'
  exact ⟨tasks, hi, hp.trans hp'⟩

theorem Moves.grows {c c' : Conf σ κ α ν} {ch : Choice} {before : List (Coro κ α ν)} {task : Coro κ α ν}
    (h : Moves P rng c ch c' before task) : Grows c.world c'.world := by
  intro i tasks' hi
  by_cases heq : ch.thread = i
  · subst heq
    rw [h.thread_after] at hi
    cases hi
    refine ⟨_, h.thread, ?_⟩
    rw [List.map_append, List.map_append, List.map_singleton, restart_resume]
    cases ch.isStart <;> simp
  · rw [h.other heq] at hi
    exact ⟨tasks', hi, List.prefix_refl _⟩

theorem grows_of_foldlM : ∀ {r : List Choice} {c c' : Conf σ κ α ν}, r.foldlM (Conf.play P rng) c = some c' →
    Grows c.world c'.world
  | [], c, c', h => by cases h; exact .refl _
  | ch :: r, c, c', h => by
    rw [List.foldlM_cons] at h
    obtain ⟨c₁, hplay, hrest⟩ := Option.bind_eq_some_iff.1 h
    obtain ⟨_, _, hm⟩ := play_moves hplay
    exact hm.grows.trans (grows_of_foldlM hrest)

/-- The replay towards `F` has come to the configuration `c`: its tasks are as in `c`, the ones after them have
returned. -/
structure Midway (F : World σ κ α ν) (c : Conf σ κ α ν) (w : World σ κ α ν) : Prop where
  memory : w.memory = c.world.memory
  threads : ∀ (i : Nat) (tasks : List (Coro κ α ν)), c.world.threads[i]? = some tasks → ∃ rest : List (Coro κ α ν),
    w.threads[i]? = some (tasks ++ rest) ∧ ∀ t ∈ rest, t.isReturned = true
  alike : Alike F w

variable {F w : World σ κ α ν} {c c' : Conf σ κ α ν} {ch : Choice} {before after : List (Coro κ α ν)}
  {task : Coro κ α ν}

/-- The task of a move is resumed again. -/
theorem Midway.resume (h : Midway F c w) (hm : Moves P rng c ch c' before task) {w₁ : World σ κ α ν}
    (hmem : w₁.memory = w.memory) (hthreads : w₁.threads = w.threads.set ch.thread (before ++ task :: after))
    (halike : Alike F w₁) (hafter : ∀ t ∈ after, t.isReturned = true) :
    ∃ w', w₁.resume P.target (ch.thread, before.length) = .ok w' ∧ Midway F c' w' := by
  have hlt : ch.thread < w.threads.length := by
    obtain ⟨_, hi, _⟩ := h.threads _ _ hm.thread
    exact (List.getElem?_eq_some_iff.1 hi).1
  have hw₁ : w₁.threads[ch.thread]? = some (before ++ task :: after) := by
    rw [hthreads]
    simp [hlt]
  refine ⟨_, resume_last hw₁ hm.unfinished, ?_, fun i tasks hi => ?_, ?_⟩
  · rw [hm.world, hmem, h.memory]
  · by_cases heq : ch.thread = i
    · subst heq
      rw [hm.thread_after] at hi
      cases hi
      refine ⟨after, ?_, hafter⟩
      simp [hthreads, hlt, hmem, h.memory]
    · rw [hm.other heq] at hi
      simpa [hthreads, List.getElem?_set_ne heq] using h.threads i tasks hi
  · refine Eq.trans ?_ halike
    rw [List.map_set]
    refine set_self ?_
    simp [hw₁, restart_resume]

/-- A task that was built is what a restart makes of it. -/
theorem Moves.restart_eq (hm : Moves P rng c ch c' before task) (hs : ch.isStart = true) : task.restart = task := by
  cases ch with
  | resume i => cases hs
  | start i k =>
    obtain ⟨b, _, rfl⟩ := hm.built i k rfl
    rfl

/-- **One step of `Replay`.** -/
theorem Midway.replayFrame (h : Midway F c w) (hm : Moves P rng c ch c' before task) (hgrows : Grows c'.world F) :
    ∃ w', replayFrame P.target ⟨some (ch.thread, before.length), ch.isStart⟩ w = .ok w' ∧ Midway F c' w' := by
  obtain ⟨rest, hrest, hret⟩ := h.threads _ _ hm.thread
  unfold Tla.replayFrame
  cases hs : ch.isStart with
  | false =>
    simp only [hs, Bool.false_eq_true, ↓reduceIte, List.append_assoc, List.singleton_append] at hrest
    simp only [Bool.false_eq_true, ↓reduceIte]
    exact h.resume hm rfl (set_self hrest).symm h.alike hret
  | true =>
    simp only [hs, ↓reduceIte, List.append_nil] at hrest
    -- the thread of `F` has a task here, and the one in `w` is that task
    obtain ⟨tasksF, hF⟩ : ∃ tasksF, F.threads[ch.thread]? = some tasksF := by
      have hlen := congrArg List.length h.alike
      simp only [List.length_map] at hlen
      exact ⟨_, List.getElem?_eq_getElem (hlen ▸ (List.getElem?_eq_some_iff.1 hrest).1)⟩
    have hsame : (before ++ rest).map Coro.restart = tasksF.map Coro.restart := by
      have := congrArg (·[ch.thread]?) h.alike
      simpa [hrest, hF] using this
    obtain ⟨tasks', hafter, hpre⟩ := hgrows _ _ hF
    rw [hm.thread_after] at hafter
    cases hafter
    rw [← hsame, List.map_append, List.map_append, List.prefix_append_right_inj, List.map_singleton,
      restart_resume] at hpre
    match rest, hpre, hret, hrest with
    | [], hpre, _, _ => simp at hpre
    | r :: rest, hpre, hret, hrest =>
      have hr : r.restart = task := by
        rw [List.map_cons, List.cons_prefix_cons] at hpre
        rw [← hpre.1, hm.restart_eq hs]
      have hslot : w.task (ch.thread, before.length) = some r := World.task_eq_some.2 ⟨_, hrest, by simp⟩
      have hretr : r.isReturned = true := hret r List.mem_cons_self
      simp only [↓reduceIte, World.restart, hslot, hretr, hr]
      refine h.resume hm rfl ?_ ?_ fun t ht => hret t (List.mem_cons_of_mem _ ht)
      · simp [World.setTask, modify_threads hrest]
      · refine Eq.trans ?_ h.alike
        simp only [World.setTask, modify_threads hrest, List.map_set]
        refine set_self ?_
        simp [hrest, ← hr]
        rfl

/-- `Replay` takes the choices `r` again. -/
theorem replayFrames_ok : ∀ (r q : List Choice) {c c' : Conf σ κ α ν} {w : World σ κ α ν},
    r.foldlM (Conf.play P rng) c = some c' → Counts q c → Midway c'.world c w →
      ∃ w', replayFrames P.target (rowsFrom q r) w = .ok w' ∧ Midway c'.world c' w'
  | [], q, c, c', w, h, _, hw => by cases h; exact ⟨w, rfl, hw⟩
  | ch :: r, q, c, c', w, h, hc, hw => by
    rw [List.foldlM_cons] at h
    obtain ⟨c₁, hplay, hrest⟩ := Option.bind_eq_some_iff.1 h
    obtain ⟨before, task, hm⟩ := play_moves hplay
    obtain ⟨w₁, hframe, hw₁⟩ := hw.replayFrame hm (grows_of_foldlM hrest)
    obtain ⟨w', hframes, hw'⟩ := replayFrames_ok r (q ++ [ch]) hrest (hc.move hm) hw₁
    refine ⟨w', ?_, hw'⟩
    simp only [rowsFrom, replayFrames, hm.frameAt hc, hframe]
    exact hframes

omit [Inhabited ν] in
theorem Counts.init : Counts [] (Conf.init P) := by
  intro i tasks hi
  simp only [Conf.init, List.getElem?_replicate] at hi
  split at hi
  · cases hi; rfl
  · cases hi

/-- **`Replay` gives the configuration of a schedule back** from whatever an abandoned branch has left. -/
theorem replayWorld_rows (hP : Exhaustible P rng) {p : List Choice} {n : Nat → Nat} {c c₁ : Conf σ κ α ν}
    {w : World σ κ α ν} (hplay : playAll P rng p = some c) (hsound : Sound P c.world) (hreach : Reached P rng n c₁)
    (hw : Remains w c₁) (halike : Alike c.world w) : replayWorld P (rows p) w = .ok c.world := by
  obtain ⟨w₁, hterm, hreset, halike₁, hret⟩ := terminateTasks_ok hP hreach hw
  have hstart : Midway c.world (Conf.init P) { w₁ with memory := P.target.reset w₁.memory } := by
    have hlen : w₁.threads.length = P.threadsCount := by
      have := congrArg List.length (halike₁.trans halike)
      simpa [hsound.size] using this
    refine ⟨hreset, fun i tasks hi => ?_, halike₁.trans halike⟩
    simp only [Conf.init, List.getElem?_replicate, ← hlen] at hi
    split at hi
    · rename_i hlt
      cases hi
      refine ⟨w₁.threads[i], by simp, fun t ht => ?_⟩
      obtain ⟨j, hj⟩ := List.getElem?_of_mem ht
      exact hret (i, j) t (World.task_eq_some.2 ⟨_, List.getElem?_eq_getElem hlt, hj⟩)
    · cases hi
  obtain ⟨w₂, hframes, hw₂⟩ := replayFrames_ok p [] hplay .init hstart
  have hthreads : w₂.threads = c.world.threads := by
    have hlen := congrArg List.length hw₂.alike
    simp only [List.length_map] at hlen
    refine List.ext_getElem? fun i => ?_
    cases hi : c.world.threads[i]? with
    | none => rw [List.getElem?_eq_none_iff] at hi ⊢; omega
    | some tasks =>
      obtain ⟨rest, hrest, _⟩ := hw₂.threads i tasks hi
      have hsame := congrArg (fun ts => ts[i]?.map List.length) hw₂.alike
      simp [hi, hrest] at hsame
      rw [hrest, hsame, List.append_nil]
  simp only [replayWorld, hterm, rows]
  have hworld : { w₂ with coroutineStatus := none } = c.world := by
    rw [hthreads, hw₂.memory, ← hsound.status]
  rw [← hworld]
  show (replayFrames P.target _ _ >>= _) = _
  rw [hframes]
  rfl

end Replay

end Ltest.Tla
