import Ltest.Strategy.Rounds

/-!
# Resetting a round

`ResetCurrentRound` first lets every task run to its end, one resume after the other over all threads, then resets the
target and restarts the tasks that are not removed. Whatever an earlier run has left behind, the tasks it restarts are
those that were built (`Restarted`). For a target that does not block, the loop of resumes can only fail to end
(`terminatePasses_ok`).
-/

namespace Ltest

open Program

variable {σ κ α ν ς ρ π : Type}

/-! ## Skipping a part of a thread -/

section TakeWhile

variable {A : Type} {p : A → Bool}

/-- What is skipped satisfies the condition. -/
theorem skipped : ∀ {l : List A} {j : Nat} {a : A}, j < (l.takeWhile p).length → l[j]? = some a → p a = true
  | [], j, a, _, h => by simp at h
  | b :: l, j, a, hj, h => by
    by_cases hb : p b = true
    · rw [List.takeWhile_cons_of_pos hb, List.length_cons] at hj
      cases j with
      | zero =>
        cases h
        exact hb
      | succ j => exact skipped (l := l) (j := j) (by omega) h
    · rw [List.takeWhile_cons_of_neg hb] at hj
      cases hj

/-- What comes next does not. -/
theorem not_skipped : ∀ {l : List A} {a : A}, l[(l.takeWhile p).length]? = some a → p a = false
  | [], a, h => by simp at h
  | b :: l, a, h => by
    by_cases hb : p b = true
    · rw [List.takeWhile_cons_of_pos hb] at h
      exact not_skipped h
    · rw [List.takeWhile_cons_of_neg hb] at h
      cases h
      simpa using hb

end TakeWhile

/-! ## Tasks that do not block -/

/-- No task waits on a futex. -/
def Calm (w : World σ κ α ν) : Prop := ∀ slot c, w.task slot = some c → c.fstate = none

/-- No task of the target ever blocks. -/
def NonBlocking (T : Target σ κ ν) : Prop := ∀ ctx m addr value ctx', (T.run ctx m).1 ≠ .blocked addr value ctx'

section Calm

variable {T : Target σ κ ν} {w w' : World σ κ α ν} {slot : Slot} {c : Coro κ α ν}

theorem setTask_self (h : w.task slot = some c) : w.setTask slot c = w := by
  obtain ⟨tasks, htasks, hj⟩ := World.task_eq_some.1 h
  unfold World.setTask
  rw [modify_threads htasks, set_self hj, set_self htasks]

theorem askBlocked_calm (h : Calm w) (slot : Slot) : w.askBlocked T slot = w := by
  unfold World.askBlocked
  cases hc : w.task slot with
  | none => rfl
  | some c =>
    have hf := h slot c hc
    have hself : { c with fstate := none } = c := by rw [← hf]
    simp only [Coro.waits, hf, Option.any_none, Bool.false_eq_true, ↓reduceIte]
    rw [hself, setTask_self hc]

/-- A task that does not block leaves no futex. -/
theorem fstate_resume (hT : NonBlocking T) (c : Coro κ α ν) (m : σ) (h : c.fstate = none) :
    (c.resume T m).1.fstate = none := by
  unfold Coro.resume
  split
  · exact h
  · exact h
  · exact h
  · rename_i addr value ctx m' hrun
    exact absurd (congrArg Prod.fst hrun) (hT _ _ _ _ _)

theorem Calm.resume (hT : NonBlocking T) (h : Calm w) (hw : w.resume T slot = .ok w') : Calm w' := by
  obtain ⟨c, htask, _, rfl⟩ := World.resume_eq_ok.1 hw
  intro slot' c' hc'
  by_cases hs : slot' = slot
  · subst hs
    have hset := World.task_setTask (d := (c.resume T w.memory).1) htask
    cases hset.symm.trans hc'
    exact fstate_resume hT c _ (h slot' c htask)
  · exact h slot' c' ((World.task_setTask_of_ne hs).symm.trans hc')

end Calm

/-! ## Termination -/

section Terminate

variable [Inhabited ν] {T : Target σ κ ν} {w w' : World σ κ α ν} {i : Nat} {idx idx' : List Nat} {b : Bool}

theorem alike_askBlocked (T : Target σ κ ν) (w : World σ κ α ν) (slot : Slot) : Alike w (w.askBlocked T slot) := by
  unfold World.askBlocked
  split
  · rfl
  · rename_i c hc
    split
    · rfl
    · exact alike_setTask hc rfl

theorem terminateThread_alike (h : terminateThread T i w idx = .ok (b, w', idx')) : Alike w w' := by
  unfold terminateThread at h
  dsimp only at h
  split at h
  · cases h
    rfl
  · split at h
    · split at h
      · cases h
        rfl
      · cases h
    · split at h
      · rename_i w₁ hresume
        cases h
        exact (alike_resume hresume).trans (alike_askBlocked T w _)
      · cases h

theorem terminatePass_alike : ∀ (threads : List Nat) {again again' : Bool} {w w' : World σ κ α ν} {idx idx' : List Nat},
    terminatePass T threads again w idx = .ok (again', w', idx') → Alike w w'
  | [], _, _, _, _, _, _, h => by cases h; rfl
  | i :: threads, again, again', w, w', idx, idx', h => by
    unfold terminatePass at h
    split at h
    · rename_i resumed w₁ idx₁ hthread
      exact (terminatePass_alike threads h).trans (terminateThread_alike hthread)
    · cases h

theorem terminatePasses_alike : ∀ (fuel : Nat) {w w' : World σ κ α ν} {idx : List Nat},
    terminatePasses T fuel w idx = .ok w' → Alike w w'
  | 0, _, _, _, h => by cases h
  | fuel + 1, w, w', idx, h => by
    unfold terminatePasses at h
    split at h
    · rename_i again w₁ idx₁ hpass
      have ha := terminatePass_alike _ hpass
      split at h
      · exact (terminatePasses_alike fuel h).trans ha
      · cases h
        exact ha
    · cases h

omit [Inhabited ν] in
/-- More fuel does not change the outcome. -/
theorem terminatePasses_of_le : ∀ {fuel fuel' : Nat} {w w' : World σ κ α ν} {idx : List Nat}, fuel ≤ fuel' →
    terminatePasses T fuel w idx = .ok w' → terminatePasses T fuel' w idx = .ok w'
  | 0, _, _, _, _, _, h => by cases h
  | fuel + 1, 0, _, _, _, hle, _ => absurd hle (by omega)
  | fuel + 1, fuel' + 1, w, w', idx, hle, h => by
    unfold terminatePasses at h ⊢
    split at h
    · rename_i again w₁ idx₁ hpass
      split at h
      · rename_i hagain
        rw [if_pos hagain]
        exact terminatePasses_of_le (by omega) h
      · rename_i hagain
        rw [if_neg hagain]
        exact h
    · cases h

/-- The tasks before the indices have returned. -/
def Indexed (w : World σ κ α ν) (idx : List Nat) : Prop :=
  ∀ i j c, j < (idx[i]?).getD 0 → w.task (i, j) = some c → c.isReturned = true

/-- `w'` is `w` after a task has been resumed. -/
def Resumed (T : Target σ κ ν) (w' w : World σ κ α ν) : Prop := ∃ slot, w.resume T slot = .ok w'

/-- All tasks of thread `i` have returned. -/
def ReturnedOn (w : World σ κ α ν) (i : Nat) : Prop := ∀ j c, w.task (i, j) = some c → c.isReturned = true

omit [Inhabited ν] in
/-- A thread is advanced: its first unfinished task is resumed, or there is none. -/
theorem terminateThread_calm (hT : NonBlocking T) (hcalm : Calm w) (hidx : Indexed w idx) (i : Nat) :
    ∃ b w' idx', terminateThread T i w idx = .ok (b, w', idx') ∧ Calm w' ∧ Indexed w' idx' ∧
      (b = false → w' = w ∧ ReturnedOn w i) ∧ (b = true → Resumed T w' w) := by
  obtain ⟨tasks, htasks⟩ : ∃ tasks, tasks = w.threads[i]?.getD [] := ⟨_, rfl⟩
  obtain ⟨k, hk⟩ : ∃ k, k = (idx[i]?).getD 0 := ⟨_, rfl⟩
  obtain ⟨n, hn⟩ : ∃ n, n = ((tasks.drop k).takeWhile fun c => c.isReturned).length := ⟨_, rfl⟩
  have hlookup : ∀ j, w.task (i, j) = tasks[j]? := by
    intro j
    rw [htasks]
    unfold World.task
    cases w.threads[i]? <;> simp
  -- the tasks before the first unfinished one have returned
  have hbefore : ∀ j c, j < k + n → tasks[j]? = some c → c.isReturned = true := by
    intro j c hj hc
    by_cases hjk : j < k
    · exact hidx i j c (hk ▸ hjk) (by rw [hlookup, hc])
    · refine skipped (l := tasks.drop k) (j := j - k) (p := fun c => c.isReturned) (by omega) ?_
      rw [List.getElem?_drop, Nat.add_sub_cancel' (by omega), hc]
  have hset : ∀ w' : World σ κ α ν, (∀ i' j c, (i', j) ≠ (i, k + n) → w'.task (i', j) = some c → w.task (i', j) = some c) →
      Indexed w' (idx.set i (k + n)) := by
    intro w' hw' i' j c hj hc
    by_cases hi : i = i'
    · subst hi
      have hj : j < k + n := by
        rw [List.getElem?_set_self'] at hj
        cases h : idx[i]? <;> simp_all
      have hc := hw' i j c (by simp; omega) hc
      exact hbefore j c hj (by rw [← hlookup, hc])
    · rw [List.getElem?_set_ne hi] at hj
      exact hidx i' j c hj (hw' i' j c (by simp; omega) hc)
  unfold terminateThread
  dsimp only
  rw [← htasks, ← hk, ← hn]
  cases htask : tasks[k + n]? with
  | none =>
    refine ⟨false, w, _, rfl, hcalm, hset w fun _ _ _ _ h => h, fun _ => ⟨rfl, fun j c hc => ?_⟩, fun h => by cases h⟩
    rw [hlookup] at hc
    have hlen := List.getElem?_eq_none_iff.1 htask
    have hj := (List.getElem?_eq_some_iff.1 hc).1
    exact hbefore j c (by omega) hc
  | some task =>
    have hslot : w.task (i, k + n) = some task := by rw [hlookup, htask]
    have hr : task.isReturned = false := by
      refine not_skipped (l := tasks.drop k) (p := fun c => c.isReturned) ?_
      rw [← hn, List.getElem?_drop, htask]
    obtain ⟨w', hresume⟩ : ∃ w', w.resume T (i, k + n) = .ok w' := ⟨_, World.resume_eq_ok.2 ⟨task, hslot, hr, rfl⟩⟩
    refine ⟨true, w', idx.set i (k + n), ?_, hcalm.resume hT hresume, hset w' fun i' j c hne hc => ?_,
      fun h => (by cases h), fun _ => ⟨_, hresume⟩⟩
    · simp [Coro.waits, hcalm _ _ hslot, askBlocked_calm hcalm, hresume]
    · obtain ⟨_, _, _, rfl⟩ := World.resume_eq_ok.1 hresume
      exact (World.task_setTask_of_ne hne).symm.trans hc

omit [Inhabited ν] in
/-- A pass over the threads. -/
theorem terminatePass_calm (hT : NonBlocking T) : ∀ (threads : List Nat) (again : Bool) {w : World σ κ α ν}
    {idx : List Nat}, Calm w → Indexed w idx → ∃ again' w' idx', terminatePass T threads again w idx = .ok (again', w', idx') ∧
      Calm w' ∧ Indexed w' idx' ∧ (again' = false → again = false ∧ w' = w ∧ ∀ i ∈ threads, ReturnedOn w i) ∧
      Relation.ReflTransGen (Resumed T) w' w ∧
      (again' = true → again = false → Relation.TransGen (Resumed T) w' w)
  | [], again, w, idx, hcalm, hidx => by
    refine ⟨again, w, idx, rfl, hcalm, hidx, fun h => ⟨h, rfl, by simp⟩, .refl, fun h h' => ?_⟩
    rw [h] at h'
    cases h'
  | i :: threads, again, w, idx, hcalm, hidx => by
    obtain ⟨b, w₁, idx₁, hthread, hcalm₁, hidx₁, hb, hresumed⟩ := terminateThread_calm hT hcalm hidx i
    obtain ⟨again', w', idx', hpass, hcalm', hidx', hagain, hrefl, htrans⟩ :=
      terminatePass_calm hT threads (again || b) hcalm₁ hidx₁
    refine ⟨again', w', idx', by simp [terminatePass, hthread, hpass], hcalm', hidx', fun h => ?_, ?_, fun h hfalse => ?_⟩
    · obtain ⟨hor, rfl, hrest⟩ := hagain h
      rw [Bool.or_eq_false_iff] at hor
      obtain ⟨rfl, hret⟩ := hb hor.2
      exact ⟨hor.1, rfl, List.forall_mem_cons.2 ⟨hret, hrest⟩⟩
    · cases b with
      | false =>
        rw [(hb rfl).1] at hrefl
        exact hrefl
      | true => exact hrefl.tail (hresumed rfl)
    · cases b with
      | false =>
        rw [(hb rfl).1] at htrans
        exact htrans h (by rw [hfalse]; rfl)
      | true => exact .trans_right hrefl (.single (hresumed rfl))

omit [Inhabited ν] in
/-- **The passes end with all tasks returned, if they end.** -/
theorem terminatePasses_ok (hT : NonBlocking T) : ∀ (fuel : Nat) {w : World σ κ α ν} {idx : List Nat}, Calm w →
    Indexed w idx → terminatePasses T fuel w idx ≠ .error .outOfFuel → ∃ w', terminatePasses T fuel w idx = .ok w' ∧
      Calm w' ∧ ∀ slot c, w'.task slot = some c → c.isReturned = true
  | 0, _, _, _, _, h => absurd rfl h
  | fuel + 1, w, idx, hcalm, hidx, h => by
    obtain ⟨again, w', idx', hpass, hcalm', hidx', hagain, _⟩ :=
      terminatePass_calm hT (List.range w.threads.length) false hcalm hidx
    simp only [terminatePasses, hpass] at h ⊢
    cases again with
    | true => exact terminatePasses_ok hT fuel hcalm' hidx' h
    | false =>
      obtain ⟨_, rfl, hret⟩ := hagain rfl
      refine ⟨w', rfl, hcalm', fun slot c hc => ?_⟩
      obtain ⟨tasks, htasks, _⟩ := World.task_eq_some.1 hc
      exact hret slot.1 (List.mem_range.2 (List.getElem?_eq_some_iff.1 htasks).1) slot.2 c hc

omit [Inhabited ν] in
/-- They end when tasks cannot be resumed forever. -/
theorem terminatePasses_ends (hT : NonBlocking T) (hacc : Acc (Resumed T) w) : ∀ {idx : List Nat}, Calm w →
    Indexed w idx → ∃ fuel w', terminatePasses T fuel w idx = .ok w' := by
  induction hacc.transGen with
  | intro w _ ih =>
    intro idx hcalm hidx
    obtain ⟨again, w', idx', hpass, hcalm', hidx', _, _, htrans⟩ :=
      terminatePass_calm hT (List.range w.threads.length) false hcalm hidx
    cases again with
    | false => exact ⟨1, w', by simp [terminatePasses, hpass]⟩
    | true =>
      have hlater := htrans rfl rfl
      obtain ⟨fuel, w'', hpasses⟩ := ih w' hlater (hacc.inv_of_transGen hlater) hcalm' hidx'
      exact ⟨fuel + 1, w'', by simp [terminatePasses, hpass, hpasses]⟩

end Terminate

/-! ## Reset -/

section Reset

variable [Inhabited ν] {S : Strategy σ κ α ν ς ρ π} {st st₀ : Stage σ κ α ν ς ρ π} {fuel : Nat}

/-- The loop of `TerminateTasks` on the tasks of a round. -/
def Stage.passes (S : Strategy σ κ α ν ς ρ π) (fuel : Nat) (st : Stage σ κ α ν ς ρ π) : Except Halt (World σ κ α ν) :=
  terminatePasses S.target fuel st.round.world (List.replicate st.round.world.threads.length 0)

/-- What `ResetCurrentRound` makes of a round. -/
structure Restarted (S : Strategy σ κ α ν ς ρ π) (st : Stage σ κ α ν ς ρ π) (w : World σ κ α ν)
    (st₀ : Stage σ κ α ν ς ρ π) : Prop where
  removed : st₀.round.removedTasks = st.round.removedTasks
  newTaskId : st₀.round.newTaskId = st.round.newTaskId
  memory : st₀.round.world.memory = S.target.reset w.memory
  alike : Alike st.round.world st₀.round.world
  restarted : ∀ slot c, st₀.round.world.task slot = some c → c.id ∉ st.round.removedTasks → c.restart = c
  kept : ∀ slot c, st₀.round.world.task slot = some c → c.id ∈ st.round.removedTasks → w.task slot = some c
  schedule : st₀.round.roundSchedule = List.replicate st₀.round.world.threads.length none

omit [Inhabited ν] in
/-- The tasks after the restarts. -/
theorem task_restartThreads (w : World σ κ α ν) (f : Coro κ α ν → Coro κ α ν) (m : σ) (slot : Slot) :
    World.task { w with memory := m, threads := w.threads.map (·.map f) } slot = (w.task slot).map f := by
  unfold World.task
  cases hi : w.threads[slot.1]? <;> simp [hi]

/-- `ResetCurrentRound` returns when the passes end and the tasks that are not removed have returned. -/
theorem resetCurrentRound_ok {w : World σ κ α ν} (hlen : st.round.roundSchedule.length = st.round.world.threads.length)
    (hpasses : st.passes S fuel = .ok w)
    (hret : ∀ slot c, w.task slot = some c → c.id ∉ st.round.removedTasks → c.isReturned = true) :
    ∃ st₀, S.resetCurrentRound fuel st = .ok st₀ := by
  have hall : (w.threads.flatten.all fun c =>
      decide (c.id ∈ st.round.removedTasks) || c.isReturned) = true := by
    rw [List.all_eq_true]
    intro c hc
    obtain ⟨tasks, htasks, hmem⟩ := List.mem_flatten.1 hc
    obtain ⟨i, hi⟩ := List.getElem?_of_mem htasks
    obtain ⟨j, hj⟩ := List.getElem?_of_mem hmem
    by_cases hrem : c.id ∈ st.round.removedTasks
    · simp [hrem]
    · simp [hret (i, j) c (World.task_eq_some.2 ⟨tasks, hi, hj⟩) hrem]
  unfold Stage.passes at hpasses
  unfold Strategy.resetCurrentRound Strategy.terminateTasks Strategy.restartTasks
  rw [if_neg (by simp [hlen]), hpasses]
  refine ⟨_, bind_eq_ok.2 ⟨_, rfl, bind_eq_ok.2 ⟨_, if_pos hall, rfl⟩⟩⟩

/-- **What a round is after `ResetCurrentRound`.** -/
theorem restarted_of_reset (h : S.resetCurrentRound fuel st = .ok st₀) :
    ∃ w, st.passes S fuel = .ok w ∧ Restarted S st w st₀ := by
  obtain ⟨r, hterm, h⟩ := bind_eq_ok.1 h
  obtain ⟨r₀, hrestart, h⟩ := bind_eq_ok.1 h
  cases h
  unfold Strategy.terminateTasks at hterm
  split at hterm
  · cases hterm
  · rename_i hlen
    rw [ne_eq, not_not] at hlen
    split at hterm
    · rename_i w hpasses
      cases hterm
      unfold Strategy.restartTasks at hrestart
      split at hrestart
      · cases hrestart
        have hw := terminatePasses_alike fuel hpasses
        have hsame : w.threads.length = st.round.world.threads.length := by
          simpa using congrArg List.length hw
        refine ⟨w, hpasses, rfl, rfl, rfl, ?_, fun slot c hc hrem => ?_, fun slot c hc hrem => ?_, ?_⟩
        · refine Eq.trans ?_ hw
          simp only [List.map_map]
          refine List.map_congr_left fun tasks _ => ?_
          simp only [Function.comp_apply, List.map_map]
          refine List.map_congr_left fun c _ => ?_
          simp only [Function.comp_apply]
          split <;> rfl
        · rw [task_restartThreads] at hc
          obtain ⟨c', _, hf⟩ := Option.map_eq_some_iff.1 hc
          split at hf
          · rename_i hrem'
            cases hf
            exact absurd (of_decide_eq_true hrem') hrem
          · cases hf
            rfl
        · rw [task_restartThreads] at hc
          obtain ⟨c', hc', hf⟩ := Option.map_eq_some_iff.1 hc
          split at hf
          · cases hf
            exact hc'
          · rename_i hrem'
            cases hf
            exact absurd (decide_eq_true hrem) hrem'
        · simp [hsame, ← hlen, List.map_const']
      · cases hrestart
    · cases hterm

end Reset

end Ltest
