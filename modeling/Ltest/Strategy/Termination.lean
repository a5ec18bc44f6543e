import Ltest.Strategy.Reset

/-!
# What `TerminateTasks` leaves

The loop of `TerminateTasks` goes through every thread once: a last task that it finds blocked is passed over, and never
looked at again. So what it leaves unfinished are the tasks that it has passed over (`Terminating`), and they are still
blocked if and only if the words of their futexes have, when the last pass begins, the values that the tasks wait on
(`terminatePasses_settled_iff`).
-/

namespace Ltest

variable {σ κ α ν : Type}

/-! ## Tasks that are passed over -/

/-- The task of thread `i` that the loop comes to. -/
def World.visited (w : World σ κ α ν) (taskIndexes : List Nat) (i : Nat) : Nat :=
  (taskIndexes[i]?).getD 0 + (((w.threads[i]?.getD []).drop ((taskIndexes[i]?).getD 0)).takeWhile fun c => c.isReturned).length

/-- The futex of the task that a visit of thread `i` passes over. -/
def passedAt (T : Target σ κ ν) (i : Nat) (w : World σ κ α ν) (taskIndexes : List Nat) : List (Nat × Int) :=
  match w.task (i, w.visited taskIndexes i) with
  | none => []
  | some task => if task.waits T w.memory then task.fstate.toList else []

/-- The futexes of the tasks that a pass passes over. -/
def passOver (T : Target σ κ ν) : List Nat → World σ κ α ν → List Nat → List (Nat × Int)
  | [], _, _ => []
  | i :: threads, w, taskIndexes =>
    passedAt T i w taskIndexes ++
      match terminateThread T i w taskIndexes with
      | .ok (_, w, taskIndexes) => passOver T threads w taskIndexes
      | .error _ => []

/-- Whether the pass that ends the loop begins with another value in the word of a task that was passed over. -/
def leavesBehind (T : Target σ κ ν) : Nat → World σ κ α ν → List Nat → List (Nat × Int) → Bool
  | 0, _, _, _ => false
  | fuel + 1, w, taskIndexes, passed =>
    match terminatePass T (List.range w.threads.length) false w taskIndexes with
    | .ok (true, w', taskIndexes') =>
      leavesBehind T fuel w' taskIndexes' (passed ++ passOver T (List.range w.threads.length) w taskIndexes)
    | .ok (false, _, _) => passed.any fun f => T.word w.memory f.1 != f.2
    | .error _ => false

/-- What holds during the loop that has passed over tasks with the futexes `passed`. -/
structure Terminating (passed : List (Nat × Int)) (w : World σ κ α ν) (idx : List Nat) : Prop where
  size : idx.length = w.threads.length
  /-- The tasks before the indices have returned or have been passed over. -/
  before : ∀ i j c, j < (idx[i]?).getD 0 → w.task (i, j) = some c → c.isReturned = true ∨ ∃ f ∈ passed, c.fstate = some f
  /-- The tasks that have been passed over are as they were. -/
  waiting : ∀ f ∈ passed, ∃ i j c, j < (idx[i]?).getD 0 ∧ w.task (i, j) = some c ∧ c.isReturned = false ∧ c.fstate = some f

section Visits

variable {T : Target σ κ ν} {w w' : World σ κ α ν} {idx idx' : List Nat} {i : Nat} {b : Bool} {passed : List (Nat × Int)}

/-- The tasks of thread `i` in the loop. -/
theorem task_thread (w : World σ κ α ν) (i j : Nat) : w.task (i, j) = (w.threads[i]?.getD [])[j]? := by
  unfold World.task
  cases w.threads[i]? <;> simp

/-- What a visit skips has returned. -/
theorem visited_before {j : Nat} {c : Coro κ α ν} (hge : (idx[i]?).getD 0 ≤ j) (hlt : j < w.visited idx i)
    (hc : w.task (i, j) = some c) : c.isReturned = true := by
  rw [task_thread] at hc
  unfold World.visited at hlt
  refine skipped (p := fun c => c.isReturned) (l := (w.threads[i]?.getD []).drop ((idx[i]?).getD 0))
    (j := j - (idx[i]?).getD 0) (by omega) ?_
  rw [List.getElem?_drop, Nat.add_sub_cancel' hge, hc]

/-- What a visit comes to has not. -/
theorem visited_unreturned {c : Coro κ α ν} (hc : w.task (i, w.visited idx i) = some c) : c.isReturned = false := by
  rw [task_thread] at hc
  unfold World.visited at hc
  refine not_skipped (p := fun c => c.isReturned) (l := (w.threads[i]?.getD []).drop ((idx[i]?).getD 0)) ?_
  rw [List.getElem?_drop, hc]

/-- **A visit**: the thread has no task left, its last task is blocked and passed over, or a task is resumed. -/
inductive Visited (T : Target σ κ ν) (i : Nat) (w : World σ κ α ν) (idx : List Nat) :
    List (Nat × Int) → Bool → World σ κ α ν → List Nat → Prop
  | returned : w.task (i, w.visited idx i) = none → Visited T i w idx [] false w (idx.set i (w.visited idx i))
  | blocked (c : Coro κ α ν) (f : Nat × Int) : w.task (i, w.visited idx i) = some c → c.fstate = some f →
      T.word w.memory f.1 = f.2 → w.visited idx i + 1 = (w.threads[i]?.getD []).length →
      Visited T i w idx [f] false w (idx.set i (w.visited idx i + 1))
  | resumed (c : Coro κ α ν) (w' : World σ κ α ν) : w.task (i, w.visited idx i) = some c →
      (w.askBlocked T (i, w.visited idx i)).resume T (i, w.visited idx i) = .ok w' →
      Visited T i w idx [] true w' (idx.set i (w.visited idx i))

theorem visited_of_terminateThread (h : terminateThread T i w idx = .ok (b, w', idx')) :
    Visited T i w idx (passedAt T i w idx) b w' idx' := by
  unfold terminateThread at h
  unfold passedAt
  dsimp only at h
  rw [show (idx[i]?).getD 0 + _ = w.visited idx i from rfl, ← task_thread] at h
  cases hc : w.task (i, w.visited idx i) with
  | none =>
    rw [hc] at h
    cases h
    exact .returned hc
  | some c =>
    rw [hc] at h
    dsimp only at h ⊢
    by_cases hwaits : c.waits T w.memory = true
    · rw [if_pos hwaits] at h ⊢
      obtain ⟨f, hf, hword⟩ := (Option.any_eq_true _ _).1 hwaits
      have hf : c.fstate = some f := hf
      have hlt : w.visited idx i < (w.threads[i]?.getD []).length := by
        rw [task_thread] at hc
        exact (List.getElem?_eq_some_iff.1 hc).1
      split at h
      · rename_i hlast
        have hlast : w.visited idx i = (w.threads[i]?.getD []).length - 1 := hlast
        cases h
        rw [hf]
        exact .blocked c f hc hf (beq_iff_eq.1 hword) (by omega)
      · cases h
    · rw [if_neg hwaits] at h ⊢
      split at h
      · rename_i w₁ hresume
        cases h
        exact .resumed c _ hc hresume
      · cases h

/-- A task is resumed: the others are as they were. -/
theorem task_askBlocked_resume {slot slot' : Slot} (hw : (w.askBlocked T slot).resume T slot = .ok w') (hne : slot' ≠ slot) :
    w'.task slot' = w.task slot' := by
  have hask : (w.askBlocked T slot).task slot' = w.task slot' := by
    unfold World.askBlocked
    split
    · rfl
    · split
      · rfl
      · exact World.task_setTask_of_ne hne
  obtain ⟨c, _, _, rfl⟩ := World.resume_eq_ok.1 hw
  exact (World.task_setTask_of_ne hne).trans hask

/-- The indices only grow. -/
theorem Visited.grows (h : Visited T i w idx passed b w' idx') (k : Nat) : (idx[k]?).getD 0 ≤ (idx'[k]?).getD 0 := by
  have hle : (idx[i]?).getD 0 ≤ w.visited idx i := Nat.le_add_right _ _
  have hset : ∀ n, (idx[i]?).getD 0 ≤ n → (idx[k]?).getD 0 ≤ ((idx.set i n)[k]?).getD 0 := by
    intro n hn
    by_cases hk : i = k
    · subst hk
      rw [List.getElem?_set_self']
      cases hi : idx[i]? with
      | none => exact Nat.le_refl _
      | some m =>
        rw [hi] at hn
        exact hn
    · rw [List.getElem?_set_ne hk]
  cases h with
  | returned => exact hset _ hle
  | blocked => exact hset _ (by omega)
  | resumed => exact hset _ hle

theorem Visited.length (h : Visited T i w idx passed b w' idx') : idx'.length = idx.length := by
  cases h <;> exact List.length_set

/-- A visit of thread `i` that takes its index to `n`, and passes over the tasks with the futexes `new`. -/
theorem Terminating.advance {n : Nat} {new : List (Nat × Int)} (h : Terminating passed w idx)
    (hsize : w'.threads.length = w.threads.length) (hn : (idx[i]?).getD 0 ≤ n)
    (htasks : ∀ k j, (k = i → j < n) → w'.task (k, j) = w.task (k, j))
    (hbefore : ∀ j c, (idx[i]?).getD 0 ≤ j → j < n → w.task (i, j) = some c →
      c.isReturned = true ∨ ∃ f ∈ new, c.fstate = some f)
    (hnew : ∀ f ∈ new, ∃ j c, j < n ∧ w.task (i, j) = some c ∧ c.isReturned = false ∧ c.fstate = some f) :
    Terminating (passed ++ new) w' (idx.set i n) := by
  have hget : ∀ k, ((idx.set i n)[k]?).getD 0 = if k = i ∧ i < idx.length then n else (idx[k]?).getD 0 := by
    intro k
    rw [List.getElem?_set]
    by_cases hk : i = k
    · subst hk
      by_cases hi : i < idx.length
      · simp [hi]
      · simp [hi]
    · simp [hk, Ne.symm hk]
  refine ⟨by rw [List.length_set, h.size, hsize], fun k j c hj hc => ?_, fun f hf => ?_⟩
  · rw [hget] at hj
    by_cases hk : k = i ∧ i < idx.length
    · rw [if_pos hk] at hj
      obtain ⟨rfl, _⟩ := hk
      rw [htasks k j fun _ => hj] at hc
      by_cases hold : j < (idx[k]?).getD 0
      · obtain hret | ⟨f, hf, hfst⟩ := h.before k j c hold hc
        · exact .inl hret
        · exact .inr ⟨f, List.mem_append_left _ hf, hfst⟩
      · obtain hret | ⟨f, hf, hfst⟩ := hbefore j c (by omega) hj hc
        · exact .inl hret
        · exact .inr ⟨f, List.mem_append_right _ hf, hfst⟩
    · rw [if_neg hk] at hj
      have hsame : k = i → j < n := fun hki => by
        subst hki
        omega
      rw [htasks k j hsame] at hc
      obtain hret | ⟨f, hf, hfst⟩ := h.before k j c hj hc
      · exact .inl hret
      · exact .inr ⟨f, List.mem_append_left _ hf, hfst⟩
  · obtain hf | hf := List.mem_append.1 hf
    · obtain ⟨k, j, c, hj, hc, hrest⟩ := h.waiting f hf
      have hle : (idx[k]?).getD 0 ≤ ((idx.set i n)[k]?).getD 0 := by
        rw [hget]
        split
        · rename_i hk
          rw [hk.1]
          exact hn
        · exact Nat.le_refl _
      refine ⟨k, j, c, by omega, ?_, hrest⟩
      rw [htasks k j fun hk => ?_, hc]
      subst hk
      omega
    · obtain ⟨j, c, hj, hc, hrest⟩ := hnew f hf
      have hi : i < idx.length := by
        obtain ⟨tasks, hthread, _⟩ := World.task_eq_some.1 hc
        rw [h.size]
        exact (List.getElem?_eq_some_iff.1 hthread).1
      refine ⟨i, j, c, ?_, by rw [htasks i j fun _ => hj, hc], hrest⟩
      rw [hget, if_pos ⟨rfl, hi⟩]
      exact hj

/-- **A visit keeps the invariant.** -/
theorem Terminating.visit {new : List (Nat × Int)} (h : Terminating passed w idx)
    (hvisit : Visited T i w idx new b w' idx') : Terminating (passed ++ new) w' idx' := by
  have hle : (idx[i]?).getD 0 ≤ w.visited idx i := Nat.le_add_right _ _
  cases hvisit with
  | returned hnone =>
    exact h.advance rfl hle (fun _ _ _ => rfl) (fun j c hj hlt hc => .inl (visited_before hj hlt hc)) (by simp)
  | blocked c f hc hf _ _ =>
    refine h.advance rfl (by omega) (fun _ _ _ => rfl) (fun j d hj hlt hd => ?_) fun g hg => ?_
    · obtain hlt | rfl : j < w.visited idx i ∨ j = w.visited idx i := by omega
      · exact .inl (visited_before hj hlt hd)
      · cases hc.symm.trans hd
        exact .inr ⟨f, List.mem_singleton.2 rfl, hf⟩
    · rw [List.mem_singleton.1 hg]
      exact ⟨_, c, Nat.lt_succ_self _, hc, visited_unreturned hc, hf⟩
  | resumed c w' hc hresume =>
    have : Inhabited ν := ⟨c.ret⟩
    have hsize : w'.threads.length = w.threads.length := by
      simpa using congrArg List.length ((alike_resume hresume).trans (alike_askBlocked T w _))
    refine h.advance hsize hle (fun k j hk => task_askBlocked_resume hresume ?_)
      (fun j c hj hlt hc => .inl (visited_before hj hlt hc)) (by simp)
    rintro ⟨⟩
    exact Nat.lt_irrefl _ (hk rfl)

/-- A visit that resumes no task changes no task, and takes the thread to its end. -/
theorem Visited.idle {new : List (Nat × Int)} (hvisit : Visited T i w idx new false w' idx')
    (hi : i < idx.length) : w' = w ∧ (w.threads[i]?.getD []).length ≤ (idx'[i]?).getD 0 ∧
      ∀ f ∈ new, T.word w.memory f.1 = f.2 := by
  cases hvisit with
  | returned hnone =>
    rw [task_thread] at hnone
    refine ⟨rfl, ?_, by simp⟩
    rw [List.getElem?_set_self hi]
    exact List.getElem?_eq_none_iff.1 hnone
  | blocked c f hc hf hword hlast =>
    refine ⟨rfl, ?_, by simpa using hword⟩
    rw [List.getElem?_set_self hi]
    exact hlast.ge

end Visits

/-! ## Passes -/

section Passes

variable {T : Target σ κ ν}

/-- What a pass that resumes no task leaves. -/
structure Idle (T : Target σ κ ν) (threads : List Nat) (w w' : World σ κ α ν) (idx idx' : List Nat) : Prop where
  same : w' = w
  blocked : ∀ f ∈ passOver T threads w idx, T.word w.memory f.1 = f.2
  ended : ∀ i ∈ threads, (w.threads[i]?.getD []).length ≤ (idx'[i]?).getD 0

/-- **A pass keeps the invariant.** -/
theorem Terminating.pass : ∀ (threads : List Nat) {again again' : Bool} {w w' : World σ κ α ν} {idx idx' : List Nat}
    {passed : List (Nat × Int)}, terminatePass T threads again w idx = .ok (again', w', idx') →
    Terminating passed w idx → (∀ i ∈ threads, i < idx.length) →
    Terminating (passed ++ passOver T threads w idx) w' idx' ∧ (∀ k : Nat, (idx[k]?).getD 0 ≤ (idx'[k]?).getD 0) ∧
      (again' = false → again = false ∧ Idle T threads w w' idx idx')
  | [], again, again', w, w', idx, idx', passed, h, hinv, _ => by
    cases h
    refine ⟨?_, fun _ => Nat.le_refl _, fun hagain => ⟨hagain, rfl, by simp [passOver], by simp⟩⟩
    rw [passOver, List.append_nil]
    exact hinv
  | i :: threads, again, again', w, w', idx, idx', passed, h, hinv, hlt => by
    unfold terminatePass at h
    split at h
    · rename_i b w₁ idx₁ hthread
      have hvisit := visited_of_terminateThread hthread
      have hinv₁ := hinv.visit hvisit
      obtain ⟨hi, hlt⟩ := List.forall_mem_cons.1 hlt
      obtain ⟨hinv', hgrows, hidle⟩ := Terminating.pass threads h hinv₁ (by rwa [hvisit.length])
      have hover : passOver T (i :: threads) w idx = passedAt T i w idx ++ passOver T threads w₁ idx₁ := by
        rw [passOver, hthread]
      refine ⟨?_, fun k => (hvisit.grows k).trans (hgrows k), fun hagain => ?_⟩
      · rw [hover, ← List.append_assoc]
        exact hinv'
      · obtain ⟨hor, hrest⟩ := hidle hagain
        rw [Bool.or_eq_false_iff] at hor
        obtain ⟨hagain, rfl⟩ := hor
        obtain ⟨rfl, hend, hword⟩ := hvisit.idle hi
        refine ⟨hagain, hrest.same, fun f hf => ?_, List.forall_mem_cons.2 ⟨hend.trans (hgrows i), hrest.ended⟩⟩
        rw [hover] at hf
        obtain hf | hf := List.mem_append.1 hf
        · exact hword f hf
        · exact hrest.blocked f hf
    · cases h

/-- Every task has returned or is blocked. -/
def Settled (T : Target σ κ ν) (w : World σ κ α ν) : Prop :=
  ∀ slot c, w.task slot = some c → c.isReturned = true ∨ c.waits T w.memory = true

/-- The last pass: the tasks are settled if those that were passed over before it still wait. -/
theorem Terminating.settled_iff {w w' : World σ κ α ν} {idx idx' : List Nat} {passed : List (Nat × Int)}
    (h : Terminating passed w idx) (h' : Terminating (passed ++ passOver T (List.range w.threads.length) w idx) w' idx')
    (hidle : Idle T (List.range w.threads.length) w w' idx idx') :
    Settled T w' ↔ ∀ f ∈ passed, T.word w.memory f.1 = f.2 := by
  obtain ⟨rfl, hblocked, hended⟩ := hidle
  constructor
  · intro hsettled f hf
    obtain ⟨i, j, c, _, hc, hr, hfst⟩ := h.waiting f hf
    obtain hret | hwaits := hsettled (i, j) c hc
    · rw [hr] at hret
      cases hret
    · unfold Coro.waits at hwaits
      rw [hfst] at hwaits
      exact beq_iff_eq.1 hwaits
  · rintro hwords ⟨i, j⟩ c hc
    obtain ⟨tasks, htasks, hj⟩ := World.task_eq_some.1 hc
    have hlt : j < (idx'[i]?).getD 0 := by
      have hend := hended i (List.mem_range.2 (List.getElem?_eq_some_iff.1 htasks).1)
      have hjlt := (List.getElem?_eq_some_iff.1 hj).1
      simp only [htasks, Option.getD_some] at hend hjlt
      omega
    obtain hret | ⟨f, hf, hfst⟩ := h'.before i j c hlt hc
    · exact .inl hret
    · refine .inr ?_
      unfold Coro.waits
      rw [hfst]
      refine beq_iff_eq.2 ?_
      obtain hf | hf := List.mem_append.1 hf
      · exact hwords f hf
      · exact hblocked f hf

/-- The passes, from a state in which the tasks with the futexes `passed` have been passed over. -/
theorem Terminating.passes : ∀ (fuel : Nat) {w w' : World σ κ α ν} {idx : List Nat} {passed : List (Nat × Int)},
    terminatePasses T fuel w idx = .ok w' → Terminating passed w idx →
    (Settled T w' ↔ leavesBehind T fuel w idx passed = false)
  | 0, _, _, _, _, h, _ => by cases h
  | fuel + 1, w, w', idx, passed, h, hinv => by
    unfold terminatePasses at h
    unfold leavesBehind
    split at h
    · rename_i again w₁ idx₁ hpass
      have hlt : ∀ i ∈ List.range w.threads.length, i < idx.length := by
        rw [hinv.size]
        exact fun i => List.mem_range.1
      obtain ⟨hinv', _, hidle⟩ := hinv.pass _ hpass hlt
      rw [hpass]
      cases again with
      | true => exact hinv'.passes fuel h
      | false =>
        cases h
        rw [hinv.settled_iff hinv' (hidle rfl).2]
        simp
    · cases h

end Passes

/-! ## A task that waits for another thread -/

end Ltest
