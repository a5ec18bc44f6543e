import Ltest.Strategy.Session
import Mathlib.Data.List.Perm.Subperm

/-!
# The operations in a history

A history that is given to the checker shows for each thread the operations of its tasks one after the other
(`Operations`): an invoke, the response of the same task, and only the last one may be pending. A step of the scheduler
keeps this when it starts a task on a thread whose tasks have all returned, or goes on with the last task of a thread
(`Continues`, `Operations.resume`).
-/

namespace Ltest

open Program

variable {τ σ κ α ν ς ρ π : Type}

/-! ## The events of a thread -/

namespace HistoryEvent

/-- The thread of an event. -/
def thread : HistoryEvent τ ν → Nat
  | .invoke _ threadId => threadId
  | .response _ _ threadId => threadId

/-- The task of an event. -/
def task : HistoryEvent τ ν → τ
  | .invoke task _ => task
  | .response task _ _ => task

end HistoryEvent

/-- The events of thread `i`. -/
def onThread (i : Nat) (seq : List (HistoryEvent τ ν)) : List (HistoryEvent τ ν) := seq.filter fun e => e.thread == i

/-- Operations one after the other: an invoke and the response of the same task. The last operation may be pending. -/
inductive Alternating : List (HistoryEvent τ ν) → Prop
  | nil : Alternating []
  | pending (task : τ) (threadId : Nat) : Alternating [.invoke task threadId]
  | operation (task : τ) (result : ν) (threadId : Nat) {seq : List (HistoryEvent τ ν)} : Alternating seq →
      Alternating (.invoke task threadId :: .response task result threadId :: seq)

/-- The tasks that are invoked and not answered. -/
def pendingInvokes [DecidableEq τ] (seq : List (HistoryEvent τ ν)) : List τ :=
  (seq.filterMap HistoryEvent.invoked).filter fun t => !seq.any fun e => e.answered == some t

/-- What a history shows of the task in a slot once it has been resumed. -/
def World.operation (w : World σ κ α ν) (slot : Slot) : List (HistoryEvent Slot ν) :=
  match w.task slot with
  | none => []
  | some c => .invoke slot slot.1 :: if c.isReturned then [.response slot c.ret slot.1] else []

/-- A history `seq` shows the operations of the tasks at the positions `started` of each thread. -/
structure Operations (w : World σ κ α ν) (started : Nat → List Nat) (seq : List (HistoryEvent Slot ν)) : Prop where
  threads : ∀ i, onThread i seq = (started i).flatMap fun j => w.operation (i, j)
  there : ∀ i, ∀ j ∈ started i, (w.task (i, j)).isSome
  nodup : ∀ i, (started i).Nodup
  /-- Only the last operation of a thread may be pending. -/
  finished : ∀ i, ∀ j ∈ (started i).dropLast, ∀ c, w.task (i, j) = some c → c.isReturned = true

section Events

variable {i : Nat} {l l' : List (HistoryEvent τ ν)}

theorem onThread_append (i : Nat) (l l' : List (HistoryEvent τ ν)) :
    onThread i (l ++ l') = onThread i l ++ onThread i l' := List.filter_append ..

theorem onThread_self (h : ∀ e ∈ l, e.thread = i) : onThread i l = l := by
  unfold onThread
  rw [List.filter_eq_self]
  exact fun e he => beq_iff_eq.2 (h e he)

theorem onThread_other (h : ∀ e ∈ l, e.thread ≠ i) : onThread i l = [] := by
  unfold onThread
  rw [List.filter_eq_nil_iff]
  exact fun e he hi => h e he (beq_iff_eq.1 hi)

theorem operation_congr {w w' : World σ κ α ν} {slot : Slot} (h : w'.task slot = w.task slot) :
    w'.operation slot = w.operation slot := by
  unfold World.operation
  rw [h]

end Events

section Steps

variable {T : Target σ κ ν} {w w' : World σ κ α ν} {started started' : Nat → List Nat} {h : BothHistories ν} {t : Picked}
  {task : Coro κ α ν}

/-- Only the tasks that have started matter. -/
theorem Operations.frame {seq : List (HistoryEvent Slot ν)} (ho : Operations w started seq)
    (htask : ∀ i, ∀ j ∈ started i, w'.task (i, j) = w.task (i, j)) : Operations w' started seq := by
  refine ⟨fun i => ?_, fun i j hj => ?_, ho.nodup, fun i j hj c hc => ?_⟩
  · rw [ho.threads i]
    exact List.flatMap_congr fun j hj => (operation_congr (htask i j hj)).symm
  · rw [htask i j hj]
    exact ho.there i j hj
  · rw [htask i j (List.dropLast_subset _ hj)] at hc
    exact ho.finished i j hj c hc

/-- The events of a step. -/
def stepEvents (t : Picked) (task : Coro κ α ν) : List (HistoryEvent Slot ν) :=
  (if t.isNew then [.invoke t.slot t.threadId] else []) ++
    if task.isReturned then [.response t.slot task.ret t.threadId] else []

theorem respond_seq (h : BothHistories ν) (t : Picked) (task : Coro κ α ν) :
    ((h.push t).respond t task).seq = h.seq ++ stepEvents t task := by
  unfold BothHistories.respond BothHistories.push stepEvents
  cases task.isReturned <;> simp

theorem thread_of_stepEvents {e : HistoryEvent Slot ν} (he : e ∈ stepEvents t task) : e.thread = t.threadId := by
  unfold stepEvents at he
  obtain he | he := List.mem_append.1 he
  · split at he
    · rw [List.mem_singleton.1 he]
      rfl
    · cases he
  · split at he
    · rw [List.mem_singleton.1 he]
      rfl
    · cases he

/-- How the positions of a thread go on with a step: its task starts, or is the last one that has. -/
inductive Continues (w : World σ κ α ν) (t : Picked) (before started started' : List Nat) : Prop
  | starts : t.isNew = true → started = before → started' = before ++ [t.slot.2] → t.slot.2 ∉ before →
      (∀ j ∈ before, ∀ c, w.task (t.slot.1, j) = some c → c.isReturned = true) → Continues w t before started started'
  | goesOn : t.isNew = false → started = before ++ [t.slot.2] → started' = before ++ [t.slot.2] →
      Continues w t before started started'

/-- **A task is resumed.** -/
theorem Operations.resume {before : List Nat} (ho : Operations w started h.seq) (hthread : t.threadId = t.slot.1)
    (hresume : w.resume T t.slot = .ok w') (htask : w'.task t.slot = some task)
    (hother : ∀ i, i ≠ t.slot.1 → started' i = started i)
    (hcont : Continues w t before (started t.slot.1) (started' t.slot.1)) :
    Operations w' started' ((h.push t).respond t task).seq := by
  obtain ⟨c, hc, hr, hw⟩ := World.resume_eq_ok.1 hresume
  have hframe : ∀ slot, slot ≠ t.slot → w'.task slot = w.task slot := by
    intro slot hne
    rw [hw]
    exact World.task_setTask_of_ne hne
  -- the tasks of the thread before this one
  obtain ⟨hstarted', hnodup, hreturned⟩ : started' t.slot.1 = before ++ [t.slot.2] ∧ (before ++ [t.slot.2]).Nodup ∧
      ∀ j ∈ before, (w.task (t.slot.1, j)).isSome ∧ ∀ c, w.task (t.slot.1, j) = some c → c.isReturned = true := by
    have hnodup := ho.nodup t.slot.1
    have hthere := ho.there t.slot.1
    have hfinished := ho.finished t.slot.1
    cases hcont with
    | starts _ hs hs' hnot hret =>
      rw [hs] at hnodup hthere
      exact ⟨hs', by simpa using hnodup.concat hnot, fun j hj => ⟨hthere j hj, hret j hj⟩⟩
    | goesOn _ hs hs' =>
      rw [hs] at hnodup hthere hfinished
      rw [List.dropLast_concat] at hfinished
      exact ⟨hs', hnodup, fun j hj => ⟨hthere j (List.mem_append_left _ hj), hfinished j hj⟩⟩
  have hbefore : ∀ j ∈ before, w'.task (t.slot.1, j) = w.task (t.slot.1, j) := by
    refine fun j hj => hframe _ fun heq => ?_
    rw [← heq] at hnodup
    exact (List.nodup_append.1 hnodup).2.2 j hj j (List.mem_singleton.2 rfl) rfl
  have hlast : onThread t.slot.1 h.seq ++ stepEvents t task =
      (before.flatMap fun j => w.operation (t.slot.1, j)) ++ w'.operation t.slot := by
    rw [ho.threads]
    unfold stepEvents World.operation
    rw [htask, hthread]
    cases hcont with
    | starts hnew hs => simp [hnew, hs]
    | goesOn hnew hs => simp [hnew, hs, hc, hr]
  refine ⟨fun i => ?_, fun i j hj => ?_, fun i => ?_, fun i j hj d hd => ?_⟩
  · rw [respond_seq, onThread_append]
    by_cases hi : i = t.slot.1
    · subst hi
      rw [onThread_self fun e he => (thread_of_stepEvents he).trans hthread, hlast, hstarted', List.flatMap_append,
        List.flatMap_singleton]
      rw [List.flatMap_congr fun j hj => operation_congr (hbefore j hj)]
    · rw [onThread_other (l := stepEvents t task) fun e he heq => hi (by rw [← heq, thread_of_stepEvents he, hthread]),
        List.append_nil, hother i hi, ho.threads]
      refine List.flatMap_congr fun j _ => (operation_congr (hframe _ fun heq => hi ?_)).symm
      rw [← heq]
  · by_cases hi : i = t.slot.1
    · subst hi
      rw [hstarted'] at hj
      obtain hj | hj := List.mem_append.1 hj
      · rw [hbefore j hj]
        exact (hreturned j hj).1
      · rw [List.mem_singleton.1 hj, htask]
        rfl
    · rw [hother i hi] at hj
      rw [hframe _ fun heq => hi (by rw [← heq])]
      exact ho.there i j hj
  · by_cases hi : i = t.slot.1
    · rw [hi, hstarted']
      exact hnodup
    · rw [hother i hi]
      exact ho.nodup i
  · by_cases hi : i = t.slot.1
    · subst hi
      rw [hstarted', List.dropLast_concat] at hj
      rw [hbefore j hj] at hd
      exact (hreturned j hj).2 d hd
    · rw [hother i hi] at hj
      rw [hframe _ fun heq => hi (by rw [← heq])] at hd
      exact ho.finished i j hj d hd

end Steps

/-! ## What the operations say -/

section Facts

variable {w : World σ κ α ν} {started : Nat → List Nat} {seq : List (HistoryEvent Slot ν)}

theorem mem_onThread {e : HistoryEvent τ ν} {l : List (HistoryEvent τ ν)} : e ∈ onThread e.thread l ↔ e ∈ l := by
  unfold onThread
  rw [List.mem_filter]
  simp

/-- The events of a task. -/
theorem mem_operation {slot : Slot} {e : HistoryEvent Slot ν} (he : e ∈ w.operation slot) : e.task = slot ∧
    e.thread = slot.1 ∧ ∃ c, w.task slot = some c ∧
      (e = .invoke slot slot.1 ∨ c.isReturned = true ∧ e = .response slot c.ret slot.1) := by
  unfold World.operation at he
  cases hc : w.task slot with
  | none =>
    rw [hc] at he
    cases he
  | some c =>
    rw [hc] at he
    obtain rfl | he := List.mem_cons.1 he
    · exact ⟨rfl, rfl, c, rfl, .inl rfl⟩
    · split at he
      · rename_i hret
        rw [List.mem_singleton.1 he]
        exact ⟨rfl, rfl, c, rfl, .inr ⟨hret, rfl⟩⟩
      · cases he

/-- Every event belongs to the operation of a task that has started. -/
theorem Operations.mem_iff (ho : Operations w started seq) {e : HistoryEvent Slot ν} :
    e ∈ seq ↔ e.task.2 ∈ started e.task.1 ∧ e ∈ w.operation e.task := by
  rw [← mem_onThread, ho.threads, List.mem_flatMap]
  constructor
  · rintro ⟨j, hj, he⟩
    obtain ⟨htask, hthread, _⟩ := mem_operation he
    rw [htask]
    exact ⟨hj, he⟩
  · rintro ⟨hj, he⟩
    obtain ⟨_, hthread, _⟩ := mem_operation he
    rw [hthread]
    exact ⟨e.task.2, hj, he⟩

/-- Each thread alternates. -/
theorem Operations.alternating (ho : Operations w started seq) (i : Nat) : Alternating (onThread i seq) := by
  have hthere := ho.there i
  have hfinished := ho.finished i
  rw [ho.threads]
  generalize started i = l at hthere hfinished
  induction l with
  | nil => exact .nil
  | cons j l ih =>
    obtain ⟨hj, hthere⟩ := List.forall_mem_cons.1 hthere
    obtain ⟨c, hc⟩ := Option.isSome_iff_exists.1 hj
    rw [List.flatMap_cons]
    unfold World.operation
    rw [hc]
    dsimp only
    cases l with
    | nil =>
      split
      · exact .operation _ _ _ .nil
      · exact .pending _ _
    | cons k l =>
      rw [List.dropLast_cons_cons] at hfinished
      obtain ⟨hret, hfinished⟩ := List.forall_mem_cons.1 hfinished
      rw [if_pos (hret c hc)]
      exact .operation _ _ _ (ih hthere hfinished)

theorem filterMap_invoked_operation (slot : Slot) (h : (w.task slot).isSome) :
    (w.operation slot).filterMap HistoryEvent.invoked = [slot] := by
  obtain ⟨c, hc⟩ := Option.isSome_iff_exists.1 h
  unfold World.operation
  rw [hc]
  dsimp only
  split <;> simp [HistoryEvent.invoked]

/-- The invokes of a thread are its tasks, in order. -/
theorem Operations.invoked (ho : Operations w started seq) (i : Nat) :
    (onThread i seq).filterMap HistoryEvent.invoked = (started i).map fun j => (i, j) := by
  have hthere := ho.there i
  rw [ho.threads, List.filterMap_flatMap]
  generalize started i = l at hthere
  induction l with
  | nil => rfl
  | cons j l ih =>
    obtain ⟨hj, hthere⟩ := List.forall_mem_cons.1 hthere
    rw [List.flatMap_cons, filterMap_invoked_operation (i, j) hj, ih hthere]
    rfl

/-- Each task that has started is invoked once, and no other one. -/
theorem Operations.count_invoked (ho : Operations w started seq) (slot : Slot) :
    (seq.filterMap HistoryEvent.invoked).count slot = if slot.2 ∈ started slot.1 then 1 else 0 := by
  have hthread : (seq.filterMap HistoryEvent.invoked).count slot =
      ((onThread slot.1 seq).filterMap HistoryEvent.invoked).count slot := by
    rw [List.count_filterMap, List.count_filterMap]
    unfold onThread
    rw [List.countP_filter]
    refine List.countP_congr fun e he => ?_
    obtain ⟨_, he⟩ := ho.mem_iff.1 he
    obtain ⟨htask, hthread, _⟩ := mem_operation he
    cases e with
    | invoke t th =>
      have hth : th = t.1 := hthread
      subst hth
      simp only [HistoryEvent.invoked, HistoryEvent.thread, beq_iff_eq, Option.some.injEq, Bool.and_eq_true]
      constructor
      · rintro rfl
        exact ⟨rfl, rfl⟩
      · exact fun h => h.1
    | response t r th => simp [HistoryEvent.invoked]
  obtain ⟨i, j⟩ := slot
  rw [hthread, ho.invoked]
  have hinj : Function.Injective fun j : Nat => (i, j) := fun j j' h => (Prod.mk.inj h).2
  rw [List.count_map_of_injective _ _ hinj, (ho.nodup i).count]

/-- A pending invoke is that of the last task of its thread, which has not returned. -/
theorem Operations.pending (ho : Operations w started seq) {t : Slot} (ht : t ∈ pendingInvokes seq) :
    (started t.1).getLast? = some t.2 ∧ ∃ c, w.task t = some c ∧ c.isReturned = false := by
  obtain ⟨ht, hunanswered⟩ := List.mem_filter.1 ht
  obtain ⟨e, he, hinvoked⟩ := List.mem_filterMap.1 ht
  obtain ⟨hstarted, hevent⟩ := ho.mem_iff.1 he
  obtain rfl : e.task = t := by
    cases e with
    | invoke t' th =>
      cases hinvoked
      rfl
    | response t' r th => cases hinvoked
  obtain ⟨c, hc⟩ := Option.isSome_iff_exists.1 (ho.there _ _ hstarted)
  have hr : c.isReturned = false := by
    by_contra hret
    rw [Bool.not_eq_false] at hret
    have hresponse : .response e.task c.ret e.task.1 ∈ seq := by
      refine ho.mem_iff.2 ⟨hstarted, ?_⟩
      show _ ∈ w.operation e.task
      unfold World.operation
      rw [show w.task e.task = some c from hc]
      simp [hret]
    rw [Bool.not_eq_true', List.any_eq_false] at hunanswered
    exact hunanswered _ hresponse (by simp [HistoryEvent.answered])
  refine ⟨?_, c, hc, hr⟩
  obtain ⟨before, j, hlast⟩ : ∃ before j, started e.task.1 = before ++ [j] := by
    have hne : started e.task.1 ≠ [] := List.ne_nil_of_mem hstarted
    exact ⟨_, _, (List.dropLast_append_getLast hne).symm⟩
  have hfinished := ho.finished e.task.1
  rw [hlast] at hstarted hfinished ⊢
  rw [List.dropLast_concat] at hfinished
  obtain hbefore | hj := List.mem_append.1 hstarted
  · have hret := hfinished _ hbefore c hc
    rw [hr] at hret
    cases hret
  · rw [List.getLast?_concat, List.mem_singleton.1 hj]

/-- A thread whose last task has returned has no pending invoke, and the others at most one each. -/
theorem Operations.length_pending (ho : Operations w started seq) {n idle : Nat} (hn : ∀ i, started i ≠ [] → i < n)
    (hidle : idle < n) (hret : ∀ j c, (started idle).getLast? = some j → w.task (idle, j) = some c → c.isReturned = true) :
    (pendingInvokes seq).length ≤ n - 1 := by
  have hnodup : (pendingInvokes seq).Nodup := by
    refine List.Nodup.filter _ (List.nodup_iff_count_le_one.2 fun slot => ?_)
    rw [ho.count_invoked]
    split <;> omega
  have hthreads : ((pendingInvokes seq).map Prod.fst).Nodup := by
    refine hnodup.map_on fun t ht t' ht' heq => ?_
    have hlast := (ho.pending ht).1
    rw [heq, (ho.pending ht').1] at hlast
    exact Prod.ext heq (Option.some.inj hlast).symm
  have hsub : (pendingInvokes seq).map Prod.fst ⊆ (List.range n).erase idle := by
    intro i hi
    obtain ⟨t, ht, rfl⟩ := List.mem_map.1 hi
    obtain ⟨hlast, c, hc, hr⟩ := ho.pending ht
    rw [List.nodup_range.mem_erase_iff, List.mem_range]
    refine ⟨?_, hn _ fun hnil => ?_⟩
    · rintro rfl
      have := hret t.2 c hlast hc
      rw [hr] at this
      cases this
    · rw [hnil] at hlast
      cases hlast
  have hle := (hthreads.subperm hsub).length_le
  rwa [List.length_map, List.length_erase_of_mem (List.mem_range.2 hidle), List.length_range] at hle

end Facts

end Ltest
