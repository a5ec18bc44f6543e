import Ltest.Lincheck.Prefix
import Ltest.Runtime.Coro

/-!
# The history of a world

The sequential history of a scheduler refers to the tasks of its world: each of them has been invoked once, and an
answered one has been invoked before (`Booked`). Both schedulers append to the history and to the tasks, and a task that
has returned keeps its result (`Later`), so what `LinearizabilityCheckerRecursive` accepts at the end it would have
accepted at every point before (`accepts_of_later`).
-/

namespace Ltest

variable {σ κ α ν β : Type}

/-! ## The checker -/

section Checker

variable [Inhabited α] [Inhabited ν]

/-- What a checker finds at the reference to a task. -/
def viewIn (history : List (HistoryEvent (Slot × Option (TaskView α ν)) ν)) (slot : Slot) : TaskView α ν :=
  (history.findSome? fun e => e.invoked.bind fun t => if t.1 = slot then t.2 else none).getD ⟨"", default, default⟩

/-- `LinearizabilityCheckerRecursive` as the checker of a scheduler. -/
def recursiveChecker [BEq ν] (spec : Specification β α ν) : ModelChecker α ν := fun history =>
  Recursive.check spec (viewIn history) (history.map (·.mapTask Prod.fst)) == some true

variable {w : World σ κ α ν} {seq : List (HistoryEvent Slot ν)} {slot : Slot}

omit [Inhabited α] [Inhabited ν] in
/-- The history without the tasks is the one that the scheduler has kept. -/
theorem map_resolve (w : World σ κ α ν) (seq : List (HistoryEvent Slot ν)) :
    (w.resolve seq).map (·.mapTask Prod.fst) = seq := by
  unfold World.resolve
  rw [List.map_map]
  refine (List.map_congr_left fun e _ => ?_).trans (List.map_id seq)
  cases e <;> rfl

/-- A task that is invoked is found. -/
theorem viewIn_resolve {c : Coro κ α ν} (hc : w.task slot = some c) : ∀ {seq : List (HistoryEvent Slot ν)} {i : Nat},
    InvokeAt seq i slot → viewIn (w.resolve seq) slot = c.view
  | [], i, h => by
    obtain ⟨_, h⟩ := h
    cases h
  | e :: seq, i, h => by
    have hrest : ∀ {i}, InvokeAt seq i slot → viewIn (w.resolve seq) slot = c.view := fun h => viewIn_resolve hc h
    by_cases he : e.invoked = some slot
    · cases e with
      | response => cases he
      | invoke t th =>
        obtain rfl := Option.some.inj he
        simp [viewIn, World.resolve, HistoryEvent.mapTask, HistoryEvent.invoked, hc]
    · have hskip : viewIn (w.resolve (e :: seq)) slot = viewIn (w.resolve seq) slot := by
        cases e with
        | response => simp [viewIn, World.resolve, HistoryEvent.mapTask, HistoryEvent.invoked]
        | invoke t th =>
          have hne : t ≠ slot := fun heq => he (by rw [heq]; rfl)
          simp [viewIn, World.resolve, HistoryEvent.mapTask, HistoryEvent.invoked, hne]
      obtain ⟨th, h⟩ := h
      cases i with
      | zero =>
        cases h
        exact absurd rfl he
      | succ i => exact hskip.trans (hrest ⟨th, h⟩)

theorem recursiveChecker_resolve [BEq ν] {spec : Specification β α ν} : recursiveChecker spec (w.resolve seq) = true ↔
    Recursive.check spec (viewIn (w.resolve seq)) seq = some true := by
  unfold recursiveChecker
  rw [map_resolve]
  cases Recursive.check spec (viewIn (w.resolve seq)) seq with
  | none => simp
  | some b => cases b <;> simp

end Checker

/-! ## Booked histories -/

/-- The number of tasks of each thread. -/
def World.sizes (w : World σ κ α ν) : List Nat := w.threads.map List.length

/-- There is a task in the slot. -/
def InSizes (sizes : List Nat) (slot : Slot) : Prop := ∃ n, sizes[slot.1]? = some n ∧ slot.2 < n

theorem inSizes_iff {w : World σ κ α ν} {slot : Slot} : InSizes w.sizes slot ↔ (w.task slot).isSome := by
  unfold InSizes World.sizes World.task
  rw [List.getElem?_map]
  cases w.threads[slot.1]? <;> simp

/-- The history invokes each task once, and nothing else, and answers what it has invoked. -/
structure Booked (sizes : List Nat) (seq : List (HistoryEvent Slot ν)) : Prop where
  invoked : ∀ slot, (∃ i, InvokeAt seq i slot) ↔ InSizes sizes slot
  once : InvokedOnce seq
  responses : ResponsesInvoked seq

/-- The answered tasks have returned. -/
def Answered (w : World σ κ α ν) (seq : List (HistoryEvent Slot ν)) : Prop :=
  ∀ j slot, ResponseAt seq j slot → ∃ c, w.task slot = some c ∧ c.isReturned = true

/-- The history is booked on the tasks, and the answered ones have returned. -/
structure Ledger (w : World σ κ α ν) (seq : List (HistoryEvent Slot ν)) : Prop where
  booked : Booked w.sizes seq
  answered : Answered w seq

/-- The names of the tasks are names of methods. -/
def NamedTasks (spec : Specification β α ν) (w : World σ κ α ν) : Prop :=
  ∀ slot c, w.task slot = some c → (spec.methods c.name).isSome

/-- The history has grown, and so have the tasks; a result that a task has returned stays. -/
structure Later (w : World σ κ α ν) (seq : List (HistoryEvent Slot ν)) (w' : World σ κ α ν)
    (seq' : List (HistoryEvent Slot ν)) : Prop where
  grown : seq <+: seq'
  tasks : ∀ slot c, w.task slot = some c → ∃ c', w'.task slot = some c' ∧ c'.name = c.name ∧ c'.args = c.args ∧
    (c.isReturned = true → c'.isReturned = true ∧ c'.ret = c.ret)

section Booked

variable {w w' w'' : World σ κ α ν} {seq seq' seq'' : List (HistoryEvent Slot ν)} {sizes : List Nat} {slot : Slot}
  {threadId : Nat}

theorem Booked.nil (h : ∀ n ∈ sizes, n = 0) : Booked sizes ([] : List (HistoryEvent Slot ν)) := by
  refine ⟨fun slot => ⟨?_, ?_⟩, ?_, ?_⟩
  · rintro ⟨i, th, hi⟩
    cases hi
  · rintro ⟨n, hn, hlt⟩
    rw [h n (List.mem_of_getElem? hn)] at hlt
    cases hlt
  · rintro i i' t ⟨th, hi⟩
    cases hi
  · rintro j t ⟨r, th, hj⟩
    cases hj

/-- A task is invoked that has just been built. -/
theorem Booked.invoke {sizes' : List Nat} (h : Booked sizes seq) (hnew : ¬InSizes sizes slot)
    (hsizes : ∀ slot', InSizes sizes' slot' ↔ InSizes sizes slot' ∨ slot' = slot) :
    Booked sizes' (seq ++ [.invoke slot threadId]) := by
  have hfresh : ∀ i, ¬InvokeAt seq i slot := fun i hi => hnew ((h.invoked slot).1 ⟨i, hi⟩)
  refine ⟨fun slot' => ?_, fun i i' t hi hi' => ?_, fun j t hj => ?_⟩
  · simp only [invokeAt_snoc, hsizes, ← h.invoked]
    constructor
    · rintro ⟨i, hi | ⟨_, th, heq⟩⟩
      · exact .inl ⟨i, hi⟩
      · cases heq
        exact .inr rfl
    · rintro (⟨i, hi⟩ | rfl)
      · exact ⟨i, .inl hi⟩
      · exact ⟨_, .inr ⟨rfl, _, rfl⟩⟩
  · rw [invokeAt_snoc] at hi hi'
    rcases hi with hi | ⟨rfl, th, heq⟩ <;> rcases hi' with hi' | ⟨rfl, th', heq'⟩
    · exact h.once i i' t hi hi'
    · cases heq'
      exact absurd hi (hfresh i)
    · cases heq
      exact absurd hi' (hfresh i')
    · rfl
  · rw [responseAt_snoc] at hj
    obtain hj | ⟨_, r, th, heq⟩ := hj
    · obtain ⟨i, hij, hi⟩ := h.responses j t hj
      exact ⟨i, hij, invokeAt_snoc.2 (.inl hi)⟩
    · cases heq

/-- A task is answered. -/
theorem Booked.respond {r : ν} (h : Booked sizes seq) (hslot : InSizes sizes slot) :
    Booked sizes (seq ++ [.response slot r threadId]) := by
  have hinvoke : ∀ {i t}, InvokeAt (seq ++ [.response slot r threadId]) i t ↔ InvokeAt seq i t := by simp [invokeAt_snoc]
  refine ⟨fun slot' => ?_, fun i i' t hi hi' => h.once i i' t (hinvoke.1 hi) (hinvoke.1 hi'), fun j t hj => ?_⟩
  · simp only [hinvoke]
    exact h.invoked slot'
  · rw [responseAt_snoc] at hj
    obtain hj | ⟨rfl, r', th, heq⟩ := hj
    · obtain ⟨i, hij, hi⟩ := h.responses j t hj
      exact ⟨i, hij, hinvoke.2 hi⟩
    · cases heq
      obtain ⟨i, hi⟩ := (h.invoked slot).2 hslot
      exact ⟨i, hi.lt, hinvoke.2 hi⟩

/-- A slot more on a thread. -/
theorem inSizes_modify {i n : Nat} (hi : sizes[i]? = some n) : ¬InSizes sizes (i, n) ∧
    ∀ slot, InSizes (sizes.modify i (· + 1)) slot ↔ InSizes sizes slot ∨ slot = (i, n) := by
  refine ⟨?_, fun slot => ?_⟩
  · rintro ⟨m, hm, hlt⟩
    cases hi.symm.trans hm
    exact Nat.lt_irrefl _ hlt
  · obtain ⟨j, k⟩ := slot
    unfold InSizes
    rw [List.getElem?_modify]
    by_cases h : i = j
    · subst h
      simp [hi]
      omega
    · have hne : ¬((j, k) : Slot) = (i, n) := fun heq => h (congrArg Prod.fst heq).symm
      simp [h, hne]

theorem sizes_pushTask (w : World σ κ α ν) (i : Nat) (c : Coro κ α ν) :
    (w.pushTask i c).sizes = w.sizes.modify i (· + 1) := by
  unfold World.sizes World.pushTask
  refine List.ext_getElem? fun j => ?_
  simp only [List.getElem?_map, List.getElem?_modify]
  cases w.threads[j]? <;> simp
  split <;> simp

theorem sizes_popTask (w : World σ κ α ν) (i : Nat) : (w.popTask i).sizes = w.sizes.modify i (· - 1) := by
  unfold World.sizes World.popTask
  refine List.ext_getElem? fun j => ?_
  simp only [List.getElem?_map, List.getElem?_modify]
  cases w.threads[j]? <;> simp
  split <;> simp

theorem Later.refl (w : World σ κ α ν) (seq : List (HistoryEvent Slot ν)) : Later w seq w seq :=
  ⟨List.prefix_refl seq, fun _ c hc => ⟨c, hc, rfl, rfl, fun hr => ⟨hr, rfl⟩⟩⟩

theorem Later.trans (h : Later w seq w' seq') (h' : Later w' seq' w'' seq'') : Later w seq w'' seq'' := by
  refine ⟨h.grown.trans h'.grown, fun slot c hc => ?_⟩
  obtain ⟨c', hc', hname, hargs, hret⟩ := h.tasks slot c hc
  obtain ⟨c'', hc'', hname', hargs', hret'⟩ := h'.tasks slot c' hc'
  refine ⟨c'', hc'', hname'.trans hname, hargs'.trans hargs, fun hr => ?_⟩
  obtain ⟨hr', hsame⟩ := hret hr
  obtain ⟨hr'', hsame'⟩ := hret' hr'
  exact ⟨hr'', hsame'.trans hsame⟩

/-- A resume does not change what a returned task shows. -/
theorem later_resume {T : Target σ κ ν} (h : w.resume T slot = .ok w') (events : List (HistoryEvent Slot ν)) :
    Later w seq w' (seq ++ events) := by
  obtain ⟨c, hc, hr, hw⟩ := World.resume_eq_ok.1 h
  refine ⟨List.prefix_append _ _, fun slot' d hd => ?_⟩
  by_cases hslot : slot' = slot
  · subst hslot
    obtain rfl := Option.some.inj (hc.symm.trans hd)
    refine ⟨(c.resume T w.memory).1, ?_, ?_, ?_, fun hret => by rw [hr] at hret; cases hret⟩
    · rw [hw]
      exact World.task_setTask hc
    · unfold Coro.resume
      split <;> rfl
    · unfold Coro.resume
      split <;> rfl
  · refine ⟨d, ?_, rfl, rfl, fun hret => ⟨hret, rfl⟩⟩
    rw [hw]
    exact (World.task_setTask_of_ne hslot).trans hd

/-- Returned tasks stay returned. -/
theorem Answered.later (ha : Answered w seq)
    (hl : Later w seq w' seq') : Answered w' seq := by
  intro j slot hj
  obtain ⟨c, hc, hr⟩ := ha j slot hj
  obtain ⟨c', hc', _, _, hsame⟩ := hl.tasks slot c hc
  exact ⟨c', hc', (hsame hr).1⟩

theorem later_pushTask {i : Nat} {tasks : List (Coro κ α ν)} {c : Coro κ α ν}
    (hi : w.threads[i]? = some tasks) (events : List (HistoryEvent Slot ν)) :
    Later w seq (w.pushTask i c) (seq ++ events) := by
  refine ⟨List.prefix_append _ _, fun slot d hd => ⟨d, ?_, rfl, rfl, fun hr => ⟨hr, rfl⟩⟩⟩
  rw [task_pushTask hi, if_neg, hd]
  rintro rfl
  obtain ⟨tasks', htasks', hj⟩ := World.task_eq_some.1 hd
  cases hi.symm.trans htasks'
  rw [List.getElem?_eq_none (Nat.le_refl _)] at hj
  cases hj

theorem sizes_alike [Inhabited ν] (h : Alike w w') : w'.sizes = w.sizes := by
  have hlen := congrArg (List.map List.length) h
  unfold World.sizes
  rw [List.map_map, List.map_map] at hlen
  have hcomp : (List.length ∘ List.map Coro.restart : List (Coro κ α ν) → Nat) = List.length := by
    funext tasks
    exact List.length_map _
  rwa [hcomp] at hlen

theorem NamedTasks.empty {spec : Specification β α ν} (h : ∀ tasks ∈ w.threads, tasks = []) : NamedTasks spec w := by
  intro slot c hc
  rw [World.task_of_empty h] at hc
  cases hc

theorem NamedTasks.alike [Inhabited ν] {spec : Specification β α ν} (h : NamedTasks spec w) (ha : Alike w w') :
    NamedTasks spec w' := by
  intro slot c' hc'
  have hmap := task_map ha slot
  rw [hc'] at hmap
  obtain ⟨c, hc, hrestart⟩ := Option.map_eq_some_iff.1 hmap.symm
  have hname : c.restart.name = c'.restart.name := congrArg Coro.name hrestart
  have hname : c.name = c'.name := hname
  rw [← hname]
  exact h slot c hc

theorem NamedTasks.pushTask {spec : Specification β α ν} {i : Nat} {c : Coro κ α ν} (h : NamedTasks spec w)
    (hname : (spec.methods c.name).isSome) : NamedTasks spec (w.pushTask i c) := by
  intro slot d hd
  cases hthread : w.threads[i]? with
  | none =>
    have hsame : w.pushTask i c = w := by
      unfold World.pushTask
      rw [List.modify_eq_self (by simpa using hthread)]
    exact h slot d (hsame ▸ hd)
  | some tasks =>
    rw [task_pushTask hthread] at hd
    split at hd
    · cases hd
      exact hname
    · exact h slot d hd

theorem NamedTasks.popTask {spec : Specification β α ν} {i : Nat} (h : NamedTasks spec w) : NamedTasks spec (w.popTask i) :=
  fun slot d hd => h slot d (task_popTask hd)

theorem Ledger.empty (h : ∀ tasks ∈ w.threads, tasks = []) : Ledger w ([] : List (HistoryEvent Slot ν)) := by
  refine ⟨Booked.nil fun n hn => ?_, fun j slot hj => ?_⟩
  · obtain ⟨tasks, htasks, rfl⟩ := List.mem_map.1 hn
    rw [h tasks htasks, List.length_nil]
  · obtain ⟨r, th, hj⟩ := hj
    cases hj

theorem Ledger.alike [Inhabited ν] (h : Ledger w seq) (ha : Alike w w') (hl : Later w seq w' seq) : Ledger w' seq :=
  ⟨sizes_alike ha ▸ h.booked, h.answered.later hl⟩

/-- A task is built and invoked. -/
theorem Ledger.pushTask {i : Nat} {tasks : List (Coro κ α ν)} (h : Ledger w seq) (hi : w.threads[i]? = some tasks)
    (c : Coro κ α ν) (threadId : Nat) : Ledger (w.pushTask i c) (seq ++ [.invoke (i, tasks.length) threadId]) ∧
      Later w seq (w.pushTask i c) (seq ++ [.invoke (i, tasks.length) threadId]) := by
  have hlater : Later w seq (w.pushTask i c) _ := later_pushTask hi [.invoke (i, tasks.length) threadId]
  have hlen : w.sizes[i]? = some tasks.length := by simp [World.sizes, hi]
  obtain ⟨hnew, hsizes⟩ := inSizes_modify hlen
  refine ⟨⟨?_, fun j slot hj => ?_⟩, hlater⟩
  · rw [sizes_pushTask]
    exact h.booked.invoke hnew hsizes
  · rw [responseAt_snoc] at hj
    obtain hj | ⟨_, r, th, heq⟩ := hj
    · exact h.answered.later hlater j slot hj
    · cases heq

/-- A task is resumed, and answered if it returns. -/
theorem Ledger.resume [Inhabited ν] {T : Target σ κ ν} {task : Coro κ α ν} (h : Ledger w seq)
    (hresume : w.resume T slot = .ok w') (htask : w'.task slot = some task) (threadId : Nat) :
    Ledger w' (seq ++ if task.isReturned then [.response slot task.ret threadId] else []) ∧
      Later w seq w' (seq ++ if task.isReturned then [.response slot task.ret threadId] else []) := by
  have hlater : ∀ events, Later w seq w' (seq ++ events) := later_resume hresume
  have hbooked : Booked w'.sizes seq := sizes_alike (alike_resume hresume) ▸ h.booked
  refine ⟨?_, hlater _⟩
  split
  · rename_i hret
    refine ⟨hbooked.respond (inSizes_iff.2 (by rw [htask]; rfl)), fun j slot' hj => ?_⟩
    rw [responseAt_snoc] at hj
    obtain hj | ⟨_, r, th, heq⟩ := hj
    · exact h.answered.later (hlater []) j slot' (by simpa using hj)
    · cases heq
      exact ⟨task, htask, hret⟩
  · rw [List.append_nil]
    exact ⟨hbooked, h.answered.later (hlater [])⟩

end Booked

/-! ## What the checker would have accepted -/

section Accepts

variable [Inhabited α] [Inhabited ν] [BEq ν] {spec : Specification β α ν} {w w' : World σ κ α ν}
  {seq seq' : List (HistoryEvent Slot ν)}

omit [BEq ν] in
/-- The tasks of a booked history can be looked up. -/
theorem Booked.view (h : Booked w.sizes seq) {i : Nat} {slot : Slot} (hi : InvokeAt seq i slot) :
    ∃ c, w.task slot = some c ∧ viewIn (w.resolve seq) slot = c.view := by
  obtain ⟨c, hc⟩ := Option.isSome_iff_exists.1 (inSizes_iff.1 ((h.invoked slot).1 ⟨i, hi⟩))
  exact ⟨c, hc, viewIn_resolve hc hi⟩

omit [BEq ν] in
theorem Booked.named (h : Booked w.sizes seq) (hnamed : NamedTasks spec w) {i : Nat} {slot : Slot}
    (hi : InvokeAt seq i slot) : (spec.methods (viewIn (w.resolve seq) slot).name).isSome := by
  obtain ⟨c, hc, hview⟩ := h.view hi
  rw [hview]
  exact hnamed slot c hc

/-- **What the checker accepts it would have accepted before.** -/
theorem accepts_of_later (hledger : Ledger w seq) (hbooked' : Booked w'.sizes seq') (hnamed : NamedTasks spec w')
    (hlater : Later w seq w' seq')
    (h : recursiveChecker spec (w'.resolve seq') = true) : recursiveChecker spec (w.resolve seq) = true := by
  rw [recursiveChecker_resolve] at h ⊢
  obtain ⟨hbooked, hanswered⟩ := hledger
  obtain ⟨events, rfl⟩ := hlater.grown
  refine Recursive.check_append hbooked'.once hbooked'.responses (fun i slot hi => hbooked'.named hnamed hi)
    ⟨fun i slot hi => ?_, fun j slot hj => ?_⟩ h
  · obtain ⟨c, hc, hview⟩ := hbooked.view hi
    obtain ⟨c', hc', hname, hargs, _⟩ := hlater.tasks slot c hc
    rw [hview, viewIn_resolve hc' (invokeAt_append_iff.1 hi).1]
    exact ⟨hname.symm, hargs.symm⟩
  · obtain ⟨i, _, hi⟩ := hbooked.responses j slot hj
    obtain ⟨c, hc, hview⟩ := hbooked.view hi
    obtain ⟨d, hd, hret⟩ := hanswered j slot hj
    obtain rfl := Option.some.inj (hc.symm.trans hd)
    obtain ⟨c', hc', _, _, hsame⟩ := hlater.tasks slot c hc
    rw [hview, viewIn_resolve hc' (invokeAt_append_iff.1 hi).1]
    exact (hsame hret).2.symm

/-- The checker accepts every prefix of a history that it accepts. -/
theorem accepts_of_prefix (hbooked : Booked w.sizes seq) (hnamed : NamedTasks spec w)
    (h : recursiveChecker spec (w.resolve seq) = true) {seq' : List (HistoryEvent Slot ν)} (hp : seq' <+: seq) :
    recursiveChecker spec (w.resolve seq') = true := by
  rw [recursiveChecker_resolve] at h ⊢
  obtain ⟨events, rfl⟩ := hp
  have hview : ∀ {i slot}, InvokeAt seq' i slot →
      viewIn (w.resolve seq') slot = viewIn (w.resolve (seq' ++ events)) slot := by
    intro i slot hi
    obtain ⟨c, hc, hv⟩ := hbooked.view (invokeAt_append_iff.1 hi).1
    rw [hv, viewIn_resolve hc hi]
  refine Recursive.check_append hbooked.once hbooked.responses (fun i slot hi => hbooked.named hnamed hi)
    ⟨fun i slot hi => by rw [hview hi]; exact ⟨rfl, rfl⟩, fun j slot hj => ?_⟩ h
  obtain ⟨i, _, hi⟩ := hbooked.responses.of_append j slot hj
  rw [hview hi]

end Accepts

end Ltest
