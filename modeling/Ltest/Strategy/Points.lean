import Ltest.Lincheck.Points
import Ltest.Runtime.Logbook
import Ltest.Strategy.Generated
import Ltest.Strategy.Intermediate

/-!
# Targets with linearization points

`Points` is what the author of a concurrent object has to show of it: a suspended task has taken effect or not, a resume
lets it take effect at most once, and then as its method does on the state that the memory and the tasks stand for. A
target with linearization points has linearizable histories in every generated round (`Points.roundRule`), so the checker
accepts them (`Linearized.accepts`).
-/

namespace Ltest

open Program

variable {σ κ α ν ς ρ π β : Type}

/-- The result that a suspended task is bound to return, if it has taken effect. -/
def Coro.taken (effect : κ → Option ν) (c : Coro κ α ν) : Option ν := if c.isReturned then some c.ret else effect c.ctx

theorem taken_of_unfinished {effect : κ → Option ν} {c : Coro κ α ν} (hr : c.isReturned = false) :
    c.taken effect = effect c.ctx := by
  unfold Coro.taken
  rw [hr]
  rfl

/-- Linearization points of a target, in worlds with the invariant `K`: `effect` is the result that a suspended task is
bound to return, and `Abs` relates worlds to the states of the specification. -/
structure Points [Inhabited ν] (T : Target σ κ ν) (spec : Specification β α ν)
    (admits : World σ κ α ν → Nat → TaskBuilder σ κ α ρ → Prop)
    (K : World σ κ α ν → ρ → List (HistoryEvent Slot ν) → Prop) (effect : κ → Option ν)
    (Abs : World σ κ α ν → β → Prop) : Prop where
  start : ∀ {w}, (∀ tasks ∈ w.threads, tasks = []) → (w.memory = T.initial ∨ ∃ m, w.memory = T.reset m) →
    Abs w spec.firstState
  ask : ∀ {w g seq s} (slot : Slot), K w g seq → Abs w s → Abs (w.askBlocked T slot) s
  build : ∀ {w g seq i tasks b s} (id : Int), K w g seq → w.threads[i]? = some tasks →
    (∀ c ∈ tasks.getLast?, c.isReturned = true) → admits w i b → Abs w s →
    effect (b.build w.memory i id g : Coro κ α ν × ρ).1.ctx = none ∧ (spec.methods b.name).isSome ∧
    Abs (w.pushTask i (b.build w.memory i id g).1) s
  resume : ∀ {w g seq i before c c' m status s}, K w g seq → w.threads[i]? = some (before ++ [c]) →
    c.isReturned = false → c.Ready T w.memory → c.resume T w.memory = (c', m, status) → Abs w s →
    c'.taken effect = c.taken effect ∧ Abs ⟨m, w.threads.set i (before ++ [c']), status.or w.coroutineStatus⟩ s ∨
    c.taken effect = none ∧ ∃ method, spec.methods c.name = some method ∧
      c'.taken effect = some (method s c.args).1 ∧
      Abs ⟨m, w.threads.set i (before ++ [c']), status.or w.coroutineStatus⟩ (method s c.args).2

/-! ## The history of a round -/

section History

variable [Inhabited α]

/-- The call that a slot stands for. -/
def World.callOf (w : World σ κ α ν) (slot : Slot) : String × α :=
  ((w.task slot).map fun c => (c.name, c.args)).getD ("", default)

/-- The result that the task in a slot is bound to return. -/
def World.takenOf (effect : κ → Option ν) (w : World σ κ α ν) (slot : Slot) : Option ν :=
  (w.task slot).bind (Coro.taken effect)

/-- What the history of a round says of its tasks: they are invoked once, by a name of a method, and answered at most
once, with their results. -/
structure Registered (spec : Specification β α ν) (w : World σ κ α ν) (seq : List (HistoryEvent Slot ν)) : Prop where
  ledger : Ledger w seq
  once : AnsweredOnce seq
  named : NamedTasks spec w
  results : ∀ slot r th, .response slot r th ∈ seq → (w.task slot).map Coro.ret = some r

/-- The tasks that have taken effect, in this order, have done what the specification does. -/
structure Linearized (spec : Specification β α ν) (effect : κ → Option ν) (Abs : World σ κ α ν → β → Prop)
    (w : World σ κ α ν) (seq : List (HistoryEvent Slot ν)) : Prop extends Registered spec w seq where
  pointed : ∃ order s, Pointed spec w.callOf (w.takenOf effect) seq order s ∧ Abs w s

variable {spec : Specification β α ν} {effect : κ → Option ν} {Abs : World σ κ α ν → β → Prop} {w w' : World σ κ α ν}
  {seq : List (HistoryEvent Slot ν)} {slot : Slot} {c : Coro κ α ν}

theorem callOf_eq (h : w.task slot = some c) : w.callOf slot = (c.name, c.args) := by
  simp [World.callOf, h]

omit [Inhabited α] in
theorem takenOf_eq (h : w.task slot = some c) : w.takenOf effect slot = c.taken effect := by
  simp [World.takenOf, h]

omit [Inhabited α] in
/-- The tasks that a booked history mentions are there. -/
theorem Booked.task {i : Nat} (h : Booked w.sizes seq) (hi : InvokeAt seq i slot) : ∃ c, w.task slot = some c :=
  Option.isSome_iff_exists.1 (inSizes_iff.1 ((h.invoked slot).1 ⟨i, hi⟩))

omit [Inhabited α] in
/-- A task that has not returned is not answered. -/
theorem Answered.once {r : ν} {th : Nat} (ha : Answered w seq) (honce : AnsweredOnce seq) (hc : w.task slot = some c)
    (hr : c.isReturned = false) : AnsweredOnce (seq ++ [.response slot r th]) := by
  have hnot : ∀ j, ¬ResponseAt seq j slot := by
    intro j hj
    obtain ⟨d, hd, hret⟩ := ha j slot hj
    obtain rfl := Option.some.inj (hc.symm.trans hd)
    rw [hr] at hret
    cases hret
  intro j j' t hj hj'
  rw [responseAt_snoc] at hj hj'
  obtain hj | ⟨rfl, r, th, heq⟩ := hj <;> obtain hj' | ⟨rfl, r', th', heq'⟩ := hj'
  · exact honce j j' t hj hj'
  · cases heq'
    exact absurd hj (hnot j)
  · cases heq
    exact absurd hj' (hnot j')
  · rfl

omit [Inhabited α] in
/-- A task is not in the slot of the next one. -/
theorem ne_length_of_task {i : Nat} {tasks : List (Coro κ α ν)} (hi : w.threads[i]? = some tasks)
    (hc : w.task slot = some c) : slot ≠ (i, tasks.length) := by
  rintro rfl
  obtain ⟨tasks', htasks', hj⟩ := World.task_eq_some.1 hc
  obtain rfl := Option.some.inj (hi.symm.trans htasks')
  exact absurd (List.getElem?_eq_some_iff.1 hj).1 (Nat.lt_irrefl _)

omit [Inhabited α] in
/-- A resume leaves the other tasks alone. -/
theorem task_of_resume {T : Target σ κ ν} {slot' : Slot} (h : w.resume T slot' = .ok w') (hne : slot ≠ slot') :
    w'.task slot = w.task slot := by
  obtain ⟨c, -, -, rfl⟩ := World.resume_eq_ok.1 h
  exact World.task_setTask_of_ne hne

omit [Inhabited α] in
theorem Registered.empty (h : ∀ tasks ∈ w.threads, tasks = []) : Registered spec w [] := by
  refine ⟨.empty h, fun j j' slot hj => ?_, .empty h, fun slot r th he => by cases he⟩
  obtain ⟨r, th, hj⟩ := hj
  cases hj

omit [Inhabited α] in
/-- The answers are still right later. -/
theorem Registered.results_later {seq' : List (HistoryEvent Slot ν)} (h : Registered spec w seq)
    (hlater : Later w seq w' seq') {r : ν} {th : Nat} (he : .response slot r th ∈ seq) :
    (w'.task slot).map Coro.ret = some r := by
  obtain ⟨j, hj⟩ := List.getElem?_of_mem he
  obtain ⟨c, hc, hr⟩ := h.ledger.answered j slot ⟨r, th, hj⟩
  obtain ⟨c', hc', -, -, hkept⟩ := hlater.tasks slot c hc
  have hret := h.results slot r th he
  rw [hc] at hret
  rw [hc', Option.map_some, (hkept hr).2]
  exact hret

omit [Inhabited α] in
/-- A change of the tasks that does not show in the history. -/
theorem Registered.later [Inhabited ν] (h : Registered spec w seq) (ha : Alike w w') (hlater : Later w seq w' seq) :
    Registered spec w' seq :=
  ⟨h.ledger.alike ha hlater, h.once, h.named.alike ha, fun _ _ _ he => h.results_later hlater he⟩

omit [Inhabited α] in
/-- A task is built and invoked. -/
theorem Registered.build {i : Nat} {tasks : List (Coro κ α ν)} (h : Registered spec w seq)
    (hi : w.threads[i]? = some tasks) (hname : (spec.methods c.name).isSome) :
    Registered spec (w.pushTask i c) (seq ++ [.invoke (i, tasks.length) i]) := by
  obtain ⟨hledger, hlater⟩ := h.ledger.pushTask hi c i
  refine ⟨hledger, fun j j' slot hj hj' => ?_, h.named.pushTask hname, fun slot r th he => ?_⟩
  · rw [responseAt_snoc] at hj hj'
    obtain hj | ⟨-, r, th, heq⟩ := hj
    · obtain hj' | ⟨-, r, th, heq⟩ := hj'
      · exact h.once j j' slot hj hj'
      · cases heq
    · cases heq
  · obtain he | he := List.mem_append.1 he
    · exact h.results_later hlater he
    · cases List.mem_singleton.1 he

omit [Inhabited α] in
/-- A task is resumed. -/
theorem Registered.resume [Inhabited ν] {T : Target σ κ ν} {i : Nat} {before : List (Coro κ α ν)} {c' : Coro κ α ν}
    (h : Registered spec w seq) (hc : w.task (i, before.length) = some c) (hr : c.isReturned = false)
    (hresume : w.resume T (i, before.length) = .ok w') (hc' : w'.task (i, before.length) = some c') :
    Registered spec w' (seq ++ c'.answer (i, before.length)) := by
  obtain ⟨hledger, hlater⟩ := h.ledger.resume hresume hc' i
  have hnamed := h.named.alike (alike_resume hresume)
  unfold Coro.answer
  split
  · rename_i hret
    rw [if_pos hret] at hledger hlater
    refine ⟨hledger, h.ledger.answered.once h.once hc hr, hnamed, fun slot r th he => ?_⟩
    obtain he | he := List.mem_append.1 he
    · exact h.results_later hlater he
    · cases List.mem_singleton.1 he
      rw [hc']
      rfl
  · rename_i hret
    rw [if_neg hret] at hledger hlater
    rw [List.append_nil] at hledger ⊢
    exact ⟨hledger, h.once, hnamed, fun _ _ _ he => h.results_later hlater he⟩

/-- A change of the world that the tasks do not show. -/
theorem Linearized.same (h : Linearized spec effect Abs w seq) (hreg : Registered spec w' seq)
    (htasks : ∀ slot c, w.task slot = some c → ∃ c', w'.task slot = some c' ∧ c'.name = c.name ∧ c'.args = c.args ∧
      c'.taken effect = c.taken effect) (habs : ∀ s, Abs w s → Abs w' s) : Linearized spec effect Abs w' seq := by
  obtain ⟨order, s, hpointed, hs⟩ := h.pointed
  refine ⟨hreg, order, s, hpointed.congr (fun x slot hx => ?_) h.ledger.booked.responses, habs s hs⟩
  obtain ⟨c, hc⟩ := h.ledger.booked.task hx
  obtain ⟨c', hc', hname, hargs, htaken⟩ := htasks slot c hc
  rw [callOf_eq hc', callOf_eq hc, takenOf_eq hc', takenOf_eq hc, hname, hargs, htaken]
  exact ⟨rfl, rfl⟩

/-- A task is replaced by one that is the same in what the history shows. -/
theorem Linearized.setTask [Inhabited ν] {d : Coro κ α ν} (h : Linearized spec effect Abs w seq)
    (hc : w.task slot = some c) (hrestart : d.restart = c.restart) (hret : d.isReturned = c.isReturned)
    (hval : d.ret = c.ret) (htaken : d.taken effect = c.taken effect) (habs : ∀ s, Abs w s → Abs (w.setTask slot d) s) :
    Linearized spec effect Abs (w.setTask slot d) seq := by
  have hname : d.restart.name = c.restart.name := congrArg Coro.name hrestart
  have hargs : d.restart.args = c.restart.args := congrArg Coro.args hrestart
  have htask : ∀ slot' c', w.task slot' = some c' → ∃ d', (w.setTask slot d).task slot' = some d' ∧ d'.name = c'.name ∧
      d'.args = c'.args ∧ d'.taken effect = c'.taken effect ∧ d'.isReturned = c'.isReturned ∧ d'.ret = c'.ret := by
    intro slot' c' hc'
    by_cases hslot : slot' = slot
    · subst hslot
      obtain rfl := Option.some.inj (hc.symm.trans hc')
      exact ⟨d, World.task_setTask hc, hname, hargs, htaken, hret, hval⟩
    · exact ⟨c', (World.task_setTask_of_ne hslot).trans hc', rfl, rfl, rfl, rfl, rfl⟩
  have hlater : Later w seq (w.setTask slot d) seq := by
    refine ⟨List.prefix_refl seq, fun slot' c' hc' => ?_⟩
    obtain ⟨d', hd', hname', hargs', -, hret', hval'⟩ := htask slot' c' hc'
    exact ⟨d', hd', hname', hargs', fun hr => ⟨hret'.trans hr, hval'⟩⟩
  refine h.same (h.toRegistered.later (map_setTask hc hrestart) hlater) (fun slot' c' hc' => ?_) habs
  obtain ⟨d', hd', hname', hargs', htaken', -⟩ := htask slot' c' hc'
  exact ⟨d', hd', hname', hargs', htaken'⟩

variable [Inhabited ν] [BEq ν] [ReflBEq ν]

/-- **The checker accepts the history.** -/
theorem Linearized.accepts (h : Linearized spec effect Abs w seq) : recursiveChecker spec (w.resolve seq) = true := by
  obtain ⟨order, s, hpointed, -⟩ := h.pointed
  have hbooked := h.ledger.booked
  have hview : ∀ {i slot}, InvokeAt seq i slot → ∃ c, w.task slot = some c ∧ viewIn (w.resolve seq) slot = c.view :=
    fun hi => hbooked.view hi
  rw [recursiveChecker_resolve, Recursive.check_eq_true_iff hbooked.once hbooked.responses fun i slot hi =>
    hbooked.named h.named hi]
  refine ⟨h.once, hpointed.linearizable (fun x slot hx => ?_) fun j slot hj => ?_⟩
  · obtain ⟨c, hc, hv⟩ := hview hx
    rw [callOf_eq hc, hv]
    rfl
  · obtain ⟨c, hc, hret⟩ := h.ledger.answered j slot hj
    obtain ⟨x, -, hx⟩ := hbooked.responses j slot hj
    obtain ⟨d, hd, hv⟩ := hview hx
    obtain rfl := Option.some.inj (hc.symm.trans hd)
    rw [takenOf_eq hc, hv]
    simp [Coro.taken, hret, Coro.view]

end History

/-! ## The steps of a round -/

section Steps

variable [Inhabited α] [Inhabited ν] {T : Target σ κ ν} {spec : Specification β α ν} {effect : κ → Option ν}
  {Abs : World σ κ α ν → β → Prop} {w : World σ κ α ν} {g : ρ} {seq : List (HistoryEvent Slot ν)} {i : Nat}
  {admits : World σ κ α ν → Nat → TaskBuilder σ κ α ρ → Prop}
  {K : World σ κ α ν → ρ → List (HistoryEvent Slot ν) → Prop}

omit [Inhabited α] in
/-- The history of a generated round is registered. -/
theorem registered_roundRule (hnamed : ∀ w i b, admits w i b → (spec.methods b.name).isSome) :
    RoundRule T admits fun w _ seq => Registered spec w seq where
  start hempty _ := .empty hempty
  ask {w g seq} slot h := h.later (alike_askBlocked T w slot) (later_askBlocked T w slot)
  build id h hi _ hb := h.build hi (hnamed _ _ _ hb)
  resume {w g seq i before c c' m status} h hi hr _ hrun := by
    have hresume := resume_last (T := T) hi hr
    rw [hrun] at hresume
    have hlt := (List.getElem?_eq_some_iff.1 hi).1
    exact h.resume (World.task_eq_some.2 ⟨_, hi, by simp⟩) hr hresume
      (World.task_eq_some.2 ⟨_, List.getElem?_set_self hlt, by simp⟩)

omit [Inhabited ν] in
/-- A task that has not taken effect is built and invoked. -/
theorem Linearized.build {tasks : List (Coro κ α ν)} {c : Coro κ α ν} (h : Linearized spec effect Abs w seq)
    (hi : w.threads[i]? = some tasks) (hname : (spec.methods c.name).isSome) (hnone : c.taken effect = none)
    (habs : ∀ s, Abs w s → Abs (w.pushTask i c) s) :
    Linearized spec effect Abs (w.pushTask i c) (seq ++ [.invoke (i, tasks.length) i]) := by
  obtain ⟨order, s, hpointed, hs⟩ := h.pointed
  have hslot : (w.pushTask i c).task (i, tasks.length) = some c := by rw [task_pushTask hi, if_pos rfl]
  refine ⟨h.toRegistered.build hi hname, order, s, ?_, habs s hs⟩
  refine Pointed.invoke (hpointed.congr (fun x slot hx => ?_) h.ledger.booked.responses) (by rw [takenOf_eq hslot, hnone]) i
  obtain ⟨d, hd⟩ := h.ledger.booked.task hx
  have hd' : (w.pushTask i c).task slot = some d := by rw [task_pushTask hi, if_neg (ne_length_of_task hi hd), hd]
  rw [callOf_eq hd', callOf_eq hd, takenOf_eq hd', takenOf_eq hd]
  exact ⟨rfl, rfl⟩

/-- A task is resumed, and may take effect. -/
theorem Linearized.resume {before : List (Coro κ α ν)} {c c' : Coro κ α ν} {m : σ} {status : Option CoroutineStatus}
    (h : Linearized spec effect Abs w seq) (hi : w.threads[i]? = some (before ++ [c])) (hr : c.isReturned = false)
    (hrun : c.resume T w.memory = (c', m, status))
    (hstep : ∀ s, Abs w s →
      c'.taken effect = c.taken effect ∧ Abs ⟨m, w.threads.set i (before ++ [c']), status.or w.coroutineStatus⟩ s ∨
      c.taken effect = none ∧ ∃ method, spec.methods c.name = some method ∧
        c'.taken effect = some (method s c.args).1 ∧
        Abs ⟨m, w.threads.set i (before ++ [c']), status.or w.coroutineStatus⟩ (method s c.args).2) :
    Linearized spec effect Abs ⟨m, w.threads.set i (before ++ [c']), status.or w.coroutineStatus⟩
      (seq ++ c'.answer (i, before.length)) := by
  have hresume := resume_last (T := T) hi hr
  rw [hrun] at hresume
  have hlt := (List.getElem?_eq_some_iff.1 hi).1
  obtain ⟨w', hw'⟩ : ∃ w', w' = (⟨m, w.threads.set i (before ++ [c']), status.or w.coroutineStatus⟩ : World σ κ α ν) :=
    ⟨_, rfl⟩
  rw [← hw'] at hresume hstep ⊢
  have hc : w.task (i, before.length) = some c := World.task_eq_some.2 ⟨_, hi, by simp⟩
  have hc' : w'.task (i, before.length) = some c' := by
    rw [hw']
    exact World.task_eq_some.2 ⟨_, List.getElem?_set_self hlt, by simp⟩
  have hrestart : c'.restart = c.restart := by
    rw [← restart_resume T c w.memory, hrun]
  have hname : c'.restart.name = c.restart.name := congrArg Coro.name hrestart
  have hargs : c'.restart.args = c.restart.args := congrArg Coro.args hrestart
  have hcall : c'.name = c.name ∧ c'.args = c.args := ⟨hname, hargs⟩
  obtain ⟨order, s, hpointed, hs⟩ := h.pointed
  have hbooked := h.ledger.booked
  have hsame : ∀ x slot, InvokeAt seq x slot → w'.callOf slot = w.callOf slot := by
    intro x slot hx
    by_cases hslot : slot = (i, before.length)
    · subst hslot
      rw [callOf_eq hc', callOf_eq hc, hcall.1, hcall.2]
    · unfold World.callOf
      rw [task_of_resume hresume hslot]
  have hpointed' : ∃ order s, Pointed spec w'.callOf (w'.takenOf effect) seq order s ∧ Abs w' s := by
    obtain ⟨htaken, habs⟩ | ⟨hnone, method, hmethod, htaken, habs⟩ := hstep s hs
    · refine ⟨order, s, hpointed.congr (fun x slot hx => ⟨hsame x slot hx, ?_⟩) hbooked.responses, habs⟩
      by_cases hslot : slot = (i, before.length)
      · subst hslot
        rw [takenOf_eq hc', takenOf_eq hc, htaken]
      · unfold World.takenOf
        rw [task_of_resume hresume hslot]
    · obtain ⟨x, hx⟩ := (hbooked.invoked (i, before.length)).2 (inSizes_iff.2 (by rw [hc]; rfl))
      have hcallc := callOf_eq hc
      have heffect : Pointed spec w.callOf (w'.takenOf effect) seq (order ++ [x]) (method s c.args).2 := by
        have hmethod' : spec.methods (w.callOf (i, before.length)).1 = some method := by rw [hcallc, hmethod]
        have hnew : w'.takenOf effect (i, before.length) = some (method s (w.callOf (i, before.length)).2).1 := by
          rw [takenOf_eq hc', hcallc, htaken]
        have heffect := hpointed.effect hbooked.once hx (by rw [takenOf_eq hc, hnone]) hmethod' hnew fun slot hslot => by
          unfold World.takenOf
          rw [task_of_resume hresume hslot]
        rwa [hcallc] at heffect
      exact ⟨_, _, heffect.congr (fun x slot hx => ⟨hsame x slot hx, rfl⟩) hbooked.responses, habs⟩
  obtain ⟨order', s', hpointed', hs'⟩ := hpointed'
  refine ⟨h.toRegistered.resume hc hr hresume hc', order', s', ?_, hs'⟩
  unfold Coro.answer
  split
  · rename_i hret
    refine hpointed'.respond ?_ _ _
    rw [takenOf_eq hc']
    simp [Coro.taken, hret]
  · rw [List.append_nil]
    exact hpointed'

/-- The rounds of a target whose invariant only holds for some numbers of threads. -/
theorem Points.roundRule_within (p : Nat → Prop) (hT : Points T spec admits K effect Abs)
    (hK : RoundRule T admits fun w g seq => p w.threads.length → K w g seq) :
    RoundRule T admits fun w g seq => p w.threads.length → K w g seq ∧ Linearized spec effect Abs w seq where
  start {w g} hempty hmemory hp :=
    ⟨hK.start hempty hmemory hp, .empty hempty, [], spec.firstState, pointed_nil, hT.start hempty hmemory⟩
  ask {w g seq} slot h hp := by
    have hlen : (w.askBlocked T slot).threads.length = w.threads.length := by
      simpa using congrArg List.length (alike_askBlocked T w slot)
    obtain ⟨hk, hlin⟩ := h (hlen ▸ hp)
    have habs : ∀ s, Abs w s → Abs (w.askBlocked T slot) s := fun s hs => hT.ask slot hk hs
    refine ⟨hK.ask slot (fun hp => (h hp).1) hp, ?_⟩
    unfold World.askBlocked at habs ⊢
    split
    · exact hlin
    · rename_i c hc
      rw [hc] at habs
      dsimp only at habs
      split
      · exact hlin
      · rename_i hwaits
        rw [if_neg hwaits] at habs
        exact hlin.setTask hc rfl rfl rfl rfl habs
  build {w g seq i tasks b} id h hi hlast hb hp := by
    have hlen : (w.pushTask i (b.build w.memory i id g).1).threads.length = w.threads.length := by
      simp [World.pushTask]
    obtain ⟨hk, hlin⟩ := h (hlen ▸ hp)
    obtain ⟨order, s, hpointed, hs⟩ := hlin.pointed
    obtain ⟨hnone, hname, -⟩ := hT.build id hk hi hlast hb hs
    refine ⟨hK.build id (fun hp => (h hp).1) hi hlast hb hp,
      hlin.build hi hname ?_ fun s hs => (hT.build id hk hi hlast hb hs).2.2⟩
    exact (if_neg Bool.false_ne_true).trans hnone
  resume {w g seq i before c c' m status} h hi hr hf hrun hp := by
    obtain ⟨hk, hlin⟩ := h (by simpa using hp)
    exact ⟨hK.resume (fun hp => (h hp).1) hi hr hf hrun hp,
      hlin.resume hi hr hrun fun s hs => hT.resume hk hi hr hf hrun hs⟩

/-- **The rounds of a target with linearization points are linearizable at every step.** -/
theorem Points.roundRule (hT : Points T spec admits K effect Abs) (hK : RoundRule T admits K) :
    RoundRule T admits fun w g seq => K w g seq ∧ Linearized spec effect Abs w seq := by
  simpa using hT.roundRule_within (fun _ => True) (by simpa using hK)

end Steps

end Ltest
