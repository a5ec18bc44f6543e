import Ltest.Strategy.Discipline
import Ltest.Strategy.Pct
import Ltest.Strategy.Worlds

/-!
# Generated rounds

A round that `RunRound` generates only does three things to its world and its history: it asks a task whether it is
blocked, it builds and invokes a task on a thread whose tasks have all returned, and it resumes the last task of a thread
when that is neither blocked nor parked (`Coro.Ready`). What these keep holds at every step of a round (`RoundRule`), for
every strategy that asks the task it chooses (`PicksReady`). Which tasks may be built is up to the strategy and its
verifier (`Starts`): any that the constructors make, or with `PickStrategy` those that the protocol of the verifier allows
next to the earlier tasks of the thread.
-/

namespace Ltest

open Program

variable {σ κ α ν ς ρ π γ Q : Type}

/-- What the history gets after a resume of the task in a slot. -/
def Coro.answer (c : Coro κ α ν) (slot : Slot) : List (HistoryEvent Slot ν) :=
  if c.isReturned then [.response slot c.ret slot.1] else []

/-- The last tasks of some threads are asked whether they are blocked. -/
def World.ask (T : Target σ κ ν) (w : World σ κ α ν) (asked : List Nat) : World σ κ α ν :=
  asked.foldl (fun w i => w.askBlocked T (i, (w.threads[i]?.getD []).length - 1)) w

@[simp] theorem memory_ask (T : Target σ κ ν) : ∀ (asked : List Nat) (w : World σ κ α ν), (w.ask T asked).memory = w.memory
  | [], _ => rfl
  | _ :: asked, w => (memory_ask T asked _).trans (memory_askBlocked T w _)

/-- The task waits on no futex, and is not parked unless it has just been built. -/
structure Coro.Ready (T : Target σ κ ν) (c : Coro κ α ν) (m : σ) : Prop where
  rested : c.fstate = none
  unparked : c.isParked T m = false ∨ c.ctx = c.func

/-- What the steps of a generated round keep, if the tasks that are built are `admitted` on their threads. -/
structure RoundRule [Inhabited ν] (T : Target σ κ ν) (admits : World σ κ α ν → Nat → TaskBuilder σ κ α ρ → Prop)
    (I : World σ κ α ν → ρ → List (HistoryEvent Slot ν) → Prop) : Prop where
  start : ∀ {w g}, (∀ tasks ∈ w.threads, tasks = []) → (w.memory = T.initial ∨ ∃ m, w.memory = T.reset m) → I w g []
  ask : ∀ {w g seq} (slot : Slot), I w g seq → I (w.askBlocked T slot) g seq
  build : ∀ {w g seq i tasks b} (id : Int), I w g seq → w.threads[i]? = some tasks →
    (∀ c ∈ tasks.getLast?, c.isReturned = true) → admits w i b →
    I (w.pushTask i (b.build w.memory i id g).1) (b.build w.memory i id g : Coro κ α ν × ρ).2
      (seq ++ [.invoke (i, tasks.length) i])
  resume : ∀ {w g seq i before c c' m status}, I w g seq → w.threads[i]? = some (before ++ [c]) → c.isReturned = false →
    c.Ready T w.memory → c.resume T w.memory = (c', m, status) →
    I ⟨m, w.threads.set i (before ++ [c']), status.or w.coroutineStatus⟩ g (seq ++ c'.answer (i, before.length))

/-- What a round starts from. -/
theorem memory_of_start {T : Target σ κ ν} {p : σ → Prop} {m : σ} (h : m = T.initial ∨ ∃ m', m = T.reset m')
    (hinitial : p T.initial) (hreset : ∀ m, p (T.reset m)) : p m := by
  obtain rfl | ⟨m', rfl⟩ := h
  · exact hinitial
  · exact hreset m'

/-- What a strategy knows of the tasks that it builds, from one call of `Next` to the next. -/
structure Starts [Inhabited ν] (S : Strategy σ κ α ν ς ρ π) (K : Stage σ κ α ν ς ρ π → Prop)
    (admits : World σ κ α ν → Nat → TaskBuilder σ κ α ρ → Prop) : Prop where
  again : ∀ {st st' fuel}, K st → S.startNextRound fuel st = .ok st' → K st'
  ready : ∀ {st i asked p c}, K st → S.pick st.round st.policy = .ok (i, asked, p) →
    (st.round.world.ask S.target asked).lastTask i = some c → c.Ready S.target st.round.world.memory
  pass : ∀ {st t st₁ w task}, K st → S.next st = .ok (t, st₁) → st₁.round.world.resume S.target t.slot = .ok w →
    w.task t.slot = some task →
    K (if task.isReturned then S.onVerifierTaskFinish t task (st₁.withWorld w) else st₁.withWorld w)
  admitted : ∀ {st i asked p w b v p'}, K st → S.pick st.round st.policy = .ok (i, asked, p) →
    S.construct { st.round with world := w } i p = .ok (b, v, p') → (∀ k, w.seen k = st.round.world.seen k) →
    (∀ x ∈ (st.round.world.seen i).getLast?, x.2 = true) → admits w i b

theorem Starts.mono [Inhabited ν] {S : Strategy σ κ α ν ς ρ π} {K : Stage σ κ α ν ς ρ π → Prop}
    {admits admits' : World σ κ α ν → Nat → TaskBuilder σ κ α ρ → Prop} (hS : Starts S K admits)
    (h : ∀ w i b, admits w i b → admits' w i b) : Starts S K admits' where
  again := hS.again
  ready := hS.ready
  pass := hS.pass
  admitted hK hpick hconstruct hseen hlast := h _ _ _ (hS.admitted hK hpick hconstruct hseen hlast)

theorem RoundRule.mono [Inhabited ν] {T : Target σ κ ν} {admits admits' : World σ κ α ν → Nat → TaskBuilder σ κ α ρ → Prop}
    {I : World σ κ α ν → ρ → List (HistoryEvent Slot ν) → Prop} (hI : RoundRule T admits I)
    (h : ∀ w i b, admits' w i b → admits w i b) : RoundRule T admits' I where
  start := hI.start
  ask := hI.ask
  build id hw hi hlast hb := hI.build id hw hi hlast (h _ _ _ hb)
  resume := hI.resume

section Rounds

variable [Inhabited ν] {S : Strategy σ κ α ν ς ρ π} {K : Stage σ κ α ν ς ρ π → Prop}
  {admits : World σ κ α ν → Nat → TaskBuilder σ κ α ρ → Prop} {I : World σ κ α ν → ρ → List (HistoryEvent Slot ν) → Prop}
  {st st' st₁ : Stage σ κ α ν ς ρ π} {h h' : BothHistories ν} {t : Picked} {w : World σ κ α ν} {task : Coro κ α ν}
  {fuel maxTasks : Nat}

omit [Inhabited ν] in
theorem getLast_seen {i : Nat} {tasks : List (Coro κ α ν)} (h : w.threads[i]? = some tasks)
    (hlast : ∀ c ∈ tasks.getLast?, c.isReturned = true) : ∀ x ∈ (w.seen i).getLast?, x.2 = true := by
  intro x hx
  unfold World.seen at hx
  rw [h, Option.getD_some, List.getLast?_map, Option.mem_map] at hx
  obtain ⟨c, hc, rfl⟩ := hx
  exact hlast c hc

/-- There are as many threads as before. -/
theorem length_of_pass (hnext : S.next st = .ok (t, st₁)) (hresume : st₁.round.world.resume S.target t.slot = .ok w) :
    w.threads.length = st.round.world.threads.length := by
  obtain ⟨asked, -, -, -, hchosen⟩ := asked_of_next hnext
  have hasked : (asked.foldl (fun w i => w.askBlocked S.target (i, (w.threads[i]?.getD []).length - 1))
      st.round.world).threads.length = st.round.world.threads.length := by
    simpa using congrArg List.length (alike_asked S.target asked st.round.world)
  have hlen : st₁.round.world.threads.length = st.round.world.threads.length := by
    rw [← hasked]
    cases hchosen with
    | last before c hthread hr hslot hnew hworld hid => rw [hworld]
    | new tasks c hthread hslot hnew hbuilt htaskid hworld hid =>
      rw [hworld]
      simp [World.pushTask]
  have hw : w.threads.length = st₁.round.world.threads.length := by
    simpa using congrArg List.length (alike_resume hresume)
  rw [hw, hlen]

/-- The number of threads stays the same as well. -/
theorem Starts.withLength (hS : Starts S K admits) (n : Nat) :
    Starts S (fun st => K st ∧ st.round.world.threads.length = n) admits where
  again hK hstart := ⟨hS.again hK.1 hstart, (startNextRound_eq_ok hstart).2.2.2.trans hK.2⟩
  ready hK := hS.ready hK.1
  pass hK hnext hresume htask := by
    refine ⟨hS.pass hK.1 hnext hresume htask, ?_⟩
    rw [← hK.2, ← length_of_pass hnext hresume]
    split <;> rfl
  admitted hK := hS.admitted hK.1

/-- `Next` and the invoke that may follow: the task to resume is the unfinished last one of its thread. -/
theorem RoundRule.next (hI : RoundRule S.target admits I) (hS : Starts S K admits) (hK : K st)
    (h₀ : I st.round.world st.round.rng h.seq) (hnext : S.next st = .ok (t, st₁)) :
    I st₁.round.world st₁.round.rng (h.push t).seq ∧ ∃ before c,
      st₁.round.world.threads[t.threadId]? = some (before ++ [c]) ∧ c.isReturned = false ∧
      c.Ready S.target st₁.round.world.memory ∧ t.slot = (t.threadId, before.length) := by
  unfold Strategy.next at hnext
  obtain ⟨⟨i, asked, p⟩, hpick, hnext⟩ := bind_eq_ok.1 hnext
  dsimp only at hnext
  have hasked : ∀ (asked : List Nat) (w : World σ κ α ν), I w st.round.rng h.seq →
      I (w.ask S.target asked) st.round.rng h.seq := by
    intro asked
    induction asked with
    | nil => exact fun w hw => hw
    | cons i asked ih => exact fun w hw => ih _ (hI.ask _ hw)
  have h₀ := hasked asked _ h₀
  have hseen : ∀ i, (st.round.world.ask S.target asked).seen i = st.round.world.seen i := fun i =>
    seen_asked S.target i asked st.round.world
  have hready := fun {c} => hS.ready (c := c) hK hpick
  rw [← memory_ask S.target asked st.round.world] at hready
  rw [← World.ask] at hnext
  generalize st.round.world.ask S.target asked = w at h₀ hnext hseen hready
  unfold Strategy.nextOn at hnext
  dsimp only at hnext
  split at hnext
  · cases hnext
  · rename_i tasks htasks
    split at hnext
    · rename_i c hlast
      cases hnext
      rw [Option.filter_eq_some_iff, List.getLast?_eq_some_iff] at hlast
      obtain ⟨⟨before, rfl⟩, hr⟩ := hlast
      refine ⟨?_, before, c, htasks, by simpa using hr, hready (by simp [World.lastTask, htasks]), by simp⟩
      simpa [BothHistories.push] using h₀
    · rename_i hnone
      obtain ⟨⟨b, v, p'⟩, hconstruct, hnext⟩ := bind_eq_ok.1 hnext
      cases hnext
      have hlast : ∀ c ∈ tasks.getLast?, c.isReturned = true := by
        intro c hc
        by_contra hr
        have hsome : tasks.getLast?.filter (!·.isReturned) = some c :=
          Option.filter_eq_some_iff.2 ⟨hc, by simpa using hr⟩
        rw [hnone] at hsome
        cases hsome
      refine ⟨?_, tasks, (b.build w.memory i st.round.newTaskId st.round.rng).1, ?_, rfl, ⟨rfl, .inr rfl⟩, rfl⟩
      · have hbuilt := hI.build st.round.newTaskId h₀ htasks hlast
          (hS.admitted hK hpick hconstruct hseen (by rw [← hseen]; exact getLast_seen htasks hlast))
        simpa [BothHistories.push] using hbuilt
      · unfold World.pushTask
        rw [modify_threads htasks, List.getElem?_set_self (List.getElem?_eq_some_iff.1 htasks).1]

/-- **A pass of the loop of `RunRound`.** -/
theorem RoundRule.pass (hI : RoundRule S.target admits I) (hS : Starts S K admits) (hK : K st)
    (h₀ : I st.round.world st.round.rng h.seq) (hnext : S.next st = .ok (t, st₁))
    (hresume : st₁.round.world.resume S.target t.slot = .ok w) (htask : w.task t.slot = some task) :
    I w st₁.round.rng ((h.push t).respond t task).seq := by
  obtain ⟨h₁, before, c, hthread, hr, hf, hslot⟩ := hI.next hS hK h₀ hnext
  have hlast := resume_last (T := S.target) hthread hr
  rw [hslot] at hresume htask
  cases hlast.symm.trans hresume
  have hlt := (List.getElem?_eq_some_iff.1 hthread).1
  have htask' : task = (c.resume S.target st₁.round.world.memory).1 := by
    obtain ⟨tasks, htasks, hj⟩ := World.task_eq_some.1 htask
    dsimp only at htasks hj
    rw [List.getElem?_set_self hlt] at htasks
    obtain rfl := Option.some.inj htasks
    simpa using hj.symm
  have hstep := hI.resume h₁ hthread hr hf rfl
  have hseq : ((h.push t).respond t task).seq = (h.push t).seq ++ task.answer (t.threadId, before.length) := by
    unfold BothHistories.respond Coro.answer
    rw [hslot]
    split <;> simp
  rw [hseq, htask']
  exact hstep

/-- **What the steps keep holds at the end of a round.** -/
theorem RoundRule.generate (hI : RoundRule S.target admits I) (hS : Starts S K admits) (hK : K st)
    (h₀ : I st.round.world st.round.rng []) (hrun : S.generate fuel maxTasks st = .ok (h', st')) :
    K st' ∧ I st'.round.world st'.round.rng h'.seq := by
  refine playTasks_rule (I := fun _ st h => K st ∧ I st.round.world st.round.rng h.seq)
    (fun left st h t st₁ task w hI₀ hnext hresume htask => ?_) fuel maxTasks ⟨hK, h₀⟩ hrun
  have hK' := hS.pass hI₀.1 hnext hresume htask
  have h' := hI.pass hS hI₀.1 hI₀.2 hnext hresume htask
  split <;> rename_i hret
  · rw [if_pos hret] at hK'
    exact ⟨hK', h'⟩
  · rw [if_neg hret] at hK'
    exact ⟨hK', h'⟩

/-- A round begins with no tasks. -/
theorem RoundRule.startNextRound (hI : RoundRule S.target admits I) (h : S.startNextRound fuel st = .ok st') :
    I st'.round.world st'.round.rng [] := by
  refine hI.start (startNextRound_eq_ok h).1 (.inr ?_)
  obtain ⟨r, hterm, h⟩ := bind_eq_ok.1 h
  cases h
  unfold Strategy.terminateTasks at hterm
  split at hterm
  · cases hterm
  · split at hterm
    · rename_i w hpasses
      cases hterm
      exact ⟨w.memory, rfl⟩
    · cases hterm

theorem Playing.mono {init init' : Stage σ κ α ν ς ρ π → Prop} (h : ∀ st, init st → init' st)
    {calls : List (NextCall σ κ α ν ς ρ π)} (hplaying : Playing S init calls st) : Playing S init' calls st := by
  induction hplaying with
  | start hinit hempty hfresh => exact .start (h _ hinit) hempty hfresh
  | next _ hnext hresume htask ih => exact ih.next hnext hresume htask
  | startNextRound _ hstart ih => exact ih.startNextRound hstart

/-- **What the steps keep holds all the time**, with the history of the current round. -/
theorem RoundRule.playing (hI : RoundRule S.target admits I) (hS : Starts S K admits)
    {init : Stage σ κ α ν ς ρ π → Prop} {calls : List (NextCall σ κ α ν ς ρ π)}
    (hinit : ∀ {st}, init st → (∀ tasks ∈ st.round.world.threads, tasks = []) → st.round.schedChecker = S.verifier.fresh →
      K st ∧ st.round.world.memory = S.target.initial)
    (hplaying : Playing S init calls st) : K st ∧ ∃ h : BothHistories ν, I st.round.world st.round.rng h.seq := by
  induction hplaying with
  | start hstart hempty hfresh =>
    obtain ⟨hK, hmemory⟩ := hinit hstart hempty hfresh
    exact ⟨hK, ⟨[], []⟩, hI.start hempty (.inl hmemory)⟩
  | @next calls st st₁ t w task _ hnext hresume htask ih =>
    obtain ⟨hK, h, h₀⟩ := ih
    refine ⟨hS.pass hK hnext hresume htask, (h.push t).respond t task, ?_⟩
    have h' := hI.pass hS hK h₀ hnext hresume htask
    split <;> exact h'
  | startNextRound _ hstart ih => exact ⟨hS.again ih.1 hstart, ⟨[], []⟩, hI.startNextRound hstart⟩

end Rounds

/-! ## The tasks that are resumed -/

section Rested

variable {T : Target σ κ ν} {w : World σ κ α ν}

/-- The strategy asks the task that it chooses, and chooses none that is parked or blocked. -/
def PicksReady (S : Strategy σ κ α ν ς ρ π) : Prop := ∀ {r p i asked p' c}, S.pick r p = .ok (i, asked, p') →
  (r.world.ask S.target asked).lastTask i = some c → c.Ready S.target r.world.memory

/-- The slot of the last task of a thread. -/
theorem task_lastSlot (w : World σ κ α ν) (k : Nat) :
    w.task (k, (w.threads[k]?.getD []).length - 1) = w.lastTask k := by
  unfold World.task World.lastTask
  cases hk : w.threads[k]? with
  | none => rfl
  | some tasks => rw [Option.getD_some, Option.bind_some, Option.bind_some, List.getLast?_eq_getElem?]

/-- The tasks before the last one. -/
theorem snoc_of_lastTask {k : Nat} {d : Coro κ α ν} (hd : w.lastTask k = some d) :
    ∃ before, w.threads[k]? = some (before ++ [d]) := by
  obtain ⟨tasks, hk, htasks⟩ := Option.bind_eq_some_iff.1 hd
  obtain ⟨before, rfl⟩ := List.getLast?_eq_some_iff.1 htasks
  exact ⟨before, hk⟩

/-- The last task of a thread is replaced. -/
theorem lastTask_setTask {k : Nat} {d : Coro κ α ν} (hd : w.lastTask k = some d) (c : Coro κ α ν) (i : Nat) :
    (w.setTask (k, (w.threads[k]?.getD []).length - 1) c).lastTask i = if i = k then some c else w.lastTask i := by
  obtain ⟨before, hk⟩ := snoc_of_lastTask hd
  have hlt := (List.getElem?_eq_some_iff.1 hk).1
  unfold World.setTask World.lastTask
  dsimp only
  rw [hk, Option.getD_some, modify_threads hk]
  by_cases hi : i = k
  · subst hi
    rw [if_pos rfl, List.getElem?_set_self hlt]
    simp
  · rw [if_neg hi, List.getElem?_set_ne (Ne.symm hi)]

/-- The last task of a thread after one has been asked. -/
theorem lastTask_askBlocked (T : Target σ κ ν) (w : World σ κ α ν) (i k : Nat) :
    (w.askBlocked T (k, (w.threads[k]?.getD []).length - 1)).lastTask i =
      if i = k then (w.lastTask i).map fun c => if c.waits T w.memory then c else { c with fstate := none }
      else w.lastTask i := by
  unfold World.askBlocked
  rw [task_lastSlot]
  by_cases hi : i = k
  · subst hi
    rw [if_pos rfl]
    cases hc : w.lastTask i with
    | none => exact hc
    | some c =>
      dsimp only
      rw [Option.map_some]
      split
      · exact hc
      · rw [lastTask_setTask hc, if_pos rfl]
  · rw [if_neg hi]
    cases hc : w.lastTask k with
    | none => rfl
    | some c =>
      dsimp only
      split
      · rfl
      · rw [lastTask_setTask hc, if_neg hi]

/-- A task that waits on no futex does not when others are asked. -/
theorem rested_of_rested {i : Nat} : ∀ (asked : List Nat) (w : World σ κ α ν), (∀ c ∈ w.lastTask i, c.fstate = none) →
    ∀ c ∈ (w.ask T asked).lastTask i, c.fstate = none
  | [], _, h => h
  | k :: asked, w, h => by
    refine rested_of_rested asked (w.askBlocked T _) fun c hc => ?_
    rw [lastTask_askBlocked] at hc
    split at hc
    · obtain ⟨d, hd, rfl⟩ := Option.map_eq_some_iff.1 hc
      split
      · exact h d hd
      · rfl
    · exact h c hc

/-- A task that is asked while it is not blocked forgets its futex. -/
theorem rested_of_asked {i : Nat} : ∀ (asked : List Nat) (w : World σ κ α ν), i ∈ asked →
    (∀ c ∈ w.lastTask i, c.waits T w.memory = false) → ∀ c ∈ (w.ask T asked).lastTask i, c.fstate = none
  | [], _, hi, _ => by cases hi
  | k :: asked, w, hi, hwaits => by
    by_cases hk : i = k
    · refine rested_of_rested asked (w.askBlocked T _) fun c hc => ?_
      rw [lastTask_askBlocked, if_pos hk] at hc
      obtain ⟨d, hd, rfl⟩ := Option.map_eq_some_iff.1 hc
      rw [if_neg (by simp [hwaits d hd])]
    · refine rested_of_asked asked (w.askBlocked T _) ((List.mem_cons.1 hi).resolve_left hk) fun c hc => ?_
      rw [lastTask_askBlocked, if_neg hk] at hc
      rw [memory_askBlocked]
      exact hwaits c hc

/-- The last tasks keep their tokens. -/
theorem token_of_asked {i : Nat} : ∀ (asked : List Nat) (w : World σ κ α ν) {c : Coro κ α ν},
    (w.ask T asked).lastTask i = some c → ∃ d, w.lastTask i = some d ∧ c.token = d.token
  | [], _, c, hc => ⟨c, hc, rfl⟩
  | k :: asked, w, c, hc => by
    obtain ⟨d, hd, htoken⟩ := token_of_asked asked (w.askBlocked T _) hc
    rw [lastTask_askBlocked] at hd
    split at hd
    · obtain ⟨e, he, rfl⟩ := Option.map_eq_some_iff.1 hd
      refine ⟨e, he, htoken.trans ?_⟩
      split <;> rfl
    · exact ⟨d, hd, htoken⟩

/-- A thread that is not skipped is ready once it has been asked. -/
theorem ready_of_not_skipped {i : Nat} {asked : List Nat} (hskips : w.skips T i = false)
    (hasked : w.asks T i = true → i ∈ asked) {c : Coro κ α ν} (hc : (w.ask T asked).lastTask i = some c) :
    c.Ready T w.memory := by
  obtain ⟨d, hd, htoken⟩ := token_of_asked asked w hc
  unfold World.skips at hskips
  unfold World.asks at hasked
  rw [hd, Option.any_some, Bool.or_eq_false_iff] at hskips
  rw [hd, Option.any_some, hskips.1] at hasked
  refine ⟨rested_of_asked asked w (hasked rfl) (fun e he => ?_) c hc, .inl ?_⟩
  · obtain rfl := Option.some.inj (hd.symm.trans he)
    exact hskips.2
  · unfold Coro.isParked
    rw [htoken]
    exact hskips.1

theorem IsPickStrategy.picksReady {V : StrategyVerifier ς κ α ν} {D : Dice γ}
    {S : Strategy σ κ α ν ς ρ (PickState σ κ α ρ γ)} (hS : IsPickStrategy T V D S) : PicksReady S := by
  intro r p i asked p' c hpick hc
  cases hS with
  | roundRobin =>
    obtain ⟨⟨i, asked, next⟩, hfound, heq⟩ := map_eq_ok.1 hpick
    cases heq
    have hloop : ∀ (left : Nat) {before : List Nat} {nextTask : Nat},
        roundRobinPick T r.world left before nextTask = .ok (i, asked, next) →
        r.world.skips T i = false ∧ (r.world.asks T i = true → i ∈ asked) := by
      intro left
      induction left with
      | zero => intro before nextTask h; cases h
      | succ left ih =>
        intro before nextTask h
        unfold roundRobinPick at h
        dsimp only at h
        split at h
        · exact ih h
        · rename_i hskips
          cases h
          refine ⟨by simpa using hskips, fun hasks => ?_⟩
          rw [if_pos hasks]
          simp
    obtain ⟨hskips, hasked⟩ := hloop _ hfound
    exact ready_of_not_skipped hskips hasked hc
  | random weights =>
    dsimp only [randomStrategy] at hpick
    obtain ⟨⟨i, g⟩, hpick, heq⟩ := map_eq_ok.1 hpick
    cases heq
    unfold drawThread at hpick
    split at hpick
    · cases hpick
    · dsimp only at hpick
      split at hpick
      · cases hpick
      · rename_i hdrawn
        cases hpick
        obtain ⟨hlt, hskips⟩ := List.mem_filter.1 (List.mem_of_getElem? hdrawn)
        exact ready_of_not_skipped (T := T) (by simpa using hskips) (fun hasks => List.mem_filter.2 ⟨hlt, hasks⟩) hc

theorem picksReady_pct {V : StrategyVerifier ς κ α ν} {D : Dice γ} {threadsCount fuel : Nat} {forbidAllSame : Bool} :
    PicksReady (pctStrategy (ρ := ρ) T V D threadsCount forbidAllSame fuel) := by
  intro r p i asked p' c hpick hc
  unfold pctStrategy at hpick hc
  dsimp only at hpick hc
  obtain ⟨heq, -⟩ | ⟨before, k, after, hthreads, hskips, heq, -⟩ :=
    scanPriorities_spec (r.world.skips T) p.priorities (List.range r.world.threads.length) (0, 0)
  · rw [heq, if_pos rfl] at hpick
    cases hpick
  · rw [heq] at hpick
    split at hpick
    · cases hpick
    · cases hpick
      have hk : k ∈ List.range r.world.threads.length := by rw [hthreads]; simp
      exact ready_of_not_skipped hskips (fun hasks => List.mem_filter.2 ⟨hk, hasks⟩) hc

end Rested

/-! ## The tasks that are built -/

section Starts

variable [Inhabited ν]

/-- Every strategy builds its tasks from its constructors. -/
theorem KeepsConstructors.starts {S : Strategy σ κ α ν ς ρ π} {constructors : π → List (TaskBuilder σ κ α ρ)}
    (hS : KeepsConstructors S constructors) (hready : PicksReady S) (builders : TaskBuilder σ κ α ρ → Prop) :
    Starts S (fun st => ∀ b ∈ constructors st.policy, builders b) fun _ _ b => builders b where
  again hK hstart b hb := by
    rw [startNextRound_policy hstart, hS.update] at hb
    exact hK b hb
  ready _ := hready
  pass {st t st₁ w task} hK hnext _ _ := by
    have hnext' := hS.next hnext
    split <;> exact fun b hb => hK b ((hnext' b).1 hb)
  admitted hK hpick hconstruct _ _ := hK _ ((hS.pick hpick _).1 (hS.construct hconstruct).1)

/-- The tasks of thread `i` have led the protocol to a status that allows the new one. -/
def Allows (P : Protocol Q String) (builders : TaskBuilder σ κ α ρ → Prop) (w : World σ κ α ν) (i : Nat)
    (b : TaskBuilder σ κ α ρ) : Prop := builders b ∧ P.allowed (P.reached P.free (w.names i)) b.name = true

/-- **`PickStrategy` builds tasks that the protocol of its verifier allows.** -/
theorem IsPickStrategy.starts {T : Target σ κ ν} {V : StrategyVerifier ς κ α ν} {D : Dice γ} {P : Protocol Q String}
    {status : ς → Nat → Q} {S : Strategy σ κ α ν ς ρ (PickState σ κ α ρ γ)} (hS : IsPickStrategy T V D S)
    (hV : Follows V P status) (names : List String) (builders : TaskBuilder σ κ α ρ → Prop) :
    Starts S (fun st => (∀ b ∈ st.policy.constructors, builders b) ∧ ∃ calls, Playing S (Equipped names) calls st)
      (Allows P builders) where
  again hK hstart := by
    obtain ⟨hbuilders, calls, hplaying⟩ := hK
    exact ⟨(hS.keepsConstructors.starts hS.picksReady builders).again hbuilders hstart, calls,
      hplaying.startNextRound hstart⟩
  ready _ := hS.picksReady
  pass hK hnext hresume htask := by
    obtain ⟨hbuilders, calls, hplaying⟩ := hK
    exact ⟨(hS.keepsConstructors.starts hS.picksReady builders).pass hbuilders hnext hresume htask, _,
      hplaying.next hnext hresume htask⟩
  admitted {st i asked p w b v p'} hK hpick hconstruct hseen hlast := by
    obtain ⟨hbuilders, calls, hplaying⟩ := hK
    refine ⟨(hS.keepsConstructors.starts hS.picksReady builders).admitted hbuilders hpick hconstruct hseen hlast, ?_⟩
    have hd := hplaying.pick_disciplined hS hV
    rw [hS.construct_eq] at hconstruct
    have hallowed := (firstVerified_follows hV (pickConstruct_eq_ok hconstruct).1).2.2
    dsimp only at hallowed
    rw [hd.status, finishedNames_of_all (hd.all_returned hlast), ← hseen, map_fst_seen] at hallowed
    exact hallowed

end Starts

end Ltest
