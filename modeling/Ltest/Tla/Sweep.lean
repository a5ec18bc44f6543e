import Ltest.Program.Triple
import Ltest.Tla.Replay

/-!
# The search along a schedule

`At` says that the scheduler has got to a schedule: its world, histories, counters and frames are those of the schedule.
A step takes it to a longer schedule (`takeStep_at`), the hand-written undo and `Replay` take it back (`takeBack_at`,
`replay_at`). `Sweeps` says that a part of the search passes given histories to the checker one after the other, until
the search is over; parts compose (`Sweeps.bind`), and `RunStep` at a schedule sweeps over all complete schedules that
begin with it (`runStep_sweeps`).
-/

namespace Ltest.Tla

open Program Words

variable {σ κ α ν ς ρ : Type}

/-- The histories that a run has passed to the checker. -/
def checks (t : List (Event ς κ α ν)) : List (List (HistoryEvent (Slot × Option (TaskView α ν)) ν)) :=
  t.filterMap fun | .check h => some h | _ => none

theorem checks_append (t u : List (Event ς κ α ν)) : checks (t ++ u) = checks t ++ checks u := List.filterMap_append

/-- The last element is modified. -/
theorem modify_snoc {A : Type} (f : A → A) (a : A) : ∀ l : List A, (l ++ [a]).modify l.length f = l ++ [f a]
  | [] => rfl
  | b :: l => by simpa using modify_snoc f a l

/-! ## One step -/

section Step

variable {P : Params σ κ α ν ς ρ} {s : State σ κ α ν ς ρ} {i : Nat} {before : List (Coro κ α ν)}
  {task task' : Coro κ α ν} {m : σ}

/-- What the first part of `ResumeTask` does with a plain task. -/
theorem takeStep_run (isNew : Bool) (hthread : s.world.threads[i]? = some (before ++ [task]))
    (hr : task.isReturned = false) (htok : task.token = none) (hst : s.world.coroutineStatus = none)
    (hrun : task.resume P.target s.world.memory = (task', m, none)) :
    ∃ v t, checks t = [] ∧ takeStep P i isNew s = .ok task'.isReturned { s with
      world := ⟨m, s.world.threads.set i (before ++ [task']), none⟩
      frames := s.frames.modify (s.frames.length - 1) fun frame => { frame with task := some (i, before.length) }
      threadIdHistory := s.threadIdHistory ++ [i]
      sequentialHistory := s.sequentialHistory ++ (if isNew then [.invoke (i, before.length) i] else []) ++
        if task'.isReturned then [.response (i, before.length) task'.ret i] else []
      fullHistory := s.fullHistory ++ [(i, .task (i, before.length))]
      finishedTasks := s.finishedTasks + if task'.isReturned then 1 else 0
      verifier := v
      trace := s.trace ++ t } := by
  have hslot : (i, (s.world.threads[i]?.getD []).length - 1) = (i, before.length) := by simp [hthread]
  have htask : s.world.task (i, before.length) = some task := World.task_eq_some.2 ⟨_, hthread, by simp⟩
  have hparked : task.isParked P.target s.world.memory = false := by simp [Coro.isParked, htok]
  have hresume := resume_last (T := P.target) hthread hr
  rw [hrun, hst] at hresume
  have htask' : World.task ⟨m, s.world.threads.set i (before ++ [task']), none⟩ (i, before.length) = some task' :=
    World.task_eq_some.2 ⟨_, by simp [(List.getElem?_eq_some_iff.1 hthread).1]; rfl, by simp⟩
  cases hret : task'.isReturned with
  | true =>
    refine ⟨P.verifier.notify (P.verifier.notify s.verifier (.updateState task.name i isNew)) (.onFinished ⟨task', false, i⟩),
      [.step s.fullHistory i (i, before.length) isNew none, .notify (.updateState task.name i isNew),
        .notify (.onFinished ⟨task', false, i⟩)], rfl, ?_⟩
    cases isNew <;> simp [takeStep, readTask, onWorld, updateFullHistory, emit, notify, pushFull, finishTask, hslot, htask,
      hparked, hresume, htask', hret, -bind_pure_comp]
  | false =>
    refine ⟨P.verifier.notify s.verifier (.updateState task.name i isNew),
      [.step s.fullHistory i (i, before.length) isNew none, .notify (.updateState task.name i isNew)], rfl, ?_⟩
    cases isNew <;> simp [takeStep, readTask, onWorld, updateFullHistory, emit, notify, pushFull, finishTask, hslot, htask,
      hparked, hresume, htask', hret, -bind_pure_comp]

/-- What the last part of `ResumeTask` does. -/
theorem takeBack_run {full : FullHistory} (isNew isFinished : Bool) (h : popped s.fullHistory = some full) :
    takeBack isNew isFinished s = .ok () { s with
      threadIdHistory := s.threadIdHistory.dropLast
      fullHistory := full
      finishedTasks := s.finishedTasks - if isFinished then 1 else 0
      startedTasks := s.startedTasks - if isNew then 1 else 0
      sequentialHistory := s.sequentialHistory.take
        (s.sequentialHistory.length - (if isFinished then 1 else 0) - if isNew then 1 else 0) } := by
  cases isNew <;> cases isFinished <;>
    simp [takeBack, popFull, h, List.dropLast_eq_take, List.take_take]

end Step

/-! ## Schedules that grow -/

section Bounds

variable {P : Params σ κ α ν ς ρ} {p : List Choice} {ch : Choice}

theorem switches_snoc (ch : Choice) : ∀ (p : List Choice) (previous : Option Nat),
    switches previous (p ++ [ch]) = switches previous p +
      if !ch.isStart && ((p.map Choice.thread).getLast?.or previous) != some ch.thread then 1 else 0
  | [], previous => by simp [switches]
  | ch' :: p, previous => by
    rw [List.cons_append, switches, switches, switches_snoc ch p, Nat.add_assoc]
    congr 3
    cases p <;> simp [List.getLast?_cons]

/-- Starting a task keeps the limits when there is room for one. -/
theorem bounded_start {i k : Nat} (h : Bounded P p) : Bounded P (p ++ [.start i k]) ↔
    p.countP Choice.isStart ≠ P.maxTasks ∧ startsOn i p < P.maxDepth := by
  constructor
  · rintro ⟨htasks, hdepth, _⟩
    have hi := hdepth i
    rw [startsOn_snoc] at hi
    simp only [List.countP_append, List.countP_singleton, Choice.isStart, Choice.thread, ↓reduceIte, and_self] at htasks hi
    omega
  · rintro ⟨htasks, hdepth⟩
    refine ⟨?_, fun j => ?_, ?_⟩
    · have := h.tasks
      simp only [List.countP_append, List.countP_singleton, Choice.isStart, ↓reduceIte]
      omega
    · have := h.depth j
      rw [startsOn_snoc]
      split
      · rename_i hj
        have : i = j := hj.2
        subst this
        omega
      · omega
    · rw [switches_snoc]
      simpa [Choice.isStart] using h.switched

/-- Resuming a task keeps the limits when the switch is allowed. -/
theorem bounded_resume {i : Nat} (h : Bounded P p) :
    Bounded P (p ++ [.resume i]) ↔ switches none (p ++ [.resume i]) ≤ P.maxSwitches := by
  constructor
  · exact fun h => h.switched
  · intro hs
    refine ⟨?_, fun j => ?_, hs⟩
    · simpa [List.countP_append, Choice.isStart] using h.tasks
    · simpa [startsOn_snoc, Choice.isStart] using h.depth j

theorem Bounded.of_snoc (h : Bounded P (p ++ [ch])) : Bounded P p where
  tasks := by
    have := h.tasks
    rw [List.countP_append] at this
    omega
  depth i := by
    have := h.depth i
    rw [startsOn_snoc] at this
    omega
  switched := by
    have := h.switched
    rw [switches_snoc] at this
    omega

end Bounds

section Grow

variable [Inhabited ν] {P : Params σ κ α ν ς ρ} {rng : ρ} {p : List Choice} {ch : Choice} {c c' : Conf σ κ α ν}

theorem playAll_snoc : playAll P rng (p ++ [ch]) = (playAll P rng p).bind fun c => c.play P rng ch := by
  simp [playAll, List.foldlM_append, Option.bind_eq_bind]

theorem playAll_snoc_eq_some (hp : playAll P rng p = some c) : playAll P rng (p ++ [ch]) = c.play P rng ch := by
  rw [playAll_snoc, hp]
  rfl

/-- A schedule leads to a configuration that is reached. -/
theorem reached_of_playAll : ∀ (p : List Choice) {c : Conf σ κ α ν}, playAll P rng p = some c →
    (∃ n, Reached P rng n c) ∧ Counts p c := by
  intro p
  induction p using List.reverseRecOn with
  | nil =>
    rintro c ⟨⟩
    exact ⟨⟨_, .init⟩, .init⟩
  | append_singleton p ch ih =>
    intro c' h
    rw [playAll_snoc] at h
    obtain ⟨c, hp, hplay⟩ := Option.bind_eq_some_iff.1 h
    obtain ⟨⟨n, hreach⟩, hcounts⟩ := ih hp
    obtain ⟨before, task, hm⟩ := play_moves hplay
    refine ⟨?_, hcounts.move hm⟩
    cases ch with
    | resume i => exact ⟨_, hreach.resume hplay⟩
    | start i k => exact ⟨_, hreach.start hplay⟩

end Grow

/-! ## Sweeping over histories -/

section Sweep

variable {A B : Type} {P : Params σ κ α ν ς ρ} {s s' : State σ κ α ν ς ρ} {stopA : A → Option (Bool × Result ν)}
  {stopB : B → Option (Bool × Result ν)}
  {hs hs' : List (List (HistoryEvent (Slot × Option (TaskView α ν)) ν))}

/-- What a part of the search does that is to go through the histories `hs`: it passes them to the checker one by one
until the search is over. `stop` says whether a value ends the search; if it does not, `Q` holds. -/
def Sweeps (P : Params σ κ α ν ς ρ) (stop : A → Option (Bool × Result ν))
    (hs : List (List (HistoryEvent (Slot × Option (TaskView α ν)) ν))) (Q : A → State σ κ α ν ς ρ → Prop)
    (s : State σ κ α ν ς ρ) (r : EStateM.Result Halt (State σ κ α ν ς ρ) A) : Prop :=
  ∃ a s', r = .ok a s' ∧
    checks s'.trace = checks s.trace ++ visited P.checker (P.maxRounds - s.finishedRounds) hs ∧
    (Passes P.checker (P.maxRounds - s.finishedRounds) hs →
      stop a = none ∧ s'.finishedRounds = s.finishedRounds + hs.length ∧ Q a s') ∧
    (¬Passes P.checker (P.maxRounds - s.finishedRounds) hs → ∃ isOver res, stop a = some (isOver, res) ∧
      (isOver || res.isSome) = true ∧
      (res.isSome = true ↔ ∃ h ∈ visited P.checker (P.maxRounds - s.finishedRounds) hs, P.checker h = false))

/-- The results that end the search. -/
def ends (r : Bool × Result ν) : Option (Bool × Result ν) := if r.1 || r.2.isSome then some r else none

/-- What happens before the first check. -/
theorem Sweeps.of_quiet {Q : A → State σ κ α ν ς ρ → Prop} {r : EStateM.Result Halt (State σ κ α ν ς ρ) A}
    (hchecks : checks s'.trace = checks s.trace) (hrounds : s'.finishedRounds = s.finishedRounds)
    (h : Sweeps P stopA hs Q s' r) : Sweeps P stopA hs Q s r := by
  unfold Sweeps at h
  rw [hchecks, hrounds] at h
  exact h

/-- There is nothing to check. -/
theorem Sweeps.nothing {Q : A → State σ κ α ν ς ρ → Prop} {a : A} (hlt : s.finishedRounds < P.maxRounds)
    (hchecks : checks s'.trace = checks s.trace) (hrounds : s'.finishedRounds = s.finishedRounds)
    (hstop : stopA a = none) (hQ : Q a s') : Sweeps P stopA [] Q s (.ok a s') := by
  refine ⟨a, s', rfl, by simp [hchecks], fun _ => ⟨hstop, by simp [hrounds], hQ⟩, fun h => ?_⟩
  exact absurd ⟨by simp only [List.length_nil]; omega, by simp⟩ h

/-- **Two parts of the search, one after the other.** -/
theorem Sweeps.bind {m : Prog σ κ α ν ς ρ A} {f : A → Prog σ κ α ν ς ρ B} {Q : A → State σ κ α ν ς ρ → Prop}
    {R : B → State σ κ α ν ς ρ → Prop} (hm : Sweeps P stopA hs Q s (m s))
    (hon : ∀ a s', stopA a = none → s'.finishedRounds < P.maxRounds → Q a s' → Sweeps P stopB hs' R s' (f a s'))
    (hend : ∀ a r s', stopA a = some r → (r.1 || r.2.isSome) = true → ∃ b, f a s' = .ok b s' ∧ stopB b = some r) :
    Sweeps P stopB (hs ++ hs') R s ((m >>= f) s) := by
  obtain ⟨a, s₁, hrun, hchecks, hpass, hstop⟩ := hm
  rw [run_bind, hrun]
  by_cases hp : Passes P.checker (P.maxRounds - s.finishedRounds) hs
  · obtain ⟨hnone, hrounds, hQ⟩ := hpass hp
    have hlen := hp.1
    obtain ⟨b, s₂, hrun₂, hchecks₂, hpass₂, hstop₂⟩ := hon a s₁ hnone (by omega) hQ
    have hleft : P.maxRounds - s₁.finishedRounds = P.maxRounds - s.finishedRounds - hs.length := by omega
    rw [hleft] at hchecks₂ hpass₂ hstop₂
    refine ⟨b, s₂, hrun₂, ?_, fun h => ?_, fun h => ?_⟩
    · rw [hchecks₂, hchecks, visited_append hs' hp, hp.visited, List.append_assoc]
    · obtain ⟨hnone₂, hrounds₂, hR⟩ := hpass₂ (hp.append.1 h)
      exact ⟨hnone₂, by rw [hrounds₂, hrounds, List.length_append]; omega, hR⟩
    · obtain ⟨isOver, res, hsome, hover, hres⟩ := hstop₂ fun h' => h (hp.append.2 h')
      refine ⟨isOver, res, hsome, hover, hres.trans ?_⟩
      rw [visited_append hs' hp]
      constructor
      · rintro ⟨h, hmem, hrej⟩
        exact ⟨h, List.mem_append_right _ hmem, hrej⟩
      · rintro ⟨h, hmem, hrej⟩
        rcases List.mem_append.1 hmem with hmem | hmem
        · exact absurd (hp.2 h hmem) (by simp [hrej])
        · exact ⟨h, hmem, hrej⟩
  · obtain ⟨isOver, res, hsome, hover, hres⟩ := hstop hp
    obtain ⟨b, hf, hb⟩ := hend a _ s₁ hsome hover
    refine ⟨b, s₁, hf, ?_, fun h => ?_, fun _ => ⟨isOver, res, hb, hover, ?_⟩⟩
    · rw [hchecks, visited_append_of_stop hs' hp]
    · refine absurd ⟨?_, fun x hx => h.2 x (List.mem_append_left _ hx)⟩ hp
      have := h.1
      rw [List.length_append] at this
      omega
    · rw [visited_append_of_stop hs' hp]
      exact hres

end Sweep

/-! ## The scheduler along a schedule -/

section Along

variable [Inhabited ν] {P : Params σ κ α ν ς ρ} {rng : ρ} {p : List Choice} {ch : Choice} {c c' : Conf σ κ α ν}
  {before : List (Coro κ α ν)} {task : Coro κ α ν} {s : State σ κ α ν ς ρ}

/-- The full history of a schedule. -/
def fullOf (p : List Choice) : FullHistory :=
  (rows p).filterMap fun frame => frame.task.map fun slot => (slot.1, .task slot)

/-- The histories are those of the schedule `p`. -/
structure Books (p : List Choice) (c : Conf σ κ α ν) (s : State σ κ α ν ς ρ) : Prop where
  history : s.sequentialHistory = c.history
  finished : s.finishedTasks = c.finished
  threads : s.threadIdHistory = p.map Choice.thread
  full : s.fullHistory = fullOf p

/-- The scheduler has got to the schedule `p`; `frames` are the frames above those of `p`. -/
structure At (p : List Choice) (c : Conf σ κ α ν) (frames : List Frame) (s : State σ κ α ν ς ρ) : Prop
    extends Books p c s where
  world : s.world = c.world
  started : s.startedTasks = p.countP Choice.isStart
  frames : s.frames = rows p ++ frames

theorem Moves.finished (hm : Moves P rng c ch c' before task) :
    c'.finished = c.finished + if (task.resume P.target c.world.memory).1.isReturned then 1 else 0 := by
  unfold Conf.finished
  rw [hm.history, List.countP_append, List.countP_append]
  cases ch.isStart <;> cases (task.resume P.target c.world.memory).1.isReturned <;> simp

theorem Moves.fullOf (hcounts : Counts p c) (hm : Moves P rng c ch c' before task) :
    fullOf (p ++ [ch]) = fullOf p ++ [(ch.thread, .task (ch.thread, before.length))] := by
  unfold Tla.fullOf
  rw [rows_snoc, hm.frameAt hcounts, List.filterMap_append]
  rfl

/-- **A step of the search is a choice.** -/
theorem takeStep_at (hP : Exhaustible P rng) (hsound : Sound P c.world) (hcounts : Counts p c)
    (hm : Moves P rng c ch c' before task) (hs : Books p c s) {slot : Option Slot}
    (hframes : s.frames = rows p ++ [⟨slot, ch.isStart⟩])
    (hworld : s.world = ⟨c.world.memory, c.world.threads.set ch.thread (before ++ [task]), none⟩)
    (hstarted : s.startedTasks = (p ++ [ch]).countP Choice.isStart) :
    ∃ s', takeStep P ch.thread ch.isStart s = .ok (task.resume P.target c.world.memory).1.isReturned s' ∧
      checks s'.trace = checks s.trace ∧ s'.finishedRounds = s.finishedRounds ∧ At (p ++ [ch]) c' [] s' := by
  have hthread : s.world.threads[ch.thread]? = some (before ++ [task]) := by simp [hworld, hm.lt]
  have hrun : task.resume P.target s.world.memory =
      ((task.resume P.target c.world.memory).1, (task.resume P.target c.world.memory).2.1, none) := by
    rw [hworld, ← resume_plain hP.plain task c.world.memory]
  obtain ⟨v, t, ht, hstep⟩ := takeStep_run ch.isStart hthread hm.unfinished (hm.token hP hsound) (by rw [hworld]) hrun
  refine ⟨_, hstep, by rw [checks_append, ht, List.append_nil], rfl, ⟨?_, ?_, ?_, ?_⟩, ?_, hstarted, ?_⟩
  · rw [hm.history, hs.history]
  · rw [hm.finished, hs.finished]
  · simp [hs.threads]
  · rw [hm.fullOf hcounts, hs.full]
  · rw [hm.world, hworld, hsound.status, List.set_set]
  · rw [rows_snoc, hm.frameAt hcounts, hframes]
    simp [modify_snoc]

/-- The step is taken back. -/
theorem takeBack_at (hcounts : Counts p c) (hm : Moves P rng c ch c' before task) {frames : List Frame}
    (hs : At (p ++ [ch]) c' frames s) :
    ∃ s', takeBack ch.isStart (task.resume P.target c.world.memory).1.isReturned s = .ok () s' ∧ s'.trace = s.trace ∧
      s'.finishedRounds = s.finishedRounds ∧ s'.world = s.world ∧ s'.frames = s.frames ∧
      s'.startedTasks = p.countP Choice.isStart ∧ Books p c s' := by
  have hpopped : popped s.fullHistory = some (fullOf p) := by
    rw [hs.full, hm.fullOf hcounts]
    simp [popped, popCount]
  have hstarted := hs.started
  have hfinished := hm.finished
  have hhistory := hm.history
  rw [← hs.finished] at hfinished
  rw [← hs.history] at hhistory
  rw [List.countP_append, List.countP_singleton] at hstarted
  refine ⟨_, takeBack_run _ _ hpopped, rfl, rfl, rfl, rfl, ?_, ?_, ?_, ?_, rfl⟩
  · simp [hstarted]
  · rw [hhistory]
    cases ch.isStart <;> cases (task.resume P.target c.world.memory).1.isReturned <;> simp
  · simp [hfinished]
  · simp [hs.threads]

end Along

/-! ## The search -/

section Search

variable [Inhabited ν] {P : Params σ κ α ν ς ρ} {rng : ρ} {p : List Choice} {ch : Choice} {c c' : Conf σ κ α ν}
  {before : List (Coro κ α ν)} {task : Coro κ α ν} {s : State σ κ α ν ς ρ} {fuel : Nat}
  {run : Nat → Nat → Prog σ κ α ν ς ρ (Bool × Result ν)}

/-- The choices of thread `i`, in the order of the search. -/
def choicesOn (P : Params σ κ α ν ς ρ) (i : Nat) : List Choice :=
  .resume i :: (List.range P.constructors.length).map (.start i)

/-- All choices, in the order of the search. -/
def choices (P : Params σ κ α ν ς ρ) : List Choice := (List.range P.threadsCount).flatMap (choicesOn P)

open Classical in
/-- The schedules that can be played within the limits. -/
noncomputable def allowed (P : Params σ κ α ν ς ρ) (rng : ρ) (p : List Choice) : Bool :=
  decide ((∃ c, playAll P rng p = some c) ∧ Bounded P p)

/-- The last task has returned. -/
def isLeaf (P : Params σ κ α ν ς ρ) (rng : ρ) (p : List Choice) : Bool :=
  (playAll P rng p).any fun c => c.finished == P.maxTasks

/-- The histories of the complete schedules that begin with `p`. -/
noncomputable def below (P : Params σ κ α ν ς ρ) (rng : ρ) (fuel : Nat) (p : List Choice) :
    List (List (HistoryEvent (Slot × Option (TaskView α ν)) ν)) :=
  (words (choices P) (allowed P rng) (isLeaf P rng) fuel p).map (historyOf P rng)

/-- The histories of the complete schedules that begin with `p` and go on with one of `as`. -/
noncomputable def branches (P : Params σ κ α ν ς ρ) (rng : ρ) (fuel : Nat) (p as : List Choice) :
    List (List (HistoryEvent (Slot × Option (TaskView α ν)) ν)) :=
  (after (choices P) (allowed P rng) (isLeaf P rng) fuel p as).map (historyOf P rng)

/-- The schedules below `p` are shorter than the fuel allows. -/
def Fits (P : Params σ κ α ν ς ρ) (rng : ρ) (fuel : Nat) (p : List Choice) : Prop :=
  ∀ q, p <+: q → allowed P rng q = true → q.length < p.length + fuel

theorem allowed_iff : allowed P rng p = true ↔ (∃ c, playAll P rng p = some c) ∧ Bounded P p := by
  simp [allowed]

theorem allowed_of (hp : playAll P rng p = some c) (hb : Bounded P p) : allowed P rng p = true :=
  allowed_iff.2 ⟨⟨c, hp⟩, hb⟩

theorem isLeaf_eq (hp : playAll P rng p = some c) : isLeaf P rng p = (c.finished == P.maxTasks) := by
  simp [isLeaf, hp]

theorem branches_append (as bs : List Choice) :
    branches P rng fuel p (as ++ bs) = branches P rng fuel p as ++ branches P rng fuel p bs := by
  simp [branches, after]

theorem Fits.snoc (h : Fits P rng (fuel + 1) p) (ch : Choice) : Fits P rng fuel (p ++ [ch]) := by
  intro q hq hok
  have := h q ((List.prefix_append p [ch]).trans hq) hok
  rw [List.length_append, List.length_singleton]
  omega

/-- A call of `RunStep` at any schedule below which the schedules are short enough sweeps over all of these. -/
def RunsStep (P : Params σ κ α ν ς ρ) (rng : ρ) (fuel : Nat) (run : Nat → Nat → Prog σ κ α ν ς ρ (Bool × Result ν)) :
    Prop :=
  ∀ p c s, playAll P rng p = some c → Bounded P p → isLeaf P rng p = false → Fits P rng fuel p → At p c [] s →
    s.finishedRounds < P.maxRounds →
      Sweeps P ends (below P rng fuel p) (fun _ => At p c []) s (run p.length (switches none p) s)

/-- The end of a round. -/
theorem finishRound_sweeps (hp : playAll P rng p = some c) (hs : At p c [] s) (hrounds : s.finishedRounds < P.maxRounds) :
    Sweeps P ends [historyOf P rng p] (fun _ => At p c []) s (finishRound P s) := by
  have hhist : s.world.resolve s.sequentialHistory = historyOf P rng p := by
    rw [hs.world, hs.history, historyOf, hp]
    rfl
  obtain ⟨n, hn⟩ : ∃ n, P.maxRounds - s.finishedRounds = n + 1 := ⟨P.maxRounds - s.finishedRounds - 1, by omega⟩
  unfold Sweeps
  rw [hn]
  cases hacc : P.checker (historyOf P rng p) with
  | false =>
    refine ⟨_, _, by simp [finishRound, emit, hhist, hacc]; exact ⟨rfl, rfl⟩, ?_, ?_, fun _ => ⟨_, _, rfl, ?_⟩⟩
    · simp [checks, visited]
    · rintro ⟨_, h⟩
      simp [hacc] at h
    · simp [visited, hacc]
  | true =>
    refine ⟨_, _, by simp [finishRound, emit, hhist, hacc]; exact ⟨rfl, rfl⟩, ?_, ?_, ?_⟩
    · simp [checks, visited]
    · rintro ⟨hlen, _⟩
      rw [List.length_singleton] at hlen
      refine ⟨?_, rfl, ⟨hs.history, hs.finished, hs.threads, hs.full⟩, hs.world, hs.started, hs.frames⟩
      simp [ends]
      omega
    · intro h
      refine ⟨true, none, ?_, by simp [visited, hacc]⟩
      have hlast : s.finishedRounds + 1 = P.maxRounds := by
        by_contra hne
        exact h ⟨by rw [List.length_singleton]; omega, by simpa using hacc⟩
      simp [ends, hlast]

/-- The middle part of `ResumeTask` sweeps over the schedules below the one it is at. -/
theorem descend_sweeps (hrun : RunsStep P rng fuel run) (hp : playAll P rng p = some c) (hb : Bounded P p)
    (hfits : Fits P rng fuel p) (hs : At p c [] s) (hrounds : s.finishedRounds < P.maxRounds) :
    Sweeps P ends (below P rng fuel p) (fun _ => At p c []) s (descend P (run p.length (switches none p)) s) := by
  have hleaf := isLeaf_eq (P := P) hp
  simp only [descend, run_bind, run_get, run_ite, hs.finished]
  split
  · rename_i hfin
    obtain ⟨n, rfl⟩ : ∃ n, fuel = n + 1 := by
      have := hfits p (List.prefix_refl p) (allowed_of hp hb)
      exact ⟨fuel - 1, by omega⟩
    have hbelow : below P rng (n + 1) p = [historyOf P rng p] := by simp [below, words, hleaf, hfin]
    rw [hbelow]
    exact finishRound_sweeps hp hs hrounds
  · rename_i hfin
    exact hrun p c s hp hb (by simpa [hleaf] using hfin) hfits hs hrounds

/-- Where `ResumeTask` leaves the scheduler when the search goes on: the histories are those of `p` again, and what the
tasks have become can be replayed. -/
structure Left (P : Params σ κ α ν ς ρ) (rng : ρ) (p : List Choice) (c : Conf σ κ α ν) (ch : Choice)
    (s : State σ κ α ν ς ρ) : Prop extends Books p c s where
  started : s.startedTasks = p.countP Choice.isStart
  frames : ∃ frame, s.frames = rows p ++ [frame]
  world : ∃ n c₁, Reached P rng n c₁ ∧ s.world = c₁.world ∧
    Alike c.world (if ch.isStart then s.world.popTask ch.thread else s.world)

/-- The tasks after a choice, without the one it started, are those before it. -/
theorem Moves.alike (hm : Moves P rng c ch c' before task) :
    Alike c.world (if ch.isStart then c'.world.popTask ch.thread else c'.world) := by
  unfold Alike
  have hbefore := hm.thread
  cases hs : ch.isStart with
  | true =>
    simp only [hs, ↓reduceIte, List.append_nil] at hbefore
    simp only [↓reduceIte, World.popTask, modify_threads hm.thread_after, List.dropLast_concat]
    rw [hm.world, List.set_set, set_self hbefore]
  | false =>
    simp only [hs, Bool.false_eq_true, ↓reduceIte] at hbefore
    simp only [Bool.false_eq_true, ↓reduceIte, hm.world, List.map_set, List.map_append, List.map_singleton, restart_resume]
    refine set_self ?_
    simp [hbefore]

/-- **`ResumeTask` sweeps over the schedules that go on with its choice.** -/
theorem resumeTask_sweeps (hP : Exhaustible P rng) (hrun : RunsStep P rng fuel run) (hp : playAll P rng p = some c)
    (hb : Bounded P p) (hfits : Fits P rng (fuel + 1) p) (hplay : c.play P rng ch = some c')
    (hm : Moves P rng c ch c' before task) (hstart : ch.isStart = true → Bounded P (p ++ [ch])) (hs : Books p c s)
    (hrounds : s.finishedRounds < P.maxRounds) (slot : Option Slot)
    (hframes : s.frames = rows p ++ [⟨slot, ch.isStart⟩])
    (hworld : s.world = ⟨c.world.memory, c.world.threads.set ch.thread (before ++ [task]), none⟩)
    (hstarted : s.startedTasks = (p ++ [ch]).countP Choice.isStart) :
    Sweeps P ends (branches P rng fuel p [ch]) (fun _ => Left P rng p c ch) s
      (resumeTask P run p.length (switches none p) ch.thread ch.isStart s) := by
  obtain ⟨⟨n, hreach⟩, hcounts⟩ := reached_of_playAll p hp
  have hp' : playAll P rng (p ++ [ch]) = some c' := (playAll_snoc_eq_some hp).trans hplay
  have hsound := hreach.sound hP
  have hnext : (if !ch.isStart && s.threadIdHistory.getLast? != some ch.thread then switches none p + 1
      else switches none p) = switches none (p ++ [ch]) := by
    rw [switches_snoc, hs.threads, Option.or_none]
    split <;> rfl
  simp only [resumeTask, run_bind, run_get, emit, run_modify, run_ite, hnext]
  by_cases hb' : Bounded P (p ++ [ch])
  · have hbranch : branches P rng fuel p [ch] = below P rng fuel (p ++ [ch]) ++ [] := by
      simp [branches, below, after, allowed_of hp' hb']
    obtain ⟨s₁, hstep, hchecks, hrounds₁, hat⟩ := takeStep_at (s := { s with trace := s.trace ++ [.enter s.fullHistory] })
      hP hsound hcounts hm ⟨hs.history, hs.finished, hs.threads, hs.full⟩ hframes hworld hstarted
    rw [if_neg (by simpa using fun _ => hb'.switched), hstep, hbranch]
    have hquiet : checks s₁.trace = checks s.trace := by
      rw [hchecks, checks_append]
      simp [checks]
    have hlen : (p ++ [ch]).length = p.length + 1 := by simp
    have hdescend := descend_sweeps hrun hp' hb' (hfits.snoc ch) hat (by rw [hrounds₁]; exact hrounds)
    rw [hlen] at hdescend
    refine Sweeps.of_quiet hquiet hrounds₁ (hdescend.bind ?_ ?_)
    · rintro ⟨isOver, res⟩ s₂ hnone hlt₂ hat₂
      have hgo : (isOver || res.isSome) = false := by simpa [ends] using hnone
      obtain ⟨s₃, hback, htrace, hrounds₃, hworld₃, hframes₃, hstarted₃, hbooks⟩ := takeBack_at hcounts hm hat₂
      obtain ⟨⟨n', hreach'⟩, _⟩ := reached_of_playAll _ hp'
      simp only [hgo, Bool.false_eq_true, ↓reduceIte, hback, run_pure]
      refine .nothing hlt₂ ?_ hrounds₃ rfl ⟨⟨hbooks.history, hbooks.finished, hbooks.threads, hbooks.full⟩, hstarted₃, ?_, ?_⟩
      · rw [checks_append, htrace]
        simp [checks]
      · refine ⟨frameAt p ch, ?_⟩
        simp [hframes₃, hat₂.frames, rows_snoc]
      · refine ⟨n', c', hreach', by simp [hworld₃, hat₂.world], ?_⟩
        simp only [hworld₃, hat₂.world]
        exact hm.alike
    · rintro ⟨isOver, res⟩ r s₂ hsome hr
      have hstop : (isOver || res.isSome) = true := by
        by_contra hne
        simp [ends, hne] at hsome
      exact ⟨_, by simp [hstop], hsome⟩
  · have hres : ch.isStart = false := by
      cases hs : ch.isStart with
      | false => rfl
      | true => exact absurd (hstart hs) hb'
    have hlimit : P.maxSwitches < switches none (p ++ [ch]) := by
      cases ch with
      | start i k => cases hres
      | resume i => exact Nat.lt_of_not_le fun h => hb' ((bounded_resume hb).2 h)
    have hbranch : branches P rng fuel p [ch] = [] := by
      have : allowed P rng (p ++ [ch]) = false := by
        by_contra h
        exact hb' (allowed_iff.1 (by simpa using h)).2
      simp [branches, after, this]
    have hsame : s.world = c.world := by
      have hthread := hm.thread
      simp only [hres, Bool.false_eq_true, ↓reduceIte] at hthread
      rw [hworld, set_self hthread, ← hsound.status]
    rw [if_pos (by simp [hres, hlimit]), hbranch]
    refine .nothing hrounds ?_ rfl rfl
      ⟨⟨hs.history, hs.finished, hs.threads, hs.full⟩, ?_, ⟨_, hframes⟩, n, c, hreach, hsame, ?_⟩
    · simp [checks]
    · simp [hstarted, List.countP_append, hres]
    · simp [hres, hsame, Alike]

/-- `Replay` after a choice that has been tried. -/
theorem replay_at (hP : Exhaustible P rng) (hp : playAll P rng p = some c) (hs : Left P rng p c ch s) :
    ∃ s' frame, replay P p.length { s with
        world := if ch.isStart then s.world.popTask ch.thread else s.world } = .ok () s' ∧
      s'.trace = s.trace ∧ s'.finishedRounds = s.finishedRounds ∧ At p c [frame] s' := by
  obtain ⟨frame, hframes⟩ := hs.frames
  obtain ⟨n, c₁, hreach, hworld, halike⟩ := hs.world
  obtain ⟨⟨_, hreachc⟩, _⟩ := reached_of_playAll p hp
  have hremains : Remains (if ch.isStart then s.world.popTask ch.thread else s.world) c₁ := by
    have hstatus := (hreach.sound hP).status
    cases ch.isStart with
    | false => exact ⟨by rw [← hworld]; rfl, by rw [← hworld] at hstatus; exact hstatus, fun i => .inl (by rw [← hworld]; rfl)⟩
    | true =>
      refine ⟨by rw [← hworld]; rfl, by rw [← hworld] at hstatus; exact hstatus, fun i => ?_⟩
      simp only [↓reduceIte, World.popTask, hworld]
      by_cases hi : ch.thread = i
      · subst hi
        exact .inr (by simp)
      · exact .inl (by simp [hi])
  have hreplay := replayWorld_rows hP hp (hreachc.sound hP) hreach hremains halike
  have htake : s.frames.take p.length = rows p := by
    rw [hframes]
    exact List.take_left' (length_rowsFrom p [])
  refine ⟨{ s with world := c.world }, frame, ?_, rfl, rfl,
    ⟨⟨hs.history, hs.finished, hs.threads, hs.full⟩, rfl, hs.started, hframes⟩⟩
  simp only [replay, run_bind, run_get, onWorld, htake, hreplay]

/-- The verifier accepts. -/
theorem verify_run (hP : Exhaustible P rng) (m : CreatedTaskMetaData) : ∃ v,
    verify P m s = .ok true { s with verifier := v, trace := s.trace ++ [.verify s.verifier m] } := by
  obtain ⟨v, hv⟩ := hP.accepts s.verifier m
  exact ⟨v, by simp [verify, emit, hv, -bind_pure_comp]⟩

/-- A level of `RunStep` at the schedule `p`. -/
def Level (p : List Choice) (c : Conf σ κ α ν) (s : State σ κ α ν ς ρ) : Prop := ∃ frame, At p c [frame] s

/-- The loop over the constructors tries them from the `k`-th on. -/
theorem constructorLoop_sweeps (hP : Exhaustible P rng) (hrun : RunsStep P rng fuel run)
    (hp : playAll P rng p = some c) (hb : Bounded P p) (hfits : Fits P rng (fuel + 1) p) {i : Nat}
    {tasks : List (Coro κ α ν)} (htasks : c.world.threads[i]? = some tasks) (hfree : Free tasks)
    (hroom : p.countP Choice.isStart ≠ P.maxTasks ∧ startsOn i p < P.maxDepth) :
    ∀ (constructors : List (TaskBuilder σ κ α ρ)) (k : Nat) (s : State σ κ α ν ς ρ), P.constructors.drop k = constructors →
      Level p c s → s.finishedRounds < P.maxRounds →
      Sweeps P id (branches P rng fuel p ((List.range' k constructors.length).map (.start i))) (fun _ => Level p c) s
        (constructorLoop P run p.length (switches none p) i constructors s)
  | [], k, s, _, hs, hrounds => .nothing hrounds rfl rfl rfl hs
  | b :: constructors, k, s, hk, ⟨frame, hs⟩, hrounds => by
    have hb' : P.constructors[k]? = some b := by
      rw [← Nat.add_zero k, ← List.getElem?_drop, hk]
      rfl
    have hdrop : P.constructors.drop (k + 1) = constructors := by
      rw [← List.drop_drop, hk]
      rfl
    obtain ⟨c', hplay⟩ : ∃ c', c.play P rng (.start i k) = some c' :=
      ⟨_, play_start.2 ⟨tasks, b, htasks, hb', hfree, rfl⟩⟩
    obtain ⟨v, hv⟩ := verify_run (s := s) hP ⟨b.name, true, i⟩
    have hbuild : (b.build s.world.memory i (-1) s.rng : Coro κ α ν × ρ).1 = (b.build c.world.memory i (-1) rng).1 := by
      have := hP.same b (List.mem_of_getElem? hb') c.world.memory i s.rng rng
      simp only [TaskBuilder.build, hs.world, this]
    obtain ⟨⟨n, hreach⟩, _⟩ := reached_of_playAll p hp
    obtain ⟨before, task, hm⟩ := play_moves hplay
    obtain ⟨b', hb'', htask⟩ := hm.built i k rfl
    cases hb'.symm.trans hb''
    have hbefore : before = tasks := by
      have := hm.thread
      rw [show (Choice.start i k).thread = i from rfl, htasks] at this
      simpa [Choice.isStart] using this.symm
    subst hbefore
    rw [List.length_cons, List.range'_succ, List.map_cons, ← List.singleton_append, branches_append]
    simp only [constructorLoop, run_bind, hv, Bool.not_true, Bool.false_eq_true, ↓reduceIte, setFrame, run_modify, hbuild]
    have htry := resumeTask_sweeps (s := { s with
        world := s.world.pushTask i task
        startedTasks := s.startedTasks + 1
        frames := s.frames.modify (s.frames.length - 1) fun frame => { frame with isNew := true }
        verifier := v
        rng := (b.build s.world.memory i (-1) s.rng : Coro κ α ν × ρ).2
        trace := s.trace ++ [.verify s.verifier ⟨b.name, true, i⟩] }) hP hrun hp hb hfits hplay hm
      (fun _ => (bounded_start hb).2 hroom) ⟨hs.history, hs.finished, hs.threads, hs.full⟩ hrounds frame.task
      (by rw [hs.frames]; simp [modify_snoc, Choice.isStart])
      (by simp only [World.pushTask, hs.world, modify_threads htasks, (hreach.sound hP).status]; rfl)
      (by simp [List.countP_append, Choice.isStart, hs.started])
    rw [htask] at htry
    simp only [Choice.thread, Choice.isStart] at htry
    refine Sweeps.of_quiet ?_ ?_ (htry.bind ?_ ?_)
    · simp [checks]
    · rfl
    · rintro ⟨isOver, res⟩ s₁ hnone hlt₁ hleft
      have hgo : (isOver || res.isSome) = false := by simpa [ends] using hnone
      obtain ⟨s₂, frame₂, hreplay, htrace, hrounds₂, hat⟩ := replay_at hP hp hleft
      simp only [Choice.isStart, Choice.thread, ↓reduceIte] at hreplay
      simp only [hgo, Bool.false_eq_true, ↓reduceIte, run_bind, run_modify, hreplay]
      refine Sweeps.of_quiet (congrArg checks htrace) hrounds₂ ?_
      exact constructorLoop_sweeps hP hrun hp hb hfits htasks hfree hroom constructors (k + 1) s₂ hdrop ⟨frame₂, hat⟩
        (by rw [hrounds₂]; exact hlt₁)
    · rintro ⟨isOver, res⟩ r s₁ hsome hr
      have hstop : (isOver || res.isSome) = true := by
        by_contra hne
        simp [ends, hne] at hsome
      refine ⟨some (isOver, res), by simp [hstop], ?_⟩
      simpa [ends, hstop] using hsome

/-- A thread whose choices cannot be made. -/
theorem branches_eq_nil {as : List Choice} (h : ∀ ch ∈ as, allowed P rng (p ++ [ch]) = false) :
    branches P rng fuel p as = [] := by
  have : after (choices P) (allowed P rng) (isLeaf P rng) fuel p as = [] := by
    refine List.flatMap_eq_nil_iff.2 fun ch hch => ?_
    rw [h ch hch]
    rfl
  rw [branches, this]
  rfl

/-- A choice that is allowed can be played and keeps the limits. -/
theorem allowed_snoc (hp : playAll P rng p = some c) :
    allowed P rng (p ++ [ch]) = true ↔ (∃ c', c.play P rng ch = some c') ∧ Bounded P (p ++ [ch]) := by
  rw [allowed_iff, playAll_snoc_eq_some hp]

/-- How the loop over the threads ends the search. -/
def endsLoop : (Bool × Result ν) ⊕ Bool → Option (Bool × Result ν)
  | .inl r => some r
  | .inr _ => none

/-- **The loop over the threads** sweeps over the schedules that go on with a choice of one of them. -/
theorem threadLoop_sweeps (hP : Exhaustible P rng) (hrun : RunsStep P rng fuel run) (hp : playAll P rng p = some c)
    (hb : Bounded P p) (hfits : Fits P rng (fuel + 1) p) : ∀ (threads : List Nat) (allParked : Bool)
    (s : State σ κ α ν ς ρ), (∀ i ∈ threads, i < P.threadsCount) → Level p c s → s.finishedRounds < P.maxRounds →
      Sweeps P endsLoop (branches P rng fuel p (threads.flatMap (choicesOn P)))
        (fun r s => Level p c s ∧ r = .inr (allParked && threads.isEmpty)) s
        (threadLoop P run p.length (switches none p) threads allParked s)
  | [], allParked, s, _, hs, hrounds => .nothing hrounds rfl rfl rfl ⟨hs, by simp⟩
  | i :: threads, allParked, s, hlt, ⟨frame, hs⟩, hrounds => by
    obtain ⟨⟨n, hreach⟩, hcounts⟩ := reached_of_playAll p hp
    have hsound := hreach.sound hP
    -- the threads after this one
    have hrest : ∀ s, Level p c s → s.finishedRounds < P.maxRounds →
        Sweeps P endsLoop (branches P rng fuel p (threads.flatMap (choicesOn P)))
          (fun r s => Level p c s ∧ r = .inr (allParked && (i :: threads).isEmpty)) s
          (threadLoop P run p.length (switches none p) threads false s) := fun s hs hrounds => by
      simpa using threadLoop_sweeps hP hrun hp hb hfits threads false s
        (fun j hj => hlt j (List.mem_cons_of_mem _ hj)) hs hrounds
    obtain ⟨tasks, htasks⟩ : ∃ tasks, c.world.threads[i]? = some tasks :=
      ⟨_, List.getElem?_eq_getElem (by rw [hsound.size]; exact hlt i List.mem_cons_self)⟩
    rw [List.flatMap_cons, branches_append]
    simp only [threadLoop, run_bind, run_get, hs.world, htasks, Option.getD_some]
    cases hlast : tasks.getLast?.filter (!·.isReturned) with
    | some task =>
      obtain ⟨before, rfl, hr⟩ := unfinished_iff.1 hlast
      have hplay : c.play P rng (.resume i) = some _ := play_resume.2 ⟨before, task, htasks, hr, rfl⟩
      obtain ⟨before', task', hm⟩ := play_moves hplay
      obtain ⟨rfl, rfl⟩ : before' = before ∧ task' = task := by
        have := hm.thread
        rw [show (Choice.resume i).thread = i from rfl, htasks] at this
        simpa [Choice.isStart, eq_comm] using this
      have hstarts : branches P rng fuel p ((List.range P.constructors.length).map (.start i)) = [] := by
        refine branches_eq_nil fun ch hch => ?_
        obtain ⟨k, _, rfl⟩ := List.mem_map.1 hch
        by_contra h
        obtain ⟨⟨c', hc'⟩, _⟩ := (allowed_snoc hp).1 (by simpa using h)
        obtain ⟨tasks, _, htasks', _, hfree, _⟩ := play_start.1 hc'
        rw [htasks] at htasks'
        cases htasks'
        cases hlast.symm.trans hfree
      have hparked : task'.isParked P.target c.world.memory = false := by
        simp [Coro.isParked, hm.token hP hsound]
      obtain ⟨v, hv⟩ := verify_run (s := s) hP ⟨task'.name, false, i⟩
      rw [choicesOn, ← List.singleton_append, branches_append, hstarts, List.append_nil]
      simp only [hparked, Bool.false_eq_true, ↓reduceIte, run_bind, hv, Bool.not_true, setFrame, run_modify]
      have htry := resumeTask_sweeps (s := { s with
          frames := s.frames.modify (s.frames.length - 1) fun frame => { frame with isNew := false }
          verifier := v
          trace := s.trace ++ [.verify s.verifier ⟨task'.name, false, i⟩] }) hP hrun hp hb hfits hplay hm
        (by simp [Choice.isStart]) ⟨hs.history, hs.finished, hs.threads, hs.full⟩ hrounds frame.task
        (by rw [hs.frames]; simp [modify_snoc, Choice.isStart])
        (by simp only [hs.world, Choice.thread, set_self htasks, ← hsound.status])
        (by simp [List.countP_append, Choice.isStart, hs.started])
      simp only [Choice.thread, Choice.isStart] at htry
      refine Sweeps.of_quiet ?_ ?_ (htry.bind ?_ ?_)
      · simp [checks]
      · rfl
      · rintro ⟨isOver, res⟩ s₁ hnone hlt₁ hleft
        have hgo : (isOver || res.isSome) = false := by simpa [ends] using hnone
        obtain ⟨s₂, frame₂, hreplay, htrace, hrounds₂, hat⟩ := replay_at hP hp hleft
        simp only [Choice.isStart, Bool.false_eq_true, ↓reduceIte] at hreplay
        simp only [hgo, Bool.false_eq_true, ↓reduceIte, run_bind, hreplay]
        refine Sweeps.of_quiet (congrArg checks htrace) hrounds₂ ?_
        exact hrest s₂ ⟨frame₂, hat⟩ (by rw [hrounds₂]; exact hlt₁)
      · rintro ⟨isOver, res⟩ r s₁ hsome hr
        have hstop : (isOver || res.isSome) = true := by
          by_contra hne
          simp [ends, hne] at hsome
        refine ⟨.inl (isOver, res), by simp [hstop], ?_⟩
        simpa [ends, endsLoop, hstop] using hsome
    | none =>
      have hresume : branches P rng fuel p [.resume i] = [] := by
        refine branches_eq_nil fun ch hch => ?_
        rw [List.mem_singleton.1 hch]
        by_contra h
        obtain ⟨⟨c', hc'⟩, _⟩ := (allowed_snoc hp).1 (by simpa using h)
        obtain ⟨before, task, htasks', hr, _⟩ := play_resume.1 hc'
        rw [htasks] at htasks'
        cases htasks'
        cases hlast.symm.trans (unfinished_iff.2 ⟨before, rfl, hr⟩)
      rw [choicesOn, ← List.singleton_append, branches_append, hresume, List.nil_append]
      have hroom : (s.startedTasks != P.maxTasks && decide (tasks.length < P.maxDepth)) = true ↔
          p.countP Choice.isStart ≠ P.maxTasks ∧ startsOn i p < P.maxDepth := by
        rw [hs.started, hcounts i tasks htasks]
        simp
      simp only [run_ite]
      split
      · rename_i hc
        have htry := constructorLoop_sweeps hP hrun hp hb hfits htasks hlast (hroom.1 hc) P.constructors 0 s rfl
          ⟨frame, hs⟩ hrounds
        rw [← List.range_eq_range'] at htry
        refine htry.bind ?_ ?_
        · rintro r s₁ rfl hlt₁ hlevel
          exact hrest s₁ hlevel hlt₁
        · rintro r' r s₁ rfl _
          exact ⟨.inl r, rfl, rfl⟩
      · rename_i hc
        have hstarts : branches P rng fuel p ((List.range P.constructors.length).map (.start i)) = [] := by
          refine branches_eq_nil fun ch hch => ?_
          obtain ⟨k, _, rfl⟩ := List.mem_map.1 hch
          by_contra h
          exact hc (hroom.2 ((bounded_start hb).1 ((allowed_snoc hp).1 (by simpa using h)).2))
        rw [hstarts, List.nil_append]
        exact hrest s ⟨frame, hs⟩ hrounds

/-- **`RunStep` sweeps over all schedules below the one it is at.** -/
theorem runStep_sweeps (hP : Exhaustible P rng) (hthreads : 1 ≤ P.threadsCount) :
    ∀ fuel, RunsStep P rng fuel (runStep P fuel)
  | 0 => fun p c s hp hb _ hfits _ _ => absurd (hfits p (List.prefix_refl p) (allowed_of hp hb)) (by omega)
  | fuel + 1 => fun p c s hp hb hleaf hfits hs hrounds => by
    have hbelow : below P rng (fuel + 1) p = branches P rng fuel p (choices P) ++ [] := by
      rw [List.append_nil, below, branches, words, hleaf]
      rfl
    have hloop := threadLoop_sweeps (s := { s with frames := s.frames ++ [⟨none, false⟩] }) hP
      (runStep_sweeps hP hthreads fuel) hp hb hfits (List.range P.threadsCount) true (fun i hi => List.mem_range.1 hi)
      ⟨⟨none, false⟩, ⟨hs.history, hs.finished, hs.threads, hs.full⟩, hs.world, hs.started, by simp [hs.frames]⟩ hrounds
    simp only [runStep, run_bind, run_modify]
    rw [hbelow]
    refine Sweeps.of_quiet ?_ ?_ (hloop.bind ?_ ?_)
    · rfl
    · rfl
    · rintro r s₁ - hlt₁ ⟨⟨frame, hat⟩, rfl⟩
      have hne : (List.range P.threadsCount).isEmpty = false := by
        simp only [List.isEmpty_eq_false_iff, ne_eq, List.range_eq_nil]
        omega
      simp only [hne, Bool.and_false, Bool.false_eq_true, ↓reduceIte, run_bind, run_modify, run_pure]
      refine .nothing hlt₁ rfl rfl rfl ⟨⟨hat.history, hat.finished, hat.threads, hat.full⟩, hat.world, hat.started, ?_⟩
      simp [hat.frames]
    · rintro (r' | b) r s₁ hsome hr
      · cases hsome
        exact ⟨_, rfl, if_pos hr⟩
      · cases hsome

end Search

end Ltest.Tla
