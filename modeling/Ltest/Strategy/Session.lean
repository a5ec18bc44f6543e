import Ltest.Strategy.Reset

/-!
# Sessions

What the scheduler and the minimizers do with a strategy between two rounds: generate the round, explore it, replay it,
mark tasks as removed. `Session S st hs` says that a strategy can be in state `st` after having produced the histories
`hs` on its current round. Every such round has unique ids (`Session.ids`).
-/

namespace Ltest

open Program

variable {σ κ α ν ς ρ π : Type}

/-- A strategy at the beginning of a round. -/
structure Fresh (S : Strategy σ κ α ν ς ρ π) (st : Stage σ κ α ν ς ρ π) : Prop where
  memory : st.round.world.memory = S.target.initial
  empty : ∀ tasks ∈ st.round.world.threads, tasks = []
  newTaskId : st.round.newTaskId = 0
  schedule : st.round.roundSchedule = List.replicate st.round.world.threads.length none

/-- The states of a strategy, and the histories produced on the current round. -/
inductive Session [Inhabited ν] (S : Strategy σ κ α ν ς ρ π) : Stage σ κ α ν ς ρ π → List (BothHistories ν) → Prop
  | new {st : Stage σ κ α ν ς ρ π} : Fresh S st → Session S st []
  | startNextRound {st st' : Stage σ κ α ν ς ρ π} {hs : List (BothHistories ν)} {fuel : Nat} : Session S st hs →
      S.startNextRound fuel st = .ok st' → Session S st' []
  | generate {st st' : Stage σ κ α ν ς ρ π} {hs : List (BothHistories ν)} {fuel maxTasks : Nat} {h : BothHistories ν} :
      Session S st hs → (∀ tasks ∈ st.round.world.threads, tasks = []) → S.generate fuel maxTasks st = .ok (h, st') →
      Session S st' (h :: hs)
  | explore {st st' : Stage σ κ α ν ς ρ π} {hs : List (BothHistories ν)} {fuel : Nat} {h : BothHistories ν} :
      Session S st hs → S.explore fuel st = .ok (h, st') → Session S st' (h :: hs)
  | replay {st st' : Stage σ κ α ν ς ρ π} {hs : List (BothHistories ν)} {fuel : Nat} {ids : List Int}
      {h : BothHistories ν} : Session S st hs → S.replay fuel ids st = .ok (h, st') → Session S st' (h :: hs)
  | setTaskRemoved {st : Stage σ κ α ν ς ρ π} {hs : List (BothHistories ν)} (id : Int) (isRemoved : Bool) :
      Session S st hs → Session S (st.setTaskRemoved id isRemoved) hs

/-! ## The loops -/

section Loops

variable {T : Target σ κ ν} {choose : Stage σ κ α ν ς ρ π → Except Halt (Picked × Stage σ κ α ν ς ρ π)}
  {onFinish : Picked → Coro κ α ν → Stage σ κ α ν ς ρ π → Stage σ κ α ν ς ρ π}
  {st st' st₁ : Stage σ κ α ν ς ρ π} {w w' : World σ κ α ν} {h h' : BothHistories ν} {t : Picked} {task : Coro κ α ν}

/-- A resume and what it logs. -/
theorem resumeLogged_eq_ok : resumeLogged T t w h = .ok (task, w', h') ↔
    w.resume T t.slot = .ok w' ∧ w'.task t.slot = some task ∧ h' = (h.push t).respond t task := by
  unfold resumeLogged
  constructor
  · intro hrun
    obtain ⟨w₁, hresume, hrun⟩ := bind_eq_ok.1 hrun
    split at hrun
    · cases hrun
    · rename_i task₁ htask
      cases hrun
      exact ⟨hresume, htask, rfl⟩
  · rintro ⟨hresume, htask, rfl⟩
    refine bind_eq_ok.2 ⟨w', hresume, ?_⟩
    rw [htask]
    rfl

/-- **The rule for the loop of `RunRound` and `ExploreRound`**: what every step of it keeps holds at its end. -/
theorem playTasks_rule {I : Nat → Stage σ κ α ν ς ρ π → BothHistories ν → Prop}
    (hstep : ∀ left st h t st₁ task w, I (left + 1) st h → choose st = .ok (t, st₁) →
      st₁.round.world.resume T t.slot = .ok w → w.task t.slot = some task →
      if task.isReturned then I left (onFinish t task (st₁.withWorld w)) ((h.push t).respond t task)
      else I (left + 1) (st₁.withWorld w) ((h.push t).respond t task)) :
    ∀ (fuel left : Nat) {st st' : Stage σ κ α ν ς ρ π} {h h' : BothHistories ν}, I left st h →
      playTasks T choose onFinish fuel left st h = .ok (h', st') → I 0 st' h'
  | _, 0, st, st', h, h', hI, hrun => by
    unfold playTasks at hrun
    cases hrun
    exact hI
  | 0, left + 1, _, _, _, _, _, hrun => by cases hrun
  | fuel + 1, left + 1, st, st', h, h', hI, hrun => by
    unfold playTasks at hrun
    obtain ⟨⟨t, st₁⟩, hchoose, hrun⟩ := bind_eq_ok.1 hrun
    obtain ⟨⟨task, w, h₁⟩, hlogged, hrun⟩ := bind_eq_ok.1 hrun
    obtain ⟨hresume, htask, rfl⟩ := resumeLogged_eq_ok.1 hlogged
    have hnext := hstep left st h t st₁ task w hI hchoose hresume htask
    dsimp only at hrun
    split at hrun
    · rename_i hret
      rw [if_pos hret] at hnext
      exact playTasks_rule hstep fuel left hnext hrun
    · rename_i hret
      rw [if_neg hret] at hnext
      exact playTasks_rule hstep fuel (left + 1) hnext hrun

end Loops

/-! ## Choosing a task -/

section Choose

variable [Inhabited ν] {S : Strategy σ κ α ν ς ρ π} {st st₁ : Stage σ κ α ν ς ρ π} {t : Picked}

/-- The tasks that a choice leaves alone: they are the same, but may have forgotten a futex. -/
theorem alike_asked (T : Target σ κ ν) : ∀ (asked : List Nat) (w : World σ κ α ν),
    Alike w (asked.foldl (fun w i => w.askBlocked T (i, (w.threads[i]?.getD []).length - 1)) w)
  | [], _ => rfl
  | _ :: asked, w => (alike_asked T asked _).trans (alike_askBlocked T w _)

omit [Inhabited ν] in
theorem asked_calm (T : Target σ κ ν) {w : World σ κ α ν} (h : Calm w) : ∀ asked : List Nat,
    asked.foldl (fun w i => w.askBlocked T (i, (w.threads[i]?.getD []).length - 1)) w = w
  | [] => rfl
  | _ :: asked => by
    rw [List.foldl_cons, askBlocked_calm h]
    exact asked_calm T h asked

/-- What `Next` returns: the unfinished last task of a thread, or a new one. `w` are the tasks before. -/
inductive Chosen (w : World σ κ α ν) (st : Stage σ κ α ν ς ρ π) (t : Picked) (st₁ : Stage σ κ α ν ς ρ π) : Prop
  | last (before : List (Coro κ α ν)) (task : Coro κ α ν) (hthread : w.threads[t.slot.1]? = some (before ++ [task]))
      (hr : task.isReturned = false) (hslot : t.slot.2 = before.length) (hnew : t.isNew = false)
      (hworld : st₁.round.world = w) (hid : st₁.round.newTaskId = st.round.newTaskId)
  | new (tasks : List (Coro κ α ν)) (task : Coro κ α ν) (hthread : w.threads[t.slot.1]? = some tasks)
      (hslot : t.slot.2 = tasks.length) (hnew : t.isNew = true) (hbuilt : task.restart = task)
      (htaskid : task.id = st.round.newTaskId) (hworld : st₁.round.world = w.pushTask t.slot.1 task)
      (hid : st₁.round.newTaskId = st.round.newTaskId + 1)

/-- **What `Next` does**, after some tasks have been asked whether they are blocked. -/
theorem asked_of_next (h : S.next st = .ok (t, st₁)) : ∃ asked : List Nat, t.threadId = t.slot.1 ∧
    st₁.round.removedTasks = st.round.removedTasks ∧ st₁.round.roundSchedule = st.round.roundSchedule ∧
    Chosen (asked.foldl (fun w i => w.askBlocked S.target (i, (w.threads[i]?.getD []).length - 1)) st.round.world) st t
      st₁ := by
  unfold Strategy.next at h
  obtain ⟨⟨i, asked, p⟩, _, h⟩ := bind_eq_ok.1 h
  refine ⟨asked, ?_⟩
  unfold Strategy.nextOn at h
  dsimp only at h
  split at h
  · cases h
  · rename_i tasks htasks
    split at h
    · rename_i task hlast
      cases h
      rw [Option.filter_eq_some_iff, List.getLast?_eq_some_iff] at hlast
      obtain ⟨⟨before, rfl⟩, hr⟩ := hlast
      exact ⟨rfl, rfl, rfl, .last before task htasks (by simpa using hr) (by simp) rfl rfl rfl⟩
    · obtain ⟨⟨b, v, p'⟩, _, h⟩ := bind_eq_ok.1 h
      cases h
      exact ⟨rfl, rfl, rfl, .new tasks _ htasks rfl rfl rfl rfl rfl rfl⟩

theorem chosen_of_next (h : S.next st = .ok (t, st₁)) : ∃ w, Alike st.round.world w ∧
    (Calm st.round.world → w = st.round.world) ∧ t.threadId = t.slot.1 ∧
    st₁.round.removedTasks = st.round.removedTasks ∧ st₁.round.roundSchedule = st.round.roundSchedule ∧
    Chosen w st t st₁ := by
  obtain ⟨asked, hchosen⟩ := asked_of_next h
  exact ⟨_, alike_asked S.target asked st.round.world, fun hcalm => asked_calm S.target hcalm asked, hchosen⟩

end Choose

/-! ## Ids -/

section Ids

variable [Inhabited ν] {S : Strategy σ κ α ν ς ρ π} {st st₁ : Stage σ κ α ν ς ρ π} {hs : List (BothHistories ν)}

/-- The ids of a round: no two tasks share one, and all are below the next one. -/
structure HasIds (st : Stage σ κ α ν ς ρ π) : Prop where
  unique : UniqueIds st.round.world
  below : ∀ slot c, st.round.world.task slot = some c → c.id < st.round.newTaskId

theorem HasIds.alike (h : HasIds st) (ha : Alike st.round.world st₁.round.world)
    (hid : st₁.round.newTaskId = st.round.newTaskId) : HasIds st₁ := by
  refine ⟨h.unique.alike ha, fun slot c hc => ?_⟩
  have hmap := ha.map_id slot
  rw [hc] at hmap
  obtain ⟨c', hc', hidc⟩ := Option.map_eq_some_iff.1 hmap.symm
  rw [hid, ← hidc]
  exact h.below slot c' hc'

omit [Inhabited ν] in
theorem HasIds.of_empty (h : ∀ tasks ∈ st.round.world.threads, tasks = []) : HasIds st := by
  have hnone := World.task_of_empty h
  refine ⟨fun slot slot' id hs => ?_, fun slot c hc => ?_⟩
  · rw [hnone] at hs
    cases hs
  · rw [hnone] at hc
    cases hc

theorem HasIds.chosen {w : World σ κ α ν} {t : Picked} (h : HasIds st) (ha : Alike st.round.world w)
    (hc : Chosen w st t st₁) : HasIds st₁ := by
  cases hc with
  | last before task hthread hr hslot hnew hworld hid => exact h.alike (by rw [hworld]; exact ha) hid
  | new tasks task hthread hslot hnew hbuilt htaskid hworld hid =>
    -- the ids of the older tasks are below that of the new one
    have hold : ∀ slot id, (w.task slot).map Coro.id = some id → id < st.round.newTaskId := by
      intro slot id hs
      rw [ha.map_id] at hs
      obtain ⟨c, hc, rfl⟩ := Option.map_eq_some_iff.1 hs
      exact h.below slot c hc
    have hu := h.unique.alike ha
    refine ⟨fun slot slot' id hs hs' => ?_, fun slot c hc => ?_⟩
    · rw [hworld, task_pushTask hthread] at hs hs'
      split at hs <;> split at hs'
      · rename_i h₁ h₂
        rw [h₁, h₂]
      · cases hs
        exact absurd (hold slot' _ hs') (by rw [htaskid]; exact Int.lt_irrefl _)
      · cases hs'
        exact absurd (hold slot _ hs) (by rw [htaskid]; exact Int.lt_irrefl _)
      · exact hu slot slot' id hs hs'
    · rw [hworld, task_pushTask hthread] at hc
      rw [hid]
      split at hc
      · cases hc
        omega
      · have := hold slot c.id (by rw [hc]; rfl)
        omega

section ReplayLoop

variable {T : Target σ κ ν} {I : World σ κ α ν → Prop}

omit [Inhabited ν] in
theorem terminateLoop_rule (hresume : ∀ w slot w', I w → w.resume T slot = .ok w' → I w') {slot : Slot} :
    ∀ (left : Nat) {w w' : World σ κ α ν}, I w → w.terminateLoop T slot left = .ok w' → I w'
  | 0, _, _, _, h => by cases h
  | left + 1, w, w', hI, h => by
    unfold World.terminateLoop at h
    split at h
    · cases h
    · split at h
      · cases h
        exact hI
      · obtain ⟨w₁, hw₁, h⟩ := bind_eq_ok.1 h
        split at h
        · cases h
        · exact terminateLoop_rule hresume left (hresume w slot w₁ hI hw₁) h

omit [Inhabited ν] in
/-- **The rule for the loop of `ReplayRound`**: what every resume keeps holds at its end, and whenever a task is looked
up. -/
theorem replayTasks_rule (hresume : ∀ w slot w', I w → w.resume T slot = .ok w' → I w') : ∀ (ids : List Int)
    {counts : Int → Nat} {started : Finset Int} {r r' : Round σ κ α ν ς ρ} {h h' : BothHistories ν}, I r.world →
    Strategy.replayTasks T ids counts started r h = .ok (h', r') → I r'.world ∧ r' = { r with world := r'.world } ∧
      ∀ id ∈ ids, ∃ w, I w ∧ (Round.getTask { r with world := w } id).isSome
  | [], _, _, r, r', _, _, hI, hrun => by
    unfold Strategy.replayTasks at hrun
    cases hrun
    exact ⟨hI, rfl, by simp⟩
  | id :: ids, counts, started, r, r', h, h', hI, hrun => by
    unfold Strategy.replayTasks at hrun
    split at hrun
    · cases hrun
    · rename_i slot hslot
      have hid : ∃ w, I w ∧ (Round.getTask { r with world := w } id).isSome := ⟨r.world, hI, by rw [hslot]; rfl⟩
      split at hrun
      · cases hrun
      · dsimp only at hrun
        split at hrun
        · obtain ⟨hI', hr', hids⟩ := replayTasks_rule hresume ids hI hrun
          exact ⟨hI', hr', List.forall_mem_cons.2 ⟨hid, hids⟩⟩
        · obtain ⟨w, hadvance, hrun⟩ := bind_eq_ok.1 hrun
          have hIw : I w := by
            unfold Strategy.advanceTask at hadvance
            split at hadvance
            · exact terminateLoop_rule hresume _ hI hadvance
            · exact hresume _ _ _ hI hadvance
          split at hrun
          · cases hrun
          · obtain ⟨hI', hr', hids⟩ := replayTasks_rule hresume ids (r := { r with world := w }) hIw hrun
            exact ⟨hI', hr', List.forall_mem_cons.2 ⟨hid, hids⟩⟩

end ReplayLoop

/-- The loop of `ReplayRound` keeps the tasks and what is marked. -/
theorem replayTasks_alike {T : Target σ κ ν} (ids : List Int) {counts : Int → Nat} {started : Finset Int}
    {r r' : Round σ κ α ν ς ρ} {h h' : BothHistories ν}
    (hrun : Strategy.replayTasks T ids counts started r h = .ok (h', r')) :
    Alike r.world r'.world ∧ r' = { r with world := r'.world } ∧
      (UniqueIds r.world → ∀ id ∈ ids, (r.getTask id).isSome) := by
  obtain ⟨ha, hr', hids⟩ := replayTasks_rule (I := Alike r.world)
    (fun w slot w' ha hw => (alike_resume hw).trans ha) ids rfl hrun
  refine ⟨ha, hr', fun hu id hid => ?_⟩
  obtain ⟨w, hw, hsome⟩ := hids id hid
  rwa [getTask_alike hu hw id] at hsome

/-- A run of `ReplayRound`: the reset, and the loop over the ordering. -/
theorem replay_eq_ok {fuel : Nat} {ids : List Int} {st' : Stage σ κ α ν ς ρ π} {h : BothHistories ν} :
    S.replay fuel ids st = .ok (h, st') ↔ ∃ st₀ r, S.resetCurrentRound fuel st = .ok st₀ ∧
      Strategy.replayTasks S.target ids (fun id => ids.count id) ∅ st₀.round ⟨[], []⟩ = .ok (h, r) ∧
      st' = { st₀ with round := r } := by
  unfold Strategy.replay
  constructor
  · intro hrun
    obtain ⟨st₀, hreset, hrun⟩ := bind_eq_ok.1 hrun
    obtain ⟨⟨h', r⟩, hloop, hrun⟩ := bind_eq_ok.1 hrun
    cases hrun
    exact ⟨st₀, r, hreset, hloop, rfl⟩
  · rintro ⟨st₀, r, hreset, hloop, rfl⟩
    exact bind_eq_ok.2 ⟨st₀, hreset, bind_eq_ok.2 ⟨(h, r), hloop, rfl⟩⟩

/-- A run of `ExploreRound`: the reset, and the loop. -/
theorem explore_eq_ok {fuel : Nat} {st' : Stage σ κ α ν ς ρ π} {h : BothHistories ν} :
    S.explore fuel st = .ok (h, st') ↔ ∃ st₀, S.resetCurrentRound fuel st = .ok st₀ ∧
      playTasks S.target S.nextSchedule (fun _ _ st => st) fuel st₀.round.getValidTasksCount st₀ ⟨[], []⟩ =
        .ok (h, st') := by
  unfold Strategy.explore
  exact bind_eq_ok

omit [Inhabited ν] in
/-- **What `NextSchedule` does.** -/
theorem nextSchedule_eq_ok {t : Picked} (h : S.nextSchedule st = .ok (t, st₁)) :
    t.slot = (t.threadId, st.round.getNextTaskInThread t.threadId) ∧
    t.slot.2 < (st.round.world.threads[t.slot.1]?.getD []).length ∧
    t.isNew = (st.round.roundSchedule[t.slot.1]?.join != some t.slot.2) ∧
    st₁.round = { st.round with roundSchedule := st.round.roundSchedule.set t.slot.1 (some t.slot.2) } := by
  unfold Strategy.nextSchedule at h
  obtain ⟨⟨i, p⟩, _, h⟩ := bind_eq_ok.1 h
  dsimp only at h
  split at h
  · rename_i hlt
    cases h
    exact ⟨rfl, hlt, rfl, rfl⟩
  · cases h

/-- **The tasks of a round have unique ids.** -/
theorem Session.ids (h : Session S st hs) : HasIds st := by
  induction h with
  | new hfresh => exact .of_empty hfresh.empty
  | startNextRound _ hstart =>
    obtain ⟨r, _, hstart⟩ := bind_eq_ok.1 hstart
    cases hstart
    exact .of_empty (by simp)
  | @generate st st' _ fuel maxTasks h _ _ hrun ih =>
    refine playTasks_rule (I := fun _ st _ => HasIds st) (fun left st h t st₁ task w hI hnext hresume _ => ?_) fuel maxTasks
      ih hrun
    obtain ⟨w₁, ha, _, _, _, _, hchosen⟩ := chosen_of_next hnext
    have hids : HasIds (st₁.withWorld w) := (hI.chosen ha hchosen).alike (alike_resume hresume) rfl
    split
    · exact ⟨hids.unique, hids.below⟩
    · exact hids
  | @explore st st' _ fuel h _ hrun ih =>
    obtain ⟨st₀, hreset, hrun⟩ := explore_eq_ok.1 hrun
    obtain ⟨_, _, hrestarted⟩ := restarted_of_reset hreset
    refine playTasks_rule (I := fun _ st _ => HasIds st) (fun left st h t st₁ task w hI hnext hresume _ => ?_) fuel _
      (ih.alike hrestarted.alike hrestarted.newTaskId) hrun
    obtain ⟨_, _, _, hround⟩ := nextSchedule_eq_ok hnext
    have ha := alike_resume hresume
    rw [hround] at ha
    have hids : HasIds (st₁.withWorld w) := hI.alike ha (by rw [Stage.withWorld, hround])
    split <;> exact hids
  | @replay st st' _ fuel ids h _ hrun ih =>
    obtain ⟨st₀, r, hreset, hloop, rfl⟩ := replay_eq_ok.1 hrun
    obtain ⟨_, _, hrestarted⟩ := restarted_of_reset hreset
    obtain ⟨ha, hr, _⟩ := replayTasks_alike ids hloop
    refine (ih.alike hrestarted.alike hrestarted.newTaskId).alike ha ?_
    rw [hr]
  | setTaskRemoved _ _ _ ih => exact ⟨ih.unique, ih.below⟩

end Ids

end Ltest
