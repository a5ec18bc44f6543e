import Ltest.Minimize.Rejected

/-!
# Greedy minimization (`minimization.cpp`)

`GreedyRoundMinimizor` tries to remove the tasks of a rejected history one by one and then in pairs, and keeps what is
still rejected. Its two subclasses differ in how they look for a rejected history without the tasks: `sameInterleaving`
replays what is left of the history, `strategyExploration` explores the round with the tasks marked as removed.

Attempts that fail leave the round in whatever state they end in. What every attempt keeps (`Standing`) is that the
history is one that the checker rejects when it is replayed, that it resumes exactly the tasks that are not removed, and
no others than the first history. The replay at the end then puts the round in the state that the history describes
(`minimize_sound`).
-/

namespace Ltest

open Program

variable {σ κ α ν ς ρ π : Type}

/-- `SetTaskRemoved` on several tasks. -/
def Stage.markTasksAsRemoved (st : Stage σ κ α ν ς ρ π) (taskIds : List Int) (isRemoved : Bool) : Stage σ κ α ν ς ρ π :=
  taskIds.foldl (fun st id => st.setTaskRemoved id isRemoved) st

/-- `GreedyRoundMinimizor::OnTasksRemoved`. -/
abbrev OnTasksRemoved (σ κ α ν ς ρ π : Type) := Stage σ κ α ν ς ρ π → BothHistories ν → List Int →
  Except Halt (Option (BothHistories ν) × Stage σ κ α ν ς ρ π)

section Definitions

variable [Inhabited ν] (S : Strategy σ κ α ν ς ρ π) (checker : ModelChecker α ν) (fuel : Nat)

/-- `SameInterleavingMinimizor::OnTasksRemoved`. -/
def sameInterleaving : OnTasksRemoved σ κ α ν ς ρ π := fun st h taskIds =>
  S.replayRound checker fuel (getTasksOrdering st.round.world h.full taskIds.toFinset) st

/-- `StrategyExplorationMinimizor::OnTasksRemoved`. -/
def strategyExploration (runs : Nat) : OnTasksRemoved σ κ α ν ς ρ π := fun st _ taskIds => do
  let (newHistories, st) ← S.exploreRound checker fuel runs (st.markTasksAsRemoved taskIds true)
  match newHistories with
  | some h => return (some h, st)
  | none => return (none, st.markTasksAsRemoved taskIds false)

variable (onTasksRemoved : OnTasksRemoved σ κ α ν ς ρ π)

omit [Inhabited ν] in
/-- The loop that removes single tasks. -/
def removeSingles : List Slot → Stage σ κ α ν ς ρ π → BothHistories ν →
    Except Halt (BothHistories ν × Stage σ κ α ν ς ρ π)
  | [], st, h => .ok (h, st)
  | slot :: tasks, st, h =>
    match st.round.world.task slot with
    | none => .error .badSlot
    | some task =>
      if st.round.isTaskRemoved task.id then removeSingles tasks st h
      else do
        let (newHistories, st) ← onTasksRemoved st h [task.id]
        match newHistories with
        | some h => removeSingles tasks (st.setTaskRemoved task.id true) h
        | none => removeSingles tasks st h

omit [Inhabited ν] in
/-- The inner loop over pairs: the task with id `taskI` is removed together with one of `tasks`. -/
def removeWith (taskI : Int) : List Slot → Stage σ κ α ν ς ρ π → BothHistories ν →
    Except Halt (BothHistories ν × Stage σ κ α ν ς ρ π)
  | [], st, h => .ok (h, st)
  | slot :: tasks, st, h =>
    match st.round.world.task slot with
    | none => .error .badSlot
    | some task =>
      if st.round.isTaskRemoved task.id then removeWith taskI tasks st h
      else do
        let (newHistories, st) ← onTasksRemoved st h [taskI, task.id]
        match newHistories with
        | some h =>
          if h.seq.length % 2 ≠ 0 then throw .oddHistory
          else return (h, (st.setTaskRemoved taskI true).setTaskRemoved task.id true)
        | none => removeWith taskI tasks st h

omit [Inhabited ν] in
/-- The loop that removes two tasks. -/
def removePairs : List Slot → Stage σ κ α ν ς ρ π → BothHistories ν →
    Except Halt (BothHistories ν × Stage σ κ α ν ς ρ π)
  | [], st, h => .ok (h, st)
  | slot :: tasks, st, h =>
    match st.round.world.task slot with
    | none => .error .badSlot
    | some task =>
      if st.round.isTaskRemoved task.id then removePairs tasks st h
      else do
        let (h, st) ← removeWith onTasksRemoved task.id tasks st h
        removePairs tasks st h

/-- `GreedyRoundMinimizor::Minimize`. -/
def greedyMinimize (st : Stage σ κ α ν ς ρ π) (h : BothHistories ν) :
    Except Halt (BothHistories ν × Stage σ κ α ν ς ρ π) := do
  let tasks := invokedTasks h.seq
  let (h, st) ← removeSingles onTasksRemoved tasks st h
  let (h, st) ← removePairs onTasksRemoved tasks st h
  let (_, st) ← S.replayRound checker fuel (getTasksOrdering st.round.world h.full ∅) st
  return (h, st)

/-- The minimizers that are built this way. -/
inductive GreedyMinimizor : OnTasksRemoved σ κ α ν ς ρ π → Prop
  | sameInterleaving : GreedyMinimizor (sameInterleaving S checker fuel)
  | strategyExploration (runs : Nat) : GreedyMinimizor (strategyExploration S checker fuel runs)

end Definitions

/-! ## Attempts -/

section Attempts

variable [Inhabited ν] {S : Strategy σ κ α ν ς ρ π} {checker : ModelChecker α ν} {st st' : Stage σ κ α ν ς ρ π}
  {h h' : BothHistories ν} {res : Option (BothHistories ν)} {fuel : Nat} {taskIds : List Int}
  {onTasksRemoved : OnTasksRemoved σ κ α ν ς ρ π}

omit [Inhabited ν] in
/-- What marking does. -/
theorem markTasksAsRemoved_spec (isRemoved : Bool) : ∀ (taskIds : List Int) (st : Stage σ κ α ν ς ρ π),
    (st.markTasksAsRemoved taskIds isRemoved).round.world = st.round.world ∧
    ∀ id, id ∈ (st.markTasksAsRemoved taskIds isRemoved).round.removedTasks ↔
      if id ∈ taskIds then isRemoved = true else id ∈ st.round.removedTasks
  | [], st => ⟨rfl, fun id => by simp [Stage.markTasksAsRemoved]⟩
  | task :: taskIds, st => by
    obtain ⟨hworld, hremoved⟩ := markTasksAsRemoved_spec isRemoved taskIds (st.setTaskRemoved task isRemoved)
    refine ⟨hworld, fun id => ?_⟩
    show id ∈ ((st.setTaskRemoved task isRemoved).markTasksAsRemoved taskIds isRemoved).round.removedTasks ↔ _
    rw [hremoved id]
    by_cases hid : id ∈ taskIds
    · simp [hid]
    · by_cases heq : id = task
      · subst heq
        cases isRemoved <;> simp [hid, Stage.setTaskRemoved, Round.setTaskRemoved]
      · cases isRemoved <;> simp [hid, heq, Stage.setTaskRemoved, Round.setTaskRemoved]

/-- What is kept by marking. -/
theorem Session.markTasksAsRemoved (isRemoved : Bool) : ∀ (taskIds : List Int) {st : Stage σ κ α ν ς ρ π}
    {hs : List (BothHistories ν)}, Session S st hs → Session S (st.markTasksAsRemoved taskIds isRemoved) hs
  | [], _, _, h => h
  | id :: taskIds, _, _, h => (h.setTaskRemoved id isRemoved).markTasksAsRemoved isRemoved taskIds

/-- The round and its history while a minimizer works on them, which was given `h₀`. -/
structure Standing (S : Strategy σ κ α ν ς ρ π) (checker : ModelChecker α ν) (w₀ : World σ κ α ν) (h₀ : BothHistories ν)
    (st : Stage σ κ α ν ς ρ π) (h : BothHistories ν) : Prop where
  session : ∃ hs, Session S st hs
  alike : Alike w₀ st.round.world
  rejected : Rejected S.target checker st.round.world h
  invokes : Invokes st h
  subset : ∀ slot ∈ h.full, slot ∈ h₀.full

/-- What an attempt to remove tasks leaves: the round as it was, or a rejected history of the other tasks. -/
def Attempted (S : Strategy σ κ α ν ς ρ π) (checker : ModelChecker α ν) (st : Stage σ κ α ν ς ρ π) (taskIds : List Int)
    (st' : Stage σ κ α ν ς ρ π) : Option (BothHistories ν) → Prop
  | none => st'.round.removedTasks = st.round.removedTasks
  | some h' => Rejected S.target checker st'.round.world h' ∧
    (∀ slot c, st'.round.world.task slot = some c → (slot ∈ h'.full ↔ c.id ∉ st.round.removedTasks ∧ c.id ∉ taskIds)) ∧
    ∀ id, id ∈ st'.round.removedTasks ∨ id ∈ taskIds ↔ id ∈ st.round.removedTasks ∨ id ∈ taskIds

omit [Inhabited ν] in
/-- The slots of an ordering without some of its tasks. -/
theorem mem_slotsOf_getTasksOrdering {r : Round σ κ α ν ς ρ} (hu : UniqueIds r.world) {full : List Slot} {slot : Slot}
    {c : Coro κ α ν} (hc : r.world.task slot = some c) (exclude : Finset Int) :
    slot ∈ slotsOf r (getTasksOrdering r.world full exclude) ↔ slot ∈ full ∧ c.id ∉ exclude := by
  rw [mem_slotsOf hu hc]
  unfold getTasksOrdering
  rw [List.mem_filter, List.mem_filterMap]
  refine and_congr ⟨?_, fun hs => ⟨slot, hs, by rw [hc]; rfl⟩⟩ (by simp)
  rintro ⟨slot', hs, hid⟩
  rwa [hu slot slot' c.id (by rw [hc]; rfl) hid]

/-- **Both minimizers make such attempts.** -/
theorem attempted_of (hS : Repeatable S) (hf : GreedyMinimizor S checker fuel onTasksRemoved)
    (hsession : ∃ hs, Session S st hs) (hinvokes : Invokes st h)
    (hids : ∀ id ∈ taskIds, id ∉ st.round.removedTasks) (hrun : onTasksRemoved st h taskIds = .ok (res, st')) :
    (∃ hs, Session S st' hs) ∧ Alike st.round.world st'.round.world ∧ Attempted S checker st taskIds st' res := by
  obtain ⟨hs, hsession⟩ := hsession
  cases hf with
  | sameInterleaving =>
    have hkept : ∀ id ∈ getTasksOrdering st.round.world h.full taskIds.toFinset, id ∉ st.round.removedTasks := by
      intro id hid
      obtain ⟨slot, hslot, hid'⟩ := List.mem_filterMap.1 (List.mem_filter.1 hid).1
      obtain ⟨c, hc, rfl⟩ := Option.map_eq_some_iff.1 hid'
      exact (hinvokes slot c hc).1 hslot
    obtain ⟨h', hproduced, hfull, ha, hremoved, rfl⟩ := replayRound_spec hsession hkept hrun
    refine ⟨hproduced.session, ha, ?_⟩
    cases hv : verdict checker st'.round.world h' with
    | none => exact hremoved
    | some h₁ =>
      obtain ⟨rfl, hrejected⟩ := (hproduced.played hS).verdict hv
      refine ⟨hrejected, fun slot c hc => ?_, fun id => by rw [hremoved]⟩
      have hmap := ha.map_id slot
      rw [hc] at hmap
      obtain ⟨c', hc', hid⟩ := Option.map_eq_some_iff.1 hmap.symm
      rw [hfull, mem_slotsOf_getTasksOrdering hsession.ids.unique hc', hinvokes slot c' hc', hid, List.mem_toFinset]
  | strategyExploration runs =>
    obtain ⟨hworld, hmarked⟩ := markTasksAsRemoved_spec true taskIds st
    obtain ⟨⟨res', st₁⟩, hexplore, hrun⟩ := bind_eq_ok.1 hrun
    obtain ⟨⟨hs', hsession'⟩, ha, hremoved, hres⟩ := exploreRound_spec hS runs (hsession.markTasksAsRemoved true taskIds)
      hexplore
    rw [hworld] at ha
    cases res' with
    | some h' =>
      cases hrun
      obtain ⟨hrejected, hinvokes'⟩ := hres h' rfl
      refine ⟨⟨hs', hsession'⟩, ha, hrejected, fun slot c hc => ?_, fun id => ?_⟩
      · rw [hinvokes' slot c hc, hremoved, hmarked]
        by_cases hid : c.id ∈ taskIds <;> simp [hid]
      · rw [hremoved, hmarked]
        by_cases hid : id ∈ taskIds <;> simp [hid]
    | none =>
      cases hrun
      obtain ⟨hworld', hmarked'⟩ := markTasksAsRemoved_spec false taskIds st₁
      refine ⟨⟨hs', hsession'.markTasksAsRemoved false taskIds⟩, by rw [hworld']; exact ha, ?_⟩
      show (st₁.markTasksAsRemoved taskIds false).round.removedTasks = st.round.removedTasks
      ext id
      rw [hmarked']
      by_cases hid : id ∈ taskIds
      · simp [hid, hids id hid]
      · rw [if_neg hid, hremoved, hmarked, if_neg hid]

variable {w₀ : World σ κ α ν} {h₀ : BothHistories ν}

/-- A failed attempt. -/
theorem Standing.failed (hstanding : Standing S checker w₀ h₀ st h) (hsession : ∃ hs, Session S st' hs)
    (ha : Alike st.round.world st'.round.world) (hattempted : Attempted S checker st taskIds st' none) :
    Standing S checker w₀ h₀ st' h := by
  refine ⟨hsession, ha.trans hstanding.alike, hstanding.rejected.alike ha, fun slot c hc => ?_, hstanding.subset⟩
  have hmap := ha.map_id slot
  rw [hc] at hmap
  obtain ⟨c', hc', hid⟩ := Option.map_eq_some_iff.1 hmap.symm
  have hremoved : st'.round.removedTasks = st.round.removedTasks := hattempted
  rw [hstanding.invokes slot c' hc', hid, hremoved]

/-- A successful one: the tasks are marked as removed. -/
theorem Standing.succeeded (hstanding : Standing S checker w₀ h₀ st h) (hsession : ∃ hs, Session S st' hs)
    (ha : Alike st.round.world st'.round.world) (hattempted : Attempted S checker st taskIds st' (some h')) :
    Standing S checker w₀ h₀ (st'.markTasksAsRemoved taskIds true) h' := by
  obtain ⟨hrejected, hfull, hremoved⟩ := hattempted
  obtain ⟨hworld, hmarked⟩ := markTasksAsRemoved_spec true taskIds st'
  refine ⟨⟨_, hsession.choose_spec.markTasksAsRemoved true taskIds⟩, ?_, ?_, fun slot c hc => ?_, fun slot hs => ?_⟩
  · rw [hworld]
    exact ha.trans hstanding.alike
  · rw [hworld]
    exact hrejected
  · rw [hworld] at hc
    rw [hfull slot c hc, hmarked, ← not_or, ← hremoved c.id]
    by_cases hid : c.id ∈ taskIds <;> simp [hid]
  · obtain ⟨c, hc⟩ := Option.isSome_iff_exists.1 (hrejected.there slot hs)
    have hmap := ha.map_id slot
    rw [hc] at hmap
    obtain ⟨c', hc', hid⟩ := Option.map_eq_some_iff.1 hmap.symm
    refine hstanding.subset slot ((hstanding.invokes slot c' hc').2 ?_)
    rw [hid]
    exact ((hfull slot c hc).1 hs).1

/-! ## The loops -/

theorem removeSingles_standing (hS : Repeatable S) (hf : GreedyMinimizor S checker fuel onTasksRemoved) :
    ∀ (tasks : List Slot) {st st' : Stage σ κ α ν ς ρ π} {h h' : BothHistories ν}, Standing S checker w₀ h₀ st h →
      removeSingles onTasksRemoved tasks st h = .ok (h', st') → Standing S checker w₀ h₀ st' h'
  | [], st, st', h, h', hstanding, hrun => by
    cases hrun
    exact hstanding
  | slot :: tasks, st, st', h, h', hstanding, hrun => by
    unfold removeSingles at hrun
    split at hrun
    · cases hrun
    · rename_i task htask
      split at hrun
      · exact removeSingles_standing hS hf tasks hstanding hrun
      · rename_i hrem
        obtain ⟨⟨res, st₁⟩, hattempt, hrun⟩ := bind_eq_ok.1 hrun
        obtain ⟨hsession, ha, hattempted⟩ := attempted_of hS hf hstanding.session hstanding.invokes
          (by simpa [Round.isTaskRemoved] using hrem) hattempt
        cases res with
        | none => exact removeSingles_standing hS hf tasks (hstanding.failed hsession ha hattempted) hrun
        | some h₁ => exact removeSingles_standing hS hf tasks (hstanding.succeeded hsession ha hattempted) hrun

theorem removeWith_standing (hS : Repeatable S) (hf : GreedyMinimizor S checker fuel onTasksRemoved) {taskI : Int} :
    ∀ (tasks : List Slot) {st st' : Stage σ κ α ν ς ρ π} {h h' : BothHistories ν}, Standing S checker w₀ h₀ st h →
      taskI ∉ st.round.removedTasks → removeWith onTasksRemoved taskI tasks st h = .ok (h', st') →
      Standing S checker w₀ h₀ st' h'
  | [], st, st', h, h', hstanding, _, hrun => by
    cases hrun
    exact hstanding
  | slot :: tasks, st, st', h, h', hstanding, hi, hrun => by
    unfold removeWith at hrun
    split at hrun
    · cases hrun
    · rename_i task htask
      split at hrun
      · exact removeWith_standing hS hf tasks hstanding hi hrun
      · rename_i hrem
        have hj : task.id ∉ st.round.removedTasks := by simpa [Round.isTaskRemoved] using hrem
        obtain ⟨⟨res, st₁⟩, hattempt, hrun⟩ := bind_eq_ok.1 hrun
        obtain ⟨hsession, ha, hattempted⟩ := attempted_of hS hf hstanding.session hstanding.invokes
          (by simp [hi, hj]) hattempt
        cases res with
        | none =>
          have hremoved : st₁.round.removedTasks = st.round.removedTasks := hattempted
          exact removeWith_standing hS hf tasks (hstanding.failed hsession ha hattempted) (hremoved ▸ hi) hrun
        | some h₁ =>
          dsimp only at hrun
          split at hrun
          · cases hrun
          · cases hrun
            exact hstanding.succeeded hsession ha hattempted

theorem removePairs_standing (hS : Repeatable S) (hf : GreedyMinimizor S checker fuel onTasksRemoved) :
    ∀ (tasks : List Slot) {st st' : Stage σ κ α ν ς ρ π} {h h' : BothHistories ν}, Standing S checker w₀ h₀ st h →
      removePairs onTasksRemoved tasks st h = .ok (h', st') → Standing S checker w₀ h₀ st' h'
  | [], st, st', h, h', hstanding, hrun => by
    cases hrun
    exact hstanding
  | slot :: tasks, st, st', h, h', hstanding, hrun => by
    unfold removePairs at hrun
    split at hrun
    · cases hrun
    · rename_i task htask
      split at hrun
      · exact removePairs_standing hS hf tasks hstanding hrun
      · rename_i hrem
        obtain ⟨⟨h₁, st₁⟩, hwith, hrun⟩ := bind_eq_ok.1 hrun
        have hnext := removeWith_standing hS hf tasks hstanding (by simpa [Round.isTaskRemoved] using hrem) hwith
        exact removePairs_standing hS hf tasks hnext hrun

end Attempts

/-! ## Soundness -/

section Soundness

variable [Inhabited ν] {S : Strategy σ κ α ν ς ρ π} {checker : ModelChecker α ν} {st st' : Stage σ κ α ν ς ρ π}
  {h h' : BothHistories ν} {fuel : Nat} {onTasksRemoved : OnTasksRemoved σ κ α ν ς ρ π}

/-- **Greedy minimization is sound.** When it returns, the tasks that the history invokes were invoked by the first one and
are those that are not removed, the checker rejects the history with the results that the tasks hold, and the responses
have these results. The history has just been replayed, so another minimizer can go on from it. -/
theorem minimize_sound (hS : Repeatable S) (hf : GreedyMinimizor S checker fuel onTasksRemoved)
    (hproduced : Produced S st h) (hrejected : checker (st.round.world.resolve h.seq) = false)
    (hexact : ∀ slot c, st.round.world.task slot = some c →
      (slot ∈ invokedTasks h.seq ↔ c.id ∉ st.round.removedTasks))
    (hrun : greedyMinimize S checker fuel onTasksRemoved st h = .ok (h', st')) :
    (∀ slot ∈ invokedTasks h'.seq, slot ∈ invokedTasks h.seq) ∧
    (∀ slot c, st'.round.world.task slot = some c → (slot ∈ invokedTasks h'.seq ↔ c.id ∉ st'.round.removedTasks)) ∧
    checker (st'.round.world.resolve h'.seq) = false ∧
    (∀ slot r th, .response slot r th ∈ h'.seq → (st'.round.world.task slot).map Coro.ret = some r) ∧
    Produced S st' h' := by
  have hplayed := hproduced.played hS
  have hstart : Standing S checker st.round.world h st h := by
    refine ⟨hproduced.session, rfl, hplayed.rejected_iff.1 hrejected, fun slot c hc => ?_, fun _ hs => hs⟩
    rw [← hplayed.toRecorded.mem_invokedTasks]
    exact hexact slot c hc
  obtain ⟨⟨h₁, st₁⟩, hsingles, hrun⟩ := bind_eq_ok.1 hrun
  obtain ⟨⟨h₂, st₂⟩, hpairs, hrun⟩ := bind_eq_ok.1 hrun
  obtain ⟨⟨res, st₃⟩, hreplay, hrun⟩ := bind_eq_ok.1 hrun
  cases hrun
  have hstanding := removePairs_standing hS hf _ (removeSingles_standing hS hf _ hstart hsingles) hpairs
  obtain ⟨hs, hsession⟩ := hstanding.session
  -- the replay at the end
  have hids : ∀ id ∈ getTasksOrdering st₂.round.world h'.full ∅, id ∉ st₂.round.removedTasks := by
    intro id hid
    obtain ⟨slot, hslot, hid'⟩ := mem_getTasksOrdering.1 hid
    obtain ⟨c, hc, rfl⟩ := Option.map_eq_some_iff.1 hid'
    exact (hstanding.invokes slot c hc).1 hslot
  obtain ⟨⟨h₃, st₄⟩, hreplayed, hlast⟩ := bind_eq_ok.1 hreplay
  cases hlast
  obtain ⟨rfl, ha, hplayed'⟩ := hsession.replay_recorded hS hstanding.rejected.toRecorded
    (fun slot hs c hc => (hstanding.invokes slot c hc).1 hs) hreplayed
  obtain ⟨_, _, _, _, hremoved, _⟩ := replayRound_spec hsession hids hreplay
  have hrecorded := hplayed'.toRecorded
  refine ⟨fun slot hs => ?_, fun slot c hc => ?_, ?_, fun slot r th he => hplayed'.ret_eq he, .replay hsession hids hreplayed⟩
  · rw [hplayed.toRecorded.mem_invokedTasks]
    exact hstanding.subset slot (hrecorded.mem_invokedTasks.1 hs)
  · have hmap := ha.map_id slot
    rw [hc] at hmap
    obtain ⟨c', hc', hid⟩ := Option.map_eq_some_iff.1 hmap.symm
    rw [hrecorded.mem_invokedTasks, hstanding.invokes slot c' hc', hid, hremoved]
  · exact hplayed'.rejected_iff.2 (hstanding.rejected.alike ha)

/-- A checker that rejects what has two events. -/
def rejectsTwoEvents : ModelChecker Unit Nat := fun history => decide (history.length < 2)

/-- A round of two tasks and its minimization. -/
def minimizedRound : Except Halt (
    Stage Nat Bool Unit Nat Unit Unit (PickState Nat Bool Unit Unit Unit) × BothHistories Nat ×
    Stage Nat Bool Unit Nat Unit Unit (PickState Nat Bool Unit Unit Unit) × BothHistories Nat) := do
  let (h, st) ← counterStrategy.generate 10 2 twoCounters
  let (h', st') ← greedyMinimize counterStrategy rejectsTwoEvents 10
    (strategyExploration counterStrategy rejectsTwoEvents 10 1) st h
  return (st, h, st', h')

/-- Such a round is minimized to its second task. -/
theorem minimize_sound_twoCounters : ∃ st h st' h', Produced counterStrategy st h ∧
    greedyMinimize counterStrategy rejectsTwoEvents 10 (strategyExploration counterStrategy rejectsTwoEvents 10 1) st h =
      .ok (h', st') ∧ h'.full = [(1, 0), (1, 0)] ∧ (∀ slot ∈ invokedTasks h'.seq, slot ∈ invokedTasks h.seq) ∧
    (∀ slot c, st'.round.world.task slot = some c → (slot ∈ invokedTasks h'.seq ↔ c.id ∉ st'.round.removedTasks)) ∧
    rejectsTwoEvents (st'.round.world.resolve h'.seq) = false ∧
    (∀ slot r th, .response slot r th ∈ h'.seq → (st'.round.world.task slot).map Coro.ret = some r) ∧
    Produced counterStrategy st' h' := by
  obtain ⟨⟨st, h, st', h'⟩, hok, hf⟩ := ok_of_toOption (x := minimizedRound)
    (f := fun (st, h, _, h') => (h'.full, rejectsTwoEvents (st.round.world.resolve h.seq), invokedTasks h.seq,
      decide (st.round.removedTasks = ∅), st.round.world.threads.map List.length))
    (b := ([(1, 0), (1, 0)], false, [(0, 0), (1, 0)], true, [1, 1])) (by decide +kernel)
  obtain ⟨⟨h₁, st₁⟩, hgen, hok⟩ := bind_eq_ok.1 hok
  obtain ⟨⟨h₂, st₂⟩, hminimize, hok⟩ := bind_eq_ok.1 hok
  cases hok
  simp only [Prod.mk.injEq, decide_eq_true_eq] at hf
  have hproduced := Produced.generate (.new twoCounters_fresh) (by simp [twoCounters]) hgen
  refine ⟨_, _, _, _, hproduced, hminimize, hf.1, minimize_sound counterStrategy_replayable.toRepeatable
    (.strategyExploration 1) hproduced hf.2.1 (fun slot c hc => ?_) hminimize⟩
  rw [hf.2.2.1, hf.2.2.2.1]
  refine iff_of_true ?_ (Finset.notMem_empty c.id)
  -- every thread has one task
  obtain ⟨tasks, htasks, hj⟩ := World.task_eq_some.1 hc
  have hlen := congrArg (·[slot.1]?) hf.2.2.2.2
  simp only [List.getElem?_map, htasks, Option.map_some] at hlen
  have hlt := (List.getElem?_eq_some_iff.1 hj).1
  obtain ⟨i, j⟩ := slot
  rcases i with _ | _ | i <;> simp at hlen hlt ⊢ <;> omega

end Soundness

end Ltest
