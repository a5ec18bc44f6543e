import Ltest.Strategy.Pick
import Ltest.Strategy.Recorded
import Mathlib.Algebra.Group.Even

/-!
# Replaying a round (`StrategyScheduler::ReplayRound`)

`ReplayRound` resumes the tasks of an ordering, each once for every time it is listed. The comment in its loop says that
the last appearance of a task completes it, but the counter that is to tell the last appearance is tested before it is
decremented and never found to be zero. So a replay completes its tasks exactly when the ordering lists them often enough
(`replay_completes_iff`); one that ends with a pending task leaves it pending (`pending_task_not_completed`).

That it does no more than the ordering says makes it faithful: the ordering of a full history, replayed on the same
round, gives the sequential history of that run again (`replay_faithful`), whatever has been done to the round in between.
-/

namespace Ltest

open Program

variable {σ κ α ν ς ρ π : Type}

section Completes

variable [Inhabited ν] {S : Strategy σ κ α ν ς ρ π} {st st' : Stage σ κ α ν ς ρ π} {hs : List (BothHistories ν)}
  {fuel : Nat} {ids : List Int} {h : BothHistories ν}

/-- The tasks with these ids are complete: they have returned, and the history has one invoke of each and later one
response. -/
structure Completes (w : World σ κ α ν) (ids : List Int) (history : List (HistoryEvent Slot ν)) : Prop where
  returned : ∀ slot c, w.task slot = some c → c.id ∈ ids → c.isReturned = true
  invoked : ∀ slot c, w.task slot = some c → c.id ∈ ids → history.countP (fun e => e.invoked == some slot) = 1
  answered : ∀ slot c, w.task slot = some c → c.id ∈ ids → history.countP (fun e => e.answered == some slot) = 1
  ordered : ∀ pre slot r th post, history = pre ++ .response slot r th :: post → .invoke slot slot.1 ∈ pre
  even : Even history.length

/-- The ordering lists every task as often as it has to be resumed: resumed in this order from round `r`, once for every
time they are listed, all of them return. -/
def ListedEnough (T : Target σ κ ν) (r : Round σ κ α ν ς ρ) (ids : List Int) : Prop :=
  ∀ slot ∈ slotsOf r ids, (machine T).done ((Pool.run (machine T) r.world.pool (slotsOf r ids)).proc slot) = true

/-- **A replay completes its tasks exactly when the ordering lists them often enough.** -/
theorem replay_completes_iff (hst : Session S st hs)
    (hids : ∀ id ∈ ids, id ∉ st.round.removedTasks ∧ ∃ slot, (st.round.world.task slot).map Coro.id = some id)
    (hreplay : S.replay fuel ids st = .ok (h, st')) : ∃ st₀, S.resetCurrentRound fuel st = .ok st₀ ∧
      (Completes st'.round.world ids h.seq ↔ ListedEnough S.target st₀.round ids) := by
  obtain ⟨w, st₀, _, hreset, hrestarted, hlogged, hfull, ha, _⟩ := replay_run hst hreplay
  have hu := hst.ids.unique.alike hrestarted.alike
  refine ⟨st₀, hreset, ?_⟩
  have hsome : ∀ slot ∈ h.full, (st₀.round.world.pool.proc slot).isSome := by
    rw [hfull]
    exact fun slot hs => isSome_of_mem_slotsOf hu hs
  -- a listed task has been restarted
  have hundone : ∀ slot ∈ h.full, (machine S.target).done (st₀.round.world.pool.proc slot) = false := by
    intro slot hs
    obtain ⟨c, hc⟩ := Option.isSome_iff_exists.1 (hsome slot hs)
    rw [hfull] at hs
    have hid := (mem_slotsOf hu hc).1 hs
    have hfresh := hrestarted.restarted slot c hc (hids c.id hid).1
    rw [hc]
    show c.isReturned = false
    rw [← hfresh]
    rfl
  -- the tasks at the end with a listed id are those that were listed
  have hlisted : ∀ slot c, st'.round.world.task slot = some c → c.id ∈ ids → slot ∈ h.full := by
    intro slot c hc hid
    have hmap := ha.map_id slot
    rw [hc] at hmap
    obtain ⟨c₀, hc₀, hid₀⟩ := Option.map_eq_some_iff.1 hmap.symm
    rw [hfull]
    exact (mem_slotsOf hu hc₀).2 (hid₀ ▸ hid)
  have hdone : ∀ slot c, st'.round.world.task slot = some c →
      c.isReturned = (machine S.target).done ((Pool.run (machine S.target) st₀.round.world.pool h.full).proc slot) := by
    intro slot c hc
    rw [← hlogged.world]
    simp [World.pool, machine, hc]
  unfold ListedEnough
  rw [← hfull]
  constructor
  · intro hcomplete slot hs
    obtain ⟨c, hc⟩ := Option.isSome_iff_exists.1 ((ha.isSome slot).trans (hsome slot hs))
    rw [← hdone slot c hc]
    refine hcomplete.returned slot c hc ?_
    have hmap := ha.map_id slot
    rw [hc] at hmap
    obtain ⟨c₀, hc₀, hid₀⟩ := Option.map_eq_some_iff.1 hmap.symm
    rw [hfull] at hs
    rw [← hid₀]
    exact (mem_slotsOf hu hc₀).1 hs
  · intro henough
    refine ⟨fun slot c hc hid => ?_, fun slot c hc hid => ?_, fun slot c hc hid => ?_, ?_, ?_⟩
    · rw [hdone slot c hc]
      exact henough slot (hlisted slot c hc hid)
    · rw [hlogged.seq, countP_invoked, Pool.count_start, if_pos (hlisted slot c hc hid)]
    · have hs := hlisted slot c hc hid
      rw [hlogged.seq, countP_answered hsome, Pool.count_finish (hundone slot hs), if_pos (henough slot hs)]
    · intro pre slot r th post hsplit
      exact invoked_before (hlogged.seq.symm.trans hsplit)
    · have hall : (h.full.toFinset.filter fun slot =>
          (machine S.target).done ((Pool.run (machine S.target) st₀.round.world.pool h.full).proc slot) = true) =
            h.full.toFinset :=
        Finset.filter_true_of_mem fun slot hs => henough slot (List.mem_toFinset.1 hs)
      rw [hlogged.seq, length_seqOf hsome, Pool.length_events hundone, hall]
      exact ⟨_, rfl⟩

end Completes

/-! ## Faithfulness -/

section Faithful

variable [Inhabited ν] {S : Strategy σ κ α ν ς ρ π} {st st₁ : Stage σ κ α ν ς ρ π} {hs : List (BothHistories ν)}
  {h : BothHistories ν}

omit [Inhabited ν] in
/-- The ids of the tasks that a history mentions. -/
theorem mem_getTasksOrdering {w : World σ κ α ν} {full : List Slot} {id : Int} :
    id ∈ getTasksOrdering w full ∅ ↔ ∃ slot ∈ full, (w.task slot).map Coro.id = some id := by
  simp [getTasksOrdering]

omit [Inhabited ν] in
/-- Looking the tasks of an ordering up gives the history back. -/
theorem slotsOf_getTasksOrdering {r : Round σ κ α ν ς ρ} (hu : UniqueIds r.world) : ∀ {full : List Slot},
    (∀ slot ∈ full, (r.world.task slot).isSome) → slotsOf r (getTasksOrdering r.world full ∅) = full
  | [], _ => rfl
  | slot :: full, hthere => by
    obtain ⟨c, hc⟩ := Option.isSome_iff_exists.1 (hthere slot List.mem_cons_self)
    have hcons : getTasksOrdering r.world (slot :: full) ∅ = c.id :: getTasksOrdering r.world full ∅ := by
      simp [getTasksOrdering, hc]
    have hget : r.getTask c.id = some slot := (getTask_eq_some hu).2 (by rw [hc]; rfl)
    have ih := slotsOf_getTasksOrdering hu fun slot hs => hthere slot (List.mem_cons_of_mem _ hs)
    rw [hcons, slotsOf, List.filterMap_cons_some hget]
    exact congrArg (slot :: ·) ih

theorem getTasksOrdering_alike {w w' : World σ κ α ν} (ha : Alike w w') (full : List Slot) (exclude : Finset Int) :
    getTasksOrdering w' full exclude = getTasksOrdering w full exclude := by
  unfold getTasksOrdering
  congr 1
  exact List.filterMap_congr fun slot _ => ha.map_id slot

/-- What the replay of a recorded history gives. -/
theorem Session.replay_recorded (hS : Repeatable S) (hsession : Session S st hs) (hr : Recorded S.target st.round.world h)
    (hkept : ∀ slot ∈ h.full, ∀ c, st.round.world.task slot = some c → c.id ∉ st.round.removedTasks) {fuel : Nat}
    {h' : BothHistories ν} {st' : Stage σ κ α ν ς ρ π}
    (hreplay : S.replay fuel (getTasksOrdering st.round.world h.full ∅) st = .ok (h', st')) :
    h' = h ∧ Alike st.round.world st'.round.world ∧ Played S.target st'.round.world h := by
  obtain ⟨w, st₀, hpasses, _, hrestarted, _, hfull, ha, _⟩ := replay_run hsession hreplay
  have hu := hsession.ids.unique.alike hrestarted.alike
  have hsame := getTasksOrdering_alike hrestarted.alike h.full ∅
  rw [← hsame, slotsOf_getTasksOrdering hu fun slot hs => (hrestarted.alike.isSome slot).trans (hr.there slot hs)] at hfull
  have hids : ∀ id ∈ getTasksOrdering st.round.world h.full ∅, id ∉ st.round.removedTasks := by
    intro id hid
    obtain ⟨slot, hs, hslot⟩ := mem_getTasksOrdering.1 hid
    obtain ⟨c, hc, rfl⟩ := Option.map_eq_some_iff.1 hslot
    exact hkept slot hs c hc
  have hplayed := (Produced.replay hsession hids hreplay).played hS
  have hround := ha.trans hrestarted.alike
  have hseq : h'.seq = h.seq := by rw [hplayed.seq, hr.seq, hfull, basePool_alike hround]
  obtain rfl : h' = h := by
    cases h
    cases h'
    simp only [BothHistories.mk.injEq]
    exact ⟨hfull, hseq⟩
  exact ⟨rfl, hround, hplayed⟩

/-- **Replay is faithful**: whatever is done to a round after a history has been produced on it, the replay of that history
gives its sequential history again, if its tasks are not removed then, and is itself a replay of the same ordering. -/
theorem replay_faithful (hS : Replayable S) (hproduced : Produced S st₁ h) (hfurther : Further S st₁ st)
    (hkept : ∀ slot ∈ h.full, ∀ c, st.round.world.task slot = some c → c.id ∉ st.round.removedTasks) :
    ∃ enough, ∀ fuel, enough ≤ fuel → ∃ h' st',
      S.replay fuel (getTasksOrdering st.round.world h.full ∅) st = .ok (h', st') ∧ h'.seq = h.seq ∧
      getTasksOrdering st'.round.world h'.full ∅ = getTasksOrdering st.round.world h.full ∅ := by
  obtain ⟨_, hsession₁⟩ := hproduced.session
  obtain ⟨_, hsession⟩ := hfurther.session hsession₁
  have hrecorded := (hproduced.played hS.toRepeatable).toRecorded.alike (hfurther.alike hsession₁)
  have hids : ∀ id ∈ getTasksOrdering st.round.world h.full ∅, ∃ slot,
      (st.round.world.task slot).map Coro.id = some id := by
    intro id hid
    obtain ⟨slot, _, hslot⟩ := mem_getTasksOrdering.1 hid
    exact ⟨slot, hslot⟩
  obtain ⟨enough, henough⟩ := hsession.replays hS hids
  refine ⟨enough, fun fuel hfuel => ?_⟩
  obtain ⟨h', st', hreplay⟩ := henough fuel hfuel
  obtain ⟨rfl, ha, _⟩ := hsession.replay_recorded hS.toRepeatable hrecorded hkept hreplay
  exact ⟨h', st', hreplay, rfl, getTasksOrdering_alike ha h'.full ∅⟩

end Faithful

/-! ## A counter -/

section Counter

/-- Threads that add to a counter, one after the other. -/
def counterStrategy : Strategy Nat Bool Unit Nat Unit Unit (PickState Nat Bool Unit Unit Unit) :=
  roundRobinStrategy counterTarget defaultStrategyVerifier leastDice

/-- How often the tasks of a counter can be resumed. -/
def counterResumes (w : World Nat Bool Unit Nat) : Nat :=
  w.threads.flatten.countP (fun c => !c.isReturned) + w.threads.flatten.countP fun c => !c.isReturned && c.ctx

theorem counterResumes_lt {w w' : World Nat Bool Unit Nat} (h : Resumed counterTarget w' w) :
    counterResumes w' < counterResumes w := by
  obtain ⟨slot, hresume⟩ := h
  obtain ⟨c, hc, hr, rfl⟩ := World.resume_eq_ok.1 hresume
  have hall := countP_setTask (d := (c.resume counterTarget w.memory).1) (fun c => !c.isReturned) hc
  have hfirst := countP_setTask (d := (c.resume counterTarget w.memory).1) (fun c => !c.isReturned && c.ctx) hc
  unfold counterResumes
  show _ + _ < _
  cases hctx : c.ctx with
  | true =>
    have hafter : (c.resume counterTarget w.memory).1 = { c with ctx := false } := by
      simp [Coro.resume, counterTarget, hctx]
    rw [hafter] at hall hfirst ⊢
    simp only [hr, hctx, Bool.not_false, Bool.and_true, Bool.and_false, Bool.false_eq_true, ↓reduceIte] at hall hfirst ⊢
    omega
  | false =>
    have hafter : (c.resume counterTarget w.memory).1 = { c with ret := w.memory, isReturned := true } := by
      simp [Coro.resume, counterTarget, hctx]
    rw [hafter] at hall hfirst ⊢
    simp only [hr, hctx, Bool.not_false, Bool.not_true, Bool.and_false, Bool.false_eq_true,
      ↓reduceIte] at hall hfirst ⊢
    omega

theorem counterStrategy_replayable : Replayable counterStrategy where
  nonBlocking ctx m addr value ctx' := by
    cases ctx <;> simp [counterStrategy, roundRobinStrategy, counterTarget]
  returns {st _} _ := Subrelation.accessible (fun h => counterResumes_lt h)
    (InvImage.accessible counterResumes (Nat.lt_wfRel.wf.apply (counterResumes st.round.world)))
  restores _ _ := rfl

/-- Two threads before their first round. -/
def twoCounters : Stage Nat Bool Unit Nat Unit Unit (PickState Nat Bool Unit Unit Unit) where
  round := ⟨⟨0, [[], []], none⟩, 0, ∅, [none, none], (), ()⟩
  policy := ⟨[⟨"Add", fun _ _ g => (((), true, none), g)⟩], (), 0⟩

theorem twoCounters_fresh : Fresh counterStrategy twoCounters := ⟨rfl, by simp [twoCounters], rfl, rfl⟩

/-- A round of two tasks that ends when `maxTasks` of them have returned, and its replay. -/
def replayOf (maxTasks : Nat) : Except Halt (
    Stage Nat Bool Unit Nat Unit Unit (PickState Nat Bool Unit Unit Unit) × BothHistories Nat ×
    Stage Nat Bool Unit Nat Unit Unit (PickState Nat Bool Unit Unit Unit) × BothHistories Nat) := do
  let (h, st) ← counterStrategy.generate 10 maxTasks twoCounters
  let (h', st') ← counterStrategy.replay 10 (getTasksOrdering st.round.world h.full ∅) st
  return (st, h, st', h')

/-- A replay of such a round, with what is computed from it. -/
theorem replayOf_ok {B : Type} {f : Stage Nat Bool Unit Nat Unit Unit (PickState Nat Bool Unit Unit Unit) ×
    BothHistories Nat × Stage Nat Bool Unit Nat Unit Unit (PickState Nat Bool Unit Unit Unit) × BothHistories Nat → B}
    {b : B} (maxTasks : Nat) (hrun : (replayOf maxTasks).toOption.map f = some b) : ∃ st h st' h', f (st, h, st', h') = b ∧
      Session counterStrategy st [h] ∧
      counterStrategy.replay 10 (getTasksOrdering st.round.world h.full ∅) st = .ok (h', st') := by
  obtain ⟨⟨st, h, st', h'⟩, hok, hf⟩ := ok_of_toOption hrun
  obtain ⟨⟨h₁, st₁⟩, hgen, hok⟩ := bind_eq_ok.1 hok
  obtain ⟨⟨h₂, st₂⟩, hreplay, hok⟩ := bind_eq_ok.1 hok
  cases hok
  exact ⟨st, h, st', h', hf, (Session.new twoCounters_fresh).generate (by simp [twoCounters]) hgen, hreplay⟩

/-- When both tasks have returned in the round, its replay completes both. -/
theorem replay_completes_iff_twoCounters : ∃ st h st' h', Session counterStrategy st [h] ∧
    counterStrategy.replay 10 [0, 1, 0, 1] st = .ok (h', st') ∧ ∃ st₀, counterStrategy.resetCurrentRound 10 st = .ok st₀ ∧
      (Completes st'.round.world [0, 1, 0, 1] h'.seq ↔ ListedEnough counterTarget st₀.round [0, 1, 0, 1]) := by
  obtain ⟨st, h, st', h', hf, hsession, hreplay⟩ := replayOf_ok 2
    (f := fun (st, h, _, _) => (getTasksOrdering st.round.world h.full ∅, decide (st.round.removedTasks = ∅),
      (st.round.world.task (0, 0)).map Coro.id, (st.round.world.task (1, 0)).map Coro.id))
    (b := ([0, 1, 0, 1], true, some 0, some 1)) (by decide +kernel)
  simp only [Prod.mk.injEq, decide_eq_true_eq] at hf
  rw [hf.1] at hreplay
  refine ⟨st, h, st', h', hsession, hreplay, replay_completes_iff hsession (fun id hid => ?_) hreplay⟩
  rw [hf.2.1]
  refine ⟨Finset.notMem_empty id, ?_⟩
  simp only [List.mem_cons, List.not_mem_nil, or_false] at hid
  rcases hid with rfl | rfl | rfl | rfl
  · exact ⟨_, hf.2.2.1⟩
  · exact ⟨_, hf.2.2.2⟩
  · exact ⟨_, hf.2.2.1⟩
  · exact ⟨_, hf.2.2.2⟩

/-- **A task that was pending in a round is not completed by its replay**: it has no response. -/
theorem pending_task_not_completed : ∃ st h st' h', Session counterStrategy st [h] ∧ st.round.removedTasks = ∅ ∧
    counterStrategy.replay 10 [0, 1, 0] st = .ok (h', st') ∧ ¬Completes st'.round.world [0, 1, 0] h'.seq := by
  obtain ⟨st, h, st', h', hf, hsession, hreplay⟩ := replayOf_ok 1
    (f := fun (st, h, st', h') => (getTasksOrdering st.round.world h.full ∅, decide (st.round.removedTasks = ∅),
      (st'.round.world.task (1, 0)).map Coro.id, h'.seq.countP fun e => e.answered == some (1, 0)))
    (b := ([0, 1, 0], true, some 1, 0)) (by decide +kernel)
  simp only [Prod.mk.injEq, decide_eq_true_eq] at hf
  rw [hf.1] at hreplay
  refine ⟨st, h, st', h', hsession, hf.2.1, hreplay, fun hcomplete => ?_⟩
  obtain ⟨c, hc, hid⟩ := Option.map_eq_some_iff.1 hf.2.2.1
  have hone := hcomplete.answered (1, 0) c hc (by simp [hid])
  rw [hf.2.2.2] at hone
  cases hone

/-- A round of two tasks, and an exploration of it without the first one. -/
def exploredRound : Except Halt (
    Stage Nat Bool Unit Nat Unit Unit (PickState Nat Bool Unit Unit Unit) × BothHistories Nat ×
    Stage Nat Bool Unit Nat Unit Unit (PickState Nat Bool Unit Unit Unit)) := do
  let (h, st₁) ← counterStrategy.generate 10 2 twoCounters
  let (_, st₂) ← counterStrategy.explore 10 (st₁.setTaskRemoved 0 true)
  return (st₁, h, st₂.setTaskRemoved 0 false)

/-- Such a round replays the way it was generated. -/
theorem replay_faithful_exploredRound : ∃ st₁ h st, Produced counterStrategy st₁ h ∧ Further counterStrategy st₁ st ∧
    h.full = [(0, 0), (1, 0), (0, 0), (1, 0)] ∧ ∃ enough, ∀ fuel, enough ≤ fuel → ∃ h' st',
      counterStrategy.replay fuel (getTasksOrdering st.round.world h.full ∅) st = .ok (h', st') ∧ h'.seq = h.seq ∧
      getTasksOrdering st'.round.world h'.full ∅ = getTasksOrdering st.round.world h.full ∅ := by
  obtain ⟨⟨st₁, h, st⟩, hok, hf⟩ := ok_of_toOption (x := exploredRound)
    (f := fun (_, h, st) => (h.full, decide (st.round.removedTasks = ∅)))
    (b := ([(0, 0), (1, 0), (0, 0), (1, 0)], true)) (by decide +kernel)
  obtain ⟨⟨h₁, st₂⟩, hgen, hok⟩ := bind_eq_ok.1 hok
  obtain ⟨⟨h₂, st₃⟩, hexplore, hok⟩ := bind_eq_ok.1 hok
  cases hok
  simp only [Prod.mk.injEq, decide_eq_true_eq] at hf
  have hproduced := Produced.generate (.new twoCounters_fresh) (by simp [twoCounters]) hgen
  have hfurther := ((Further.refl.setTaskRemoved 0 true).explore hexplore).setTaskRemoved 0 false
  refine ⟨_, _, _, hproduced, hfurther, hf.1, replay_faithful counterStrategy_replayable hproduced hfurther ?_⟩
  intro slot _ c _
  rw [hf.2]
  exact Finset.notMem_empty c.id

end Counter

end Ltest
