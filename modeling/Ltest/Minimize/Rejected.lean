import Ltest.Strategy.Replay

/-!
# Rejected histories

The minimizers work on a round that the checker has rejected. The references of a history keep pointing at the tasks of
the round while attempts that fail restart and run them, so what the checker finds through a reference changes. What does
not change is what the checker finds when the history is replayed (`checkedHistory`): a history is `Rejected` when the
checker rejects that.
-/

namespace Ltest

open Program

variable {σ κ α ν ς ρ π : Type}

/-- The tasks that a history invokes, in this order. -/
def invokedTasks (history : List (HistoryEvent Slot ν)) : List Slot := history.filterMap HistoryEvent.invoked

section Histories

variable [Inhabited ν] {T : Target σ κ ν} {checker : ModelChecker α ν} {w w' : World σ κ α ν} {h h' : BothHistories ν}

/-- The history as the checker finds it after a run of its tasks from the beginning. -/
def checkedHistory (T : Target σ κ ν) (w : World σ κ α ν) (h : BothHistories ν) :
    List (HistoryEvent (Slot × Option (TaskView α ν)) ν) :=
  h.seq.map (·.mapTask fun slot => (slot, ((Pool.run (machine T) (basePool T w) h.full).proc slot).map Coro.view))

/-- The checker rejects the history when it is replayed. -/
structure Rejected (T : Target σ κ ν) (checker : ModelChecker α ν) (w : World σ κ α ν) (h : BothHistories ν) : Prop
    extends Recorded T w h where
  rejected : checker (checkedHistory T w h) = false

theorem Rejected.alike (hr : Rejected T checker w h) (ha : Alike w w') : Rejected T checker w' h := by
  refine ⟨hr.toRecorded.alike ha, ?_⟩
  unfold checkedHistory
  rw [basePool_alike ha]
  exact hr.rejected

/-- The tasks that a recorded history invokes are those it resumes. -/
theorem Recorded.mem_invokedTasks (hr : Recorded T w h) {slot : Slot} : slot ∈ invokedTasks h.seq ↔ slot ∈ h.full := by
  have hcount : (seqOf T (basePool T w) h.full).countP (fun e => e.invoked == some slot) = _ := countP_invoked
  rw [← hr.seq, Pool.count_start] at hcount
  unfold invokedTasks
  rw [List.mem_filterMap]
  constructor
  · rintro ⟨e, he, hinvoked⟩
    by_contra hs
    rw [if_neg hs, List.countP_eq_zero] at hcount
    exact hcount e he (by simp [hinvoked])
  · intro hs
    rw [if_pos hs] at hcount
    obtain ⟨e, he, hinvoked⟩ := List.countP_pos_iff.1 (hcount ▸ Nat.one_pos)
    exact ⟨e, he, by simpa using hinvoked⟩

/-- The task of every event of a recorded history has been resumed. -/
theorem Recorded.event_mem (hr : Recorded T w h) :
    (∀ {slot th}, .invoke slot th ∈ h.seq → slot ∈ h.full) ∧ ∀ {slot r th}, .response slot r th ∈ h.seq → slot ∈ h.full ∧
      ((Pool.run (machine T) (basePool T w) h.full).proc slot).map Coro.ret = some r := by
  rw [hr.seq]
  unfold seqOf
  refine ⟨fun {slot th} hmem => ?_, fun {slot r th} hmem => ?_⟩
  · obtain ⟨e, he, hshown⟩ := List.mem_filterMap.1 hmem
    cases e with
    | start i =>
      cases hshown
      exact Pool.subject_mem h.full he
    | finish i x => cases x <;> cases hshown
  · obtain ⟨e, he, hshown⟩ := List.mem_filterMap.1 hmem
    cases e with
    | start i => cases hshown
    | finish i x =>
      cases x with
      | none => cases hshown
      | some c =>
        cases hshown
        exact ⟨Pool.subject_mem h.full he, by rw [← (Pool.finish_eq h.full he).1]; rfl⟩

/-- Right after a run the checker finds what it finds after a replay. -/
theorem Played.resolve (hp : Played T w h) : w.resolve h.seq = checkedHistory T w h := by
  obtain ⟨hinvoke, hresponse⟩ := hp.toRecorded.event_mem
  unfold World.resolve checkedHistory
  refine List.map_congr_left fun e he => ?_
  have hslot : ∀ slot ∈ h.full, (w.task slot).map Coro.view =
      ((Pool.run (machine T) (basePool T w) h.full).proc slot).map Coro.view := fun slot hs => by rw [hp.tasks slot hs]
  cases e with
  | invoke slot th => simp only [HistoryEvent.mapTask, hslot slot (hinvoke he)]
  | response slot r th => simp only [HistoryEvent.mapTask, hslot slot (hresponse he).1]

/-- Right after a run the tasks hold the results that the history has. -/
theorem Played.ret_eq (hp : Played T w h) {slot : Slot} {r : ν} {th : Nat} (he : .response slot r th ∈ h.seq) :
    (w.task slot).map Coro.ret = some r := by
  obtain ⟨hs, hret⟩ := hp.toRecorded.event_mem.2 he
  rw [hp.tasks slot hs, hret]

/-- What the checker says right after a run. -/
theorem Played.rejected_iff (hp : Played T w h) : checker (w.resolve h.seq) = false ↔ Rejected T checker w h := by
  rw [hp.resolve]
  exact ⟨fun h => ⟨hp.toRecorded, h⟩, Rejected.rejected⟩

theorem Played.verdict (hp : Played T w h) (hv : verdict checker w h = some h') : h' = h ∧ Rejected T checker w h := by
  unfold Ltest.verdict at hv
  split at hv
  · rename_i hno
    cases hv
    exact ⟨rfl, hp.rejected_iff.1 (by simpa using hno)⟩
  · cases hv

end Histories

/-! ## Rounds -/

section Rounds

variable [Inhabited ν] {S : Strategy σ κ α ν ς ρ π} {checker : ModelChecker α ν} {st st' st₀ : Stage σ κ α ν ς ρ π}
  {w : World σ κ α ν} {hs : List (BothHistories ν)} {h : BothHistories ν} {res : Option (BothHistories ν)} {fuel : Nat}

/-- The tasks that have been resumed are those that are not removed. -/
def Invokes (st : Stage σ κ α ν ς ρ π) (h : BothHistories ν) : Prop :=
  ∀ slot c, st.round.world.task slot = some c → (slot ∈ h.full ↔ c.id ∉ st.round.removedTasks)

/-- An exploration that has nothing left to do has resumed every task that is not removed. -/
theorem Exploring.invokes (he : Exploring S st₀ 0 st' h) (hr : Restarted S st w st₀) : Invokes st' h := by
  intro slot c hc
  constructor
  · intro hs
    obtain ⟨c', hc', hrem⟩ := he.kept slot hs
    cases hc.symm.trans hc'
    exact hrem
  · intro hrem
    by_contra hs
    -- a task that has not been resumed is still restarted
    have hframe := Pool.run_frame (A := machine S.target) (c := st₀.round.world.pool) h.full hs
    rw [← he.logged.world] at hframe
    have hc₀ : st₀.round.world.task slot = some c := hframe.symm.trans hc
    have hnew := hr.restarted slot c hc₀ (by rwa [← hr.removed, ← he.removed])
    have hret : c.isReturned = false := by
      rw [← hnew]
      rfl
    obtain ⟨tasks, htasks, hj⟩ := World.task_eq_some.1 hc
    have hmem : c ∈ st'.round.world.threads.flatten :=
      List.mem_flatten.2 ⟨tasks, List.mem_of_getElem? htasks, List.mem_of_getElem? hj⟩
    have hdone := List.countP_eq_zero.1 he.left c hmem
    simp [Round.unfinished, Round.isTaskRemoved, hrem, hret] at hdone

/-- **A replay** of tasks that are not removed. -/
theorem replayRound_spec (hst : Session S st hs) {ids : List Int}
    (hids : ∀ id ∈ ids, id ∉ st.round.removedTasks) (hrun : S.replayRound checker fuel ids st = .ok (res, st')) :
    ∃ h, Produced S st' h ∧ h.full = slotsOf st.round ids ∧ Alike st.round.world st'.round.world ∧
      st'.round.removedTasks = st.round.removedTasks ∧ res = verdict checker st'.round.world h := by
  obtain ⟨⟨h, st₁⟩, hreplay, hrun⟩ := bind_eq_ok.1 hrun
  cases hrun
  obtain ⟨w, st₀, _, _, hr, _, hfull, ha, hround, _⟩ := replay_run hst hreplay
  refine ⟨h, .replay hst hids hreplay, ?_, ha.trans hr.alike, ?_, rfl⟩
  · rw [hfull]
    exact List.filterMap_congr fun id _ => getTask_alike hst.ids.unique hr.alike id
  · rw [hround]
    exact hr.removed

/-- **An exploration**, with however many runs. -/
theorem exploreRound_spec (hS : Repeatable S) : ∀ (runs : Nat) {st : Stage σ κ α ν ς ρ π} {hs : List (BothHistories ν)},
    Session S st hs → S.exploreRound checker fuel runs st = .ok (res, st') → (∃ hs', Session S st' hs') ∧
      Alike st.round.world st'.round.world ∧ st'.round.removedTasks = st.round.removedTasks ∧
      ∀ h, res = some h → Rejected S.target checker st'.round.world h ∧ Invokes st' h
  | 0, st, hs, hst, hrun => by
    unfold Strategy.exploreRound at hrun
    cases hrun
    exact ⟨⟨hs, hst⟩, rfl, rfl, fun h hh => by cases hh⟩
  | runs + 1, st, hs, hst, hrun => by
    unfold Strategy.exploreRound at hrun
    obtain ⟨⟨h, st₁⟩, hexplore, hrun⟩ := bind_eq_ok.1 hrun
    obtain ⟨w, st₀, _, hr, he⟩ := exploring_of_explore hexplore
    have ha := he.alike.trans hr.alike
    have hremoved := he.removed.trans hr.removed
    dsimp only at hrun
    split at hrun
    · rename_i h₁ hv
      cases hrun
      obtain ⟨rfl, hrejected⟩ := ((Produced.explore hst hexplore).played hS).verdict hv
      refine ⟨⟨_, hst.explore hexplore⟩, ha, hremoved, fun h hh => ?_⟩
      cases hh
      exact ⟨hrejected, he.invokes hr⟩
    · obtain ⟨hsession, ha', hremoved', hres⟩ := exploreRound_spec hS runs (hst.explore hexplore) hrun
      exact ⟨hsession, ha'.trans ha, hremoved'.trans hremoved, hres⟩

end Rounds

end Ltest
