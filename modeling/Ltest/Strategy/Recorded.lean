import Ltest.Strategy.Session

/-!
# What the histories of a round record

For a target that does not block and whose state `Reset` restores, every history that was produced on the current round
is the history of resuming the tasks of its full history from the beginning (`Session.recorded`): from the initial state
of the target, with every task as it was built. What else has been done to the round before does not matter.
-/

namespace Ltest

open Program

variable {σ κ α ν ς ρ π : Type}

section Base

variable [Inhabited ν] {T : Target σ κ ν} {w w' : World σ κ α ν} {h : BothHistories ν}

/-- The tasks of a round at its beginning. -/
def basePool (T : Target σ κ ν) (w : World σ κ α ν) : Pool.Conf σ (Option (Coro κ α ν)) Slot :=
  ⟨T.initial, fun slot => (w.task slot).map Coro.restart⟩

/-- The histories `h` are those of a run of the tasks of `w` from the beginning. -/
structure Recorded (T : Target σ κ ν) (w : World σ κ α ν) (h : BothHistories ν) : Prop where
  there : ∀ slot ∈ h.full, (w.task slot).isSome
  seq : h.seq = seqOf T (basePool T w) h.full

theorem basePool_alike (ha : Alike w w') : basePool T w' = basePool T w := by
  unfold basePool
  congr 1
  funext slot
  exact task_map ha slot

theorem Recorded.alike (hr : Recorded T w h) (ha : Alike w w') : Recorded T w' h :=
  ⟨fun slot hs => (ha.isSome slot).trans (hr.there slot hs), by rw [basePool_alike ha]; exact hr.seq⟩

omit [Inhabited ν] in
/-- A log is one of every pool with the same tasks and of every world that agrees on them. -/
theorem Logged.of_agree {c c' : Pool.Conf σ (Option (Coro κ α ν)) Slot} (hl : Logged T c w h)
    (hc : Pool.Agree (fun slot => slot ∈ h.full) c c') (hmem : w'.memory = w.memory)
    (htask : ∀ slot, w'.task slot = if slot ∈ h.full then w.task slot else c'.proc slot) : Logged T c' w' h := by
  have hrun := Pool.run_agree (A := machine T) hc h.full fun _ hs => hs
  refine ⟨?_, ?_⟩
  · have hmemory : w'.pool.memory = (Pool.run (machine T) c' h.full).memory := by
      rw [← hrun.memory, ← hl.world]
      exact hmem
    have hproc : w'.pool.proc = (Pool.run (machine T) c' h.full).proc := by
      funext slot
      show w'.task slot = _
      rw [htask]
      split
      · rename_i hs
        rw [← hrun.proc slot hs, ← hl.world]
        rfl
      · rename_i hs
        rw [Pool.run_frame h.full hs]
    calc w'.pool = ⟨w'.pool.memory, w'.pool.proc⟩ := rfl
      _ = Pool.run (machine T) c' h.full := by rw [hmemory, hproc]
  · rw [hl.seq, seqOf, seqOf, Pool.events_agree hc h.full fun _ hs => hs]

end Base

/-! ## Generating a round -/

section Generate

variable [Inhabited ν] {S : Strategy σ κ α ν ς ρ π} {st st' : Stage σ κ α ν ς ρ π} {h : BothHistories ν}

/-- What holds while a round is generated: every task is in the full history, and the histories are those of a run from
the beginning. -/
structure Generating (S : Strategy σ κ α ν ς ρ π) (st : Stage σ κ α ν ς ρ π) (h : BothHistories ν) : Prop where
  calm : Calm st.round.world
  size : st.round.roundSchedule.length = st.round.world.threads.length
  logged : Logged S.target (basePool S.target st.round.world) st.round.world h
  full : ∀ slot, slot ∈ h.full ↔ (st.round.world.task slot).isSome

/-- The task that `Next` has chosen is resumed. -/
theorem Generating.next {t : Picked} {st₁ : Stage σ κ α ν ς ρ π} {w : World σ κ α ν} {task : Coro κ α ν}
    (hT : NonBlocking S.target) (hg : Generating S st h) (hnext : S.next st = .ok (t, st₁))
    (hresume : st₁.round.world.resume S.target t.slot = .ok w) (htask : w.task t.slot = some task) :
    Generating S (st₁.withWorld w) ((h.push t).respond t task) := by
  obtain ⟨w₀, _, hsame, hthread, _, hschedule, hchosen⟩ := chosen_of_next hnext
  obtain rfl := hsame hg.calm
  have hfull : ((h.push t).respond t task).full = h.full ++ [t.slot] := by
    unfold BothHistories.respond
    split <;> rfl
  have ha := alike_resume hresume
  -- it is enough to look at the round before the resume
  suffices hsuff : Calm st₁.round.world ∧ st₁.round.world.threads.length = st.round.world.threads.length ∧
      Logged S.target (basePool S.target st₁.round.world) st₁.round.world h ∧ t.isNew = decide (t.slot ∉ h.full) ∧
      ∀ slot, slot ∈ h.full ++ [t.slot] ↔ (st₁.round.world.task slot).isSome by
    obtain ⟨hcalm, hlen, hlogged, hnew, hslots⟩ := hsuff
    refine ⟨hcalm.resume hT hresume, ?_, ?_, fun slot => ?_⟩
    · have hlenw : w.threads.length = st₁.round.world.threads.length := by simpa using congrArg List.length ha
      show st₁.round.roundSchedule.length = w.threads.length
      rw [hschedule, hg.size, hlenw, hlen]
    · show Logged S.target (basePool S.target w) w _
      rw [basePool_alike ha]
      exact hlogged.resume hnew hthread hresume htask
    · rw [hfull, hslots slot]
      exact (iff_of_eq (congrArg (· = true) (ha.isSome slot))).symm
  cases hchosen with
  | last before c hthr hr hslot hnew hworld hid =>
    have hc : st.round.world.task t.slot = some c :=
      World.task_eq_some.2 ⟨_, hthr, by rw [hslot]; simp⟩
    have hmem : t.slot ∈ h.full := (hg.full t.slot).2 (by rw [hc]; rfl)
    rw [hworld]
    refine ⟨hg.calm, rfl, hg.logged, by simp [hnew, hmem], fun slot => ?_⟩
    rw [← hg.full slot]
    simp only [List.mem_append, List.mem_singleton, or_iff_left_iff_imp]
    rintro rfl
    exact hmem
  | new tasks c hthr hslot hnew hbuilt htaskid hworld hid =>
    have hpush : ∀ slot, st₁.round.world.task slot = if slot = t.slot then some c else st.round.world.task slot := by
      intro slot
      rw [hworld, task_pushTask hthr, ← hslot]
    have hnone : st.round.world.task t.slot = none := by
      unfold World.task
      rw [hthr, Option.bind_some, hslot]
      simp
    have hmem : t.slot ∉ h.full := fun hs => by
      have := (hg.full t.slot).1 hs
      rw [hnone] at this
      cases this
    refine ⟨fun slot d hd => ?_, ?_, ?_, by simp [hnew, hmem], fun slot => ?_⟩
    · rw [hpush] at hd
      split at hd
      · cases hd
        rw [← hbuilt]
        rfl
      · exact hg.calm slot d hd
    · rw [hworld]
      simp [World.pushTask]
    · refine hg.logged.of_agree ⟨rfl, fun slot hs => ?_⟩ ?_ fun slot => ?_
      · have hne : slot ≠ t.slot := fun heq => hmem (heq ▸ hs)
        simp only [basePool, hpush, if_neg hne]
      · rw [hworld]
        rfl
      · simp only [basePool, hpush]
        by_cases hs : slot ∈ h.full
        · have hne : slot ≠ t.slot := fun heq => hmem (heq ▸ hs)
          rw [if_pos hs, if_neg hne]
        · rw [if_neg hs]
          split
          · rw [Option.map_some, hbuilt]
          · have hnone' : st.round.world.task slot = none := by
              have := mt (hg.full slot).2 hs
              simpa using this
            rw [hnone']
            rfl
    · rw [hpush, List.mem_append, List.mem_singleton, hg.full slot]
      split
      · rename_i heq
        simp [heq]
      · rename_i hne
        simp [hne]

/-- **A generated round.** -/
theorem generating_of_generate {fuel maxTasks : Nat} (hT : NonBlocking S.target)
    (hempty : ∀ tasks ∈ st.round.world.threads, tasks = []) (hmem : st.round.world.memory = S.target.initial)
    (hsize : st.round.roundSchedule.length = st.round.world.threads.length)
    (hrun : S.generate fuel maxTasks st = .ok (h, st')) : Generating S st' h := by
  have hnone : ∀ slot, st.round.world.task slot = none := by
    intro slot
    unfold World.task
    cases hi : st.round.world.threads[slot.1]? with
    | none => rfl
    | some tasks => simp [hempty tasks (List.mem_of_getElem? hi)]
  have hstart : Generating S st ⟨[], []⟩ := by
    refine ⟨fun slot c hc => ?_, hsize, ⟨?_, rfl⟩, fun slot => ?_⟩
    · rw [hnone] at hc
      cases hc
    · simp only [World.pool, basePool, hmem, Pool.run_nil]
      congr 1
      funext slot
      rw [hnone]
      rfl
    · simp [hnone]
  refine playTasks_rule (I := fun _ st h => Generating S st h) (fun left st h t st₁ task w hg hnext hresume htask => ?_)
    fuel maxTasks hstart hrun
  have hnext := hg.next hT hnext hresume htask
  split
  · exact ⟨hnext.calm, hnext.size, hnext.logged, hnext.full⟩
  · exact hnext

end Generate

/-! ## Exploring a round -/

section Explore

variable [Inhabited ν] {S : Strategy σ κ α ν ς ρ π} {st₀ st st' : Stage σ κ α ν ς ρ π} {h : BothHistories ν} {left : Nat}

/-- A task that is to be run to its end: it is not removed and has not returned. -/
def Round.unfinished (r : Round σ κ α ν ς ρ) (c : Coro κ α ν) : Bool := !r.isTaskRemoved c.id && !c.isReturned

/-- What holds while a round is explored that was `st₀` after its reset. -/
structure Exploring (S : Strategy σ κ α ν ς ρ π) (st₀ : Stage σ κ α ν ς ρ π) (left : Nat) (st : Stage σ κ α ν ς ρ π)
    (h : BothHistories ν) : Prop where
  alike : Alike st₀.round.world st.round.world
  calm : NonBlocking S.target → Calm st₀.round.world → Calm st.round.world
  removed : st.round.removedTasks = st₀.round.removedTasks
  size : st.round.roundSchedule.length = st.round.world.threads.length
  logged : Logged S.target st₀.round.world.pool st.round.world h
  kept : ∀ slot ∈ h.full, ∃ c, st.round.world.task slot = some c ∧ c.id ∉ st.round.removedTasks
  current : ∀ i k, st.round.roundSchedule[i]?.join = some k → (i, k) ∈ h.full
  reached : ∀ slot ∈ h.full, ∃ k, st.round.roundSchedule[slot.1]?.join = some k ∧ slot.2 ≤ k
  /-- The tasks of a thread before the current one have returned, unless they are removed. -/
  passed : ∀ i k j c, st.round.roundSchedule[i]?.join = some k → j < k → st.round.world.task (i, j) = some c →
    c.id ∉ st.round.removedTasks → c.isReturned = true
  left : st.round.world.threads.flatten.countP st.round.unfinished = left

omit [Inhabited ν] in
/-- **The task that `NextSchedule` chooses** is the first unfinished one of its thread from the current one on. -/
theorem next_unfinished {r : Round σ κ α ν ς ρ} {i : Nat}
    (hlt : r.getNextTaskInThread i < (r.world.threads[i]?.getD []).length) :
    ∃ c, r.world.task (i, r.getNextTaskInThread i) = some c ∧ r.unfinished c = true ∧
      (r.roundSchedule[i]?.join).getD 0 ≤ r.getNextTaskInThread i ∧
      ∀ j d, (r.roundSchedule[i]?.join).getD 0 ≤ j → j < r.getNextTaskInThread i → r.world.task (i, j) = some d →
        r.unfinished d = false := by
  obtain ⟨tasks, htasks⟩ : ∃ tasks, tasks = r.world.threads[i]?.getD [] := ⟨_, rfl⟩
  obtain ⟨k, hk⟩ : ∃ k, k = (r.roundSchedule[i]?.join).getD 0 := ⟨_, rfl⟩
  obtain ⟨n, hn⟩ : ∃ n, n = ((tasks.drop k).takeWhile fun c => c.isReturned || r.isTaskRemoved c.id).length := ⟨_, rfl⟩
  have hnext : r.getNextTaskInThread i = k + n := by
    unfold Round.getNextTaskInThread
    dsimp only
    rw [← htasks, ← hk, ← hn]
  have hlookup : ∀ j, r.world.task (i, j) = tasks[j]? := by
    intro j
    rw [htasks]
    unfold World.task
    cases r.world.threads[i]? <;> simp
  rw [hnext, ← htasks] at hlt
  rw [hnext, ← hk]
  have hunfinished : ∀ d : Coro κ α ν, r.unfinished d = !(d.isReturned || r.isTaskRemoved d.id) := by
    intro d
    unfold Round.unfinished
    cases d.isReturned <;> cases r.isTaskRemoved d.id <;> rfl
  refine ⟨tasks[k + n], by rw [hlookup, List.getElem?_eq_getElem hlt], ?_, Nat.le_add_right k n, fun j d hle hj hd => ?_⟩
  · rw [hunfinished, not_skipped (l := tasks.drop k) (p := fun c => c.isReturned || r.isTaskRemoved c.id)
      (by rw [← hn, List.getElem?_drop, List.getElem?_eq_getElem hlt])]
    rfl
  · rw [hlookup] at hd
    rw [hunfinished, skipped (l := tasks.drop k) (j := j - k) (p := fun c => c.isReturned || r.isTaskRemoved c.id)
      (by omega) (by rw [List.getElem?_drop, Nat.add_sub_cancel' hle, hd])]
    rfl

omit [Inhabited ν] in
/-- **What `NextSchedule` chooses**: the first task of a thread, from the current one on, that is unfinished. -/
theorem unfinished_of_nextSchedule {t : Picked} {st₁ : Stage σ κ α ν ς ρ π} (hnext : S.nextSchedule st = .ok (t, st₁)) :
    t.threadId = t.slot.1 ∧ t.isNew = (st.round.roundSchedule[t.slot.1]?.join != some t.slot.2) ∧
      st₁.round = { st.round with roundSchedule := st.round.roundSchedule.set t.slot.1 (some t.slot.2) } ∧
      ∃ c, st.round.world.task t.slot = some c ∧ (c.id ∉ st.round.removedTasks ∧ c.isReturned = false) ∧
        (st.round.roundSchedule[t.slot.1]?.join).getD 0 ≤ t.slot.2 ∧
        ∀ j d, (st.round.roundSchedule[t.slot.1]?.join).getD 0 ≤ j → j < t.slot.2 →
          st.round.world.task (t.slot.1, j) = some d → d.id ∉ st.round.removedTasks → d.isReturned = true := by
  obtain ⟨hslot, hlt, hnew, hround⟩ := nextSchedule_eq_ok hnext
  obtain ⟨⟨i, j⟩, isNew, i'⟩ := t
  simp only [Prod.mk.injEq] at hslot
  obtain ⟨rfl, hj⟩ := hslot
  dsimp only at hlt hnew hround ⊢
  rw [hj] at hlt
  obtain ⟨c, hc, hunfinished, hge, hbetween⟩ := next_unfinished hlt
  rw [← hj] at hc hge hbetween
  refine ⟨rfl, hnew, hround, c, hc, by simpa [Round.unfinished, Round.isTaskRemoved] using hunfinished, hge,
    fun k d hk hlt hd hrem => ?_⟩
  have hdone := hbetween k d hk hlt hd
  simpa [Round.unfinished, Round.isTaskRemoved, hrem] using hdone

/-- The task that `NextSchedule` has chosen is resumed. -/
theorem Exploring.next {t : Picked} {st₁ : Stage σ κ α ν ς ρ π} {w : World σ κ α ν} {task : Coro κ α ν}
    (he : Exploring S st₀ (left + 1) st h) (hnext : S.nextSchedule st = .ok (t, st₁))
    (hresume : st₁.round.world.resume S.target t.slot = .ok w) (htask : w.task t.slot = some task) :
    Exploring S st₀ (if task.isReturned then left else left + 1) (st₁.withWorld w) ((h.push t).respond t task) := by
  have hfull : ((h.push t).respond t task).full = h.full ++ [t.slot] := by
    unfold BothHistories.respond
    split <;> rfl
  obtain ⟨hthread, hnew, hround, c, hc, ⟨hrem, hr⟩, hge, hbetween⟩ := unfinished_of_nextSchedule hnext
  obtain ⟨⟨i, j⟩, isNew, i'⟩ := t
  dsimp only at hthread hnew hround hc hge hbetween hresume htask hfull
  obtain rfl := hthread.symm
  have hunfinished : st.round.unfinished c = true := by simp [Round.unfinished, Round.isTaskRemoved, hrem, hr]
  rw [hround] at hresume
  have ha := alike_resume hresume
  have hseen : isNew = decide ((i, j) ∉ h.full) := by
    rw [hnew]
    by_cases hmem : (i, j) ∈ h.full
    · obtain ⟨k, hk, hle⟩ := he.reached (i, j) hmem
      rw [hk, Option.getD_some] at hge
      have hkj : k = j := Nat.le_antisymm hge hle
      simp [hmem, hk, hkj]
    · have hk : st.round.roundSchedule[i]?.join ≠ some j := fun hk => hmem (he.current i j hk)
      simp [hmem, hk]
  have hi : i < st.round.roundSchedule.length := by
    obtain ⟨tasks, htasks, _⟩ := World.task_eq_some.1 hc
    rw [he.size]
    exact (List.getElem?_eq_some_iff.1 htasks).1
  have hset : ∀ i', ((st.round.roundSchedule.set i (some j))[i']?).join =
      if i = i' then some j else st.round.roundSchedule[i']?.join := by
    intro i'
    split
    · rename_i heq
      subst heq
      simp [hi]
    · rename_i hne
      rw [List.getElem?_set_ne hne]
  obtain ⟨c', hc', _, hw⟩ := World.resume_eq_ok.1 hresume
  cases hc.symm.trans hc'
  have hsched : (st₁.withWorld w).round.roundSchedule = st.round.roundSchedule.set i (some j) := by
    rw [Stage.withWorld, hround]
  have hremoved : (st₁.withWorld w).round.removedTasks = st.round.removedTasks := by
    rw [Stage.withWorld, hround]
  -- every task but the one that is resumed stays as it is
  have hother : ∀ slot, slot ≠ (i, j) → w.task slot = st.round.world.task slot := by
    intro slot hne
    rw [hw]
    exact World.task_setTask_of_ne hne
  have htask' : task = (c.resume S.target st.round.world.memory).1 := by
    have hself := World.task_setTask (d := (c.resume S.target st.round.world.memory).1) hc
    rw [hw] at htask
    exact (Option.some.inj (hself.symm.trans htask)).symm
  have hid : task.id = c.id := by
    have := ha.map_id (i, j)
    rw [htask, hc] at this
    exact Option.some.inj this
  refine ⟨ha.trans he.alike, fun hT hcalm => ?_, hremoved.trans he.removed, ?_, ?_, ?_, ?_, ?_, ?_, ?_⟩
  · exact (he.calm hT hcalm).resume hT hresume
  · rw [hsched, List.length_set, he.size]
    simpa [Stage.withWorld] using (congrArg List.length ha).symm
  · exact he.logged.resume hseen rfl hresume htask
  · intro slot hs
    rw [hremoved]
    show ∃ d, w.task slot = some d ∧ _
    rw [hfull, List.mem_append, List.mem_singleton] at hs
    by_cases hslot : slot = (i, j)
    · subst hslot
      exact ⟨task, htask, by rw [hid]; exact hrem⟩
    · rw [hother slot hslot]
      exact he.kept slot (hs.resolve_right hslot)
  · intro i' k hk
    rw [hsched, hset] at hk
    rw [hfull, List.mem_append, List.mem_singleton]
    split at hk
    · rename_i heq
      cases hk
      exact .inr (by rw [heq])
    · exact .inl (he.current i' k hk)
  · intro slot hs
    rw [hsched, hset]
    rw [hfull, List.mem_append, List.mem_singleton] at hs
    split
    · rename_i heq
      refine ⟨j, rfl, ?_⟩
      rcases hs with hs | rfl
      · obtain ⟨k, hk, hle⟩ := he.reached slot hs
        rw [← heq] at hk
        rw [hk, Option.getD_some] at hge
        exact hle.trans hge
      · exact Nat.le_refl j
    · rename_i hne
      rcases hs with hs | rfl
      · exact he.reached slot hs
      · exact absurd rfl hne
  · intro i' k j' d hk hlt' hd hdrem
    rw [hsched, hset] at hk
    rw [hremoved] at hdrem
    change w.task (i', j') = some d at hd
    split at hk
    · rename_i heq
      subst heq
      cases hk
      rw [hother _ (by simp; omega)] at hd
      by_cases hbefore : j' < (st.round.roundSchedule[i]?.join).getD 0
      · cases hcur : st.round.roundSchedule[i]?.join with
        | none => simp [hcur] at hbefore
        | some k₀ =>
          rw [hcur, Option.getD_some] at hbefore
          exact he.passed i k₀ j' d hcur hbefore hd hdrem
      · exact hbetween j' d (Nat.not_lt.1 hbefore) hlt' hd hdrem
    · rename_i hne
      rw [hother _ (by simp; omega)] at hd
      exact he.passed i' k j' d hk hlt' hd hdrem
  · have hcount := countP_setTask (d := task) st.round.unfinished hc
    rw [he.left, if_pos hunfinished] at hcount
    have hunf : (st₁.withWorld w).round.unfinished = st.round.unfinished := by
      funext d
      simp [Round.unfinished, Round.isTaskRemoved, hremoved]
    have hthreads : (st₁.withWorld w).round.world.threads = (st.round.world.setTask (i, j) task).threads := by
      rw [htask', Stage.withWorld, hw]
    rw [hunf, hthreads]
    have htaskunf : st.round.unfinished task = !task.isReturned := by
      simp [Round.unfinished, Round.isTaskRemoved, hid, hrem]
    rw [htaskunf] at hcount
    cases hret : task.isReturned with
    | true =>
      simp only [hret, Bool.not_true, Bool.false_eq_true, ↓reduceIte, Nat.add_zero] at hcount ⊢
      omega
    | false =>
      simp only [hret, Bool.not_false, Bool.false_eq_true, ↓reduceIte] at hcount ⊢
      omega

/-- At the beginning of a run of `ExploreRound`. -/
theorem Restarted.exploring {w : World σ κ α ν} (hr : Restarted S st w st₀) :
    Exploring S st₀ st₀.round.getValidTasksCount st₀ ⟨[], []⟩ := by
  have hnone : ∀ i : Nat, st₀.round.roundSchedule[i]?.join = none := by
    intro i
    rw [hr.schedule, List.getElem?_replicate]
    split <;> rfl
  refine ⟨rfl, fun _ hcalm => hcalm, rfl, by simp [hr.schedule], .empty S.target st₀.round.world, by simp, ?_, by simp, ?_, ?_⟩
  · intro i k hk
    rw [hnone] at hk
    cases hk
  · intro i k j c hk
    rw [hnone] at hk
    cases hk
  · -- the tasks that are not removed have been restarted
    unfold Round.getValidTasksCount
    refine List.countP_congr fun c hc => ?_
    obtain ⟨tasks, htasks, hmem⟩ := List.mem_flatten.1 hc
    obtain ⟨i, hi⟩ := List.getElem?_of_mem htasks
    obtain ⟨j, hj⟩ := List.getElem?_of_mem hmem
    unfold Round.unfinished Round.isTaskRemoved
    by_cases hrem : c.id ∈ st₀.round.removedTasks
    · simp [hrem]
    · have hnew := hr.restarted (i, j) c (World.task_eq_some.2 ⟨tasks, hi, hj⟩) (hr.removed ▸ hrem)
      have hret : c.isReturned = false := by
        rw [← hnew]
        rfl
      simp [hrem, hret]

/-- **An explored round.** -/
theorem exploring_of_explore {fuel : Nat} (hrun : S.explore fuel st = .ok (h, st')) : ∃ w st₀,
    st.passes S fuel = .ok w ∧ Restarted S st w st₀ ∧ Exploring S st₀ 0 st' h := by
  obtain ⟨st₀, hreset, hrun⟩ := explore_eq_ok.1 hrun
  obtain ⟨w, hpasses, hr⟩ := restarted_of_reset hreset
  refine ⟨w, st₀, hpasses, hr, playTasks_rule (I := Exploring S st₀) (fun left st h t st₁ task w he hnext hresume htask => ?_)
    fuel _ hr.exploring hrun⟩
  have hnext := he.next hnext hresume htask
  split
  · rename_i hret
    rwa [if_pos hret] at hnext
  · rename_i hret
    rwa [if_neg hret] at hnext

end Explore

/-! ## Replaying a round -/

section Replayed

variable [Inhabited ν] {S : Strategy σ κ α ν ς ρ π} {st st' : Stage σ κ α ν ς ρ π} {hs : List (BothHistories ν)}
  {fuel : Nat} {ids : List Int} {h : BothHistories ν}

/-- **A replayed round.** -/
theorem replay_run (hst : Session S st hs) (hreplay : S.replay fuel ids st = .ok (h, st')) : ∃ w st₀,
    st.passes S fuel = .ok w ∧ S.resetCurrentRound fuel st = .ok st₀ ∧ Restarted S st w st₀ ∧
      Logged S.target st₀.round.world.pool st'.round.world h ∧ h.full = slotsOf st₀.round ids ∧
      Alike st₀.round.world st'.round.world ∧ st'.round = { st₀.round with world := st'.round.world } ∧
      (NonBlocking S.target → Calm st₀.round.world → Calm st'.round.world) := by
  obtain ⟨st₀, r, hreset, hloop, rfl⟩ := replay_eq_ok.1 hreplay
  obtain ⟨w, hpasses, hrestarted⟩ := restarted_of_reset hreset
  have hu := hst.ids.unique.alike hrestarted.alike
  obtain ⟨_, _, hids⟩ := replayTasks_alike ids hloop
  obtain ⟨h', w', hrun, hlogged, hfull, ha⟩ := replayTasks_run ids (fun id => ids.count id) ∅ st₀.round ⟨[], []⟩ hu
    (.empty S.target st₀.round.world) (fun _ => Nat.le_refl _) (by simp) (hids hu)
  cases hrun.symm.trans hloop
  refine ⟨w, st₀, hpasses, hreset, hrestarted, hlogged, by simpa using hfull, ha, rfl, fun hT hcalm => ?_⟩
  exact (replayTasks_rule (fun _ _ _ hc hw => hc.resume hT hw) ids hcalm hloop).1

omit [Inhabited ν] in
/-- The listed slots are those of the listed ids. -/
theorem mem_slotsOf {r : Round σ κ α ν ς ρ} (hu : UniqueIds r.world) {slot : Slot} {c : Coro κ α ν}
    (hc : r.world.task slot = some c) : slot ∈ slotsOf r ids ↔ c.id ∈ ids := by
  have hid : (r.world.task slot).map Coro.id = some c.id := by rw [hc]; rfl
  unfold slotsOf
  rw [List.mem_filterMap]
  constructor
  · rintro ⟨id, hid', hslot⟩
    have := (getTask_eq_some hu).1 hslot
    rw [hid] at this
    cases this
    exact hid'
  · exact fun h => ⟨c.id, h, (getTask_eq_some hu).2 hid⟩

omit [Inhabited ν] in
theorem isSome_of_mem_slotsOf {r : Round σ κ α ν ς ρ} (hu : UniqueIds r.world) {slot : Slot}
    (hs : slot ∈ slotsOf r ids) : (r.world.task slot).isSome := by
  obtain ⟨id, _, hslot⟩ := List.mem_filterMap.1 hs
  have := (getTask_eq_some hu).1 hslot
  rw [← Option.isSome_map (f := Coro.id), this]
  rfl

end Replayed

/-! ## The histories of a session -/

section Sessions

variable [Inhabited ν] {S : Strategy σ κ α ν ς ρ π} {st st' st₀ : Stage σ κ α ν ς ρ π} {w : World σ κ α ν}
  {hs : List (BothHistories ν)} {h : BothHistories ν}

/-- The tasks of the histories `h` are in the state that a run from the beginning leaves them in. -/
structure Played (T : Target σ κ ν) (w : World σ κ α ν) (h : BothHistories ν) : Prop extends Recorded T w h where
  tasks : ∀ slot ∈ h.full, w.task slot = (Pool.run (machine T) (basePool T w) h.full).proc slot

theorem Generating.played (hg : Generating S st h) : Played S.target st.round.world h where
  there slot hs := (hg.full slot).1 hs
  seq := hg.logged.seq
  tasks slot _ := congrFun (congrArg Pool.Conf.proc hg.logged.world) slot

/-- What is run after a reset is a run from the beginning, if it leaves the removed tasks alone. -/
theorem Restarted.played (hr : Restarted S st w st₀) (hreset : S.target.reset w.memory = S.target.initial)
    (hl : Logged S.target st₀.round.world.pool st'.round.world h) (ha : Alike st₀.round.world st'.round.world)
    (hkept : ∀ slot ∈ h.full, ∃ c, st₀.round.world.task slot = some c ∧ c.id ∉ st.round.removedTasks) :
    Played S.target st'.round.world h := by
  have hagree : Pool.Agree (fun slot => slot ∈ h.full) st₀.round.world.pool (basePool S.target st'.round.world) := by
    refine ⟨hr.memory.trans hreset, fun slot hs => ?_⟩
    obtain ⟨c, hc, hrem⟩ := hkept slot hs
    rw [basePool_alike ha]
    show st₀.round.world.task slot = (st₀.round.world.task slot).map Coro.restart
    rw [hc, Option.map_some, hr.restarted slot c hc hrem]
  refine ⟨⟨fun slot hs => ?_, ?_⟩, fun slot hs => ?_⟩
  · obtain ⟨c, hc, _⟩ := hkept slot hs
    rw [ha.isSome, hc]
    rfl
  · rw [hl.seq, seqOf, seqOf, Pool.events_agree hagree h.full fun _ hs => hs]
  · rw [← (Pool.run_agree hagree h.full fun _ hs => hs).proc slot hs, ← hl.world]
    rfl

/-- The tasks of a strategy do not block, and `Reset` restores the state that a round starts from. -/
structure Repeatable (S : Strategy σ κ α ν ς ρ π) : Prop where
  nonBlocking : NonBlocking S.target
  restores : ∀ {st hs fuel w}, Session S st hs → st.passes S fuel = .ok w → S.target.reset w.memory = S.target.initial

/-- And they return when they are resumed often enough: no run goes on forever. -/
structure Replayable (S : Strategy σ κ α ν ς ρ π) : Prop extends Repeatable S where
  returns : ∀ {st hs}, Session S st hs → Acc (Resumed S.target) st.round.world

/-- A strategy between two calls of its scheduler. -/
structure Ready (S : Strategy σ κ α ν ς ρ π) (st : Stage σ κ α ν ς ρ π) : Prop where
  calm : Calm st.round.world
  size : st.round.roundSchedule.length = st.round.world.threads.length
  start : (∀ tasks ∈ st.round.world.threads, tasks = []) → st.round.world.memory = S.target.initial

omit [Inhabited ν] in
/-- The tasks after the passes of a reset. -/
theorem Ready.passes {fuel : Nat} (hready : Ready S st) (hT : NonBlocking S.target) (hpasses : st.passes S fuel = .ok w) :
    Calm w ∧ ∀ slot c, w.task slot = some c → c.isReturned = true := by
  have hindexed : Indexed st.round.world (List.replicate st.round.world.threads.length 0) := by
    intro i j c hj
    rw [List.getElem?_replicate] at hj
    split at hj <;> simp at hj
  unfold Stage.passes at hpasses
  obtain ⟨w', hw', hcalm, hret⟩ := terminatePasses_ok hT fuel hready.calm hindexed (by rw [hpasses]; simp)
  cases hw'.symm.trans hpasses
  exact ⟨hcalm, hret⟩

theorem Restarted.calm (hr : Restarted S st w st₀) (hcalm : Calm w) : Calm st₀.round.world := by
  intro slot c hc
  by_cases hrem : c.id ∈ st.round.removedTasks
  · exact hcalm slot c (hr.kept slot c hc hrem)
  · rw [← hr.restarted slot c hc hrem]
    rfl

omit [Inhabited ν] in
theorem task_eq_none (h : ∀ tasks ∈ w.threads, tasks = []) (slot : Slot) : w.task slot = none := by
  unfold World.task
  cases hi : w.threads[slot.1]? with
  | none => rfl
  | some tasks => simp [h tasks (List.mem_of_getElem? hi)]

/-- A strategy is ready again after what is run on a reset round. -/
theorem Restarted.ready (hr : Restarted S st w st₀) (hreset : S.target.reset w.memory = S.target.initial)
    (hl : Logged S.target st₀.round.world.pool st'.round.world h) (ha : Alike st₀.round.world st'.round.world)
    (hcalm : Calm st'.round.world) (hsize : st'.round.roundSchedule.length = st'.round.world.threads.length)
    (hthere : ∀ slot ∈ h.full, (st₀.round.world.task slot).isSome) : Ready S st' := by
  refine ⟨hcalm, hsize, fun hempty => ?_⟩
  -- nothing can have been run on a round without tasks
  have hfull : h.full = [] := by
    rw [List.eq_nil_iff_forall_not_mem]
    intro slot hs
    have := hthere slot hs
    rw [← ha.isSome, task_eq_none hempty] at this
    cases this
  have hmemory := congrArg Pool.Conf.memory hl.world
  rw [hfull] at hmemory
  exact hmemory.trans (hr.memory.trans hreset)

theorem Session.ready (hS : Repeatable S) (h : Session S st hs) : Ready S st := by
  induction h with
  | new hfresh =>
    refine ⟨fun slot c hc => ?_, by simp [hfresh.schedule], fun _ => hfresh.memory⟩
    rw [task_eq_none hfresh.empty] at hc
    cases hc
  | @startNextRound st st' hs fuel hsession hstart _ =>
    obtain ⟨r, hterm, hstart⟩ := bind_eq_ok.1 hstart
    cases hstart
    unfold Strategy.terminateTasks at hterm
    split at hterm
    · cases hterm
    · rename_i hlen
      rw [ne_eq, not_not] at hlen
      split at hterm
      · rename_i w hpasses
        cases hterm
        have hsame : w.threads.length = st.round.world.threads.length := by
          simpa using congrArg List.length (terminatePasses_alike fuel hpasses)
        refine ⟨fun slot c hc => ?_, ?_, fun _ => hS.restores hsession hpasses⟩
        · rw [task_eq_none (by simp)] at hc
          cases hc
        · simpa [hsame] using hlen
      · cases hterm
  | @generate st st' hs fuel maxTasks h _ hempty hrun ih =>
    have hg := generating_of_generate hS.nonBlocking hempty (ih.start hempty) ih.size hrun
    refine ⟨hg.calm, hg.size, fun hnone => ?_⟩
    have hfull : h.full = [] := by
      rw [List.eq_nil_iff_forall_not_mem]
      intro slot hs
      have := (hg.full slot).1 hs
      rw [task_eq_none hnone] at this
      cases this
    have hmemory := congrArg Pool.Conf.memory hg.logged.world
    rw [hfull] at hmemory
    exact hmemory
  | @explore st st' hs fuel h hsession hrun ih =>
    obtain ⟨w, st₀, hpasses, hr, he⟩ := exploring_of_explore hrun
    have hcalm := (ih.passes hS.nonBlocking hpasses).1
    refine hr.ready (hS.restores hsession hpasses) he.logged he.alike (he.calm hS.nonBlocking (hr.calm hcalm)) he.size
      fun slot hs => ?_
    obtain ⟨c, hc, _⟩ := he.kept slot hs
    rw [← he.alike.isSome, hc]
    rfl
  | @replay st st' hs fuel ids h hsession hrun ih =>
    obtain ⟨w, st₀, hpasses, _, hr, hl, hfull, ha, hround, hcalm'⟩ := replay_run hsession hrun
    have hcalm := (ih.passes hS.nonBlocking hpasses).1
    have hlen : st'.round.world.threads.length = st₀.round.world.threads.length := by
      simpa using congrArg List.length ha
    refine hr.ready (hS.restores hsession hpasses) hl ha (hcalm' hS.nonBlocking (hr.calm hcalm)) ?_ fun slot hs => ?_
    · rw [hround, hlen]
      simp [hr.schedule]
    · rw [hfull] at hs
      exact isSome_of_mem_slotsOf (hsession.ids.unique.alike hr.alike) hs
  | setTaskRemoved _ _ _ ih => exact ⟨ih.calm, ih.size, ih.start⟩

/-- The histories `h` have just been produced on the current round; the tasks that a replay was asked for were not
removed. -/
inductive Produced (S : Strategy σ κ α ν ς ρ π) : Stage σ κ α ν ς ρ π → BothHistories ν → Prop
  | generate {st st' : Stage σ κ α ν ς ρ π} {hs : List (BothHistories ν)} {fuel maxTasks : Nat} {h : BothHistories ν} :
      Session S st hs → (∀ tasks ∈ st.round.world.threads, tasks = []) → S.generate fuel maxTasks st = .ok (h, st') →
      Produced S st' h
  | explore {st st' : Stage σ κ α ν ς ρ π} {hs : List (BothHistories ν)} {fuel : Nat} {h : BothHistories ν} :
      Session S st hs → S.explore fuel st = .ok (h, st') → Produced S st' h
  | replay {st st' : Stage σ κ α ν ς ρ π} {hs : List (BothHistories ν)} {fuel : Nat} {ids : List Int}
      {h : BothHistories ν} : Session S st hs → (∀ id ∈ ids, id ∉ st.round.removedTasks) →
      S.replay fuel ids st = .ok (h, st') → Produced S st' h

/-- What can be done to a round once it has been generated. -/
inductive Further (S : Strategy σ κ α ν ς ρ π) (st : Stage σ κ α ν ς ρ π) : Stage σ κ α ν ς ρ π → Prop
  | refl : Further S st st
  | explore {st₁ st₂ : Stage σ κ α ν ς ρ π} {fuel : Nat} {h : BothHistories ν} : Further S st st₁ →
      S.explore fuel st₁ = .ok (h, st₂) → Further S st st₂
  | replay {st₁ st₂ : Stage σ κ α ν ς ρ π} {fuel : Nat} {ids : List Int} {h : BothHistories ν} : Further S st st₁ →
      S.replay fuel ids st₁ = .ok (h, st₂) → Further S st st₂
  | setTaskRemoved {st₁ : Stage σ κ α ν ς ρ π} (id : Int) (isRemoved : Bool) : Further S st st₁ →
      Further S st (st₁.setTaskRemoved id isRemoved)

theorem Produced.session (h' : Produced S st h) : ∃ hs, Session S st hs := by
  cases h' with
  | generate hsession hempty hrun => exact ⟨_, hsession.generate hempty hrun⟩
  | explore hsession hrun => exact ⟨_, hsession.explore hrun⟩
  | replay hsession _ hrun => exact ⟨_, hsession.replay hrun⟩

theorem Further.session (hf : Further S st st') (h : Session S st hs) : ∃ hs', Session S st' hs' := by
  induction hf with
  | refl => exact ⟨hs, h⟩
  | explore _ hrun ih => exact ⟨_, ih.choose_spec.explore hrun⟩
  | replay _ hrun ih => exact ⟨_, ih.choose_spec.replay hrun⟩
  | setTaskRemoved id isRemoved _ ih => exact ⟨_, ih.choose_spec.setTaskRemoved id isRemoved⟩

/-- The tasks of a round stay the same. -/
theorem Further.alike (hf : Further S st st') (h : Session S st hs) : Alike st.round.world st'.round.world := by
  induction hf with
  | refl => exact rfl
  | explore _ hrun ih =>
    obtain ⟨w, st₀, _, hr, he⟩ := exploring_of_explore hrun
    exact he.alike.trans (hr.alike.trans ih)
  | replay hf hrun ih =>
    obtain ⟨_, hsession⟩ := hf.session h
    obtain ⟨w, st₀, _, _, hr, _, _, ha, _⟩ := replay_run hsession hrun
    exact ha.trans (hr.alike.trans ih)
  | setTaskRemoved _ _ _ ih => exact ih

/-- **What has just been produced is a run of its tasks from the beginning.** -/
theorem Produced.played (hS : Repeatable S) (h' : Produced S st h) : Played S.target st.round.world h := by
  cases h' with
  | generate hsession hempty hrun =>
    have hready := hsession.ready hS
    exact (generating_of_generate hS.nonBlocking hempty (hready.start hempty) hready.size hrun).played
  | explore hsession hrun =>
    obtain ⟨w, st₀, hpasses, hr, he⟩ := exploring_of_explore hrun
    refine hr.played (hS.restores hsession hpasses) he.logged he.alike fun slot hs => ?_
    obtain ⟨c, hc, hrem⟩ := he.kept slot hs
    have hmap := he.alike.map_id slot
    rw [hc] at hmap
    obtain ⟨c₀, hc₀, hid⟩ := Option.map_eq_some_iff.1 hmap.symm
    refine ⟨c₀, hc₀, ?_⟩
    rwa [hid, ← hr.removed, ← he.removed]
  | replay hsession hids hrun =>
    obtain ⟨w, st₀, hpasses, _, hr, hl, hfull, ha, _⟩ := replay_run hsession hrun
    have hu := hsession.ids.unique.alike hr.alike
    refine hr.played (hS.restores hsession hpasses) hl ha fun slot hs => ?_
    rw [hfull] at hs
    obtain ⟨c, hc⟩ := Option.isSome_iff_exists.1 (isSome_of_mem_slotsOf hu hs)
    exact ⟨c, hc, hids c.id ((mem_slotsOf hu hc).1 hs)⟩

/-- **A reset returns**, given enough fuel. -/
theorem Session.reset (hS : Replayable S) (h : Session S st hs) : ∃ enough, ∀ fuel, enough ≤ fuel → ∃ w st₀,
    st.passes S fuel = .ok w ∧ S.resetCurrentRound fuel st = .ok st₀ ∧ Restarted S st w st₀ := by
  have hready := h.ready hS.toRepeatable
  have hindexed : Indexed st.round.world (List.replicate st.round.world.threads.length 0) := by
    intro i j c hj
    rw [List.getElem?_replicate] at hj
    split at hj <;> simp at hj
  obtain ⟨enough, w, hw⟩ := terminatePasses_ends hS.nonBlocking (hS.returns h) hready.calm hindexed
  refine ⟨enough, fun fuel hfuel => ?_⟩
  have hpasses : st.passes S fuel = .ok w := terminatePasses_of_le hfuel hw
  have hret := (hready.passes hS.nonBlocking hpasses).2
  obtain ⟨st₀, hst₀⟩ := resetCurrentRound_ok hready.size hpasses fun slot c hc _ => hret slot c hc
  obtain ⟨w', hw', hr⟩ := restarted_of_reset hst₀
  cases hpasses.symm.trans hw'
  exact ⟨w, st₀, hpasses, hst₀, hr⟩

/-- **A replay of tasks of the round returns**, given enough fuel. -/
theorem Session.replays (hS : Replayable S) (h : Session S st hs) {ids : List Int}
    (hids : ∀ id ∈ ids, ∃ slot, (st.round.world.task slot).map Coro.id = some id) : ∃ enough, ∀ fuel, enough ≤ fuel →
    ∃ h' st', S.replay fuel ids st = .ok (h', st') := by
  obtain ⟨enough, henough⟩ := h.reset hS
  refine ⟨enough, fun fuel hfuel => ?_⟩
  obtain ⟨w, st₀, _, hreset, hr⟩ := henough fuel hfuel
  have hu := h.ids.unique.alike hr.alike
  obtain ⟨h', w', hrun, _⟩ := replayTasks_run ids (fun id => ids.count id) ∅ st₀.round ⟨[], []⟩ hu
    (.empty S.target st₀.round.world) (fun _ => Nat.le_refl _) (by simp) fun id hid => by
      obtain ⟨slot, hslot⟩ := hids id hid
      rw [(getTask_eq_some hu).2 ((hr.alike.map_id slot).trans hslot)]
      rfl
  exact ⟨h', _, replay_eq_ok.2 ⟨st₀, _, hreset, hrun, rfl⟩⟩

end Sessions

end Ltest
