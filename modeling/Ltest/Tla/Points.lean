import Ltest.Strategy.Yields
import Ltest.Tla.Exhaustive

/-!
# Schedules and the rules of a round

A step of a schedule is a step of a generated round: it builds and invokes a task or it goes on with one, and it resumes
it. So what the steps of a round keep holds of every schedule (`keeps_playAll`), and the exhaustive search over a target
with linearization points ends without a history (`run_eq_none`). With enough rounds it ends with one if a complete
schedule is rejected (`run_eq_some`).
-/

namespace Ltest.Tla

open Words

variable {σ κ α ν ς ρ : Type} [Inhabited ν] {P : Params σ κ α ν ς ρ} {rng : ρ} {c c' : Conf σ κ α ν} {ch : Choice}
  {admits : World σ κ α ν → Nat → TaskBuilder σ κ α ρ → Prop} {I : World σ κ α ν → ρ → List (HistoryEvent Slot ν) → Prop}

omit [Inhabited ν] in
theorem nonBlocking_of_plain (hP : ∀ ctx m, (∃ v, (P.target.run ctx m).1 = .returned v) ∨
    ∃ ctx', (P.target.run ctx m).1 = .yield ctx') : NonBlocking P.target := by
  intro ctx m addr value ctx' hblocked
  obtain ⟨v, h⟩ | ⟨ctx', h⟩ := hP ctx m
  · rw [h] at hblocked
    cases hblocked
  · rw [h] at hblocked
    cases hblocked

/-- A task is resumed that leaves no mark. -/
theorem keeps_resumeOn (hP : Exhaustible P rng) (hI : RoundRule P.target admits I) {i : Nat}
    {before : List (Coro κ α ν)} {task : Coro κ α ν} (hcalm : Calm c.world) (hc : I c.world rng c.history)
    (hthread : c.world.threads[i]? = some (before ++ [task])) (hr : task.isReturned = false) (htoken : task.token = none) :
    Calm (c.resumeOn P.target i (i, before.length) task).world ∧
    I (c.resumeOn P.target i (i, before.length) task).world rng
      (c.resumeOn P.target i (i, before.length) task).history := by
  have hplain := resume_plain hP.plain task c.world.memory
  have hrun : task.resume P.target c.world.memory =
      ((task.resume P.target c.world.memory).1, (task.resume P.target c.world.memory).2.1, none) := by rw [← hplain]
  have hresume := resume_last (T := P.target) hthread hr
  rw [hplain] at hresume
  rw [resumeOn_world hthread]
  have hready : task.Ready P.target c.world.memory :=
    ⟨hcalm (i, before.length) task (World.task_eq_some.2 ⟨_, hthread, by simp⟩), .inl (by simp [Coro.isParked, htoken])⟩
  exact ⟨hcalm.resume (nonBlocking_of_plain hP.plain) hresume, hI.resume hc hthread hr hready hrun⟩

/-- **A step of a schedule keeps what the steps of a round keep.** -/
theorem keeps_play (hP : Exhaustible P rng) (hI : RoundRule P.target admits I)
    (hrng : ∀ {w g g' seq}, I w g seq → I w g' seq) (hadmits : ∀ w i, ∀ b ∈ P.constructors, admits w i b)
    (hsound : Sound P c.world) (hcalm : Calm c.world) (hc : I c.world rng c.history) (hplay : c.play P rng ch = some c') :
    Calm c'.world ∧ I c'.world rng c'.history := by
  cases ch with
  | resume i =>
    obtain ⟨before, task, hthread, hr, rfl⟩ := play_resume.1 hplay
    exact keeps_resumeOn hP hI hcalm hc hthread hr (hsound.tokenless _ (List.mem_of_getElem? hthread) task (by simp))
  | start i k =>
    obtain ⟨tasks, b, hthread, hb, hfree, rfl⟩ := play_start.1 hplay
    have hlast : ∀ d ∈ tasks.getLast?, d.isReturned = true := by
      intro d hd
      obtain ⟨before, rfl⟩ := List.getLast?_eq_some_iff.1 hd
      simpa [Free] using hfree
    have hbuilt := hI.build (-1) hc hthread hlast (hadmits c.world i b (List.mem_of_getElem? hb))
    have hlt := (List.getElem?_eq_some_iff.1 hthread).1
    refine keeps_resumeOn hP hI (c := ⟨_, _⟩) (fun slot d hd => ?_) (hrng hbuilt) ?_ rfl
      (hP.tokenless b (List.mem_of_getElem? hb) _ _ _)
    · dsimp only at hd
      rw [task_pushTask hthread] at hd
      split at hd
      · cases hd
        rfl
      · exact hcalm slot d hd
    · unfold World.pushTask
      rw [modify_threads hthread, List.getElem?_set_self hlt]

/-- **It holds of every schedule.** -/
theorem keeps_playAll (hP : Exhaustible P rng) (hI : RoundRule P.target admits I)
    (hrng : ∀ {w g g' seq}, I w g seq → I w g' seq) (hadmits : ∀ w i, ∀ b ∈ P.constructors, admits w i b)
    (p : List Choice) {c : Conf σ κ α ν} (h : playAll P rng p = some c) : I c.world rng c.history := by
  suffices hall : Sound P c.world ∧ Calm c.world ∧ I c.world rng c.history from hall.2.2
  induction p using List.reverseRecOn generalizing c with
  | nil =>
    obtain rfl := Option.some.inj h
    have hempty : ∀ tasks ∈ (Conf.init P : Conf σ κ α ν).world.threads, tasks = [] := fun tasks htasks =>
      (List.mem_replicate.1 htasks).2
    refine ⟨.init, fun slot d hd => ?_, hI.start hempty (.inl rfl)⟩
    obtain ⟨tasks, htasks, hj⟩ := World.task_eq_some.1 hd
    rw [hempty tasks (List.mem_of_getElem? htasks)] at hj
    cases hj
  | append_singleton p ch ih =>
    rw [playAll_snoc] at h
    obtain ⟨c₀, hp, hplay⟩ := Option.bind_eq_some_iff.1 h
    obtain ⟨hsound, hcalm, hc⟩ := ih hp
    obtain ⟨_, _, hmoves⟩ := play_moves hplay
    exact ⟨hsound.move hP hmoves, keeps_play hP hI hrng hadmits hsound hcalm hc hplay⟩

/-- What the search finds among the complete schedules. -/
theorem run_visits (hP : Exhaustible P rng) (hthreads : 1 ≤ P.threadsCount) : ∃ schedules : List (List Choice),
    schedules.Nodup ∧ (∀ p, p ∈ schedules ↔ Complete P rng p) ∧ ∃ enough, ∀ fuel, enough ≤ fuel → ∃ isOver res s,
      run P fuel rng = .ok (isOver, res) s ∧ (res.isSome = true → ∃ p ∈ schedules, P.checker (historyOf P rng p) = false) ∧
      (schedules.length < P.maxRounds → (∃ p ∈ schedules, P.checker (historyOf P rng p) = false) → res.isSome = true) := by
  obtain ⟨enough, henough⟩ : ∃ n, n = P.threadsCount * (10000000 * P.maxTasks) + 1 := ⟨_, rfl⟩
  have hinit : playAll P rng [] = some (Conf.init P) := rfl
  have hbounded : Bounded P [] := ⟨Nat.zero_le _, fun _ => Nat.zero_le _, Nat.zero_le _⟩
  have hleaf : isLeaf P rng [] = false := by
    rw [isLeaf_eq hinit, beq_eq_false_iff_ne]
    exact Nat.ne_of_lt hP.tasks
  have hfits : ∀ fuel, enough ≤ fuel → Fits P rng fuel [] := by
    intro fuel hfuel q _ hq
    have := length_le_of_allowed hP hq
    rw [List.length_nil]
    omega
  have hsorted : (words (choices P) (allowed P rng) (isLeaf P rng) enough []).Pairwise (List.Lex _) :=
    words_sorted (choices_sorted P) enough []
  refine ⟨words (choices P) (allowed P rng) (isLeaf P rng) enough [],
    hsorted.imp fun h => List.Lex.to_ne (h.imp fun _ _ => Choice.Before.ne), fun p => ?_, enough, fun fuel hfuel => ?_⟩
  · rw [mem_words (fun _ _ => mem_choices hP) (fun _ _ => allowed_of_snoc) enough (allowed_of hinit hbounded)
      (hfits enough (Nat.le_refl _)), complete_iff]
    exact and_iff_right List.nil_prefix
  · rw [← words_of_le (allowed_of hinit hbounded) (hfits enough (Nat.le_refl _)) hfuel]
    obtain ⟨⟨isOver, res⟩, s, hrun, -, hpass, hstop⟩ := runStep_sweeps hP hthreads fuel [] _ (init P rng) hinit hbounded
      hleaf (hfits fuel hfuel) ⟨⟨rfl, rfl, rfl, rfl⟩, rfl, rfl, rfl⟩ hP.rounds
    refine ⟨isOver, res, s, hrun, ?_⟩
    by_cases hp : Passes P.checker (P.maxRounds - (init P rng).finishedRounds) (below P rng fuel [])
    · have hnone : ends (isOver, res) = none := (hpass hp).1
      have hres : res = none := by
        unfold ends at hnone
        split at hnone
        · cases hnone
        · rename_i hend
          simpa using (by simpa using hend : isOver = false ∧ res = none).2
      subst hres
      refine ⟨fun h => (by cases h), fun _ ⟨p, hmem, hrej⟩ => ?_⟩
      rw [hp.2 _ (List.mem_map_of_mem hmem)] at hrej
      cases hrej
    · obtain ⟨isOver', res', hsome, -, hrejected⟩ := hstop hp
      obtain rfl : res' = res := by
        unfold ends at hsome
        split at hsome <;> cases hsome
        rfl
      have hrounds : P.maxRounds - (init P rng).finishedRounds = P.maxRounds := rfl
      rw [hrounds] at hp hrejected
      refine ⟨fun h => ?_, fun hlen hrej => hrejected.2 (exists_rejected (by rwa [below, List.length_map]) ?_)⟩
      · obtain ⟨h, hmem, hrej⟩ := hrejected.1 h
        obtain ⟨p, hp, rfl⟩ := List.mem_map.1 (mem_of_visited hmem)
        exact ⟨p, hp, hrej⟩
      · obtain ⟨p, hp, hrej⟩ := hrej
        exact ⟨_, List.mem_map_of_mem hp, hrej⟩

/-- **A search in which the checker accepts every schedule returns no history.** -/
theorem run_eq_none (hP : Exhaustible P rng) (hthreads : 1 ≤ P.threadsCount)
    (haccepts : ∀ p, (playAll P rng p).isSome → P.checker (historyOf P rng p) = true) :
    ∃ enough, ∀ fuel, enough ≤ fuel → ∃ isOver s, run P fuel rng = .ok (isOver, none) s := by
  obtain ⟨schedules, -, hschedules, enough, hruns⟩ := run_visits hP hthreads
  refine ⟨enough, fun fuel hfuel => ?_⟩
  obtain ⟨isOver, res, s, hrun, hfound, -⟩ := hruns fuel hfuel
  suffices hres : res = none from ⟨isOver, s, hres ▸ hrun⟩
  by_contra hres
  obtain ⟨p, hp, hrej⟩ := hfound (Option.isSome_iff_ne_none.2 hres)
  obtain ⟨c, hc, -⟩ := ((hschedules p).1 hp).finishes
  rw [haccepts p (by rw [hc]; rfl)] at hrej
  cases hrej

/-- The number of rounds does not matter to a schedule. -/
theorem complete_maxRounds {p : List Choice} (r : Nat) : Complete { P with maxRounds := r } rng p ↔ Complete P rng p := by
  constructor
  · rintro ⟨⟨htasks, hdepth, hswitched⟩, hfinishes, hfirst⟩
    exact ⟨⟨htasks, hdepth, hswitched⟩, hfinishes, hfirst⟩
  · rintro ⟨⟨htasks, hdepth, hswitched⟩, hfinishes, hfirst⟩
    exact ⟨⟨htasks, hdepth, hswitched⟩, hfinishes, hfirst⟩

/-- **A search with enough rounds returns a history** when the checker rejects a complete schedule. -/
theorem run_eq_some (hP : ∀ r, 1 ≤ r → Exhaustible { P with maxRounds := r } rng) (hthreads : 1 ≤ P.threadsCount)
    {p : List Choice} (hp : Complete P rng p) (hrej : P.checker (historyOf P rng p) = false) :
    ∃ rounds, ∀ r, rounds ≤ r → ∃ enough, ∀ fuel, enough ≤ fuel → ∃ isOver h s,
      run { P with maxRounds := r } fuel rng = .ok (isOver, some h) s := by
  obtain ⟨schedules, hnodup, hschedules, -⟩ := run_visits (hP 1 (Nat.le_refl 1)) hthreads
  refine ⟨schedules.length + 1, fun r hr => ?_⟩
  obtain ⟨schedules', hnodup', hschedules', enough, hruns⟩ := run_visits (hP r (by omega)) hthreads
  have hsame : ∀ q, q ∈ schedules ↔ q ∈ schedules' := fun q =>
    (hschedules q).trans ((complete_maxRounds 1).trans ((complete_maxRounds r).symm.trans (hschedules' q).symm))
  have hlen : schedules'.length < r := by
    rw [((List.perm_ext_iff_of_nodup hnodup hnodup').2 hsame).length_eq.symm]
    exact hr
  refine ⟨enough, fun fuel hfuel => ?_⟩
  obtain ⟨isOver, res, s, hrun, -, hfound⟩ := hruns fuel hfuel
  obtain ⟨h, rfl⟩ := Option.isSome_iff_exists.1 (hfound hlen ⟨p, (hschedules' p).2 ((complete_maxRounds r).2 hp), hrej⟩)
  exact ⟨isOver, h, s, hrun⟩

/-- No task is unfinished again. -/
theorem finished_mono {p q : List Choice} (hc : playAll P rng p = some c) (hc' : playAll P rng (p ++ q) = some c') :
    c.finished ≤ c'.finished := by
  induction q using List.reverseRecOn generalizing c' with
  | nil =>
    rw [List.append_nil, hc] at hc'
    obtain rfl := Option.some.inj hc'
    exact Nat.le_refl _
  | append_singleton q ch ih =>
    rw [← List.append_assoc, playAll_snoc] at hc'
    obtain ⟨c₁, hc₁, hplay⟩ := Option.bind_eq_some_iff.1 hc'
    obtain ⟨_, _, hm⟩ := play_moves hplay
    have hle := ih hc₁
    have hfinished := hm.finished
    omega

/-! ## Tasks that count down -/

section CountsDown

/-- A task suspends by plain yields only, and each of them leaves it fewer resumes to go. -/
def CountsDown (T : Target σ κ ν) (rank : κ → Nat) : Prop := ∀ ctx m, (∃ v, (T.run ctx m).1 = .returned v) ∨
  ∃ ctx', (T.run ctx m).1 = .yield ctx' ∧ rank ctx' < rank ctx

variable {T : Target σ κ ν} {rank : κ → Nat}

omit [Inhabited ν] in
theorem CountsDown.burst (hT : CountsDown T rank) (skips : κ → Bool) : ∀ n, CountsDown (T.burst skips n) rank
  | 0 => hT
  | n + 1 => by
    intro ctx m
    obtain heq | ⟨ctx', m', hyield, -, heq⟩ := run_burst T skips n ctx m
    · rw [heq]
      exact hT ctx m
    · have hlt : rank ctx' < rank ctx := by
        obtain ⟨v, hv⟩ | ⟨ctx'', hctx, hlt⟩ := hT ctx m
        · rw [hyield] at hv
          cases hv
        · rw [hyield] at hctx
          cases hctx
          exact hlt
      rw [heq]
      obtain ⟨v, hv⟩ | ⟨ctx'', hctx, hlt'⟩ := CountsDown.burst hT skips n ctx' m'
      · exact .inl ⟨v, hv⟩
      · exact .inr ⟨ctx'', hctx, hlt'.trans hlt⟩

omit [Inhabited ν] in
/-- Wherever the yields stand, a task counts down. -/
theorem CountsDown.compiled (hT : CountsDown T rank) (skips : κ → Bool) (n : Nat) {delay : κ → Nat} {d : Nat}
    (hdelay : ∀ ctx, delay ctx ≤ d) : CountsDown (T.compiled skips n delay) fun ctx => rank ctx.1 * (d + 1) + ctx.2 := by
  rintro ⟨ctx, k⟩ m
  cases k with
  | succ k => exact .inr ⟨(ctx, k), rfl, Nat.lt_succ_self _⟩
  | zero =>
    have hrun : ((T.compiled skips n delay).run (ctx, 0) m).1 =
        ((T.burst skips n).run ctx m).1.mapCtx fun ctx => (ctx, delay ctx) := rfl
    rw [hrun]
    obtain ⟨v, hv⟩ | ⟨ctx', hctx, hlt⟩ := hT.burst skips n ctx m
    · exact .inl ⟨v, by rw [hv]; rfl⟩
    · refine .inr ⟨(ctx', delay ctx'), by rw [hctx]; rfl, ?_⟩
      have hd := hdelay ctx'
      calc rank ctx' * (d + 1) + delay ctx' < rank ctx' * (d + 1) + (d + 1) := by omega
        _ = (rank ctx' + 1) * (d + 1) := by rw [Nat.succ_mul]
        _ ≤ rank ctx * (d + 1) := Nat.mul_le_mul_right _ hlt
        _ = rank ctx * (d + 1) + 0 := rfl

/-- The resumes that an unfinished task has had and has to go. -/
theorem CountsDown.reached (hT : CountsDown P.target rank) {bound : Nat}
    (hbound : ∀ b ∈ P.constructors, ∀ m i g, rank (b.gen m i g).1.2.1 ≤ bound) {n : Nat → Nat}
    (h : Reached P rng n c) : ∀ i tasks task, c.world.threads[i]? = some tasks → tasks.getLast? = some task →
      task.isReturned = false → n i + rank task.ctx ≤ bound := by
  have hresumed : ∀ {task : Coro κ α ν} {m}, (task.resume P.target m).1.isReturned = false →
      rank (task.resume P.target m).1.ctx < rank task.ctx := by
    intro task m hr
    obtain ⟨v, hv⟩ | ⟨ctx', hctx, hlt⟩ := hT task.ctx m
    · unfold Coro.resume at hr
      rw [show P.target.run task.ctx m = (.returned v, (P.target.run task.ctx m).2) from Prod.ext hv rfl] at hr
      cases hr
    · unfold Coro.resume
      rw [show P.target.run task.ctx m = (.yield ctx', (P.target.run task.ctx m).2) from Prod.ext hctx rfl]
      exact hlt
  induction h with
  | init =>
    intro i tasks task hi hlast
    simp only [Conf.init, List.getElem?_replicate] at hi
    split at hi <;> cases hi
    cases hlast
  | @resume n c c' j _ hplay ih =>
    obtain ⟨before, task, hm⟩ := play_moves hplay
    intro i tasks task' hi hlast hr
    by_cases heq : j = i
    · subst heq
      have hbefore := ih j _ task hm.thread (by simp [Choice.isStart]) hm.unfinished
      cases hi.symm.trans hm.thread_after
      simp only [List.getLast?_append, List.getLast?_singleton, Option.some_or, Option.some.injEq] at hlast
      subst hlast
      have hlt := hresumed hr
      rw [Function.update_self]
      omega
    · rw [hm.other heq] at hi
      rw [Function.update_of_ne (Ne.symm heq)]
      exact ih i tasks task' hi hlast hr
  | @start n c c' j k _ hplay ih =>
    obtain ⟨before, task, hm⟩ := play_moves hplay
    intro i tasks task' hi hlast hr
    by_cases heq : j = i
    · subst heq
      obtain ⟨b, hb, rfl⟩ := hm.built j k rfl
      have hfirst := hbound b (List.mem_of_getElem? hb) c.world.memory j rng
      cases hi.symm.trans hm.thread_after
      simp only [List.getLast?_append, List.getLast?_singleton, Option.some_or, Option.some.injEq] at hlast
      subst hlast
      have hlt := Nat.lt_of_lt_of_le (hresumed hr) hfirst
      rw [Function.update_self]
      omega
    · rw [hm.other heq] at hi
      rw [Function.update_of_ne (Ne.symm heq)]
      exact ih i tasks task' hi hlast hr
  | cancel _ ih => exact ih

/-- Tasks that count down from less than `Terminate` allows. -/
theorem CountsDown.exhaustible (hT : CountsDown P.target rank) (htasks : 1 ≤ P.maxTasks) (hrounds : 1 ≤ P.maxRounds)
    (haccepts : ∀ v m, ∃ v', P.verifier.verify v m = some (true, v'))
    (htokenless : ∀ b ∈ P.constructors, ∀ m i g, (b.gen m i g).1.2.2 = none)
    (hsame : ∀ b ∈ P.constructors, ∀ m i g g', (b.gen m i g).1 = (b.gen m i g').1)
    (hreset : ∀ m, P.target.reset m = P.target.initial)
    (hbound : ∀ b ∈ P.constructors, ∀ m i g, rank (b.gen m i g).1.2.1 ≤ 9999998) : Exhaustible P rng where
  tasks := htasks
  rounds := hrounds
  accepts := haccepts
  plain ctx m := (hT ctx m).imp_right fun ⟨ctx', hctx, _⟩ => ⟨ctx', hctx⟩
  tokenless := htokenless
  same := hsame
  restores _ c _ := hreset c.world.memory
  returns n c h i tasks task hi hlast hr := by
    have := hT.reached hbound h i tasks task hi hlast hr
    omega

end CountsDown

end Ltest.Tla
