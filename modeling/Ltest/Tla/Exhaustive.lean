import Ltest.Tla.Sweep
import Ltest.Tla.Verified
import Mathlib.Algebra.BigOperators.Group.Finset.Basic
import Mathlib.Algebra.Order.BigOperators.Group.Finset

/-!
# The exhaustive scheduler enumerates all schedules

A schedule within the limits has a bounded length (`length_le_of_allowed`), so with enough fuel the search gets to the
end of each. `run_enumerates`: the histories that `Run` passes to the checker are those of the complete schedules, each
schedule once and in lexicographic order, up to the first history that is rejected or the last round.
-/

namespace Ltest.Tla

open Program Words

variable {σ κ α ν ς ρ : Type}

/-! ## The length of a schedule -/

section Length

variable [Inhabited ν] {P : Params σ κ α ν ς ρ} {rng : ρ} {p : List Choice} {ch : Choice} {c c' : Conf σ κ α ν}

/-- The steps of a schedule on thread `i`. -/
def stepsOn (i : Nat) (p : List Choice) : Nat := (p.map Choice.thread).count i

theorem stepsOn_snoc (i : Nat) : stepsOn i (p ++ [ch]) = stepsOn i p + if ch.thread = i then 1 else 0 := by
  simp [stepsOn, List.count_singleton]

/-- No thread has had more steps than its tasks can take. -/
def Paced (p : List Choice) (n : Nat → Nat) (c : Conf σ κ α ν) : Prop :=
  ∀ i tasks, c.world.threads[i]? = some tasks → stepsOn i p ≤ 10000000 * startsOn i p ∧
    (¬Free tasks → stepsOn i p + 10000000 ≤ 10000000 * startsOn i p + n i)

/-- A choice keeps the pace. -/
theorem Paced.move {before : List (Coro κ α ν)} {task : Coro κ α ν} {n : Nat → Nat} {k : Nat} (h : Paced p n c)
    (hm : Moves P rng c ch c' before task)
    (hstart : ch.isStart = true → k = 1)
    (hresume : ch.isStart = false → k = n ch.thread + 1 ∧ n ch.thread + 1 < 10000000) :
    Paced (p ++ [ch]) (Function.update n ch.thread k) c' := by
  intro i tasks hi
  rw [startsOn_snoc, stepsOn_snoc]
  by_cases heq : ch.thread = i
  · subst heq
    rw [Function.update_self]
    obtain ⟨hpace, hbusy⟩ := h _ _ hm.thread
    cases hs : ch.isStart with
    | true =>
      have := hstart hs
      simp only [true_and, ↓reduceIte]
      omega
    | false =>
      obtain ⟨hk, hn⟩ := hresume hs
      rw [hs] at hbusy
      have hbusy := hbusy (by simp [Free, hm.unfinished])
      simp only [Bool.false_eq_true, false_and, ↓reduceIte]
      omega
  · rw [hm.other heq] at hi
    rw [Function.update_of_ne (Ne.symm heq)]
    simpa [heq] using h i tasks hi

theorem paced_of_playAll (hP : Exhaustible P rng) : ∀ (p : List Choice) {c : Conf σ κ α ν}, playAll P rng p = some c →
    ∃ n, Reached P rng n c ∧ Paced p n c := by
  intro p
  induction p using List.reverseRecOn with
  | nil =>
    rintro c ⟨⟩
    refine ⟨_, .init, fun i tasks hi => ⟨by simp [stepsOn], fun h => absurd ?_ h⟩⟩
    simp only [Conf.init, List.getElem?_replicate] at hi
    split at hi <;> cases hi
    rfl
  | append_singleton p ch ih =>
    intro c' h
    rw [playAll_snoc] at h
    obtain ⟨c, hp, hplay⟩ := Option.bind_eq_some_iff.1 h
    obtain ⟨n, hreach, hpaced⟩ := ih hp
    obtain ⟨before, task, hm⟩ := play_moves hplay
    cases ch with
    | resume i =>
      refine ⟨_, hreach.resume hplay, hpaced.move hm (by simp [Choice.isStart]) fun _ => ⟨rfl, ?_⟩⟩
      exact hP.returns n c hreach i _ task hm.thread (by simp [Choice.isStart]) hm.unfinished
    | start i k =>
      exact ⟨_, hreach.start hplay, hpaced.move hm (fun _ => rfl) (by simp [Choice.isStart])⟩

/-- The threads of a schedule are those of the scheduler. -/
theorem thread_lt_of_playAll (hP : Exhaustible P rng) : ∀ (p : List Choice) {c : Conf σ κ α ν},
    playAll P rng p = some c → ∀ ch ∈ p, ch.thread < P.threadsCount := by
  intro p
  induction p using List.reverseRecOn with
  | nil => simp
  | append_singleton p ch ih =>
    intro c' h ch' hch'
    rw [playAll_snoc] at h
    obtain ⟨c, hp, hplay⟩ := Option.bind_eq_some_iff.1 h
    rcases List.mem_append.1 hch' with hch' | hch'
    · exact ih hp ch' hch'
    · obtain ⟨_, _, hm⟩ := play_moves hplay
      obtain ⟨⟨n, hreach⟩, _⟩ := reached_of_playAll p hp
      rw [List.mem_singleton.1 hch', ← (hreach.sound hP).size]
      exact hm.lt

/-- **A schedule within the limits is short.** -/
theorem length_le_of_allowed (hP : Exhaustible P rng) (h : allowed P rng p = true) :
    p.length ≤ P.threadsCount * (10000000 * P.maxTasks) := by
  obtain ⟨⟨c, hp⟩, hb⟩ := allowed_iff.1 h
  obtain ⟨n, hreach, hpaced⟩ := paced_of_playAll hP p hp
  have hlt := thread_lt_of_playAll hP p hp
  have hcount : ∀ i ∈ (p.map Choice.thread).toFinset, (p.map Choice.thread).count i ≤ 10000000 * P.maxTasks := by
    intro i hi
    obtain ⟨ch, hch, rfl⟩ := List.mem_map.1 (List.mem_toFinset.1 hi)
    have hthread := List.getElem?_eq_getElem ((hreach.sound hP).size ▸ hlt ch hch)
    have hpace := (hpaced _ _ hthread).1
    have hstarts : startsOn ch.thread p ≤ P.maxTasks :=
      (List.countP_mono_left fun ch' _ h => (Bool.and_eq_true_iff.1 h).1).trans hb.tasks
    unfold stepsOn at hpace
    omega
  have hcard : (p.map Choice.thread).toFinset.card ≤ P.threadsCount := by
    rw [← Finset.card_range P.threadsCount]
    refine Finset.card_le_card fun i hi => ?_
    obtain ⟨ch, hch, rfl⟩ := List.mem_map.1 (List.mem_toFinset.1 hi)
    exact Finset.mem_range.2 (hlt ch hch)
  calc p.length = ∑ i ∈ (p.map Choice.thread).toFinset, (p.map Choice.thread).count i := by
        rw [List.sum_toFinset_count_eq_length, List.length_map]
    _ ≤ (p.map Choice.thread).toFinset.card * (10000000 * P.maxTasks) := Finset.sum_le_card_nsmul _ _ _ hcount
    _ ≤ P.threadsCount * (10000000 * P.maxTasks) := Nat.mul_le_mul_right _ hcard

end Length

/-! ## The enumeration -/

section Enumerate

variable [Inhabited ν] {P : Params σ κ α ν ς ρ} {rng : ρ} {p : List Choice} {ch : Choice}

/-- Only the choices of the search can be made. -/
theorem mem_choices (hP : Exhaustible P rng) (h : allowed P rng (p ++ [ch]) = true) : ch ∈ choices P := by
  obtain ⟨⟨c', hp'⟩, _⟩ := allowed_iff.1 h
  have hlt := thread_lt_of_playAll hP _ hp' ch (by simp)
  refine List.mem_flatMap.2 ⟨ch.thread, List.mem_range.2 hlt, ?_⟩
  cases ch with
  | resume i => exact List.mem_cons_self
  | start i k =>
    rw [playAll_snoc] at hp'
    obtain ⟨c, _, hplay⟩ := Option.bind_eq_some_iff.1 hp'
    obtain ⟨_, b, _, hb, _⟩ := play_start.1 hplay
    exact List.mem_cons_of_mem _ (List.mem_map.2 ⟨k, List.mem_range.2 (List.getElem?_eq_some_iff.1 hb).1, rfl⟩)

theorem allowed_of_snoc (h : allowed P rng (p ++ [ch]) = true) : allowed P rng p = true := by
  obtain ⟨⟨c', hp'⟩, hb⟩ := allowed_iff.1 h
  rw [playAll_snoc] at hp'
  obtain ⟨c, hp, _⟩ := Option.bind_eq_some_iff.1 hp'
  exact allowed_of hp hb.of_snoc

omit [Inhabited ν] in
/-- The choices are in the order of the search. -/
theorem choices_sorted (P : Params σ κ α ν ς ρ) : (choices P).Pairwise Choice.Before := by
  refine List.pairwise_flatMap.2 ⟨fun i _ => ?_, List.pairwise_lt_range.imp fun {i j} hij a ha b hb => ?_⟩
  · refine List.pairwise_cons.2 ⟨fun b hb => ?_, List.pairwise_map.2 (List.pairwise_lt_range.imp fun h => .inr ⟨rfl, h⟩)⟩
    obtain ⟨k, _, rfl⟩ := List.mem_map.1 hb
    exact Nat.le_refl i
  · rcases List.mem_cons.1 ha with rfl | ha <;> rcases List.mem_cons.1 hb with rfl | hb
    · exact hij
    · obtain ⟨k, _, rfl⟩ := List.mem_map.1 hb
      exact hij.le
    · obtain ⟨k, _, rfl⟩ := List.mem_map.1 ha
      exact hij
    · obtain ⟨k, _, rfl⟩ := List.mem_map.1 ha
      obtain ⟨l, _, rfl⟩ := List.mem_map.1 hb
      exact .inl hij

theorem Choice.Before.ne : ∀ {a b : Choice}, Choice.Before a b → a ≠ b
  | .resume i, _, h, rfl => Nat.lt_irrefl i h
  | .start i k, _, h, rfl => h.elim (Nat.lt_irrefl i) fun h => Nat.lt_irrefl k h.2

/-- The complete schedules are the words that end at a leaf. -/
theorem complete_iff : Complete P rng p ↔ allowed P rng p = true ∧ EndsAtLeaf (isLeaf P rng) [] p := by
  have hleaf : ∀ q, isLeaf P rng q = true ↔ ∃ c, playAll P rng q = some c ∧ c.finished = P.maxTasks := by
    intro q
    simp [isLeaf, Option.any_eq_true]
  unfold EndsAtLeaf
  rw [allowed_iff]
  constructor
  · rintro ⟨hb, ⟨c, hp, hfin⟩, hfirst⟩
    refine ⟨⟨⟨c, hp⟩, hb⟩, (hleaf p).2 ⟨c, hp, hfin⟩, fun q _ hq hl => ?_⟩
    obtain ⟨c', hc', hfin'⟩ := (hleaf q).1 hl
    exact hfirst q c' hq hc' hfin'
  · rintro ⟨⟨_, hb⟩, hl, hfirst⟩
    exact ⟨hb, (hleaf p).1 hl, fun q c hq hc hfin => hfirst q (List.nil_prefix) hq ((hleaf q).2 ⟨c, hc, hfin⟩)⟩

/-- `Run` enumerates `schedules`: they are the complete schedules in lexicographic order, and with enough fuel for the
recursion their histories go to the checker one after the other, up to the first one that is rejected or the one of the
last round. A failure is reported exactly when one was rejected. -/
structure Enumerates (P : Params σ κ α ν ς ρ) (rng : ρ) (schedules : List (List Choice)) : Prop where
  complete : ∀ p, p ∈ schedules ↔ Complete P rng p
  ordered : schedules.Pairwise (List.Lex Choice.Before)
  once : schedules.Nodup
  checked : ∃ enough, ∀ fuel, enough ≤ fuel →
    checks (traceOf P fuel rng) = visited P.checker P.maxRounds (schedules.map (historyOf P rng)) ∧
    (1 ≤ P.threadsCount → ∃ isOver res s, run P fuel rng = .ok (isOver, res) s ∧
      (res.isSome = true ↔
        ∃ h ∈ visited P.checker P.maxRounds (schedules.map (historyOf P rng)), P.checker h = false))

/-- **`TLAScheduler` enumerates all bounded executions, each once.** -/
theorem run_enumerates (hP : Exhaustible P rng) : ∃ schedules, Enumerates P rng schedules := by
  obtain ⟨enough, henough⟩ : ∃ n, n = P.threadsCount * (10000000 * P.maxTasks) + 1 := ⟨_, rfl⟩
  have hinit : playAll P rng [] = some (Conf.init P) := rfl
  have hbounded : Bounded P [] := ⟨Nat.zero_le _, fun _ => Nat.zero_le _, Nat.zero_le _⟩
  have hleaf : isLeaf P rng [] = false := by
    rw [isLeaf_eq hinit]
    have := hP.tasks
    have hzero : (Conf.init P).finished = 0 := rfl
    rw [hzero, beq_eq_false_iff_ne]
    omega
  have hfits : ∀ fuel, enough ≤ fuel → Fits P rng fuel [] := fun fuel hfuel q _ hq => by
    have := length_le_of_allowed hP hq
    rw [List.length_nil]
    omega
  have hsorted : (words (choices P) (allowed P rng) (isLeaf P rng) enough []).Pairwise (List.Lex _) :=
    words_sorted (choices_sorted P) enough []
  refine ⟨words (choices P) (allowed P rng) (isLeaf P rng) enough [], fun p => ?_, hsorted, ?_, enough, fun fuel hfuel => ?_⟩
  · rw [mem_words (fun _ _ => mem_choices hP) (fun _ _ => allowed_of_snoc) enough (allowed_of hinit hbounded)
      (hfits enough (Nat.le_refl _)), complete_iff]
    simp
  · exact hsorted.imp fun h => List.Lex.to_ne (h.imp fun _ _ => Choice.Before.ne)
  · rw [← words_of_le (allowed_of hinit hbounded) (hfits enough (Nat.le_refl _)) hfuel]
    rcases Nat.eq_zero_or_pos P.threadsCount with hzero | hpos
    · obtain ⟨n, rfl⟩ : ∃ n, fuel = n + 1 := ⟨fuel - 1, by omega⟩
      refine ⟨?_, fun h => absurd h (by omega)⟩
      have htrace : traceOf P (n + 1) rng = [] := by
        simp [traceOf, run, runStep, hzero, threadLoop, init]
      rw [htrace, words, hleaf]
      simp [choices, hzero, checks]
    · obtain ⟨⟨isOver, res⟩, s, hrun, hchecks, hpass, hstop⟩ := runStep_sweeps hP hpos fuel [] _ (init P rng) hinit hbounded
        hleaf (hfits fuel hfuel) ⟨⟨rfl, rfl, rfl, rfl⟩, rfl, rfl, rfl⟩ hP.rounds
      have hrun : run P fuel rng = .ok (isOver, res) s := hrun
      refine ⟨?_, fun _ => ⟨isOver, res, s, hrun, ?_⟩⟩
      · rw [traceOf, hrun]
        exact hchecks
      · by_cases hp : Passes P.checker (P.maxRounds - (init P rng).finishedRounds) (below P rng fuel [])
        · have hnone : ends (isOver, res) = none := (hpass hp).1
          have hres : res.isSome = false := by
            simp only [ends, ite_eq_right_iff, reduceCtorEq, imp_false, Bool.or_eq_true, not_or] at hnone
            simpa using hnone.2
          have hall : ∀ h ∈ visited P.checker P.maxRounds (below P rng fuel []), P.checker h = true := by
            have hseen := hp.visited
            rw [show P.maxRounds - (init P rng).finishedRounds = P.maxRounds from rfl] at hseen
            rw [hseen]
            exact hp.2
          rw [hres]
          refine ⟨by simp, ?_⟩
          rintro ⟨h, hmem, hrej⟩
          exact absurd (hall h hmem) (by simp [hrej])
        · obtain ⟨isOver', res', hsome, _, hres⟩ := hstop hp
          have : res' = res := by
            unfold ends at hsome
            split at hsome <;> cases hsome
            rfl
          subst this
          exact hres

end Enumerate

/-! ## Two counters -/

section Counters

/-- Two threads that add to the counter once each. -/
def counterParams : Params Nat Bool Unit Nat Unit Unit where
  target := counterTarget
  maxTasks := 2
  maxRounds := 100
  threadsCount := 2
  maxSwitches := 4
  maxDepth := 1
  constructors := [⟨"Add", fun _ _ g => (((), true, none), g)⟩]
  checker _ := true
  cancel m := m
  verifier := defaultStrategyVerifier

/-- An unfinished task has yielded once. -/
theorem counter_yielded {n : Nat → Nat} {c : Conf Nat Bool Unit Nat} (h : Reached counterParams () n c) :
    ∀ i tasks task, c.world.threads[i]? = some tasks → tasks.getLast? = some task → task.isReturned = false →
      task.ctx = false ∧ n i = 1 := by
  induction h with
  | init =>
    intro i tasks task hi hlast
    simp only [Conf.init, List.getElem?_replicate] at hi
    split at hi <;> cases hi
    cases hlast
  | @resume n c c' j _ hplay ih =>
    obtain ⟨before, task, hm⟩ := play_moves hplay
    intro i tasks task' hi hlast hr
    by_cases heq : j = i
    · subst heq
      have hdone := (ih j _ task hm.thread (by simp [Choice.isStart]) hm.unfinished).1
      cases hi.symm.trans hm.thread_after
      simp only [List.getLast?_append, List.getLast?_singleton, Option.some_or, Option.some.injEq] at hlast
      subst hlast
      simp [Coro.resume, counterParams, counterTarget, hdone] at hr
    · rw [hm.other heq] at hi
      rw [Function.update_of_ne (Ne.symm heq)]
      exact ih i tasks task' hi hlast hr
  | @start n c c' j k _ hplay ih =>
    obtain ⟨before, task, hm⟩ := play_moves hplay
    intro i tasks task' hi hlast hr
    by_cases heq : j = i
    · subst heq
      obtain ⟨b, hb, rfl⟩ := hm.built j k rfl
      have hbuilder : b.gen = fun _ _ g => (((), true, none), g) := by
        simp only [counterParams, List.getElem?_singleton] at hb
        split at hb <;> cases hb
        rfl
      cases hi.symm.trans hm.thread_after
      simp only [List.getLast?_append, List.getLast?_singleton, Option.some_or, Option.some.injEq] at hlast
      subst hlast
      simp [Coro.resume, TaskBuilder.build, Coro.new, hbuilder, counterParams, counterTarget]
    · rw [hm.other heq] at hi
      rw [Function.update_of_ne (Ne.symm heq)]
      exact ih i tasks task' hi hlast hr
  | cancel _ ih => exact ih

theorem counterParams_exhaustible : Exhaustible counterParams () where
  tasks := by decide
  rounds := by decide
  accepts _ _ := ⟨(), rfl⟩
  plain ctx m := by
    cases ctx with
    | true => exact .inr ⟨false, rfl⟩
    | false => exact .inl ⟨m, rfl⟩
  tokenless := by simp [counterParams]
  same := by simp [counterParams]
  restores _ _ _ := rfl
  returns n c h i tasks task hi hlast hr := by
    rw [(counter_yielded h i tasks task hi hlast hr).2]
    omega

/-- The schedules of the two counters are enumerated. -/
theorem counterParams_enumerated : ∃ schedules, Enumerates counterParams () schedules :=
  run_enumerates counterParams_exhaustible

end Counters

end Ltest.Tla
