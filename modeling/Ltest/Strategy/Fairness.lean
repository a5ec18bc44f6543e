import Ltest.Strategy.Driven
import Ltest.Strategy.Handout
import Ltest.Strategy.Replay

/-!
# No thread is starved (`round_robin_strategy.h`)

`Pick` and `PickSchedule` of `RoundRobinStrategy` go round the threads on one counter, from where the last call of either
has stopped. Every value of the counter stands for a thread, which is either picked or skipped for not being eligible
then (`Turns.covers`). A call moves the counter by one at least, so over as many calls as there are threads it comes to
every thread (`roundRobin_fair`).
-/

namespace Ltest

open Program

variable {σ κ α ν ς ρ γ : Type}

/-- The two functions that pick a thread. -/
inductive Phase where
  | pick
  | pickSchedule
  deriving Repr, DecidableEq

/-- For `Pick` a thread is eligible when it is empty or its last task is neither parked nor blocked, for `PickSchedule`
when its next task is there and not parked. -/
def Round.Eligible (T : Target σ κ ν) (r : Round σ κ α ν ς ρ) : Phase → Nat → Prop
  | .pick, i => i < r.world.threads.length ∧
      ∀ c, r.world.lastTask i = some c → c.isParked T r.world.memory = false ∧ c.waits T r.world.memory = false
  | .pickSchedule, i => r.Runnable T i

/-- A call that picked a thread. -/
structure Turn (σ κ α ν ς ρ : Type) where
  round : Round σ κ α ν ς ρ
  phase : Phase
  thread : Nat

/-! ## A call -/

section Call

variable {T : Target σ κ ν} {r : Round σ κ α ν ς ρ}

/-- The scan from `start` has ended before `stop`: at thread `i`, after threads that are not eligible. -/
structure Scanned (T : Target σ κ ν) (r : Round σ κ α ν ς ρ) (phase : Phase) (start i stop : Nat) : Prop where
  lt : start < stop
  thread : i = (stop - 1) % r.world.threads.length
  skipped : ∀ k, start ≤ k → k + 1 < stop → ¬r.Eligible T phase (k % r.world.threads.length)

theorem not_eligible_of_skips {i : Nat} (h : r.world.skips T i = true) : ¬r.Eligible T .pick i := by
  rintro ⟨-, hlast⟩
  obtain ⟨c, hc, hskip⟩ := (Option.any_eq_true _ _).1 h
  obtain ⟨hparked, hwaits⟩ := hlast c hc
  simp [hparked, hwaits] at hskip

theorem not_eligible_of_skipsSchedule {i : Nat} (h : r.skipsSchedule T i = true) : ¬r.Eligible T .pickSchedule i := by
  intro heligible
  cases h.symm.trans (skipsSchedule_eq_false.2 heligible)

/-- One more thread that is not eligible. -/
theorem Scanned.cons {phase : Phase} {start i stop : Nat} (h : Scanned T r phase (start + 1) i stop)
    (hskip : ¬r.Eligible T phase (start % r.world.threads.length)) : Scanned T r phase start i stop where
  lt := Nat.lt_of_succ_lt h.lt
  thread := h.thread
  skipped k hk hlt := by
    obtain rfl | hlt' := Nat.eq_or_lt_of_le hk
    · exact hskip
    · exact h.skipped k hlt' hlt

theorem roundRobinPick_scanned : ∀ {left : Nat} {asked asked' : List Nat} {start i stop : Nat},
    roundRobinPick T r.world left asked start = .ok (i, asked', stop) → Scanned T r .pick start i stop
  | 0, _, _, _, _, _, h => by cases h
  | left + 1, asked, asked', start, i, stop, h => by
    unfold roundRobinPick at h
    dsimp only at h
    split at h
    · rename_i hskips
      exact (roundRobinPick_scanned h).cons (not_eligible_of_skips hskips)
    · cases h
      exact ⟨Nat.lt_succ_self _, rfl, fun k _ _ => by omega⟩

theorem roundRobinPickSchedule_scanned : ∀ {left start i stop : Nat},
    roundRobinPickSchedule T r left start = .ok (i, stop) → Scanned T r .pickSchedule start i stop
  | 0, _, _, _, h => by cases h
  | left + 1, start, i, stop, h => by
    unfold roundRobinPickSchedule at h
    dsimp only at h
    split at h
    · rename_i hskips
      exact (roundRobinPickSchedule_scanned h).cons (not_eligible_of_skipsSchedule hskips)
    · cases h
      exact ⟨Nat.lt_succ_self _, rfl, fun k _ _ => by omega⟩

/-- A scan that fails has skipped everything that it has looked at. -/
theorem roundRobinPick_deadlock {e : Halt} : ∀ {left : Nat} {asked : List Nat} {start : Nat},
    roundRobinPick T r.world left asked start = .error e →
      ∀ k < left, ¬r.Eligible T .pick ((start + k) % r.world.threads.length)
  | 0, _, _, _, k, hk => by omega
  | left + 1, asked, start, h, k, hk => by
    unfold roundRobinPick at h
    dsimp only at h
    split at h
    · rename_i hskips
      cases k with
      | zero => exact not_eligible_of_skips hskips
      | succ k =>
        rw [← Nat.add_assoc, Nat.add_right_comm]
        exact roundRobinPick_deadlock h k (by omega)
    · cases h

end Call

/-! ## Runs of calls -/

section Run

variable (T : Target σ κ ν) (V : StrategyVerifier ς κ α ν) (D : Dice γ)

/-- Calls of `Pick` and `PickSchedule`. Between two calls everything may change but the counter and the number of the
threads. -/
inductive Turns : Stage σ κ α ν ς ρ (PickState σ κ α ρ γ) → List (Turn σ κ α ν ς ρ) →
    Stage σ κ α ν ς ρ (PickState σ κ α ρ γ) → Prop
  | nil {st} : Turns st [] st
  | pick {st st' turns i asked p} : (roundRobinStrategy T V D).pick st.round st.policy = .ok (i, asked, p) →
      Turns ⟨st.round, p⟩ turns st' → Turns st (⟨st.round, .pick, i⟩ :: turns) st'
  | pickSchedule {st st' turns i p} : (roundRobinStrategy T V D).pickSchedule st.round st.policy = .ok (i, p) →
      Turns ⟨st.round, p⟩ turns st' → Turns st (⟨st.round, .pickSchedule, i⟩ :: turns) st'
  | between {st st₁ st' turns} : st₁.policy.nextTask = st.policy.nextTask →
      st₁.round.world.threads.length = st.round.world.threads.length → Turns st₁ turns st' → Turns st turns st'

variable {T V D} {st st' : Stage σ κ α ν ς ρ (PickState σ κ α ρ γ)} {turns before after : List (Turn σ κ α ν ς ρ)}

/-- A run in two parts. -/
theorem Turns.split (h : Turns T V D st (before ++ after) st') :
    ∃ st₁, Turns T V D st before st₁ ∧ Turns T V D st₁ after st' := by
  generalize hturns : before ++ after = turns at h
  induction h generalizing before with
  | nil =>
    obtain ⟨rfl, rfl⟩ := List.append_eq_nil_iff.1 hturns
    exact ⟨_, .nil, .nil⟩
  | pick hpick h ih =>
    cases before with
    | nil =>
      rw [List.nil_append] at hturns
      exact ⟨_, .nil, by rw [hturns]; exact .pick hpick h⟩
    | cons t before =>
      obtain ⟨rfl, hrest⟩ := List.cons.inj hturns
      obtain ⟨st₁, hbefore, hafter⟩ := ih hrest
      exact ⟨st₁, .pick hpick hbefore, hafter⟩
  | pickSchedule hpick h ih =>
    cases before with
    | nil =>
      rw [List.nil_append] at hturns
      exact ⟨_, .nil, by rw [hturns]; exact .pickSchedule hpick h⟩
    | cons t before =>
      obtain ⟨rfl, hrest⟩ := List.cons.inj hturns
      obtain ⟨st₁, hbefore, hafter⟩ := ih hrest
      exact ⟨st₁, .pickSchedule hpick hbefore, hafter⟩
  | between hnext hlen h ih =>
    obtain ⟨st₁, hbefore, hafter⟩ := ih hturns
    exact ⟨st₁, .between hnext hlen hbefore, hafter⟩

theorem Turns.length_threads (h : Turns T V D st turns st') :
    st'.round.world.threads.length = st.round.world.threads.length := by
  induction h with
  | nil => rfl
  | pick _ _ ih => exact ih
  | pickSchedule _ _ ih => exact ih
  | between _ hlen _ ih => rw [ih, hlen]

/-- The counter goes from `start` over the values of `turns` to `stop`. -/
structure Covered (T : Target σ κ ν) (n start stop : Nat) (turns : List (Turn σ κ α ν ς ρ)) : Prop where
  le : start + turns.length ≤ stop
  covers : ∀ k, start ≤ k → k < stop → ∃ t ∈ turns, t.thread = k % n ∨ ¬t.round.Eligible T t.phase (k % n)

/-- One call more. -/
theorem Covered.cons {r : Round σ κ α ν ς ρ} {phase : Phase} {start mid stop i : Nat}
    (h : Covered T r.world.threads.length mid stop turns) (hscanned : Scanned T r phase start i mid) :
    Covered T r.world.threads.length start stop (⟨r, phase, i⟩ :: turns) where
  le := by
    have hlt := hscanned.lt
    have hle := h.le
    rw [List.length_cons]
    omega
  covers k hk hlt := by
    by_cases hmid : mid ≤ k
    · obtain ⟨t, ht, hcovers⟩ := h.covers k hmid hlt
      exact ⟨t, List.mem_cons_of_mem _ ht, hcovers⟩
    · refine ⟨_, List.mem_cons_self, ?_⟩
      by_cases hlast : k + 1 = mid
      · left
        rw [hscanned.thread, ← hlast]
        rfl
      · exact .inr (hscanned.skipped k hk (by omega))

/-- **Every value of the counter** stands for a thread that is picked or not eligible. -/
theorem Turns.covers (h : Turns T V D st turns st') :
    Covered T st.round.world.threads.length st.policy.nextTask st'.policy.nextTask turns := by
  induction h with
  | nil => exact ⟨le_rfl, fun k hk hlt => by omega⟩
  | pick hpick _ ih =>
    obtain ⟨⟨i, asked, stop⟩, hscan, heq⟩ := map_eq_ok.1 hpick
    cases heq
    exact ih.cons (roundRobinPick_scanned hscan)
  | pickSchedule hpick _ ih =>
    obtain ⟨⟨i, stop⟩, hscan, heq⟩ := map_eq_ok.1 hpick
    cases heq
    exact ih.cons (roundRobinPickSchedule_scanned hscan)
  | between hnext hlen _ ih => rwa [hnext, hlen] at ih

/-- **No thread is starved**: in as many calls in a row as there are threads, a thread that is eligible at each of them is
picked; and a call only fails when no thread is eligible. -/
theorem roundRobin_fair (h : Turns T V D st turns st') :
    (∀ before window after, turns = before ++ window ++ after → window.length = st.round.world.threads.length →
      ∀ i < st.round.world.threads.length, (∀ t ∈ window, t.round.Eligible T t.phase i) → ∃ t ∈ window, t.thread = i) ∧
    (∀ e, (roundRobinStrategy T V D).pick st'.round st'.policy = .error e →
      e = .deadlock ∧ ∀ i, ¬st'.round.Eligible T .pick i) ∧
    (∀ e, (roundRobinStrategy T V D).pickSchedule st'.round st'.policy = .error e →
      e = .deadlock ∧ ∀ i, ¬st'.round.Eligible T .pickSchedule i) := by
  refine ⟨?_, fun e he => ?_, fun e he => ?_⟩
  · rintro before window after rfl hlength i hi heligible
    obtain ⟨st₂, hfirst, -⟩ := h.split
    obtain ⟨st₁, hbefore, hwindow⟩ := hfirst.split
    have hcovered := hwindow.covers
    have hle := hcovered.le
    rw [hbefore.length_threads] at hcovered
    -- the value of the counter that stands for the thread
    obtain ⟨k, hk, rfl⟩ := exists_add_mod st₁.policy.nextTask hi
    obtain ⟨t, ht, hpicked | hskipped⟩ := hcovered.covers (st₁.policy.nextTask + k) (Nat.le_add_right _ _) (by omega)
    · exact ⟨t, ht, hpicked⟩
    · exact absurd (heligible t ht) hskipped
  · refine ⟨IsPickStrategy.pick_error .roundRobin he, fun i hi => ?_⟩
    obtain ⟨k, hk, rfl⟩ := exists_add_mod st'.policy.nextTask hi.1
    exact roundRobinPick_deadlock (map_eq_error.1 he) k hk hi
  · have hspec := roundRobinPickSchedule_spec (T := T) (r := st'.round) st'.round.world.threads.length st'.policy.nextTask
    rw [map_eq_error.1 he] at hspec
    obtain ⟨i, p, hok, -⟩ | ⟨hdeadlock, hall⟩ := hspec
    · cases hok
    · cases hdeadlock
      refine ⟨rfl, fun i hi => ?_⟩
      obtain ⟨k, hk, rfl⟩ := exists_add_mod st'.policy.nextTask (Round.Runnable.lt_length (T := T) hi)
      exact hall k hk hi

/-- Two threads that have no tasks yet. -/
theorem roundRobin_fair_twoCounters :
    ∃ turns : List (Turn Nat Bool Unit Nat Unit Unit), ∃ st',
      Turns counterTarget defaultStrategyVerifier leastDice twoCounters turns st' ∧ turns.length = 2 ∧
      ∀ i < 2, (∀ t ∈ turns, t.round.Eligible counterTarget t.phase i) → ∃ t ∈ turns, t.thread = i := by
  have hfirst : counterStrategy.pick twoCounters.round twoCounters.policy =
      .ok (0, [], { twoCounters.policy with nextTask := 1 }) := rfl
  have hsecond : counterStrategy.pick twoCounters.round { twoCounters.policy with nextTask := 1 } =
      .ok (1, [], { twoCounters.policy with nextTask := 2 }) := rfl
  have hturns := Turns.pick hfirst (.pick hsecond .nil)
  exact ⟨_, _, hturns, rfl, (roundRobin_fair hturns).1 [] _ [] (by simp) rfl⟩

end Run

/-! ## Runs of the strategy -/

section Driven

variable [Inhabited ν] {T : Target σ κ ν} {V : StrategyVerifier ς κ α ν} {D : Dice γ}
  {st st' : Stage σ κ α ν ς ρ (PickState σ κ α ρ γ)}

/-- The thread that a call has picked. -/
def PolicyCall.turn : PolicyCall σ κ α ν ς ρ (PickState σ κ α ρ γ) → Option (Turn σ κ α ν ς ρ)
  | .next st t => some ⟨st.round, .pick, t.threadId⟩
  | .nextSchedule st t => some ⟨st.round, .pickSchedule, t.threadId⟩
  | .update _ => none

omit [Inhabited ν] in
theorem Turns.append {st₁ : Stage σ κ α ν ς ρ (PickState σ κ α ρ γ)} {turns turns' : List (Turn σ κ α ν ς ρ)}
    (h : Turns T V D st turns st₁) (h' : Turns T V D st₁ turns' st') : Turns T V D st (turns ++ turns') st' := by
  induction h with
  | nil => exact h'
  | pick hpick _ ih => exact .pick hpick (ih h')
  | pickSchedule hpick _ ih => exact .pickSchedule hpick (ih h')
  | between hnext hlen _ ih => exact .between hnext hlen (ih h')

/-- Constructing a task does not move the counter. -/
theorem roundRobin_next {t : Picked} (h : (roundRobinStrategy T V D).next st = .ok (t, st')) : ∃ asked p,
    (roundRobinStrategy T V D).pick st.round st.policy = .ok (t.threadId, asked, p) ∧
      st'.policy.nextTask = p.nextTask := by
  unfold Strategy.next at h
  obtain ⟨⟨i, asked, p⟩, hpick, h⟩ := bind_eq_ok.1 h
  unfold Strategy.nextOn at h
  dsimp only at h
  split at h
  · cases h
  · split at h
    · cases h
      exact ⟨asked, p, hpick, rfl⟩
    · obtain ⟨⟨b, v, p'⟩, hconstruct, h⟩ := bind_eq_ok.1 h
      cases h
      refine ⟨asked, p, hpick, ?_⟩
      replace hconstruct : pickConstruct D V _ i p = .ok (b, v, p') := hconstruct
      unfold pickConstruct at hconstruct
      split at hconstruct
      · cases hconstruct
      · cases hconstruct
      · cases hconstruct
        rfl

/-- **A run of the strategy** is such a run of calls. -/
theorem Driven.turns {init : Stage σ κ α ν ς ρ (PickState σ κ α ρ γ) → Prop}
    {es : List (PolicyCall σ κ α ν ς ρ (PickState σ κ α ρ γ))} (h : Driven (roundRobinStrategy T V D) init es st) :
    ∃ st₀, init st₀ ∧ Turns T V D st₀ (es.filterMap PolicyCall.turn) st := by
  induction h with
  | start hinit => exact ⟨_, hinit, .nil⟩
  | next _ hnext ih =>
    obtain ⟨st₀, hinit, hturns⟩ := ih
    obtain ⟨asked, p, hpick, hcounter⟩ := roundRobin_next hnext
    have hlength := next_length hnext
    refine ⟨st₀, hinit, ?_⟩
    rw [List.filterMap_append]
    exact hturns.append (.pick hpick (.between hcounter hlength .nil))
  | nextSchedule _ hnext ih =>
    obtain ⟨st₀, hinit, hturns⟩ := ih
    obtain ⟨⟨i, p⟩, hpick, h⟩ := bind_eq_ok.1 hnext
    refine ⟨st₀, hinit, ?_⟩
    rw [List.filterMap_append]
    dsimp only at h
    split at h
    · cases h
      refine hturns.append (.pickSchedule hpick ?_)
      refine .between ?_ ?_ .nil <;> rfl
    · cases h
  | resetCurrentRound _ hreset ih =>
    obtain ⟨st₀, hinit, hturns⟩ := ih
    obtain ⟨w, _, hrestarted⟩ := restarted_of_reset hreset
    refine ⟨st₀, hinit, ?_⟩
    rw [List.filterMap_append]
    exact hturns.append (.between (by rw [resetCurrentRound_policy hreset]; rfl)
      (by simpa using congrArg List.length hrestarted.alike) .nil)
  | startNextRound _ hstart ih =>
    obtain ⟨st₀, hinit, hturns⟩ := ih
    obtain ⟨_, _, hpolicy, hlength⟩ := startNextRound_eq_ok hstart
    refine ⟨st₀, hinit, ?_⟩
    rw [List.filterMap_append]
    exact hturns.append (.between (by rw [hpolicy]; rfl) hlength .nil)
  | between _ hpolicy hlength ih =>
    obtain ⟨st₀, hinit, hturns⟩ := ih
    refine ⟨st₀, hinit, ?_⟩
    rw [← List.append_nil (List.filterMap _ _)]
    exact hturns.append (.between (by rw [hpolicy]) hlength .nil)

end Driven

end Ltest
