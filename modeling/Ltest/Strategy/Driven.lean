import Ltest.Strategy.Admission

/-!
# What a scheduler asks of a strategy

What a strategy remembers changes only when the scheduler calls `Next`, `NextSchedule`, `ResetCurrentRound` or
`StartNextRound`. `Driven S init es st` says that it can be in state `st` after the calls `es`, whatever happens to the
round between them; the loops of the scheduler are such calls (`Driven.generate`, `Driven.explore`, `Driven.replay`).

`PctStrategy` draws the change points of a round from the average number of calls in the earlier ones. A replay makes no
calls but is counted, so the average reaches `0` after enough of them (`pct_samples_iff`).
-/

namespace Ltest

open Program

variable {σ κ α ν ς ρ π γ : Type}

/-- A call that changes what a strategy remembers, with the state before it; a `picked` call returns a task. -/
inductive PolicyCall (σ κ α ν ς ρ π : Type) where
  | next (st : Stage σ κ α ν ς ρ π) (t : Picked)
  | nextSchedule (st : Stage σ κ α ν ς ρ π) (t : Picked)
  | update (st : Stage σ κ α ν ς ρ π)

/-- The state before a call. -/
def PolicyCall.before : PolicyCall σ κ α ν ς ρ π → Stage σ κ α ν ς ρ π
  | .next st _ => st
  | .nextSchedule st _ => st
  | .update st => st

/-- `ResetCurrentRound` and `StartNextRound`. -/
def PolicyCall.isUpdate : PolicyCall σ κ α ν ς ρ π → Bool
  | .update _ => true
  | _ => false

/-- The states of a strategy that is started in a state of `init`, and the calls so far. -/
inductive Driven [Inhabited ν] (S : Strategy σ κ α ν ς ρ π) (init : Stage σ κ α ν ς ρ π → Prop) :
    List (PolicyCall σ κ α ν ς ρ π) → Stage σ κ α ν ς ρ π → Prop
  | start {st : Stage σ κ α ν ς ρ π} : init st → Driven S init [] st
  | next {es : List (PolicyCall σ κ α ν ς ρ π)} {st st' : Stage σ κ α ν ς ρ π} {t : Picked} : Driven S init es st →
      S.next st = .ok (t, st') → Driven S init (es ++ [.next st t]) st'
  | nextSchedule {es : List (PolicyCall σ κ α ν ς ρ π)} {st st' : Stage σ κ α ν ς ρ π} {t : Picked} : Driven S init es st →
      S.nextSchedule st = .ok (t, st') → Driven S init (es ++ [.nextSchedule st t]) st'
  | resetCurrentRound {es : List (PolicyCall σ κ α ν ς ρ π)} {st st' : Stage σ κ α ν ς ρ π} {fuel : Nat} :
      Driven S init es st → S.resetCurrentRound fuel st = .ok st' → Driven S init (es ++ [.update st]) st'
  | startNextRound {es : List (PolicyCall σ κ α ν ς ρ π)} {st st' : Stage σ κ α ν ς ρ π} {fuel : Nat} :
      Driven S init es st → S.startNextRound fuel st = .ok st' → Driven S init (es ++ [.update st]) st'
  | between {es : List (PolicyCall σ κ α ν ς ρ π)} {st st' : Stage σ κ α ν ς ρ π} : Driven S init es st →
      st'.policy = st.policy → st'.round.world.threads.length = st.round.world.threads.length → Driven S init es st'

section Driven

variable [Inhabited ν] {S : Strategy σ κ α ν ς ρ π} {init : Stage σ κ α ν ς ρ π → Prop}
  {es : List (PolicyCall σ κ α ν ς ρ π)} {st st' : Stage σ κ α ν ς ρ π}

theorem length_resume {T : Target σ κ ν} {w w' : World σ κ α ν} {slot : Slot} (h : w.resume T slot = .ok w') :
    w'.threads.length = w.threads.length := by
  simpa using congrArg List.length (alike_resume h)

theorem resetCurrentRound_policy {fuel : Nat} (h : S.resetCurrentRound fuel st = .ok st') :
    st'.policy = S.update st.policy := by
  obtain ⟨r, _, h⟩ := bind_eq_ok.1 h
  obtain ⟨r₀, _, h⟩ := bind_eq_ok.1 h
  cases h
  rfl

/-- The calls before a call lead to the state before it. -/
theorem Driven.prior (h : Driven S init es st) : ∀ {before after : List (PolicyCall σ κ α ν ς ρ π)}
    {e : PolicyCall σ κ α ν ς ρ π}, es = before ++ e :: after → Driven S init before e.before := by
  have hlast : ∀ {es before after : List (PolicyCall σ κ α ν ς ρ π)} {e e' : PolicyCall σ κ α ν ς ρ π},
      es ++ [e'] = before ++ e :: after → (es = before ∧ e' = e) ∨ ∃ after', es = before ++ e :: after' := by
    intro es before after e e' heq
    rcases List.eq_nil_or_concat' after with rfl | ⟨after', x, rfl⟩
    · obtain ⟨rfl, hx⟩ := List.append_inj' heq rfl
      exact .inl ⟨rfl, by simpa using hx⟩
    · rw [← List.cons_append, ← List.append_assoc] at heq
      exact .inr ⟨after', (List.append_inj' heq rfl).1⟩
  induction h with
  | start _ => intro before after e heq; simp at heq
  | next hdriven _ ih | nextSchedule hdriven _ ih | resetCurrentRound hdriven _ ih | startNextRound hdriven _ ih =>
    intro before after e heq
    rcases hlast heq with ⟨rfl, rfl⟩ | ⟨after', hes⟩
    · exact hdriven
    · exact ih hes
  | between _ _ _ ih => exact ih

/-- **`RunRound`** calls `Next` once for each resume. -/
theorem Driven.generate {fuel maxTasks : Nat} {h : BothHistories ν} (hdriven : Driven S init es st)
    (hrun : S.generate fuel maxTasks st = .ok (h, st')) :
    ∃ es', Driven S init (es ++ es') st' ∧ es'.length = h.full.length ∧ ∀ e ∈ es', e.isUpdate = false := by
  refine playTasks_rule (I := fun _ st h => ∃ es', Driven S init (es ++ es') st ∧ es'.length = h.full.length ∧
    ∀ e ∈ es', e.isUpdate = false) (fun left st h t st₁ task w hI hnext hresume _ => ?_) fuel maxTasks
    ⟨[], by simpa using hdriven, rfl, by simp⟩ hrun
  obtain ⟨es', hdriven', hlen, hcalls⟩ := hI
  have hfull : ((h.push t).respond t task).full = h.full ++ [t.slot] := by
    unfold BothHistories.respond
    split <;> rfl
  have hthen : Driven S init (es ++ (es' ++ [.next st t])) (st₁.withWorld w) := by
    rw [← List.append_assoc]
    exact (hdriven'.next hnext).between rfl (length_resume hresume)
  have hcalls' : ∀ e ∈ es' ++ [.next st t], e.isUpdate = false := by
    rw [List.forall_mem_append]
    exact ⟨hcalls, by simp [PolicyCall.isUpdate]⟩
  split
  · exact ⟨_, hthen.between rfl rfl, by rw [hfull]; simp [hlen], hcalls'⟩
  · exact ⟨_, hthen, by rw [hfull]; simp [hlen], hcalls'⟩

/-- Calls of `Next` one after the other. -/
theorem Driven.playCalls : ∀ (left : Nat) {es : List (PolicyCall σ κ α ν ς ρ π)} {st st' : Stage σ κ α ν ς ρ π}
    {calls : List (NextCall σ κ α ν ς ρ π)}, Driven S init es st → Ltest.playCalls S left st = .ok (calls, st') →
    Driven S init (es ++ calls.map fun c => .next c.before c.picked) st'
  | 0, es, st, st', calls, h, hrun => by
    cases hrun
    simpa using h
  | left + 1, es, st, st', calls, h, hrun => by
    unfold Ltest.playCalls at hrun
    obtain ⟨⟨t, st₁⟩, hnext, hrun⟩ := bind_eq_ok.1 hrun
    obtain ⟨w, hresume, hrun⟩ := bind_eq_ok.1 hrun
    split at hrun
    · cases hrun
    · rename_i task htask
      obtain ⟨⟨calls', st''⟩, hrest, hrun⟩ := bind_eq_ok.1 hrun
      cases hrun
      have hthen : Driven S init (es ++ [.next st t]) (st₁.withWorld w) :=
        (h.next hnext).between rfl (length_resume hresume)
      rw [List.map_cons, List.append_cons]
      refine Driven.playCalls left ?_ hrest
      split
      · exact hthen.between rfl rfl
      · exact hthen

/-- **`ExploreRound`** resets the round and calls `NextSchedule` once for each resume. -/
theorem Driven.explore {fuel : Nat} {h : BothHistories ν} (hdriven : Driven S init es st)
    (hrun : S.explore fuel st = .ok (h, st')) : ∃ es', Driven S init (es ++ .update st :: es') st' ∧
      es'.length = h.full.length ∧ ∀ e ∈ es', e.isUpdate = false := by
  obtain ⟨st₀, hreset, hrun⟩ := explore_eq_ok.1 hrun
  refine playTasks_rule (I := fun _ st' h => ∃ es' : List (PolicyCall σ κ α ν ς ρ π),
    Driven S init (es ++ .update st :: es') st' ∧ es'.length = h.full.length ∧ ∀ e ∈ es', e.isUpdate = false)
    (fun left st' h t st₁ task w hI hnext hresume _ => ?_) fuel _ ⟨[], hdriven.resetCurrentRound hreset, rfl, by simp⟩ hrun
  obtain ⟨es', hdriven', hlen, hcalls⟩ := hI
  have hfull : ((h.push t).respond t task).full = h.full ++ [t.slot] := by
    unfold BothHistories.respond
    split <;> rfl
  have hthen : Driven S init (es ++ .update st :: (es' ++ [.nextSchedule st' t])) (st₁.withWorld w) := by
    rw [← List.cons_append, ← List.append_assoc]
    exact (hdriven'.nextSchedule hnext).between rfl (length_resume hresume)
  have hcalls' : ∀ e ∈ es' ++ [.nextSchedule st' t], e.isUpdate = false := by
    rw [List.forall_mem_append]
    exact ⟨hcalls, by simp [PolicyCall.isUpdate]⟩
  split <;> exact ⟨_, hthen, by rw [hfull]; simp [hlen], hcalls'⟩

/-- **`ReplayRound`** only resets the round. -/
theorem Driven.replay {fuel : Nat} {ids : List Int} {h : BothHistories ν} (hdriven : Driven S init es st)
    (hrun : S.replay fuel ids st = .ok (h, st')) : Driven S init (es ++ [.update st]) st' := by
  obtain ⟨st₀, r, hreset, hloop, rfl⟩ := replay_eq_ok.1 hrun
  obtain ⟨ha, _⟩ := replayTasks_alike ids hloop
  exact (hdriven.resetCurrentRound hreset).between rfl (by simpa using congrArg List.length ha)

/-- Marking a task changes nothing that a strategy remembers. -/
theorem Driven.setTaskRemoved (hdriven : Driven S init es st) (id : Int) (isRemoved : Bool) :
    Driven S init es (st.setTaskRemoved id isRemoved) := hdriven.between rfl rfl

end Driven

/-! ## The average length of a round -/

section Statistics

variable [Inhabited ν] {T : Target σ κ ν} {V : StrategyVerifier ς κ α ν} {D : Dice γ} {threadsCount fuel : Nat}
  {forbidAllSame : Bool} {init : Stage σ κ α ν ς ρ (PctState σ κ α ρ γ) → Prop}
  {es : List (PolicyCall σ κ α ν ς ρ (PctState σ κ α ρ γ))} {st st₁ : Stage σ κ α ν ς ρ (PctState σ κ α ρ γ)} {t : Picked}

/-- What the two calls that pick a task do to the fields of `PctStrategy`: only the generator may differ. -/
structure Picks (p : PctState σ κ α ρ γ) (threadId : Nat) (p' : PctState σ κ α ρ γ) : Prop where
  constructors : p'.constructors = p.constructors
  kStatistics : p'.kStatistics = p.kStatistics
  currentDepth : p'.currentDepth = p.currentDepth
  currentScheduleLength : p'.currentScheduleLength = p.currentScheduleLength + 1
  priorities : p'.priorities = (p.changePriority threadId).priorities
  priorityChangePoints : p'.priorityChangePoints = p.priorityChangePoints

omit [Inhabited ν] in
theorem picks_changePriority (p : PctState σ κ α ρ γ) (i : Nat) : Picks p i (p.changePriority i) :=
  ⟨rfl, rfl, rfl, rfl, rfl, rfl⟩

omit [Inhabited ν] in
/-- Building a task only uses the generator. -/
theorem pctConstruct_policy {r : Round σ κ α ν ς ρ} {i : Nat} {p p' : PctState σ κ α ρ γ} {b : TaskBuilder σ κ α ρ} {v : ς}
    (h : pctConstruct D V forbidAllSame fuel r i p = .ok (b, v, p')) : ∃ g, p' = { p with rng := g } := by
  unfold pctConstruct at h
  split at h
  · cases h
  · split at h
    · split at h
      · cases h
      · cases h
        exact ⟨_, rfl⟩
    · cases h
      exact ⟨_, rfl⟩

/-- **What `Next` does to the fields of `PctStrategy`.** -/
theorem pct_next_picks (h : (pctStrategy T V D threadsCount forbidAllSame fuel).next st = .ok (t, st₁)) :
    Picks st.policy t.threadId st₁.policy ∧ t.threadId = (scanPriorities (st.round.world.skips T) st.policy.priorities
      (List.range st.round.world.threads.length) (0, 0)).2 := by
  unfold Strategy.next at h
  obtain ⟨⟨i, asked, p⟩, hpick, h⟩ := bind_eq_ok.1 h
  unfold pctStrategy at hpick
  dsimp only at hpick
  split at hpick
  · cases hpick
  · cases hpick
    unfold Strategy.nextOn at h
    dsimp only at h
    split at h
    · cases h
    · split at h
      · cases h
        exact ⟨picks_changePriority _ _, rfl⟩
      · obtain ⟨⟨b, v, p'⟩, hconstruct, h⟩ := bind_eq_ok.1 h
        cases h
        obtain ⟨g, rfl⟩ := pctConstruct_policy hconstruct
        exact ⟨⟨rfl, rfl, rfl, rfl, rfl, rfl⟩, rfl⟩

omit [Inhabited ν] in
/-- **What `NextSchedule` does to them.** -/
theorem pct_nextSchedule_picks (h : (pctStrategy T V D threadsCount forbidAllSame fuel).nextSchedule st = .ok (t, st₁)) :
    Picks st.policy t.threadId st₁.policy ∧ t.threadId = (scanPriorities (st.round.skipsSchedule T) st.policy.priorities
      (List.range st.round.world.threads.length) (0, 0)).2 := by
  unfold Strategy.nextSchedule at h
  obtain ⟨⟨i, p⟩, hpick, h⟩ := bind_eq_ok.1 h
  cases hpick
  dsimp only at h
  split at h
  · cases h
    exact ⟨picks_changePriority _ _, rfl⟩
  · cases h

/-- A `PctStrategy` that has just been constructed. -/
def Constructed (D : Dice γ) (threadsCount : Nat) (st : Stage σ κ α ν ς ρ (PctState σ κ α ρ γ)) : Prop :=
  st.round.world.threads.length = threadsCount ∧
    ∃ constructors g, constructors ≠ [] ∧ st.policy = pctStart D threadsCount constructors g

/-- What `k_statistics` has recorded. -/
structure Recording (es : List (PolicyCall σ κ α ν ς ρ π)) (p : PctState σ κ α ρ γ) : Prop where
  depth : 1 ≤ p.currentDepth
  updates : p.kStatistics.length = es.countP PolicyCall.isUpdate
  picked : p.kStatistics.sum + p.currentScheduleLength = es.countP fun e => !e.isUpdate

omit [Inhabited ν] in
theorem Recording.picks {p p' : PctState σ κ α ρ γ} {es : List (PolicyCall σ κ α ν ς ρ π)}
    (h : Recording es p) {i : Nat} (hpicks : Picks p i p') {e : PolicyCall σ κ α ν ς ρ π} (he : e.isUpdate = false) :
    Recording (es ++ [e]) p' := by
  refine ⟨by rw [hpicks.currentDepth]; exact h.depth, ?_, ?_⟩
  · rw [hpicks.kStatistics, h.updates]
    simp [he]
  · rw [hpicks.kStatistics, hpicks.currentScheduleLength, ← Nat.add_assoc, h.picked]
    simp [he]

omit [Inhabited ν] in
theorem Recording.update {p : PctState σ κ α ρ γ} {es : List (PolicyCall σ κ α ν ς ρ π)}
    (h : Recording es p) (st : Stage σ κ α ν ς ρ π) : Recording (es ++ [.update st]) (p.updateStatistics D threadsCount) := by
  refine ⟨?_, ?_, ?_⟩
  · show 1 ≤ if p.currentDepth + 1 ≥ 50 then 50 else p.currentDepth + 1
    split <;> omega
  · show (p.kStatistics ++ [p.currentScheduleLength]).length = _
    simp [h.updates, PolicyCall.isUpdate]
  · show (p.kStatistics ++ [p.currentScheduleLength]).sum + 0 = _
    simp [h.picked, PolicyCall.isUpdate]

theorem Driven.recording (h : Driven (pctStrategy T V D threadsCount forbidAllSame fuel) (Constructed D threadsCount) es st) :
    Recording es st.policy := by
  induction h with
  | start hinit =>
    obtain ⟨_, constructors, g, _, hpolicy⟩ := hinit
    rw [hpolicy]
    exact ⟨Nat.le_refl 1, rfl, rfl⟩
  | next _ hnext ih => exact ih.picks (pct_next_picks hnext).1 rfl
  | nextSchedule _ hnext ih => exact ih.picks (pct_nextSchedule_picks hnext).1 rfl
  | resetCurrentRound _ hreset ih =>
    rw [resetCurrentRound_policy hreset]
    exact ih.update _
  | startNextRound _ hstart ih =>
    rw [(startNextRound_eq_ok hstart).2.2.1]
    exact ih.update _
  | between _ hpolicy _ ih =>
    rw [hpolicy]
    exact ih

/-- If an update draws change points, it draws them from a range that is not empty. -/
def SamplesRange (D : Dice γ) (threadsCount : Nat) (st : Stage σ κ α ν ς ρ (PctState σ κ α ρ γ)) : Prop :=
  1 < (st.policy.updateStatistics D threadsCount).currentDepth →
    1 ≤ PctState.newK (st.policy.kStatistics ++ [st.policy.currentScheduleLength])

omit [Inhabited ν] in
theorem samplesRange_iff {es : List (PolicyCall σ κ α ν ς ρ π)} (h : Recording es st.policy) :
    SamplesRange D threadsCount st ↔ es.countP PolicyCall.isUpdate < es.countP fun e => !e.isUpdate := by
  have hdepth : 1 < (st.policy.updateStatistics D threadsCount).currentDepth := by
    show 1 < if st.policy.currentDepth + 1 ≥ 50 then 50 else st.policy.currentDepth + 1
    have := h.depth
    split <;> omega
  unfold SamplesRange PctState.newK
  rw [imp_iff_right hdepth, Nat.le_div_iff_mul_le (by simp), ← h.updates, ← h.picked]
  simp only [List.length_append, List.length_singleton, List.sum_append, List.sum_singleton]
  omega

/-- **When `PctStrategy` samples from a range that is not empty**: in every run, if and only if before each reset and each new
round more tasks have been picked than rounds have been reset or begun. -/
theorem pct_samples_iff
    (h : Driven (pctStrategy T V D threadsCount forbidAllSame fuel) (Constructed D threadsCount) es st) :
    (∀ st', .update st' ∈ es → SamplesRange D threadsCount st') ↔
      ∀ before st' after, es = before ++ .update st' :: after →
        before.countP PolicyCall.isUpdate < before.countP fun e => !e.isUpdate := by
  constructor
  · rintro hall before st' after rfl
    exact (samplesRange_iff (h.prior rfl).recording).1 (hall st' (by simp))
  · intro hcount st' hst'
    obtain ⟨before, after, hes⟩ := List.append_of_mem hst'
    exact (samplesRange_iff (h.prior hes).recording).2 (hcount before st' after hes)

end Statistics

theorem freshPct_constructed : Constructed cyclicDice 2 (freshPct ["Lock"]) :=
  ⟨rfl, [counterBuilder "Lock"], 0, by simp, rfl⟩

/-- A round of one task, and three replays of it. -/
def threeReplays : Except Halt (Stage Nat Bool Unit Nat (Nat → Nat) Unit (PctState Nat Bool Unit Unit Nat) ×
    Stage Nat Bool Unit Nat (Nat → Nat) Unit (PctState Nat Bool Unit Unit Nat)) := do
  let (_, st) ← (pctCounters false).generate 10 1 (freshPct ["Lock"])
  let (_, st) ← (pctCounters false).replay 10 [0, 0] st
  let (_, st) ← (pctCounters false).replay 10 [0, 0] st
  let (_, st') ← (pctCounters false).replay 10 [0, 0] st
  return (st, st')

theorem threeReplays_driven {st st' : Stage Nat Bool Unit Nat (Nat → Nat) Unit (PctState Nat Bool Unit Unit Nat)}
    (h : threeReplays = .ok (st, st')) :
    ∃ es, Driven (pctCounters false) (Constructed cyclicDice 2) (es ++ [.update st]) st' := by
  obtain ⟨⟨h₀, st₀⟩, hgen, h⟩ := bind_eq_ok.1 h
  obtain ⟨⟨h₁, st₁⟩, hfirst, h⟩ := bind_eq_ok.1 h
  obtain ⟨⟨h₂, st₂⟩, hsecond, h⟩ := bind_eq_ok.1 h
  obtain ⟨⟨h₃, st₃⟩, hthird, h⟩ := bind_eq_ok.1 h
  cases h
  obtain ⟨es, hdriven, _⟩ := (Driven.start freshPct_constructed).generate hgen
  exact ⟨_, ((hdriven.replay hfirst).replay hsecond).replay hthird⟩

/-- **An empty range**: a round of one task of two steps is replayed three times. -/
theorem pct_samples_empty : ∃ es st', Driven (pctCounters false) (Constructed cyclicDice 2) es st' ∧
    ∃ st, .update st ∈ es ∧ ¬SamplesRange cyclicDice 2 st := by
  obtain ⟨⟨st, st'⟩, hrun, hseen⟩ := ok_of_toOption (x := threeReplays)
    (f := fun (st, _) => decide (1 < (st.policy.updateStatistics cyclicDice 2).currentDepth ∧
      PctState.newK (st.policy.kStatistics ++ [st.policy.currentScheduleLength]) = 0))
    (b := true) (by decide +kernel)
  rw [decide_eq_true_eq] at hseen
  obtain ⟨es, hdriven⟩ := threeReplays_driven hrun
  refine ⟨_, st', hdriven, st, by simp, fun hsamples => ?_⟩
  have := hsamples hseen.1
  omega

/-- The same run, by the number of its calls. -/
theorem pct_samples_iff_threeReplays : ∃ es st', Driven (pctCounters false) (Constructed cyclicDice 2) es st' ∧ es ≠ [] ∧
    ((∀ st, .update st ∈ es → SamplesRange cyclicDice 2 st) ↔ ∀ before st after, es = before ++ .update st :: after →
      before.countP PolicyCall.isUpdate < before.countP fun e => !e.isUpdate) := by
  obtain ⟨⟨st, st'⟩, hrun, _⟩ := ok_of_toOption (x := threeReplays) (f := fun _ => ()) (b := ()) (by decide +kernel)
  obtain ⟨es, hdriven⟩ := threeReplays_driven hrun
  exact ⟨_, st', hdriven, by simp, pct_samples_iff hdriven⟩

end Ltest
