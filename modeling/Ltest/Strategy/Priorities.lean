import Ltest.Strategy.Driven

/-!
# The priorities of `PctStrategy`

At a change point the picked thread is to fall below all threads that have not been demoted in the round (`Below`), so that
it runs again only when they wait. The change point of index `i` gives it the priority `current_depth - i`, and the initial
priorities begin at `current_depth`: the first change point leaves it level with the thread that began lowest. The priorities
change as they should if and only if that thread is not there any more (`pct_demotes_iff`).
-/

namespace Ltest

open Program

variable {σ κ α ν ς ρ π γ : Type}

/-! ## Change points -/

/-- A change point is reached by the next pick. -/
def PctState.fires (p : PctState σ κ α ρ γ) : Prop := p.currentScheduleLength + 1 ∈ p.priorityChangePoints

instance (p : PctState σ κ α ρ γ) : Decidable p.fires := inferInstanceAs (Decidable (_ ∈ _))

/-- The next pick reaches the change point of index `0` and no other. -/
def PctState.firesFirst (p : PctState σ κ α ρ γ) : Prop :=
  p.priorityChangePoints[0]? = some (p.currentScheduleLength + 1) ∧
    ∀ i, 0 < i → p.priorityChangePoints[i]? ≠ some (p.currentScheduleLength + 1)

/-- **The change points of one step**: the last of them counts. -/
theorem foldl_changePoints (step threadId depth : Nat) : ∀ (points : List Nat) (start : Nat) (priorities : List Nat),
    (step ∉ points ∧ (points.zipIdx start).foldl (fun priorities (point, i) =>
      if step = point then priorities.set threadId (depth - i) else priorities) priorities = priorities) ∨
    ∃ i, points[i]? = some step ∧ (∀ j, i < j → points[j]? ≠ some step) ∧
      (points.zipIdx start).foldl (fun priorities (point, i) =>
        if step = point then priorities.set threadId (depth - i) else priorities) priorities =
          priorities.set threadId (depth - (start + i))
  | [], _, _ => .inl ⟨by simp, rfl⟩
  | point :: points, start, priorities => by
    rw [List.zipIdx_cons, List.foldl_cons]
    dsimp only
    rcases foldl_changePoints step threadId depth points (start + 1)
      (if step = point then priorities.set threadId (depth - start) else priorities) with
      ⟨hnone, hfold⟩ | ⟨i, hi, hlast, hfold⟩
    · rw [hfold]
      by_cases hstep : step = point
      · refine .inr ⟨0, by simp [hstep], fun j hj hpoint => ?_, by simp [hstep]⟩
        obtain ⟨k, rfl⟩ := Nat.exists_eq_succ_of_ne_zero (Nat.ne_of_gt hj)
        rw [List.getElem?_cons_succ] at hpoint
        exact hnone (List.mem_of_getElem? hpoint)
      · exact .inl ⟨by simp [hstep, hnone], by simp [hstep]⟩
    · rw [hfold]
      refine .inr ⟨i + 1, by simpa using hi, fun j hj hpoint => ?_, ?_⟩
      · obtain ⟨k, rfl⟩ := Nat.exists_eq_succ_of_ne_zero (show j ≠ 0 by omega)
        rw [List.getElem?_cons_succ] at hpoint
        exact hlast k (by omega) hpoint
      · rw [Nat.add_right_comm, ← Nat.add_assoc]
        split <;> simp

/-- **What the check whether a priority change is required does.** -/
theorem changePriority_priorities (p : PctState σ κ α ρ γ) (threadId : Nat) :
    (¬p.fires ∧ (p.changePriority threadId).priorities = p.priorities) ∨
    (p.fires ∧ ∃ i, p.priorityChangePoints[i]? = some (p.currentScheduleLength + 1) ∧
      (∀ j, i < j → p.priorityChangePoints[j]? ≠ some (p.currentScheduleLength + 1)) ∧
      (p.changePriority threadId).priorities = p.priorities.set threadId (p.currentDepth - i)) := by
  rcases foldl_changePoints (p.currentScheduleLength + 1) threadId p.currentDepth p.priorityChangePoints 0 p.priorities with
    ⟨hnone, hfold⟩ | ⟨i, hi, hlast, hfold⟩
  · exact .inl ⟨hnone, hfold⟩
  · rw [Nat.zero_add] at hfold
    exact .inr ⟨List.mem_of_getElem? hi, i, hi, hlast, hfold⟩

/-! ## Demoted threads -/

namespace PolicyCall

/-- The thread of a call that picks a task. -/
def threadId : PolicyCall σ κ α ν ς ρ π → Option Nat
  | .next _ t => some t.threadId
  | .nextSchedule _ t => some t.threadId
  | .update _ => none

/-- The threads that a call passes over. -/
def skipped (T : Target σ κ ν) : PolicyCall σ κ α ν ς ρ π → Nat → Bool
  | .next st _ => st.round.world.skips T
  | .nextSchedule st _ => st.round.skipsSchedule T
  | .update _ => fun _ => true

end PolicyCall

/-- The threads that have been demoted by a change point in this round, after one more call. -/
def demotedBy (demoted : Finset Nat) (e : PolicyCall σ κ α ν ς ρ (PctState σ κ α ρ γ)) : Finset Nat :=
  match e.threadId with
  | some i => if e.before.policy.fires then insert i demoted else demoted
  | none => ∅

/-- The threads that have been demoted in this round. -/
def demoted (es : List (PolicyCall σ κ α ν ς ρ (PctState σ κ α ρ γ))) : Finset Nat := es.foldl demotedBy ∅

@[simp] theorem demoted_snoc (es : List (PolicyCall σ κ α ν ς ρ (PctState σ κ α ρ γ)))
    (e : PolicyCall σ κ α ν ς ρ (PctState σ κ α ρ γ)) : demoted (es ++ [e]) = demotedBy (demoted es) e := by
  simp [demoted]

/-- Every demoted thread has a lower priority than every thread that has not been demoted. -/
def Below (threadsCount : Nat) (demoted : Finset Nat) (p : PctState σ κ α ρ γ) : Prop :=
  ∀ t ∈ demoted, ∀ u < threadsCount, u ∉ demoted → p.priorities.getD t 0 < p.priorities.getD u 0

/-- A demoted thread is picked only if all threads that have not been demoted are passed over. -/
def Yields (T : Target σ κ ν) (threadsCount : Nat) (demoted : Finset Nat)
    (e : PolicyCall σ κ α ν ς ρ (PctState σ κ α ρ γ)) : Prop :=
  ∀ t ∈ e.threadId, t ∈ demoted → ∀ u < threadsCount, u ∉ demoted → e.skipped T u = true

/-- When a call reaches the change point of index `0` and no other, no other thread that has not been demoted has the lowest
initial priority. -/
def LeavesLowest (threadsCount : Nat) (demoted : Finset Nat) (e : PolicyCall σ κ α ν ς ρ (PctState σ κ α ρ γ)) : Prop :=
  ∀ t ∈ e.threadId, e.before.policy.firesFirst → ∀ u < threadsCount, u ≠ t → u ∉ demoted →
    e.before.policy.priorities.getD u 0 ≠ e.before.policy.currentDepth

/-- What `PrepareForDepth` leaves, and what the picks keep of it. -/
structure Prepared (threadsCount : Nat) (demoted : Finset Nat) (p : PctState σ κ α ρ γ) : Prop where
  depth : 1 ≤ p.currentDepth
  size : p.priorities.length = threadsCount
  initial : ∀ u < threadsCount, u ∉ demoted → p.currentDepth ≤ p.priorities.getD u 0

section Prepared

variable {T : Target σ κ ν} {D : Dice γ} {threadsCount : Nat} {p p' : PctState σ κ α ρ γ} {before : Finset Nat}
  {e : PolicyCall σ κ α ν ς ρ (PctState σ κ α ρ γ)}

/-- **The initial priorities** begin at `current_depth`. -/
theorem prepared_prepareForDepth (depth k : Nat) (p : PctState σ κ α ρ γ) (hdepth : 1 ≤ p.currentDepth) :
    Prepared threadsCount ∅ (PctState.prepareForDepth D threadsCount depth k p) := by
  have hperm := D.shuffle_perm ((List.range threadsCount).map fun i => p.currentDepth + i) p.rng
  refine ⟨hdepth, hperm.length_eq.trans (by simp), fun u hu _ => ?_⟩
  have hsize : u < (D.shuffle ((List.range threadsCount).map fun i => p.currentDepth + i) p.rng).1.length := by
    rw [hperm.length_eq]
    simpa using hu
  have hmem := hperm.mem_iff.1 (List.getElem_mem hsize)
  obtain ⟨i, _, hi⟩ := List.mem_map.1 hmem
  show p.currentDepth ≤ (D.shuffle ((List.range threadsCount).map fun i => p.currentDepth + i) p.rng).1.getD u 0
  rw [List.getD_eq_getElem?_getD, List.getElem?_eq_getElem hsize, Option.getD_some, ← hi]
  omega

theorem prepared_updateStatistics (p : PctState σ κ α ρ γ) : Prepared threadsCount ∅ (p.updateStatistics D threadsCount) := by
  refine prepared_prepareForDepth _ _ _ ?_
  dsimp only
  split <;> omega

/-- What a pick keeps of it. -/
theorem Prepared.picks {t : Nat} (h : Prepared threadsCount before e.before.policy) (he : e.threadId = some t)
    (hpicks : Picks e.before.policy t p') : Prepared threadsCount (demotedBy before e) p' := by
  unfold demotedBy
  rw [he]
  dsimp only
  rcases changePriority_priorities e.before.policy t with ⟨hfires, hsame⟩ | ⟨hfires, i, _, _, hset⟩
  · rw [if_neg hfires]
    exact ⟨by rw [hpicks.currentDepth]; exact h.depth, by rw [hpicks.priorities, hsame]; exact h.size, fun u hu hu' => by
      rw [hpicks.priorities, hpicks.currentDepth, hsame]
      exact h.initial u hu hu'⟩
  · rw [if_pos hfires]
    refine ⟨by rw [hpicks.currentDepth]; exact h.depth, by rw [hpicks.priorities, hset]; simpa using h.size,
      fun u hu hu' => ?_⟩
    rw [Finset.mem_insert, not_or] at hu'
    rw [hpicks.priorities, hpicks.currentDepth, hset, List.getD_eq_getElem?_getD, List.getElem?_set_ne (Ne.symm hu'.1),
      ← List.getD_eq_getElem?_getD]
    exact h.initial u hu hu'.2

/-- **A pick keeps the demoted threads below** if and only if it leaves the lowest one. -/
theorem below_picks_iff {t : Nat} (hprepared : Prepared threadsCount before e.before.policy) (he : e.threadId = some t)
    (ht : t < threadsCount ∨ threadsCount = 0) (hpicks : Picks e.before.policy t p')
    (hbelow : Below threadsCount before e.before.policy) :
    Below threadsCount (demotedBy before e) p' ↔ LeavesLowest threadsCount before e := by
  unfold demotedBy LeavesLowest
  rw [he]
  simp only [Option.mem_def, Option.some.injEq, forall_eq']
  rcases changePriority_priorities e.before.policy t with ⟨hfires, hsame⟩ | ⟨hfires, i, hi, hlast, hset⟩
  · rw [if_neg hfires]
    refine iff_of_true ?_ fun hfirst => absurd (List.mem_of_getElem? hfirst.1) hfires
    unfold Below
    rw [hpicks.priorities, hsame]
    exact hbelow
  · rw [if_pos hfires]
    have hself : t < threadsCount → p'.priorities.getD t 0 = e.before.policy.currentDepth - i := by
      intro hlt
      rw [hpicks.priorities, hset, List.getD_eq_getElem?_getD, List.getElem?_set_self (by rw [hprepared.size]; exact hlt)]
      rfl
    have hother : ∀ u, u ≠ t → p'.priorities.getD u 0 = e.before.policy.priorities.getD u 0 := by
      intro u hu
      rw [hpicks.priorities, hset, List.getD_eq_getElem?_getD, List.getElem?_set_ne (Ne.symm hu),
        ← List.getD_eq_getElem?_getD]
    constructor
    · intro hbelow' hfirst u hu hut hu'
      -- the only change point that is reached is the first one
      have hzero : i = 0 := by
        by_contra hne
        exact hfirst.2 i (Nat.pos_of_ne_zero hne) hi
      have hlt := hbelow' t (Finset.mem_insert_self t before) u hu (by simp [hut, hu'])
      rw [hself (ht.resolve_right (by omega)), hother u hut, hzero] at hlt
      omega
    · intro hleaves t' ht' u hu hu'
      rw [Finset.mem_insert, not_or] at hu'
      rw [hother u hu'.1]
      have hinitial := hprepared.initial u hu hu'.2
      rcases eq_or_ne t' t with rfl | hne
      · rw [hself (ht.resolve_right (by omega))]
        rcases Nat.eq_zero_or_pos i with rfl | hpos
        · have hne := hleaves ⟨hi, fun j hj => hlast j hj⟩ u hu hu'.1 hu'.2
          omega
        · have := hprepared.depth
          omega
      · rw [hother t' hne]
        exact hbelow t' ((Finset.mem_insert.1 ht').resolve_left hne) u hu hu'.2

/-- A demoted thread that is below the others is picked only if they are passed over. -/
theorem Below.yields (h : Below threadsCount before e.before.policy)
    (hscan : ∀ t ∈ e.threadId, t = (scanPriorities (e.skipped T) e.before.policy.priorities (List.range threadsCount)
      (0, 0)).2) : Yields T threadsCount before e := by
  intro t ht hmem u hu hu'
  have hthread := hscan t ht
  by_contra hskipped
  rw [Bool.not_eq_true] at hskipped
  rcases scanPriorities_spec (e.skipped T) e.before.policy.priorities (List.range threadsCount) (0, 0) with
    ⟨_, hall⟩ | ⟨pre, k, post, hsplit, hk, heq, _, hpre, hpost⟩
  · have := hall u (List.mem_range.2 hu) hskipped
    omega
  · rw [heq] at hthread
    dsimp only at hthread
    subst hthread
    have hlt := h t hmem u hu hu'
    have hmem' : u ∈ pre ++ t :: post := hsplit ▸ List.mem_range.2 hu
    rcases List.mem_append.1 hmem' with hin | hin
    · have := hpre u hin hskipped
      omega
    · rcases List.mem_cons.1 hin with rfl | hin
      · exact hu' hmem
      · have := hpost u hin hskipped
        omega

end Prepared

/-! ## Whole runs -/

section Runs

variable [Inhabited ν] {T : Target σ κ ν} {V : StrategyVerifier ς κ α ν} {D : Dice γ} {threadsCount fuel : Nat}
  {forbidAllSame : Bool} {es : List (PolicyCall σ κ α ν ς ρ (PctState σ κ α ρ γ))}
  {st st' : Stage σ κ α ν ς ρ (PctState σ κ α ρ γ)}

/-- A call of a run, and what follows from it. -/
structure Called (T : Target σ κ ν) (threadsCount : Nat) (e : PolicyCall σ κ α ν ς ρ (PctState σ κ α ρ γ))
    (p' : PctState σ κ α ρ γ) : Prop where
  picks : ∀ t ∈ e.threadId, Picks e.before.policy t p'
  scan : ∀ t ∈ e.threadId, t = (scanPriorities (e.skipped T) e.before.policy.priorities (List.range threadsCount) (0, 0)).2
  prepared : e.threadId = none → Prepared threadsCount ∅ p'

theorem scan_lt (skipped : Nat → Bool) (priorities : List Nat) (n : Nat) :
    (scanPriorities skipped priorities (List.range n) (0, 0)).2 < n ∨ n = 0 := by
  rcases scanPriorities_spec skipped priorities (List.range n) (0, 0) with ⟨heq, _⟩ | ⟨pre, k, post, hsplit, _, heq, _⟩
  · rw [heq]
    omega
  · rw [heq]
    exact .inl (List.mem_range.1 (hsplit ▸ by simp))

/-- No call adds a thread. -/
theorem Driven.threads (h : Driven (pctStrategy T V D threadsCount forbidAllSame fuel) (Constructed D threadsCount) es st) :
    st.round.world.threads.length = threadsCount := by
  induction h with
  | start hinit => exact hinit.1
  | next _ hnext ih => rw [next_length hnext, ih]
  | nextSchedule _ hnext ih =>
    obtain ⟨_, _, _, hround⟩ := nextSchedule_eq_ok hnext
    rw [hround, ← ih]
  | resetCurrentRound _ hreset ih =>
    obtain ⟨w, _, hrestarted⟩ := restarted_of_reset hreset
    rw [← ih]
    simpa using congrArg List.length hrestarted.alike
  | startNextRound _ hstart ih => rw [(startNextRound_eq_ok hstart).2.2.2, ih]
  | between _ _ hlen ih => rw [hlen, ih]

/-- The last call of a run. -/
theorem Driven.called (h : Driven (pctStrategy T V D threadsCount forbidAllSame fuel) (Constructed D threadsCount) es st) :
    ∀ {before : List (PolicyCall σ κ α ν ς ρ (PctState σ κ α ρ γ))} {e : PolicyCall σ κ α ν ς ρ (PctState σ κ α ρ γ)},
      es = before ++ [e] → Called T threadsCount e st.policy := by
  induction h with
  | start _ => intro before e heq; simp at heq
  | next hdriven hnext _ =>
    intro before e heq
    obtain rfl := List.singleton_inj.1 (List.append_inj' heq rfl).2
    obtain ⟨hpicks, hscan⟩ := pct_next_picks hnext
    rw [hdriven.threads] at hscan
    exact ⟨by rintro t ⟨⟩; exact hpicks, by rintro t ⟨⟩; exact hscan, fun hnone => by cases hnone⟩
  | nextSchedule hdriven hnext _ =>
    intro before e heq
    obtain rfl := List.singleton_inj.1 (List.append_inj' heq rfl).2
    obtain ⟨hpicks, hscan⟩ := pct_nextSchedule_picks hnext
    rw [hdriven.threads] at hscan
    exact ⟨by rintro t ⟨⟩; exact hpicks, by rintro t ⟨⟩; exact hscan, fun hnone => by cases hnone⟩
  | resetCurrentRound _ hreset _ =>
    intro before e heq
    obtain rfl := List.singleton_inj.1 (List.append_inj' heq rfl).2
    refine ⟨by rintro t ⟨⟩, by rintro t ⟨⟩, fun _ => ?_⟩
    rw [resetCurrentRound_policy hreset]
    exact prepared_updateStatistics _
  | startNextRound _ hstart _ =>
    intro before e heq
    obtain rfl := List.singleton_inj.1 (List.append_inj' heq rfl).2
    refine ⟨by rintro t ⟨⟩, by rintro t ⟨⟩, fun _ => ?_⟩
    rw [(startNextRound_eq_ok hstart).2.2.1]
    exact prepared_updateStatistics _
  | between _ hpolicy _ ih =>
    intro before e heq
    rw [hpolicy]
    exact ih heq

/-- Every call of a run is the last one of a run. -/
theorem Driven.called_of (h : Driven (pctStrategy T V D threadsCount forbidAllSame fuel) (Constructed D threadsCount) es st)
    {before after : List (PolicyCall σ κ α ν ς ρ (PctState σ κ α ρ γ))} {e : PolicyCall σ κ α ν ς ρ (PctState σ κ α ρ γ)}
    (hes : es = before ++ e :: after) : ∃ p', Called T threadsCount e p' := by
  cases after with
  | nil => exact ⟨_, h.called hes⟩
  | cons e' after =>
    rw [List.append_cons] at hes
    exact ⟨_, (h.prior hes).called rfl⟩

omit [Inhabited ν] in
theorem demotedBy_of_none {before : Finset Nat} {e : PolicyCall σ κ α ν ς ρ (PctState σ κ α ρ γ)}
    (he : e.threadId = none) : demotedBy before e = ∅ := by
  unfold demotedBy
  rw [he]

/-- The priorities stay as they have been prepared. -/
theorem Driven.prepared (h : Driven (pctStrategy T V D threadsCount forbidAllSame fuel) (Constructed D threadsCount) es st) :
    Prepared threadsCount (demoted es) st.policy := by
  induction es using List.reverseRecOn generalizing st with
  | nil =>
    generalize hnil : ([] : List (PolicyCall σ κ α ν ς ρ (PctState σ κ α ρ γ))) = es at h
    induction h with
    | start hinit =>
      obtain ⟨_, constructors, g, _, hpolicy⟩ := hinit
      rw [hpolicy, ← hnil]
      exact prepared_prepareForDepth _ _ _ (Nat.le_refl 1)
    | between _ hpolicy _ ih =>
      rw [hpolicy]
      exact ih hnil
    | next | nextSchedule | resetCurrentRound | startNextRound => simp at hnil
  | append_singleton es e ih =>
    have hcalled := h.called rfl
    rw [demoted_snoc]
    cases he : e.threadId with
    | none =>
      rw [demotedBy_of_none he]
      exact hcalled.prepared he
    | some t => exact (ih (h.prior rfl)).picks he (hcalled.picks t he)

/-- **One more call** keeps the demoted threads below if and only if it leaves the lowest one. -/
theorem Driven.below_snoc_iff {e : PolicyCall σ κ α ν ς ρ (PctState σ κ α ρ γ)}
    (h : Driven (pctStrategy T V D threadsCount forbidAllSame fuel) (Constructed D threadsCount) (es ++ [e]) st)
    (hbelow : Below threadsCount (demoted es) e.before.policy) :
    Below threadsCount (demoted (es ++ [e])) st.policy ↔ LeavesLowest threadsCount (demoted es) e := by
  have hcalled := h.called rfl
  rw [demoted_snoc]
  cases he : e.threadId with
  | none =>
    rw [demotedBy_of_none he]
    refine iff_of_true (fun t ht => absurd ht (Finset.notMem_empty t)) fun t ht => ?_
    rw [he] at ht
    cases ht
  | some t =>
    have hlt := scan_lt (e.skipped T) e.before.policy.priorities threadsCount
    rw [← hcalled.scan t he] at hlt
    exact below_picks_iff (h.prior rfl).prepared he hlt (hcalled.picks t he) hbelow

/-- If every call leaves the lowest thread, the demoted threads are below. -/
theorem Driven.demoted_below (h : Driven (pctStrategy T V D threadsCount forbidAllSame fuel) (Constructed D threadsCount) es st)
    (hleaves : ∀ before e after, es = before ++ e :: after → LeavesLowest threadsCount (demoted before) e) :
    Below threadsCount (demoted es) st.policy := by
  induction es using List.reverseRecOn generalizing st with
  | nil => exact fun t ht => absurd ht (Finset.notMem_empty t)
  | append_singleton es e ih =>
    refine (h.below_snoc_iff (ih (h.prior rfl) fun before e' after hes => ?_)).2 (hleaves es e [] rfl)
    exact hleaves before e' (after ++ [e]) (by rw [hes]; simp)

/-- **When priority changes take effect**: in every run, every thread that has been demoted in a round has a lower priority
than every thread that has not, before each call and at the end, and is picked only when all of these are passed over, if and
only if no call that reaches the change point of index `0` and no other leaves the lowest initial priority to another thread
that has not been demoted. -/
theorem pct_demotes_iff
    (h : Driven (pctStrategy T V D threadsCount forbidAllSame fuel) (Constructed D threadsCount) es st) :
    (Below threadsCount (demoted es) st.policy ∧ ∀ before e after, es = before ++ e :: after →
      Below threadsCount (demoted before) e.before.policy ∧ Yields T threadsCount (demoted before) e) ↔
    ∀ before e after, es = before ++ e :: after → LeavesLowest threadsCount (demoted before) e := by
  constructor
  · rintro ⟨hend, hcalls⟩ before e after rfl
    have hbelow := (hcalls before e after rfl).1
    cases after with
    | nil => exact (h.below_snoc_iff hbelow).1 hend
    | cons e' after =>
      rw [List.append_cons] at h
      exact ((h.prior rfl).below_snoc_iff hbelow).1 (hcalls (before ++ [e]) e' after (by simp)).1
  · intro hleaves
    refine ⟨h.demoted_below hleaves, fun before e after hes => ?_⟩
    have hbelow : Below threadsCount (demoted before) e.before.policy :=
      (h.prior hes).demoted_below fun pre e' post hpre => hleaves pre e' (post ++ e :: after) (by rw [hes, hpre]; simp)
    obtain ⟨p', hcalled⟩ := h.called_of hes
    exact ⟨hbelow, hbelow.yields hcalled.scan⟩

end Runs

/-- A round of one task, and the first three calls of the next round. -/
def secondRound : Except Halt (List (NextCall Nat Bool Unit Nat (Nat → Nat) Unit (PctState Nat Bool Unit Unit Nat)) ×
    Stage Nat Bool Unit Nat (Nat → Nat) Unit (PctState Nat Bool Unit Unit Nat) ×
    List (NextCall Nat Bool Unit Nat (Nat → Nat) Unit (PctState Nat Bool Unit Unit Nat)) ×
    Stage Nat Bool Unit Nat (Nat → Nat) Unit (PctState Nat Bool Unit Unit Nat)) := do
  let (calls, st) ← playCalls (pctCounters false) 2 (freshPct ["Lock"])
  let st₁ ← (pctCounters false).startNextRound 10 st
  let (calls₁, st') ← playCalls (pctCounters false) 3 st₁
  return (calls, st, calls₁, st')

theorem secondRound_driven
    {calls calls₁ : List (NextCall Nat Bool Unit Nat (Nat → Nat) Unit (PctState Nat Bool Unit Unit Nat))}
    {st st' : Stage Nat Bool Unit Nat (Nat → Nat) Unit (PctState Nat Bool Unit Unit Nat)}
    (h : secondRound = .ok (calls, st, calls₁, st')) : Driven (pctCounters false) (Constructed cyclicDice 2)
      ((calls.map fun c => .next c.before c.picked) ++ [.update st] ++ calls₁.map fun c => .next c.before c.picked) st' := by
  obtain ⟨⟨calls₂, st₂⟩, hfirst, h⟩ := bind_eq_ok.1 h
  obtain ⟨st₃, hstart, h⟩ := bind_eq_ok.1 h
  obtain ⟨⟨calls₄, st₄⟩, hsecond, h⟩ := bind_eq_ok.1 h
  cases h
  exact ((Driven.start freshPct_constructed).playCalls 2 hfirst |>.startNextRound hstart).playCalls 3 hsecond

/-- **A demoted thread is picked again**: the second thread reaches the only change point and goes on, though the first
thread, which has not been demoted, does not wait. -/
theorem pct_picks_demoted : ∃ es st', Driven (pctCounters false) (Constructed cyclicDice 2) es st' ∧
    ∃ before e, es = before ++ [e] ∧ ¬Below 2 (demoted before) e.before.policy ∧
      ¬Yields counterTarget 2 (demoted before) e := by
  obtain ⟨⟨calls, st, calls₁, st'⟩, hrun, hseen⟩ := ok_of_toOption (x := secondRound)
    (f := fun (_, _, calls₁, _) => calls₁.map fun c => (decide c.before.policy.fires, c.picked.threadId,
      c.before.round.world.skips counterTarget 0, c.before.policy.priorities))
    (b := [(false, 1, false, [2, 3]), (true, 1, false, [2, 3]), (false, 1, false, [2, 2])]) (by decide +kernel)
  have hdriven := secondRound_driven hrun
  obtain ⟨c₁, rest, rfl, hc₁, hseen⟩ := List.map_eq_cons_iff.1 hseen
  obtain ⟨c₂, rest, rfl, hc₂, hseen⟩ := List.map_eq_cons_iff.1 hseen
  obtain ⟨c₃, rest, rfl, hc₃, hseen⟩ := List.map_eq_cons_iff.1 hseen
  obtain rfl := List.map_eq_nil_iff.1 hseen
  simp only [Prod.mk.injEq, decide_eq_true_eq, decide_eq_false_iff_not] at hc₁ hc₂ hc₃
  have hdemoted : demoted ((calls.map fun c => .next c.before c.picked) ++ [.update st] ++
      [.next c₁.before c₁.picked, .next c₂.before c₂.picked]) = {1} := by
    simp [demoted, demotedBy, PolicyCall.threadId, PolicyCall.before, hc₁.1, hc₂.1, hc₂.2.1]
  refine ⟨_, st', hdriven, (calls.map fun c => .next c.before c.picked) ++ [.update st] ++
    [.next c₁.before c₁.picked, .next c₂.before c₂.picked], .next c₃.before c₃.picked, by simp, fun hbelow => ?_,
    fun hyields => ?_⟩
  · rw [hdemoted] at hbelow
    have hlt := hbelow 1 (by simp) 0 (by omega) (by simp)
    rw [PolicyCall.before, hc₃.2.2.2] at hlt
    simp at hlt
  · rw [hdemoted] at hyields
    have hskipped := hyields 1 (by simp [PolicyCall.threadId, hc₃.2.1]) (by simp) 0 (by omega) (by simp)
    rw [PolicyCall.skipped, hc₃.2.2.1] at hskipped
    cases hskipped

/-- The same run, by what its calls leave. -/
theorem pct_demotes_iff_secondRound : ∃ es st', Driven (pctCounters false) (Constructed cyclicDice 2) es st' ∧
    es.length = 6 ∧ ((Below 2 (demoted es) st'.policy ∧ ∀ before e after, es = before ++ e :: after →
      Below 2 (demoted before) e.before.policy ∧ Yields counterTarget 2 (demoted before) e) ↔
    ∀ before e after, es = before ++ e :: after → LeavesLowest 2 (demoted before) e) := by
  obtain ⟨⟨calls, st, calls₁, st'⟩, hrun, hseen⟩ := ok_of_toOption (x := secondRound)
    (f := fun (calls, _, calls₁, _) => (calls.length, calls₁.length)) (b := (2, 3)) (by decide +kernel)
  simp only [Prod.mk.injEq] at hseen
  have hdriven := secondRound_driven hrun
  exact ⟨_, st', hdriven, by simp [hseen.1, hseen.2], pct_demotes_iff hdriven⟩

end Ltest
