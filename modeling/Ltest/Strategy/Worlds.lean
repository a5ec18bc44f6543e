import Ltest.Strategy.Driven
import Ltest.Strategy.Parking
import Ltest.Strategy.Session
import Mathlib.Data.Finset.Union

/-!
# What a strategy does to its world

Whatever a strategy chooses, its rounds change the world by the operations of `WorldOp` only: what these keep holds in
every state of a session (`WorldRule.session`). The operations that lead to a world have that property themselves
(`performed_rule`), so every session is a run of them.
-/

namespace Ltest

open Program

variable {σ κ α ν ς ρ π γ : Type} [Inhabited ν]

/-- What the operations of a scheduler keep, if its tasks come from `builders`. -/
structure WorldRule (T : Target σ κ ν) (cancel : σ → σ) (builders : TaskBuilder σ κ α ρ → Prop)
    (I : World σ κ α ν → ρ → Prop) : Prop where
  build : ∀ {w g b} (i : Nat) (id : Int), I w g → builders b →
    I (w.pushTask i (b.build w.memory i id g).1) (b.build w.memory i id g : Coro κ α ν × ρ).2
  resume : ∀ {w g slot w'}, I w g → w.resume T slot = .ok w' → I w' g
  restart : ∀ {w g slot w'}, I w g → w.restart slot = .ok w' → I w' g
  askBlocked : ∀ {w g} (slot : Slot), I w g → I (w.askBlocked T slot) g
  pop : ∀ {w g} (i : Nat), I w g → I (w.popTask i) g
  clear : ∀ {w g}, I w g → I { w with threads := w.threads.map fun _ => [] } g
  reset : ∀ {w g}, I w g → I { w with memory := T.reset w.memory } g
  cancel : ∀ {w g}, I w g → I { w with memory := cancel w.memory } g
  forget : ∀ {w g}, I w g → I { w with coroutineStatus := none } g

/-- The worlds that the operations lead to. -/
def Performed {T : Target σ κ ν} {cancel : σ → σ} (use : Parking T cancel) (builders : TaskBuilder σ κ α ρ → Prop)
    (w : World σ κ α ν) (g : ρ) : Prop :=
  ∃ (x y : Tracked σ κ α ν ρ) (ops : List (WorldOp σ κ α ρ)), x.Unstarted T ∧ (∀ thread b id,
    .build thread b id ∈ ops → builders b) ∧ x.performAll use ops = some y ∧ y.world = w ∧ y.rng = g

section Performed

variable {T : Target σ κ ν} {cancel : σ → σ} {use : Parking T cancel} {builders : TaskBuilder σ κ α ρ → Prop}
  {w w' : World σ κ α ν} {g g' : ρ}

theorem Performed.start (use : Parking T cancel) (builders : TaskBuilder σ κ α ρ → Prop) (g : ρ)
    (hmemory : w.memory = T.initial) (hempty : ∀ tasks ∈ w.threads, tasks = []) : Performed use builders w g :=
  ⟨⟨w, g, fun _ => false⟩, _, [], ⟨hmemory, hempty⟩, by simp, rfl, rfl, rfl⟩

/-- One operation more. -/
theorem Performed.snoc (h : Performed use builders w g) (op : WorldOp σ κ α ρ)
    (hop : ∀ thread b id, op = .build thread b id → builders b)
    (hperform : ∀ y : Tracked σ κ α ν ρ, y.world = w → y.rng = g →
      ∃ z, y.perform use op = some z ∧ z.world = w' ∧ z.rng = g') : Performed use builders w' g' := by
  obtain ⟨x, y, ops, hx, hops, hy, hw, hg⟩ := h
  obtain ⟨z, hz, hw', hg'⟩ := hperform y hw hg
  refine ⟨x, z, ops ++ [op], hx, fun thread b id hin => ?_, ?_, hw', hg'⟩
  · obtain hin | hin := List.mem_append.1 hin
    · exact hops thread b id hin
    · exact hop thread b id (List.mem_singleton.1 hin).symm
  · rw [Tracked.performAll_append, hy]
    simp [Tracked.performAll, hz]

end Performed

/-! ## The rounds of a strategy -/

/-! ## Constructors -/

/-- `constructors` tells the constructors of a policy: tasks are built by them, and they stay the same. -/
structure KeepsConstructors (S : Strategy σ κ α ν ς ρ π) (constructors : π → List (TaskBuilder σ κ α ρ)) : Prop where
  pick : ∀ {r p i asked p'}, S.pick r p = .ok (i, asked, p') → ∀ b, b ∈ constructors p' ↔ b ∈ constructors p
  construct : ∀ {r i p b v p'}, S.construct r i p = .ok (b, v, p') → b ∈ constructors p ∧
    ∀ b', b' ∈ constructors p' ↔ b' ∈ constructors p
  pickSchedule : ∀ {r p i p'}, S.pickSchedule r p = .ok (i, p') → ∀ b, b ∈ constructors p' ↔ b ∈ constructors p
  update : ∀ p b, b ∈ constructors (S.update p) ↔ b ∈ constructors p

section Constructors

variable {S : Strategy σ κ α ν ς ρ π} {constructors : π → List (TaskBuilder σ κ α ρ)} {st st' st₁ : Stage σ κ α ν ς ρ π}
  {t : Picked} {fuel : Nat}

theorem KeepsConstructors.next (hS : KeepsConstructors S constructors) (hnext : S.next st = .ok (t, st₁)) (b) :
    b ∈ constructors st₁.policy ↔ b ∈ constructors st.policy := by
  unfold Strategy.next at hnext
  obtain ⟨⟨i, asked, p⟩, hpick, hnext⟩ := bind_eq_ok.1 hnext
  dsimp only at hnext
  rw [← hS.pick hpick b]
  unfold Strategy.nextOn at hnext
  split at hnext
  · cases hnext
  · split at hnext
    · cases hnext
      exact .rfl
    · obtain ⟨⟨b', v, p'⟩, hconstruct, hnext⟩ := bind_eq_ok.1 hnext
      cases hnext
      exact (hS.construct hconstruct).2 b

omit [Inhabited ν] in
theorem KeepsConstructors.nextSchedule (hS : KeepsConstructors S constructors) (hnext : S.nextSchedule st = .ok (t, st₁))
    (b) : b ∈ constructors st₁.policy ↔ b ∈ constructors st.policy := by
  unfold Strategy.nextSchedule at hnext
  obtain ⟨⟨i, p⟩, hpick, hnext⟩ := bind_eq_ok.1 hnext
  dsimp only at hnext
  split at hnext
  · cases hnext
    exact hS.pickSchedule hpick b
  · cases hnext

theorem KeepsConstructors.resetCurrentRound (hS : KeepsConstructors S constructors)
    (hreset : S.resetCurrentRound fuel st = .ok st') (b) :
    b ∈ constructors st'.policy ↔ b ∈ constructors st.policy := by
  obtain ⟨r, -, hreset⟩ := bind_eq_ok.1 hreset
  obtain ⟨r', -, hreset⟩ := bind_eq_ok.1 hreset
  cases hreset
  exact hS.update _ b

omit [Inhabited ν] in
theorem startNextRound_policy (h : S.startNextRound fuel st = .ok st') : st'.policy = S.update st.policy := by
  obtain ⟨r, -, h⟩ := bind_eq_ok.1 h
  cases h
  rfl

omit [Inhabited ν] in
/-- The loop of `RunRound` and `ExploreRound`. -/
theorem constructors_playTasks {choose : Stage σ κ α ν ς ρ π → Except Halt (Picked × Stage σ κ α ν ς ρ π)}
    {onFinish : Picked → Coro κ α ν → Stage σ κ α ν ς ρ π → Stage σ κ α ν ς ρ π} {T : Target σ κ ν}
    {left : Nat} {hist hist' : BothHistories ν}
    (hrun : Ltest.playTasks T choose onFinish fuel left st hist = .ok (hist', st'))
    (hchoose : ∀ st t st₁, choose st = .ok (t, st₁) → ∀ b, b ∈ constructors st₁.policy ↔ b ∈ constructors st.policy)
    (hfinish : ∀ t task (st : Stage σ κ α ν ς ρ π), (onFinish t task st).policy = st.policy) (b) :
    b ∈ constructors st'.policy ↔ b ∈ constructors st.policy := by
  refine playTasks_rule (I := fun _ st' _ => b ∈ constructors st'.policy ↔ b ∈ constructors st.policy)
    (fun left st' hist t st₁ task w hI hnext hresume htask => ?_) fuel left .rfl hrun
  have hthen := (hchoose st' t st₁ hnext b).trans hI
  split
  · rw [hfinish]
    exact hthen
  · exact hthen

omit [Inhabited ν] in
theorem mem_of_firstVerified {V : StrategyVerifier ς κ α ν} {i : Nat} {b : TaskBuilder σ κ α ρ} {v' : ς} :
    ∀ {bs : List (TaskBuilder σ κ α ρ)} {v : ς}, firstVerified V i v bs = .ok (some b, v') → b ∈ bs
  | [], _, h => by cases h
  | b' :: bs, v, h => by
    unfold firstVerified at h
    split at h
    · cases h
    · cases h
      exact List.mem_cons_self
    · exact List.mem_cons_of_mem _ (mem_of_firstVerified h)

omit [Inhabited ν] in
/-- `PickStrategy` shuffles its constructors. -/
theorem IsPickStrategy.keepsConstructors {T : Target σ κ ν} {V : StrategyVerifier ς κ α ν} {D : Dice γ}
    {S : Strategy σ κ α ν ς ρ (PickState σ κ α ρ γ)} (hS : IsPickStrategy T V D S) :
    KeepsConstructors S PickState.constructors where
  pick hpick b := by rw [← hS.pick_constructors hpick]
  construct hconstruct := by
    rw [hS.construct_eq] at hconstruct
    obtain ⟨hfirst, hperm⟩ := pickConstruct_eq_ok hconstruct
    exact ⟨(D.shuffle_perm _ _).mem_iff.1 (mem_of_firstVerified hfirst), fun _ => hperm.mem_iff⟩
  pickSchedule hpick b := by
    cases hS with
    | roundRobin =>
      obtain ⟨a, -, heq⟩ := map_eq_ok.1 hpick
      cases heq
      exact .rfl
    | random weights =>
      obtain ⟨a, -, heq⟩ := map_eq_ok.1 hpick
      cases heq
      exact .rfl
  update p b := by
    rw [hS.update_eq]
    exact .rfl

omit [Inhabited ν] in
/-- `PctStrategy` does not touch them. -/
theorem keepsConstructors_pct {T : Target σ κ ν} {V : StrategyVerifier ς κ α ν} {D : Dice γ} {threadsCount : Nat}
    {forbidAllSame : Bool} {fuel : Nat} :
    KeepsConstructors (pctStrategy (σ := σ) (κ := κ) (α := α) (ρ := ρ) T V D threadsCount forbidAllSame fuel)
      PctState.constructors where
  pick {r p i asked p'} hpick b := by
    unfold pctStrategy at hpick
    dsimp only at hpick
    split at hpick
    · cases hpick
    · cases hpick
      exact .rfl
  construct hconstruct := by
    obtain ⟨first, g, hdraw, hrest⟩ := pctConstruct_eq_ok hconstruct
    obtain ⟨g', rfl⟩ := pctConstruct_policy hconstruct
    refine ⟨?_, fun _ => .rfl⟩
    split at hrest
    · obtain ⟨g', hretry⟩ := hrest
      exact (retryConstructor_admits _ (mem_of_drawConstructor hdraw) hretry).1
    · rw [hrest.1]
      exact mem_of_drawConstructor hdraw
  pickSchedule {r p i p'} hpick b := by
    cases hpick
    exact .rfl
  update p b := .rfl

end Constructors

namespace WorldRule

variable {S : Strategy σ κ α ν ς ρ π} {constructors : π → List (TaskBuilder σ κ α ρ)} {cancel : σ → σ}
  {builders : TaskBuilder σ κ α ρ → Prop} {I : World σ κ α ν → ρ → Prop} {st st' st₁ : Stage σ κ α ν ς ρ π} {w w' : World σ κ α ν} {g : ρ} {t : Picked}

section Terminate

variable {T : Target σ κ ν} {again again' : Bool} {idx idx' : List Nat}

theorem terminateThread (h : WorldRule T cancel builders I) {i : Nat} (hI : I w g)
    (hrun : Ltest.terminateThread T i w idx = .ok (again, w', idx')) : I w' g := by
  unfold Ltest.terminateThread at hrun
  dsimp only at hrun
  split at hrun
  · cases hrun
    exact hI
  · split at hrun
    · split at hrun
      · cases hrun
        exact hI
      · cases hrun
    · split at hrun
      · rename_i w₁ hw₁
        cases hrun
        exact h.resume (h.askBlocked _ hI) hw₁
      · cases hrun

theorem terminatePass (h : WorldRule T cancel builders I) : ∀ (threads : List Nat) {again again' : Bool}
    {w w' : World σ κ α ν} {idx idx' : List Nat}, I w g →
    Ltest.terminatePass T threads again w idx = .ok (again', w', idx') → I w' g
  | [], _, _, _, _, _, _, hI, hrun => by
    cases hrun
    exact hI
  | i :: threads, again, again', w, w', idx, idx', hI, hrun => by
    unfold Ltest.terminatePass at hrun
    split at hrun
    · rename_i hthread
      exact h.terminatePass threads (h.terminateThread hI hthread) hrun
    · cases hrun

theorem terminatePasses (h : WorldRule T cancel builders I) : ∀ (fuel : Nat) {w w' : World σ κ α ν} {idx : List Nat},
    I w g → Ltest.terminatePasses T fuel w idx = .ok w' → I w' g
  | 0, _, _, _, _, hrun => by cases hrun
  | fuel + 1, w, w', idx, hI, hrun => by
    unfold Ltest.terminatePasses at hrun
    split at hrun
    · rename_i again w₁ idx₁ hpass
      have hI₁ := h.terminatePass _ hI hpass
      split at hrun
      · exact h.terminatePasses fuel hI₁ hrun
      · cases hrun
        exact hI₁
    · cases hrun

end Terminate

/-- `Next` builds tasks with the constructors of the strategy. -/
theorem next (h : WorldRule S.target cancel builders I) (hS : KeepsConstructors S constructors)
    (hbuilders : ∀ b ∈ constructors st.policy, builders b) (hI : I st.round.world st.round.rng)
    (hnext : S.next st = .ok (t, st₁)) : I st₁.round.world st₁.round.rng := by
  unfold Strategy.next at hnext
  obtain ⟨⟨i, asked, p⟩, hpick, hnext⟩ := bind_eq_ok.1 hnext
  dsimp only at hnext
  have hasked : ∀ (asked : List Nat) (w : World σ κ α ν), I w st.round.rng →
      I (asked.foldl (fun w i => w.askBlocked S.target (i, (w.threads[i]?.getD []).length - 1)) w) st.round.rng := by
    intro asked
    induction asked with
    | nil => exact fun w hw => hw
    | cons i asked ih => exact fun w hw => ih _ (h.askBlocked _ hw)
  have hI := hasked asked _ hI
  generalize asked.foldl (fun w i => w.askBlocked S.target (i, (w.threads[i]?.getD []).length - 1)) st.round.world = w
    at hI hnext
  unfold Strategy.nextOn at hnext
  dsimp only at hnext
  split at hnext
  · cases hnext
  · split at hnext
    · cases hnext
      exact hI
    · obtain ⟨⟨b, v, p'⟩, hconstruct, hnext⟩ := bind_eq_ok.1 hnext
      cases hnext
      exact h.build i _ hI (hbuilders b ((hS.pick hpick b).1 (hS.construct hconstruct).1))

/-- Restarts of any tasks that have returned, one after the other. -/
theorem restarts {T : Target σ κ ν} (h : WorldRule T cancel builders I) : ∀ (slots : List Slot) {w : World σ κ α ν},
    slots.Nodup → (∀ slot ∈ slots, ∃ c, w.task slot = some c ∧ c.isReturned = true) → I w g → ∃ w', I w' g ∧
      w'.memory = w.memory ∧ w'.coroutineStatus = w.coroutineStatus ∧ w'.threads.length = w.threads.length ∧
      ∀ slot, w'.task slot = if slot ∈ slots then (w.task slot).map Coro.restart else w.task slot
  | [], w, _, _, hI => ⟨w, hI, rfl, rfl, rfl, by simp⟩
  | slot :: slots, w, hnd, hret, hI => by
    obtain ⟨hnotin, hnd⟩ := List.nodup_cons.1 hnd
    obtain ⟨⟨c, hc, hr⟩, hret⟩ := List.forall_mem_cons.1 hret
    have hI₁ := h.restart hI (World.restart_eq_ok.2 ⟨c, hc, hr, rfl⟩)
    have hother : ∀ other ≠ slot, (w.setTask slot c.restart).task other = w.task other := fun _ hne =>
      World.task_setTask_of_ne hne
    obtain ⟨w', hI', hmemory, hstatus, hlen, htask⟩ := h.restarts slots hnd
      (fun other hin => by rw [hother other fun heq => hnotin (heq ▸ hin)]; exact hret other hin) hI₁
    refine ⟨w', hI', hmemory, hstatus, hlen.trans (List.length_modify ..), fun other => ?_⟩
    rw [htask]
    by_cases heq : other = slot
    · subst heq
      rw [if_neg hnotin, if_pos List.mem_cons_self, World.task_setTask hc, hc]
      rfl
    · rw [hother other heq]
      simp [heq]

omit [Inhabited ν] in
/-- The slots of the tasks with a property. -/
theorem exists_slots (w : World σ κ α ν) (p : Coro κ α ν → Bool) :
    ∃ slots : List Slot, slots.Nodup ∧ ∀ slot, slot ∈ slots ↔ ∃ c, w.task slot = some c ∧ p c = true := by
  let all : Finset Slot := (Finset.range w.threads.length).biUnion fun i =>
    (Finset.range (w.threads[i]?.getD []).length).image fun j => (i, j)
  refine ⟨(all.filter fun slot => (w.task slot).any p = true).toList, Finset.nodup_toList _, fun slot => ?_⟩
  rw [Finset.mem_toList, Finset.mem_filter, Option.any_eq_true]
  refine ⟨fun h => h.2, fun h => ⟨?_, h⟩⟩
  obtain ⟨c, hc, -⟩ := h
  obtain ⟨tasks, htasks, hj⟩ := World.task_eq_some.1 hc
  refine Finset.mem_biUnion.2 ⟨slot.1, Finset.mem_range.2 (List.getElem?_eq_some_iff.1 htasks).1,
    Finset.mem_image.2 ⟨slot.2, Finset.mem_range.2 ?_, rfl⟩⟩
  rw [htasks]
  exact (List.getElem?_eq_some_iff.1 hj).1

/-- The loop of `ResetCurrentRound`. -/
theorem restartTasks {T : Target σ κ ν} {r r' : Round σ κ α ν ς ρ} (h : WorldRule T cancel builders I)
    (hI : I r.world r.rng) (hrun : Strategy.restartTasks r = .ok r') : I r'.world r'.rng := by
  unfold Strategy.restartTasks at hrun
  split at hrun
  · rename_i hall
    cases hrun
    obtain ⟨slots, hnd, hmem⟩ := exists_slots r.world fun c => !r.isTaskRemoved c.id
    have hreturned : ∀ slot ∈ slots, ∃ c, r.world.task slot = some c ∧ c.isReturned = true := by
      intro slot hin
      obtain ⟨c, hc, hnot⟩ := (hmem slot).1 hin
      obtain ⟨tasks, htasks, hj⟩ := World.task_eq_some.1 hc
      have hc' := List.all_eq_true.1 hall c
        (List.mem_flatten.2 ⟨tasks, List.mem_of_getElem? htasks, List.mem_of_getElem? hj⟩)
      rw [Bool.or_eq_true] at hc'
      obtain hremoved | hr := hc'
      · simp [hremoved] at hnot
      · exact ⟨c, hc, hr⟩
    obtain ⟨w', hI', hmemory, hstatus, hlen, htask⟩ := h.restarts slots hnd hreturned hI
    have heq : w' = { r.world with
        threads := r.world.threads.map (·.map fun c => if r.isTaskRemoved c.id then c else c.restart) } := by
      refine world_ext hmemory hstatus (by simpa using hlen) fun slot => ?_
      rw [htask, task_restartThreads r.world (fun c => if r.isTaskRemoved c.id then c else c.restart) r.world.memory]
      cases hc : r.world.task slot with
      | none => simp
      | some c =>
        have hin : slot ∈ slots ↔ r.isTaskRemoved c.id = false := by
          rw [hmem, hc]
          simp
        cases hremoved : r.isTaskRemoved c.id <;> simp [hin, hremoved]
    exact heq ▸ hI'
  · cases hrun

theorem terminateTasks (h : WorldRule S.target cancel builders I) {fuel : Nat} {r r' : Round σ κ α ν ς ρ}
    (hI : I r.world r.rng) (hrun : S.terminateTasks fuel r = .ok r') : I r'.world r'.rng := by
  unfold Strategy.terminateTasks at hrun
  split at hrun
  · cases hrun
  · split at hrun
    · rename_i w hpasses
      cases hrun
      exact h.reset (h.terminatePasses fuel hI hpasses)
    · cases hrun

theorem resetCurrentRound (h : WorldRule S.target cancel builders I) {fuel : Nat} (hI : I st.round.world st.round.rng)
    (hrun : S.resetCurrentRound fuel st = .ok st') : I st'.round.world st'.round.rng := by
  obtain ⟨r, hr, hrun⟩ := bind_eq_ok.1 hrun
  obtain ⟨r', hr', hrun⟩ := bind_eq_ok.1 hrun
  cases hrun
  exact h.restartTasks (h.terminateTasks hI hr) hr'

theorem startNextRound (h : WorldRule S.target cancel builders I) {fuel : Nat} (hI : I st.round.world st.round.rng)
    (hrun : S.startNextRound fuel st = .ok st') : I st'.round.world st'.round.rng := by
  obtain ⟨r, hr, hrun⟩ := bind_eq_ok.1 hrun
  cases hrun
  exact h.clear (h.terminateTasks (r := { st.round with newTaskId := 0 }) hI hr)

/-- The loop of `RunRound` and `ExploreRound`. -/
theorem playTasks {choose : Stage σ κ α ν ς ρ π → Except Halt (Picked × Stage σ κ α ν ς ρ π)}
    {onFinish : Picked → Coro κ α ν → Stage σ κ α ν ς ρ π → Stage σ κ α ν ς ρ π} {T : Target σ κ ν} {J : π → Prop}
    (h : WorldRule T cancel builders I) {fuel left : Nat} {hist hist' : BothHistories ν}
    (hI : I st.round.world st.round.rng ∧ J st.policy)
    (hrun : Ltest.playTasks T choose onFinish fuel left st hist = .ok (hist', st'))
    (hchoose : ∀ st t st₁, I st.round.world st.round.rng ∧ J st.policy → choose st = .ok (t, st₁) →
      I st₁.round.world st₁.round.rng ∧ J st₁.policy)
    (hfinish : ∀ t task (st : Stage σ κ α ν ς ρ π), (onFinish t task st).round.world = st.round.world ∧
      (onFinish t task st).round.rng = st.round.rng ∧ (onFinish t task st).policy = st.policy) :
    I st'.round.world st'.round.rng ∧ J st'.policy := by
  refine playTasks_rule (I := fun _ st _ => I st.round.world st.round.rng ∧ J st.policy)
    (fun left st hist t st₁ task w hI hnext hresume htask => ?_) fuel left hI hrun
  obtain ⟨hI, hJ⟩ := hchoose st t st₁ hI hnext
  have hI' := h.resume hI hresume
  split
  · obtain ⟨hworld, hrng, hpolicy⟩ := hfinish t task (st₁.withWorld w)
    rw [hworld, hrng, hpolicy]
    exact ⟨hI', hJ⟩
  · exact ⟨hI', hJ⟩

/-- **What the operations keep holds in every state of a session.** -/
theorem session (h : WorldRule S.target cancel builders I) (hS : KeepsConstructors S constructors)
    (hfresh : ∀ st, Fresh S st → I st.round.world st.round.rng) {hs : List (BothHistories ν)} (hsession : Session S st hs) :
    (∀ b ∈ constructors st.policy, builders b) → I st.round.world st.round.rng := by
  induction hsession with
  | new hnew => exact fun _ => hfresh _ hnew
  | startNextRound _ hrun ih =>
    intro hbuilders
    refine h.startNextRound (ih fun b hb => hbuilders b ?_) hrun
    rw [startNextRound_policy hrun]
    exact (hS.update _ b).2 hb
  | @generate st st' hs fuel maxTasks hist _ _ hrun ih =>
    intro hbuilders
    have hrun : Ltest.playTasks S.target S.next S.onVerifierTaskFinish fuel maxTasks st ⟨[], []⟩ = .ok (hist, st') := hrun
    have hbuilders : ∀ b ∈ constructors st.policy, builders b := fun b hb =>
      hbuilders b ((constructors_playTasks hrun (fun _ _ _ => hS.next) (fun _ _ _ => rfl) b).2 hb)
    exact (h.playTasks (J := fun p => ∀ b ∈ constructors p, builders b) ⟨ih hbuilders, hbuilders⟩ hrun (fun st t st₁ hI hnext =>
      ⟨h.next hS hI.2 hI.1 hnext, fun b hb => hI.2 b ((hS.next hnext b).1 hb)⟩) fun _ _ _ => ⟨rfl, rfl, rfl⟩).1
  | explore _ hrun ih =>
    intro hbuilders
    obtain ⟨st₀, hreset, hrun⟩ := explore_eq_ok.1 hrun
    have hbuilders : ∀ b ∈ constructors st₀.policy, builders b := fun b hb =>
      hbuilders b ((constructors_playTasks hrun (fun _ _ _ => hS.nextSchedule) (fun _ _ _ => rfl) b).2 hb)
    have hI := h.resetCurrentRound (ih fun b hb => hbuilders b ((hS.resetCurrentRound hreset b).2 hb)) hreset
    refine (h.playTasks (J := fun p => ∀ b ∈ constructors p, builders b) ⟨hI, hbuilders⟩ hrun (fun st t st₁ hI hnext =>
      ⟨?_, fun b hb => hI.2 b ((hS.nextSchedule hnext b).1 hb)⟩) fun _ _ _ => ⟨rfl, rfl, rfl⟩).1
    obtain ⟨-, -, -, hround⟩ := nextSchedule_eq_ok hnext
    rw [hround]
    exact hI.1
  | replay _ hrun ih =>
    intro hbuilders
    obtain ⟨st₀, r, hreset, hloop, rfl⟩ := replay_eq_ok.1 hrun
    obtain ⟨hI, hr, -⟩ := replayTasks_rule (I := fun w => I w st₀.round.rng) (fun w slot w' hw hresume => h.resume hw hresume) _
      (h.resetCurrentRound (ih fun b hb => hbuilders b ((hS.resetCurrentRound hreset b).2 hb)) hreset) hloop
    dsimp only
    rw [hr]
    exact hI
  | setTaskRemoved id isRemoved _ ih => exact ih

end WorldRule

end Ltest
