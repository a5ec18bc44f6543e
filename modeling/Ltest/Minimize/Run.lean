import Ltest.Minimize.Greedy
import Ltest.Minimize.Smart
import Ltest.Strategy.Points

/-!
# The run of a strategy scheduler (`StrategyScheduler::Run`)

`Run` generates rounds until the checker rejects one. That round is minimized, if this is asked for: greedily in the
same interleaving, greedily with explorations, and with the genetic minimizer. What it returns is a history that the
checker rejects, and with `LinearizabilityCheckerRecursive` a well-formed one that is not linearizable (`run_reports`);
when it returns none, every round was linearizable at every step (`run_accepts`).
-/

namespace Ltest

open Program

variable {σ κ α ν ς ρ π γ β : Type}

/-- The parameters of `StrategyScheduler`. -/
structure RunParams where
  maxTasks : Nat
  maxRounds : Nat
  shouldMinimizeHistory : Bool
  explorationRuns : Nat
  minimizationRuns : Nat

/-- The `SmartMinimizor` that `Run` makes, with the defaults of its constructor. -/
def RunParams.smart (P : RunParams) : SmartParams where
  explorationRuns := P.explorationRuns
  minimizationRuns := P.minimizationRuns
  maxOffspringsPerGeneration := 5
  offspringsGenerationAttempts := 10

section Definitions

variable [Inhabited ν] (S : Strategy σ κ α ν ς ρ π) (checker : ModelChecker α ν) (fuel : Nat) (D : Dice γ)
  (P : RunParams) (g : γ)

/-- The calls of `Minimize` in `Run`. -/
def minimizeAll (st : Stage σ κ α ν ς ρ π) (h : BothHistories ν) :
    Except SmartHalt (BothHistories ν × Stage σ κ α ν ς ρ π) := do
  let (h, st) ← scheduled (greedyMinimize S checker fuel (sameInterleaving S checker fuel) st h)
  let (h, st) ← scheduled (greedyMinimize S checker fuel (strategyExploration S checker fuel P.explorationRuns) st h)
  smartMinimize S checker fuel D P.smart st h 10 g

/-- The loop of `Run`. -/
def runRounds : Nat → Stage σ κ α ν ς ρ π → Except SmartHalt (Option (BothHistories ν) × Stage σ κ α ν ς ρ π)
  | 0, st => .ok (none, st)
  | rounds + 1, st => do
    let (histories, st) ← scheduled (S.runRound checker fuel P.maxTasks st)
    match histories with
    | some h =>
      if P.shouldMinimizeHistory then do
        let (h, st) ← minimizeAll S checker fuel D P g st h
        return (some h, st)
      else return (some h, st)
    | none => do
      let st ← scheduled (S.startNextRound fuel st)
      runRounds rounds st

/-- `Run`. -/
def run (st : Stage σ κ α ν ς ρ π) : Except SmartHalt (Option (BothHistories ν) × Stage σ κ α ν ς ρ π) :=
  runRounds S checker fuel D P g P.maxRounds st

end Definitions

/-! ## What is returned -/

section Reported

variable [Inhabited ν] {S : Strategy σ κ α ν ς ρ π} {checker : ModelChecker α ν} {st st' : Stage σ κ α ν ς ρ π}
  {h h' : BothHistories ν} {fuel : Nat} {D : Dice γ} {P : RunParams} {g : γ}

/-- A history of the round that the checker rejects. It invokes the tasks that are not removed and has their results. -/
structure Reported (checker : ModelChecker α ν) (st : Stage σ κ α ν ς ρ π) (seq : List (HistoryEvent Slot ν)) : Prop where
  rejected : checker (st.round.world.resolve seq) = false
  invoked : ∀ slot, slot ∈ invokedTasks seq ↔ ∃ c, st.round.world.task slot = some c ∧ c.id ∉ st.round.removedTasks
  once : InvokedOnce seq
  responses : ResponsesInvoked seq
  answeredOnce : AnsweredOnce seq
  results : ∀ slot r th, .response slot r th ∈ seq → (st.round.world.task slot).map Coro.ret = some r

omit [Inhabited ν] in
theorem mem_invokedTasks {seq : List (HistoryEvent Slot ν)} {slot : Slot} :
    slot ∈ invokedTasks seq ↔ ∃ i, InvokeAt seq i slot := by
  unfold invokedTasks
  rw [List.mem_filterMap]
  constructor
  · rintro ⟨e, he, hinvoked⟩
    obtain ⟨i, hi⟩ := List.getElem?_of_mem he
    exact ⟨i, invokeAt_iff.2 (by rw [hi]; exact hinvoked)⟩
  · rintro ⟨i, th, hi⟩
    exact ⟨_, List.mem_of_getElem? hi, rfl⟩

omit [Inhabited ν] in
theorem eq_of_countP_le_one {A : Type} {p : A → Bool} : ∀ {l : List A} {i j : Nat} {a b : A}, l.countP p ≤ 1 →
    l[i]? = some a → l[j]? = some b → p a = true → p b = true → i = j
  | [], i, _, _, _, _, h, _, _, _ => by cases h
  | x :: l, 0, 0, _, _, _, _, _, _, _ => rfl
  | x :: l, 0, j + 1, a, b, hle, hi, hj, ha, hb => by
    cases hi
    have hj : l[j]? = some b := hj
    rw [List.countP_cons, if_pos ha] at hle
    exact absurd hb (List.countP_eq_zero.1 (by omega) b (List.mem_of_getElem? hj))
  | x :: l, i + 1, 0, a, b, hle, hi, hj, ha, hb => by
    cases hj
    have hi : l[i]? = some a := hi
    rw [List.countP_cons, if_pos hb] at hle
    exact absurd ha (List.countP_eq_zero.1 (by omega) a (List.mem_of_getElem? hi))
  | x :: l, i + 1, j + 1, a, b, hle, hi, hj, ha, hb => by
    rw [List.countP_cons] at hle
    rw [eq_of_countP_le_one (Nat.le_trans (Nat.le_add_right _ _) hle) hi hj ha hb]

/-- The log of a run is a well-formed history. -/
theorem Recorded.wellFormed {T : Target σ κ ν} {w : World σ κ α ν} (hr : Recorded T w h) :
    InvokedOnce h.seq ∧ ResponsesInvoked h.seq ∧ AnsweredOnce h.seq := by
  have hsome : ∀ slot ∈ h.full, ((basePool T w).proc slot).isSome := by
    intro slot hs
    rw [basePool, Option.isSome_map]
    exact hr.there slot hs
  have hrestarted : ∀ slot ∈ h.full, (machine T).done ((basePool T w).proc slot) = false := by
    intro slot hs
    obtain ⟨c, hc⟩ := Option.isSome_iff_exists.1 (hr.there slot hs)
    show (machine T).done ((w.task slot).map Coro.restart) = false
    rw [hc]
    rfl
  refine ⟨fun i i' slot hi hi' => ?_, fun j slot hj => ?_, fun j j' slot hj hj' => ?_⟩
  · obtain ⟨th, hi⟩ := hi
    obtain ⟨th', hi'⟩ := hi'
    have hle : h.seq.countP (fun e => e.invoked == some slot) ≤ 1 := by
      rw [hr.seq, countP_invoked, Pool.count_start]
      split <;> omega
    exact eq_of_countP_le_one hle hi hi' (beq_self_eq_true _) (beq_self_eq_true _)
  · obtain ⟨r, th, hj⟩ := hj
    obtain ⟨hlt, hj⟩ := List.getElem?_eq_some_iff.1 hj
    have hcut : h.seq = h.seq.take j ++ .response slot r th :: h.seq.drop (j + 1) := by
      rw [← hj, List.getElem_cons_drop, List.take_append_drop]
    obtain ⟨i, hi⟩ := List.getElem?_of_mem (invoked_before (hr.seq.symm.trans hcut))
    obtain ⟨hi', -⟩ := List.getElem?_eq_some_iff.1 hi
    rw [List.length_take] at hi'
    rw [List.getElem?_take_of_lt (by omega)] at hi
    exact ⟨i, by omega, slot.1, hi⟩
  · obtain ⟨r, th, hj⟩ := hj
    obtain ⟨r', th', hj'⟩ := hj'
    have hs : slot ∈ h.full := (hr.event_mem.2 (List.mem_of_getElem? hj)).1
    have hle : h.seq.countP (fun e => e.answered == some slot) ≤ 1 := by
      rw [hr.seq, countP_answered hsome, Pool.count_finish (hrestarted slot hs)]
      split <;> omega
    exact eq_of_countP_le_one hle hj hj' (beq_self_eq_true _) (beq_self_eq_true _)

/-- The minimizers leave such a history. -/
theorem Played.reported (hp : Played S.target st.round.world h) (hr : Rejected S.target checker st.round.world h)
    (hinvokes : Invokes st h) : Reported checker st h.seq := by
  obtain ⟨honce, hresponses, hanswered⟩ := hr.toRecorded.wellFormed
  refine ⟨hp.rejected_iff.2 hr, fun slot => ?_, honce, hresponses, hanswered, fun slot r th he => hp.ret_eq he⟩
  rw [hr.mem_invokedTasks]
  constructor
  · intro hs
    obtain ⟨c, hc⟩ := Option.isSome_iff_exists.1 (hr.there slot hs)
    exact ⟨c, hc, (hinvokes slot c hc).1 hs⟩
  · rintro ⟨c, hc, hrem⟩
    exact (hinvokes slot c hc).2 hrem

omit [Inhabited ν] in
theorem scheduled_eq_ok {A : Type} {x : Except Halt A} {a : A} : scheduled x = .ok a ↔ x = .ok a := by
  cases x <;> simp [scheduled]

/-- The replay at the end of a greedy minimization. -/
theorem Standing.greedy {w₀ : World σ κ α ν} {h₀ : BothHistories ν} {onTasksRemoved : OnTasksRemoved σ κ α ν ς ρ π}
    (hS : Repeatable S) (hf : GreedyMinimizor S checker fuel onTasksRemoved) (hstanding : Standing S checker w₀ h₀ st h)
    (hrun : greedyMinimize S checker fuel onTasksRemoved st h = .ok (h', st')) : Standing S checker w₀ h₀ st' h' := by
  obtain ⟨⟨h₁, st₁⟩, hsingles, hrun⟩ := bind_eq_ok.1 hrun
  obtain ⟨⟨h₂, st₂⟩, hpairs, hrun⟩ := bind_eq_ok.1 hrun
  obtain ⟨⟨res, st₃⟩, hreplay, hrun⟩ := bind_eq_ok.1 hrun
  cases hrun
  have hlast := removePairs_standing hS hf _ (removeSingles_standing hS hf _ hstanding hsingles) hpairs
  obtain ⟨hs, hsession⟩ := hlast.session
  have hids : ∀ id ∈ getTasksOrdering st₂.round.world h'.full ∅, id ∉ st₂.round.removedTasks := by
    intro id hid
    obtain ⟨slot, hslot, hid'⟩ := mem_getTasksOrdering.1 hid
    obtain ⟨c, hc, rfl⟩ := Option.map_eq_some_iff.1 hid'
    exact (hlast.invokes slot c hc).1 hslot
  obtain ⟨h₃, hproduced, -, ha, hremoved, -⟩ := replayRound_spec hsession hids hreplay
  have hattempted : Attempted S checker st₂ [] st' none := hremoved
  exact hlast.failed hproduced.session ha hattempted

/-- **What the three minimizers leave.** -/
theorem reported_of_minimizeAll (hS : Repeatable S) (hproduced : Produced S st h)
    (hrejected : checker (st.round.world.resolve h.seq) = false)
    (hexact : ∀ slot c, st.round.world.task slot = some c → c.id ∉ st.round.removedTasks ∧ slot ∈ invokedTasks h.seq)
    (hthreads : st.round.world.threads.length ≤ 10000)
    (hrun : minimizeAll S checker fuel D P g st h = .ok (h', st')) :
    Reported checker st' h'.seq ∧ Alike st.round.world st'.round.world := by
  have hplayed := hproduced.played hS
  have hstart : Standing S checker st.round.world h st h := by
    refine ⟨hproduced.session, rfl, hplayed.rejected_iff.1 hrejected, fun slot c hc => ?_, fun _ hs => hs⟩
    rw [← hplayed.toRecorded.mem_invokedTasks]
    exact iff_of_true (hexact slot c hc).2 (hexact slot c hc).1
  obtain ⟨⟨h₁, st₁⟩, hsame, hrun⟩ := bind_eq_ok.1 hrun
  obtain ⟨⟨h₂, st₂⟩, hexplore, hrun⟩ := bind_eq_ok.1 hrun
  have hstanding := (hstart.greedy hS .sameInterleaving (scheduled_eq_ok.1 hsame)).greedy hS (.strategyExploration _)
    (scheduled_eq_ok.1 hexplore)
  have hlen : st₂.round.world.threads.length ≤ 10000 := by
    have : st₂.round.world.threads.length = st.round.world.threads.length := by
      simpa using congrArg List.length hstanding.alike
    omega
  have hall : Returns _ (MayFail checker) (smartMinimize S checker fuel D P.smart st₂ h₂ 10 g) :=
    (returns_firstGeneration hstanding.session hlen hstanding.rejected hstanding.invokes 10 g).bind fun e₀ he₀ =>
      (returns_generations hS hlen P.smart.minimizationRuns he₀).bind fun e he => returns_finalAnswer hS he
  obtain ⟨ha, hplayed', hrejected', hinvokes, -⟩ := hall.of_ok hrun
  exact ⟨hplayed'.reported hrejected' hinvokes, ha.trans hstanding.alike⟩

end Reported

/-! ## The rounds -/

section Rounds

variable [Inhabited ν] {S : Strategy σ κ α ν ς ρ π} {checker : ModelChecker α ν} {st st' st₁ : Stage σ κ α ν ς ρ π}
  {h : BothHistories ν} {fuel maxTasks : Nat} {D : Dice γ} {P : RunParams} {g : γ}

/-- The strategy after some rounds, each generated to its end. -/
def Strategy.afterRounds (S : Strategy σ κ α ν ς ρ π) (fuel maxTasks : Nat) : Nat → Stage σ κ α ν ς ρ π →
    Except Halt (Stage σ κ α ν ς ρ π)
  | 0, st => .ok st
  | rounds + 1, st => do
    let (_, st) ← S.generate fuel maxTasks st
    let st ← S.startNextRound fuel st
    afterRounds S fuel maxTasks rounds st

/-- What every round keeps. -/
theorem afterRounds_rule {I : Stage σ κ α ν ς ρ π → Prop} (hstep : ∀ {st h st₁ st'}, I st →
    S.generate fuel maxTasks st = .ok (h, st₁) → S.startNextRound fuel st₁ = .ok st' → I st') :
    ∀ {rounds : Nat} {st st' : Stage σ κ α ν ς ρ π}, I st → S.afterRounds fuel maxTasks rounds st = .ok st' → I st'
  | 0, _, _, hI, hrun => by
    cases hrun
    exact hI
  | rounds + 1, st, st', hI, hrun => by
    obtain ⟨⟨h, st₁⟩, hgen, hrun⟩ := bind_eq_ok.1 hrun
    obtain ⟨st₂, hnext, hrun⟩ := bind_eq_ok.1 hrun
    exact afterRounds_rule hstep (hstep hI hgen hnext) hrun

/-- What generating a round leaves as it is. -/
theorem kept_of_generate (hgen : S.generate fuel maxTasks st = .ok (h, st')) :
    st'.round.removedTasks = st.round.removedTasks ∧
    st'.round.world.threads.length = st.round.world.threads.length := by
  refine playTasks_rule (I := fun _ st₁ _ => st₁.round.removedTasks = st.round.removedTasks ∧
    st₁.round.world.threads.length = st.round.world.threads.length)
    (fun left st₀ h t st₁ task w hI hnext hresume htask => ?_) fuel maxTasks ⟨rfl, rfl⟩ hgen
  obtain ⟨asked, -, hremoved, -, -⟩ := asked_of_next hnext
  have hkept : w.threads.length = st.round.world.threads.length := by rw [length_of_pass hnext hresume, hI.2]
  split <;> exact ⟨hremoved.trans hI.1, hkept⟩

omit [Inhabited ν] in
theorem removed_of_startNextRound (h : S.startNextRound fuel st = .ok st') :
    st'.round.removedTasks = st.round.removedTasks := by
  obtain ⟨r, hterm, h⟩ := bind_eq_ok.1 h
  cases h
  unfold Strategy.terminateTasks at hterm
  split at hterm
  · cases hterm
  · split at hterm
    · cases hterm
      rfl
    · cases hterm

/-- A strategy between two rounds of `Run`: nothing has been removed. -/
structure Between (S : Strategy σ κ α ν ς ρ π) (st : Stage σ κ α ν ς ρ π) : Prop where
  session : ∃ hs, Session S st hs
  empty : ∀ tasks ∈ st.round.world.threads, tasks = []
  removed : st.round.removedTasks = ∅
  threads : st.round.world.threads.length ≤ 10000

theorem Between.again (hst : Between S st) (hgen : S.generate fuel maxTasks st = .ok (h, st₁))
    (hnext : S.startNextRound fuel st₁ = .ok st') : Between S st' := by
  obtain ⟨hs, hsession⟩ := hst.session
  obtain ⟨hremoved, hlen⟩ := kept_of_generate hgen
  obtain ⟨hempty, -, -, hlen'⟩ := startNextRound_eq_ok hnext
  refine ⟨⟨_, (hsession.generate hst.empty hgen).startNextRound hnext⟩, hempty, ?_, ?_⟩
  · rw [removed_of_startNextRound hnext, hremoved, hst.removed]
  · rw [hlen', hlen]
    exact hst.threads

end Rounds

/-! ## What `Run` says -/

section Run

variable [Inhabited α] [Inhabited ν] [BEq ν] {S : Strategy σ κ α ν ς ρ π} {st st' st₁ : Stage σ κ α ν ς ρ π}
  {h : BothHistories ν} {fuel maxTasks : Nat} {D : Dice γ} {P : RunParams} {g : γ} {spec : Specification β α ν}
  {constructors : π → List (TaskBuilder σ κ α ρ)}

omit [Inhabited α] [BEq ν] in
/-- The round in which `Run` ends. -/
theorem runRounds_eq_some {checker : ModelChecker α ν} : ∀ {rounds : Nat} {st : Stage σ κ α ν ς ρ π},
    runRounds S checker fuel D P g rounds st = .ok (some h, st') → ∃ k < rounds, ∃ st₀ h₁ st₁,
      S.afterRounds fuel P.maxTasks k st = .ok st₀ ∧ S.generate fuel P.maxTasks st₀ = .ok (h₁, st₁) ∧
      checker (st₁.round.world.resolve h₁.seq) = false ∧
      (P.shouldMinimizeHistory = false ∧ h = h₁ ∧ st' = st₁ ∨
        P.shouldMinimizeHistory = true ∧ minimizeAll S checker fuel D P g st₁ h₁ = .ok (h, st'))
  | 0, _, hrun => by cases hrun
  | rounds + 1, st, hrun => by
    unfold runRounds at hrun
    obtain ⟨⟨histories, st₁⟩, hround, hrun⟩ := bind_eq_ok.1 hrun
    obtain ⟨⟨h₁, st₂⟩, hgen, hround⟩ := bind_eq_ok.1 (scheduled_eq_ok.1 hround)
    obtain ⟨rfl, rfl⟩ := Prod.ext_iff.1 (Except.ok.inj hround)
    dsimp only at hrun
    cases hv : verdict checker st₂.round.world h₁ with
    | none =>
      rw [hv] at hrun
      obtain ⟨st₃, hnext, hrun⟩ := bind_eq_ok.1 hrun
      obtain ⟨k, hk, st₀, h₂, st₄, hafter, hrest⟩ := runRounds_eq_some hrun
      refine ⟨k + 1, by omega, st₀, h₂, st₄, ?_, hrest⟩
      exact bind_eq_ok.2 ⟨_, hgen, bind_eq_ok.2 ⟨_, scheduled_eq_ok.1 hnext, hafter⟩⟩
    | some h₂ =>
      rw [hv] at hrun
      unfold verdict at hv
      split at hv
      · rename_i hno
        cases hv
        refine ⟨0, by omega, st, h₁, st₂, rfl, hgen, by simpa using hno, ?_⟩
        dsimp only at hrun
        split at hrun
        · rename_i hmin
          obtain ⟨⟨h₃, st₃⟩, hminimize, hrun⟩ := bind_eq_ok.1 hrun
          cases hrun
          exact .inr ⟨hmin, hminimize⟩
        · rename_i hmin
          cases hrun
          exact .inl ⟨by simpa using hmin, rfl, rfl⟩
      · cases hv

omit [Inhabited α] [BEq ν] in
/-- The rounds of a `Run` that returns nothing. -/
theorem runRounds_eq_none {checker : ModelChecker α ν} : ∀ {rounds : Nat} {st : Stage σ κ α ν ς ρ π},
    runRounds S checker fuel D P g rounds st = .ok (none, st') → ∀ k < rounds, ∃ st₀ st₁,
      S.afterRounds fuel P.maxTasks k st = .ok st₀ ∧ S.runRound checker fuel P.maxTasks st₀ = .ok (none, st₁)
  | 0, _, _, _, hk => absurd hk (Nat.not_lt_zero _)
  | rounds + 1, st, hrun, k, hk => by
    unfold runRounds at hrun
    obtain ⟨⟨histories, st₁⟩, hround, hrun⟩ := bind_eq_ok.1 hrun
    have hround := scheduled_eq_ok.1 hround
    dsimp only at hrun
    cases histories with
    | some h₁ =>
      dsimp only at hrun
      split at hrun
      · obtain ⟨_, _, hrun⟩ := bind_eq_ok.1 hrun
        cases hrun
      · cases hrun
    | none =>
      obtain ⟨st₂, hnext, hrounds⟩ := bind_eq_ok.1 hrun
      cases k with
      | zero => exact ⟨st, st₁, rfl, hround⟩
      | succ k =>
        obtain ⟨⟨h₁, st₃⟩, hgen, hround⟩ := bind_eq_ok.1 hround
        obtain ⟨-, rfl⟩ := Prod.ext_iff.1 (Except.ok.inj hround)
        obtain ⟨st₀, st₄, hafter, hrest⟩ := runRounds_eq_none hrounds k (by omega)
        exact ⟨st₀, st₄, bind_eq_ok.2 ⟨_, hgen, bind_eq_ok.2 ⟨_, scheduled_eq_ok.1 hnext, hafter⟩⟩, hrest⟩

/-- The constructors make calls of methods of the specification. -/
def NamedConstructors (spec : Specification β α ν) (constructors : List (TaskBuilder σ κ α ρ)) : Prop :=
  ∀ b ∈ constructors, (spec.methods b.name).isSome

omit [Inhabited α] [BEq ν] in
/-- The history of a generated round, with its tasks. -/
theorem registered_of_generate (hS : KeepsConstructors S constructors) (hready : PicksReady S)
    (hnamed : NamedConstructors spec (constructors st.policy)) (hempty : ∀ tasks ∈ st.round.world.threads, tasks = [])
    (hgen : S.generate fuel maxTasks st = .ok (h, st')) :
    Registered spec st'.round.world h.seq ∧ NamedConstructors spec (constructors st'.policy) := by
  have hstarts := hS.starts hready fun b => (spec.methods b.name).isSome = true
  have hrule : RoundRule S.target (fun _ _ b => (spec.methods b.name).isSome)
      fun w (_ : ρ) seq => Registered spec w seq := registered_roundRule fun _ _ _ h => h
  exact (hrule.generate hstarts hnamed (.empty hempty) hgen).symm

omit [Inhabited α] [BEq ν] in
theorem named_afterRounds (hS : KeepsConstructors S constructors) (hready : PicksReady S)
    (hnamed : NamedConstructors spec (constructors st.policy)) (hempty : ∀ tasks ∈ st.round.world.threads, tasks = [])
    {rounds : Nat} (hafter : S.afterRounds fuel maxTasks rounds st = .ok st') :
    NamedConstructors spec (constructors st'.policy) ∧ ∀ tasks ∈ st'.round.world.threads, tasks = [] := by
  refine afterRounds_rule (I := fun st => NamedConstructors spec (constructors st.policy) ∧
    ∀ tasks ∈ st.round.world.threads, tasks = []) (fun {st h st₁ st'} hI hgen hnext => ⟨?_, ?_⟩) ⟨hnamed, hempty⟩ hafter
  · have hstarts := hS.starts hready fun b => (spec.methods b.name).isSome = true
    exact hstarts.again (registered_of_generate hS hready hI.1 hI.2 hgen).2 hnext
  · exact (startNextRound_eq_ok hnext).1

/-- The verdict on a well-formed history. -/
theorem Reported.nonlinearizable {seq : List (HistoryEvent Slot ν)}
    (hr : Reported (recursiveChecker spec) st seq) (hnamed : NamedTasks spec st.round.world) :
    ¬Linearizable spec (viewIn (st.round.world.resolve seq)) seq := by
  intro hlin
  have haccepts : recursiveChecker spec (st.round.world.resolve seq) = true := by
    rw [recursiveChecker_resolve, Recursive.check_eq_true_iff hr.once hr.responses fun i slot hi => ?_]
    · exact ⟨hr.answeredOnce, hlin⟩
    · obtain ⟨c, hc, -⟩ := (hr.invoked slot).1 (mem_invokedTasks.2 ⟨i, hi⟩)
      rw [viewIn_resolve hc hi]
      exact hnamed slot c hc
  rw [hr.rejected] at haccepts
  cases haccepts

omit [Inhabited α] [Inhabited ν] [BEq ν] in
/-- A round that is not minimized. -/
theorem Registered.reported {checker : ModelChecker α ν} (hreg : Registered spec st.round.world h.seq)
    (hrejected : checker (st.round.world.resolve h.seq) = false) (hremoved : st.round.removedTasks = ∅) :
    Reported checker st h.seq := by
  have hbooked := hreg.ledger.booked
  refine ⟨hrejected, fun slot => ?_, hbooked.once, hbooked.responses, hreg.once, hreg.results⟩
  rw [mem_invokedTasks, hbooked.invoked, inSizes_iff, Option.isSome_iff_exists]
  simp [hremoved]

/-- **What `Run` returns is a well-formed history that is not linearizable.** It is the history of a generated round, or
one of the same tasks in which some have been removed. -/
theorem run_reports (hS : KeepsConstructors S constructors) (hready : PicksReady S)
    (hrepeat : P.shouldMinimizeHistory = true → Repeatable S) (hfresh : Fresh S st)
    (hremoved : st.round.removedTasks = ∅) (hthreads : st.round.world.threads.length ≤ 10000)
    (hnamed : NamedConstructors spec (constructors st.policy))
    (hrun : run S (recursiveChecker spec) fuel D P g st = .ok (some h, st')) :
    Reported (recursiveChecker spec) st' h.seq ∧
    ¬Linearizable spec (viewIn (st'.round.world.resolve h.seq)) h.seq ∧
    ∃ k < P.maxRounds, ∃ st₀ h₁ st₁, S.afterRounds fuel P.maxTasks k st = .ok st₀ ∧
      S.generate fuel P.maxTasks st₀ = .ok (h₁, st₁) ∧ Alike st₁.round.world st'.round.world ∧
      (P.shouldMinimizeHistory = false → h = h₁) := by
  obtain ⟨k, hk, st₀, h₁, st₁, hafter, hgen, hrejected, hlast⟩ := runRounds_eq_some hrun
  have hstart : Between S st := ⟨⟨_, .new hfresh⟩, hfresh.empty, hremoved, hthreads⟩
  have hbetween : Between S st₀ := afterRounds_rule (fun hI hgen hnext => hI.again hgen hnext) hstart hafter
  obtain ⟨hnamed₀, hempty₀⟩ := named_afterRounds hS hready hnamed hfresh.empty hafter
  obtain ⟨hreg, -⟩ := registered_of_generate hS hready hnamed₀ hempty₀ hgen
  obtain ⟨hkept, hlen⟩ := kept_of_generate hgen
  have hrem : st₁.round.removedTasks = ∅ := hkept.trans hbetween.removed
  have hreported := hreg.reported hrejected hrem
  obtain ⟨hplain, rfl, rfl⟩ | ⟨hmin, hminimize⟩ := hlast
  · exact ⟨hreported, hreported.nonlinearizable hreg.named, k, hk, st₀, h, st', hafter, hgen, rfl, fun _ => rfl⟩
  · obtain ⟨hs, hsession⟩ := hbetween.session
    have hexact : ∀ slot c, st₁.round.world.task slot = some c →
        c.id ∉ st₁.round.removedTasks ∧ slot ∈ invokedTasks h₁.seq := by
      intro slot c hc
      have hout : c.id ∉ st₁.round.removedTasks := by simp [hrem]
      exact ⟨hout, (hreported.invoked slot).2 ⟨c, hc, hout⟩⟩
    have hthreads₁ : st₁.round.world.threads.length ≤ 10000 := by
      rw [hlen]
      exact hbetween.threads
    obtain ⟨hreported', ha⟩ := reported_of_minimizeAll (hrepeat hmin) (.generate hsession hempty₀ hgen) hrejected hexact
      hthreads₁ hminimize
    refine ⟨hreported', hreported'.nonlinearizable (hreg.named.alike ha), k, hk, st₀, h₁, st₁, hafter, hgen, ha, ?_⟩
    rw [hmin]
    intro hno
    cases hno

/-- A specification of a counter that never counts. -/
def neverAdds : Specification Unit Unit Nat where
  firstState := ()
  methods name := if name = "Add" then some fun s _ => (0, s) else none

theorem counterStrategy_keeps : KeepsConstructors counterStrategy PickState.constructors :=
  IsPickStrategy.roundRobin.keepsConstructors

theorem twoCounters_named : NamedConstructors neverAdds twoCounters.policy.constructors := by
  simp [NamedConstructors, twoCounters, neverAdds]

/-- Rounds of `maxTasks` counts, which are minimized when they are rejected. -/
def countingRuns (maxTasks : Nat) : RunParams := ⟨maxTasks, 2, true, 1, 1⟩

/-- The first round of three counts is rejected and minimized to its last two. -/
theorem run_reports_twoCounters : ∃ h st,
    run counterStrategy (recursiveChecker neverAdds) 20 leastDice (countingRuns 3) () twoCounters = .ok (some h, st) ∧
    h.full = [(1, 0), (1, 0), (0, 1), (0, 1)] ∧ Reported (recursiveChecker neverAdds) st h.seq ∧
    ¬Linearizable neverAdds (viewIn (st.round.world.resolve h.seq)) h.seq := by
  obtain ⟨⟨res, st⟩, hrun, hf⟩ := ok_of_toOption
    (x := run counterStrategy (recursiveChecker neverAdds) 20 leastDice (countingRuns 3) () twoCounters)
    (f := fun r => r.1.map BothHistories.full) (b := some [(1, 0), (1, 0), (0, 1), (0, 1)]) (by decide +kernel)
  obtain ⟨h, rfl, hfull⟩ := Option.map_eq_some_iff.1 hf
  obtain ⟨hreported, hlin, -⟩ := run_reports counterStrategy_keeps IsPickStrategy.roundRobin.picksReady
    (fun _ => counterStrategy_replayable.toRepeatable) twoCounters_fresh rfl (by simp [twoCounters]) twoCounters_named hrun
  exact ⟨h, st, hrun, hfull, hreported, hlin⟩

open Relation in
/-- **When `Run` returns nothing, all its rounds were linearizable at every step.** -/
theorem run_accepts (hS : KeepsConstructors S constructors) (hready : PicksReady S) (hfresh : Fresh S st)
    (hnamed : NamedConstructors spec (constructors st.policy))
    (hrun : run S (recursiveChecker spec) fuel D P g st = .ok (none, st')) {k : Nat} (hk : k < P.maxRounds) :
    ∃ st₀, S.afterRounds fuel P.maxTasks k st = .ok st₀ ∧ ∀ left st₁ h₁,
      ReflTransGen (Pass S) (P.maxTasks, st₀, ⟨[], []⟩) (left, st₁, h₁) →
      Linearizable spec (viewIn (st₁.round.world.resolve h₁.seq)) h₁.seq := by
  obtain ⟨st₀, st₂, hafter, hround⟩ := runRounds_eq_none hrun k hk
  refine ⟨st₀, hafter, fun left st₁ h₁ hp => ?_⟩
  obtain ⟨hnamed₀, hempty₀⟩ := named_afterRounds hS hready hnamed hfresh.empty hafter
  obtain ⟨⟨h, st₃⟩, hgen, hverdict⟩ := bind_eq_ok.1 hround
  obtain ⟨-, rfl⟩ := Prod.ext_iff.1 (Except.ok.inj hverdict)
  obtain ⟨hreg, -⟩ := registered_of_generate hS hready hnamed₀ hempty₀ hgen
  have haccepts := accepts_of_runRound hempty₀ hround hreg.named hp
  obtain ⟨⟨hbooked, -⟩, -, hlater⟩ := later_of_generate hempty₀ hgen hp
  rw [recursiveChecker_resolve, Recursive.check_eq_true_iff hbooked.once hbooked.responses fun i slot hi => ?_] at haccepts
  · exact haccepts.2
  · obtain ⟨c, hc, hview⟩ := hbooked.view hi
    obtain ⟨c', hc', hname, -⟩ := hlater.tasks slot c hc
    rw [hview]
    show (spec.methods c.name).isSome
    rw [← hname]
    exact hreg.named slot c' hc'

open Relation in
/-- Rounds of one count are all linearizable. -/
theorem run_accepts_twoCounters : ∃ st₀, counterStrategy.afterRounds 20 1 1 twoCounters = .ok st₀ ∧
    ∀ left st₁ h₁, ReflTransGen (Pass counterStrategy) (1, st₀, ⟨[], []⟩) (left, st₁, h₁) →
      Linearizable neverAdds (viewIn (st₁.round.world.resolve h₁.seq)) h₁.seq := by
  obtain ⟨st, hrun⟩ := none_of_toOption
    (x := run counterStrategy (recursiveChecker neverAdds) 20 leastDice (countingRuns 1) () twoCounters) (by decide +kernel)
  exact run_accepts counterStrategy_keeps IsPickStrategy.roundRobin.picksReady twoCounters_fresh twoCounters_named hrun
    (k := 1) (by decide)

end Run

/-! ## Runs without a rejected history -/

section Accepted

variable [Inhabited ν] {S : Strategy σ κ α ν ς ρ π} {st st' : Stage σ κ α ν ς ρ π} {fuel : Nat} {D : Dice γ}
  {P : RunParams} {g : γ}
  {admits : World σ κ α ν → Nat → TaskBuilder σ κ α ρ → Prop} {Q : Stage σ κ α ν ς ρ π → Prop}
  {I : World σ κ α ν → ρ → List (HistoryEvent Slot ν) → Prop}

/-- **Rounds whose histories are accepted are never returned.** -/
theorem run_ne_some {checker : ModelChecker α ν} (hI : RoundRule S.target admits I) (hS : Starts S Q admits)
    (haccepts : ∀ {w g seq}, w.threads.length = st.round.world.threads.length → I w g seq →
      checker (w.resolve seq) = true) (hfresh : Fresh S st) (hst : Q st) (h : BothHistories ν) :
    run S checker fuel D P g st ≠ .ok (some h, st') := by
  intro hrun
  have hS := hS.withLength st.round.world.threads.length
  obtain ⟨k, -, st₀, h₁, st₁, hafter, hgen, hrejected, -⟩ := runRounds_eq_some hrun
  have hround : (Q st₀ ∧ st₀.round.world.threads.length = st.round.world.threads.length) ∧
      I st₀.round.world st₀.round.rng [] := by
    refine afterRounds_rule (I := fun st₁ => (Q st₁ ∧ st₁.round.world.threads.length = st.round.world.threads.length) ∧
      I st₁.round.world st₁.round.rng []) (fun hst hgen hnext => ?_)
      ⟨⟨hst, rfl⟩, hI.start hfresh.empty (.inl hfresh.memory)⟩ hafter
    exact ⟨hS.again (hI.generate hS hst.1 hst.2 hgen).1 hnext, hI.startNextRound hnext⟩
  obtain ⟨⟨-, hlen⟩, hlast⟩ := hI.generate hS hround.1 hround.2 hgen
  rw [haccepts hlen hlast] at hrejected
  cases hrejected

end Accepted

end Ltest
