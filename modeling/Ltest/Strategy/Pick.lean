import Ltest.Program.Triple
import Ltest.Runtime.Dice
import Ltest.Strategy.Base

/-!
# Strategies that pick a thread (`pick_strategy.h`, `round_robin_strategy.h`, `random_strategy.h`)

`PickStrategy` leaves the choice of a thread to its subclasses. A new task is built from the first constructor, in a
shuffled order, that the verifier admits.
-/

namespace Ltest

open Program

variable {σ κ α ν ς ρ γ : Type}

/-! ## Threads that are skipped -/

/-- The last task of thread `i`. -/
def World.lastTask (w : World σ κ α ν) (i : Nat) : Option (Coro κ α ν) := (w.threads[i]?).bind List.getLast?

/-- Thread `i` has a last task that is parked or blocked. -/
def World.skips (T : Target σ κ ν) (w : World σ κ α ν) (i : Nat) : Bool :=
  (w.lastTask i).any fun c => c.isParked T w.memory || c.waits T w.memory

/-- The last task of thread `i` is asked whether it is blocked: `IsParked` is tested first. -/
def World.asks (T : Target σ κ ν) (w : World σ κ α ν) (i : Nat) : Bool :=
  (w.lastTask i).any fun c => !c.isParked T w.memory

/-- The next task of thread `i` is not there or is parked. -/
def Round.skipsSchedule (T : Target σ κ ν) (r : Round σ κ α ν ς ρ) (i : Nat) : Bool :=
  match r.world.task (i, r.getNextTaskInThread i) with
  | none => true
  | some c => c.isParked T r.world.memory

/-! ## `PickStrategy` -/

/-- The fields of `PickStrategy` and its subclasses. -/
structure PickState (σ κ α ρ γ : Type) where
  constructors : List (TaskBuilder σ κ α ρ)
  rng : γ
  nextTask : Nat

/-- The loop over the shuffled constructors. -/
def firstVerified (V : StrategyVerifier ς κ α ν) (i : Nat) : ς → List (TaskBuilder σ κ α ρ) →
    Except Halt (Option (TaskBuilder σ κ α ρ) × ς)
  | v, [] => .ok (none, v)
  | v, b :: constructors =>
    match V.verify v ⟨b.name, true, i⟩ with
    | none => .error .verifierFailed
    | some (true, v) => .ok (some b, v)
    | some (false, v) => firstVerified V i v constructors

/-- The constructor of a new task: the constructors are shuffled, and the first admitted one is taken. -/
def pickConstruct (D : Dice γ) (V : StrategyVerifier ς κ α ν) (r : Round σ κ α ν ς ρ) (i : Nat)
    (p : PickState σ κ α ρ γ) : Except Halt (TaskBuilder σ κ α ρ × ς × PickState σ κ α ρ γ) :=
  match firstVerified V i r.schedChecker (D.shuffle p.constructors p.rng).1 with
  | .error e => .error e
  | .ok (none, _) => .error .noConstructor
  | .ok (some b, v) => .ok (b, v, { p with
      constructors := (D.shuffle p.constructors p.rng).1
      rng := (D.shuffle p.constructors p.rng).2 })

/-! ## `RoundRobinStrategy` -/

/-- `Pick` with `left` attempts left. -/
def roundRobinPick (T : Target σ κ ν) (w : World σ κ α ν) : Nat → List Nat → Nat → Except Halt (Nat × List Nat × Nat)
  | 0, _, _ => .error .deadlock
  | left + 1, asked, nextTask =>
    let cur := nextTask % w.threads.length
    let asked := if w.asks T cur then asked ++ [cur] else asked
    if w.skips T cur then roundRobinPick T w left asked (nextTask + 1) else .ok (cur, asked, nextTask + 1)

/-- `PickSchedule` with `left` attempts left. -/
def roundRobinPickSchedule (T : Target σ κ ν) (r : Round σ κ α ν ς ρ) : Nat → Nat → Except Halt (Nat × Nat)
  | 0, _ => .error .deadlock
  | left + 1, nextTask =>
    let cur := nextTask % r.world.threads.length
    if r.skipsSchedule T cur then roundRobinPickSchedule T r left (nextTask + 1) else .ok (cur, nextTask + 1)

/-- `RoundRobinStrategy`. -/
def roundRobinStrategy (T : Target σ κ ν) (V : StrategyVerifier ς κ α ν) (D : Dice γ) :
    Strategy σ κ α ν ς ρ (PickState σ κ α ρ γ) where
  target := T
  verifier := V
  pick r p :=
    (roundRobinPick T r.world r.world.threads.length [] p.nextTask).map fun (i, asked, nextTask) =>
      (i, asked, { p with nextTask := nextTask })
  construct := pickConstruct D V
  pickSchedule r p :=
    (roundRobinPickSchedule T r r.world.threads.length p.nextTask).map fun (i, nextTask) =>
      (i, { p with nextTask := nextTask })
  update := id

/-! ## `RandomStrategy` -/

/-- One of the threads `eligible` is drawn by its weight. -/
def drawThread (D : Dice γ) (weights : List Int) (eligible : List Nat) (g : γ) : Except Halt (Nat × γ) :=
  if eligible = [] then .error .deadlock
  else
    match D.discrete (eligible.map fun i => weights.getD i 0) g with
    | (num, g) =>
      match eligible[num]? with
      | none => .error .deadlock
      | some i => .ok (i, g)

/-- `RandomStrategy`. -/
def randomStrategy (T : Target σ κ ν) (V : StrategyVerifier ς κ α ν) (D : Dice γ) (weights : List Int) :
    Strategy σ κ α ν ς ρ (PickState σ κ α ρ γ) where
  target := T
  verifier := V
  pick r p :=
    (drawThread D weights ((List.range r.world.threads.length).filter fun i => !r.world.skips T i) p.rng).map
      fun (i, g) => (i, (List.range r.world.threads.length).filter (r.world.asks T), { p with rng := g })
  construct := pickConstruct D V
  pickSchedule r p :=
    (drawThread D weights ((List.range r.world.threads.length).filter fun i => !r.skipsSchedule T i) p.rng).map
      fun (i, g) => (i, { p with rng := g })
  update := id

/-! ## Both -/

/-- `PickStrategy` has two subclasses, the second with weights for the threads. -/
inductive IsPickStrategy (T : Target σ κ ν) (V : StrategyVerifier ς κ α ν) (D : Dice γ) :
    Strategy σ κ α ν ς ρ (PickState σ κ α ρ γ) → Prop
  | roundRobin : IsPickStrategy T V D (roundRobinStrategy T V D)
  | random (weights : List Int) : IsPickStrategy T V D (randomStrategy T V D weights)

namespace IsPickStrategy

variable {T : Target σ κ ν} {V : StrategyVerifier ς κ α ν} {D : Dice γ}
  {S : Strategy σ κ α ν ς ρ (PickState σ κ α ρ γ)} {r : Round σ κ α ν ς ρ} {p : PickState σ κ α ρ γ}

theorem target_eq (h : IsPickStrategy T V D S) : S.target = T := by cases h <;> rfl

theorem verifier_eq (h : IsPickStrategy T V D S) : S.verifier = V := by cases h <;> rfl

theorem construct_eq (h : IsPickStrategy T V D S) : S.construct = pickConstruct D V := by cases h <;> rfl

theorem update_eq (h : IsPickStrategy T V D S) : S.update = id := by cases h <;> rfl

theorem roundRobinPick_error {w : World σ κ α ν} {e : Halt} : ∀ (left : Nat) {asked : List Nat} {nextTask : Nat},
    roundRobinPick T w left asked nextTask = .error e → e = .deadlock
  | 0, _, _, h => by
    cases h
    rfl
  | left + 1, asked, nextTask, h => by
    unfold roundRobinPick at h
    dsimp only at h
    split at h
    · exact roundRobinPick_error left h
    · cases h

theorem drawThread_error {weights : List Int} {eligible : List Nat} {g : γ} {e : Halt}
    (h : drawThread D weights eligible g = .error e) : e = .deadlock := by
  unfold drawThread at h
  split at h
  · cases h
    rfl
  · dsimp only at h
    split at h <;> cases h
    rfl

/-- `Pick` fails only with its own assertion. -/
theorem pick_error {e : Halt} (h : IsPickStrategy T V D S) (herror : S.pick r p = .error e) : e = .deadlock := by
  cases h with
  | roundRobin => exact roundRobinPick_error _ (map_eq_error.1 herror)
  | random weights => exact drawThread_error (map_eq_error.1 herror)

/-- `Pick` does not touch the constructors. -/
theorem pick_constructors {x : Nat × List Nat × PickState σ κ α ρ γ} (h : IsPickStrategy T V D S)
    (hpick : S.pick r p = .ok x) : x.2.2.constructors = p.constructors := by
  cases h with
  | roundRobin =>
    obtain ⟨a, _, rfl⟩ := map_eq_ok.1 hpick
    rfl
  | random weights =>
    obtain ⟨a, _, rfl⟩ := map_eq_ok.1 hpick
    rfl

end IsPickStrategy

/-- **The loop over the constructors**: it finds an admitted one, or there is none. -/
theorem firstVerified_spec {V : StrategyVerifier ς κ α ν} {i : Nat} {I : ς → Prop} {ok : String → Bool}
    (hverify : ∀ {v name b v'}, I v → V.verify v ⟨name, true, i⟩ = some (b, v') → I v' ∧ b = ok name) :
    ∀ {bs : List (TaskBuilder σ κ α ρ)} {v v' : ς} {found : Option (TaskBuilder σ κ α ρ)}, I v →
      firstVerified V i v bs = .ok (found, v') → I v' ∧
        match found with
        | some b => b ∈ bs ∧ ok b.name = true
        | none => ∀ b ∈ bs, ok b.name = false
  | [], v, v', found, hI, h => by
    cases h
    exact ⟨hI, by simp⟩
  | b :: bs, v, v', found, hI, h => by
    unfold firstVerified at h
    split at h
    · cases h
    · rename_i v₁ hv
      cases h
      obtain ⟨hI', hok⟩ := hverify hI hv
      exact ⟨hI', List.mem_cons_self, hok.symm⟩
    · rename_i v₁ hv
      obtain ⟨hI', hok⟩ := hverify hI hv
      obtain ⟨hI'', hfound⟩ := firstVerified_spec hverify hI' h
      refine ⟨hI'', ?_⟩
      cases found with
      | some b' => exact ⟨List.mem_cons_of_mem _ hfound.1, hfound.2⟩
      | none => exact List.forall_mem_cons.2 ⟨hok.symm, hfound⟩

/-- What `PickStrategy` builds a new task from. -/
theorem pickConstruct_eq_ok {D : Dice γ} {V : StrategyVerifier ς κ α ν} {r : Round σ κ α ν ς ρ} {i : Nat}
    {p p' : PickState σ κ α ρ γ} {b : TaskBuilder σ κ α ρ} {v : ς} (h : pickConstruct D V r i p = .ok (b, v, p')) :
    firstVerified V i r.schedChecker (D.shuffle p.constructors p.rng).1 = .ok (some b, v) ∧
      p'.constructors.Perm p.constructors := by
  unfold pickConstruct at h
  split at h
  · cases h
  · cases h
  · rename_i b' v' hfirst
    cases h
    exact ⟨hfirst, D.shuffle_perm p.constructors p.rng⟩

/-- Why no task is built. -/
theorem pickConstruct_eq_error {D : Dice γ} {V : StrategyVerifier ς κ α ν} {r : Round σ κ α ν ς ρ} {i : Nat}
    {p : PickState σ κ α ρ γ} {e : Halt} (h : pickConstruct D V r i p = .error e) :
    firstVerified V i r.schedChecker (D.shuffle p.constructors p.rng).1 = .error e ∨
      ∃ v, firstVerified V i r.schedChecker (D.shuffle p.constructors p.rng).1 = .ok (none, v) := by
  unfold pickConstruct at h
  split at h
  · rename_i e' hfirst
    cases h
    exact .inl hfirst
  · rename_i v hfirst
    exact .inr ⟨v, hfirst⟩
  · cases h

theorem firstVerified_error {V : StrategyVerifier ς κ α ν} {i : Nat} {e : Halt} :
    ∀ {bs : List (TaskBuilder σ κ α ρ)} {v : ς}, firstVerified V i v bs = .error e → e = .verifierFailed
  | [], _, h => by cases h
  | b :: bs, v, h => by
    unfold firstVerified at h
    split at h
    · cases h
      rfl
    · cases h
    · exact firstVerified_error h

/-- `Next` only shuffles the constructors. -/
theorem IsPickStrategy.next_constructors [Inhabited ν] {T : Target σ κ ν} {V : StrategyVerifier ς κ α ν} {D : Dice γ}
    {S : Strategy σ κ α ν ς ρ (PickState σ κ α ρ γ)} {st st₁ : Stage σ κ α ν ς ρ (PickState σ κ α ρ γ)} {t : Picked}
    (hS : IsPickStrategy T V D S) (h : S.next st = .ok (t, st₁)) :
    st₁.policy.constructors.Perm st.policy.constructors := by
  unfold Strategy.next at h
  obtain ⟨⟨i, asked, p⟩, hpick, h⟩ := bind_eq_ok.1 h
  rw [← hS.pick_constructors hpick]
  unfold Strategy.nextOn at h
  dsimp only at h
  split at h
  · cases h
  · split at h
    · cases h
      exact .refl _
    · obtain ⟨⟨b, v, p'⟩, hconstruct, h⟩ := bind_eq_ok.1 h
      cases h
      rw [hS.construct_eq] at hconstruct
      exact (pickConstruct_eq_ok hconstruct).2

end Ltest
