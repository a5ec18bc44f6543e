import Ltest.Tla.Intermediate
import Ltest.Tla.Points
import Ltest.Verifying.Tested

/-!
# A register (`atomic_register.cpp`, `race_register.cpp`, `specs/register.h`)

The two targets differ in what `add` does: one instruction, or a load and a store. No strategy and no search reports the
first one (`atomic_never_reported`, `atomic_passes_search`).
-/

namespace Ltest

open Program

/-! ## The specification -/

namespace LinearRegister

/-- `LinearRegister::add`, whose result is `void_v`. -/
def add (x : Int32) : Option Int32 × Int32 := (none, x + 1)

/-- `LinearRegister::get`. -/
def get (x : Int32) : Option Int32 × Int32 := (some x, x)

/-- `LinearRegister`. -/
def spec : Specification Int32 Unit (Option Int32) where
  methods name :=
    if name = "add" then some fun x _ => add x
    else if name = "get" then some fun x _ => get x
    else none
  firstState := 0

end LinearRegister

/-! ## The targets -/

namespace Register

/-- Where `add` and `get` go on. -/
inductive Point where
  /-- `x.fetch_add(1)`, or the load of `++x` -/
  | add
  /-- the store of `++x` -/
  | store (x : Int32)
  /-- the end of `add` -/
  | added
  /-- `x.load()` -/
  | get
  /-- the end of `get` -/
  | got (x : Int32)
  deriving Repr, DecidableEq

/-- `add` and `get`, with a yield after each access; `add` is one access if `whole`. -/
def body (whole : Bool) : Point → Int32 → Suspension Point (Option Int32) × Int32
  | .add, x => if whole then (.yield .added, x + 1) else (.yield (.store (x + 1)), x)
  | .store y, _ => (.yield .added, y)
  | .added, x => (.returned none, x)
  | .get, x => (.yield (.got x), x)
  | .got y, x => (.returned (some y), x)

/-- `Register`. -/
def target (whole : Bool) : Target Int32 Point (Option Int32) where
  initial := 0
  reset _ := 0
  run := body whole
  parked _ _ := false
  word x _ := x.toInt

/-- The register of `atomic_register.cpp`. -/
def atomic : Target Int32 Point (Option Int32) := target true

/-- The register of `race_register.cpp`. -/
def race : Target Int32 Point (Option Int32) := target false

variable {ρ : Type}

def addBuilder : TaskBuilder Int32 Point Unit ρ := ⟨"add", fun _ _ g => (((), .add, none), g)⟩

def getBuilder : TaskBuilder Int32 Point Unit ρ := ⟨"get", fun _ _ g => (((), .get, none), g)⟩

/-- `add` and `get` are the methods under test. -/
def Methods (b : TaskBuilder Int32 Point Unit ρ) : Prop := b = addBuilder ∨ b = getBuilder

/-! ## Linearization points -/

namespace Point

/-- The method that goes on here. -/
def method : Point → String
  | add | store _ | added => "add"
  | get | got _ => "get"

/-- The result of a task that has taken effect. -/
def effect : Point → Option (Option Int32)
  | added => some none
  | got x => some (some x)
  | _ => none

/-- How often a task is resumed from here, at most. -/
def rank : Point → Nat
  | add => 2
  | store _ => 1
  | get => 1
  | added | got _ => 0

end Point

/-- A task goes on with its method; the atomic register stores nothing. -/
def Fits (c : Coro Point Unit (Option Int32)) : Prop :=
  c.isReturned = false → c.ctx.method = c.name ∧ ∀ x, c.ctx ≠ .store x

/-- What a resume of the atomic register does. -/
inductive Change (c c' : Coro Point Unit (Option Int32)) (x x' : Int32) : Prop
  | add : c.name = "add" → x' = x + 1 → c.taken Point.effect = none → c'.taken Point.effect = some none → Change c c' x x'
  | get : c.name = "get" → x' = x → c.taken Point.effect = none → c'.taken Point.effect = some (some x) → Change c c' x x'
  | finish : x' = x → c'.taken Point.effect = c.taken Point.effect → Change c c' x x'

theorem resume_changes {c c' : Coro Point Unit (Option Int32)} {x x' : Int32} {status : Option CoroutineStatus}
    (hfits : Fits c) (hr : c.isReturned = false) (hrun : c.resume atomic x = (c', x', status)) :
    Fits c' ∧ Change c c' x x' := by
  obtain ⟨hmethod, hstore⟩ := hfits hr
  have htaken : c.taken Point.effect = c.ctx.effect := taken_of_unfinished hr
  have hyield : ∀ ctx : Point, ctx.method = c.name → (∀ x, ctx ≠ .store x) → Fits { c with ctx := ctx } ∧
      ({ c with ctx := ctx } : Coro Point Unit (Option Int32)).taken Point.effect = ctx.effect :=
    fun ctx hctx hno => ⟨fun _ => ⟨hctx, hno⟩, taken_of_unfinished hr⟩
  unfold Coro.resume at hrun
  generalize hctx : c.ctx = ctx at hmethod hstore htaken hrun
  cases ctx with
  | add =>
    obtain ⟨hfits', htaken'⟩ := hyield .added hmethod fun _ h => by cases h
    cases hrun
    exact ⟨hfits', .add hmethod.symm rfl htaken htaken'⟩
  | store y => exact absurd rfl (hstore y)
  | get =>
    obtain ⟨hfits', htaken'⟩ := hyield (.got x) hmethod fun _ h => by cases h
    cases hrun
    exact ⟨hfits', .get hmethod.symm rfl htaken htaken'⟩
  | added =>
    cases hrun
    exact ⟨fun hno => (by cases hno), .finish rfl htaken.symm⟩
  | got y =>
    cases hrun
    exact ⟨fun hno => (by cases hno), .finish rfl htaken.symm⟩

/-- **At every step of a round** the tasks go on with their methods. -/
theorem fits_roundRule : RoundRule atomic (fun _ _ b => Methods b)
    fun w (_ : ρ) (_ : List (HistoryEvent Slot (Option Int32))) => w.Every Fits where
  start hempty _ := .empty hempty
  ask slot h := h.askBlocked (fun _ hc => hc) _ slot
  build id h hi _ hb := by
    refine h.pushTask hi fun _ => ?_
    obtain rfl | rfl := hb
    · exact ⟨rfl, fun _ h => by cases h⟩
    · exact ⟨rfl, fun _ h => by cases h⟩
  resume h hi hr _ hrun := h.set hi rfl (resume_changes (h.last hi) hr hrun).1

theorem forgetsContexts :
    ForgetsContexts fun w (_ : ρ) (_ : List (HistoryEvent Slot (Option Int32))) => (w : World Int32 _ _ _).Every Fits := by
  intro w g seq i before c ctx h hi hr
  exact h.set hi rfl fun hno => by cases hr.symm.trans hno

/-- **`add` takes effect with its only access**, and so does `get`. -/
theorem points : Points atomic LinearRegister.spec (fun _ _ b => Methods b)
    (fun w (_ : ρ) (_ : List (HistoryEvent Slot (Option Int32))) => w.Every Fits) Point.effect
    fun w x => w.memory = x where
  start {w} _ hmemory := memory_of_start (p := (· = 0)) hmemory rfl fun _ => rfl
  ask {w g seq s} slot _ hs := by
    rw [memory_askBlocked]
    exact hs
  build {w g seq i tasks b s} id _ _ _ hb hs := by
    obtain rfl | rfl := hb
    · exact ⟨rfl, rfl, hs⟩
    · exact ⟨rfl, rfl, hs⟩
  resume {w g seq i before c c' m status s} h hi hr _ hrun hs := by
    obtain ⟨-, hchange⟩ := resume_changes (h.last hi) hr hrun
    rw [hs] at hchange
    cases hchange with
    | add hname hm hnone hsome =>
      exact .inr ⟨hnone, fun x _ => LinearRegister.add x, by rw [hname]; rfl, hsome, hm⟩
    | get hname hm hnone hsome =>
      exact .inr ⟨hnone, fun x _ => LinearRegister.get x, by rw [hname]; rfl, hsome, hm⟩
    | finish hm hsame => exact .inl ⟨hsame, hm⟩

/-- The rounds of the atomic register, wherever the yields stand. -/
theorem atomic_roundRule (skips : Point → Bool) (n : Nat) (delay : Point → Nat) :
    RoundRule (atomic.compiled skips n delay) (fun _ _ b => Methods (b.mapCtx Prod.fst)) fun w (_ : ρ) seq =>
      (w.mapCtx Prod.fst).Every Fits ∧
        Linearized LinearRegister.spec Point.effect (fun w x => w.memory = x) (w.mapCtx Prod.fst) seq :=
  (points.roundRule fits_roundRule).compiled (forgetsContexts.linearized fun _ _ _ hs => hs)
    (fun _ _ _ _ => isParked_eq_false (fun _ _ => rfl) _ _) n delay

theorem countsDown (whole : Bool) : Tla.CountsDown (target whole) Point.rank := by
  intro ctx x
  cases ctx with
  | add =>
    cases whole with
    | false => exact .inr ⟨.store (x + 1), rfl, Nat.lt_succ_self 1⟩
    | true => exact .inr ⟨.added, rfl, Nat.zero_lt_two⟩
  | store y => exact .inr ⟨_, rfl, Nat.zero_lt_one⟩
  | get => exact .inr ⟨_, rfl, Nat.zero_lt_one⟩
  | added => exact .inl ⟨_, rfl⟩
  | got y => exact .inl ⟨_, rfl⟩

/-! ## Runs -/

/-- The constructors of the target methods, with `k` yields before the first access. -/
def constructors (k : Nat) : List (TaskBuilder Int32 (Point × Nat) Unit ρ) :=
  [⟨"add", fun _ _ g => (((), (.add, k), none), g)⟩, ⟨"get", fun _ _ g => (((), (.get, k), none), g)⟩]

theorem constructors_methods (k : Nat) : ∀ b ∈ constructors k, Methods (b.mapCtx Prod.fst : TaskBuilder _ _ _ ρ) := by
  intro b hb
  obtain rfl | rfl : b = _ ∨ b = _ := by simpa [constructors] using hb
  · exact .inl rfl
  · exact .inr rfl

section Runs

variable {ς π γ : Type} {skips : Point → Bool} {n : Nat} {delay : Point → Nat}

/-- **The atomic register is never reported**: the checker accepts the histories of all its rounds. -/
theorem atomic_never_reported {S : Strategy Int32 (Point × Nat) Unit (Option Int32) ς ρ π}
    {constructors : π → List (TaskBuilder Int32 (Point × Nat) Unit ρ)}
    {st st' : Stage Int32 (Point × Nat) Unit (Option Int32) ς ρ π} (hS : KeepsConstructors S constructors)
    (hready : PicksReady S) (htarget : S.target = atomic.compiled skips n delay) (hfresh : Fresh S st)
    (hmethods : ∀ b ∈ constructors st.policy, Methods (b.mapCtx Prod.fst)) {fuel : Nat} {D : Dice γ} {R : RunParams} {g : γ}
    (h : BothHistories (Option Int32)) :
    run S (recursiveChecker LinearRegister.spec) fuel D R g st ≠ .ok (some h, st') := by
  refine run_ne_some (htarget ▸ atomic_roundRule skips n delay) (hS.starts hready fun b => Methods (b.mapCtx Prod.fst))
    (fun _ hw => ?_) hfresh hmethods h
  rw [← resolve_mapCtx Prod.fst]
  exact hw.2.accepts

/-- Two threads that draw their priorities. -/
def registerStrategy : Strategy Int32 (Point × Nat) Unit (Option Int32) Unit Unit
    (PctState Int32 (Point × Nat) Unit Unit Nat) :=
  pctStrategy (atomic.compiled (fun _ => false) 0 fun _ => 1) defaultStrategyVerifier cyclicDice 2 false 10

/-- Before their first round. -/
def registerThreads : Stage Int32 (Point × Nat) Unit (Option Int32) Unit Unit
    (PctState Int32 (Point × Nat) Unit Unit Nat) where
  round := ⟨⟨0, [[], []], none⟩, 0, ∅, [none, none], (), ()⟩
  policy := pctStart cyclicDice 2 (constructors 1) 0

theorem atomic_never_reported_registerThreads :
    (∃ st, run registerStrategy (recursiveChecker LinearRegister.spec) 20 leastDice ⟨4, 2, true, 1, 1⟩ () registerThreads =
      .ok (none, st)) ∧
    ¬∃ h st, run registerStrategy (recursiveChecker LinearRegister.spec) 20 leastDice ⟨4, 2, true, 1, 1⟩ ()
      registerThreads = .ok (some h, st) := by
  have hnever : ¬∃ h st, run registerStrategy (recursiveChecker LinearRegister.spec) 20 leastDice ⟨4, 2, true, 1, 1⟩ ()
      registerThreads = .ok (some h, st) := fun ⟨h, st, hrun⟩ =>
    atomic_never_reported keepsConstructors_pct picksReady_pct rfl ⟨rfl, by simp [registerThreads], rfl, rfl⟩
      (constructors_methods 1) h hrun
  exact ⟨none_of_toOption (by decide +kernel), hnever⟩

/-- **The search passes the atomic register**: it ends without a history, however many threads and tasks there are. -/
theorem atomic_passes_search {P : Tla.Params Int32 (Point × Nat) Unit (Option Int32) ς ρ} {rng : ρ} {k d : Nat}
    (htarget : P.target = atomic.compiled skips n delay) (hconstructors : P.constructors = constructors k)
    (hchecker : P.checker = recursiveChecker LinearRegister.spec) (hthreads : 1 ≤ P.threadsCount) (htasks : 1 ≤ P.maxTasks)
    (hrounds : 1 ≤ P.maxRounds) (haccepts : ∀ v m, ∃ v', P.verifier.verify v m = some (true, v'))
    (hdelay : ∀ ctx, delay ctx ≤ d) (hk : k ≤ d) (hd : 3 * (d + 1) < 10000000) :
    ∃ enough, ∀ fuel, enough ≤ fuel → ∃ isOver s, Tla.run P fuel rng = .ok (isOver, none) s := by
  have hcounts : Tla.CountsDown P.target fun ctx => ctx.1.rank * (d + 1) + ctx.2 := by
    rw [htarget]
    exact (countsDown true).compiled skips n hdelay
  have hbuilder : ∀ b ∈ P.constructors, ∃ ctx : Point, ctx.rank ≤ 2 ∧ b.gen = fun _ _ g => (((), (ctx, k), none), g) := by
    intro b hb
    obtain rfl | rfl : b = _ ∨ b = _ := by simpa [hconstructors, constructors] using hb
    · exact ⟨.add, by decide, rfl⟩
    · exact ⟨.get, by decide, rfl⟩
  have hP : Tla.Exhaustible P rng := by
    refine hcounts.exhaustible htasks hrounds haccepts (fun b hb m i g => ?_) (fun b hb m i g g' => ?_) (fun m => ?_)
      fun b hb m i g => ?_
    · obtain ⟨ctx, -, hgen⟩ := hbuilder b hb
      rw [hgen]
    · obtain ⟨ctx, -, hgen⟩ := hbuilder b hb
      rw [hgen]
    · rw [htarget]
      rfl
    · obtain ⟨ctx, hrank, hgen⟩ := hbuilder b hb
      have hmul := Nat.mul_le_mul_right (d + 1) hrank
      rw [hgen]
      dsimp only
      omega
  refine Tla.run_eq_none hP hthreads fun p hp => ?_
  obtain ⟨c, hc⟩ := Option.isSome_iff_exists.1 hp
  have hw := Tla.keeps_playAll hP (htarget ▸ atomic_roundRule skips n delay) (fun hw => hw)
    (fun _ _ b hb => constructors_methods k b (hconstructors ▸ hb)) p hc
  rw [hchecker, Tla.historyOf, hc, Option.elim_some, ← resolve_mapCtx Prod.fst]
  exact hw.2.accepts

/-- A search with two threads. -/
def registerParams {κ : Type} (T : Target Int32 κ (Option Int32)) (constructors : List (TaskBuilder Int32 κ Unit Unit)) :
    Tla.Params Int32 κ Unit (Option Int32) Unit Unit where
  target := T
  maxTasks := 3
  maxRounds := 100
  threadsCount := 2
  maxSwitches := 2
  maxDepth := 2
  constructors := constructors
  checker := recursiveChecker LinearRegister.spec
  cancel m := m
  verifier := defaultStrategyVerifier

theorem atomic_passes_search_registerParams : ∃ enough, ∀ fuel, enough ≤ fuel → ∃ isOver s,
    Tla.run (registerParams (atomic.compiled (fun _ => false) 0 fun _ => 1) (constructors 1)) fuel () =
      .ok (isOver, none) s :=
  atomic_passes_search rfl rfl rfl (by decide) (by decide) (by decide) (fun _ _ => ⟨(), rfl⟩) (fun _ => Nat.le_refl 1)
    (Nat.le_refl 1) (by decide)

end Runs

/-! ## The race -/

section Race

open Tla

variable {ς : Type} {P : Params Int32 Point Unit (Option Int32) ς ρ} {g : ρ}

/-- Two threads both load the register before either stores it. -/
def adds : List Choice := [.start 0 0, .start 1 0, .resume 0, .resume 0, .resume 1, .resume 1]

/-- The first thread gets it `m` times. -/
def gets : Nat → List Choice
  | 0 => []
  | m + 1 => gets m ++ [.start 0 1, .resume 0]

theorem playAll_adds (htarget : P.target = race) (hconstructors : P.constructors = [addBuilder, getBuilder])
    (hthreads : 2 ≤ P.threadsCount) : ∃ c d, playAll P g adds = some c ∧ c.world.threads[0]? = some [d] ∧
      d.isReturned = true ∧ c.finished = 2 := by
  obtain ⟨n, hn⟩ := Nat.exists_eq_add_of_le' hthreads
  obtain ⟨target, maxTasks, maxRounds, threadsCount, maxSwitches, maxDepth, constructors, checker, cancel, verifier⟩ := P
  subst htarget hconstructors
  obtain rfl : threadsCount = n + 2 := hn
  exact ⟨_, _, rfl, rfl, rfl, rfl⟩

/-- The first thread gets the register. -/
theorem play_get {c : Conf Int32 Point Unit (Option Int32)} {tasks : List (Coro Point Unit (Option Int32))}
    (htarget : P.target = race) (hconstructors : P.constructors = [addBuilder, getBuilder])
    (hthread : c.world.threads[0]? = some tasks) (hfree : Free tasks) : ∃ c₁ c₂ tasks', c.play P g (.start 0 1) = some c₁ ∧
      c₁.finished = c.finished ∧ c₁.play P g (.resume 0) = some c₂ ∧ c₂.finished = c.finished + 1 ∧
      c₂.world.threads[0]? = some tasks' ∧ Free tasks' := by
  have hb : P.constructors[1]? = some getBuilder := by rw [hconstructors]; rfl
  obtain ⟨c₁, hstart⟩ : ∃ c₁, c.play P g (.start 0 1) = some c₁ := ⟨_, play_start.2 ⟨tasks, _, hthread, hb, hfree, rfl⟩⟩
  obtain ⟨before, task, hm⟩ := play_moves hstart
  obtain ⟨b, hb', rfl⟩ := hm.built 0 1 rfl
  obtain rfl := Option.some.inj (hb.symm.trans hb')
  have hthread₁ := hm.thread_after
  have hfinished₁ := hm.finished
  rw [htarget] at hthread₁ hfinished₁
  obtain ⟨c₂, hresume⟩ : ∃ c₂, c₁.play P g (.resume 0) = some c₂ := ⟨_, play_resume.2 ⟨_, _, hthread₁, rfl, rfl⟩⟩
  obtain ⟨before', task', hm'⟩ := play_moves hresume
  obtain ⟨-, htask⟩ := List.append_inj' (Option.some.inj (hm'.thread.symm.trans hthread₁)) rfl
  obtain rfl := List.singleton_inj.1 htask
  have hthread₂ := hm'.thread_after
  have hfinished₂ := hm'.finished
  rw [htarget] at hthread₂ hfinished₂
  exact ⟨c₁, c₂, _, hstart, hfinished₁, hresume, hfinished₂.trans (congrArg (· + 1) hfinished₁), hthread₂,
    by simp [Free]; rfl⟩

theorem gets_snoc (m : Nat) : adds ++ gets (m + 1) = adds ++ gets m ++ [.start 0 1] ++ [.resume 0] := by simp [gets]

theorem playAll_gets (htarget : P.target = race) (hconstructors : P.constructors = [addBuilder, getBuilder])
    (hthreads : 2 ≤ P.threadsCount) (m : Nat) : ∃ c tasks, playAll P g (adds ++ gets m) = some c ∧
      c.world.threads[0]? = some tasks ∧ Free tasks ∧ c.finished = m + 2 := by
  induction m with
  | zero =>
    obtain ⟨c, d, hc, hthread, hr, hfinished⟩ := playAll_adds (g := g) htarget hconstructors hthreads
    exact ⟨c, [d], hc, hthread, by simp [Free, hr], hfinished⟩
  | succ m ih =>
    obtain ⟨c, tasks, hc, hthread, hfree, hfinished⟩ := ih
    obtain ⟨c₁, c₂, tasks', hstart, -, hresume, hfinished', hthread', hfree'⟩ :=
      play_get (g := g) htarget hconstructors hthread hfree
    refine ⟨c₂, tasks', ?_, hthread', hfree', by rw [hfinished', hfinished]⟩
    rw [gets_snoc, playAll_snoc, playAll_snoc, hc, Option.bind_some, hstart, Option.bind_some, hresume]

theorem bounded_gets (hdepth : P.maxTasks ≤ P.maxDepth + 1) (hswitches : 2 ≤ P.maxSwitches) {m : Nat}
    (hm : m + 2 ≤ P.maxTasks) : Bounded P (adds ++ gets m) := by
  suffices hlimits : (adds ++ gets m).countP Choice.isStart = m + 2 ∧ (∀ i, startsOn i (adds ++ gets m) ≤ m + 1) ∧
      switches none (adds ++ gets m) = 2 by
    obtain ⟨htasks, hstarts, hswitched⟩ := hlimits
    exact ⟨by omega, fun i => (hstarts i).trans (by omega), by omega⟩
  clear hm
  induction m with
  | zero =>
    refine ⟨rfl, fun i => ?_, rfl⟩
    obtain _ | _ | i := i
    · decide
    · decide
    · simp [adds, gets, startsOn, Choice.isStart, Choice.thread]
  | succ m ih =>
    obtain ⟨htasks, hstarts, hswitched⟩ := ih
    rw [gets_snoc]
    refine ⟨?_, fun i => ?_, ?_⟩
    · rw [List.countP_append, List.countP_append, htasks]
      rfl
    · have := hstarts i
      rw [startsOn_snoc, startsOn_snoc]
      simp only [Choice.isStart, Bool.false_eq_true, false_and, ↓reduceIte]
      split <;> omega
    · rw [switches_snoc, switches_snoc, hswitched]
      simp [Choice.isStart, Choice.thread]

theorem complete_gets (htarget : P.target = race) (hconstructors : P.constructors = [addBuilder, getBuilder])
    (hthreads : 2 ≤ P.threadsCount) (hdepth : P.maxTasks ≤ P.maxDepth + 1) (hswitches : 2 ≤ P.maxSwitches) {m : Nat}
    (hm : P.maxTasks = m + 3) : Complete P g (adds ++ gets (m + 1)) := by
  obtain ⟨c, tasks, hc, hthread, hfree, hfinished⟩ := playAll_gets (g := g) htarget hconstructors hthreads m
  obtain ⟨c₁, c₂, tasks', hstart, hfinished₁, hresume, hfinished₂, -⟩ :=
    play_get (g := g) htarget hconstructors hthread hfree
  have hc₁ : playAll P g (adds ++ gets m ++ [.start 0 1]) = some c₁ := by rw [playAll_snoc, hc, Option.bind_some, hstart]
  have hc₂ : playAll P g (adds ++ gets (m + 1)) = some c₂ := by
    rw [gets_snoc, playAll_snoc, hc₁, Option.bind_some, hresume]
  refine ⟨bounded_gets hdepth hswitches (by omega), ⟨c₂, hc₂, by omega⟩, fun q d hq hd hfin => ?_⟩
  rw [gets_snoc] at hq ⊢
  obtain hq | ⟨q', hq⟩ := List.prefix_concat_iff.1 hq
  · exact hq
  · have hle := finished_mono hd (hq ▸ hc₁)
    omega

theorem gets_extends (m : Nat) : adds ++ gets 1 <+: adds ++ gets (m + 1) := by
  induction m with
  | zero => exact List.prefix_refl _
  | succ m ih =>
    rw [gets_snoc (m + 1), List.append_assoc _ [_]]
    exact ih.trans (List.prefix_append _ _)

theorem rejects_adds (htarget : P.target = race)
    (hconstructors : P.constructors = [addBuilder, getBuilder]) (hthreads : 2 ≤ P.threadsCount) :
    recursiveChecker LinearRegister.spec (historyOf P g (adds ++ gets 1)) = false := by
  obtain ⟨n, hn⟩ := Nat.exists_eq_add_of_le' hthreads
  have hhist : historyOf P g (adds ++ gets 1) = [
      .invoke ((0, 0), some ⟨"add", (), none⟩) 0, .invoke ((1, 0), some ⟨"add", (), none⟩) 1,
      .response ((0, 0), some ⟨"add", (), none⟩) none 0, .response ((1, 0), some ⟨"add", (), none⟩) none 1,
      .invoke ((0, 1), some ⟨"get", (), some 1⟩) 0, .response ((0, 1), some ⟨"get", (), some 1⟩) (some 1) 0] := by
    obtain ⟨target, maxTasks, maxRounds, threadsCount, maxSwitches, maxDepth, constructors, checker, cancel, verifier⟩ := P
    subst htarget hconstructors
    obtain rfl : threadsCount = n + 2 := hn
    rfl
  rw [hhist]
  decide +kernel

/-- **The search finds the race**: with two threads, three tasks and two switches, and enough rounds, it ends with a
history that is not linearizable. -/
theorem race_found (htarget : P.target = race) (hconstructors : P.constructors = [addBuilder, getBuilder])
    (hchecker : P.checker = recursiveChecker LinearRegister.spec) (hthreads : 2 ≤ P.threadsCount) (htasks : 3 ≤ P.maxTasks)
    (hdepth : P.maxTasks ≤ P.maxDepth + 1) (hswitches : 2 ≤ P.maxSwitches)
    (haccepts : ∀ v m, ∃ v', P.verifier.verify v m = some (true, v')) :
    ∃ rounds, ∀ r, rounds ≤ r → ∃ enough, ∀ fuel, enough ≤ fuel → ∃ isOver h s,
      Tla.run { P with maxRounds := r } fuel g = .ok (isOver, some h) s := by
  obtain ⟨m, hm⟩ := Nat.exists_eq_add_of_le' htasks
  have hcomplete := complete_gets (g := g) htarget hconstructors hthreads hdepth hswitches hm
  obtain ⟨c, hc, -⟩ := hcomplete.finishes
  have hbuilder : ∀ b ∈ P.constructors, b = addBuilder ∨ b = getBuilder := by
    intro b hb
    simpa [hconstructors] using hb
  refine run_eq_some (fun r hr => ?_) (by omega) hcomplete ?_
  · have hcounts : CountsDown P.target Point.rank := htarget ▸ countsDown false
    refine CountsDown.exhaustible (P := { P with maxRounds := r }) hcounts (by dsimp only; omega) hr haccepts
      (fun b hb m i g => ?_) (fun b hb m i g g' => ?_) (fun m => ?_) fun b hb m i g => ?_
    · obtain rfl | rfl := hbuilder b hb <;> rfl
    · obtain rfl | rfl := hbuilder b hb <;> rfl
    · show P.target.reset m = P.target.initial
      rw [htarget]
      rfl
    · obtain rfl | rfl := hbuilder b hb
      · exact (by decide : (2 : Nat) ≤ 9999998)
      · exact (by decide : (1 : Nat) ≤ 9999998)
  · by_contra hno
    have haccepted : recursiveChecker LinearRegister.spec (historyOf P g (adds ++ gets (m + 1))) = true := by
      rw [← hchecker]
      simpa using hno
    have hnamed : ∀ b ∈ P.constructors, (LinearRegister.spec.methods b.name).isSome := by
      intro b hb
      obtain rfl | rfl := hbuilder b hb <;> rfl
    have hearlier := accepts_of_schedule hnamed hc (gets_extends m) haccepted
    rw [rejects_adds htarget hconstructors hthreads] at hearlier
    cases hearlier

theorem race_found_registerParams : ∃ rounds, ∀ r, rounds ≤ r → ∃ enough, ∀ fuel, enough ≤ fuel → ∃ isOver h s,
    Tla.run { registerParams race [addBuilder, getBuilder] with maxRounds := r } fuel () = .ok (isOver, some h) s :=
  race_found rfl rfl rfl (by decide) (by decide) (by decide) (by decide) fun _ _ => ⟨(), rfl⟩

end Race

end Register

end Ltest
