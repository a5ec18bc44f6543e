import Ltest.Verifying.Tested

/-!
# A mutex over a futex (`simple_mutex.cpp`, `nonlinear_mutex.cpp`, `specs/mutex.h`)

The word of the mutex is `0` when it is free, `1` when it is locked and `2` when it is locked and somebody may wait for it.
The two targets differ in the loop of `Lock`, which goes on while `again` holds of the value that the exchange has found.
-/

namespace Ltest

open Program

/-! ## The specification -/

namespace LinearMutex

/-- `LinearMutex::Lock` on `isLocked`. -/
def lock (isLocked : Int) : Int × Int := if isLocked ≠ 0 then (1, isLocked) else (0, 1)

/-- `LinearMutex::Unlock`. -/
def unlock (_ : Int) : Int × Int := (0, 0)

/-- `LinearMutex`. -/
def spec : Specification Int Unit Int where
  methods name :=
    if name = "Lock" then some fun isLocked _ => lock isLocked
    else if name = "Unlock" then some fun isLocked _ => unlock isLocked
    else none
  firstState := 0

end LinearMutex

/-! ## The target -/

namespace Mutex

/-- Where `Lock` and `Unlock` go on. -/
inductive Point where
  /-- `CompareExchange(0, 1) == 0` -/
  | lock
  /-- `CompareExchange(0, 2)`, the condition of the loop -/
  | contend
  /-- `CompareExchange(1, 2) > 0` -/
  | mark
  /-- `locked_.load() == 2` -/
  | look
  /-- `FutexWait(Addr(locked_), 2)` -/
  | wait
  /-- `return 0` of `Lock` -/
  | locked
  /-- `locked_.fetch_sub(1) != 1` -/
  | unlock
  /-- `locked_.store(0)` -/
  | release
  /-- `FutexWake(Addr(locked_), 1)` -/
  | wake
  /-- `return 0` of `Unlock` -/
  | unlocked
  deriving Repr, DecidableEq

/-- `CompareExchange`: the value that it returns, and the new one. -/
def compareExchange (old ne locked : Int32) : Int32 × Int32 := (locked, if locked = old then ne else locked)

/-- `Lock` and `Unlock`, with a yield after each access. -/
def body (again : Int32 → Bool) : Point → Int32 → Suspension Point Int × Int32
  | .lock, locked =>
    let (old, locked) := compareExchange 0 1 locked
    (.yield (if old = 0 then .locked else .contend), locked)
  | .contend, locked =>
    let (old, locked) := compareExchange 0 2 locked
    (.yield (if again old then .mark else .locked), locked)
  | .mark, locked =>
    let (old, locked) := compareExchange 1 2 locked
    (.yield (if old > 0 then .look else .contend), locked)
  | .look, locked => (.yield (if locked = 2 then .wait else .contend), locked)
  | .wait, locked => (.blocked 0 2 .look, locked)
  | .locked, locked => (.returned 0, locked)
  | .unlock, locked => (.yield (if locked ≠ 1 then .release else .unlocked), locked - 1)
  | .release, _ => (.yield .wake, 0)
  | .wake, locked => (.yield .unlocked, locked)
  | .unlocked, locked => (.returned 0, locked)

/-- `Mutex`. -/
def target (again : Int32 → Bool) : Target Int32 Point Int where
  initial := 0
  reset _ := 0
  run := body again
  parked _ _ := false
  word locked _ := locked.toInt

/-- The loop of `simple_mutex.cpp` goes on while the exchange has failed. -/
def simple : Target Int32 Point Int := target fun old => old ≠ 0

/-- The loop of `nonlinear_mutex.cpp` also ends when somebody may wait. -/
def nonlinear : Target Int32 Point Int := target fun old => old = 1

variable {ρ : Type}

def lockBuilder : TaskBuilder Int32 Point Unit ρ := ⟨"Lock", fun _ _ g => (((), .lock, none), g)⟩

def unlockBuilder : TaskBuilder Int32 Point Unit ρ := ⟨"Unlock", fun _ _ g => (((), .unlock, none), g)⟩

/-! ## What a step does -/

namespace Point

/-- The method that goes on here. -/
def method : Point → String
  | lock | contend | mark | look | wait | locked => "Lock"
  | unlock | release | wake | unlocked => "Unlock"

/-- The task has the mutex here. -/
def has : Point → Bool
  | locked | unlock | release => true
  | _ => false

/-- The result of a task that has taken effect. -/
def effect : Point → Option Int
  | locked | wake | unlocked => some 0
  | _ => none

end Point

/-- What a step of a task does to the mutex: it takes it, gives it up, or leaves it. -/
inductive Move : Point → Int32 → Suspension Point Int → Int32 → Prop
  | take {ctx : Point} {locked' : Int32} : ctx = .lock ∨ ctx = .contend → locked' = 1 ∨ locked' = 2 →
      Move ctx 0 (.yield .locked) locked'
  | give {ctx ctx' : Point} {locked : Int32} : ctx = .unlock ∨ ctx = .release → ctx' = .unlocked ∨ ctx' = .wake →
      locked ≠ 0 → Move ctx locked (.yield ctx') 0
  | finish {ctx : Point} {locked : Int32} : ctx = .locked ∨ ctx = .unlocked → Move ctx locked (.returned 0) locked
  | wait {locked : Int32} : Move .wait locked (.blocked 0 2 .look) locked
  | go {ctx ctx' : Point} {locked locked' : Int32} : ctx'.method = ctx.method → ctx'.has = ctx.has →
      ctx'.effect = ctx.effect → (locked' = 0 ↔ locked = 0) → locked' = 0 ∨ locked' = 1 ∨ locked' = 2 →
      Move ctx locked (.yield ctx') locked'

theorem body_moves {again : Int32 → Bool} (h₀ : again 0 = false) (h₁ : again 1 = true) (h₂ : again 2 = true) {ctx : Point}
    {locked : Int32} (hlocked : locked = 0 ∨ locked = 1 ∨ locked = 2) (hhas : ctx.has = true → locked ≠ 0) :
    Move ctx locked (body again ctx locked).1 (body again ctx locked).2 := by
  have hmarked : (2 : Int32) = 0 ↔ (1 : Int32) = 0 := by decide
  cases ctx with
  | lock =>
    obtain rfl | rfl | rfl := hlocked
    · exact .take (.inl rfl) (.inl rfl)
    · exact .go rfl rfl rfl Iff.rfl (.inr (.inl rfl))
    · exact .go rfl rfl rfl Iff.rfl (.inr (.inr rfl))
  | contend =>
    show Move .contend locked (.yield (if again locked then .mark else .locked)) (if locked = 0 then 2 else locked)
    obtain rfl | rfl | rfl := hlocked
    · rw [h₀]
      exact .take (.inr rfl) (.inr rfl)
    · rw [h₁]
      exact .go rfl rfl rfl Iff.rfl (.inr (.inl rfl))
    · rw [h₂]
      exact .go rfl rfl rfl Iff.rfl (.inr (.inr rfl))
  | mark =>
    obtain rfl | rfl | rfl := hlocked
    · exact .go rfl rfl rfl Iff.rfl (.inl rfl)
    · exact .go rfl rfl rfl hmarked (.inr (.inr rfl))
    · exact .go rfl rfl rfl Iff.rfl (.inr (.inr rfl))
  | look =>
    obtain rfl | rfl | rfl := hlocked
    · exact .go rfl rfl rfl Iff.rfl (.inl rfl)
    · exact .go rfl rfl rfl Iff.rfl (.inr (.inl rfl))
    · exact .go rfl rfl rfl Iff.rfl (.inr (.inr rfl))
  | wait => exact .wait
  | locked => exact .finish (.inl rfl)
  | unlock =>
    obtain rfl | rfl | rfl := hlocked
    · exact absurd rfl (hhas rfl)
    · exact .give (.inl rfl) (.inl rfl) (by decide)
    · exact .go rfl rfl rfl hmarked.symm (.inr (.inl rfl))
  | release => exact .give (.inr rfl) (.inr rfl) (hhas rfl)
  | wake => exact .go rfl rfl rfl Iff.rfl hlocked
  | unlocked => exact .finish (.inr rfl)

/-! ## The invariant -/

/-- The task has the mutex: it has locked it, or has not unlocked it yet. -/
def holds (c : Coro Point Unit Int) : Bool := if c.isReturned then c.name == "Lock" else c.ctx.has

/-- What holds of a task. -/
structure Fits (c : Coro Point Unit Int) : Prop where
  name : c.name = "Lock" ∨ c.name = "Unlock"
  method : c.isReturned = false → c.ctx.method = c.name
  waits : ∀ f ∈ c.fstate, f = (0, 2) ∧ holds c = false

/-- One thread has the mutex, unless it is free. -/
structure Inv (w : World Int32 Point Unit Int) : Prop where
  word : w.memory = 0 ∨ w.memory = 1 ∨ w.memory = 2
  fits : w.Every Fits
  holders : w.total (fun c => (holds c).toNat) = if w.memory = 0 then 0 else 1

/-- `Lock` and `Unlock` are the methods under test. -/
def Methods (b : TaskBuilder Int32 Point Unit ρ) : Prop := b = lockBuilder ∨ b = unlockBuilder

section Step

variable {again : Int32 → Bool} {c c' : Coro Point Unit Int} {locked locked' : Int32} {status : Option CoroutineStatus}

/-- What a resume changes. -/
inductive Change (c c' : Coro Point Unit Int) (locked locked' : Int32) : Prop
  | take : c.name = "Lock" → locked = 0 → locked' ≠ 0 → holds c = false → holds c' = true →
      c.taken Point.effect = none → c'.taken Point.effect = some 0 → Change c c' locked locked'
  | give : c.name = "Unlock" → locked ≠ 0 → locked' = 0 → holds c = true → holds c' = false →
      c.taken Point.effect = none → c'.taken Point.effect = some 0 → Change c c' locked locked'
  | go : (locked' = 0 ↔ locked = 0) → holds c' = holds c → c'.taken Point.effect = c.taken Point.effect →
      Change c c' locked locked'

variable (h₀ : again 0 = false) (h₁ : again 1 = true) (h₂ : again 2 = true)
include h₀ h₁ h₂

theorem resume_changes (hfits : Fits c) (hr : c.isReturned = false) (hready : c.Ready (target again) locked)
    (hlocked : locked = 0 ∨ locked = 1 ∨ locked = 2) (hholds : holds c = true → locked ≠ 0)
    (hrun : c.resume (target again) locked = (c', locked', status)) :
    Fits c' ∧ (locked' = 0 ∨ locked' = 1 ∨ locked' = 2) ∧ Change c c' locked locked' := by
  have hhas : holds c = c.ctx.has := if_neg (by simp [hr])
  have htaken : c.taken Point.effect = c.ctx.effect := taken_of_unfinished hr
  have hmethod := hfits.method hr
  have hyield : ∀ ctx : Point, ctx.method = c.name → Fits { c with ctx := ctx } ∧
      holds { c with ctx := ctx } = ctx.has ∧
      ({ c with ctx := ctx } : Coro Point Unit Int).taken Point.effect = ctx.effect :=
    fun ctx hctx => ⟨⟨hfits.name, fun _ => hctx, by simp [hready.rested]⟩, if_neg (by simp [hr]), taken_of_unfinished hr⟩
  have hmove := body_moves h₀ h₁ h₂ hlocked (hhas ▸ hholds)
  unfold Coro.resume at hrun
  rw [show (target again).run c.ctx locked = body again c.ctx locked from rfl] at hrun
  generalize body again c.ctx locked = r at hmove hrun
  generalize c.ctx = ctx at hmove hhas htaken hmethod
  obtain ⟨susp, m⟩ := r
  dsimp only at hmove
  cases hmove with
  | take hctx hm =>
    have hlock : c.name = "Lock" ∧ ctx.has = false ∧ ctx.effect = none := by
      rw [← hmethod]
      obtain rfl | rfl := hctx <;> exact ⟨rfl, rfl, rfl⟩
    obtain ⟨hfits', hholds', htaken'⟩ := hyield .locked hlock.1.symm
    cases hrun
    have hne : locked' ≠ 0 := by obtain rfl | rfl := hm <;> decide
    exact ⟨hfits', .inr hm, .take hlock.1 rfl hne (hhas.trans hlock.2.1) hholds' (htaken.trans hlock.2.2) htaken'⟩
  | @give _ ctx' _ hctx hctx' hm =>
    have hunlock : c.name = "Unlock" ∧ ctx.has = true ∧ ctx.effect = none := by
      rw [← hmethod]
      obtain rfl | rfl := hctx <;> exact ⟨rfl, rfl, rfl⟩
    have hnext : ctx'.method = "Unlock" ∧ ctx'.has = false ∧ ctx'.effect = some 0 := by
      obtain rfl | rfl := hctx' <;> exact ⟨rfl, rfl, rfl⟩
    obtain ⟨hfits', hholds', htaken'⟩ := hyield ctx' (hnext.1.trans hunlock.1.symm)
    cases hrun
    exact ⟨hfits', .inl rfl, .give hunlock.1 hm rfl (hhas.trans hunlock.2.1) (hholds'.trans hnext.2.1)
      (htaken.trans hunlock.2.2) (htaken'.trans hnext.2.2)⟩
  | finish hctx =>
    cases hrun
    have hsame : (c.name == "Lock") = ctx.has ∧ ctx.effect = some 0 := by
      rw [← hmethod]
      obtain rfl | rfl := hctx <;> exact ⟨rfl, rfl⟩
    refine ⟨⟨hfits.name, fun hr => (by cases hr), by simp [hready.rested]⟩, hlocked, .go Iff.rfl ?_ ?_⟩
    · exact hsame.1.trans hhas.symm
    · exact (htaken.trans hsame.2).symm
  | wait =>
    cases hrun
    have hlook : holds { c with ctx := .look, fstate := some (0, 2) } = false := if_neg (by simp [hr])
    refine ⟨⟨hfits.name, fun _ => hmethod, fun f hf => ?_⟩, hlocked, .go Iff.rfl (hlook.trans hhas.symm) ?_⟩
    · obtain rfl := Option.some.inj hf
      exact ⟨rfl, hlook⟩
    · refine Eq.trans ?_ htaken.symm
      exact if_neg (by simp [hr])
  | @go _ ctx' _ _ hmethod' hhas' heffect hfree hm =>
    obtain ⟨hfits', hholds', htaken'⟩ := hyield ctx' (hmethod'.trans hmethod)
    cases hrun
    exact ⟨hfits', hm, .go hfree (hholds'.trans (hhas'.trans hhas.symm)) (htaken'.trans (heffect.trans htaken.symm))⟩

end Step

section Rule

variable {w : World Int32 Point Unit Int} {i : Nat} {tasks : List (Coro Point Unit Int)}

/-- A thread that has locked the mutex last is at status `1` of its verifier. -/
theorem reached_names (hfits : w.Every Fits) (hi : w.threads[i]? = some tasks)
    (hlast : ∀ c ∈ tasks.getLast?, c.isReturned = true) :
    mutexProtocol.reached mutexProtocol.free (w.names i) = lastWeight (fun c => (holds c).toNat) tasks := by
  unfold World.names
  rw [hi, Option.getD_some]
  obtain rfl | ⟨before, c, rfl⟩ := List.eq_nil_or_concat' tasks
  · rfl
  · have hr : c.isReturned = true := hlast c (by simp)
    have hholds : holds c = (c.name == "Lock") := if_pos hr
    rw [List.map_append, List.map_singleton, Protocol.reached_snoc, lastWeight_snoc, hholds]
    obtain hname | hname := (hfits.last hi).name
    · simp [mutexProtocol, hname]
    · simp [mutexProtocol, hname]

theorem Inv.holds_last {c : Coro Point Unit Int} (h : Inv w) (hi : w.lastTask i = some c) (hc : holds c = true) :
    w.memory ≠ 0 := by
  intro hfree
  have hle := weight_le_total (f := fun c => (holds c).toNat) hi
  rw [h.holders, if_pos hfree] at hle
  simp [hc] at hle

variable {again : Int32 → Bool} (h₀ : again 0 = false) (h₁ : again 1 = true) (h₂ : again 2 = true)
include h₀ h₁ h₂

/-- **At every step of a round** at most one thread has the mutex. -/
theorem inv_roundRule : RoundRule (target again) (Allows mutexProtocol Methods)
    fun w (_ : ρ) (_ : List (HistoryEvent Slot Int)) => Inv w where
  start {w g} hempty hmemory := by
    have hfree : w.memory = 0 := memory_of_start (p := (· = 0)) hmemory rfl fun _ => rfl
    exact ⟨.inl hfree, .empty hempty, by rw [total_of_empty hempty, if_pos hfree]⟩
  ask {w g seq} slot h := by
    refine ⟨?_, h.fits.askBlocked (fun c hc => ⟨hc.name, hc.method, by simp⟩) _ slot, ?_⟩
    · rw [memory_askBlocked]
      exact h.word
    · rw [memory_askBlocked, total_askBlocked (fun _ => rfl)]
      exact h.holders
  build {w g seq i tasks b} id h hi hlast hb := by
    obtain ⟨hb, hallowed⟩ := hb
    rw [reached_names h.fits hi hlast] at hallowed
    have hnew : Fits (b.build w.memory i id g : Coro Point Unit Int × ρ).1 ∧
        (holds (b.build w.memory i id g : Coro Point Unit Int × ρ).1).toNat =
          lastWeight (fun c => (holds c).toNat) tasks := by
      obtain rfl | rfl := hb
      · have hfree : lastWeight (fun c => (holds c).toNat) tasks = 0 := by simpa [mutexProtocol, lockBuilder] using hallowed
        exact ⟨⟨.inl rfl, fun _ => rfl, by simp [TaskBuilder.build, Coro.new]⟩, hfree.symm⟩
      · have hlocked : lastWeight (fun c => (holds c).toNat) tasks = 1 := by
          simpa [mutexProtocol, unlockBuilder] using hallowed
        exact ⟨⟨.inr rfl, fun _ => rfl, by simp [TaskBuilder.build, Coro.new]⟩, hlocked.symm⟩
    refine ⟨h.word, h.fits.pushTask hi hnew.1, ?_⟩
    have htotal := total_pushTask (f := fun c => (holds c).toNat)
      (c := (b.build w.memory i id g : Coro Point Unit Int × ρ).1) hi
    rw [hnew.2] at htotal
    exact (Nat.add_right_cancel htotal).trans h.holders
  resume {w g seq i before c c' m status} h hi hr hready hrun := by
    obtain ⟨hfits, hword, hchange⟩ := resume_changes h₀ h₁ h₂ (h.fits.last hi) hr hready h.word
      (h.holds_last (lastTask_snoc hi)) hrun
    refine ⟨hword, h.fits.set hi rfl hfits, ?_⟩
    have htotal := total_set (f := fun c => (holds c).toNat) (u := ⟨m, w.threads.set i (before ++ [c']),
      status.or w.coroutineStatus⟩) hi rfl
    rw [lastWeight_snoc, lastWeight_snoc, h.holders] at htotal
    dsimp only
    cases hchange with
    | take _ hfree hm hc hc' =>
      rw [hc, hc', if_pos hfree] at htotal
      rw [if_neg hm]
      exact htotal
    | give _ hlocked hm hc hc' =>
      rw [hc, hc', if_neg hlocked] at htotal
      rw [if_pos hm]
      exact Nat.add_right_cancel htotal
    | go hm hc =>
      rw [hc] at htotal
      rw [Nat.add_right_cancel htotal]
      exact if_congr hm.symm rfl rfl

end Rule

/-! ## Linearization points -/

/-- The state of the specification that a world stands for. -/
def Abs (w : World Int32 Point Unit Int) (isLocked : Int) : Prop := isLocked = if w.memory = 0 then 0 else 1

section Points

variable {again : Int32 → Bool}

theorem forgetsContexts : ForgetsContexts fun w (_ : ρ) (_ : List (HistoryEvent Slot Int)) => Inv w := by
  intro w g seq i before c ctx h hi hr
  have hfits := h.fits.last hi
  have hsame : holds { c with ctx := ctx } = holds c := by
    unfold holds
    rw [if_pos hr, if_pos hr]
  refine ⟨h.word, h.fits.set hi rfl ⟨hfits.name, fun hno => ?_, fun f hf => ?_⟩, ?_⟩
  · cases hr.symm.trans hno
  · rw [hsame]
    exact hfits.waits f hf
  · have htotal := total_set (f := fun c => (holds c).toNat)
      (u := { w with threads := w.threads.set i (before ++ [{ c with ctx := ctx }]) }) hi rfl
    rw [lastWeight_snoc, lastWeight_snoc, hsame] at htotal
    exact (Nat.add_right_cancel htotal).trans h.holders

variable (h₀ : again 0 = false) (h₁ : again 1 = true) (h₂ : again 2 = true)
include h₀ h₁ h₂

/-- **`Lock` takes effect when its exchange succeeds**, and `Unlock` when it sets the word to `0`. -/
theorem points : Points (target again) LinearMutex.spec (Allows mutexProtocol Methods)
    (fun w (_ : ρ) (_ : List (HistoryEvent Slot Int)) => Inv w) Point.effect Abs where
  start {w} _ hmemory := by
    have hfree : w.memory = 0 := memory_of_start (p := (· = 0)) hmemory rfl fun _ => rfl
    exact (if_pos hfree).symm
  ask {w g seq s} slot _ hs := by
    unfold Abs
    rw [memory_askBlocked]
    exact hs
  build {w g seq i tasks b s} id _ _ _ hb hs := by
    obtain ⟨rfl | rfl, -⟩ := hb
    · exact ⟨rfl, rfl, hs⟩
    · exact ⟨rfl, rfl, hs⟩
  resume {w g seq i before c c' m status s} h hi hr hready hrun hs := by
    obtain ⟨-, -, hchange⟩ := resume_changes h₀ h₁ h₂ (h.fits.last hi) hr hready h.word
      (h.holds_last (lastTask_snoc hi)) hrun
    unfold Abs at hs ⊢
    dsimp only
    cases hchange with
    | take hname hfree hm _ _ hnone hsome =>
      rw [if_pos hfree] at hs
      subst hs
      refine .inr ⟨hnone, fun isLocked _ => LinearMutex.lock isLocked, by rw [hname]; rfl, hsome, ?_⟩
      rw [if_neg hm]
      rfl
    | give hname hlocked hm _ _ hnone hsome =>
      refine .inr ⟨hnone, fun isLocked _ => LinearMutex.unlock isLocked, by rw [hname]; rfl, hsome, ?_⟩
      rw [if_pos hm]
      rfl
    | go hm _ hsame =>
      refine .inl ⟨hsame, hs.trans ?_⟩
      exact if_congr hm.symm rfl rfl

end Points

/-! ## Runs -/

/-- A `PickStrategy` that tests a mutex. -/
abbrev MutexStrategy (ρ γ : Type) :=
  Strategy Int32 (Point × Nat) Unit Int (Nat → Nat) ρ (PickState Int32 (Point × Nat) Unit ρ γ)

abbrev MutexStage (ρ γ : Type) :=
  Stage Int32 (Point × Nat) Unit Int (Nat → Nat) ρ (PickState Int32 (Point × Nat) Unit ρ γ)

section Runs

variable {γ : Type} {skips : Point → Bool} {n : Nat} {delay : Point → Nat} {D : Dice γ} {S : MutexStrategy ρ γ}
  {st st' : MutexStage ρ γ}
  {calls : List (NextCall Int32 (Point × Nat) Unit Int (Nat → Nat) ρ (PickState Int32 (Point × Nat) Unit ρ γ))}

theorem simple_roundRule : RoundRule simple (Allows mutexProtocol Methods)
    fun w (_ : ρ) (_ : List (HistoryEvent Slot Int)) => Inv w :=
  inv_roundRule (by decide) (by decide) (by decide)

/-- Thread `i` has locked the mutex and not begun to unlock it. -/
def Locked {κ : Type} (w : World Int32 κ Unit Int) (i : Nat) : Prop :=
  ∃ c, w.lastTask i = some c ∧ c.name = "Lock" ∧ c.isReturned = true

/-- Threads that test a mutex by turns. -/
def mutexStrategy (T : Target Int32 Point Int) (skips : Point → Bool) : MutexStrategy Unit Unit :=
  roundRobinStrategy (T.compiled skips 1 fun ctx => if ctx = .lock then 1 else 0) mutexVerifier leastDice

/-- Before their first round. -/
def mutexThreads (n : Nat) : MutexStage Unit Unit where
  round := ⟨⟨0, List.replicate n [], none⟩, 0, ∅, List.replicate n none, fun _ => 0, ()⟩
  policy := ⟨[⟨"Lock", fun _ _ g => (((), (.lock, 1), none), g)⟩, ⟨"Unlock", fun _ _ g => (((), (.unlock, 0), none), g)⟩],
    (), 0⟩

theorem mutexThreads_opens (n : Nat) : Opens simple Methods ["Lock", "Unlock"] (mutexThreads n) := by
  refine ⟨fun b hb => ?_, .refl _, rfl⟩
  obtain rfl | rfl : b = _ ∨ b = _ := by simpa [mutexThreads] using hb
  · exact .inl rfl
  · exact .inr rfl

theorem mutexThreads_empty (n : Nat) : ∀ tasks ∈ (mutexThreads n).round.world.threads, tasks = [] := fun _ htasks =>
  (List.mem_replicate.1 htasks).2

/-- A thread that has locked the mutex weighs something. -/
theorem Locked.holds {w : World Int32 (Point × Nat) Unit Int} {i : Nat} (h : Locked w i) :
    ∃ c, (w.mapCtx Prod.fst).lastTask i = some c ∧ holds c = true := by
  obtain ⟨c, hc, hname, hr⟩ := h
  refine ⟨c.mapCtx Prod.fst, lastTask_mapCtx_some _ _ hc, ?_⟩
  exact (if_pos hr).trans (beq_iff_eq.2 hname)

/-- **Mutual exclusion**: in every state of every run at most one thread is between `Lock` and `Unlock`. -/
theorem simple_exclusive (hS : IsPickStrategy (simple.compiled skips n delay) mutexVerifier D S)
    (hplaying : Playing S (Opens simple Methods ["Lock", "Unlock"]) calls st) {i j : Nat} (hi : Locked st.round.world i)
    (hj : Locked st.round.world j) : i = j := by
  obtain ⟨-, -, hinv⟩ := hplaying.keeps simple_roundRule forgetsContexts
    (fun _ _ _ _ => isParked_eq_false (fun _ _ => rfl) _ _) hS mutexVerifier_follows
  obtain ⟨c, hc, hholds⟩ := hi.holds
  obtain ⟨d, hd, hholds'⟩ := hj.holds
  by_contra hij
  have hle := weight_add_le_total (f := fun c => (Mutex.holds c).toNat) hc hd hij
  rw [hinv.holders] at hle
  simp only [hholds, hholds', Bool.toNat_true] at hle
  split at hle <;> omega

/-- The second thread has the mutex while the first one wants it. -/
theorem simple_exclusive_mutexThreads : ∃ st : MutexStage Unit Unit, Locked st.round.world 1 ∧ st.round.world.memory = 2 ∧
    (st.round.world.lastTask 0).map Coro.isReturned = some false ∧ ∀ i, Locked st.round.world i → i = 1 := by
  obtain ⟨⟨h, st⟩, hrun, hst⟩ := ok_of_toOption
    (x := (mutexStrategy simple fun ctx => ctx = .look).generate 30 3 (mutexThreads 2))
    (f := fun (_, st) => (st.round.world.memory, (st.round.world.lastTask 0).map Coro.isReturned,
      (st.round.world.lastTask 1).map fun c => (c.name, c.isReturned)))
    (b := (2, some false, some ("Lock", true))) (by decide +kernel)
  obtain ⟨hmemory, hst⟩ := Prod.ext_iff.1 hst
  obtain ⟨hwants, hlocked⟩ := Prod.ext_iff.1 hst
  obtain ⟨c, hc, heq⟩ := Option.map_eq_some_iff.1 hlocked
  obtain ⟨hname, hr⟩ := Prod.ext_iff.1 heq
  have hlocked : Locked st.round.world 1 := ⟨c, hc, hname, hr⟩
  obtain ⟨calls, -, hplaying⟩ := Playing.generate (.start (mutexThreads_opens 2) (mutexThreads_empty 2) rfl) hrun
  exact ⟨st, hlocked, hmemory, hwants, fun i hi => simple_exclusive .roundRobin hplaying hi hlocked⟩

/-- **The mutex is never reported**: the checker accepts the histories of all its rounds. -/
theorem simple_never_reported (hS : IsPickStrategy (simple.compiled skips n delay) mutexVerifier D S) (hfresh : Fresh S st)
    (hopens : Opens simple Methods ["Lock", "Unlock"] st) (hchecker : st.round.schedChecker = fun _ => 0) {fuel : Nat}
    {A : Type} {D' : Dice A} {R : RunParams} {g : A} (h : BothHistories Int) :
    run S (recursiveChecker LinearMutex.spec) fuel D' R g st ≠ .ok (some h, st') := by
  have hpoints : Points simple LinearMutex.spec (Allows mutexProtocol Methods)
      (fun w (_ : ρ) (_ : List (HistoryEvent Slot Int)) => Inv w) Point.effect Abs :=
    points (by decide) (by decide) (by decide)
  refine never_reported (hpoints.roundRule simple_roundRule) (forgetsContexts.linearized fun _ _ _ hs => hs)
    (fun _ _ _ _ => isParked_eq_false (fun _ _ => rfl) _ _) hS mutexVerifier_follows (fun _ hw => hw.2.accepts) hfresh
    hopens ?_ h
  rw [hS.verifier_eq]
  exact hchecker

/-- Rounds of a few tasks, which are minimized when they are rejected. -/
def mutexRuns (maxTasks : Nat) : RunParams := ⟨maxTasks, 2, true, 1, 1⟩

theorem simple_never_reported_mutexThreads :
    (∃ st, run (mutexStrategy simple fun ctx => ctx = .look) (recursiveChecker LinearMutex.spec) 40 leastDice
      (mutexRuns 4) () (mutexThreads 2) = .ok (none, st)) ∧
    ¬∃ h st, run (mutexStrategy simple fun ctx => ctx = .look) (recursiveChecker LinearMutex.spec) 40 leastDice
      (mutexRuns 4) () (mutexThreads 2) = .ok (some h, st) := by
  have hnever : ¬∃ h st, run (mutexStrategy simple fun ctx => ctx = .look) (recursiveChecker LinearMutex.spec) 40 leastDice
      (mutexRuns 4) () (mutexThreads 2) = .ok (some h, st) := fun ⟨h, st, hrun⟩ =>
    simple_never_reported .roundRobin ⟨rfl, mutexThreads_empty 2, rfl, rfl⟩ (mutexThreads_opens 2) rfl h hrun
  exact ⟨none_of_toOption (by decide +kernel), hnever⟩

/-- With the other loop three threads are enough for a mutex to be reported. -/
example : (run (mutexStrategy nonlinear fun ctx => ctx = .look) (recursiveChecker LinearMutex.spec) 60 leastDice
    ⟨4, 1, false, 1, 1⟩ () (mutexThreads 3)).toOption.map (fun r => r.1.isSome) = some true := by decide +kernel

/-- Some thread can go on: the one that has the mutex, when others wait for it. -/
theorem Inv.live {w : World Int32 Point Unit Int} (h : Inv w) (hthreads : 0 < w.threads.length) :
    ∃ i < w.threads.length, ∀ c, w.lastTask i = some c →
      c.isParked simple w.memory = false ∧ c.waits simple w.memory = false := by
  by_cases hmarked : w.memory = 2
  · have hone : w.total (fun c => (holds c).toNat) = 1 := by
      rw [h.holders, hmarked]
      rfl
    obtain ⟨i, c, hc, hpos⟩ := exists_of_total_pos (w := w) (f := fun c => (holds c).toNat) (by omega)
    obtain ⟨tasks, hi, -⟩ := Option.bind_eq_some_iff.1 hc
    refine ⟨i, (List.getElem?_eq_some_iff.1 hi).1, fun d hd => ⟨isParked_eq_false (fun _ _ => rfl) _ _, ?_⟩⟩
    obtain rfl := Option.some.inj (hc.symm.trans hd)
    unfold Coro.waits
    cases hf : c.fstate with
    | none => rfl
    | some f =>
      obtain ⟨-, hno⟩ := (h.fits.lastTask hc).waits f hf
      simp [hno] at hpos
  · refine ⟨0, hthreads, fun c hc => ⟨isParked_eq_false (fun _ _ => rfl) _ _, ?_⟩⟩
    unfold Coro.waits
    cases hf : c.fstate with
    | none => rfl
    | some f =>
      obtain ⟨rfl, -⟩ := (h.fits.lastTask hc).waits f hf
      have hword : w.memory = 0 ∨ w.memory = 1 := by
        obtain h | h | h := h.word
        · exact .inl h
        · exact .inr h
        · exact absurd h hmarked
      obtain h | h := hword <;> rw [h] <;> rfl

/-- **The threads never all wait**: the strategy always finds a task to go on with, and a round fails no assertion. -/
theorem simple_goes_on {threads : Nat} (hS : IsPickStrategy (simple.compiled skips n delay) mutexVerifier D S)
    (hpicks : PicksEligible S threads) (hthreads : 0 < threads)
    (hplaying : Playing S (fun st => Opens simple Methods ["Lock", "Unlock"] st ∧ st.round.world.threads.length = threads)
      calls st) :
    (∃ r, S.next st = .ok r) ∧ ∀ fuel maxTasks e, S.generate fuel maxTasks st = .error e → e = .outOfFuel := by
  refine goes_on simple_roundRule forgetsContexts (fun _ _ _ _ => isParked_eq_false (fun _ _ => rfl) _ _) hS
    mutexVerifier_follows (fun v name i hname => ?_) mutexProtocol_progress (fun hw hlen => hw.live hlen) hpicks hthreads
    hplaying
  obtain rfl | rfl : name = "Lock" ∨ name = "Unlock" := by simpa using hname
  · simp [mutexVerifier, MutexVerifier.verify]
  · simp [mutexVerifier, MutexVerifier.verify]

theorem simple_goes_on_mutexThreads : (∃ r, (mutexStrategy simple fun ctx => ctx = .look).next (mutexThreads 2) = .ok r) ∧
    ∀ fuel maxTasks e, (mutexStrategy simple fun ctx => ctx = .look).generate fuel maxTasks (mutexThreads 2) = .error e →
      e = .outOfFuel :=
  simple_goes_on .roundRobin (picksEligible_roundRobin (n := 2)) (by decide)
    (.start ⟨mutexThreads_opens 2, rfl⟩ (mutexThreads_empty 2) rfl)

end Runs

end Mutex

end Ltest
