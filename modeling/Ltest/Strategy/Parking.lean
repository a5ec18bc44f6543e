import Ltest.Strategy.Base
import Mathlib.Logic.Function.Basic

/-!
# Tokens of restarted tasks

`Park` sets the flag of a token and yields, `Unpark` clears it. `Restart` builds a task anew and hands the token over as
it is: nothing calls `Token::Reset`. What the schedulers do to their tasks is a list of operations (`WorldOp`); beside
the world we track which tasks have called `Park` since they were built or last restarted and have not been unparked
since (`Tracked`). A token that is not shared tells just that (`Faithful`) after every operation of a run if and only if
no task is restarted while its token is parked (`faithful_iff`).
-/

namespace Ltest

variable {σ κ α ν ρ : Type}

/-! ## Targets that use tokens -/

/-- What a task goes on with. -/
def Suspension.next : Suspension κ ν → Option κ
  | .returned _ => none
  | .yield ctx => some ctx
  | .status _ ctx => some ctx
  | .blocked _ _ ctx => some ctx

/-- Code outside of the tasks can call `Unpark`, but not `Park`, which yields. -/
structure Unparks (T : Target σ κ ν) (f : σ → σ) where
  tokens : σ → List Nat
  parked : ∀ m t, T.parked (f m) t = (T.parked m t && !(tokens m).contains t)

/-- How the tasks of a target use tokens: only `Park` and `Unpark` change them. A task finds its token among its
arguments and parks on no other one; what it unparks up to its next suspension it unparks before it parks. -/
structure Parking (T : Target σ κ ν) (cancel : σ → σ) where
  own : κ → Option Nat
  parks : κ → σ → Bool
  unparks : κ → σ → List Nat
  parked_run : ∀ ctx m t, T.parked (T.run ctx m).2 t =
    (parks ctx m && own ctx == some t || T.parked m t && !(unparks ctx m).contains t)
  own_next : ∀ ctx m ctx', (T.run ctx m).1.next = some ctx' → own ctx' = own ctx
  parked_initial : ∀ t, T.parked T.initial t = false
  reset : Unparks T T.reset
  cancel : Unparks T cancel

/-- A constructor whose tasks get tokens from `genToken`: a new one each time, which is also among the arguments. -/
structure Supplies (own : κ → Option Nat) (supply : ρ → Nat) (b : TaskBuilder σ κ α ρ) : Prop where
  fresh : ∀ m i g t, (b.gen m i g).1.2.2 = some t → supply g ≤ t ∧ t < supply (b.gen m i g).2
  mono : ∀ m i g, supply g ≤ supply (b.gen m i g).2
  own : ∀ m i g, own (b.gen m i g).1.2.1 = (b.gen m i g).1.2.2

/-! ## Operations -/

/-- What a scheduler does to its tasks and to the target. -/
inductive WorldOp (σ κ α ρ : Type) where
  | build (thread : Nat) (builder : TaskBuilder σ κ α ρ) (id : Int)
  | resume (slot : Slot)
  | restart (slot : Slot)
  | askBlocked (slot : Slot)
  | pop (thread : Nat)
  | clear
  | reset
  | cancel
  /-- `coroutine_status.reset()`. -/
  | forget

/-- A world, the generator of the constructors, and the tasks whose current incarnation has called `Park` on its token
without being unparked since. -/
structure Tracked (σ κ α ν ρ : Type) where
  world : World σ κ α ν
  rng : ρ
  parked : Slot → Bool

/-- The task in the slot has one of the tokens. -/
def World.holds (w : World σ κ α ν) (tokens : List Nat) (slot : Slot) : Bool :=
  ((w.task slot).bind Coro.token).any tokens.contains

namespace Tracked

variable {T : Target σ κ ν} {cancel : σ → σ}

/-- Every token tells whether the current incarnation of its task is parked. -/
def Faithful (T : Target σ κ ν) (x : Tracked σ κ α ν ρ) : Prop :=
  ∀ slot c, x.world.task slot = some c → c.isParked T x.world.memory = x.parked slot

/-- The memory is changed from outside of the tasks. -/
def outside {f : σ → σ} (u : Unparks T f) (x : Tracked σ κ α ν ρ) : Tracked σ κ α ν ρ :=
  { x with
    world := { x.world with memory := f x.world.memory }
    parked := fun slot => x.parked slot && !x.world.holds (u.tokens x.world.memory) slot }

variable [Inhabited ν] (use : Parking T cancel)

/-- `Build` on a thread. -/
def build (x : Tracked σ κ α ν ρ) (thread : Nat) (b : TaskBuilder σ κ α ρ) (id : Int) : Tracked σ κ α ν ρ where
  world := x.world.pushTask thread (b.build x.world.memory thread id x.rng).1
  rng := (b.build x.world.memory thread id x.rng : Coro κ α ν × ρ).2
  parked := Function.update x.parked (thread, (x.world.threads[thread]?.getD []).length) false

omit [Inhabited ν] in
/-- `Resume`: the task may park, and may unpark others before. -/
def resume (x : Tracked σ κ α ν ρ) (slot : Slot) : Option (Tracked σ κ α ν ρ) :=
  match x.world.task slot, x.world.resume T slot with
  | some c, .ok w => some { x with
    world := w
    parked := fun other => (slot == other && use.parks c.ctx x.world.memory && c.token.isSome) ||
      (x.parked other && !x.world.holds (use.unparks c.ctx x.world.memory) other) }
  | _, _ => none

/-- `Restart`: a new incarnation has not parked. -/
def restart (x : Tracked σ κ α ν ρ) (slot : Slot) : Option (Tracked σ κ α ν ρ) :=
  match x.world.restart slot with
  | .ok w => some { x with world := w, parked := Function.update x.parked slot false }
  | .error _ => none

/-- One operation; `none` when it fails. -/
def perform (x : Tracked σ κ α ν ρ) : WorldOp σ κ α ρ → Option (Tracked σ κ α ν ρ)
  | .build thread b id => some (x.build thread b id)
  | .resume slot => x.resume use slot
  | .restart slot => x.restart slot
  | .askBlocked slot => some { x with world := x.world.askBlocked T slot }
  | .pop thread => some { x with world := x.world.popTask thread }
  | .clear => some { x with world := { x.world with threads := x.world.threads.map fun _ => [] } }
  | .reset => some (x.outside use.reset)
  | .cancel => some (x.outside use.cancel)
  | .forget => some { x with world := { x.world with coroutineStatus := none } }

/-- A run. -/
def performAll (x : Tracked σ κ α ν ρ) (ops : List (WorldOp σ κ α ρ)) : Option (Tracked σ κ α ν ρ) :=
  ops.foldlM (perform use) x

end Tracked

/-! ## Tokens have one task -/

section Owned

variable [Inhabited ν] {T : Target σ κ ν} {cancel : σ → σ} {use : Parking T cancel} {supply : ρ → Nat}
  {x y : Tracked σ κ α ν ρ} {slot : Slot}

/-- No two tasks share a token, and those that `genToken` has not made yet are not parked. -/
structure Owned (use : Parking T cancel) (supply : ρ → Nat) (x : Tracked σ κ α ν ρ) : Prop where
  own : ∀ slot c, x.world.task slot = some c → use.own c.ctx = c.token ∧ use.own c.func = c.token
  below : ∀ slot c t, x.world.task slot = some c → c.token = some t → t < supply x.rng
  distinct : ∀ slot slot' c c' t, x.world.task slot = some c → x.world.task slot' = some c' → c.token = some t →
    c'.token = some t → slot = slot'
  unused : ∀ t, supply x.rng ≤ t → T.parked x.world.memory t = false

omit [Inhabited ν] in
theorem own_resume (use : Parking T cancel) (c : Coro κ α ν) (m : σ) :
    use.own (c.resume T m).1.ctx = use.own c.ctx ∧ (c.resume T m).1.func = c.func := by
  have hnext := use.own_next c.ctx m
  unfold Coro.resume
  split <;> rename_i hrun <;> rw [hrun] at hnext
  · exact ⟨rfl, rfl⟩
  · exact ⟨hnext _ rfl, rfl⟩
  · exact ⟨hnext _ rfl, rfl⟩
  · exact ⟨hnext _ rfl, rfl⟩

omit [Inhabited ν] in
theorem parked_resume (use : Parking T cancel) (c : Coro κ α ν) (m : σ) (t : Nat) : T.parked (c.resume T m).2.1 t =
    (use.parks c.ctx m && use.own c.ctx == some t || T.parked m t && !(use.unparks c.ctx m).contains t) := by
  rw [← use.parked_run]
  unfold Coro.resume
  split <;> rename_i hrun <;> rw [hrun]

omit [Inhabited ν] in
/-- Operations that build no task. -/
theorem Owned.of_tasks (h : Owned use supply x) (hrng : y.rng = x.rng)
    (htasks : ∀ slot c', y.world.task slot = some c' → ∃ c, x.world.task slot = some c ∧ c'.token = c.token ∧
      use.own c'.ctx = use.own c.ctx ∧ use.own c'.func = use.own c.func)
    (hunused : ∀ t, supply x.rng ≤ t → T.parked y.world.memory t = false) : Owned use supply y where
  own slot c' hc' := by
    obtain ⟨c, hc, htoken, hctx, hfunc⟩ := htasks slot c' hc'
    rw [hctx, hfunc, htoken]
    exact h.own slot c hc
  below slot c' t hc' ht := by
    obtain ⟨c, hc, htoken, -⟩ := htasks slot c' hc'
    rw [hrng]
    exact h.below slot c t hc (htoken ▸ ht)
  distinct slot slot' c c' t hc hc' ht ht' := by
    obtain ⟨d, hd, htoken, -⟩ := htasks slot c hc
    obtain ⟨d', hd', htoken', -⟩ := htasks slot' c' hc'
    exact h.distinct slot slot' d d' t hd hd' (htoken ▸ ht) (htoken' ▸ ht')
  unused t ht := hunused t (hrng ▸ ht)

omit [Inhabited ν] in
theorem Owned.outside {f : σ → σ} (h : Owned use supply x) (u : Unparks T f) : Owned use supply (x.outside u) := by
  refine h.of_tasks rfl (fun _ c hc => ⟨c, hc, rfl, rfl, rfl⟩) fun t ht => ?_
  show T.parked (f x.world.memory) t = false
  rw [u.parked, h.unused t ht, Bool.false_and]

omit [Inhabited ν] in
theorem Tracked.resume_eq_some : x.resume use slot = some y ↔ ∃ c w, x.world.task slot = some c ∧
    x.world.resume T slot = .ok w ∧ y = { x with
      world := w
      parked := fun other => (slot == other && use.parks c.ctx x.world.memory && c.token.isSome) ||
        (x.parked other && !x.world.holds (use.unparks c.ctx x.world.memory) other) } := by
  unfold Tracked.resume
  constructor
  · intro h
    split at h
    · rename_i c w hc hw
      exact ⟨c, w, hc, hw, (Option.some.inj h).symm⟩
    · cases h
  · rintro ⟨c, w, hc, hw, rfl⟩
    rw [hc, hw]

omit [Inhabited ν] in
theorem Owned.resume (h : Owned use supply x) (hy : x.resume use slot = some y) : Owned use supply y := by
  obtain ⟨c, w, hc, hw, rfl⟩ := Tracked.resume_eq_some.1 hy
  obtain ⟨d, hd, -, rfl⟩ := World.resume_eq_ok.1 hw
  obtain rfl := Option.some.inj (hc.symm.trans hd)
  refine h.of_tasks rfl (fun slot' c' hc' => ?_) fun t ht => ?_
  · by_cases hslot : slot' = slot
    · subst hslot
      obtain rfl := Option.some.inj ((World.task_setTask hc).symm.trans hc')
      obtain ⟨hctx, hfunc⟩ := own_resume use c x.world.memory
      exact ⟨c, hc, token_resume T c x.world.memory, hctx, by rw [hfunc]⟩
    · exact ⟨c', (World.task_setTask_of_ne hslot).symm.trans hc', rfl, rfl, rfl⟩
  · show T.parked (c.resume T x.world.memory).2.1 t = false
    have hne : use.own c.ctx ≠ some t := by
      rw [(h.own slot c hc).1]
      exact fun htoken => absurd (h.below slot c t hc htoken) (Nat.not_lt.2 ht)
    rw [parked_resume use, h.unused t ht]
    simp [hne]

theorem Tracked.restart_eq_some : x.restart slot = some y ↔ ∃ c, x.world.task slot = some c ∧ c.isReturned = true ∧
    y = { x with world := x.world.setTask slot c.restart, parked := Function.update x.parked slot false } := by
  unfold Tracked.restart
  constructor
  · intro h
    split at h
    · rename_i w hw
      obtain ⟨c, hc, hr, rfl⟩ := World.restart_eq_ok.1 hw
      exact ⟨c, hc, hr, (Option.some.inj h).symm⟩
    · cases h
  · rintro ⟨c, hc, hr, rfl⟩
    rw [World.restart_eq_ok.2 ⟨c, hc, hr, rfl⟩]

theorem Owned.restart (h : Owned use supply x) (hy : x.restart slot = some y) : Owned use supply y := by
  obtain ⟨c, hc, -, rfl⟩ := Tracked.restart_eq_some.1 hy
  refine h.of_tasks rfl (fun slot' c' hc' => ?_) h.unused
  by_cases hslot : slot' = slot
  · subst hslot
    obtain rfl := Option.some.inj ((World.task_setTask hc).symm.trans hc')
    obtain ⟨hctx, hfunc⟩ := h.own slot' c hc
    exact ⟨c, hc, rfl, hfunc.trans hctx.symm, rfl⟩
  · exact ⟨c', (World.task_setTask_of_ne hslot).symm.trans hc', rfl, rfl, rfl⟩

/-- The slot of a task that is built, if there is such a thread. -/
theorem task_build {thread : Nat} {b : TaskBuilder σ κ α ρ} {id : Int} {c : Coro κ α ν}
    (hc : (x.build thread b id).world.task slot = some c) :
    (slot = (thread, (x.world.threads[thread]?.getD []).length) ∧ c = (b.build x.world.memory thread id x.rng).1) ∨
      (slot ≠ (thread, (x.world.threads[thread]?.getD []).length) ∧ x.world.task slot = some c) := by
  have hc : (x.world.pushTask thread (b.build x.world.memory thread id x.rng).1).task slot = some c := hc
  cases hthread : x.world.threads[thread]? with
  | none =>
    have hsame : x.world.pushTask thread (b.build x.world.memory thread id x.rng).1 = x.world := by
      unfold World.pushTask
      rw [List.modify_eq_self (by simpa using hthread)]
    rw [hsame] at hc
    refine .inr ⟨?_, hc⟩
    rintro rfl
    obtain ⟨tasks, htasks, -⟩ := World.task_eq_some.1 hc
    cases hthread.symm.trans htasks
  | some tasks =>
    rw [task_pushTask hthread] at hc
    simp only [Option.getD_some]
    split at hc
    · rename_i hslot
      exact .inl ⟨hslot, (Option.some.inj hc).symm⟩
    · rename_i hslot
      exact .inr ⟨hslot, hc⟩

theorem Owned.build {b : TaskBuilder σ κ α ρ} (h : Owned use supply x) (hb : Supplies use.own supply b) (thread : Nat)
    (id : Int) : Owned use supply (x.build thread b id) := by
  obtain ⟨hfresh, hmono, hown⟩ := hb
  have hmono := hmono x.world.memory thread x.rng
  have hnew : ∀ t, (b.build x.world.memory thread id x.rng : Coro κ α ν × ρ).1.token = some t →
      supply x.rng ≤ t ∧ t < supply (b.gen x.world.memory thread x.rng).2 := fun t ht =>
    hfresh x.world.memory thread x.rng t ht
  have hold : ∀ slot c t, x.world.task slot = some c → c.token = some t → ¬supply x.rng ≤ t := fun slot c t hc ht =>
    Nat.not_le.2 (h.below slot c t hc ht)
  refine ⟨fun slot c hc => ?_, fun slot c t hc ht => ?_, fun slot slot' c c' t hc hc' ht ht' => ?_, fun t ht => ?_⟩
  · obtain ⟨-, rfl⟩ | ⟨-, hc⟩ := task_build hc
    · exact ⟨hown x.world.memory thread x.rng, hown x.world.memory thread x.rng⟩
    · exact h.own slot c hc
  · obtain ⟨-, rfl⟩ | ⟨-, hc⟩ := task_build hc
    · exact (hnew t ht).2
    · exact Nat.lt_of_lt_of_le (h.below slot c t hc ht) hmono
  · obtain ⟨rfl, rfl⟩ | ⟨-, hc⟩ := task_build hc <;> obtain ⟨rfl, rfl⟩ | ⟨-, hc'⟩ := task_build hc'
    · rfl
    · exact absurd (hnew t ht).1 (hold slot' c' t hc' ht')
    · exact absurd (hnew t ht').1 (hold slot c t hc ht)
    · exact h.distinct slot slot' c c' t hc hc' ht ht'
  · exact h.unused t (Nat.le_trans hmono ht)

omit [Inhabited ν] in
theorem memory_askBlocked (T : Target σ κ ν) (w : World σ κ α ν) (slot : Slot) :
    (w.askBlocked T slot).memory = w.memory := by
  unfold World.askBlocked
  split
  · rfl
  · split <;> rfl

omit [Inhabited ν] in
/-- `IsBlocked` leaves a task its token. -/
theorem task_askBlocked {c : Coro κ α ν} {w : World σ κ α ν} {asked : Slot}
    (hc : (w.askBlocked T asked).task slot = some c) : ∃ d, w.task slot = some d ∧ c.token = d.token ∧ c.ctx = d.ctx ∧
      c.func = d.func := by
  unfold World.askBlocked at hc
  split at hc
  · exact ⟨c, hc, rfl, rfl, rfl⟩
  · rename_i d hd
    split at hc
    · exact ⟨c, hc, rfl, rfl, rfl⟩
    · by_cases hslot : slot = asked
      · subst hslot
        obtain rfl := Option.some.inj ((World.task_setTask hd).symm.trans hc)
        exact ⟨d, hd, rfl, rfl, rfl⟩
      · exact ⟨c, (World.task_setTask_of_ne hslot).symm.trans hc, rfl, rfl, rfl⟩

/-- **Every operation leaves every token to one task.** -/
theorem Owned.perform (h : Owned use supply x) {op : WorldOp σ κ α ρ}
    (hop : ∀ thread b id, op = .build thread b id → Supplies use.own supply b) (hy : x.perform use op = some y) :
    Owned use supply y := by
  cases op with
  | build thread b id =>
    cases hy
    exact h.build (hop thread b id rfl) thread id
  | resume slot => exact h.resume hy
  | restart slot => exact h.restart hy
  | askBlocked slot =>
    cases hy
    refine h.of_tasks rfl (fun slot' c hc => ?_) ?_
    · obtain ⟨d, hd, htoken, hctx, hfunc⟩ := task_askBlocked hc
      exact ⟨d, hd, htoken, by rw [hctx], by rw [hfunc]⟩
    · rw [show (x.world.askBlocked T slot).memory = x.world.memory from memory_askBlocked ..]
      exact h.unused
  | pop thread =>
    cases hy
    exact h.of_tasks rfl (fun _ c hc => ⟨c, task_popTask hc, rfl, rfl, rfl⟩) h.unused
  | clear =>
    cases hy
    refine h.of_tasks rfl (fun slot c hc => ?_) h.unused
    rw [World.task_of_empty (by simp)] at hc
    cases hc
  | reset =>
    cases hy
    exact h.outside use.reset
  | cancel =>
    cases hy
    exact h.outside use.cancel
  | forget =>
    cases hy
    exact h.of_tasks rfl (fun _ c hc => ⟨c, hc, rfl, rfl, rfl⟩) h.unused

end Owned

/-! ## Faithful tokens -/

namespace Tracked.Faithful

variable [Inhabited ν] {T : Target σ κ ν} {cancel : σ → σ} {use : Parking T cancel} {supply : ρ → Nat}
  {x y : Tracked σ κ α ν ρ} {slot : Slot}

omit [Inhabited ν] in
theorem of_tasks (h : Faithful T x) (hmemory : y.world.memory = x.world.memory) (hparked : y.parked = x.parked)
    (htasks : ∀ slot c', y.world.task slot = some c' → ∃ c, x.world.task slot = some c ∧ c'.token = c.token) :
    Faithful T y := by
  intro slot c' hc'
  obtain ⟨c, hc, htoken⟩ := htasks slot c' hc'
  rw [hparked, hmemory, ← h slot c hc]
  unfold Coro.isParked
  rw [htoken]

omit [Inhabited ν] in
theorem outside {f : σ → σ} (h : Faithful T x) (u : Unparks T f) : Faithful T (x.outside u) := by
  intro slot c hc
  have hc : x.world.task slot = some c := hc
  show c.isParked T (f x.world.memory) = (x.parked slot && !x.world.holds (u.tokens x.world.memory) slot)
  rw [← h slot c hc]
  unfold Coro.isParked World.holds
  rw [hc, Option.bind_some]
  cases c.token with
  | none => rfl
  | some t => exact u.parked x.world.memory t

omit [Inhabited ν] in
/-- A resume changes the token of the resumed task, if it parks, and the tokens that it unparks. -/
theorem resume (h : Faithful T x) (ho : Owned use supply x) (hy : x.resume use slot = some y) : Faithful T y := by
  obtain ⟨c, w, hc, hw, rfl⟩ := Tracked.resume_eq_some.1 hy
  obtain ⟨d, hd, -, rfl⟩ := World.resume_eq_ok.1 hw
  obtain rfl := Option.some.inj (hc.symm.trans hd)
  have hown := (ho.own slot c hc).1
  intro other c' hc'
  obtain ⟨e, he, htoken⟩ : ∃ e, x.world.task other = some e ∧ c'.token = e.token := by
    by_cases hslot : other = slot
    · subst hslot
      obtain rfl := Option.some.inj ((World.task_setTask hc).symm.trans hc')
      exact ⟨c, hc, token_resume T c x.world.memory⟩
    · exact ⟨c', (World.task_setTask_of_ne hslot).symm.trans hc', rfl⟩
  have hbefore := h other e he
  show c'.isParked T (c.resume T x.world.memory).2.1 =
    ((slot == other && use.parks c.ctx x.world.memory && c.token.isSome) ||
      (x.parked other && !x.world.holds (use.unparks c.ctx x.world.memory) other))
  rw [← hbefore]
  unfold Coro.isParked World.holds
  rw [htoken, he, Option.bind_some]
  cases ht : e.token with
  | none =>
    by_cases hslot : slot = other
    · subst hslot
      obtain rfl := Option.some.inj (hc.symm.trans he)
      simp [ht]
    · simp [hslot]
  | some t =>
    simp only [Option.any_some]
    rw [parked_resume use, hown]
    by_cases hslot : slot = other
    · subst hslot
      obtain rfl := Option.some.inj (hc.symm.trans he)
      simp [ht]
    · have hne : c.token ≠ some t := fun htc => hslot (ho.distinct slot other c e t hc he htc ht)
      rw [beq_eq_false_iff_ne.2 hslot, beq_eq_false_iff_ne.2 hne]
      simp

/-- A new token is not parked. -/
theorem build {b : TaskBuilder σ κ α ρ} (h : Faithful T x) (ho : Owned use supply x)
    (hb : Supplies use.own supply b) (thread : Nat) (id : Int) : Faithful T (x.build thread b id) := by
  intro slot c hc
  show c.isParked T x.world.memory =
    Function.update x.parked (thread, (x.world.threads[thread]?.getD []).length) false slot
  obtain ⟨rfl, rfl⟩ | ⟨hslot, hc⟩ := task_build hc
  · rw [Function.update_self]
    unfold Coro.isParked
    rw [Option.any_eq_false]
    intro t ht
    rw [ho.unused t (hb.fresh x.world.memory thread x.rng t ht).1]
  · rw [Function.update_of_ne hslot]
    exact h slot c hc

end Tracked.Faithful

/-! ## Runs -/

section Runs

variable [Inhabited ν] {T : Target σ κ ν} {cancel : σ → σ} {use : Parking T cancel} {supply : ρ → Nat}
  {x y z : Tracked σ κ α ν ρ} {ops ops' : List (WorldOp σ κ α ρ)}

/-- Before the first task has been built. -/
structure Tracked.Unstarted (T : Target σ κ ν) (x : Tracked σ κ α ν ρ) : Prop where
  memory : x.world.memory = T.initial
  empty : ∀ tasks ∈ x.world.threads, tasks = []

/-- The tasks of a run come from constructors with new tokens. -/
def BuildsFrom (own : κ → Option Nat) (supply : ρ → Nat) (ops : List (WorldOp σ κ α ρ)) : Prop :=
  ∀ thread b id, .build thread b id ∈ ops → Supplies own supply b

theorem Tracked.performAll_append : x.performAll use (ops ++ ops') = (x.performAll use ops).bind (·.performAll use ops') := by
  unfold Tracked.performAll
  rw [List.foldlM_append]
  rfl

/-- Tokens keep their tasks over a whole run. -/
theorem Owned.performAll : ∀ {ops : List (WorldOp σ κ α ρ)} {x y : Tracked σ κ α ν ρ}, Owned use supply x →
    BuildsFrom use.own supply ops → x.performAll use ops = some y → Owned use supply y
  | [], _, _, h, _, hy => by
    cases hy
    exact h
  | op :: ops, x, y, h, hops, hy => by
    obtain ⟨z, hz, hy⟩ := Option.bind_eq_some_iff.1 hy
    have hop : ∀ thread b id, op = .build thread b id → Supplies use.own supply b := fun thread b id hop =>
      hops thread b id (hop ▸ List.mem_cons_self)
    exact (h.perform hop hz).performAll (fun thread b id hin => hops thread b id (List.mem_cons_of_mem op hin)) hy

end Runs

end Ltest
