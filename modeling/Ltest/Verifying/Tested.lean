import Ltest.Minimize.Run
import Ltest.Strategy.Progress
import Ltest.Strategy.Yields
import Ltest.Verifying.Threads

/-!
# Targets under test

A target with methods of its own is tested by a `PickStrategy` with its verifier, wherever the compiler has put the yields.
What its steps keep holds in every state of every run (`Playing.keeps`), no history is reported that the checker accepts
whenever the invariant holds (`never_reported`), and no assertion of the strategy fails if the invariant always leaves a
thread to go on with (`goes_on`).
-/

namespace Ltest

open Program

variable {σ κ α ν ς ρ γ Q β : Type}

/-- A strategy before its first round. -/
structure Opens (T : Target σ κ ν) (methods : TaskBuilder σ κ α ρ → Prop) (names : List String)
    (st : Stage σ (κ × Nat) α ν ς ρ (PickState σ (κ × Nat) α ρ γ)) : Prop where
  methods : ∀ b ∈ st.policy.constructors, methods (b.mapCtx Prod.fst)
  equipped : Equipped names st
  initial : st.round.world.memory = T.initial

/-- What is known of the strategy between two calls of `Next`. -/
def Plays [Inhabited ν] (S : Strategy σ (κ × Nat) α ν ς ρ (PickState σ (κ × Nat) α ρ γ))
    (methods : TaskBuilder σ κ α ρ → Prop) (names : List String)
    (st : Stage σ (κ × Nat) α ν ς ρ (PickState σ (κ × Nat) α ρ γ)) : Prop :=
  (∀ b ∈ st.policy.constructors, methods (b.mapCtx Prod.fst)) ∧ ∃ calls, Playing S (Equipped names) calls st

section Tested

variable [Inhabited ν] {T : Target σ κ ν} {skips : κ → Bool} {n : Nat} {delay : κ → Nat}
  {V : StrategyVerifier ς (κ × Nat) α ν} {D : Dice γ} {P : Protocol Q String} {status : ς → Nat → Q} {names : List String}
  {methods : TaskBuilder σ κ α ρ → Prop} {S : Strategy σ (κ × Nat) α ν ς ρ (PickState σ (κ × Nat) α ρ γ)}
  {st st' : Stage σ (κ × Nat) α ν ς ρ (PickState σ (κ × Nat) α ρ γ)}
  {calls : List (NextCall σ (κ × Nat) α ν ς ρ (PickState σ (κ × Nat) α ρ γ))}
  {I : World σ κ α ν → ρ → List (HistoryEvent Slot ν) → Prop}

theorem starts_of_isPickStrategy (hS : IsPickStrategy (T.compiled skips n delay) V D S) (hV : Follows V P status) :
    Starts S (Plays S methods names) fun w i b => Allows P methods (w.mapCtx Prod.fst) i (b.mapCtx Prod.fst) :=
  (hS.starts hV names fun b => methods (b.mapCtx Prod.fst)).mono fun _ _ _ h => h.mapCtx

theorem plays_of_opens (hopens : Opens T methods names st) (hempty : ∀ tasks ∈ st.round.world.threads, tasks = [])
    (hfresh : st.round.schedChecker = S.verifier.fresh) : Plays S methods names st :=
  ⟨hopens.methods, [], .start hopens.equipped hempty hfresh⟩

omit [Inhabited ν] in
/-- With no tokens nothing is ever parked. -/
theorem isParked_eq_false (hT : ∀ m t, T.parked m t = false) (c : Coro κ α ν) (m : σ) : c.isParked T m = false := by
  unfold Coro.isParked
  cases c.token with
  | none => rfl
  | some t => exact hT m t

variable (hI : RoundRule T (Allows P methods) I) (hforgets : ForgetsContexts I)
  (hskips : ∀ {w g seq} {i : Nat} {before c}, I w g seq → w.threads[i]? = some (before ++ [c]) → c.isReturned = false →
    skips c.ctx = true → c.isParked T w.memory = false)
  (hS : IsPickStrategy (T.compiled skips n delay) V D S)
include hI hforgets hskips hS

theorem roundRule_of_isPickStrategy : RoundRule S.target
    (fun w i b => Allows P methods (w.mapCtx Prod.fst) i (b.mapCtx Prod.fst)) fun w g seq => I (w.mapCtx Prod.fst) g seq :=
  hS.target_eq.symm ▸ hI.compiled hforgets hskips n delay

variable (hV : Follows V P status)
include hV

/-- **What the steps of the target keep** holds in every state of every run. -/
theorem Playing.keeps (hplaying : Playing S (Opens T methods names) calls st) :
    Plays S methods names st ∧ ∃ seq, I (st.round.world.mapCtx Prod.fst) st.round.rng seq := by
  obtain ⟨hplays, h, hh⟩ := (roundRule_of_isPickStrategy hI hforgets hskips hS).playing (starts_of_isPickStrategy hS hV)
    (fun hopens hempty hfresh => ⟨plays_of_opens hopens hempty hfresh, by rw [hS.target_eq]; exact hopens.initial⟩) hplaying
  exact ⟨hplays, h.seq, hh⟩

/-- **No history is reported** that the checker accepts. -/
theorem never_reported {checker : ModelChecker α ν} {fuel : Nat} {γ' : Type} {D' : Dice γ'} {R : RunParams} {g : γ'}
    (haccepts : ∀ {w g seq}, w.threads.length = st.round.world.threads.length → I w g seq →
      checker (w.resolve seq) = true) (hfresh : Fresh S st) (hopens : Opens T methods names st)
    (hchecker : st.round.schedChecker = S.verifier.fresh) (h : BothHistories ν) :
    run S checker fuel D' R g st ≠ .ok (some h, st') := by
  refine run_ne_some (roundRule_of_isPickStrategy hI hforgets hskips hS) (starts_of_isPickStrategy hS hV)
    (fun hlen hw => ?_) hfresh (plays_of_opens hopens hfresh.empty hchecker) h
  rw [← resolve_mapCtx Prod.fst]
  exact haccepts (by simpa [World.mapCtx] using hlen) hw

end Tested

/-- **The strategy goes on**: `Next` finds a task, and a round fails no assertion. -/
theorem goes_on [Inhabited ν] {T : Target σ κ ν} {skips : κ → Bool} {n threads : Nat} {delay : κ → Nat}
    {V : StrategyVerifier ς (κ × Nat) α ν} {D : Dice γ} {P : Protocol Q String} {status : ς → Nat → Q} {names : List String}
    {methods : TaskBuilder σ κ α ρ → Prop} {S : Strategy σ (κ × Nat) α ν ς ρ (PickState σ (κ × Nat) α ρ γ)}
    {st : Stage σ (κ × Nat) α ν ς ρ (PickState σ (κ × Nat) α ρ γ)}
    {calls : List (NextCall σ (κ × Nat) α ν ς ρ (PickState σ (κ × Nat) α ρ γ))} {I : World σ κ α ν → ρ → Prop}
    (hI : RoundRule T (Allows P methods) fun w g _ => I w g) (hforgets : ForgetsContexts fun w g _ => I w g)
    (hskips : ∀ {w g} {i : Nat} {before c}, I w g → w.threads[i]? = some (before ++ [c]) → c.isReturned = false →
      skips c.ctx = true → c.isParked T w.memory = false)
    (hS : IsPickStrategy (T.compiled skips n delay) V D S) (hV : Follows V P status)
    (hnames : ∀ v name i, name ∈ names → V.verify v ⟨name, true, i⟩ ≠ none)
    (hprogress : ∀ word, ∃ name ∈ names, P.allowed (P.reached P.free word) name = true)
    (hlive : ∀ {w : World σ κ α ν} {g}, I w g → 0 < w.threads.length → ∃ i < w.threads.length,
      ∀ c, w.lastTask i = some c → c.isParked T w.memory = false ∧ c.waits T w.memory = false)
    (hpicks : PicksEligible S threads) (hthreads : 0 < threads)
    (hplaying : Playing S (fun st => Opens T methods names st ∧ st.round.world.threads.length = threads) calls st) :
    (∃ r, S.next st = .ok r) ∧ ∀ fuel maxTasks e, S.generate fuel maxTasks st = .error e → e = .outOfFuel := by
  have hrule := roundRule_of_isPickStrategy hI hforgets hskips hS
  have hstarts : Starts S (fun st => Plays S methods names st ∧ st.round.world.threads.length = threads) _ :=
    (starts_of_isPickStrategy hS hV).withLength threads
  have hok : ∀ {st} seq, Plays S methods names st ∧ st.round.world.threads.length = threads →
      (fun w g (_ : List (HistoryEvent Slot ν)) => I (w.mapCtx Prod.fst) g) st.round.world st.round.rng seq →
      ∃ r, S.next st = .ok r := by
    intro st _ hK hw
    obtain ⟨⟨-, calls, hplaying⟩, hlen⟩ := hK
    obtain ⟨i, hi, hlast⟩ := hlive hw (by simpa [World.mapCtx, hlen] using hthreads)
    refine hS.next_ok hV hnames hprogress (hlen ▸ hpicks) (i := i) ⟨by simpa [World.mapCtx] using hi, fun c hc => ?_⟩
      hplaying
    rw [hS.target_eq]
    exact hlast (c.mapCtx Prod.fst) (lastTask_mapCtx_some _ _ hc)
  obtain ⟨hK, h, hw⟩ := hrule.playing hstarts (fun hopens hempty hfresh =>
    ⟨⟨plays_of_opens hopens.1 hempty hfresh, hopens.2⟩, by rw [hS.target_eq]; exact hopens.1.initial⟩) hplaying
  exact ⟨hok h.seq hK hw, fun fuel maxTasks e herror => hrule.generate_error hstarts hok hK hw herror⟩

end Ltest
