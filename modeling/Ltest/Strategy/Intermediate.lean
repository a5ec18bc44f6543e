import Ltest.Runtime.Logbook
import Ltest.Strategy.Session

/-!
# The history of `RunRound` at every step

`RunRound` calls the checker once, when `max_tasks` tasks have returned. The history and the tasks after each pass of its
loop (`Pass`) are booked, and those at the end are later ones (`Ledger.pass`), so a round whose history is accepted at
the end has no pass after which it would have been rejected (`accepts_of_runRound`).
-/

namespace Ltest

open Program

variable {σ κ α ν ς ρ π β : Type} [Inhabited ν] {S : Strategy σ κ α ν ς ρ π} {st st₁ st' : Stage σ κ α ν ς ρ π}
  {w : World σ κ α ν} {h : BothHistories ν} {t : Picked} {task : Coro κ α ν}

/-- A pass of the loop of `RunRound`: the number of tasks that have still to return, the strategy, and the histories. -/
inductive Pass (S : Strategy σ κ α ν ς ρ π) :
    Nat × Stage σ κ α ν ς ρ π × BothHistories ν → Nat × Stage σ κ α ν ς ρ π × BothHistories ν → Prop
  | pass {left : Nat} {st st₁ : Stage σ κ α ν ς ρ π} {h : BothHistories ν} {t : Picked} {w : World σ κ α ν}
      {task : Coro κ α ν} : S.next st = .ok (t, st₁) → st₁.round.world.resume S.target t.slot = .ok w →
      w.task t.slot = some task → Pass S (left + 1, st, h)
        (if task.isReturned then (left, S.onVerifierTaskFinish t task (st₁.withWorld w), (h.push t).respond t task)
        else (left + 1, st₁.withWorld w, (h.push t).respond t task))

section Next

variable {seq : List (HistoryEvent Slot ν)}

omit [Inhabited ν] in
theorem later_askBlocked (T : Target σ κ ν) (w : World σ κ α ν) (slot : Slot) : Later w seq (w.askBlocked T slot) seq := by
  unfold World.askBlocked
  cases hc : w.task slot with
  | none => exact .refl w seq
  | some c =>
    dsimp only
    split
    · exact .refl w seq
    · refine ⟨List.prefix_refl seq, fun slot' d hd => ?_⟩
      by_cases hslot : slot' = slot
      · subst hslot
        obtain rfl := Option.some.inj (hc.symm.trans hd)
        exact ⟨_, World.task_setTask hc, rfl, rfl, fun hr => ⟨hr, rfl⟩⟩
      · exact ⟨d, (World.task_setTask_of_ne hslot).trans hd, rfl, rfl, fun hr => ⟨hr, rfl⟩⟩

omit [Inhabited ν] in
theorem later_asked (T : Target σ κ ν) : ∀ (asked : List Nat) (w : World σ κ α ν),
    Later w seq (asked.foldl (fun w i => w.askBlocked T (i, (w.threads[i]?.getD []).length - 1)) w) seq
  | [], w => .refl w seq
  | _ :: asked, w => (later_askBlocked T w _).trans (later_asked T asked _)

/-- `Next` books the task that it has built, once it is invoked. -/
theorem Ledger.next (hb : Ledger st.round.world h.seq) (hnext : S.next st = .ok (t, st₁)) :
    Ledger st₁.round.world (h.push t).seq ∧ Later st.round.world h.seq st₁.round.world (h.push t).seq := by
  obtain ⟨asked, _, _, _, hchosen⟩ := asked_of_next hnext
  have hasked : Later st.round.world h.seq _ h.seq := later_asked S.target asked st.round.world
  have hb := hb.alike (alike_asked S.target asked st.round.world) hasked
  cases hchosen with
  | last before c hthr hr hslot hnew hworld hid =>
    have hpush : (h.push t).seq = h.seq := by simp [BothHistories.push, hnew]
    rw [hworld, hpush]
    exact ⟨hb, hasked⟩
  | new tasks c hthr hslot hnew hbuilt htaskid hworld hid =>
    have hslot : t.slot = (t.slot.1, tasks.length) := Prod.ext rfl hslot
    have hpush : (h.push t).seq = h.seq ++ [.invoke (t.slot.1, tasks.length) t.threadId] := by
      rw [← hslot]
      simp [BothHistories.push, hnew]
    obtain ⟨hb', hlater⟩ := hb.pushTask hthr c t.threadId
    rw [hworld, hpush]
    exact ⟨hb', hasked.trans hlater⟩

/-- **A pass keeps the ledger**, and what it says is later. -/
theorem Ledger.pass (hb : Ledger st.round.world h.seq) (hnext : S.next st = .ok (t, st₁))
    (hresume : st₁.round.world.resume S.target t.slot = .ok w) (htask : w.task t.slot = some task) :
    Ledger w ((h.push t).respond t task).seq ∧ Later st.round.world h.seq w ((h.push t).respond t task).seq := by
  obtain ⟨hb', hlater⟩ := hb.next hnext
  obtain ⟨hb'', hlater'⟩ := hb'.resume hresume htask t.threadId
  have hseq : ((h.push t).respond t task).seq =
      (h.push t).seq ++ if task.isReturned then [.response t.slot task.ret t.threadId] else [] := by
    unfold BothHistories.respond
    split <;> simp
  rw [hseq]
  exact ⟨hb'', hlater.trans hlater'⟩

end Next

section Passes

open Relation

variable {a b : Nat × Stage σ κ α ν ς ρ π × BothHistories ν} {fuel maxTasks left : Nat}

/-- The loop after a pass goes on to the same end. -/
theorem playTasks_of_pass (hp : Pass S a b) {r : BothHistories ν × Stage σ κ α ν ς ρ π}
    (hrun : playTasks S.target S.next S.onVerifierTaskFinish fuel a.1 a.2.1 a.2.2 = .ok r) :
    ∃ fuel', playTasks S.target S.next S.onVerifierTaskFinish fuel' b.1 b.2.1 b.2.2 = .ok r := by
  obtain @⟨left, st, st₁, h, t, w, task, hnext, hresume, htask⟩ := hp
  cases fuel with
  | zero => cases hrun
  | succ fuel =>
    refine ⟨fuel, ?_⟩
    have hlogged : resumeLogged S.target t st₁.round.world h = .ok (task, w, (h.push t).respond t task) :=
      resumeLogged_eq_ok.2 ⟨hresume, htask, rfl⟩
    unfold playTasks at hrun
    rw [hnext, ok_bind] at hrun
    dsimp only at hrun
    rw [hlogged, ok_bind] at hrun
    split
    · rename_i hret
      rwa [if_pos hret] at hrun
    · rename_i hret
      rwa [if_neg hret] at hrun

theorem playTasks_of_passes (hp : ReflTransGen (Pass S) a b) {r : BothHistories ν × Stage σ κ α ν ς ρ π}
    (hrun : playTasks S.target S.next S.onVerifierTaskFinish fuel a.1 a.2.1 a.2.2 = .ok r) :
    ∃ fuel', playTasks S.target S.next S.onVerifierTaskFinish fuel' b.1 b.2.1 b.2.2 = .ok r := by
  induction hp with
  | refl => exact ⟨fuel, hrun⟩
  | tail _ hpass ih =>
    obtain ⟨fuel', hrun'⟩ := ih
    exact playTasks_of_pass hpass hrun'

/-- Every pass keeps the ledger. -/
theorem ledger_of_passes (hp : ReflTransGen (Pass S) a b) (ha : Ledger a.2.1.round.world a.2.2.seq) :
    Ledger b.2.1.round.world b.2.2.seq := by
  induction hp with
  | refl => exact ha
  | tail _ hpass ih =>
    obtain @⟨left, st, st₁, h, t, w, task, hnext, hresume, htask⟩ := hpass
    have hledger := (ih.pass hnext hresume htask).1
    split <;> exact hledger

/-- **The end of a round is later than every pass of it.** -/
theorem later_of_generate (hempty : ∀ tasks ∈ st.round.world.threads, tasks = [])
    (hgen : S.generate fuel maxTasks st = .ok (h, st')) {h₁ : BothHistories ν}
    (hp : ReflTransGen (Pass S) (maxTasks, st, ⟨[], []⟩) (left, st₁, h₁)) :
    Ledger st₁.round.world h₁.seq ∧ Ledger st'.round.world h.seq ∧
      Later st₁.round.world h₁.seq st'.round.world h.seq := by
  have hledger := ledger_of_passes hp (Ledger.empty hempty)
  obtain ⟨fuel', hrun⟩ := playTasks_of_passes hp hgen
  refine ⟨hledger, playTasks_rule (I := fun _ st' h => Ledger st'.round.world h.seq ∧
    Later st₁.round.world h₁.seq st'.round.world h.seq) (fun left st h t st₂ task w hI hnext hresume htask => ?_) fuel' left
    ⟨hledger, .refl _ _⟩ hrun⟩
  obtain ⟨hledger', hlater⟩ := hI.1.pass hnext hresume htask
  split <;> exact ⟨hledger', hI.2.trans hlater⟩

variable [Inhabited α] [BEq ν] {spec : Specification β α ν}

/-- **`RunRound` accepts only rounds that it would have accepted at every step.** -/
theorem accepts_of_runRound (hempty : ∀ tasks ∈ st.round.world.threads, tasks = [])
    (hrun : S.runRound (recursiveChecker spec) fuel maxTasks st = .ok (none, st'))
    (hnamed : NamedTasks spec st'.round.world) {h₁ : BothHistories ν}
    (hp : ReflTransGen (Pass S) (maxTasks, st, ⟨[], []⟩) (left, st₁, h₁)) :
    recursiveChecker spec (st₁.round.world.resolve h₁.seq) = true := by
  unfold Strategy.runRound at hrun
  obtain ⟨⟨h, st₂⟩, hgen, hrun⟩ := bind_eq_ok.1 hrun
  obtain ⟨hverdict, rfl⟩ := Prod.ext_iff.1 (Except.ok.inj hrun)
  have haccepts : recursiveChecker spec (st₂.round.world.resolve h.seq) = true := by
    simpa [verdict] using hverdict
  obtain ⟨hledger, hledger', hlater⟩ := later_of_generate hempty hgen hp
  exact accepts_of_later hledger hledger'.booked hnamed hlater haccepts

end Passes

end Ltest
