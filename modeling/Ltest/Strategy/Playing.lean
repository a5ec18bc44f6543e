import Ltest.Strategy.Session

/-!
# Rounds while they are generated

What `RunRound` and `StartNextRound` do with a strategy, one call of `Next` after the other (`Playing`). What is seen of a
thread are the names of its tasks and which of them have returned (`World.seen`). One call adds a task to one thread or
resumes the last task of one (`next_seen`), and so all tasks of a thread but the last have returned (`Playing.settled`).
-/

namespace Ltest

open Program

variable {σ κ α ν ς ρ π : Type}

/-- The names of the tasks of thread `i`, and whether they have returned. -/
def World.seen (w : World σ κ α ν) (i : Nat) : List (String × Bool) :=
  (w.threads[i]?.getD []).map fun c => (c.name, c.isReturned)

/-- A call of `Next` that returns. -/
structure NextCall (σ κ α ν ς ρ π : Type) where
  before : Stage σ κ α ν ς ρ π
  picked : Picked
  after : Stage σ κ α ν ς ρ π

/-- The states of a strategy that is started in a state of `init`, and the calls of `Next` so far: `RunRound` resumes the
task that `Next` returns and reports it when it has returned, and may be ended by `StartNextRound` at any time. -/
inductive Playing [Inhabited ν] (S : Strategy σ κ α ν ς ρ π) (init : Stage σ κ α ν ς ρ π → Prop) :
    List (NextCall σ κ α ν ς ρ π) → Stage σ κ α ν ς ρ π → Prop
  | start {st : Stage σ κ α ν ς ρ π} : init st → (∀ tasks ∈ st.round.world.threads, tasks = []) →
      st.round.schedChecker = S.verifier.fresh → Playing S init [] st
  | next {calls : List (NextCall σ κ α ν ς ρ π)} {st st₁ : Stage σ κ α ν ς ρ π} {t : Picked} {w : World σ κ α ν}
      {task : Coro κ α ν} : Playing S init calls st → S.next st = .ok (t, st₁) →
      st₁.round.world.resume S.target t.slot = .ok w → w.task t.slot = some task →
      Playing S init (calls ++ [⟨st, t, st₁⟩])
        (if task.isReturned then S.onVerifierTaskFinish t task (st₁.withWorld w) else st₁.withWorld w)
  | startNextRound {calls : List (NextCall σ κ α ν ς ρ π)} {st st' : Stage σ κ α ν ς ρ π} {fuel : Nat} :
      Playing S init calls st → S.startNextRound fuel st = .ok st' → Playing S init calls st'

section Seen

variable {w w' : World σ κ α ν} {i : Nat}

theorem seen_of_map (h : w'.threads.map (·.map fun c => (c.name, c.isReturned)) =
    w.threads.map (·.map fun c => (c.name, c.isReturned))) (i : Nat) : w'.seen i = w.seen i := by
  have hi := congrArg (·[i]?) h
  simp only [List.getElem?_map] at hi
  unfold World.seen
  cases h' : w'.threads[i]? <;> cases h'' : w.threads[i]? <;> simp_all

/-- Asking whether tasks are blocked changes nothing that is seen. -/
theorem seen_asked (T : Target σ κ ν) (i : Nat) : ∀ (asked : List Nat) (w : World σ κ α ν),
    (asked.foldl (fun w i => w.askBlocked T (i, (w.threads[i]?.getD []).length - 1)) w).seen i = w.seen i
  | [], _ => rfl
  | k :: asked, w => by
    rw [List.foldl_cons, seen_asked T i asked]
    unfold World.askBlocked
    split
    · rfl
    · rename_i c hc
      split
      · rfl
      · refine seen_of_map (map_setTask hc ?_) i
        rfl

theorem name_resume (T : Target σ κ ν) (c : Coro κ α ν) (m : σ) : (c.resume T m).1.name = c.name := by
  unfold Coro.resume
  split <;> rfl

/-- The last task of a thread is resumed. -/
theorem seen_resume {T : Target σ κ ν} {before : List (Coro κ α ν)} {c task : Coro κ α ν}
    (hthread : w.threads[i]? = some (before ++ [c])) (hresume : w.resume T (i, before.length) = .ok w')
    (htask : w'.task (i, before.length) = some task) : task.name = c.name ∧
      w'.seen i = (before.map fun c => (c.name, c.isReturned)) ++ [(task.name, task.isReturned)] ∧
      ∀ k, k ≠ i → w'.seen k = w.seen k := by
  obtain ⟨c', hc', hr, rfl⟩ := World.resume_eq_ok.1 hresume
  have hc : w.task (i, before.length) = some c := World.task_eq_some.2 ⟨_, hthread, by simp⟩
  cases hc.symm.trans hc'
  have hself := World.task_setTask (d := (c.resume T w.memory).1) hc
  obtain rfl : task = (c.resume T w.memory).1 := Option.some.inj (htask.symm.trans hself)
  have hlt := (List.getElem?_eq_some_iff.1 hthread).1
  refine ⟨name_resume T c w.memory, ?_, fun k hk => ?_⟩
  · unfold World.seen World.setTask
    rw [modify_threads hthread, List.getElem?_set_self hlt]
    simp [List.set_append_right]
  · unfold World.seen World.setTask
    rw [modify_threads hthread, List.getElem?_set_ne (Ne.symm hk)]

end Seen

section Next

variable [Inhabited ν] {S : Strategy σ κ α ν ς ρ π} {st st₁ : Stage σ κ α ν ς ρ π} {t : Picked} {w : World σ κ α ν}
  {task : Coro κ α ν}

/-- **What is seen of a call of `Next`** and of the resume that follows it. -/
inductive Shown (S : Strategy σ κ α ν ς ρ π) (st : Stage σ κ α ν ς ρ π) (t : Picked) (st₁ : Stage σ κ α ν ς ρ π)
    (w : World σ κ α ν) (task : Coro κ α ν) : Prop
  | last (before : List (String × Bool)) (hnew : t.isNew = false)
      (hbefore : st.round.world.seen t.threadId = before ++ [(task.name, false)])
      (hafter : w.seen t.threadId = before ++ [(task.name, task.isReturned)])
      (hchecker : st₁.round.schedChecker = st.round.schedChecker)
  | new (asked : List Nat) (p p' : π) (r : Round σ κ α ν ς ρ) (b : TaskBuilder σ κ α ρ) (hnew : t.isNew = true)
      (hpick : S.pick st.round st.policy = .ok (t.threadId, asked, p))
      (hround : r = { st.round with world := r.world }) (hseen : ∀ i, r.world.seen i = st.round.world.seen i)
      (hlength : r.world.threads.length = st.round.world.threads.length)
      (hconstruct : S.construct r t.threadId p = .ok (b, st₁.round.schedChecker, p')) (hpolicy : st₁.policy = p')
      (hlast : ∀ x ∈ (st.round.world.seen t.threadId).getLast?, x.2 = true) (hname : task.name = b.name)
      (hbuilt : st₁.round.world.task t.slot = some (b.build r.world.memory t.threadId r.newTaskId r.rng).1)
      (hafter : w.seen t.threadId = st.round.world.seen t.threadId ++ [(task.name, task.isReturned)])

/-- The thread of a call is the one that is picked. -/
theorem next_pick (h : S.next st = .ok (t, st₁)) : ∃ asked p, S.pick st.round st.policy = .ok (t.threadId, asked, p) := by
  unfold Strategy.next at h
  obtain ⟨⟨i, asked, p⟩, hpick, h⟩ := bind_eq_ok.1 h
  refine ⟨asked, p, ?_⟩
  unfold Strategy.nextOn at h
  dsimp only at h
  split at h
  · cases h
  · split at h
    · cases h
      exact hpick
    · obtain ⟨x, _, h⟩ := bind_eq_ok.1 h
      cases h
      exact hpick

theorem next_seen (h : S.next st = .ok (t, st₁)) (hresume : st₁.round.world.resume S.target t.slot = .ok w)
    (htask : w.task t.slot = some task) : t.threadId = t.slot.1 ∧
    (∀ i, i ≠ t.threadId → w.seen i = st.round.world.seen i) ∧ Shown S st t st₁ w task := by
  unfold Strategy.next at h
  obtain ⟨⟨i, asked, p⟩, hpick, h⟩ := bind_eq_ok.1 h
  dsimp only at h
  have hasked := fun i => seen_asked S.target i asked st.round.world
  have hlength : (asked.foldl (fun w i => w.askBlocked S.target (i, (w.threads[i]?.getD []).length - 1))
      st.round.world).threads.length = st.round.world.threads.length := by
    simpa using congrArg List.length (alike_asked S.target asked st.round.world)
  generalize asked.foldl (fun w i => w.askBlocked S.target (i, (w.threads[i]?.getD []).length - 1))
    st.round.world = w₀ at h hasked hlength
  unfold Strategy.nextOn at h
  dsimp only at h
  split at h
  · cases h
  · rename_i tasks htasks
    have hthis : st.round.world.seen i = tasks.map fun c => (c.name, c.isReturned) := by
      rw [← hasked i]
      unfold World.seen
      rw [htasks]
      rfl
    split at h
    · rename_i c hlast
      cases h
      rw [Option.filter_eq_some_iff, List.getLast?_eq_some_iff] at hlast
      obtain ⟨⟨before, rfl⟩, hr⟩ := hlast
      have hret : c.isReturned = false := by simpa using hr
      have hlen : (before ++ [c]).length - 1 = before.length := by simp
      rw [hlen] at hresume htask
      obtain ⟨hname, hafter, hother⟩ := seen_resume htasks hresume htask
      refine ⟨rfl, fun k hk => (hother k hk).trans (hasked k), .last _ rfl ?_ hafter rfl⟩
      rw [hthis, hname, ← hret]
      simp
    · rename_i hnone
      obtain ⟨⟨b, v, p'⟩, hconstruct, h⟩ := bind_eq_ok.1 h
      cases h
      have hlt := (List.getElem?_eq_some_iff.1 htasks).1
      have hthread : (w₀.pushTask i (b.build w₀.memory i st.round.newTaskId st.round.rng).1).threads[i]? =
          some (tasks ++ [(b.build w₀.memory i st.round.newTaskId st.round.rng).1]) := by
        unfold World.pushTask
        rw [modify_threads htasks, List.getElem?_set_self hlt]
      obtain ⟨hname, hafter, hother⟩ := seen_resume hthread hresume htask
      refine ⟨rfl, fun k hk => ?_, .new asked p p' _ b rfl hpick rfl hasked hlength hconstruct rfl ?_ hname ?_ ?_⟩
      · refine (hother k hk).trans ?_
        rw [← hasked k]
        unfold World.seen World.pushTask
        rw [modify_threads htasks, List.getElem?_set_ne (Ne.symm hk)]
      · intro x hx
        rw [hthis, List.getLast?_map, Option.mem_map] at hx
        obtain ⟨c, hc, rfl⟩ := hx
        cases hret : c.isReturned with
        | true => rfl
        | false =>
          have hsome : tasks.getLast?.filter (!·.isReturned) = some c :=
            Option.filter_eq_some_iff.2 ⟨hc, by simp [hret]⟩
          rw [hnone] at hsome
          cases hsome
      · exact World.task_eq_some.2 ⟨_, hthread, by simp⟩
      · rw [hafter, hthis]

/-- No thread is added. -/
theorem next_length (h : S.next st = .ok (t, st₁)) :
    st₁.round.world.threads.length = st.round.world.threads.length := by
  obtain ⟨w₁, ha, _, _, _, _, hchosen⟩ := chosen_of_next h
  have hlen : w₁.threads.length = st.round.world.threads.length := by simpa using congrArg List.length ha
  cases hchosen with
  | last before task hthread hr hslot hnew hworld hid => rw [hworld, hlen]
  | new tasks task hthread hslot hnew hbuilt htaskid hworld hid =>
    rw [hworld, ← hlen]
    unfold World.pushTask
    exact List.length_modify _ _ _

/-- A call that has been made. -/
theorem Playing.call {init : Stage σ κ α ν ς ρ π → Prop} {calls : List (NextCall σ κ α ν ς ρ π)} {c : NextCall σ κ α ν ς ρ π}
    (h : Playing S init calls st) (hc : c ∈ calls) : S.next c.before = .ok (c.picked, c.after) ∧
      (∃ calls', Playing S init calls' c.before ∧ calls' <+: calls) ∧
      ∃ w task, c.after.round.world.resume S.target c.picked.slot = .ok w ∧ w.task c.picked.slot = some task := by
  induction h with
  | start _ _ _ => cases hc
  | @next calls st st₁ t w task hplaying hnext hresume htask ih =>
    rcases List.mem_append.1 hc with hc | hc
    · obtain ⟨hcall, ⟨calls', hbefore, hprefix⟩, hres⟩ := ih hc
      exact ⟨hcall, ⟨calls', hbefore, hprefix.trans (List.prefix_append _ _)⟩, hres⟩
    · rw [List.mem_singleton.1 hc]
      exact ⟨hnext, ⟨calls, hplaying, List.prefix_append _ _⟩, w, task, hresume, htask⟩
  | startNextRound _ _ ih => exact ih hc

/-- A `RunRound` goes on playing. -/
theorem Playing.generate {init : Stage σ κ α ν ς ρ π → Prop} {calls : List (NextCall σ κ α ν ς ρ π)} {fuel maxTasks : Nat}
    {st' : Stage σ κ α ν ς ρ π} {h' : BothHistories ν} (h : Playing S init calls st)
    (hrun : S.generate fuel maxTasks st = .ok (h', st')) : ∃ calls', calls <+: calls' ∧ Playing S init calls' st' := by
  refine playTasks_rule (I := fun _ st _ => ∃ calls', calls <+: calls' ∧ Playing S init calls' st)
    (fun left st h t st₁ task w hI hnext hresume htask => ?_) fuel maxTasks ⟨calls, List.prefix_rfl, h⟩ hrun
  obtain ⟨calls', hprefix, hplaying⟩ := hI
  have hthen := hplaying.next hnext hresume htask
  split <;> rename_i hret
  · rw [if_pos hret] at hthen
    exact ⟨_, hprefix.trans (List.prefix_append _ _), hthen⟩
  · rw [if_neg hret] at hthen
    exact ⟨_, hprefix.trans (List.prefix_append _ _), hthen⟩

/-- An assertion that `Next` never fails is not failed by `RunRound` either. -/
theorem Playing.generate_ne_error {init : Stage σ κ α ν ς ρ π → Prop} {e : Halt}
    (hnext : ∀ {calls st}, Playing S init calls st → S.next st ≠ .error e)
    (hresume : ∀ (w : World σ κ α ν) slot, w.resume S.target slot ≠ .error e) (hslot : e ≠ .badSlot)
    (hfuel : e ≠ .outOfFuel) : ∀ (fuel maxTasks : Nat) {calls : List (NextCall σ κ α ν ς ρ π)} {st : Stage σ κ α ν ς ρ π}
    {h : BothHistories ν}, Playing S init calls st →
    playTasks S.target S.next S.onVerifierTaskFinish fuel maxTasks st h ≠ .error e
  | _, 0, _, _, _, _ => by simp [playTasks]
  | 0, _ + 1, _, _, _, _ => by simpa [playTasks] using hfuel.symm
  | fuel + 1, left + 1, calls, st, h, hplaying => by
    unfold playTasks resumeLogged
    cases hcall : S.next st with
    | error e' => simpa [bind, Except.bind, hcall] using hnext hplaying
    | ok r =>
      obtain ⟨t, st₁⟩ := r
      cases hw : st₁.round.world.resume S.target t.slot with
      | error e' => simpa [bind, Except.bind, hw] using hresume st₁.round.world t.slot
      | ok w =>
        cases htask : w.task t.slot with
        | none => simpa [bind, Except.bind, hw, htask, throw, throwThe, MonadExceptOf.throw] using hslot.symm
        | some task =>
          have hthen := hplaying.next hcall hw htask
          simp only [bind, Except.bind, hw, htask, pure, Except.pure]
          split <;> rename_i hret
          · rw [if_pos hret] at hthen
            exact generate_ne_error hnext hresume hslot hfuel fuel left hthen
          · rw [if_neg hret] at hthen
            exact generate_ne_error hnext hresume hslot hfuel fuel (left + 1) hthen

/-- Calls of `Next` one after the other, each with the resume and the report that follow. -/
def playCalls (S : Strategy σ κ α ν ς ρ π) : Nat → Stage σ κ α ν ς ρ π →
    Except Halt (List (NextCall σ κ α ν ς ρ π) × Stage σ κ α ν ς ρ π)
  | 0, st => .ok ([], st)
  | left + 1, st => do
    let (t, st₁) ← S.next st
    let w ← st₁.round.world.resume S.target t.slot
    match w.task t.slot with
    | none => throw .badSlot
    | some task => do
      let (calls, st') ← playCalls S left
        (if task.isReturned then S.onVerifierTaskFinish t task (st₁.withWorld w) else st₁.withWorld w)
      return (⟨st, t, st₁⟩ :: calls, st')

theorem Playing.playCalls {init : Stage σ κ α ν ς ρ π → Prop} : ∀ (left : Nat) {st st' : Stage σ κ α ν ς ρ π}
    {calls calls' : List (NextCall σ κ α ν ς ρ π)}, Playing S init calls st →
    Ltest.playCalls S left st = .ok (calls', st') → Playing S init (calls ++ calls') st'
  | 0, st, st', calls, calls', h, hrun => by
    cases hrun
    simpa using h
  | left + 1, st, st', calls, calls', h, hrun => by
    unfold Ltest.playCalls at hrun
    obtain ⟨⟨t, st₁⟩, hnext, hrun⟩ := bind_eq_ok.1 hrun
    obtain ⟨w, hresume, hrun⟩ := bind_eq_ok.1 hrun
    split at hrun
    · cases hrun
    · rename_i task htask
      obtain ⟨⟨calls'', st''⟩, hrest, hrun⟩ := bind_eq_ok.1 hrun
      cases hrun
      have := (h.next hnext hresume htask).playCalls left hrest
      rwa [List.append_assoc] at this

end Next

end Ltest
