import Ltest.Strategy.Intermediate
import Ltest.Strategy.Replay
import Ltest.Tla.Backtrack
import Ltest.Tla.Exhaustive
import Ltest.Tla.Worlds

/-!
# The histories behind a checked one

`ResumeTask` calls the checker when `max_tasks` tasks have finished, on the history that the steps of the current path
have made. Every call of `RunStep` finds a history that is booked on the tasks and leaves it as it was, whatever `Replay`
does to the tasks meanwhile (`Kept`). So the histories that are checked below a call go on its own history, and unless
the search comes back with one that is rejected the checker accepts every prefix of them (`runStep_cleared`). The same
holds of the histories that a schedule had at its earlier steps, with the tasks as they were then
(`accepts_of_schedule`).

Together: a checker that is asked at the end rejects what it would have rejected at any step before (`rejects_at_end`).
-/

namespace Ltest.Tla

open Program Relation

variable {σ κ α ν ς ρ β : Type}

/-- Since the trace was `before` only histories have been checked that go on `seq`, and the checker accepts all their
prefixes. -/
def Cleared (checker : ModelChecker α ν) (seq : List (HistoryEvent Slot ν)) (before t : List (Event ς κ α ν)) : Prop :=
  ∃ since, t = before ++ since ∧ ∀ history, Event.check history ∈ since →
    seq <+: history.map (·.mapTask Prod.fst) ∧ ∀ H, H <+: history → checker H = true

/-- The history is `q` and there are so many tasks, all of methods of the specification. -/
structure Kept (P : Params σ κ α ν ς ρ) (spec : Specification β α ν) (seq : List (HistoryEvent Slot ν))
    (before : List (Event ς κ α ν)) (sizes : List Nat) (q : List (HistoryEvent Slot ν)) (s : State σ κ α ν ς ρ) :
    Prop where
  history : s.sequentialHistory = q
  sizes : s.world.sizes = sizes
  named : NamedTasks spec s.world
  cleared : Cleared P.checker seq before s.trace

/-! ## One step -/

section Step

variable {P : Params σ κ α ν ς ρ} {spec : Specification β α ν} {seq q : List (HistoryEvent Slot ν)}
  {before t : List (Event ς κ α ν)} {sizes : List Nat} {X : Halt → State σ κ α ν ς ρ → Prop}

theorem Cleared.refl (checker : ModelChecker α ν) (seq : List (HistoryEvent Slot ν)) (t : List (Event ς κ α ν)) :
    Cleared checker seq t t :=
  ⟨[], by simp, by simp⟩

/-- Other events do not matter. -/
theorem Cleared.snoc {checker : ModelChecker α ν} (h : Cleared checker seq before t) {e : Event ς κ α ν}
    (he : ∀ history, e = .check history → seq <+: history.map (·.mapTask Prod.fst) ∧
      ∀ H, H <+: history → checker H = true) : Cleared checker seq before (t ++ [e]) := by
  obtain ⟨since, rfl, hall⟩ := h
  refine ⟨since ++ [e], by simp, fun history hin => ?_⟩
  obtain hin | hin := List.mem_append.1 hin
  · exact hall history hin
  · exact he history (List.mem_singleton.1 hin).symm

/-- Programs that do not touch what the invariant is about. -/
theorem Kept.update {f : State σ κ α ν ς ρ → State σ κ α ν ς ρ}
    (h : ∀ s, (f s).trace = s.trace ∧ (f s).sequentialHistory = s.sequentialHistory ∧
      (f s).world.threads = s.world.threads) :
    Triple (Kept P spec seq before sizes q) (modify f) (fun _ => Kept P spec seq before sizes q) X := by
  refine Triple.update fun s hs => ?_
  obtain ⟨htrace, hhistory, hthreads⟩ := h s
  have htask : ∀ slot, (f s).world.task slot = s.world.task slot := fun slot => by unfold World.task; rw [hthreads]
  refine ⟨hhistory.trans hs.history, ?_, fun slot c hc => hs.named slot c ((htask slot).symm.trans hc), ?_⟩
  · rw [← hs.sizes]
    unfold World.sizes
    rw [hthreads]
  · rw [htrace]
    exact hs.cleared

theorem Kept.emit {e : Event ς κ α ν} (he : ∀ history, e ≠ .check history) :
    Triple (Kept P spec seq before sizes q) (Tla.emit e) (fun _ => Kept P spec seq before sizes q) X :=
  Triple.update fun _ hs => ⟨hs.history, hs.sizes, hs.named, hs.cleared.snoc fun _ h => absurd h (he _)⟩

theorem Kept.notify (note : Note κ α ν) :
    Triple (Kept P spec seq before sizes q) (Tla.notify P note) (fun _ => Kept P spec seq before sizes q) X :=
  Triple.bind (Kept.emit fun _ => by simp) fun _ => Kept.update fun _ => ⟨rfl, rfl, rfl⟩

theorem Kept.verify (m : CreatedTaskMetaData) : Triple (Kept P spec seq before sizes q) (Tla.verify P m)
    (fun _ => Kept P spec seq before sizes q) (fun _ _ => True) := by
  unfold Tla.verify
  refine Triple.look fun s₀ => Triple.bind (Kept.emit fun _ => by simp) fun _ => ?_
  split
  · exact Triple.throw fun _ _ => trivial
  · exact Triple.bind (Kept.update fun _ => ⟨rfl, rfl, rfl⟩) fun _ => Triple.pure fun _ h => h

theorem Kept.pushFull (thread : Nat) (entry : Entry) : Triple (Kept P spec seq before sizes q)
    (Tla.pushFull thread entry) (fun _ => Kept P spec seq before sizes q) X :=
  Kept.update fun _ => ⟨rfl, rfl, rfl⟩

theorem Kept.updateFullHistory (thread : Nat) (slot : Slot) (name : String) (isNew : Bool) :
    Triple (Kept P spec seq before sizes q) (Tla.updateFullHistory P thread slot name isNew)
      (fun _ => Kept P spec seq before sizes q) (fun _ _ => True) := by
  unfold Tla.updateFullHistory
  refine Triple.look fun s₀ => ?_
  refine Triple.bind (Kept.emit fun _ => by simp) fun _ => ?_
  split
  · refine Triple.ite (fun _ => Triple.throw fun _ _ => trivial) fun _ => ?_
    dsimp only
    have hrest : ∀ st : CoroutineStatus, Triple (Kept P spec seq before sizes q) _ (fun _ => Kept P spec seq before sizes q)
        (fun _ _ => True) := fun st =>
      Triple.bind (Kept.notify (.updateState st.name thread st.hasStarted)) fun _ =>
        Triple.bind (Kept.pushFull thread (.status st)) fun _ => Kept.update
          (f := fun s => { s with world := { s.world with coroutineStatus := none } }) fun _ => ⟨rfl, rfl, rfl⟩
    refine Triple.ite (fun _ => ?_) fun _ => hrest _
    exact Triple.bind (Kept.pushFull thread _) fun _ => hrest _
  · exact Triple.bind (Kept.notify _) fun _ => Kept.pushFull thread _

/-- Operations that leave the tasks alike. -/
theorem Kept.onWorld [Inhabited ν] {op : World σ κ α ν → Except Halt (World σ κ α ν)}
    (hop : ∀ w w', op w = .ok w' → Alike w w') : Triple (Kept P spec seq before sizes q) (Tla.onWorld op)
      (fun _ => Kept P spec seq before sizes q) (fun _ _ => True) := by
  intro s hs
  unfold Tla.onWorld
  cases hw : op s.world with
  | error e => trivial
  | ok w => exact ⟨hs.history, (sizes_alike (hop _ _ hw)).trans hs.sizes, hs.named.alike (hop _ _ hw), hs.cleared⟩

theorem Kept.replay [Inhabited ν] (stepEnd : Nat) : Triple (Kept P spec seq before sizes q) (Tla.replay P stepEnd)
    (fun _ => Kept P spec seq before sizes q) (fun _ _ => True) :=
  Triple.look fun _ => Kept.onWorld fun _ _ h => alike_replayWorld h

theorem Kept.readTask (slot : Slot) : Triple (Kept P spec seq before sizes q) (Tla.readTask slot)
    (fun _ s => Kept P spec seq before sizes q s ∧ InSizes sizes slot) (fun _ _ => True) := by
  intro s hs
  simp only [Tla.readTask, run_bind, run_get]
  cases hc : s.world.task slot with
  | none => trivial
  | some task =>
    refine ⟨hs, ?_⟩
    rw [← hs.sizes, inSizes_iff, hc]
    rfl

/-- The event with which a task is answered. -/
def Answers (slot : Slot) (thread : Nat) (isFinished : Bool) (events : List (HistoryEvent Slot ν)) : Prop :=
  if isFinished then ∃ r, events = [.response slot r thread] else events = []

theorem Kept.finishTask (thread : Nat) (slot : Slot) : Triple (Kept P spec seq before sizes q)
    (Tla.finishTask P thread slot)
    (fun isFinished s => ∃ events, Answers slot thread isFinished events ∧ Kept P spec seq before sizes (q ++ events) s)
    (fun _ _ => True) := by
  unfold Tla.finishTask
  refine Triple.bind ((Kept.readTask slot).weaken (fun _ h => h) (fun _ _ h => h.1) (fun _ _ h => h)) fun task => ?_
  refine Triple.ite (fun _ => ?_) fun _ => Triple.pure fun s hs => ⟨[], rfl, by rwa [List.append_nil]⟩
  refine Triple.bind (Kept.update fun _ => ⟨rfl, rfl, rfl⟩) fun _ => Triple.bind (Kept.notify _) fun _ => ?_
  refine Triple.bind (R := fun _ => Kept P spec seq before sizes (q ++ [.response slot task.ret thread])) ?_ fun _ => ?_
  · exact Triple.update fun s hs => ⟨by rw [← hs.history], hs.sizes, hs.named, hs.cleared⟩
  · exact Triple.pure fun s hs => ⟨_, ⟨task.ret, rfl⟩, hs⟩

/-- The slot that `ResumeTask` resumes. -/
def lastSlot (sizes : List Nat) (thread : Nat) : Slot := (thread, sizes[thread]?.getD 0 - 1)

theorem lastSlot_sizes (w : World σ κ α ν) (thread : Nat) :
    lastSlot w.sizes thread = (thread, (w.threads[thread]?.getD []).length - 1) := by
  unfold lastSlot World.sizes
  rw [List.getElem?_map]
  cases w.threads[thread]? <;> rfl

/-- The event with which a task is invoked. -/
def invocation (slot : Slot) (thread : Nat) (isNew : Bool) : List (HistoryEvent Slot ν) :=
  if isNew then [.invoke slot thread] else []

theorem Kept.takeStep [Inhabited ν] (thread : Nat) (isNew : Bool) : Triple (Kept P spec seq before sizes q)
    (Tla.takeStep P thread isNew)
    (fun isFinished s => ∃ events, Answers (lastSlot sizes thread) thread isFinished events ∧
      InSizes sizes (lastSlot sizes thread) ∧
      Kept P spec seq before sizes (q ++ invocation (lastSlot sizes thread) thread isNew ++ events) s)
    (fun _ _ => True) := by
  unfold Tla.takeStep
  refine Triple.read fun s₀ => ?_
  rintro s ⟨rfl, hs⟩
  have hslot := lastSlot_sizes s.world thread
  rw [hs.sizes] at hslot
  rw [← hslot]
  generalize lastSlot sizes thread = slot
  refine (?_ : Triple (Kept P spec seq before sizes q) _ _ _) s hs
  refine Triple.bind (R := fun _ => Kept P spec seq before sizes (q ++ invocation slot thread isNew)) ?_ fun _ => ?_
  · refine Triple.update fun s hs => ⟨?_, hs.sizes, hs.named, hs.cleared⟩
    unfold invocation
    cases isNew <;> simp [hs.history]
  refine Triple.bind (Kept.readTask slot) fun task => ?_
  refine Triple.ite (fun _ => Triple.throw fun _ _ => trivial) fun _ => ?_
  rintro s ⟨hs, hin⟩
  refine (?_ : Triple (Kept P spec seq before sizes (q ++ invocation slot thread isNew)) _ _ _) s hs
  refine Triple.bind (Kept.onWorld fun _ _ h => alike_resume h) fun _ => ?_
  refine Triple.bind (Kept.updateFullHistory thread slot task.name isNew) fun _ => ?_
  refine (Kept.finishTask thread slot).weaken (fun _ h => h) ?_ (fun _ _ h => h)
  rintro isFinished s ⟨events, hevents, hs⟩
  exact ⟨events, hevents, hin, hs⟩

theorem Kept.takeBack {slot : Slot} {thread : Nat} {isNew isFinished : Bool} {events : List (HistoryEvent Slot ν)}
    (hevents : Answers slot thread isFinished events) :
    Triple (Kept P spec seq before sizes (q ++ invocation slot thread isNew ++ events)) (Tla.takeBack isNew isFinished)
      (fun _ => Kept P spec seq before sizes q) (fun _ _ => True) := by
  unfold Tla.takeBack
  refine Triple.bind (Kept.update fun _ => ⟨rfl, rfl, rfl⟩) fun _ => ?_
  refine Triple.bind (R := fun _ => Kept P spec seq before sizes (q ++ invocation slot thread isNew ++ events)) ?_
    fun _ => ?_
  · unfold popFull
    refine Triple.look fun s₀ => ?_
    split
    · exact Triple.throw fun _ _ => trivial
    · exact Kept.update fun _ => ⟨rfl, rfl, rfl⟩
  · intro s hs
    unfold Answers at hevents
    unfold invocation at hs
    obtain ⟨hhistory, hsizes, hnamed, hcleared⟩ := hs
    cases isFinished with
    | false =>
      obtain rfl := hevents
      cases isNew with
      | false => exact ⟨by simpa using hhistory, hsizes, hnamed, hcleared⟩
      | true => exact ⟨by simp [hhistory], hsizes, hnamed, hcleared⟩
    | true =>
      obtain ⟨r, rfl⟩ := hevents
      cases isNew with
      | false => exact ⟨by simp [hhistory], hsizes, hnamed, hcleared⟩
      | true => exact ⟨by simp [hhistory], hsizes, hnamed, hcleared⟩

end Step

/-- A task that has just been built is invoked. -/
theorem booked_last {sizes : List Nat} {q : List (HistoryEvent Slot ν)} {i : Nat} (h : Booked sizes q)
    (hin : InSizes (sizes.modify i (· + 1)) (lastSlot (sizes.modify i (· + 1)) i)) : Booked (sizes.modify i (· + 1))
      (q ++ invocation (lastSlot (sizes.modify i (· + 1)) i) i true) := by
  obtain ⟨m, hm, -⟩ := hin
  unfold lastSlot at hm ⊢
  rw [List.getElem?_modify_eq] at hm ⊢
  obtain ⟨n, hn, rfl⟩ := Option.map_eq_some_iff.1 hm
  obtain ⟨hnew, hsizes⟩ := inSizes_modify hn
  rw [hn]
  exact h.invoke hnew hsizes

/-! ## The search -/

section Search

variable [Inhabited α] [Inhabited ν] [BEq ν] {P : Params σ κ α ν ς ρ} {spec : Specification β α ν}
  {seq q : List (HistoryEvent Slot ν)} {before : List (Event ς κ α ν)} {sizes : List Nat}

/-- Unless a history is returned, all that have been checked are cleared; the search goes on from where it was. -/
def Ended (P : Params σ κ α ν ς ρ) (spec : Specification β α ν) (seq : List (HistoryEvent Slot ν))
    (before : List (Event ς κ α ν)) (sizes : List Nat) (q : List (HistoryEvent Slot ν)) (r : Bool × Result ν)
    (s : State σ κ α ν ς ρ) : Prop :=
  r.2 = none → Cleared P.checker seq before s.trace ∧ (r.1 = false → Kept P spec seq before sizes q s)

variable (hchecker : P.checker = recursiveChecker spec)
include hchecker

theorem Kept.finishRound (hbooked : Booked sizes q) (hseq : seq <+: q) : Triple (Kept P spec seq before sizes q)
    (Tla.finishRound P) (Ended P spec seq before sizes q) (fun _ _ => True) := by
  intro s hs
  simp only [Tla.finishRound, Tla.emit, run_bind, run_get, run_modify, run_ite, run_pure]
  generalize hh : World.resolve s.world s.sequentialHistory = history
  split
  · exact fun hnone => by cases hnone
  · rename_i haccepts
    have haccepts : recursiveChecker spec (s.world.resolve q) = true := by
      rw [← hs.history, hh, ← hchecker]
      simpa using haccepts
    have hmap : history.map (·.mapTask Prod.fst) = q := by rw [← hh, hs.history, map_resolve]
    have hcleared : Cleared P.checker seq before (s.trace ++ [.check history]) := by
      refine hs.cleared.snoc fun H hH => ?_
      cases hH
      refine ⟨by rwa [hmap], fun H hprefix => ?_⟩
      obtain ⟨q', hq', rfl⟩ : ∃ q', q' <+: q ∧ H = s.world.resolve q' := by
        rw [← hh, hs.history] at hprefix
        exact List.prefix_map_iff.1 hprefix
      rw [hchecker]
      exact accepts_of_prefix (hs.sizes ▸ hbooked) hs.named haccepts hq'
    exact fun _ => ⟨hcleared, fun _ => ⟨hs.history, hs.sizes, hs.named, hcleared⟩⟩

omit [Inhabited α] [Inhabited ν] [BEq ν] hchecker in
theorem Ended.pure {r : Bool × Result ν} :
    Triple (Kept P spec seq before sizes q) (Pure.pure r : Prog σ κ α ν ς ρ _) (Ended P spec seq before sizes q)
      (fun _ _ => True) :=
  Triple.pure fun _ hs _ => ⟨hs.cleared, fun _ => hs⟩

/-- What `RunStep` is to do. -/
def RunsCleared (P : Params σ κ α ν ς ρ) (spec : Specification β α ν) (seq : List (HistoryEvent Slot ν))
    (before : List (Event ς κ α ν)) (runStep : Nat → Nat → Prog σ κ α ν ς ρ (Bool × Result ν)) : Prop :=
  ∀ sizes q step switches, Booked sizes q → seq <+: q →
    Triple (Kept P spec seq before sizes q) (runStep step switches) (Ended P spec seq before sizes q) (fun _ _ => True)

theorem Kept.resumeTask {runStep : Nat → Nat → Prog σ κ α ν ς ρ (Bool × Result ν)}
    (hrec : RunsCleared P spec seq before runStep) (step switches thread : Nat) (isNew : Bool)
    (hbooked : InSizes sizes (lastSlot sizes thread) →
      Booked sizes (q ++ invocation (lastSlot sizes thread) thread isNew)) (hseq : seq <+: q) :
    Triple (Kept P spec seq before sizes q) (Tla.resumeTask P runStep step switches thread isNew)
      (Ended P spec seq before sizes q) (fun _ _ => True) := by
  unfold Tla.resumeTask
  refine Triple.look fun s₀ => ?_
  refine Triple.bind (Kept.emit fun _ => by simp) fun _ => ?_
  refine Triple.ite (fun _ => ?_) fun _ => ?_
  · exact Triple.bind (Kept.emit fun _ => by simp) fun _ => Ended.pure
  refine Triple.bind (Kept.takeStep thread isNew) fun isFinished => ?_
  rintro s ⟨events, hevents, hin, hs⟩
  have hbooked' : Booked sizes (q ++ invocation (lastSlot sizes thread) thread isNew ++ events) := by
    unfold Answers at hevents
    split at hevents
    · obtain ⟨r, rfl⟩ := hevents
      exact (hbooked hin).respond hin
    · obtain rfl := hevents
      rw [List.append_nil]
      exact hbooked hin
  have hseq' : seq <+: q ++ invocation (lastSlot sizes thread) thread isNew ++ events :=
    hseq.trans ((List.prefix_append _ _).trans (List.prefix_append _ _))
  generalize hq' : q ++ invocation (lastSlot sizes thread) thread isNew ++ events = q' at hs hbooked' hseq'
  refine (?_ : Triple (Kept P spec seq before sizes q') _ _ _) s hs
  refine Triple.bind (R := Ended P spec seq before sizes q') ?_ fun r => ?_
  · unfold descend
    exact Triple.look fun _ => Triple.ite (fun _ => Kept.finishRound hchecker hbooked' hseq')
      fun _ => hrec _ _ _ _ hbooked' hseq'
  obtain ⟨isOver, res⟩ := r
  refine Triple.ite (fun hr => Triple.pure fun s hs hnone => ?_) fun hr => ?_
  · have hnone : res = none := hnone
    subst hnone
    exact ⟨(hs rfl).1, fun hover => by simp [show isOver = false from hover] at hr⟩
  · have hgo : isOver = false ∧ res = none := by simpa using hr
    obtain ⟨rfl, rfl⟩ := hgo
    refine Triple.weaken (P := Kept P spec seq before sizes q') ?_ (fun _ h => (h rfl).2 rfl) (fun _ _ h => h)
      (fun _ _ h => h)
    rw [← hq']
    refine Triple.bind (Kept.takeBack hevents) fun _ => Triple.look fun _ => ?_
    exact Triple.bind (Kept.emit fun _ => by simp) fun _ => Ended.pure

theorem Kept.constructorLoop {runStep : Nat → Nat → Prog σ κ α ν ς ρ (Bool × Result ν)}
    (hrec : RunsCleared P spec seq before runStep) (step switches i : Nat) (hbooked : Booked sizes q)
    (hseq : seq <+: q) : ∀ constructors : List (TaskBuilder σ κ α ρ),
    (∀ b ∈ constructors, (spec.methods b.name).isSome) →
    Triple (Kept P spec seq before sizes q) (Tla.constructorLoop P runStep step switches i constructors)
      (fun r s => match r with
        | none => Kept P spec seq before sizes q s
        | some r => r.2 = none → Cleared P.checker seq before s.trace ∧ r.1 = true)
      (fun _ _ => True)
  | [], _ => Triple.pure fun _ h => h
  | cons :: constructors, hnamed => by
    obtain ⟨hname, hnamed⟩ := List.forall_mem_cons.1 hnamed
    have ih := Kept.constructorLoop hrec step switches i hbooked hseq constructors hnamed
    refine Triple.bind (Kept.verify _) fun ok => Triple.ite (fun _ => ih) fun _ => ?_
    refine Triple.bind (Kept.update fun s => ⟨rfl, rfl, rfl⟩) fun _ => ?_
    refine Triple.bind (R := fun _ => Kept P spec seq before (sizes.modify i (· + 1)) q) ?_ fun _ => ?_
    · refine Triple.update fun s hs => ⟨hs.history, ?_, hs.named.pushTask hname, hs.cleared⟩
      rw [← hs.sizes]
      exact sizes_pushTask ..
    refine Triple.bind (Kept.resumeTask hchecker hrec step switches i true ?_ hseq) fun r => ?_
    · exact booked_last hbooked
    obtain ⟨isOver, res⟩ := r
    refine Triple.ite (fun hr => Triple.pure fun s hs hnone => ?_) fun hr => ?_
    · have hnone : res = none := hnone
      subst hnone
      exact ⟨(hs rfl).1, by simpa using hr⟩
    have hgo : isOver = false ∧ res = none := by simpa using hr
    obtain ⟨rfl, rfl⟩ := hgo
    refine Triple.bind (R := fun _ => Kept P spec seq before sizes q) ?_ fun _ => ?_
    · refine Triple.update fun s hs => ?_
      obtain ⟨hhistory, hsizes, hnamed, hcleared⟩ := (hs rfl).2 rfl
      refine ⟨hhistory, ?_, hnamed.popTask, hcleared⟩
      rw [sizes_popTask, hsizes, List.modify_modify_eq]
      exact List.modify_id _ _
    · exact Triple.bind (Kept.replay step) fun _ => ih

theorem Kept.threadLoop (hnamed : ∀ b ∈ P.constructors, (spec.methods b.name).isSome)
    {runStep : Nat → Nat → Prog σ κ α ν ς ρ (Bool × Result ν)}
    (hrec : RunsCleared P spec seq before runStep) (step switches : Nat) (hbooked : Booked sizes q)
    (hseq : seq <+: q) : ∀ (threads : List Nat) (allParked : Bool),
    Triple (Kept P spec seq before sizes q) (Tla.threadLoop P runStep step switches threads allParked)
      (fun r s => match r with
        | .inl r => r.2 = none → Cleared P.checker seq before s.trace ∧ r.1 = true
        | .inr _ => Kept P spec seq before sizes q s)
      (fun _ _ => True)
  | [], _ => Triple.pure fun _ h => h
  | i :: threads, allParked => by
    have ih := Kept.threadLoop hnamed hrec step switches hbooked hseq threads
    unfold Tla.threadLoop
    refine Triple.look fun s₀ => ?_
    dsimp only
    split
    · refine Triple.ite (fun _ => ih allParked) fun _ => ?_
      refine Triple.bind (Kept.verify _) fun ok => Triple.ite (fun _ => ih false) fun _ => ?_
      refine Triple.bind (Kept.update fun s => ⟨rfl, rfl, rfl⟩) fun _ => ?_
      refine Triple.bind (Kept.resumeTask hchecker hrec step switches i false ?_ hseq) fun r => ?_
      · intro _
        rwa [show invocation (lastSlot sizes i) i false = [] from rfl, List.append_nil]
      obtain ⟨isOver, res⟩ := r
      refine Triple.ite (fun hr => Triple.pure fun s hs hnone => ?_) fun hr => ?_
      · have hnone : res = none := hnone
        subst hnone
        exact ⟨(hs rfl).1, by simpa using hr⟩
      have hgo : isOver = false ∧ res = none := by simpa using hr
      obtain ⟨rfl, rfl⟩ := hgo
      refine Triple.bind (R := fun _ => Kept P spec seq before sizes q) ?_ fun _ => ih false
      exact (Kept.replay step).weaken (fun s hs => (hs rfl).2 rfl) (fun _ _ h => h) (fun _ _ h => h)
    · refine Triple.ite (fun _ => ?_) fun _ => ih false
      refine Triple.bind (Kept.constructorLoop hchecker hrec step switches i hbooked hseq P.constructors hnamed) fun r => ?_
      cases r with
      | none => exact ih false
      | some r => exact Triple.pure fun _ h => h

/-- **`RunStep` clears what is checked below it.** -/
theorem runStep_cleared (seq : List (HistoryEvent Slot ν)) (before : List (Event ς κ α ν))
    (hnamed : ∀ b ∈ P.constructors, (spec.methods b.name).isSome) : ∀ fuel : Nat,
    RunsCleared P spec seq before (runStep P fuel)
  | 0 => fun _ _ _ _ _ _ => Triple.throw fun _ _ => trivial
  | fuel + 1 => fun sizes q step switches hbooked hseq => by
    refine Triple.bind (Kept.update fun s => ⟨rfl, rfl, rfl⟩) fun _ => ?_
    refine Triple.bind (Kept.threadLoop hchecker hnamed (runStep_cleared seq before hnamed fuel) step switches hbooked
      hseq _ true) fun r => ?_
    cases r with
    | inl r =>
      refine Triple.pure fun s hs hnone => ⟨(hs hnone).1, fun hover => ?_⟩
      rw [(hs hnone).2] at hover
      cases hover
    | inr allParked =>
      refine Triple.ite (fun _ => Triple.throw fun _ _ => trivial) fun _ => ?_
      exact Triple.bind (Kept.update fun s => ⟨rfl, rfl, rfl⟩) fun _ => Ended.pure

end Search

/-! ## Schedules -/

section Schedules

variable [Inhabited ν] {P : Params σ κ α ν ς ρ} {rng : ρ} {c c' : Conf σ κ α ν} {ch : Choice}

/-- A step of a schedule keeps the ledger, and what it says is later. -/
theorem ledger_resumeOn {T : Target σ κ ν} {i : Nat} {slot : Slot} {task : Coro κ α ν} (h : Ledger c.world c.history)
    (hc : c.world.task slot = some task) (hr : task.isReturned = false) :
    Ledger (c.resumeOn T i slot task).world (c.resumeOn T i slot task).history ∧
      Later c.world c.history (c.resumeOn T i slot task).world (c.resumeOn T i slot task).history ∧
      Alike c.world (c.resumeOn T i slot task).world := by
  have hresume := (World.resume_eq_ok (T := T)).2 ⟨task, hc, hr, rfl⟩
  have htask := World.task_setTask (d := (task.resume T c.world.memory).1) hc
  obtain ⟨hb, hlater⟩ := h.resume hresume htask i
  exact ⟨⟨hb.booked, hb.answered⟩, ⟨hlater.grown, hlater.tasks⟩, alike_setTask hc (restart_resume T task c.world.memory)⟩

variable {spec : Specification β α ν}

/-- **A step of a schedule keeps the ledger**, and what it says is later. -/
theorem ledger_play (hnamed : ∀ b ∈ P.constructors, (spec.methods b.name).isSome) (h : Ledger c.world c.history)
    (hn : NamedTasks spec c.world) (hp : c.play P rng ch = some c') :
    Ledger c'.world c'.history ∧ NamedTasks spec c'.world ∧ Later c.world c.history c'.world c'.history := by
  cases ch with
  | resume i =>
    obtain ⟨before, task, htasks, hr, rfl⟩ := play_resume.1 hp
    have htask : c.world.task (i, before.length) = some task := World.task_eq_some.2 ⟨_, htasks, by simp⟩
    obtain ⟨hb, hlater, halike⟩ := ledger_resumeOn (T := P.target) (i := i) h htask hr
    exact ⟨hb, hn.alike halike, hlater⟩
  | start i k =>
    obtain ⟨tasks, b, htasks, hb, hfree, rfl⟩ := play_start.1 hp
    have hname := hnamed b (List.mem_of_getElem? hb)
    generalize htask : (b.build c.world.memory i (-1) rng : Coro κ α ν × ρ).1 = task
    have htaskname : task.name = b.name := htask ▸ rfl
    have hr : task.isReturned = false := htask ▸ rfl
    obtain ⟨hpush, hlater⟩ := h.pushTask htasks task i
    have hthere : (c.world.pushTask i task).task (i, tasks.length) = some task := by
      rw [task_pushTask htasks, if_pos rfl]
    obtain ⟨hb', hlater', halike⟩ := ledger_resumeOn (T := P.target) (i := i)
      (c := ⟨c.world.pushTask i task, c.history ++ [.invoke (i, tasks.length) i]⟩) hpush hthere hr
    exact ⟨hb', (hn.pushTask (htaskname ▸ hname)).alike halike, hlater.trans hlater'⟩

theorem ledger_foldlM (hnamed : ∀ b ∈ P.constructors, (spec.methods b.name).isSome) : ∀ {p : List Choice}
    {c c' : Conf σ κ α ν}, Ledger c.world c.history → NamedTasks spec c.world → p.foldlM (Conf.play P rng) c = some c' →
    Ledger c'.world c'.history ∧ NamedTasks spec c'.world ∧ Later c.world c.history c'.world c'.history
  | [], c, _, hb, hn, hp => by
    cases hp
    exact ⟨hb, hn, .refl _ _⟩
  | ch :: p, c, c', hb, hn, hp => by
    obtain ⟨c₁, hc₁, hp⟩ := Option.bind_eq_some_iff.1 hp
    obtain ⟨hb₁, hn₁, hlater⟩ := ledger_play hnamed hb hn hc₁
    obtain ⟨hb', hn', hlater'⟩ := ledger_foldlM hnamed hb₁ hn₁ hp
    exact ⟨hb', hn', hlater.trans hlater'⟩

variable [Inhabited α] [BEq ν]

/-- **What the checker accepts of a schedule it would have accepted at every step of it.** -/
theorem accepts_of_schedule (hnamed : ∀ b ∈ P.constructors, (spec.methods b.name).isSome) {p q : List Choice}
    (hp : playAll P rng p = some c') (hq : q <+: p) (h : recursiveChecker spec (historyOf P rng p) = true) :
    recursiveChecker spec (historyOf P rng q) = true := by
  obtain ⟨r, rfl⟩ := hq
  obtain ⟨c, hc, hr⟩ : ∃ c, playAll P rng q = some c ∧ r.foldlM (Conf.play P rng) c = some c' := by
    unfold playAll at hp
    rw [List.foldlM_append] at hp
    exact Option.bind_eq_some_iff.1 hp
  have hempty : ∀ tasks ∈ (Conf.init P).world.threads, tasks = [] := fun tasks htasks => (List.mem_replicate.1 htasks).2
  obtain ⟨hb, hn, _⟩ := ledger_foldlM hnamed (Ledger.empty hempty) (NamedTasks.empty hempty) hc
  obtain ⟨hb', hn', hlater⟩ := ledger_foldlM hnamed hb hn hr
  unfold historyOf at h ⊢
  rw [hp] at h
  rw [hc]
  exact accepts_of_later hb hb'.booked hn' hlater h

end Schedules

/-! ## One check at the end -/

/-- **A check at the end misses nothing.** `LinearizabilityCheckerRecursive` accepts every prefix of a history that it
accepts; `RunRound` rejects a round after one of whose passes the history would have been rejected; `TLAScheduler` rejects
when a prefix of a history that it checks would have been, and rejects a schedule whose history would have been at an
earlier step. -/
theorem rejects_at_end [Inhabited α] [Inhabited ν] [BEq ν] (spec : Specification β α ν) :
    (∀ (τ : Type) [DecidableEq τ] (view view' : τ → TaskView α ν) (H H' : List (HistoryEvent τ ν)), InvokedOnce H →
      ResponsesInvoked H → (∀ i t, InvokeAt H i t → (spec.methods (view t).name).isSome) → H' <+: H →
      SameViews H' view view' → Recursive.check spec view H = some true → Recursive.check spec view' H' = some true) ∧
    (∀ (σ κ ς ρ π : Type) (S : Strategy σ κ α ν ς ρ π) (fuel maxTasks : Nat) (st st' : Stage σ κ α ν ς ρ π)
      (res : Option (BothHistories ν)), (∀ tasks ∈ st.round.world.threads, tasks = []) →
      NamedTasks spec st'.round.world → S.runRound (recursiveChecker spec) fuel maxTasks st = .ok (res, st') →
      ∀ b, ReflTransGen (Pass S) (maxTasks, st, ⟨[], []⟩) b →
        recursiveChecker spec (b.2.1.round.world.resolve b.2.2.seq) = false → res ≠ none) ∧
    ∀ (σ κ ς ρ : Type) (P : Params σ κ α ν ς ρ) (rng : ρ), P.checker = recursiveChecker spec →
      (∀ b ∈ P.constructors, (spec.methods b.name).isSome) →
      (∀ fuel isOver res s, run P fuel rng = .ok (isOver, res) s → ∀ H H', .check H ∈ s.trace → H' <+: H →
        P.checker H' = false → res ≠ none) ∧
      ∀ p q, (playAll P rng p).isSome → q <+: p → P.checker (historyOf P rng q) = false →
        P.checker (historyOf P rng p) = false := by
  refine ⟨fun τ _ view view' H H' honce hresp hnamed hprefix hviews hcheck => ?_, ?_, ?_⟩
  · obtain ⟨K, rfl⟩ := hprefix
    exact Recursive.check_append honce hresp hnamed hviews hcheck
  · rintro σ κ ς ρ π S fuel maxTasks st st' res hempty hnamed hrun ⟨left, st₁, h₁⟩ hp hrejects rfl
    rw [accepts_of_runRound hempty hrun hnamed hp] at hrejects
    cases hrejects
  · intro σ κ ς ρ P rng hchecker hnamed
    constructor
    · rintro fuel isOver res s hrun H H' hH hprefix hrejects rfl
      have hempty : ∀ tasks ∈ (init P rng).world.threads, tasks = [] := fun tasks htasks => (List.mem_replicate.1 htasks).2
      have hledger : Ledger (init P rng).world ([] : List (HistoryEvent Slot ν)) := Ledger.empty hempty
      have hends := runStep_cleared hchecker [] [] hnamed fuel _ [] 0 0 hledger.booked
        List.nil_prefix (init P rng) ⟨rfl, rfl, NamedTasks.empty hempty, .refl ..⟩
      unfold run at hrun
      rw [hrun] at hends
      obtain ⟨⟨since, htrace, hall⟩, -⟩ := hends rfl
      rw [htrace] at hH
      rw [(hall H hH).2 H' hprefix] at hrejects
      cases hrejects
    · intro p q hp hq hrejects
      obtain ⟨c, hc⟩ := Option.isSome_iff_exists.1 hp
      by_contra haccepts
      rw [hchecker] at haccepts hrejects
      rw [accepts_of_schedule hnamed hc hq (by simpa using haccepts)] at hrejects
      cases hrejects

/-- A counter that counts itself. -/
def aheadSpec : Specification Nat Unit Nat where
  methods name := if name = "Add" then some fun count _ => (count + 1, count + 1) else none
  firstState := 0

/-- The counters that are checked against it. -/
def aheadParams : Params Nat Bool Unit Nat Unit Unit := { counterParams with checker := recursiveChecker aheadSpec }

/-- The first response of two counters is one too low. -/
theorem rejects_at_end_counters :
    Recursive.check Recursive.counterSpec Recursive.counterTasks (Recursive.getBesideFaa.take 2) = some true ∧
    (∃ res st', counterStrategy.runRound (recursiveChecker aheadSpec) 10 2 twoCounters = .ok (res, st') ∧ res ≠ none) ∧
    (∃ isOver res s, run aheadParams 10 () = .ok (isOver, res) s ∧ res ≠ none) ∧
    aheadParams.checker (historyOf aheadParams () [.start 0 0, .start 1 0, .resume 0, .resume 1]) = false := by
  obtain ⟨hcut, -, -⟩ := rejects_at_end Recursive.counterSpec
  obtain ⟨-, hround, hsearch⟩ := rejects_at_end aheadSpec
  obtain ⟨hrun, hschedule⟩ := hsearch _ _ _ _ aheadParams () rfl (by decide)
  refine ⟨?_, ?_, ?_, ?_⟩
  · exact hcut Nat Recursive.counterTasks Recursive.counterTasks Recursive.getBesideFaa _ (by decide) (by decide)
      (forall_invokeAt_iff.2 (by decide)) (List.take_prefix 2 _) ⟨fun _ _ _ => ⟨rfl, rfl⟩, fun _ _ _ => rfl⟩ (by decide)
  · obtain ⟨⟨res, st'⟩, hres, hnames⟩ := ok_of_toOption
      (x := counterStrategy.runRound (recursiveChecker aheadSpec) 10 2 twoCounters)
      (f := fun r => r.2.round.world.threads.map (·.map Coro.name)) (b := [["Add"], ["Add"]]) (by decide +kernel)
    refine ⟨res, st', hres, hround _ _ _ _ _ counterStrategy 10 2 twoCounters st' res (by simp [twoCounters]) ?_ hres _
      (.head (.pass rfl rfl rfl) (.head (.pass rfl rfl rfl) (.head (.pass rfl rfl rfl) .refl))) (by decide +kernel)⟩
    intro slot c hc
    obtain ⟨tasks, htasks, hj⟩ := World.task_eq_some.1 hc
    have hname : c.name ∈ (st'.round.world.threads.map (·.map Coro.name)).flatten :=
      List.mem_flatten.2 ⟨_, List.mem_map.2 ⟨tasks, List.mem_of_getElem? htasks, rfl⟩,
        List.mem_map_of_mem (List.mem_of_getElem? hj)⟩
    have hadd : c.name = "Add" := by simpa [hnames] using hname
    rw [hadd]
    rfl
  · have hreturns : (returned (run aheadParams 10 ())).isSome = true := by decide +kernel
    have hcomputed : (checks (final (run aheadParams 10 ())).trace).any (fun H => !aheadParams.checker (H.take 3)) = true := by
      decide +kernel
    obtain ⟨r, hr⟩ := Option.isSome_iff_exists.1 hreturns
    obtain ⟨H, hH, hrejects⟩ := List.any_eq_true.1 hcomputed
    obtain ⟨e, he, heq⟩ := List.mem_filterMap.1 hH
    cases e with
    | check H' =>
      cases heq
      exact ⟨r.1, r.2, _, returned_eq_some.1 hr, hrun 10 r.1 r.2 _ (returned_eq_some.1 hr) H (H.take 3) he
        (List.take_prefix 3 H) (by simpa using hrejects)⟩
    | _ => cases heq
  · exact hschedule _ [.start 0 0, .start 1 0, .resume 0] (by decide +kernel) ⟨[.resume 1], rfl⟩ (by decide +kernel)

end Ltest.Tla
