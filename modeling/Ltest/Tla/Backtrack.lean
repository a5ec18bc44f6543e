import Ltest.Tla.Scheduler
import Ltest.Program.Triple
import Ltest.Program.Calls

/-!
# What the search does to the verifier and to `full_history`
-/

namespace Ltest.Tla

open Program Calls

variable {σ κ α ν ς ρ : Type}

/-! ## The trace -/

/-- Calls of `ResumeTask` are nested; `Verify` and `Check` belong to `RunStep`. -/
def Event.mark : Event ς κ α ν → Mark
  | .enter _ => .enter
  | .leave _ => .leave
  | .step .. => .inside
  | .notify _ => .inside
  | .verify .. => .aside
  | .check _ => .aside

/-- The steps of the current path, innermost first. -/
abbrev steps (t : List (Event ς κ α ν)) : List (List (Event ς κ α ν)) := path Event.mark t

/-- The entries that `UpdateFullHistory` pushes for a step. -/
def pushes (thread : Nat) (slot : Slot) (isNew : Bool) : Option CoroutineStatus → FullHistory
  | none => [(thread, .task slot)]
  | some st => (if isNew then [(thread, .task slot)] else []) ++ [(thread, .status st)]

/-- What `UpdateFullHistory` asserts of the status that a new task leaves. -/
def StartsNew (isNew : Bool) (status : Option CoroutineStatus) : Prop :=
  isNew = true → ∀ st, status = some st → st.hasStarted = true

def Event.pushed : Event ς κ α ν → FullHistory
  | .step _ thread slot isNew status => pushes thread slot isNew status
  | _ => []

def Event.noted : Event ς κ α ν → List (Note κ α ν)
  | .notify note => [note]
  | _ => []

section Steps

variable {t : List (Event ς κ α ν)}

@[simp] theorem steps_verify {v : ς} {m : CreatedTaskMetaData} : steps (t ++ [.verify v m]) = steps t := path_snoc t

@[simp] theorem steps_check {h : List (HistoryEvent (Slot × Option (TaskView α ν)) ν)} :
    steps (t ++ [.check h]) = steps t := path_snoc t

@[simp] theorem steps_enter {f : FullHistory} : steps (t ++ [.enter f]) = [] :: steps t := path_snoc t

@[simp] theorem steps_leave {f : FullHistory} : steps (t ++ [.leave f]) = (steps t).tail := path_snoc t

end Steps

/-- The events of a step are added to the innermost call. -/
theorem steps_taken (t : List (Event ς κ α ν)) (full : FullHistory) (thread : Nat) (slot : Slot) (isNew : Bool)
    (st : Option CoroutineStatus) (notes : List (Note κ α ν)) :
    steps (t ++ .step full thread slot isNew st :: notes.map .notify) =
      (steps t).modifyHead (· ++ .step full thread slot isNew st :: notes.map .notify) := by
  have hnotes : ∀ (notes : List (Note κ α ν)) (calls : List (List (Event ς κ α ν))),
      (notes.map Event.notify).foldl (next Event.mark) calls = calls.modifyHead (· ++ notes.map .notify) := by
    intro notes
    induction notes with
    | nil => intro calls; cases calls <;> simp
    | cons note notes ih => intro calls; cases calls <;> simp [ih, next, Event.mark]
  simp only [steps, path, List.foldl_append, List.foldl_cons, hnotes]
  generalize t.foldl (next Event.mark) [] = calls
  cases calls <;> simp [next, Event.mark]

/-! ## Operations on the world -/

section World

variable {T : Target σ κ ν}

theorem bind_ne {A B : Type} {x : Except Halt A} {f : A → Except Halt B} {e : Halt} (hx : x ≠ .error e)
    (hf : ∀ a, f a ≠ .error e) : (x >>= f) ≠ .error e := by
  cases x with
  | ok a => exact hf a
  | error e' => exact fun h => hx (by cases h; rfl)

theorem resume_ne (w : World σ κ α ν) (slot : Slot) : w.resume T slot ≠ .error .emptyHistory := by
  unfold World.resume
  split
  · simp
  · split <;> simp

theorem terminateLoop_ne (slot : Slot) : ∀ (left : Nat) (w : World σ κ α ν),
    World.terminateLoop T slot left w ≠ .error .emptyHistory
  | 0, w => by simp [World.terminateLoop]
  | left + 1, w => by
    unfold World.terminateLoop
    split
    · simp
    · split
      · simp
      · refine bind_ne (resume_ne w slot) fun w => ?_
        split
        · simp
        · exact terminateLoop_ne slot left w

theorem terminateAll_ne : ∀ (slots : List Slot) (w : World σ κ α ν), terminateAll T slots w ≠ .error .emptyHistory
  | [], w => by simp [terminateAll]
  | slot :: slots, w => by
    unfold terminateAll
    split
    · simp
    · split
      · exact terminateAll_ne slots w
      · exact bind_ne (terminateLoop_ne slot _ w) (terminateAll_ne slots)

variable [Inhabited ν]

theorem restart_ne (w : World σ κ α ν) (slot : Slot) : w.restart slot ≠ .error .emptyHistory := by
  unfold World.restart
  split
  · simp
  · split <;> simp

theorem replayFrames_ne : ∀ (frames : List Frame) (w : World σ κ α ν),
    replayFrames T frames w ≠ .error .emptyHistory
  | [], w => by simp [replayFrames]
  | frame :: frames, w => by
    refine bind_ne ?_ (replayFrames_ne frames)
    unfold replayFrame
    split
    · simp
    · refine bind_ne ?_ fun w => resume_ne w _
      split
      · exact restart_ne w _
      · simp

/-- `Replay` does not touch `full_history`. -/
theorem replayWorld_ne (P : Params σ κ α ν ς ρ) (frames : List Frame) (w : World σ κ α ν) :
    replayWorld P frames w ≠ .error .emptyHistory :=
  bind_ne (terminateAll_ne _ _) fun _ => bind_ne (replayFrames_ne _ _) fun _ => by simp [pure, Except.pure]

end World

/-! ## The parts of `ResumeTask` -/

/-- The parts of the state that the trace is about. -/
def Core (t : List (Event ς κ α ν)) (f : FullHistory) (v : ς) (s : State σ κ α ν ς ρ) : Prop :=
  s.trace = t ∧ s.fullHistory = f ∧ s.verifier = v

section Parts

variable {P : Params σ κ α ν ς ρ} {t : List (Event ς κ α ν)} {f : FullHistory} {v : ς}

theorem onWorld_triple {op : World σ κ α ν → Except Halt (World σ κ α ν)} :
    Triple (Core t f v) (onWorld (ς := ς) (ρ := ρ) op) (fun _ => Core t f v)
      (fun e s => Core t f v s ∧ ∃ w, op w = .error e) := by
  intro s hs
  unfold onWorld
  cases hop : op s.world with
  | ok w => exact hs
  | error e => exact ⟨hs, _, hop⟩

theorem readTask_triple (slot : Slot) : Triple (Core t f v) (readTask (σ := σ) (ρ := ρ) slot) (fun _ => Core t f v)
    (fun e s => Core t f v s ∧ e = .badSlot) := by
  intro s hs
  simp only [readTask, run_bind, run_get]
  cases s.world.task slot with
  | none => exact ⟨hs, rfl⟩
  | some task => exact hs

/-- What `UpdateFullHistory` does. -/
theorem updateFullHistory_triple (thread : Nat) (slot : Slot) (name : String) (isNew : Bool) :
    Triple (Core t f v) (updateFullHistory P thread slot name isNew)
      (fun _ s => ∃ st note, StartsNew isNew st ∧ Core (t ++ [.step f thread slot isNew st, .notify note])
        (f ++ pushes thread slot isNew st) (P.verifier.notify v note) s)
      (fun e s => e = .coroutineStart ∧ ∃ st, s.trace = t ++ [.step f thread slot isNew st]) := by
  rintro ⟨⟨m, ts, st⟩, a, b, c, d, full, f, g, v, r, t⟩ ⟨rfl, rfl, rfl⟩
  cases st with
  | none => exact ⟨none, .updateState name thread isNew, by simp [StartsNew], by simp, rfl, rfl⟩
  | some st =>
    simp only [updateFullHistory, emit, pushFull, notify, run_bind, run_get, run_modify, run_ite, run_throw]
    by_cases hend : (isNew && !st.hasStarted) = true
    · rw [if_pos hend]
      exact ⟨rfl, some st, rfl⟩
    · rw [if_neg hend]
      cases isNew with
      | false => exact ⟨some st, .updateState st.name thread st.hasStarted, by simp [StartsNew], by simp, rfl, rfl⟩
      | true =>
        exact ⟨some st, .updateState st.name thread st.hasStarted, by simpa [StartsNew] using hend, by simp,
          by simp [pushes], rfl⟩

theorem finishTask_triple (thread : Nat) (slot : Slot) : Triple (Core t f v) (finishTask P thread slot)
    (fun _ s => ∃ notes : List (Note κ α ν),
      Core (t ++ notes.map .notify) f (notes.foldl P.verifier.notify v) s)
    (fun e s => Core t f v s ∧ e = .badSlot) := by
  intro s hs
  have hread := readTask_triple slot s hs
  obtain ⟨rfl, rfl, rfl⟩ := hs
  simp only [finishTask, run_bind]
  revert hread
  cases readTask slot s with
  | error e s' => exact id
  | ok task s' =>
    rintro ⟨ht, hf, hv⟩
    simp only [run_ite]
    split
    · exact ⟨[.onFinished ⟨task, false, thread⟩], by simp [ht], hf, by simp [hv]⟩
    · exact ⟨[], by simp [ht], hf, hv⟩

/-- What the step of `ResumeTask` does to the trace, to `full_history` and to the verifier. -/
theorem takeStep_triple (thread : Nat) (isNew : Bool) : Triple (Core t f v) (takeStep P thread isNew)
    (fun _ s => ∃ slot st, ∃ notes : List (Note κ α ν), StartsNew isNew st ∧
      Core (t ++ .step f thread slot isNew st :: notes.map .notify) (f ++ pushes thread slot isNew st)
        (notes.foldl P.verifier.notify v) s)
    (fun e s => e ≠ .emptyHistory ∧ (s.trace = t ∨ ∃ slot st, s.trace = t ++ [.step f thread slot isNew st] ∨
      ∃ note, StartsNew isNew st ∧ s.trace = t ++ [.step f thread slot isNew st, .notify note])) := by
  unfold takeStep
  refine Triple.read fun s₀ => ?_
  refine Triple.bind (R := fun _ => Core t f v) (Triple.update fun s hs => hs.2) fun _ => ?_
  refine Triple.bind (R := fun _ => Core t f v) ?_ fun task => ?_
  · refine (readTask_triple _).weaken (fun _ h => h) (fun _ _ h => h) ?_
    rintro e s ⟨hs, rfl⟩
    exact ⟨by simp, Or.inl hs.1⟩
  refine Triple.ite (fun _ => Triple.throw fun s hs => ⟨by simp, Or.inl hs.1⟩) fun _ => ?_
  refine Triple.bind (R := fun _ => Core t f v) ?_ fun _ => ?_
  · refine onWorld_triple.weaken (fun _ h => h) (fun _ _ h => h) ?_
    rintro e s ⟨hs, w, hw⟩
    exact ⟨fun he => resume_ne w _ (he ▸ hw), Or.inl hs.1⟩
  refine Triple.bind ((updateFullHistory_triple thread _ task.name isNew).weaken (fun _ h => h) (fun _ _ h => h) ?_)
    fun _ => ?_
  · rintro e s ⟨rfl, st, hst⟩
    exact ⟨by simp, Or.inr ⟨_, st, Or.inl hst⟩⟩
  · rintro s ⟨st, note, hnew, hs⟩
    refine ((finishTask_triple thread _).weaken (fun _ h => h) ?_ ?_) s hs
    · rintro _ s ⟨notes, ht, hf, hv⟩
      exact ⟨_, st, note :: notes, hnew, by simp [ht], hf, hv⟩
    · rintro e s ⟨⟨ht, _⟩, rfl⟩
      exact ⟨by simp, Or.inr ⟨_, st, Or.inr ⟨note, hnew, ht⟩⟩⟩

/-- What taking a step back does to them. -/
theorem takeBack_triple (isNew isFinished : Bool) : Triple (Core t f v) (takeBack (σ := σ) (ρ := ρ) isNew isFinished)
    (fun _ s => ∃ full, popped f = some full ∧ Core t full v s)
    (fun e s => e = .emptyHistory ∧ popped f = none ∧ s.trace = t) := by
  unfold takeBack
  refine Triple.bind (R := fun _ => Core t f v) (Triple.update fun s hs => hs) fun _ => ?_
  refine Triple.bind (R := fun _ s => ∃ full, popped f = some full ∧ Core t full v s) ?_ fun _ => ?_
  · rintro s ⟨rfl, rfl, rfl⟩
    simp only [popFull, run_bind, run_get]
    cases hp : popped s.fullHistory with
    | none => exact ⟨rfl, rfl, rfl⟩
    | some full => exact ⟨full, rfl, rfl, rfl, rfl⟩
  · intro s hs
    cases isFinished <;> cases isNew <;> exact hs

end Parts

/-! ## Invariants of the search -/

/-- `I` holds between the calls, `E` once `ResumeTask` is entered. The trace is `Good` wherever the run stops, and `Bad`
where `full_history` is empty when a step is taken back. -/
structure Keeps (P : Params σ κ α ν ς ρ) (I E : List (Event ς κ α ν) → FullHistory → ς → Prop)
    (Good Bad : List (Event ς κ α ν) → Prop) : Prop where
  good : ∀ {t f v}, I t f v → Good t
  verified : ∀ {t f v m}, I t f v → Good (t ++ [.verify v m])
  verify : ∀ {t f v m ok v'}, I t f v → P.verifier.verify v m = some (ok, v') → I (t ++ [.verify v m]) f v'
  check : ∀ {t f v h}, I t f v → I (t ++ [.check h]) f v
  enter : ∀ {t f v}, I t f v → E (t ++ [.enter f]) f v
  entered : ∀ {t f v}, E t f v → Good t
  giveUp : ∀ {t f v}, E t f v → I (t ++ [.leave f]) f v
  stuck : ∀ {t f v thread slot isNew st}, E t f v → Good (t ++ [.step f thread slot isNew st])
  taken : ∀ {t f v thread slot isNew st} {notes : List (Note κ α ν)}, E t f v → StartsNew isNew st →
    I (t ++ .step f thread slot isNew st :: notes.map .notify) (f ++ pushes thread slot isNew st)
      (notes.foldl P.verifier.notify v)
  empty : ∀ {t f v}, I t f v → steps t ≠ [] → popped f = none → Bad t
  back : ∀ {t f v full}, I t f v → steps t ≠ [] → popped f = some full → I (t ++ [.leave full]) full v

section Search

variable {P : Params σ κ α ν ς ρ} {I E : List (Event ς κ α ν) → FullHistory → ς → Prop}
  {Good Bad : List (Event ς κ α ν) → Prop}

/-- The invariant holds, and the current path is `φ`. -/
def Rest (I : List (Event ς κ α ν) → FullHistory → ς → Prop) (φ : List (List (Event ς κ α ν)))
    (s : State σ κ α ν ς ρ) : Prop :=
  I s.trace s.fullHistory s.verifier ∧ steps s.trace = φ

/-- The search goes on after this result. -/
def GoesOn (r : Bool × Result ν) : Prop := (r.1 || r.2.isSome) = false

/-- After a call the trace is good; if the search goes on, the invariant holds and the path is `φ` again. -/
def Back (I : List (Event ς κ α ν) → FullHistory → ς → Prop) (Good : List (Event ς κ α ν) → Prop)
    (φ : List (List (Event ς κ α ν))) (r : Bool × Result ν) (s : State σ κ α ν ς ρ) : Prop :=
  Good s.trace ∧ (GoesOn r → Rest I φ s)

/-- What holds where a run stops. -/
def Stops (Good Bad : List (Event ς κ α ν) → Prop) (e : Halt) (s : State σ κ α ν ς ρ) : Prop :=
  Good s.trace ∧ (e = .emptyHistory → Bad s.trace)

variable {φ : List (List (Event ς κ α ν))}

/-- Programs that touch neither the trace nor what it is about. -/
theorem Rest.update {f : State σ κ α ν ς ρ → State σ κ α ν ς ρ} {X : Halt → State σ κ α ν ς ρ → Prop}
    (h : ∀ s, (f s).trace = s.trace ∧ (f s).fullHistory = s.fullHistory ∧ (f s).verifier = s.verifier) :
    Triple (Rest I φ) (modify f) (fun _ => Rest I φ) X := by
  refine Triple.update fun s hs => ?_
  obtain ⟨ht, hf, hv⟩ := h s
  unfold Rest
  rwa [ht, hf, hv]

variable (hk : Keeps P I E Good Bad)
include hk

theorem Rest.stops {s : State σ κ α ν ς ρ} (h : Rest I φ s) {e : Halt} (he : e ≠ .emptyHistory) :
    Stops Good Bad e s :=
  ⟨hk.good h.1, fun h => absurd h he⟩

theorem verify_keeps (m : CreatedTaskMetaData) : Triple (Rest I φ) (verify P m) (fun _ => Rest I φ) (Stops Good Bad) := by
  rintro s ⟨hI, hφ⟩
  have hsteps : steps (s.trace ++ [.verify s.verifier m]) = φ := by rw [steps_verify, hφ]
  simp only [verify, emit, run_bind, run_get, run_modify]
  cases hv : P.verifier.verify s.verifier m with
  | none => exact ⟨hk.verified hI, by simp⟩
  | some r => exact ⟨hk.verify hI hv, hsteps⟩

theorem replay_keeps [Inhabited ν] (stepEnd : Nat) : Triple (Rest I φ) (replay P stepEnd) (fun _ => Rest I φ)
    (Stops Good Bad) := by
  intro s hs
  simp only [replay, run_bind, run_get, onWorld]
  cases hw : replayWorld P (s.frames.take stepEnd) s.world with
  | ok w => exact hs
  | error e => exact hs.stops hk fun he => replayWorld_ne P _ _ (he ▸ hw)

theorem finishRound_keeps : Triple (Rest I φ) (finishRound P) (fun r => Back I Good φ r) (Stops Good Bad) := by
  rintro s ⟨hI, hφ⟩
  simp only [finishRound, emit, run_bind, run_get, run_modify, run_ite, run_pure]
  generalize hh : World.resolve s.world s.sequentialHistory = h
  have hI' : I (s.trace ++ [.check h]) s.fullHistory s.verifier := hk.check hI
  have hsteps : steps (s.trace ++ [.check h]) = φ := by rw [steps_check, hφ]
  split
  · exact ⟨hk.good hI', fun _ => ⟨hI', hsteps⟩⟩
  · exact ⟨hk.good hI', fun _ => ⟨hI', hsteps⟩⟩

theorem descend_keeps {runStep : Prog σ κ α ν ς ρ (Bool × Result ν)}
    (hrec : Triple (Rest I φ) runStep (Back I Good φ) (Stops Good Bad)) :
    Triple (Rest I φ) (descend P runStep) (Back I Good φ) (Stops Good Bad) :=
  Triple.read fun _ => Triple.ite
    (fun _ => (finishRound_keeps hk).weaken (fun _ h => h.2) (fun _ _ h => h) (fun _ _ h => h))
    (fun _ => hrec.weaken (fun _ h => h.2) (fun _ _ h => h) (fun _ _ h => h))

/-- A call of `ResumeTask` keeps the invariant if the search below it does. -/
theorem resumeTask_keeps {runStep : Nat → Nat → Prog σ κ α ν ς ρ (Bool × Result ν)}
    (hrec : ∀ ψ step switches, Triple (Rest I ψ) (runStep step switches) (Back I Good ψ) (Stops Good Bad))
    (step switches thread : Nat) (isNew : Bool) :
    Triple (Rest I φ) (resumeTask P runStep step switches thread isNew) (Back I Good φ) (Stops Good Bad) := by
  unfold resumeTask
  refine Triple.read fun s₀ => ?_
  refine Triple.bind (R := fun _ s => E s.trace s.fullHistory s.verifier ∧ steps s.trace = [] :: φ ∧
    s.fullHistory = s₀.fullHistory) ?_ fun _ => ?_
  · rintro s ⟨rfl, hI, hφ⟩
    exact ⟨hk.enter hI, by rw [← hφ]; exact steps_enter, rfl⟩
  refine Triple.ite (fun _ => ?_) fun _ => ?_
  · -- the limit of switches is achieved
    rintro s ⟨hE, hφ, hf⟩
    have hI := hk.giveUp hE
    refine ⟨?_, fun _ => ⟨?_, ?_⟩⟩
    · exact hf ▸ hk.good hI
    · exact hf ▸ hI
    · exact steps_leave.trans (by rw [hφ]; rfl)
  refine Triple.bind (R := fun _ => fun s => ∃ top, Rest I (top :: φ) s) ?_ fun isFinished => ?_
  · rintro s ⟨hE, hφ, _⟩
    refine ((takeStep_triple thread isNew).weaken (fun _ h => h) ?_ ?_) s ⟨rfl, rfl, rfl⟩
    · rintro _ s' ⟨slot, st, notes, hnew, ht, hf, hv⟩
      refine ⟨.step s.fullHistory thread slot isNew st :: notes.map .notify, ?_, ?_⟩
      · rw [ht, hf, hv]; exact hk.taken hE hnew
      · rw [ht, steps_taken, hφ]; rfl
    · rintro e s' ⟨he, ht | ⟨slot, st, ht | ⟨note, hnew, ht⟩⟩⟩
      · exact ⟨ht ▸ hk.entered hE, fun h => absurd h he⟩
      · exact ⟨ht ▸ hk.stuck hE, fun h => absurd h he⟩
      · have hI : I (s.trace ++ .step s.fullHistory thread slot isNew st :: [note].map .notify) _ _ := hk.taken hE hnew
        exact ⟨ht ▸ hk.good hI, fun h => absurd h he⟩
  refine Triple.bind (R := fun r s => Good s.trace ∧ (GoesOn r → ∃ top, Rest I (top :: φ) s)) ?_ fun r => ?_
  · rintro s ⟨top, hs⟩
    exact (descend_keeps hk (hrec _ _ _)).weaken (fun _ h => h)
      (fun r s h => ⟨h.1, fun hr => ⟨top, h.2 hr⟩⟩) (fun _ _ h => h) s hs
  obtain ⟨isOver, res⟩ := r
  refine Triple.ite (fun hr => Triple.pure fun s hs => ⟨hs.1, fun hgo => ?_⟩) fun hr => ?_
  · exact absurd (hgo.symm.trans hr) (by simp)
  · rintro s ⟨_, hgo⟩
    obtain ⟨top, hI, hφ⟩ := hgo (by simpa [GoesOn] using hr)
    have hopen : steps s.trace ≠ [] := by rw [hφ]; simp
    refine Triple.bind ((takeBack_triple isNew isFinished).weaken (fun _ h => h) (fun _ _ h => h) ?_) (fun _ => ?_) s
      ⟨rfl, rfl, rfl⟩
    · rintro e s' ⟨rfl, hnone, ht⟩
      exact ⟨ht ▸ hk.good hI, fun _ => ht ▸ hk.empty hI hopen hnone⟩
    · rintro s' ⟨full, hfull, ht, hf, hv⟩
      have hI' := hk.back hI hopen hfull
      have hback : Rest I φ { s' with trace := s'.trace ++ [.leave s'.fullHistory] } := by
        refine ⟨by simpa only [ht, hf, hv] using hI', ?_⟩
        exact steps_leave.trans (by rw [ht, hφ]; rfl)
      exact ⟨hk.good hback.1, fun _ => hback⟩

variable [Inhabited ν]

theorem constructorLoop_keeps {runStep : Nat → Nat → Prog σ κ α ν ς ρ (Bool × Result ν)}
    (hrec : ∀ ψ step switches, Triple (Rest I ψ) (runStep step switches) (Back I Good ψ) (Stops Good Bad))
    (step switches i : Nat) : ∀ constructors : List (TaskBuilder σ κ α ρ),
    Triple (Rest I φ) (constructorLoop P runStep step switches i constructors)
      (fun r s => match r with | none => Rest I φ s | some r => Good s.trace ∧ ¬GoesOn r) (Stops Good Bad)
  | [] => Triple.pure fun _ h => h
  | cons :: constructors => by
    have ih := constructorLoop_keeps hrec step switches i constructors
    refine Triple.bind (verify_keeps hk _) fun ok => Triple.ite (fun _ => ih) fun _ => ?_
    refine Triple.bind (Rest.update fun s => ⟨rfl, rfl, rfl⟩) fun _ => ?_
    refine Triple.bind (Rest.update fun s => ⟨rfl, rfl, rfl⟩) fun _ => ?_
    refine Triple.bind (resumeTask_keeps hk hrec step switches i true) fun r => ?_
    obtain ⟨isOver, res⟩ := r
    refine Triple.ite (fun hr => Triple.pure fun s hs => ⟨hs.1, by simp [GoesOn, hr]⟩) fun hr => ?_
    have hgo : GoesOn (isOver, res) := by simpa [GoesOn] using hr
    refine Triple.bind (R := fun _ => Rest I φ) (Triple.update fun s hs => hs.2 hgo) fun _ => ?_
    exact Triple.bind (replay_keeps hk step) fun _ => ih

theorem threadLoop_keeps {runStep : Nat → Nat → Prog σ κ α ν ς ρ (Bool × Result ν)}
    (hrec : ∀ ψ step switches, Triple (Rest I ψ) (runStep step switches) (Back I Good ψ) (Stops Good Bad))
    (step switches : Nat) : ∀ (threads : List Nat) (allParked : Bool),
    Triple (Rest I φ) (threadLoop P runStep step switches threads allParked)
      (fun r s => match r with | .inl r => Good s.trace ∧ ¬GoesOn r | .inr _ => Rest I φ s) (Stops Good Bad)
  | [], _ => Triple.pure fun _ h => h
  | i :: threads, allParked => by
    have ih := threadLoop_keeps hrec step switches threads
    unfold threadLoop
    refine Triple.read fun s₀ => ?_
    refine Triple.weaken (P := Rest I φ) ?_ (fun _ h => h.2) (fun _ _ h => h) (fun _ _ h => h)
    dsimp only
    split
    · rename_i task _
      refine Triple.ite (fun _ => ih allParked) fun _ => ?_
      refine Triple.bind (verify_keeps hk _) fun ok => Triple.ite (fun _ => ih false) fun _ => ?_
      refine Triple.bind (Rest.update fun s => ⟨rfl, rfl, rfl⟩) fun _ => ?_
      refine Triple.bind (resumeTask_keeps hk hrec step switches i false) fun r => ?_
      obtain ⟨isOver, res⟩ := r
      refine Triple.ite (fun hr => Triple.pure fun s hs => ⟨hs.1, by simp [GoesOn, hr]⟩) fun hr => ?_
      have hgo : GoesOn (isOver, res) := by simpa [GoesOn] using hr
      refine Triple.bind (R := fun _ => Rest I φ) ?_ fun _ => ih false
      exact (replay_keeps hk step).weaken (fun s hs => hs.2 hgo) (fun _ _ h => h) (fun _ _ h => h)
    · refine Triple.ite (fun _ => ?_) fun _ => ih false
      refine Triple.bind (constructorLoop_keeps hk hrec step switches i P.constructors) fun r => ?_
      cases r with
      | none => exact ih false
      | some r => exact Triple.pure fun _ h => h

/-- **`RunStep` keeps the invariant** and comes back to the path it was called on. -/
theorem runStep_keeps : ∀ (fuel : Nat) (φ : List (List (Event ς κ α ν))) (step switches : Nat),
    Triple (Rest I φ) (runStep P fuel step switches) (Back I Good φ) (Stops Good Bad)
  | 0, _, _, _ => Triple.throw fun _ h => h.stops hk (by simp)
  | fuel + 1, φ, step, switches => by
    have ih := runStep_keeps fuel
    refine Triple.bind (Rest.update fun s => ⟨rfl, rfl, rfl⟩) fun _ => ?_
    refine Triple.bind (threadLoop_keeps hk ih step switches _ true) fun r => ?_
    cases r with
    | inl r => exact Triple.pure fun s h => ⟨h.1, fun hgo => absurd hgo h.2⟩
    | inr allParked =>
      refine Triple.ite (fun _ => Triple.throw fun _ h => h.stops hk (by simp)) fun _ => ?_
      refine Triple.bind (Rest.update fun s => ⟨rfl, rfl, rfl⟩) fun _ => ?_
      exact Triple.pure fun s h => ⟨hk.good h.1, fun _ => h⟩

/-- **An invariant that holds at the start holds of a whole run.** -/
theorem run_keeps (hinit : I [] [] P.verifier.fresh) (fuel : Nat) (rng : ρ) :
    Meets (fun _ s => Good s.trace) (Stops Good Bad) (run P fuel rng) := by
  have h := runStep_keeps hk fuel [] 0 0 (init P rng) ⟨hinit, rfl⟩
  unfold run
  revert h
  cases runStep P fuel 0 0 (init P rng) with
  | ok r s => exact fun h => h.1
  | error e s => exact id

end Search

end Ltest.Tla
