import Ltest.Program.Triple
import Ltest.Strategy.Worlds
import Ltest.Tla.Scheduler

/-!
# What the search does to its world

`RunStep` changes the world by the operations of `WorldOp` only, in `Replay` and elsewhere: what these keep holds wherever
a run returns or stops (`KeepsOn.runStep`). So a run of the search is a run of operations (`run_performed`).
-/

namespace Ltest.Tla

open Program

variable {σ κ α ν ς ρ : Type}

/-! ## Operations on the world -/

section World

variable {T : Target σ κ ν} {I : World σ κ α ν → Prop} {w w' : World σ κ α ν}

theorem terminateAll_rule (hresume : ∀ w slot w', I w → w.resume T slot = .ok w' → I w') : ∀ (slots : List Slot)
    {w w' : World σ κ α ν}, I w → terminateAll T slots w = .ok w' → I w'
  | [], _, _, hI, h => by
    cases h
    exact hI
  | slot :: slots, w, w', hI, h => by
    unfold terminateAll at h
    split at h
    · cases h
    · split at h
      · exact terminateAll_rule hresume slots hI h
      · obtain ⟨w₁, hw₁, h⟩ := bind_eq_ok.1 h
        exact terminateAll_rule hresume slots (terminateLoop_rule hresume _ hI hw₁) h

variable [Inhabited ν]

theorem replayFrames_rule (hresume : ∀ w slot w', I w → w.resume T slot = .ok w' → I w')
    (hrestart : ∀ w slot w', I w → w.restart slot = .ok w' → I w') : ∀ (frames : List Frame) {w w' : World σ κ α ν},
    I w → replayFrames T frames w = .ok w' → I w'
  | [], _, _, hI, h => by
    cases h
    exact hI
  | frame :: frames, w, w', hI, h => by
    unfold replayFrames replayFrame at h
    obtain ⟨w₁, hw₁, h⟩ := bind_eq_ok.1 h
    refine replayFrames_rule hresume hrestart frames ?_ h
    split at hw₁
    · cases hw₁
    · obtain ⟨w₂, hw₂, hw₁⟩ := bind_eq_ok.1 hw₁
      refine hresume _ _ _ ?_ hw₁
      split at hw₂
      · exact hrestart _ _ _ hI hw₂
      · cases hw₂
        exact hI

/-- **The rule for `Replay`.** -/
theorem replayWorld_rule {P : Params σ κ α ν ς ρ} (hresume : ∀ w slot w', I w → w.resume P.target slot = .ok w' → I w')
    (hrestart : ∀ w slot w', I w → w.restart slot = .ok w' → I w')
    (hcancel : ∀ w, I w → I { w with memory := P.cancel w.memory })
    (hreset : ∀ w, I w → I { w with memory := P.target.reset w.memory })
    (hstatus : ∀ w, I w → I { w with coroutineStatus := none }) {frames : List Frame} (hI : I w) (h : replayWorld P frames w = .ok w') : I w' := by
  unfold replayWorld terminateTasks at h
  obtain ⟨w₁, hw₁, h⟩ := bind_eq_ok.1 h
  obtain ⟨w₂, hw₂, h⟩ := bind_eq_ok.1 h
  cases h
  exact hstatus w₂ (replayFrames_rule hresume hrestart frames
    (hreset w₁ (terminateAll_rule hresume _ (hcancel w hI) hw₁)) hw₂)

theorem alike_restart {slot : Slot} (h : w.restart slot = .ok w') : Alike w w' := by
  obtain ⟨c, hc, -, rfl⟩ := World.restart_eq_ok.1 h
  exact alike_setTask hc rfl

/-- `Replay` keeps the tasks, in whatever state it leaves them. -/
theorem alike_replayWorld {P : Params σ κ α ν ς ρ} {frames : List Frame} (h : replayWorld P frames w = .ok w') :
    Alike w w' :=
  replayWorld_rule (I := Alike w) (fun _ _ _ ha h => (alike_resume h).trans ha)
    (fun _ _ _ ha h => (alike_restart h).trans ha) (fun _ ha => ha) (fun _ ha => ha) (fun _ ha => ha) rfl h

end World

/-! ## The search -/

section Search

variable [Inhabited ν] {P : Params σ κ α ν ς ρ} {I : World σ κ α ν → ρ → Prop}

/-- A property of the world and of the generator of the constructors. -/
def On (I : World σ κ α ν → ρ → Prop) (s : State σ κ α ν ς ρ) : Prop := I s.world s.rng

/-- A program that keeps the property, whether it returns or stops. -/
abbrev KeepsOn {A : Type} (I : World σ κ α ν → ρ → Prop) (m : Prog σ κ α ν ς ρ A) : Prop :=
  Triple (On I) m (fun _ => On I) fun _ => On I

omit [Inhabited ν] in
theorem KeepsOn.update {f : State σ κ α ν ς ρ → State σ κ α ν ς ρ}
    (h : ∀ s, (f s).world = s.world ∧ (f s).rng = s.rng) : KeepsOn I (modify f) := by
  refine Triple.update fun s hs => ?_
  obtain ⟨hworld, hrng⟩ := h s
  unfold On
  rwa [hworld, hrng]

omit [Inhabited ν] in
theorem KeepsOn.notify (note : Note κ α ν) : KeepsOn I (Tla.notify P note) :=
  Triple.bind (KeepsOn.update fun _ => ⟨rfl, rfl⟩) fun _ => KeepsOn.update fun _ => ⟨rfl, rfl⟩

omit [Inhabited ν] in
theorem KeepsOn.pushFull (thread : Nat) (entry : Entry) : KeepsOn I (Tla.pushFull (ς := ς) (ρ := ρ) thread entry) :=
  KeepsOn.update fun _ => ⟨rfl, rfl⟩

omit [Inhabited ν] in
theorem KeepsOn.verify (m : CreatedTaskMetaData) : KeepsOn I (Tla.verify P m) := by
  unfold Tla.verify
  refine Triple.look fun s₀ => Triple.bind (KeepsOn.update fun _ => ⟨rfl, rfl⟩) fun _ => ?_
  split
  · exact Triple.throw fun _ h => h
  · exact Triple.bind (KeepsOn.update fun _ => ⟨rfl, rfl⟩) fun _ => Triple.pure fun _ h => h

omit [Inhabited ν] in
theorem KeepsOn.readTask (slot : Slot) : KeepsOn I (Tla.readTask (ς := ς) (ρ := ρ) slot) := by
  unfold Tla.readTask
  refine Triple.look fun s₀ => ?_
  split
  · exact Triple.throw fun _ h => h
  · exact Triple.pure fun _ h => h

omit [Inhabited ν] in
theorem KeepsOn.onWorld {op : World σ κ α ν → Except Halt (World σ κ α ν)}
    (hop : ∀ w g w', I w g → op w = .ok w' → I w' g) : KeepsOn I (Tla.onWorld (ς := ς) (ρ := ρ) op) := by
  intro s hs
  unfold Tla.onWorld
  cases hw : op s.world with
  | error e => exact hs
  | ok w => exact hop _ _ _ hs hw

variable (h : WorldRule P.target P.cancel (· ∈ P.constructors) I)
include h

theorem KeepsOn.replay (stepEnd : Nat) : KeepsOn I (Tla.replay P stepEnd) :=
  Triple.look fun _ => KeepsOn.onWorld fun _ g _ hI hw => replayWorld_rule (I := fun w => I w g)
    (fun _ _ _ hI hw => h.resume hI hw) (fun _ _ _ hI hw => h.restart hI hw) (fun _ hI => h.cancel hI)
    (fun _ hI => h.reset hI) (fun _ hI => h.forget hI) hI hw

theorem KeepsOn.forget :
    KeepsOn (ς := ς) I (modify fun s => { s with world := { s.world with coroutineStatus := none } }) :=
  Triple.update fun _ hI => h.forget hI

theorem KeepsOn.updateFullHistory (thread : Nat) (slot : Slot) (name : String) (isNew : Bool) :
    KeepsOn I (Tla.updateFullHistory P thread slot name isNew) := by
  unfold Tla.updateFullHistory
  refine Triple.look fun s₀ => Triple.bind (KeepsOn.update fun _ => ⟨rfl, rfl⟩) fun _ => ?_
  split
  · refine Triple.ite (fun _ => Triple.throw fun _ h => h) fun _ => ?_
    dsimp only
    have hrest : ∀ st : CoroutineStatus, Triple (On I) _ (fun _ => On I) fun _ => On I := fun st =>
      Triple.bind (KeepsOn.notify (P := P) (.updateState st.name thread st.hasStarted)) fun _ =>
        Triple.bind (KeepsOn.pushFull thread (.status st)) fun _ => KeepsOn.forget h
    refine Triple.ite (fun _ => ?_) fun _ => hrest _
    exact Triple.bind (KeepsOn.pushFull thread _) fun _ => hrest _
  · exact Triple.bind (KeepsOn.notify _) fun _ => KeepsOn.pushFull thread _

theorem KeepsOn.takeStep (thread : Nat) (isNew : Bool) : KeepsOn I (Tla.takeStep P thread isNew) := by
  unfold Tla.takeStep Tla.finishTask
  refine Triple.look fun s₀ => Triple.bind (KeepsOn.update fun _ => ⟨rfl, rfl⟩) fun _ => ?_
  refine Triple.bind (KeepsOn.readTask _) fun task => Triple.ite (fun _ => Triple.throw fun _ h => h) fun _ => ?_
  refine Triple.bind (KeepsOn.onWorld fun _ _ _ hI hw => h.resume hI hw) fun _ => ?_
  refine Triple.bind (KeepsOn.updateFullHistory h thread _ task.name isNew) fun _ => ?_
  refine Triple.bind (KeepsOn.readTask _) fun task => Triple.ite (fun _ => ?_) fun _ => Triple.pure fun _ h => h
  refine Triple.bind (KeepsOn.update fun _ => ⟨rfl, rfl⟩) fun _ => Triple.bind (KeepsOn.notify _) fun _ => ?_
  exact Triple.bind (KeepsOn.update fun _ => ⟨rfl, rfl⟩) fun _ => Triple.pure fun _ h => h

omit [Inhabited ν] h in
theorem KeepsOn.takeBack (isNew isFinished : Bool) : KeepsOn I (Tla.takeBack (ς := ς) (ρ := ρ) isNew isFinished) := by
  unfold Tla.takeBack popFull
  refine Triple.bind (KeepsOn.update fun _ => ⟨rfl, rfl⟩) fun _ => Triple.bind (R := fun _ => On I) ?_ fun _ => ?_
  · refine Triple.look fun s₀ => ?_
    split
    · exact Triple.throw fun _ h => h
    · exact KeepsOn.update fun _ => ⟨rfl, rfl⟩
  · intro s hs
    cases isFinished <;> cases isNew <;> exact hs

theorem KeepsOn.resumeTask {runStep : Nat → Nat → Prog σ κ α ν ς ρ (Bool × Result ν)}
    (hrec : ∀ step switches, KeepsOn I (runStep step switches)) (step switches thread : Nat) (isNew : Bool) :
    KeepsOn I (Tla.resumeTask P runStep step switches thread isNew) := by
  unfold Tla.resumeTask
  refine Triple.look fun s₀ => Triple.bind (KeepsOn.update fun _ => ⟨rfl, rfl⟩) fun _ => Triple.ite (fun _ => ?_) fun _ => ?_
  · exact Triple.bind (KeepsOn.update fun _ => ⟨rfl, rfl⟩) fun _ => Triple.pure fun _ h => h
  refine Triple.bind (KeepsOn.takeStep h thread isNew) fun isFinished => ?_
  refine Triple.bind (R := fun _ => On I) (Triple.look fun _ => Triple.ite (fun _ => ?_) fun _ => hrec _ _) fun r => ?_
  · unfold finishRound
    refine Triple.bind (KeepsOn.update fun _ => ⟨rfl, rfl⟩) fun _ => Triple.look fun _ => ?_
    refine Triple.bind (KeepsOn.update fun _ => ⟨rfl, rfl⟩) fun _ => ?_
    exact Triple.ite (fun _ => Triple.pure fun _ h => h) fun _ => Triple.pure fun _ h => h
  · refine Triple.ite (fun _ => Triple.pure fun _ h => h) fun _ => ?_
    refine Triple.bind (KeepsOn.takeBack isNew isFinished) fun _ => Triple.look fun _ => ?_
    exact Triple.bind (KeepsOn.update fun _ => ⟨rfl, rfl⟩) fun _ => Triple.pure fun _ h => h

theorem KeepsOn.constructorLoop {runStep : Nat → Nat → Prog σ κ α ν ς ρ (Bool × Result ν)}
    (hrec : ∀ step switches, KeepsOn I (runStep step switches)) (step switches i : Nat) :
    ∀ constructors : List (TaskBuilder σ κ α ρ), constructors ⊆ P.constructors →
      KeepsOn I (Tla.constructorLoop P runStep step switches i constructors)
  | [], _ => Triple.pure fun _ h => h
  | cons :: constructors, hsub => by
    obtain ⟨hcons, hsub⟩ := List.cons_subset.1 hsub
    have ih := KeepsOn.constructorLoop hrec step switches i constructors hsub
    refine Triple.bind (KeepsOn.verify _) fun ok => Triple.ite (fun _ => ih) fun _ => ?_
    refine Triple.bind (KeepsOn.update fun _ => ⟨rfl, rfl⟩) fun _ => ?_
    refine Triple.bind (R := fun _ => On I) (Triple.update fun s hs => h.build i (-1) hs hcons) fun _ => ?_
    refine Triple.bind (KeepsOn.resumeTask h hrec step switches i true) fun r => ?_
    refine Triple.ite (fun _ => Triple.pure fun _ h => h) fun _ => ?_
    refine Triple.bind (R := fun _ => On I) (Triple.update fun s hs => h.pop i hs) fun _ => ?_
    exact Triple.bind (KeepsOn.replay h step) fun _ => ih

theorem KeepsOn.threadLoop {runStep : Nat → Nat → Prog σ κ α ν ς ρ (Bool × Result ν)}
    (hrec : ∀ step switches, KeepsOn I (runStep step switches)) (step switches : Nat) :
    ∀ (threads : List Nat) (allParked : Bool), KeepsOn I (Tla.threadLoop P runStep step switches threads allParked)
  | [], _ => Triple.pure fun _ h => h
  | i :: threads, allParked => by
    have ih := KeepsOn.threadLoop hrec step switches threads
    unfold Tla.threadLoop
    refine Triple.look fun s₀ => ?_
    dsimp only
    split
    · refine Triple.ite (fun _ => ih allParked) fun _ => ?_
      refine Triple.bind (KeepsOn.verify _) fun ok => Triple.ite (fun _ => ih false) fun _ => ?_
      refine Triple.bind (KeepsOn.update fun _ => ⟨rfl, rfl⟩) fun _ => ?_
      refine Triple.bind (KeepsOn.resumeTask h hrec step switches i false) fun r => ?_
      refine Triple.ite (fun _ => Triple.pure fun _ h => h) fun _ => ?_
      exact Triple.bind (KeepsOn.replay h step) fun _ => ih false
    · refine Triple.ite (fun _ => ?_) fun _ => ih false
      refine Triple.bind (KeepsOn.constructorLoop h hrec step switches i _ fun _ hb => hb) fun r => ?_
      cases r with
      | none => exact ih false
      | some r => exact Triple.pure fun _ h => h

/-- **What the operations keep holds wherever `RunStep` returns or stops.** -/
theorem KeepsOn.runStep : ∀ (fuel step switches : Nat), KeepsOn I (Tla.runStep P fuel step switches)
  | 0, _, _ => Triple.throw fun _ h => h
  | fuel + 1, step, switches => by
    refine Triple.bind (KeepsOn.update fun _ => ⟨rfl, rfl⟩) fun _ => ?_
    refine Triple.bind (KeepsOn.threadLoop h (KeepsOn.runStep fuel) step switches _ true) fun r => ?_
    cases r with
    | inl r => exact Triple.pure fun _ h => h
    | inr allParked =>
      refine Triple.ite (fun _ => Triple.throw fun _ h => h) fun _ => ?_
      exact Triple.bind (KeepsOn.update fun _ => ⟨rfl, rfl⟩) fun _ => Triple.pure fun _ h => h

end Search

end Ltest.Tla
