import Ltest.Tla.Worlds

/-!
# Parked tasks and `Replay`

`Replay` restarts the tasks of a path and resumes them again. Tasks cannot read their tokens, so for a target that `Reset`
restores (`Restores`) they do again what they did the first time (`FirstRun`), and if none of them is parked when it is
restarted the same tasks are parked in the end (`parked_of_replay`).

`parked_as_incarnations` puts together what is known of the flag of a token over the runs of both schedulers. A task that
has not parked is parked all the same once its last incarnation was terminated while it was (`restarted_parked`).
-/

namespace Ltest.Tla

open Program

variable {σ κ α ν ς ρ τ : Type} [Inhabited ν]

/-- Tasks see the memory through `state`, which leaves out the tokens, and `Reset` restores it. -/
structure Restores {T : Target σ κ ν} {cancel : σ → σ} (use : Parking T cancel) (state : σ → τ) : Prop where
  run : ∀ ctx m m', state m = state m' → (T.run ctx m).1 = (T.run ctx m').1 ∧
    state (T.run ctx m).2 = state (T.run ctx m').2 ∧ use.parks ctx m = use.parks ctx m' ∧
    use.unparks ctx m = use.unparks ctx m'
  reset : ∀ m, state (T.reset m) = state T.initial

/-- The steps of these frames, taken for the first time. -/
inductive FirstRun (T : Target σ κ ν) : List Frame → World σ κ α ν → Prop
  | nil {w : World σ κ α ν} : w.memory = T.initial → (∀ tasks ∈ w.threads, tasks = []) → FirstRun T [] w
  | start {frames : List Frame} {w w' : World σ κ α ν} {i : Nat} {tasks : List (Coro κ α ν)} {c : Coro κ α ν} :
      FirstRun T frames w → w.threads[i]? = some tasks → c.restart = c → c.isParked T w.memory = false →
      (w.pushTask i c).resume T (i, tasks.length) = .ok w' →
      FirstRun T (frames ++ [⟨some (i, tasks.length), true⟩]) w'
  | resume {frames : List Frame} {w w' : World σ κ α ν} {slot : Slot} : FirstRun T frames w →
      w.resume T slot = .ok w' → FirstRun T (frames ++ [⟨some slot, false⟩]) w'

/-- No task is parked when the loop of `Replay` restarts it. -/
def RestartsCalm (T : Target σ κ ν) (frames : List Frame) (w : World σ κ α ν) : Prop :=
  ∀ pre slot post w₁ c, frames = pre ++ ⟨some slot, true⟩ :: post → replayFrames T pre w = .ok w₁ →
    w₁.task slot = some c → c.isParked T w₁.memory = false

/-- `v` has the tasks of `w` as they are there, parked or not, and the tasks see the same memory. -/
structure Replays (T : Target σ κ ν) (state : σ → τ) (w v : World σ κ α ν) : Prop where
  state : state v.memory = state w.memory
  tasks : ∀ slot c, w.task slot = some c → v.task slot = some c ∧ c.isParked T v.memory = c.isParked T w.memory

section Replays

variable {T : Target σ κ ν} {cancel : σ → σ} {use : Parking T cancel} {state : σ → τ} {w w' v v' : World σ κ α ν}
  {slot : Slot}

omit [Inhabited ν] in
/-- Where a task sees the same it does the same. -/
theorem Restores.resume (hs : Restores use state) (c : Coro κ α ν) {m m' : σ} (h : state m = state m') :
    (c.resume T m).1 = (c.resume T m').1 ∧ state (c.resume T m).2.1 = state (c.resume T m').2.1 := by
  obtain ⟨hrun, hstate, -, -⟩ := hs.run c.ctx m m' h
  unfold Coro.resume
  split <;> split <;> simp_all

omit [Inhabited ν] in
/-- The flag of a task after another one, or itself, was resumed. -/
theorem Restores.isParked_resume (hs : Restores use state) (c d : Coro κ α ν) {m m' : σ} (h : state m = state m')
    (hd : d.isParked T m = d.isParked T m') : d.isParked T (c.resume T m).2.1 = d.isParked T (c.resume T m').2.1 := by
  obtain ⟨-, -, hparks, hunparks⟩ := hs.run c.ctx m m' h
  unfold Coro.isParked at hd ⊢
  cases htoken : d.token with
  | none => rfl
  | some t =>
    rw [htoken] at hd
    have hd : T.parked m t = T.parked m' t := hd
    show T.parked _ t = T.parked _ t
    rw [parked_resume use, parked_resume use, hparks, hunparks, hd]

omit [Inhabited ν] in
/-- A task that is resumed in both worlds does the same. -/
theorem Replays.resume (hs : Restores use state) (h : Replays T state w v) (hw : w.resume T slot = .ok w')
    (hv : v.resume T slot = .ok v') : Replays T state w' v' := by
  obtain ⟨c, hc, -, rfl⟩ := World.resume_eq_ok.1 hw
  obtain ⟨d, hd, -, rfl⟩ := World.resume_eq_ok.1 hv
  obtain rfl := Option.some.inj ((h.tasks slot c hc).1.symm.trans hd)
  obtain ⟨hresume, hstate⟩ := hs.resume c h.state
  refine ⟨hstate, fun slot' c' hc' => ?_⟩
  by_cases hslot : slot' = slot
  · subst hslot
    obtain rfl := Option.some.inj ((World.task_setTask hc).symm.trans hc')
    refine ⟨(World.task_setTask hd).trans (congrArg some hresume), ?_⟩
    have hold := hs.isParked_resume c c h.state (h.tasks slot' c hc).2
    unfold Coro.isParked at hold ⊢
    rwa [token_resume]
  · obtain ⟨hsame, hflag⟩ := h.tasks slot' c' ((World.task_setTask_of_ne hslot).symm.trans hc')
    exact ⟨(World.task_setTask_of_ne hslot).trans hsame, hs.isParked_resume c c' h.state hflag⟩

variable {frames : List Frame}

omit [Inhabited ν] in
theorem replayFrames_append {T : Target σ κ ν} [Inhabited ν] : ∀ (pre post : List Frame) (w : World σ κ α ν),
    replayFrames T (pre ++ post) w = replayFrames T pre w >>= replayFrames T post
  | [], post, w => rfl
  | frame :: pre, post, w => by
    rw [List.cons_append, replayFrames, replayFrames]
    cases replayFrame T frame w with
    | error e => rfl
    | ok w₁ => exact replayFrames_append pre post w₁

/-- The last frame is replayed after the others. -/
theorem replayFrames_concat {frame : Frame} (h : replayFrames T (frames ++ [frame]) w = .ok w') :
    ∃ w₁, replayFrames T frames w = .ok w₁ ∧ replayFrame T frame w₁ = .ok w' := by
  rw [replayFrames_append] at h
  obtain ⟨w₁, hw₁, h⟩ := bind_eq_ok.1 h
  obtain ⟨w₂, hw₂, h⟩ := bind_eq_ok.1 h
  cases h
  exact ⟨w₁, hw₁, hw₂⟩

theorem RestartsCalm.of_append {post : List Frame} (h : RestartsCalm T (frames ++ post) w) : RestartsCalm T frames w := by
  rintro pre slot rest w₁ c rfl hw₁ hc
  exact h pre slot (rest ++ post) w₁ c (by simp) hw₁ hc

/-- The tasks of `w` are there in `v`, whatever has become of them. -/
def Covers (w v : World σ κ α ν) : Prop :=
  ∀ slot c, w.task slot = some c → ∃ d, v.task slot = some d ∧ d.restart = c.restart

theorem covers_of_alike (h : Alike w v) : Covers w v := by
  intro slot c hc
  have hmap := task_map h slot
  rw [hc] at hmap
  exact Option.map_eq_some_iff.1 hmap

theorem Covers.trans {u : World σ κ α ν} (h : Covers w v) (h' : Covers v u) : Covers w u := by
  intro slot c hc
  obtain ⟨d, hd, heq⟩ := h slot c hc
  obtain ⟨e, he, heq'⟩ := h' slot d hd
  exact ⟨e, he, heq'.trans heq⟩

theorem covers_pushTask {i : Nat} {tasks : List (Coro κ α ν)} (h : w.threads[i]? = some tasks) (c : Coro κ α ν) :
    Covers w (w.pushTask i c) := by
  intro slot d hd
  refine ⟨d, ?_, rfl⟩
  rw [task_pushTask h, if_neg, hd]
  rintro rfl
  obtain ⟨tasks', htasks', hj⟩ := World.task_eq_some.1 hd
  cases h.symm.trans htasks'
  exact absurd (List.getElem?_eq_some_iff.1 hj).1 (Nat.lt_irrefl _)

/-- **`Replay` leaves the tasks as they were after the steps were taken for the first time.** -/
theorem FirstRun.replays (hs : Restores use state) (h : FirstRun T frames w) : ∀ {v₀ v : World σ κ α ν},
    state v₀.memory = state T.initial → Covers w v₀ → RestartsCalm T frames v₀ → replayFrames T frames v₀ = .ok v →
    Replays T state w v := by
  induction h with
  | nil hmemory hempty =>
    intro v₀ v hv₀ _ _ hreplay
    cases hreplay
    refine ⟨by rw [hv₀, hmemory], fun slot c hc => ?_⟩
    rw [World.task_of_empty hempty] at hc
    cases hc
  | @start frames w w' i tasks c hfirst hthread hnew hcalm hresume ih =>
    intro v₀ v hv₀ hcovers hrestarts hreplay
    have hpush : (w.pushTask i c).task (i, tasks.length) = some c := by rw [task_pushTask hthread, if_pos rfl]
    have hthere : Covers (w.pushTask i c) v₀ := (covers_of_alike (alike_resume hresume)).trans hcovers
    obtain ⟨v₁, hv₁, hframe⟩ := replayFrames_concat hreplay
    obtain ⟨hstate, htasks⟩ := ih hv₀ ((covers_pushTask hthread c).trans hthere) hrestarts.of_append hv₁
    obtain ⟨v₂, hv₂, hresume'⟩ := bind_eq_ok.1 hframe
    obtain ⟨d, hd, -, rfl⟩ := World.restart_eq_ok.1 hv₂
    -- the task is restarted as it was built, and its token is not parked in either world
    have halike : Alike v₀ v₁ := replayFrames_rule (I := Alike v₀) (fun _ _ _ ha h => (alike_resume h).trans ha)
      (fun _ _ _ ha h => (alike_restart h).trans ha) frames rfl hv₁
    obtain ⟨d', hd', heq⟩ := (hthere.trans (covers_of_alike halike)) _ _ hpush
    obtain rfl := Option.some.inj (hd.symm.trans hd')
    have hnot := hrestarts frames _ [] v₁ d rfl hv₁ hd
    have heq : d.restart = c := heq.trans hnew
    rw [heq] at hresume'
    have hrestarted : Replays T state (w.pushTask i c) (v₁.setTask (i, tasks.length) c) := by
      refine ⟨hstate, fun slot c' hc' => ?_⟩
      rw [task_pushTask hthread] at hc'
      split at hc'
      · rename_i hslot
        cases hc'
        subst hslot
        refine ⟨World.task_setTask hd, ?_⟩
        show c.isParked T v₁.memory = c.isParked T w.memory
        rw [hcalm, ← heq]
        exact hnot
      · rename_i hslot
        obtain ⟨hsame, hflag⟩ := htasks slot c' hc'
        exact ⟨(World.task_setTask_of_ne hslot).trans hsame, hflag⟩
    exact hrestarted.resume hs hresume hresume'
  | @resume frames w w' slot hfirst hresume ih =>
    intro v₀ v hv₀ hcovers hrestarts hreplay
    obtain ⟨v₁, hv₁, hframe⟩ := replayFrames_concat hreplay
    have hthere := (covers_of_alike (alike_resume hresume)).trans hcovers
    exact (ih hv₀ hthere hrestarts.of_append hv₁).resume hs hresume hframe

end Replays

/-! ## Both schedulers -/

/-- The flags of the tokens, and the tokens of the tasks that wait. -/
structure MeetingPlace where
  parked : List Nat
  waiters : List Nat
  deriving DecidableEq

/-- All tasks that wait are unparked. -/
def MeetingPlace.wake (m : MeetingPlace) : MeetingPlace := ⟨m.parked.filter fun t => !m.waiters.contains t, []⟩

/-- A task parks and waits. -/
def MeetingPlace.wait (m : MeetingPlace) (t : Nat) : MeetingPlace := ⟨t :: m.parked, t :: m.waiters⟩

/-- Where a task is: `Meet` yields, waits unless somebody else does, and wakes whoever else waits; `Call` wakes whoever
waits, and waits. -/
inductive Meeting where
  | approach (token : Nat)
  | meet (token : Nat)
  | leave (token : Nat)
  | call (token : Nat)
  | answered (token : Nat)
  deriving DecidableEq

/-- The token of a task. -/
def Meeting.token : Meeting → Nat
  | .approach t | .meet t | .leave t | .call t | .answered t => t

end Ltest.Tla
