import Ltest.Strategy.Points

/-!
# Where the yields stand

Which instructions of a method are followed by a yield is up to the compiler. A target is written with a yield after every
access to shared memory; `Target.burst` leaves out some of these yields, and `Target.delayed` adds others before an access.
What the steps of a generated round keep with the first they keep with the others (`RoundRule.burst`, `RoundRule.delayed`).
-/

namespace Ltest

open Program

variable {σ κ κ' α ν ρ β Q : Type}

/-! ## Fewer yields -/

/-- What a task does up to a yield that is not skipped, for at most `n` skipped ones. -/
def burstRun (run : κ → σ → Suspension κ ν × σ) (skips : κ → Bool) : Nat → κ → σ → Suspension κ ν × σ
  | 0, ctx, m => run ctx m
  | n + 1, ctx, m =>
    match run ctx m with
    | (.yield ctx', m') => if skips ctx' then burstRun run skips n ctx' m' else (.yield ctx', m')
    | r => r

/-- The target without the yields that `skips` tells, up to `n` of them in a row. -/
def Target.burst (T : Target σ κ ν) (skips : κ → Bool) (n : Nat) : Target σ κ ν :=
  { T with run := burstRun T.run skips n }

/-- What a task was doing when it returned does not matter. -/
def ForgetsContexts (I : World σ κ α ν → ρ → List (HistoryEvent Slot ν) → Prop) : Prop :=
  ∀ ⦃w g seq i before c⦄ (ctx : κ), I w g seq → w.threads[i]? = some (before ++ [c]) → c.isReturned = true →
    I { w with threads := w.threads.set i (before ++ [{ c with ctx := ctx }]) } g seq

/-- With linearization points it does not matter either. -/
theorem ForgetsContexts.linearized [Inhabited α] [Inhabited ν] {K : World σ κ α ν → ρ → List (HistoryEvent Slot ν) → Prop}
    {spec : Specification β α ν} {effect : κ → Option ν} {Abs : World σ κ α ν → β → Prop} (hK : ForgetsContexts K)
    (habs : ∀ {w : World σ κ α ν} {i before c s} (ctx : κ), w.threads[i]? = some (before ++ [c]) → c.isReturned = true →
      Abs w s → Abs { w with threads := w.threads.set i (before ++ [{ c with ctx := ctx }]) } s) :
    ForgetsContexts fun w (g : ρ) seq => K w g seq ∧ Linearized spec effect Abs w seq := by
  intro w g seq i before c ctx h hi hr
  refine ⟨hK ctx h.1 hi hr, ?_⟩
  have habs' := fun s (hs : Abs w s) => habs ctx hi hr hs
  have hset : w.setTask (i, before.length) { c with ctx := ctx } =
      { w with threads := w.threads.set i (before ++ [{ c with ctx := ctx }]) } := by
    unfold World.setTask
    rw [modify_threads hi, List.set_append_right _ _ (Nat.le_refl _), Nat.sub_self, List.set_cons_zero]
  have htask : w.task (i, before.length) = some c := World.task_eq_some.2 ⟨_, hi, by simp⟩
  rw [← hset] at habs' ⊢
  refine h.2.setTask htask rfl rfl rfl ?_ habs'
  unfold Coro.taken
  rw [if_pos hr, if_pos hr]

/-- Nor if the invariant only holds for some numbers of threads. -/
theorem ForgetsContexts.within {I : World σ κ α ν → ρ → List (HistoryEvent Slot ν) → Prop} (hI : ForgetsContexts I)
    (p : Nat → Prop) : ForgetsContexts fun w g seq => p w.threads.length → I w g seq := by
  intro w g seq i before c ctx h hi hr hp
  exact hI ctx (h (by simpa using hp)) hi hr

/-- The first access of a burst is an ordinary one, or the burst goes on after its yield. -/
theorem run_burst (T : Target σ κ ν) (skips : κ → Bool) (n : Nat) (ctx : κ) (m : σ) :
    (T.burst skips (n + 1)).run ctx m = T.run ctx m ∨ ∃ ctx' m', T.run ctx m = (.yield ctx', m') ∧
      skips ctx' = true ∧ (T.burst skips (n + 1)).run ctx m = (T.burst skips n).run ctx' m' := by
  show burstRun T.run skips (n + 1) ctx m = _ ∨ _
  rw [burstRun]
  split
  · rename_i ctx' m' heq
    split
    · rename_i hskips
      exact .inr ⟨ctx', m', heq, hskips, by simp [Target.burst, burstRun, *]⟩
    · exact .inl heq.symm
  · exact .inl rfl

/-- A resume only depends on what is run. -/
theorem resume_congr {T T' : Target σ κ ν} {c : Coro κ α ν} {ctx : κ} {m m' : σ} (h : T.run c.ctx m = T'.run ctx m') :
    c.resume T m = (({ c with ctx := ctx } : Coro κ α ν).resume T' m') ∨
    (c.resume T m).1.isReturned = true ∧ (({ c with ctx := ctx } : Coro κ α ν).resume T' m').1.isReturned = true ∧
      c.resume T m = ({ (({ c with ctx := ctx } : Coro κ α ν).resume T' m').1 with ctx := c.ctx },
        (({ c with ctx := ctx } : Coro κ α ν).resume T' m').2) := by
  unfold Coro.resume
  dsimp only
  rw [h]
  rcases T'.run ctx m' with ⟨susp, m''⟩
  cases susp with
  | returned v => exact .inr ⟨rfl, rfl, rfl⟩
  | yield ctx' => exact .inl rfl
  | status st ctx' => exact .inl rfl
  | blocked addr value ctx' => exact .inl rfl

/-- **Leaving out yields** adds nothing that a round could not have done with them, if a task is not parked at a yield that
is left out. -/
theorem RoundRule.burst [Inhabited ν] {T : Target σ κ ν} {admits : World σ κ α ν → Nat → TaskBuilder σ κ α ρ → Prop}
    {I : World σ κ α ν → ρ → List (HistoryEvent Slot ν) → Prop} (h : RoundRule T admits I) (hI : ForgetsContexts I)
    {skips : κ → Bool} (hskips : ∀ {w g seq} {i : Nat} {before c}, I w g seq → w.threads[i]? = some (before ++ [c]) →
      c.isReturned = false → skips c.ctx = true → c.isParked T w.memory = false)
    (n : Nat) : RoundRule (T.burst skips n) admits I where
  start := h.start
  ask slot hI := h.ask slot hI
  build id hI hi hlast hb := h.build id hI hi hlast hb
  resume {w g seq i before c c' m status} h₀ hi hr hf hrun := by
    induction n generalizing w c c' with
    | zero => exact h.resume h₀ hi hr hf hrun
    | succ n ih =>
      obtain heq | ⟨ctx, m', hyield, hskip, heq⟩ := run_burst T skips n c.ctx w.memory
      · refine h.resume h₀ hi hr ⟨hf.rested, hf.unparked⟩ ?_
        rw [← hrun]
        unfold Coro.resume
        rw [heq]
      · have hlt := (List.getElem?_eq_some_iff.1 hi).1
        have hfirst : c.resume T w.memory = ({ c with ctx := ctx }, m', none) := by
          unfold Coro.resume
          rw [hyield]
        have hnone : ({ c with ctx := ctx } : Coro κ α ν).answer (i, before.length) = [] := if_neg (by simp [hr])
        have h₁ := h.resume h₀ hi hr ⟨hf.rested, hf.unparked⟩ hfirst
        rw [hnone, List.append_nil, Option.none_or] at h₁
        have hready : ({ c with ctx := ctx } : Coro κ α ν).Ready (T.burst skips n) m' :=
          ⟨hf.rested, .inl (hskips h₁ (List.getElem?_set_self hlt) hr hskip)⟩
        have hthen : ∀ {c' : Coro κ α ν},
            (({ c with ctx := ctx } : Coro κ α ν).resume (T.burst skips n) m') = (c', m, status) →
            I ⟨m, w.threads.set i (before ++ [c']), status.or w.coroutineStatus⟩ g
              (seq ++ c'.answer (i, before.length)) := by
          intro c' hrun
          have h₂ := ih h₁ (List.getElem?_set_self hlt) hr hready hrun
          rwa [List.set_set] at h₂
        obtain hsame | ⟨-, hret, hsame⟩ := resume_congr (T := T.burst skips (n + 1)) (c := c) heq
        · have hrun' := hsame.symm.trans hrun
          obtain ⟨rfl, -⟩ := Prod.ext_iff.1 hrun'
          exact hthen hrun'
        · -- the task has returned, and its context is where the burst began
          have hrun' := hsame.symm.trans hrun
          obtain ⟨rfl, hrest⟩ := Prod.ext_iff.1 hrun'
          have hdone := hI c.ctx (hthen (Prod.ext rfl hrest)) (List.getElem?_set_self (by simpa using hlt)) hret
          rwa [List.set_set] at hdone

/-! ## More yields -/

/-- What a suspended task goes on with is written differently. -/
def Suspension.mapCtx (f : κ → κ') : Suspension κ ν → Suspension κ' ν
  | .returned v => .returned v
  | .yield ctx => .yield (f ctx)
  | .status st ctx => .status st (f ctx)
  | .blocked addr value ctx => .blocked addr value (f ctx)

/-- What a task does that yields some more times before an access. -/
def delayedRun (run : κ → σ → Suspension κ ν × σ) (delay : κ → Nat) : κ × Nat → σ → Suspension (κ × Nat) ν × σ
  | (ctx, n + 1), m => (.yield (ctx, n), m)
  | (ctx, 0), m => ((run ctx m).1.mapCtx fun ctx => (ctx, delay ctx), (run ctx m).2)

/-- The target with `delay` more yields before each access. -/
def Target.delayed (T : Target σ κ ν) (delay : κ → Nat) : Target σ (κ × Nat) ν :=
  { T with run := delayedRun T.run delay }

def Coro.mapCtx (f : κ → κ') (c : Coro κ α ν) : Coro κ' α ν := { c with func := f c.func, ctx := f c.ctx }

def World.mapCtx (f : κ → κ') (w : World σ κ α ν) : World σ κ' α ν :=
  ⟨w.memory, w.threads.map (·.map (Coro.mapCtx f)), w.coroutineStatus⟩

def TaskBuilder.mapCtx (f : κ → κ') (b : TaskBuilder σ κ α ρ) : TaskBuilder σ κ' α ρ where
  name := b.name
  gen m i g := (((b.gen m i g).1.1, f (b.gen m i g).1.2.1, (b.gen m i g).1.2.2), (b.gen m i g).2)

section MapCtx

/-- A change of one entry, seen through a map. -/
theorem map_modify {A B : Type} {f : A → B} {g : A → A} {k : B → B} (h : ∀ a, f (g a) = k (f a)) (l : List A) (i : Nat) :
    (l.modify i g).map f = (l.map f).modify i k := by
  refine List.ext_getElem? fun j => ?_
  rw [List.getElem?_map, List.getElem?_modify, List.getElem?_modify, List.getElem?_map]
  split <;> simp [Function.comp_def, h]

variable (f : κ → κ') (w : World σ κ α ν)

theorem threads_mapCtx (i : Nat) : (w.mapCtx f).threads[i]? = w.threads[i]?.map (·.map (Coro.mapCtx f)) := by
  simp [World.mapCtx]

theorem task_mapCtx (slot : Slot) : (w.mapCtx f).task slot = (w.task slot).map (Coro.mapCtx f) := by
  unfold World.task
  rw [threads_mapCtx]
  cases w.threads[slot.1]? <;> simp

/-- A checker sees the same tasks. -/
theorem resolve_mapCtx (seq : List (HistoryEvent Slot ν)) : (w.mapCtx f).resolve seq = w.resolve seq := by
  have hview : (fun slot => (slot, ((w.mapCtx f).task slot).map Coro.view)) =
      fun slot => (slot, (w.task slot).map Coro.view) := by
    funext slot
    rw [task_mapCtx, Option.map_map]
    rfl
  unfold World.resolve
  rw [hview]

theorem names_mapCtx (i : Nat) : (w.mapCtx f).names i = w.names i := by
  unfold World.names
  rw [threads_mapCtx]
  cases w.threads[i]? <;> simp [Coro.mapCtx]

theorem lastTask_mapCtx (i : Nat) : (w.mapCtx f).lastTask i = (w.lastTask i).map (Coro.mapCtx f) := by
  unfold World.lastTask
  rw [threads_mapCtx]
  cases w.threads[i]? <;> simp

theorem lastTask_mapCtx_some {i : Nat} {c : Coro κ α ν} (hc : w.lastTask i = some c) :
    (w.mapCtx f).lastTask i = some (c.mapCtx f) := by
  rw [lastTask_mapCtx, hc, Option.map_some]

/-- A protocol allows the same tasks. -/
theorem Allows.mapCtx {P : Protocol Q String} {builders : TaskBuilder σ κ' α ρ → Prop} {i : Nat} {b : TaskBuilder σ κ α ρ}
    (h : Allows P (fun b => builders (b.mapCtx f)) w i b) : Allows P builders (w.mapCtx f) i (b.mapCtx f) := by
  refine ⟨h.1, ?_⟩
  rw [names_mapCtx]
  exact h.2

theorem setTask_mapCtx (slot : Slot) (c : Coro κ α ν) :
    (w.setTask slot c).mapCtx f = (w.mapCtx f).setTask slot (c.mapCtx f) := by
  have hset : ∀ tasks : List (Coro κ α ν), (tasks.set slot.2 c).map (Coro.mapCtx f) =
      (tasks.map (Coro.mapCtx f)).set slot.2 (c.mapCtx f) := fun tasks => List.map_set
  unfold World.mapCtx World.setTask
  rw [map_modify (k := fun tasks => tasks.set slot.2 (c.mapCtx f)) hset]

theorem pushTask_mapCtx (i : Nat) (c : Coro κ α ν) : (w.pushTask i c).mapCtx f = (w.mapCtx f).pushTask i (c.mapCtx f) := by
  have hpush : ∀ tasks : List (Coro κ α ν), (tasks ++ [c]).map (Coro.mapCtx f) =
      tasks.map (Coro.mapCtx f) ++ [c.mapCtx f] := fun tasks => List.map_append
  unfold World.mapCtx World.pushTask
  rw [map_modify (k := fun tasks => tasks ++ [c.mapCtx f]) hpush]

theorem build_mapCtx [Inhabited ν] (b : TaskBuilder σ κ α ρ) (m : σ) (i : Nat) (id : Int) (g : ρ) :
    ((b.mapCtx f).build m i id g : Coro κ' α ν × ρ) =
      ((b.build m i id g : Coro κ α ν × ρ).1.mapCtx f, (b.build m i id g : Coro κ α ν × ρ).2) := rfl

end MapCtx

/-- **More yields** add nothing that a round could not have done without them. -/
theorem RoundRule.delayed [Inhabited ν] {T : Target σ κ ν} {admits : World σ κ α ν → Nat → TaskBuilder σ κ α ρ → Prop}
    {I : World σ κ α ν → ρ → List (HistoryEvent Slot ν) → Prop} (h : RoundRule T admits I) (delay : κ → Nat) :
    RoundRule (T.delayed delay) (fun w i b => admits (w.mapCtx Prod.fst) i (b.mapCtx Prod.fst))
      fun w g seq => I (w.mapCtx Prod.fst) g seq where
  start {w g} hempty hmemory := by
    refine h.start (fun tasks htasks => ?_) hmemory
    obtain ⟨tasks', htasks', rfl⟩ := List.mem_map.1 htasks
    rw [hempty tasks' htasks', List.map_nil]
  ask {w g seq} slot hI := by
    have hask : (w.askBlocked (T.delayed delay) slot).mapCtx Prod.fst = (w.mapCtx Prod.fst).askBlocked T slot := by
      unfold World.askBlocked
      rw [task_mapCtx]
      cases hc : w.task slot with
      | none => rfl
      | some c =>
        dsimp only [Option.map_some]
        rw [apply_ite (World.mapCtx Prod.fst), setTask_mapCtx]
        rfl
    rw [hask]
    exact h.ask slot hI
  build {w g seq i tasks b} id hI hi hlast hb := by
    have hi' : (w.mapCtx Prod.fst).threads[i]? = some (tasks.map (Coro.mapCtx Prod.fst)) := by
      rw [threads_mapCtx, hi, Option.map_some]
    have hbuilt := h.build id hI hi' (fun c hc => ?_) hb
    · rw [build_mapCtx, List.length_map, ← pushTask_mapCtx] at hbuilt
      exact hbuilt
    · rw [List.getLast?_map, Option.mem_map] at hc
      obtain ⟨d, hd, rfl⟩ := hc
      exact hlast d hd
  resume {w g seq i before c c' m status} hI hi hr hready hrun := by
    have hi' : (w.mapCtx Prod.fst).threads[i]? = some (before.map (Coro.mapCtx Prod.fst) ++ [c.mapCtx Prod.fst]) := by
      rw [threads_mapCtx, hi, Option.map_some, List.map_append, List.map_singleton]
    have hset :
        (⟨m, w.threads.set i (before ++ [c']), status.or w.coroutineStatus⟩ : World σ (κ × Nat) α ν).mapCtx Prod.fst =
        ⟨m, (w.mapCtx Prod.fst).threads.set i (before.map (Coro.mapCtx Prod.fst) ++ [c'.mapCtx Prod.fst]),
          status.or w.coroutineStatus⟩ := by
      simp [World.mapCtx, List.map_set]
    rw [hset]
    rcases hctx : c.ctx with ⟨ctx, n⟩
    cases n with
    | succ n =>
      have hsame : c.resume (T.delayed delay) w.memory = ({ c with ctx := (ctx, n) }, w.memory, none) := by
        unfold Coro.resume Target.delayed
        dsimp only
        rw [hctx]
        rfl
      obtain ⟨rfl, hrest⟩ := Prod.ext_iff.1 (hsame.symm.trans hrun)
      obtain ⟨rfl, rfl⟩ := Prod.ext_iff.1 hrest
      have hmap : ({ c with ctx := (ctx, n) } : Coro (κ × Nat) α ν).mapCtx Prod.fst = c.mapCtx Prod.fst := by
        unfold Coro.mapCtx
        dsimp only
        rw [hctx]
      rw [hmap, set_self hi', Coro.answer, if_neg (by simp [hr]), List.append_nil]
      exact hI
    | zero =>
      have hrun' : (c.mapCtx Prod.fst).resume T w.memory = (c'.mapCtx Prod.fst, m, status) := by
        have hdelayed : (T.delayed delay).run c.ctx w.memory =
            ((T.run ctx w.memory).1.mapCtx fun ctx => (ctx, delay ctx), (T.run ctx w.memory).2) := by
          rw [hctx]
          rfl
        unfold Coro.resume at hrun ⊢
        rw [hdelayed] at hrun
        rw [show (c.mapCtx Prod.fst).ctx = ctx from congrArg Prod.fst hctx]
        generalize T.run ctx w.memory = r at hrun ⊢
        rcases r with ⟨susp, m'⟩
        cases susp <;>
        · cases hrun
          simp [Coro.mapCtx, hctx]
      have hready' : (c.mapCtx Prod.fst).Ready T w.memory := ⟨hready.rested, hready.unparked.imp_right (congrArg Prod.fst)⟩
      have hresumed := h.resume hI hi' hr hready' hrun'
      rw [List.length_map] at hresumed
      exact hresumed

/-- A target with its yields where the compiler has put them: `skips` tells which are left out, at most `n` in a row, and
`delay` how many others stand before an access. -/
def Target.compiled (T : Target σ κ ν) (skips : κ → Bool) (n : Nat) (delay : κ → Nat) : Target σ (κ × Nat) ν :=
  (T.burst skips n).delayed delay

/-- **Wherever the yields stand**, a round keeps what it keeps with a yield after every access. -/
theorem RoundRule.compiled [Inhabited ν] {T : Target σ κ ν} {admits : World σ κ α ν → Nat → TaskBuilder σ κ α ρ → Prop}
    {I : World σ κ α ν → ρ → List (HistoryEvent Slot ν) → Prop} (h : RoundRule T admits I) (hI : ForgetsContexts I)
    {skips : κ → Bool} (hskips : ∀ {w g seq} {i : Nat} {before c}, I w g seq → w.threads[i]? = some (before ++ [c]) →
      c.isReturned = false → skips c.ctx = true → c.isParked T w.memory = false) (n : Nat) (delay : κ → Nat) :
    RoundRule (T.compiled skips n delay) (fun w i b => admits (w.mapCtx Prod.fst) i (b.mapCtx Prod.fst))
      fun w g seq => I (w.mapCtx Prod.fst) g seq :=
  (h.burst hI hskips n).delayed delay

end Ltest
