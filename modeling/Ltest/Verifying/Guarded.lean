import Ltest.Verifying.Tested

/-!
# Objects behind a mutex of tokens (`lib/mutex.h`)

A task that finds the mutex locked parks its token, and the task that unlocks it unparks the next one. Between `Lock` and
`Unlock` a task does what it likes to the object, in as many steps as it likes; if one task after the other would do what
the specification says (`Implements`), tasks that take turns do so as well (`guarded_never_reported`).
-/

namespace Ltest

open Program

/-! ## The mutex -/

/-- `Mutex`, with the tokens that are parked. -/
structure TokenMutex where
  waiters : List Nat
  parked : List Nat

namespace TokenMutex

/-- `Lock`, up to the yield of `Park` if the token is parked. -/
def lock (m : TokenMutex) (token : Nat) : Bool × TokenMutex :=
  let waiters := m.waiters ++ [token]
  if waiters.length = 1 then (false, ⟨waiters, m.parked⟩) else (true, ⟨waiters, token :: m.parked⟩)

/-- `Unlock`. An assertion says that there is a waiter. -/
def unlock (m : TokenMutex) : TokenMutex :=
  match m.waiters.tail with
  | [] => ⟨[], m.parked⟩
  | front :: waiters => ⟨front :: waiters, m.parked.filter (· ≠ front)⟩

/-- `std::make_shared<Token>()`: a token that has not been used before and is not parked. -/
def newToken (m : TokenMutex) (next : Nat) : Nat := m.parked.foldl (fun t p => max t (p + 1)) next

/-- The token is parked if it waits for others. -/
def Flagged (m : TokenMutex) (token : Nat) : Prop := token ∈ m.parked ↔ token ∈ m.waiters.tail

variable {m : TokenMutex} {t t' : Nat}

theorem lock_free (h : m.waiters = []) : m.lock t = (false, ⟨[t], m.parked⟩) := by
  unfold lock
  rw [h]
  rfl

theorem lock_taken (h : m.waiters ≠ []) : m.lock t = (true, ⟨m.waiters ++ [t], t :: m.parked⟩) := by
  unfold lock
  exact if_neg (by simpa using h)

theorem newToken_spec (m : TokenMutex) (next : Nat) : next ≤ m.newToken next ∧ m.newToken next ∉ m.parked := by
  have hfold : ∀ (parked : List Nat) (next : Nat), next ≤ parked.foldl (fun t p => max t (p + 1)) next ∧
      ∀ p ∈ parked, p < parked.foldl (fun t p => max t (p + 1)) next := by
    intro parked
    induction parked with
    | nil => exact fun next => ⟨Nat.le_refl _, fun p hp => by cases hp⟩
    | cons q parked ih =>
      intro next
      obtain ⟨hle, hlt⟩ := ih (max next (q + 1))
      rw [List.foldl_cons]
      refine ⟨by omega, fun p hp => ?_⟩
      obtain rfl | hp := List.mem_cons.1 hp
      · omega
      · exact hlt p hp
  obtain ⟨hle, hlt⟩ := hfold m.parked next
  exact ⟨hle, fun hmem => Nat.lt_irrefl _ (hlt _ hmem)⟩

/-- Another token is put in the queue. -/
theorem Flagged.lock (h : m.Flagged t) (ht : t ≠ t') : (m.lock t').2.Flagged t := by
  unfold Flagged at h ⊢
  by_cases hfree : m.waiters = []
  · rw [lock_free hfree]
    rw [hfree] at h
    exact h
  · obtain ⟨front, waiters, hwaiters⟩ := List.exists_cons_of_ne_nil hfree
    rw [lock_taken hfree]
    rw [hwaiters] at h ⊢
    simpa [ht] using h

/-- The token itself is. -/
theorem flagged_lock (hfresh : t ∉ m.parked) : (m.lock t).2.Flagged t := by
  unfold Flagged
  by_cases hfree : m.waiters = []
  · rw [lock_free hfree]
    simpa using hfresh
  · obtain ⟨front, waiters, hwaiters⟩ := List.exists_cons_of_ne_nil hfree
    rw [lock_taken hfree, hwaiters]
    simp

theorem waiters_lock : (m.lock t).2.waiters = m.waiters ++ [t] := by
  unfold lock
  dsimp only
  split <;> rfl

theorem waiters_unlock : m.unlock.waiters = m.waiters.tail := by
  unfold unlock
  split
  · rename_i h
    exact h.symm
  · rename_i h
    exact h.symm

/-- The first token is taken out of the queue. -/
theorem Flagged.unlock (h : m.Flagged t) (hnodup : m.waiters.Nodup) : m.unlock.Flagged t := by
  unfold Flagged at h ⊢
  rw [waiters_unlock]
  unfold TokenMutex.unlock
  split
  · rename_i hlast
    rw [hlast] at h ⊢
    exact h
  · rename_i front waiters hwaiters
    have hfront : front ∉ waiters := by
      have htail := hnodup.tail
      rw [hwaiters] at htail
      exact (List.nodup_cons.1 htail).1
    rw [hwaiters] at h ⊢
    by_cases ht : t = front
    · subst ht
      simp [hfront]
    · simpa [ht] using h

end TokenMutex

/-! ## The object -/

/-- What is done to an object between `Lock` and `Unlock`: a step goes on or has the result. -/
structure Critical (σ κ ν : Type) where
  initial : σ
  reset : σ → σ
  step : κ → σ → (κ ⊕ ν) × σ

/-- One task after the other does what the specification says: `R` relates the object to the state of the specification
between two tasks, and `Mid` in the middle of one. -/
structure Implements {σ κ α ν β : Type} (O : Critical σ κ ν) (spec : Specification β α ν) (enters : String → α → κ → Prop)
    (R : σ → β → Prop) (Mid : String → α → β → κ → σ → Prop) : Prop where
  initial : R O.initial spec.firstState
  reset : ∀ m, R (O.reset m) spec.firstState
  named : ∀ {name args ctx}, enters name args ctx → (spec.methods name).isSome
  enter : ∀ {name args ctx m s}, enters name args ctx → R m s → Mid name args s ctx m
  work : ∀ {name args s ctx m ctx' m'}, Mid name args s ctx m → O.step ctx m = (.inl ctx', m') → Mid name args s ctx' m'
  leave : ∀ {name args s ctx m v m'}, Mid name args s ctx m → O.step ctx m = (.inr v, m') →
    ∃ method, spec.methods name = some method ∧ v = (method s args).1 ∧ R m' (method s args).2

namespace Guarded

/-- Where a task is: before `Lock`, in `Park`, between `Lock` and `Unlock`, before `Unlock` or after it. -/
inductive Point (κ ν : Type) where
  | lock (token : Nat) (ctx : κ)
  | wait (ctx : κ)
  | inside (ctx : κ)
  | unlock (ret : ν)
  | done (ret : ν)

variable {σ κ α ν ρ β : Type}

/-- The methods of an object that is locked for each of them. -/
def body (O : Critical σ κ ν) : Point κ ν → TokenMutex × σ → Suspension (Point κ ν) ν × (TokenMutex × σ)
  | .lock token ctx, (mutex, m) =>
    let (parks, mutex) := mutex.lock token
    (.yield (if parks then .wait ctx else .inside ctx), (mutex, m))
  | .wait ctx, m => (.yield (.inside ctx), m)
  | .inside ctx, (mutex, m) =>
    match O.step ctx m with
    | (.inl ctx, m) => (.yield (.inside ctx), (mutex, m))
    | (.inr v, m) => (.yield (.unlock v), (mutex, m))
  | .unlock v, (mutex, m) => (.yield (.done v), (mutex.unlock, m))
  | .done v, m => (.returned v, m)

/-- The object with its mutex; `Reset` leaves the tokens alone. -/
def target (O : Critical σ κ ν) : Target (TokenMutex × σ) (Point κ ν) ν where
  initial := (⟨[], []⟩, O.initial)
  reset m := (⟨[], m.1.parked⟩, O.reset m.2)
  run := body O
  parked m token := m.1.parked.contains token
  word _ _ := 0

/-- The methods under test make a new token and lock with it. -/
def Methods (enters : String → α → κ → Prop) (b : TaskBuilder (TokenMutex × σ) (Point κ ν) α (Nat × ρ)) : Prop :=
  ∀ m i g, ∃ token ctx, (b.gen m i g).1.2.2 = some token ∧ (b.gen m i g).1.2.1 = .lock token ctx ∧
    enters b.name (b.gen m i g).1.1 ctx ∧ g.1 ≤ token ∧ token ∉ m.1.parked ∧ (b.gen m i g).2.1 = token + 1

namespace Point

/-- The token of the task is in the queue. -/
def queued : Point κ ν → Bool
  | wait _ | inside _ | unlock _ => true
  | _ => false

/-- The task has the mutex. -/
def holds : Point κ ν → Bool
  | inside _ | unlock _ => true
  | _ => false

/-- The result of a task that has taken effect. -/
def effect : Point κ ν → Option ν
  | unlock v | done v => some v
  | _ => none

end Point

/-! ## The invariant -/

/-- What holds of a task with this token; new tokens are from `next` on. -/
structure Fits (enters : String → α → κ → Prop) (m : TokenMutex) (next : Nat) (c : Coro (Point κ ν) α ν) (t : Nat) :
    Prop where
  token : c.token = some t
  used : t < next
  flagged : m.Flagged t
  queued : t ∈ m.waiters ↔ c.isReturned = false ∧ c.ctx.queued = true
  holds : c.isReturned = false → c.ctx.holds = true → m.waiters.head? = some t
  locks : ∀ {t' ctx}, c.isReturned = false → c.ctx = .lock t' ctx → t' = t ∧ enters c.name c.args ctx
  waits : ∀ {ctx}, c.isReturned = false → c.ctx = .wait ctx → enters c.name c.args ctx
  func : ∃ ctx, c.func = .lock t ctx
  rested : c.fstate = none

/-- The queue holds the tokens of the tasks that want the mutex, the first one of the task that has it. -/
structure Inv (enters : String → α → κ → Prop) (w : World (TokenMutex × σ) (Point κ ν) α ν) (g : Nat × ρ) : Prop where
  fits : ∀ {i c}, w.lastTask i = some c → ∃ t, Fits enters w.memory.1 g.1 c t
  distinct : ∀ {i j c d t}, w.lastTask i = some c → w.lastTask j = some d → c.token = some t → d.token = some t → i = j
  nodup : w.memory.1.waiters.Nodup
  owned : ∀ t ∈ w.memory.1.waiters, ∃ i c, w.lastTask i = some c ∧ c.token = some t

/-- What a resume changes. -/
inductive Change (O : Critical σ κ ν) (t : Nat) (c c' : Coro (Point κ ν) α ν) (m m' : TokenMutex × σ) : Prop
  | acquire {ctx : κ} : c.ctx = .lock t ctx → m.1.waiters = [] → c' = { c with ctx := .inside ctx } →
      m' = ((m.1.lock t).2, m.2) → Change O t c c' m m'
  | park {ctx : κ} : c.ctx = .lock t ctx → m.1.waiters ≠ [] → c' = { c with ctx := .wait ctx } →
      m' = ((m.1.lock t).2, m.2) → Change O t c c' m m'
  | wake {ctx : κ} : c.ctx = .wait ctx → m.1.waiters.head? = some t → c' = { c with ctx := .inside ctx } → m' = m →
      Change O t c c' m m'
  | work {ctx ctx' : κ} : c.ctx = .inside ctx → O.step ctx m.2 = (.inl ctx', m'.2) →
      c' = { c with ctx := .inside ctx' } → m'.1 = m.1 → Change O t c c' m m'
  | leave {ctx : κ} {v : ν} : c.ctx = .inside ctx → O.step ctx m.2 = (.inr v, m'.2) →
      c' = { c with ctx := .unlock v } → m'.1 = m.1 → Change O t c c' m m'
  | unlock {v : ν} : c.ctx = .unlock v → c' = { c with ctx := .done v } → m' = (m.1.unlock, m.2) → Change O t c c' m m'
  | finish {v : ν} : c.ctx = .done v → c' = { c with ret := v, isReturned := true } → m' = m → Change O t c c' m m'

variable {O : Critical σ κ ν} {enters : String → α → κ → Prop} {t t' next : Nat} {c c' d : Coro (Point κ ν) α ν}

theorem resume_changes {m m' : TokenMutex × σ} {status : Option CoroutineStatus} (hfits : Fits enters m.1 next c t)
    (hr : c.isReturned = false) (hready : c.Ready (target O) m) (hrun : c.resume (target O) m = (c', m', status)) :
    Change O t c c' m m' := by
  obtain ⟨mutex, o⟩ := m
  unfold Coro.resume at hrun
  rw [show (target O).run c.ctx (mutex, o) = body O c.ctx (mutex, o) from rfl] at hrun
  cases hctx : c.ctx with
  | lock t' ctx =>
    obtain ⟨rfl, -⟩ := hfits.locks hr hctx
    rw [hctx] at hrun
    by_cases hfree : mutex.waiters = []
    · have hlock : body O (.lock t' ctx) (mutex, o) = (.yield (.inside ctx), ((mutex.lock t').2, o)) := by
        simp [body, TokenMutex.lock_free hfree]
      rw [hlock] at hrun
      cases hrun
      exact .acquire hctx hfree rfl rfl
    · have hlock : body O (.lock t' ctx) (mutex, o) = (.yield (.wait ctx), ((mutex.lock t').2, o)) := by
        simp [body, TokenMutex.lock_taken hfree]
      rw [hlock] at hrun
      cases hrun
      exact .park hctx hfree rfl rfl
  | wait ctx =>
    have hunparked : t ∉ mutex.parked := by
      obtain h | h := hready.unparked
      · simpa [Coro.isParked, hfits.token, target] using h
      · obtain ⟨ctx', hfunc⟩ := hfits.func
        rw [hctx, hfunc] at h
        cases h
    have hmem : t ∈ mutex.waiters := hfits.queued.2 ⟨hr, by rw [hctx]; rfl⟩
    have hfront : mutex.waiters.head? = some t := by
      have htail : t ∉ mutex.waiters.tail := fun h => hunparked (hfits.flagged.2 h)
      generalize mutex.waiters = waiters at hmem htail
      cases waiters with
      | nil => cases hmem
      | cons front waiters =>
        obtain rfl | hmem := List.mem_cons.1 hmem
        · rfl
        · exact absurd hmem htail
    rw [hctx] at hrun
    cases hrun
    exact .wake hctx hfront rfl rfl
  | inside ctx =>
    rw [hctx] at hrun
    rcases hstep : O.step ctx o with ⟨next | v, o'⟩
    · have hwork : body O (.inside ctx) (mutex, o) = (.yield (.inside next), (mutex, o')) := by simp [body, hstep]
      rw [hwork] at hrun
      cases hrun
      exact .work hctx hstep rfl rfl
    · have hleave : body O (.inside ctx) (mutex, o) = (.yield (.unlock v), (mutex, o')) := by simp [body, hstep]
      rw [hleave] at hrun
      cases hrun
      exact .leave hctx hstep rfl rfl
  | unlock v =>
    rw [hctx] at hrun
    cases hrun
    exact .unlock hctx rfl rfl
  | done v =>
    rw [hctx] at hrun
    cases hrun
    exact .finish hctx (by rw [hctx]) rfl

/-- A task that does not want the mutex is not in the queue. -/
theorem Fits.not_queued {m : TokenMutex} (h : Fits enters m next c t) (hq : c.ctx.queued = false) : t ∉ m.waiters := by
  intro ht
  rw [(h.queued.1 ht).2] at hq
  cases hq

/-- Another task puts its token in the queue. -/
theorem Fits.lock {m : TokenMutex} (h : Fits enters m next d t) (ht : t ≠ t') : Fits enters (m.lock t').2 next d t where
  token := h.token
  used := h.used
  flagged := h.flagged.lock ht
  queued := by
    rw [TokenMutex.waiters_lock, ← h.queued]
    simp [ht]
  holds hr hholds := by
    have hfront := h.holds hr hholds
    obtain ⟨waiters, hwaiters⟩ := List.head?_eq_some_iff.1 hfront
    rw [TokenMutex.waiters_lock, hwaiters]
    rfl
  locks := h.locks
  waits := h.waits
  func := h.func
  rested := h.rested

/-- Another task takes its token out. -/
theorem Fits.unlock {m : TokenMutex} (h : Fits enters m next d t) (hnodup : m.waiters.Nodup)
    (hfront : m.waiters.head? = some t') (ht : t ≠ t') : Fits enters m.unlock next d t where
  token := h.token
  used := h.used
  flagged := h.flagged.unlock hnodup
  queued := by
    obtain ⟨waiters, hwaiters⟩ := List.head?_eq_some_iff.1 hfront
    rw [TokenMutex.waiters_unlock, ← h.queued, hwaiters]
    simp [ht]
  holds hr hholds := absurd (Option.some.inj ((h.holds hr hholds).symm.trans hfront)) ht
  locks := h.locks
  waits := h.waits
  func := h.func
  rested := h.rested

/-- The task goes on, and the mutex may have changed. -/
theorem Fits.goOn {m m' : TokenMutex} {ctx : Point κ ν} (h : Fits enters m next c t) (hr : c.isReturned = false)
    (hflagged : m'.Flagged t) (hqueued : t ∈ m'.waiters ↔ ctx.queued = true)
    (hholds : ctx.holds = true → m'.waiters.head? = some t) (hlocks : ∀ t' k, ctx ≠ .lock t' k)
    (hwaits : ∀ k, ctx = .wait k → enters c.name c.args k) : Fits enters m' next { c with ctx := ctx } t where
  token := h.token
  used := h.used
  flagged := hflagged
  queued := hqueued.trans (and_iff_right hr).symm
  holds _ := hholds
  locks _ hctx := absurd hctx (hlocks _ _)
  waits _ hctx := hwaits _ hctx
  func := h.func
  rested := h.rested

section Step

variable {w u : World (TokenMutex × σ) (Point κ ν) α ν} {g : Nat × ρ} {i : Nat} {before : List (Coro (Point κ ν) α ν)}

theorem Inv.fits_token (h : Inv enters w g) (hc : w.lastTask i = some c) (htoken : c.token = some t) :
    Fits enters w.memory.1 g.1 c t := by
  obtain ⟨t', hfits⟩ := h.fits hc
  obtain rfl := Option.some.inj (htoken.symm.trans hfits.token)
  exact hfits

/-- **A step keeps the invariant** if it does so with its own token and with the others. -/
theorem Inv.set (h : Inv enters w g) (hi : w.threads[i]? = some (before ++ [c]))
    (hu : u.threads = w.threads.set i (before ++ [c'])) (hfits : Fits enters u.memory.1 g.1 c' t) (hc : c.token = some t)
    (hother : ∀ {d : Coro (Point κ ν) α ν} {t'}, t' ≠ t → Fits enters w.memory.1 g.1 d t' → Fits enters u.memory.1 g.1 d t')
    (hnodup : u.memory.1.waiters.Nodup) (howned : ∀ t' ∈ u.memory.1.waiters, t' = t ∨ t' ∈ w.memory.1.waiters) :
    Inv enters u g := by
  have hlast := lastTask_set hi hu
  have hlastc := lastTask_snoc hi
  refine ⟨fun {j d} hd => ?_, fun {j k d e t'} hd he htoken htoken' => ?_, hnodup, fun t' ht' => ?_⟩
  · rw [hlast] at hd
    split at hd
    · obtain rfl := Option.some.inj hd
      exact ⟨t, hfits⟩
    · rename_i hne
      obtain ⟨t', hfits'⟩ := h.fits hd
      refine ⟨t', hother (fun ht => hne ?_) hfits'⟩
      exact h.distinct hd hlastc hfits'.token (ht ▸ hc)
  · have hbefore : ∀ {j d}, u.lastTask j = some d → d.token = some t' →
        ∃ d', w.lastTask j = some d' ∧ d'.token = some t' := by
      intro j d hd htoken
      rw [hlast] at hd
      split at hd
      · rename_i hji
        obtain rfl := Option.some.inj hd
        exact ⟨c, hji ▸ hlastc, hc.trans (hfits.token.symm.trans htoken)⟩
      · exact ⟨d, hd, htoken⟩
    obtain ⟨d', hd', htoken⟩ := hbefore hd htoken
    obtain ⟨e', he', htoken'⟩ := hbefore he htoken'
    exact h.distinct hd' he' htoken htoken'
  · obtain rfl | ht' := howned t' ht'
    · exact ⟨i, c', by rw [hlast, if_pos rfl], hfits.token⟩
    · obtain ⟨j, d, hd, htoken⟩ := h.owned t' ht'
      by_cases hj : j = i
      · subst hj
        obtain rfl := Option.some.inj (hlastc.symm.trans hd)
        exact ⟨j, c', by rw [hlast, if_pos rfl], hfits.token.trans (hc.symm.trans htoken)⟩
      · exact ⟨j, d, by rw [hlast, if_neg hj]; exact hd, htoken⟩

/-- A step that leaves the mutex alone. -/
theorem Inv.same (h : Inv enters w g) (hi : w.threads[i]? = some (before ++ [c]))
    (hu : u.threads = w.threads.set i (before ++ [c'])) (hm : u.memory.1 = w.memory.1)
    (hfits : Fits enters w.memory.1 g.1 c' t) (hc : c.token = some t) : Inv enters u g :=
  h.set hi hu (hm ▸ hfits) hc (fun _ hd => hm ▸ hd) (hm ▸ h.nodup) fun _ ht' => .inr (hm ▸ ht')

/-- The task puts its token in the queue. -/
theorem Inv.lock {ctx : κ} (h : Inv enters w g) (hi : w.threads[i]? = some (before ++ [c]))
    (hu : u.threads = w.threads.set i (before ++ [c'])) (hfits : Fits enters w.memory.1 g.1 c t)
    (hctx : c.ctx = .lock t ctx) (hm : u.memory.1 = (w.memory.1.lock t).2) (hfits' : Fits enters u.memory.1 g.1 c' t) :
    Inv enters u g := by
  have hnot : t ∉ w.memory.1.waiters := hfits.not_queued (by rw [hctx]; rfl)
  refine h.set hi hu hfits' hfits.token (fun hne hd => hm ▸ hd.lock hne) ?_ fun t' ht' => ?_
  · rw [hm, TokenMutex.waiters_lock]
    exact List.nodup_append.2 ⟨h.nodup, List.nodup_singleton t, fun a ha b hb hab => hnot (by simp_all)⟩
  · rw [hm, TokenMutex.waiters_lock] at ht'
    exact (List.mem_append.1 ht').symm.imp_left List.mem_singleton.1

/-- The task that has the mutex takes its token out. -/
theorem Inv.unlock (h : Inv enters w g) (hi : w.threads[i]? = some (before ++ [c]))
    (hu : u.threads = w.threads.set i (before ++ [c'])) (hc : c.token = some t) (hfront : w.memory.1.waiters.head? = some t)
    (hm : u.memory.1 = w.memory.1.unlock) (hfits' : Fits enters u.memory.1 g.1 c' t) : Inv enters u g := by
  refine h.set hi hu hfits' hc (fun hne hd => hm ▸ hd.unlock h.nodup hfront hne) ?_ fun t' ht' => .inr ?_
  · rw [hm, TokenMutex.waiters_unlock]
    exact h.nodup.tail
  · rw [hm, TokenMutex.waiters_unlock] at ht'
    exact List.mem_of_mem_tail ht'

/-- **A step keeps the invariant.** -/
theorem Inv.step (h : Inv enters w g) (hi : w.threads[i]? = some (before ++ [c])) (hr : c.isReturned = false)
    (hu : u.threads = w.threads.set i (before ++ [c'])) (hfits : Fits enters w.memory.1 g.1 c t)
    (hchange : Change O t c c' w.memory u.memory) : Inv enters u g := by
  have hfresh : ∀ {ctx : κ}, c.ctx = .lock t ctx → t ∉ w.memory.1.parked := fun hctx hp =>
    hfits.not_queued (by rw [hctx]; rfl) (List.mem_of_mem_tail (hfits.flagged.1 hp))
  have hqueued : c.ctx.queued = true → t ∈ w.memory.1.waiters := fun hq => hfits.queued.2 ⟨hr, hq⟩
  cases hchange with
  | @acquire ctx hctx hfree hc' hm =>
    refine h.lock hi hu hfits hctx (congrArg Prod.fst hm) ?_
    subst hc'
    rw [hm]
    exact hfits.goOn hr (TokenMutex.flagged_lock (hfresh hctx)) (by simp [TokenMutex.waiters_lock, Point.queued])
      (fun _ => by simp [TokenMutex.waiters_lock, hfree]) (fun _ _ h => by cases h) fun _ h => by cases h
  | @park ctx hctx htaken hc' hm =>
    refine h.lock hi hu hfits hctx (congrArg Prod.fst hm) ?_
    subst hc'
    rw [hm]
    exact hfits.goOn hr (TokenMutex.flagged_lock (hfresh hctx)) (by simp [TokenMutex.waiters_lock, Point.queued])
      (fun h => by cases h) (fun _ _ h => by cases h) fun k h => by
        cases h
        exact (hfits.locks hr hctx).2
  | @wake ctx hctx hfront hc' hm =>
    subst hc'
    exact h.same hi hu (congrArg Prod.fst hm) (hfits.goOn hr hfits.flagged
      (iff_of_true (hqueued (by rw [hctx]; rfl)) rfl) (fun _ => hfront) (fun _ _ h => by cases h) fun _ h => by cases h)
      hfits.token
  | @work ctx ctx' hctx _ hc' hm =>
    subst hc'
    exact h.same hi hu hm (hfits.goOn hr hfits.flagged (iff_of_true (hqueued (by rw [hctx]; rfl)) rfl)
      (fun _ => hfits.holds hr (by rw [hctx]; rfl)) (fun _ _ h => by cases h) fun _ h => by cases h) hfits.token
  | @leave ctx v hctx _ hc' hm =>
    subst hc'
    exact h.same hi hu hm (hfits.goOn hr hfits.flagged (iff_of_true (hqueued (by rw [hctx]; rfl)) rfl)
      (fun _ => hfits.holds hr (by rw [hctx]; rfl)) (fun _ _ h => by cases h) fun _ h => by cases h) hfits.token
  | @unlock v hctx hc' hm =>
    have hu₁ : u.memory.1 = w.memory.1.unlock := congrArg Prod.fst hm
    have hfront := hfits.holds hr (by rw [hctx]; rfl)
    obtain ⟨waiters, hwaiters⟩ := List.head?_eq_some_iff.1 hfront
    have hnot : t ∉ waiters := by
      have hnodup := h.nodup
      rw [hwaiters] at hnodup
      exact (List.nodup_cons.1 hnodup).1
    refine h.unlock hi hu hfits.token hfront hu₁ ?_
    subst hc'
    rw [hu₁]
    refine hfits.goOn hr (hfits.flagged.unlock h.nodup) (iff_of_false ?_ Bool.false_ne_true) (fun h => by cases h)
      (fun _ _ h => by cases h) fun _ h => by cases h
    rwa [TokenMutex.waiters_unlock, hwaiters]
  | @finish v hctx hc' hm =>
    subst hc'
    exact h.same hi hu (congrArg Prod.fst hm) ⟨hfits.token, hfits.used, hfits.flagged,
      iff_of_false (hfits.not_queued (by rw [hctx]; rfl)) (fun h => by cases h.1), fun h => (by cases h),
      fun h => (by cases h), fun h => (by cases h), hfits.func, hfits.rested⟩ hfits.token

theorem Fits.later (h : Fits enters w.memory.1 next c t) (hle : next ≤ t') : Fits enters w.memory.1 (t' + 1) c t :=
  { h with used := by have := h.used; omega }

/-- A new task is not in the queue. -/
theorem Inv.build {tasks : List (Coro (Point κ ν) α ν)} {g' : Nat × ρ} (h : Inv enters w g)
    (hi : w.threads[i]? = some tasks) (hlast : ∀ d ∈ tasks.getLast?, d.isReturned = true) (hc : c.token = some t)
    {ctx : κ} (hctx : c.ctx = .lock t ctx) (henters : enters c.name c.args ctx)
    (hfunc : c.func = .lock t ctx) (hrested : c.fstate = none) (hnew : g.1 ≤ t) (hparked : t ∉ w.memory.1.parked)
    (hg' : g'.1 = t + 1) : Inv enters (w.pushTask i c) g' := by
  have hpush := lastTask_pushTask hi c
  have hused : ∀ t' ∈ w.memory.1.waiters, t' < g.1 := by
    intro t' ht'
    obtain ⟨j, d, hd, htoken⟩ := h.owned t' ht'
    exact (h.fits_token hd htoken).used
  have hnot : t ∉ w.memory.1.waiters := fun ht => by
    have := hused t ht
    omega
  have hother : ∀ {j d t'}, w.lastTask j = some d → d.token = some t' → t' ≠ t := by
    intro j d t' hd htoken
    have := (h.fits_token hd htoken).used
    omega
  refine ⟨fun {j d} hd => ?_, fun {j k d e t'} hd he htoken htoken' => ?_, h.nodup, fun t' ht' => ?_⟩
  · rw [hpush] at hd
    rw [hg']
    split at hd
    · obtain rfl := Option.some.inj hd
      refine ⟨t, hc, Nat.lt_succ_self t, iff_of_false hparked fun ht => hnot (List.mem_of_mem_tail ht),
        iff_of_false hnot fun hq => ?_, fun _ hholds => ?_, fun _ h => ?_, fun _ h => ?_, ⟨ctx, hfunc⟩, hrested⟩
      · rw [hctx] at hq
        cases hq.2
      · rw [hctx] at hholds
        cases hholds
      · rw [hctx] at h
        cases h
        exact ⟨rfl, henters⟩
      · rw [hctx] at h
        cases h
    · obtain ⟨t', hfits⟩ := h.fits hd
      exact ⟨t', hfits.later hnew⟩
  · rw [hpush] at hd he
    split at hd <;> split at he
    · rename_i hj hk
      exact hj.trans hk.symm
    · obtain rfl := Option.some.inj hd
      exact absurd (Option.some.inj (htoken.symm.trans hc)) (hother he htoken')
    · obtain rfl := Option.some.inj he
      exact absurd (Option.some.inj (htoken'.symm.trans hc)) (hother hd htoken)
    · exact h.distinct hd he htoken htoken'
  · obtain ⟨j, d, hd, htoken⟩ := h.owned t' ht'
    have hr := ((h.fits_token hd htoken).queued.1 ht').1
    exact ⟨j, d, lastTask_pushTask_of_unfinished hi hlast hd hr, htoken⟩

end Step

section Rule

variable {w : World (TokenMutex × σ) (Point κ ν) α ν} {g : Nat × ρ}

/-- Asking changes nothing. -/
theorem Inv.lastTask_asked (h : Inv enters w g) (slot : Slot) (i : Nat) :
    (w.askBlocked (target O) slot).lastTask i = w.lastTask i := by
  refine Ltest.lastTask_asked (target O) slot fun c hc => ?_
  obtain ⟨t, hfits⟩ := h.fits hc
  exact hfits.rested

/-- **At every step of a round** the queue is that of the tasks that want the mutex. -/
theorem inv_roundRule [Inhabited ν] : RoundRule (target O) (fun _ _ b => Methods enters b)
    fun w (g : Nat × ρ) (_ : List (HistoryEvent Slot ν)) => Inv enters w g where
  start {w g} hempty hmemory := by
    have hlast : ∀ {i c}, w.lastTask i = some c → False := fun {i c} hc => by
      rw [lastTask_of_empty hempty] at hc
      cases hc
    have hwaiters : w.memory.1.waiters = [] :=
      memory_of_start (p := fun m => m.1.waiters = []) hmemory rfl fun _ => rfl
    exact ⟨fun hc => (hlast hc).elim, fun hc => (hlast hc).elim, by rw [hwaiters]; exact List.nodup_nil,
      fun t ht => by rw [hwaiters] at ht; cases ht⟩
  ask {w g seq} slot h := by
    have hasked := h.lastTask_asked (O := O) slot
    refine ⟨fun hc => ?_, fun hc hd => ?_, ?_, fun t ht => ?_⟩
    · rw [hasked] at hc
      rw [memory_askBlocked]
      exact h.fits hc
    · rw [hasked] at hc hd
      exact h.distinct hc hd
    · rw [memory_askBlocked]
      exact h.nodup
    · rw [memory_askBlocked] at ht
      obtain ⟨i, c, hc, htoken⟩ := h.owned t ht
      exact ⟨i, c, (hasked i).trans hc, htoken⟩
  build {w g seq i tasks b} id h hi hlast hb := by
    obtain ⟨t, ctx, htoken, hctx, henters, hnew, hparked, hnext⟩ := hb w.memory i g
    exact h.build hi hlast htoken hctx henters hctx rfl hnew hparked hnext
  resume {w g seq i before c c' m status} h hi hr hready hrun := by
    obtain ⟨t, hfits⟩ := h.fits (lastTask_snoc hi)
    exact h.step hi hr rfl hfits (resume_changes hfits hr hready hrun)

theorem forgetsContexts : ForgetsContexts fun (w : World (TokenMutex × σ) (Point κ ν) α ν) (g : Nat × ρ)
    (_ : List (HistoryEvent Slot ν)) => Inv enters w g := by
  intro w g seq i before c ctx h hi hr
  obtain ⟨t, hfits⟩ := h.fits (lastTask_snoc hi)
  have hno : ∀ {p : Prop}, c.isReturned = false → p := fun h => by cases hr.symm.trans h
  refine h.same hi rfl rfl ⟨hfits.token, hfits.used, hfits.flagged, hfits.queued.trans ?_, fun h => hno h, fun h => hno h,
    fun h => hno h, hfits.func, hfits.rested⟩ hfits.token
  exact iff_of_false (fun h => hno h.1) fun h => hno h.1

/-- Only the tasks behind the first one in the queue are parked. -/
theorem Inv.unparked {i : Nat} (h : Inv enters w g) (hc : w.lastTask i = some c) (htoken : c.token = some t)
    (htail : t ∉ w.memory.1.waiters.tail) : c.isParked (target O) w.memory = false := by
  unfold Coro.isParked
  rw [htoken]
  show w.memory.1.parked.contains t = false
  simpa using fun hparked => htail ((h.fits_token hc htoken).flagged.1 hparked)

/-- Only a task in `Park` is parked. -/
theorem Inv.isParked_eq_false {i : Nat} (h : Inv enters w g) (hc : w.lastTask i = some c) (hr : c.isReturned = false)
    (hwait : ∀ ctx, c.ctx ≠ .wait ctx) : c.isParked (target O) w.memory = false := by
  obtain ⟨t, hfits⟩ := h.fits hc
  refine h.unparked hc hfits.token fun htail => ?_
  have hqueued := (hfits.queued.1 (List.mem_of_mem_tail htail)).2
  have hholds : c.ctx.holds = true := by
    cases hctx : c.ctx with
    | wait ctx => exact absurd hctx (hwait ctx)
    | lock t' ctx => rw [hctx] at hqueued; cases hqueued
    | done v => rw [hctx] at hqueued; cases hqueued
    | inside ctx => rfl
    | unlock v => rfl
  obtain ⟨waiters, hwaiters⟩ := List.head?_eq_some_iff.1 (hfits.holds hr hholds)
  have hnodup := h.nodup
  rw [hwaiters] at hnodup htail
  exact (List.nodup_cons.1 hnodup).1 htail

end Rule

/-! ## Linearization points -/

/-- The last task of thread `i` is between `Lock` and `Unlock`. -/
structure Busy (w : World (TokenMutex × σ) (Point κ ν) α ν) (i : Nat) (c : Coro (Point κ ν) α ν) (ctx : κ) : Prop where
  last : w.lastTask i = some c
  unfinished : c.isReturned = false
  ctx : c.ctx = .inside ctx

/-- The state of the specification that a world stands for. -/
structure Abs (R : σ → β → Prop) (Mid : String → α → β → κ → σ → Prop) (w : World (TokenMutex × σ) (Point κ ν) α ν)
    (s : β) : Prop where
  busy : ∀ {i c ctx}, Busy w i c ctx → Mid c.name c.args s ctx w.memory.2
  idle : (∀ i c ctx, ¬Busy w i c ctx) → R w.memory.2 s

section Points

variable {w u : World (TokenMutex × σ) (Point κ ν) α ν} {g : Nat × ρ} {i j : Nat} {before : List (Coro (Point κ ν) α ν)}
  {ctx : κ} {R : σ → β → Prop} {Mid : String → α → β → κ → σ → Prop} {s : β}

/-- The task that is in the queue first is the only one that may be inside. -/
theorem Inv.busy (h : Inv enters w g) (hbusy : Busy w i c ctx) :
    ∃ t, c.token = some t ∧ w.memory.1.waiters.head? = some t := by
  obtain ⟨t, hfits⟩ := h.fits hbusy.last
  exact ⟨t, hfits.token, hfits.holds hbusy.unfinished (by rw [hbusy.ctx]; rfl)⟩

/-- **Mutual exclusion**: the others are not inside. -/
theorem Inv.others (h : Inv enters w g) (hc : w.lastTask i = some c) (htoken : c.token = some t)
    (hfront : ∀ t' ∈ w.memory.1.waiters.head?, t' = t) : ∀ j d ctx, j ≠ i → ¬Busy w j d ctx := by
  intro j d ctx hj hbusy
  obtain ⟨t', htoken', hfront'⟩ := h.busy hbusy
  obtain rfl := hfront t' hfront'
  exact hj (h.distinct hbusy.last hc htoken' htoken)

/-- Nor is a task that is somewhere else. -/
theorem nobody_busy (hothers : ∀ j d ctx, j ≠ i → ¬Busy w j d ctx) (hc : w.lastTask i = some c)
    (hctx : ∀ ctx, c.ctx ≠ .inside ctx) : ∀ j d ctx, ¬Busy w j d ctx := by
  intro j d ctx hbusy
  by_cases hj : j = i
  · subst hj
    obtain rfl := Option.some.inj (hc.symm.trans hbusy.last)
    exact hctx ctx hbusy.ctx
  · exact hothers j d ctx hj hbusy

/-- The other tasks are where they were. -/
theorem busy_set (hi : w.threads[i]? = some (before ++ [c])) (hu : u.threads = w.threads.set i (before ++ [c'])) :
    Busy u j d ctx ↔ j = i ∧ d = c' ∧ c'.isReturned = false ∧ c'.ctx = .inside ctx ∨ j ≠ i ∧ Busy w j d ctx := by
  have hlast := lastTask_set hi hu j
  constructor
  · rintro ⟨hd, hr, hctx⟩
    rw [hlast] at hd
    split at hd
    · rename_i hj
      obtain rfl := Option.some.inj hd
      exact .inl ⟨hj, rfl, hr, hctx⟩
    · rename_i hj
      exact .inr ⟨hj, hd, hr, hctx⟩
  · rintro (⟨rfl, rfl, hr, hctx⟩ | ⟨hj, hd, hr, hctx⟩)
    · exact ⟨by rw [hlast, if_pos rfl], hr, hctx⟩
    · exact ⟨by rw [hlast, if_neg hj, hd], hr, hctx⟩

/-- A task that neither was inside nor is. -/
theorem Abs.same (h : Abs R Mid w s) (hi : w.threads[i]? = some (before ++ [c]))
    (hu : u.threads = w.threads.set i (before ++ [c'])) (hm : u.memory.2 = w.memory.2)
    (hc : ∀ ctx, c.isReturned = false → c.ctx ≠ .inside ctx) (hc' : ∀ ctx, c'.isReturned = false → c'.ctx ≠ .inside ctx) :
    Abs R Mid u s := by
  refine ⟨fun hbusy => ?_, fun hidle => ?_⟩
  · obtain ⟨-, -, hr, hctx⟩ | ⟨-, hbusy⟩ := (busy_set hi hu).1 hbusy
    · exact absurd hctx (hc' _ hr)
    · rw [hm]
      exact h.busy hbusy
  · rw [hm]
    refine h.idle fun j d ctx hbusy => ?_
    by_cases hj : j = i
    · subst hj
      obtain rfl := Option.some.inj ((lastTask_snoc hi).symm.trans hbusy.last)
      exact hc ctx hbusy.unfinished hbusy.ctx
    · exact hidle j d ctx ((busy_set hi hu).2 (.inr ⟨hj, hbusy⟩))

/-- The task is inside now, and nobody else. -/
theorem abs_inside (hi : w.threads[i]? = some (before ++ [c])) (hu : u.threads = w.threads.set i (before ++ [c']))
    (hothers : ∀ j d ctx, j ≠ i → ¬Busy w j d ctx) (hr : c'.isReturned = false) (hctx : c'.ctx = .inside ctx)
    (hmid : Mid c'.name c'.args s ctx u.memory.2) : Abs R Mid u s := by
  refine ⟨fun hbusy => ?_, fun hidle => absurd ((busy_set hi hu).2 (.inl ⟨rfl, rfl, hr, hctx⟩)) (hidle i c' ctx)⟩
  obtain ⟨-, rfl, -, hctx'⟩ | ⟨hj, hbusy⟩ := (busy_set hi hu).1 hbusy
  · cases hctx.symm.trans hctx'
    exact hmid
  · exact absurd hbusy (hothers _ _ _ hj)

/-- Nobody is inside now. -/
theorem abs_outside (hi : w.threads[i]? = some (before ++ [c])) (hu : u.threads = w.threads.set i (before ++ [c']))
    (hothers : ∀ j d ctx, j ≠ i → ¬Busy w j d ctx) (hctx : ∀ ctx, c'.ctx ≠ .inside ctx) (hR : R u.memory.2 s) :
    Abs R Mid u s := by
  refine ⟨fun hbusy => ?_, fun _ => hR⟩
  obtain ⟨-, -, -, hctx'⟩ | ⟨hj, hbusy⟩ := (busy_set hi hu).1 hbusy
  · exact absurd hctx' (hctx _)
  · exact absurd hbusy (hothers _ _ _ hj)

theorem Abs.askBlocked (h : Abs R Mid w s) {slot : Slot}
    (hasked : ∀ i, (w.askBlocked (target O) slot).lastTask i = w.lastTask i) :
    Abs R Mid (w.askBlocked (target O) slot) s := by
  have hbusy : ∀ {i c ctx}, Busy (w.askBlocked (target O) slot) i c ctx ↔ Busy w i c ctx := fun {i c ctx} =>
    ⟨fun ⟨hc, hr, hctx⟩ => ⟨(hasked i).symm.trans hc, hr, hctx⟩, fun ⟨hc, hr, hctx⟩ => ⟨(hasked i).trans hc, hr, hctx⟩⟩
  refine ⟨fun hb => ?_, fun hidle => ?_⟩
  · rw [memory_askBlocked]
    exact h.busy (hbusy.1 hb)
  · rw [memory_askBlocked]
    exact h.idle fun i c ctx hb => hidle i c ctx (hbusy.2 hb)

/-- A task that begins is not inside. -/
theorem Abs.pushTask (h : Abs R Mid w s) {tasks : List (Coro (Point κ ν) α ν)} (hi : w.threads[i]? = some tasks)
    (hlast : ∀ d ∈ tasks.getLast?, d.isReturned = true) (hctx : ∀ ctx, c'.ctx ≠ .inside ctx) :
    Abs R Mid (w.pushTask i c') s := by
  refine ⟨fun ⟨hd, hr, hinside⟩ => ?_, fun hidle => h.idle fun j d ctx hbusy => ?_⟩
  · rw [lastTask_pushTask hi] at hd
    split at hd
    · obtain rfl := Option.some.inj hd
      exact absurd hinside (hctx _)
    · exact h.busy ⟨hd, hr, hinside⟩
  · have hd := lastTask_pushTask_of_unfinished (c := c') hi hlast hbusy.last hbusy.unfinished
    exact hidle j d ctx ⟨hd, hbusy.unfinished, hbusy.ctx⟩

/-- **A method takes effect with its last step** between `Lock` and `Unlock`. -/
theorem points [Inhabited ν] {spec : Specification β α ν} (hO : Implements O spec enters R Mid) :
    Points (target O) spec (fun _ _ b => Methods enters b)
      (fun w (g : Nat × ρ) (_ : List (HistoryEvent Slot ν)) => Inv enters w g) Point.effect (Abs R Mid) where
  start {w} hempty hmemory := by
    have hR : R w.memory.2 spec.firstState :=
      memory_of_start (p := fun m => R m.2 spec.firstState) hmemory hO.initial fun m => hO.reset m.2
    refine ⟨fun hbusy => ?_, fun _ => hR⟩
    have hlast := hbusy.last
    rw [lastTask_of_empty hempty] at hlast
    cases hlast
  ask {w g seq s} slot h hs := hs.askBlocked (h.lastTask_asked slot)
  build {w g seq i tasks b s} id h hi hlast hb hs := by
    obtain ⟨t, ctx, htoken, hctx, henters, -⟩ := hb w.memory i g
    have hlock : (b.build w.memory i id g : Coro (Point κ ν) α ν × (Nat × ρ)).1.ctx = .lock t ctx := hctx
    refine ⟨by rw [hlock]; rfl, hO.named henters, hs.pushTask hi hlast fun k hinside => ?_⟩
    rw [hlock] at hinside
    cases hinside
  resume {w g seq i before c c' m status s} h hi hr hready hrun hs := by
    obtain ⟨t, hfits⟩ := h.fits (lastTask_snoc hi)
    have hlastc := lastTask_snoc hi
    have hothers := h.others hlastc hfits.token
    have htaken : c.taken Point.effect = c.ctx.effect := taken_of_unfinished hr
    have hgoes : ∀ ctx, ({ c with ctx := ctx } : Coro (Point κ ν) α ν).taken Point.effect = ctx.effect :=
      fun _ => taken_of_unfinished hr
    cases resume_changes hfits hr hready hrun with
    | @acquire ctx hctx hfree hc' hm =>
      subst hc' hm
      have hothers := hothers (by simp [hfree])
      refine .inl ⟨(hgoes _).trans (by rw [htaken, hctx]; rfl), ?_⟩
      refine abs_inside hi rfl hothers hr rfl (hO.enter (hfits.locks hr hctx).2 (hs.idle ?_))
      exact nobody_busy hothers hlastc fun k h => by rw [hctx] at h; cases h
    | @park ctx hctx htaken' hc' hm =>
      subst hc' hm
      refine .inl ⟨(hgoes _).trans (by rw [htaken, hctx]; rfl), hs.same hi rfl rfl (fun k _ h => ?_)
        fun k _ h => by cases h⟩
      rw [hctx] at h
      cases h
    | @wake ctx hctx hfront hc' hm =>
      subst hc' hm
      have hothers := hothers fun t' ht' => Option.some.inj (ht'.symm.trans hfront)
      refine .inl ⟨(hgoes _).trans (by rw [htaken, hctx]; rfl), ?_⟩
      refine abs_inside hi rfl hothers hr rfl (hO.enter (hfits.waits hr hctx) (hs.idle ?_))
      exact nobody_busy hothers hlastc fun k h => by rw [hctx] at h; cases h
    | @work ctx ctx' hctx hstep hc' hm =>
      subst hc'
      have hfront := hfits.holds hr (by rw [hctx]; rfl)
      have hothers := hothers fun t' ht' => Option.some.inj (ht'.symm.trans hfront)
      refine .inl ⟨(hgoes _).trans (by rw [htaken, hctx]; rfl), ?_⟩
      have hmid := hO.work (hs.busy ⟨hlastc, hr, hctx⟩) hstep
      exact abs_inside hi rfl hothers hr rfl hmid
    | @leave ctx v hctx hstep hc' hm =>
      subst hc'
      have hfront := hfits.holds hr (by rw [hctx]; rfl)
      have hothers := hothers fun t' ht' => Option.some.inj (ht'.symm.trans hfront)
      obtain ⟨method, hmethod, hv, hR⟩ := hO.leave (hs.busy ⟨hlastc, hr, hctx⟩) hstep
      refine .inr ⟨by rw [htaken, hctx]; rfl, method, hmethod, by rw [hgoes, ← hv]; rfl, ?_⟩
      exact abs_outside hi rfl hothers (fun k h => by cases h) hR
    | @unlock v hctx hc' hm =>
      subst hc' hm
      refine .inl ⟨(hgoes _).trans (by rw [htaken, hctx]; rfl), hs.same hi rfl rfl (fun k _ h => ?_)
        fun k _ h => by cases h⟩
      rw [hctx] at h
      cases h
    | @finish v hctx hc' hm =>
      subst hc' hm
      refine .inl ⟨by rw [htaken, hctx]; rfl, hs.same hi rfl rfl (fun k _ h => ?_) fun k h => by cases h⟩
      rw [hctx] at h
      cases h

end Points

/-! ## Runs -/

section Runs

variable [Inhabited ν] {ς π γ : Type} {skips : Point κ ν → Bool} {n : Nat} {delay : Point κ ν → Nat}
  {spec : Specification β α ν} {R : σ → β → Prop} {Mid : String → α → β → κ → σ → Prop}
  {S : Strategy (TokenMutex × σ) (Point κ ν × Nat) α ν ς (Nat × ρ) π}
  {constructors : π → List (TaskBuilder (TokenMutex × σ) (Point κ ν × Nat) α (Nat × ρ))}
  {st st' : Stage (TokenMutex × σ) (Point κ ν × Nat) α ν ς (Nat × ρ) π}
  {calls : List (NextCall (TokenMutex × σ) (Point κ ν × Nat) α ν ς (Nat × ρ) π)}

omit [Inhabited ν] in
/-- At a yield that the compiler may leave out no task is parked. -/
theorem unparked_of_skips (hskips : ∀ ctx, skips (.wait ctx) = false) {w : World (TokenMutex × σ) (Point κ ν) α ν}
    {g : Nat × ρ} {i : Nat} {before : List (Coro (Point κ ν) α ν)} (h : Inv enters w g)
    (hi : w.threads[i]? = some (before ++ [c])) (hr : c.isReturned = false) (hskip : skips c.ctx = true) :
    c.isParked (target O) w.memory = false := by
  refine h.isParked_eq_false (lastTask_snoc hi) hr fun ctx hctx => ?_
  rw [hctx, hskips] at hskip
  cases hskip

omit [Inhabited ν] in
/-- Some thread can go on: the one that has the mutex, when others wait for it. -/
theorem Inv.live {w : World (TokenMutex × σ) (Point κ ν) α ν} {g : Nat × ρ} (h : Inv enters w g)
    (hthreads : 0 < w.threads.length) : ∃ i < w.threads.length, ∀ c, w.lastTask i = some c →
      c.isParked (target O) w.memory = false ∧ c.waits (target O) w.memory = false := by
  have hrested : ∀ {i c}, w.lastTask i = some c → c.waits (target O) w.memory = false := by
    intro i c hc
    obtain ⟨t, hfits⟩ := h.fits hc
    unfold Coro.waits
    rw [hfits.rested]
    rfl
  cases hwaiters : w.memory.1.waiters with
  | nil =>
    refine ⟨0, hthreads, fun c hc => ⟨?_, hrested hc⟩⟩
    obtain ⟨t, hfits⟩ := h.fits hc
    exact h.unparked hc hfits.token (by rw [hwaiters]; exact List.not_mem_nil)
  | cons t waiters =>
    obtain ⟨i, c, hc, htoken⟩ := h.owned t (by rw [hwaiters]; exact List.mem_cons_self)
    obtain ⟨tasks, hi, -⟩ := Option.bind_eq_some_iff.1 hc
    refine ⟨i, (List.getElem?_eq_some_iff.1 hi).1, fun d hd => ?_⟩
    obtain rfl := Option.some.inj (hc.symm.trans hd)
    have hnodup := h.nodup
    rw [hwaiters] at hnodup
    refine ⟨h.unparked hc htoken ?_, hrested hc⟩
    rw [hwaiters]
    exact (List.nodup_cons.1 hnodup).1

end Runs

/-- The verifier that allows everything. -/
def anyProtocol : Protocol Unit String := ⟨(), fun _ _ => true, fun _ _ => ()⟩

theorem defaultStrategyVerifier_follows :
    Follows (defaultStrategyVerifier (κ := κ) (α := α) (ν := ν)) anyProtocol fun _ _ => () where
  fresh _ := rfl
  reset _ _ := rfl
  verify h := by
    cases h
    exact ⟨fun _ => rfl, rfl⟩
  onFinished _ _ _ _ _ := (ite_self _).symm

/-- **No wakeup is lost**: the strategy always finds a task to go on with, and a round fails no assertion. -/
theorem guarded_goes_on [Inhabited ν] {γ : Type} {skips : Point κ ν → Bool} {n threads : Nat} {delay : Point κ ν → Nat}
    {D : Dice γ} {names : List String}
    {S : Strategy (TokenMutex × σ) (Point κ ν × Nat) α ν Unit (Nat × ρ)
      (PickState (TokenMutex × σ) (Point κ ν × Nat) α (Nat × ρ) γ)}
    {st : Stage (TokenMutex × σ) (Point κ ν × Nat) α ν Unit (Nat × ρ)
      (PickState (TokenMutex × σ) (Point κ ν × Nat) α (Nat × ρ) γ)}
    {calls : List (NextCall (TokenMutex × σ) (Point κ ν × Nat) α ν Unit (Nat × ρ)
      (PickState (TokenMutex × σ) (Point κ ν × Nat) α (Nat × ρ) γ))}
    (hS : IsPickStrategy ((target O).compiled skips n delay) defaultStrategyVerifier D S)
    (hskips : ∀ ctx, skips (.wait ctx) = false) (hnames : names ≠ []) (hpicks : PicksEligible S threads)
    (hthreads : 0 < threads)
    (hplaying : Playing S (fun st => Opens (target O) (Methods enters) names st ∧ st.round.world.threads.length = threads)
      calls st) :
    (∃ r, S.next st = .ok r) ∧ ∀ fuel maxTasks e, S.generate fuel maxTasks st = .error e → e = .outOfFuel := by
  have hrule : RoundRule (target O) (Allows anyProtocol (Methods enters))
      fun w (g : Nat × ρ) (_ : List (HistoryEvent Slot ν)) => Inv enters w g :=
    inv_roundRule.mono fun _ _ _ hb => hb.1
  refine goes_on hrule forgetsContexts (fun h hi hr hskip => unparked_of_skips hskips h hi hr hskip) hS
    defaultStrategyVerifier_follows (fun v name i _ h => by cases h) (fun word => ?_) (fun hw hlen => hw.live hlen) hpicks
    hthreads hplaying
  obtain ⟨name, hname⟩ := List.exists_mem_of_ne_nil names hnames
  exact ⟨name, hname, rfl⟩

end Guarded

end Ltest
