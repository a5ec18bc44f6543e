import Ltest.Program.Protocol
import Ltest.Strategy.Playing
import Ltest.Strategy.Pick

/-!
# Lock discipline

A verifier that keeps a status for every thread, and changes it when a task of the thread finishes, follows a `Protocol`
over the names of tasks. If every task that is started is one that the verifier admits, the names of the tasks of a thread
walk through the protocol (`Disciplined`): the status of a thread is what its finished tasks have made of it, and a new
task is started only when all of them have finished. `PickStrategy` starts admitted tasks only, and with the constructors
of a mutex it always finds one (`lock_discipline`).
-/

namespace Ltest

open Program

variable {σ κ α ν ς ρ π γ Q : Type}

/-- The verifier keeps a status for every thread and follows a protocol with it. -/
structure Follows (V : StrategyVerifier ς κ α ν) (P : Protocol Q String) (status : ς → Nat → Q) : Prop where
  fresh : ∀ i, status V.fresh i = P.free
  reset : ∀ v i, status (V.reset v) i = P.free
  verify : ∀ {v name i b v'}, V.verify v ⟨name, true, i⟩ = some (b, v') →
    (∀ k, status v' k = status v k) ∧ b = P.allowed (status v i) name
  onFinished : ∀ v (task : Coro κ α ν) isNew i k,
    status (V.onFinished v ⟨task, isNew, i⟩) k = if k = i then P.after (status v i) task.name else status v k

/-- The names of the tasks of a thread that have returned. -/
def finishedNames (seen : List (String × Bool)) : List String := (seen.filter Prod.snd).map Prod.fst

/-- What holds between two calls of `Next` if only admitted tasks are started. -/
structure Disciplined (P : Protocol Q String) (status : ς → Nat → Q) (st : Stage σ κ α ν ς ρ π) : Prop where
  settled : ∀ i before x, st.round.world.seen i = before ++ [x] → ∀ y ∈ before, y.2 = true
  status : ∀ i, status st.round.schedChecker i = P.reached P.free (finishedNames (st.round.world.seen i))
  walks : ∀ i, P.Walks P.free ((st.round.world.seen i).map Prod.fst)

section Discipline

variable {V : StrategyVerifier ς κ α ν} {P : Protocol Q String} {status : ς → Nat → Q}

theorem finishedNames_of_all {seen : List (String × Bool)} (h : ∀ x ∈ seen, x.2 = true) :
    finishedNames seen = seen.map Prod.fst := by
  unfold finishedNames
  rw [List.filter_eq_self.2 h]

@[simp] theorem finishedNames_snoc (seen : List (String × Bool)) (name : String) (b : Bool) :
    finishedNames (seen ++ [(name, b)]) = finishedNames seen ++ if b then [name] else [] := by
  unfold finishedNames
  cases b <;> simp

/-- When the last task has returned, all have. -/
theorem Disciplined.all_returned {st : Stage σ κ α ν ς ρ π} (hd : Disciplined P status st) {i : Nat}
    (hlast : ∀ x ∈ (st.round.world.seen i).getLast?, x.2 = true) : ∀ x ∈ st.round.world.seen i, x.2 = true := by
  rcases List.eq_nil_or_concat' (st.round.world.seen i) with hnil | ⟨before, x, hsnoc⟩
  · simp [hnil]
  · intro y hy
    rw [hsnoc] at hy hlast
    rcases List.mem_append.1 hy with hy | hy
    · exact hd.settled i before x hsnoc y hy
    · rw [List.mem_singleton.1 hy]
      exact hlast x (by simp)

variable [Inhabited ν] {S : Strategy σ κ α ν ς ρ π} {st st₁ : Stage σ κ α ν ς ρ π} {t : Picked} {w : World σ κ α ν}
  {task : Coro κ α ν}

/-- **A call of `Next`** that starts an admitted task, or none. -/
theorem Disciplined.next (hV : Follows S.verifier P status) (hd : Disciplined P status st)
    (hother : ∀ i, i ≠ t.threadId → w.seen i = st.round.world.seen i) (hshown : Shown S st t st₁ w task)
    (hadmitted : t.isNew = true → P.allowed (status st.round.schedChecker t.threadId) task.name = true ∧
      ∀ i, status st₁.round.schedChecker i = status st.round.schedChecker i) :
    Disciplined P status (if task.isReturned then S.onVerifierTaskFinish t task (st₁.withWorld w) else st₁.withWorld w) := by
  -- it is enough to look at the thread of the call before the report
  have hreport : ∀ before, w.seen t.threadId = before ++ [(task.name, task.isReturned)] →
      (∀ y ∈ before, y.2 = true) → P.Walks P.free ((w.seen t.threadId).map Prod.fst) →
      (∀ i, status st₁.round.schedChecker i = status st.round.schedChecker i) →
      status st.round.schedChecker t.threadId = P.reached P.free (finishedNames before) →
      Disciplined P status
        (if task.isReturned then S.onVerifierTaskFinish t task (st₁.withWorld w) else st₁.withWorld w) := by
    intro before hseen hbefore hwalks hchecker hstatus
    have hworld : (if task.isReturned then S.onVerifierTaskFinish t task (st₁.withWorld w)
        else st₁.withWorld w).round.world = w := by split <;> rfl
    refine ⟨fun i before' x hx => ?_, fun i => ?_, fun i => ?_⟩
    · rw [hworld] at hx
      by_cases hi : i = t.threadId
      · subst hi
        obtain ⟨rfl, _⟩ := List.append_inj' (hseen.symm.trans hx) rfl
        exact hbefore
      · rw [hother i hi] at hx
        exact hd.settled i before' x hx
    · rw [hworld]
      by_cases hi : i = t.threadId
      · subst hi
        rw [hseen, finishedNames_snoc]
        cases hret : task.isReturned with
        | false => simpa [hstatus, Stage.withWorld] using hchecker t.threadId
        | true =>
          simp only [↓reduceIte, Strategy.onVerifierTaskFinish, Stage.withWorld]
          rw [hV.onFinished, if_pos rfl, hchecker, hstatus, Protocol.reached_snoc]
      · rw [hother i hi, ← hd.status i]
        cases hret : task.isReturned with
        | false => simpa [Stage.withWorld] using hchecker i
        | true =>
          simp only [↓reduceIte, Strategy.onVerifierTaskFinish, Stage.withWorld]
          rw [hV.onFinished, if_neg hi, hchecker]
    · rw [hworld]
      by_cases hi : i = t.threadId
      · subst hi
        exact hwalks
      · rw [hother i hi]
        exact hd.walks i
  cases hshown with
  | last before hnew hbefore hafter hchecker =>
    have hstatus := hd.status t.threadId
    have hwalks := hd.walks t.threadId
    rw [hbefore] at hstatus hwalks
    rw [finishedNames_snoc, if_neg (by simp), List.append_nil] at hstatus
    refine hreport before hafter (hd.settled _ before _ hbefore) ?_ (fun i => by rw [hchecker]) hstatus
    rw [hafter]
    simpa using hwalks
  | new asked p p' r b hnew hpick hround hseen hlength hconstruct hpolicy hlast hname hbuilt hafter =>
    obtain ⟨hallowed, hchecker⟩ := hadmitted hnew
    have hall := hd.all_returned hlast
    have hstatus := hd.status t.threadId
    refine hreport _ hafter hall ?_ hchecker hstatus
    rw [hafter, List.map_append, List.map_singleton, Protocol.walks_snoc]
    refine ⟨hd.walks t.threadId, ?_⟩
    rw [hstatus, finishedNames_of_all hall] at hallowed
    exact hallowed

omit [Inhabited ν] in
/-- A round in which nothing has been started. -/
theorem Disciplined.of_empty (hempty : ∀ tasks ∈ st.round.world.threads, tasks = [])
    (hfree : ∀ i, status st.round.schedChecker i = P.free) : Disciplined P status st := by
  have hseen : ∀ i, st.round.world.seen i = [] := by
    intro i
    unfold World.seen
    cases hi : st.round.world.threads[i]? with
    | none => rfl
    | some tasks => simp [hempty tasks (List.mem_of_getElem? hi)]
  refine ⟨fun i before x hx => ?_, fun i => ?_, fun i => ?_⟩
  · rw [hseen] at hx
    simp at hx
  · rw [hseen]
    exact hfree i
  · rw [hseen]
    trivial

/-- What `StartNextRound` leaves. -/
theorem startNextRound_eq_ok {fuel : Nat} {st' : Stage σ κ α ν ς ρ π} (h : S.startNextRound fuel st = .ok st') :
    (∀ tasks ∈ st'.round.world.threads, tasks = []) ∧
    st'.round.schedChecker = S.verifier.reset st.round.schedChecker ∧ st'.policy = S.update st.policy ∧
    st'.round.world.threads.length = st.round.world.threads.length := by
  obtain ⟨r, hterm, h⟩ := bind_eq_ok.1 h
  cases h
  unfold Strategy.terminateTasks at hterm
  split at hterm
  · cases hterm
  · split at hterm
    · rename_i w hpasses
      cases hterm
      refine ⟨by simp, rfl, rfl, ?_⟩
      simpa using congrArg List.length (terminatePasses_alike fuel hpasses)
    · cases hterm

/-- **A whole run** in which every task that is started is admitted. -/
theorem Playing.disciplined (hV : Follows S.verifier P status) {init : Stage σ κ α ν ς ρ π → Prop}
    {calls : List (NextCall σ κ α ν ς ρ π)} (h : Playing S init calls st)
    (hadmitted : ∀ c ∈ calls, ∀ w task, c.after.round.world.resume S.target c.picked.slot = .ok w →
      w.task c.picked.slot = some task → c.picked.isNew = true →
      P.allowed (status c.before.round.schedChecker c.picked.threadId) task.name = true ∧
      ∀ i, status c.after.round.schedChecker i = status c.before.round.schedChecker i) : Disciplined P status st := by
  induction h with
  | start _ hempty hfresh => exact .of_empty hempty fun i => by rw [hfresh, hV.fresh]
  | @next calls st st₁ t w task hplaying hnext hresume htask ih =>
    obtain ⟨_, hother, hshown⟩ := next_seen hnext hresume htask
    refine (ih fun c hc => hadmitted c (List.mem_append_left _ hc)).next hV hother hshown fun hnew => ?_
    exact hadmitted ⟨st, t, st₁⟩ (by simp) w task hresume htask hnew
  | startNextRound _ hstart ih =>
    obtain ⟨hempty, hchecker, _, _⟩ := startNextRound_eq_ok hstart
    exact .of_empty hempty fun i => by rw [hchecker, hV.reset]

end Discipline

/-! ## Verifiers of locks -/

/-- The protocol of a mutex: a status of `1` means locked by the thread. -/
def mutexProtocol : Protocol Nat String where
  free := 0
  allowed q name := name == "Lock" && q == 0 || name == "Unlock" && q == 1
  after q name := if name = "Lock" then 1 else if name = "Unlock" then 0 else q

/-- The protocol of a shared mutex. -/
def sharedMutexProtocol : Protocol SharedStatus String where
  free := .free
  allowed q name := name == "lock" && q == .free || name == "unlock" && q == .writer ||
    (name == "lock_shared" && q == .free || name == "unlock_shared" && q == .reader)
  after q name :=
    if name = "lock" then .writer
    else if name = "unlock" then .free
    else if name = "lock_shared" then .reader
    else if name = "unlock_shared" then .free
    else q

theorem mutexVerifier_follows : Follows (mutexVerifier (κ := κ) (α := α) (ν := ν)) mutexProtocol fun status i => status i where
  fresh _ := rfl
  reset _ _ := rfl
  verify {v name i b v'} h := by
    simp only [mutexVerifier, MutexVerifier.verify, Bool.not_true, Bool.false_eq_true, ↓reduceIte] at h
    split at h
    · rename_i hname
      cases h
      exact ⟨fun _ => rfl, by simp [mutexProtocol, hname]⟩
    · rename_i hlock
      split at h
      · rename_i hname
        cases h
        exact ⟨fun _ => rfl, by simp [mutexProtocol, hname]⟩
      · cases h
  onFinished v task isNew i k := by
    simp only [mutexVerifier, MutexVerifier.onFinished, mutexProtocol]
    by_cases hlock : task.name = "Lock"
    · simp only [hlock, ↓reduceIte]
    · by_cases hunlock : task.name = "Unlock"
      · simp only [hunlock, String.reduceEq, ↓reduceIte]
      · simp only [hlock, hunlock, ↓reduceIte]
        split
        · rename_i hk
          rw [hk]
        · rfl

theorem sharedMutexVerifier_follows :
    Follows (sharedMutexVerifier (κ := κ) (α := α) (ν := ν)) sharedMutexProtocol fun status i => status i where
  fresh _ := rfl
  reset _ _ := rfl
  verify {v name i b v'} h := by
    simp only [sharedMutexVerifier, SharedMutexVerifier.verify] at h
    split at h
    · rename_i hname
      cases h
      exact ⟨fun _ => rfl, by simp [sharedMutexProtocol, hname]⟩
    · split at h
      · rename_i hname
        cases h
        exact ⟨fun _ => rfl, by simp [sharedMutexProtocol, hname]⟩
      · split at h
        · rename_i hname
          cases h
          exact ⟨fun _ => rfl, by simp [sharedMutexProtocol, hname]⟩
        · split at h
          · rename_i hname
            cases h
            exact ⟨fun _ => rfl, by simp [sharedMutexProtocol, hname]⟩
          · cases h
  onFinished v task isNew i k := by
    simp only [sharedMutexVerifier, SharedMutexVerifier.onFinished, sharedMutexProtocol]
    by_cases hlock : task.name = "lock"
    · simp only [hlock, ↓reduceIte]
    · by_cases hunlock : task.name = "unlock"
      · simp only [hunlock, String.reduceEq, ↓reduceIte]
      · by_cases hlockShared : task.name = "lock_shared"
        · simp only [hlockShared, String.reduceEq, ↓reduceIte]
        · by_cases hunlockShared : task.name = "unlock_shared"
          · simp only [hunlockShared, String.reduceEq, ↓reduceIte]
          · simp only [hlock, hunlock, hlockShared, hunlockShared, ↓reduceIte]
            split
            · rename_i hk
              rw [hk]
            · rfl

/-! ## `PickStrategy` and its verifier -/

/-- The names of the constructors, in any order. -/
def Equipped (names : List String) (st : Stage σ κ α ν ς ρ (PickState σ κ α ρ γ)) : Prop :=
  (st.policy.constructors.map TaskBuilder.name).Perm names

section Pick

variable [Inhabited ν] {T : Target σ κ ν} {V : StrategyVerifier ς κ α ν} {D : Dice γ} {P : Protocol Q String}
  {status : ς → Nat → Q} {names : List String} {S : Strategy σ κ α ν ς ρ (PickState σ κ α ρ γ)}
  {calls : List (NextCall σ κ α ν ς ρ (PickState σ κ α ρ γ))} {st : Stage σ κ α ν ς ρ (PickState σ κ α ρ γ)}

/-- The constructors stay the same. -/
theorem Playing.equipped (hS : IsPickStrategy T V D S) (h : Playing S (Equipped names) calls st) : Equipped names st := by
  induction h with
  | start hinit _ _ => exact hinit
  | @next calls st st₁ t w task _ hnext _ _ ih =>
    have hperm : Equipped names (st₁.withWorld w) := ((hS.next_constructors hnext).map TaskBuilder.name).trans ih
    split <;> exact hperm
  | startNextRound _ hstart ih =>
    obtain ⟨_, _, hpolicy, _⟩ := startNextRound_eq_ok hstart
    unfold Equipped
    rw [hpolicy, hS.update_eq]
    exact ih

omit [Inhabited ν] in
/-- What the loop over the constructors finds, when the verifier follows a protocol. -/
theorem firstVerified_follows (hV : Follows V P status) {i : Nat} {v v' : ς} {bs : List (TaskBuilder σ κ α ρ)}
    {found : Option (TaskBuilder σ κ α ρ)} : firstVerified V i v bs = .ok (found, v') →
    (∀ k, status v' k = status v k) ∧
      match found with
      | some b => b ∈ bs ∧ P.allowed (status v i) b.name = true
      | none => ∀ b ∈ bs, P.allowed (status v i) b.name = false :=
  firstVerified_spec (I := fun v' => ∀ k, status v' k = status v k) (fun hI hverify => by
    obtain ⟨hsame, hok⟩ := hV.verify hverify
    exact ⟨fun k => (hsame k).trans (hI k), by rw [hok, hI]⟩) fun _ => rfl

/-- **`PickStrategy` starts admitted tasks only.** -/
theorem Playing.pick_disciplined (hS : IsPickStrategy T V D S) (hV : Follows V P status)
    (h : Playing S (Equipped names) calls st) : Disciplined P status st := by
  refine h.disciplined (hS.verifier_eq ▸ hV) fun c hc w task hresume htask hnew => ?_
  obtain ⟨hcall, _⟩ := h.call hc
  obtain ⟨_, _, hshown⟩ := next_seen hcall hresume htask
  cases hshown with
  | last before hold => rw [hold] at hnew; cases hnew
  | new asked p p' r b hnew hpick hround hseen hlength hconstruct hpolicy hlast hname hbuilt hafter =>
    rw [hS.construct_eq] at hconstruct
    obtain ⟨hsame, _, hallowed⟩ := firstVerified_follows hV (pickConstruct_eq_ok hconstruct).1
    rw [hround] at hsame hallowed
    exact ⟨by rw [hname]; exact hallowed, hsame⟩

/-- **`PickStrategy` always finds an admitted task**, if there is always one. -/
theorem Playing.next_ne_noConstructor (hS : IsPickStrategy T V D S) (hV : Follows V P status)
    (hprogress : ∀ word, ∃ name ∈ names, P.allowed (P.reached P.free word) name = true)
    (h : Playing S (Equipped names) calls st) : S.next st ≠ .error .noConstructor := by
  intro herror
  unfold Strategy.next at herror
  cases hpick : S.pick st.round st.policy with
  | error e =>
    obtain rfl := hS.pick_error hpick
    rw [hpick] at herror
    cases herror
  | ok x =>
    obtain ⟨i, asked, p⟩ := x
    rw [hpick] at herror
    simp only [ok_bind] at herror
    unfold Strategy.nextOn at herror
    dsimp only at herror
    split at herror
    · cases herror
    · split at herror
      · cases herror
      · rw [hS.construct_eq] at herror
        generalize hconstruct : pickConstruct D V _ i p = x at herror
        cases x with
        | ok x => cases herror
        | error e =>
          cases herror
          rcases pickConstruct_eq_error hconstruct with hfailed | ⟨v, hnone⟩
          · cases firstVerified_error hfailed
          · -- the status of the thread admits one of the names, which one of the constructors has
            obtain ⟨name, hname, hallowed⟩ := hprogress (finishedNames (st.round.world.seen i))
            obtain ⟨_, hall⟩ := firstVerified_follows hV hnone
            have hperm : ((D.shuffle p.constructors p.rng).1.map TaskBuilder.name).Perm names := by
              refine ((D.shuffle_perm _ _).map _).trans ?_
              rw [hS.pick_constructors hpick]
              exact h.equipped hS
            obtain ⟨b, hb, rfl⟩ := List.mem_map.1 (hperm.mem_iff.2 hname)
            have hno := hall b hb
            dsimp only at hno
            rw [(h.pick_disciplined hS hV).status, hallowed] at hno
            cases hno

/-- Nor does `RunRound` fail the assertion. -/
theorem Playing.generate_ne_noConstructor (hS : IsPickStrategy T V D S) (hV : Follows V P status)
    (hprogress : ∀ word, ∃ name ∈ names, P.allowed (P.reached P.free word) name = true)
    (h : Playing S (Equipped names) calls st) (fuel maxTasks : Nat) :
    S.generate fuel maxTasks st ≠ .error .noConstructor := by
  refine Playing.generate_ne_error (fun hplaying => hplaying.next_ne_noConstructor hS hV hprogress) (fun w slot => ?_)
    (by simp) (by simp) fuel maxTasks h
  unfold World.resume
  split
  · simp
  · split <;> simp

end Pick

/-! ## The discipline of locks -/

/-- The names of the tasks that have been started on thread `i` in this round. -/
def World.names (w : World σ κ α ν) (i : Nat) : List String := (w.threads[i]?.getD []).map Coro.name

theorem map_fst_seen (w : World σ κ α ν) (i : Nat) : (w.seen i).map Prod.fst = w.names i := by
  simp [World.seen, World.names]

/-- A mutex is always either locked or unlocked by a thread. -/
theorem mutexProtocol_progress (word : List String) :
    ∃ name ∈ ["Lock", "Unlock"], mutexProtocol.allowed (mutexProtocol.reached mutexProtocol.free word) name = true := by
  have hstatus : mutexProtocol.reached mutexProtocol.free word = 0 ∨ mutexProtocol.reached mutexProtocol.free word = 1 := by
    refine Protocol.reached_rule (I := fun q => q = 0 ∨ q = 1) (fun q name hq => ?_) (.inl rfl)
    simp only [mutexProtocol]
    split
    · exact .inr rfl
    · split
      · exact .inl rfl
      · exact hq
  rcases hstatus with hstatus | hstatus <;> rw [hstatus] <;> simp [mutexProtocol]

/-- A thread has a shared mutex as a reader, as a writer or not at all. -/
theorem sharedMutexProtocol_progress (word : List String) : ∃ name ∈ ["lock", "unlock", "lock_shared", "unlock_shared"],
    sharedMutexProtocol.allowed (sharedMutexProtocol.reached sharedMutexProtocol.free word) name = true := by
  cases sharedMutexProtocol.reached sharedMutexProtocol.free word <;> simp [sharedMutexProtocol]

theorem mutexProtocol_prefix {word : List String} (h : mutexProtocol.Walks mutexProtocol.free word) :
    ∃ n, word <+: (List.replicate n ["Lock", "Unlock"]).flatten := by
  obtain ⟨blocks, hblocks, hprefix⟩ := Protocol.prefix_of_walks (B := (· = ["Lock", "Unlock"])) (fun a ha => by
    obtain rfl : a = "Lock" := by simpa [mutexProtocol] using ha
    exact ⟨"Unlock", rfl, by simp [mutexProtocol], fun c hc => by simpa [mutexProtocol] using hc⟩) h
  exact ⟨blocks.length, by rwa [← List.eq_replicate_iff.2 ⟨rfl, hblocks⟩]⟩

theorem sharedMutexProtocol_prefix {word : List String} (h : sharedMutexProtocol.Walks sharedMutexProtocol.free word) :
    ∃ blocks : List (List String), (∀ b ∈ blocks, b = ["lock", "unlock"] ∨ b = ["lock_shared", "unlock_shared"]) ∧
      word <+: blocks.flatten := by
  refine Protocol.prefix_of_walks (fun a ha => ?_) h
  obtain rfl | rfl : a = "lock" ∨ a = "lock_shared" := by simpa [sharedMutexProtocol] using ha
  · exact ⟨"unlock", .inl rfl, by simp [sharedMutexProtocol], fun c hc => by simpa [sharedMutexProtocol] using hc⟩
  · exact ⟨"unlock_shared", .inr rfl, by simp [sharedMutexProtocol], fun c hc => by simpa [sharedMutexProtocol] using hc⟩

/-- **Lock discipline of generated rounds**: with the verifier of a mutex a thread locks and unlocks by turns, with that of
a shared mutex it does so as a writer or as a reader, and there is always a task that can be started. -/
theorem lock_discipline [Inhabited ν] {T : Target σ κ ν} {D : Dice γ} :
    (∀ {S : Strategy σ κ α ν (Nat → Nat) ρ (PickState σ κ α ρ γ)}
      {calls : List (NextCall σ κ α ν (Nat → Nat) ρ (PickState σ κ α ρ γ))}
      {st : Stage σ κ α ν (Nat → Nat) ρ (PickState σ κ α ρ γ)},
      IsPickStrategy T mutexVerifier D S → Playing S (Equipped ["Lock", "Unlock"]) calls st →
        (∀ i, ∃ n, st.round.world.names i <+: (List.replicate n ["Lock", "Unlock"]).flatten) ∧
        S.next st ≠ .error .noConstructor ∧ ∀ fuel maxTasks, S.generate fuel maxTasks st ≠ .error .noConstructor) ∧
    (∀ {S : Strategy σ κ α ν (Nat → SharedStatus) ρ (PickState σ κ α ρ γ)}
      {calls : List (NextCall σ κ α ν (Nat → SharedStatus) ρ (PickState σ κ α ρ γ))}
      {st : Stage σ κ α ν (Nat → SharedStatus) ρ (PickState σ κ α ρ γ)},
      IsPickStrategy T sharedMutexVerifier D S →
      Playing S (Equipped ["lock", "unlock", "lock_shared", "unlock_shared"]) calls st →
        (∀ i, ∃ blocks : List (List String),
          (∀ b ∈ blocks, b = ["lock", "unlock"] ∨ b = ["lock_shared", "unlock_shared"]) ∧
          st.round.world.names i <+: blocks.flatten) ∧
        S.next st ≠ .error .noConstructor ∧ ∀ fuel maxTasks, S.generate fuel maxTasks st ≠ .error .noConstructor) := by
  refine ⟨fun hS h => ⟨fun i => ?_, ?_, ?_⟩, fun hS h => ⟨fun i => ?_, ?_, ?_⟩⟩
  · rw [← map_fst_seen]
    exact mutexProtocol_prefix ((h.pick_disciplined hS mutexVerifier_follows).walks i)
  · exact h.next_ne_noConstructor hS mutexVerifier_follows mutexProtocol_progress
  · exact h.generate_ne_noConstructor hS mutexVerifier_follows mutexProtocol_progress
  · rw [← map_fst_seen]
    exact sharedMutexProtocol_prefix ((h.pick_disciplined hS sharedMutexVerifier_follows).walks i)
  · exact h.next_ne_noConstructor hS sharedMutexVerifier_follows sharedMutexProtocol_progress
  · exact h.generate_ne_noConstructor hS sharedMutexVerifier_follows sharedMutexProtocol_progress

/-- A task of a counter under another name. -/
def counterBuilder (name : String) : TaskBuilder Nat Bool Unit Unit := ⟨name, fun _ _ g => (((), true, none), g)⟩

/-- Two threads of counters before their first round, with tasks of these names. -/
def freshCounters (S : Strategy Nat Bool Unit Nat ς Unit (PickState Nat Bool Unit Unit Unit)) (names : List String) :
    Stage Nat Bool Unit Nat ς Unit (PickState Nat Bool Unit Unit Unit) where
  round := ⟨⟨0, [[], []], none⟩, 0, ∅, [none, none], S.verifier.fresh, ()⟩
  policy := ⟨names.map counterBuilder, (), 0⟩

theorem freshCounters_playing (S : Strategy Nat Bool Unit Nat ς Unit (PickState Nat Bool Unit Unit Unit))
    (names : List String) : Playing S (Equipped names) [] (freshCounters S names) := by
  refine .start ?_ (by simp [freshCounters]) rfl
  unfold Equipped freshCounters
  rw [List.map_map]
  exact List.Perm.of_eq (by simp [counterBuilder, Function.comp_def])

/-- Mutexes that two threads lock and unlock by turns. -/
def mutexCounters : Strategy Nat Bool Unit Nat (Nat → Nat) Unit (PickState Nat Bool Unit Unit Unit) :=
  roundRobinStrategy counterTarget mutexVerifier leastDice

/-- Shared mutexes that two threads lock and unlock at random. -/
def sharedMutexCounters : Strategy Nat Bool Unit Nat (Nat → SharedStatus) Unit (PickState Nat Bool Unit Unit Unit) :=
  randomStrategy counterTarget sharedMutexVerifier leastDice [1, 2]

/-- In both, what the first thread has started after a few tasks. -/
theorem lock_discipline_freshCounters :
    (∃ calls st, Playing mutexCounters (Equipped ["Lock", "Unlock"]) calls st ∧
      st.round.world.names 0 = ["Lock", "Unlock", "Lock"] ∧
      ∃ n, st.round.world.names 0 <+: (List.replicate n ["Lock", "Unlock"]).flatten) ∧
    ∃ calls st, Playing sharedMutexCounters (Equipped ["lock", "unlock", "lock_shared", "unlock_shared"]) calls st ∧
      st.round.world.names 0 = ["lock", "unlock", "lock"] ∧ ∃ blocks : List (List String),
        (∀ b ∈ blocks, b = ["lock", "unlock"] ∨ b = ["lock_shared", "unlock_shared"]) ∧
        st.round.world.names 0 <+: blocks.flatten := by
  refine ⟨?_, ?_⟩
  · obtain ⟨⟨h, st⟩, hrun, hnames⟩ := ok_of_toOption
      (x := mutexCounters.generate 20 5 (freshCounters mutexCounters ["Lock", "Unlock"]))
      (f := fun (_, st) => st.round.world.names 0) (b := ["Lock", "Unlock", "Lock"]) (by decide +kernel)
    obtain ⟨calls, _, hplaying⟩ := (freshCounters_playing _ _).generate hrun
    exact ⟨calls, st, hplaying, hnames, (lock_discipline.1 .roundRobin hplaying).1 0⟩
  · obtain ⟨⟨h, st⟩, hrun, hnames⟩ := ok_of_toOption (x := sharedMutexCounters.generate 20 3
        (freshCounters sharedMutexCounters ["lock", "unlock", "lock_shared", "unlock_shared"]))
      (f := fun (_, st) => st.round.world.names 0) (b := ["lock", "unlock", "lock"]) (by decide +kernel)
    obtain ⟨calls, _, hplaying⟩ := (freshCounters_playing _ _).generate hrun
    exact ⟨calls, st, hplaying, hnames, (lock_discipline.2 (.random [1, 2]) hplaying).1 0⟩

end Ltest
