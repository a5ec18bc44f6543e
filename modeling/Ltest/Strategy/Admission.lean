import Ltest.Strategy.Discipline
import Ltest.Strategy.Pct

/-!
# What `PctStrategy` starts

`PctStrategy` asks the verifier, and looks at the names of the other threads' tasks, only in the loop of `forbid_all_same`.
Without it any constructor that is drawn is started, so a task is admitted by luck (`pct_admits_iff`). With it every task is
admitted, but the loop keeps the names of the candidates that it has rejected: once one with another name has been rejected,
a task of the name that all the other threads have may be started (`pct_forbids_iff`).
-/

namespace Ltest

open Program

variable {σ κ α ν ς ρ γ Q : Type}

/-! ## Candidates -/

/-- The first constructors that are drawn. -/
def candidates (D : Dice γ) (constructors : List (TaskBuilder σ κ α ρ)) : Nat → γ → List (TaskBuilder σ κ α ρ)
  | 0, _ => []
  | left + 1, g =>
    match drawConstructor D constructors g with
    | .error _ => []
    | .ok (constructor, g) => constructor :: candidates D constructors left g

/-- `Verify` is called, and rejects, any number of times on thread `i`. -/
inductive Rejects (V : StrategyVerifier ς κ α ν) (i : Nat) : ς → ς → Prop
  | refl (v : ς) : Rejects V i v v
  | step {v v₁ v' : ς} (name : String) : V.verify v ⟨name, true, i⟩ = some (false, v₁) → Rejects V i v₁ v' →
      Rejects V i v v'

section Loop

variable {D : Dice γ} {V : StrategyVerifier ς κ α ν} {constructors : List (TaskBuilder σ κ α ρ)} {i : Nat}

theorem mem_of_drawConstructor {g g' : γ} {b : TaskBuilder σ κ α ρ} (h : drawConstructor D constructors g = .ok (b, g')) :
    b ∈ constructors := by
  unfold drawConstructor at h
  dsimp only at h
  split at h
  · cases h
  · rename_i b' hb
    cases h
    exact List.mem_of_getElem? hb

/-- **The loop of `forbid_all_same` admits**: what it ends with is a constructor that the verifier has just admitted. -/
theorem retryConstructor_admits : ∀ (fuel : Nat) {names : Finset String} {b b' : TaskBuilder σ κ α ρ} {v v' : ς} {g g' : γ},
    b ∈ constructors → retryConstructor D V constructors i fuel names b v g = .ok (b', v', g') →
      b' ∈ constructors ∧ ∃ v₁, Rejects V i v v₁ ∧ V.verify v₁ ⟨b'.name, true, i⟩ = some (true, v')
  | 0, _, _, _, _, _, _, _, _, h => by cases h
  | fuel + 1, names, b, b', v, v', g, g', hb, h => by
    unfold retryConstructor at h
    dsimp only at h
    split at h
    · split at h
      · cases h
      · rename_i b₁ g₁ hdraw
        exact retryConstructor_admits fuel (mem_of_drawConstructor hdraw) h
    · split at h
      · cases h
      · rename_i v₁ hverify
        cases h
        exact ⟨hb, v, .refl v, hverify⟩
      · rename_i v₁ hverify
        split at h
        · cases h
        · rename_i b₁ g₁ hdraw
          obtain ⟨hb', v₂, hrejects, hadmits⟩ := retryConstructor_admits fuel (mem_of_drawConstructor hdraw) h
          exact ⟨hb', v₂, .step b.name hverify hrejects, hadmits⟩

/-- With two names the loop takes the first candidate that the verifier admits. -/
theorem retryConstructor_of_two : ∀ (fuel : Nat) {names : Finset String} {b b' : TaskBuilder σ κ α ρ} {v v' : ς} {g g' : γ},
    2 ≤ (insert b.name names).card → retryConstructor D V constructors i (fuel + 1) names b v g = .ok (b', v', g') →
      firstVerified V i v (b :: candidates D constructors fuel g) = .ok (some b', v')
  | fuel, names, b, b', v, v', g, g', htwo, h => by
    unfold retryConstructor at h
    dsimp only at h
    rw [if_neg (by omega)] at h
    unfold firstVerified
    cases hverify : V.verify v ⟨b.name, true, i⟩ with
    | none =>
      simp only [hverify] at h
      cases h
    | some r =>
      obtain ⟨admitted, v₁⟩ := r
      cases admitted with
      | true =>
        simp only [hverify] at h ⊢
        cases h
        rfl
      | false =>
        simp only [hverify] at h ⊢
        split at h
        · cases h
        · rename_i b₁ g₁ hdraw
          cases fuel with
          | zero => cases h
          | succ fuel =>
            simp only [candidates, hdraw]
            refine retryConstructor_of_two fuel ?_ h
            exact htwo.trans (Finset.card_le_card (Finset.subset_insert _ _))

/-- When all other threads have the same name, candidates of that name are passed over until another one comes. -/
theorem retryConstructor_of_one {n : String} : ∀ (fuel : Nat) {b b' : TaskBuilder σ κ α ρ} {v v' : ς} {g g' : γ},
    retryConstructor D V constructors i (fuel + 1) {n} b v g = .ok (b', v', g') →
      firstVerified V i v ((b :: candidates D constructors fuel g).dropWhile fun b => b.name == n) = .ok (some b', v')
  | fuel, b, b', v, v', g, g', h => by
    by_cases hname : b.name = n
    · unfold retryConstructor at h
      dsimp only at h
      rw [if_pos (by simp [hname])] at h
      rw [List.dropWhile_cons, if_pos (by simp [hname])]
      split at h
      · cases h
      · rename_i b₁ g₁ hdraw
        cases fuel with
        | zero => cases h
        | succ fuel =>
          simp only [candidates, hdraw]
          have hnames : (insert b.name {n} : Finset String) = {n} := by simp [hname]
          rw [hnames] at h
          exact retryConstructor_of_one fuel h
    · rw [List.dropWhile_cons, if_neg (by simp [hname])]
      refine retryConstructor_of_two fuel ?_ h
      rw [Finset.card_pair hname]

end Loop

/-! ## A call of `Next` -/

/-- The eligible thread of the highest priority. -/
def indexOfMax (T : Target σ κ ν) (st : Stage σ κ α ν ς ρ (PctState σ κ α ρ γ)) : Nat :=
  (scanPriorities (st.round.world.skips T) st.policy.priorities (List.range st.round.world.threads.length) (0, 0)).2

/-- Thread `i` has no task that has not returned. -/
def World.needsTask (w : World σ κ α ν) (i : Nat) : Prop := ∀ c ∈ w.lastTask i, c.isReturned = true

theorem lastTask_map_seen (w : World σ κ α ν) (i : Nat) :
    (w.lastTask i).map (fun c => (c.name, c.isReturned)) = (w.seen i).getLast? := by
  unfold World.lastTask World.seen
  cases w.threads[i]? <;> simp

theorem lastTask_name (w : World σ κ α ν) (i : Nat) :
    (w.lastTask i).map Coro.name = (w.seen i).getLast?.map Prod.fst := by
  rw [← lastTask_map_seen, Option.map_map]
  rfl

/-- The names of the other threads' tasks are seen. -/
theorem countNames_congr {w w' : World σ κ α ν} (hlen : w'.threads.length = w.threads.length)
    (hseen : ∀ i, w'.seen i = w.seen i) (i : Nat) : countNames w' i = countNames w i := by
  unfold countNames
  simp only [hlen, lastTask_name, hseen]

section Started

variable [Inhabited ν] {T : Target σ κ ν} {V : StrategyVerifier ς κ α ν} {D : Dice γ} {threadsCount fuel : Nat}
  {forbidAllSame : Bool} {st st₁ : Stage σ κ α ν ς ρ (PctState σ κ α ρ γ)} {t : Picked} {w : World σ κ α ν}
  {task : Coro κ α ν}

/-- **What a call of `Next` starts**: the constructor of the loop, or the first one that is drawn. -/
structure Started (T : Target σ κ ν) (V : StrategyVerifier ς κ α ν) (D : Dice γ) (forbidAllSame : Bool) (fuel : Nat)
    (st : Stage σ κ α ν ς ρ (PctState σ κ α ρ γ)) (t : Picked) (st₁ : Stage σ κ α ν ς ρ (PctState σ κ α ρ γ))
    (task : Coro κ α ν) : Prop where
  thread : t.threadId = indexOfMax T st
  needs : t.isNew = true ↔ st.round.world.needsTask t.threadId
  built : t.isNew = true → ∃ b first g, b ∈ st.policy.constructors ∧ task.name = b.name ∧
    drawConstructor D st.policy.constructors st.policy.rng = .ok (first, g) ∧
    (if forbidAllSame then ∃ g', retryConstructor D V st.policy.constructors t.threadId fuel
      (countNames st.round.world t.threadId) first st.round.schedChecker g = .ok (b, st₁.round.schedChecker, g')
    else b = first ∧ st₁.round.schedChecker = st.round.schedChecker) ∧
    ∃ m id g', st₁.round.world.task t.slot = some (b.build m t.threadId id g').1

omit [Inhabited ν] in
theorem pctStrategy_pick {r : Round σ κ α ν ς ρ} {p p' : PctState σ κ α ρ γ} {i : Nat} {asked : List Nat}
    (h : (pctStrategy T V D threadsCount forbidAllSame fuel).pick r p = .ok (i, asked, p')) :
    i = indexOfMax T ⟨r, p⟩ ∧ p' = p.changePriority i ∧
      (scanPriorities (r.world.skips T) p.priorities (List.range r.world.threads.length) (0, 0)).1 ≠ 0 := by
  unfold pctStrategy at h
  dsimp only at h
  split at h
  · cases h
  · rename_i hmax
    cases h
    exact ⟨rfl, rfl, hmax⟩

omit [Inhabited ν] in
theorem pctConstruct_eq_ok {r : Round σ κ α ν ς ρ} {i : Nat} {p p' : PctState σ κ α ρ γ} {b : TaskBuilder σ κ α ρ} {v : ς}
    (h : pctConstruct D V forbidAllSame fuel r i p = .ok (b, v, p')) : ∃ first g,
      drawConstructor D p.constructors p.rng = .ok (first, g) ∧
      if forbidAllSame then ∃ g', retryConstructor D V p.constructors i fuel (countNames r.world i) first r.schedChecker g =
        .ok (b, v, g') else b = first ∧ v = r.schedChecker := by
  unfold pctConstruct at h
  split at h
  · cases h
  · rename_i first g hdraw
    refine ⟨first, g, hdraw, ?_⟩
    cases forbidAllSame with
    | true =>
      simp only [↓reduceIte] at h ⊢
      split at h
      · cases h
      · rename_i b' v' g' hretry
        cases h
        exact ⟨g', hretry⟩
    | false =>
      simp only [Bool.false_eq_true, ↓reduceIte] at h ⊢
      cases h
      exact ⟨rfl, rfl⟩

theorem started_of_next (h : (pctStrategy T V D threadsCount forbidAllSame fuel).next st = .ok (t, st₁))
    (hresume : st₁.round.world.resume T t.slot = .ok w) (htask : w.task t.slot = some task) :
    Started T V D forbidAllSame fuel st t st₁ task := by
  obtain ⟨_, _, hshown⟩ := next_seen h hresume htask
  obtain ⟨asked₀, p₀, hpick₀⟩ := next_pick h
  have hlast := lastTask_map_seen st.round.world t.threadId
  refine ⟨(pctStrategy_pick hpick₀).1, ?_, fun hyes => ?_⟩
  · unfold World.needsTask
    cases hshown with
    | last before hnew hbefore hafter hchecker =>
      rw [hbefore, List.getLast?_concat] at hlast
      obtain ⟨c, hc, hseen⟩ := Option.map_eq_some_iff.1 hlast
      simp only [Prod.mk.injEq] at hseen
      simp [hnew, hc, hseen.2]
    | new asked p p' r b hnew hpick hround hseen hlength hconstruct hpolicy hlast' hname hbuilt hafter =>
      refine iff_of_true hnew fun c hc => ?_
      rw [Option.mem_def.1 hc] at hlast
      exact hlast' _ (Option.mem_def.2 hlast.symm)
  · cases hshown with
    | last before hnew hbefore hafter hchecker =>
      rw [hnew] at hyes
      cases hyes
    | new asked p p' r b hnew hpick hround hseen hlength hconstruct hpolicy hlast' hname hbuilt hafter =>
      obtain ⟨_, rfl, _⟩ := pctStrategy_pick hpick
      obtain ⟨first, g, hdraw, hchoice⟩ := pctConstruct_eq_ok hconstruct
      rw [countNames_congr hlength hseen, hround] at hchoice
      refine ⟨b, first, g, ?_, hname, hdraw, hchoice, r.world.memory, r.newTaskId, r.rng, hbuilt⟩
      split at hchoice
      · obtain ⟨g', hretry⟩ := hchoice
        exact (retryConstructor_admits fuel (mem_of_drawConstructor hdraw) hretry).1
      · rw [hchoice.1]
        exact mem_of_drawConstructor hdraw

end Started

/-! ## Admission -/

/-- A task that is started comes from a constructor that the verifier admits: if it is asked, after it has rejected other
candidates, and else in the state it is in. -/
def Admitted (V : StrategyVerifier ς κ α ν) [Inhabited ν] (asks : Bool)
    (c : NextCall σ κ α ν ς ρ (PctState σ κ α ρ γ)) : Prop :=
  c.picked.isNew = true → ∃ b ∈ c.before.policy.constructors,
    (∃ v v', (if asks then Rejects V c.picked.threadId c.before.round.schedChecker v ∧ c.after.round.schedChecker = v'
      else v = c.before.round.schedChecker) ∧ V.verify v ⟨b.name, true, c.picked.threadId⟩ = some (true, v')) ∧
    ∃ m id g, c.after.round.world.task c.picked.slot = some (b.build m c.picked.threadId id g).1

/-- The verifier is asked, or it would admit the constructor that is drawn for the eligible thread of the highest priority,
if that thread needs a task. -/
def DrawsAdmitted (T : Target σ κ ν) (V : StrategyVerifier ς κ α ν) (D : Dice γ) (forbidAllSame : Bool)
    (st : Stage σ κ α ν ς ρ (PctState σ κ α ρ γ)) : Prop :=
  forbidAllSame = true ∨ (st.round.world.needsTask (indexOfMax T st) → ∀ b g,
    drawConstructor D st.policy.constructors st.policy.rng = .ok (b, g) →
      ∃ v', V.verify st.round.schedChecker ⟨b.name, true, indexOfMax T st⟩ = some (true, v'))

section Admission

variable [Inhabited ν] {T : Target σ κ ν} {V : StrategyVerifier ς κ α ν} {D : Dice γ} {threadsCount fuel : Nat}
  {forbidAllSame : Bool} {init : Stage σ κ α ν ς ρ (PctState σ κ α ρ γ) → Prop}
  {calls : List (NextCall σ κ α ν ς ρ (PctState σ κ α ρ γ))} {st : Stage σ κ α ν ς ρ (PctState σ κ α ρ γ)}
  {c : NextCall σ κ α ν ς ρ (PctState σ κ α ρ γ)} {task : Coro κ α ν}

theorem Playing.started (h : Playing (pctStrategy T V D threadsCount forbidAllSame fuel) init calls st) (hc : c ∈ calls) :
    ∃ w task, c.after.round.world.resume T c.picked.slot = .ok w ∧ w.task c.picked.slot = some task ∧
      Started T V D forbidAllSame fuel c.before c.picked c.after task := by
  obtain ⟨hcall, _, w, task, hresume, htask⟩ := h.call hc
  exact ⟨w, task, hresume, htask, started_of_next hcall hresume htask⟩

/-- A task that is started is admitted when the verifier is asked. -/
theorem Started.admitted (h : Started T V D true fuel c.before c.picked c.after task) : Admitted V true c := by
  intro hnew
  obtain ⟨b, first, g, hb, hname, hdraw, ⟨g', hretry⟩, hbuilt⟩ := h.built hnew
  obtain ⟨_, v, hrejects, hadmits⟩ := retryConstructor_admits fuel (mem_of_drawConstructor hdraw) hretry
  exact ⟨b, hb, ⟨v, _, ⟨hrejects, rfl⟩, hadmits⟩, hbuilt⟩

/-- Without being asked, the verifier admits what is started when it admits what is drawn. -/
theorem Started.admitted_iff (h : Started T V D false fuel c.before c.picked c.after task) :
    Admitted V false c ↔ DrawsAdmitted T V D false c.before := by
  unfold Admitted DrawsAdmitted
  simp only [Bool.false_eq_true, ↓reduceIte, false_or, ← h.thread, ← h.needs]
  refine imp_congr_right fun hnew => ?_
  obtain ⟨b, first, g, hb, hname, hdraw, ⟨rfl, _⟩, m, id, g', hbuilt⟩ := h.built hnew
  constructor
  · rintro ⟨b', _, ⟨v, v', rfl, hverify⟩, m', id', g'', hbuilt'⟩ b₁ g₁ hdraw₁
    cases hdraw.symm.trans hdraw₁
    have hsame : b'.name = b.name := congrArg Coro.name (Option.some.inj (hbuilt'.symm.trans hbuilt))
    rw [← hsame]
    exact ⟨v', hverify⟩
  · intro hdrawn
    obtain ⟨v', hverify⟩ := hdrawn b g hdraw
    exact ⟨b, hb, ⟨_, v', rfl, hverify⟩, m, id, g', hbuilt⟩

theorem Playing.admitted_iff (h : Playing (pctStrategy T V D threadsCount forbidAllSame fuel) init calls st) (hc : c ∈ calls) :
    Admitted V forbidAllSame c ↔ DrawsAdmitted T V D forbidAllSame c.before := by
  obtain ⟨w, task, _, _, hstarted⟩ := h.started hc
  cases forbidAllSame with
  | true => exact iff_of_true hstarted.admitted (.inl rfl)
  | false => exact hstarted.admitted_iff

omit [Inhabited ν] in
theorem Rejects.status {P : Protocol Q String} {status : ς → Nat → Q} (hV : Follows V P status) {i : Nat} {v v' : ς}
    (h : Rejects V i v v') (k : Nat) : status v' k = status v k := by
  induction h with
  | refl v => rfl
  | step name hverify _ ih => rw [ih, (hV.verify hverify).1]

/-- A run of admitted tasks keeps the discipline of the verifier. -/
theorem Playing.pct_disciplined {P : Protocol Q String} {status : ς → Nat → Q} (hV : Follows V P status)
    (h : Playing (pctStrategy T V D threadsCount forbidAllSame fuel) init calls st)
    (hadmitted : ∀ c ∈ calls, Admitted V forbidAllSame c) : Disciplined P status st := by
  refine h.disciplined hV fun c hc w task hresume htask hnew => ?_
  obtain ⟨hcall, _⟩ := h.call hc
  have hstarted := started_of_next hcall hresume htask
  obtain ⟨b, first, g, _, hname, _, hchoice, _, _, _, hbuilt⟩ := hstarted.built hnew
  obtain ⟨b', _, ⟨v, v', hasked, hverify⟩, _, _, _, hbuilt'⟩ := hadmitted c hc hnew
  have hsame : b'.name = b.name := congrArg Coro.name (Option.some.inj (hbuilt'.symm.trans hbuilt))
  obtain ⟨hstatus, hallowed⟩ := hV.verify hverify
  rw [hname, ← hsame]
  cases forbidAllSame with
  | true =>
    obtain ⟨hrejects, rfl⟩ := hasked
    exact ⟨by rw [← hrejects.status hV, ← hallowed], fun i => by rw [hstatus, hrejects.status hV]⟩
  | false =>
    simp only [Bool.false_eq_true, ↓reduceIte] at hasked hchoice
    subst hasked
    exact ⟨hallowed.symm, fun i => by rw [hchoice.2]⟩

end Admission

/-- A thread that may unlock has locked last. -/
theorem mutexProtocol_locked : ∀ {word : List String}, mutexProtocol.Walks mutexProtocol.free word →
    mutexProtocol.allowed (mutexProtocol.reached mutexProtocol.free word) "Unlock" = true →
    ∃ before, word = before ++ ["Lock"] := by
  intro word hwalks hallowed
  have hstatus : mutexProtocol.reached mutexProtocol.free word = 1 := by simpa [mutexProtocol] using hallowed
  rcases List.eq_nil_or_concat' word with rfl | ⟨before, name, rfl⟩
  · simp [mutexProtocol] at hstatus
  · obtain ⟨_, hlast⟩ := Protocol.walks_snoc.1 hwalks
    rw [Protocol.reached_snoc] at hstatus
    have hname : name = "Lock" ∨ name = "Unlock" := by
      simp only [mutexProtocol, Bool.or_eq_true, Bool.and_eq_true, beq_iff_eq] at hlast
      exact hlast.imp And.left And.left
    rcases hname with rfl | rfl
    · exact ⟨before, rfl⟩
    · simp [mutexProtocol] at hstatus

/-- **When `PctStrategy` respects the verifier**: every task that a run starts is admitted if and only if the verifier is
asked or would admit what is drawn. Then a mutex is unlocked only by a thread that has finished a lock since. -/
theorem pct_admits_iff [Inhabited ν] {T : Target σ κ ν} {D : Dice γ} {threadsCount fuel : Nat} {forbidAllSame : Bool} :
    (∀ {ς : Type} {V : StrategyVerifier ς κ α ν} {init : Stage σ κ α ν ς ρ (PctState σ κ α ρ γ) → Prop}
      {calls : List (NextCall σ κ α ν ς ρ (PctState σ κ α ρ γ))} {st : Stage σ κ α ν ς ρ (PctState σ κ α ρ γ)},
      Playing (pctStrategy T V D threadsCount forbidAllSame fuel) init calls st →
        ((∀ c ∈ calls, Admitted V forbidAllSame c) ↔ ∀ c ∈ calls, DrawsAdmitted T V D forbidAllSame c.before)) ∧
    (∀ {init : Stage σ κ α ν (Nat → Nat) ρ (PctState σ κ α ρ γ) → Prop}
      {calls : List (NextCall σ κ α ν (Nat → Nat) ρ (PctState σ κ α ρ γ))}
      {st : Stage σ κ α ν (Nat → Nat) ρ (PctState σ κ α ρ γ)},
      Playing (pctStrategy T mutexVerifier D threadsCount forbidAllSame fuel) init calls st →
      (∀ c ∈ calls, DrawsAdmitted T mutexVerifier D forbidAllSame c.before) →
        ∀ c ∈ calls, c.picked.isNew = true → ∀ task, c.after.round.world.task c.picked.slot = some task →
          task.name = "Unlock" → ∃ before, c.before.round.world.seen c.picked.threadId = before ++ [("Lock", true)]) := by
  refine ⟨fun h => forall₂_congr fun c hc => h.admitted_iff hc, fun h hdraws c hc hnew task htask hname => ?_⟩
  obtain ⟨_, ⟨calls', hbefore, hbegin⟩, _⟩ := h.call hc
  have hadmitted : ∀ c ∈ calls', Admitted mutexVerifier forbidAllSame c := fun c' hc' =>
    (h.admitted_iff (hbegin.subset hc')).2 (hdraws c' (hbegin.subset hc'))
  have hdisciplined := hbefore.pct_disciplined mutexVerifier_follows hadmitted
  -- the call itself is admitted too
  obtain ⟨w, task', hresume, htask', hstarted⟩ := h.started hc
  obtain ⟨b, hb, ⟨v, v', hasked, hverify⟩, m, id, g, hbuilt⟩ := (h.admitted_iff hc).2 (hdraws c hc) hnew
  have hunlock : b.name = "Unlock" := by
    rw [← hname]
    exact congrArg Coro.name (Option.some.inj (hbuilt.symm.trans htask))
  have hstatus : v c.picked.threadId = c.before.round.schedChecker c.picked.threadId := by
    split at hasked
    · exact hasked.1.status mutexVerifier_follows _
    · rw [hasked]
  have hall := hdisciplined.all_returned (i := c.picked.threadId) fun x hx => by
    rw [← lastTask_map_seen, Option.mem_def, Option.map_eq_some_iff] at hx
    obtain ⟨d, hd, rfl⟩ := hx
    exact hstarted.needs.1 hnew d hd
  obtain ⟨_, hallowed⟩ := mutexVerifier_follows.verify hverify
  rw [hunlock, hstatus, hdisciplined.status, finishedNames_of_all hall] at hallowed
  obtain ⟨names, hnames⟩ := mutexProtocol_locked (hdisciplined.walks c.picked.threadId) hallowed.symm
  rcases List.eq_nil_or_concat' (c.before.round.world.seen c.picked.threadId) with hnil | ⟨before, x, hseen⟩
  · rw [hnil] at hnames
    simp at hnames
  · rw [hseen, List.map_append, List.map_singleton] at hnames
    have hlock := (List.append_inj' hnames rfl).2
    have hret := hall x (by rw [hseen]; simp)
    refine ⟨before, ?_⟩
    rw [hseen]
    congr 2
    exact Prod.ext (by simpa using hlock) hret

/-- Mutexes that two threads of counters lock and unlock. -/
def pctCounters (forbidAllSame : Bool) : Strategy Nat Bool Unit Nat (Nat → Nat) Unit (PctState Nat Bool Unit Unit Nat) :=
  pctStrategy counterTarget mutexVerifier cyclicDice 2 forbidAllSame 10

/-- Two threads of counters before their first round, with tasks of these names. -/
def freshPct (names : List String) : Stage Nat Bool Unit Nat (Nat → Nat) Unit (PctState Nat Bool Unit Unit Nat) where
  round := ⟨⟨0, [[], []], none⟩, 0, ∅, [none, none], fun _ => 0, ()⟩
  policy := pctStart cyclicDice 2 (names.map counterBuilder) 0

theorem freshPct_playing (forbidAllSame : Bool) (names : List String) :
    Playing (pctCounters forbidAllSame) (· = freshPct names) [] (freshPct names) :=
  .start rfl (by simp [freshPct]) rfl

/-- The verifier is asked, and the thread that locks unlocks next. -/
theorem pct_admits_iff_freshPct : ∃ calls st, Playing (pctCounters true) (· = freshPct ["Lock", "Unlock"]) calls st ∧
    (∀ c ∈ calls, Admitted mutexVerifier true c) ∧ ∃ c ∈ calls, c.picked.isNew = true ∧
      (c.after.round.world.task c.picked.slot).map Coro.name = some "Unlock" ∧
      ∃ before, c.before.round.world.seen c.picked.threadId = before ++ [("Lock", true)] := by
  obtain ⟨⟨calls, st⟩, hrun, hcalls⟩ := ok_of_toOption (x := playCalls (pctCounters true) 3 (freshPct ["Lock", "Unlock"]))
    (f := fun (calls, _) => (calls[2]?).map fun c =>
      (c.picked.isNew, (c.after.round.world.task c.picked.slot).map Coro.name))
    (b := some (true, some "Unlock")) (by decide +kernel)
  obtain ⟨c, hc, hseen⟩ := Option.map_eq_some_iff.1 hcalls
  simp only [Prod.mk.injEq] at hseen
  have hplaying := Playing.playCalls 3 (freshPct_playing true _) hrun
  have hmem : c ∈ [] ++ calls := List.mem_of_getElem? hc
  refine ⟨_, st, hplaying, (pct_admits_iff.1 hplaying).2 fun _ _ => .inl rfl, c, hmem, hseen.1, hseen.2, ?_⟩
  obtain ⟨task, htask, hname⟩ := Option.map_eq_some_iff.1 hseen.2
  exact pct_admits_iff.2 hplaying (fun _ _ => .inl rfl) c hmem hseen.1 task htask hname

/-- **The verifier is not asked without `forbid_all_same`**: the first task of a thread unlocks a mutex. -/
theorem pct_starts_unlock : ∃ calls st, Playing (pctCounters false) (· = freshPct ["Lock", "Unlock"]) calls st ∧
    ∃ c ∈ calls, ¬Admitted mutexVerifier false c ∧ c.picked.isNew = true ∧
      (c.after.round.world.task c.picked.slot).map Coro.name = some "Unlock" ∧
      c.before.round.world.seen c.picked.threadId = [] := by
  obtain ⟨⟨calls, st⟩, hrun, hcalls⟩ := ok_of_toOption (x := playCalls (pctCounters false) 1 (freshPct ["Lock", "Unlock"]))
    (f := fun (calls, _) => (calls[0]?).map fun c => (c.picked.isNew,
      (c.after.round.world.task c.picked.slot).map Coro.name,
      decide (c.before.round.world.seen c.picked.threadId = [] ∧ c.before.round.schedChecker c.picked.threadId = 0)))
    (b := some (true, some "Unlock", true)) (by decide +kernel)
  obtain ⟨c, hc, hseen⟩ := Option.map_eq_some_iff.1 hcalls
  simp only [Prod.mk.injEq, decide_eq_true_eq] at hseen
  have hmem : c ∈ [] ++ calls := List.mem_of_getElem? hc
  refine ⟨_, st, Playing.playCalls 1 (freshPct_playing false _) hrun, c, hmem, fun hadmitted => ?_, hseen.1, hseen.2.1,
    hseen.2.2.1⟩
  obtain ⟨b, _, ⟨v, v', rfl, hverify⟩, m, id, g, hbuilt⟩ := hadmitted hseen.1
  have hname : b.name = "Unlock" := by
    rw [hbuilt] at hseen
    exact Option.some.inj hseen.2.1
  simp [mutexVerifier, MutexVerifier.verify, hname, hseen.2.2.2] at hverify

/-! ## The same name in all threads -/

/-- The name of a task that is started, and those of the other threads' last tasks, are not all the same. -/
def NotAllSame (c : NextCall σ κ α ν ς ρ (PctState σ κ α ρ γ)) : Prop :=
  c.picked.isNew = true → (countNames c.before.round.world c.picked.threadId).Nonempty →
    ∀ task, c.after.round.world.task c.picked.slot = some task →
      2 ≤ (insert task.name (countNames c.before.round.world c.picked.threadId)).card

/-- When the other threads' last tasks all have one name, then of the candidates from the first one with another name on,
the first that the verifier admits has another name too. -/
def AdmitsAnother (T : Target σ κ ν) (V : StrategyVerifier ς κ α ν) (D : Dice γ) (fuel : Nat)
    (st : Stage σ κ α ν ς ρ (PctState σ κ α ρ γ)) : Prop :=
  st.round.world.needsTask (indexOfMax T st) → ∀ n, countNames st.round.world (indexOfMax T st) = {n} → ∀ b v,
    firstVerified V (indexOfMax T st) st.round.schedChecker
      ((candidates D st.policy.constructors fuel st.policy.rng).dropWhile fun b => b.name == n) = .ok (some b, v) →
    b.name ≠ n

theorem mem_countNames {w : World σ κ α ν} {i : Nat} {n : String} : n ∈ countNames w i ↔
    ∃ k < w.threads.length, k ≠ i ∧ (w.lastTask k).map Coro.name = some n := by
  unfold countNames
  simp only [List.mem_toFinset, List.mem_filterMap, List.mem_range]
  refine exists_congr fun k => and_congr_right fun _ => ?_
  split <;> simp_all

section Names

variable [Inhabited ν] {T : Target σ κ ν} {V : StrategyVerifier ς κ α ν} {D : Dice γ} {threadsCount fuel : Nat}
  {init : Stage σ κ α ν ς ρ (PctState σ κ α ρ γ) → Prop} {calls : List (NextCall σ κ α ν ς ρ (PctState σ κ α ρ γ))}
  {st : Stage σ κ α ν ς ρ (PctState σ κ α ρ γ)} {c : NextCall σ κ α ν ς ρ (PctState σ κ α ρ γ)} {task : Coro κ α ν}

theorem Started.notAllSame_iff (h : Started T V D true fuel c.before c.picked c.after task) :
    NotAllSame c ↔ AdmitsAnother T V D fuel c.before := by
  unfold NotAllSame AdmitsAnother
  rw [← h.thread, ← h.needs]
  refine imp_congr_right fun hnew => ?_
  obtain ⟨b, first, g, hb, hname, hdraw, ⟨g', hretry⟩, m, id, g'', hbuilt⟩ := h.built hnew
  obtain ⟨fuel, rfl⟩ : ∃ fuel', fuel = fuel' + 1 := by
    cases fuel with
    | zero => cases hretry
    | succ fuel' => exact ⟨fuel', rfl⟩
  have hcandidates : candidates D c.before.policy.constructors (fuel + 1) c.before.policy.rng =
      first :: candidates D c.before.policy.constructors fuel g := by simp only [candidates, hdraw]
  rw [hcandidates]
  have hbuilt_name : ∀ task, c.after.round.world.task c.picked.slot = some task → task.name = b.name := fun task htask =>
    congrArg Coro.name (Option.some.inj (htask.symm.trans hbuilt))
  constructor
  · rintro htwo n hnames b' v' hfirst hsame
    rw [hnames] at hretry htwo
    -- the loop ends with the candidate that is found so
    cases (retryConstructor_of_one fuel hretry).symm.trans hfirst
    have hcard := htwo (Finset.singleton_nonempty n) _ hbuilt
    rw [hbuilt_name _ hbuilt, hsame] at hcard
    simp at hcard
  · intro hanother hnonempty task htask
    rw [hbuilt_name task htask]
    by_cases hone : (countNames c.before.round.world c.picked.threadId).card = 1
    · obtain ⟨n, hnames⟩ := Finset.card_eq_one.1 hone
      rw [hnames] at hretry ⊢
      rw [Finset.card_pair (hanother n hnames b _ (retryConstructor_of_one fuel hretry))]
    · have hpos := hnonempty.card_pos
      have hle := Finset.card_le_card (Finset.subset_insert b.name (countNames c.before.round.world c.picked.threadId))
      omega

/-- Where the names are not all the same, they are not all the same after the call either. -/
theorem Playing.not_all_same (h : Playing (pctStrategy T V D threadsCount true fuel) init calls st) (hc : c ∈ calls)
    (hsame : NotAllSame c) (hnew : c.picked.isNew = true) (htwo : 2 ≤ c.after.round.world.threads.length) :
    ¬∃ n, ∀ k < c.after.round.world.threads.length, (c.after.round.world.lastTask k).map Coro.name = some n := by
  rintro ⟨n, hall⟩
  obtain ⟨hcall, _, w, task, hresume, htask⟩ := h.call hc
  obtain ⟨hthread, hother, hshown⟩ := next_seen hcall hresume htask
  have hlen := next_length hcall
  -- a resume changes no names
  have hnames : ∀ k, (c.after.round.world.lastTask k).map Coro.name = (w.seen k).getLast?.map Prod.fst := by
    intro k
    rw [← lastTask_name]
    have halike := congrArg (fun l => (l[k]?.getD []).getLast?.map Coro.name) (alike_resume hresume)
    simp only [List.getElem?_map] at halike
    unfold World.lastTask
    cases hw : w.threads[k]? <;> cases ha : c.after.round.world.threads[k]? <;>
      simp_all [Function.comp_def, Coro.restart, Coro.new]
  cases hshown with
  | last before hold hbefore hafter hchecker =>
    rw [hold] at hnew
    cases hnew
  | new asked p p' r b hnew hpick hround hseen hlength hconstruct hpolicy hlast hname hbuilt hafter =>
    have hmine : task.name = n := by
      obtain ⟨tasks, htasks, _⟩ := World.task_eq_some.1 hbuilt
      have hlt := (List.getElem?_eq_some_iff.1 htasks).1
      have hlastName := hnames c.picked.threadId
      rw [hafter, hall _ (hthread ▸ hlt)] at hlastName
      simpa using hlastName.symm
    -- the other threads have the name already
    have hthey : countNames c.before.round.world c.picked.threadId = {n} := by
      ext n'
      rw [mem_countNames, Finset.mem_singleton, ← hlen]
      constructor
      · rintro ⟨k, hk, hne, hkname⟩
        rw [lastTask_name, ← hother k hne, ← hnames, hall k hk] at hkname
        exact (Option.some.inj hkname).symm
      · rintro rfl
        obtain ⟨k, hk, hne⟩ : ∃ k < c.after.round.world.threads.length, k ≠ c.picked.threadId := by
          by_cases hzero : c.picked.threadId = 0
          · exact ⟨1, by omega, by omega⟩
          · exact ⟨0, by omega, Ne.symm hzero⟩
        exact ⟨k, hk, hne, by rw [lastTask_name, ← hother k hne, ← hnames, hall k hk]⟩
    have hcard : 2 ≤ (insert b.name (countNames c.before.round.world c.picked.threadId)).card :=
      hsame hnew (by rw [hthey]; exact Finset.singleton_nonempty n) _ hbuilt
    rw [hthey, ← hname, hmine] at hcard
    simp at hcard

end Names

/-- **When `forbid_all_same` is enforced**: in a run of at least two threads the names are never all the same if and only if
the verifier, once it has rejected a candidate with another name than that of all other threads, admits another one first. -/
theorem pct_forbids_iff [Inhabited ν] {T : Target σ κ ν} {V : StrategyVerifier ς κ α ν} {D : Dice γ} {threadsCount fuel : Nat}
    {init : Stage σ κ α ν ς ρ (PctState σ κ α ρ γ) → Prop} {calls : List (NextCall σ κ α ν ς ρ (PctState σ κ α ρ γ))}
    {st : Stage σ κ α ν ς ρ (PctState σ κ α ρ γ)}
    (h : Playing (pctStrategy T V D threadsCount true fuel) init calls st) :
    ((∀ c ∈ calls, NotAllSame c) ↔ ∀ c ∈ calls, AdmitsAnother T V D fuel c.before) ∧
    ((∀ c ∈ calls, AdmitsAnother T V D fuel c.before) → ∀ c ∈ calls, c.picked.isNew = true →
      2 ≤ c.after.round.world.threads.length →
      ¬∃ n, ∀ k < c.after.round.world.threads.length, (c.after.round.world.lastTask k).map Coro.name = some n) := by
  have hiff : ∀ c ∈ calls, (NotAllSame c ↔ AdmitsAnother T V D fuel c.before) := fun c hc => by
    obtain ⟨w, task, _, _, hstarted⟩ := h.started hc
    exact hstarted.notAllSame_iff
  exact ⟨forall₂_congr hiff, fun hadmits c hc hnew htwo => h.not_all_same hc ((hiff c hc).2 (hadmits c hc)) hnew htwo⟩

/-- A round of one task, and the first two tasks of the next round. -/
def twoLocks : Except Halt (List (NextCall Nat Bool Unit Nat (Nat → Nat) Unit (PctState Nat Bool Unit Unit Nat)) ×
    Stage Nat Bool Unit Nat (Nat → Nat) Unit (PctState Nat Bool Unit Unit Nat)) := do
  let (calls, st) ← playCalls (pctCounters true) 2 (freshPct ["Lock", "Unlock"])
  let st ← (pctCounters true).startNextRound 10 st
  let (calls', st) ← playCalls (pctCounters true) 2 st
  return (calls ++ calls', st)

theorem twoLocks_playing {calls : List (NextCall Nat Bool Unit Nat (Nat → Nat) Unit (PctState Nat Bool Unit Unit Nat))}
    {st : Stage Nat Bool Unit Nat (Nat → Nat) Unit (PctState Nat Bool Unit Unit Nat)} (h : twoLocks = .ok (calls, st)) :
    Playing (pctCounters true) (· = freshPct ["Lock", "Unlock"]) calls st := by
  obtain ⟨⟨calls₁, st₁⟩, hfirst, h⟩ := bind_eq_ok.1 h
  obtain ⟨st₂, hstart, h⟩ := bind_eq_ok.1 h
  obtain ⟨⟨calls₂, st₃⟩, hsecond, h⟩ := bind_eq_ok.1 h
  cases h
  exact Playing.playCalls 2 (.startNextRound (Playing.playCalls 2 (freshPct_playing true _) hfirst) hstart) hsecond

/-- **All threads lock**: the second thread rejects to unlock, and then both names are there. -/
theorem pct_starts_all_same : ∃ calls st, Playing (pctCounters true) (· = freshPct ["Lock", "Unlock"]) calls st ∧
    ∃ c ∈ calls, ¬NotAllSame c ∧
      ∀ k < c.after.round.world.threads.length, (c.after.round.world.lastTask k).map Coro.name = some "Lock" := by
  obtain ⟨⟨calls, st⟩, hrun, hcalls⟩ := ok_of_toOption (x := twoLocks)
    (f := fun (calls, _) => (calls[3]?).map fun c => (c.picked.isNew, countNames c.before.round.world c.picked.threadId,
      (c.after.round.world.task c.picked.slot).map Coro.name,
      decide (∀ k < c.after.round.world.threads.length, (c.after.round.world.lastTask k).map Coro.name = some "Lock")))
    (b := some (true, {"Lock"}, some "Lock", true)) (by decide +kernel)
  obtain ⟨c, hc, hseen⟩ := Option.map_eq_some_iff.1 hcalls
  simp only [Prod.mk.injEq, decide_eq_true_eq] at hseen
  obtain ⟨hnew, hnames, hname, hall⟩ := hseen
  refine ⟨calls, st, twoLocks_playing hrun, c, List.mem_of_getElem? hc, fun hnot => ?_, hall⟩
  obtain ⟨task, htask, hlock⟩ := Option.map_eq_some_iff.1 hname
  have hcard := hnot hnew (by rw [hnames]; exact Finset.singleton_nonempty _) task htask
  rw [hnames, hlock] at hcard
  simp at hcard

/-- In this run, and in every other. -/
theorem pct_forbids_iff_twoLocks : ∃ calls st, Playing (pctCounters true) (· = freshPct ["Lock", "Unlock"]) calls st ∧
    calls.length = 4 ∧
    ((∀ c ∈ calls, NotAllSame c) ↔ ∀ c ∈ calls, AdmitsAnother counterTarget mutexVerifier cyclicDice 10 c.before) := by
  obtain ⟨⟨calls, st⟩, hrun, hcalls⟩ := ok_of_toOption (x := twoLocks) (f := fun (calls, _) => calls.length) (b := 4)
    (by decide +kernel)
  have hplaying := twoLocks_playing hrun
  exact ⟨calls, st, hplaying, hcalls, (pct_forbids_iff hplaying).1⟩

end Ltest
