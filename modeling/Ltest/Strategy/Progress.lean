import Ltest.Strategy.Fairness
import Ltest.Strategy.Generated

/-!
# Rounds that go on

`RunRound` fails when an assertion of `Next` fails: that a thread can be picked, that a constructor is admitted. When the
invariant of a target always leaves a thread that is neither parked nor blocked, `Next` never fails with the strategies that
pick such a thread (`PicksEligible`) and a verifier that always admits something (`IsPickStrategy.next_ok`), and a round
fails no assertion at all (`RoundRule.generate_error`).
-/

namespace Ltest

open Program

variable {σ κ α ν ς ρ π γ Q : Type}

/-- With `n` threads, one of them is picked if any is eligible. -/
def PicksEligible (S : Strategy σ κ α ν ς ρ π) (n : Nat) : Prop := ∀ r p i, r.world.threads.length = n →
  r.Eligible S.target .pick i → ∃ k asked p', S.pick r p = .ok (k, asked, p') ∧ k < n

section Picks

variable {T : Target σ κ ν} {V : StrategyVerifier ς κ α ν} {D : Dice γ} {n : Nat}

theorem picksEligible_roundRobin : PicksEligible (roundRobinStrategy (ρ := ρ) T V D) n := by
  intro r p i hn heligible
  cases hpick : roundRobinPick T r.world r.world.threads.length [] p.nextTask with
  | error e =>
    obtain ⟨k, hk, rfl⟩ := exists_add_mod p.nextTask heligible.1
    exact absurd heligible (roundRobinPick_deadlock hpick k hk)
  | ok x =>
    obtain ⟨k, asked, next⟩ := x
    refine ⟨k, asked, { p with nextTask := next }, map_eq_ok.2 ⟨_, hpick, rfl⟩, ?_⟩
    rw [(roundRobinPick_scanned hpick).thread, ← hn]
    exact Nat.mod_lt _ (Nat.zero_lt_of_lt heligible.1)

theorem picksEligible_random {weights : List Int} (hpos : ∀ i < n, 0 < weights.getD i 0) :
    PicksEligible (randomStrategy (ρ := ρ) T V D weights) n := by
  intro r p i hn heligible
  have hskips : r.world.skips T i = false := by
    rw [← Bool.not_eq_true]
    exact fun hskips => not_eligible_of_skips hskips heligible
  have hmem : i ∈ (List.range r.world.threads.length).filter fun i => !r.world.skips T i :=
    List.mem_filter.2 ⟨List.mem_range.2 heligible.1, by simp [hskips]⟩
  have hlt : ∀ i ∈ (List.range r.world.threads.length).filter fun i => !r.world.skips T i, i < n := by
    intro k hk
    rw [← hn]
    exact List.mem_range.1 (List.mem_filter.1 hk).1
  obtain ⟨k, g, hdraw, hk⟩ | ⟨-, hempty⟩ := drawThread_spec (D := D) (g := p.rng) fun i hi => hpos i (hlt i hi)
  · exact ⟨k, _, _, map_eq_ok.2 ⟨(k, g), hdraw, rfl⟩, hlt k hk⟩
  · rw [hempty] at hmem
    cases hmem

end Picks

/-- The loop over the constructors does not fail if the verifier knows all their names. -/
theorem firstVerified_ok {V : StrategyVerifier ς κ α ν} {i : Nat} : ∀ (v : ς) (bs : List (TaskBuilder σ κ α ρ)),
    (∀ v, ∀ b ∈ bs, V.verify v ⟨b.name, true, i⟩ ≠ none) → ∃ x, firstVerified V i v bs = .ok x
  | v, [], _ => ⟨_, rfl⟩
  | v, b :: bs, h => by
    unfold firstVerified
    split
    · rename_i hnone
      exact absurd hnone (h v b List.mem_cons_self)
    · exact ⟨_, rfl⟩
    · exact firstVerified_ok _ bs fun v b hb => h v b (List.mem_cons_of_mem _ hb)

section Rounds

variable [Inhabited ν]

/-- **`PickStrategy` always finds a task to go on with**, if a thread is eligible and the verifier admits something. -/
theorem IsPickStrategy.next_ok {T : Target σ κ ν} {V : StrategyVerifier ς κ α ν} {D : Dice γ} {P : Protocol Q String}
    {status : ς → Nat → Q} {S : Strategy σ κ α ν ς ρ (PickState σ κ α ρ γ)} {names : List String}
    {calls : List (NextCall σ κ α ν ς ρ (PickState σ κ α ρ γ))} {st : Stage σ κ α ν ς ρ (PickState σ κ α ρ γ)} {i : Nat}
    (hS : IsPickStrategy T V D S) (hV : Follows V P status)
    (hnames : ∀ v name i, name ∈ names → V.verify v ⟨name, true, i⟩ ≠ none)
    (hprogress : ∀ word, ∃ name ∈ names, P.allowed (P.reached P.free word) name = true)
    (hpicks : PicksEligible S st.round.world.threads.length) (hi : st.round.Eligible S.target .pick i)
    (h : Playing S (Equipped names) calls st) : ∃ r, S.next st = .ok r := by
  obtain ⟨k, asked, p, hpick, hk⟩ := hpicks st.round st.policy i rfl hi
  have hno := h.next_ne_noConstructor hS hV hprogress
  unfold Strategy.next at hno ⊢
  rw [hpick] at hno ⊢
  dsimp only [ok_bind] at hno ⊢
  rw [← World.ask] at hno ⊢
  have hlen : (st.round.world.ask S.target asked).threads.length = st.round.world.threads.length := by
    unfold World.ask
    simpa using congrArg List.length (alike_asked S.target asked st.round.world)
  unfold Strategy.nextOn at hno ⊢
  dsimp only at hno ⊢
  rw [List.getElem?_eq_getElem (by rw [hlen]; exact hk)] at hno ⊢
  dsimp only at hno ⊢
  split
  · exact ⟨_, rfl⟩
  · rename_i hnone
    rw [hnone] at hno
    dsimp only at hno
    rw [hS.construct_eq] at hno ⊢
    -- the verifier knows the names of the constructors, so the loop over them comes to an end
    obtain ⟨⟨found, v⟩, hfirst⟩ := firstVerified_ok (V := V) (i := k) st.round.schedChecker
      (D.shuffle p.constructors p.rng).1 fun v b hb => by
        refine hnames v b.name k (((h.equipped hS).mem_iff).1 (List.mem_map.2 ⟨b, ?_, rfl⟩))
        rw [← hS.pick_constructors hpick]
        exact (D.shuffle_perm _ _).mem_iff.1 hb
    unfold pickConstruct at hno ⊢
    dsimp only at hno ⊢
    rw [hfirst] at hno ⊢
    cases found with
    | none => exact absurd rfl hno
    | some b => exact ⟨_, rfl⟩

variable {S : Strategy σ κ α ν ς ρ π} {K : Stage σ κ α ν ς ρ π → Prop}
  {admits : World σ κ α ν → Nat → TaskBuilder σ κ α ρ → Prop} {I : World σ κ α ν → ρ → List (HistoryEvent Slot ν) → Prop}

/-- **A round in which `Next` never fails** fails no assertion. -/
theorem RoundRule.playTasks_error {e : Halt} (hI : RoundRule S.target admits I) (hS : Starts S K admits)
    (hok : ∀ {st} seq, K st → I st.round.world st.round.rng seq → ∃ r, S.next st = .ok r) : ∀ (fuel left : Nat)
    {st : Stage σ κ α ν ς ρ π} {h : BothHistories ν}, K st → I st.round.world st.round.rng h.seq →
    playTasks S.target S.next S.onVerifierTaskFinish fuel left st h = .error e → e = .outOfFuel
  | _, 0, st, h, _, _, herror => by
    unfold playTasks at herror
    cases herror
  | 0, _ + 1, _, _, _, _, herror => by
    cases herror
    rfl
  | fuel + 1, left + 1, st, h, hK, h₀, herror => by
    obtain ⟨⟨t, st₁⟩, hnext⟩ := hok h.seq hK h₀
    obtain ⟨-, before, c, hthread, hr, -, hslot⟩ := hI.next hS hK h₀ hnext
    obtain ⟨w, task, hresume, htask⟩ : ∃ w task, st₁.round.world.resume S.target t.slot = .ok w ∧
        w.task t.slot = some task := by
      rw [hslot]
      have hlt := (List.getElem?_eq_some_iff.1 hthread).1
      exact ⟨_, (c.resume S.target st₁.round.world.memory).1, resume_last hthread hr,
        World.task_eq_some.2 ⟨_, List.getElem?_set_self hlt, by simp⟩⟩
    have hlogged : resumeLogged S.target t st₁.round.world h = .ok (task, w, (h.push t).respond t task) :=
      resumeLogged_eq_ok.2 ⟨hresume, htask, rfl⟩
    have hK' := hS.pass hK hnext hresume htask
    have h' := hI.pass hS hK h₀ hnext hresume htask
    unfold playTasks at herror
    rw [hnext, ok_bind] at herror
    dsimp only at herror
    rw [hlogged, ok_bind] at herror
    dsimp only at herror
    split at herror
    · rename_i hret
      rw [if_pos hret] at hK'
      exact playTasks_error hI hS hok fuel left hK' h' herror
    · rename_i hret
      rw [if_neg hret] at hK'
      exact playTasks_error hI hS hok fuel (left + 1) hK' h' herror

/-- **`RunRound`** then only fails to end. -/
theorem RoundRule.generate_error {fuel maxTasks : Nat} {st : Stage σ κ α ν ς ρ π} {e : Halt}
    (hI : RoundRule S.target admits I) (hS : Starts S K admits)
    (hok : ∀ {st} seq, K st → I st.round.world st.round.rng seq → ∃ r, S.next st = .ok r) (hK : K st)
    (h₀ : I st.round.world st.round.rng []) (herror : S.generate fuel maxTasks st = .error e) : e = .outOfFuel :=
  hI.playTasks_error hS hok fuel maxTasks hK (h := ⟨[], []⟩) h₀ herror

end Rounds

end Ltest
