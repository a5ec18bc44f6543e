import Ltest.Lincheck.Agree

/-!
# What the iterative checker keeps

The stacks of `Check` hold the sections that are open: the invokes that have been linearized so far and the states they
were linearized in (`Wgl.Sections`). They are a way from the start to the current node that respects the real-time order,
whatever the hash and equality functors answer, since these only decide which moves are skipped. `Searching` is kept by
every pass of the loop (`Searching.step`). So the counter and the stacks are right in every state, a node with all bits
set linearizes the history (`Sections.ext`), and the loop ends inside the history with a verdict (`check_sound`).
-/

namespace Ltest

namespace Wgl

variable {τ α ν σ : Type} [BEq ν] {C : Call τ α ν σ} {hashing : Hashing σ} {first : σ}

/-! ## Open sections -/

/-- The open sections lead from the start to the node `(lin, s)`. -/
inductive Sections (C : Call τ α ν σ) (first : σ) : List Nat → List σ → List Bool → σ → Prop
  | nil : Sections C first [] [] (List.replicate C.history.length false) first
  | cons {opened : List Nat} {states : List σ} {lin : List Bool} {s s' : σ} {p : Nat} :
      Sections C first opened states lin s → C.OK lin → lin[p]? = some false → C.Step s p s' → C.Minimal lin p →
      Sections C first (p :: opened) (s :: states) (C.setBits lin p true) s'

section Facts

variable {opened : List Nat} {states : List σ} {lin : List Bool} {s : σ}

theorem Sections.length (h : Sections C first opened states lin s) : states.length = opened.length := by
  induction h with
  | nil => rfl
  | cons _ _ _ _ _ ih => simp [ih]

/-- The open sections begin at invokes. -/
theorem Sections.invokes (h : Sections C first opened states lin s) : ∀ p ∈ opened, ∃ t, InvokeAt C.history p t := by
  induction h with
  | nil => simp
  | cons _ _ _ hs _ ih =>
    obtain ⟨t, _, hi, _⟩ := hs
    exact List.forall_mem_cons.2 ⟨⟨t, hi⟩, ih⟩

/-- A node that can be finished is one way to finish the start. -/
theorem Sections.ext (hC : C.Matched) (h : Sections C first opened states lin s) : C.Owned lin ∧ C.Ext lin s →
    C.Owned (List.replicate C.history.length false) ∧ C.Ext (List.replicate C.history.length false) first := by
  induction h with
  | nil => exact id
  | cons _ hok hp hs hmin ih => exact fun hext => ih (Call.ext_of_move hC hok hp hs hmin hext.1 hext.2)

end Facts

/-! ## The states of the loop -/

/-- **The invariant of the loop.** -/
inductive Searching (C : Call τ α ν σ) (first : σ) : State σ → Prop
  | mk {lin : List Bool} {s : σ} {p : Nat} {opened : List Nat} {states : List σ} {cache : List (List Bool × σ)} :
      C.OK lin → Sections C first opened states lin s → C.Minimal lin p →
      Searching C first (mk lin s p opened states cache)

omit [BEq ν] in
/-- No response is passed over. -/
theorem minimal_next {lin : List Bool} {p : Nat} (h : C.Minimal lin p)
    (hp : lin[p]? = some true ∨ ∃ t, InvokeAt C.history p t) : C.Minimal lin (p + 1) := by
  intro k t hk hkf
  obtain hlt | rfl := Nat.lt_succ_iff_lt_or_eq.1 hk
  · exact h k t hlt hkf
  · obtain hp | ⟨t', hi⟩ := hp
    · rw [hp] at hkf
      cases hkf
    · exact hi.not_response

/-- **A pass keeps the invariant.** -/
theorem Searching.step (hC : C.Matched) {st st' : State σ} (h : Searching C first st) (hstep : step C hashing st = .ok st') :
    Searching C first st' := by
  obtain @⟨lin, s, p, opened, states, cache, hok, hsec, hmin⟩ := h
  by_cases hgo : lin.all id = true
  · cases (step_done hok hgo).symm.trans hstep
  cases hp : lin[p]? with
  | none =>
    unfold Wgl.step at hstep
    simp [Wgl.mk, (count_eq_iff hok).not.2 hgo, hp] at hstep
  | some b =>
    cases b with
    | true =>
      cases (step_skip hok hgo hp).symm.trans hstep
      exact .mk hok hsec (minimal_next hmin (.inl hp))
    | false =>
      have hlt : p < C.history.length := by
        rw [← hok.length]
        exact (List.getElem?_eq_some_iff.1 hp).1
      obtain ⟨t, hi⟩ | ⟨t, hr⟩ := invoke_or_response hlt
      · have hnext := minimal_next hmin (.inr ⟨t, hi⟩)
        cases hm : C.methods (C.view t).name with
        | none => cases (step_unnamed hok hgo hp hi hm).symm.trans hstep
        | some method =>
          by_cases hadm : ((C.invRes p).isNone || (method s (C.view t).args).1 == (C.view t).retVal) = true
          · by_cases hhit : hashing.find cache (C.setBits lin p true, (method s (C.view t).args).2) = true
            · cases (step_hit hok hgo hp hi hm hadm hhit).symm.trans hstep
              exact .mk hok hsec hnext
            · cases (step_open hok hgo hC hp hi hm hadm hhit).symm.trans hstep
              have hstep : C.Step s p (method s (C.view t).args).2 := by
                refine ⟨t, method, hi, hm, fun hne => ?_, rfl⟩
                simpa [Option.isNone_iff_eq_none, hne] using hadm
              exact .mk (hok.setBits hC hi true) (.cons hsec hok hp hstep hmin) fun k _ hk => absurd hk (Nat.not_lt_zero k)
          · cases (step_refuse hok hgo hp hi hm hadm).symm.trans hstep
            exact .mk hok hsec hnext
      · cases hsec with
        | nil => cases (step_refuted hok hgo hp hr).symm.trans hstep
        | cons hsec hok₀ hp₀ hs hmin₀ =>
          obtain ⟨t', _, hi, _⟩ := hs
          cases (step_close hC hok₀ hp₀ hi hp hr).symm.trans hstep
          exact .mk hok₀ hsec (minimal_next hmin₀ (.inr ⟨t', hi⟩))

/-- How the loop can end in a state. -/
inductive Exit (C : Call τ α ν σ) (st : State σ) : Halt → Prop
  | linearized : st.linearizedEntriesCount = C.history.length → Exit C st (.returned true)
  | refuted : Exit C st (.returned false)
  | unnamed (i : Nat) (t : τ) : InvokeAt C.history i t → C.methods (C.view t).name = none → Exit C st .assertFailed
  | outOfBounds : Exit C st .outOfBounds
  | emptyStack : Exit C st .emptyStack

theorem exit_of_step {st : State σ} {h : Halt} (hstep : step C hashing st = .error h) : Exit C st h := by
  unfold Wgl.step at hstep
  split at hstep
  · rename_i hcount
    cases hstep
    exact .linearized hcount
  · split at hstep
    · cases hstep
      exact .outOfBounds
    · cases hstep
    · split at hstep
      · cases hstep
        exact .outOfBounds
      · rename_i task th hi
        split at hstep
        · rename_i hm
          cases hstep
          exact .unnamed _ task ⟨th, hi⟩ hm
        · dsimp only at hstep
          split at hstep
          · split at hstep <;> cases hstep
          · cases hstep
      · split at hstep
        · cases hstep
          exact .refuted
        · cases hstep
          exact .emptyStack
        · cases hstep

/-- What is safe about a state of the loop: the counter, the stacks and the indices, and how the loop can end. -/
structure Safe (C : Call τ α ν σ) (hashing : Hashing σ) (st : State σ) : Prop where
  counter : st.linearizedEntriesCount = st.linearized.count true
  stackSizes : st.statesStack.length = st.openSectionsStack.length
  bits : st.linearized.length = C.history.length
  sections : ∀ p ∈ st.openSectionsStack, p < C.history.length
  cursor : st.linearizedEntriesCount ≠ C.history.length → st.currentSectionStart < C.history.length
  exits : ∀ h, step C hashing st = .error h → ∃ b, h = .returned b

/-- The invariant is safe in a loop that ends with a verdict. -/
theorem Searching.safe {st : State σ} (h : Searching C first st)
    (hexits : ∀ h, Wgl.step C hashing st = .error h → ∃ b, h = .returned b) : Safe C hashing st := by
  obtain @⟨lin, s, p, opened, states, cache, hok, hsec, hmin⟩ := h
  refine ⟨rfl, hsec.length, hok.length, fun q hq => ?_, fun hne => ?_, hexits⟩
  · obtain ⟨t, hi⟩ := hsec.invokes q hq
    exact hi.lt
  · by_contra hge
    have hnone : lin[p]? = none := by
      rw [List.getElem?_eq_none_iff, hok.length]
      exact Nat.le_of_not_lt hge
    have hne : ¬lin.count true = C.history.length := hne
    obtain ⟨b, hb⟩ := hexits .outOfBounds (by simp [Wgl.step, Wgl.mk, hne, hnone])
    cases hb

/-- A loop that returns `true` has all bits set. -/
theorem Searching.ext {st : State σ} (hC : C.Matched) (h : Searching C first st)
    (hstep : Wgl.step C hashing st = .error (.returned true)) :
    C.Owned (List.replicate C.history.length false) ∧ C.Ext (List.replicate C.history.length false) first := by
  obtain @⟨lin, s, p, opened, states, cache, hok, hsec, hmin⟩ := h
  have hall : lin.all id = true := by
    cases exit_of_step hstep with
    | linearized hcount => exact (count_eq_iff hok).1 hcount
  exact hsec.ext hC (Call.ext_of_all hall)

/-! ## The checker -/

/-- The local variables of `Check` before the loop. -/
def start (history : List (HistoryEvent τ ν)) (firstState : σ) : State σ where
  currentSectionStart := 0
  dataStructureState := firstState
  openSectionsStack := []
  statesStack := []
  linearized := List.replicate history.length false
  linearizedEntriesCount := 0
  statesCache := []

omit [BEq ν] in
theorem start_eq_mk (H : List (HistoryEvent τ ν)) (first : σ) :
    start H first = mk (List.replicate H.length false) first 0 [] [] [] := by
  simp [start, mk, List.count_replicate]

theorem searching_start (hC : C.Matched) : Searching C first (start C.history first) := by
  rw [start_eq_mk]
  exact .mk (Call.OK.start hC) .nil fun k _ hk => absurd hk (Nat.not_lt_zero k)

variable [DecidableEq τ]

/-- **The loop is safe, ends and is sound**, whatever the hash and equality functors answer. -/
theorem check_sound (spec : Specification σ α ν) (hashing : Hashing σ) (view : τ → TaskView α ν)
    (H : List (HistoryEvent τ ν)) (hresp : ResponsesInvoked H)
    (hnamed : ∀ i t, InvokeAt H i t → (spec.methods (view t).name).isSome) :
    ∃ m, getInvResMapping H = some m ∧ (∀ i j, m i = some j → j < H.length) ∧
      (∀ st, Loop.Reaches (step ⟨spec.methods, view, H, m⟩ hashing) (start H spec.firstState) st →
        Safe ⟨spec.methods, view, H, m⟩ hashing st) ∧
      ∃ b n, (∀ fuel, n ≤ fuel → check fuel spec hashing view H = some (.returned b)) ∧
        (b = true → InvokedOnce H → Linearizable spec view H) := by
  obtain ⟨m, hm⟩ := getInvResMapping_isSome hresp
  let C : Call τ α ν σ := ⟨spec.methods, view, H, m⟩
  have hC : C.Matched := Call.matched_of_mapping hm
  have hkeeps : ∀ st, Loop.Reaches (step C hashing) (start H spec.firstState) st → Searching C spec.firstState st :=
    fun st hr => hr.keeps (fun _ _ h hs => h.step hC hs) (searching_start hC)
  obtain ⟨r, _, hends⟩ : ∃ r, C.Val hashing.equal _ r ∧ _ := ends_of_val hC spec.firstState
  rw [← start_eq_mk] at hends
  -- the one exit of the loop is a verdict
  obtain ⟨b, hb⟩ : ∃ b, Halt.of r = .returned b := by
    obtain ⟨st, _, he⟩ := id hends
    cases r with
    | none =>
      cases exit_of_step he with
      | unnamed i t hi hm =>
        have hsome := hnamed i t hi
        rw [show spec.methods (view t).name = none from hm] at hsome
        cases hsome
    | some b => exact ⟨b, rfl⟩
  rw [hb] at hends
  refine ⟨m, hm, fun i j hij => ?_, fun st hr => ?_, b, ?_⟩
  · obtain ⟨_, _, hr⟩ := hC.invoke hij
    exact hr.lt
  · exact (hkeeps st hr).safe fun h he => ⟨b, hends.eq_of_reaches hr he⟩
  · obtain ⟨n, hn⟩ := hends.run
    refine ⟨n, fun fuel hfuel => ?_, fun hb honce => ?_⟩
    · simp only [check, hm]
      exact hn fuel hfuel
    · subst hb
      obtain ⟨st, hr, he⟩ := hends
      obtain ⟨hown, hext⟩ := (hkeeps st hr).ext hC he
      have hans : AnsweredOnce H := (owned_iff_answeredOnce hm honce hresp).1 hown
      exact (ext_iff_linearizable hm honce hresp hans).1 hext

/-- Functors for which every state equals every other, itself excepted. -/
def contraryHashing : Hashing Int := ⟨fun _ => 0, fun a b => a != b, fun _ => 0⟩

theorem check_sound_contrary :
    ∃ b n, (∀ fuel, n ≤ fuel → check fuel Recursive.counterSpec contraryHashing Recursive.counterTasks
      Recursive.getBesideFaa = some (.returned b)) ∧
      (b = true → Linearizable Recursive.counterSpec Recursive.counterTasks Recursive.getBesideFaa) := by
  obtain ⟨_, _, _, _, b, n, hcheck, hlin⟩ := check_sound Recursive.counterSpec contraryHashing Recursive.counterTasks
    Recursive.getBesideFaa (by decide) (forall_invokeAt_iff.2 (by decide))
  exact ⟨b, n, hcheck, fun hb => hlin hb (by decide)⟩

end Wgl

end Ltest
