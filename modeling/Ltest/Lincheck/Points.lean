import Ltest.Lincheck.Linearizable

/-!
# Linearization points

An implementation whose operations take effect one after the other, each between its invoke and its response, has
linearizable histories. Here this is said of a history that grows by one event at a time: next to it stands the order in
which operations have taken effect so far (`Pointed`), with the results they are bound to return. An operation is invoked
(`Pointed.invoke`), takes effect (`Pointed.effect`) and responds (`Pointed.respond`); at every moment the order is a
linearization (`Pointed.linearizable`).
-/

namespace Ltest

variable {τ α ν σ : Type} {spec : Specification σ α ν} {call : τ → String × α} {taken taken' : τ → Option ν}
  {H : List (HistoryEvent τ ν)} {order : List Nat} {s s' s'' : σ} {t : τ} {x : Nat}

/-- From `s` the methods of the operations in this order lead to `s'`, and each has the result that its task has `taken`. -/
def Effects (spec : Specification σ α ν) (call : τ → String × α) (taken : τ → Option ν) (H : List (HistoryEvent τ ν)) :
    σ → List Nat → σ → Prop
  | s, [], s' => s' = s
  | s, x :: order, s' => ∃ t method, InvokeAt H x t ∧ spec.methods (call t).1 = some method ∧
      taken t = some (method s (call t).2).1 ∧ Effects spec call taken H (method s (call t).2).2 order s'

theorem Effects.trans : ∀ {s : σ} {order order' : List Nat}, Effects spec call taken H s order s' →
    Effects spec call taken H s' order' s'' → Effects spec call taken H s (order ++ order') s''
  | _, [], _, h, h' => by
    cases h
    exact h'
  | _, _ :: _, _, ⟨t, method, hx, hmethod, htaken, h⟩, h' => ⟨t, method, hx, hmethod, htaken, h.trans h'⟩

/-- The effects only depend on the operations in the order. -/
theorem Effects.mono {H' : List (HistoryEvent τ ν)} {call' : τ → String × α} : ∀ {s : σ} {order : List Nat},
    (∀ x ∈ order, ∀ t, InvokeAt H x t → InvokeAt H' x t ∧ call' t = call t ∧ taken' t = taken t) →
    Effects spec call taken H s order s' → Effects spec call' taken' H' s order s'
  | _, [], _, h => h
  | _, x :: order, hsame, ⟨t, method, hx, hmethod, htaken, h⟩ => by
    obtain ⟨hx', hcall, ht⟩ := hsame x List.mem_cons_self t hx
    refine ⟨t, method, hx', by rw [hcall, hmethod], by rw [ht, hcall, htaken], ?_⟩
    rw [hcall]
    exact h.mono fun y hy => hsame y (List.mem_cons_of_mem _ hy)

/-- The operations that have taken effect, in this order, and the state `s` they have led to. `taken` is the result that
an operation is bound to return, from the moment when it takes effect. -/
structure Pointed (spec : Specification σ α ν) (call : τ → String × α) (taken : τ → Option ν)
    (H : List (HistoryEvent τ ν)) (order : List Nat) (s : σ) : Prop where
  nodup : order.Nodup
  invoked : ∀ x ∈ order, ∃ t, InvokeAt H x t
  mem : ∀ x t, InvokeAt H x t → (x ∈ order ↔ (taken t).isSome)
  answered : ∀ j t, ResponseAt H j t → (taken t).isSome
  ordered : order.Pairwise fun x y => ¬Precedes H y x
  effects : Effects spec call taken H spec.firstState order s

theorem pointed_nil : Pointed spec call taken [] [] spec.firstState := by
  refine ⟨List.nodup_nil, by simp, fun x t hx => ?_, fun j t hj => ?_, List.Pairwise.nil, rfl⟩
  · obtain ⟨th, hx⟩ := hx
    cases hx
  · obtain ⟨r, th, hj⟩ := hj
    cases hj

namespace Pointed

variable (h : Pointed spec call taken H order s)
include h

/-- Nothing that is known of the operations changes. -/
theorem congr {call' : τ → String × α} (hsame : ∀ x t, InvokeAt H x t → call' t = call t ∧ taken' t = taken t)
    (hresp : ResponsesInvoked H) : Pointed spec call' taken' H order s where
  nodup := h.nodup
  invoked := h.invoked
  mem x t hx := by rw [(hsame x t hx).2, h.mem x t hx]
  answered j t hj := by
    obtain ⟨x, -, hx⟩ := hresp j t hj
    rw [(hsame x t hx).2]
    exact h.answered j t hj
  ordered := h.ordered
  effects := h.effects.mono fun x _ t hx => ⟨hx, (hsame x t hx).1, (hsame x t hx).2⟩

/-- An operation that has not taken effect is invoked. -/
theorem invoke (hnone : taken t = none) (th : Nat) : Pointed spec call taken (H ++ [.invoke t th]) order s where
  nodup := h.nodup
  invoked x hx := by
    obtain ⟨t', hx⟩ := h.invoked x hx
    exact ⟨t', invokeAt_snoc.2 (.inl hx)⟩
  mem x t' hx := by
    rw [invokeAt_snoc] at hx
    obtain hx | ⟨rfl, th', heq⟩ := hx
    · exact h.mem x t' hx
    · cases heq
      rw [hnone]
      refine iff_of_false (fun hmem => ?_) (by simp)
      obtain ⟨t', hx⟩ := h.invoked _ hmem
      exact absurd hx.lt (Nat.lt_irrefl _)
  answered j t' hj := by
    rw [responseAt_snoc] at hj
    obtain hj | ⟨-, r, th', heq⟩ := hj
    · exact h.answered j t' hj
    · cases heq
  ordered := by
    refine List.Pairwise.imp_of_mem (fun {x y} hx hy hnot => ?_) h.ordered
    rintro ⟨t', j, hy', hj, hlt⟩
    obtain ⟨t'', hy⟩ := h.invoked y hy
    rw [responseAt_snoc] at hj
    obtain hj | ⟨-, r, th', heq⟩ := hj
    · obtain rfl := (invokeAt_snoc.2 (.inl hy)).task_eq hy'
      exact hnot ⟨t'', j, hy, hj, hlt⟩
    · cases heq
  effects := h.effects.mono fun x _ t' hx => ⟨invokeAt_snoc.2 (.inl hx), rfl, rfl⟩

/-- An operation takes effect. -/
theorem effect (honce : InvokedOnce H) {method : Method σ α ν} (hx : InvokeAt H x t) (hnone : taken t = none)
    (hmethod : spec.methods (call t).1 = some method) (hnew : taken' t = some (method s (call t).2).1)
    (hother : ∀ t', t' ≠ t → taken' t' = taken t') :
    Pointed spec call taken' H (order ++ [x]) (method s (call t).2).2 := by
  have hout : x ∉ order := by
    rw [h.mem x t hx, hnone]
    simp
  -- the other operations in the order belong to other tasks
  have hne : ∀ y ∈ order, ∀ t', InvokeAt H y t' → t' ≠ t := by
    rintro y hy t' hy' rfl
    exact hout (honce y x t' hy' hx ▸ hy)
  refine ⟨?_, fun y hy => ?_, fun y t' hy => ?_, fun j t' hj => ?_, ?_, ?_⟩
  · refine List.nodup_append.2 ⟨h.nodup, by simp, fun a ha b hb hab => hout ?_⟩
    rw [← List.mem_singleton.1 hb, ← hab]
    exact ha
  · obtain hy | hy := List.mem_append.1 hy
    · exact h.invoked y hy
    · rw [List.mem_singleton.1 hy]
      exact ⟨t, hx⟩
  · by_cases ht : t' = t
    · subst ht
      rw [honce y x t' hy hx, hnew]
      simp
    · have hyx : y ≠ x := fun heq => ht ((heq ▸ hy : InvokeAt H x t').task_eq hx)
      rw [hother t' ht, ← h.mem y t' hy]
      simp [hyx]
  · by_cases ht : t' = t
    · subst ht
      rw [hnew]
      rfl
    · rw [hother t' ht]
      exact h.answered j t' hj
  · refine List.pairwise_append.2 ⟨h.ordered, List.pairwise_singleton _ x, fun y _ z hz => ?_⟩
    rw [List.mem_singleton.1 hz]
    rintro ⟨t', j, hx', hj, -⟩
    obtain rfl := hx.task_eq hx'
    simpa [hnone] using h.answered j t hj
  · have hbefore : Effects spec call taken' H spec.firstState order s := h.effects.mono fun y hy t' hy' =>
      ⟨hy', rfl, hother t' (hne y hy t' hy')⟩
    exact hbefore.trans ⟨t, method, hx, hmethod, hnew, rfl⟩

/-- An operation that has taken effect responds. -/
theorem respond (hsome : (taken t).isSome) (r : ν) (th : Nat) :
    Pointed spec call taken (H ++ [.response t r th]) order s where
  nodup := h.nodup
  invoked x hx := by
    obtain ⟨t', hx⟩ := h.invoked x hx
    exact ⟨t', invokeAt_snoc.2 (.inl hx)⟩
  mem x t' hx := by
    rw [invokeAt_snoc] at hx
    obtain hx | ⟨-, th', heq⟩ := hx
    · exact h.mem x t' hx
    · cases heq
  answered j t' hj := by
    rw [responseAt_snoc] at hj
    obtain hj | ⟨-, r', th', heq⟩ := hj
    · exact h.answered j t' hj
    · cases heq
      exact hsome
  ordered := by
    refine List.Pairwise.imp_of_mem (fun {x y} hx hy hnot => ?_) h.ordered
    rintro ⟨t', j, hy', hj, hlt⟩
    obtain ⟨tx, hx⟩ := h.invoked x hx
    obtain ⟨ty, hy⟩ := h.invoked y hy
    rw [responseAt_snoc] at hj
    obtain hj | ⟨rfl, -⟩ := hj
    · obtain rfl := (invokeAt_snoc.2 (.inl hy)).task_eq hy'
      exact hnot ⟨ty, j, hy, hj, hlt⟩
    · exact absurd hx.lt (Nat.lt_asymm hlt)
  effects := h.effects.mono fun x _ t' hx => ⟨invokeAt_snoc.2 (.inl hx), rfl, rfl⟩

variable {view : τ → TaskView α ν} [BEq ν] [ReflBEq ν]

/-- **The order of the effects is a linearization**, if the tasks are those of the calls and have returned what they were
bound to return. -/
theorem linearizable (hcall : ∀ x t, InvokeAt H x t → call t = ((view t).name, (view t).args))
    (hret : ∀ j t, ResponseAt H j t → taken t = some (view t).retVal) : Linearizable spec view H := by
  refine ⟨{x | x ∈ order ∧ ¬Completed H x}, order, fun x hx => ⟨h.invoked x hx.1, hx.2⟩, h.nodup, fun x => ?_,
    h.ordered, ?_⟩
  · constructor
    · intro hx
      by_cases hc : Completed H x
      · exact .inl hc
      · exact .inr ⟨hx, hc⟩
    · rintro (⟨t, j, hx, hj⟩ | hx)
      · exact (h.mem x t hx).2 (h.answered j t hj)
      · exact hx.1
  · have hlegal : ∀ {s₀ : σ} {order : List Nat}, Effects spec call taken H s₀ order s → Legal spec view H s₀ order := by
      intro s₀ order heffects
      induction order generalizing s₀ with
      | nil => trivial
      | cons x order ih =>
        obtain ⟨t, method, hx, hmethod, htaken, hrest⟩ := heffects
        rw [hcall x t hx] at hmethod htaken hrest
        refine ⟨t, method, hx, hmethod, ?_, ih hrest⟩
        rintro ⟨t', j, hx', hj⟩
        obtain rfl := hx.task_eq hx'
        rw [hret j t hj] at htaken
        rw [Option.some.inj htaken]
        exact BEq.rfl
    exact hlegal h.effects

end Pointed

end Ltest
