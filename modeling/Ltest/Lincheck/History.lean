import Mathlib.Data.List.Induction
import Mathlib.Logic.Function.Basic
import Mathlib.Tactic.Common

/-!
# Histories and the invoke/response mapping (`lincheck.h`, `lin_check.cpp`)

A history is a list of `Invoke` and `Response` events. Both hold a reference to the slot that owns the task, and
`get_inv_res_mapping` is keyed by the address of that slot; the type `τ` of the model stands for these addresses.

The mapping is computed in one pass over the history (`getInvResMapping`). `invRes_iff` says what it is for every
history, also for those where a task is invoked or answered several times: invoke `i` is mapped to `j` exactly when
`j` is the last response that finds `i` as the latest invoke of its task (`Answers`).
-/

namespace Ltest

/-- What a checker reads through a task reference: `GetName()`, `GetArgs()` and `GetRetVal()`. -/
structure TaskView (α ν : Type) where
  name : String
  args : α
  retVal : ν
  deriving Repr, DecidableEq

/-- `std::variant<Invoke, Response>`. -/
inductive HistoryEvent (τ ν : Type) where
  | invoke (task : τ) (threadId : Nat)
  | response (task : τ) (result : ν) (threadId : Nat)
  deriving Repr, DecidableEq

/-- The event with another reference to its task. -/
def HistoryEvent.mapTask {τ τ' ν : Type} (f : τ → τ') : HistoryEvent τ ν → HistoryEvent τ' ν
  | .invoke task threadId => .invoke (f task) threadId
  | .response task result threadId => .response (f task) result threadId

section Events

variable {τ ν : Type}

/-- Entry `i` of the history invokes task `t`. -/
def InvokeAt (H : List (HistoryEvent τ ν)) (i : Nat) (t : τ) : Prop := ∃ th, H[i]? = some (.invoke t th)

/-- Entry `j` of the history answers task `t`. -/
def ResponseAt (H : List (HistoryEvent τ ν)) (j : Nat) (t : τ) : Prop := ∃ r th, H[j]? = some (.response t r th)

/-- `j` is the last response that finds `i` as the latest invoke of its task. -/
def Answers (H : List (HistoryEvent τ ν)) (i j : Nat) : Prop :=
  ∃ t, InvokeAt H i t ∧ ResponseAt H j t ∧ i < j ∧ (∀ k, i < k → k < j → ¬InvokeAt H k t) ∧
    ∀ k, j < k → ResponseAt H k t → ∃ l, i < l ∧ l < k ∧ InvokeAt H l t

/-- `i` is the latest invoke of `t`. -/
def LastInvoke (H : List (HistoryEvent τ ν)) (t : τ) (i : Nat) : Prop :=
  InvokeAt H i t ∧ ∀ k, i < k → ¬InvokeAt H k t

theorem InvokeAt.lt {H : List (HistoryEvent τ ν)} {i : Nat} {t : τ} (h : InvokeAt H i t) : i < H.length := by
  obtain ⟨th, h⟩ := h
  exact (List.getElem?_eq_some_iff.1 h).1

theorem ResponseAt.lt {H : List (HistoryEvent τ ν)} {j : Nat} {t : τ} (h : ResponseAt H j t) : j < H.length := by
  obtain ⟨r, th, h⟩ := h
  exact (List.getElem?_eq_some_iff.1 h).1

theorem InvokeAt.task_eq {H : List (HistoryEvent τ ν)} {i : Nat} {t t' : τ} (h : InvokeAt H i t)
    (h' : InvokeAt H i t') : t = t' := by
  obtain ⟨th, h⟩ := h
  obtain ⟨th', h'⟩ := h'
  rw [h] at h'
  cases h'; rfl

theorem ResponseAt.task_eq {H : List (HistoryEvent τ ν)} {i : Nat} {t t' : τ} (h : ResponseAt H i t)
    (h' : ResponseAt H i t') : t = t' := by
  obtain ⟨r, th, h⟩ := h
  obtain ⟨r', th', h'⟩ := h'
  rw [h] at h'
  cases h'; rfl

/-- An entry is not both an invoke and a response. -/
theorem InvokeAt.not_response {H : List (HistoryEvent τ ν)} {i : Nat} {t t' : τ} (h : InvokeAt H i t) :
    ¬ResponseAt H i t' := by
  rintro ⟨r, th', h'⟩
  obtain ⟨th, h⟩ := h
  rw [h] at h'
  cases h'

/-- Every entry of the history is an invoke or a response. -/
theorem invoke_or_response {H : List (HistoryEvent τ ν)} {i : Nat} (h : i < H.length) :
    (∃ t, InvokeAt H i t) ∨ ∃ t, ResponseAt H i t := by
  cases he : H[i] with
  | invoke t th => exact Or.inl ⟨t, th, by rw [List.getElem?_eq_getElem h, he]⟩
  | response t r th => exact Or.inr ⟨t, r, th, by rw [List.getElem?_eq_getElem h, he]⟩

theorem LastInvoke.unique {H : List (HistoryEvent τ ν)} {t : τ} {i i' : Nat} (h : LastInvoke H t i)
    (h' : LastInvoke H t i') : i = i' := by
  rcases Nat.lt_trichotomy i i' with hlt | rfl | hlt
  · exact absurd h'.1 (h.2 _ hlt)
  · rfl
  · exact absurd h.1 (h'.2 _ hlt)

/-- A bounded predicate that holds somewhere holds at a last place. -/
theorem exists_last {p : Nat → Prop} {n i : Nat} (hn : ∀ k, p k → k < n) (h : p i) :
    ∃ i', p i' ∧ ∀ k, i' < k → ¬p k := by
  by_contra hno
  simp only [not_exists, not_and, not_forall, not_not] at hno
  have hfar : ∀ m, ∃ k, m ≤ k ∧ p k := by
    intro m
    induction m with
    | zero => exact ⟨i, Nat.zero_le _, h⟩
    | succ m ih =>
      obtain ⟨k, hk, hp⟩ := ih
      obtain ⟨k', hlt, hp'⟩ := hno k hp
      exact ⟨k', by omega, hp'⟩
  obtain ⟨k, hk, hp⟩ := hfar n
  have := hn k hp
  omega

/-! ## Well-formed histories -/

/-- Every response of the history comes after an invoke of its task. -/
def ResponsesInvoked (H : List (HistoryEvent τ ν)) : Prop :=
  ∀ j t, ResponseAt H j t → ∃ i, i < j ∧ InvokeAt H i t

/-- Each task is invoked at most once. -/
def InvokedOnce (H : List (HistoryEvent τ ν)) : Prop := ∀ i i' t, InvokeAt H i t → InvokeAt H i' t → i = i'

/-- Each task is answered at most once. -/
def AnsweredOnce (H : List (HistoryEvent τ ν)) : Prop := ∀ j j' t, ResponseAt H j t → ResponseAt H j' t → j = j'

/-- The task that an event invokes. -/
def HistoryEvent.invoked : HistoryEvent τ ν → Option τ
  | .invoke t _ => some t
  | .response _ _ _ => none

/-- The task that an event answers. -/
def HistoryEvent.answered : HistoryEvent τ ν → Option τ
  | .invoke _ _ => none
  | .response t _ _ => some t

theorem invokeAt_iff {H : List (HistoryEvent τ ν)} {i : Nat} {t : τ} :
    InvokeAt H i t ↔ t ∈ H[i]?.bind HistoryEvent.invoked := by
  cases h : H[i]? with
  | none => simp [InvokeAt, h]
  | some e => cases e <;> simp [InvokeAt, h, HistoryEvent.invoked]

theorem responseAt_iff {H : List (HistoryEvent τ ν)} {j : Nat} {t : τ} :
    ResponseAt H j t ↔ t ∈ H[j]?.bind HistoryEvent.answered := by
  cases h : H[j]? with
  | none => simp [ResponseAt, h]
  | some e => cases e <;> simp [ResponseAt, h, HistoryEvent.answered]

/-- A property of every invoked task is a bounded check. -/
theorem forall_invokeAt_iff {H : List (HistoryEvent τ ν)} {p : Nat → τ → Prop} :
    (∀ i t, InvokeAt H i t → p i t) ↔ ∀ i < H.length, ∀ t ∈ H[i]?.bind HistoryEvent.invoked, p i t :=
  ⟨fun h i _ t ht => h i t (invokeAt_iff.2 ht), fun h i t ht => h i ht.lt t (invokeAt_iff.1 ht)⟩

/-- A property of every answered task is a bounded check. -/
theorem forall_responseAt_iff {H : List (HistoryEvent τ ν)} {p : Nat → τ → Prop} :
    (∀ j t, ResponseAt H j t → p j t) ↔ ∀ j < H.length, ∀ t ∈ H[j]?.bind HistoryEvent.answered, p j t :=
  ⟨fun h j _ t ht => h j t (responseAt_iff.2 ht), fun h j t ht => h j ht.lt t (responseAt_iff.1 ht)⟩

instance [DecidableEq τ] (H : List (HistoryEvent τ ν)) (i : Nat) (t : τ) : Decidable (InvokeAt H i t) :=
  decidable_of_iff _ invokeAt_iff.symm

instance [DecidableEq τ] (H : List (HistoryEvent τ ν)) : Decidable (ResponsesInvoked H) :=
  decidable_of_iff _ (forall_responseAt_iff (p := fun j t => ∃ i, i < j ∧ InvokeAt H i t)).symm

instance [DecidableEq τ] (H : List (HistoryEvent τ ν)) : Decidable (InvokedOnce H) :=
  decidable_of_iff (∀ i < H.length, ∀ t ∈ H[i]?.bind HistoryEvent.invoked, ∀ i' < H.length, InvokeAt H i' t → i = i')
    ⟨fun h i i' t hi hi' => h i hi.lt t (invokeAt_iff.1 hi) i' hi'.lt hi',
      fun h i _ t ht i' _ hi' => h i i' t (invokeAt_iff.2 ht) hi'⟩

section Snoc

variable {H : List (HistoryEvent τ ν)} {e : HistoryEvent τ ν}

theorem getElem?_snoc {i : Nat} {x : HistoryEvent τ ν} :
    (H ++ [e])[i]? = some x ↔ H[i]? = some x ∨ i = H.length ∧ e = x := by
  rcases Nat.lt_trichotomy i H.length with h | rfl | h
  · rw [List.getElem?_append_left h]
    exact ⟨Or.inl, fun h' => h'.resolve_right fun hn => by omega⟩
  · simp
  · rw [List.getElem?_eq_none (by simp; omega), List.getElem?_eq_none (by omega)]
    simp
    omega

theorem invokeAt_snoc {i : Nat} {t : τ} :
    InvokeAt (H ++ [e]) i t ↔ InvokeAt H i t ∨ i = H.length ∧ ∃ th, e = .invoke t th := by
  simp only [InvokeAt, getElem?_snoc, exists_or, exists_and_left]

theorem responseAt_snoc {i : Nat} {t : τ} :
    ResponseAt (H ++ [e]) i t ↔ ResponseAt H i t ∨ i = H.length ∧ ∃ r th, e = .response t r th := by
  simp only [ResponseAt, getElem?_snoc, exists_or, exists_and_left]

/-- A later invoke does not change the answers so far. -/
theorem answers_snoc_invoke {t : τ} {th i j : Nat} : Answers (H ++ [.invoke t th]) i j ↔ Answers H i j := by
  have hr : ∀ {k t'}, ResponseAt (H ++ [.invoke t th]) k t' ↔ ResponseAt H k t' := by simp [responseAt_snoc]
  have hi : ∀ {k t'}, k < H.length → (InvokeAt (H ++ [.invoke t th]) k t' ↔ InvokeAt H k t') := by
    intro k t' hk
    rw [invokeAt_snoc]
    exact ⟨fun h => h.resolve_right fun h' => by omega, Or.inl⟩
  constructor
  · rintro ⟨t', h₁, h₂, hlt, h₃, h₄⟩
    have h₂ := hr.1 h₂
    have hj := h₂.lt
    refine ⟨t', (hi (by omega)).1 h₁, h₂, hlt, fun k hk hk' h => h₃ k hk hk' (invokeAt_snoc.2 (Or.inl h)), ?_⟩
    intro k hk h
    obtain ⟨l, hl, hl', h'⟩ := h₄ k hk (hr.2 h)
    exact ⟨l, hl, hl', (hi (by have := h.lt; omega)).1 h'⟩
  · rintro ⟨t', h₁, h₂, hlt, h₃, h₄⟩
    have hj := h₂.lt
    refine ⟨t', invokeAt_snoc.2 (Or.inl h₁), hr.2 h₂, hlt, fun k hk hk' h => h₃ k hk hk' ((hi (by omega)).1 h), ?_⟩
    intro k hk h
    obtain ⟨l, hl, hl', h'⟩ := h₄ k hk (hr.1 h)
    exact ⟨l, hl, hl', invokeAt_snoc.2 (Or.inl h')⟩

/-- A response is given to the latest invoke of its task and takes the place of an earlier response to it. -/
theorem answers_snoc_response {t : τ} {r : ν} {th i₀ i j : Nat} (h₀ : LastInvoke H t i₀) :
    Answers (H ++ [.response t r th]) i j ↔ i = i₀ ∧ j = H.length ∨ i ≠ i₀ ∧ Answers H i j := by
  have hi : ∀ {k t'}, InvokeAt (H ++ [.response t r th]) k t' ↔ InvokeAt H k t' := by simp [invokeAt_snoc]
  have hr : ∀ {k t'}, ResponseAt (H ++ [.response t r th]) k t' ↔ ResponseAt H k t' ∨ k = H.length ∧ t = t' := by
    intro k t'
    rw [responseAt_snoc]
    simp
  constructor
  · rintro ⟨t', h₁, h₂, hlt, h₃, h₄⟩
    have h₁ := hi.1 h₁
    rcases hr.1 h₂ with h₂ | ⟨rfl, rfl⟩
    · have hj := h₂.lt
      refine Or.inr ⟨?_, t', h₁, h₂, hlt, fun k hk hk' h => h₃ k hk hk' (hi.2 h), fun k hk h => ?_⟩
      · rintro rfl
        cases h₁.task_eq h₀.1
        obtain ⟨l, hl, _, h⟩ := h₄ H.length hj (hr.2 (Or.inr ⟨rfl, rfl⟩))
        exact h₀.2 l hl (hi.1 h)
      · obtain ⟨l, hl, hl', h'⟩ := h₄ k hk (hr.2 (Or.inl h))
        exact ⟨l, hl, hl', hi.1 h'⟩
    · refine Or.inl ⟨LastInvoke.unique ⟨h₁, fun k hk h => h₃ k hk h.lt (hi.2 h)⟩ h₀, rfl⟩
  · rintro (⟨rfl, rfl⟩ | ⟨hne, t', h₁, h₂, hlt, h₃, h₄⟩)
    · refine ⟨t, hi.2 h₀.1, hr.2 (Or.inr ⟨rfl, rfl⟩), h₀.1.lt, fun k hk _ h => h₀.2 k hk (hi.1 h), fun k hk h => ?_⟩
      rcases hr.1 h with h | ⟨rfl, _⟩
      · have := h.lt; omega
      · omega
    · refine ⟨t', hi.2 h₁, hr.2 (Or.inl h₂), hlt, fun k hk hk' h => h₃ k hk hk' (hi.1 h), fun k hk h => ?_⟩
      rcases hr.1 h with h | ⟨rfl, rfl⟩
      · obtain ⟨l, hl, hl', h'⟩ := h₄ k hk h
        exact ⟨l, hl, hl', hi.2 h'⟩
      · -- the new response finds `i₀`, which is later than `i`
        refine ⟨i₀, ?_, h₀.1.lt, hi.2 h₀.1⟩
        by_contra hle
        exact h₀.2 i (by omega) h₁

end Snoc

end Events

/-! ## The mapping -/

section Mapping

variable {τ ν : Type}

/-- The two maps of `get_inv_res_mapping`: the latest invoke of each task, and the response of each invoke. -/
structure Mapping (τ : Type) where
  uids : τ → Option Nat
  invRes : Nat → Option Nat

variable [DecidableEq τ]

/-- The loop of `get_inv_res_mapping` from entry `i` on; `none` is the failed assertion that the task of a response
has been invoked. -/
def mappingFrom : Nat → List (HistoryEvent τ ν) → Mapping τ → Option (Mapping τ)
  | _, [], m => some m
  | i, .invoke t _ :: H, m => mappingFrom (i + 1) H { m with uids := Function.update m.uids t (some i) }
  | i, .response t _ _ :: H, m =>
    match m.uids t with
    | none => none
    | some inv => mappingFrom (i + 1) H { m with invRes := Function.update m.invRes inv (some i) }

/-- `get_inv_res_mapping`: invoke index to response index. -/
def getInvResMapping (H : List (HistoryEvent τ ν)) : Option (Nat → Option Nat) :=
  (mappingFrom 0 H ⟨fun _ => none, fun _ => none⟩).map Mapping.invRes

/-- What the two maps hold after the history `H`. -/
def Mapping.Of (H : List (HistoryEvent τ ν)) (m : Mapping τ) : Prop :=
  (∀ t i, m.uids t = some i ↔ LastInvoke H t i) ∧ ∀ i j, m.invRes i = some j ↔ Answers H i j

theorem mappingFrom_append (H K : List (HistoryEvent τ ν)) : ∀ (i : Nat) (m : Mapping τ),
    mappingFrom i (H ++ K) m = (mappingFrom i H m).bind (mappingFrom (i + H.length) K) := by
  induction H with
  | nil => intro i m; simp [mappingFrom]
  | cons e H ih =>
    intro i m
    cases e with
    | invoke t th => simp only [List.cons_append, mappingFrom, ih, List.length_cons]; congr 2; omega
    | response t r th =>
      simp only [List.cons_append, mappingFrom, List.length_cons]
      cases m.uids t with
      | none => rfl
      | some inv => simp only [ih]; congr 2; omega

/-- The loop of `get_inv_res_mapping` computes the latest invokes and the answers. -/
theorem mappingFrom_of (H : List (HistoryEvent τ ν)) : ∀ {m : Mapping τ},
    mappingFrom 0 H ⟨fun _ => none, fun _ => none⟩ = some m → m.Of H := by
  induction H using List.reverseRecOn with
  | nil =>
    intro m h
    cases h
    exact ⟨fun t i => by simp [LastInvoke, InvokeAt], fun i j => by simp [Answers, InvokeAt]⟩
  | append_singleton H e ih =>
    intro m h
    rw [mappingFrom_append, Option.bind_eq_some_iff] at h
    obtain ⟨m₀, h₀, h⟩ := h
    obtain ⟨hu, ha⟩ := ih h₀
    simp only [Nat.zero_add] at h
    cases e with
    | invoke t th =>
      simp only [mappingFrom, Option.some.injEq] at h
      subst h
      refine ⟨fun t' i => ?_, fun i j => by rw [answers_snoc_invoke]; exact ha i j⟩
      simp only [LastInvoke, invokeAt_snoc]
      by_cases ht : t' = t
      · subst ht
        simp only [Function.update_self, Option.some.injEq]
        constructor
        · rintro rfl
          refine ⟨Or.inr ⟨rfl, th, rfl⟩, fun k hk h => ?_⟩
          rcases h with h | h
          · have := h.lt; omega
          · omega
        · rintro ⟨h | h, hlast⟩
          · exact absurd (Or.inr ⟨rfl, th, rfl⟩) (hlast H.length h.lt)
          · exact h.1.symm
      · rw [Function.update_of_ne ht, hu, LastInvoke]
        have hne : ¬∃ th', HistoryEvent.invoke t th = (.invoke t' th' : HistoryEvent τ ν) := by
          rintro ⟨th', h⟩; cases h; exact ht rfl
        simp only [hne, and_false, or_false]
    | response t r th =>
      simp only [mappingFrom] at h
      split at h
      · cases h
      · rename_i inv huid
        cases h
        refine ⟨fun t' i => by rw [hu]; simp [LastInvoke, invokeAt_snoc], fun i j => ?_⟩
        rw [answers_snoc_response ((hu t inv).1 huid)]
        by_cases hi : i = inv
        · subst hi; simp [eq_comm]
        · simp [hi, ha]

/-- **The mapping**, for every history it is defined on. -/
theorem invRes_iff {H : List (HistoryEvent τ ν)} {m : Nat → Option Nat} (h : getInvResMapping H = some m) {i j : Nat} :
    m i = some j ↔ Answers H i j := by
  simp only [getInvResMapping, Option.map_eq_some_iff] at h
  obtain ⟨M, hM, rfl⟩ := h
  exact (mappingFrom_of H hM).2 i j

/-- The assertion of `get_inv_res_mapping` holds when every response has been invoked. -/
theorem getInvResMapping_isSome {H : List (HistoryEvent τ ν)} (hH : ResponsesInvoked H) :
    ∃ m, getInvResMapping H = some m := by
  suffices h : ∃ m, mappingFrom 0 H (⟨fun _ => none, fun _ => none⟩ : Mapping τ) = some m by
    obtain ⟨m, hm⟩ := h
    exact ⟨m.invRes, by simp [getInvResMapping, hm]⟩
  induction H using List.reverseRecOn with
  | nil => exact ⟨_, rfl⟩
  | append_singleton H e ih =>
    have hH' : ResponsesInvoked H := by
      intro j t hj
      obtain ⟨i, hi, hinv⟩ := hH j t (responseAt_snoc.2 (Or.inl hj))
      rcases invokeAt_snoc.1 hinv with h | h
      · exact ⟨i, hi, h⟩
      · have := hj.lt; omega
    obtain ⟨m, hm⟩ := ih hH'
    rw [mappingFrom_append, hm, Option.bind_some]
    cases e with
    | invoke t th => exact ⟨_, rfl⟩
    | response t r th =>
      obtain ⟨i, hi, hinv⟩ := hH H.length t (responseAt_snoc.2 (Or.inr ⟨rfl, r, th, rfl⟩))
      rcases invokeAt_snoc.1 hinv with h | h
      · obtain ⟨i', hlast⟩ := exists_last (fun k hk => InvokeAt.lt hk) h
        have hu := ((mappingFrom_of H hm).1 t i').2 hlast
        simp only [mappingFrom, hu]
        exact ⟨_, rfl⟩
      · omega

end Mapping

end Ltest
