import Ltest.Lincheck.Linearizable

/-!
# Prefixes of a history

An order that linearizes a history can be cut behind the last operation that a prefix of the history completes: no
operation before the cut is invoked behind the prefix, as the completed one precedes it. So a prefix of a linearizable
history is linearizable (`Linearizable.of_append`), and `LinearizabilityCheckerRecursive::Check` accepts every prefix of
a history that it accepts (`Recursive.check_append`). A task may look different when the prefix is checked, as long as
its name and its arguments are the same, and its result when the prefix answers it (`SameViews`).
-/

namespace Ltest

variable {τ α ν σ : Type} {H K : List (HistoryEvent τ ν)}

/-- What a checker reads of the tasks of the history is the same: a result only counts when it is answered. -/
structure SameViews (H : List (HistoryEvent τ ν)) (view view' : τ → TaskView α ν) : Prop where
  invoked : ∀ i t, InvokeAt H i t → (view' t).name = (view t).name ∧ (view' t).args = (view t).args
  answered : ∀ j t, ResponseAt H j t → (view' t).retVal = (view t).retVal

section Append

theorem getElem?_append_iff {i : Nat} {e : HistoryEvent τ ν} :
    H[i]? = some e ↔ (H ++ K)[i]? = some e ∧ i < H.length := by
  constructor
  · intro h
    have hlt := (List.getElem?_eq_some_iff.1 h).1
    exact ⟨by rw [List.getElem?_append_left hlt, h], hlt⟩
  · rintro ⟨h, hlt⟩
    rwa [List.getElem?_append_left hlt] at h

theorem invokeAt_append_iff {i : Nat} {t : τ} : InvokeAt H i t ↔ InvokeAt (H ++ K) i t ∧ i < H.length := by
  unfold InvokeAt
  simp only [getElem?_append_iff (H := H) (K := K), exists_and_right]

theorem responseAt_append_iff {j : Nat} {t : τ} : ResponseAt H j t ↔ ResponseAt (H ++ K) j t ∧ j < H.length := by
  unfold ResponseAt
  simp only [getElem?_append_iff (H := H) (K := K), exists_and_right]

theorem InvokedOnce.of_append (h : InvokedOnce (H ++ K)) : InvokedOnce H := fun i i' t hi hi' =>
  h i i' t (invokeAt_append_iff.1 hi).1 (invokeAt_append_iff.1 hi').1

theorem AnsweredOnce.of_append (h : AnsweredOnce (H ++ K)) : AnsweredOnce H := fun j j' t hj hj' =>
  h j j' t (responseAt_append_iff.1 hj).1 (responseAt_append_iff.1 hj').1

theorem ResponsesInvoked.of_append (h : ResponsesInvoked (H ++ K)) : ResponsesInvoked H := by
  intro j t hj
  have hlt := hj.lt
  obtain ⟨i, hij, hi⟩ := h j t (responseAt_append_iff.1 hj).1
  exact ⟨i, hij, invokeAt_append_iff.2 ⟨hi, by omega⟩⟩

theorem Completed.append {x : Nat} (K : List (HistoryEvent τ ν)) : Completed H x → Completed (H ++ K) x
  | ⟨t, j, hx, hj⟩ => ⟨t, j, (invokeAt_append_iff.1 hx).1, (responseAt_append_iff.1 hj).1⟩

theorem Precedes.append {x y : Nat} (K : List (HistoryEvent τ ν)) : Precedes H x y → Precedes (H ++ K) x y
  | ⟨t, j, hx, hj, hlt⟩ => ⟨t, j, (invokeAt_append_iff.1 hx).1, (responseAt_append_iff.1 hj).1, hlt⟩

/-- What a prefix completes precedes what is invoked behind the prefix. -/
theorem Completed.precedes {x y : Nat} (hx : Completed H x) (hy : H.length ≤ y) : Precedes (H ++ K) x y := by
  obtain ⟨t, j, hx, hj⟩ := hx
  have hlt := hj.lt
  exact ⟨t, j, (invokeAt_append_iff.1 hx).1, (responseAt_append_iff.1 hj).1, by omega⟩

end Append

/-- A list is cut behind the last element with a property. -/
theorem exists_cut {A : Type} (p : A → Prop) (l : List A) :
    ∃ pre post, l = pre ++ post ∧ (∀ x ∈ post, ¬p x) ∧ ∀ x, pre.getLast? = some x → p x := by
  induction l using List.reverseRecOn with
  | nil => exact ⟨[], [], rfl, by simp, by simp⟩
  | append_singleton l a ih =>
    by_cases ha : p a
    · refine ⟨l ++ [a], [], by simp, by simp, fun x hx => ?_⟩
      rw [List.getLast?_concat] at hx
      exact Option.some.inj hx ▸ ha
    · obtain ⟨pre, post, rfl, hpost, hlast⟩ := ih
      refine ⟨pre, post ++ [a], by simp, fun x hx => ?_, hlast⟩
      obtain hx | hx := List.mem_append.1 hx
      · exact hpost x hx
      · rwa [List.mem_singleton.1 hx]

section Cut

variable [BEq ν] {spec : Specification σ α ν} {view view' : τ → TaskView α ν}

theorem Legal.of_append : ∀ {s : σ} {pre post : List Nat}, Legal spec view H s (pre ++ post) → Legal spec view H s pre
  | _, [], _, _ => trivial
  | _, _ :: _, _, ⟨t, method, hx, hmethod, hres, hlegal⟩ => ⟨t, method, hx, hmethod, hres, hlegal.of_append⟩

/-- Operations that are invoked in a prefix are legal there, with fewer results to be checked. -/
theorem Legal.prefix (hv : SameViews H view view') : ∀ {s : σ} {order : List Nat}, (∀ x ∈ order, x < H.length) →
    Legal spec view (H ++ K) s order → Legal spec view' H s order
  | _, [], _, _ => trivial
  | s, x :: order, hlt, ⟨t, method, hx, hmethod, hres, hlegal⟩ => by
    obtain ⟨hxlt, hlt⟩ := List.forall_mem_cons.1 hlt
    have hx : InvokeAt H x t := invokeAt_append_iff.2 ⟨hx, hxlt⟩
    obtain ⟨hname, hargs⟩ := hv.invoked x t hx
    refine ⟨t, method, hx, by rw [hname, hmethod], fun hc => ?_, by rw [hargs]; exact hlegal.prefix hv hlt⟩
    obtain ⟨t', j, hx', hj⟩ := id hc
    cases hx.task_eq hx'
    rw [hargs, hv.answered j t hj]
    exact hres (hc.append K)

/-- **A prefix of a linearizable history is linearizable.** -/
theorem Linearizable.of_append (hv : SameViews H view view') (h : Linearizable spec view (H ++ K)) :
    Linearizable spec view' H := by
  obtain ⟨P, order, hP, hnd, hmem, hpw, hlegal⟩ := h
  obtain ⟨pre, post, rfl, hpost, hlast⟩ := exists_cut (Completed H) order
  have hinvoked : ∀ x ∈ pre ++ post, ∃ t, InvokeAt (H ++ K) x t := by
    intro x hx
    obtain ⟨t, j, hx, _⟩ | hx := (hmem x).1 hx
    · exact ⟨t, hx⟩
    · exact (hP x hx).1
  have hlt : ∀ x ∈ pre, x < H.length := by
    intro x hx
    obtain ⟨pre', c, hpre⟩ : ∃ pre' c, pre = pre' ++ [c] :=
      ⟨_, _, (List.dropLast_append_getLast (List.ne_nil_of_mem hx)).symm⟩
    have hc : Completed H c := hlast c (by rw [hpre, List.getLast?_concat])
    rw [hpre] at hx hpw
    obtain hx | hx := List.mem_append.1 hx
    · -- `c` comes after `x`, so it does not precede it
      have hnot : ¬Precedes (H ++ K) c x :=
        (List.pairwise_append.1 (List.pairwise_append.1 hpw).1).2.2 x hx c (List.mem_singleton.2 rfl)
      by_contra hge
      exact hnot (hc.precedes (Nat.le_of_not_lt hge))
    · obtain ⟨t, j, hc, _⟩ := hc
      rw [List.mem_singleton.1 hx]
      exact hc.lt
  refine ⟨{x | x ∈ pre ∧ ¬Completed H x}, pre, fun x hx => ⟨?_, hx.2⟩, (List.nodup_append.1 hnd).1, fun x => ?_, ?_,
    hlegal.of_append.prefix hv hlt⟩
  · obtain ⟨t, ht⟩ := hinvoked x (List.mem_append_left _ hx.1)
    exact ⟨t, invokeAt_append_iff.2 ⟨ht, hlt x hx.1⟩⟩
  · constructor
    · intro hx
      by_cases hc : Completed H x
      · exact .inl hc
      · exact .inr ⟨hx, hc⟩
    · rintro (hc | hx)
      · obtain hx | hx := List.mem_append.1 ((hmem x).2 (.inl (hc.append K)))
        · exact hx
        · exact absurd hc (hpost x hx)
      · exact hx.1
  · exact (List.pairwise_append.1 hpw).1.imp fun hnot h => hnot (h.append K)

end Cut

namespace Recursive

variable [DecidableEq τ] [BEq ν] {spec : Specification σ α ν} {view view' : τ → TaskView α ν}

/-- **`Check` accepts every prefix of what it accepts.** -/
theorem check_append (honce : InvokedOnce (H ++ K)) (hresp : ResponsesInvoked (H ++ K))
    (hnamed : ∀ i t, InvokeAt (H ++ K) i t → (spec.methods (view t).name).isSome) (hv : SameViews H view view')
    (hcheck : check spec view (H ++ K) = some true) : check spec view' H = some true := by
  obtain ⟨hans, hlin⟩ := (check_eq_true_iff honce hresp hnamed).1 hcheck
  have hnamed' : ∀ i t, InvokeAt H i t → (spec.methods (view' t).name).isSome := by
    intro i t hi
    rw [(hv.invoked i t hi).1]
    exact hnamed i t (invokeAt_append_iff.1 hi).1
  exact (check_eq_true_iff honce.of_append hresp.of_append hnamed').2 ⟨hans.of_append, hlin.of_append hv⟩

end Recursive

end Ltest
