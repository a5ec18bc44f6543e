import Mathlib.Tactic.Common

/-!
# Traces of nested calls

A trace is a list of events, some of which begin or end a call (`Mark`). `path` is the stack of the calls that are open
at the end of a trace, innermost first, each with the events of its own body. `Always Q` says that `Q` holds of every
event of a trace and what came before it, and `balanced` that a stretch of a trace begins and ends the same calls;
across such a stretch the calls that were open before are open again (`path_balanced`).
-/

namespace Calls

/-- What an event is for the nesting of calls; `aside` is an event that belongs to no call. -/
inductive Mark where
  | enter
  | leave
  | inside
  | aside

variable {ε : Type}

section Path

variable (mark : ε → Mark)

/-- The open calls after one more event. -/
def next (calls : List (List ε)) (e : ε) : List (List ε) :=
  match mark e with
  | .enter => [] :: calls
  | .leave => calls.tail
  | .inside => calls.modifyHead (· ++ [e])
  | .aside => calls

/-- The calls that are open at the end of a trace. -/
def path (t : List ε) : List (List ε) := t.foldl (next mark) []

/-- With `n` calls begun, the rest of the trace ends exactly these. -/
def balanced : Nat → List ε → Bool
  | n, [] => n == 0
  | n, e :: t =>
    match mark e with
    | .enter => balanced (n + 1) t
    | .leave => n != 0 && balanced (n - 1) t
    | .inside => balanced n t
    | .aside => balanced n t

end Path

variable {mark : ε → Mark} {e : ε}

theorem path_snoc (t : List ε) : path mark (t ++ [e]) = next mark (path mark t) e := by
  simp [path]

/-- A balanced stretch leaves the calls below it alone. -/
theorem foldl_balanced (calls : List (List ε)) : ∀ (t : List ε) (top : List ε) (begun : List (List ε)),
    balanced mark begun.length t = true → ∃ top', t.foldl (next mark) (begun ++ top :: calls) = top' :: calls
  | [], top, begun, h => by
    rw [List.length_eq_zero_iff.1 (beq_iff_eq.1 h)]
    exact ⟨top, rfl⟩
  | e :: t, top, begun, h => by
    unfold balanced at h
    rw [List.foldl_cons]
    unfold next
    split at h
    · exact foldl_balanced calls t top ([] :: begun) h
    · obtain ⟨hpos, h⟩ := Bool.and_eq_true_iff.1 h
      match begun, hpos, h with
      | _ :: begun, _, h => exact foldl_balanced calls t top begun h
    · match begun, h with
      | [], h => exact foldl_balanced calls t (top ++ [e]) [] h
      | call :: begun, h => exact foldl_balanced calls t top ((call ++ [e]) :: begun) h
    · exact foldl_balanced calls t top begun h

/-- **After a call has returned the same calls are open as before it.** -/
theorem path_balanced {begins returns : ε} (hb : mark begins = .enter) (hr : mark returns = .leave) {pre body : List ε}
    (h : balanced mark 0 body = true) : path mark (pre ++ begins :: body ++ [returns]) = path mark pre := by
  obtain ⟨top, htop⟩ := foldl_balanced (path mark pre) body [] [] h
  simp only [path, List.foldl_append, List.foldl_cons, List.foldl_nil]
  have hnext : next mark (pre.foldl (next mark) []) begins = [] ++ [] :: path mark pre := by simp [next, hb, path]
  rw [hnext, htop]
  simp [next, hr, path]

/-- `Q` holds of every event and the trace before it. -/
def Always (Q : List ε → ε → Prop) (t : List ε) : Prop := ∀ pre e post, t = pre ++ e :: post → Q pre e

variable {Q R : List ε → ε → Prop} {t : List ε}

theorem always_nil : Always Q [] := by
  intro pre e post h
  simp at h

theorem always_snoc : Always Q (t ++ [e]) ↔ Always Q t ∧ Q t e := by
  constructor
  · intro h
    refine ⟨fun pre e' post ht => h pre e' (post ++ [e]) (by simp [ht]), h t e [] rfl⟩
  · rintro ⟨ht, he⟩ pre e' post h
    rcases List.eq_nil_or_concat post with rfl | ⟨post, e'', rfl⟩
    · obtain ⟨rfl, heq⟩ := List.append_inj' h rfl
      cases heq
      exact he
    · rw [List.concat_eq_append, ← List.cons_append, ← List.append_assoc] at h
      exact ht pre e' post (List.append_inj' h rfl).1

theorem Always.last (h : Always Q (t ++ [e])) : Q t e := (always_snoc.1 h).2

/-- A trace that is not `Q` throughout does not become so. -/
theorem Always.left {u : List ε} (h : Always Q (t ++ u)) : Always Q t :=
  fun pre e post ht => h pre e (post ++ u) (by simp [ht])

/-- Events that are `Q` whatever came before. -/
theorem Always.append : ∀ {u t : List ε}, Always Q t → (∀ e ∈ u, ∀ pre, Q pre e) → Always Q (t ++ u)
  | [], _, h, _ => by simpa using h
  | e :: u, t, h, hu => by
    have h' : Always Q (t ++ [e]) := always_snoc.2 ⟨h, hu e List.mem_cons_self t⟩
    rw [List.append_cons]
    exact h'.append fun e' he' => hu e' (List.mem_cons_of_mem _ he')

end Calls
