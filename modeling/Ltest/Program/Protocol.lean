import Mathlib.Data.List.Basic
import Mathlib.Tactic.Common

/-!
# Protocols

A protocol says in which order the members of an alphabet may come: an automaton without accepting states, given by what
is allowed in a state and what the next state is. A word `Walks` when each of its letters is allowed where it stands.
-/

/-- The states of a protocol, what is allowed in them, and what follows. -/
structure Protocol (Q A : Type) where
  free : Q
  allowed : Q → A → Bool
  after : Q → A → Q

namespace Protocol

variable {Q A : Type} (P : Protocol Q A)

/-- The state after a word. -/
def reached (q : Q) (l : List A) : Q := l.foldl P.after q

/-- Every letter of the word is allowed where it stands. -/
def Walks : Q → List A → Prop
  | _, [] => True
  | q, a :: l => P.allowed q a = true ∧ Walks (P.after q a) l

variable {P}

@[simp] theorem reached_nil (q : Q) : P.reached q [] = q := rfl

@[simp] theorem reached_snoc (q : Q) (l : List A) (a : A) :
    P.reached q (l ++ [a]) = P.after (P.reached q l) a := by
  simp [reached]

/-- What every letter keeps holds after a word. -/
theorem reached_rule {I : Q → Prop} (hstep : ∀ q a, I q → I (P.after q a)) : ∀ {q : Q} {l : List A}, I q →
    I (P.reached q l)
  | _, [], hI => hI
  | q, a :: l, hI => reached_rule hstep (q := P.after q a) (l := l) (hstep q a hI)

/-- One more letter. -/
theorem walks_snoc {a : A} : ∀ {q : Q} {l : List A}, P.Walks q (l ++ [a]) ↔
    P.Walks q l ∧ P.allowed (P.reached q l) a = true
  | q, [] => by simp [Walks]
  | q, b :: l => by
    have ih := walks_snoc (a := a) (q := P.after q b) (l := l)
    simp only [List.cons_append, Walks, ih, and_assoc, reached, List.foldl_cons]

/-- Words that come in blocks: after a block the protocol is free again, and what is allowed begins or goes on with a
block. So a word that walks is a prefix of a sequence of blocks. -/
theorem prefix_of_walks {B : List A → Prop} (hfree : ∀ a, P.allowed P.free a = true → ∃ b, B [a, b] ∧
    P.after (P.after P.free a) b = P.free ∧ ∀ c, P.allowed (P.after P.free a) c = true → c = b) :
    ∀ {l : List A}, P.Walks P.free l → ∃ ws : List (List A), (∀ w ∈ ws, B w) ∧ l <+: ws.flatten
  | [], _ => ⟨[], by simp, List.nil_prefix⟩
  | [a], h => by
    obtain ⟨b, hb, _⟩ := hfree a h.1
    exact ⟨[[a, b]], by simpa using hb, ⟨[b], rfl⟩⟩
  | a :: c :: l, h => by
    obtain ⟨b, hb, hback, honly⟩ := hfree a h.1
    obtain rfl := honly c h.2.1
    obtain ⟨ws, hws, hprefix⟩ := prefix_of_walks hfree (l := l) (by rw [← hback]; exact h.2.2)
    refine ⟨[a, c] :: ws, List.forall_mem_cons.2 ⟨hb, hws⟩, ?_⟩
    rw [List.flatten_cons]
    exact (List.prefix_append_right_inj [a, c]).2 hprefix

end Protocol
