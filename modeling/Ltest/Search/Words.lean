import Mathlib.Data.List.Induction
import Mathlib.Tactic.Common

/-!
# Words in lexicographic order

The words over a finite ordered alphabet that satisfy a prefix-closed condition `ok` and end in a `leaf`, with no leaf
before: `words` lists them depth first. With a bound on the length of the `ok` words the list holds every such word
(`mem_words`), and in lexicographic order, so each of them once (`words_sorted`).

`visited` is what is left of a list when a visitor looks at its elements one by one and stops at the first one it does
not accept, or after a given number.
-/

namespace Words

variable {L : Type}

section Enumerate

variable (alphabet : List L) (ok leaf : List L → Bool)

/-- The words below `p`, of at most `n` more letters. -/
def words : Nat → List L → List (List L)
  | 0, _ => []
  | n + 1, p => if leaf p then [p] else alphabet.flatMap fun a => if ok (p ++ [a]) then words n (p ++ [a]) else []

/-- The words below `p` that go on with one of the letters `as`. -/
def after (n : Nat) (p : List L) (as : List L) : List (List L) :=
  as.flatMap fun a => if ok (p ++ [a]) then words alphabet ok leaf n (p ++ [a]) else []

/-- `w` ends in the first leaf after `p`. -/
def EndsAtLeaf (p w : List L) : Prop :=
  leaf w = true ∧ ∀ q, p <+: q → q <+: w → leaf q = true → q = w

end Enumerate

variable {alphabet : List L} {ok leaf : List L → Bool}

/-- Every word below `p` begins with `p`. -/
theorem prefix_of_mem : ∀ (n : Nat) {p w : List L}, w ∈ words alphabet ok leaf n p → p <+: w
  | 0, p, w, h => by cases h
  | n + 1, p, w, h => by
    unfold words at h
    split at h
    · obtain rfl := List.mem_singleton.1 h
      exact List.prefix_refl _
    · obtain ⟨a, _, ha⟩ := List.mem_flatMap.1 h
      split at ha
      · exact (List.prefix_append p [a]).trans (prefix_of_mem n ha)
      · cases ha

/-- **The list holds every word below `p`** when `n` is large enough for all of them. -/
theorem mem_words (hletters : ∀ p a, ok (p ++ [a]) = true → a ∈ alphabet)
    (hclosed : ∀ p a, ok (p ++ [a]) = true → ok p = true) : ∀ (n : Nat) {p w : List L}, ok p = true →
    (∀ w, p <+: w → ok w = true → w.length < p.length + n) →
      (w ∈ words alphabet ok leaf n p ↔ p <+: w ∧ ok w = true ∧ EndsAtLeaf leaf p w)
  | 0, p, w, hp, hlen => absurd (hlen p (List.prefix_refl p) hp) (by omega)
  | n + 1, p, w, hp, hlen => by
    have hlen' : ∀ a w, p ++ [a] <+: w → ok w = true → w.length < (p ++ [a]).length + n := by
      intro a w hw hok
      have := hlen w ((List.prefix_append p [a]).trans hw) hok
      simp only [List.length_append, List.length_singleton]
      omega
    have hclosed' : ∀ v p, ok (p ++ v) = true → ok p = true := by
      intro v
      induction v using List.reverseRecOn with
      | nil => simp
      | append_singleton v a ih => intro p h; exact ih p (hclosed _ a (by rwa [List.append_assoc]))
    unfold words
    by_cases hleaf : leaf p = true
    · rw [if_pos hleaf, List.mem_singleton]
      constructor
      · rintro rfl
        exact ⟨List.prefix_refl w, hp, hleaf, fun q hq hqw _ => hqw.eq_of_length_le hq.length_le⟩
      · rintro ⟨hpw, _, _, hfirst⟩
        exact (hfirst p (List.prefix_refl p) hpw hleaf).symm
    · rw [if_neg hleaf]
      constructor
      · intro h
        obtain ⟨a, _, ha⟩ := List.mem_flatMap.1 h
        split at ha
        · rename_i hok
          obtain ⟨hpw, hw, hlw, hfirst⟩ := (mem_words hletters hclosed n hok (hlen' a)).1 ha
          refine ⟨(List.prefix_append p [a]).trans hpw, hw, hlw, fun q hq hqw hlq => ?_⟩
          -- a prefix of `w` that begins with `p` is `p`, or begins with `p ++ [a]`
          rcases List.prefix_or_prefix_of_prefix hqw hpw with h | h
          · rcases List.prefix_concat_iff.1 h with rfl | h
            · exact hfirst _ (List.prefix_refl _) hqw hlq
            · exact absurd (hq.eq_of_length_le h.length_le ▸ hlq) hleaf
          · exact hfirst q h hqw hlq
        · cases ha
      · rintro ⟨⟨v, rfl⟩, hw, hlw, hfirst⟩
        match v with
        | [] => rw [List.append_nil] at hlw; exact absurd hlw hleaf
        | a :: v =>
          rw [List.append_cons] at hw hlw hfirst ⊢
          have hok := hclosed' v _ hw
          refine List.mem_flatMap.2 ⟨a, hletters p a hok, ?_⟩
          rw [if_pos hok]
          exact (mem_words hletters hclosed n hok (hlen' a)).2
            ⟨List.prefix_append _ v, hw, hlw, fun q hq => hfirst q ((List.prefix_append p [a]).trans hq)⟩

/-- More letters than enough add no words. -/
theorem words_of_le : ∀ {n m : Nat} {p : List L}, ok p = true →
    (∀ w, p <+: w → ok w = true → w.length < p.length + n) → n ≤ m →
      words alphabet ok leaf m p = words alphabet ok leaf n p
  | 0, _, p, hp, hlen, _ => absurd (hlen p (List.prefix_refl p) hp) (by omega)
  | n + 1, 0, _, _, _, hle => absurd hle (by omega)
  | n + 1, m + 1, p, hp, hlen, hle => by
    unfold words
    split
    · rfl
    · rw [List.flatMap_def, List.flatMap_def]
      refine congrArg _ (List.map_congr_left fun a _ => ?_)
      split
      · rename_i hok
        refine words_of_le hok (fun w hw hok => ?_) (by omega)
        have := hlen w ((List.prefix_append p [a]).trans hw) hok
        simp only [List.length_append, List.length_singleton]
        omega
      · rfl

/-- Words that branch off `p` with different letters are in the order of these. -/
theorem lex_of_prefix {r : L → L → Prop} {a b : L} (hab : r a b) {p v w : List L} (hv : p ++ [a] <+: v)
    (hw : p ++ [b] <+: w) : List.Lex r v w := by
  obtain ⟨v, rfl⟩ := hv
  obtain ⟨w, rfl⟩ := hw
  induction p with
  | nil => exact .rel hab
  | cons c p ih => exact .cons ih

/-- **The words are listed in lexicographic order.** -/
theorem words_sorted {r : L → L → Prop} (halpha : alphabet.Pairwise r) : ∀ (n : Nat) (p : List L),
    (words alphabet ok leaf n p).Pairwise (List.Lex r)
  | 0, p => .nil
  | n + 1, p => by
    unfold words
    split
    · exact List.pairwise_singleton _ _
    · refine List.pairwise_flatMap.2 ⟨fun a _ => ?_, halpha.imp fun {a b} hab v hv w hw => ?_⟩
      · split
        · exact words_sorted halpha n _
        · exact .nil
      · split at hv
        · split at hw
          · exact lex_of_prefix hab (prefix_of_mem n hv) (prefix_of_mem n hw)
          · cases hw
        · cases hv

/-! ## Visiting a list -/

section Visit

variable {H : Type} (accepts : H → Bool)

/-- The elements a visitor sees that stops after `n` elements, or after one it does not accept. -/
def visited : Nat → List H → List H
  | 0, _ => []
  | _ + 1, [] => []
  | n + 1, h :: hs => h :: if accepts h then visited n hs else []

/-- The visitor gets through the list. -/
def Passes (n : Nat) (hs : List H) : Prop := hs.length < n ∧ ∀ h ∈ hs, accepts h = true

variable {accepts}

@[simp] theorem visited_nil (n : Nat) : visited accepts n [] = [] := by
  cases n <;> rfl

/-- What the visitor sees is in the list. -/
theorem mem_of_visited {h : H} : ∀ {n : Nat} {hs : List H}, h ∈ visited accepts n hs → h ∈ hs
  | 0, _, hmem => by cases hmem
  | _ + 1, [], hmem => by cases hmem
  | n + 1, h' :: hs, hmem => by
    unfold visited at hmem
    obtain rfl | hmem := List.mem_cons.1 hmem
    · exact List.mem_cons_self
    · split at hmem
      · exact List.mem_cons_of_mem _ (mem_of_visited hmem)
      · cases hmem

/-- The visitor goes on with the rest once it is through a first part. -/
theorem visited_append : ∀ {n : Nat} {hs : List H} (hs' : List H), Passes accepts n hs →
    visited accepts n (hs ++ hs') = hs ++ visited accepts (n - hs.length) hs'
  | _, [], _, _ => by simp
  | 0, _ :: _, _, h => absurd h.1 (by simp)
  | n + 1, h :: hs, hs', hp => by
    have hrest : Passes accepts n hs :=
      ⟨by have := hp.1; simp only [List.length_cons] at this; omega, fun h' h => hp.2 h' (List.mem_cons_of_mem _ h)⟩
    simp [visited, hp.2 h List.mem_cons_self, visited_append hs' hrest]

/-- The visitor does not see the rest when it stops in a first part. -/
theorem visited_append_of_stop : ∀ {n : Nat} {hs : List H} (hs' : List H), ¬Passes accepts n hs →
    visited accepts n (hs ++ hs') = visited accepts n hs
  | 0, _, _, _ => rfl
  | n + 1, [], _, h => absurd ⟨Nat.succ_pos n, by simp⟩ h
  | n + 1, h :: hs, hs', hp => by
    by_cases hacc : accepts h = true
    · have hrest : ¬Passes accepts n hs := by
        rintro ⟨hlen, hall⟩
        exact hp ⟨by simpa using hlen, List.forall_mem_cons.2 ⟨hacc, hall⟩⟩
      simp [visited, hacc, visited_append_of_stop hs' hrest]
    · simp [visited, hacc]

theorem Passes.append {n : Nat} {hs hs' : List H} (h : Passes accepts n hs) :
    Passes accepts n (hs ++ hs') ↔ Passes accepts (n - hs.length) hs' := by
  have := h.1
  constructor
  · rintro ⟨hlen, hall⟩
    rw [List.length_append] at hlen
    exact ⟨by omega, fun x hx => hall x (List.mem_append_right _ hx)⟩
  · rintro ⟨hlen, hall⟩
    refine ⟨by rw [List.length_append]; omega, fun x hx => ?_⟩
    exact (List.mem_append.1 hx).elim (h.2 x) (hall x)

/-- A list the visitor gets through is seen as a whole. -/
theorem Passes.visited {n : Nat} {hs : List H} (h : Passes accepts n hs) : visited accepts n hs = hs := by
  simpa using visited_append [] h

/-- A visitor with time for the whole list sees an element that it does not accept, if there is one. -/
theorem exists_rejected : ∀ {n : Nat} {hs : List H}, hs.length < n → (∃ h ∈ hs, accepts h = false) →
    ∃ h ∈ visited accepts n hs, accepts h = false
  | _, [], _, h => by
    obtain ⟨_, hmem, _⟩ := h
    cases hmem
  | 0, _ :: _, hlen, _ => absurd hlen (Nat.not_lt_zero _)
  | n + 1, h :: hs, hlen, hrej => by
    unfold Words.visited
    cases hacc : accepts h with
    | false => exact ⟨h, List.mem_cons_self, hacc⟩
    | true =>
      obtain ⟨x, hx, hrej⟩ := hrej
      obtain rfl | hx := List.mem_cons.1 hx
      · rw [hacc] at hrej
        cases hrej
      · obtain ⟨y, hy, hrej⟩ := exists_rejected (n := n) (Nat.lt_of_succ_lt_succ hlen) ⟨x, hx, hrej⟩
        exact ⟨y, List.mem_cons_of_mem _ hy, hrej⟩

end Visit

end Words
