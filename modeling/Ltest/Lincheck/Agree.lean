import Ltest.Lincheck.Linearizable
import Ltest.Lincheck.Wgl

/-!
# The two checkers agree

`Call.Val equal c r` says that a search which may also refute a node because the functor `equal` identifies it with a
refuted one gives node `c` the verdict `r`. This is what the loop of the iterative checker computes, whatever the
functors are (`explore`): from a node with the cursor at `p` it ends with the verdict of the moves from `p` on, or, when
these are all refuted, arrives at the first response that is not linearized, with the stacks as they were and only
refuted pairs added to the cache. The induction is on the number of unset bits and, inside a node, on the entries left
to scan.

The cache is filled before a pair is explored, so some of its pairs are still open. These are on the current path and
have at most as many set bits as the current node, while a lookup is always for a pair with more (`Refuted`). That the
cursor does not run past the history needs a response ahead of it (`Ahead`): a refuted node has a response that is not
linearized (`Val.exists_response`), so the scan leaves a node without one at its first move.

When the functor only identifies states that no method tells apart (`Congruent`), `Val` is the verdict of the plain
search (`Val.eq_verdict`), and the checkers agree (`Wgl.check_eq_recursive`).
-/

namespace Ltest

namespace Call

variable {τ α ν σ : Type} [BEq ν]

/-! ## The search with a cache -/

mutual

/-- The verdicts on a node of a search that may refute a node because it equals a refuted one. -/
inductive Val (C : Call τ α ν σ) (equal : σ → σ → Bool) : List Bool × σ → Option Bool → Prop
  | done {lin : List Bool} {s : σ} : lin.all id = true → Val C equal (lin, s) (some true)
  | moves {lin : List Bool} {s : σ} {r : Option Bool} : ¬lin.all id = true → Vals C equal (C.moves (lin, s)) r →
      Val C equal (lin, s) r
  | cached {lin : List Bool} {a b : σ} : Val C equal (lin, b) (some false) → equal a b = true →
      Val C equal (lin, a) (some false)

/-- The verdicts on a list of moves. -/
inductive Vals (C : Call τ α ν σ) (equal : σ → σ → Bool) : List (Option (List Bool × σ)) → Option Bool → Prop
  | nil : Vals C equal [] (some false)
  | fail {ms : List (Option (List Bool × σ))} : Vals C equal (none :: ms) none
  | live {c : List Bool × σ} {ms : List (Option (List Bool × σ))} {r : Option Bool} : Val C equal c r →
      r ≠ some false → Vals C equal (some c :: ms) r
  | dead {c : List Bool × σ} {ms : List (Option (List Bool × σ))} {r : Option Bool} : Val C equal c (some false) →
      Vals C equal ms r → Vals C equal (some c :: ms) r

end

variable {C : Call τ α ν σ} {equal : σ → σ → Bool} {lin : List Bool} {s : σ}

/-- Without unlinearized responses only pending invokes are left, and the first of them is a move. -/
theorem scan_head (hok : C.OK lin) (hno : ∀ k t, lin[k]? = some false → ¬ResponseAt C.history k t)
    (hpend : ∀ i, lin[i]? = some false → C.invRes i = none) :
    ∀ {is : List Nat}, (∀ i ∈ is, i < C.history.length) → (∃ i ∈ is, lin[i]? = some false) →
      C.scan lin s is = [none] ∨ ∃ i t s' ms, lin[i]? = some false ∧ InvokeAt C.history i t ∧
        C.scan lin s is = some (C.setBits lin i true, s') :: ms
  | [], _, h => by obtain ⟨i, hi, _⟩ := h; cases hi
  | i :: is, hlt, h => by
    by_cases hb : lin[i]? = some true
    · rw [scan_cons_true is hb]
      refine scan_head hok hno hpend (fun k hk => hlt k (List.mem_cons_of_mem _ hk)) ?_
      obtain ⟨k, hk, hkf⟩ := h
      rcases List.mem_cons.1 hk with rfl | hk
      · rw [hb] at hkf; cases hkf
      · exact ⟨k, hk, hkf⟩
    · have hi := hlt i List.mem_cons_self
      have hf := hok.eq_false hi hb
      obtain ⟨t, hinv⟩ := (invoke_or_response hi).resolve_right fun ⟨t, hr⟩ => hno i t hf hr
      cases hm : C.methods (C.view t).name with
      | none => rw [scan_cons_unnamed is hb hinv hm]; exact Or.inl rfl
      | some method =>
        rw [scan_cons_invoke is hb hinv hm, if_pos (by simp [hpend i hf])]
        exact Or.inr ⟨i, t, _, _, hf, hinv, rfl⟩

mutual

/-- A refuted node has a response that is not linearized. -/
theorem Val.exists_response (hC : C.Matched) : ∀ {c : List Bool × σ} {r : Option Bool}, Val C equal c r →
    C.OK c.1 → r = some false → ∃ k t, c.1[k]? = some false ∧ ResponseAt C.history k t
  | _, _, .done _, _, hr => by cases hr
  | _, _, .cached hv _, hok, _ => hv.exists_response hC hok rfl
  | (lin, s), _, .moves hall hms, hok, hr => by
    by_contra hno
    simp only [not_exists, not_and] at hno
    have hpend : ∀ i, lin[i]? = some false → C.invRes i = none := by
      intro i hi
      by_contra hne
      obtain ⟨j, hj⟩ := Option.ne_none_iff_exists'.1 hne
      obtain ⟨t, _, hr⟩ := hC.invoke hj
      exact hno j t ((hok.closed hj).symm.trans hi) hr
    have hleft : ∃ i ∈ List.range' 0 C.history.length, lin[i]? = some false := by
      have hmem : false ∈ lin := by simpa using hall
      obtain ⟨i, hi⟩ := List.getElem?_of_mem hmem
      have hlt := (List.getElem?_eq_some_iff.1 hi).1
      rw [hok.length] at hlt
      exact ⟨i, by simpa using hlt, hi⟩
    have hhead := hms.exists_response hC
    rcases scan_head (s := s) hok hno hpend (fun i hi => by simp at hi; omega) hleft with
      heq | ⟨i, t, s', ms, hi, hinv, heq⟩
    · rw [Call.moves, heq] at hms
      cases hms
      cases hr
    · obtain ⟨k, t', hk, hr⟩ := hhead _ _ heq (hok.setBits hC hinv true) hr
      exact hno k t' (of_setBits_true hk).1 hr

/-- In a refuted list the first move is refuted. -/
theorem Vals.exists_response (hC : C.Matched) : ∀ {ms : List (Option (List Bool × σ))} {r : Option Bool},
    Vals C equal ms r → ∀ c ms', ms = some c :: ms' → C.OK c.1 → r = some false →
      ∃ k t, c.1[k]? = some false ∧ ResponseAt C.history k t
  | _, _, .nil, _, _, h, _, _ => by cases h
  | _, _, .fail, _, _, h, _, _ => by cases h
  | _, _, .live _ hne, _, _, _, _, hr => absurd hr hne
  | _, _, .dead hv _, _, _, h, hok, _ => by
    cases h
    exact hv.exists_response hC hok rfl

end

/-! ## States that the equality functor identifies -/

/-- The functor only identifies states that give results which compare alike and that stay identified under every
method. -/
def Congruent (methods : String → Option (Method σ α ν)) (equal : σ → σ → Bool) : Prop :=
  ∀ a b, equal a b = true → ∀ name method, methods name = some method → ∀ args,
    (∀ v, ((method a args).1 == v) = ((method b args).1 == v)) ∧
      equal (method a args).2 (method b args).2 = true

/-- Identified states have the same moves, up to identification. -/
theorem scan_congruent {equal : σ → σ → Bool} (hE : Congruent C.methods equal) {a b : σ} (hab : equal a b = true) :
    ∀ {is : List Nat}, (∀ i ∈ is, i < C.history.length) →
      List.Forall₂ (Option.Rel fun c d => c.1 = d.1 ∧ equal c.2 d.2 = true) (C.scan lin a is) (C.scan lin b is)
  | [], _ => .nil
  | i :: is, hlt => by
    have ih : List.Forall₂ (Option.Rel fun c d => c.1 = d.1 ∧ equal c.2 d.2 = true) (C.scan lin a is) (C.scan lin b is) :=
      scan_congruent hE hab fun k hk => hlt k (List.mem_cons_of_mem _ hk)
    by_cases hb : lin[i]? = some true
    · rw [scan_cons_true is hb, scan_cons_true is hb]; exact ih
    · rcases invoke_or_response (hlt i List.mem_cons_self) with ⟨t, hi⟩ | ⟨t, hr⟩
      · cases hm : C.methods (C.view t).name with
        | none => rw [scan_cons_unnamed is hb hi hm, scan_cons_unnamed is hb hi hm]; exact .cons .none .nil
        | some method =>
          obtain ⟨hres, hstate⟩ := hE a b hab _ method hm (C.view t).args
          rw [scan_cons_invoke is hb hi hm, scan_cons_invoke is hb hi hm, hres]
          split
          · exact .cons (.some ⟨rfl, hstate⟩) ih
          · exact ih
      · rw [scan_cons_response is hb hr, scan_cons_response is hb hr]; exact .nil

/-- Identified states have the same verdict. -/
theorem verdict_congruent {equal : σ → σ → Bool} (hE : Congruent C.methods equal) {a b : σ} (hab : equal a b = true) :
    C.verdict (lin, a) = C.verdict (lin, b) := by
  refine Dfs.dfs_rel (R := fun c d => c.1 = d.1 ∧ equal c.2 d.2 = true) ?_ ?_ _ _ _ ⟨rfl, hab⟩
  · rintro ⟨l, a⟩ ⟨l', b⟩ ⟨rfl, _⟩
    rfl
  · rintro ⟨l, a⟩ ⟨l', b⟩ ⟨rfl, h⟩
    exact scan_congruent hE h fun i hi => by simp at hi; omega

mutual

/-- The search with a cache gives the verdicts of the plain search. -/
theorem Val.eq_verdict (hC : C.Matched) (hE : Congruent C.methods equal) : ∀ {c : List Bool × σ} {r : Option Bool},
    Val C equal c r → C.OK c.1 → C.verdict c = r
  | _, _, .done hall, hok => by rw [verdict_unfold hC hok, if_pos hall]
  | _, _, .cached hv hab, hok => (verdict_congruent hE hab).trans (hv.eq_verdict hC hE hok)
  | _, _, .moves hall hms, hok => by
    rw [verdict_unfold hC hok, if_neg hall]
    exact hms.eq_tryAll hC hE fun c hc => (ranked hC _ hok c hc).1

theorem Vals.eq_tryAll (hC : C.Matched) (hE : Congruent C.methods equal) :
    ∀ {ms : List (Option (List Bool × σ))} {r : Option Bool}, Vals C equal ms r → (∀ c, some c ∈ ms → C.OK c.1) →
      Dfs.tryAll C.verdict ms = r
  | _, _, .nil, _ => rfl
  | _, _, .fail, _ => rfl
  | _, _, .live hv hne, hok => by
    have heq := hv.eq_verdict hC hE (hok _ List.mem_cons_self)
    rw [Dfs.tryAll_cons_ne (by rw [heq]; exact hne), heq]
  | _, _, .dead hv hms, hok => by
    rw [Dfs.tryAll_cons_false (hv.eq_verdict hC hE (hok _ List.mem_cons_self))]
    exact hms.eq_tryAll hC hE fun c hc => hok c (List.mem_cons_of_mem _ hc)

end

end Call

namespace Wgl

variable {τ α ν σ : Type} [BEq ν] {C : Call τ α ν σ} {hashing : Hashing σ}

/-! ## The loop -/

/-- The pairs of the cache with more than `n` set bits are refuted. -/
def Refuted (C : Call τ α ν σ) (hashing : Hashing σ) (n : Nat) (cache : List (List Bool × σ)) : Prop :=
  ∀ e ∈ cache, n < e.1.count true → C.OK e.1 ∧ C.Val hashing.equal e (some false)

/-- There is a response to stop at from `p` on, or nothing has been passed over yet. -/
def Ahead (C : Call τ α ν σ) (lin : List Bool) (p : Nat) : Prop :=
  (∃ k t, p ≤ k ∧ lin[k]? = some false ∧ ResponseAt C.history k t) ∨ ∀ k, k < p → lin[k]? = some true

/-- What the loop does from the node `(lin, s)` with the cursor at `p`, when the moves from there on have verdict `r`. -/
def Explored (C : Call τ α ν σ) (hashing : Hashing σ) (lin : List Bool) (s : σ) (p : Nat) (opened : List Nat)
    (states : List σ) (cache : List (List Bool × σ)) : Option Bool → Prop
  | none => Loop.Ends (step C hashing) (mk lin s p opened states cache) .assertFailed
  | some true => Loop.Ends (step C hashing) (mk lin s p opened states cache) (.returned true)
  | some false => ∃ q t new, lin[q]? = some false ∧ ResponseAt C.history q t ∧
      Loop.Reaches (step C hashing) (mk lin s p opened states cache) (mk lin s q opened states (new ++ cache)) ∧
      ∀ e ∈ new, lin.count true < e.1.count true ∧ C.OK e.1 ∧ C.Val hashing.equal e (some false)

/-- What the loop does before it gets to the entry after `p`. -/
theorem Explored.after {lin : List Bool} {s : σ} {p : Nat} {opened : List Nat} {states : List σ}
    {cache new : List (List Bool × σ)} (hs : Loop.Reaches (step C hashing) (mk lin s p opened states cache)
      (mk lin s (p + 1) opened states (new ++ cache)))
    (hnew : ∀ e ∈ new, lin.count true < e.1.count true ∧ C.OK e.1 ∧ C.Val hashing.equal e (some false)) :
    ∀ {r : Option Bool}, Explored C hashing lin s (p + 1) opened states (new ++ cache) r →
      Explored C hashing lin s p opened states cache r
  | none, h => .of_reaches hs h
  | some true, h => .of_reaches hs h
  | some false, ⟨q, t, more, hq, hr, hreach, hmore⟩ =>
    ⟨q, t, more ++ new, hq, hr, by rw [List.append_assoc]; exact hs.trans hreach,
      fun e he => (List.mem_append.1 he).elim (hmore e) (hnew e)⟩

/-- One pass to the entry after `p`. -/
theorem Explored.pass {lin : List Bool} {s : σ} {p : Nat} {opened : List Nat} {states : List σ}
    {cache : List (List Bool × σ)} {r : Option Bool}
    (hs : step C hashing (mk lin s p opened states cache) = .ok (mk lin s (p + 1) opened states cache))
    (h : Explored C hashing lin s (p + 1) opened states cache r) : Explored C hashing lin s p opened states cache r :=
  .after (show Loop.Reaches _ _ (mk lin s (p + 1) opened states ([] ++ cache)) from .pass hs .refl) (by simp) h

/-- A hit in the cache refutes the pair that was looked up. -/
theorem val_of_find {n : Nat} {cache : List (List Bool × σ)} {key : List Bool × σ} (hcache : Refuted C hashing n cache)
    (hn : n < key.1.count true) (hfind : hashing.find cache key = true) : C.Val hashing.equal key (some false) := by
  obtain ⟨e, he, hmatch⟩ := List.any_eq_true.1 hfind
  simp only [Hashing.pairEqual, Bool.and_eq_true, beq_iff_eq] at hmatch
  obtain ⟨_, hbits, hstate⟩ := hmatch
  obtain ⟨lin, s⟩ := e
  obtain ⟨lin', s'⟩ := key
  simp only at hbits hstate
  subst hbits
  exact .cached (hcache _ he hn).2 hstate

/-- What holds when the scan of a node is at entry `p`. -/
structure Scanning (C : Call τ α ν σ) (hashing : Hashing σ) (lin : List Bool) (p : Nat)
    (cache : List (List Bool × σ)) : Prop where
  refuted : Refuted C hashing (lin.count true) cache
  minimal : ∀ k t, k < p → lin[k]? = some false → ¬ResponseAt C.history k t
  ahead : Ahead C lin p

section Explore

variable {lin : List Bool} {s : σ} {p : Nat} {opened : List Nat} {states : List σ} {cache : List (List Bool × σ)}

/-- A linearized entry is passed. -/
theorem Scanning.skip (h : Scanning C hashing lin p cache) (hp : lin[p]? = some true) :
    Scanning C hashing lin (p + 1) cache where
  refuted := h.refuted
  minimal k t hk hkf := by
    rcases Nat.lt_succ_iff_lt_or_eq.1 hk with hk | rfl
    · exact h.minimal k t hk hkf
    · rw [hp] at hkf; cases hkf
  ahead := by
    rcases h.ahead with ⟨k, t, hk, hkf, hr⟩ | hall
    · refine Or.inl ⟨k, t, ?_, hkf, hr⟩
      rcases Nat.lt_or_eq_of_le hk with h | rfl
      · omega
      · rw [hp] at hkf; cases hkf
    · refine Or.inr fun k hk => ?_
      rcases Nat.lt_succ_iff_lt_or_eq.1 hk with hk | rfl
      · exact hall k hk
      · exact hp

/-- A refuted invoke is passed; some response that the node has not linearized is ahead of it. -/
theorem Scanning.next {cache' : List (List Bool × σ)} (h : Scanning C hashing lin p cache)
    (hcache : Refuted C hashing (lin.count true) cache') {t : τ} (hi : InvokeAt C.history p t) {k : Nat} {t' : τ}
    (hk : lin[k]? = some false) (hr : ResponseAt C.history k t') : Scanning C hashing lin (p + 1) cache' where
  refuted := hcache
  minimal k t' hk hkf := by
    rcases Nat.lt_succ_iff_lt_or_eq.1 hk with hk | rfl
    · exact h.minimal k t' hk hkf
    · exact hi.not_response
  ahead := by
    have hle : p ≤ k := by
      by_contra hlt
      exact h.minimal k t' (by omega) hk hr
    have hne : k ≠ p := by
      rintro rfl
      exact hi.not_response hr
    exact Or.inl ⟨k, t', by omega, hk, hr⟩

/-- A new node is scanned from the start; it is itself in the cache, still open. -/
theorem Scanning.child {lin' : List Bool} {s' : σ} (h : Scanning C hashing lin p cache)
    (hlt : lin.count true < lin'.count true) : Scanning C hashing lin' 0 ((lin', s') :: cache) where
  refuted e he hn := by
    rcases List.mem_cons.1 he with rfl | he
    · exact absurd hn (Nat.lt_irrefl _)
    · exact h.refuted e he (Nat.lt_trans hlt hn)
  minimal k t hk := absurd hk (Nat.not_lt_zero k)
  ahead := Or.inr fun k hk => absurd hk (Nat.not_lt_zero k)

/-- The cursor is inside the history as long as a bit is unset. -/
theorem Scanning.lt (h : Scanning C hashing lin p cache) (hok : C.OK lin) (hgo : ¬lin.all id = true) :
    p < C.history.length := by
  by_contra hge
  rcases h.ahead with ⟨k, t, hk, _, hr⟩ | hall
  · have := hr.lt; omega
  · refine hgo (List.all_eq_true.2 fun b hb => ?_)
    obtain ⟨k, hk⟩ := List.getElem?_of_mem hb
    have hlt := (List.getElem?_eq_some_iff.1 hk).1
    rw [hok.length] at hlt
    rw [hall k (by omega)] at hk
    cases hk
    rfl

/-- A move that is not in the cache: its node is explored (`ih`), and if it is refuted the scan goes on (`rest`). -/
theorem explore_open (hC : C.Matched) (hok : C.OK lin) (hgo : ¬lin.all id = true) {t : τ} {method : Method σ α ν}
    (hsc : Scanning C hashing lin p cache) (hf : lin[p]? = some false) (hi : InvokeAt C.history p t)
    (hm : C.methods (C.view t).name = some method)
    (hadm : ((C.invRes p).isNone || (method s (C.view t).args).1 == (C.view t).retVal) = true)
    {lin' : List Bool} {s' : σ} (hlin : lin' = C.setBits lin p true) (hs : s' = (method s (C.view t).args).2)
    (hmiss : ¬hashing.find cache (lin', s') = true) {ms : List (Option (List Bool × σ))}
    (ih : ¬lin'.all id = true → ∃ r, C.Vals hashing.equal (C.moves (lin', s')) r ∧
      Explored C hashing lin' s' 0 (p :: opened) (s :: states) ((lin', s') :: cache) r)
    (rest : ∀ cache', Scanning C hashing lin (p + 1) cache' → ∃ r, C.Vals hashing.equal ms r ∧
      Explored C hashing lin s (p + 1) opened states cache' r) :
    ∃ r, C.Vals hashing.equal (some (lin', s') :: ms) r ∧ Explored C hashing lin s p opened states cache r := by
  subst hlin hs
  have hopen : step C hashing (mk lin s p opened states cache) = _ := step_open hok hgo hC hf hi hm hadm hmiss
  have hok' : C.OK (C.setBits lin p true) := hok.setBits hC hi true
  by_cases hall : (C.setBits lin p true).all id = true
  · exact ⟨some true, .live (.done hall) (by simp), Loop.Ends.pass hopen (.exit (step_done hok' hall))⟩
  · obtain ⟨r, hvs, hex⟩ := ih hall
    match r, hvs, hex with
    | none, hvs, hex => exact ⟨none, .live (.moves hall hvs) (by simp), Loop.Ends.pass hopen hex⟩
    | some true, hvs, hex => exact ⟨some true, .live (.moves hall hvs) (by simp), Loop.Ends.pass hopen hex⟩
    | some false, hvs, ⟨q, t', new, hq, hr, hreach, hnew⟩ =>
      have hcount := count_lt_open hC hok hf
      -- the node is refuted: back to its invoke, with the node and what was refuted under it in the cache
      have hback : Loop.Reaches (step C hashing) (mk lin s p opened states cache) (mk lin s (p + 1) opened states _) :=
        Loop.Reaches.pass hopen (hreach.trans (.pass (step_close hC hok hf hi hq hr) .refl))
      have hadd : ∀ e ∈ new ++ [(C.setBits lin p true, (method s (C.view t).args).2)],
          lin.count true < e.1.count true ∧ C.OK e.1 ∧ C.Val hashing.equal e (some false) := by
        intro e he
        rcases List.mem_append.1 he with he | he
        · exact ⟨Nat.lt_trans hcount (hnew e he).1, (hnew e he).2⟩
        · rw [List.mem_singleton.1 he]
          exact ⟨hcount, hok', .moves hall hvs⟩
      rw [List.append_cons] at hback
      have hcache : Refuted C hashing (lin.count true) (_ ++ cache) := fun e he hn =>
        (List.mem_append.1 he).elim (fun he => (hadd e he).2) fun he => hsc.refuted e he hn
      obtain ⟨r, hms, hex⟩ := rest _ (hsc.next hcache hi (Call.of_setBits_true hq).1 hr)
      exact ⟨r, .dead (.moves hall hvs) hms, hex.after hback hadd⟩

/-- **The loop computes the search with a cache**, for the moves of a node from entry `p` on. -/
theorem explore (hC : C.Matched) : ∀ (n d : Nat) {lin : List Bool} {s : σ} {p : Nat} {opened : List Nat}
    {states : List σ} {cache : List (List Bool × σ)}, C.OK lin → ¬lin.all id = true → lin.count false ≤ n →
    C.history.length = p + d → Scanning C hashing lin p cache →
      ∃ r, C.Vals hashing.equal (C.scan lin s (List.range' p d)) r ∧
        Explored C hashing lin s p opened states cache r := by
  intro n
  induction n with
  | zero =>
    intro d lin s p opened states cache hok hgo hn _ _
    refine absurd (List.all_eq_true.2 fun b hb => ?_) hgo
    cases b with
    | true => rfl
    | false => exact absurd (List.count_pos_iff.2 hb) (by omega)
  | succ n ihn =>
    intro d
    induction d with
    | zero => intro lin s p opened states cache hok hgo _ hlen hsc; exact absurd (hsc.lt hok hgo) (by omega)
    | succ d ihd =>
      intro lin s p opened states cache hok hgo hn hlen hsc
      have hlt := hsc.lt hok hgo
      have hlen' : C.history.length = p + 1 + d := by omega
      rw [List.range'_succ]
      by_cases hb : lin[p]? = some true
      · obtain ⟨r, hms, hex⟩ := ihd hok hgo hn hlen' (hsc.skip hb)
        rw [Call.scan_cons_true _ hb]
        exact ⟨r, hms, hex.pass (step_skip hok hgo hb)⟩
      · have hf := hok.eq_false hlt hb
        rcases invoke_or_response hlt with ⟨t, hi⟩ | ⟨t, hr⟩
        · cases hm : C.methods (C.view t).name with
          | none =>
            rw [Call.scan_cons_unnamed _ hb hi hm]
            exact ⟨none, .fail, Loop.Ends.exit (step_unnamed hok hgo hf hi hm)⟩
          | some method =>
            rw [Call.scan_cons_invoke _ hb hi hm]
            split
            · rename_i hadm
              by_cases hhit : hashing.find cache (C.setBits lin p true, (method s (C.view t).args).2) = true
              · have hv := val_of_find hsc.refuted (count_lt_open hC hok hf) hhit
                obtain ⟨k, t', hk, hr⟩ := hv.exists_response hC (hok.setBits hC hi true) rfl
                obtain ⟨r, hms, hex⟩ :=
                  ihd hok hgo hn hlen' (hsc.next hsc.refuted hi (Call.of_setBits_true hk).1 hr)
                exact ⟨r, .dead hv hms, hex.pass (step_hit hok hgo hf hi hm hadm hhit)⟩
              · have hrank : (C.setBits lin p true).count false ≤ n :=
                  Nat.le_of_lt_succ (Nat.lt_of_lt_of_le (Call.count_setBits hf) hn)
                exact explore_open hC hok hgo hsc hf hi hm hadm rfl rfl hhit
                  (fun hall => ihn C.history.length (hok.setBits hC hi true) hall hrank (by omega)
                    (hsc.child (count_lt_open hC hok hf)))
                  fun cache' hsc' => ihd hok hgo hn hlen' hsc'
            · rename_i hadm
              -- the invoke is answered, and its response is still ahead
              obtain ⟨j, hj⟩ : ∃ j, C.invRes p = some j :=
                Option.ne_none_iff_exists'.1 fun hnone => hadm (by simp [hnone])
              obtain ⟨t', _, hr⟩ := hC.invoke hj
              obtain ⟨r, hms, hex⟩ :=
                ihd hok hgo hn hlen' (hsc.next hsc.refuted hi ((hok.closed hj).symm.trans hf) hr)
              exact ⟨r, hms, hex.pass (step_refuse hok hgo hf hi hm hadm)⟩
        · rw [Call.scan_cons_response _ hb hr]
          exact ⟨some false, .nil, p, t, [], hf, hr, .refl, by simp⟩

end Explore

/-- How the iterative checker ends when the search has verdict `r`. -/
def Halt.of : Option Bool → Halt
  | some b => .returned b
  | none => .assertFailed

/-- **The iterative checker gives the verdict of the search with a cache**, whatever the functors are. -/
theorem ends_of_val (hC : C.Matched) (first : σ) :
    ∃ r, C.Val hashing.equal (List.replicate C.history.length false, first) r ∧
      Loop.Ends (step C hashing) (mk (List.replicate C.history.length false) first 0 [] [] []) (.of r) := by
  have hok := Call.OK.start hC
  by_cases hall : (List.replicate C.history.length false).all id = true
  · exact ⟨some true, .done hall, .exit (step_done hok hall)⟩
  · have hsc : Scanning C hashing (List.replicate C.history.length false) 0 [] :=
      ⟨by simp [Refuted], by simp, Or.inr (by simp)⟩
    obtain ⟨r, hms, hex⟩ : ∃ r, C.Vals hashing.equal (C.moves (_, first)) r ∧ Explored C hashing _ first 0 [] [] [] r :=
      explore hC _ _ hok hall (Nat.le_refl _) (Nat.zero_add _).symm hsc
    refine ⟨r, .moves hall hms, ?_⟩
    match r, hex with
    | none, hex => exact hex
    | some true, hex => exact hex
    | some false, ⟨q, t, new, hq, hr, hreach, _⟩ => exact .of_reaches hreach (.exit (step_refuted hok hall hq hr))

variable [DecidableEq τ]

/-- **The two checkers agree**: the iterative checker terminates, and with the outcome of the recursive one. -/
theorem check_eq_recursive (spec : Specification σ α ν) (hashing : Hashing σ) (view : τ → TaskView α ν)
    (H : List (HistoryEvent τ ν)) (hresp : ResponsesInvoked H) (hequal : Call.Congruent spec.methods hashing.equal) :
    ∃ n, ∀ fuel, n ≤ fuel → check fuel spec hashing view H = some (.of (Recursive.check spec view H)) := by
  obtain ⟨m, hm⟩ := getInvResMapping_isSome hresp
  let C : Call τ α ν σ := ⟨spec.methods, view, H, m⟩
  have hC : C.Matched := Call.matched_of_mapping hm
  obtain ⟨r, hv, hends⟩ : ∃ r, C.Val hashing.equal _ r ∧ _ := ends_of_val hC spec.firstState
  have hr : Recursive.check spec view H = r :=
    (Recursive.check_eq_verdict hm).trans (hv.eq_verdict hC hequal (Call.OK.start hC))
  obtain ⟨n, hn⟩ := hends.run
  refine ⟨n, fun fuel hfuel => ?_⟩
  have hrun := hn fuel hfuel
  rw [mk, show (List.replicate C.history.length false).count true = 0 by simp [List.count_replicate]] at hrun
  simp only [check, hm, hr]
  exact hrun

/-- The hash and equality of the counter of `lin_check_test.cpp`: the count itself. -/
def counterHashing : Hashing Int := ⟨fun count => UInt64.ofInt count, fun a b => a == b, fun _ => 0⟩

theorem check_eq_recursive_getBesideFaa : ∃ n, ∀ fuel, n ≤ fuel →
    check fuel Recursive.counterSpec counterHashing Recursive.counterTasks Recursive.getBesideFaa =
      some (.of (Recursive.check Recursive.counterSpec Recursive.counterTasks Recursive.getBesideFaa)) := by
  refine check_eq_recursive _ _ _ _ (by decide) ?_
  intro a b hab name method _ args
  cases (beq_iff_eq.1 hab : a = b)
  exact ⟨fun _ => rfl, beq_self_eq_true _⟩

example : check 9 Recursive.counterSpec counterHashing Recursive.counterTasks Recursive.getBesideFaa =
    some (.returned true) := by decide

end Wgl

end Ltest
