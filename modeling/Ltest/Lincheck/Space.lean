import Ltest.Lincheck.History
import Ltest.Search.Dfs

/-!
# The search space of a history

Both checkers walk the same space. A node `(lin, s)` holds the bits of the entries that are already linearized and the
state of the sequential specification. Its moves are the *minimal* operations, in history order: the invokes that are
not linearized and stand before the first response that is not (`Call.scan`). Linearizing an invoke sets its bit and
that of its response (`Call.setBits`); an invoke without a response is linearized with its result unchecked.

`Call.OK` is what the walk keeps of the bits: an invoke and its response are linearized together. Every move sets at
least one bit, so the space is ranked by the number of bits still unset (`Call.ranked`).
-/

namespace Ltest

/-- `Method`: `ValueWrapper(LinearSpecificationObject*, void*)`, with the object passed and returned. -/
abbrev Method (σ α ν : Type) := σ → α → ν × σ

/-- What a checker is constructed from: `specification_methods` and `first_state`. -/
structure Specification (σ α ν : Type) where
  methods : String → Option (Method σ α ν)
  firstState : σ

/-- What one call of `Check` works on, once the mapping is computed. -/
structure Call (τ α ν σ : Type) where
  methods : String → Option (Method σ α ν)
  view : τ → TaskView α ν
  history : List (HistoryEvent τ ν)
  invRes : Nat → Option Nat

namespace Call

variable {τ α ν σ : Type}

/-- The bits of invoke `i` and of its response, if it has one, set to `b`. -/
def setBits (C : Call τ α ν σ) (lin : List Bool) (i : Nat) (b : Bool) : List Bool :=
  match C.invRes i with
  | none => lin.set i b
  | some j => (lin.set i b).set j b

/-- The moves of node `(lin, s)` among the entries `is`. -/
def scan [BEq ν] (C : Call τ α ν σ) (lin : List Bool) (s : σ) : List Nat → List (Option (List Bool × σ))
  | [] => []
  | i :: is =>
    if lin[i]? = some true then scan C lin s is
    else
      match C.history[i]? with
      | some (.invoke task _) =>
        match C.methods (C.view task).name with
        | none => [none]
        | some method =>
          if (C.invRes i).isNone || (method s (C.view task).args).1 == (C.view task).retVal then
            some (C.setBits lin i true, (method s (C.view task).args).2) :: scan C lin s is
          else scan C lin s is
      | _ => []

/-- The moves of a node. -/
def moves [BEq ν] (C : Call τ α ν σ) (c : List Bool × σ) : List (Option (List Bool × σ)) :=
  C.scan c.1 c.2 (List.range' 0 C.history.length)

/-- Every entry is linearized: `std::reduce` of the bits with `bit_and`. -/
def done (c : List Bool × σ) : Bool := c.1.all id

/-- The verdict on a node of the space. -/
def verdict [BEq ν] (C : Call τ α ν σ) (c : List Bool × σ) : Option Bool :=
  Dfs.dfs done C.moves (C.history.length + 1) c

/-! ## The bits -/

/-- The mapping sends an invoke to a later response, and different invokes to different responses. -/
structure Matched (C : Call τ α ν σ) : Prop where
  lt : ∀ {i j}, C.invRes i = some j → i < j
  invoke : ∀ {i j}, C.invRes i = some j → ∃ t, InvokeAt C.history i t ∧ ResponseAt C.history j t
  inj : ∀ {i i' j}, C.invRes i = some j → C.invRes i' = some j → i = i'

/-- One bit per entry; an invoke and its response are linearized together. -/
structure OK (C : Call τ α ν σ) (lin : List Bool) : Prop where
  length : lin.length = C.history.length
  closed : ∀ {i j}, C.invRes i = some j → lin[i]? = lin[j]?

/-- `get_inv_res_mapping` matches invokes and responses, on every history. -/
theorem matched_of_mapping [DecidableEq τ] {C : Call τ α ν σ} (h : getInvResMapping C.history = some C.invRes) :
    C.Matched where
  lt := by
    intro i j hij
    obtain ⟨_, _, _, hlt, _⟩ := (invRes_iff h).1 hij
    exact hlt
  invoke := by
    intro i j hij
    obtain ⟨t, hi, hj, _⟩ := (invRes_iff h).1 hij
    exact ⟨t, hi, hj⟩
  inj := by
    intro i i' j hij hij'
    obtain ⟨t, hi, hj, hlt, hno, _⟩ := (invRes_iff h).1 hij
    obtain ⟨t', hi', hj', hlt', hno', _⟩ := (invRes_iff h).1 hij'
    cases hj.task_eq hj'
    -- the later of the two invokes would stand between the earlier one and the response
    rcases Nat.lt_trichotomy i i' with hc | rfl | hc
    · exact absurd hi' (hno i' hc hlt')
    · rfl
    · exact absurd hi (hno' i hc hlt)

section Bits

variable {C : Call τ α ν σ} {lin : List Bool}

theorem length_setBits (i : Nat) (b : Bool) : (C.setBits lin i b).length = lin.length := by
  unfold setBits
  split <;> simp

/-- The bits that `setBits` sets. -/
theorem getElem?_setBits {i k : Nat} {b : Bool} (hk : k < lin.length) :
    (C.setBits lin i b)[k]? = if k = i ∨ C.invRes i = some k then some b else lin[k]? := by
  unfold setBits
  cases hm : C.invRes i with
  | none =>
    simp only [List.getElem?_set, reduceCtorEq, or_false, eq_comm (a := i)]
    split <;> simp_all
  | some j =>
    simp only [List.getElem?_set, List.length_set, Option.some.injEq, eq_comm (a := i), eq_comm (a := j)]
    split <;> split <;> simp_all

/-- A bit that a move leaves unset was unset, and is not the bit of the move. -/
theorem of_setBits_true {i k : Nat} (h : (C.setBits lin i true)[k]? = some false) :
    lin[k]? = some false ∧ k ≠ i ∧ C.invRes i ≠ some k := by
  have hk : k < lin.length := by
    have := (List.getElem?_eq_some_iff.1 h).1
    rwa [length_setBits] at this
  rw [getElem?_setBits hk] at h
  split at h
  · cases h
  · rename_i hn
    exact ⟨h, fun hk => hn (Or.inl hk), fun hk => hn (Or.inr hk)⟩

theorem OK.setBits (hC : C.Matched) (h : C.OK lin) {i : Nat} {t : τ} (hi : InvokeAt C.history i t) (b : Bool) :
    C.OK (C.setBits lin i b) where
  length := by rw [length_setBits, h.length]
  closed := by
    intro k l hkl
    obtain ⟨t', hk, hl⟩ := hC.invoke hkl
    rw [getElem?_setBits (by rw [h.length]; exact hk.lt), getElem?_setBits (by rw [h.length]; exact hl.lt)]
    -- `k` is an invoke and `l` its response, so the two are touched together or not at all
    have hk' : (k = i ∨ C.invRes i = some k) ↔ k = i := by
      refine ⟨fun h => h.resolve_right fun hik => ?_, Or.inl⟩
      obtain ⟨_, _, hr⟩ := hC.invoke hik
      exact hk.not_response hr
    have hl' : (l = i ∨ C.invRes i = some l) ↔ k = i := by
      constructor
      · rintro (rfl | hil)
        · exact absurd hl hi.not_response
        · exact hC.inj hkl hil
      · rintro rfl; exact Or.inr hkl
    simp only [hk', hl', h.closed hkl]

/-- Undoing a move gives the bits back. -/
theorem OK.setBits_restore (h : C.OK lin) {i : Nat} (hi : lin[i]? = some false) :
    C.setBits (C.setBits lin i true) i false = lin := by
  refine List.ext_getElem? fun k => ?_
  by_cases hk : k < lin.length
  · rw [getElem?_setBits (by rwa [length_setBits]), getElem?_setBits hk]
    split
    · rename_i hset
      rcases hset with rfl | hj
      · exact hi.symm
      · rw [← h.closed hj]; exact hi.symm
    · rfl
  · rw [List.getElem?_eq_none (by simp only [length_setBits]; omega), List.getElem?_eq_none (by omega)]

/-- Setting a bit lowers the number of unset bits. -/
theorem count_set_true {i : Nat} (hi : lin[i]? = some false) : (lin.set i true).count false + 1 = lin.count false := by
  obtain ⟨hlt, hi⟩ := List.getElem?_eq_some_iff.1 hi
  have hpos : 0 < lin.count false := List.count_pos_iff.2 (List.mem_of_getElem hi)
  rw [List.count_set hlt, hi]
  simp
  omega

theorem count_set_true_le {i : Nat} : (lin.set i true).count false ≤ lin.count false := by
  by_cases hlt : i < lin.length
  · rw [List.count_set hlt]; simp
  · exact Nat.le_of_eq (by rw [List.set_eq_of_length_le (by omega)])

/-- A move lowers the number of unset bits. -/
theorem count_setBits {i : Nat} (hi : lin[i]? = some false) : (C.setBits lin i true).count false < lin.count false := by
  have h := count_set_true hi
  unfold setBits
  split
  · omega
  · rename_i j _
    have hj : ((lin.set i true).set j true).count false ≤ (lin.set i true).count false := count_set_true_le
    omega

/-- A bit that is not set is unset, inside the history. -/
theorem OK.eq_false (h : C.OK lin) {i : Nat} (hi : i < C.history.length) (hb : lin[i]? ≠ some true) :
    lin[i]? = some false := by
  have hlt : i < lin.length := by rw [h.length]; exact hi
  rw [List.getElem?_eq_getElem hlt] at hb ⊢
  cases hv : lin[i] with
  | true => rw [hv] at hb; exact absurd rfl hb
  | false => rfl

theorem OK.rank_lt (hok : C.OK lin) : lin.count false < C.history.length + 1 := by
  have := List.count_le_length (a := false) (l := lin)
  have := hok.length
  omega

/-- At the start no entry is linearized. -/
theorem OK.start (hC : C.Matched) : C.OK (List.replicate C.history.length false) where
  length := by simp
  closed := by
    intro i j h
    obtain ⟨t, hi, hj⟩ := hC.invoke h
    rw [List.getElem?_replicate_of_lt hi.lt, List.getElem?_replicate_of_lt hj.lt]

end Bits

/-! ## The moves -/

section Moves

variable [BEq ν] {C : Call τ α ν σ} {lin : List Bool} {s : σ}

/-- Linearizing invoke `i` in state `s` is admitted and gives `s'`. -/
def Step (C : Call τ α ν σ) (s : σ) (i : Nat) (s' : σ) : Prop :=
  ∃ t method, InvokeAt C.history i t ∧ C.methods (C.view t).name = some method ∧
    (C.invRes i ≠ none → ((method s (C.view t).args).1 == (C.view t).retVal) = true) ∧
    s' = (method s (C.view t).args).2

/-- No response before entry `i` is still to be linearized. -/
def Minimal (C : Call τ α ν σ) (lin : List Bool) (i : Nat) : Prop :=
  ∀ k t, k < i → lin[k]? = some false → ¬ResponseAt C.history k t

/-- Every task of the history has a method. -/
def Named (C : Call τ α ν σ) : Prop :=
  ∀ i t, InvokeAt C.history i t → (C.methods (C.view t).name).isSome

/-- What the scan does at an entry that is already linearized. -/
theorem scan_cons_true {i : Nat} (is : List Nat) (h : lin[i]? = some true) :
    C.scan lin s (i :: is) = C.scan lin s is := by
  simp [scan, h]

/-- What the scan does at a response that is not linearized. -/
theorem scan_cons_response {i : Nat} {t : τ} (is : List Nat) (h : lin[i]? ≠ some true)
    (hr : ResponseAt C.history i t) : C.scan lin s (i :: is) = [] := by
  obtain ⟨r, th, hr⟩ := hr
  simp [scan, h, hr]

/-- What the scan does at an invoke whose task has no method. -/
theorem scan_cons_unnamed {i : Nat} {t : τ} (is : List Nat) (h : lin[i]? ≠ some true) (hi : InvokeAt C.history i t)
    (hm : C.methods (C.view t).name = none) : C.scan lin s (i :: is) = [none] := by
  obtain ⟨th, hi⟩ := hi
  simp [scan, h, hi, hm]

/-- What the scan does at an invoke that is not linearized. -/
theorem scan_cons_invoke {i : Nat} {t : τ} {method : Method σ α ν} (is : List Nat) (h : lin[i]? ≠ some true)
    (hi : InvokeAt C.history i t) (hm : C.methods (C.view t).name = some method) :
    C.scan lin s (i :: is) =
      if (C.invRes i).isNone || (method s (C.view t).args).1 == (C.view t).retVal then
        some (C.setBits lin i true, (method s (C.view t).args).2) :: C.scan lin s is
      else C.scan lin s is := by
  obtain ⟨th, hi⟩ := hi
  simp [scan, h, hi, hm]

/-- The moves among the entries `is`: admitted invokes with no unlinearized response before them. -/
theorem mem_scan {c : List Bool × σ} : ∀ {is : List Nat}, (∀ i ∈ is, i < C.history.length) →
    some c ∈ C.scan lin s is → ∃ is₁ i is₂ s', is = is₁ ++ i :: is₂ ∧ lin[i]? ≠ some true ∧ C.Step s i s' ∧
      c = (C.setBits lin i true, s') ∧ ∀ k ∈ is₁, ∀ t, lin[k]? ≠ some true → ¬ResponseAt C.history k t
  | [], _, h => by cases h
  | i :: is, hlt, h => by
    have later : some c ∈ C.scan lin s is → (∀ t, lin[i]? ≠ some true → ¬ResponseAt C.history i t) →
        ∃ is₁ i' is₂ s', i :: is = is₁ ++ i' :: is₂ ∧ lin[i']? ≠ some true ∧ C.Step s i' s' ∧
          c = (C.setBits lin i' true, s') ∧ ∀ k ∈ is₁, ∀ t, lin[k]? ≠ some true → ¬ResponseAt C.history k t := by
      intro h hi
      obtain ⟨is₁, i', is₂, s', rfl, hb, hs, hc, hmin⟩ :=
        mem_scan (fun k hk => hlt k (List.mem_cons_of_mem _ hk)) h
      exact ⟨i :: is₁, i', is₂, s', rfl, hb, hs, hc, List.forall_mem_cons.2 ⟨hi, hmin⟩⟩
    by_cases hb : lin[i]? = some true
    · rw [scan_cons_true is hb] at h
      exact later h fun _ hn => absurd hb hn
    · rcases invoke_or_response (hlt i List.mem_cons_self) with ⟨t, hi⟩ | ⟨t, hr⟩
      · cases hm : C.methods (C.view t).name with
        | none => rw [scan_cons_unnamed is hb hi hm] at h; simp at h
        | some method =>
          rw [scan_cons_invoke is hb hi hm] at h
          split at h
          · rename_i hadm
            rcases List.mem_cons.mp h with h | h
            · cases h
              refine ⟨[], i, is, _, rfl, hb, ⟨t, method, hi, hm, fun hn => ?_, rfl⟩, rfl, by simp⟩
              simpa [Option.isNone_iff_eq_none, hn] using hadm
            · exact later h fun _ _ => hi.not_response
          · exact later h fun _ _ => hi.not_response
      · rw [scan_cons_response is hb hr] at h
        cases h

/-- Admitted invokes with no unlinearized response before them are moves. -/
theorem mem_scan_of (hC : C.Named) {i : Nat} {s' : σ} (hb : lin[i]? ≠ some true) (hs : C.Step s i s') (is₂ : List Nat) :
    ∀ {is₁ : List Nat}, (∀ k ∈ is₁, k < C.history.length) →
      (∀ k ∈ is₁, ∀ t, lin[k]? ≠ some true → ¬ResponseAt C.history k t) →
      some (C.setBits lin i true, s') ∈ C.scan lin s (is₁ ++ i :: is₂)
  | [], _, _ => by
    obtain ⟨t, method, hi, hm, hadm, rfl⟩ := hs
    rw [List.nil_append, scan_cons_invoke is₂ hb hi hm, if_pos]
    · exact List.mem_cons_self
    · cases hr : C.invRes i with
      | none => rfl
      | some j => simpa using hadm (by simp [hr])
  | k :: is₁, hlt, hmin => by
    have ih := mem_scan_of hC hb hs is₂ (fun k hk => hlt k (List.mem_cons_of_mem _ hk))
      (fun k hk => hmin k (List.mem_cons_of_mem _ hk))
    rw [List.cons_append]
    by_cases hk : lin[k]? = some true
    · rw [scan_cons_true _ hk]; exact ih
    · rcases invoke_or_response (hlt k List.mem_cons_self) with ⟨t, hi⟩ | ⟨t, hr⟩
      · obtain ⟨method, hm⟩ := Option.isSome_iff_exists.1 (hC k t hi)
        rw [scan_cons_invoke _ hk hi hm]
        split
        · exact List.mem_cons_of_mem _ ih
        · exact ih
      · exact absurd hr (hmin k List.mem_cons_self t hk)

/-- With a method for every task, no move is a failure. -/
theorem none_not_mem_scan (hC : C.Named) : ∀ {is : List Nat}, (∀ i ∈ is, i < C.history.length) →
    none ∉ C.scan lin s is
  | [], _, h => by cases h
  | i :: is, hlt, h => by
    have ih : none ∉ C.scan lin s is := none_not_mem_scan hC fun k hk => hlt k (List.mem_cons_of_mem _ hk)
    by_cases hb : lin[i]? = some true
    · rw [scan_cons_true is hb] at h; exact ih h
    · rcases invoke_or_response (hlt i List.mem_cons_self) with ⟨t, hi⟩ | ⟨t, hr⟩
      · obtain ⟨method, hm⟩ := Option.isSome_iff_exists.1 (hC i t hi)
        rw [scan_cons_invoke is hb hi hm] at h
        split at h
        · exact ih (by simpa using h)
        · exact ih h
      · rw [scan_cons_response is hb hr] at h
        cases h

/-- The moves of a node. -/
theorem mem_moves (hC : C.Named) (hok : C.OK lin) {c : List Bool × σ} : some c ∈ C.moves (lin, s) ↔
    ∃ i s', lin[i]? = some false ∧ C.Step s i s' ∧ C.Minimal lin i ∧ c = (C.setBits lin i true, s') := by
  constructor
  · intro h
    obtain ⟨is₁, i, is₂, s', his, hb, hs, hc, hmin⟩ := mem_scan (fun i hi => by simp at hi; omega) h
    obtain ⟨t, method, hi, _⟩ := id hs
    obtain ⟨n, _, rfl, hrest⟩ := List.range'_eq_append_iff.1 his
    obtain ⟨hn, _, _⟩ := List.range'_eq_cons_iff.1 hrest.symm
    have hpre : ∀ k, k < i → k ∈ List.range' 0 n := by intro k hk; simp; omega
    exact ⟨i, s', hok.eq_false hi.lt hb, hs, fun k t hk hkb => hmin k (hpre k hk) t (by simp [hkb]), hc⟩
  · rintro ⟨i, s', hb, hs, hmin, rfl⟩
    obtain ⟨t, method, hi, _⟩ := id hs
    have hlt := hi.lt
    have hsplit : List.range' 0 C.history.length =
        List.range' 0 i ++ i :: List.range' (i + 1) (C.history.length - i - 1) :=
      List.range'_eq_append_iff.2 ⟨i, by omega, rfl, List.range'_eq_cons_iff.2 ⟨by omega, by omega, rfl⟩ |>.symm⟩
    unfold moves
    rw [hsplit]
    refine mem_scan_of hC (by simp [hb]) hs _ (fun k hk => ?_) (fun k hk t hkb => ?_)
    · simp at hk; omega
    · have hk : k < i := by simpa using hk
      exact hmin k t hk (hok.eq_false (by omega) hkb)

/-- **The space is ranked** by the number of bits still unset. -/
theorem ranked (hC : C.Matched) : Dfs.Ranked C.moves (fun c => C.OK c.1) (fun c => c.1.count false) := by
  rintro ⟨lin, s⟩ hok c h
  obtain ⟨is₁, i, is₂, s', _, hb, ⟨t, _, hi, _⟩, rfl, _⟩ := mem_scan (fun i hi => by simp at hi; omega) h
  exact ⟨hok.setBits hC hi true, count_setBits (hok.eq_false hi.lt hb)⟩

/-- The verdict on a node, from the verdicts on its moves. -/
theorem verdict_unfold (hC : C.Matched) (hok : C.OK lin) : C.verdict (lin, s) =
    if lin.all id then some true else Dfs.tryAll C.verdict (C.moves (lin, s)) :=
  Dfs.dfs_unfold (ranked hC) hok hok.rank_lt

/-- With a method for every task, the verdict is whether all entries can be linearized. -/
theorem verdict_iff_solvable (hC : C.Matched) (hN : C.Named) (hok : C.OK lin) :
    C.verdict (lin, s) = some true ↔ Dfs.Solvable done C.moves (lin, s) :=
  Dfs.dfs_iff_solvable (ranked hC) (fun _ _ => none_not_mem_scan hN fun i hi => by simp at hi; omega) hok hok.rank_lt

theorem verdict_ne_none (hC : C.Matched) (hN : C.Named) (hok : C.OK lin) : C.verdict (lin, s) ≠ none :=
  Dfs.dfs_ne_none (ranked hC) (fun _ _ => none_not_mem_scan hN fun i hi => by simp at hi; omega) hok hok.rank_lt

end Moves

end Call

end Ltest
