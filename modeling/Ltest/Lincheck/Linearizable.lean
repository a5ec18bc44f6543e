import Ltest.Lincheck.Recursive
import Mathlib.Data.Set.Basic

/-!
# The recursive checker decides linearizability

`Linearizable` is the definition of Herlihy and Wing: the completed operations and some of the pending ones can be put
in an order that keeps the real-time order and that the sequential specification explains. The checker answers `true`
only when *every* entry is linearized, pending invokes included; `ext_of_solvable` and `solvable_of_ext` bridge the two.

* `Call.Ext lin s`: the operations that are not linearized can be finished from `s`, in the sense of the definition.
* `Call.Owned lin`: every response that is not linearized is the response of an invoke. A history that answers a task
  twice has a response that no move linearizes, and the checker rejects it (`owned_iff_answeredOnce`).
* `Recursive.check_decides`: on histories that invoke each task once the checker accepts exactly the linearizable ones
  among those that answer each task once.
-/

namespace Ltest

section Definition

variable {τ α ν σ : Type}

/-- The operation invoked at entry `x` has a response. -/
def Completed (H : List (HistoryEvent τ ν)) (x : Nat) : Prop := ∃ t j, InvokeAt H x t ∧ ResponseAt H j t

/-- The operation invoked at entry `x` has no response. -/
def Pending (H : List (HistoryEvent τ ν)) (x : Nat) : Prop := (∃ t, InvokeAt H x t) ∧ ¬Completed H x

/-- The response of `x` comes before the invoke of `y`. -/
def Precedes (H : List (HistoryEvent τ ν)) (x y : Nat) : Prop := ∃ t j, InvokeAt H x t ∧ ResponseAt H j t ∧ j < y

/-- Running the methods of the operations in this order from `s` gives every completed operation the result of its
task (the specification's result on the left of `==`). -/
def Legal [BEq ν] (spec : Specification σ α ν) (view : τ → TaskView α ν) (H : List (HistoryEvent τ ν)) :
    σ → List Nat → Prop
  | _, [] => True
  | s, x :: xs => ∃ t method, InvokeAt H x t ∧ spec.methods (view t).name = some method ∧
      (Completed H x → ((method s (view t).args).1 == (view t).retVal) = true) ∧
      Legal spec view H (method s (view t).args).2 xs

/-- **Linearizability**: the completed operations and a set `P` of pending ones have an order that is legal and in
which no operation stands before one that precedes it. -/
def Linearizable [BEq ν] (spec : Specification σ α ν) (view : τ → TaskView α ν) (H : List (HistoryEvent τ ν)) : Prop :=
  ∃ (P : Set Nat) (order : List Nat), (∀ x ∈ P, Pending H x) ∧ order.Nodup ∧
    (∀ x, x ∈ order ↔ Completed H x ∨ x ∈ P) ∧ order.Pairwise (fun x y => ¬Precedes H y x) ∧
    Legal spec view H spec.firstState order

end Definition

namespace Call

variable {τ α ν σ : Type} {C : Call τ α ν σ} {lin : List Bool}

/-! ## Finishing a node -/

/-- Every response that is not linearized is the response of an invoke. -/
def Owned (C : Call τ α ν σ) (lin : List Bool) : Prop :=
  ∀ k t, ResponseAt C.history k t → lin[k]? = some false → ∃ x, C.invRes x = some k

theorem Owned.setBits (h : C.Owned lin) (i : Nat) : C.Owned (C.setBits lin i true) :=
  fun k t hr hk => h k t hr (of_setBits_true hk).1

variable [BEq ν] {s : σ}

/-- A chain of admitted operations from `s`. -/
def Chain (C : Call τ α ν σ) : σ → List Nat → Prop
  | _, [] => True
  | s, x :: xs => ∃ s', C.Step s x s' ∧ Chain C s' xs

/-- The operations that are not linearized can be finished from `s`. -/
def Ext (C : Call τ α ν σ) (lin : List Bool) (s : σ) : Prop :=
  ∃ order : List Nat, order.Nodup ∧ (∀ x ∈ order, lin[x]? = some false ∧ ∃ t, InvokeAt C.history x t) ∧
    (∀ x, lin[x]? = some false → C.invRes x ≠ none → x ∈ order) ∧
    order.Pairwise (fun x y => ∀ j, C.invRes y = some j → ¬j < x) ∧ C.Chain s order

/-- A node whose move can be finished can be finished, beginning with the move. -/
theorem ext_of_move (hC : C.Matched) (hok : C.OK lin) {i : Nat} {s' : σ} (hi : lin[i]? = some false) (hs : C.Step s i s')
    (hmin : C.Minimal lin i) (hown : C.Owned (C.setBits lin i true)) (hext : C.Ext (C.setBits lin i true) s') :
    C.Owned lin ∧ C.Ext lin s := by
  obtain ⟨t, method, hinv, _⟩ := id hs
  obtain ⟨order, hnd, hfalse, hcov, hpw, hch⟩ := hext
  have hown' : C.Owned lin := by
    intro k t' hr hk
    by_cases hik : C.invRes i = some k
    · exact ⟨i, hik⟩
    · refine hown k t' hr ?_
      rw [getElem?_setBits (List.getElem?_eq_some_iff.1 hk).1, if_neg]
      · exact hk
      · rintro (rfl | h)
        · exact hinv.not_response hr
        · exact hik h
  refine ⟨hown', i :: order, ?_, ?_, ?_, ?_, s', hs, hch⟩
  · exact List.nodup_cons.2 ⟨fun h => (of_setBits_true (hfalse i h).1).2.1 rfl, hnd⟩
  · exact List.forall_mem_cons.2 ⟨⟨hi, t, hinv⟩, fun x hx => ⟨(of_setBits_true (hfalse x hx).1).1, (hfalse x hx).2⟩⟩
  · intro x hx hne
    by_cases hxi : x = i
    · exact hxi ▸ List.mem_cons_self
    · refine List.mem_cons_of_mem _ (hcov x ?_ hne)
      rw [getElem?_setBits (List.getElem?_eq_some_iff.1 hx).1, if_neg]
      · exact hx
      · rintro (h | h)
        · exact hxi h
        · -- `x` has a response, so it is no response itself
          obtain ⟨j, hj⟩ := Option.ne_none_iff_exists'.1 hne
          obtain ⟨_, hxinv, _⟩ := hC.invoke hj
          obtain ⟨_, _, hxr⟩ := hC.invoke h
          exact hxinv.not_response hxr
  · refine List.pairwise_cons.2 ⟨fun y hy j hj hlt => ?_, hpw⟩
    obtain ⟨_, _, hr⟩ := hC.invoke hj
    have hyj : lin[j]? = some false := (hok.closed hj).symm.trans (of_setBits_true (hfalse y hy).1).1
    exact hmin j _ hlt hyj hr

/-- When everything is linearized there is nothing to finish. -/
theorem ext_of_all (hall : lin.all id = true) : C.Owned lin ∧ C.Ext lin s := by
  have hset : ∀ k : Nat, lin[k]? ≠ some false := by
    intro k hk
    have := List.all_eq_true.1 hall false (List.mem_of_getElem? hk)
    cases this
  refine ⟨fun k _ _ hk => absurd hk (hset k), [], List.nodup_nil, by simp, ?_, by simp, trivial⟩
  exact fun x hx => absurd hx (hset x)

theorem ext_of_solvable (hC : C.Matched) (hN : C.Named) {c : List Bool × σ} (h : Dfs.Solvable done C.moves c) :
    C.OK c.1 → C.Owned c.1 ∧ C.Ext c.1 c.2 := by
  induction h with
  | done hd => exact fun _ => ext_of_all hd
  | @move c c' hm _ ih =>
    intro hok
    obtain ⟨lin, s⟩ := c
    obtain ⟨i, s', hi, hs, hmin, rfl⟩ := (mem_moves hN hok).1 hm
    obtain ⟨t, method, hinv, _⟩ := id hs
    obtain ⟨hown, hext⟩ := ih (hok.setBits hC hinv true)
    exact ext_of_move hC hok hi hs hmin hown hext

theorem solvable_of_ext (hC : C.Matched) (hN : C.Named) : ∀ (n : Nat) {lin : List Bool} {s : σ}, lin.count false ≤ n →
    C.OK lin → C.Owned lin → C.Ext lin s → Dfs.Solvable done C.moves (lin, s) := by
  intro n
  induction n with
  | zero =>
    intro lin s hn hok _ _
    refine .done (List.all_eq_true.2 fun b hb => ?_)
    cases b with
    | true => rfl
    | false => exact absurd (List.count_pos_iff.2 hb) (Nat.not_lt.2 hn)
  | succ n ih =>
    intro lin s hn hok hown ⟨order, hnd, hfalse, hcov, hpw, hch⟩
    -- the move that linearizes `i`
    have go : ∀ (i : Nat) (s' : σ), lin[i]? = some false → C.Step s i s' → C.Minimal lin i →
        C.Ext (C.setBits lin i true) s' → Dfs.Solvable done C.moves (lin, s) := by
      intro i s' hi hs hmin hext
      obtain ⟨t, _, hinv, _⟩ := id hs
      have hlt := count_setBits (C := C) hi
      exact .move ((mem_moves hN hok).2 ⟨i, s', hi, hs, hmin, rfl⟩)
        (ih (by omega) (hok.setBits hC hinv true) (hown.setBits i) hext)
    cases order with
    | nil =>
      by_cases hall : lin.all id = true
      · exact .done hall
      · -- only pending invokes are left: linearize any of them
        obtain ⟨i, hi⟩ : ∃ i, lin[i]? = some false := by
          have hmem : false ∈ lin := by simpa using hall
          exact List.getElem?_of_mem hmem
        have hpend : ∀ x, lin[x]? = some false → C.invRes x = none := by
          intro x hx
          by_contra hne
          exact absurd (hcov x hx hne) (by simp)
        have hnoresp : ∀ k t, lin[k]? = some false → ¬ResponseAt C.history k t := by
          intro k t hk hr
          obtain ⟨x, hx⟩ := hown k t hr hk
          have := hpend x ((hok.closed hx).trans hk)
          rw [hx] at this
          cases this
        have hlt : i < C.history.length := by rw [← hok.length]; exact (List.getElem?_eq_some_iff.1 hi).1
        obtain ⟨t, hinv⟩ : ∃ t, InvokeAt C.history i t :=
          (invoke_or_response hlt).resolve_right fun ⟨t, hr⟩ => hnoresp i t hi hr
        obtain ⟨method, hm⟩ := Option.isSome_iff_exists.1 (hN i t hinv)
        refine go i _ hi ⟨t, method, hinv, hm, fun hne => absurd (hpend i hi) hne, rfl⟩
          (fun k t _ hk => hnoresp k t hk) ⟨[], List.nodup_nil, by simp, ?_, by simp, trivial⟩
        intro x hx hne
        exact absurd (hpend x (of_setBits_true hx).1) hne
    | cons x rest =>
      obtain ⟨s', hs, hch⟩ := hch
      obtain ⟨hx, hfalse⟩ := List.forall_mem_cons.1 hfalse
      obtain ⟨hxrest, hnd⟩ := List.nodup_cons.1 hnd
      obtain ⟨hpx, hpw⟩ := List.pairwise_cons.1 hpw
      obtain ⟨t, _, hinv, _⟩ := id hs
      refine go x s' hx.1 hs ?_ ⟨rest, hnd, ?_, ?_, hpw, hch⟩
      · -- an unlinearized response before `x` belongs to an operation that the order puts after `x`
        intro k t' hk hkf hr
        obtain ⟨y, hy⟩ := hown k t' hr hkf
        rcases List.mem_cons.1 (hcov y ((hok.closed hy).trans hkf) (by simp [hy])) with rfl | hy'
        · exact absurd (hC.lt hy) (by omega)
        · exact hpx y hy' k hy hk
      · intro y hy
        obtain ⟨hyf, t', hyinv⟩ := hfalse y hy
        refine ⟨?_, t', hyinv⟩
        rw [getElem?_setBits (List.getElem?_eq_some_iff.1 hyf).1, if_neg]
        · exact hyf
        · rintro (rfl | h)
          · exact hxrest hy
          · obtain ⟨_, _, hyr⟩ := hC.invoke h
            exact hyinv.not_response hyr
      · intro y hy hne
        obtain ⟨hyf, hyx, _⟩ := of_setBits_true hy
        exact (List.mem_cons.1 (hcov y hyf hne)).resolve_left hyx

end Call

/-! ## The start node -/

section Start

variable {τ α ν σ : Type} [DecidableEq τ] {H : List (HistoryEvent τ ν)} {m : Nat → Option Nat}

/-- When each task is invoked once, an operation has an answer in the mapping iff it is completed. -/
theorem invRes_ne_none_iff (hm : getInvResMapping H = some m) (honce : InvokedOnce H) (hresp : ResponsesInvoked H)
    {x : Nat} : m x ≠ none ↔ Completed H x := by
  constructor
  · intro hne
    obtain ⟨j, hj⟩ := Option.ne_none_iff_exists'.1 hne
    obtain ⟨t, hx, hr, _⟩ := (invRes_iff hm).1 hj
    exact ⟨t, j, hx, hr⟩
  · rintro ⟨t, j, hx, hr⟩
    obtain ⟨j', hr', hlast⟩ := exists_last (fun k hk => ResponseAt.lt hk) hr
    obtain ⟨x', hlt, hx'⟩ := hresp j' t hr'
    cases honce x' x t hx' hx
    have : m x = some j' := (invRes_iff hm).2 ⟨t, hx, hr', hlt,
      fun k hk _ h => by have := honce k x t h hx; omega, fun k hk h => absurd h (hlast k hk)⟩
    simp [this]

/-- When each task is also answered once, the mapping is the relation between invokes and responses of a task. -/
theorem invRes_iff_task (hm : getInvResMapping H = some m) (honce : InvokedOnce H) (hresp : ResponsesInvoked H)
    (hans : AnsweredOnce H) {x j : Nat} : m x = some j ↔ ∃ t, InvokeAt H x t ∧ ResponseAt H j t := by
  rw [invRes_iff hm]
  constructor
  · rintro ⟨t, hx, hr, _⟩
    exact ⟨t, hx, hr⟩
  · rintro ⟨t, hx, hr⟩
    obtain ⟨x', hlt, hx'⟩ := hresp j t hr
    cases honce x' x t hx' hx
    exact ⟨t, hx, hr, hlt, fun k hk _ h => by have := honce k x t h hx; omega,
      fun k hk h => by have := hans k j t h hr; omega⟩

variable {spec : Specification σ α ν} {view : τ → TaskView α ν}

/-- At the start every response belongs to an invoke iff each task is answered once. -/
theorem owned_iff_answeredOnce (hm : getInvResMapping H = some m) (honce : InvokedOnce H)
    (hresp : ResponsesInvoked H) :
    Call.Owned (⟨spec.methods, view, H, m⟩ : Call τ α ν σ) (List.replicate H.length false) ↔ AnsweredOnce H := by
  have hstart : ∀ {k t}, ResponseAt H k t → (List.replicate H.length false)[k]? = some false :=
    fun h => List.getElem?_replicate_of_lt h.lt
  constructor
  · intro hown j j' t hj hj'
    obtain ⟨x, hx⟩ := hown j t hj (hstart hj)
    obtain ⟨x', hx'⟩ := hown j' t hj' (hstart hj')
    -- both responses belong to the one invoke of the task
    obtain ⟨t₁, hi, hr, _⟩ := (invRes_iff hm).1 hx
    obtain ⟨t₂, hi', hr', _⟩ := (invRes_iff hm).1 hx'
    cases hr.task_eq hj
    cases hr'.task_eq hj'
    cases honce x x' _ hi hi'
    exact Option.some.inj (hx.symm.trans hx')
  · intro hans k t hr _
    obtain ⟨x, _, hx⟩ := hresp k t hr
    exact ⟨x, (invRes_iff_task hm honce hresp hans).2 ⟨t, hx, hr⟩⟩

variable [BEq ν]

theorem chain_iff_legal (hm : getInvResMapping H = some m) (honce : InvokedOnce H) (hresp : ResponsesInvoked H) :
    ∀ (order : List Nat) (s : σ),
      Call.Chain (⟨spec.methods, view, H, m⟩ : Call τ α ν σ) s order ↔ Legal spec view H s order
  | [], _ => Iff.rfl
  | x :: xs, s => by
    have ih := chain_iff_legal hm honce hresp xs
    simp only [Call.Chain, Call.Step, Legal, invRes_ne_none_iff hm honce hresp]
    constructor
    · rintro ⟨s', ⟨t, method, hx, hmeth, hres, rfl⟩, hch⟩
      exact ⟨t, method, hx, hmeth, hres, (ih _).1 hch⟩
    · rintro ⟨t, method, hx, hmeth, hres, hleg⟩
      exact ⟨_, ⟨t, method, hx, hmeth, hres, rfl⟩, (ih _).2 hleg⟩

/-- At the start, finishing the node is linearizing the history. -/
theorem ext_iff_linearizable (hm : getInvResMapping H = some m) (honce : InvokedOnce H) (hresp : ResponsesInvoked H)
    (hans : AnsweredOnce H) : Call.Ext (⟨spec.methods, view, H, m⟩ : Call τ α ν σ) (List.replicate H.length false)
      spec.firstState ↔ Linearizable spec view H := by
  have hpre : ∀ {x y}, (∀ j, m y = some j → ¬j < x) ↔ ¬Precedes H y x := by
    intro x y
    simp only [invRes_iff_task hm honce hresp hans, Precedes]
    constructor
    · rintro h ⟨t, j, hy, hj, hlt⟩
      exact h j ⟨t, hy, hj⟩ hlt
    · rintro h j ⟨t, hy, hj⟩ hlt
      exact h ⟨t, j, hy, hj, hlt⟩
  have hstart : ∀ {x t}, InvokeAt H x t → (List.replicate H.length false)[x]? = some false :=
    fun h => List.getElem?_replicate_of_lt h.lt
  simp only [Call.Ext, Linearizable, invRes_ne_none_iff hm honce hresp, hpre, chain_iff_legal hm honce hresp]
  constructor
  · rintro ⟨order, hnd, hin, hcov, hpw, hleg⟩
    refine ⟨{x | x ∈ order ∧ ¬Completed H x}, order, fun x hx => ⟨(hin x hx.1).2, hx.2⟩, hnd, fun x => ?_, hpw, hleg⟩
    constructor
    · intro hx
      by_cases hc : Completed H x
      · exact Or.inl hc
      · exact Or.inr ⟨hx, hc⟩
    · rintro (hc | hx)
      · obtain ⟨t, j, hx, _⟩ := id hc
        exact hcov x (hstart hx) hc
      · exact hx.1
  · rintro ⟨P, order, hP, hnd, hmem, hpw, hleg⟩
    refine ⟨order, hnd, fun x hx => ?_, fun x _ hc => (hmem x).2 (Or.inl hc), hpw, hleg⟩
    obtain ⟨t, hx⟩ : ∃ t, InvokeAt H x t := by
      rcases (hmem x).1 hx with ⟨t, _, h, _⟩ | h
      · exact ⟨t, h⟩
      · exact (hP x h).1
    exact ⟨hstart hx, t, hx⟩

end Start

namespace Recursive

variable {τ α ν σ : Type} [DecidableEq τ] [BEq ν]

/-- **The recursive checker decides linearizability.** -/
theorem check_decides_linearizable (spec : Specification σ α ν) (view : τ → TaskView α ν)
    (H : List (HistoryEvent τ ν)) (honce : InvokedOnce H) (hresp : ResponsesInvoked H)
    (hnamed : ∀ i t, InvokeAt H i t → (spec.methods (view t).name).isSome) :
    ∃ b, check spec view H = some b ∧ (b = true ↔ AnsweredOnce H ∧ Linearizable spec view H) := by
  obtain ⟨m, hm⟩ := getInvResMapping_isSome hresp
  let C : Call τ α ν σ := ⟨spec.methods, view, H, m⟩
  have hC : C.Matched := Call.matched_of_mapping hm
  have hok : C.OK (List.replicate H.length false) := Call.OK.start hC
  obtain ⟨b, hb⟩ := Option.ne_none_iff_exists'.1 (Call.verdict_ne_none (s := spec.firstState) hC hnamed hok)
  refine ⟨b, by rw [check_eq_verdict hm]; exact hb, ?_⟩
  have hsolv : b = true ↔ Dfs.Solvable Call.done C.moves (List.replicate H.length false, spec.firstState) := by
    rw [← Call.verdict_iff_solvable hC hnamed hok, hb]
    simp
  have hown : C.Owned (List.replicate H.length false) ↔ AnsweredOnce H := owned_iff_answeredOnce hm honce hresp
  rw [hsolv, ← hown]
  constructor
  · intro h
    obtain ⟨ho, hext⟩ := Call.ext_of_solvable hC hnamed h hok
    exact ⟨ho, (ext_iff_linearizable hm honce hresp (hown.1 ho)).1 hext⟩
  · rintro ⟨ho, hlin⟩
    exact Call.solvable_of_ext hC hnamed _ (Nat.le_refl _) hok ho
      ((ext_iff_linearizable hm honce hresp (hown.1 ho)).2 hlin)

/-- What the checker accepts. -/
theorem check_eq_true_iff {spec : Specification σ α ν} {view : τ → TaskView α ν} {H : List (HistoryEvent τ ν)}
    (honce : InvokedOnce H) (hresp : ResponsesInvoked H)
    (hnamed : ∀ i t, InvokeAt H i t → (spec.methods (view t).name).isSome) :
    check spec view H = some true ↔ AnsweredOnce H ∧ Linearizable spec view H := by
  obtain ⟨m, hm⟩ := getInvResMapping_isSome hresp
  have hC : Call.Matched (⟨spec.methods, view, H, m⟩ : Call τ α ν σ) := Call.matched_of_mapping hm
  have hown : Call.Owned (⟨spec.methods, view, H, m⟩ : Call τ α ν σ) (List.replicate H.length false) ↔ AnsweredOnce H :=
    owned_iff_answeredOnce hm honce hresp
  rw [check_eq_verdict hm, Call.verdict_iff_solvable hC hnamed (Call.OK.start hC)]
  refine ⟨fun h => ?_, fun h => ?_⟩
  · obtain ⟨ho, hext⟩ := Call.ext_of_solvable hC hnamed h (Call.OK.start hC)
    exact ⟨hown.1 ho, (ext_iff_linearizable hm honce hresp (hown.1 ho)).1 hext⟩
  · refine Call.solvable_of_ext hC hnamed _ (Nat.le_refl _) (Call.OK.start hC) (hown.2 h.1) ?_
    exact (ext_iff_linearizable hm honce hresp h.1).2 h.2

/-! ## The counter of `lin_check_test.cpp` -/

/-- The methods `faa` and `get` of the counter. -/
def counterSpec : Specification Int Unit Int where
  methods name :=
    if name = "faa" then some fun count _ => (count, count + 1)
    else if name = "get" then some fun count _ => (count, count)
    else none
  firstState := 0

/-- Task `0` is a `get` that returned `1`; the others are `faa`s that have not returned. -/
def counterTasks (t : Nat) : TaskView Unit Int := if t = 0 then ⟨"get", (), 1⟩ else ⟨"faa", (), 0⟩

/-- A `get` that runs beside a pending `faa` and sees its effect. -/
def getBesideFaa : List (HistoryEvent Nat Int) := [.invoke 0 0, .invoke 1 1, .response 0 1 0]

theorem check_decides_getBesideFaa :
    ∃ b, check counterSpec counterTasks getBesideFaa = some b ∧
      (b = true ↔ AnsweredOnce getBesideFaa ∧ Linearizable counterSpec counterTasks getBesideFaa) :=
  check_decides_linearizable _ _ _ (by decide) (by decide) (forall_invokeAt_iff.2 (by decide))

example : check counterSpec counterTasks getBesideFaa = some true := by decide

/-- A `get` of the initial counter whose task is answered twice. -/
def answeredTwice : List (HistoryEvent Nat Int) := [.invoke 0 0, .response 0 0 0, .response 0 0 0]

/-- The one operation of `answeredTwice` linearizes, but the checker rejects: no move linearizes the first response. -/
theorem check_rejects_answeredTwice :
    let view : Nat → TaskView Unit Int := fun _ => ⟨"get", (), 0⟩
    InvokedOnce answeredTwice ∧ ResponsesInvoked answeredTwice ∧
      (∀ i t, InvokeAt answeredTwice i t → (counterSpec.methods (view t).name).isSome) ∧
      Linearizable counterSpec view answeredTwice ∧ check counterSpec view answeredTwice = some false := by
  refine ⟨by decide, by decide, forall_invokeAt_iff.2 (by decide), ?_, by decide⟩
  have hone : ∀ x, Completed answeredTwice x ↔ x = 0 := by
    intro x
    constructor
    · rintro ⟨t, _, hx, _⟩
      exact (forall_invokeAt_iff (p := fun x _ => x = 0)).2 (by decide) x t hx
    · rintro rfl
      exact ⟨0, 1, ⟨0, rfl⟩, ⟨0, 0, rfl⟩⟩
  refine ⟨∅, [0], by simp, by simp, by simp [hone], by simp, 0, _, ⟨0, rfl⟩, rfl, fun _ => by decide, trivial⟩

end Recursive

end Ltest
