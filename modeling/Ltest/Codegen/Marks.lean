import Ltest.Codegen.CoYield
import Ltest.Program.Triple
import Mathlib.Data.List.Nodup
import Mathlib.Data.List.TakeWhile

/-!
# Every call is marked once (`coyieldpass.cpp`)

What there is in a block of the instruction at `origin` is its `eventsOf`: the instruction itself when the block is its
own, and the marks that are inserted for it. A visit changes the events of its own instruction and of no other
(`eventsOf_instrument`), so the visits of a function leave every matched call with its marks around it and every matched
invoke with one before it and one in each of its destinations (`Marked`). `run_ok_iff` says for which modules `Run`
returns that.
-/

namespace Ltest.Codegen.CoYield

variable {ι : Type}

/-! ## Events -/

/-- What is executed in a block: a mark, or an instruction of the program. -/
inductive Event where
  | mark (m : Mark)
  | run (origin : Nat × Nat)
  deriving Repr, DecidableEq

/-- The instruction that an event belongs to. -/
def Event.origin : Event → Option (Nat × Nat)
  | .mark m => m.origin
  | .run origin => some origin

@[simp] theorem Event.origin_mark (m : Mark) : (Event.mark m).origin = m.origin := rfl

@[simp] theorem Event.origin_run (o : Nat × Nat) : (Event.run o).origin = some o := rfl

/-- The events of a part of block `k` that begins at position `n`. -/
def events (k : Nat) : Nat → List (Item ι Mark) → List Event
  | _, [] => []
  | n, .original _ :: block => .run (k, n) :: events k (n + 1) block
  | n, .inserted m :: block => .mark m :: events k n block

/-- The events of the instruction at `o` in block `k`. -/
def eventsOf (o : Nat × Nat) (k : Nat) (block : List (Item ι Mark)) : List Event :=
  (events k 0 block).filter (·.origin == some o)

section Events

variable {k n d : Nat} {o : Nat × Nat} {m : Mark} {i : Instruction ι} {b before rest : List (Item ι Mark)}

theorem events_append : ∀ (n : Nat) (b b' : List (Item ι Mark)),
    events k n (b ++ b') = events k n b ++ events k (n + (erase b).length) b'
  | _, [], _ => rfl
  | n, .original i :: b, b' => by
    simp only [List.cons_append, events, erase_original, List.length_cons, events_append (n + 1) b b']
    rw [Nat.add_right_comm, Nat.add_assoc]
  | n, .inserted m :: b, b' => by simp only [List.cons_append, events, erase_inserted, events_append n b b']

theorem events_marks (k n : Nat) (ms : List Mark) :
    events k n (ms.map .inserted : List (Item ι Mark)) = ms.map .mark := by
  induction ms with
  | nil => rfl
  | cons m ms ih => simp [events, ih]

/-- Among pads there is nothing of an instruction that is no pad. -/
theorem eventsOf_pads : ∀ (n : Nat) {b : List (Item ι Mark)}, (∀ it ∈ b, isPad it = true) →
    (∀ j i, (erase b)[j]? = some i → isPad (.original i : Item ι Mark) = true → (k, n + j) ≠ o) →
    (events k n b).filter (·.origin == some o) = []
  | _, [], _, _ => rfl
  | n, .original i :: b, hb, ho => by
    have hne : (k, n) ≠ o := ho 0 i rfl (hb _ List.mem_cons_self)
    have ih := eventsOf_pads (n + 1) (fun it hit => hb it (List.mem_cons_of_mem _ hit)) fun j i hj hp => by
      have := ho (j + 1) i hj hp
      rwa [Nat.add_right_comm, Nat.add_assoc]
    simp only [events, List.filter_cons, Event.origin_run, Option.some_beq_some, beq_iff_eq, hne, if_false, ih]
  | n, .inserted m :: b, hb, _ => by cases hb _ List.mem_cons_self

/-- No pad is at `o`, if it is in this block. -/
def NoPad (o : Nat × Nat) (k : Nat) (b : List (Item ι Mark)) : Prop :=
  o.1 = k → ∀ i, (erase b)[o.2]? = some i → isPad (.original i : Item ι Mark) = false

theorem eventsOf_insertFirst_of_ne (hm : m.origin ≠ some o) : eventsOf o k (insertFirst m b) = eventsOf o k b := by
  have hb : eventsOf o k b = eventsOf o k (b.takeWhile isPad ++ b.dropWhile isPad) := by
    rw [List.takeWhile_append_dropWhile]
  rw [hb, eventsOf, eventsOf, insertFirst, events_append, events_append]
  simp [events, hm]

/-- At the first insertion point a mark comes before everything else of its instruction. -/
theorem eventsOf_insertFirst (hm : m.origin = some o) (hpad : NoPad o k b) :
    eventsOf o k (insertFirst m b) = .mark m :: eventsOf o k b := by
  have hpads : (events k 0 (b.takeWhile isPad)).filter (·.origin == some o) = [] := by
    refine eventsOf_pads 0 (fun it hit => List.mem_takeWhile_imp hit) fun j i hj hp ho => ?_
    obtain rfl := ho
    have hi : (erase b)[0 + j]? = some i := by
      conv_lhs => rw [← List.takeWhile_append_dropWhile (p := isPad) (l := b), erase_append]
      rw [Nat.zero_add, List.getElem?_append_left (List.getElem?_eq_some_iff.1 hj).1, hj]
    rw [hpad rfl i hi] at hp
    cases hp
  have hb : eventsOf o k b = eventsOf o k (b.takeWhile isPad ++ b.dropWhile isPad) := by
    rw [List.takeWhile_append_dropWhile]
  rw [hb, eventsOf, eventsOf, insertFirst, events_append, events_append, List.filter_append, List.filter_append, hpads]
  simp [events, hm]

/-- What is put around an instruction, if there is one. -/
theorem wrapAt_cases (pre post : List (Item ι Mark)) : ∀ (n : Nat) (b : List (Item ι Mark)),
    (erase b)[n]? = none ∧ wrapAt pre post n b = b ∨
      ∃ before i rest, b = before ++ .original i :: rest ∧ (erase before).length = n ∧
        wrapAt pre post n b = before ++ (pre ++ .original i :: (post ++ rest))
  | n, [] => .inl ⟨rfl, by rw [wrapAt]⟩
  | n, .inserted m :: b => by
    obtain ⟨hnone, hw⟩ | ⟨before, i, rest, rfl, hn, hw⟩ := wrapAt_cases pre post n b
    · exact .inl ⟨hnone, by rw [wrapAt, hw]⟩
    · exact .inr ⟨.inserted m :: before, i, rest, rfl, hn, by rw [wrapAt, hw]; rfl⟩
  | 0, .original i :: b => .inr ⟨[], i, b, rfl, rfl, by rw [wrapAt]; rfl⟩
  | n + 1, .original j :: b => by
    obtain ⟨hnone, hw⟩ | ⟨before, i, rest, rfl, hn, hw⟩ := wrapAt_cases pre post n b
    · exact .inl ⟨hnone, by rw [wrapAt, hw]⟩
    · exact .inr ⟨.original j :: before, i, rest, rfl, by simp [hn], by rw [wrapAt, hw]; rfl⟩

@[simp] theorem erase_wrapAt (ms ms' : List Mark) (n : Nat) (b : List (Item ι Mark)) :
    erase (wrapAt (ms.map .inserted) (ms'.map .inserted) n b) = erase b := by
  obtain ⟨-, hw⟩ | ⟨before, i, rest, rfl, -, hw⟩ := wrapAt_cases (ms.map .inserted) (ms'.map .inserted) n b
  · rw [hw]
  · rw [hw]
    simp [erase_append, erase_marks]

/-- Marks around another instruction. -/
theorem eventsOf_wrapAt_of_ne {ms ms' : List Mark} (hms : ∀ m ∈ ms ++ ms', m.origin ≠ some o) :
    eventsOf o k (wrapAt (ms.map .inserted) (ms'.map .inserted) n b) = eventsOf o k b := by
  have hdrop : ∀ l : List Mark, (∀ m ∈ l, m.origin ≠ some o) →
      (l.map Event.mark).filter (·.origin == some o) = [] := by
    intro l hl
    simp only [List.filter_eq_nil_iff, List.mem_map, beq_iff_eq]
    rintro _ ⟨m, hm, rfl⟩
    exact hl m hm
  obtain ⟨-, hw⟩ | ⟨before, i, rest, rfl, -, hw⟩ := wrapAt_cases (ms.map .inserted) (ms'.map .inserted) n b
  · rw [hw]
  · rw [hw]
    simp only [eventsOf, events_append, events_marks, events, List.filter_append, List.filter_cons, erase_marks,
      List.length_nil, Nat.add_zero, hdrop ms fun m hm => hms m (List.mem_append_left _ hm),
      hdrop ms' fun m hm => hms m (List.mem_append_right _ hm), List.nil_append]

/-- Marks around the instruction itself. -/
theorem eventsOf_wrapAt {ms ms' : List Mark} (hms : ∀ m ∈ ms ++ ms', m.origin = some (k, n))
    (hi : (erase b)[n]? = some i) (hb : eventsOf (k, n) k b = [.run (k, n)]) :
    eventsOf (k, n) k (wrapAt (ms.map .inserted) (ms'.map .inserted) n b) = ms.map .mark ++ .run (k, n) :: ms'.map .mark := by
  have hkeep : ∀ l : List Mark, (∀ m ∈ l, m.origin = some (k, n)) →
      (l.map Event.mark).filter (·.origin == some (k, n)) = l.map .mark := by
    intro l hl
    simp only [List.filter_eq_self, List.mem_map, beq_iff_eq]
    rintro _ ⟨m, hm, rfl⟩
    exact hl m hm
  obtain ⟨hnone, -⟩ | ⟨before, j, rest, rfl, hn, hw⟩ := wrapAt_cases (ms.map .inserted) (ms'.map .inserted) n b
  · rw [hnone] at hi
    cases hi
  · simp only [eventsOf, events_append, events, Nat.zero_add, hn, List.filter_append, List.filter_cons, Event.origin_run,
      BEq.rfl, if_true, List.append_eq_singleton_iff, List.cons.injEq, true_and, List.cons_ne_nil, and_false,
      or_false] at hb
    rw [hw]
    simp only [eventsOf, events_append, events_marks, events, erase_marks, List.length_nil, Nat.zero_add, Nat.add_zero,
      hn, List.filter_append, List.filter_cons, Event.origin_run, BEq.rfl, if_true, hb.1, hb.2, List.nil_append,
      List.append_nil, hkeep ms fun m hm => hms m (List.mem_append_left _ hm),
      hkeep ms' fun m hm => hms m (List.mem_append_right _ hm)]

/-- A block of the program has each of its instructions once. -/
theorem filter_events_original (o : Nat × Nat) : ∀ (n : Nat) {b : List (Item ι Mark)}, (∀ m, .inserted m ∉ b) →
    (events k n b).filter (·.origin == some o) =
      if k = o.1 ∧ n ≤ o.2 ∧ o.2 < n + (erase b).length then [.run o] else []
  | n, [], _ => by
    rw [if_neg (by simp only [erase_nil, List.length_nil]; omega)]
    rfl
  | n, .original i :: b, hb => by
    have ih := filter_events_original o (n + 1) (b := b) fun m hm => hb m (List.mem_cons_of_mem _ hm)
    have hlen : (erase (.original i :: b)).length = (erase b).length + 1 := rfl
    simp only [events, List.filter_cons, Event.origin_run, Option.some_beq_some, beq_iff_eq, ih, Prod.ext_iff]
    by_cases ho : k = o.1 ∧ n = o.2
    · rw [if_pos ho, if_neg (by omega), if_pos (by omega), show ((k, n) : Nat × Nat) = o from Prod.ext ho.1 ho.2]
    · rw [if_neg ho]
      by_cases hn : k = o.1 ∧ n + 1 ≤ o.2 ∧ o.2 < n + 1 + (erase b).length
      · rw [if_pos hn, if_pos (by omega)]
      · rw [if_neg hn, if_neg (by omega)]
  | _, .inserted m :: _, hb => absurd List.mem_cons_self (hb m)

end Events

/-! ## What a visit does to the events -/

section Instrument

variable {blocks : List (List (Item ι Mark))} {d : Nat} {o : Nat × Nat} {v : Visit}
  {ends : List (Nat × CoroutineFilter)} {entry : CoroutineFilter}

/-- A modification that a function does not see. -/
theorem map_getElem?_modify {α β : Type} {f : α → α} {g : α → β} {l : List α} {j d : Nat}
    (h : j = d → ∀ a, l[d]? = some a → g (f a) = g a) : ((l.modify j f)[d]?).map g = (l[d]?).map g := by
  rw [List.getElem?_modify]
  cases ha : l[d]? with
  | none => rfl
  | some a =>
    by_cases hj : j = d
    · simp [hj, h hj a ha]
    · simp [hj]

theorem eventsOf_enterAll_of_ne {o' : Nat × Nat} (ho : o' ≠ o) :
    ((enterAll (some o') ends blocks)[d]?).map (eventsOf o d) = (blocks[d]?).map (eventsOf o d) := by
  induction ends generalizing blocks with
  | nil => rfl
  | cons e ends ih =>
    have hm : (endMark (some o') e.2).origin ≠ some o := fun h => ho (Option.some.inj h)
    exact ih.trans (map_getElem?_modify fun _ b _ => eventsOf_insertFirst_of_ne hm)

/-- The marks at the ends of an instruction come first in their blocks. -/
theorem eventsOf_enterAll (hpad : ∀ b, blocks[d]? = some b → NoPad o d b) (hends : ∀ e ∈ ends, e.2 = entry) :
    ((enterAll (some o) ends blocks)[d]?).map (eventsOf o d) = (blocks[d]?).map fun b =>
      List.replicate ((ends.map (·.1)).count d) (.mark (endMark (some o) entry)) ++ eventsOf o d b := by
  induction ends generalizing blocks with
  | nil => rfl
  | cons e ends ih =>
    obtain ⟨he, hends⟩ := List.forall_mem_cons.1 hends
    have hpad' : ∀ b, (blocks.modify e.1 (insertFirst (endMark (some o) e.2)))[d]? = some b → NoPad o d b := by
      intro b hb ho i hi
      rw [List.getElem?_modify] at hb
      obtain ⟨b', hb', rfl⟩ := Option.map_eq_some_iff.1 hb
      refine hpad b' hb' ho i ?_
      split at hi
      · rwa [erase_insertFirst] at hi
      · exact hi
    refine (ih hpad' hends).trans ?_
    rw [List.getElem?_modify, List.map_cons, List.count_cons]
    cases hb : blocks[d]? with
    | none => rfl
    | some b =>
      by_cases hd : e.1 = d
      · have hm := eventsOf_insertFirst (m := endMark (some o) e.2) rfl (hpad b hb)
        rw [he] at hm
        simp [hd, he, hm, List.replicate_succ', List.append_assoc]
      · simp [hd]

/-- A visit leaves the events of other instructions alone. -/
theorem eventsOf_instrument_of_ne (hv : v.origin ≠ o) :
    ((instrument blocks v)[d]?).map (eventsOf o d) = (blocks[d]?).map (eventsOf o d) := by
  refine (eventsOf_enterAll_of_ne hv).trans (map_getElem?_modify fun _ b _ => eventsOf_wrapAt_of_ne fun m hm => ?_)
  have hm : m.origin = some v.origin := by
    rcases List.mem_append.1 hm with hm | hm
    · obtain ⟨entry, -, rfl⟩ := Option.map_eq_some_iff.1 (Option.mem_toList.1 hm)
      rfl
    · obtain ⟨entry, -, rfl⟩ := Option.map_eq_some_iff.1 (Option.mem_toList.1 hm)
      rfl
  rw [hm]
  exact fun h => hv (Option.some.inj h)

theorem eventsOf_foldl_of_ne (blocks : List (List (Item ι Mark))) (d : Nat) {vs : List Visit}
    (hvs : ∀ v ∈ vs, v.origin ≠ o) :
    ((vs.foldl instrument blocks)[d]?).map (eventsOf o d) = (blocks[d]?).map (eventsOf o d) := by
  induction vs generalizing blocks with
  | nil => rfl
  | cons v vs ih =>
    obtain ⟨hv, hvs⟩ := List.forall_mem_cons.1 hvs
    exact (ih (instrument blocks v) hvs).trans (eventsOf_instrument_of_ne hv)

theorem map_erase_enterAll (origin : Option (Nat × Nat)) (ends : List (Nat × CoroutineFilter))
    (blocks : List (List (Item ι Mark))) : (enterAll origin ends blocks).map erase = blocks.map erase := by
  induction ends generalizing blocks with
  | nil => rfl
  | cons e ends ih => exact (ih (blocks.modify e.1 _)).trans (map_erase_modify blocks e.1)

/-- A visit inserts only marks. -/
theorem map_erase_instrument (blocks : List (List (Item ι Mark))) (v : Visit) :
    (instrument blocks v).map erase = blocks.map erase := by
  rw [instrument, map_erase_enterAll]
  refine List.ext_getElem? fun j => ?_
  rw [List.getElem?_map, List.getElem?_map]
  exact map_getElem?_modify fun _ b _ => erase_wrapAt _ _ v.position b

theorem map_erase_foldl (vs : List Visit) (blocks : List (List (Item ι Mark))) :
    (vs.foldl instrument blocks).map erase = blocks.map erase := by
  induction vs generalizing blocks with
  | nil => rfl
  | cons v vs ih => exact (ih (instrument blocks v)).trans (map_erase_instrument blocks v)

/-- What a matched instruction has in block `d`: its ends there, and in its own block the instruction with its marks. -/
def expected (i : Instruction ι) (entry : CoroutineFilter) (o : Nat × Nat) (d : Nat) : List Event :=
  List.replicate (i.destinations.count d) (.mark (endMark (some o) entry)) ++
    if d = o.1 then
      .mark (startMark (some o) entry) :: .run o :: if i.isTerminator then [] else [.mark (endMark (some o) entry)]
    else []

variable {filt : List CoroutineFilter} {i : Instruction ι} {coName : String} {plan : Plan} {skip skip' : Nat}

/-- The plan of an instruction that an entry matches. -/
theorem treat_matched (ht : treat filt skip i = some (plan, skip')) (hcallee : i.callee = some coName)
    (hentry : front filt coName = some entry) :
    plan = ⟨some entry, if i.isTerminator then none else some entry, i.destinations.map (·, entry)⟩ := by
  cases i with
  | call callee data =>
    obtain rfl : callee = some coName := hcallee
    simp only [treat, treatCall, hentry, Option.some.injEq, Prod.mk.injEq] at ht
    exact ht.1.symm
  | invoke callee normalDest unwindDest data =>
    obtain rfl : callee = some coName := hcallee
    simp only [treat, hentry, Option.some.injEq, Prod.mk.injEq] at ht
    exact ht.1.symm
  | _ => cases hcallee

theorem isPad_of_callee (hcallee : i.callee = some coName) : isPad (.original i : Item ι Mark) = false := by
  cases i with
  | phi => cases hcallee
  | landingPad => cases hcallee
  | _ => rfl

/-- What is inserted around an instruction that an entry matches. -/
theorem eventsOf_around {b₀ : List (Item ι Mark)} (hi : (erase b₀)[v.position]? = some i)
    (hfresh : eventsOf v.origin v.block b₀ = [.run v.origin])
    (hplan : v.plan = ⟨some entry, if i.isTerminator then none else some entry, i.destinations.map (·, entry)⟩) :
    eventsOf v.origin v.block (wrapAt v.starts v.finishes v.position b₀) =
      .mark (startMark (some v.origin) entry) :: .run v.origin ::
        if i.isTerminator then [] else [.mark (endMark (some v.origin) entry)] := by
  have hmarks : ∀ m ∈ (v.plan.start.map (startMark v.origin)).toList ++ (v.plan.finish.map (endMark v.origin)).toList,
      m.origin = some (v.block, v.position) := by
    rw [hplan]
    cases i.isTerminator <;> simp [startMark, endMark, Visit.origin]
  refine (eventsOf_wrapAt hmarks hi hfresh).trans ?_
  rw [hplan]
  cases i.isTerminator <;> simp [Visit.origin]

/-- **The visit of a matched instruction** puts its marks where they belong. -/
theorem eventsOf_instrument {b₀ : List (Item ι Mark)} (hk : blocks[v.block]? = some b₀)
    (hi : (erase b₀)[v.position]? = some i)
    (hfresh : ∀ d b, blocks[d]? = some b → eventsOf v.origin d b = if d = v.block then [.run v.origin] else [])
    (ht : treat filt skip i = some (v.plan, skip')) (hcallee : i.callee = some coName)
    (hentry : front filt coName = some entry) :
    ((instrument blocks v)[d]?).map (eventsOf v.origin d) = (blocks[d]?).map fun _ => expected i entry v.origin d := by
  have hplan := treat_matched ht hcallee hentry
  have hpad : ∀ b, (blocks.modify v.block (wrapAt v.starts v.finishes v.position))[d]? = some b →
      NoPad v.origin d b := by
    rintro b hb ho j hj
    obtain rfl : v.block = d := ho
    rw [List.getElem?_modify_eq, hk] at hb
    obtain rfl := Option.some.inj hb
    have hj : (erase (wrapAt v.starts v.finishes v.position b₀))[v.position]? = some j := hj
    rw [Visit.starts, Visit.finishes, erase_wrapAt, hi] at hj
    obtain rfl := Option.some.inj hj
    exact isPad_of_callee hcallee
  have hends : ∀ e ∈ v.plan.ends, e.2 = entry := by
    rw [hplan]
    intro e he
    obtain ⟨_, -, rfl⟩ := List.mem_map.1 he
    rfl
  have hdest : v.plan.ends.map (·.1) = i.destinations := by
    rw [hplan, List.map_map]
    exact List.map_id _
  refine (eventsOf_enterAll hpad hends).trans ?_
  rw [hdest, List.getElem?_modify, expected]
  have ho : v.origin.1 = v.block := rfl
  cases hb : blocks[d]? with
  | none => rfl
  | some b =>
    have hd := hfresh d b hb
    by_cases hkd : v.block = d
    · subst hkd
      obtain rfl := Option.some.inj (hk.symm.trans hb)
      rw [if_pos rfl] at hd
      have haround := eventsOf_around hi hd hplan
      simp [haround, ho]
    · rw [if_neg (Ne.symm hkd)] at hd
      simp [hkd, Ne.symm hkd, hd, ho]

end Instrument

/-! ## The visits of a function -/

section Visits

variable {filt : List CoroutineFilter} {skip skip' k n : Nat}

/-- Every instruction of a block is visited once, in order. -/
theorem blockVisits_spec : ∀ {is : List (Instruction ι)} {skip n : Nat} {vs : List Visit},
    blockVisits filt k skip n is = some (vs, skip') →
    vs.map (·.origin) = (List.range' n is.length).map (k, ·) ∧
      ∀ j i, is[j]? = some i → ∃ v ∈ vs, v.origin = (k, n + j) ∧ ∃ s s', treat filt s i = some (v.plan, s')
  | [], _, _, vs, h => by
    cases h
    exact ⟨rfl, fun _ _ hi => by cases hi⟩
  | i :: is, skip, n, vs, h => by
    obtain ⟨⟨plan, skip₁⟩, ht, h⟩ := Option.bind_eq_some_iff.1 h
    obtain ⟨⟨vs, skip₂⟩, hvs, h⟩ := Option.map_eq_some_iff.1 h
    cases h
    obtain ⟨ho, hall⟩ := blockVisits_spec hvs
    refine ⟨?_, fun j i' hi => ?_⟩
    · rw [List.map_cons, ho]
      rfl
    · cases j with
      | zero =>
        obtain rfl := Option.some.inj hi
        exact ⟨⟨k, n, plan⟩, List.mem_cons_self, rfl, skip, skip₁, ht⟩
      | succ j =>
        obtain ⟨v, hv, hvo, htreat⟩ := hall j i' hi
        exact ⟨v, List.mem_cons_of_mem _ hv, by rw [hvo, Nat.add_right_comm, Nat.add_assoc], htreat⟩

/-- Every instruction of a function is visited once. -/
theorem visits_spec : ∀ {bs : List (List (Instruction ι))} {skip k : Nat} {vs : List Visit},
    visits filt skip k bs = some vs →
    (vs.map (·.origin)).Nodup ∧ (∀ v ∈ vs, k ≤ v.block) ∧
      ∀ d b j i, bs[d]? = some b → b[j]? = some i →
        ∃ v ∈ vs, v.origin = (k + d, j) ∧ ∃ s s', treat filt s i = some (v.plan, s')
  | [], _, _, vs, h => by
    obtain rfl : [] = vs := Option.some.inj h
    exact ⟨List.nodup_nil, by simp, fun _ _ _ _ hb => by cases hb⟩
  | b :: bs, skip, k, vs, h => by
    obtain ⟨⟨vs₁, skip₁⟩, h₁, h⟩ := Option.bind_eq_some_iff.1 h
    obtain ⟨vs₂, h₂, rfl⟩ := Option.map_eq_some_iff.1 h
    obtain ⟨ho₁, hall₁⟩ := blockVisits_spec h₁
    obtain ⟨hnodup, hle, hall₂⟩ := visits_spec h₂
    have hblock : ∀ v ∈ vs₁, v.block = k := by
      intro v hv
      obtain ⟨j, -, hj⟩ := List.mem_map.1 (ho₁ ▸ List.mem_map_of_mem hv)
      exact (congrArg Prod.fst hj).symm
    refine ⟨?_, ?_, ?_⟩
    · rw [List.map_append, List.nodup_append]
      refine ⟨?_, hnodup, ?_⟩
      · rw [ho₁]
        exact List.Nodup.map (fun _ _ h => (Prod.mk.inj h).2) List.nodup_range'
      · rintro _ ho _ ho' rfl
        obtain ⟨v, hv, rfl⟩ := List.mem_map.1 ho
        obtain ⟨w, hw, hwo⟩ := List.mem_map.1 ho'
        have hvw : w.block = v.block := congrArg Prod.fst hwo
        have := hblock v hv
        have := hle w hw
        omega
    · intro v hv
      obtain hv | hv := List.mem_append.1 hv
      · exact (hblock v hv).ge
      · exact Nat.le_of_succ_le (hle v hv)
    · intro d b' j i hb hi
      cases d with
      | zero =>
        obtain rfl := Option.some.inj hb
        obtain ⟨v, hv, hvo, ht⟩ := hall₁ j i hi
        exact ⟨v, List.mem_append_left _ hv, by rw [hvo, Nat.zero_add, Nat.add_zero], ht⟩
      | succ d =>
        obtain ⟨v, hv, hvo, ht⟩ := hall₂ d b' j i hb hi
        exact ⟨v, List.mem_append_right _ hv, by rw [hvo, Nat.add_right_comm, Nat.add_assoc], ht⟩

end Visits

/-! ## The pass -/

/-- The instruction of the program at a position of a function. -/
def instructionAt (F : Function ι Mark) (o : Nat × Nat) : Option (Instruction ι) :=
  F.blocks[o.1]?.bind fun b => (erase b)[o.2]?

/-- **`F'` is `F` with every matched call marked once.** -/
structure Marked (filt : List CoroutineFilter) (F F' : Function ι Mark) : Prop where
  name : F'.name = F.name
  /-- Without the inserted calls there are the instructions of the program. -/
  erased : F'.blocks.map erase = F.blocks.map erase
  /-- No call is inserted for an inserted call. -/
  origins : ∀ b ∈ F'.blocks, ∀ m, .inserted m ∈ b → m.origin.isSome
  /-- A direct call or invoke that an entry matches has its start before it and its ends after it. -/
  matched : ∀ o i coName entry, instructionAt F o = some i → i.callee = some coName → front filt coName = some entry →
    ∀ d b, F'.blocks[d]? = some b → eventsOf o d b = expected i entry o d

/-- Every function of a module with the marks of the entries that apply to it. -/
structure Instrumented (coFilter : List CoroutineFilter) (M M' : Module ι Mark) : Prop where
  globals : M'.globals = M.globals
  functions : List.Forall₂ (fun F F' => Marked (applicable coFilter F.name) F F')
    (M.getOrInsertFunction costatusChange).functions M'.functions

section Pass

variable {filt coFilter : List CoroutineFilter} {F F' : Function ι Mark} {vs : List Visit} {fuel : Nat}

theorem exists_of_mem_modify {α : Type} {f : α → α} {l : List α} {d : Nat} {a : α} (h : a ∈ l.modify d f) :
    a ∈ l ∨ ∃ a' ∈ l, f a' = a := by
  obtain ⟨j, hj⟩ := List.mem_iff_getElem?.1 h
  rw [List.getElem?_modify] at hj
  obtain ⟨a', ha', rfl⟩ := Option.map_eq_some_iff.1 hj
  split
  · exact .inr ⟨a', List.mem_of_getElem? ha', rfl⟩
  · exact .inl (List.mem_of_getElem? ha')

/-- Every mark in the blocks is for an instruction of the program. -/
def Owned (blocks : List (List (Item ι Mark))) : Prop := ∀ b ∈ blocks, ∀ m, .inserted m ∈ b → m.origin.isSome

theorem Owned.enterAll {blocks : List (List (Item ι Mark))} (h : Owned blocks) (o : Nat × Nat)
    (ends : List (Nat × CoroutineFilter)) : Owned (enterAll (some o) ends blocks) := by
  induction ends generalizing blocks with
  | nil => exact h
  | cons e ends ih =>
    refine ih fun b hb m hm => ?_
    obtain hb | ⟨b', hb', rfl⟩ := exists_of_mem_modify hb
    · exact h b hb m hm
    · obtain hm | hm := mem_insertFirst.1 hm
      · cases hm
        rfl
      · exact h b' hb' m hm

/-- A visit inserts marks for its instruction. -/
theorem Owned.instrument {blocks : List (List (Item ι Mark))} (h : Owned blocks) (v : Visit) :
    Owned (instrument blocks v) := by
  refine Owned.enterAll (fun b hb m hm => ?_) v.origin v.plan.ends
  obtain hb | ⟨b', hb', rfl⟩ := exists_of_mem_modify hb
  · exact h b hb m hm
  · obtain ⟨-, hw⟩ | ⟨before, i, rest, rfl, -, hw⟩ := wrapAt_cases v.starts v.finishes v.position b'
    · rw [hw] at hm
      exact h b' hb' m hm
    · have hold : ∀ m, .inserted m ∈ before ∨ .inserted m ∈ rest → m.origin.isSome := fun m hm =>
        h _ hb' m (by simpa using hm)
      rw [hw] at hm
      simp only [Visit.starts, Visit.finishes, List.mem_append, List.mem_cons, List.mem_map, Option.mem_toList,
        Option.map_eq_some_iff, reduceCtorEq, false_or] at hm
      obtain hm | ⟨_, ⟨entry, -, rfl⟩, hm⟩ | ⟨_, ⟨entry, -, rfl⟩, hm⟩ | hm := hm
      · exact hold m (.inl hm)
      · cases hm
        rfl
      · cases hm
        rfl
      · exact hold m (.inr hm)

theorem Owned.foldl {blocks : List (List (Item ι Mark))} (h : Owned blocks) (vs : List Visit) :
    Owned (vs.foldl CoYield.instrument blocks) := by
  induction vs generalizing blocks with
  | nil => exact h
  | cons v vs ih => exact ih (h.instrument v)

/-- **The visits of a function mark every matched call once.** -/
theorem marked_of_visits (hF : F.WellFormed) (hvs : visits filt 0 0 (F.blocks.map erase) = some vs) :
    Marked filt F { F with blocks := vs.foldl instrument F.blocks } where
  name := rfl
  erased := map_erase_foldl vs F.blocks
  origins := Owned.foldl (fun b hb m hm => absurd hm (hF.original b hb m)) vs
  matched := by
    rintro ⟨k, n⟩ i coName entry hi hcallee hentry d b hb
    obtain ⟨b₀, hb₀, hi⟩ := Option.bind_eq_some_iff.1 hi
    obtain ⟨hnodup, -, hall⟩ := visits_spec hvs
    obtain ⟨v, hv, hvo, s, s', ht⟩ := hall k (erase b₀) n i (by rw [List.getElem?_map, hb₀]; rfl) hi
    rw [Nat.zero_add] at hvo
    obtain ⟨rfl, rfl⟩ : v.block = k ∧ v.position = n := Prod.mk.inj hvo
    obtain ⟨vs₁, vs₂, rfl⟩ := List.append_of_mem hv
    have hne₁ : ∀ w ∈ vs₁, w.origin ≠ v.origin := by
      rw [List.map_append, List.nodup_append] at hnodup
      exact fun w hw => hnodup.2.2 _ (List.mem_map_of_mem hw) _ (by simp)
    have hne₂ : ∀ w ∈ vs₂, w.origin ≠ v.origin := by
      rw [List.map_append, List.map_cons, List.nodup_append, List.nodup_cons] at hnodup
      exact fun w hw ho => hnodup.2.1.1 (ho ▸ List.mem_map_of_mem hw)
    have hfresh : ∀ d b, (vs₁.foldl instrument F.blocks)[d]? = some b →
        eventsOf v.origin d b = if d = v.block then [.run v.origin] else [] := by
      intro d b hb
      have hmap := eventsOf_foldl_of_ne F.blocks d hne₁
      rw [hb] at hmap
      obtain ⟨b', hb', hbb⟩ := Option.map_eq_some_iff.1 hmap.symm
      rw [← hbb]
      refine (filter_events_original v.origin 0 (hF.original b' (List.mem_of_getElem? hb'))).trans ?_
      by_cases hd : d = v.block
      · subst hd
        obtain rfl := Option.some.inj (hb₀.symm.trans hb')
        have hlt := (List.getElem?_eq_some_iff.1 hi).1
        rw [if_pos ⟨rfl, Nat.zero_le _, by simpa [Visit.origin] using hlt⟩, if_pos rfl]
      · rw [if_neg (fun h => hd h.1), if_neg hd]
    have herase : ((vs₁.foldl instrument F.blocks)[v.block]?).map erase = some (erase b₀) := by
      rw [← List.getElem?_map, map_erase_foldl, List.getElem?_map, hb₀]
      rfl
    obtain ⟨b₁, hb₁, heq⟩ := Option.map_eq_some_iff.1 herase
    have hown := eventsOf_instrument (d := d) hb₁ (heq ▸ hi) hfresh ht hcallee hentry
    have hlast := eventsOf_foldl_of_ne (instrument (vs₁.foldl instrument F.blocks) v) d hne₂
    rw [hown, ← List.foldl_cons, ← List.foldl_append, hb] at hlast
    obtain ⟨_, -, heq⟩ := Option.map_eq_some_iff.1 hlast.symm
    exact heq.symm

theorem insertYields_mono {fuel' : Nat} (h : insertYields filt fuel F = .ok F') (hle : fuel ≤ fuel') :
    insertYields filt fuel' F = .ok F' := by
  unfold insertYields at h ⊢
  cases hb : F.blocks with
  | nil => simpa only [hb] using h
  | cons block todo =>
    simp only [hb] at h ⊢
    cases hrun : Loop.run (step filt) fuel ⟨[], [], block, todo, 0⟩ with
    | none =>
      rw [hrun] at h
      cases h
    | some exit =>
      rw [hrun] at h
      rw [Loop.run_mono hrun hle]
      exact h

theorem runFunction_mono {fuel' : Nat} (h : runFunction coFilter fuel F = .ok F') (hle : fuel ≤ fuel') :
    runFunction coFilter fuel' F = .ok F' := by
  simp only [runFunction] at h ⊢
  by_cases hempty : (applicable coFilter F.name).isEmpty
  · rwa [if_pos hempty] at h ⊢
  · rw [if_neg hempty] at h ⊢
    exact insertYields_mono h hle

/-- The condition on a function: it has no entries, or the loop returns. -/
def Treatable (coFilter : List CoroutineFilter) (F : Function ι Mark) : Prop :=
  applicable coFilter F.name ≠ [] → Markable (applicable coFilter F.name) (F.blocks.map erase)

/-- Without entries there is nothing to mark. -/
theorem marked_nil (hF : F.WellFormed) : Marked [] F F where
  name := rfl
  erased := rfl
  origins := fun b hb m hm => absurd hm (hF.original b hb m)
  matched := fun _ _ _ _ _ _ hentry => by cases hentry

theorem treatable_of_runFunction (hF : F.WellFormed) (h : runFunction coFilter fuel F = .ok F') : Treatable coFilter F := by
  intro hne
  have hempty : (applicable coFilter F.name).isEmpty = false := by simpa using hne
  have h : insertYields (applicable coFilter F.name) fuel F = .ok F' := by
    simpa [runFunction, hempty] using h
  obtain ⟨vs, hvs, hquiet, -⟩ := (insertYields_ok_iff hF).1 ⟨fuel, h⟩
  exact ⟨vs, hvs, hquiet⟩

/-- **A function that can be treated** is returned with its calls marked. -/
theorem exists_runFunction (hF : F.WellFormed) (h : Treatable coFilter F) :
    ∃ fuel F', runFunction coFilter fuel F = .ok F' ∧ Marked (applicable coFilter F.name) F F' := by
  by_cases hne : applicable coFilter F.name = []
  · exact ⟨0, F, by simp [runFunction, hne], by rw [hne]; exact marked_nil hF⟩
  · obtain ⟨vs, hvs, hquiet⟩ := h hne
    obtain ⟨fuel, hfuel⟩ := (insertYields_ok_iff hF).2 ⟨vs, hvs, hquiet, rfl⟩
    exact ⟨fuel, _, by simpa [runFunction, hne] using hfuel, marked_of_visits hF hvs⟩

theorem treatable_of_mapM : ∀ {Fs Fs' : List (Function ι Mark)}, (∀ F ∈ Fs, F.WellFormed) →
    Fs.mapM (runFunction coFilter fuel) = .ok Fs' → ∀ F ∈ Fs, Treatable coFilter F
  | [], _, _, _ => by simp
  | F :: Fs, Fs', hFs, h => by
    rw [List.mapM_cons] at h
    obtain ⟨F', hF', h⟩ := Program.bind_eq_ok.1 h
    obtain ⟨Fs', hrest, -⟩ := Program.bind_eq_ok.1 h
    obtain ⟨hF, hFs⟩ := List.forall_mem_cons.1 hFs
    exact List.forall_mem_cons.2 ⟨treatable_of_runFunction hF hF', treatable_of_mapM hFs hrest⟩

theorem mapM_mono {fuel' : Nat} (hle : fuel ≤ fuel') : ∀ {Fs Fs' : List (Function ι Mark)},
    Fs.mapM (runFunction coFilter fuel) = .ok Fs' → Fs.mapM (runFunction coFilter fuel') = .ok Fs'
  | [], _, h => h
  | F :: Fs, Fs', h => by
    rw [List.mapM_cons] at h ⊢
    obtain ⟨F', hF', h⟩ := Program.bind_eq_ok.1 h
    obtain ⟨Fs', hrest, h⟩ := Program.bind_eq_ok.1 h
    rw [runFunction_mono hF' hle, Program.ok_bind, mapM_mono hle hrest]
    exact h

theorem exists_mapM : ∀ {Fs : List (Function ι Mark)}, (∀ F ∈ Fs, F.WellFormed) → (∀ F ∈ Fs, Treatable coFilter F) →
    ∃ fuel Fs', Fs.mapM (runFunction coFilter fuel) = .ok Fs' ∧
      List.Forall₂ (fun F F' => Marked (applicable coFilter F.name) F F') Fs Fs'
  | [], _, _ => ⟨0, [], rfl, .nil⟩
  | F :: Fs, hFs, h => by
    obtain ⟨hF, hFs⟩ := List.forall_mem_cons.1 hFs
    obtain ⟨hT, hTs⟩ := List.forall_mem_cons.1 h
    obtain ⟨n, F', hrun, hmarked⟩ := exists_runFunction hF hT
    obtain ⟨m, Fs', hruns, hall⟩ := exists_mapM hFs hTs
    refine ⟨n + m, F' :: Fs', ?_, .cons hmarked hall⟩
    rw [List.mapM_cons, runFunction_mono hrun (Nat.le_add_right n m), Program.ok_bind,
      mapM_mono (Nat.le_add_left m n) hruns]
    rfl

end Pass

section Run

variable {coFilter : List CoroutineFilter} {M : Module ι Mark} {F : Function ι Mark}

/-- A declaration has nothing to be marked. -/
theorem wellFormed_declaration (name : String) : (⟨name, []⟩ : Function ι Mark).WellFormed where
  original := by simp
  terminated := by simp
  targets := by simp
  unwinding := by simp

theorem mem_getOrInsertFunction (h : F ∈ (M.getOrInsertFunction costatusChange).functions) :
    F ∈ M.functions ∨ F = ⟨costatusChange, []⟩ := by
  unfold Module.getOrInsertFunction at h
  split at h
  · exact .inl h
  · simpa using h

theorem mem_of_mem_functions (h : F ∈ M.functions) : F ∈ (M.getOrInsertFunction costatusChange).functions := by
  unfold Module.getOrInsertFunction
  split
  · exact h
  · exact List.mem_append_left _ h

theorem treatable_of_run {fuel : Nat} {M' : Module ι Mark} (hM : ∀ F ∈ M.functions, F.WellFormed)
    (h : run coFilter fuel M = .ok M') : ∀ F ∈ M.functions, Treatable coFilter F := by
  obtain ⟨Fs', hFs', -⟩ := Program.bind_eq_ok.1 h
  refine fun F hF => treatable_of_mapM (fun F hF => ?_) hFs' F (mem_of_mem_functions hF)
  obtain hF | rfl := mem_getOrInsertFunction hF
  · exact hM F hF
  · exact wellFormed_declaration costatusChange

/-- **When `Run` marks every call once**: exactly when every function with entries satisfies the assertions on
`skip_insert_points` and no mark is put ahead of the iterator in a function with an entry that matches marks. -/
theorem run_ok_iff (coFilter : List CoroutineFilter) (M : Module ι Mark) (hM : ∀ F ∈ M.functions, F.WellFormed) :
    (∃ fuel M', run coFilter fuel M = .ok M' ∧ Instrumented coFilter M M') ↔
      ∀ F ∈ M.functions, Treatable coFilter F := by
  constructor
  · rintro ⟨fuel, M', h, -⟩
    exact treatable_of_run hM h
  · intro h
    have hall : ∀ F ∈ (M.getOrInsertFunction costatusChange).functions, F.WellFormed ∧ Treatable coFilter F := by
      intro F hF
      obtain hF | rfl := mem_getOrInsertFunction hF
      · exact ⟨hM F hF, h F hF⟩
      · exact ⟨wellFormed_declaration costatusChange, fun _ => ⟨[], rfl, by simp⟩⟩
    obtain ⟨fuel, Fs', hrun, hmarked⟩ := exists_mapM (fun F hF => (hall F hF).1) fun F hF => (hall F hF).2
    refine ⟨fuel, { (M.getOrInsertFunction costatusChange) with functions := Fs' }, ?_, ?_, hmarked⟩
    · simp only [run, hrun]
      rfl
    · unfold Module.getOrInsertFunction
      split <;> rfl

end Run

section Runs

/-- A call of `g` and the return. -/
def caller : Function Unit Mark := ⟨"caller", [[.original (.call (some "g") ()), .original (.terminator [] ())]]⟩

theorem wellFormed_caller : caller.WellFormed where
  original := by simp [caller]
  terminated := by
    intro b hb
    obtain rfl := List.mem_singleton.1 hb
    exact ⟨[.call (some "g") ()], .terminator [] (), rfl, rfl, by simp [Instruction.isTerminator]⟩
  targets := by decide
  unwinding := by decide

/-- An entry for `g` treats its caller. -/
theorem run_ok_iff_caller : ∃ fuel M', run [⟨none, some "g", "g"⟩] fuel ⟨[], [caller]⟩ = .ok M' ∧
    Instrumented [⟨none, some "g", "g"⟩] ⟨[], [caller]⟩ M' := by
  refine (run_ok_iff [⟨none, some "g", "g"⟩] ⟨[], [caller]⟩ ?_).2 ?_
  · simpa using wellFormed_caller
  · intro F hF _
    obtain rfl := List.mem_singleton.1 hF
    refine ⟨[⟨0, 0, ⟨some ⟨none, some "g", "g"⟩, some ⟨none, some "g", "g"⟩, []⟩⟩, ⟨0, 1, .nothing⟩], by decide, ?_⟩
    intro v _ hself
    exact absurd hself (by decide)

/-- An entry without a coroutine matches the end mark of the call, and the end mark of that, and so on. -/
theorem run_diverges : ¬ ∃ fuel M', run [⟨none, none, "any"⟩] fuel ⟨[], [caller]⟩ = .ok M' := by
  rintro ⟨fuel, M', h⟩
  have hM : ∀ F ∈ (⟨[], [caller]⟩ : Module Unit Mark).functions, F.WellFormed := by simpa using wellFormed_caller
  obtain ⟨vs, hvs, hquiet⟩ := treatable_of_run hM h caller List.mem_cons_self (by decide)
  have hvisits : visits (applicable [⟨none, none, "any"⟩] "caller") 0 0 (caller.blocks.map erase) =
      some [⟨0, 0, ⟨some ⟨none, none, "any"⟩, some ⟨none, none, "any"⟩, []⟩⟩, ⟨0, 1, .nothing⟩] := by decide
  obtain rfl := Option.some.inj (hvs.symm.trans hvisits)
  exact absurd (hquiet _ List.mem_cons_self (by decide)).1 (by decide)

end Runs

end Ltest.Codegen.CoYield
