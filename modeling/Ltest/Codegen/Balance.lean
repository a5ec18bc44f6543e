import Ltest.Codegen.Marks

/-!
# Starts and ends on the paths of a function (`coyieldpass.cpp`)

The marks of a matched call stand around it in its block. An invoke ends its block, and its end marks stand in its
destinations, where every path that enters such a block comes by them. So on every path there is one start and one end
for each matched call and invoke that it goes through, and no other end, exactly when the destinations of a matched
invoke are only entered from its block (`OwnEdges`, `paths_balanced_iff`).
-/

namespace Ltest.Codegen.CoYield

variable {ι : Type}

/-! ## Paths -/

/-- The blocks that may follow block `k`. -/
def successorsOf (F : Function ι Mark) (k : Nat) : List Nat :=
  ((F.blocks[k]?.bind fun b => (erase b).getLast?).map Instruction.successors).getD []

/-- A path from the entry of a function: the blocks that it has gone through, and the block that it has come to. -/
inductive IsPath (F : Function ι Mark) : List Nat → Nat → Prop
  | entry : IsPath F [] 0
  | step {path : List Nat} {k d : Nat} : IsPath F path k → d ∈ successorsOf F k → IsPath F (path ++ [k]) d

/-- What is executed along some blocks. -/
def trace (F : Function ι Mark) (path : List Nat) : List Event :=
  path.flatMap fun k => (F.blocks[k]?.map (events k 0)).getD []

/-- A call or invoke that an entry matches. -/
def Matches (filt : List CoroutineFilter) (F : Function ι Mark) (o : Nat × Nat) (i : Instruction ι)
    (entry : CoroutineFilter) : Prop :=
  instructionAt F o = some i ∧ ∃ coName, i.callee = some coName ∧ front filt coName = some entry

/-- The start, the instruction and the end, `m` times. -/
def rounds (entry : CoroutineFilter) (o : Nat × Nat) (m : Nat) : List Event :=
  (List.replicate m [.mark (startMark (some o) entry), .run o, .mark (endMark (some o) entry)]).flatten

/-- **Balance on a path** through `path` and `last`: every passage of a matched call or invoke has one start before it and
one end after it, and there are no other marks for it. Only for an invoke that ends the path the end is still to come. -/
def Balanced (filt : List CoroutineFilter) (F F' : Function ι Mark) (path : List Nat) (last : Nat) : Prop :=
  ∀ o i entry, Matches filt F o i entry → ∃ m, (trace F' (path ++ [last])).filter (·.origin == some o) =
    rounds entry o m ++ if i.isTerminator = true ∧ last = o.1 then [.mark (startMark (some o) entry), .run o] else []

/-- The destinations of a matched invoke are only entered from its block. -/
def OwnEdges (filt : List CoroutineFilter) (F : Function ι Mark) : Prop :=
  ∀ o i entry, Matches filt F o i entry → ∀ path k, IsPath F path k → ∀ d ∈ successorsOf F k, d ∈ i.destinations →
    k = o.1

section Paths

variable {filt : List CoroutineFilter} {F F' : Function ι Mark} {path : List Nat} {k d : Nat} {o : Nat × Nat}
  {i : Instruction ι} {entry : CoroutineFilter}

theorem successorsOf_congr (h : F'.blocks.map erase = F.blocks.map erase) (k : Nat) :
    successorsOf F' k = successorsOf F k := by
  have hk : (F'.blocks[k]?).map erase = (F.blocks[k]?).map erase := by
    rw [← List.getElem?_map, ← List.getElem?_map, h]
  unfold successorsOf
  cases hb' : F'.blocks[k]? with
  | none =>
    rw [hb'] at hk
    rw [Option.map_eq_none_iff.1 hk.symm]
  | some b' =>
    rw [hb'] at hk
    obtain ⟨b, hb, heq⟩ := Option.map_eq_some_iff.1 hk.symm
    rw [hb, Option.bind_some, Option.bind_some, heq]

theorem isPath_congr (h : F'.blocks.map erase = F.blocks.map erase) (hp : IsPath F path k) : IsPath F' path k := by
  induction hp with
  | entry => exact .entry
  | step _ hd ih => exact .step ih (successorsOf_congr h _ ▸ hd)

theorem isPath_iff (h : F'.blocks.map erase = F.blocks.map erase) : IsPath F' path k ↔ IsPath F path k :=
  ⟨isPath_congr h.symm, isPath_congr h⟩

theorem mem_successorsOf (h : d ∈ successorsOf F k) :
    ∃ b t, F.blocks[k]? = some b ∧ (erase b).getLast? = some t ∧ d ∈ t.successors := by
  unfold successorsOf at h
  cases hb : F.blocks[k]? with
  | none => simp [hb] at h
  | some b =>
    cases ht : (erase b).getLast? with
    | none => simp [hb, ht] at h
    | some t => exact ⟨b, t, rfl, ht, by simpa [hb, ht] using h⟩

/-- An edge leads to a block of the function, and not to the entry. -/
theorem edge_target (hF : F.WellFormed) (h : d ∈ successorsOf F k) : 0 < d ∧ d < F.blocks.length := by
  obtain ⟨b, t, hb, ht, hd⟩ := mem_successorsOf h
  exact hF.targets b (List.mem_of_getElem? hb) t (List.mem_of_getLast? ht) d hd

/-- A path stays in the function, if this has an entry. -/
theorem IsPath.lt_length (hF : F.WellFormed) (hp : IsPath F path k) (hpos : 0 < F.blocks.length) :
    k < F.blocks.length := by
  cases hp with
  | entry => exact hpos
  | step _ hd => exact (edge_target hF hd).2

/-- An invoke is the last instruction of its block, which its destinations follow. -/
theorem successorsOf_invoke (hF : F.WellFormed) (hi : instructionAt F o = some i) (ht : i.isTerminator = true) :
    successorsOf F o.1 = i.successors := by
  obtain ⟨b, hb, hi⟩ := Option.bind_eq_some_iff.1 hi
  obtain ⟨body, t, herase, -, hbody⟩ := hF.terminated b (List.mem_of_getElem? hb)
  rw [herase] at hi
  have hlast : i = t := by
    by_cases hlt : o.2 < body.length
    · rw [List.getElem?_append_left hlt] at hi
      have := hbody i (List.mem_of_getElem? hi)
      rw [ht] at this
      cases this
    · rw [List.getElem?_append_right (by omega)] at hi
      simpa using (List.mem_of_getElem? hi)
  simp [successorsOf, hb, herase, hlast]

end Paths

/-! ## What a path meets of one instruction -/

section Rounds

variable {filt : List CoroutineFilter} {F F' : Function ι Mark} {path : List Nat} {k d : Nat} {o : Nat × Nat}
  {i : Instruction ι} {entry : CoroutineFilter}

theorem trace_append (F : Function ι Mark) (path path' : List Nat) :
    trace F (path ++ path') = trace F path ++ trace F path' := List.flatMap_append

theorem rounds_succ (entry : CoroutineFilter) (o : Nat × Nat) (m : Nat) :
    rounds entry o (m + 1) =
      rounds entry o m ++ [.mark (startMark (some o) entry), .run o, .mark (endMark (some o) entry)] := by
  simp [rounds, List.replicate_succ']

theorem length_rounds (entry : CoroutineFilter) (o : Nat × Nat) (m : Nat) : (rounds entry o m).length = 3 * m := by
  simp [rounds, Nat.mul_comm]

/-- What the instruction has in a block, when the function is marked. -/
theorem filter_trace_block (hM : Marked filt F F') (hm : Matches filt F o i entry) (hk : k < F.blocks.length) :
    (trace F' [k]).filter (·.origin == some o) = expected i entry o k := by
  obtain ⟨hi, coName, hcallee, hentry⟩ := hm
  have hlen : F'.blocks.length = F.blocks.length := by simpa using congrArg List.length hM.erased
  obtain ⟨b, hb⟩ : ∃ b, F'.blocks[k]? = some b := ⟨_, List.getElem?_eq_getElem (hlen ▸ hk)⟩
  rw [← hM.matched o i coName entry hi hcallee hentry k b hb]
  simp [trace, hb, eventsOf]

/-- A call has its marks in its block. -/
theorem expected_call (hm : Matches filt F o i entry) (ht : i.isTerminator = false) :
    expected i entry o k = if k = o.1 then rounds entry o 1 else [] := by
  obtain ⟨-, coName, hcallee, -⟩ := hm
  cases i with
  | call => simp [expected, Instruction.destinations, Instruction.isTerminator, rounds]
  | invoke => cases ht
  | _ => cases hcallee

/-- An invoke has its start in its block and its ends in its destinations. -/
theorem expected_invoke (hF : F.WellFormed) (hm : Matches filt F o i entry) (ht : i.isTerminator = true) :
    expected i entry o k = (if k ∈ i.destinations then [.mark (endMark (some o) entry)] else []) ++
      if k = o.1 then [.mark (startMark (some o) entry), .run o] else [] := by
  obtain ⟨b, hb, hi⟩ := Option.bind_eq_some_iff.1 hm.1
  have hnodup : i.destinations.Nodup := hF.unwinding b (List.mem_of_getElem? hb) i (List.mem_of_getElem? hi)
  unfold expected
  rw [hnodup.count, ht]
  by_cases hk : k ∈ i.destinations <;> simp [hk]

/-- The destinations of a matched invoke follow its block. -/
theorem successorsOf_matches (hF : F.WellFormed) (hm : Matches filt F o i entry) (ht : i.isTerminator = true) :
    successorsOf F o.1 = i.destinations := by
  rw [successorsOf_invoke hF hm.1 ht]
  obtain ⟨-, coName, hcallee, -⟩ := hm
  cases i with
  | invoke => rfl
  | terminator => cases hcallee
  | _ => cases ht

/-- **A path through own edges** meets a matched call or invoke in whole rounds, but for an invoke at its end. -/
theorem filter_trace (hF : F.WellFormed) (hM : Marked filt F F') (hm : Matches filt F o i entry)
    (hedges : ∀ path k, IsPath F path k → ∀ d ∈ successorsOf F k, d ∈ i.destinations → k = o.1)
    (hp : IsPath F path k) : ∃ m, (trace F' (path ++ [k])).filter (·.origin == some o) = rounds entry o m ++
      if i.isTerminator = true ∧ k = o.1 then [.mark (startMark (some o) entry), .run o] else [] := by
  have hpos : 0 < F.blocks.length := by
    obtain ⟨b, hb, -⟩ := Option.bind_eq_some_iff.1 hm.1
    exact Nat.lt_of_le_of_lt (Nat.zero_le _) (List.getElem?_eq_some_iff.1 hb).1
  have hblock : ∀ {path k}, IsPath F path k → (trace F' (path ++ [k])).filter (·.origin == some o) =
      (trace F' path).filter (·.origin == some o) ++ expected i entry o k := by
    intro path k hp
    rw [trace_append, List.filter_append, filter_trace_block hM hm (hp.lt_length hF hpos)]
  cases ht : i.isTerminator with
  | false =>
    have hcall : ∀ {path k}, IsPath F path k → ∃ m, (trace F' (path ++ [k])).filter (·.origin == some o) =
        rounds entry o m := by
      intro path k hp
      induction hp with
      | entry =>
        rw [hblock .entry, expected_call hm ht]
        split
        · exact ⟨1, rfl⟩
        · exact ⟨0, rfl⟩
      | step hp hd ih =>
        obtain ⟨m, ih⟩ := ih
        rw [hblock (hp.step hd), expected_call hm ht, ih]
        split
        · exact ⟨m + 1, (rounds_succ entry o m).symm⟩
        · exact ⟨m, List.append_nil _⟩
    simpa using hcall hp
  | true =>
    simp only [true_and]
    induction hp with
    | entry =>
      have hentry : 0 ∉ i.destinations := by
        intro h
        rw [← successorsOf_matches hF hm ht] at h
        exact absurd (edge_target hF h).1 (Nat.lt_irrefl 0)
      refine ⟨0, ?_⟩
      rw [hblock .entry, expected_invoke hF hm ht, if_neg hentry]
      rfl
    | @step path k d hp hd ih =>
      obtain ⟨m, ih⟩ := ih
      rw [hblock (hp.step hd), expected_invoke hF hm ht, ih]
      by_cases hk : k = o.1
      · -- the path leaves the invoke by one of its edges
        have hdest : d ∈ i.destinations := by
          rw [← successorsOf_matches hF hm ht, ← hk]
          exact hd
        refine ⟨m + 1, ?_⟩
        rw [if_pos hk, if_pos hdest, rounds_succ]
        simp
      · have hdest : d ∉ i.destinations := fun h => hk (hedges path k hp d hd h)
        refine ⟨m, ?_⟩
        rw [if_neg hk, if_neg hdest]
        simp

/-- **An edge of another block** into a destination of a matched invoke is taken by a path that is not balanced. -/
theorem eq_of_balanced (hF : F.WellFormed) (hM : Marked filt F F') (hm : Matches filt F o i entry)
    (hbalanced : ∀ path k, IsPath F path k → Balanced filt F F' path k) (hp : IsPath F path k)
    (hd : d ∈ successorsOf F k) (hdest : d ∈ i.destinations) : k = o.1 := by
  by_contra hk
  have ht : i.isTerminator = true := by
    cases i with
    | invoke => rfl
    | _ => cases hdest
  obtain ⟨m, hm₁⟩ := hbalanced path k hp o i entry hm
  obtain ⟨m', hm₂⟩ := hbalanced (path ++ [k]) d (hp.step hd) o i entry hm
  rw [if_neg fun h => hk h.2, List.append_nil] at hm₁
  rw [trace_append, List.filter_append, hm₁, filter_trace_block hM hm (edge_target hF hd).2, expected_invoke hF hm ht,
    if_pos hdest] at hm₂
  have hlen := congrArg List.length hm₂
  simp only [ht, true_and, List.length_append, length_rounds, List.length_singleton] at hlen
  omega

/-- **When the marks are balanced on every path**: exactly when the loop returns and the destinations of every matched
invoke are only entered from its block. -/
theorem paths_balanced_iff (filt : List CoroutineFilter) (F : Function ι Mark) (hF : F.WellFormed) :
    (∃ fuel F', insertYields filt fuel F = .ok F' ∧ ∀ path k, IsPath F' path k → Balanced filt F F' path k) ↔
      Markable filt (F.blocks.map erase) ∧ OwnEdges filt F := by
  constructor
  · rintro ⟨fuel, F', h, hbalanced⟩
    obtain ⟨vs, hvs, hquiet, rfl⟩ := (insertYields_ok_iff hF).1 ⟨fuel, h⟩
    have hM := marked_of_visits hF hvs
    refine ⟨⟨vs, hvs, hquiet⟩, fun o i entry hm path k hp d hd hdest => ?_⟩
    exact eq_of_balanced hF hM hm (fun path k hp => hbalanced path k ((isPath_iff hM.erased).2 hp)) hp hd hdest
  · rintro ⟨⟨vs, hvs, hquiet⟩, hown⟩
    obtain ⟨fuel, hfuel⟩ := (insertYields_ok_iff hF).2 ⟨vs, hvs, hquiet, rfl⟩
    have hM := marked_of_visits hF hvs
    refine ⟨fuel, _, hfuel, fun path k hp o i entry hm => ?_⟩
    exact filter_trace hF hM hm (hown o i entry hm) ((isPath_iff hM.erased).1 hp)

end Rounds

section Runs

/-- An invoke of `g` with its own landing pad. -/
def guarded : Function Unit Mark := ⟨"guarded",
  [[.original (.invoke (some "g") 1 2 ())],
    [.original (.terminator [] ())],
    [.original (.landingPad ()), .original (.terminator [] ())]]⟩

theorem wellFormed_guarded : guarded.WellFormed where
  original := by simp [guarded]
  terminated := by
    simp only [guarded, List.forall_mem_cons]
    exact ⟨⟨[], .invoke (some "g") 1 2 (), rfl, rfl, by simp⟩, ⟨[], .terminator [] (), rfl, rfl, by simp⟩,
      ⟨[.landingPad ()], .terminator [] (), rfl, rfl, by decide⟩, by simp⟩
  targets := by decide
  unwinding := by decide

/-- The paths of `guarded` are balanced. -/
theorem paths_balanced_iff_guarded : ∃ fuel F', insertYields [⟨none, some "g", "g"⟩] fuel guarded = .ok F' ∧
    ∀ path k, IsPath F' path k → Balanced [⟨none, some "g", "g"⟩] guarded F' path k := by
  refine (paths_balanced_iff _ guarded wellFormed_guarded).2 ⟨⟨_, rfl, fun v _ hself => absurd hself (by decide)⟩, ?_⟩
  rintro ⟨k₀, n⟩ i entry ⟨hi, -⟩ path k - d hd hdest
  have hk : k = 0 := by
    obtain ⟨b, t, hb, ht, hd⟩ := mem_successorsOf hd
    match k, hb with
    | 0, _ => rfl
    | 1, hb =>
      obtain rfl := Option.some.inj hb
      obtain rfl := Option.some.inj ht
      cases hd
    | 2, hb =>
      obtain rfl := Option.some.inj hb
      obtain rfl := Option.some.inj ht
      cases hd
  have hk₀ : k₀ = 0 := by
    match k₀, n, hi with
    | 0, _, _ => rfl
    | 1, 0, hi =>
      obtain rfl := Option.some.inj hi
      cases hdest
    | 2, 0, hi =>
      obtain rfl := Option.some.inj hi
      cases hdest
    | 2, 1, hi =>
      obtain rfl := Option.some.inj hi
      cases hdest
  exact hk.trans hk₀.symm

/-- Two invokes of `g` that unwind to the same landing pad. -/
def sharedPad : Function Unit Mark := ⟨"sharedPad",
  [[.original (.invoke (some "g") 1 3 ())],
    [.original (.invoke (some "g") 2 3 ())],
    [.original (.terminator [] ())],
    [.original (.landingPad ()), .original (.terminator [] ())]]⟩

theorem wellFormed_sharedPad : sharedPad.WellFormed where
  original := by simp [sharedPad]
  terminated := by
    simp only [sharedPad, List.forall_mem_cons]
    exact ⟨⟨[], .invoke (some "g") 1 3 (), rfl, rfl, by simp⟩, ⟨[], .invoke (some "g") 2 3 (), rfl, rfl, by simp⟩,
      ⟨[], .terminator [] (), rfl, rfl, by simp⟩, ⟨[.landingPad ()], .terminator [] (), rfl, rfl, by decide⟩, by simp⟩
  targets := by decide
  unwinding := by decide

/-- When the first invoke unwinds, the landing pad has the end of the second one, too, which has not been started. -/
theorem sharedPad_unbalanced : ∃ fuel F', insertYields [⟨none, some "g", "g"⟩] fuel sharedPad = .ok F' ∧
    ∃ path k, IsPath F' path k ∧ ¬ Balanced [⟨none, some "g", "g"⟩] sharedPad F' path k := by
  obtain ⟨vs, hvs⟩ : ∃ vs, visits [⟨none, some "g", "g"⟩] 0 0 (sharedPad.blocks.map erase) = some vs := ⟨_, rfl⟩
  obtain ⟨fuel, hfuel⟩ := (insertYields_ok_iff wellFormed_sharedPad).2
    ⟨vs, hvs, fun v _ hself => absurd hself (by decide), rfl⟩
  have hM := marked_of_visits wellFormed_sharedPad hvs
  have hm : Matches [⟨none, some "g", "g"⟩] sharedPad (1, 0) (.invoke (some "g") 2 3 ()) ⟨none, some "g", "g"⟩ :=
    ⟨rfl, "g", rfl, rfl⟩
  refine ⟨fuel, _, hfuel, [0], 3, (isPath_iff hM.erased).2 (.step .entry (by decide)), fun hbalanced => ?_⟩
  obtain ⟨m, h⟩ := hbalanced (1, 0) _ _ hm
  rw [trace_append, List.filter_append, filter_trace_block hM hm (by decide), filter_trace_block hM hm (by decide),
    if_neg (by decide), List.append_nil] at h
  have hlen := congrArg List.length h
  rw [length_rounds] at hlen
  have hone : (expected (.invoke (some "g") 2 3 ()) ⟨none, some "g", "g"⟩ (1, 0) 0 ++
      expected (.invoke (some "g") 2 3 ()) ⟨none, some "g", "g"⟩ (1, 0) 3).length = 1 := by decide
  omega

end Runs

end Ltest.Codegen.CoYield
