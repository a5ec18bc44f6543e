import Ltest.Codegen.Module
import Mathlib.Data.List.Forall2

/-!
# Yields after memory accesses (`yieldpass.cpp`)

`YieldInserter` puts a call of `CoroYield` after every load, store and atomic read-modify-write of the functions that are
annotated with `ltest_nonatomic`, unless there is one already. Its loop looks at an instruction and the next one, so it
never comes to the last instruction of a block (`Instrumented`). What it has inserted it takes for a yield that is there,
so a second run inserts nothing (`yieldInsertPass_law`).
-/

namespace Ltest.Codegen

variable {ι : Type}

/-! ## The pass -/

/-- `nonatomic_attr`. -/
def nonatomicAttr : String := "ltest_nonatomic"

/-- `CreateFunIndex`: the annotations and the functions that have them. -/
def createFunIndex (M : Module ι Unit) : List (String × String) :=
  (M.globals.filter (·.name == "llvm.global.annotations")).flatMap fun g =>
    g.annotations.map fun (function, text) => (text, function)

/-- `HasAttribute`. -/
def hasAttribute (index : List (String × String)) (name attr : String) : Bool := index.contains (attr, name)

/-- `IsTarget`. -/
def isTarget (index : List (String × String)) (name : String) : Bool := hasAttribute index name nonatomicAttr

/-- `NeedInterrupt`. -/
def needInterrupt : Item ι Unit → Bool
  | .original (.load _) | .original (.store _) | .original (.atomicRMW _) => true
  | _ => false

/-- `ItsYieldInst`. -/
def itsYieldInst : Item ι Unit → Bool
  | .original (.call (some name) _) => name == "CoroYield"
  | .inserted _ => true
  | _ => false

/-- The loop of `InsertYields` over a block, from the instruction of the iterator on. After an insertion the iterator is
moved past the inserted call. -/
def insertYieldsFrom : List (Item ι Unit) → List (Item ι Unit)
  | it :: next :: rest =>
    if needInterrupt it && !itsYieldInst next then it :: .inserted () :: insertYieldsFrom (next :: rest)
    else it :: insertYieldsFrom (next :: rest)
  | block => block

/-- `InsertYields`. -/
def insertYields (F : Function ι Unit) : Function ι Unit := { F with blocks := F.blocks.map insertYieldsFrom }

/-- `YieldInsertPass::run`. -/
def yieldInsertPass (M : Module ι Unit) : Module ι Unit :=
  let index := createFunIndex M
  let M := M.getOrInsertFunction "CoroYield"
  { M with functions := M.functions.map fun F => if isTarget index F.name then insertYields F else F }

/-! ## A block -/

section Block

variable {block : List (Item ι Unit)}

/-- A block ends in an instruction that is not followed by a yield. -/
def Terminated (block : List (Item ι Unit)) : Prop := ∃ last, block.getLast? = some last ∧ needInterrupt last = false

/-- Every access is followed by a yield. -/
def Yielding (block : List (Item ι Unit)) : Prop :=
  ∀ before it after, block = before ++ it :: after → needInterrupt it = true →
    ∃ next rest, after = next :: rest ∧ itsYieldInst next = true

/-- **What the loop makes of a block.** -/
structure Instrumented (block block' : List (Item ι Unit)) : Prop where
  yielding : Yielding block'
  erased : erase block' = erase block
  /-- A yield is only inserted between an access and an instruction that is not a yield. -/
  placed : ∀ before m after, block' = before ++ .inserted m :: after → ∃ before' it next after',
    before = before' ++ [it] ∧ after = next :: after' ∧ needInterrupt it = true ∧ itsYieldInst next = false

theorem insertYieldsFrom_cons (it next : Item ι Unit) (rest : List (Item ι Unit)) :
    insertYieldsFrom (it :: next :: rest) =
      it :: if needInterrupt it && !itsYieldInst next then .inserted () :: insertYieldsFrom (next :: rest)
        else insertYieldsFrom (next :: rest) := by
  rw [insertYieldsFrom]
  split <;> rfl

/-- The loop keeps the first instruction. -/
theorem insertYieldsFrom_head (it : Item ι Unit) (rest : List (Item ι Unit)) :
    ∃ rest', insertYieldsFrom (it :: rest) = it :: rest' := by
  cases rest with
  | nil => exact ⟨[], rfl⟩
  | cons next rest => exact ⟨_, insertYieldsFrom_cons it next rest⟩

theorem erase_insertYieldsFrom : ∀ block : List (Item ι Unit), erase (insertYieldsFrom block) = erase block
  | [] => rfl
  | [_] => rfl
  | it :: next :: rest => by
    have ih := erase_insertYieldsFrom (next :: rest)
    rw [insertYieldsFrom_cons]
    cases it with
    | original i =>
      rw [erase_original, erase_original, ← ih]
      split <;> rfl
    | inserted m =>
      rw [erase_inserted, erase_inserted, ← ih]
      split <;> rfl

theorem Terminated.tail {it next : Item ι Unit} {rest : List (Item ι Unit)} (h : Terminated (it :: next :: rest)) :
    Terminated (next :: rest) := by
  obtain ⟨last, hlast, hl⟩ := h
  exact ⟨last, by rwa [List.getLast?_cons_cons] at hlast, hl⟩

theorem yielding_cons {it : Item ι Unit} {rest : List (Item ι Unit)} (h : Yielding rest)
    (hit : needInterrupt it = true → ∃ next rest', rest = next :: rest' ∧ itsYieldInst next = true) :
    Yielding (it :: rest) := by
  rintro (_ | ⟨b, before⟩) a after heq ha
  · cases heq
    exact hit ha
  · obtain ⟨rfl, hrest⟩ := List.cons.inj heq
    exact h before a after hrest ha

/-- Every access of a block is followed by a yield afterwards. -/
theorem yielding_insertYieldsFrom : ∀ {block : List (Item ι Unit)}, Terminated block → Yielding (insertYieldsFrom block)
  | [], h => by
    obtain ⟨_, h, _⟩ := h
    cases h
  | [it], h => by
    obtain ⟨last, hlast, hl⟩ := h
    obtain rfl : it = last := Option.some.inj hlast
    refine yielding_cons (fun before a after heq => ?_) fun hit => ?_
    · simp at heq
    · rw [hl] at hit
      cases hit
  | it :: next :: rest, h => by
    have ih := yielding_insertYieldsFrom h.tail
    obtain ⟨rest', hrest'⟩ := insertYieldsFrom_head next rest
    rw [insertYieldsFrom_cons]
    by_cases hcond : (needInterrupt it && !itsYieldInst next) = true
    · rw [if_pos hcond]
      refine yielding_cons (yielding_cons ih fun hit => by cases hit) fun _ => ⟨_, _, rfl, rfl⟩
    · rw [if_neg hcond]
      refine yielding_cons ih fun hit => ⟨next, rest', hrest', ?_⟩
      simpa [hit] using hcond

/-- Yields are only inserted between an access and an instruction that is not a yield. -/
theorem placed_insertYieldsFrom : ∀ {block : List (Item ι Unit)}, (∀ m, .inserted m ∉ block) → ∀ {before after m},
    insertYieldsFrom block = before ++ .inserted m :: after → ∃ before' it next after', before = before' ++ [it] ∧
      after = next :: after' ∧ needInterrupt it = true ∧ itsYieldInst next = false
  | [], _, before, after, m, heq => by
    rw [insertYieldsFrom] at heq
    simp at heq
    simp
  | [it], hnone, before, after, m, heq => by
    rw [insertYieldsFrom] at heq
    · exact absurd (show .inserted m ∈ [it] by rw [heq]; simp) (hnone m)
    · simp
  | it :: next :: rest, hnone, before, after, m, heq => by
    have hnone' : ∀ m, .inserted m ∉ next :: rest := fun m hm => hnone m (List.mem_cons_of_mem _ hm)
    obtain ⟨rest', hrest'⟩ := insertYieldsFrom_head next rest
    rw [insertYieldsFrom_cons] at heq
    cases before with
    | nil => exact absurd (List.cons.inj heq).1 fun hit => hnone m (by rw [hit]; exact List.mem_cons_self)
    | cons b before =>
      have hb := (List.cons.inj heq).1
      have htail := (List.cons.inj heq).2
      subst hb
      by_cases hcond : (needInterrupt it && !itsYieldInst next) = true
      · rw [if_pos hcond] at htail
        rw [Bool.and_eq_true, Bool.not_eq_true'] at hcond
        cases before with
        | nil =>
          refine ⟨[], it, next, rest', rfl, ?_, hcond⟩
          rw [← hrest']
          exact (List.cons.inj htail).2.symm
        | cons y before =>
          have hrest := (List.cons.inj htail).2
          obtain ⟨before', it', next', after', rfl, hafter, hplaced⟩ := placed_insertYieldsFrom hnone' hrest
          exact ⟨it :: y :: before', it', next', after', rfl, hafter, hplaced⟩
      · rw [if_neg hcond] at htail
        obtain ⟨before', it', next', after', rfl, hafter, hplaced⟩ := placed_insertYieldsFrom hnone' htail
        exact ⟨it :: before', it', next', after', rfl, hafter, hplaced⟩

/-- Where every access is followed by a yield nothing is inserted. -/
theorem insertYieldsFrom_of_yielding : ∀ {block : List (Item ι Unit)}, Yielding block → insertYieldsFrom block = block
  | [], _ => rfl
  | [_], _ => rfl
  | it :: next :: rest, h => by
    have htail : Yielding (next :: rest) := fun before a after heq => h (it :: before) a after (by rw [heq]; rfl)
    rw [insertYieldsFrom_cons, if_neg, insertYieldsFrom_of_yielding htail]
    intro hcond
    rw [Bool.and_eq_true, Bool.not_eq_true'] at hcond
    obtain ⟨next', rest', hnext, hyield⟩ := h [] it (next :: rest) rfl hcond.1
    cases hnext
    rw [hcond.2] at hyield
    cases hyield

end Block

/-! ## A module -/

section Module

variable {M : Module ι Unit}

theorem createFunIndex_congr {M' : Module ι Unit} (h : M'.globals = M.globals) : createFunIndex M' = createFunIndex M := by
  unfold createFunIndex
  rw [h]

theorem globals_getOrInsertFunction (M : Module ι Unit) (name : String) :
    (M.getOrInsertFunction name).globals = M.globals := by
  unfold Module.getOrInsertFunction
  split <;> rfl

/-- A declared function is not declared again. -/
theorem getOrInsertFunction_of_mem {name : String} (h : name ∈ M.functions.map Function.name) :
    M.getOrInsertFunction name = M := by
  obtain ⟨F, hF, hname⟩ := List.mem_map.1 h
  exact if_pos (List.any_eq_true.2 ⟨F, hF, by simpa using hname⟩)

theorem mem_getOrInsertFunction (M : Module ι Unit) (name : String) :
    name ∈ (M.getOrInsertFunction name).functions.map Function.name := by
  unfold Module.getOrInsertFunction
  split
  · rename_i h
    obtain ⟨F, hF, hname⟩ := List.any_eq_true.1 h
    exact List.mem_map.2 ⟨F, hF, beq_iff_eq.1 hname⟩
  · simp

/-- The pass on the functions of a module that has `CoroYield`. -/
theorem functions_yieldInsertPass (M : Module ι Unit) : (yieldInsertPass M).functions =
    (M.getOrInsertFunction "CoroYield").functions.map fun F =>
      if isTarget (createFunIndex M) F.name then insertYields F else F := rfl

theorem names_yieldInsertPass (M : Module ι Unit) : (yieldInsertPass M).functions.map Function.name =
    (M.getOrInsertFunction "CoroYield").functions.map Function.name := by
  rw [functions_yieldInsertPass, List.map_map]
  refine List.map_congr_left fun F _ => ?_
  simp only [Function.comp_apply]
  split <;> rfl

/-- A function after the pass. -/
theorem instrumented_insertYields {F : Function ι Unit} (horiginal : ∀ b ∈ F.blocks, ∀ m, .inserted m ∉ b)
    (hblocks : ∀ b ∈ F.blocks, Terminated b) : List.Forall₂ Instrumented F.blocks (insertYields F).blocks := by
  refine List.forall₂_map_right_iff.2 (List.forall₂_same.2 fun b hb => ?_)
  exact ⟨yielding_insertYieldsFrom (hblocks b hb), erase_insertYieldsFrom b,
    fun _ _ _ heq => placed_insertYieldsFrom (horiginal b hb) heq⟩

/-- A second run on a function changes nothing. -/
theorem insertYields_insertYields {F : Function ι Unit} (hblocks : ∀ b ∈ F.blocks, Terminated b) :
    insertYields (insertYields F) = insertYields F := by
  unfold insertYields
  simp only [List.map_map]
  congr 1
  refine List.map_congr_left fun b hb => ?_
  exact insertYieldsFrom_of_yielding (yielding_insertYieldsFrom (hblocks b hb))

/-- A declaration has no blocks. -/
theorem mem_functions_getOrInsertFunction {name : String} {F : Function ι Unit}
    (hF : F ∈ (M.getOrInsertFunction name).functions) : F ∈ M.functions ∨ F.blocks = [] := by
  unfold Module.getOrInsertFunction at hF
  split at hF
  · exact .inl hF
  · obtain hF | hF := List.mem_append.1 hF
    · exact .inl hF
    · rw [List.mem_singleton.1 hF]
      exact .inr rfl

theorem idempotent_yieldInsertPass (hblocks : ∀ F ∈ M.functions, ∀ b ∈ F.blocks, Terminated b) :
    yieldInsertPass (yieldInsertPass M) = yieldInsertPass M := by
  have hglobals : (yieldInsertPass M).globals = M.globals := globals_getOrInsertFunction M _
  have hdeclared : (yieldInsertPass M).getOrInsertFunction "CoroYield" = yieldInsertPass M := by
    refine getOrInsertFunction_of_mem ?_
    rw [names_yieldInsertPass]
    exact mem_getOrInsertFunction M _
  have hfunctions : (yieldInsertPass (yieldInsertPass M)).functions = (yieldInsertPass M).functions := by
    rw [functions_yieldInsertPass (yieldInsertPass M), hdeclared, createFunIndex_congr hglobals,
      functions_yieldInsertPass M, List.map_map]
    refine List.map_congr_left fun F hF => ?_
    have hF' : ∀ b ∈ F.blocks, Terminated b := by
      obtain hF | hnil := mem_functions_getOrInsertFunction hF
      · exact hblocks F hF
      · simp [hnil]
    simp only [Function.comp_apply]
    by_cases htarget : isTarget (createFunIndex M) F.name = true
    · have hname : (insertYields F).name = F.name := rfl
      rw [if_pos htarget, hname, if_pos htarget, insertYields_insertYields hF']
    · rw [if_neg htarget, if_neg htarget]
  have hboth : (yieldInsertPass (yieldInsertPass M)).globals = (yieldInsertPass M).globals := by
    show ((yieldInsertPass M).getOrInsertFunction "CoroYield").globals = _
    rw [hdeclared]
  exact congrArg₂ Module.mk hboth hfunctions

/-- **The instrumentation law**: the functions with the annotation are instrumented, the others are as they were, at most
a declaration is added, and a second run inserts nothing. -/
theorem yieldInsertPass_law (M : Module ι Unit) (horiginal : ∀ F ∈ M.functions, ∀ b ∈ F.blocks, ∀ m, .inserted m ∉ b)
    (hblocks : ∀ F ∈ M.functions, ∀ b ∈ F.blocks, Terminated b) :
    (∀ (i : Nat) (F : Function ι Unit), M.functions[i]? = some F →
      ∃ F' : Function ι Unit, (yieldInsertPass M).functions[i]? = some F' ∧ F'.name = F.name ∧
        if isTarget (createFunIndex M) F.name then List.Forall₂ Instrumented F.blocks F'.blocks else F' = F) ∧
    (∀ (i : Nat) (F' : Function ι Unit), M.functions.length ≤ i →
      (yieldInsertPass M).functions[i]? = some F' → F'.blocks = []) ∧
    yieldInsertPass (yieldInsertPass M) = yieldInsertPass M := by
  refine ⟨fun i F hi => ?_, fun i F' hle hi => ?_, idempotent_yieldInsertPass hblocks⟩
  · have hF := List.mem_of_getElem? hi
    have hsame : (M.getOrInsertFunction "CoroYield").functions[i]? = some F := by
      unfold Module.getOrInsertFunction
      split
      · exact hi
      · rw [List.getElem?_append_left (List.getElem?_eq_some_iff.1 hi).1, hi]
    rw [functions_yieldInsertPass, List.getElem?_map, hsame]
    refine ⟨if isTarget (createFunIndex M) F.name then insertYields F else F, rfl, ?_, ?_⟩
    · split <;> rfl
    · split
      · exact instrumented_insertYields (horiginal F hF) (hblocks F hF)
      · rfl
  · rw [functions_yieldInsertPass, List.getElem?_map, Option.map_eq_some_iff] at hi
    obtain ⟨F, hF, rfl⟩ := hi
    have hnil : F.blocks = [] := by
      unfold Module.getOrInsertFunction at hF
      split at hF
      · exact absurd (List.getElem?_eq_some_iff.1 hF).1 (by omega)
      · rw [List.getElem?_append_right hle, List.getElem?_singleton] at hF
        split at hF
        · cases hF
          rfl
        · cases hF
    split
    · unfold insertYields
      rw [hnil]
      rfl
    · exact hnil

/-- A function with two accesses in a row, one of them before a yield, and a function without the annotation. -/
def accessesModule : Module Unit Unit where
  globals := [⟨"llvm.global.annotations", [("f", nonatomicAttr)]⟩]
  functions := [
    ⟨"f", [[.original (.load ()), .original (.store ()), .original (.call (some "CoroYield") ()),
      .original (.atomicRMW ()), .original (.terminator [] ())]]⟩,
    ⟨"g", [[.original (.load ()), .original (.terminator [] ())]]⟩]

theorem yieldInsertPass_law_accesses : yieldInsertPass (yieldInsertPass accessesModule) = yieldInsertPass accessesModule ∧
    (yieldInsertPass accessesModule).functions.head? = some ⟨"f", [[.original (.load ()), .inserted (),
      .original (.store ()), .original (.call (some "CoroYield") ()), .original (.atomicRMW ()), .inserted (),
      .original (.terminator [] ())]]⟩ := by
  refine ⟨(yieldInsertPass_law accessesModule ?_ ?_).2.2, rfl⟩
  · simp [accessesModule]
  · simp [accessesModule, Terminated, needInterrupt]

end Module

end Ltest.Codegen
