import Ltest.Codegen.Module
import Ltest.Search.Loop
import Mathlib.Data.List.Forall2

/-!
# Marks around coroutine calls (`coyieldpass.cpp`)

`CoYieldInserter` puts calls of `CoroutineStatusChange` around the calls that an entry of the coroutine file names. Its
loop runs over the instruction list that it inserts into: a `Cursor` is an iterator together with the blocks around it.
The end marks of a call are put after the call and those of an invoke into its destination blocks, so the iterator may
come to them. They look to the loop like any other call (`visit`), and an entry that matches them (`selfMatched`) keeps
it going for ever: the loop returns exactly when the assertions on `skip_insert_points` hold and no mark that an entry
matches is put where the iterator still has to come by (`ends_iff`). What it returns then is the function after its
`visits`, one for each instruction of the program (`insertYields_ok_iff`).
-/

namespace Ltest.Codegen.CoYield

variable {ι : Type}

/-! ## Names -/

/-- `costatus_change`. -/
def costatusChange : String := "CoroutineStatusChange"

/-- `co_expr_start`. -/
def coExprStart : String := "::await_ready"

/-- `co_expr_end`. -/
def coExprEnd : String := "::await_resume"

/-- `co_initial_suspend`. -/
def coInitialSuspend : String := "::initial_suspend()"

/-- `co_final_suspend`. -/
def coFinalSuspend : String := "::final_suspend()"

/-- `std::string::find`: the position of the first occurrence; `none` is `npos`. -/
def find (pattern : List Char) : List Char → Option Nat
  | [] => if pattern.isEmpty then some 0 else none
  | c :: name => if pattern.isPrefixOf (c :: name) then some 0 else (find pattern name).map (· + 1)

/-- An entry of the coroutine file; `Coroutine` and `Parent` may be left out. -/
structure CoroutineFilter where
  parentName : Option String
  coName : Option String
  printName : String
  deriving Repr, DecidableEq

/-- The entries for a function. -/
def applicable (coFilter : List CoroutineFilter) (demangled : String) : List CoroutineFilter :=
  coFilter.filter fun a => a.parentName.all (· == demangled)

/-- `res_filt.front()`: the first entry that matches a callee. -/
def front (filt : List CoroutineFilter) (coName : String) : Option CoroutineFilter :=
  filt.find? fun a => a.coName.all (· == coName)

/-- The entries match the marks themselves. -/
def selfMatched (filt : List CoroutineFilter) : Bool := (front filt costatusChange).isSome

/-! ## What is inserted at an instruction -/

/-- A call of `CoroutineStatusChange`. The position of the instruction that it is inserted for, when this is one of the
program, is only kept for the proofs. -/
structure Mark where
  printName : String
  start : Bool
  origin : Option (Nat × Nat)
  deriving Repr, DecidableEq

/-- The entries that are printed before an instruction, after it, and in which blocks. -/
structure Plan where
  start : Option CoroutineFilter
  finish : Option CoroutineFilter
  ends : List (Nat × CoroutineFilter)
  deriving Repr, DecidableEq

/-- Nothing is inserted. -/
def Plan.nothing : Plan := ⟨none, none, []⟩

/-- `InsertCallWithFilter`: the first entry that matches the name up to `end_pos`. -/
def callWithFilter (filt : List CoroutineFilter) (coName : String) (endPos : Nat) : Option CoroutineFilter :=
  front filt (String.ofList (coName.toList.take endPos))

/-- A call that no entry matches; `none` when an assertion fails. -/
def treatAwait (filt : List CoroutineFilter) (coName : String) (skip : Nat) : Option (Plan × Nat) :=
  match find coInitialSuspend.toList coName.toList with
  | some initial => some (⟨callWithFilter filt coName initial, none, []⟩, 2)
  | none =>
    match find coFinalSuspend.toList coName.toList with
    | some final => some (⟨none, callWithFilter filt coName final, []⟩, 2)
    | none =>
      match find coExprStart.toList coName.toList with
      | some start =>
        if skip ≠ 0 then if skip = 2 then some (.nothing, skip - 1) else none
        else some (⟨callWithFilter filt coName start, none, []⟩, skip)
      | none =>
        match find coExprEnd.toList coName.toList with
        | some endPos =>
          if skip ≠ 0 then if skip = 1 then some (.nothing, skip - 1) else none
          else some (⟨none, callWithFilter filt coName endPos, []⟩, skip)
        | none => some (.nothing, skip)

/-- What the body of the loop does at a call instruction. -/
def treatCall (filt : List CoroutineFilter) (coName : String) (skip : Nat) : Option (Plan × Nat) :=
  match front filt coName with
  | some entry => some (⟨some entry, some entry, []⟩, skip)
  | none => treatAwait filt coName skip

/-- What the body of the loop does at an instruction. -/
def treat (filt : List CoroutineFilter) (skip : Nat) : Instruction ι → Option (Plan × Nat)
  | .call (some coName) _ => treatCall filt coName skip
  | .invoke (some coName) normalDest unwindDest _ =>
    match front filt coName with
    | some entry => some (⟨some entry, none, [(normalDest, entry), (unwindDest, entry)]⟩, skip)
    | none => some (.nothing, skip)
  | _ => some (.nothing, skip)

/-- What the body of the loop does at an item: a mark is a call like any other. -/
def visit (filt : List CoroutineFilter) (skip : Nat) : Item ι Mark → Option (Plan × Nat)
  | .original i => treat filt skip i
  | .inserted _ => treatCall filt costatusChange skip

/-! ## The loop -/

/-- Phi nodes and landing pads stand at the beginning of a block. -/
def isPad : Item ι Mark → Bool
  | .original (.phi _) | .original (.landingPad _) => true
  | _ => false

/-- An insertion at `getFirstInsertionPt`. -/
def insertFirst (m : Mark) (block : List (Item ι Mark)) : List (Item ι Mark) :=
  block.takeWhile isPad ++ .inserted m :: block.dropWhile isPad

/-- The marks of an end of the instruction at `origin`. -/
def endMark (origin : Option (Nat × Nat)) (entry : CoroutineFilter) : Mark := ⟨entry.printName, false, origin⟩

/-- The mark before the instruction at `origin`. -/
def startMark (origin : Option (Nat × Nat)) (entry : CoroutineFilter) : Mark := ⟨entry.printName, true, origin⟩

/-- The iterator stands before `rest`, in the block after `done`. -/
structure Cursor (ι : Type) where
  done : List (List (Item ι Mark))
  before : List (Item ι Mark)
  rest : List (Item ι Mark)
  todo : List (List (Item ι Mark))
  skip : Nat
  deriving DecidableEq

/-- The blocks of the function. -/
def Cursor.blocks (c : Cursor ι) : List (List (Item ι Mark)) := c.done ++ (c.before ++ c.rest) :: c.todo

/-- How the loop ends. -/
inductive Exit (ι : Type) where
  | returned (blocks : List (List (Item ι Mark)))
  | assertFailed
  deriving DecidableEq

/-- Whether the iterator stands at an instruction of the program, and at which. -/
def Cursor.origin (c : Cursor ι) : Item ι Mark → Option (Nat × Nat)
  | .original _ => some (c.done.length, (erase c.before).length)
  | .inserted _ => none

/-- An end mark in the block `d`. The block of the iterator has its first insertion point before the iterator, which is
past an invoke. -/
def Cursor.enter (c : Cursor ι) (m : Mark) (d : Nat) : Cursor ι :=
  if d < c.done.length then { c with done := c.done.modify d (insertFirst m) }
  else if d = c.done.length then { c with before := insertFirst m c.before }
  else { c with todo := c.todo.modify (d - c.done.length - 1) (insertFirst m) }

/-- The calls that are inserted at the item `it` before the iterator, which is then moved past it. -/
def Cursor.insert (c : Cursor ι) (it : Item ι Mark) (rest : List (Item ι Mark)) (plan : Plan) : Cursor ι :=
  let origin := c.origin it
  let c := { c with
    before := c.before ++ ((plan.start.map (startMark origin)).toList.map .inserted ++ [it])
    rest := (plan.finish.map (endMark origin)).toList.map .inserted ++ rest }
  plan.ends.foldl (fun c (d, entry) => c.enter (endMark origin entry) d) c

/-- A pass through the two loops of `InsertYields`. -/
def step (filt : List CoroutineFilter) (c : Cursor ι) : Except (Exit ι) (Cursor ι) :=
  match c.rest, c.todo with
  | [], [] => .error (.returned c.blocks)
  | [], block :: todo => .ok ⟨c.done ++ [c.before], [], block, todo, c.skip⟩
  | it :: rest, _ =>
    match visit filt c.skip it with
    | none => .error .assertFailed
    | some (plan, skip) => .ok { c.insert it rest plan with skip }

/-- Why there is no result. -/
inductive Stop where
  | running
  | assertFailed
  deriving Repr, DecidableEq

/-- `InsertYields`, with fuel for its loops. A declaration has no blocks. -/
def insertYields (filt : List CoroutineFilter) (fuel : Nat) (F : Function ι Mark) : Except Stop (Function ι Mark) :=
  match F.blocks with
  | [] => .ok F
  | block :: todo =>
    match Loop.run (step filt) fuel ⟨[], [], block, todo, 0⟩ with
    | none => .error .running
    | some .assertFailed => .error .assertFailed
    | some (.returned blocks) => .ok { F with blocks }

/-- The body of the loop of `Run`. -/
def runFunction (coFilter : List CoroutineFilter) (fuel : Nat) (F : Function ι Mark) : Except Stop (Function ι Mark) :=
  let filt := applicable coFilter F.name
  if filt.isEmpty then .ok F else insertYields filt fuel F

/-- `Run`, after the constructor has declared `CoroutineStatusChange`. -/
def run (coFilter : List CoroutineFilter) (fuel : Nat) (M : Module ι Mark) : Except Stop (Module ι Mark) := do
  let M := M.getOrInsertFunction costatusChange
  let functions ← M.functions.mapM (runFunction coFilter fuel)
  return { M with functions }

/-! ## What the loop does to the function -/

/-- An instruction of the program that the iterator has come to, by its block and its position in the program's block,
and what is inserted there. -/
structure Visit where
  block : Nat
  position : Nat
  plan : Plan
  deriving Repr, DecidableEq

namespace Visit

/-- The position of the instruction. -/
def origin (v : Visit) : Nat × Nat := (v.block, v.position)

/-- What is inserted before the instruction. -/
def starts (v : Visit) : List (Item ι Mark) := (v.plan.start.map (startMark v.origin)).toList.map .inserted

/-- What is inserted after the instruction. -/
def finishes (v : Visit) : List (Item ι Mark) := (v.plan.finish.map (endMark v.origin)).toList.map .inserted

end Visit

/-- `pre` and `post` around the instruction of the program that has position `n`. -/
def wrapAt (pre post : List (Item ι Mark)) : Nat → List (Item ι Mark) → List (Item ι Mark)
  | _, [] => []
  | n, .inserted m :: block => .inserted m :: wrapAt pre post n block
  | 0, .original i :: block => pre ++ .original i :: (post ++ block)
  | n + 1, .original i :: block => .original i :: wrapAt pre post n block

/-- End marks in the blocks of a function. -/
def enterAll (origin : Option (Nat × Nat)) (ends : List (Nat × CoroutineFilter)) (blocks : List (List (Item ι Mark))) :
    List (List (Item ι Mark)) :=
  ends.foldl (fun blocks (d, entry) => blocks.modify d (insertFirst (endMark origin entry))) blocks

/-- **What a visit does to the function.** -/
def instrument (blocks : List (List (Item ι Mark))) (v : Visit) : List (List (Item ι Mark)) :=
  enterAll v.origin v.plan.ends (blocks.modify v.block (wrapAt v.starts v.finishes v.position))

/-- The visits of the instructions of block `k` from position `n` on, and `skip_insert_points` afterwards; `none` when an
assertion fails. -/
def blockVisits (filt : List CoroutineFilter) (k : Nat) : Nat → Nat → List (Instruction ι) → Option (List Visit × Nat)
  | skip, _, [] => some ([], skip)
  | skip, n, i :: is =>
    (treat filt skip i).bind fun (plan, skip) =>
      (blockVisits filt k skip (n + 1) is).map fun (vs, skip) => (⟨k, n, plan⟩ :: vs, skip)

/-- The visits of the blocks from block `k` on. -/
def visits (filt : List CoroutineFilter) : Nat → Nat → List (List (Instruction ι)) → Option (List Visit)
  | _, _, [] => some []
  | skip, k, block :: blocks =>
    (blockVisits filt k skip 0 block).bind fun (vs, skip) => (visits filt skip (k + 1) blocks).map (vs ++ ·)

/-- The visits from position `n` of block `k` on. -/
def visitsFrom (filt : List CoroutineFilter) (skip k n : Nat) (is : List (Instruction ι))
    (blocks : List (List (Instruction ι))) : Option (List Visit) :=
  (blockVisits filt k skip n is).bind fun (vs, skip) => (visits filt skip (k + 1) blocks).map (vs ++ ·)

/-- No mark that the entries match is put where the iterator has still to come by. -/
def Quiet (filt : List CoroutineFilter) (v : Visit) : Prop :=
  selfMatched filt = true → v.plan.finish = none ∧ ∀ e ∈ v.plan.ends, e.1 ≤ v.block

section Visits

variable {filt : List CoroutineFilter} {skip k n : Nat} {i : Instruction ι} {is : List (Instruction ι)}
  {blocks : List (List (Instruction ι))}

@[simp] theorem visitsFrom_nil : visitsFrom filt skip k n ([] : List (Instruction ι)) [] = some [] := rfl

theorem visitsFrom_block {block : List (Instruction ι)} :
    visitsFrom filt skip k n [] (block :: blocks) = visitsFrom filt skip (k + 1) 0 block blocks := by
  unfold visitsFrom
  simp only [blockVisits, visits, Option.bind_some]
  exact congrFun Option.map_id _

theorem visitsFrom_cons : visitsFrom filt skip k n (i :: is) blocks =
    (treat filt skip i).bind fun (plan, skip) =>
      (visitsFrom filt skip k (n + 1) is blocks).map (⟨k, n, plan⟩ :: ·) := by
  unfold visitsFrom
  cases ht : treat filt skip i with
  | none => simp [blockVisits, ht]
  | some r =>
    obtain ⟨plan, skip'⟩ := r
    cases hb : blockVisits filt k skip' (n + 1) is with
    | none => simp [blockVisits, ht, hb]
    | some r =>
      obtain ⟨vs, skip''⟩ := r
      cases hv : visits filt skip'' (k + 1) blocks <;> simp [blockVisits, ht, hb, hv]

end Visits

/-! ## The cursor and the function -/

section Blocks

variable {c : Cursor ι} {m : Mark} {d : Nat} {i : Instruction ι} {before rest : List (Item ι Mark)}

theorem wrapAt_split (pre post : List (Item ι Mark)) : ∀ before : List (Item ι Mark),
    wrapAt pre post (erase before).length (before ++ .original i :: rest) =
      before ++ (pre ++ .original i :: (post ++ rest))
  | [] => by simp [wrapAt]
  | .inserted m :: before => by simpa [wrapAt] using wrapAt_split pre post before
  | .original j :: before => by simpa [wrapAt] using wrapAt_split pre post before

@[simp] theorem erase_insertFirst (m : Mark) (block : List (Item ι Mark)) : erase (insertFirst m block) = erase block := by
  rw [insertFirst, erase_append, erase_inserted, ← erase_append, List.takeWhile_append_dropWhile]

/-- Behind an instruction that is no pad, an insertion at the first insertion point changes nothing. -/
theorem insertFirst_append (h : ∃ it ∈ before, isPad it = false) :
    insertFirst m (before ++ rest) = insertFirst m before ++ rest := by
  induction before with
  | nil =>
    obtain ⟨_, h, _⟩ := h
    cases h
  | cons it before ih =>
    cases hp : isPad it with
    | false => simp [insertFirst, hp]
    | true =>
      have hb : ∃ it ∈ before, isPad it = false := by
        obtain ⟨jt, hj, hf⟩ := h
        obtain rfl | hj := List.mem_cons.1 hj
        · rw [hp] at hf
          cases hf
        · exact ⟨jt, hj, hf⟩
      simpa [insertFirst, hp] using ih hb

/-- The iterator is past an instruction that is no pad. -/
def Cursor.Past (c : Cursor ι) : Prop := ∃ it ∈ c.before, isPad it = false

theorem mem_insertFirst {it : Item ι Mark} {block : List (Item ι Mark)} :
    it ∈ insertFirst m block ↔ it = .inserted m ∨ it ∈ block := by
  have hsplit : it ∈ block ↔ it ∈ block.takeWhile isPad ∨ it ∈ block.dropWhile isPad := by
    rw [← List.mem_append, List.takeWhile_append_dropWhile]
  rw [hsplit, insertFirst, List.mem_append, List.mem_cons]
  tauto

theorem Cursor.enter_done_length : (c.enter m d).done.length = c.done.length := by
  unfold Cursor.enter
  split
  · simp
  · split <;> rfl

theorem Cursor.enter_rest : (c.enter m d).rest = c.rest := by
  unfold Cursor.enter
  split
  · rfl
  · split <;> rfl

theorem Cursor.erase_enter_before : erase (c.enter m d).before = erase c.before := by
  unfold Cursor.enter
  split
  · rfl
  · split
    · exact erase_insertFirst m c.before
    · rfl

theorem map_erase_modify (blocks : List (List (Item ι Mark))) (d : Nat) :
    (blocks.modify d (insertFirst m)).map erase = blocks.map erase := by
  refine List.ext_getElem? fun j => ?_
  rw [List.getElem?_map, List.getElem?_map, List.getElem?_modify]
  cases blocks[j]? with
  | none => rfl
  | some b =>
    simp only [Option.map_some]
    split <;> simp

theorem Cursor.erase_enter_todo : (c.enter m d).todo.map erase = c.todo.map erase := by
  unfold Cursor.enter
  split
  · rfl
  · split
    · rfl
    · exact map_erase_modify c.todo _

theorem Cursor.Past.enter (h : c.Past) : (c.enter m d).Past := by
  unfold Cursor.enter
  split
  · exact h
  · split
    · obtain ⟨it, hit, hp⟩ := h
      exact ⟨it, mem_insertFirst.2 (.inr hit), hp⟩
    · exact h

/-- A modification of a list, by the part that it falls into. -/
theorem modify_append_cons {α : Type} (f : α → α) (a : α) (l₂ : List α) : ∀ (l₁ : List α) (d : Nat),
    (l₁ ++ a :: l₂).modify d f =
      if d < l₁.length then l₁.modify d f ++ a :: l₂
      else if d = l₁.length then l₁ ++ f a :: l₂
      else l₁ ++ a :: l₂.modify (d - l₁.length - 1) f
  | [], 0 => rfl
  | [], d + 1 => by simp
  | b :: l₁, 0 => by simp
  | b :: l₁, d + 1 => by
    have ih := modify_append_cons f a l₂ l₁ d
    simp only [List.cons_append, List.modify_succ_cons, List.length_cons, ih, Nat.add_lt_add_iff_right,
      Nat.add_right_cancel_iff, Nat.add_sub_add_right]
    split
    · rfl
    · split <;> rfl

/-- An end mark goes into the block of the function that it is for. -/
theorem Cursor.enter_blocks (h : c.Past) : (c.enter m d).blocks = c.blocks.modify d (insertFirst m) := by
  rw [Cursor.blocks, Cursor.blocks, modify_append_cons, insertFirst_append h, Cursor.enter]
  split
  · rfl
  · split <;> rfl

end Blocks

section Insert

variable {filt : List CoroutineFilter} {c c' : Cursor ι} {i : Instruction ι} {it : Item ι Mark} {plan : Plan}
  {rest : List (Item ι Mark)} {ends : List (Nat × CoroutineFilter)} {origin : Option (Nat × Nat)} {skip skip' : Nat}

/-- The end marks of an instruction, in their blocks. -/
def Cursor.enters (c : Cursor ι) (origin : Option (Nat × Nat)) (ends : List (Nat × CoroutineFilter)) : Cursor ι :=
  ends.foldl (fun c (d, entry) => c.enter (endMark origin entry) d) c

theorem Cursor.enters_done_length : (c.enters origin ends).done.length = c.done.length := by
  induction ends generalizing c with
  | nil => rfl
  | cons e ends ih => exact (ih (c := c.enter _ e.1)).trans enter_done_length

theorem Cursor.enters_rest : (c.enters origin ends).rest = c.rest := by
  induction ends generalizing c with
  | nil => rfl
  | cons e ends ih => exact (ih (c := c.enter _ e.1)).trans enter_rest

theorem Cursor.erase_enters_before : erase (c.enters origin ends).before = erase c.before := by
  induction ends generalizing c with
  | nil => rfl
  | cons e ends ih => exact (ih (c := c.enter _ e.1)).trans erase_enter_before

theorem Cursor.erase_enters_todo : (c.enters origin ends).todo.map erase = c.todo.map erase := by
  induction ends generalizing c with
  | nil => rfl
  | cons e ends ih => exact (ih (c := c.enter _ e.1)).trans erase_enter_todo

theorem Cursor.enters_blocks (h : c.Past) : (c.enters origin ends).blocks = enterAll origin ends c.blocks := by
  induction ends generalizing c with
  | nil => rfl
  | cons e ends ih =>
    have he := enter_blocks h (m := endMark origin e.2) (d := e.1)
    refine (ih (c := c.enter _ e.1) h.enter).trans ?_
    rw [he]
    rfl

/-- End marks for the blocks up to that of the iterator leave those after it alone. -/
theorem Cursor.enters_todo (h : ∀ e ∈ ends, e.1 ≤ c.done.length) : (c.enters origin ends).todo = c.todo := by
  induction ends generalizing c with
  | nil => rfl
  | cons e ends ih =>
    have he := h e List.mem_cons_self
    have hone : (c.enter (endMark origin e.2) e.1).todo = c.todo := by
      unfold Cursor.enter
      split
      · rfl
      · rw [if_pos (by omega)]
    refine (ih fun e' he' => ?_).trans hone
    rw [enter_done_length]
    exact h e' (List.mem_cons_of_mem _ he')

/-- What the iterator has passed, behind the mark for the instruction `it` and with `it`. -/
def Cursor.passed (c : Cursor ι) (it : Item ι Mark) (rest : List (Item ι Mark)) (plan : Plan) : Cursor ι :=
  { c with
    before := c.before ++ ((plan.start.map (startMark (c.origin it))).toList.map .inserted ++ [it])
    rest := (plan.finish.map (endMark (c.origin it))).toList.map .inserted ++ rest }

theorem Cursor.insert_eq : c.insert it rest plan = (c.passed it rest plan).enters (c.origin it) plan.ends := rfl

theorem erase_marks (ms : List Mark) : erase (ms.map .inserted : List (Item ι Mark)) = [] := by
  induction ms with
  | nil => rfl
  | cons m ms ih => exact ih

theorem Cursor.insert_done_length : (c.insert it rest plan).done.length = c.done.length := by
  rw [insert_eq, enters_done_length]
  rfl

theorem Cursor.insert_rest :
    (c.insert it rest plan).rest = (plan.finish.map (endMark (c.origin it))).toList.map .inserted ++ rest := by
  rw [insert_eq, enters_rest]
  rfl

theorem Cursor.erase_insert_rest : erase (c.insert it rest plan).rest = erase rest := by
  rw [insert_rest, erase_append, erase_marks, List.nil_append]

theorem Cursor.erase_insert_before : erase (c.insert (.original i) rest plan).before = erase c.before ++ [i] := by
  rw [insert_eq, erase_enters_before, passed, erase_append, erase_append, erase_marks, List.nil_append]
  rfl

theorem Cursor.erase_insert_todo : (c.insert it rest plan).todo.map erase = c.todo.map erase := by
  rw [insert_eq, erase_enters_todo]
  rfl

/-- **A pass at an instruction of the program** does to the function what its visit does. -/
theorem Cursor.insert_blocks (hrest : c.rest = .original i :: rest)
    (hpad : plan.ends ≠ [] → isPad (.original i : Item ι Mark) = false) :
    (c.insert (.original i) rest plan).blocks = instrument c.blocks ⟨c.done.length, (erase c.before).length, plan⟩ := by
  have hpassed : (c.passed (.original i) rest plan).blocks = c.blocks.modify c.done.length
      (wrapAt (Visit.starts ⟨c.done.length, (erase c.before).length, plan⟩)
        (Visit.finishes ⟨c.done.length, (erase c.before).length, plan⟩) (erase c.before).length) := by
    rw [Cursor.blocks, Cursor.blocks, modify_append_cons, if_neg (by omega), if_pos rfl, hrest, wrapAt_split]
    simp [passed, Visit.starts, Visit.finishes, Cursor.origin, Visit.origin]
  rw [insert_eq, instrument]
  by_cases hends : plan.ends = []
  · rw [hends]
    exact hpassed
  · have hpast : (c.passed (.original i) rest plan).Past := ⟨.original i, by simp [passed], hpad hends⟩
    rw [enters_blocks hpast, hpassed]
    rfl

/-! ## Marks ahead of the iterator -/

/-- There is a mark that the iterator has still to come by. -/
def Cursor.Ahead (c : Cursor ι) : Prop :=
  (∃ m, .inserted m ∈ c.rest) ∨ ∃ b ∈ c.todo, ∃ m, .inserted m ∈ b

theorem ahead_modify {blocks : List (List (Item ι Mark))} {m : Mark} {d : Nat} (h : ∃ b ∈ blocks, ∃ m, .inserted m ∈ b) :
    ∃ b ∈ blocks.modify d (insertFirst m), ∃ m, .inserted m ∈ b := by
  obtain ⟨b, hb, m', hm⟩ := h
  obtain ⟨j, hj⟩ := List.mem_iff_getElem?.1 hb
  by_cases hdj : d = j
  · refine ⟨insertFirst m b, List.mem_iff_getElem?.2 ⟨j, ?_⟩, m, mem_insertFirst.2 (.inl rfl)⟩
    simp [hj, hdj]
  · refine ⟨b, List.mem_iff_getElem?.2 ⟨j, ?_⟩, m', hm⟩
    simp [hj, hdj]

theorem Cursor.Ahead.enter {m : Mark} {d : Nat} (h : c.Ahead) : (c.enter m d).Ahead := by
  unfold Cursor.enter
  split
  · exact h
  · split
    · exact h
    · exact h.imp_right ahead_modify

theorem Cursor.Ahead.enters (h : c.Ahead) : (c.enters origin ends).Ahead := by
  induction ends generalizing c with
  | nil => exact h
  | cons e ends ih => exact ih h.enter

/-- An end mark for a later block is ahead. -/
theorem Cursor.ahead_enters {e : Nat × CoroutineFilter} (he : e ∈ ends) (hlt : c.done.length < e.1)
    (hrange : e.1 < c.done.length + 1 + c.todo.length) : (c.enters origin ends).Ahead := by
  induction ends generalizing c with
  | nil => cases he
  | cons e' ends ih =>
    obtain rfl | he := List.mem_cons.1 he
    · show ((c.enter (endMark origin e.2) e.1).enters origin ends).Ahead
      refine Ahead.enters (.inr ?_)
      obtain ⟨b, hb⟩ : ∃ b, c.todo[e.1 - c.done.length - 1]? = some b :=
        ⟨_, List.getElem?_eq_getElem (by omega)⟩
      unfold Cursor.enter
      rw [if_neg (by omega), if_neg (by omega)]
      refine ⟨insertFirst (endMark origin e.2) b, List.mem_iff_getElem?.2 ⟨e.1 - c.done.length - 1, ?_⟩, _,
        mem_insertFirst.2 (.inl rfl)⟩
      simp [hb]
    · refine ih he (by rwa [enter_done_length]) ?_
      have hlen : (c.enter (endMark origin e'.2) e'.1).todo.length = c.todo.length := by
        simpa using congrArg List.length (erase_enter_todo (c := c) (m := endMark origin e'.2) (d := e'.1))
      rwa [enter_done_length, hlen]

/-- A mark that no entry matches is passed over. -/
theorem treatCall_costatusChange (h : selfMatched filt = false) :
    treatCall filt costatusChange skip = some (.nothing, skip) := by
  have hnone : front filt costatusChange = none := by simpa [selfMatched] using h
  have hinitial : find coInitialSuspend.toList costatusChange.toList = none := by decide
  have hfinal : find coFinalSuspend.toList costatusChange.toList = none := by decide
  have hstart : find coExprStart.toList costatusChange.toList = none := by decide
  have hend : find coExprEnd.toList costatusChange.toList = none := by decide
  simp only [treatCall, hnone, treatAwait, hinitial, hfinal, hstart, hend]

/-- A mark that an entry matches gets marks itself. -/
theorem treatCall_selfMatched (h : selfMatched filt = true) (skip : Nat) :
    ∃ entry, treatCall filt costatusChange skip = some (⟨some entry, some entry, []⟩, skip) := by
  obtain ⟨entry, hentry⟩ := Option.isSome_iff_exists.1 h
  exact ⟨entry, by simp only [treatCall, hentry]⟩

/-- Only an invoke has ends in other blocks. -/
theorem isPad_of_treat (h : treat filt skip i = some (plan, skip')) (hends : plan.ends ≠ []) :
    isPad (.original i : Item ι Mark) = false := by
  cases i with
  | phi data =>
    cases h
    exact absurd rfl hends
  | landingPad data =>
    cases h
    exact absurd rfl hends
  | _ => rfl

/-- With entries that match marks, a mark ahead of the iterator stays ahead of it or is replaced by another. -/
theorem Cursor.Ahead.step (hself : selfMatched filt = true) (h : c.Ahead) (hstep : step filt c = .ok c') : c'.Ahead := by
  unfold CoYield.step at hstep
  split at hstep
  next => cases hstep
  next block todo hrest htodo =>
    cases hstep
    obtain ⟨m, hm⟩ | ⟨b, hb, hm⟩ := h
    · rw [hrest] at hm
      cases hm
    · rw [htodo] at hb
      obtain rfl | hb := List.mem_cons.1 hb
      · exact .inl hm
      · exact .inr ⟨b, hb, hm⟩
  next it rest hrest =>
    split at hstep
    next => cases hstep
    next plan skip hvisit =>
      cases hstep
      show (c.insert it rest plan).Ahead
      rw [insert_eq]
      refine Ahead.enters ?_
      obtain ⟨m, hm⟩ | htodo := h
      · rw [hrest] at hm
        obtain rfl | hm := List.mem_cons.1 hm
        · obtain ⟨entry, hentry⟩ := treatCall_selfMatched hself c.skip
          obtain ⟨rfl, -⟩ : plan = ⟨some entry, some entry, []⟩ ∧ _ :=
            Prod.ext_iff.1 (Option.some.inj (hvisit.symm.trans hentry))
          exact .inl ⟨_, List.mem_cons_self⟩
        · exact .inl ⟨m, List.mem_append_right _ hm⟩
      · exact .inr htodo

/-- With entries that match marks, the loop does not return once there is a mark ahead of the iterator. -/
theorem Cursor.Ahead.not_returned (hself : selfMatched filt = true) (h : c.Ahead) {blocks : List (List (Item ι Mark))} :
    ¬ Loop.Ends (CoYield.step filt) c (.returned blocks) := by
  rintro ⟨c', hr, he⟩
  have hahead : c'.Ahead := hr.keeps (fun _ _ => Ahead.step hself) h
  unfold CoYield.step at he
  split at he
  next hrest htodo =>
    obtain ⟨m, hm⟩ | ⟨b, hb, _⟩ := hahead
    · rw [hrest] at hm
      cases hm
    · rw [htodo] at hb
      cases hb
  next => cases he
  next => split at he <;> cases he

end Insert

/-! ## When the loop returns -/

section Returns

variable {filt : List CoroutineFilter} {c : Cursor ι} {i : Instruction ι} {plan : Plan} {rest : List (Item ι Mark)}
  {skip : Nat} {out : List (List (Item ι Mark))}

theorem treatCall_ends {coName : String} {skip' : Nat} (h : treatCall filt coName skip = some (plan, skip')) :
    plan.ends = [] := by
  unfold treatCall treatAwait at h
  grind [Plan.nothing]

theorem treat_ends {skip' : Nat} (h : treat filt skip i = some (plan, skip')) {e : Nat × CoroutineFilter}
    (he : e ∈ plan.ends) : e.1 ∈ i.destinations := by
  cases i with
  | call callee data =>
    cases callee with
    | none =>
      cases h
      cases he
    | some coName =>
      rw [treatCall_ends h] at he
      cases he
  | invoke callee normalDest unwindDest data =>
    cases callee with
    | none =>
      cases h
      cases he
    | some coName =>
      simp only [treat] at h
      split at h
      · cases h
        simp only [List.mem_cons, List.not_mem_nil, or_false] at he
        obtain rfl | rfl := he <;> simp [Instruction.destinations]
      · cases h
        cases he
  | _ =>
    cases h
    cases he

/-- The marks that stand before the next instruction of the program. -/
theorem exists_marks : ∀ rest : List (Item ι Mark), ∃ (ms : List Mark) (rest' : List (Item ι Mark)),
    rest = ms.map .inserted ++ rest' ∧ (rest' = [] ∨ ∃ i r, rest' = .original i :: r)
  | [] => ⟨[], [], rfl, .inl rfl⟩
  | .original i :: rest => ⟨[], .original i :: rest, rfl, .inr ⟨i, rest, rfl⟩⟩
  | .inserted m :: rest => by
    obtain ⟨ms, rest', rfl, h⟩ := exists_marks rest
    exact ⟨m :: ms, rest', rfl, h⟩

/-- The iterator passes over marks that no entry matches. -/
theorem pass_marks (hself : selfMatched filt = false) {exit : Exit ι} : ∀ (ms : List Mark) (c : Cursor ι),
    c.rest = ms.map .inserted ++ rest →
    (Loop.Ends (step filt) c exit ↔
      Loop.Ends (step filt) { c with before := c.before ++ ms.map .inserted, rest } exit)
  | [], c, hrest => by
    obtain ⟨done, before, rest', todo, skip⟩ := c
    obtain rfl : rest' = rest := hrest
    simp
  | m :: ms, c, hrest => by
    have hpass : step filt c =
        .ok { c with before := c.before ++ [.inserted m], rest := ms.map .inserted ++ rest } := by
      unfold step
      rw [hrest]
      simp only [List.map_cons, List.cons_append, visit, treatCall_costatusChange hself]
      rfl
    rw [Loop.ends_pass_iff hpass, pass_marks hself ms _ rfl]
    simp

/-- The iterator comes to the next instruction of the program, or to the end of the block. -/
theorem exists_at_instruction (hclear : selfMatched filt = true → ¬ c.Ahead) :
    ∃ c' : Cursor ι, (∀ exit, Loop.Ends (step filt) c exit ↔ Loop.Ends (step filt) c' exit) ∧
      c'.done = c.done ∧ c'.todo = c.todo ∧ c'.skip = c.skip ∧ erase c'.before = erase c.before ∧
      erase c'.rest = erase c.rest ∧ c'.blocks = c.blocks ∧ (selfMatched filt = true → ¬ c'.Ahead) ∧
      (c'.rest = [] ∨ ∃ i r, c'.rest = .original i :: r) := by
  obtain ⟨ms, rest, hrest, hr⟩ := exists_marks c.rest
  cases hself : selfMatched filt with
  | false =>
    refine ⟨{ c with before := c.before ++ ms.map .inserted, rest }, fun _ => pass_marks hself ms c hrest, rfl, rfl, rfl,
      ?_, ?_, ?_, ?_, hr⟩
    · rw [erase_append, erase_marks, List.append_nil]
    · rw [hrest, erase_append, erase_marks, List.nil_append]
    · rw [Cursor.blocks, Cursor.blocks, hrest, List.append_assoc]
    · intro h
      cases h
  | true =>
    cases ms with
    | nil => exact ⟨c, fun _ => Iff.rfl, rfl, rfl, rfl, rfl, rfl, rfl, fun _ => hclear hself, by rwa [hrest]⟩
    | cons m ms =>
      refine absurd (.inl ⟨m, ?_⟩) (hclear hself)
      rw [hrest]
      exact List.mem_cons_self

/-- A visit that is not quiet puts a mark ahead of the iterator. -/
theorem ahead_of_not_quiet (i : Instruction ι) (rest : List (Item ι Mark))
    (hends : ∀ e ∈ plan.ends, e.1 < c.done.length + 1 + c.todo.length)
    (hquiet : ¬ Quiet filt ⟨c.done.length, (erase c.before).length, plan⟩) :
    selfMatched filt = true ∧ (c.insert (.original i) rest plan).Ahead := by
  unfold Quiet at hquiet
  push Not at hquiet
  obtain ⟨hself, hquiet⟩ := hquiet
  refine ⟨hself, ?_⟩
  rw [Cursor.insert_eq]
  cases hfinish : plan.finish with
  | some entry =>
    refine Cursor.Ahead.enters (.inl ⟨endMark (c.origin (.original i)) entry, ?_⟩)
    simp [Cursor.passed, hfinish]
  | none =>
    obtain ⟨e, he, hlt⟩ := hquiet hfinish
    exact Cursor.ahead_enters he (show c.done.length < e.1 by simpa using hlt) (hends e he)

/-- A quiet visit puts no mark ahead of the iterator. -/
theorem not_ahead_of_quiet (hrest : c.rest = .original i :: rest) (hself : selfMatched filt = true) (hclear : ¬ c.Ahead)
    (hquiet : Quiet filt ⟨c.done.length, (erase c.before).length, plan⟩) :
    ¬ (c.insert (.original i) rest plan).Ahead := by
  obtain ⟨hfinish, hends⟩ := hquiet hself
  have htodo : (c.insert (.original i) rest plan).todo = c.todo := Cursor.enters_todo hends
  have hrest' : (c.insert (.original i) rest plan).rest = rest := by
    rw [Cursor.insert_rest, show plan.finish = none from hfinish]
    rfl
  rintro (⟨m, hm⟩ | ⟨b, hb, hm⟩)
  · rw [hrest'] at hm
    refine hclear (.inl ⟨m, ?_⟩)
    rw [hrest]
    exact List.mem_cons_of_mem _ hm
  · rw [htodo] at hb
    exact hclear (.inr ⟨b, hb, hm⟩)

/-- **The loop from any position on**: it returns when no assertion fails at the visits that are still to come and none
of them puts a mark that the entries match ahead of the iterator. -/
theorem ends_iff : ∀ (bs : List (List (Instruction ι))) (is : List (Instruction ι)) (c : Cursor ι),
    erase c.rest = is → c.todo.map erase = bs → (selfMatched filt = true → ¬ c.Ahead) →
    (∀ b ∈ is :: bs, ∀ i ∈ b, ∀ d ∈ i.destinations, d < c.done.length + 1 + bs.length) →
    (Loop.Ends (step filt) c (.returned out) ↔
      ∃ vs, visitsFrom filt c.skip c.done.length (erase c.before).length is bs = some vs ∧ (∀ v ∈ vs, Quiet filt v) ∧
        out = vs.foldl instrument c.blocks)
  | [], [], c, his, hbs, hclear, _ => by
    obtain ⟨c', hends, -, htodo, -, -, hrest, hblocks, -, hat⟩ := exists_at_instruction hclear
    have hnil : c'.rest = [] := by
      refine hat.resolve_right ?_
      rintro ⟨i, r, hr⟩
      rw [hr, his] at hrest
      cases hrest
    have hstep : step filt c' = .error (.returned c'.blocks) := by
      rw [List.map_eq_nil_iff.1 hbs] at htodo
      unfold step
      rw [hnil, htodo]
    rw [hends, Loop.ends_exit_iff hstep]
    simp [hblocks, eq_comm]
  | b :: bs, [], c, his, hbs, hclear, hrange => by
    obtain ⟨c', hends, hdone, htodo, hskip, -, hrest, hblocks, hclear', hat⟩ := exists_at_instruction hclear
    have hnil : c'.rest = [] := by
      refine hat.resolve_right ?_
      rintro ⟨i, r, hr⟩
      rw [hr, his] at hrest
      cases hrest
    obtain ⟨block, todo, hct, rfl, rfl⟩ : ∃ block todo, c.todo = block :: todo ∧ erase block = b ∧ todo.map erase = bs :=
      List.map_eq_cons_iff.1 hbs
    have hct' := htodo.trans hct
    have hstep : step filt c' = .ok ⟨c'.done ++ [c'.before], [], block, todo, c'.skip⟩ := by
      unfold step
      rw [hnil, hct']
    rw [hends, Loop.ends_pass_iff hstep, visitsFrom_block]
    have ih := ends_iff (todo.map erase) (erase block) ⟨c'.done ++ [c'.before], [], block, todo, c'.skip⟩ rfl rfl
      (fun hself hahead => hclear' hself (.inr ?_)) ?_
    · rw [ih]
      have hb : (⟨c'.done ++ [c'.before], [], block, todo, c'.skip⟩ : Cursor ι).blocks = c.blocks := by
        rw [← hblocks, Cursor.blocks, Cursor.blocks, hnil, hct']
        simp
      rw [hb, hskip]
      simp [hdone]
    · rw [hct']
      obtain ⟨m, hm⟩ | ⟨b', hb', hm⟩ := hahead
      · exact ⟨block, List.mem_cons_self, m, hm⟩
      · exact ⟨b', List.mem_cons_of_mem _ hb', hm⟩
    · intro b' hb' i hi d hd
      have h := hrange b' (List.mem_cons_of_mem _ hb') i hi d hd
      simp only [List.length_cons] at h
      simp only [hdone, List.length_append, List.length_cons, List.length_nil]
      omega
  | bs, i :: is, c, his, hbs, hclear, hrange => by
    obtain ⟨c', hends, hdone, htodo, hskip, hbefore, hrest, hblocks, hclear', hat⟩ := exists_at_instruction hclear
    obtain ⟨r, hr, rfl⟩ : ∃ r, c'.rest = .original i :: r ∧ erase r = is := by
      rw [his] at hrest
      obtain hnil | ⟨j, r, hr⟩ := hat
      · rw [hnil] at hrest
        cases hrest
      · rw [hr, erase_original] at hrest
        obtain ⟨rfl, rfl⟩ := List.cons.inj hrest
        exact ⟨r, hr, rfl⟩
    rw [hends, visitsFrom_cons, ← hskip, ← hdone, ← hbefore]
    cases htreat : treat filt c'.skip i with
    | none =>
      have hstep : step filt c' = .error .assertFailed := by
        unfold step
        rw [hr]
        simp only [visit, htreat]
      rw [Loop.ends_exit_iff hstep]
      simp
    | some p =>
      obtain ⟨plan, skip'⟩ := p
      have hstep : step filt c' = .ok { c'.insert (.original i) r plan with skip := skip' } := by
        unfold step
        rw [hr]
        simp only [visit, htreat]
      have hlen : c'.todo.length = bs.length := by rw [htodo, ← hbs, List.length_map]
      have hplan : ∀ e ∈ plan.ends, e.1 < c'.done.length + 1 + c'.todo.length := by
        intro e he
        rw [hdone, hlen]
        exact hrange _ List.mem_cons_self i List.mem_cons_self e.1 (treat_ends htreat he)
      rw [Loop.ends_pass_iff hstep]
      by_cases hquiet : Quiet filt ⟨c'.done.length, (erase c'.before).length, plan⟩
      · have ih := ends_iff bs (erase r) { c'.insert (.original i) r plan with skip := skip' }
          Cursor.erase_insert_rest ((Cursor.erase_insert_todo).trans (htodo ▸ hbs))
          (fun hself => not_ahead_of_quiet hr hself (hclear' hself) hquiet) ?_
        · have hinsert : ({ c'.insert (.original i) r plan with skip := skip' } : Cursor ι).blocks = _ :=
            Cursor.insert_blocks hr (isPad_of_treat htreat)
          have hpos : (erase (c'.insert (.original i) r plan).before).length = (erase c'.before).length + 1 := by
            rw [Cursor.erase_insert_before, List.length_append, List.length_singleton]
          rw [ih, hinsert, hblocks]
          simp only [Cursor.insert_done_length, hpos, Option.bind_some, Option.map_eq_some_iff]
          constructor
          · rintro ⟨vs, hvs, hall, rfl⟩
            exact ⟨_, ⟨vs, hvs, rfl⟩, List.forall_mem_cons.2 ⟨hquiet, hall⟩, rfl⟩
          · rintro ⟨_, ⟨vs, hvs, rfl⟩, hall, rfl⟩
            exact ⟨vs, hvs, (List.forall_mem_cons.1 hall).2, rfl⟩
        · simp only [Cursor.insert_done_length, hdone]
          intro b hb j hj
          obtain rfl | hb := List.mem_cons.1 hb
          · exact hrange _ List.mem_cons_self j (List.mem_cons_of_mem _ hj)
          · exact hrange b (List.mem_cons_of_mem _ hb) j hj
      · obtain ⟨hself, hahead⟩ := ahead_of_not_quiet i r hplan hquiet
        have hnot : ¬ Loop.Ends (step filt) { c'.insert (.original i) r plan with skip := skip' } (.returned out) :=
          Cursor.Ahead.not_returned (c := { c'.insert (.original i) r plan with skip := skip' }) hself hahead
        refine iff_of_false hnot ?_
        rintro ⟨vs, hvs, hall, -⟩
        simp only [Option.bind_some, Option.map_eq_some_iff] at hvs
        obtain ⟨vs, -, rfl⟩ := hvs
        exact hquiet (hall _ List.mem_cons_self)

/-- **When `InsertYields` returns**: no assertion fails, and no mark that the entries match is put ahead of the
iterator. -/
def Markable (filt : List CoroutineFilter) (blocks : List (List (Instruction ι))) : Prop :=
  ∃ vs, visits filt 0 0 blocks = some vs ∧ ∀ v ∈ vs, Quiet filt v

theorem destinations_subset {d : Nat} (h : d ∈ i.destinations) : d ∈ i.successors := by
  cases i with
  | invoke => exact h
  | _ => cases h

variable {F F' : Function ι Mark}

/-- `InsertYields` on a function, with enough fuel. -/
theorem insertYields_ok_iff (hF : F.WellFormed) : (∃ fuel, insertYields filt fuel F = .ok F') ↔
    ∃ vs, visits filt 0 0 (F.blocks.map erase) = some vs ∧ (∀ v ∈ vs, Quiet filt v) ∧
      F' = { F with blocks := vs.foldl instrument F.blocks } := by
  obtain ⟨name, blocks⟩ := F
  cases blocks with
  | nil =>
    constructor
    · rintro ⟨fuel, h⟩
      cases h
      exact ⟨[], rfl, by simp, rfl⟩
    · rintro ⟨vs, hvs, -, rfl⟩
      obtain rfl : [] = vs := Option.some.inj hvs
      exact ⟨0, rfl⟩
  | cons block todo =>
    have hclear : ¬ (⟨[], [], block, todo, 0⟩ : Cursor ι).Ahead := by
      rintro (⟨m, hm⟩ | ⟨b, hb, m, hm⟩)
      · exact hF.original block List.mem_cons_self m hm
      · exact hF.original b (List.mem_cons_of_mem _ hb) m hm
    have hrange : ∀ b ∈ erase block :: todo.map erase, ∀ i ∈ b, ∀ d ∈ i.destinations,
        d < ([] : List (List (Item ι Mark))).length + 1 + (todo.map erase).length := by
      intro b hb i hi d hd
      obtain ⟨b, hmem, rfl⟩ := List.mem_map.1 (show b ∈ (block :: todo).map erase from hb)
      have := (hF.targets b hmem i hi d (destinations_subset hd)).2
      simp only [List.length_cons] at this
      simp only [List.length_map, List.length_nil]
      omega
    have hends : ∀ out, Loop.Ends (step filt) ⟨[], [], block, todo, 0⟩ (.returned out) ↔ _ := fun out =>
      ends_iff (todo.map erase) (erase block) ⟨[], [], block, todo, 0⟩ rfl rfl (fun _ => hclear) hrange
    constructor
    · rintro ⟨fuel, h⟩
      simp only [insertYields] at h
      split at h
      next => cases h
      next => cases h
      next out hrun =>
        cases h
        obtain ⟨vs, hvs, hall, rfl⟩ := (hends out).1 (.of_run hrun)
        exact ⟨vs, hvs, hall, rfl⟩
    · rintro ⟨vs, hvs, hall, rfl⟩
      obtain ⟨fuel, hfuel⟩ := ((hends _).2 ⟨vs, hvs, hall, rfl⟩).run
      refine ⟨fuel, ?_⟩
      unfold insertYields
      simp only [hfuel fuel (Nat.le_refl fuel)]
      rfl

end Returns

end Ltest.Codegen.CoYield
