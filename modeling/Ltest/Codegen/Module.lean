import Mathlib.Tactic.Common

/-!
# Modules (`yieldpass.cpp`, `coyieldpass.cpp`)

What the two passes see of an LLVM module: functions made of blocks of instructions, the names of called functions, the
targets of branches, and the annotations. Everything else that an instruction says is its `data`. An `Item` of a block is
an instruction of the program or one that a pass has inserted, so that what was inserted can be told apart afterwards; the
passes do not look at that.
-/

namespace Ltest.Codegen

variable {ι μ : Type}

/-- An instruction. The callee is the demangled name of a function that is called directly; blocks are referred to by
their positions in the function. -/
inductive Instruction (ι : Type) where
  | load (data : ι)
  | store (data : ι)
  | atomicRMW (data : ι)
  | call (callee : Option String) (data : ι)
  | invoke (callee : Option String) (normalDest unwindDest : Nat) (data : ι)
  | phi (data : ι)
  | landingPad (data : ι)
  | terminator (successors : List Nat) (data : ι)
  | other (data : ι)
  deriving Repr, DecidableEq

/-- An instruction of the program, or a call that was inserted. -/
inductive Item (ι μ : Type) where
  | original (i : Instruction ι)
  | inserted (mark : μ)
  deriving Repr, DecidableEq

/-- The instruction of the program. -/
def Item.instruction : Item ι μ → Option (Instruction ι)
  | .original i => some i
  | .inserted _ => none

/-- A block without the calls that were inserted. -/
def erase (block : List (Item ι μ)) : List (Instruction ι) := block.filterMap Item.instruction

structure Function (ι μ : Type) where
  name : String
  blocks : List (List (Item ι μ))
  deriving DecidableEq

/-- A global variable; for `llvm.global.annotations` the functions and the strings of its entries. -/
structure GlobalVariable where
  name : String
  annotations : List (String × String)
  deriving DecidableEq

structure Module (ι μ : Type) where
  globals : List GlobalVariable
  functions : List (Function ι μ)
  deriving DecidableEq

/-- The function that an instruction calls. -/
def Instruction.callee : Instruction ι → Option String
  | .call callee _ | .invoke callee _ _ _ => callee
  | _ => none

/-- An invoke is a terminator, too. -/
def Instruction.isTerminator : Instruction ι → Bool
  | .invoke .. | .terminator .. => true
  | _ => false

/-- The destinations of an invoke. -/
def Instruction.destinations : Instruction ι → List Nat
  | .invoke _ normalDest unwindDest _ => [normalDest, unwindDest]
  | _ => []

/-- The blocks that may follow an instruction that ends a block. -/
def Instruction.successors : Instruction ι → List Nat
  | .invoke _ normalDest unwindDest _ => [normalDest, unwindDest]
  | .terminator successors _ => successors
  | _ => []

/-- The function as a pass finds it: what the verifier of LLVM asks of a function, as far as it can be said here. -/
structure Function.WellFormed (F : Function ι μ) : Prop where
  /-- Nothing is inserted yet. -/
  original : ∀ b ∈ F.blocks, ∀ m, .inserted m ∉ b
  /-- A block has one terminator, at its end. -/
  terminated : ∀ b ∈ F.blocks, ∃ body t, erase b = body ++ [t] ∧ t.isTerminator = true ∧
    ∀ i ∈ body, i.isTerminator = false
  /-- The targets are blocks of the function, and not the entry block. -/
  targets : ∀ b ∈ F.blocks, ∀ i ∈ erase b, ∀ d ∈ i.successors, 0 < d ∧ d < F.blocks.length
  /-- A landing pad is only entered by unwinding. -/
  unwinding : ∀ b ∈ F.blocks, ∀ i ∈ erase b, i.destinations.Nodup

/-- `getOrInsertFunction`: a function that is not there yet is declared. -/
def Module.getOrInsertFunction (M : Module ι μ) (name : String) : Module ι μ :=
  if M.functions.any (·.name == name) then M else { M with functions := M.functions ++ [⟨name, []⟩] }

/-! ## Erasing -/

@[simp] theorem erase_nil : erase ([] : List (Item ι μ)) = [] := rfl

@[simp] theorem erase_original (i : Instruction ι) (block : List (Item ι μ)) :
    erase (.original i :: block) = i :: erase block := rfl

@[simp] theorem erase_inserted (m : μ) (block : List (Item ι μ)) : erase (.inserted m :: block) = erase block := rfl

theorem erase_append (b b' : List (Item ι μ)) : erase (b ++ b') = erase b ++ erase b' := List.filterMap_append

end Ltest.Codegen
