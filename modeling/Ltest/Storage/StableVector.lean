import Mathlib.Algebra.Ring.Nat
import Mathlib.Data.List.Basic
import Mathlib.Data.Nat.Size

/-!
# Vectors with stable slots (`stable_vector.h`)

A `StableVector` keeps its elements in chunks of `1`, `2`, `4`, … cells that are never moved: element `i` is the cell of
chunk `k` whose number has the highest bit `k`, counted from `1`. A chunk is allocated when its first element comes and
released one element late, so that pushing and popping at a boundary does not allocate every time.

Elements are numbered by chunks and cells without gaps (`two_pow_add_offsetOf`, `chunkOf_unique`).
-/

namespace Ltest

variable {α : Type}

/-! ## The vector -/

/-- An object of type `T`: its values change, it stays the same object until it is destroyed. -/
structure Object (α : Type) where
  id : Nat
  value : α
  deriving Repr, DecidableEq

/-- An allocated array of `type_t`. A cell without an object is raw storage. -/
structure Chunk (α : Type) where
  address : Nat
  cells : List (Option (Object α))
  deriving Repr, DecidableEq

/-- What is undefined behaviour in the source. -/
inductive Fault where
  | clzOfZero
  | outOfBounds
  | nullChunk
  | notAlive
  deriving Repr, DecidableEq

/-- The allocator, and the objects and chunks that are no more. -/
structure Heap where
  nextAddress : Nat := 0
  nextObject : Nat := 0
  destroyed : List Nat := []
  freed : List Nat := []
  deriving Repr, DecidableEq

structure StableVector (α : Type) where
  entities : List (Option (Chunk α)) := List.replicate 31 none
  totalSize : Nat := 0
  deriving Repr, DecidableEq

/-- `63 - __builtin_clzll(x)`. -/
def highestBit (x : Nat) : Except Fault Nat := if x = 0 then .error .clzOfZero else .ok x.log2

namespace StableVector

/-- `entities[index]`. -/
def chunkAt (v : StableVector α) (index : Nat) : Except Fault (Option (Chunk α)) :=
  match v.entities[index]? with
  | none => .error .outOfBounds
  | some chunk => .ok chunk

/-- `entities[index][internal_index]`. -/
def cellAt (v : StableVector α) (index internalIndex : Nat) : Except Fault (Option (Object α)) := do
  match ← v.chunkAt index with
  | none => throw .nullChunk
  | some chunk =>
    match chunk.cells[internalIndex]? with
    | none => throw .outOfBounds
    | some cell => return cell

/-- The object in a cell. -/
def objectAt (v : StableVector α) (index internalIndex : Nat) : Except Fault (Object α) := do
  match ← v.cellAt index internalIndex with
  | none => throw .notAlive
  | some object => return object

/-- The vector with another content of a cell. -/
def setCell (v : StableVector α) (index internalIndex : Nat) (cell : Option (Object α)) : StableVector α :=
  { v with entities := v.entities.modify index (Option.map fun chunk =>
      { chunk with cells := chunk.cells.set internalIndex cell }) }

@[simp] theorem totalSize_setCell (v : StableVector α) (index internalIndex : Nat) (cell : Option (Object α)) :
    (v.setCell index internalIndex cell).totalSize = v.totalSize := rfl

/-- The allocation in `emplace_back`: only for the first element of a chunk, and only if the chunk is not there. -/
def allocate (v : StableVector α) (index : Nat) (h : Heap) : Except Fault (StableVector α × Heap) :=
  if (v.totalSize + 1) &&& v.totalSize = 0 then do
    match ← v.chunkAt index with
    | some _ => return (v, h)
    | none =>
      let chunk : Chunk α := ⟨h.nextAddress, List.replicate (1 <<< index) none⟩
      return ({ v with entities := v.entities.set index (some chunk) }, { h with nextAddress := h.nextAddress + 1 })
  else .ok (v, h)

/-- `emplace_back`. -/
def emplaceBack (value : α) (v : StableVector α) (h : Heap) : Except Fault (StableVector α × Heap) := do
  let index ← highestBit (v.totalSize + 1)
  let (v, h) ← v.allocate index h
  let internalIndex := (v.totalSize + 1) ^^^ (1 <<< index)
  let _ ← v.cellAt index internalIndex
  let v := v.setCell index internalIndex (some ⟨h.nextObject, value⟩)
  return ({ v with totalSize := v.totalSize + 1 }, { h with nextObject := h.nextObject + 1 })

/-- The release in `pop_back`: the chunk after that of the last element, if the last element is the first of its chunk. -/
def release (v : StableVector α) (index : Nat) (h : Heap) : Except Fault (StableVector α × Heap) :=
  if (v.totalSize - 1) &&& v.totalSize = 0 then do
    match ← v.chunkAt (index + 1) with
    | none => return (v, h)
    | some chunk =>
      return ({ v with entities := v.entities.set (index + 1) none }, { h with freed := h.freed ++ [chunk.address] })
  else .ok (v, h)

/-- `pop_back`. -/
def popBack (v : StableVector α) (h : Heap) : Except Fault (StableVector α × Heap) := do
  let index ← highestBit v.totalSize
  let (v, h) ← v.release index h
  let internalIndex := v.totalSize ^^^ (1 <<< index)
  let object ← v.objectAt index internalIndex
  let v := v.setCell index internalIndex none
  return ({ v with totalSize := v.totalSize - 1 }, { h with destroyed := h.destroyed ++ [object.id] })

/-- `operator[]`. -/
def at_ (v : StableVector α) (i : Nat) : Except Fault (Object α) := do
  let index ← highestBit (i + 1)
  v.objectAt index ((i + 1) ^^^ (1 <<< index))

/-- An assignment to `operator[]`. -/
def setAt (i : Nat) (value : α) (v : StableVector α) : Except Fault (StableVector α) := do
  let index ← highestBit (i + 1)
  let internalIndex := (i + 1) ^^^ (1 <<< index)
  let object ← v.objectAt index internalIndex
  return v.setCell index internalIndex (some { object with value := value })

/-- The first loop of `resize`, which makes `left` elements. -/
def grow [Inhabited α] : Nat → StableVector α → Heap → Except Fault (StableVector α × Heap)
  | 0, v, h => .ok (v, h)
  | left + 1, v, h => do
    let (v, h) ← v.emplaceBack default h
    grow left v h

/-- The second one. -/
def shrink : Nat → StableVector α → Heap → Except Fault (StableVector α × Heap)
  | 0, v, h => .ok (v, h)
  | left + 1, v, h => do
    let (v, h) ← v.popBack h
    shrink left v h

/-- `resize`. -/
def resize [Inhabited α] (newSize : Nat) (v : StableVector α) (h : Heap) : Except Fault (StableVector α × Heap) := do
  let (v, h) ← v.grow (newSize - v.totalSize) h
  v.shrink (v.totalSize - newSize) h

/-- `size`. -/
def size (v : StableVector α) : Nat := v.totalSize

/-- `front`. -/
def front (v : StableVector α) : Except Fault (Object α) := v.at_ 0

/-- `back`. On an empty vector `total_size - 1` is the largest `size_t`, which the increment in `operator[]` makes `0`. -/
def back (v : StableVector α) : Except Fault (Object α) :=
  if v.totalSize = 0 then .error .clzOfZero else v.at_ (v.totalSize - 1)

/-- The address of element `i`: that of its chunk, and the cell. -/
def addressOf (v : StableVector α) (i : Nat) : Except Fault (Nat × Nat) := do
  let index ← highestBit (i + 1)
  match ← v.chunkAt index with
  | none => throw .nullChunk
  | some chunk => return (chunk.address, (i + 1) ^^^ (1 <<< index))

/-- The destructors of the objects in some cells of a chunk. -/
def destroyCells (chunk : Chunk α) : List Nat → Heap → Except Fault Heap
  | [], h => .ok h
  | j :: js, h =>
    match chunk.cells[j]? with
    | none => .error .outOfBounds
    | some none => .error .notAlive
    | some (some object) => destroyCells chunk js { h with destroyed := h.destroyed ++ [object.id] }

/-- The loop of the destructor from chunk `i` on. -/
def destroyFrom (size : Nat) : Nat → List (Option (Chunk α)) → Heap → Except Fault Heap
  | _, [], h => .ok h
  | _, none :: _, h => .ok h
  | i, some chunk :: chunks, h => do
    let h ← destroyCells chunk ((List.range (1 <<< i)).takeWhile fun j => j + (1 <<< i) < size + 1) h
    destroyFrom size (i + 1) chunks { h with freed := h.freed ++ [chunk.address] }

/-- The destructor. -/
def destroy (v : StableVector α) (h : Heap) : Except Fault Heap := destroyFrom v.size 0 v.entities h

end StableVector

/-! ## Slots -/

section Slots

/-- The chunk of element `i`. -/
def chunkOf (i : Nat) : Nat := (i + 1).log2

/-- Its cell in the chunk. -/
def offsetOf (i : Nat) : Nat := (i + 1) ^^^ (1 <<< chunkOf i)

theorem xor_highestBit {x : Nat} (h : x ≠ 0) : x ^^^ (1 <<< x.log2) = x - 2 ^ x.log2 := by
  have hle : 2 ^ x.log2 ≤ x := Nat.log2_self_le h
  have hlt : x < 2 ^ (x.log2 + 1) := Nat.lt_log2_self
  rw [Nat.pow_succ] at hlt
  have hpos : 0 < 2 ^ x.log2 := Nat.two_pow_pos _
  have hdiv : x / 2 ^ x.log2 = 1 := Nat.div_eq_of_lt_le (by omega) (by omega)
  have hmod : x % 2 ^ x.log2 = x - 2 ^ x.log2 := by
    rw [Nat.mod_eq_sub_mod hle, Nat.mod_eq_of_lt (by omega)]
  rw [Nat.one_shiftLeft, ← Nat.div_add_mod (x ^^^ 2 ^ x.log2) (2 ^ x.log2), Nat.xor_div_two_pow, Nat.xor_mod_two_pow,
    hdiv, Nat.div_self hpos, Nat.mod_self, Nat.xor_self, Nat.xor_zero, hmod, Nat.mul_zero, Nat.zero_add]

theorem two_pow_chunkOf_le (i : Nat) : 2 ^ chunkOf i ≤ i + 1 := Nat.log2_self_le (Nat.succ_ne_zero i)

theorem lt_two_pow_chunkOf (i : Nat) : i + 1 < 2 ^ (chunkOf i + 1) := Nat.lt_log2_self

/-- The number of an element, from its chunk and its cell. -/
theorem two_pow_add_offsetOf (i : Nat) : 2 ^ chunkOf i + offsetOf i = i + 1 := by
  have hle := two_pow_chunkOf_le i
  have hoffset : offsetOf i = i + 1 - 2 ^ chunkOf i := xor_highestBit (Nat.succ_ne_zero i)
  omega

theorem offsetOf_lt (i : Nat) : offsetOf i < 2 ^ chunkOf i := by
  have hlt := lt_two_pow_chunkOf i
  have hadd := two_pow_add_offsetOf i
  rw [Nat.pow_succ] at hlt
  omega

/-- A cell of a chunk has only one number. -/
theorem chunkOf_unique {k j i : Nat} (hj : j < 2 ^ k) (h : 2 ^ k + j = i + 1) : k = chunkOf i ∧ j = offsetOf i := by
  have hk : k = chunkOf i := by
    have hle : k ≤ chunkOf i := (Nat.le_log2 (Nat.succ_ne_zero i)).2 (by omega)
    have hlt : chunkOf i < k + 1 := (Nat.log2_lt (Nat.succ_ne_zero i)).2 (by rw [Nat.pow_succ]; omega)
    omega
  subst hk
  have hadd := two_pow_add_offsetOf i
  omega

/-- **Different elements have different slots.** -/
theorem slot_injective {i i' : Nat} (hchunk : chunkOf i = chunkOf i') (hoffset : offsetOf i = offsetOf i') : i = i' := by
  have hadd := two_pow_add_offsetOf i
  have hadd' := two_pow_add_offsetOf i'
  rw [hchunk, hoffset] at hadd
  omega

/-- The chunk of an element that is there is needed. -/
theorem chunkOf_lt_size {i n : Nat} (h : i < n) : chunkOf i < n.size := by
  rw [Nat.lt_size]
  exact Nat.le_trans (two_pow_chunkOf_le i) h

end Slots

end Ltest
