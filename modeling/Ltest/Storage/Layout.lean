import Ltest.Program.Triple
import Ltest.Storage.StableVector

/-!
# Layouts of a vector (`stable_vector.h`)

A vector that holds `objects` in the chunks `addresses` is `layout addresses objects`, in every detail. Every operation
takes a layout to a layout (`emplaceBack_layout`, `popBack_layout`, `resize_layout`), as long as there are as many chunks
as the size needs, or one more (`Fits`). On the way no element that stays is moved, and every object and every chunk is
accounted for (`Evolves`).
-/

namespace Ltest

open Program

variable {α : Type}

/-! ## Layouts -/

/-- The cells of chunk `k` of a vector that holds `objects`. -/
def cellsOf (objects : List (Object α)) (k : Nat) : List (Option (Object α)) :=
  (List.range (2 ^ k)).map fun j => objects[2 ^ k + j - 1]?

/-- The vector that holds `objects` in the chunks `addresses`. -/
def layout (addresses : List Nat) (objects : List (Object α)) : StableVector α where
  entities := (List.range 31).map fun k => addresses[k]?.map fun address => ⟨address, cellsOf objects k⟩
  totalSize := objects.length

/-- The chunks that `n` elements need are there, and at most one more. -/
structure Fits (addresses : List Nat) (n : Nat) : Prop where
  needed : n.size ≤ addresses.length
  spare : addresses.length ≤ n.size + 1
  length_le : addresses.length ≤ 31

section Layout

variable {addresses : List Nat} {objects objects' : List (Object α)} {n k i j : Nat}

theorem Fits.small (h : Fits addresses n) : n < 2 ^ 31 := Nat.size_le.1 (Nat.le_trans h.needed h.length_le)

theorem Fits.chunkOf_lt (h : Fits addresses n) (hi : i < n) : chunkOf i < addresses.length :=
  Nat.lt_of_lt_of_le (chunkOf_lt_size hi) h.needed

@[simp] theorem totalSize_layout : (layout addresses objects).totalSize = objects.length := rfl

theorem getElem?_entities (hk : k < 31) : (layout addresses objects).entities[k]? =
    some (addresses[k]?.map fun address => ⟨address, cellsOf objects k⟩) := by
  unfold layout
  rw [List.getElem?_map, List.getElem?_range hk]
  rfl

theorem chunkAt_layout (hk : k < 31) : (layout addresses objects).chunkAt k =
    .ok (addresses[k]?.map fun address => ⟨address, cellsOf objects k⟩) := by
  unfold StableVector.chunkAt
  rw [getElem?_entities hk]

/-- The table has `31` entries. -/
theorem chunkAt_layout_of_le (hk : 31 ≤ k) : (layout addresses objects).chunkAt k = .error .outOfBounds := by
  unfold StableVector.chunkAt
  rw [List.getElem?_eq_none (by simpa [layout] using hk)]

theorem cellsOf_getElem? (hj : j < 2 ^ k) : (cellsOf objects k)[j]? = some objects[2 ^ k + j - 1]? := by
  unfold cellsOf
  rw [List.getElem?_map, List.getElem?_range hj]
  rfl

/-- **The cell of an element.** -/
theorem cellAt_layout (objects : List (Object α)) (h : chunkOf i < addresses.length) (hlen : addresses.length ≤ 31) :
    (layout addresses objects).cellAt (chunkOf i) (offsetOf i) = .ok objects[i]? := by
  have hadd := two_pow_add_offsetOf i
  unfold StableVector.cellAt
  rw [chunkAt_layout (by omega), List.getElem?_eq_getElem h]
  simp only [Option.map_some, ok_bind, cellsOf_getElem? (offsetOf_lt i), hadd, Nat.add_sub_cancel]
  rfl

theorem objectAt_layout {o : Object α} (h : chunkOf i < addresses.length) (hlen : addresses.length ≤ 31)
    (hi : objects[i]? = some o) : (layout addresses objects).objectAt (chunkOf i) (offsetOf i) = .ok o := by
  unfold StableVector.objectAt
  rw [cellAt_layout objects h hlen, hi]
  rfl

/-- The other cells do not see it. -/
theorem cellsOf_congr (hother : ∀ q, q ≠ i → objects'[q]? = objects[q]?) (hk : k ≠ chunkOf i) :
    cellsOf objects' k = cellsOf objects k := by
  refine List.map_congr_left fun j hj => hother _ fun heq => hk (chunkOf_unique (List.mem_range.1 hj) ?_).1
  have hpos := Nat.two_pow_pos k
  omega

theorem cellsOf_set (hother : ∀ q, q ≠ i → objects'[q]? = objects[q]?) :
    (cellsOf objects (chunkOf i)).set (offsetOf i) objects'[i]? = cellsOf objects' (chunkOf i) := by
  have hadd := two_pow_add_offsetOf i
  refine List.ext_getElem? fun j => ?_
  rcases Nat.lt_or_ge j (2 ^ chunkOf i) with hj | hj
  · rw [List.getElem?_set, cellsOf_getElem? hj, cellsOf_getElem? hj]
    split
    · rename_i heq
      subst heq
      rw [if_pos (by unfold cellsOf; simpa using hj), hadd, Nat.add_sub_cancel]
    · rename_i hne
      rw [hother]
      omega
  · rw [List.getElem?_eq_none (by unfold cellsOf; simpa using hj), List.getElem?_eq_none (by unfold cellsOf; simpa using hj)]

/-- **Writing a cell** changes one element. -/
theorem setCell_layout (addresses : List Nat) (hother : ∀ q, q ≠ i → objects'[q]? = objects[q]?) :
    { (layout addresses objects).setCell (chunkOf i) (offsetOf i) objects'[i]? with totalSize := objects'.length } =
      layout addresses objects' := by
  have hentities : ((layout addresses objects).setCell (chunkOf i) (offsetOf i) objects'[i]?).entities =
      (layout addresses objects').entities := by
    refine List.ext_getElem? fun k => ?_
    unfold StableVector.setCell
    dsimp only
    rw [List.getElem?_modify]
    rcases Nat.lt_or_ge k 31 with hk | hk
    · rw [getElem?_entities hk, getElem?_entities hk]
      split
      · rename_i heq
        subst heq
        simp only [Option.map_eq_map, Option.map_some, Option.map_map, Function.comp_def, cellsOf_set hother]
      · rename_i hne
        simp only [Option.map_eq_map, Option.map_some, cellsOf_congr hother (Ne.symm hne)]
    · have hnone : ∀ os : List (Object α), (layout addresses os).entities[k]? = none :=
        fun os => List.getElem?_eq_none (by simpa [layout] using hk)
      rw [hnone, hnone]
      rfl
  exact congrArg (StableVector.mk · objects'.length) hentities

/-- The table with another chunk in one place. -/
theorem entities_set {addresses' : List Nat} (hk : k < 31) (hother : ∀ q, q ≠ k → addresses'[q]? = addresses[q]?) :
    (layout addresses objects).entities.set k (addresses'[k]?.map fun address => ⟨address, cellsOf objects k⟩) =
      (layout addresses' objects).entities := by
  refine List.ext_getElem? fun q => ?_
  have hlength : (layout addresses objects).entities.length = 31 := by simp [layout]
  rw [List.getElem?_set, hlength]
  split
  · rename_i heq
    subst heq
    rw [getElem?_entities hk]
  · rename_i hne
    rcases Nat.lt_or_ge q 31 with hq | hq
    · rw [getElem?_entities hq, getElem?_entities hq, hother q (Ne.symm hne)]
    · rw [List.getElem?_eq_none (by simpa [layout] using hq), List.getElem?_eq_none (by simpa [layout] using hq)]

theorem getElem?_concat_ne (address : Nat) (hne : k ≠ addresses.length) : (addresses ++ [address])[k]? = addresses[k]? := by
  rcases Nat.lt_or_ge k addresses.length with hlt | hge
  · rw [List.getElem?_append_left hlt]
  · rw [List.getElem?_eq_none hge, List.getElem?_eq_none (by simp; omega)]

/-- A chunk more. -/
theorem entities_concat (objects : List (Object α)) (address : Nat) (h : addresses.length < 31) :
    (layout addresses objects).entities.set addresses.length (some ⟨address, cellsOf objects addresses.length⟩) =
      (layout (addresses ++ [address]) objects).entities := by
  rw [← entities_set h fun q hq => getElem?_concat_ne address hq, List.getElem?_concat_length]
  rfl

/-- A chunk less. -/
theorem entities_dropLast (objects : List (Object α)) (address : Nat) (h : addresses.length < 31) :
    (layout (addresses ++ [address]) objects).entities.set addresses.length none =
      (layout addresses objects).entities := by
  rw [← entities_set h fun q hq => (getElem?_concat_ne address hq).symm, List.getElem?_eq_none (Nat.le_refl _)]
  rfl

end Layout

/-! ## Chunks that come and go -/

/-- How the chunks of a vector and the heap change in one operation. -/
inductive Reallocated : List Nat → Heap → List Nat → Heap → Prop
  | same {addresses : List Nat} {h : Heap} : Reallocated addresses h addresses h
  | allocated {addresses : List Nat} {h : Heap} :
      Reallocated addresses h (addresses ++ [h.nextAddress]) { h with nextAddress := h.nextAddress + 1 }
  | released {addresses : List Nat} {address : Nat} {h : Heap} :
      Reallocated (addresses ++ [address]) h addresses { h with freed := h.freed ++ [address] }

section Chunks

variable {addresses : List Nat} {objects : List (Object α)} {n : Nat}

/-- The test for the first element of a chunk. -/
theorem succ_and_eq_zero_iff (n : Nat) : (n + 1) &&& n = 0 ↔ n + 1 = 2 ^ chunkOf n := by
  have hpower := Nat.and_sub_one_eq_zero_iff_isPowerOfTwo (Nat.succ_ne_zero n)
  rw [Nat.succ_sub_one] at hpower
  refine hpower.trans ⟨?_, fun h => ⟨_, h⟩⟩
  rintro ⟨k, hk⟩
  have hchunk : chunkOf n = k := by
    unfold chunkOf
    rw [← Nat.succ_eq_add_one, hk, Nat.log2_two_pow]
  rw [hchunk, ← hk]

theorem size_succ (n : Nat) : (n + 1).size = chunkOf n + 1 := by
  refine Nat.le_antisymm (Nat.size_le.2 (lt_two_pow_chunkOf n)) (Nat.lt_size.2 (two_pow_chunkOf_le n))

/-- Before the first element of a chunk it is not needed. -/
theorem size_of_first (h : n + 1 = 2 ^ chunkOf n) : n.size = chunkOf n := by
  refine Nat.le_antisymm (Nat.size_le.2 (by omega)) ?_
  cases hk : chunkOf n with
  | zero => exact Nat.zero_le _
  | succ k =>
    rw [hk, Nat.pow_succ] at h
    have hpos := Nat.two_pow_pos k
    exact Nat.lt_size.2 (by omega)

theorem size_of_not_first (h : n + 1 ≠ 2 ^ chunkOf n) : n.size = chunkOf n + 1 := by
  have hle := two_pow_chunkOf_le n
  refine Nat.le_antisymm (size_succ n ▸ Nat.size_le_size (Nat.le_succ n)) (Nat.lt_size.2 (by omega))

theorem chunkOf_le (h : n + 1 < 2 ^ 31) : chunkOf n ≤ 30 := by
  have hsize : (n + 1).size ≤ 31 := Nat.size_le.2 h
  rw [size_succ] at hsize
  omega

/-- The chunk of the first element of a chunk. -/
theorem chunkOf_of_first {k : Nat} (h : n + 1 = 2 ^ k) : chunkOf n = k := by
  unfold chunkOf
  rw [h, Nat.log2_two_pow]

/-- A chunk that has no elements yet is raw storage. -/
theorem cellsOf_first (h : objects.length + 1 = 2 ^ chunkOf objects.length) :
    cellsOf objects (chunkOf objects.length) = List.replicate (1 <<< chunkOf objects.length) none := by
  unfold cellsOf
  rw [Nat.one_shiftLeft, List.eq_replicate_iff]
  refine ⟨by simp, fun cell hcell => ?_⟩
  obtain ⟨j, _, rfl⟩ := List.mem_map.1 hcell
  exact List.getElem?_eq_none (by omega)

/-- **The allocation** provides the chunk of the next element. -/
theorem allocate_layout (hfits : Fits addresses objects.length) (hsmall : objects.length + 1 < 2 ^ 31) (h : Heap) :
    ∃ addresses' h',
    (layout addresses objects).allocate (chunkOf objects.length) h = .ok (layout addresses' objects, h') ∧
      Reallocated addresses h addresses' h' ∧ Fits addresses' objects.length ∧
      chunkOf objects.length < addresses'.length := by
  have hle := chunkOf_le hsmall
  have hneeded := hfits.needed
  have hlength_le := hfits.length_le
  unfold StableVector.allocate
  rw [totalSize_layout]
  by_cases hfirst : objects.length + 1 = 2 ^ chunkOf objects.length
  · have hsize := size_of_first hfirst
    rw [if_pos ((succ_and_eq_zero_iff _).2 hfirst), chunkAt_layout (by omega), ok_bind]
    by_cases hthere : chunkOf objects.length < addresses.length
    · rw [List.getElem?_eq_getElem hthere]
      exact ⟨addresses, h, rfl, .same, hfits, hthere⟩
    · have hlength : addresses.length = chunkOf objects.length := by omega
      have hset := entities_concat objects h.nextAddress (show addresses.length < 31 by omega)
      rw [hlength, cellsOf_first hfirst] at hset
      refine ⟨addresses ++ [h.nextAddress], { h with nextAddress := h.nextAddress + 1 }, ?_, .allocated,
        ⟨?_, ?_, ?_⟩, ?_⟩
      · rw [List.getElem?_eq_none (by omega)]
        show Except.ok (StableVector.mk _ _, _) = _
        rw [hset]
        rfl
      all_goals
        rw [List.length_append, List.length_singleton]
        omega
  · have hsize := size_of_not_first hfirst
    rw [if_neg (mt (succ_and_eq_zero_iff _).1 hfirst)]
    exact ⟨addresses, h, rfl, .same, hfits, by omega⟩

/-- **The release** keeps the chunk of the last element. -/
theorem release_layout (hfits : Fits addresses objects.length) (hn : objects.length = n + 1) (hne : n + 1 ≠ 2 ^ 30)
    (h : Heap) : ∃ addresses' h', (layout addresses objects).release (chunkOf n) h = .ok (layout addresses' objects, h') ∧
      Reallocated addresses h addresses' h' ∧ Fits addresses' n ∧ chunkOf n < addresses'.length := by
  have hneeded := hfits.needed
  have hspare := hfits.spare
  have hlength_le := hfits.length_le
  rw [hn] at hneeded hspare
  rw [size_succ] at hneeded hspare
  unfold StableVector.release
  rw [totalSize_layout, hn, Nat.add_sub_cancel, Nat.and_comm]
  by_cases hfirst : n + 1 = 2 ^ chunkOf n
  · have hsize := size_of_first hfirst
    have hlast : chunkOf n ≠ 30 := fun heq => hne (heq ▸ hfirst)
    rw [if_pos ((succ_and_eq_zero_iff _).2 hfirst), chunkAt_layout (by omega), ok_bind]
    by_cases hthere : chunkOf n + 1 < addresses.length
    · obtain ⟨before, address, rfl⟩ : ∃ before address, addresses = before ++ [address] :=
        ⟨_, _, (List.dropLast_append_getLast (List.ne_nil_of_length_pos (by omega))).symm⟩
      rw [List.length_append, List.length_singleton] at hthere hspare hlength_le
      have hlength : before.length = chunkOf n + 1 := by omega
      have haddress : (before ++ [address])[chunkOf n + 1]? = some address := by
        rw [← hlength, List.getElem?_concat_length]
      have hset := entities_dropLast objects address (show before.length < 31 by omega)
      rw [hlength] at hset
      rw [haddress]
      refine ⟨before, { h with freed := h.freed ++ [address] }, ?_, .released, ⟨by omega, by omega, by omega⟩, by omega⟩
      show Except.ok (StableVector.mk _ _, _) = _
      rw [hset, ← hn]
      rfl
    · rw [List.getElem?_eq_none (by omega)]
      exact ⟨addresses, h, rfl, .same, ⟨by omega, by omega, by omega⟩, by omega⟩
  · have hsize := size_of_not_first hfirst
    rw [if_neg (mt (succ_and_eq_zero_iff _).1 hfirst)]
    exact ⟨addresses, h, rfl, .same, ⟨by omega, by omega, by omega⟩, by omega⟩

end Chunks

/-! ## Operations -/

/-- Every object that was made is destroyed or one of `live`, and every chunk is freed or one of `chunks`. -/
structure Accounts (live chunks : List Nat) (h : Heap) : Prop where
  objects : (h.destroyed ++ live).Perm (List.range h.nextObject)
  chunks : (h.freed ++ chunks).Perm (List.range h.nextAddress)

/-- **What operations do** to a vector in which the first `kept` elements stay. -/
structure Evolves (kept : Nat) (addresses : List Nat) (objects : List (Object α)) (h : Heap) (addresses' : List Nat)
    (objects' : List (Object α)) (h' : Heap) : Prop where
  fits : Fits addresses' objects'.length
  stays : ∀ i < kept, addresses'[chunkOf i]? = addresses[chunkOf i]? ∧
    objects'[i]?.map Object.id = objects[i]?.map Object.id
  /-- What belongs to other vectors is accounted for as before. -/
  accounts : ∀ live chunks, Accounts (objects.map Object.id ++ live) (addresses ++ chunks) h →
    Accounts (objects'.map Object.id ++ live) (addresses' ++ chunks) h'

section Operations

variable {kept kept' n : Nat} {addresses addresses' addresses'' : List Nat} {objects objects' objects'' : List (Object α)}
  {h h' h'' : Heap}

theorem Evolves.refl (hfits : Fits addresses objects.length) :
    Evolves kept addresses objects h addresses objects h := ⟨hfits, fun _ _ => ⟨rfl, rfl⟩, fun _ _ => id⟩

theorem Evolves.trans (e : Evolves kept addresses objects h addresses' objects' h')
    (e' : Evolves kept addresses' objects' h' addresses'' objects'' h'') :
    Evolves kept addresses objects h addresses'' objects'' h'' where
  fits := e'.fits
  stays i hi := ⟨(e'.stays i hi).1.trans (e.stays i hi).1, (e'.stays i hi).2.trans (e.stays i hi).2⟩
  accounts live chunks ha := e'.accounts live chunks (e.accounts live chunks ha)

theorem Evolves.mono (e : Evolves kept addresses objects h addresses' objects' h') (hle : kept' ≤ kept) :
    Evolves kept' addresses objects h addresses' objects' h' :=
  ⟨e.fits, fun i hi => e.stays i (Nat.lt_of_lt_of_le hi hle), e.accounts⟩

/-- Chunks that stay are not moved. -/
theorem Reallocated.stays (hr : Reallocated addresses h addresses' h') {k : Nat} (hk : k < addresses.length)
    (hk' : k < addresses'.length) : addresses'[k]? = addresses[k]? := by
  cases hr with
  | same => rfl
  | allocated => rw [List.getElem?_append_left hk]
  | released => rw [List.getElem?_append_left hk']

theorem Reallocated.accounts (hr : Reallocated addresses h addresses' h') {live chunks : List Nat}
    (ha : Accounts live (addresses ++ chunks) h) : Accounts live (addresses' ++ chunks) h' := by
  cases hr with
  | same => exact ha
  | allocated =>
    refine ⟨ha.objects, List.perm_iff_count.2 fun a => ?_⟩
    have hcount := List.perm_iff_count.1 ha.chunks a
    simp only [List.count_append, List.range_succ] at hcount ⊢
    omega
  | released =>
    refine ⟨ha.objects, List.perm_iff_count.2 fun a => ?_⟩
    have hcount := List.perm_iff_count.1 ha.chunks a
    simp only [List.count_append] at hcount ⊢
    omega

theorem Reallocated.heap (hr : Reallocated addresses h addresses' h') :
    h'.nextObject = h.nextObject ∧ h'.destroyed = h.destroyed := by
  cases hr <;> exact ⟨rfl, rfl⟩

theorem highestBit_succ (n : Nat) : highestBit (n + 1) = .ok (chunkOf n) := rfl

/-- **`emplace_back`**. -/
theorem emplaceBack_layout (hfits : Fits addresses objects.length) (hsmall : objects.length + 1 < 2 ^ 31) (value : α)
    (h : Heap) : ∃ addresses' h', (layout addresses objects).emplaceBack value h =
      .ok (layout addresses' (objects ++ [⟨h.nextObject, value⟩]), h') ∧
      Evolves objects.length addresses objects h addresses' (objects ++ [⟨h.nextObject, value⟩]) h' := by
  obtain ⟨addresses', h₁, hallocate, hr, hfits', hchunk⟩ := allocate_layout hfits hsmall h
  obtain ⟨hnext, hdestroyed⟩ := hr.heap
  have hother : ∀ q, q ≠ objects.length → (objects ++ [⟨h.nextObject, value⟩])[q]? = objects[q]? := by
    intro q hq
    rcases Nat.lt_or_ge q objects.length with hlt | hge
    · rw [List.getElem?_append_left hlt]
    · rw [List.getElem?_eq_none hge, List.getElem?_eq_none (by simp; omega)]
  have hset := setCell_layout addresses' hother
  rw [List.getElem?_concat_length, List.length_append, List.length_singleton] at hset
  refine ⟨addresses', { h₁ with nextObject := h.nextObject + 1 }, ?_, ⟨?_, ?_, ?_⟩, fun i hi => ⟨?_, ?_⟩, ?_⟩
  · unfold StableVector.emplaceBack
    simp only [totalSize_layout, highestBit_succ, ok_bind, hallocate]
    have hcell := cellAt_layout objects hchunk hfits'.length_le
    unfold offsetOf at hcell hset
    simp only [hcell, ok_bind, hnext]
    rw [← hset]
    rfl
  · rw [List.length_append, List.length_singleton, size_succ]
    omega
  · rw [List.length_append, List.length_singleton]
    have hle : objects.length.size ≤ (objects.length + 1).size := Nat.size_le_size (Nat.le_succ _)
    have hspare := hfits'.spare
    omega
  · exact hfits'.length_le
  · exact hr.stays (hfits.chunkOf_lt hi) (hfits'.chunkOf_lt hi)
  · rw [List.getElem?_append_left hi]
  · intro live chunks ha
    obtain ⟨hobjects, hchunks⟩ := hr.accounts ha
    refine ⟨List.perm_iff_count.2 fun a => ?_, hchunks⟩
    have hcount := List.perm_iff_count.1 hobjects a
    simp only [hnext] at hcount
    simp only [List.count_append, List.range_succ, List.map_append, List.map_cons, List.map_nil] at hcount ⊢
    omega

/-- **`pop_back`**. -/
theorem popBack_layout {o : Object α} (hfits : Fits addresses (objects ++ [o]).length)
    (hne : objects.length + 1 ≠ 2 ^ 30) (h : Heap) : ∃ addresses' h',
      (layout addresses (objects ++ [o])).popBack h = .ok (layout addresses' objects, h') ∧
      Evolves objects.length addresses (objects ++ [o]) h addresses' objects h' ∧
      h'.destroyed = h.destroyed ++ [o.id] := by
  have hlength : (objects ++ [o]).length = objects.length + 1 := by simp
  obtain ⟨addresses', h₁, hrelease, hr, hfits', hchunk⟩ := release_layout hfits hlength hne h
  obtain ⟨hnext, hdestroyed⟩ := hr.heap
  have hother : ∀ q, q ≠ objects.length → objects[q]? = (objects ++ [o])[q]? := by
    intro q hq
    rcases Nat.lt_or_ge q objects.length with hlt | hge
    · rw [List.getElem?_append_left hlt]
    · rw [List.getElem?_eq_none hge, List.getElem?_eq_none (by simp; omega)]
  have hset := setCell_layout addresses' hother
  rw [List.getElem?_eq_none (Nat.le_refl _)] at hset
  refine ⟨addresses', { h₁ with destroyed := h₁.destroyed ++ [o.id] }, ?_, ⟨hfits', fun i hi => ⟨?_, ?_⟩, ?_⟩, ?_⟩
  · unfold StableVector.popBack
    simp only [totalSize_layout, hlength, highestBit_succ, ok_bind, hrelease]
    have hback : (objects ++ [o])[objects.length]? = some o := List.getElem?_concat_length
    have hobject := objectAt_layout hchunk hfits'.length_le hback
    unfold offsetOf at hobject hset
    simp only [hobject, ok_bind, StableVector.totalSize_setCell, totalSize_layout, hlength, Nat.add_sub_cancel]
    rw [← hset]
    rfl
  · exact hr.stays (hfits.chunkOf_lt (by omega)) (hfits'.chunkOf_lt hi)
  · rw [List.getElem?_append_left hi]
  · intro live chunks ha
    obtain ⟨hobjects, hchunks⟩ := hr.accounts ha
    refine ⟨List.perm_iff_count.2 fun a => ?_, hchunks⟩
    have hcount := List.perm_iff_count.1 hobjects a
    simp only [List.count_append, List.map_append, List.map_cons, List.map_nil] at hcount ⊢
    omega
  · rw [← hdestroyed]

/-- **`operator[]`**. -/
theorem at_layout {i : Nat} {o : Object α} (hfits : Fits addresses objects.length) (hi : objects[i]? = some o) :
    (layout addresses objects).at_ i = .ok o := by
  have hlt := (List.getElem?_eq_some_iff.1 hi).1
  unfold StableVector.at_
  rw [highestBit_succ, ok_bind]
  exact objectAt_layout (hfits.chunkOf_lt hlt) hfits.length_le hi

/-- The address of an element. -/
theorem addressOf_layout {i address : Nat} (hlen : addresses.length ≤ 31) (haddress : addresses[chunkOf i]? = some address) :
    (layout addresses objects).addressOf i = .ok (address, offsetOf i) := by
  have hlt := (List.getElem?_eq_some_iff.1 haddress).1
  unfold StableVector.addressOf
  rw [highestBit_succ, ok_bind, chunkAt_layout (by omega), ok_bind, haddress]
  rfl

/-- An assignment keeps the object. -/
theorem setAt_layout {i : Nat} {o : Object α} (hfits : Fits addresses objects.length) (hi : objects[i]? = some o)
    (value : α) (h : Heap) : (layout addresses objects).setAt i value =
      .ok (layout addresses (objects.set i { o with value := value })) ∧
      Evolves kept addresses objects h addresses (objects.set i { o with value := value }) h := by
  have hlt := (List.getElem?_eq_some_iff.1 hi).1
  have hother : ∀ q, q ≠ i → (objects.set i { o with value := value })[q]? = objects[q]? :=
    fun q hq => List.getElem?_set_ne (Ne.symm hq)
  have hset := setCell_layout addresses hother
  rw [List.getElem?_set_self hlt, List.length_set] at hset
  have hids : (objects.set i { o with value := value }).map Object.id = objects.map Object.id := by
    refine List.ext_getElem? fun q => ?_
    rw [List.getElem?_map, List.getElem?_map]
    by_cases hq : q = i
    · rw [hq, List.getElem?_set_self hlt, hi]
      rfl
    · rw [hother q hq]
  refine ⟨?_, ⟨by rw [List.length_set]; exact hfits, fun q hq => ⟨rfl, ?_⟩, fun live chunks ha => by rwa [hids]⟩⟩
  · unfold StableVector.setAt
    have hobject := objectAt_layout (hfits.chunkOf_lt hlt) hfits.length_le hi
    unfold offsetOf at hobject hset
    simp only [highestBit_succ, ok_bind, hobject]
    rw [← hset]
    rfl
  · rw [← List.getElem?_map, ← List.getElem?_map, hids]

/-- The first loop of `resize`. -/
theorem grow_layout [Inhabited α] : ∀ (left : Nat) {addresses : List Nat} {objects : List (Object α)} (h : Heap),
    Fits addresses objects.length → objects.length + left < 2 ^ 31 → ∃ addresses' objects' h',
      (layout addresses objects).grow left h = .ok (layout addresses' objects', h') ∧
      objects'.map Object.value = objects.map Object.value ++ List.replicate left default ∧
      Evolves objects.length addresses objects h addresses' objects' h'
  | 0, addresses, objects, h, hfits, _ => ⟨addresses, objects, h, rfl, by simp, .refl hfits⟩
  | left + 1, addresses, objects, h, hfits, hsmall => by
    obtain ⟨addresses₁, h₁, hemplace, e₁⟩ := emplaceBack_layout hfits (by omega) default h
    have hlength : (objects ++ [(⟨h.nextObject, default⟩ : Object α)]).length = objects.length + 1 := by simp
    obtain ⟨addresses₂, objects₂, h₂, hgrow, hvalues, e₂⟩ := grow_layout left h₁ e₁.fits (by omega)
    refine ⟨addresses₂, objects₂, h₂, ?_, ?_, e₁.trans (e₂.mono (by omega))⟩
    · unfold StableVector.grow
      rw [hemplace, ok_bind]
      exact hgrow
    · rw [hvalues, List.map_append, List.append_assoc, List.replicate_succ]
      rfl

/-- The second one. -/
theorem shrink_layout : ∀ (left : Nat) {addresses : List Nat} {objects : List (Object α)} (h : Heap),
    Fits addresses objects.length → left ≤ objects.length →
    ¬(objects.length - left < 2 ^ 30 ∧ 2 ^ 30 ≤ objects.length) → ∃ addresses' h',
      (layout addresses objects).shrink left h = .ok (layout addresses' (objects.take (objects.length - left)), h') ∧
      Evolves (objects.length - left) addresses objects h addresses' (objects.take (objects.length - left)) h'
  | 0, addresses, objects, h, hfits, _, _ => by
    rw [Nat.sub_zero, List.take_length]
    exact ⟨addresses, h, rfl, .refl hfits⟩
  | left + 1, addresses, objects, h, hfits, hle, hcross => by
    obtain ⟨front, o, rfl⟩ : ∃ front o, objects = front ++ [o] :=
      ⟨_, _, (List.dropLast_append_getLast (List.ne_nil_of_length_pos (by omega))).symm⟩
    have hlength : (front ++ [o]).length = front.length + 1 := by simp
    obtain ⟨addresses₁, h₁, hpop, e₁, -⟩ := popBack_layout hfits (by omega) h
    obtain ⟨addresses₂, h₂, hshrink, e₂⟩ := shrink_layout left h₁ e₁.fits (by omega) (by omega)
    have htake : (front ++ [o]).take ((front ++ [o]).length - (left + 1)) = front.take (front.length - left) := by
      rw [List.take_append_of_le_length (by omega)]
      congr 1
      omega
    rw [htake]
    refine ⟨addresses₂, h₂, ?_, (e₁.mono (by omega)).trans (e₂.mono (by omega))⟩
    unfold StableVector.shrink
    rw [hpop, ok_bind]
    exact hshrink

/-- **`resize`**. -/
theorem resize_layout [Inhabited α] (newSize : Nat) (hfits : Fits addresses objects.length) (hsmall : newSize < 2 ^ 31)
    (hcross : ¬(newSize < 2 ^ 30 ∧ 2 ^ 30 ≤ objects.length)) (h : Heap) : ∃ addresses' objects' h',
      (layout addresses objects).resize newSize h = .ok (layout addresses' objects', h') ∧
      objects'.map Object.value = (objects.map Object.value).take newSize ++
        List.replicate (newSize - objects.length) default ∧
      Evolves (min objects.length newSize) addresses objects h addresses' objects' h' := by
  have hfew := hfits.small
  obtain ⟨addresses₁, objects₁, h₁, hgrow, hvalues, e₁⟩ := grow_layout (newSize - objects.length) h hfits (by omega)
  have hlength : objects₁.length = objects.length + (newSize - objects.length) := by
    simpa using congrArg List.length hvalues
  obtain ⟨addresses₂, h₂, hshrink, e₂⟩ := shrink_layout (objects₁.length - newSize) h₁ e₁.fits (by omega) (by omega)
  refine ⟨addresses₂, _, h₂, ?_, ?_, (e₁.mono (by omega)).trans (e₂.mono (by omega))⟩
  · unfold StableVector.resize
    rw [totalSize_layout, hgrow, ok_bind]
    exact hshrink
  · rw [List.map_take, hvalues, List.take_append]
    congr 1
    · rw [show objects₁.length - (objects₁.length - newSize) = newSize by omega]
    · rw [List.take_replicate, List.length_map]
      congr 1
      omega

end Operations

/-! ## The limits -/

section Limits

variable {addresses : List Nat} {objects : List (Object α)}

/-- There is no chunk for element `2 ^ 31`, counted from `1`. -/
theorem lt_of_emplaceBack {value : α} {h : Heap} {s : StableVector α × Heap} (hfits : Fits addresses objects.length)
    (hrun : (layout addresses objects).emplaceBack value h = .ok s) : objects.length + 1 < 2 ^ 31 := by
  by_contra hlarge
  have hsmall := hfits.small
  have hfirst : objects.length + 1 = 2 ^ 31 := by omega
  have hchunk := chunkOf_of_first hfirst
  unfold StableVector.emplaceBack StableVector.allocate at hrun
  rw [totalSize_layout, highestBit_succ, ok_bind, if_pos ((succ_and_eq_zero_iff _).2 (by rw [hchunk, hfirst])), hchunk,
    chunkAt_layout_of_le (Nat.le_refl 31)] at hrun
  cases hrun

/-- `pop_back` looks for the chunk after that of element `2 ^ 30`. -/
theorem ne_of_popBack {o : Object α} {h : Heap} {s : StableVector α × Heap}
    (hrun : (layout addresses (objects ++ [o])).popBack h = .ok s) : objects.length + 1 ≠ 2 ^ 30 := by
  intro hfirst
  have hchunk := chunkOf_of_first hfirst
  unfold StableVector.popBack StableVector.release at hrun
  rw [totalSize_layout, List.length_append, List.length_singleton, highestBit_succ, ok_bind, Nat.add_sub_cancel,
    Nat.and_comm, if_pos ((succ_and_eq_zero_iff _).2 (by rw [hchunk, hfirst])), hchunk,
    chunkAt_layout_of_le (Nat.le_refl 31)] at hrun
  cases hrun

theorem lt_of_grow [Inhabited α] : ∀ (left : Nat) {addresses : List Nat} {objects : List (Object α)} {h : Heap}
    {s : StableVector α × Heap}, Fits addresses objects.length → (layout addresses objects).grow left h = .ok s →
    objects.length + left < 2 ^ 31
  | 0, _, _, _, _, hfits, _ => hfits.small
  | left + 1, addresses, objects, h, s, hfits, hrun => by
    obtain ⟨s₁, hemplace, hrest⟩ := bind_eq_ok.1 hrun
    obtain ⟨addresses₁, h₁, hemplace₁, e₁⟩ := emplaceBack_layout hfits (lt_of_emplaceBack hfits hemplace) default h
    cases hemplace.symm.trans hemplace₁
    have hlt := lt_of_grow left e₁.fits hrest
    rw [List.length_append, List.length_singleton] at hlt
    omega

theorem not_cross_of_shrink : ∀ (left : Nat) {addresses : List Nat} {objects : List (Object α)} {h : Heap}
    {s : StableVector α × Heap}, Fits addresses objects.length → left ≤ objects.length →
    (layout addresses objects).shrink left h = .ok s → ¬(objects.length - left < 2 ^ 30 ∧ 2 ^ 30 ≤ objects.length)
  | 0, _, _, _, _, _, _, _ => by omega
  | left + 1, addresses, objects, h, s, hfits, hle, hrun => by
    obtain ⟨front, o, rfl⟩ : ∃ front o, objects = front ++ [o] :=
      ⟨_, _, (List.dropLast_append_getLast (List.ne_nil_of_length_pos (by omega))).symm⟩
    have hlength : (front ++ [o]).length = front.length + 1 := by simp
    obtain ⟨s₁, hpop, hrest⟩ := bind_eq_ok.1 hrun
    have hne := ne_of_popBack hpop
    obtain ⟨addresses₁, h₁, hpop₁, e₁, -⟩ := popBack_layout hfits hne h
    cases hpop.symm.trans hpop₁
    have hcross := not_cross_of_shrink left e₁.fits (by omega) hrest
    omega

theorem limits_of_resize [Inhabited α] {newSize : Nat} {h : Heap} {s : StableVector α × Heap}
    (hfits : Fits addresses objects.length) (hrun : (layout addresses objects).resize newSize h = .ok s) :
    newSize < 2 ^ 31 ∧ ¬(newSize < 2 ^ 30 ∧ 2 ^ 30 ≤ objects.length) := by
  have hsmall := hfits.small
  obtain ⟨s₁, hgrow, hshrink⟩ := bind_eq_ok.1 hrun
  have hlt := lt_of_grow _ hfits hgrow
  rw [totalSize_layout] at hlt
  refine ⟨by omega, ?_⟩
  rcases Nat.lt_or_ge objects.length newSize with hless | hmore
  · omega
  · -- nothing is added
    rw [totalSize_layout, Nat.sub_eq_zero_of_le hmore] at hgrow
    cases hgrow
    have hcross := not_cross_of_shrink _ hfits (Nat.sub_le _ _) hshrink
    omega

end Limits

/-! ## The destructor -/

section Destructor

variable {addresses : List Nat} {objects : List (Object α)} {k : Nat}

/-- The loop over the cells of a chunk, from cell `j` on. -/
theorem destroyCells_layout (objects : List (Object α)) (k address : Nat) : ∀ (left j : Nat) (h : Heap), j + left = 2 ^ k →
    StableVector.destroyCells (⟨address, cellsOf objects k⟩ : Chunk α)
      ((List.range' j left).takeWhile fun j => j + (1 <<< k) < objects.length + 1) h =
      .ok { h with destroyed := h.destroyed ++ ((objects.drop (2 ^ k + j - 1)).take left).map Object.id }
  | 0, j, h, _ => by simp [StableVector.destroyCells]
  | left + 1, j, h, hj => by
    have hpos := Nat.two_pow_pos k
    rw [List.range'_succ, List.takeWhile_cons, Nat.one_shiftLeft]
    by_cases hlt : j + 2 ^ k < objects.length + 1
    · have hi : 2 ^ k + j - 1 < objects.length := by omega
      have hnext : 2 ^ k + (j + 1) - 1 = 2 ^ k + j - 1 + 1 := by omega
      have hrest := destroyCells_layout objects k address left (j + 1)
        { h with destroyed := h.destroyed ++ [objects[2 ^ k + j - 1].id] } (by omega)
      rw [Nat.one_shiftLeft, hnext] at hrest
      rw [if_pos (by simpa using hlt)]
      unfold StableVector.destroyCells
      simp only [cellsOf_getElem? (show j < 2 ^ k by omega), List.getElem?_eq_getElem hi, hrest]
      rw [List.drop_eq_getElem_cons hi, List.take_succ_cons, List.map_cons, List.append_assoc]
      rfl
    · rw [if_neg (by simpa using hlt), List.drop_eq_nil_of_le (by omega)]
      simp [StableVector.destroyCells]

/-- The loop over the chunks, from chunk `k` on. It ends at the first chunk that is not there. -/
theorem destroyFrom_layout (hneeded : objects.length.size ≤ addresses.length) : ∀ (left k : Nat) (h : Heap),
    k + left = 31 → addresses.length ≤ 31 →
    StableVector.destroyFrom objects.length k ((List.range' k left).map fun k =>
      addresses[k]?.map fun address => (⟨address, cellsOf objects k⟩ : Chunk α)) h =
      .ok { h with
        destroyed := h.destroyed ++ (objects.drop (2 ^ k - 1)).map Object.id
        freed := h.freed ++ addresses.drop k }
  | left, k, h, hk, hlen => by
    by_cases hthere : k < addresses.length
    · obtain ⟨left, rfl⟩ : ∃ m, left = m + 1 := ⟨left - 1, by omega⟩
      have hpos := Nat.two_pow_pos k
      have hrest := destroyFrom_layout hneeded left (k + 1) { h with
        destroyed := h.destroyed ++ ((objects.drop (2 ^ k - 1)).take (2 ^ k)).map Object.id
        freed := h.freed ++ [addresses[k]] } (by omega) hlen
      have hcells := destroyCells_layout objects k addresses[k] (2 ^ k) 0 h (Nat.zero_add _)
      have hdrop : 2 ^ (k + 1) - 1 = 2 ^ k - 1 + 2 ^ k := by
        rw [Nat.pow_succ]
        omega
      simp only [Nat.add_zero, ← List.range_eq_range'] at hcells
      rw [List.range'_succ, List.map_cons, List.getElem?_eq_getElem hthere, Option.map_some]
      unfold StableVector.destroyFrom
      rw [show List.range (1 <<< k) = List.range (2 ^ k) by rw [Nat.one_shiftLeft], hcells, ok_bind]
      refine hrest.trans ?_
      rw [hdrop, ← List.drop_drop, List.append_assoc, List.append_assoc, ← List.map_append, List.take_append_drop,
        List.drop_eq_getElem_cons hthere]
      rfl
    · have hfew : objects.length < 2 ^ k := Nat.size_le.1 (by omega)
      rw [List.drop_eq_nil_of_le (by omega), List.drop_eq_nil_of_le (by omega)]
      cases left with
      | zero => simp [StableVector.destroyFrom]
      | succ left =>
        rw [List.range'_succ, List.map_cons, List.getElem?_eq_none (by omega)]
        simp [StableVector.destroyFrom]

/-- **The destructor** visits the elements in their order, and frees every chunk. -/
theorem destroy_layout (hfits : Fits addresses objects.length) (h : Heap) : (layout addresses objects).destroy h =
    .ok { h with
      destroyed := h.destroyed ++ objects.map Object.id
      freed := h.freed ++ addresses } := by
  have hloop := destroyFrom_layout hfits.needed 31 0 h rfl hfits.length_le
  rw [← List.range_eq_range'] at hloop
  exact hloop

end Destructor

end Ltest
