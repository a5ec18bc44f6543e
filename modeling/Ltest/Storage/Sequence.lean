import Ltest.Storage.Layout

/-!
# Sequences of operations on a vector (`stable_vector.h`)

A sequence of operations that a plain list allows (`listOps`) runs without a fault on a `StableVector`, which is that list
afterwards (`Represents`). Elements that are there all the time stay at their addresses (`stableVector_refines`).
-/

namespace Ltest

open Program

variable {α : Type}

/-- The operations. -/
inductive VectorOp (α : Type) where
  | emplaceBack (value : α)
  | popBack
  | resize (newSize : Nat)
  | assign (i : Nat) (value : α)
  deriving Repr, DecidableEq

variable [Inhabited α]

/-- An operation on a vector. -/
def VectorOp.run : VectorOp α → StableVector α × Heap → Except Fault (StableVector α × Heap)
  | .emplaceBack value, (v, h) => v.emplaceBack value h
  | .popBack, (v, h) => v.popBack h
  | .resize newSize, (v, h) => v.resize newSize h
  | .assign i value, (v, h) => (v.setAt i value).map fun v => (v, h)

/-- The operation on a list, where it is allowed. -/
def VectorOp.onList : VectorOp α → List α → Option (List α)
  | .emplaceBack value, l => some (l ++ [value])
  | .popBack, l => if l.isEmpty then none else some l.dropLast
  | .resize newSize, l => some (l.take newSize ++ List.replicate (newSize - l.length) default)
  | .assign i value, l => if i < l.length then some (l.set i value) else none

/-- The table of chunks is large enough: there is no chunk for element `2 ^ 31`, counted from `1`, and when element `2 ^ 30`
is popped there is none after its chunk. -/
def VectorOp.InTable (n : Nat) : VectorOp α → Prop
  | .emplaceBack _ => n + 1 < 2 ^ 31
  | .popBack => n ≠ 2 ^ 30
  | .resize newSize => newSize < 2 ^ 31 ∧ ¬(newSize < 2 ^ 30 ∧ 2 ^ 30 ≤ n)
  | .assign _ _ => True

/-- The operations one after the other. -/
def runOps : List (VectorOp α) → StableVector α × Heap → Except Fault (StableVector α × Heap)
  | [], s => .ok s
  | op :: ops, s => do
    let s ← op.run s
    runOps ops s

def listOps : List (VectorOp α) → List α → Option (List α)
  | [], l => some l
  | op :: ops, l => do
    let l ← op.onList l
    listOps ops l

/-- **A vector is a list**, in chunks that it needs, and its destructor leaves nothing. -/
structure Represents (v : StableVector α) (h : Heap) (l : List α) : Prop where
  size : v.size = l.length
  get : ∀ (i : Nat) (x : α), l[i]? = some x → ∃ o, v.at_ i = .ok o ∧ o.value = x
  front : ∀ x, l.head? = some x → ∃ o, v.front = .ok o ∧ o.value = x
  back : ∀ x, l.getLast? = some x → ∃ o, v.back = .ok o ∧ o.value = x
  /-- The chunks are a prefix of the table, with at most one more than is needed. -/
  chunks : ∃ m, l.length.size ≤ m ∧ m ≤ l.length.size + 1 ∧
    ∀ k, (∃ chunk, v.entities[k]? = some (some chunk)) ↔ k < m
  /-- Every element has its slot in a chunk that is allocated. -/
  slots : ∀ i < l.length, ∃ chunk, v.entities[chunkOf i]? = some (some chunk) ∧
    chunk.cells.length = 2 ^ chunkOf i ∧ offsetOf i < 2 ^ chunkOf i
  /-- The destructor visits the elements and the chunks, each of them once. -/
  destructor : ∃ (objects : List (Object α)) (addresses : List Nat),
    objects.map Object.value = l ∧ (∀ (i : Nat) (o : Object α), objects[i]? = some o → v.at_ i = .ok o) ∧
    (∀ (k : Nat) (address : Nat), addresses[k]? = some address ↔
      ∃ cells, v.entities[k]? = some (some (⟨address, cells⟩ : Chunk α))) ∧
    (h.destroyed ++ objects.map Object.id).Nodup ∧ (h.freed ++ addresses).Nodup ∧
    v.destroy h = .ok { h with
      destroyed := h.destroyed ++ objects.map Object.id
      freed := h.freed ++ addresses }

section Sequences

variable {addresses addresses' : List Nat} {objects objects' : List (Object α)} {l l' : List α} {h : Heap}

omit [Inhabited α] in
theorem Fits.nil : Fits [] 0 := ⟨by simp, by simp, by decide⟩

omit [Inhabited α] in
theorem Accounts.start : Accounts [] [] {} := ⟨.refl _, .refl _⟩

omit [Inhabited α] in
/-- A layout is the list of its values. -/
theorem represents_layout (hfits : Fits addresses objects.length)
    (hobjects : (h.destroyed ++ objects.map Object.id).Nodup) (hchunks : (h.freed ++ addresses).Nodup) :
    Represents (layout addresses objects) h (objects.map Object.value) := by
  have hlength : (objects.map Object.value).length = objects.length := List.length_map _
  have hget : ∀ i x, (objects.map Object.value)[i]? = some x → ∃ o, (layout addresses objects).at_ i = .ok o ∧ o.value = x := by
    intro i x hx
    rw [List.getElem?_map, Option.map_eq_some_iff] at hx
    obtain ⟨o, ho, hvalue⟩ := hx
    exact ⟨o, at_layout hfits ho, hvalue⟩
  have hentity : ∀ k address cells, (layout addresses objects).entities[k]? = some (some ⟨address, cells⟩) ↔
      addresses[k]? = some address ∧ cells = cellsOf objects k := by
    intro k address cells
    have hlen := hfits.length_le
    rcases Nat.lt_or_ge k 31 with hk | hk
    · rw [getElem?_entities hk, Option.some.injEq, Option.map_eq_some_iff]
      constructor
      · rintro ⟨a, ha, heq⟩
        cases heq
        exact ⟨ha, rfl⟩
      · rintro ⟨ha, rfl⟩
        exact ⟨address, ha, rfl⟩
    · rw [List.getElem?_eq_none (by simpa [layout] using hk), List.getElem?_eq_none (by omega)]
      simp
  refine ⟨hlength.symm, hget, fun x hx => ?_, fun x hx => ?_, ?_, fun i hi => ?_, ?_⟩
  · rw [List.head?_eq_getElem?] at hx
    exact hget 0 x hx
  · rw [List.getLast?_eq_getElem?, hlength] at hx
    obtain ⟨o, ho, hvalue⟩ := hget _ x hx
    have hne : objects.length ≠ 0 := by
      intro hnil
      simp [List.length_eq_zero_iff.1 hnil] at hx
    exact ⟨o, by unfold StableVector.back; rw [totalSize_layout, if_neg hne]; exact ho, hvalue⟩
  · refine ⟨addresses.length, by rw [hlength]; exact hfits.needed, by rw [hlength]; exact hfits.spare, fun k => ?_⟩
    constructor
    · rintro ⟨⟨address, cells⟩, hchunk⟩
      exact (List.getElem?_eq_some_iff.1 ((hentity k address cells).1 hchunk).1).1
    · intro hk
      exact ⟨_, (hentity k _ _).2 ⟨List.getElem?_eq_getElem hk, rfl⟩⟩
  · rw [hlength] at hi
    have hk := hfits.chunkOf_lt hi
    exact ⟨_, (hentity _ _ _).2 ⟨List.getElem?_eq_getElem hk, rfl⟩, by simp [cellsOf], offsetOf_lt i⟩
  · refine ⟨objects, addresses, rfl, fun i o ho => at_layout hfits ho, fun k address => ?_, hobjects, hchunks,
      destroy_layout hfits h⟩
    constructor
    · exact fun ha => ⟨_, (hentity k _ _).2 ⟨ha, rfl⟩⟩
    · rintro ⟨cells, hchunk⟩
      exact ((hentity k _ _).1 hchunk).1

omit [Inhabited α] in
theorem Accounts.nodup {live chunks : List Nat} (ha : Accounts live chunks h) :
    (h.destroyed ++ live).Nodup ∧ (h.freed ++ chunks).Nodup :=
  ⟨ha.objects.nodup_iff.2 List.nodup_range, ha.chunks.nodup_iff.2 List.nodup_range⟩

/-- **One operation** on a layout. -/
theorem VectorOp.run_layout (op : VectorOp α) (hfits : Fits addresses objects.length)
    (hop : op.onList (objects.map Object.value) = some l) (htable : op.InTable objects.length) (h : Heap) :
    ∃ addresses' objects' h',
      op.run (layout addresses objects, h) = .ok (layout addresses' objects', h') ∧ objects'.map Object.value = l ∧
      Evolves (min objects.length objects'.length) addresses objects h addresses' objects' h' := by
  cases op with
  | emplaceBack value =>
    cases hop
    obtain ⟨addresses', h', hrun, e⟩ := emplaceBack_layout hfits htable value h
    exact ⟨addresses', _, h', hrun, by simp, e.mono (Nat.min_le_left _ _)⟩
  | popBack =>
    obtain ⟨hne, hl⟩ := Option.ite_none_left_eq_some.1 hop
    cases hl
    obtain ⟨front, o, rfl⟩ : ∃ front o, objects = front ++ [o] :=
      ⟨_, _, (List.dropLast_append_getLast (fun hnil => hne (by rw [hnil]; rfl))).symm⟩
    have hne' : front.length + 1 ≠ 2 ^ 30 := by
      replace htable : (front ++ [o]).length ≠ 2 ^ 30 := htable
      simpa using htable
    obtain ⟨addresses', h', hrun, e, -⟩ := popBack_layout hfits hne' h
    exact ⟨addresses', _, h', hrun, by simp, e.mono (Nat.min_le_right _ _)⟩
  | resize newSize =>
    cases hop
    obtain ⟨addresses', objects', h', hrun, hvalues, e⟩ := resize_layout newSize hfits htable.1 htable.2 h
    have hlength := congrArg List.length hvalues
    simp only [List.length_map, List.length_append, List.length_take, List.length_replicate] at hlength
    refine ⟨addresses', objects', h', hrun, ?_, e.mono (by omega)⟩
    rw [hvalues, List.length_map]
  | assign i value =>
    obtain ⟨hi, hl⟩ := Option.ite_none_right_eq_some.1 hop
    cases hl
    rw [List.length_map] at hi
    obtain ⟨hrun, e⟩ := setAt_layout hfits (List.getElem?_eq_getElem hi) value h
    refine ⟨addresses, _, h, ?_, ?_, e⟩
    · show Except.map _ (StableVector.setAt _ _ _) = _
      rw [hrun]
      rfl
    · rw [List.map_set]

/-- An operation that runs stays in the table. -/
theorem VectorOp.inTable_of_run (op : VectorOp α) (hfits : Fits addresses objects.length)
    (hop : op.onList (objects.map Object.value) = some l) {s : StableVector α × Heap}
    (hrun : op.run (layout addresses objects, h) = .ok s) : op.InTable objects.length := by
  cases op with
  | emplaceBack value => exact lt_of_emplaceBack hfits hrun
  | popBack =>
    obtain ⟨hne, -⟩ := Option.ite_none_left_eq_some.1 hop
    obtain ⟨front, o, rfl⟩ : ∃ front o, objects = front ++ [o] :=
      ⟨_, _, (List.dropLast_append_getLast (fun hnil => hne (by rw [hnil]; rfl))).symm⟩
    have hne' := ne_of_popBack hrun
    show (front ++ [o]).length ≠ 2 ^ 30
    simpa using hne'
  | resize newSize => exact limits_of_resize hfits hrun
  | assign i value => trivial

/-- Below `2 ^ 30` the table is large enough. -/
theorem VectorOp.inTable_of_lt {op : VectorOp α} (hop : op.onList l = some l') (hsmall : l.length < 2 ^ 30)
    (hsmall' : l'.length < 2 ^ 30) : op.InTable l.length := by
  cases op with
  | emplaceBack value =>
    show l.length + 1 < 2 ^ 31
    omega
  | popBack => exact Nat.ne_of_lt hsmall
  | resize newSize =>
    cases hop
    rw [List.length_append, List.length_take, List.length_replicate] at hsmall'
    exact ⟨by omega, by omega⟩
  | assign i value => trivial

/-- **A sequence of operations** on a layout; elements that are there all the time stay. -/
theorem runOps_layout (kept : Nat) : ∀ (ops : List (VectorOp α)) {addresses : List Nat} {objects : List (Object α)}
    (h : Heap), Fits addresses objects.length → listOps ops (objects.map Object.value) = some l →
    (∀ n l', listOps (ops.take n) (objects.map Object.value) = some l' → kept ≤ l'.length ∧ l'.length < 2 ^ 30) →
    ∃ addresses' objects' h', runOps ops (layout addresses objects, h) = .ok (layout addresses' objects', h') ∧
      objects'.map Object.value = l ∧ Evolves kept addresses objects h addresses' objects' h'
  | [], addresses, objects, h, hfits, hops, _ => by
    cases hops
    exact ⟨addresses, objects, h, rfl, rfl, .refl hfits⟩
  | op :: ops, addresses, objects, h, hfits, hops, hkept => by
    obtain ⟨l₁, hop, hrest⟩ := Option.bind_eq_some_iff.1 hops
    have hfirst := hkept 0 _ rfl
    have hsecond := hkept 1 _ (Option.bind_eq_some_iff.2 ⟨_, hop, rfl⟩)
    have htable := VectorOp.inTable_of_lt hop hfirst.2 hsecond.2
    rw [List.length_map] at htable
    obtain ⟨addresses₁, objects₁, h₁, hrun, rfl, e₁⟩ := op.run_layout hfits hop htable h
    rw [List.length_map] at hfirst hsecond
    obtain ⟨addresses₂, objects₂, h₂, hrun₂, hvalues, e₂⟩ := runOps_layout kept ops h₁ e₁.fits hrest
      fun n l' hl' => hkept (n + 1) l' (Option.bind_eq_some_iff.2 ⟨_, hop, hl'⟩)
    refine ⟨addresses₂, objects₂, h₂, ?_, hvalues, (e₁.mono (by omega)).trans e₂⟩
    unfold runOps
    rw [hrun, ok_bind]
    exact hrun₂

theorem runOps_append (ops ops' : List (VectorOp α)) (s : StableVector α × Heap) :
    runOps (ops ++ ops') s = runOps ops s >>= runOps ops' := by
  induction ops generalizing s with
  | nil => rfl
  | cons op ops ih =>
    show (op.run s >>= fun s => runOps (ops ++ ops') s) = (op.run s >>= runOps ops) >>= runOps ops'
    cases op.run s with
    | error e => rfl
    | ok s' => exact ih s'

theorem listOps_append (ops ops' : List (VectorOp α)) (l : List α) :
    listOps (ops ++ ops') l = (listOps ops l).bind (listOps ops') := by
  induction ops generalizing l with
  | nil => rfl
  | cons op ops ih =>
    show ((op.onList l).bind fun l => listOps (ops ++ ops') l) = ((op.onList l).bind (listOps ops)).bind (listOps ops')
    cases op.onList l with
    | none => rfl
    | some l' => exact ih l'

end Sequences

/-- **A vector is a list with stable slots**, over every sequence of operations that keeps the size below `2 ^ 30`. -/
theorem stableVector_refines (ops : List (VectorOp α)) (l : List α) (hops : listOps ops [] = some l)
    (hsmall : ∀ n l', listOps (ops.take n) [] = some l' → l'.length < 2 ^ 30) :
    ∃ v h, runOps ops ({}, {}) = .ok (v, h) ∧ Represents v h l ∧
      (∀ i i', chunkOf i = chunkOf i' → offsetOf i = offsetOf i' → i = i') ∧
      ∀ before after, ops = before ++ after → ∃ v₁ h₁, runOps before ({}, {}) = .ok (v₁, h₁) ∧
        ∀ i, (∀ n l', listOps (before ++ after.take n) [] = some l' → i < l'.length) →
          ∃ address, v₁.addressOf i = .ok (address, offsetOf i) ∧ v.addressOf i = .ok (address, offsetOf i) ∧
          ∃ o₁ o, v₁.at_ i = .ok o₁ ∧ v.at_ i = .ok o ∧ o.id = o₁.id := by
  have hrun : ∀ {ops : List (VectorOp α)} {l : List α}, listOps ops [] = some l →
      (∀ n l', listOps (ops.take n) [] = some l' → l'.length < 2 ^ 30) → ∃ addresses objects h,
      runOps ops ({}, {}) = .ok (layout addresses objects, h) ∧ objects.map Object.value = l ∧
      Fits addresses objects.length ∧ Accounts (objects.map Object.id) addresses h := by
    intro ops l hops hsmall
    have hempty : Fits [] ([] : List (Object α)).length := Fits.nil
    obtain ⟨addresses, objects, h, hrun, hvalues, e⟩ :=
      runOps_layout 0 ops {} hempty hops fun n l' hl' => ⟨Nat.zero_le _, hsmall n l' hl'⟩
    have ha := e.accounts [] [] Accounts.start
    rw [List.append_nil, List.append_nil] at ha
    exact ⟨addresses, objects, h, hrun, hvalues, e.fits, ha⟩
  obtain ⟨addresses, objects, h, hall, rfl, hfits, ha⟩ := hrun hops hsmall
  refine ⟨layout addresses objects, h, hall, represents_layout hfits ha.nodup.1 ha.nodup.2, fun _ _ => slot_injective, ?_⟩
  rintro before after rfl
  rw [listOps_append] at hops
  obtain ⟨l₁, hbefore, hafter⟩ := Option.bind_eq_some_iff.1 hops
  -- the states of `before` and those of `after` are states of the whole sequence
  obtain ⟨addresses₁, objects₁, h₁, hrun₁, rfl, hfits₁, -⟩ := hrun hbefore fun n l' hl' => by
    rcases Nat.le_total n before.length with hn | hn
    · exact hsmall n l' (by rwa [List.take_append_of_le_length hn])
    · rw [List.take_of_length_le hn] at hl'
      exact hsmall before.length l' (by rwa [List.take_left])
  refine ⟨_, h₁, hrun₁, fun i hi => ?_⟩
  have halive : ∀ n l', listOps (after.take n) (objects₁.map Object.value) = some l' →
      i < l'.length ∧ l'.length < 2 ^ 30 := by
    intro n l' hl'
    have hlist : listOps (before ++ after.take n) [] = some l' := by
      rw [listOps_append, hbefore]
      exact hl'
    refine ⟨hi n l' hlist, hsmall (before.length + n) l' ?_⟩
    rwa [List.take_length_add_append]
  obtain ⟨addresses₂, objects₂, h₂, hrun₂, -, e⟩ := runOps_layout (i + 1) after h₁ hfits₁ hafter halive
  rw [runOps_append, hrun₁, ok_bind, hrun₂, Except.ok.injEq, Prod.mk.injEq] at hall
  obtain ⟨hlayout, rfl⟩ := hall
  rw [← hlayout]
  obtain ⟨haddress, hid⟩ := e.stays i (Nat.lt_succ_self i)
  have hi₁ : i < objects₁.length := by simpa using (halive 0 _ rfl).1
  have hchunk := List.getElem?_eq_getElem (hfits₁.chunkOf_lt hi₁)
  rw [List.getElem?_eq_getElem hi₁] at hid
  obtain ⟨o, ho, hoid⟩ := Option.map_eq_some_iff.1 hid
  exact ⟨_, addressOf_layout hfits₁.length_le hchunk, addressOf_layout e.fits.length_le (haddress.trans hchunk), _, o,
    at_layout hfits₁ (List.getElem?_eq_getElem hi₁), at_layout e.fits ho, hoid⟩

theorem stableVector_refines_resize :
    ∃ v h, runOps [VectorOp.emplaceBack 5, .popBack, .resize 3] ({}, {}) = .ok (v, h) ∧ Represents v h [0, 0, 0] := by
  have hsmall : ∀ n l', listOps ([VectorOp.emplaceBack 5, .popBack, .resize 3].take n) [] = some l' →
      l'.length < 2 ^ 30 := by
    rintro (_ | _ | _ | n) l' hl'
    iterate 3
      cases hl'
      decide
    rw [List.take_of_length_le (by simp)] at hl'
    cases hl'
    decide
  obtain ⟨v, h, hrun, hrepresents, -⟩ := stableVector_refines
    [VectorOp.emplaceBack 5, .popBack, .resize 3] [0, 0, 0] rfl hsmall
  exact ⟨v, h, hrun, hrepresents⟩

end Ltest
