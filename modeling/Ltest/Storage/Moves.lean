import Ltest.Storage.Sequence
import Mathlib.Data.List.Forall2

/-!
# Moving vectors (`stable_vector.h`)

The move constructor takes the chunks but leaves the size, so the source is not a vector any more unless it was empty.
Move assignment swaps the chunks and sets the size of the source to `0`: what the destination held is left in the chunks
of the source, where no destructor comes to it. So programs that move vectors work like programs on lists (`Sound`)
exactly if a move constructor only takes from empty vectors and a move assignment only goes to empty ones, and no vector
outgrows its table (`moves_sound_iff`).
-/

namespace Ltest

open Program

variable {α : Type}

namespace StableVector

/-- The move constructor: the new vector and what is left of the source. Every entry is swapped with a null pointer. -/
def moveConstruct (rhs : StableVector α) : StableVector α × StableVector α :=
  let this : StableVector α := {}
  ({ this with totalSize := rhs.totalSize, entities := rhs.entities }, { rhs with entities := this.entities })

/-- Move assignment between distinct objects: the destination and what is left of the source. -/
def moveAssign (this rhs : StableVector α) : StableVector α × StableVector α :=
  ({ this with totalSize := rhs.totalSize, entities := rhs.entities },
    { rhs with totalSize := 0, entities := this.entities })

/-- What is found in a vector. -/
def elements (v : StableVector α) : List (Object α) := (List.range v.size).filterMap fun i => (v.at_ i).toOption

/-- The chunks in its table. -/
def chunks (v : StableVector α) : List Nat := v.entities.filterMap (Option.map Chunk.address)

end StableVector

/-! ## Programs -/

/-- What a program does with its vectors, which are numbered in the order of their construction. -/
inductive VectorCommand (α : Type) where
  | construct
  | operate (i : Nat) (op : VectorOp α)
  | moveConstruct (j : Nat)
  | moveAssign (i j : Nat)
  | destroy (i : Nat)
  deriving Repr, DecidableEq

/-- The vectors of a program, of which some are destroyed, and the heap. -/
structure VectorStore (α : Type) where
  vectors : List (Option (StableVector α)) := []
  heap : Heap := {}

/-- The vector `i`. -/
def VectorStore.vector (s : VectorStore α) (i : Nat) : Except Fault (StableVector α) :=
  match s.vectors[i]? with
  | some (some v) => .ok v
  | _ => .error .notAlive

variable [Inhabited α]

/-- A command. -/
def VectorCommand.run : VectorCommand α → VectorStore α → Except Fault (VectorStore α)
  | .construct, s => .ok { s with vectors := s.vectors ++ [some {}] }
  | .operate i op, s => do
    let v ← s.vector i
    let (v, h) ← op.run (v, s.heap)
    return ⟨s.vectors.set i (some v), h⟩
  | .moveConstruct j, s => do
    let rhs ← s.vector j
    let (this, rhs) := rhs.moveConstruct
    return { s with vectors := s.vectors.set j (some rhs) ++ [some this] }
  | .moveAssign i j, s => do
    let this ← s.vector i
    let rhs ← s.vector j
    let (this, rhs) := this.moveAssign rhs
    return { s with vectors := (s.vectors.set i (some this)).set j (some rhs) }
  | .destroy i, s => do
    let v ← s.vector i
    let h ← v.destroy s.heap
    return ⟨s.vectors.set i none, h⟩

/-- The command on lists: a move leaves an empty list. -/
def VectorCommand.onLists : VectorCommand α → List (Option (List α)) → Option (List (Option (List α)))
  | .construct, ls => some (ls ++ [some []])
  | .operate i op, ls => do
    let l ← ls[i]?.join
    let l ← op.onList l
    return ls.set i (some l)
  | .moveConstruct j, ls => do
    let l ← ls[j]?.join
    return ls.set j (some []) ++ [some l]
  | .moveAssign i j, ls => do
    let _ ← ls[i]?.join
    let l ← ls[j]?.join
    if i = j then none else some ((ls.set i (some l)).set j (some []))
  | .destroy i, ls => do
    let _ ← ls[i]?.join
    return ls.set i none

/-- A program. -/
def runCommands : List (VectorCommand α) → VectorStore α → Except Fault (VectorStore α)
  | [], s => .ok s
  | c :: cs, s => do
    let s ← c.run s
    runCommands cs s

def listCommands : List (VectorCommand α) → List (Option (List α)) → Option (List (Option (List α)))
  | [], ls => some ls
  | c :: cs, ls => do
    let ls ← c.onLists ls
    listCommands cs ls

/-- **The vectors are the lists**, and every object and every chunk is gone or belongs to one of them. -/
structure Sound (s : VectorStore α) (ls : List (Option (List α))) : Prop where
  represents : List.Forall₂ (Option.Rel fun v l => Represents v s.heap l) s.vectors ls
  accounts : Accounts (s.vectors.flatMap fun v => (v.map fun v => v.elements.map Object.id).getD [])
    (s.vectors.flatMap fun v => (v.map StableVector.chunks).getD []) s.heap

/-- A move construction takes from an empty vector, a move assignment goes to an empty one, and the table of chunks is
large enough for the operations. -/
def VectorCommand.Safe (ls : List (Option (List α))) : VectorCommand α → Prop
  | .operate i op => ∀ l, ls[i]?.join = some l → op.InTable l.length
  | .moveConstruct j => ls[j]? = some (some [])
  | .moveAssign i _ => ls[i]? = some (some [])
  | _ => True

/-! ## Layouts of all vectors -/

/-- What a vector holds and where. -/
structure Held (α : Type) where
  addresses : List Nat
  objects : List (Object α)

def Held.vector (x : Held α) : StableVector α := layout x.addresses x.objects

def Held.list (x : Held α) : List α := x.objects.map Object.value

/-- The ids of the objects in a vector that is there. -/
def idsIn : Option (Held α) → List Nat
  | none => []
  | some x => x.objects.map Object.id

/-- The addresses of its chunks. -/
def chunksIn : Option (Held α) → List Nat
  | none => []
  | some x => x.addresses

/-- The vectors are layouts of what they hold. -/
structure Laid (xs : List (Option (Held α))) (s : VectorStore α) (ls : List (Option (List α))) : Prop where
  vectors : s.vectors = xs.map (Option.map Held.vector)
  lists : ls = xs.map (Option.map Held.list)
  fits : ∀ x, some x ∈ xs → Fits x.addresses x.objects.length
  accounts : Accounts (xs.flatMap idsIn) (xs.flatMap chunksIn) s.heap

section Moves

variable {xs : List (Option (Held α))} {s s' : VectorStore α} {ls ls' : List (Option (List α))} {x : Held α} {i j : Nat}

omit [Inhabited α] in
theorem Accounts.perm {live live' chunks chunks' : List Nat} {h : Heap} (ha : Accounts live chunks h)
    (hlive : live.Perm live') (hchunks : chunks.Perm chunks') : Accounts live' chunks' h :=
  ⟨(hlive.symm.append_left _).trans ha.objects, (hchunks.symm.append_left _).trans ha.chunks⟩

/-- One entry and the others. -/
theorem perm_flatMap_eraseIdx {A B : Type} (f : A → List B) : ∀ {l : List A} {i : Nat} {a : A}, l[i]? = some a →
    (l.flatMap f).Perm (f a ++ (l.eraseIdx i).flatMap f)
  | [], i, a, h => by cases h
  | b :: l, 0, a, h => by
    cases h
    exact .refl _
  | b :: l, i + 1, a, h => by
    have ih := perm_flatMap_eraseIdx f (show l[i]? = some a from h)
    rw [List.eraseIdx_cons_succ, List.flatMap_cons, List.flatMap_cons]
    refine (ih.append_left _).trans ?_
    rw [← List.append_assoc, ← List.append_assoc]
    exact List.perm_append_comm.append_right _

/-- The others stay when one entry is replaced. -/
theorem perm_flatMap_set {A B : Type} (f : A → List B) {l : List A} {i : Nat} (a : A) (hi : i < l.length) :
    ((l.set i a).flatMap f).Perm (f a ++ (l.eraseIdx i).flatMap f) := by
  have h := perm_flatMap_eraseIdx f (List.getElem?_set_self hi : (l.set i a)[i]? = some a)
  rwa [List.eraseIdx_set_eq] at h

theorem filterMap_range_getElem? {A : Type} : ∀ {l : List A} {n : Nat}, l.length ≤ n →
    ((List.range n).filterMap fun i => l[i]?) = l
  | [], n, _ => by simp
  | a :: l, 0, h => by simp at h
  | a :: l, n + 1, h => by
    have ih := filterMap_range_getElem? (Nat.le_of_succ_le_succ h : l.length ≤ n)
    rw [List.range_succ_eq_map, List.filterMap_cons, List.filterMap_map]
    exact congrArg (a :: ·) ih

omit [Inhabited α] in
theorem elements_layout (hfits : Fits x.addresses x.objects.length) : x.vector.elements = x.objects := by
  unfold StableVector.elements
  refine Eq.trans (List.filterMap_congr fun i hi => ?_) (filterMap_range_getElem? (Nat.le_refl x.objects.length))
  have hget := List.getElem?_eq_getElem (List.mem_range.1 hi)
  rw [hget, show x.vector.at_ i = _ from at_layout hfits hget]
  rfl

omit [Inhabited α] in
theorem chunks_layout (hfits : Fits x.addresses x.objects.length) : x.vector.chunks = x.addresses := by
  unfold StableVector.chunks Held.vector layout
  rw [List.filterMap_map]
  refine Eq.trans (List.filterMap_congr fun k _ => ?_) (filterMap_range_getElem? hfits.length_le)
  rw [Function.comp_apply, Option.map_map]
  exact Option.map_id'

omit [Inhabited α] in
theorem Laid.live (h : Laid xs s ls) :
    (s.vectors.flatMap fun v => (v.map fun v => v.elements.map Object.id).getD []) = xs.flatMap idsIn := by
  rw [h.vectors, List.flatMap_map]
  refine List.flatMap_congr fun x hx => ?_
  cases x with
  | none => rfl
  | some x => exact congrArg (List.map Object.id) (elements_layout (h.fits x hx))

omit [Inhabited α] in
theorem Laid.allocated (h : Laid xs s ls) :
    (s.vectors.flatMap fun v => (v.map StableVector.chunks).getD []) = xs.flatMap chunksIn := by
  rw [h.vectors, List.flatMap_map]
  refine List.flatMap_congr fun x hx => ?_
  cases x with
  | none => rfl
  | some x => exact chunks_layout (h.fits x hx)

omit [Inhabited α] in
/-- Layouts are sound. -/
theorem Laid.sound (h : Laid xs s ls) : Sound s ls where
  represents := by
    rw [h.vectors, h.lists, List.forall₂_map_left_iff, List.forall₂_map_right_iff, List.forall₂_same]
    intro x hx
    cases x with
    | none => exact .none
    | some x =>
      obtain ⟨i, hi⟩ := List.getElem?_of_mem hx
      have ha := (h.accounts.perm (perm_flatMap_eraseIdx _ hi) (perm_flatMap_eraseIdx _ hi)).nodup
      rw [← List.append_assoc, ← List.append_assoc] at ha
      exact .some (represents_layout (h.fits x hx) (ha.1.sublist (List.sublist_append_left _ _))
        (ha.2.sublist (List.sublist_append_left _ _)))
  accounts := by
    rw [h.live, h.allocated]
    exact h.accounts

omit [Inhabited α] in
theorem Laid.start : Laid ([] : List (Option (Held α))) {} [] := ⟨rfl, rfl, by simp, Accounts.start⟩

omit [Inhabited α] in
/-- The vector of a list. -/
theorem Laid.vector (h : Laid xs s ls) {l : List α} (hl : ls[i]?.join = some l) :
    ∃ x, xs[i]? = some (some x) ∧ x.list = l ∧ s.vector i = .ok x.vector := by
  obtain ⟨hl⟩ : ls[i]? = some (some l) ∧ True := ⟨Option.join_eq_some_iff.1 hl, trivial⟩
  rw [h.lists, List.getElem?_map, Option.map_eq_some_iff] at hl
  obtain ⟨y, hy, hlist⟩ := hl
  obtain ⟨x, rfl, hx⟩ := Option.map_eq_some_iff.1 hlist
  refine ⟨x, hy, hx, ?_⟩
  unfold VectorStore.vector
  rw [h.vectors, List.getElem?_map, hy]
  rfl

omit [Inhabited α] in
/-- One vector changes. -/
theorem Laid.set (h : Laid xs s ls) (hi : xs[i]? = some (some x)) {y : Option (Held α)} {h' : Heap}
    (hfits : ∀ z, y = some z → Fits z.addresses z.objects.length)
    (haccounts : ∀ live chunks, Accounts (x.objects.map Object.id ++ live) (x.addresses ++ chunks) s.heap →
      Accounts (idsIn y ++ live) (chunksIn y ++ chunks) h') :
    Laid (xs.set i y) ⟨s.vectors.set i (y.map Held.vector), h'⟩ (ls.set i (y.map Held.list)) where
  vectors := by rw [h.vectors, List.map_set]
  lists := by rw [h.lists, List.map_set]
  fits z hz := by
    rcases List.mem_or_eq_of_mem_set hz with hz | hz
    · exact h.fits z hz
    · exact hfits z hz.symm
  accounts := by
    have hlt := (List.getElem?_eq_some_iff.1 hi).1
    have ha := h.accounts.perm (perm_flatMap_eraseIdx _ hi) (perm_flatMap_eraseIdx _ hi)
    exact (haccounts _ _ ha).perm (perm_flatMap_set idsIn y hlt).symm (perm_flatMap_set chunksIn y hlt).symm

omit [Inhabited α] in
/-- A vector of an empty list holds nothing. -/
theorem objects_of_empty (hl : ls[i]?.join = some x.list) (hempty : ls[i]? = some (some [])) : x.objects = [] := by
  rw [hempty] at hl
  exact List.map_eq_nil_iff.1 (Option.some.inj hl).symm

/-- **A command** on layouts. -/
theorem VectorCommand.run_laid (c : VectorCommand α) (h : Laid xs s ls) (hc : c.onLists ls = some ls')
    (hsafe : c.Safe ls) : ∃ xs' s', c.run s = .ok s' ∧ Laid xs' s' ls' := by
  have hlength : xs.length = ls.length := by rw [h.lists, List.length_map]
  cases c with
  | construct =>
    cases hc
    refine ⟨xs ++ [some ⟨[], []⟩], _, rfl, ?_, ?_, fun x hx => ?_, ?_⟩
    · rw [List.map_append, h.vectors]
      rfl
    · rw [List.map_append, h.lists]
      rfl
    · obtain hx | hx := List.mem_append.1 hx
      · exact h.fits x hx
      · cases List.mem_singleton.1 hx
        exact Fits.nil
    · rw [List.flatMap_append, List.flatMap_append]
      exact h.accounts.perm (.of_eq (List.append_nil _).symm) (.of_eq (List.append_nil _).symm)
  | operate i op =>
    obtain ⟨l, hl, hc⟩ := Option.bind_eq_some_iff.1 hc
    obtain ⟨l', hop, hc⟩ := Option.bind_eq_some_iff.1 hc
    cases hc
    obtain ⟨x, hx, rfl, hvector⟩ := h.vector hl
    have htable := hsafe x.list hl
    rw [Held.list, List.length_map] at htable
    obtain ⟨addresses', objects', h', hrun, rfl, e⟩ :=
      op.run_layout (h.fits x (List.mem_of_getElem? hx)) hop htable s.heap
    refine ⟨_, _, ?_, h.set (y := some ⟨addresses', objects'⟩) hx (by rintro z ⟨⟩; exact e.fits) e.accounts⟩
    rw [VectorCommand.run, hvector, ok_bind, show op.run (x.vector, s.heap) = _ from hrun]
    rfl
  | moveConstruct j =>
    obtain ⟨l, hl, hc⟩ := Option.bind_eq_some_iff.1 hc
    cases hc
    obtain ⟨x, hx, rfl, hvector⟩ := h.vector hl
    have hnil := objects_of_empty hl hsafe
    obtain ⟨addresses, objects⟩ := x
    subst hnil
    have hlt := (List.getElem?_eq_some_iff.1 hx).1
    have hperm : ∀ f : Option (Held α) → List Nat, f (some ⟨[], []⟩) = [] → (xs.flatMap f).Perm
        ((xs.set j (some (⟨[], []⟩ : Held α)) ++ [some (⟨addresses, []⟩ : Held α)]).flatMap f) := by
      intro f hf
      have hset := perm_flatMap_set f (some ⟨[], []⟩) hlt
      rw [hf, List.nil_append] at hset
      rw [List.flatMap_append, List.flatMap_singleton]
      exact (perm_flatMap_eraseIdx f hx).trans (List.perm_append_comm.trans (hset.symm.append_right _))
    refine ⟨xs.set j (some ⟨[], []⟩) ++ [some ⟨addresses, []⟩],
      ⟨s.vectors.set j (some {}) ++ [some (layout addresses [])], s.heap⟩, ?_, ?_, ?_, fun x hmem => ?_,
      h.accounts.perm (hperm idsIn rfl) (hperm chunksIn rfl)⟩
    · rw [VectorCommand.run, hvector]
      rfl
    · rw [List.map_append, List.map_set, h.vectors]
      rfl
    · rw [List.map_append, List.map_set, h.lists]
      rfl
    · obtain hmem | hmem := List.mem_append.1 hmem
      · obtain hmem | hmem := List.mem_or_eq_of_mem_set hmem
        · exact h.fits x hmem
        · cases hmem
          exact Fits.nil
      · cases List.mem_singleton.1 hmem
        exact h.fits _ (List.mem_of_getElem? hx)
  | moveAssign i j =>
    obtain ⟨l₀, hl₀, hc⟩ := Option.bind_eq_some_iff.1 hc
    obtain ⟨l, hl, hc⟩ := Option.bind_eq_some_iff.1 hc
    obtain ⟨hne, hc⟩ := Option.ite_none_left_eq_some.1 hc
    cases hc
    obtain ⟨x₀, hx₀, rfl, hvector₀⟩ := h.vector hl₀
    obtain ⟨x, hx, rfl, hvector⟩ := h.vector hl
    have hnil := objects_of_empty hl₀ hsafe
    obtain ⟨addresses, objects⟩ := x₀
    subst hnil
    -- the vectors have just been swapped
    obtain ⟨hi, hxi⟩ := List.getElem?_eq_some_iff.1 hx₀
    obtain ⟨hj, hxj⟩ := List.getElem?_eq_some_iff.1 hx
    have hperm := List.set_set_perm hi hj
    rw [hxi, hxj] at hperm
    refine ⟨(xs.set i (some x)).set j (some ⟨addresses, []⟩),
      ⟨(s.vectors.set i (some x.vector)).set j (some (layout addresses [])), s.heap⟩, ?_, ?_, ?_, fun y hmem => ?_,
      h.accounts.perm (hperm.symm.flatMap_right _) (hperm.symm.flatMap_right _)⟩
    · rw [VectorCommand.run, hvector₀, ok_bind, hvector]
      rfl
    · rw [List.map_set, List.map_set, h.vectors]
      rfl
    · rw [List.map_set, List.map_set, h.lists]
      rfl
    · exact h.fits y (hperm.mem_iff.1 hmem)
  | destroy i =>
    obtain ⟨l, hl, hc⟩ := Option.bind_eq_some_iff.1 hc
    cases hc
    obtain ⟨x, hx, rfl, hvector⟩ := h.vector hl
    have hdestroy : x.vector.destroy s.heap = _ := destroy_layout (h.fits x (List.mem_of_getElem? hx)) s.heap
    refine ⟨_, ⟨s.vectors.set i none, { s.heap with
      destroyed := s.heap.destroyed ++ x.objects.map Object.id
      freed := s.heap.freed ++ x.addresses }⟩, ?_, h.set (y := none) hx (by rintro z ⟨⟩) fun live chunks ha => ?_⟩
    · rw [VectorCommand.run, hvector, ok_bind, hdestroy]
      rfl
    · refine ⟨?_, ?_⟩
      · rw [List.append_assoc]
        exact ha.objects
      · rw [List.append_assoc]
        exact ha.chunks

omit [Inhabited α] in
/-- Nothing is found in a vector of size `0`. -/
theorem elements_of_size {v : StableVector α} (h : v.totalSize = 0) : v.elements = [] := by
  unfold StableVector.elements StableVector.size
  rw [h]
  rfl

theorem forall₂_getElem? {A B : Type} {R : A → B → Prop} : ∀ {l : List A} {m : List B} {i : Nat} {a : A} {b : B},
    List.Forall₂ R l m → l[i]? = some a → m[i]? = some b → R a b
  | _, _, _, _, _, .nil, ha, _ => by cases ha
  | _, _, 0, _, _, .cons h _, ha, hb => by
    cases ha
    cases hb
    exact h
  | _ :: l, _ :: m, i + 1, a, b, .cons _ h, ha, hb =>
    forall₂_getElem? h (show l[i]? = some a from ha) (show m[i]? = some b from hb)

omit [Inhabited α] in
/-- A vector that holds nothing represents the empty list. -/
theorem empty_of_length (hl : ls[i]?.join = some x.list) (hx : x.objects.length = 0) : ls[i]? = some (some []) := by
  rw [Option.join_eq_some_iff.1 hl, Held.list, List.length_eq_zero_iff.1 hx]
  rfl

/-- **A command after which the vectors are sound** is safe. -/
theorem VectorCommand.safe_of_sound (c : VectorCommand α) (h : Laid xs s ls) (hc : c.onLists ls = some ls')
    (hrun : c.run s = .ok s') (hs : Sound s' ls') : c.Safe ls := by
  have hsame : s.vectors.length = xs.length := by rw [h.vectors, List.length_map]
  have hlength : ls.length = xs.length := by rw [h.lists, List.length_map]
  cases c with
  | construct => trivial
  | destroy i => trivial
  | operate i op =>
    obtain ⟨l, hl, hc⟩ := Option.bind_eq_some_iff.1 hc
    obtain ⟨l', hop, hc⟩ := Option.bind_eq_some_iff.1 hc
    obtain ⟨x, hx, rfl, hvector⟩ := h.vector hl
    rw [VectorCommand.run, hvector, ok_bind] at hrun
    obtain ⟨s₁, hrun₁, -⟩ := bind_eq_ok.1 hrun
    intro l₁ hl₁
    cases hl.symm.trans hl₁
    rw [Held.list, List.length_map]
    exact op.inTable_of_run (h.fits x (List.mem_of_getElem? hx)) hop hrun₁
  | moveConstruct j =>
    obtain ⟨l, hl, hc⟩ := Option.bind_eq_some_iff.1 hc
    cases hc
    obtain ⟨x, hx, rfl, hvector⟩ := h.vector hl
    have hlt := (List.getElem?_eq_some_iff.1 hx).1
    rw [VectorCommand.run, hvector] at hrun
    cases hrun
    -- the source keeps the size that it had, and should be empty
    have hsource := forall₂_getElem? (i := j) hs.represents
      (by rw [List.getElem?_append_left (by simp; omega), List.getElem?_set_self (by omega)])
      (by rw [List.getElem?_append_left (by simp; omega), List.getElem?_set_self (by omega)])
    cases hsource with
    | some hrepresents => exact empty_of_length hl hrepresents.size
  | moveAssign i j =>
    obtain ⟨l₀, hl₀, hc⟩ := Option.bind_eq_some_iff.1 hc
    obtain ⟨l, hl, hc⟩ := Option.bind_eq_some_iff.1 hc
    obtain ⟨hne, hc⟩ := Option.ite_none_left_eq_some.1 hc
    cases hc
    obtain ⟨x₀, hx₀, rfl, hvector₀⟩ := h.vector hl₀
    obtain ⟨x, hx, rfl, hvector⟩ := h.vector hl
    have hi := (List.getElem?_eq_some_iff.1 hx₀).1
    have hj := (List.getElem?_eq_some_iff.1 hx).1
    rw [VectorCommand.run, hvector₀, ok_bind, hvector] at hrun
    cases hrun
    have hbefore := h.accounts.objects.length_eq
    have hafter := hs.accounts.objects.length_eq
    rw [← h.live] at hbefore
    rw [List.length_append] at hbefore hafter
    -- what is found in the vectors before and after, up to the destination and the source
    generalize hfound : (fun v : Option (StableVector α) => (v.map fun v => v.elements.map Object.id).getD []) = found
      at hbefore hafter
    have hv₀ : s.vectors[i]? = some (some x₀.vector) := by
      rw [h.vectors, List.getElem?_map, hx₀]
      rfl
    have hv : (s.vectors.set i (some x.vector))[j]? = some (some x.vector) := by
      rw [List.getElem?_set_ne hne, h.vectors, List.getElem?_map, hx]
      rfl
    have h₁ := (perm_flatMap_eraseIdx found hv₀).length_eq
    have h₂ := (perm_flatMap_set found (some x.vector) (show i < s.vectors.length by omega)).length_eq
    have h₃ := (perm_flatMap_eraseIdx found hv).length_eq
    have h₄ := (perm_flatMap_set found (some (x₀.vector.moveAssign x.vector).2)
      (show j < (s.vectors.set i (some x.vector)).length by simp; omega)).length_eq
    rw [List.length_append] at h₁ h₂ h₃ h₄
    have hleft : (found (some (x₀.vector.moveAssign x.vector).2)).length = 0 := by
      rw [← hfound]
      show List.length (List.map _ _) = 0
      rw [elements_of_size rfl]
      rfl
    have hlost : (found (some x₀.vector)).length = x₀.objects.length := by
      rw [← hfound]
      show List.length (List.map _ _) = _
      rw [elements_layout (h.fits x₀ (List.mem_of_getElem? hx₀)), List.length_map]
    refine empty_of_length hl₀ ?_
    change s.heap.destroyed.length + (List.flatMap found ((s.vectors.set i (some x.vector)).set j
      (some (x₀.vector.moveAssign x.vector).2))).length = (List.range s.heap.nextObject).length at hafter
    omega

/-- **Programs that move vectors** work like programs on lists exactly if all their commands are safe. -/
theorem runCommands_sound_iff : ∀ (cs : List (VectorCommand α)) {xs : List (Option (Held α))} {s : VectorStore α}
    {ls ls' : List (Option (List α))}, Laid xs s ls → listCommands cs ls = some ls' →
    ((∀ n ls', listCommands (cs.take n) ls = some ls' → ∃ s', runCommands (cs.take n) s = .ok s' ∧ Sound s' ls') ↔
      ∀ n c ls', cs[n]? = some c → listCommands (cs.take n) ls = some ls' → c.Safe ls')
  | [], xs, s, ls, ls', h, hcs => by
    refine ⟨fun _ n c ls' hc => by simp at hc, fun _ n ls' hls => ?_⟩
    rw [List.take_nil] at hls ⊢
    cases hls
    exact ⟨s, rfl, h.sound⟩
  | c :: cs, xs, s, ls, ls', h, hcs => by
    obtain ⟨ls₁, hc, hrest⟩ := Option.bind_eq_some_iff.1 hcs
    have hlists : ∀ n, listCommands ((c :: cs).take (n + 1)) ls = listCommands (cs.take n) ls₁ := by
      intro n
      show (c.onLists ls).bind (listCommands (cs.take n)) = _
      rw [hc]
      rfl
    constructor
    · intro hsound n
      obtain ⟨s₁, hrun, hs₁⟩ := hsound 1 ls₁ (hlists 0)
      replace hrun : c.run s = .ok s₁ := by
        obtain ⟨s₂, hrun, heq⟩ := bind_eq_ok.1 hrun
        cases heq
        exact hrun
      have hsafe := c.safe_of_sound h hc hrun hs₁
      obtain ⟨xs₁, s₂, hrun₂, hlaid⟩ := c.run_laid h hc hsafe
      cases hrun.symm.trans hrun₂
      cases n with
      | zero =>
        rintro _ _ ⟨⟩ ⟨⟩
        exact hsafe
      | succ n =>
        intro c' ls'' hc' hls
        refine (runCommands_sound_iff cs hlaid hrest).1 (fun n ls'' hls => ?_) n c' ls'' hc' (hlists n ▸ hls)
        obtain ⟨s', hs', hsound'⟩ := hsound (n + 1) ls'' ((hlists n).trans hls)
        obtain ⟨s₂, hrun₂, hs'⟩ := bind_eq_ok.1 hs'
        cases hrun.symm.trans hrun₂
        exact ⟨s', hs', hsound'⟩
    · intro hall n ls'' hls
      obtain ⟨xs₁, s₁, hrun, hlaid⟩ := c.run_laid h hc (hall 0 c ls rfl rfl)
      cases n with
      | zero =>
        cases hls
        exact ⟨s, rfl, h.sound⟩
      | succ n =>
        rw [hlists] at hls
        obtain ⟨s', hs', hsound'⟩ := (runCommands_sound_iff cs hlaid hrest).2
          (fun n c' ls'' hc' hls => hall (n + 1) c' ls'' hc' ((hlists n).trans hls)) n ls'' hls
        exact ⟨s', bind_eq_ok.2 ⟨s₁, hrun, hs'⟩, hsound'⟩

end Moves

/-- **Moving a vector** loses nothing and leaves an empty vector, over every program, exactly if it takes from an empty
vector (the move constructor) or goes to an empty one (move assignment) and the vectors do not outgrow their tables. -/
theorem moves_sound_iff (cs : List (VectorCommand α)) (ls : List (Option (List α))) (hcs : listCommands cs [] = some ls) :
    (∀ n ls', listCommands (cs.take n) [] = some ls' → ∃ s, runCommands (cs.take n) {} = .ok s ∧ Sound s ls') ↔
      ∀ n c ls', cs[n]? = some c → listCommands (cs.take n) [] = some ls' → c.Safe ls' :=
  runCommands_sound_iff cs Laid.start hcs

/-- A vector with an element is assigned to an empty one. -/
def assignToEmpty : List (VectorCommand Nat) := [.construct, .construct, .operate 0 (.emplaceBack 5), .moveAssign 1 0]

theorem moves_sound_iff_assignToEmpty : (∀ n ls', listCommands (assignToEmpty.take n) [] = some ls' →
      ∃ s, runCommands (assignToEmpty.take n) {} = .ok s ∧ Sound s ls') ↔
    ∀ n c ls', assignToEmpty[n]? = some c → listCommands (assignToEmpty.take n) [] = some ls' → c.Safe ls' :=
  moves_sound_iff assignToEmpty [some [], some [5]] rfl

/-- A move construction from a vector with one element leaves a vector of size `1` that has no chunk. -/
theorem moveConstruct_keeps_size : ¬ ∀ (cs : List (VectorCommand Nat)) (ls : List (Option (List Nat))),
    listCommands cs [] = some ls → ∃ s, runCommands cs {} = .ok s ∧ Sound s ls := by
  intro hclaim
  obtain ⟨s, hrun, hsound⟩ := hclaim [.construct, .operate 0 (.emplaceBack 5), .moveConstruct 0] [some [], some [5]] rfl
  have hstore : runCommands [.construct, .operate 0 (.emplaceBack 5), .moveConstruct 0] {} =
      .ok ⟨[some ⟨List.replicate 31 none, 1⟩, some ⟨some ⟨0, [some ⟨0, 5⟩]⟩ :: List.replicate 30 none, 1⟩],
        ⟨1, 1, [], []⟩⟩ := rfl
  cases hrun.symm.trans hstore
  cases hsound.represents with
  | cons h _ =>
    cases h with
    | some h => cases h.size

/-- A move assignment over a vector with an element leaves it to no destructor. -/
example : (runCommands [.construct, .operate 0 (.emplaceBack 5), .construct, .moveAssign 0 1, .destroy 0, .destroy 1]
    ({} : VectorStore Nat)).toOption.map (fun s => (s.heap.nextObject, s.heap.destroyed)) = some (1, []) := rfl

end Ltest
