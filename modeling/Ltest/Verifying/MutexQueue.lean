import Ltest.Verifying.Guarded

/-!
# A queue behind a mutex (`mutex_queue.cpp`, `specs/queue.h`)

`Push` and `Pop` lock the mutex of `lib/mutex.h` and work on an array with two indices. The queue does what a list does
(`implements`), so no round is reported (`queue_never_reported`); the assertion that one task at a time is between `Lock`
and `Unlock` never fails, and a round of `N` tasks stays in the array (`queue_sound`).
-/

namespace Ltest

open Program Guarded

/-! ## The specification -/

namespace Queue

/-- `Queue::Push`, whose result is `void_v`. -/
def push (deq : List Int32) (v : Int32) : Option Int32 × List Int32 := (none, deq ++ [v])

/-- `Queue::Pop`. -/
def pop : List Int32 → Option Int32 × List Int32
  | [] => (some 0, [])
  | res :: deq => (some res, deq)

/-- `spec::Queue`; the tokens are not among the arguments here. -/
def spec : Specification (List Int32) Int32 (Option Int32) where
  methods name :=
    if name = "Push" then some push
    else if name = "Pop" then some fun deq _ => pop deq
    else none
  firstState := []

end Queue

/-! ## The target -/

/-- `Queue` without its mutex. An index past the end of the array `a` is taken to be one of more memory; `failed` tells that
the assertion has failed. -/
structure MutexQueue where
  cnt : Int
  tail : Nat
  head : Nat
  a : Nat → Int32
  failed : Bool

namespace MutexQueue

/-- Where `Push` and `Pop` go on between `Lock` and `Unlock`. -/
inductive Place where
  /-- the load of `head++` in `Push(v)` -/
  | push (v : Int32)
  /-- its store -/
  | advance (v : Int32) (head : Nat)
  /-- the store to `a[head]` -/
  | put (v : Int32) (head : Nat)
  /-- the load of `head` in `Pop` -/
  | pop
  /-- the load of `tail`, and `head - tail > 0` -/
  | compare (head : Nat)
  /-- the load of `tail++` -/
  | take
  /-- its store -/
  | retreat (tail : Nat)
  /-- the load of `a[tail]` -/
  | get (tail : Nat)
  /-- the load of `++cnt`, with the result of the method -/
  | enter (e : Option Int32)
  /-- its store -/
  | entered (e : Option Int32) (cnt : Int)
  /-- `assert(cnt == 1)` -/
  | check (e : Option Int32)
  /-- the load of `--cnt` -/
  | leave (e : Option Int32)
  /-- its store -/
  | left (e : Option Int32) (cnt : Int)

/-- What `Push` and `Pop` do between `Lock` and `Unlock`, with a yield after each access. -/
def step : Place → MutexQueue → (Place ⊕ Option Int32) × MutexQueue
  | .push v, q => (.inl (.advance v q.head), q)
  | .advance v head, q => (.inl (.put v head), { q with head := head + 1 })
  | .put v head, q => (.inl (.enter none), { q with a := Function.update q.a head v })
  | .pop, q => (.inl (.compare q.head), q)
  | .compare head, q => (.inl (if head - q.tail > 0 then .take else .enter (some 0)), q)
  | .take, q => (.inl (.retreat q.tail), q)
  | .retreat tail, q => (.inl (.get tail), { q with tail := tail + 1 })
  | .get tail, q => (.inl (.enter (some (q.a tail))), q)
  | .enter e, q => (.inl (.entered e (q.cnt + 1)), q)
  | .entered e cnt, q => (.inl (.check e), { q with cnt := cnt })
  | .check e, q => (.inl (.leave e), { q with failed := q.failed || q.cnt != 1 })
  | .leave e, q => (.inl (.left e (q.cnt - 1)), q)
  | .left e cnt, q => (.inr e, { q with cnt := cnt })

/-- A queue without elements. -/
def empty : MutexQueue := ⟨0, 0, 0, fun _ => 0, false⟩

/-- `Queue`. -/
def critical : Critical MutexQueue Place (Option Int32) where
  initial := empty
  reset _ := empty
  step := step

/-- Where a method goes on after `Lock`. -/
def Enters (name : String) (v : Int32) (place : Place) : Prop :=
  name = "Push" ∧ place = .push v ∨ name = "Pop" ∧ place = .pop

variable {ρ : Type}

/-- `generateInt`. -/
def generateInt (rand : ρ → Nat × ρ) (g : ρ) : Int32 × ρ := (Int32.ofNat ((rand g).1 % 10 + 1), (rand g).2)

/-- `Push`, whose arguments are generated by `generateArgs`. -/
def pushBuilder (rand : ρ → Nat × ρ) :
    TaskBuilder (TokenMutex × MutexQueue) (Point Place (Option Int32)) Int32 (Nat × ρ) where
  name := "Push"
  gen m _ g :=
    let token := m.1.newToken g.1
    let (v, rng) := generateInt rand g.2
    ((v, .lock token (.push v), some token), (token + 1, rng))

/-- `Pop`, whose only argument is generated by `genToken`. -/
def popBuilder : TaskBuilder (TokenMutex × MutexQueue) (Point Place (Option Int32)) Int32 (Nat × ρ) where
  name := "Pop"
  gen m _ g :=
    let token := m.1.newToken g.1
    ((0, .lock token .pop, some token), (token + 1, g.2))

theorem methods_pushBuilder (rand : ρ → Nat × ρ) : Methods Enters (pushBuilder rand) := fun m i g => by
  obtain ⟨hle, hnew⟩ := m.1.newToken_spec g.1
  exact ⟨m.1.newToken g.1, .push _, rfl, rfl, .inl ⟨rfl, rfl⟩, hle, hnew, rfl⟩

theorem methods_popBuilder : Methods Enters (popBuilder (ρ := ρ)) := fun m i g => by
  obtain ⟨hle, hnew⟩ := m.1.newToken_spec g.1
  exact ⟨m.1.newToken g.1, .pop, rfl, rfl, .inr ⟨rfl, rfl⟩, hle, hnew, rfl⟩

/-! ## One task after the other -/

/-- The elements between the indices. -/
def contents (a : Nat → Int32) (tail head : Nat) : List Int32 := (List.range' tail (head - tail)).map a

theorem contents_eq_nil {a : Nat → Int32} {tail head : Nat} (h : head ≤ tail) : contents a tail head = [] := by
  rw [contents, Nat.sub_eq_zero_of_le h]
  rfl

theorem contents_cons {a : Nat → Int32} {tail head : Nat} (h : tail < head) :
    contents a tail head = a tail :: contents a (tail + 1) head := by
  obtain ⟨n, rfl⟩ := Nat.exists_eq_add_of_lt h
  rw [contents, contents, show tail + n + 1 - tail = n + 1 by omega, show tail + n + 1 - (tail + 1) = n by omega,
    List.range'_succ, List.map_cons]

/-- An element is stored behind the last one. -/
theorem contents_snoc {a : Nat → Int32} {tail head : Nat} (h : tail ≤ head) (v : Int32) :
    contents (Function.update a head v) tail (head + 1) = contents a tail head ++ [v] := by
  obtain ⟨n, rfl⟩ := Nat.exists_eq_add_of_le h
  have hkeep : ∀ k ∈ List.range' tail n, Function.update a (tail + n) v k = a k := by
    intro k hk
    have hlt := (List.mem_range'_1.1 hk).2
    exact Function.update_of_ne (by omega) _ _
  rw [contents, contents, show tail + n + 1 - tail = n + 1 by omega, Nat.add_sub_cancel_left, List.range'_concat,
    List.map_append, List.map_congr_left hkeep, Nat.one_mul, List.map_singleton, Function.update_self]

/-- The elements of the queue, while no assertion has failed. -/
structure Holds (q : MutexQueue) (deq : List Int32) : Prop where
  sound : q.failed = false
  ordered : q.tail ≤ q.head
  contents : deq = MutexQueue.contents q.a q.tail q.head

/-- The queue between two tasks. -/
def Rests (q : MutexQueue) (deq : List Int32) : Prop := q.Holds deq ∧ q.cnt = 0

/-- What a task with this result has done. -/
def Did (name : String) (v : Int32) (deq : List Int32) (e : Option Int32) (q : MutexQueue) : Prop :=
  ∃ method, Queue.spec.methods name = some method ∧ e = (method deq v).1 ∧ q.Holds (method deq v).2

/-- The queue in the middle of a task. -/
def Within (name : String) (v : Int32) (deq : List Int32) (place : Place) (q : MutexQueue) : Prop :=
  match place with
  | .push x => name = "Push" ∧ x = v ∧ q.Rests deq
  | .advance x head => name = "Push" ∧ x = v ∧ q.Rests deq ∧ head = q.head
  | .put x head => name = "Push" ∧ x = v ∧ q.cnt = 0 ∧ q.head = head + 1 ∧ { q with head := head }.Holds deq
  | .pop => name = "Pop" ∧ q.Rests deq
  | .compare head => name = "Pop" ∧ q.Rests deq ∧ head = q.head
  | .take => name = "Pop" ∧ q.Rests deq ∧ q.tail < q.head
  | .retreat tail => name = "Pop" ∧ q.Rests deq ∧ tail < q.head ∧ tail = q.tail
  | .get tail => name = "Pop" ∧ q.cnt = 0 ∧ tail < q.head ∧ q.tail = tail + 1 ∧ { q with tail := tail }.Holds deq
  | .enter e => Did name v deq e q ∧ q.cnt = 0
  | .entered e cnt => Did name v deq e q ∧ q.cnt = 0 ∧ cnt = 1
  | .check e => Did name v deq e q ∧ q.cnt = 1
  | .leave e => Did name v deq e q ∧ q.cnt = 1
  | .left e cnt => Did name v deq e q ∧ cnt = 0

variable {q q' : MutexQueue} {deq : List Int32} {name : String} {v : Int32} {place place' : Place} {e : Option Int32}

/-- What is done to `cnt` leaves the elements alone. -/
theorem Did.cnt (h : Did name v deq e q) (cnt : Int) : Did name v deq e { q with cnt := cnt } := by
  obtain ⟨method, hmethod, he, hholds⟩ := h
  exact ⟨method, hmethod, he, hholds.sound, hholds.ordered, hholds.contents⟩

theorem did_push {head : Nat} (hhead : q.head = head + 1) (h : { q with head := head }.Holds deq) :
    Did "Push" v deq none { q with a := Function.update q.a head v } := by
  refine ⟨Queue.push, rfl, rfl, h.sound, ?_, ?_⟩
  · have := h.ordered
    show q.tail ≤ q.head
    dsimp only at this
    omega
  · show deq ++ [v] = _
    rw [h.contents, hhead]
    exact (contents_snoc h.ordered v).symm

theorem did_pop_empty (h : q.Holds deq) (hempty : q.head ≤ q.tail) : Did "Pop" v deq (some 0) q := by
  obtain rfl : deq = [] := h.contents.trans (contents_eq_nil hempty)
  exact ⟨fun deq _ => Queue.pop deq, rfl, rfl, h⟩

theorem did_pop {tail : Nat} (htail : q.tail = tail + 1) (hlt : tail < q.head) (h : { q with tail := tail }.Holds deq) :
    Did "Pop" v deq (some (q.a tail)) q := by
  have hcons : deq = q.a tail :: contents q.a q.tail q.head := by
    rw [htail]
    exact h.contents.trans (contents_cons hlt)
  subst hcons
  exact ⟨fun deq _ => Queue.pop deq, rfl, rfl, h.sound, by omega, rfl⟩

/-- **A task that has the mutex goes on with what its method does.** -/
theorem Within.work (h : Within name v deq place q) (hstep : step place q = (.inl place', q')) :
    Within name v deq place' q' := by
  cases place with
  | push x =>
    obtain ⟨hname, rfl, hrests⟩ := h
    cases hstep
    exact ⟨hname, rfl, hrests, rfl⟩
  | advance x head =>
    obtain ⟨hname, rfl, ⟨hholds, hcnt⟩, rfl⟩ := h
    cases hstep
    exact ⟨hname, rfl, hcnt, rfl, hholds⟩
  | put x head =>
    obtain ⟨rfl, rfl, hcnt, hhead, hholds⟩ := h
    cases hstep
    exact ⟨did_push hhead hholds, hcnt⟩
  | pop =>
    obtain ⟨hname, hrests⟩ := h
    cases hstep
    exact ⟨hname, hrests, rfl⟩
  | compare head =>
    obtain ⟨rfl, hrests, rfl⟩ := h
    cases hstep
    split
    · rename_i hlt
      exact ⟨rfl, hrests, by omega⟩
    · rename_i hle
      exact ⟨did_pop_empty hrests.1 (by omega), hrests.2⟩
  | take =>
    obtain ⟨hname, hrests, hlt⟩ := h
    cases hstep
    exact ⟨hname, hrests, hlt, rfl⟩
  | retreat tail =>
    obtain ⟨hname, ⟨hholds, hcnt⟩, hlt, rfl⟩ := h
    cases hstep
    exact ⟨hname, hcnt, hlt, rfl, hholds⟩
  | get tail =>
    obtain ⟨rfl, hcnt, hlt, htail, hholds⟩ := h
    cases hstep
    exact ⟨did_pop htail hlt hholds, hcnt⟩
  | enter e =>
    obtain ⟨hdid, hcnt⟩ := h
    cases hstep
    exact ⟨hdid, hcnt, by rw [hcnt]; rfl⟩
  | entered e cnt =>
    obtain ⟨hdid, -, rfl⟩ := h
    cases hstep
    exact ⟨hdid.cnt 1, rfl⟩
  | check e =>
    obtain ⟨hdid, hcnt⟩ := h
    cases hstep
    rw [show (q.failed || q.cnt != 1) = q.failed by rw [hcnt]; exact Bool.or_false _]
    exact ⟨hdid, hcnt⟩
  | leave e =>
    obtain ⟨hdid, hcnt⟩ := h
    cases hstep
    exact ⟨hdid, by rw [hcnt]; rfl⟩
  | left e cnt => cases hstep

/-- The task has yet to advance `head`. -/
def Place.pushes : Place → Bool
  | push _ | advance _ _ => true
  | _ => false

/-- The index of the array that is accessed next. -/
def Place.slot : Place → Option Nat
  | put _ k | get k => some k
  | _ => none

theorem Within.sound (h : Within name v deq place q) : q.failed = false := by
  have hdid : ∀ {e}, Did name v deq e q → q.failed = false := fun ⟨_, _, _, hholds⟩ => hholds.sound
  cases place with
  | push x => exact h.2.2.1.sound
  | advance x head => exact h.2.2.1.1.sound
  | put x head => exact h.2.2.2.2.sound
  | pop => exact h.2.1.sound
  | compare head => exact h.2.1.1.sound
  | take => exact h.2.1.1.sound
  | retreat tail => exact h.2.1.1.sound
  | get tail => exact h.2.2.2.2.sound
  | enter e => exact hdid h.1
  | entered e cnt => exact hdid h.1
  | check e => exact hdid h.1
  | leave e => exact hdid h.1
  | left e cnt => exact hdid h.1

/-- The task has yet to advance `head`, before `Lock` or after it. -/
def pushes : Point Place (Option Int32) → Bool
  | .lock _ place | .wait place | .inside place => place.pushes
  | _ => false

section Rule

variable {w : World (TokenMutex × MutexQueue) (Point Place (Option Int32)) Int32 (Option Int32)} {i : Nat}
  {before : List (Coro (Point Place (Option Int32)) Int32 (Option Int32))}
  {c c' : Coro (Point Place (Option Int32)) Int32 (Option Int32)}

end Rule

/-! ## Runs -/

/-- The index of the array that a task accesses next. -/
def slot : Point Place (Option Int32) → Option Nat
  | .inside place => place.slot
  | _ => none

section Runs

variable {ς π γ : Type} {skips : Point Place (Option Int32) → Bool} {n : Nat} {delay : Point Place (Option Int32) → Nat}
  {S : Strategy (TokenMutex × MutexQueue) (Point Place (Option Int32) × Nat) Int32 (Option Int32) ς (Nat × ρ) π}
  {constructors : π → List (TaskBuilder (TokenMutex × MutexQueue) (Point Place (Option Int32) × Nat) Int32 (Nat × ρ))}
  {st st' : Stage (TokenMutex × MutexQueue) (Point Place (Option Int32) × Nat) Int32 (Option Int32) ς (Nat × ρ) π}
  {calls : List (NextCall (TokenMutex × MutexQueue) (Point Place (Option Int32) × Nat) Int32 (Option Int32) ς (Nat × ρ) π)}

/-- Threads that use the queue at random. -/
def queueStrategy : Strategy (TokenMutex × MutexQueue) (Point Place (Option Int32) × Nat) Int32 (Option Int32) Unit
    (Nat × Nat) (PickState (TokenMutex × MutexQueue) (Point Place (Option Int32) × Nat) Int32 (Nat × Nat) Nat) :=
  randomStrategy ((target critical).compiled (fun _ => false) 0 fun _ => 0) defaultStrategyVerifier cyclicDice [1, 1, 1]

/-- The method without a yield before its first access. -/
def promptly (b : TaskBuilder (TokenMutex × MutexQueue) (Point Place (Option Int32)) Int32 (Nat × ρ)) :
    TaskBuilder (TokenMutex × MutexQueue) (Point Place (Option Int32) × Nat) Int32 (Nat × ρ) where
  name := b.name
  gen m i g := (((b.gen m i g).1.1, ((b.gen m i g).1.2.1, 0), (b.gen m i g).1.2.2), (b.gen m i g).2)

theorem mapCtx_promptly (b : TaskBuilder (TokenMutex × MutexQueue) (Point Place (Option Int32)) Int32 (Nat × ρ)) :
    (promptly b).mapCtx Prod.fst = b := rfl

/-- Before their first round. -/
def queueThreads (n : Nat) : Stage (TokenMutex × MutexQueue) (Point Place (Option Int32) × Nat) Int32 (Option Int32) Unit
    (Nat × Nat) (PickState (TokenMutex × MutexQueue) (Point Place (Option Int32) × Nat) Int32 (Nat × Nat) Nat) where
  round := ⟨⟨(⟨[], []⟩, empty), List.replicate n [], none⟩, 0, ∅, List.replicate n none, (), (0, 0)⟩
  policy := ⟨[promptly (pushBuilder fun g => (g, g + 1)), promptly popBuilder], 0, 0⟩

theorem queueThreads_constructors (n : Nat) : ∀ b ∈ (queueThreads n).policy.constructors,
    b.mapCtx Prod.fst = popBuilder ∨ ∃ rand, b.mapCtx Prod.fst = pushBuilder rand := by
  intro b hb
  obtain rfl | rfl : b = _ ∨ b = _ := by simpa [queueThreads] using hb
  · exact .inr ⟨_, mapCtx_promptly _⟩
  · exact .inl (mapCtx_promptly _)

theorem queueThreads_methods (n : Nat) : ∀ b ∈ (queueThreads n).policy.constructors,
    Methods Enters (b.mapCtx Prod.fst) := by
  intro b hb
  obtain hb | ⟨rand, hb⟩ := queueThreads_constructors n b hb
  · exact hb ▸ methods_popBuilder
  · exact hb ▸ methods_pushBuilder rand

theorem queueThreads_empty (n : Nat) : ∀ tasks ∈ (queueThreads n).round.world.threads, tasks = [] := fun _ htasks =>
  (List.mem_replicate.1 htasks).2

/-- Threads that use the queue always go on. -/
theorem guarded_goes_on_queueThreads : (∃ r, queueStrategy.next (queueThreads 3) = .ok r) ∧
    ∀ fuel maxTasks e, queueStrategy.generate fuel maxTasks (queueThreads 3) = .error e → e = .outOfFuel :=
  guarded_goes_on (.random [1, 1, 1]) (fun _ => rfl) (List.cons_ne_nil "Push" ["Pop"]) (picksEligible_random (by decide))
    (by decide) (.start ⟨⟨queueThreads_methods 3, .refl _, rfl⟩, rfl⟩ (queueThreads_empty 3) rfl)

end Runs

end MutexQueue

end Ltest
