import Ltest.Verifying.Tested
import Mathlib.Data.Nat.Bitwise

/-!
# A lock for readers and writers (`folly_rwspinlock.cpp`, `specs/mutex.h`)

The lowest bit of the word is set by the writer, and a reader adds `4`. A reader that finds a writer gives its `4` back and
tries again, so the word also counts readers that do not have the lock. `2 ^ 30` threads or fewer cannot make it overflow.
-/

namespace Ltest

open Program

/-! ## The specification -/

namespace SharedLinearMutex

/-- `SharedLinearMutex::lock` on `locked_state`. -/
def lock (lockedState : Int) : Int × Int := if lockedState ≠ 0 then (1, lockedState) else (0, -1)

/-- `SharedLinearMutex::unlock`. -/
def unlock (_ : Int) : Int × Int := (0, 0)

/-- `SharedLinearMutex::lock_shared`. -/
def lockShared (lockedState : Int) : Int × Int := if lockedState = -1 then (1, lockedState) else (0, lockedState + 1)

/-- `SharedLinearMutex::unlock_shared`. -/
def unlockShared (lockedState : Int) : Int × Int := (0, lockedState - 1)

/-- `SharedLinearMutex`. -/
def spec : Specification Int Unit Int where
  methods name :=
    if name = "lock" then some fun lockedState _ => lock lockedState
    else if name = "unlock" then some fun lockedState _ => unlock lockedState
    else if name = "lock_shared" then some fun lockedState _ => lockShared lockedState
    else if name = "unlock_shared" then some fun lockedState _ => unlockShared lockedState
    else none
  firstState := 0

end SharedLinearMutex

/-! ## The target -/

namespace RWSpinLock

/-- `READER`. -/
def reader : BitVec 32 := 4

/-- `UPGRADED`. -/
def upgraded : BitVec 32 := 2

/-- `WRITER`. -/
def writer : BitVec 32 := 1

/-- Where the methods go on; `count` is how often they have tried. -/
inductive Point where
  /-- `bits_.compare_exchange_strong(expect, WRITER)` of `try_lock` -/
  | tryLock (count : Nat)
  /-- `std::this_thread::yield()` of `lock` -/
  | pauseLock (count : Nat)
  /-- `return 0` of `lock` -/
  | locked
  /-- `bits_.fetch_and(~(WRITER | UPGRADED))` -/
  | unlock
  /-- `return 0` of `unlock` -/
  | unlocked
  /-- `bits_.fetch_add(READER)` of `try_lock_shared` -/
  | tryLockShared (count : Nat)
  /-- `bits_.fetch_add(-READER)` of `try_lock_shared` -/
  | giveBack (count : Nat)
  /-- `std::this_thread::yield()` of `lock_shared` -/
  | pauseLockShared (count : Nat)
  /-- `return 0` of `lock_shared` -/
  | lockedShared
  /-- `bits_.fetch_add(-READER)` of `unlock_shared` -/
  | unlockShared
  /-- `return 0` of `unlock_shared` -/
  | unlockedShared
  deriving Repr, DecidableEq

/-- The methods, with a yield after each access. -/
def body : Point → BitVec 32 → Suspension Point Int × BitVec 32
  | .tryLock count, bits =>
    if bits = 0 then (.yield .locked, writer)
    else (.yield (if count + 1 > 1000 then .pauseLock (count + 1) else .tryLock (count + 1)), bits)
  | .pauseLock count, bits => (.yield (.tryLock count), bits)
  | .locked, bits => (.returned 0, bits)
  | .unlock, bits => (.yield .unlocked, bits &&& ~~~(writer ||| upgraded))
  | .unlocked, bits => (.returned 0, bits)
  | .tryLockShared count, bits =>
    (.yield (if bits &&& (writer ||| upgraded) ≠ 0 then .giveBack count else .lockedShared), bits + reader)
  | .giveBack count, bits =>
    (.yield (if count + 1 > 1000 then .pauseLockShared (count + 1) else .tryLockShared (count + 1)), bits - reader)
  | .pauseLockShared count, bits => (.yield (.tryLockShared count), bits)
  | .lockedShared, bits => (.returned 0, bits)
  | .unlockShared, bits => (.yield .unlockedShared, bits - reader)
  | .unlockedShared, bits => (.returned 0, bits)

/-- `RWSpinLock`. -/
def target : Target (BitVec 32) Point Int where
  initial := 0
  reset _ := 0
  run := body
  parked _ _ := false
  word bits _ := bits.toInt

variable {ρ : Type}

def lockBuilder : TaskBuilder (BitVec 32) Point Unit ρ := ⟨"lock", fun _ _ g => (((), .tryLock 0, none), g)⟩

def unlockBuilder : TaskBuilder (BitVec 32) Point Unit ρ := ⟨"unlock", fun _ _ g => (((), .unlock, none), g)⟩

def lockSharedBuilder : TaskBuilder (BitVec 32) Point Unit ρ :=
  ⟨"lock_shared", fun _ _ g => (((), .tryLockShared 0, none), g)⟩

def unlockSharedBuilder : TaskBuilder (BitVec 32) Point Unit ρ :=
  ⟨"unlock_shared", fun _ _ g => (((), .unlockShared, none), g)⟩

/-- The methods under test. -/
def Methods (b : TaskBuilder (BitVec 32) Point Unit ρ) : Prop :=
  b = lockBuilder ∨ b = unlockBuilder ∨ b = lockSharedBuilder ∨ b = unlockSharedBuilder

/-! ## The word -/

/-- The word with `k` fours and `n` in the lowest bits. -/
def packed (k n : Nat) : BitVec 32 := BitVec.ofNat 32 (4 * k + n)

theorem packed_add (k n : Nat) : packed k n + reader = packed (k + 1) n := by
  unfold packed
  rw [show reader = BitVec.ofNat 32 4 from rfl, ← BitVec.ofNat_add]
  congr 1
  omega

theorem packed_sub (k n : Nat) : packed (k + 1) n - reader = packed k n := by
  rw [← packed_add, BitVec.add_sub_cancel]

/-- A reader sees whether there is a writer. -/
theorem packed_and {n : Nat} (k : Nat) (hn : n ≤ 1) : packed k n &&& (writer ||| upgraded) = 0 ↔ n = 0 := by
  unfold packed
  rw [← BitVec.toNat_inj, BitVec.toNat_and, show (writer ||| upgraded).toNat = 2 ^ 2 - 1 from rfl,
    Nat.and_two_pow_sub_one_eq_mod, BitVec.toNat_ofNat]
  simp only [BitVec.toNat_zero, BitVec.ofNat_eq_ofNat]
  omega

/-- The writer takes its bit out, and leaves the fours. -/
theorem packed_clear (k : Nat) : packed k 1 &&& ~~~(writer ||| upgraded) = packed k 0 := by
  unfold packed
  refine BitVec.eq_of_getLsbD_eq fun i hi => ?_
  rw [show writer ||| upgraded = BitVec.ofNat 32 3 from rfl, BitVec.getLsbD_and, BitVec.getLsbD_not, BitVec.getLsbD_ofNat,
    BitVec.getLsbD_ofNat, BitVec.getLsbD_ofNat]
  obtain _ | _ | i := i
  · simp [Nat.testBit_zero]
    omega
  · simp [Nat.testBit_succ]
    omega
  · rw [Nat.testBit_add _ i 2, Nat.testBit_add _ i 2, Nat.testBit_add _ i 2]
    have hk : (4 * k + 1) / 2 ^ 2 = (4 * k + 0) / 2 ^ 2 := by omega
    rw [hk]
    simp [hi]

/-- The word is free only if nobody has touched it, unless it has overflowed. -/
theorem packed_eq_zero {k n : Nat} (hk : k < 2 ^ 30) (hn : n ≤ 1) (h : packed k n = 0) : k = 0 ∧ n = 0 := by
  unfold packed at h
  rw [← BitVec.toNat_inj, BitVec.toNat_ofNat] at h
  simp only [BitVec.toNat_zero, BitVec.ofNat_eq_ofNat] at h
  omega

/-! ## What a step does -/

/-- What a task has of the lock. -/
inductive Share where
  | none
  | trying
  | reading
  | writing
  deriving Repr, DecidableEq

namespace Point

/-- The method that goes on here. -/
def method : Point → String
  | tryLock _ | pauseLock _ | locked => "lock"
  | unlock | unlocked => "unlock"
  | tryLockShared _ | giveBack _ | pauseLockShared _ | lockedShared => "lock_shared"
  | unlockShared | unlockedShared => "unlock_shared"

/-- What a task has of the lock here. -/
def share : Point → Share
  | locked | unlock => .writing
  | lockedShared | unlockShared => .reading
  | giveBack _ => .trying
  | _ => .none

/-- The result of a task that has taken effect. -/
def effect : Point → Option Int
  | locked | unlocked | lockedShared | unlockedShared => some 0
  | _ => none

end Point

/-- What a task has of the lock; once it has returned, what its thread has until the next one. -/
def share (c : Coro Point Unit Int) : Share :=
  if c.isReturned then if c.name = "lock" then .writing else if c.name = "lock_shared" then .reading else .none
  else c.ctx.share

/-- What holds of a task. -/
structure Fits (c : Coro Point Unit Int) : Prop where
  name : c.name = "lock" ∨ c.name = "unlock" ∨ c.name = "lock_shared" ∨ c.name = "unlock_shared"
  method : c.isReturned = false → c.ctx.method = c.name
  rested : c.fstate = none

/-- What a resume changes. -/
inductive Change (c c' : Coro Point Unit Int) (bits bits' : BitVec 32) : Prop
  | take : c.name = "lock" → bits = 0 → bits' = packed 0 1 → share c = .none → share c' = .writing →
      c.taken Point.effect = none → c'.taken Point.effect = some 0 → Change c c' bits bits'
  | give : c.name = "unlock" → bits' = bits &&& ~~~(writer ||| upgraded) → share c = .writing → share c' = .none →
      c.taken Point.effect = none → c'.taken Point.effect = some 0 → Change c c' bits bits'
  | enter : c.name = "lock_shared" → bits &&& (writer ||| upgraded) = 0 → bits' = bits + reader → share c = .none →
      share c' = .reading → c.taken Point.effect = none → c'.taken Point.effect = some 0 → Change c c' bits bits'
  | leave : c.name = "unlock_shared" → bits' = bits - reader → share c = .reading → share c' = .none →
      c.taken Point.effect = none → c'.taken Point.effect = some 0 → Change c c' bits bits'
  | touch : bits' = bits + reader → share c = .none → share c' = .trying →
      c'.taken Point.effect = c.taken Point.effect → Change c c' bits bits'
  | back : bits' = bits - reader → share c = .trying → share c' = .none →
      c'.taken Point.effect = c.taken Point.effect → Change c c' bits bits'
  | go : bits' = bits → share c' = share c → c'.taken Point.effect = c.taken Point.effect → Change c c' bits bits'

theorem resume_changes {c c' : Coro Point Unit Int} {bits bits' : BitVec 32} {status : Option CoroutineStatus}
    (hfits : Fits c) (hr : c.isReturned = false) (hrun : c.resume target bits = (c', bits', status)) :
    Fits c' ∧ Change c c' bits bits' := by
  have hmethod := hfits.method hr
  have hshare : share c = c.ctx.share := if_neg (by simp [hr])
  have htaken : c.taken Point.effect = c.ctx.effect := taken_of_unfinished hr
  have hyield : ∀ ctx : Point, ctx.method = c.name → Fits { c with ctx := ctx } ∧
      share { c with ctx := ctx } = ctx.share ∧
      ({ c with ctx := ctx } : Coro Point Unit Int).taken Point.effect = ctx.effect :=
    fun ctx hctx => ⟨⟨hfits.name, fun _ => hctx, hfits.rested⟩, if_neg (by simp [hr]), taken_of_unfinished hr⟩
  have hreturn : ∀ {share' : Share}, c.ctx.effect = some 0 → c.ctx.share = share' →
      (if c.name = "lock" then Share.writing else if c.name = "lock_shared" then .reading else .none) = share' →
      Fits { c with ret := 0, isReturned := true } ∧ Change c { c with ret := 0, isReturned := true } bits bits :=
    fun heffect hctx hname => ⟨⟨hfits.name, fun h => (by cases h), hfits.rested⟩,
      .go rfl (hname.trans (hctx.symm.trans hshare.symm)) (heffect.symm.trans htaken.symm)⟩
  unfold Coro.resume at hrun
  rw [show target.run c.ctx bits = body c.ctx bits from rfl] at hrun
  generalize c.ctx = ctx at hmethod hshare htaken hreturn hrun
  cases ctx with
  | tryLock count =>
    by_cases hfree : bits = 0
    · obtain ⟨hfits', hshare', htaken'⟩ := hyield .locked hmethod
      rw [show body (.tryLock count) bits = (.yield .locked, writer) from if_pos hfree] at hrun
      cases hrun
      exact ⟨hfits', .take hmethod.symm hfree rfl hshare hshare' htaken htaken'⟩
    · rw [show body (.tryLock count) bits = (.yield _, bits) from if_neg hfree] at hrun
      have hagain : ∀ ctx, ctx = (if count + 1 > 1000 then Point.pauseLock (count + 1) else .tryLock (count + 1)) →
          ctx.method = "lock" ∧ ctx.share = .none ∧ ctx.effect = none := by
        rintro ctx rfl
        split <;> exact ⟨rfl, rfl, rfl⟩
      obtain ⟨hlock, hnone, heffect⟩ := hagain _ rfl
      obtain ⟨hfits', hshare', htaken'⟩ := hyield _ (hlock.trans hmethod)
      cases hrun
      exact ⟨hfits', .go rfl (hshare'.trans (hnone.trans hshare.symm)) (htaken'.trans (heffect.trans htaken.symm))⟩
  | pauseLock count =>
    obtain ⟨hfits', hshare', htaken'⟩ := hyield (.tryLock count) hmethod
    cases hrun
    exact ⟨hfits', .go rfl (hshare'.trans hshare.symm) (htaken'.trans htaken.symm)⟩
  | locked =>
    cases hrun
    exact hreturn rfl rfl (by rw [← hmethod]; rfl)
  | unlock =>
    obtain ⟨hfits', hshare', htaken'⟩ := hyield .unlocked hmethod
    cases hrun
    exact ⟨hfits', .give hmethod.symm rfl hshare hshare' htaken htaken'⟩
  | unlocked =>
    cases hrun
    exact hreturn rfl rfl (by rw [← hmethod]; rfl)
  | tryLockShared count =>
    by_cases hwriter : bits &&& (writer ||| upgraded) = 0
    · obtain ⟨hfits', hshare', htaken'⟩ := hyield .lockedShared hmethod
      rw [show body (.tryLockShared count) bits = (.yield .lockedShared, bits + reader) by
        rw [body, if_neg (not_not_intro hwriter)]] at hrun
      cases hrun
      exact ⟨hfits', .enter hmethod.symm hwriter rfl hshare hshare' htaken htaken'⟩
    · obtain ⟨hfits', hshare', htaken'⟩ := hyield (.giveBack count) hmethod
      rw [show body (.tryLockShared count) bits = (.yield (.giveBack count), bits + reader) by
        rw [body, if_pos hwriter]] at hrun
      cases hrun
      exact ⟨hfits', .touch rfl hshare hshare' (htaken'.trans htaken.symm)⟩
  | giveBack count =>
    have hagain : ∀ ctx,
        ctx = (if count + 1 > 1000 then Point.pauseLockShared (count + 1) else .tryLockShared (count + 1)) →
        ctx.method = "lock_shared" ∧ ctx.share = .none ∧ ctx.effect = none := by
      rintro ctx rfl
      split <;> exact ⟨rfl, rfl, rfl⟩
    obtain ⟨hlock, hnone, heffect⟩ := hagain _ rfl
    obtain ⟨hfits', hshare', htaken'⟩ := hyield _ (hlock.trans hmethod)
    cases hrun
    exact ⟨hfits', .back rfl hshare (hshare'.trans hnone) (htaken'.trans (heffect.trans htaken.symm))⟩
  | pauseLockShared count =>
    obtain ⟨hfits', hshare', htaken'⟩ := hyield (.tryLockShared count) hmethod
    cases hrun
    exact ⟨hfits', .go rfl (hshare'.trans hshare.symm) (htaken'.trans htaken.symm)⟩
  | lockedShared =>
    cases hrun
    exact hreturn rfl rfl (by rw [← hmethod]; rfl)
  | unlockShared =>
    obtain ⟨hfits', hshare', htaken'⟩ := hyield .unlockedShared hmethod
    cases hrun
    exact ⟨hfits', .leave hmethod.symm rfl hshare hshare' htaken htaken'⟩
  | unlockedShared =>
    cases hrun
    exact hreturn rfl rfl (by rw [← hmethod]; rfl)

/-! ## The invariant -/

/-- The number of threads with such a share. -/
def sharers (s : Share) (w : World (BitVec 32) Point Unit Int) : Nat := w.total fun c => if share c = s then 1 else 0

/-- The word counts the readers and those that try, and the writer; there are no readers with a writer. -/
structure Inv (w : World (BitVec 32) Point Unit Int) : Prop where
  few : w.threads.length ≤ 2 ^ 30
  fits : w.Every Fits
  word : w.memory = packed (sharers .reading w + sharers .trying w) (sharers .writing w)
  alone : sharers .writing w ≤ 1
  apart : sharers .writing w = 0 ∨ sharers .reading w = 0

/-- The share of the last task of a thread. -/
def lastShare (tasks : List (Coro Point Unit Int)) : Share := (tasks.getLast?.map share).getD .none

/-- What the status of a thread says of its share. -/
def Share.status : Share → SharedStatus
  | .writing => .writer
  | .reading => .reader
  | _ => .free

section Rule

variable {w : World (BitVec 32) Point Unit Int} {i : Nat} {tasks before : List (Coro Point Unit Int)}
  {c c' : Coro Point Unit Int}

theorem lastWeight_share {s : Share} (hs : s ≠ .none) (tasks : List (Coro Point Unit Int)) :
    lastWeight (fun c => if share c = s then 1 else 0) tasks = if lastShare tasks = s then 1 else 0 := by
  unfold lastWeight lastShare
  cases tasks.getLast? with
  | none => exact (if_neg hs.symm).symm
  | some c => rfl

/-- The verifier knows the share of a thread between two tasks. -/
theorem reached_names (hfits : w.Every Fits) (hi : w.threads[i]? = some tasks)
    (hlast : ∀ c ∈ tasks.getLast?, c.isReturned = true) :
    sharedMutexProtocol.reached sharedMutexProtocol.free (w.names i) = (lastShare tasks).status ∧
      lastShare tasks ≠ .trying := by
  unfold World.names
  rw [hi, Option.getD_some]
  obtain rfl | ⟨before, c, rfl⟩ := List.eq_nil_or_concat' tasks
  · exact ⟨rfl, by decide⟩
  · have hshare : lastShare (before ++ [c]) =
        if c.name = "lock" then .writing else if c.name = "lock_shared" then .reading else .none := by
      simp [lastShare, share, hlast c (by simp)]
    rw [List.map_append, List.map_singleton, Protocol.reached_snoc, hshare]
    obtain hname | hname | hname | hname := (hfits.last hi).name <;> simp [sharedMutexProtocol, hname, Share.status]

/-- A thread keeps its share when its next task is built. -/
theorem share_build {b : TaskBuilder (BitVec 32) Point Unit ρ} {g : ρ} (id : Int) (hfits : w.Every Fits)
    (hi : w.threads[i]? = some tasks) (hlast : ∀ c ∈ tasks.getLast?, c.isReturned = true)
    (hb : Allows sharedMutexProtocol Methods w i b) :
    Fits (b.build w.memory i id g : Coro Point Unit Int × ρ).1 ∧
      share (b.build w.memory i id g : Coro Point Unit Int × ρ).1 = lastShare tasks := by
  obtain ⟨hreached, hne⟩ := reached_names hfits hi hlast
  obtain ⟨hb, hallowed⟩ := hb
  rw [hreached] at hallowed
  generalize lastShare tasks = s at hne hallowed
  obtain rfl | rfl | rfl | rfl := hb
  · refine ⟨⟨.inl rfl, fun _ => rfl, rfl⟩, ?_⟩
    cases s <;> first | rfl | exact absurd rfl hne | cases hallowed
  · refine ⟨⟨.inr (.inl rfl), fun _ => rfl, rfl⟩, ?_⟩
    cases s <;> first | rfl | cases hallowed
  · refine ⟨⟨.inr (.inr (.inl rfl)), fun _ => rfl, rfl⟩, ?_⟩
    cases s <;> first | rfl | exact absurd rfl hne | cases hallowed
  · refine ⟨⟨.inr (.inr (.inr rfl)), fun _ => rfl, rfl⟩, ?_⟩
    cases s <;> first | rfl | cases hallowed

/-- A thread that has nothing of the lock. -/
theorem sharers_lt (hi : w.lastTask i = some c) (hc : share c = .none) :
    sharers .reading w + sharers .trying w < w.threads.length := by
  have hnone : 0 < sharers .none w := by
    have hle := weight_le_total (f := fun c => if share c = .none then 1 else 0) hi
    rw [if_pos hc] at hle
    exact hle
  have hone : ∀ c : Coro Point Unit Int, ((if share c = .reading then 1 else 0) + if share c = .trying then 1 else 0) +
      (if share c = .none then 1 else 0) ≤ 1 := by
    intro c
    cases share c <;> decide
  have hle := total_le_length (w := w) hone
  rw [total_add, total_add] at hle
  unfold sharers at hnone ⊢
  omega

/-- The tasks go on with their methods, however many threads there are. -/
theorem fits_roundRule : RoundRule target (Allows sharedMutexProtocol Methods)
    fun w (_ : ρ) (_ : List (HistoryEvent Slot Int)) => w.Every Fits where
  start hempty _ := .empty hempty
  ask slot h := h.askBlocked (fun _ hc => ⟨hc.name, hc.method, rfl⟩) _ slot
  build id h hi hlast hb := h.pushTask hi (share_build id h hi hlast hb).1
  resume h hi hr _ hrun := h.set hi rfl (resume_changes (h.last hi) hr hrun).1

/-- A task is resumed. -/
theorem sharers_set {u : World (BitVec 32) Point Unit Int} (hi : w.threads[i]? = some (before ++ [c]))
    (hu : u.threads = w.threads.set i (before ++ [c'])) (s : Share) :
    sharers s u + (if share c = s then 1 else 0) = sharers s w + if share c' = s then 1 else 0 := by
  have htotal := total_set (f := fun c => if share c = s then 1 else 0) hi hu
  rw [lastWeight_snoc, lastWeight_snoc] at htotal
  exact htotal

theorem sharers_askBlocked (T : Target (BitVec 32) Point Int) (slot : Slot) (s : Share) :
    sharers s (w.askBlocked T slot) = sharers s w :=
  total_askBlocked (fun _ => rfl) T w slot

theorem sharers_pushTask {s : Share} (hs : s ≠ .none) (hi : w.threads[i]? = some tasks) (hc : share c = lastShare tasks) :
    sharers s (w.pushTask i c) = sharers s w := by
  have htotal := total_pushTask (f := fun c => if share c = s then 1 else 0) (c := c) hi
  rw [lastWeight_share hs, hc] at htotal
  exact Nat.add_right_cancel htotal

/-- **A step keeps the invariant.** -/
theorem Inv.step {u : World (BitVec 32) Point Unit Int} (h : Inv w)
    (hi : w.threads[i]? = some (before ++ [c])) (hu : u.threads = w.threads.set i (before ++ [c'])) (hfits : Fits c')
    (hchange : Change c c' w.memory u.memory) : Inv u := by
  have hfits := h.fits.set hi hu hfits
  have hreading := sharers_set hi hu .reading
  have htrying := sharers_set hi hu .trying
  have hwriting := sharers_set hi hu .writing
  obtain ⟨hfew, -, hword, halone, hapart⟩ := h
  have hfew' : u.threads.length ≤ 2 ^ 30 := by simpa [hu] using hfew
  have hrises (hbits : u.memory = w.memory + reader) (hn : sharers .writing u = sharers .writing w)
      (hk : sharers .reading u + sharers .trying u = sharers .reading w + sharers .trying w + 1) :
      u.memory = packed (sharers .reading u + sharers .trying u) (sharers .writing u) := by
    rw [hbits, hword, packed_add, hk, hn]
  have hfalls (hbits : u.memory = w.memory - reader) (hn : sharers .writing u = sharers .writing w)
      (hk : sharers .reading w + sharers .trying w = sharers .reading u + sharers .trying u + 1) :
      u.memory = packed (sharers .reading u + sharers .trying u) (sharers .writing u) := by
    rw [hbits, hword, hk, packed_sub, hn]
  cases hchange with
  | take _ hfree hbits hc hc' =>
    have hlt := sharers_lt (lastTask_snoc hi) hc
    obtain ⟨hk, hn⟩ := packed_eq_zero (by omega) halone (hword.symm.trans hfree)
    rw [hc, hc'] at hreading htrying hwriting
    simp only [reduceCtorEq, ↓reduceIte] at hreading htrying hwriting
    refine ⟨hfew', hfits, ?_, by omega, .inr (by omega)⟩
    rw [hbits, show sharers .reading u + sharers .trying u = 0 by omega, show sharers .writing u = 1 by omega]
  | give _ hbits hc hc' =>
    rw [hc, hc'] at hreading htrying hwriting
    simp only [reduceCtorEq, ↓reduceIte] at hreading htrying hwriting
    refine ⟨hfew', hfits, ?_, by omega, .inl (by omega)⟩
    rw [hbits, hword, show sharers .writing w = 1 by omega, packed_clear, show sharers .writing u = 0 by omega]
    congr 1
    omega
  | enter _ hno hbits hc hc' =>
    rw [hword, packed_and _ halone] at hno
    rw [hc, hc'] at hreading htrying hwriting
    simp only [reduceCtorEq, ↓reduceIte] at hreading htrying hwriting
    exact ⟨hfew', hfits, hrises hbits (by omega) (by omega), by omega, .inl (by omega)⟩
  | leave _ hbits hc hc' =>
    rw [hc, hc'] at hreading htrying hwriting
    simp only [reduceCtorEq, ↓reduceIte] at hreading htrying hwriting
    exact ⟨hfew', hfits, hfalls hbits (by omega) (by omega), by omega, by omega⟩
  | touch hbits hc hc' =>
    rw [hc, hc'] at hreading htrying hwriting
    simp only [reduceCtorEq, ↓reduceIte] at hreading htrying hwriting
    exact ⟨hfew', hfits, hrises hbits (by omega) (by omega), by omega, by omega⟩
  | back hbits hc hc' =>
    rw [hc, hc'] at hreading htrying hwriting
    simp only [reduceCtorEq, ↓reduceIte] at hreading htrying hwriting
    exact ⟨hfew', hfits, hfalls hbits (by omega) (by omega), by omega, by omega⟩
  | go hbits hc =>
    rw [hc] at hreading htrying hwriting
    refine ⟨hfew', hfits, ?_, by omega, by omega⟩
    rw [hbits, hword]
    congr 1 <;> omega

/-- **At every step of a round** the word counts the threads that have the lock. -/
theorem inv_roundRule : RoundRule target (Allows sharedMutexProtocol Methods)
    fun w (_ : ρ) (_ : List (HistoryEvent Slot Int)) => w.threads.length ≤ 2 ^ 30 → Inv w where
  start {w g} hempty hmemory hlen := by
    have hfree : w.memory = 0 := memory_of_start (p := (· = 0)) hmemory rfl fun _ => rfl
    have hnone : ∀ s, sharers s w = 0 := fun s => total_of_empty hempty
    refine ⟨hlen, .empty hempty, ?_, by rw [hnone]; omega, .inl (hnone _)⟩
    rw [hfree, hnone, hnone, hnone]
    rfl
  ask {w g seq} slot h hlen := by
    have hsame : (w.askBlocked target slot).threads.length = w.threads.length := by
      simpa using congrArg List.length (alike_askBlocked target w slot)
    obtain ⟨-, hfits, hword, halone, hapart⟩ := h (hsame ▸ hlen)
    refine ⟨hlen, hfits.askBlocked (fun c hc => ⟨hc.name, hc.method, rfl⟩) _ slot, ?_, ?_, ?_⟩
    · rw [memory_askBlocked, sharers_askBlocked, sharers_askBlocked, sharers_askBlocked]
      exact hword
    · rw [sharers_askBlocked]
      exact halone
    · rw [sharers_askBlocked, sharers_askBlocked]
      exact hapart
  build {w g seq i tasks b} id h hi hlast hb hlen := by
    obtain ⟨-, hfits, hword, halone, hapart⟩ := h (by simpa [World.pushTask] using hlen)
    obtain ⟨hnew, hshare⟩ := share_build (g := g) id hfits hi hlast hb
    refine ⟨hlen, hfits.pushTask hi hnew, ?_, ?_, ?_⟩
    · rw [sharers_pushTask (by decide) hi hshare, sharers_pushTask (by decide) hi hshare,
        sharers_pushTask (by decide) hi hshare]
      exact hword
    · rw [sharers_pushTask (by decide) hi hshare]
      exact halone
    · rw [sharers_pushTask (by decide) hi hshare, sharers_pushTask (by decide) hi hshare]
      exact hapart
  resume {w g seq i before c c' m status} h hi hr _ hrun hlen := by
    have hlen : w.threads.length ≤ 2 ^ 30 := by simpa using hlen
    obtain ⟨hfits, hchange⟩ := resume_changes ((h hlen).fits.last hi) hr hrun
    exact (h hlen).step hi rfl hfits hchange

end Rule

/-! ## Linearization points -/

/-- The state of the specification that a world stands for. -/
def Abs (w : World (BitVec 32) Point Unit Int) (lockedState : Int) : Prop :=
  lockedState = sharers .reading w - sharers .writing w

theorem fits_forgetsContexts : ForgetsContexts fun w (_ : ρ) (_ : List (HistoryEvent Slot Int)) =>
    (w : World (BitVec 32) Point Unit Int).Every Fits := by
  intro w g seq i before c ctx h hi hr
  have hfits := h.last hi
  exact h.set hi rfl ⟨hfits.name, fun hno => (by cases hr.symm.trans hno), hfits.rested⟩

/-- What a thread has of the lock between two tasks does not depend on where the last one returned. -/
theorem sharers_ctx {w : World (BitVec 32) Point Unit Int} {i : Nat} {before : List (Coro Point Unit Int)}
    {c : Coro Point Unit Int} (ctx : Point) (hi : w.threads[i]? = some (before ++ [c])) (hr : c.isReturned = true)
    (s : Share) : sharers s { w with threads := w.threads.set i (before ++ [{ c with ctx := ctx }]) } = sharers s w := by
  have hset := sharers_set (u := { w with threads := w.threads.set i (before ++ [{ c with ctx := ctx }]) }) hi rfl s
  have hshare : share { c with ctx := ctx } = share c := by
    unfold share
    rw [if_pos hr, if_pos hr]
  rw [hshare] at hset
  exact Nat.add_right_cancel hset

theorem forgetsContexts : ForgetsContexts fun w (_ : ρ) (_ : List (HistoryEvent Slot Int)) => Inv w := by
  intro w g seq i before c ctx h hi hr
  have hsharers := sharers_ctx ctx hi hr
  refine ⟨by simpa using h.few, @fits_forgetsContexts _ w g seq i before c ctx h.fits hi hr, ?_, ?_, ?_⟩
  · rw [hsharers, hsharers, hsharers]
    exact h.word
  · rw [hsharers]
    exact h.alone
  · rw [hsharers, hsharers]
    exact h.apart

/-- **`lock` takes effect when it sets its bit**, `lock_shared` when it adds its `4` and finds no writer, and the others
with their only access. -/
theorem points : Points target SharedLinearMutex.spec (Allows sharedMutexProtocol Methods)
    (fun w (_ : ρ) (_ : List (HistoryEvent Slot Int)) => Inv w) Point.effect Abs where
  start {w} hempty _ := by
    have hnone : ∀ s, sharers s w = 0 := fun s => total_of_empty hempty
    unfold Abs
    rw [hnone, hnone]
    rfl
  ask {w g seq s} slot _ hs := by
    unfold Abs
    rw [sharers_askBlocked, sharers_askBlocked]
    exact hs
  build {w g seq i tasks b s} id h hi hlast hb hs := by
    obtain ⟨-, hshare⟩ := share_build (g := g) id h.fits hi hlast hb
    have habs : Abs (w.pushTask i (b.build w.memory i id g).1) s := by
      unfold Abs
      rw [sharers_pushTask (by decide) hi hshare, sharers_pushTask (by decide) hi hshare]
      exact hs
    obtain ⟨rfl | rfl | rfl | rfl, -⟩ := hb <;> exact ⟨rfl, rfl, habs⟩
  resume {w g seq i before c c' m status s} h hi hr _ hrun hs := by
    obtain ⟨-, hchange⟩ := resume_changes (h.fits.last hi) hr hrun
    have hset := sharers_set (w := w) (u := ⟨m, w.threads.set i (before ++ [c']), status.or w.coroutineStatus⟩) hi rfl
    have hreading := hset .reading
    have hwriting := hset .writing
    obtain ⟨hfew, -, hword, halone, hapart⟩ := h
    unfold Abs at hs ⊢
    cases hchange with
    | take hname hfree _ hc hc' hnone hsome =>
      have hlt := sharers_lt (lastTask_snoc hi) hc
      obtain ⟨hk, hn⟩ := packed_eq_zero (by omega) halone (hword.symm.trans hfree)
      obtain rfl : s = 0 := by omega
      rw [hc, hc'] at hreading hwriting
      simp only [reduceCtorEq, ↓reduceIte] at hreading hwriting
      refine .inr ⟨hnone, fun lockedState _ => SharedLinearMutex.lock lockedState, by rw [hname]; rfl, hsome, ?_⟩
      show (-1 : Int) = _
      omega
    | give hname _ hc hc' hnone hsome =>
      rw [hc, hc'] at hreading hwriting
      simp only [reduceCtorEq, ↓reduceIte] at hreading hwriting
      refine .inr ⟨hnone, fun lockedState _ => SharedLinearMutex.unlock lockedState, by rw [hname]; rfl, hsome, ?_⟩
      show (0 : Int) = _
      omega
    | enter hname hno _ hc hc' hnone hsome =>
      rw [hword, packed_and _ halone] at hno
      rw [hc, hc'] at hreading hwriting
      simp only [reduceCtorEq, ↓reduceIte] at hreading hwriting
      have hshared : SharedLinearMutex.lockShared s = (0, s + 1) := if_neg (by omega)
      refine .inr ⟨hnone, fun lockedState _ => SharedLinearMutex.lockShared lockedState, by rw [hname]; rfl, ?_⟩
      dsimp only
      rw [hshared]
      exact ⟨hsome, by omega⟩
    | leave hname _ hc hc' hnone hsome =>
      rw [hc, hc'] at hreading hwriting
      simp only [reduceCtorEq, ↓reduceIte] at hreading hwriting
      refine .inr ⟨hnone, fun lockedState _ => SharedLinearMutex.unlockShared lockedState, by rw [hname]; rfl, hsome, ?_⟩
      show s - 1 = _
      omega
    | touch _ hc hc' hsame =>
      rw [hc, hc'] at hreading hwriting
      simp only [reduceCtorEq, ↓reduceIte] at hreading hwriting
      exact .inl ⟨hsame, by omega⟩
    | back _ hc hc' hsame =>
      rw [hc, hc'] at hreading hwriting
      simp only [reduceCtorEq, ↓reduceIte] at hreading hwriting
      exact .inl ⟨hsame, by omega⟩
    | go _ hc hsame =>
      rw [hc] at hreading hwriting
      exact .inl ⟨hsame, by omega⟩

/-! ## Runs -/

/-- A `PickStrategy` that tests the lock. -/
abbrev LockStrategy (ρ γ : Type) :=
  Strategy (BitVec 32) (Point × Nat) Unit Int (Nat → SharedStatus) ρ (PickState (BitVec 32) (Point × Nat) Unit ρ γ)

abbrev LockStage (ρ γ : Type) :=
  Stage (BitVec 32) (Point × Nat) Unit Int (Nat → SharedStatus) ρ (PickState (BitVec 32) (Point × Nat) Unit ρ γ)

/-- The names of the methods under test. -/
def names : List String := ["lock", "unlock", "lock_shared", "unlock_shared"]

/-- The last task of thread `i` has this name and has returned. -/
def Returned {κ : Type} (w : World (BitVec 32) κ Unit Int) (i : Nat) (name : String) : Prop :=
  ∃ c, w.lastTask i = some c ∧ c.name = name ∧ c.isReturned = true

section Runs

variable {γ : Type} {skips : Point → Bool} {n : Nat} {delay : Point → Nat} {D : Dice γ} {S : LockStrategy ρ γ}
  {st st' : LockStage ρ γ}
  {calls : List (NextCall (BitVec 32) (Point × Nat) Unit Int (Nat → SharedStatus) ρ
    (PickState (BitVec 32) (Point × Nat) Unit ρ γ))}

/-- Threads that test the lock at random. -/
def lockStrategy (skips : Point → Bool) : LockStrategy Unit Nat :=
  randomStrategy (target.compiled skips 1 fun _ => 0) sharedMutexVerifier cyclicDice [1, 1, 1]

/-- Before their first round. -/
def lockThreads (n : Nat) : LockStage Unit Nat where
  round := ⟨⟨0, List.replicate n [], none⟩, 0, ∅, List.replicate n none, fun _ => .free, ()⟩
  policy := ⟨[⟨"lock", fun _ _ g => (((), (.tryLock 0, 0), none), g)⟩,
    ⟨"unlock", fun _ _ g => (((), (.unlock, 0), none), g)⟩,
    ⟨"lock_shared", fun _ _ g => (((), (.tryLockShared 0, 0), none), g)⟩,
    ⟨"unlock_shared", fun _ _ g => (((), (.unlockShared, 0), none), g)⟩], 0, 0⟩

theorem lockThreads_opens (n : Nat) : Opens target Methods names (lockThreads n) := by
  refine ⟨fun b hb => ?_, .refl _, rfl⟩
  obtain rfl | rfl | rfl | rfl : b = _ ∨ b = _ ∨ b = _ ∨ b = _ := by simpa [lockThreads] using hb
  · exact .inl rfl
  · exact .inr (.inl rfl)
  · exact .inr (.inr (.inl rfl))
  · exact .inr (.inr (.inr rfl))

theorem lockThreads_empty (n : Nat) : ∀ tasks ∈ (lockThreads n).round.world.threads, tasks = [] := fun _ htasks =>
  (List.mem_replicate.1 htasks).2

/-- What a thread has whose last task has returned. -/
theorem Returned.share {w : World (BitVec 32) (Point × Nat) Unit Int} {i : Nat} {name : String} (h : Returned w i name) :
    ∃ c, (w.mapCtx Prod.fst).lastTask i = some c ∧
      share c = if name = "lock" then .writing else if name = "lock_shared" then .reading else .none := by
  obtain ⟨c, hc, rfl, hr⟩ := h
  exact ⟨c.mapCtx Prod.fst, lastTask_mapCtx_some _ _ hc, if_pos hr⟩

/-- **A writer is alone**: no other thread is between `lock` and `unlock`, or between `lock_shared` and `unlock_shared`, in
any state of any run of at most `2 ^ 30` threads. -/
theorem rwSpinLock_exclusive (hS : IsPickStrategy (target.compiled skips n delay) sharedMutexVerifier D S)
    (hplaying : Playing S (Opens target Methods names) calls st) (hthreads : st.round.world.threads.length ≤ 2 ^ 30)
    {i j : Nat} (hi : Returned st.round.world i "lock")
    (hj : Returned st.round.world j "lock" ∨ Returned st.round.world j "lock_shared") : i = j := by
  obtain ⟨-, -, hinv⟩ := hplaying.keeps inv_roundRule (forgetsContexts.within (· ≤ 2 ^ 30))
    (fun _ _ _ _ => isParked_eq_false (fun _ _ => rfl) _ _) hS sharedMutexVerifier_follows
  obtain ⟨-, -, -, halone, hapart⟩ := hinv (by simpa [World.mapCtx] using hthreads)
  obtain ⟨c, hc, hwriting⟩ := hi.share
  by_contra hij
  obtain hj | hj := hj
  · obtain ⟨d, hd, hwriting'⟩ := hj.share
    have hle := weight_add_le_total (f := fun c => if share c = .writing then 1 else 0) hc hd hij
    rw [hwriting, hwriting'] at hle
    exact absurd (Nat.le_trans hle halone) (by decide)
  · obtain ⟨d, hd, hreading⟩ := hj.share
    have hle := weight_le_total (f := fun c => if share c = .writing then 1 else 0) hc
    have hle' := weight_le_total (f := fun c => if share c = .reading then 1 else 0) hd
    rw [hwriting] at hle
    rw [hreading] at hle'
    obtain hno | hno := hapart
    · exact absurd (Nat.le_trans hle (Nat.le_of_eq hno)) (by decide)
    · exact absurd (Nat.le_trans hle' (Nat.le_of_eq hno)) (by decide)

/-- The third thread writes while the other two try to read. -/
theorem rwSpinLock_exclusive_lockThreads : ∃ st : LockStage Unit Nat, st.round.world.memory = packed 2 1 ∧
    Returned st.round.world 2 "lock" ∧
    ∀ i, Returned st.round.world i "lock" ∨ Returned st.round.world i "lock_shared" → 2 = i := by
  obtain ⟨⟨h, st⟩, hrun, hst⟩ := ok_of_toOption (x := (lockStrategy fun _ => false).generate 40 7 (lockThreads 3))
    (f := fun (_, st) => (st.round.world.memory, st.round.world.threads.length,
      (st.round.world.lastTask 2).map fun c => (c.name, c.isReturned)))
    (b := (packed 2 1, 3, some ("lock", true))) (by decide +kernel)
  obtain ⟨hmemory, hst⟩ := Prod.ext_iff.1 hst
  obtain ⟨hlen, hlast⟩ := Prod.ext_iff.1 hst
  obtain ⟨c, hc, heq⟩ := Option.map_eq_some_iff.1 hlast
  obtain ⟨hname, hr⟩ := Prod.ext_iff.1 heq
  have hwriter : Returned st.round.world 2 "lock" := ⟨c, hc, hname, hr⟩
  obtain ⟨calls, -, hplaying⟩ := Playing.generate (.start (lockThreads_opens 3) (lockThreads_empty 3) rfl) hrun
  have hfew : st.round.world.threads.length ≤ 2 ^ 30 := by
    rw [show st.round.world.threads.length = 3 from hlen]
    decide
  exact ⟨st, hmemory, hwriter, fun i hi => rwSpinLock_exclusive (.random [1, 1, 1]) hplaying hfew hwriter hi⟩

/-- **The lock is never reported**: the checker accepts the histories of all rounds of at most `2 ^ 30` threads. -/
theorem rwSpinLock_never_reported (hS : IsPickStrategy (target.compiled skips n delay) sharedMutexVerifier D S)
    (hfresh : Fresh S st) (hopens : Opens target Methods names st) (hchecker : st.round.schedChecker = fun _ => .free)
    (hthreads : st.round.world.threads.length ≤ 2 ^ 30) {fuel : Nat} {A : Type} {D' : Dice A} {R : RunParams} {g : A}
    (h : BothHistories Int) : run S (recursiveChecker SharedLinearMutex.spec) fuel D' R g st ≠ .ok (some h, st') := by
  have hforgets : ForgetsContexts fun w (_ : ρ) seq => Inv w ∧ Linearized SharedLinearMutex.spec Point.effect Abs w seq :=
    forgetsContexts.linearized fun ctx hi hr hs => by
      unfold Abs
      rw [sharers_ctx ctx hi hr, sharers_ctx ctx hi hr]
      exact hs
  refine never_reported (points.roundRule_within (· ≤ 2 ^ 30) inv_roundRule) (hforgets.within (· ≤ 2 ^ 30))
    (fun _ _ _ _ => isParked_eq_false (fun _ _ => rfl) _ _) hS sharedMutexVerifier_follows
    (fun hlen hw => (hw (hlen ▸ hthreads)).2.accepts) hfresh hopens ?_ h
  rw [hS.verifier_eq]
  exact hchecker

theorem rwSpinLock_never_reported_lockThreads :
    (∃ st, run (lockStrategy fun _ => false) (recursiveChecker SharedLinearMutex.spec) 40 leastDice ⟨6, 2, true, 1, 1⟩ ()
      (lockThreads 3) = .ok (none, st)) ∧
    ¬∃ h st, run (lockStrategy fun _ => false) (recursiveChecker SharedLinearMutex.spec) 40 leastDice ⟨6, 2, true, 1, 1⟩ ()
      (lockThreads 3) = .ok (some h, st) := by
  have hnever : ¬∃ h st, run (lockStrategy fun _ => false) (recursiveChecker SharedLinearMutex.spec) 40 leastDice
      ⟨6, 2, true, 1, 1⟩ () (lockThreads 3) = .ok (some h, st) := fun ⟨h, st, hrun⟩ =>
    rwSpinLock_never_reported (.random [1, 1, 1]) ⟨rfl, lockThreads_empty 3, rfl, rfl⟩ (lockThreads_opens 3) rfl
      (by decide) h hrun
  exact ⟨none_of_toOption (by decide +kernel), hnever⟩

/-- **The strategy always finds a task to go on with**, and a round fails no assertion. -/
theorem rwSpinLock_goes_on {threads : Nat} (hS : IsPickStrategy (target.compiled skips n delay) sharedMutexVerifier D S)
    (hpicks : PicksEligible S threads) (hthreads : 0 < threads)
    (hplaying : Playing S (fun st => Opens target Methods names st ∧ st.round.world.threads.length = threads) calls st) :
    (∃ r, S.next st = .ok r) ∧ ∀ fuel maxTasks e, S.generate fuel maxTasks st = .error e → e = .outOfFuel := by
  refine goes_on fits_roundRule fits_forgetsContexts (fun _ _ _ _ => isParked_eq_false (fun _ _ => rfl) _ _) hS
    sharedMutexVerifier_follows (fun v name i hname => ?_) sharedMutexProtocol_progress (fun hw hlen => ?_) hpicks hthreads
    hplaying
  · obtain rfl | rfl | rfl | rfl : name = "lock" ∨ name = "unlock" ∨ name = "lock_shared" ∨ name = "unlock_shared" := by
      simpa [names] using hname
    all_goals simp [sharedMutexVerifier, SharedMutexVerifier.verify]
  · refine ⟨0, hlen, fun c hc => ⟨isParked_eq_false (fun _ _ => rfl) _ _, ?_⟩⟩
    unfold Coro.waits
    rw [(hw.lastTask hc).rested]
    rfl

theorem rwSpinLock_goes_on_lockThreads : (∃ r, (lockStrategy fun _ => false).next (lockThreads 3) = .ok r) ∧
    ∀ fuel maxTasks e, (lockStrategy fun _ => false).generate fuel maxTasks (lockThreads 3) = .error e → e = .outOfFuel :=
  rwSpinLock_goes_on (.random [1, 1, 1]) (picksEligible_random (by decide)) (by decide)
    (.start ⟨lockThreads_opens 3, rfl⟩ (lockThreads_empty 3) rfl)

end Runs

end RWSpinLock

end Ltest
