import Ltest.Program.Calls
import Mathlib.Data.Finset.Card
import Mathlib.Data.List.Induction
import Mathlib.Tactic.Common

/-!
# Pools of resumable processes

Processes over one shared memory, each in a state of its own. Resuming a process that is not done lets it take one step;
a process that is done stays as it is. What happens when processes are resumed in a given order depends on the memory,
the states of the processes in that order, and nothing else (`run_agree`, `events_agree`): this is what makes a schedule
a complete description of an execution.

`events` records where a process is resumed for the first time and where it gets done. A process has one start
(`count_start`), at most one finish, which comes later (`start_before_finish`) and holds its final state (`finish_eq`).
-/

namespace Pool

variable {M X I : Type}

/-- What a process does up to its next suspension, and when it is done. -/
structure Machine (M X : Type) where
  step : X → M → X × M
  done : X → Bool

/-- The memory and the states of the processes. -/
structure Conf (M X I : Type) where
  memory : M
  proc : I → X

/-- The first resume of a process, or the step that got it done and the state it is done in. -/
inductive Event (X I : Type) where
  | start (i : I)
  | finish (i : I) (x : X)

namespace Event

/-- The process of an event. -/
def subject : Event X I → I
  | .start i => i
  | .finish i _ => i

def isStart : Event X I → Bool
  | .start _ => true
  | .finish _ _ => false

end Event

variable [DecidableEq I] (A : Machine M X)

/-- One process is resumed. -/
def resume (c : Conf M X I) (i : I) : Conf M X I :=
  if A.done (c.proc i) then c
  else ⟨(A.step (c.proc i) c.memory).2, Function.update c.proc i (A.step (c.proc i) c.memory).1⟩

/-- Processes are resumed one after the other. -/
def run (c : Conf M X I) (l : List I) : Conf M X I := l.foldl (resume A) c

/-- The events of one resume; `seen` have been resumed before. -/
def stepEvents (c : Conf M X I) (seen : List I) (i : I) : List (Event X I) :=
  (if i ∈ seen then [] else [.start i]) ++
    if !A.done (c.proc i) && A.done ((resume A c i).proc i) then [.finish i ((resume A c i).proc i)] else []

/-- The events of the resumes `l` after the resumes `seen`. -/
def eventsFrom (c : Conf M X I) (seen : List I) : List I → List (Event X I)
  | [] => []
  | i :: l => stepEvents A c seen i ++ eventsFrom (resume A c i) (seen ++ [i]) l

/-- The events of a run. -/
def events (c : Conf M X I) (l : List I) : List (Event X I) := eventsFrom A c [] l

variable {A} {c c' : Conf M X I} {i j : I} {l : List I}

/-! ## One more resume -/

@[simp] theorem run_nil : run A c [] = c := rfl

@[simp] theorem events_nil : events A c [] = [] := rfl

@[simp] theorem run_snoc (l : List I) (i : I) : run A c (l ++ [i]) = resume A (run A c l) i := by
  simp [run]

theorem eventsFrom_snoc (i : I) : ∀ (l : List I) (c : Conf M X I) (seen : List I),
    eventsFrom A c seen (l ++ [i]) = eventsFrom A c seen l ++ stepEvents A (run A c l) (seen ++ l) i
  | [], c, seen => by simp [eventsFrom]
  | j :: l, c, seen => by simp [eventsFrom, eventsFrom_snoc i l, run]

@[simp] theorem events_snoc (l : List I) (i : I) :
    events A c (l ++ [i]) = events A c l ++ stepEvents A (run A c l) l i := by
  simpa [events] using eventsFrom_snoc i l c []

/-! ## Locality -/

theorem resume_of_ne (h : i ≠ j) : (resume A c j).proc i = c.proc i := by
  unfold resume
  split
  · rfl
  · exact Function.update_of_ne h _ _

theorem resume_of_done (h : A.done (c.proc i) = true) : resume A c i = c := if_pos h

/-- A process that is not resumed stays as it is. -/
theorem run_frame : ∀ (l : List I), i ∉ l → (run A c l).proc i = c.proc i := by
  intro l
  induction l using List.reverseRecOn with
  | nil => exact fun _ => rfl
  | append_singleton l j ih =>
    intro h
    rw [List.mem_append, List.mem_singleton, not_or] at h
    rw [run_snoc, resume_of_ne h.2, ih h.1]

/-- So does one that is done. -/
theorem resume_done (h : A.done (c.proc i) = true) : (resume A c j).proc i = c.proc i := by
  by_cases hij : i = j
  · subst hij
    rw [resume_of_done h]
  · exact resume_of_ne hij

/-- Two pools agree on the processes `S`. -/
structure Agree (S : I → Prop) (c c' : Conf M X I) : Prop where
  memory : c.memory = c'.memory
  proc : ∀ i, S i → c.proc i = c'.proc i

theorem Agree.resume {S : I → Prop} (h : Agree S c c') (hi : S i) : Agree S (resume A c i) (resume A c' i) := by
  unfold Pool.resume
  rw [h.proc i hi, h.memory]
  split
  · exact h
  · refine ⟨rfl, fun j hj => ?_⟩
    by_cases hij : j = i
    · subst hij
      simp
    · simpa [Function.update_of_ne hij] using h.proc j hj

/-- **A run depends on the processes it resumes.** -/
theorem run_agree {S : I → Prop} (h : Agree S c c') : ∀ (l : List I), (∀ i ∈ l, S i) →
    Agree S (run A c l) (run A c' l) := by
  intro l
  induction l using List.reverseRecOn with
  | nil => exact fun _ => h
  | append_singleton l i ih =>
    intro hl
    rw [run_snoc, run_snoc]
    exact (ih fun j hj => hl j (List.mem_append_left _ hj)).resume (hl i (by simp))

/-- **So do its events.** -/
theorem events_agree {S : I → Prop} (h : Agree S c c') : ∀ (l : List I), (∀ i ∈ l, S i) →
    events A c l = events A c' l := by
  intro l
  induction l using List.reverseRecOn with
  | nil => exact fun _ => rfl
  | append_singleton l i ih =>
    intro hl
    have hl' : ∀ j ∈ l, S j := fun j hj => hl j (List.mem_append_left _ hj)
    have hi : S i := hl i (by simp)
    have hrun := run_agree (A := A) h l hl'
    rw [events_snoc, events_snoc, ih hl']
    unfold stepEvents
    rw [hrun.proc i hi, (hrun.resume hi).proc i hi]

/-! ## Starts and finishes -/

/-- The processes with an event are those that are resumed. -/
theorem subject_mem : ∀ (l : List I) {e : Event X I}, e ∈ events A c l → e.subject ∈ l := by
  intro l
  induction l using List.reverseRecOn with
  | nil => exact fun h => by cases h
  | append_singleton l i ih =>
    intro e he
    rw [events_snoc, List.mem_append] at he
    rcases he with he | he
    · exact List.mem_append_left _ (ih he)
    · have hsubject : e.subject = i := by
        unfold stepEvents at he
        rcases List.mem_append.1 he with he | he
        · split at he
          · cases he
          · rw [List.mem_singleton.1 he]
            rfl
        · split at he
          · rw [List.mem_singleton.1 he]
            rfl
          · cases he
      rw [hsubject]
      simp

/-- The starts of `i` in a list of events. -/
def starts (i : I) (es : List (Event X I)) : Nat := es.countP fun e => e.isStart && e.subject == i

/-- The finishes of `i` in a list of events. -/
def finishes (i : I) (es : List (Event X I)) : Nat := es.countP fun e => !e.isStart && e.subject == i

/-- **Every process that is resumed starts once.** -/
theorem count_start : ∀ (l : List I), starts i (events A c l) = if i ∈ l then 1 else 0 := by
  intro l
  induction l using List.reverseRecOn with
  | nil => rfl
  | append_singleton l j ih =>
    have hstep : starts i (stepEvents A (run A c l) l j) = if j ∉ l ∧ j = i then 1 else 0 := by
      unfold starts stepEvents
      rw [List.countP_append]
      split <;> split <;> simp_all [Event.isStart, Event.subject]
    have happend : starts i (events A c l ++ stepEvents A (run A c l) l j) =
        starts i (events A c l) + starts i (stepEvents A (run A c l) l j) := List.countP_append
    rw [events_snoc, happend, ih, hstep]
    by_cases hij : j = i
    · subst hij
      by_cases hj : j ∈ l <;> simp [hj]
    · simp [hij, Ne.symm hij]

/-- **It finishes once if it gets done**, and else not at all. -/
theorem count_finish (hi : A.done (c.proc i) = false) : ∀ (l : List I),
    finishes i (events A c l) = if A.done ((run A c l).proc i) then 1 else 0 := by
  intro l
  induction l using List.reverseRecOn with
  | nil => simp [finishes, hi]
  | append_singleton l j ih =>
    have hstep : finishes i (stepEvents A (run A c l) l j) =
        if j = i ∧ A.done ((run A c l).proc i) = false ∧ A.done ((resume A (run A c l) i).proc i) = true then 1 else 0 := by
      unfold finishes stepEvents
      rw [List.countP_append]
      by_cases hij : j = i
      · subst hij
        split <;> split <;> simp_all [Event.isStart, Event.subject]
      · split <;> split <;> simp_all [Event.isStart, Event.subject]
    have happend : finishes i (events A c l ++ stepEvents A (run A c l) l j) =
        finishes i (events A c l) + finishes i (stepEvents A (run A c l) l j) := List.countP_append
    rw [events_snoc, run_snoc, happend, ih, hstep]
    by_cases hij : j = i
    · subst hij
      cases hd : A.done ((run A c l).proc j) with
      | true => simp [resume_of_done hd, hd]
      | false => simp
    · rw [resume_of_ne (Ne.symm hij)]
      simp [hij]

/-- A finish holds the final state of its process, which is done. -/
theorem finish_eq : ∀ (l : List I) {x : X}, .finish i x ∈ events A c l →
    x = (run A c l).proc i ∧ A.done x = true := by
  intro l
  induction l using List.reverseRecOn with
  | nil => exact fun h => by cases h
  | append_singleton l j ih =>
    intro x hx
    rw [events_snoc, List.mem_append] at hx
    rw [run_snoc]
    rcases hx with hx | hx
    · obtain ⟨rfl, hdone⟩ := ih hx
      exact ⟨(resume_done hdone).symm, hdone⟩
    · unfold stepEvents at hx
      rcases List.mem_append.1 hx with hx | hx
      · split at hx <;> simp at hx
      · split at hx
        · rename_i hd
          simp only [List.mem_singleton, Event.finish.injEq] at hx
          obtain ⟨rfl, rfl⟩ := hx
          exact ⟨rfl, (Bool.and_eq_true_iff.1 hd).2⟩
        · cases hx

/-- A process that is resumed has started. -/
theorem start_mem (h : i ∈ l) : .start i ∈ events A c l := by
  have hcount := count_start (A := A) (c := c) (i := i) l
  rw [if_pos h, starts] at hcount
  obtain ⟨e, he, hstart⟩ := List.countP_pos_iff.1 (hcount ▸ Nat.one_pos)
  cases e with
  | start k =>
    have hk : k = i := by simpa [Event.isStart, Event.subject] using hstart
    rwa [← hk]
  | finish k y => simp [Event.isStart] at hstart

/-- An event that is a finish comes after the start of its process. -/
def Follows (pre : List (Event X I)) : Event X I → Prop
  | .start _ => True
  | .finish i _ => .start i ∈ pre

/-- **The start of a process comes before its finish.** -/
theorem start_before_finish : ∀ (l : List I), Calls.Always Follows (events A c l) := by
  intro l
  induction l using List.reverseRecOn with
  | nil => exact Calls.always_nil
  | append_singleton l j ih =>
    have hstart : Calls.Always Follows (events A c l ++ if j ∈ l then [] else [.start j]) := by
      split
      · simpa using ih
      · exact Calls.always_snoc.2 ⟨ih, trivial⟩
    have hmem : .start j ∈ events A c l ++ if j ∈ l then [] else [.start j] := by
      by_cases hj : j ∈ l
      · exact List.mem_append_left _ (start_mem hj)
      · simp [hj]
    rw [events_snoc, stepEvents, ← List.append_assoc]
    by_cases hd : (!A.done ((run A c l).proc j) && A.done ((resume A (run A c l) j).proc j)) = true
    · rw [if_pos hd]
      exact Calls.always_snoc.2 ⟨hstart, hmem⟩
    · rw [if_neg hd, List.append_nil]
      exact hstart

/-- A run has as many events as processes that start and processes that finish. -/
theorem length_events (hl : ∀ i ∈ l, A.done (c.proc i) = false) : (events A c l).length =
    l.toFinset.card + (l.toFinset.filter fun i => A.done ((run A c l).proc i) = true).card := by
  induction l using List.reverseRecOn with
  | nil => rfl
  | append_singleton l j ih =>
    have ih := ih fun i hi => hl i (List.mem_append_left _ hi)
    rw [events_snoc, List.length_append, ih, stepEvents, List.length_append, run_snoc]
    have hset : (l ++ [j]).toFinset = insert j l.toFinset := by
      ext i
      simp
    have hcard : (l ++ [j]).toFinset.card = l.toFinset.card + if j ∈ l then 0 else 1 := by
      rw [hset]
      split
      · rename_i h
        rw [Finset.insert_eq_self.2 (List.mem_toFinset.2 h), Nat.add_zero]
      · rename_i h
        rw [Finset.card_insert_of_notMem (by simpa using h)]
    have hdone : ((l ++ [j]).toFinset.filter fun i => A.done ((resume A (run A c l) j).proc i) = true).card =
        (l.toFinset.filter fun i => A.done ((run A c l).proc i) = true).card +
          if !A.done ((run A c l).proc j) && A.done ((resume A (run A c l) j).proc j) then 1 else 0 := by
      have hother : ∀ i, i ≠ j → A.done ((resume A (run A c l) j).proc i) = A.done ((run A c l).proc i) :=
        fun i hi => by rw [resume_of_ne hi]
      rw [hset]
      cases hbefore : A.done ((run A c l).proc j) with
      | true =>
        -- a process that is done has been resumed before
        have hj : j ∈ l := by
          by_contra hj
          rw [run_frame l hj, hl j (by simp)] at hbefore
          cases hbefore
        rw [Finset.insert_eq_self.2 (List.mem_toFinset.2 hj), resume_of_done hbefore]
        simp
      | false =>
        cases hafter : A.done ((resume A (run A c l) j).proc j) with
        | true =>
          have hfilter : (insert j l.toFinset).filter (fun i => A.done ((resume A (run A c l) j).proc i) = true) =
              insert j (l.toFinset.filter fun i => A.done ((run A c l).proc i) = true) := by
            ext i
            by_cases hi : i = j
            · subst hi
              simp [hafter]
            · simp [hi, hother i hi]
          rw [hfilter, Finset.card_insert_of_notMem (by simp [hbefore])]
          simp
        | false =>
          have hfilter : (insert j l.toFinset).filter (fun i => A.done ((resume A (run A c l) j).proc i) = true) =
              l.toFinset.filter fun i => A.done ((run A c l).proc i) = true := by
            ext i
            by_cases hi : i = j
            · subst hi
              simp [hafter, hbefore]
            · simp [hi, hother i hi]
          rw [hfilter]
          simp
    rw [hcard, hdone]
    split <;> split <;> simp <;> omega

end Pool
