import OsLabs.Lib.CondVar
import OsLabs.Lib.Sys

/-!
# The semaphore of `sem.c`

A semaphore is built from a mutex and the condition variable `waiters`. Any number of threads call `wait` and `post`. A critical
section is one step, from when the thread has the mutex until it gives it up, at its end or in `pthread_cond_wait`; a thread that has
been woken goes through the test of its `while` loop again in its next critical section. `pthread_cond_signal` wakes at least one
sleeper if there is any, and a sleeper may wake up by itself. `value` is an `int`, and `post` does not look whether it can go up:
what holds, holds as long as no `post` is made at `INT_MAX` (`Room`).

The calls that are through are counted from outside (`Tally`), a `wait` when its thread is out of it. That no wakeup is lost is
`no_lost_wakeup`: a thread sleeps only as long as the threads that are awake and on their way back are enough to take whatever `value`
says. `post` raises `value` and wakes somebody, or nobody sleeps; a thread that takes a value which was meant for another lowers both
sides.
-/

namespace OsLabs.Semaphore

/-- Where a thread is: outside `wait`, asleep on `waiters`, or woken and waiting for the mutex. -/
inductive Place where
  | outside | asleep | woken
  deriving DecidableEq

/-- `Sem_t`, and the places of the threads. -/
structure State (m : Nat) where
  value : Int
  pc : Fin m → Place

variable {m : Nat}

/-- `INT_MAX`. -/
def intMax : Int := 2 ^ 31 - 1

/-- An `int` that wraps round. -/
def int (x : Int) : Int := x.bmod (2 ^ 32)

/-- `init`: a negative value ends the program. -/
def init (m : Nat) (val : Int) : Option (State m) :=
  if val < 0 then none else some { value := val, pc := fun _ => .outside }

/-- `wait`, from when the thread has the mutex: the test of the loop, then `pthread_cond_wait` or the rest. -/
def wait (s : State m) (i : Fin m) : State m :=
  if s.value = 0 then
    { s with pc := Function.update s.pc i .asleep }
  else
    { s with value := int (s.value - 1), pc := Function.update s.pc i .outside }

/-- `post`: the signal wakes `n` sleepers, or all there are, for some `n` that is at least one. -/
def post (s s' : State m) : Prop :=
  ∃ n pc', 1 ≤ n ∧ Signals Place.asleep .woken n s.pc pc' ∧ s' = { s with value := int (s.value + 1), pc := pc' }

/-- What a thread does. -/
inductive Act (m : Nat) where
  | wait (i : Fin m)
  /-- The rest of `pthread_cond_wait`, with the mutex again, and the loop. -/
  | wake (i : Fin m)
  /-- A wakeup without a signal. -/
  | spurious (i : Fin m)
  | post (i : Fin m)

/-- A step of a thread. -/
def step (s : State m) : Act m → State m → Prop
  | .wait i, s' => s.pc i = .outside ∧ s' = wait s i
  | .wake i, s' => s.pc i = .woken ∧ s' = wait s i
  | .spurious i, s' => s.pc i = .asleep ∧ s' = { s with pc := Function.update s.pc i .woken }
  | .post i, s' => s.pc i = .outside ∧ post s s'

/-- How many calls of `wait` and `post` are through. -/
structure Tally where
  waits : Nat
  posts : Nat

/-- A step that leads to `s'` is counted: a `post`, and a step of `wait` behind which the thread is outside. -/
def Tally.count (t : Tally) (s' : State m) : Act m → Tally
  | .wait i | .wake i => if s'.pc i = .outside then { t with waits := t.waits + 1 } else t
  | .spurious _ => t
  | .post _ => { t with posts := t.posts + 1 }

/-- `m` threads and a semaphore that starts at `val`. -/
def sem (m : Nat) (val : Int) : Sys (State m × Tally) (Act m) where
  init x := init m val = some x.1 ∧ x.2 = ⟨0, 0⟩
  step x a x' := step x.1 a x'.1 ∧ x'.2 = x.2.count x'.1 a

/-- The guard of a run in which no `post` is made at `INT_MAX`. -/
def Room (x : State m × Tally) : Act m → Prop
  | .post _ => x.1.value < intMax
  | _ => True

/-! ## What a step does -/

theorem int_eq {x : Int} (h0 : 0 ≤ x) (hle : x ≤ intMax) : int x = x := by
  unfold intMax at hle
  exact Int.bmod_eq_of_le (by omega) (by omega)

/-- The steps, one by one. A thread that enters the critical section of `wait` does not sleep. -/
theorem step_cases {val : Int} {s s' : State m} {t t' : Tally} {a : Act m} (h : (sem m val).step (s, t) a (s', t')) :
    (∃ i, s.pc i ≠ .asleep ∧ s.value = 0 ∧ s' = { s with pc := Function.update s.pc i .asleep } ∧ t' = t) ∨
    (∃ i, s.pc i ≠ .asleep ∧ s.value ≠ 0 ∧ s' = { s with value := int (s.value - 1), pc := Function.update s.pc i .outside } ∧
      t' = { t with waits := t.waits + 1 }) ∨
    (∃ i, s.pc i = .asleep ∧ s' = { s with pc := Function.update s.pc i .woken } ∧ t' = t) ∨
    (∃ i n pc', a = .post i ∧ 1 ≤ n ∧ Signals Place.asleep .woken n s.pc pc' ∧
      s' = { s with value := int (s.value + 1), pc := pc' } ∧ t' = { t with posts := t.posts + 1 }) := by
  obtain ⟨hst, ht⟩ := h
  have enters : ∀ i, s.pc i ≠ .asleep → s' = wait s i → (t' = if s'.pc i = .outside then { t with waits := t.waits + 1 } else t) →
      (∃ i, s.pc i ≠ .asleep ∧ s.value = 0 ∧ s' = { s with pc := Function.update s.pc i .asleep } ∧ t' = t) ∨
      (∃ i, s.pc i ≠ .asleep ∧ s.value ≠ 0 ∧
        s' = { s with value := int (s.value - 1), pc := Function.update s.pc i .outside } ∧
        t' = { t with waits := t.waits + 1 }) := by
    intro i hi h ht
    by_cases hv : s.value = 0
    · rw [wait, if_pos hv] at h
      subst h
      refine Or.inl ⟨i, hi, hv, rfl, ?_⟩
      rw [ht, if_neg (by simp)]
    · rw [wait, if_neg hv] at h
      subst h
      refine Or.inr ⟨i, hi, hv, rfl, ?_⟩
      rw [ht, if_pos (by simp)]
  cases a with
  | wait i =>
    obtain ⟨hi, h⟩ := hst
    exact (enters i (by rw [hi]; decide) h ht).imp_right Or.inl
  | wake i =>
    obtain ⟨hi, h⟩ := hst
    exact (enters i (by rw [hi]; decide) h ht).imp_right Or.inl
  | spurious i => exact Or.inr (Or.inr (Or.inl ⟨i, hst.1, hst.2, ht⟩))
  | post i =>
    obtain ⟨-, n, pc', hn, hsig, hs⟩ := hst
    exact Or.inr (Or.inr (Or.inr ⟨i, n, pc', rfl, hn, hsig, hs, ht⟩))

/-! ## The value -/

/-- The value is what it started at, with the posts and without the waits. -/
structure Books (val : Int) (x : State m × Tally) : Prop where
  value : x.1.value = val + x.2.posts - x.2.waits
  nonneg : 0 ≤ x.1.value
  le : x.1.value ≤ intMax

/-- Every step for which there is room keeps the books: `wait` takes only from a value that is not zero. -/
theorem books_step {val : Int} {x x' : State m × Tally} {a : Act m} (hB : Books val x) (hroom : Room x a)
    (h : (sem m val).step x a x') : Books val x' := by
  obtain ⟨s, t⟩ := x
  obtain ⟨s', t'⟩ := x'
  have hv : s.value = val + t.posts - t.waits := hB.value
  have h0 : 0 ≤ s.value := hB.nonneg
  have hle : s.value ≤ intMax := hB.le
  rcases step_cases h with ⟨i, -, -, rfl, rfl⟩ | ⟨i, -, hne, rfl, rfl⟩ | ⟨i, -, rfl, rfl⟩ | ⟨i, n, pc', rfl, -, -, rfl, rfl⟩
  · exact ⟨hv, h0, hle⟩
  · have hint : int (s.value - 1) = s.value - 1 := int_eq (by omega) (by omega)
    exact ⟨by simp only [hint]; push_cast; omega, by simp only [hint]; omega, by simp only [hint]; omega⟩
  · exact ⟨hv, h0, hle⟩
  · have hlt : s.value < intMax := hroom
    have hint : int (s.value + 1) = s.value + 1 := int_eq (by omega) (by omega)
    exact ⟨by simp only [hint]; push_cast; omega, by simp only [hint]; omega, by simp only [hint]; omega⟩

/-- The books are right initially. -/
theorem books_init {val : Int} (hval : val ≤ intMax) {x : State m × Tally} (h : (sem m val).init x) : Books val x := by
  obtain ⟨h, ht⟩ := h
  unfold init at h
  split at h
  · cases h
  · rename_i hneg
    have hs : x.1.value = val := (congrArg State.value (Option.some.inj h)).symm
    exact ⟨by rw [ht]; simp [hs], by omega, by omega⟩

/-! ## Wakeups -/

/-- A thread sleeps only if the threads on their way back are at least as many as `value` says. -/
def Awake (s : State m) : Prop := 0 < countAt .asleep s.pc → s.value ≤ countAt .woken s.pc

/-- How the sleepers and the woken change when a thread that does not sleep moves: at most one woken thread goes. -/
theorem countAt_moved {pc : Fin m → Place} {i : Fin m} {c : Place} (hi : pc i ≠ .asleep) (hc : c ≠ .woken) :
    countAt .asleep (Function.update pc i c) = countAt .asleep pc + (if c = .asleep then 1 else 0) ∧
      countAt .woken pc ≤ countAt .woken (Function.update pc i c) + 1 := by
  have h1 := countAt_update .asleep pc i c
  have h2 := countAt_update .woken pc i c
  rw [if_neg hi] at h1
  rw [if_neg hc] at h2
  split at h2
  · exact ⟨h1, by omega⟩
  · exact ⟨h1, by omega⟩

/-- Every step for which there is room keeps the sleepers covered. -/
theorem awake_step {val : Int} {x x' : State m × Tally} {a : Act m} (hB : Books val x) (hA : Awake x.1) (hroom : Room x a)
    (h : (sem m val).step x a x') : Awake x'.1 := by
  obtain ⟨s, t⟩ := x
  obtain ⟨s', t'⟩ := x'
  have h0 : 0 ≤ s.value := hB.nonneg
  have hle : s.value ≤ intMax := hB.le
  have hA : Awake s := hA
  rcases step_cases h with ⟨i, -, hz, rfl, -⟩ | ⟨i, hi, hne, rfl, -⟩ | ⟨i, hi, rfl, -⟩ | ⟨i, n, pc', rfl, hn, hsig, rfl, -⟩
  · -- A thread goes to sleep only at zero.
    intro _
    simp [hz]
  · -- A value is taken, by a woken thread or by one that came before it.
    obtain ⟨h1, h2⟩ := countAt_moved (c := .outside) hi (by decide)
    intro hs
    have hs' : 0 < countAt .asleep s.pc := by simpa [h1] using hs
    have := hA hs'
    have hint : int (s.value - 1) = s.value - 1 := int_eq (by omega) (by omega)
    simp only [hint]
    omega
  · -- A spurious wakeup adds to the woken.
    have h1 := countAt_update .woken s.pc i .woken
    simp [hi] at h1
    intro _
    have := hA (countAt_pos i hi)
    simp only
    omega
  · -- A post wakes somebody, as there are sleepers left.
    have h1 := hsig.countAt_asleep (by decide)
    have h2 := hsig.countAt_woken (by decide)
    have hlt : s.value < intMax := hroom
    have hint : int (s.value + 1) = s.value + 1 := int_eq (by omega) (by omega)
    intro hs
    simp only [hint] at hs ⊢
    have := hA (by omega)
    omega

/-- Nobody sleeps initially. -/
theorem awake_init {val : Int} {s : State m} (h : init m val = some s) : Awake s := by
  unfold init at h
  split at h
  · cases h
  · obtain rfl := Option.some.inj h
    have h0 : countAt Place.asleep (fun _ : Fin m => Place.outside) = 0 := countAt_eq_zero_iff.mpr fun i => by decide
    intro hs
    simp only at hs
    omega

/-- The books are right and the sleepers covered in every state of a run that has room. -/
theorem inv_reach {val : Int} (hval : val ≤ intMax) {x : State m × Tally} (h : ((sem m val).guard Room).Reach x) :
    Books val x ∧ Awake x.1 := by
  have hind : ((sem m val).guard Room).Inductive fun x => Books val x ∧ Awake x.1 := by
    refine ⟨fun x hx => ⟨books_init hval hx, awake_init hx.1⟩, ?_⟩
    intro x a x' hI hst
    exact ⟨books_step hI.1 hst.1 hst.2, awake_step hI.1 hI.2 hst.1 hst.2⟩
  exact hind.reach h

/-- In every state of a run in which no `post` is made at `INT_MAX`, the value is what it started at, with the posts and without the
waits, and is not negative; and if some thread sleeps, then as many threads as `value` says are woken and not yet back. -/
theorem no_lost_wakeup (m : Nat) (val : Int) (hval : val ≤ intMax) {s : State m} {t : Tally}
    (h : ((sem m val).guard Room).Reach (s, t)) :
    s.value = val + t.posts - t.waits ∧ 0 ≤ s.value ∧ ((∃ i, s.pc i = .asleep) → s.value ≤ countAt .woken s.pc) := by
  obtain ⟨hB, hA⟩ := inv_reach hval h
  refine ⟨hB.value, hB.nonneg, ?_⟩
  rintro ⟨i, hi⟩
  exact hA (countAt_pos i hi)

/-- Three threads at a semaphore that started at zero: two have come to wait, and the third has posted. One of the two still sleeps, and
the other is on its way to take the value. -/
theorem no_lost_wakeup_three : ∃ s : State 3, ((sem 3 0).guard Room).Reach (s, ⟨0, 1⟩) ∧ s.pc 1 = .asleep ∧ s.value = 1 ∧
    s.value ≤ countAt .woken s.pc := by
  have h0 : ((sem 3 0).guard Room).Reach (⟨0, fun _ => .outside⟩, ⟨0, 0⟩) := Sys.Reach.init ⟨rfl, rfl⟩
  have h1 : ((sem 3 0).guard Room).Reach (⟨0, Function.update (fun _ => .outside) 0 .asleep⟩, ⟨0, 0⟩) :=
    Sys.Reach.step (.wait 0) h0 ⟨trivial, ⟨rfl, rfl⟩, rfl⟩
  have h2 : ((sem 3 0).guard Room).Reach
      (⟨0, Function.update (Function.update (fun _ => .outside) 0 .asleep) 1 .asleep⟩, ⟨0, 0⟩) :=
    Sys.Reach.step (.wait 1) h1 ⟨trivial, ⟨rfl, rfl⟩, rfl⟩
  have hwake : Signals Place.asleep .woken 1
      (Function.update (Function.update (fun _ : Fin 3 => Place.outside) 0 .asleep) 1 .asleep) _ :=
    Signals.succ (Signal.wake 0 rfl) (Signals.zero _)
  have h3 : ((sem 3 0).guard Room).Reach (⟨1, _⟩, ⟨0, 1⟩) :=
    Sys.Reach.step (.post 2) h2 ⟨show (0 : Int) < intMax by decide, ⟨rfl, 1, _, Nat.le_refl 1, hwake, rfl⟩, rfl⟩
  obtain ⟨hv, -, hcover⟩ := no_lost_wakeup 3 0 (by decide) h3
  exact ⟨_, h3, rfl, hv, hcover ⟨1, rfl⟩⟩

/-- A semaphore that starts at `INT_MAX` is negative after one `post`. -/
theorem post_overflows : ¬ ∀ (m : Nat) (val : Int), 0 ≤ val → val ≤ intMax → ∀ (s : State m) (t : Tally), (sem m val).Reach (s, t) →
    s.value = val + t.posts - t.waits ∧ 0 ≤ s.value ∧ ((∃ i, s.pc i = .asleep) → s.value ≤ countAt .woken s.pc) := by
  intro h
  have h0 : (sem 1 intMax).Reach (⟨intMax, fun _ => .outside⟩, ⟨0, 0⟩) := Sys.Reach.init ⟨rfl, rfl⟩
  have hnone : Signals Place.asleep .woken 1 (fun _ : Fin 1 => Place.outside) (fun _ => .outside) :=
    Signals.succ ⟨none, SignalTo.lost fun _ => by decide⟩ (Signals.zero _)
  have h1 : (sem 1 intMax).Reach (⟨int (intMax + 1), fun _ => .outside⟩, ⟨0, 1⟩) :=
    Sys.Reach.step (.post 0) h0 ⟨⟨rfl, 1, _, Nat.le_refl 1, hnone, rfl⟩, rfl⟩
  exact absurd (h 1 intMax (by decide) (by decide) _ _ h1).2.1 (by decide)

end OsLabs.Semaphore
