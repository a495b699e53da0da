import OsLabs.Lib.Sys
import OsLabs.Lib.Count
import Mathlib.Logic.Function.Basic

/-!
# The barrier of `barrier.c`

`m` processes share one barrier made by `barrier_init(n)` and call `barrier_wait` again and again. A process is the place it has
reached in `barrier_wait` (`Pc`); each semaphore operation and each access to `waiting` is one step. Two counters that the
program does not have are kept beside the barrier: the calls that have executed their first `waiting++` and the calls that
have returned.

`waiting` is an `int` of the source and an integer without bound here: the model is exact for runs in which no `waiting++` overflows.
It is never more than the calls that have entered (`State.Counted.le`), so that only a run of more than `INT_MAX` calls can make it
overflow; what is said of runs without end is said under the guard `State.inRange`.
-/

namespace OsLabs.Barrier

/-- The places of `barrier_wait`, one for each semaphore operation and each access to `waiting`, in the order of the source.
The digit is the phase: gathering, leaving the first turnstile, leaving the second. -/
inductive Pc where
  /-- Outside `barrier_wait`. -/
  | idle
  | lock1 | incr1 | test1 | grab1 | open1 | unlock1 | enter1 | pass1
  | lock2 | decr2 | test2 | grab2 | open2 | unlock2 | enter2 | pass2
  | lock3 | incr3 | unlock3 | test3 | open3 | enter3 | pass3
  deriving DecidableEq, Repr

/-- `barrier_t`, the place of every process, and the two counters. -/
structure State (m : Nat) where
  turnsnile : Nat
  turnsnile2 : Nat
  mutex : Nat
  waiting : Int
  n : Nat
  pc : Fin m → Pc
  /-- The calls that have executed their first `waiting++`. -/
  entered : Nat
  /-- The calls that have returned. -/
  returned : Nat

variable {m : Nat}

/-- `barrier_init(n)`, with every process outside `barrier_wait`. -/
def barrierInit (m n : Nat) : State m where
  turnsnile := 0
  turnsnile2 := 1
  mutex := 1
  waiting := 0
  n := n
  pc _ := .idle
  entered := 0
  returned := 0

/-- Process `i` moves to `c`. -/
def State.goto (s : State m) (i : Fin m) (c : Pc) : State m := { s with pc := Function.update s.pc i c }

/-- `sem_wait` on `mutex`, on `turnsnile` and on `turnsnile2`: the process goes on to `c`, or blocks at zero. -/
def State.waitMutex (s : State m) (i : Fin m) (c : Pc) : Option (State m) :=
  if s.mutex = 0 then none else some ({ s with mutex := s.mutex - 1 }.goto i c)

@[inherit_doc State.waitMutex]
def State.waitTurnsnile (s : State m) (i : Fin m) (c : Pc) : Option (State m) :=
  if s.turnsnile = 0 then none else some ({ s with turnsnile := s.turnsnile - 1 }.goto i c)

@[inherit_doc State.waitMutex]
def State.waitTurnsnile2 (s : State m) (i : Fin m) (c : Pc) : Option (State m) :=
  if s.turnsnile2 = 0 then none else some ({ s with turnsnile2 := s.turnsnile2 - 1 }.goto i c)

/-- `sem_post` on `mutex`, on `turnsnile` and on `turnsnile2`. -/
def State.postMutex (s : State m) (i : Fin m) (c : Pc) : State m := { s with mutex := s.mutex + 1 }.goto i c

@[inherit_doc State.postMutex]
def State.postTurnsnile (s : State m) (i : Fin m) (c : Pc) : State m := { s with turnsnile := s.turnsnile + 1 }.goto i c

@[inherit_doc State.postMutex]
def State.postTurnsnile2 (s : State m) (i : Fin m) (c : Pc) : State m := { s with turnsnile2 := s.turnsnile2 + 1 }.goto i c

/-- `barrier_wait`: the next step of process `i`, `none` when it is blocked on a semaphore. -/
def barrierWait (s : State m) (i : Fin m) : Option (State m) :=
  match s.pc i with
  | .idle => some (s.goto i .lock1)
  -- gathering: the process that makes `waiting` equal to `n` closes the second turnstile and opens the first
  | .lock1 => s.waitMutex i .incr1
  | .incr1 => some ({ s with waiting := s.waiting + 1, entered := s.entered + 1 }.goto i .test1)
  | .test1 => some (s.goto i (if s.waiting = s.n then .grab1 else .unlock1))
  | .grab1 => s.waitTurnsnile2 i .open1
  | .open1 => some (s.postTurnsnile i .unlock1)
  | .unlock1 => some (s.postMutex i .enter1)
  | .enter1 => s.waitTurnsnile i .pass1
  | .pass1 => some (s.postTurnsnile i .lock2)
  -- leaving the first turnstile: the process that makes `waiting` zero closes it and opens the second
  | .lock2 => s.waitMutex i .decr2
  | .decr2 => some ({ s with waiting := s.waiting - 1 }.goto i .test2)
  | .test2 => some (s.goto i (if s.waiting = 0 then .grab2 else .unlock2))
  | .grab2 => s.waitTurnsnile i .open2
  | .open2 => some (s.postTurnsnile2 i .unlock2)
  | .unlock2 => some (s.postMutex i .enter2)
  | .enter2 => s.waitTurnsnile2 i .pass2
  | .pass2 => some (s.postTurnsnile2 i .lock3)
  -- leaving the second turnstile: `waiting` is counted up again and read outside the mutex
  | .lock3 => s.waitMutex i .incr3
  | .incr3 => some ({ s with waiting := s.waiting + 1 }.goto i .unlock3)
  | .unlock3 => some (s.postMutex i .test3)
  | .test3 => some (s.goto i (if s.waiting = s.n then .open3 else .enter3))
  | .open3 => some (s.postTurnsnile i .enter3)
  | .enter3 => s.waitTurnsnile i .pass3
  | .pass3 => some ({ s with returned := s.returned + 1 }.postTurnsnile i .idle)

/-- `m` processes on a barrier made by `barrier_init(n)`: any process may take its next step at any time. -/
def barrier (m n : Nat) : Sys (State m) (Fin m) where
  init s := s = barrierInit m n
  step s i s' := barrierWait s i = some s'

/-- `INT_MAX`. -/
def intMax : Int := 2 ^ 31 - 1

/-- The guard of a run in which no `waiting++` overflows. -/
def State.inRange (s : State m) (i : Fin m) : Prop := s.pc i = .incr1 ∨ s.pc i = .incr3 → s.waiting < intMax

/-- The barrier in runs in which no `waiting++` overflows. -/
abbrev intBarrier (m n : Nat) : Sys (State m) (Fin m) := (barrier m n).guard State.inRange

/-- A process is inside `barrier_wait`. -/
def Pc.inside (c : Pc) : Bool := c != .idle

/-- The places at which a process holds `mutex`. -/
def Pc.holdsMutex : Pc → Bool
  | .incr1 | .test1 | .grab1 | .open1 | .unlock1 | .decr2 | .test2 | .grab2 | .open2 | .unlock2 | .incr3 | .unlock3 => true
  | _ => false

/-- A process inside `barrier_wait` is blocked on a semaphore. -/
def State.Blocked (s : State m) (i : Fin m) : Prop := (s.pc i).inside = true ∧ barrierWait s i = none

/-- A process waits on `turnsnile2` and finds it at zero. -/
def State.BlockedOnTurnsnile2 (s : State m) (i : Fin m) : Prop :=
  (s.pc i = .grab1 ∨ s.pc i = .enter2) ∧ s.turnsnile2 = 0

/-- At least `n` processes are inside `barrier_wait`, and every process inside is blocked. -/
def State.Stuck (s : State m) : Prop :=
  s.n ≤ count Pc.inside s.pc ∧ ∀ i, (s.pc i).inside = true → s.Blocked i

/-! ## Where processes block -/

/-- The semaphore that the place `c` waits on is zero. -/
def State.zeroAt (s : State m) : Pc → Prop
  | .lock1 | .lock2 | .lock3 => s.mutex = 0
  | .enter1 | .grab2 | .enter3 => s.turnsnile = 0
  | .grab1 | .enter2 => s.turnsnile2 = 0
  | _ => False

/-- A process is blocked exactly when it waits on a semaphore that is zero. -/
theorem blocked_iff (s : State m) (i : Fin m) : s.Blocked i ↔ s.zeroAt (s.pc i) := by
  unfold State.Blocked State.zeroAt barrierWait Pc.inside
  cases s.pc i <;> simp [State.waitMutex, State.waitTurnsnile, State.waitTurnsnile2]

/-! ## The number of processes at a place -/

/-- What holds of every process, and of the place one of them moves to, holds after the move. -/
theorem forall_update {p : Pc → Bool} {pc : Fin m → Pc} {i : Fin m} {c : Pc} (h : ∀ j, p (pc j) = true)
    (hc : p c = true) : ∀ j, p (Function.update pc i c j) = true := by
  intro j
  by_cases hj : j = i
  · subst hj
    rwa [Function.update_self]
  · rw [Function.update_of_ne hj]
    exact h j

/-- The number of processes at the place `c`. -/
def occ (pc : Fin m → Pc) (c : Pc) : Nat := count (fun d => d == c) pc

/-- A process at `c` is counted there. -/
theorem occ_pos {pc : Fin m → Pc} {c : Pc} {i : Fin m} (h : pc i = c) : 0 < occ pc c :=
  count_pos i (by simp [h])

/-- Some process is at a place with a positive count. -/
theorem exists_of_occ_pos {pc : Fin m → Pc} {c : Pc} (h : 0 < occ pc c) : ∃ i, pc i = c := by
  obtain ⟨i, hi⟩ := count_pos_iff.mp h
  exact ⟨i, by simpa using hi⟩

/-- Nobody is at a place that no process may be at. -/
theorem occ_eq_zero {p : Pc → Bool} {pc : Fin m → Pc} {c : Pc} (h : ∀ j, p (pc j) = true) (hc : p c = false) :
    occ pc c = 0 := by
  by_contra hne
  obtain ⟨i, hi⟩ := exists_of_occ_pos (Nat.pos_of_ne_zero hne)
  rw [← hi, h i] at hc
  cases hc

/-- If nobody is at a place outside `p`, every process is at a place of `p`. -/
theorem forall_of_occ {p : Pc → Bool} {pc : Fin m → Pc} (h : ∀ c, p c = false → occ pc c = 0) : ∀ j, p (pc j) = true := by
  intro j
  by_contra hj
  have := h (pc j) (Bool.not_eq_true _ ▸ hj)
  have := occ_pos (rfl : pc j = pc j)
  omega

/-- When process `i` moves to `c`, one process more is at `c` and one less at the place it leaves. -/
theorem occ_update (pc : Fin m → Pc) (i : Fin m) (c d : Pc) :
    occ (Function.update pc i c) d = occ pc d + (if d = c then 1 else 0) - (if d = pc i then 1 else 0) := by
  have h := count_update (fun e => e == d) pc i c
  have toNat : ∀ e : Pc, (e == d).toNat = if d = e then 1 else 0 := by
    intro e
    by_cases he : d = e
    · simp [he]
    · simp [he, Ne.symm he]
  have hle : (if d = pc i then 1 else 0) ≤ occ pc d := by
    split
    · rename_i he
      exact occ_pos he.symm
    · exact Nat.zero_le _
  rw [toNat, toNat] at h
  unfold occ at hle ⊢
  omega

end OsLabs.Barrier
