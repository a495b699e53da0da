import OsLabs.Barrier.Model

/-!
# Runs of the barrier

Schedules that take all processes through a phase one after another, for every `n`. They show what the barrier does after its
first round, and what it does with more than `n` processes.
-/

namespace OsLabs.Barrier

variable {m : Nat}

/-- The run of a schedule: each process of the list takes its next step. -/
def runs (s : State m) : List (Fin m) → Option (State m)
  | [] => some s
  | i :: is => (barrierWait s i).bind fun s' => runs s' is

/-- A schedule in two parts. -/
theorem runs_append (s : State m) (is js : List (Fin m)) :
    runs s (is ++ js) = (runs s is).bind fun s' => runs s' js := by
  induction is generalizing s with
  | nil => rfl
  | cons i is ih =>
    rw [List.cons_append, runs, runs, Option.bind_assoc]
    exact Option.bind_congr fun s' _ => ih s'

/-- The first `waiting++` of a call enters it, and no other step enters a call or takes one back. -/
theorem entered_step {s s' : State m} {i : Fin m} (h : barrierWait s i = some s') :
    s'.entered = s.entered + if s.pc i = .incr1 then 1 else 0 := by
  unfold barrierWait at h
  cases hpc : s.pc i <;> simp only [hpc, State.waitMutex, State.waitTurnsnile, State.waitTurnsnile2,
    Option.ite_none_left_eq_some, Option.some.injEq] at h
  case lock1 | grab1 | enter1 | lock2 | grab2 | enter2 | lock3 | enter3 =>
    obtain ⟨-, rfl⟩ := h
    rfl
  all_goals
    subst h
    rfl

/-- A step never takes back an entered call, and the first `waiting++` adds one. -/
theorem entered_le_of_step {s s' : State m} {i : Fin m} (h : barrierWait s i = some s') :
    s.entered ≤ s'.entered ∧ (s.pc i = .incr1 → s.entered < s'.entered) := by
  rw [entered_step h]
  exact ⟨Nat.le_add_right _ _, fun hpc => by rw [if_pos hpc]; exact Nat.lt_succ_self _⟩

/-- The entered calls along a schedule. -/
theorem entered_le_of_runs {is : List (Fin m)} : ∀ {s s' : State m}, runs s is = some s' → s.entered ≤ s'.entered := by
  induction is with
  | nil =>
    intro s s' h
    exact Nat.le_of_eq (congrArg State.entered (Option.some.inj h))
  | cons i is ih =>
    intro s s' h
    obtain ⟨s₁, h1, h2⟩ := Option.bind_eq_some_iff.mp h
    exact (entered_le_of_step h1).1.trans (ih h2)

/-- The guard of a run that lets at most `k` calls execute their first `waiting++`. -/
def State.capped (k : Nat) (s : State m) (i : Fin m) : Prop := s.pc i = .incr1 → s.entered < k

/-- The barrier in runs that let at most `k` calls enter. -/
abbrev cappedBarrier (m n k : Nat) : Sys (State m) (Fin m) := (barrier m n).guard (State.capped k)

/-- A schedule is a path of the barrier that lets enter no more calls than have entered at its end. -/
theorem path_of_runs {n k : Nat} {is : List (Fin m)} : ∀ {s s' : State m}, runs s is = some s' → s'.entered ≤ k →
    (cappedBarrier m n k).Path s s' := by
  induction is with
  | nil =>
    intro s s' h _
    obtain rfl := Option.some.inj h
    exact Sys.Path.refl _ _
  | cons i is ih =>
    intro s s' h hk
    obtain ⟨s₁, h1, h2⟩ := Option.bind_eq_some_iff.mp h
    have hle := entered_le_of_runs h2
    exact Sys.Path.head i ⟨fun hi => Nat.lt_of_lt_of_le ((entered_le_of_step h1).2 hi) (hle.trans hk), h1⟩ (ih h2 hk)

/-! ## The range of `waiting` -/

/-- The places after `waiting--` and before the second `waiting++`. -/
def Pc.away : Pc → Bool
  | .test2 | .grab2 | .open2 | .unlock2 | .enter2 | .pass2 | .lock3 | .incr3 => true
  | _ => false

/-- `waiting` counts the calls that have entered, but for those between `waiting--` and the second `waiting++`. -/
def State.Counted (s : State m) : Prop := s.waiting + count Pc.away s.pc = s.entered

/-- A move of process `i` that changes `waiting` and the entered calls as the places say. -/
theorem State.Counted.move {s s' : State m} {i : Fin m} {c : Pc} (hw : s.Counted) (hpc : s'.pc = Function.update s.pc i c)
    (h : s'.waiting + c.away.toNat - s'.entered = s.waiting + (s.pc i).away.toNat - s.entered) : s'.Counted := by
  have hu := count_update Pc.away s.pc i c
  unfold State.Counted at hw ⊢
  rw [hpc]
  omega

/-- Every step keeps it. -/
theorem State.Counted.step {s s' : State m} {i : Fin m} (hw : s.Counted) (h : barrierWait s i = some s') : s'.Counted := by
  unfold barrierWait at h
  cases hpc : s.pc i <;> simp only [hpc, State.waitMutex, State.waitTurnsnile, State.waitTurnsnile2,
    Option.ite_none_left_eq_some, Option.some.injEq] at h
  case lock1 | grab1 | enter1 | lock2 | grab2 | enter2 | lock3 | enter3 =>
    obtain ⟨-, rfl⟩ := h
    exact hw.move rfl (by rw [hpc]; rfl)
  case test1 | test2 | test3 =>
    subst h
    refine hw.move rfl ?_
    rw [hpc]
    split <;> rfl
  case incr1 | incr3 | decr2 =>
    subst h
    refine hw.move rfl ?_
    rw [hpc]
    simp [State.goto, Pc.away]
  all_goals
    subst h
    exact hw.move rfl (by rw [hpc]; rfl)

/-- So `waiting` is at most the number of calls. -/
theorem State.Counted.le {s : State m} (hw : s.Counted) : s.waiting ≤ s.entered := by
  unfold State.Counted at hw
  omega

/-- A process is moved by its own steps only. -/
theorem pc_step_ne {s s' : State m} {i j : Fin m} (hj : j ≠ i) (h : barrierWait s i = some s') : s'.pc j = s.pc j := by
  unfold barrierWait at h
  cases hpc : s.pc i <;> simp only [hpc, State.waitMutex, State.waitTurnsnile, State.waitTurnsnile2,
    Option.ite_none_left_eq_some, Option.some.injEq] at h
  case lock1 | grab1 | enter1 | lock2 | grab2 | enter2 | lock3 | enter3 =>
    obtain ⟨-, rfl⟩ := h
    exact Function.update_of_ne hj _ _
  all_goals
    subst h
    exact Function.update_of_ne hj _ _

/-- While a process stands between `waiting--` and the second `waiting++`, there is room for one call more. -/
theorem State.Counted.inRange {s : State m} {i j : Fin m} (hw : s.Counted) (hj : (s.pc j).away = true) (hij : j ≠ i)
    (he : (s.entered : Int) ≤ intMax + 1) (h1 : s.pc i = .incr1 → (s.entered : Int) ≤ intMax) : s.inRange i := by
  have hpos := count_pos (p := Pc.away) (f := s.pc) j hj
  unfold State.Counted at hw
  rintro (hpc | hpc)
  · have := h1 hpc
    omega
  · have h2 : 1 < count Pc.away s.pc := Finset.one_lt_card.mpr
      ⟨j, Finset.mem_filter.mpr ⟨Finset.mem_univ j, hj⟩, i, Finset.mem_filter.mpr ⟨Finset.mem_univ i, by rw [hpc]; rfl⟩, hij⟩
    omega

/-- A schedule of the other processes is a path without overflow. -/
theorem intPath_of_runs {n : Nat} {j : Fin m} {is : List (Fin m)} (hj : j ∉ is) : ∀ {s s' : State m}, runs s is = some s' →
    s.Counted → (s.pc j).away = true → (s'.entered : Int) ≤ intMax + 1 → (intBarrier m n).Path s s' ∧ s'.Counted := by
  induction is with
  | nil =>
    intro s s' h hw _ _
    obtain rfl := Option.some.inj h
    exact ⟨Sys.Path.refl _ _, hw⟩
  | cons i is ih =>
    intro s s' h hw haway hmax
    have hi : j ≠ i := fun e => hj (e ▸ List.mem_cons_self ..)
    have his : j ∉ is := fun hmem => hj (List.mem_cons_of_mem i hmem)
    obtain ⟨s₁, h1, h2⟩ := Option.bind_eq_some_iff.mp h
    have hle := entered_le_of_runs h2
    have hent := entered_le_of_step h1
    obtain ⟨hpath, hw'⟩ := ih his h2 (hw.step h1) (by rw [pc_step_ne hi h1, haway]) hmax
    refine ⟨Sys.Path.head i ⟨hw.inRange haway hi (by omega) fun hpc => ?_, h1⟩ hpath, hw'⟩
    have := hent.2 hpc
    omega

/-- A run of at most `INT_MAX` calls does not overflow. -/
theorem inRange_of_capped {n k : Nat} (hk : (k : Int) ≤ intMax) {s : State m} (h : (cappedBarrier m n k).Reach s) :
    (intBarrier m n).Reach s ∧ s.Counted ∧ s.entered ≤ k := by
  induction h with
  | init h0 =>
    refine ⟨Sys.Reach.init h0, ?_, ?_⟩
    · rw [h0, State.Counted, count_eq_zero_iff.mpr fun _ => rfl]
      rfl
    · rw [h0]
      exact Nat.zero_le _
  | @step s s' i _ hst ih =>
    obtain ⟨hreach, hw, hle⟩ := ih
    obtain ⟨hcap, hst⟩ := hst
    refine ⟨Sys.Reach.step i hreach ⟨?_, hst⟩, hw.step hst, ?_⟩
    · rintro (hpc | hpc)
      · have := hcap hpc
        have := hw.le
        omega
      · have := count_pos (p := Pc.away) (f := s.pc) i (by rw [hpc]; rfl)
        unfold State.Counted at hw
        omega
    · rw [entered_step hst]
      split
      · exact hcap ‹_›
      · exact hle

/-! ## One process goes through a phase while the others stand still -/

section Solo

variable {s : State m} {i : Fin m}

/-- An arrival gets the mutex and counts itself. -/
theorem runs_arrive (hpc : s.pc i = .idle) (hm : s.mutex = 1) :
    runs s (List.replicate 3 i) =
      some ({ s with waiting := s.waiting + 1, entered := s.entered + 1, mutex := 0 }.goto i .test1) := by
  simp [runs, barrierWait, State.goto, State.waitMutex, List.replicate, hpc, hm]

/-- An arrival that is not the `n`-th stops in front of the first turnstile. -/
theorem runs_gather (hpc : s.pc i = .idle) (hm : s.mutex = 1) (hw : s.waiting + 1 ≠ s.n) :
    runs s (List.replicate 5 i) =
      some ({ s with waiting := s.waiting + 1, entered := s.entered + 1 }.goto i .enter1) := by
  rw [List.replicate_add 3 2, runs_append, runs_arrive hpc hm]
  simp [runs, barrierWait, State.goto, State.postMutex, List.replicate, hm, hw]

/-- The arrival that makes `waiting` equal to `n` opens the first turnstile. -/
theorem runs_gather_last (hpc : s.pc i = .idle) (hm : s.mutex = 1) (hw : s.waiting + 1 = s.n) (ht : s.turnsnile2 = 1) :
    runs s (List.replicate 7 i) =
      some ({ s with waiting := s.waiting + 1, entered := s.entered + 1, turnsnile := s.turnsnile + 1,
                     turnsnile2 := 0 }.goto i .enter1) := by
  rw [List.replicate_add 3 4, runs_append, runs_arrive hpc hm]
  simp [runs, barrierWait, State.goto, State.postMutex, State.waitTurnsnile2, State.postTurnsnile, List.replicate, hm, hw, ht]

/-- An arrival that brings `waiting` back to `n` goes for the second turnstile and keeps the mutex. -/
theorem runs_rejoin (hpc : s.pc i = .idle) (hm : s.mutex = 1) (hw : s.waiting + 1 = s.n) :
    runs s (List.replicate 4 i) =
      some ({ s with waiting := s.waiting + 1, entered := s.entered + 1, mutex := 0 }.goto i .grab1) := by
  rw [List.replicate_add 3 1, runs_append, runs_arrive hpc hm]
  simp [runs, barrierWait, State.goto, List.replicate, hw]

/-- A process passes the open first turnstile and stops in front of the mutex. -/
theorem runs_pass1 (hpc : s.pc i = .enter1) (ht : s.turnsnile = 1) :
    runs s (List.replicate 2 i) = some (s.goto i .lock2) := by
  simp [runs, barrierWait, State.goto, State.waitTurnsnile, State.postTurnsnile, List.replicate, hpc, ht]

/-- A process passes the open first turnstile, gets the mutex and takes itself out of the count. -/
theorem runs_depart (hpc : s.pc i = .enter1) (hm : s.mutex = 1) (ht : s.turnsnile = 1) :
    runs s (List.replicate 4 i) = some ({ s with waiting := s.waiting - 1, mutex := 0 }.goto i .test2) := by
  rw [List.replicate_add 2 2, runs_append, runs_pass1 hpc ht]
  simp [runs, barrierWait, State.goto, State.waitMutex, List.replicate, hm]

/-- A process leaves the open first turnstile and stops in front of the second. -/
theorem runs_leave1 (hpc : s.pc i = .enter1) (hm : s.mutex = 1) (ht : s.turnsnile = 1) (hw : s.waiting - 1 ≠ 0) :
    runs s (List.replicate 6 i) = some ({ s with waiting := s.waiting - 1 }.goto i .enter2) := by
  rw [List.replicate_add 4 2, runs_append, runs_depart hpc hm ht]
  simp [runs, barrierWait, State.goto, State.postMutex, List.replicate, hm, hw]

/-- The process that makes `waiting` zero shuts the first turnstile and opens the second. -/
theorem runs_leave1_last (hpc : s.pc i = .enter1) (hm : s.mutex = 1) (ht : s.turnsnile = 1) (hw : s.waiting - 1 = 0) :
    runs s (List.replicate 8 i) =
      some ({ s with waiting := 0, turnsnile := 0, turnsnile2 := s.turnsnile2 + 1 }.goto i .enter2) := by
  rw [List.replicate_add 4 4, runs_append, runs_depart hpc hm ht]
  simp [runs, barrierWait, State.goto, State.postMutex, State.waitTurnsnile, State.postTurnsnile2, List.replicate, hm, hw, ht]

/-- A process leaves the open second turnstile and counts itself again. -/
theorem runs_recount (hpc : s.pc i = .enter2) (hm : s.mutex = 1) (ht : s.turnsnile2 = 1) :
    runs s (List.replicate 5 i) = some ({ s with waiting := s.waiting + 1 }.goto i .test3) := by
  have hpass : runs s (List.replicate 2 i) = some (s.goto i .lock3) := by
    simp [runs, barrierWait, State.goto, State.waitTurnsnile2, State.postTurnsnile2, List.replicate, hpc, ht]
  rw [List.replicate_add 2 3, runs_append, hpass]
  simp [runs, barrierWait, State.goto, State.waitMutex, State.postMutex, List.replicate, hm]

/-- A process that finds `waiting` below `n` stops in front of the first turnstile. -/
theorem runs_leave2 (hpc : s.pc i = .enter2) (hm : s.mutex = 1) (ht : s.turnsnile2 = 1) (hw : s.waiting + 1 ≠ s.n) :
    runs s (List.replicate 6 i) = some ({ s with waiting := s.waiting + 1 }.goto i .enter3) := by
  rw [List.replicate_add 5 1, runs_append, runs_recount hpc hm ht]
  simp [runs, barrierWait, State.goto, List.replicate, hw]

/-- The process that makes `waiting` equal to `n` again opens the first turnstile for good. -/
theorem runs_leave2_last (hpc : s.pc i = .enter2) (hm : s.mutex = 1) (ht : s.turnsnile2 = 1) (hw : s.waiting + 1 = s.n) :
    runs s (List.replicate 7 i) =
      some ({ s with waiting := s.waiting + 1, turnsnile := s.turnsnile + 1 }.goto i .enter3) := by
  rw [List.replicate_add 5 2, runs_append, runs_recount hpc hm ht]
  simp [runs, barrierWait, State.goto, State.postTurnsnile, List.replicate, hw]

/-- A process returns through the open first turnstile. -/
theorem runs_return (hpc : s.pc i = .enter3) (ht : s.turnsnile = 1) :
    runs s (List.replicate 2 i) = some ({ s with returned := s.returned + 1 }.goto i .idle) := by
  simp [runs, barrierWait, State.goto, State.waitTurnsnile, State.postTurnsnile, List.replicate, hpc, ht]

end Solo

/-! ## All `n` processes go through a phase, one after another -/

/-- The first `j` processes are at `a`, the others of the first `n` at `b`, the rest outside. -/
def row (n j : Nat) (a b : Pc) : Fin m → Pc := fun i => if i.val < j then a else if i.val < n then b else .idle

theorem row_self {n j : Nat} {a b : Pc} (hj : j < n) (hn : n ≤ m) : row n j a b (⟨j, by omega⟩ : Fin m) = b := by
  simp [row, hj]

/-- Process `j` joins the first `j`. -/
theorem row_update {n j : Nat} {a b : Pc} (hj : j < n) (hn : n ≤ m) :
    Function.update (row n j a b) (⟨j, by omega⟩ : Fin m) a = row n (j + 1) a b := by
  funext i
  by_cases hi : i = ⟨j, by omega⟩
  · subst hi
    simp [row]
  · have hne : i.val ≠ j := fun h => hi (Fin.ext h)
    rw [Function.update_of_ne hi]
    unfold row
    by_cases h1 : i.val < j
    · rw [if_pos h1, if_pos (by omega)]
    · rw [if_neg h1, if_neg (show ¬ i.val < j + 1 by omega)]

/-- When all `n` have moved from `a` to `b`, they can move on from `b`. -/
theorem row_full (n : Nat) (a b c : Pc) : (row n n b a : Fin m → Pc) = row n 0 c b := by
  funext i
  by_cases h : i.val < n <;> simp [row, h]

/-- The barrier with the processes of a row in front of a phase or behind it. -/
def snap (n ts ts2 : Nat) (w : Int) (pc : Fin m → Pc) (e r : Nat) : State m where
  turnsnile := ts
  turnsnile2 := ts2
  mutex := 1
  waiting := w
  n := n
  pc := pc
  entered := e
  returned := r

variable {n k : Nat}

/-- All `n` processes arrive; the last one opens the first turnstile. -/
theorem path_gather (hn : 1 ≤ n) (hm : n ≤ m) (hk : n ≤ k) :
    (cappedBarrier m n k).Path (barrierInit m n) (snap n 1 0 n (row n 0 .enter2 .enter1) n 0) := by
  have outside : (row n 0 .enter1 .idle : Fin m → Pc) = fun _ => .idle := by
    funext i
    simp [row]
  have start : barrierInit m n = snap n 0 1 (0 : Nat) (row n 0 .enter1 .idle) 0 0 := by
    simp [barrierInit, snap, outside]
  have one : ∀ j, j < n - 1 → (cappedBarrier m n k).Path (snap n 0 1 j (row n j .enter1 .idle) j 0)
      (snap n 0 1 (j + 1 : Nat) (row n (j + 1) .enter1 .idle) (j + 1) 0) := by
    intro j hj
    have h := runs_gather (s := snap n 0 1 j (row n j .enter1 .idle) j 0) (i := (⟨j, by omega⟩ : Fin m))
      (row_self (by omega) hm) rfl (by simp only [snap]; omega)
    have e := row_update (m := m) (a := .enter1) (b := .idle) (show j < n by omega) hm
    simp only [snap, State.goto, e] at h
    exact path_of_runs h (show j + 1 ≤ k by omega)
  rw [start]
  refine (Sys.Path.rounds (fun j : Nat => snap n 0 1 j (row n j .enter1 .idle) j 0) (n - 1) one).trans ?_
  have h := runs_gather_last (s := snap n 0 1 (n - 1 : Nat) (row n (n - 1) .enter1 .idle) (n - 1) 0)
    (i := (⟨n - 1, by omega⟩ : Fin m)) (row_self (by omega) hm) rfl (by simp only [snap]; omega) rfl
  have e := row_update (m := m) (a := .enter1) (b := .idle) (show n - 1 < n by omega) hm
  have e1 : n - 1 + 1 = n := by omega
  have e2 : ((n - 1 : Nat) : Int) + 1 = n := by omega
  simp only [snap, State.goto, e, e1, e2, Nat.zero_add, row_full n .idle .enter1 .enter2] at h
  exact path_of_runs h hk

/-- All `n` processes leave the first turnstile; the last one shuts it and opens the second. -/
theorem path_leave1 (hn : 1 ≤ n) (hm : n ≤ m) (hk : n ≤ k) :
    (cappedBarrier m n k).Path (snap n 1 0 n (row n 0 .enter2 .enter1) n 0)
      (snap n 0 1 0 (row n 0 .enter3 .enter2) n 0) := by
  have one : ∀ j, j < n - 1 → (cappedBarrier m n k).Path
      (snap n 1 0 (n - j : Int) (row n j .enter2 .enter1) n 0)
      (snap n 1 0 (n - (j + 1 : Nat) : Int) (row n (j + 1) .enter2 .enter1) n 0) := by
    intro j hj
    have h := runs_leave1 (s := snap n 1 0 (n - j : Int) (row n j .enter2 .enter1) n 0)
      (i := (⟨j, by omega⟩ : Fin m)) (row_self (by omega) hm) rfl rfl (by simp only [snap]; omega)
    have e := row_update (m := m) (a := .enter2) (b := .enter1) (show j < n by omega) hm
    have e2 : (n - j - 1 : Int) = n - (j + 1 : Nat) := by omega
    simp only [snap, State.goto, e, e2] at h
    exact path_of_runs h hk
  have start : (n : Int) = n - (0 : Nat) := by omega
  rw [start]
  refine (Sys.Path.rounds (fun j : Nat => snap n 1 0 (n - j : Int) (row n j .enter2 .enter1) n 0) (n - 1) one).trans ?_
  have h := runs_leave1_last (s := snap n 1 0 (n - (n - 1 : Nat) : Int) (row n (n - 1) .enter2 .enter1) n 0)
    (i := (⟨n - 1, by omega⟩ : Fin m)) (row_self (by omega) hm) rfl rfl (by simp only [snap]; omega)
  have e := row_update (m := m) (a := .enter2) (b := .enter1) (show n - 1 < n by omega) hm
  have e1 : n - 1 + 1 = n := by omega
  simp only [snap, State.goto, e, e1, Nat.zero_add, row_full n .enter1 .enter2 .enter3] at h
  exact path_of_runs h hk

/-- All `n` processes leave the second turnstile; the last one opens the first. -/
theorem path_leave2 (hn : 1 ≤ n) (hm : n ≤ m) (hk : n ≤ k) :
    (cappedBarrier m n k).Path (snap n 0 1 0 (row n 0 .enter3 .enter2) n 0)
      (snap n 1 1 n (row n 0 .idle .enter3) n 0) := by
  have one : ∀ j, j < n - 1 → (cappedBarrier m n k).Path (snap n 0 1 j (row n j .enter3 .enter2) n 0)
      (snap n 0 1 (j + 1 : Nat) (row n (j + 1) .enter3 .enter2) n 0) := by
    intro j hj
    have h := runs_leave2 (s := snap n 0 1 j (row n j .enter3 .enter2) n 0) (i := (⟨j, by omega⟩ : Fin m))
      (row_self (by omega) hm) rfl rfl (by simp only [snap]; omega)
    have e := row_update (m := m) (a := .enter3) (b := .enter2) (show j < n by omega) hm
    simp only [snap, State.goto, e] at h
    exact path_of_runs h hk
  refine (Sys.Path.rounds (fun j : Nat => snap n 0 1 j (row n j .enter3 .enter2) n 0) (n - 1) one).trans ?_
  have h := runs_leave2_last (s := snap n 0 1 (n - 1 : Nat) (row n (n - 1) .enter3 .enter2) n 0)
    (i := (⟨n - 1, by omega⟩ : Fin m)) (row_self (by omega) hm) rfl rfl (by simp only [snap]; omega)
  have e := row_update (m := m) (a := .enter3) (b := .enter2) (show n - 1 < n by omega) hm
  have e1 : n - 1 + 1 = n := by omega
  have e2 : ((n - 1 : Nat) : Int) + 1 = n := by omega
  simp only [snap, State.goto, e, e1, e2, Nat.zero_add, row_full n .enter2 .enter3 .idle] at h
  exact path_of_runs h hk

/-- All `n` processes return; `waiting` stays at `n` and both turnstiles stay open. -/
theorem path_return (hm : n ≤ m) (hk : n ≤ k) :
    (cappedBarrier m n k).Path (snap n 1 1 n (row n 0 .idle .enter3) n 0) (snap n 1 1 n (fun _ => .idle) n n) := by
  have one : ∀ j, j < n → (cappedBarrier m n k).Path (snap n 1 1 n (row n j .idle .enter3) n j)
      (snap n 1 1 n (row n (j + 1) .idle .enter3) n (j + 1)) := by
    intro j hj
    have h := runs_return (s := snap n 1 1 n (row n j .idle .enter3) n j) (i := (⟨j, by omega⟩ : Fin m))
      (row_self (by omega) hm) rfl
    have e := row_update (m := m) (a := .idle) (b := .enter3) hj hm
    simp only [snap, State.goto, e] at h
    exact path_of_runs h hk
  have stop : (row n n .idle .enter3 : Fin m → Pc) = fun _ => .idle := by
    funext i
    simp [row]
  have h := Sys.Path.rounds (fun j : Nat => snap n 1 1 n (row n j .idle .enter3) n j) n one
  rwa [stop] at h

/-- The first round, from a new barrier to the return of all `n` calls. -/
theorem path_round (hn : 1 ≤ n) (hm : n ≤ m) (hk : n ≤ k) :
    (cappedBarrier m n k).Path (barrierInit m n) (snap n 1 1 n (fun _ => .idle) n n) :=
  (path_gather hn hm hk).trans ((path_leave1 hn hm hk).trans ((path_leave2 hn hm hk).trans (path_return hm hk)))

end OsLabs.Barrier
