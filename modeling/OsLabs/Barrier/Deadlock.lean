import OsLabs.Barrier.Rounds

/-!
# Deadlock of the barrier

With exactly `n` processes the barrier never blocks all of them. A run passes through four stages, told apart by where the
processes can be: gathering in front of the first turnstile, leaving it, leaving the second one, and, from the first return on,
a stage that never ends in which both turnstiles stay open. With more than `n` processes an arrival can bring `waiting` back to
`n` while the first `n` are leaving: it then waits for the second turnstile with the mutex in its hands.
-/

namespace OsLabs.Barrier

variable {m : Nat}

/-! ## The stages of a run of `n` processes -/

/-- The places of the first stage. -/
def Pc.inStage1 : Pc → Bool
  | .idle | .lock1 | .incr1 | .test1 | .grab1 | .open1 | .unlock1 | .enter1 => true
  | _ => false

/-- The places of the second stage. -/
def Pc.inStage2 : Pc → Bool
  | .unlock1 | .enter1 | .pass1 | .lock2 | .decr2 | .test2 | .grab2 | .open2 | .unlock2 | .enter2 => true
  | _ => false

/-- The places of the third stage. -/
def Pc.inStage3 : Pc → Bool
  | .unlock2 | .enter2 | .pass2 | .lock3 | .incr3 | .unlock3 | .test3 | .open3 | .enter3 => true
  | _ => false

/-- The places of the last stage: nobody opens or shuts a turnstile under the mutex any more. -/
def Pc.inStage4 : Pc → Bool
  | .grab1 | .open1 | .grab2 | .open2 => false
  | _ => true

/-- Gathering: the first turnstile is shut, `waiting` counts the arrivals, and the `n`-th arrival has not opened it yet. -/
structure Stage1 (n : Nat) (s : State m) : Prop where
  size : s.n = n
  only : ∀ i, (s.pc i).inStage1 = true
  total : occ s.pc .idle + occ s.pc .lock1 + occ s.pc .incr1 + occ s.pc .test1 + occ s.pc .grab1 + occ s.pc .open1 +
    occ s.pc .unlock1 + occ s.pc .enter1 = n
  shut : s.turnsnile = 0
  second : s.turnsnile2 + occ s.pc .open1 = 1
  mutex : s.mutex + occ s.pc .incr1 + occ s.pc .test1 + occ s.pc .grab1 + occ s.pc .open1 + occ s.pc .unlock1 = 1
  waiting : s.waiting = (occ s.pc .test1 + occ s.pc .grab1 + occ s.pc .open1 + occ s.pc .unlock1 + occ s.pc .enter1 : Nat)
  last : s.waiting = n → 0 < occ s.pc .test1 + occ s.pc .grab1 + occ s.pc .open1
  opener : 0 < occ s.pc .grab1 + occ s.pc .open1 → s.waiting = n

/-- Leaving the first turnstile: the second one is shut, `waiting` counts those that have not left, and the last one has not
opened the second yet. -/
structure Stage2 (n : Nat) (s : State m) : Prop where
  size : s.n = n
  only : ∀ i, (s.pc i).inStage2 = true
  total : occ s.pc .unlock1 + occ s.pc .enter1 + occ s.pc .pass1 + occ s.pc .lock2 + occ s.pc .decr2 + occ s.pc .test2 +
    occ s.pc .grab2 + occ s.pc .open2 + occ s.pc .unlock2 + occ s.pc .enter2 = n
  first : s.turnsnile + occ s.pc .pass1 + occ s.pc .open2 = 1
  shut : s.turnsnile2 = 0
  mutex : s.mutex + occ s.pc .unlock1 + occ s.pc .decr2 + occ s.pc .test2 + occ s.pc .grab2 + occ s.pc .open2 +
    occ s.pc .unlock2 = 1
  waiting : s.waiting = (occ s.pc .unlock1 + occ s.pc .enter1 + occ s.pc .pass1 + occ s.pc .lock2 + occ s.pc .decr2 : Nat)
  last : s.waiting = 0 → 0 < occ s.pc .test2 + occ s.pc .grab2 + occ s.pc .open2
  closer : 0 < occ s.pc .grab2 + occ s.pc .open2 → s.waiting = 0

/-- Leaving the second turnstile: the first one is shut, `waiting` counts those that have left, and whoever saw it at `n` has
not opened the first yet. -/
structure Stage3 (n : Nat) (s : State m) : Prop where
  size : s.n = n
  only : ∀ i, (s.pc i).inStage3 = true
  total : occ s.pc .unlock2 + occ s.pc .enter2 + occ s.pc .pass2 + occ s.pc .lock3 + occ s.pc .incr3 + occ s.pc .unlock3 +
    occ s.pc .test3 + occ s.pc .open3 + occ s.pc .enter3 = n
  shut : s.turnsnile = 0
  second : s.turnsnile2 + occ s.pc .pass2 = 1
  mutex : s.mutex + occ s.pc .unlock2 + occ s.pc .incr3 + occ s.pc .unlock3 = 1
  waiting : s.waiting = (occ s.pc .unlock3 + occ s.pc .test3 + occ s.pc .open3 + occ s.pc .enter3 : Nat)
  last : s.waiting = n → 0 < occ s.pc .unlock3 + occ s.pc .test3 + occ s.pc .open3
  opener : 0 < occ s.pc .open3 → s.waiting = n

/-- From the first post of the third phase on: both turnstiles are open but for a process passing them, and `waiting` is at
least `n` more than the later calls between their first `waiting++` and their `waiting--`. -/
structure Stage4 (n : Nat) (s : State m) : Prop where
  size : s.n = n
  only : ∀ i, (s.pc i).inStage4 = true
  first : 1 ≤ s.turnsnile + occ s.pc .pass1 + occ s.pc .pass3
  second : s.turnsnile2 + occ s.pc .pass2 = 1
  mutex : s.mutex + occ s.pc .incr1 + occ s.pc .test1 + occ s.pc .unlock1 + occ s.pc .decr2 + occ s.pc .test2 +
    occ s.pc .unlock2 + occ s.pc .incr3 + occ s.pc .unlock3 = 1
  floor : (n + occ s.pc .test1 + occ s.pc .unlock1 + occ s.pc .enter1 + occ s.pc .pass1 + occ s.pc .lock2 +
    occ s.pc .decr2 : Nat) ≤ s.waiting

/-- The invariant of a run of `n` processes. -/
def Staged (n : Nat) (s : State m) : Prop := Stage1 n s ∨ Stage2 n s ∨ Stage3 n s ∨ Stage4 n s

/-- The first stage of a new barrier. -/
theorem stage1_init {n : Nat} (hn : 1 ≤ n) : Stage1 n (barrierInit n n : State n) := by
  have none : ∀ c, c ≠ Pc.idle → occ (barrierInit n n : State n).pc c = 0 := by
    intro c hc
    refine count_eq_zero_iff.mpr fun i => ?_
    simpa [barrierInit] using Ne.symm hc
  have all : occ (barrierInit n n : State n).pc .idle = n := by
    have h : occ (barrierInit n n : State n).pc .idle = Fintype.card (Fin n) := count_eq_card_iff.mpr fun i => rfl
    rwa [Fintype.card_fin] at h
  have h1 := none .lock1 (by decide)
  have h2 := none .incr1 (by decide)
  have h3 := none .test1 (by decide)
  have h4 := none .grab1 (by decide)
  have h5 := none .open1 (by decide)
  have h6 := none .unlock1 (by decide)
  have h7 := none .enter1 (by decide)
  refine ⟨rfl, fun i => rfl, by omega, rfl, ?_, ?_, ?_, ?_, ?_⟩
  · rw [h5]; rfl
  · rw [h2, h3, h4, h5, h6]; rfl
  · rw [h3, h4, h5, h6, h7]; rfl
  · intro h
    have : (0 : Int) = n := h
    omega
  · omega

/-- A step of the first stage stays in it, or is the post that opens the first turnstile. -/
theorem Stage1.step {n : Nat} {s s' : State m} (h : Stage1 n s) {i : Fin m} (hs : barrierWait s i = some s') :
    Stage1 n s' ∨ Stage2 n s' := by
  obtain ⟨hsize, honly, htotal, hshut, hsecond, hmutex, hwaiting, hlast, hopener⟩ := h
  have hin := honly i
  unfold barrierWait at hs
  cases hpc : s.pc i <;> simp only [hpc, Pc.inStage1, Bool.false_eq_true] at hin <;>
    simp only [hpc, State.waitMutex, State.waitTurnsnile, State.waitTurnsnile2,
      Option.ite_none_left_eq_some, Option.some.injEq] at hs
  all_goals have hpos := occ_pos hpc
  case idle | incr1 | unlock1 =>
    subst hs
    left
    refine ⟨hsize, forall_update honly rfl, ?_, hshut, ?_, ?_, ?_, ?_, ?_⟩ <;>
      simp [State.goto, State.postMutex, occ_update, hpc] <;> omega
  case lock1 | grab1 =>
    obtain ⟨hne, rfl⟩ := hs
    left
    refine ⟨hsize, forall_update honly rfl, ?_, hshut, ?_, ?_, ?_, ?_, ?_⟩ <;>
      simp [State.goto, occ_update, hpc] <;> omega
  case enter1 => exact absurd hshut hs.1
  case test1 =>
    left
    by_cases hw : s.waiting = s.n
    · rw [if_pos hw] at hs
      subst hs
      refine ⟨hsize, forall_update honly rfl, ?_, hshut, ?_, ?_, ?_, ?_, ?_⟩ <;>
        simp [State.goto, occ_update, hpc] <;> omega
    · rw [if_neg hw] at hs
      subst hs
      refine ⟨hsize, forall_update honly rfl, ?_, hshut, ?_, ?_, ?_, ?_, ?_⟩ <;>
        simp [State.goto, occ_update, hpc] <;> omega
  case open1 =>
    -- the opener holds the mutex and `waiting` is `n`: everybody else is in front of the first turnstile
    subst hs
    right
    have hno : ∀ c, Pc.inStage1 c = false → occ s.pc c = 0 := fun c hc => occ_eq_zero honly hc
    have h1 := hno .pass1 rfl
    have h2 := hno .lock2 rfl
    have h3 := hno .decr2 rfl
    have h4 := hno .test2 rfl
    have h5 := hno .grab2 rfl
    have h6 := hno .open2 rfl
    have h7 := hno .unlock2 rfl
    have h8 := hno .enter2 rfl
    refine ⟨hsize, forall_of_occ fun c hc => ?_, ?_, ?_, ?_, ?_, ?_, ?_, ?_⟩
    · have h9 := hno c
      cases c <;> simp [State.goto, State.postTurnsnile, occ_update, hpc, Pc.inStage1, Pc.inStage2] at hc h9 ⊢ <;> omega
    all_goals
      simp [State.goto, State.postTurnsnile, occ_update, hpc]
      omega

/-- A step of the second stage stays in it, or is the post that opens the second turnstile. -/
theorem Stage2.step {n : Nat} {s s' : State m} (h : Stage2 n s) {i : Fin m} (hs : barrierWait s i = some s') :
    Stage2 n s' ∨ Stage3 n s' := by
  obtain ⟨hsize, honly, htotal, hfirst, hshut, hmutex, hwaiting, hlast, hcloser⟩ := h
  have hin := honly i
  unfold barrierWait at hs
  cases hpc : s.pc i <;> simp only [hpc, Pc.inStage2, Bool.false_eq_true] at hin <;>
    simp only [hpc, State.waitMutex, State.waitTurnsnile, State.waitTurnsnile2,
      Option.ite_none_left_eq_some, Option.some.injEq] at hs
  all_goals have hpos := occ_pos hpc
  case unlock1 | pass1 | decr2 | unlock2 =>
    subst hs
    left
    refine ⟨hsize, forall_update honly rfl, ?_, ?_, hshut, ?_, ?_, ?_, ?_⟩ <;>
      simp [State.goto, State.postMutex, State.postTurnsnile, occ_update, hpc] <;> omega
  case enter1 | lock2 | grab2 =>
    obtain ⟨hne, rfl⟩ := hs
    left
    refine ⟨hsize, forall_update honly rfl, ?_, ?_, hshut, ?_, ?_, ?_, ?_⟩ <;>
      simp [State.goto, occ_update, hpc] <;> omega
  case enter2 => exact absurd hshut hs.1
  case test2 =>
    left
    by_cases hw : s.waiting = 0
    · rw [if_pos hw] at hs
      subst hs
      refine ⟨hsize, forall_update honly rfl, ?_, ?_, hshut, ?_, ?_, ?_, ?_⟩ <;>
        simp [State.goto, occ_update, hpc] <;> omega
    · rw [if_neg hw] at hs
      subst hs
      refine ⟨hsize, forall_update honly rfl, ?_, ?_, hshut, ?_, ?_, ?_, ?_⟩ <;>
        simp [State.goto, occ_update, hpc] <;> omega
  case open2 =>
    -- `waiting` is zero: everybody else is in front of the second turnstile
    subst hs
    right
    have hno : ∀ c, Pc.inStage2 c = false → occ s.pc c = 0 := fun c hc => occ_eq_zero honly hc
    have h1 := hno .pass2 rfl
    have h2 := hno .lock3 rfl
    have h3 := hno .incr3 rfl
    have h4 := hno .unlock3 rfl
    have h5 := hno .test3 rfl
    have h6 := hno .open3 rfl
    have h7 := hno .enter3 rfl
    refine ⟨hsize, forall_of_occ fun c hc => ?_, ?_, ?_, ?_, ?_, ?_, ?_, ?_⟩
    · have h9 := hno c
      cases c <;> simp [State.goto, State.postTurnsnile2, occ_update, hpc, Pc.inStage2, Pc.inStage3] at hc h9 ⊢ <;> omega
    all_goals
      simp [State.goto, State.postTurnsnile2, occ_update, hpc]
      omega

/-- A step of the third stage stays in it, or is a post that opens the first turnstile again. -/
theorem Stage3.step {n : Nat} {s s' : State m} (h : Stage3 n s) {i : Fin m} (hs : barrierWait s i = some s') :
    Stage3 n s' ∨ Stage4 n s' := by
  obtain ⟨hsize, honly, htotal, hshut, hsecond, hmutex, hwaiting, hlast, hopener⟩ := h
  have hin := honly i
  unfold barrierWait at hs
  cases hpc : s.pc i <;> simp only [hpc, Pc.inStage3, Bool.false_eq_true] at hin <;>
    simp only [hpc, State.waitMutex, State.waitTurnsnile, State.waitTurnsnile2,
      Option.ite_none_left_eq_some, Option.some.injEq] at hs
  all_goals have hpos := occ_pos hpc
  case unlock2 | pass2 | incr3 | unlock3 =>
    subst hs
    left
    refine ⟨hsize, forall_update honly rfl, ?_, hshut, ?_, ?_, ?_, ?_, ?_⟩ <;>
      simp [State.goto, State.postMutex, State.postTurnsnile2, occ_update, hpc] <;> omega
  case enter2 | lock3 =>
    obtain ⟨hne, rfl⟩ := hs
    left
    refine ⟨hsize, forall_update honly rfl, ?_, hshut, ?_, ?_, ?_, ?_, ?_⟩ <;>
      simp [State.goto, occ_update, hpc] <;> omega
  case enter3 => exact absurd hshut hs.1
  case test3 =>
    left
    by_cases hw : s.waiting = s.n
    · rw [if_pos hw] at hs
      subst hs
      refine ⟨hsize, forall_update honly rfl, ?_, hshut, ?_, ?_, ?_, ?_, ?_⟩ <;>
        simp [State.goto, occ_update, hpc] <;> omega
    · rw [if_neg hw] at hs
      subst hs
      refine ⟨hsize, forall_update honly rfl, ?_, hshut, ?_, ?_, ?_, ?_, ?_⟩ <;>
        simp [State.goto, occ_update, hpc] <;> omega
  case open3 =>
    -- nobody is in the first or second phase, and `waiting` is `n`
    subst hs
    right
    have hno : ∀ c, Pc.inStage3 c = false → occ s.pc c = 0 := fun c hc => occ_eq_zero honly hc
    have h1 := hno .incr1 rfl
    have h2 := hno .test1 rfl
    have h3 := hno .unlock1 rfl
    have h4 := hno .enter1 rfl
    have h5 := hno .pass1 rfl
    have h6 := hno .lock2 rfl
    have h7 := hno .decr2 rfl
    have h8 := hno .test2 rfl
    have honly4 : ∀ j, (s.pc j).inStage4 = true := by
      intro j
      have := honly j
      revert this
      cases s.pc j <;> simp [Pc.inStage3, Pc.inStage4]
    refine ⟨hsize, forall_update honly4 rfl, ?_, ?_, ?_, ?_⟩ <;>
      simp [State.goto, State.postTurnsnile, occ_update, hpc] <;> omega

/-- The last stage never ends: a new call finds `waiting` above `n` and leaves it positive, so it touches no turnstile under the
mutex. -/
theorem Stage4.step {n : Nat} (hn : 1 ≤ n) {s s' : State m} (h : Stage4 n s) {i : Fin m}
    (hs : barrierWait s i = some s') : Stage4 n s' := by
  obtain ⟨hsize, honly, hfirst, hsecond, hmutex, hfloor⟩ := h
  have hin := honly i
  unfold barrierWait at hs
  cases hpc : s.pc i <;> simp only [hpc, Pc.inStage4, Bool.false_eq_true] at hin <;>
    simp only [hpc, State.waitMutex, State.waitTurnsnile, State.waitTurnsnile2,
      Option.ite_none_left_eq_some, Option.some.injEq] at hs
  all_goals have hpos := occ_pos hpc
  case test1 =>
    rw [if_neg (by omega)] at hs
    subst hs
    refine ⟨hsize, forall_update honly rfl, ?_, ?_, ?_, ?_⟩ <;> simp [State.goto, occ_update, hpc] <;> omega
  case test2 =>
    rw [if_neg (by omega)] at hs
    subst hs
    refine ⟨hsize, forall_update honly rfl, ?_, ?_, ?_, ?_⟩ <;> simp [State.goto, occ_update, hpc] <;> omega
  case test3 =>
    subst hs
    refine ⟨hsize, forall_update honly (by split <;> rfl), ?_, ?_, ?_, ?_⟩ <;> split <;>
      simp [State.goto, occ_update, hpc] <;> omega
  case lock1 | enter1 | lock2 | enter2 | lock3 | enter3 =>
    obtain ⟨hne, rfl⟩ := hs
    refine ⟨hsize, forall_update honly rfl, ?_, ?_, ?_, ?_⟩ <;> simp [State.goto, occ_update, hpc] <;> omega
  all_goals
    subst hs
    refine ⟨hsize, forall_update honly rfl, ?_, ?_, ?_, ?_⟩ <;>
      simp [State.goto, State.postMutex, State.postTurnsnile, State.postTurnsnile2, occ_update, hpc] <;> omega

/-- Every run of `n` processes is in one of the four stages. -/
theorem staged_reach {n : Nat} (hn : 1 ≤ n) {s : State n} (h : (barrier n n).Reach s) : Staged n s := by
  refine Sys.Inductive.reach (S := barrier n n) ⟨?_, ?_⟩ h
  · rintro s rfl
    exact Or.inl (stage1_init hn)
  · rintro s i s' (hI | hI | hI | hI) hs
    · rcases hI.step hs with h | h
      · exact Or.inl h
      · exact Or.inr (Or.inl h)
    · rcases hI.step hs with h | h
      · exact Or.inr (Or.inl h)
      · exact Or.inr (Or.inr (Or.inl h))
    · rcases hI.step hs with h | h
      · exact Or.inr (Or.inr (Or.inl h))
      · exact Or.inr (Or.inr (Or.inr h))
    · exact Or.inr (Or.inr (Or.inr (hI.step hn hs)))

/-! ## No deadlock with exactly `n` processes -/

/-- When all of `n` processes are stuck, every occupied place waits on a semaphore that is zero. -/
theorem zeroAt_of_stuck {n : Nat} {s : State n} (hsize : s.n = n) (h : s.Stuck) :
    ∀ c, 0 < occ s.pc c → s.zeroAt c := by
  obtain ⟨hcount, hblocked⟩ := h
  have hle := count_le_card Pc.inside s.pc
  rw [Fintype.card_fin] at hle
  have hall : count Pc.inside s.pc = Fintype.card (Fin n) := by
    rw [Fintype.card_fin]
    omega
  intro c hc
  obtain ⟨i, rfl⟩ := exists_of_occ_pos hc
  exact (blocked_iff s i).mp (hblocked i (count_eq_card_iff.mp hall i))

/-- In none of the stages are all `n` processes stuck: the mutex is held by a process that can go on, or it is free; a shut
turnstile is about to be opened by a process that is not blocked. -/
theorem Staged.not_stuck {n : Nat} (hn : 1 ≤ n) {s : State n} (h : Staged n s) : ¬ s.Stuck := by
  intro hst
  rcases h with h | h | h | h <;> have hz := zeroAt_of_stuck h.size hst
  · have h1 := hz .idle
    have h2 := hz .lock1
    have h3 := hz .incr1
    have h4 := hz .test1
    have h5 := hz .grab1
    have h6 := hz .open1
    have h7 := hz .unlock1
    have := h.total
    have := h.second
    have := h.mutex
    have := h.waiting
    have := h.last
    simp only [State.zeroAt, imp_false, not_lt] at h1 h2 h3 h4 h5 h6 h7
    omega
  · have h1 := hz .unlock1
    have h2 := hz .enter1
    have h3 := hz .pass1
    have h4 := hz .lock2
    have h5 := hz .decr2
    have h6 := hz .test2
    have h7 := hz .grab2
    have h8 := hz .open2
    have h9 := hz .unlock2
    have := h.first
    have := h.mutex
    have := h.waiting
    have := h.last
    simp only [State.zeroAt, imp_false, not_lt] at h1 h2 h3 h4 h5 h6 h7 h8 h9
    omega
  · have h1 := hz .unlock2
    have h2 := hz .enter2
    have h3 := hz .pass2
    have h4 := hz .lock3
    have h5 := hz .incr3
    have h6 := hz .unlock3
    have h7 := hz .test3
    have h8 := hz .open3
    have := h.total
    have := h.second
    have := h.mutex
    have := h.waiting
    have := h.last
    simp only [State.zeroAt, imp_false, not_lt] at h1 h2 h3 h4 h5 h6 h7 h8
    omega
  · have hm : s.mutex = 1 := by
      have h1 := hz .incr1
      have h2 := hz .test1
      have h3 := hz .unlock1
      have h4 := hz .decr2
      have h5 := hz .test2
      have h6 := hz .unlock2
      have h7 := hz .incr3
      have h8 := hz .unlock3
      have := h.mutex
      simp only [State.zeroAt, imp_false, not_lt] at h1 h2 h3 h4 h5 h6 h7 h8
      omega
    have ht : s.turnsnile ≠ 0 := by
      have h1 := hz .pass1
      have h2 := hz .pass3
      have := h.first
      simp only [State.zeroAt, imp_false, not_lt] at h1 h2
      omega
    have ht2 : s.turnsnile2 ≠ 0 := by
      have h1 := hz .pass2
      have := h.second
      simp only [State.zeroAt, imp_false, not_lt] at h1
      omega
    -- any process at all: both turnstiles and the mutex are free, so it is not blocked
    have hi := hz (s.pc ⟨0, hn⟩) (occ_pos rfl)
    unfold State.zeroAt at hi
    split at hi <;> omega

/-- In none of the stages does a process wait for `turnsnile2` with the mutex in its hands. -/
theorem Staged.not_held {n : Nat} {s : State m} (h : Staged n s) (i : Fin m) (hb : s.BlockedOnTurnsnile2 i) :
    (s.pc i).holdsMutex = false := by
  obtain ⟨hpc | hpc, hz⟩ := hb
  · exfalso
    have hpos := occ_pos hpc
    rcases h with h | h | h | h
    · have := h.second
      have := h.mutex
      omega
    all_goals
      have := h.only i
      rw [hpc] at this
      cases this
  · rw [hpc]
    rfl

/-! ## Deadlock with one process more -/

/-- The first `n` processes have arrived; the first of them has left the first turnstile, which brings `waiting` down to
`n - 1`, and process `n` brings it back to `n` and waits for the second turnstile. -/
def jammed (n : Nat) (j : Nat) : State m where
  turnsnile := 1
  turnsnile2 := 0
  mutex := 0
  waiting := n
  n := n
  pc i := if i.val = 0 then .enter2 else if i.val < j then .lock2 else if i.val < n then .enter1
    else if i.val = n then .grab1 else .idle
  entered := n + 1
  returned := 0

/-- Process `0` leaves the first turnstile. -/
theorem path_depart {n : Nat} (hn : 2 ≤ n) (hm : n < m) :
    (cappedBarrier m n n).Path (snap n 1 0 n (row n 0 .enter2 .enter1) n 0)
      ({ (snap n 1 0 n (row n 0 .enter2 .enter1) n 0 : State m) with waiting := (n : Int) - 1 }.goto ⟨0, by omega⟩ .enter2) := by
  have h := runs_leave1 (s := snap n 1 0 n (row n 0 .enter2 .enter1) n 0) (i := (⟨0, by omega⟩ : Fin m))
    (by simp only [snap, row]; rw [if_neg (by omega), if_pos (by omega)]) rfl rfl (by simp only [snap]; omega)
  exact path_of_runs h (by simp only [State.goto, snap]; omega)

/-- Process `n` arrives. -/
theorem runs_jam {n : Nat} (hn : 2 ≤ n) (hm : n < m) :
    runs ({ (snap n 1 0 n (row n 0 .enter2 .enter1) n 0 : State m) with waiting := (n : Int) - 1 }.goto ⟨0, by omega⟩ .enter2)
      (List.replicate 4 ⟨n, hm⟩) = some (jammed n 1 : State m) := by
  have h0 : 0 < m := by omega
  have hne : (⟨n, hm⟩ : Fin m) ≠ ⟨0, h0⟩ := by
    intro h
    have := congrArg Fin.val h
    simp only at this
    omega
  rw [runs_rejoin (i := (⟨n, hm⟩ : Fin m)) (by simp [State.goto, snap, Function.update_of_ne hne, row]) rfl
    (by simp only [State.goto, snap]; omega)]
  simp only [State.goto, snap, jammed, Option.some.injEq, State.mk.injEq, true_and, and_true]
  refine ⟨by omega, funext fun i => ?_⟩
  by_cases hin : i = ⟨n, hm⟩
  · subst hin
    simp [show n ≠ 0 by omega]
  · rw [Function.update_of_ne hin]
    have hne : i.val ≠ n := fun h => hin (Fin.ext h)
    by_cases hi0 : i = ⟨0, h0⟩
    · subst hi0
      simp
    · rw [Function.update_of_ne hi0]
      have hne0 : i.val ≠ 0 := fun h => hi0 (Fin.ext h)
      simp [row, hne, hne0]

/-- Process `j + 1` passes the first turnstile and stops at the mutex. -/
theorem runs_jammed {n j : Nat} (hj : j < n - 1) (hm : n < m) :
    runs (jammed n (j + 1) : State m) (List.replicate 2 ⟨j + 1, by omega⟩) = some (jammed n (j + 1 + 1)) := by
  rw [runs_pass1 (s := (jammed n (j + 1) : State m)) (i := ⟨j + 1, by omega⟩)
    (by simp only [jammed]; rw [if_neg (by omega), if_neg (by omega), if_pos (by omega)]) rfl]
  simp only [State.goto, jammed, Option.some.injEq, State.mk.injEq, true_and, and_true]
  funext i
  by_cases hi : i = ⟨j + 1, by omega⟩
  · subst hi
    simp
  · rw [Function.update_of_ne hi]
    have hne : i.val ≠ j + 1 := fun h => hi (Fin.ext h)
    have hlt : i.val < j + 1 ↔ i.val < j + 1 + 1 := by omega
    simp only [hlt]

/-- With more than `n` processes a run of `n + 1` calls, in which nothing overflows, reaches a state in which every process inside is
blocked: process `0` leaves the first turnstile, process `n` arrives, and the others come to the mutex. -/
theorem jammed_reach {n : Nat} (hn : 2 ≤ n) (hmax : (n : Int) ≤ intMax) (hm : n < m) :
    (intBarrier m n).Reach (jammed n n : State m) := by
  have h0 : 0 < m := by omega
  have hcap : (cappedBarrier m n n).Reach _ :=
    (Sys.Reach.init rfl).path ((path_gather (by omega) (by omega) (Nat.le_refl n)).trans (path_depart hn hm))
  obtain ⟨hreach, hw, -⟩ := inRange_of_capped hmax hcap
  have hout : ∀ k (i : Fin m), i.val ≠ 0 → (⟨0, h0⟩ : Fin m) ∉ List.replicate k i := by
    intro k i hi hmem
    exact hi (congrArg Fin.val (List.eq_of_mem_replicate hmem).symm)
  obtain ⟨hjam, hw₁⟩ := intPath_of_runs (n := n) (hout 4 ⟨n, hm⟩ (by simp only; omega)) (runs_jam hn hm) hw
    (by simp [State.goto, Pc.away]) (by simp only [jammed]; push_cast; omega)
  have hall : ∀ j, j ≤ n - 1 → (intBarrier m n).Reach (jammed n (j + 1) : State m) ∧ (jammed n (j + 1) : State m).Counted := by
    intro j
    induction j with
    | zero => exact fun _ => ⟨hreach.path hjam, hw₁⟩
    | succ j ih =>
      intro hj
      obtain ⟨hreach, hw⟩ := ih (by omega)
      obtain ⟨hpath, hw'⟩ := intPath_of_runs (n := n) (hout 2 ⟨j + 1, by omega⟩ (Nat.succ_ne_zero j)) (runs_jammed hj hm) hw
        (by simp [jammed, Pc.away]) (by simp only [jammed]; push_cast; omega)
      exact ⟨hreach.path hpath, hw'⟩
  have h := (hall (n - 1) (Nat.le_refl _)).1
  rwa [show n - 1 + 1 = n by omega] at h

/-- The jammed processes are stuck. -/
theorem jammed_stuck {n : Nat} (hm : n < m) : (jammed n n : State m).Stuck := by
  constructor
  · have h := card_le_count (p := Pc.inside) (f := (jammed n n : State m).pc) (Fin.castLE (Nat.le_of_lt hm))
      (Fin.castLE_injective _) (by
        intro k
        have hk := k.isLt
        by_cases h0 : k.val = 0
        · simp [jammed, h0, Pc.inside]
        · simp [jammed, h0, hk, Pc.inside])
    rwa [Fintype.card_fin] at h
  · intro i hin
    rw [blocked_iff]
    revert hin
    simp only [jammed]
    split
    · intro _
      rfl
    · split
      · intro _
        rfl
      · split
        · intro _
          rfl
        · intro hin
          cases hin

/-- As long as no `waiting++` overflows, the barrier blocks all processes inside it, or blocks one on `turnsnile2` with the mutex in
its hands, in some run, unless exactly `n` processes share it: with `m = n` no state reached does either, and with `m > n` some does. -/
theorem barrier_deadlockFree_iff (n : Nat) (hn : 2 ≤ n) (hmax : (n : Int) ≤ intMax) (hm : n ≤ m) :
    (∀ s : State m, (intBarrier m n).Reach s →
      ¬ s.Stuck ∧ ∀ i, s.BlockedOnTurnsnile2 i → (s.pc i).holdsMutex = false) ↔ m = n := by
  constructor
  · intro h
    by_contra hne
    have hlt : n < m := by omega
    exact (h _ (jammed_reach hn hmax hlt)).1 (jammed_stuck hlt)
  · rintro rfl s hs
    have hI := staged_reach (by omega) hs.of_guard
    exact ⟨hI.not_stuck (by omega), hI.not_held⟩

/-- Two processes on a barrier of two. -/
theorem barrier_deadlockFree_iff_two :
    (∀ s : State 2, (intBarrier 2 2).Reach s →
      ¬ s.Stuck ∧ ∀ i, s.BlockedOnTurnsnile2 i → (s.pc i).holdsMutex = false) ↔ 2 = 2 :=
  barrier_deadlockFree_iff 2 (by decide) (by decide) (by decide)

/-- Three processes on a barrier of two can block each other, and nothing overflows on the way. -/
theorem barrier_deadlock : ¬ ∀ s : State 3, (intBarrier 3 2).Reach s →
    ¬ s.Stuck ∧ ∀ i, s.BlockedOnTurnsnile2 i → (s.pc i).holdsMutex = false := by
  intro h
  exact (h _ (jammed_reach (by decide) (by decide) (by decide))).1 (jammed_stuck (by decide))

end OsLabs.Barrier
