import OsLabs.Barrier.Rounds

/-!
# The first round of the barrier

As long as at most `n` calls have entered, the barrier is safe: before the `n`-th call has executed its first `waiting++` the
first turnstile is shut and every process is in front of it, and no more calls return than have entered.
-/

namespace OsLabs.Barrier

variable {m : Nat}

/-- The places after the first `waiting++` of a call. -/
def Pc.counted : Pc → Bool
  | .idle | .lock1 | .incr1 => false
  | _ => true

/-- The places a process can be at before `n` calls have entered. -/
def Pc.gathering : Pc → Bool
  | .idle | .lock1 | .incr1 | .test1 | .unlock1 | .enter1 => true
  | _ => false

/-- What holds in every state of a run with at most `k` entered calls, `k ≤ n`. -/
structure FirstRound (n k : Nat) (s : State m) : Prop where
  size : s.n = n
  entered_le : s.entered ≤ k
  calls : s.returned + count Pc.counted s.pc = s.entered
  shut : s.entered < n → s.turnsnile = 0 ∧ s.waiting = s.entered ∧ s.returned = 0
  gathering : s.entered < n → ∀ i, (s.pc i).gathering = true

/-- Nothing has entered a new barrier. -/
theorem firstRound_init (n k : Nat) : FirstRound n k (barrierInit m n) where
  size := rfl
  entered_le := Nat.zero_le _
  calls := by
    rw [count_eq_zero_iff.mpr fun _ => rfl]
    rfl
  shut _ := ⟨rfl, rfl, rfl⟩
  gathering _ _ := rfl

/-- A step that moves process `i` without touching the counters, `turnsnile` and `waiting`, between places on the same side of
the first `waiting++`. -/
theorem FirstRound.move {n k : Nat} {s s' : State m} (h : FirstRound n k s) {i : Fin m} {c : Pc}
    (hn : s'.n = s.n) (he : s'.entered = s.entered) (hr : s'.returned = s.returned)
    (hpc : s'.pc = Function.update s.pc i c) (hc : c.counted = (s.pc i).counted)
    (hg : s.entered < n → s'.turnsnile = s.turnsnile ∧ s'.waiting = s.waiting ∧ c.gathering = true) :
    FirstRound n k s' where
  size := hn.trans h.size
  entered_le := he ▸ h.entered_le
  calls := by
    have hu := count_update Pc.counted s.pc i c
    have := h.calls
    rw [hc] at hu
    rw [hr, he, hpc]
    omega
  shut hlt := by
    rw [he] at hlt ⊢
    obtain ⟨h1, h2, -⟩ := hg hlt
    rw [h1, h2, hr]
    exact h.shut hlt
  gathering hlt := by
    rw [he] at hlt
    rw [hpc]
    exact forall_update (h.gathering hlt) (hg hlt).2.2

/-- A step that process `i` takes from a place where nobody is while fewer than `n` calls have entered. -/
theorem FirstRound.move_late {n k : Nat} {s s' : State m} (h : FirstRound n k s) {i : Fin m} {c : Pc}
    (hi : (s.pc i).gathering = false) (hn : s'.n = s.n) (he : s'.entered = s.entered)
    (hr : s'.returned + c.counted.toNat = s.returned + (s.pc i).counted.toNat)
    (hpc : s'.pc = Function.update s.pc i c) : FirstRound n k s' := by
  have late : ¬ s.entered < n := by
    intro hlt
    rw [h.gathering hlt i] at hi
    cases hi
  refine ⟨hn.trans h.size, he ▸ h.entered_le, ?_, fun hlt => absurd (he ▸ hlt) late, fun hlt => absurd (he ▸ hlt) late⟩
  have hu := count_update Pc.counted s.pc i c
  have := h.calls
  rw [he, hpc]
  omega

/-- The first `waiting++` of a call: one more call has entered, and while fewer than `n` have, all of them are counted in
`waiting`. -/
theorem FirstRound.enter {n k : Nat} {s : State m} (h : FirstRound n k s) {i : Fin m} (hi : s.pc i = .incr1)
    (hk : s.entered < k) (hkn : k ≤ n) :
    FirstRound n k ({ s with waiting := s.waiting + 1, entered := s.entered + 1 }.goto i .test1) := by
  have early : s.entered < n := by omega
  refine ⟨h.size, hk, ?_, fun _ => ?_, fun _ => forall_update (h.gathering early) rfl⟩
  · have hu := count_update Pc.counted s.pc i .test1
    have := h.calls
    rw [hi] at hu
    simp only [State.goto, Pc.counted, Bool.toNat_false, Bool.toNat_true] at hu ⊢
    omega
  · obtain ⟨h1, h2, h3⟩ := h.shut early
    refine ⟨h1, ?_, h3⟩
    simp only [State.goto, h2]
    rfl

/-- A step keeps the first round, when it lets no more than `k ≤ n` calls enter: one case for each place. -/
theorem FirstRound.step {n k : Nat} {s s' : State m} (h : FirstRound n k s) (hkn : k ≤ n) {i : Fin m}
    (hg : s.capped k i) (hs : barrierWait s i = some s') : FirstRound n k s' := by
  unfold barrierWait at hs
  cases hpc : s.pc i <;> simp only [hpc, State.waitMutex, State.waitTurnsnile, State.waitTurnsnile2,
    Option.ite_none_left_eq_some, Option.some.injEq] at hs
  case incr1 =>
    subst hs
    exact h.enter hpc (hg hpc) hkn
  case test1 =>
    subst hs
    refine h.move rfl rfl rfl rfl ?_ fun hlt => ⟨rfl, rfl, ?_⟩
    · split <;> simp [hpc, Pc.counted]
    · obtain ⟨-, hw, -⟩ := h.shut hlt
      have hsz := h.size
      rw [if_neg (by omega)]
      rfl
  case enter1 =>
    obtain ⟨hne, rfl⟩ := hs
    exact h.move rfl rfl rfl rfl (by simp [hpc, Pc.counted]) fun hlt => absurd (h.shut hlt).1 hne
  case idle | unlock1 =>
    subst hs
    exact h.move rfl rfl rfl rfl (by simp [hpc, Pc.counted]) fun _ => ⟨rfl, rfl, rfl⟩
  case lock1 =>
    obtain ⟨-, rfl⟩ := hs
    exact h.move rfl rfl rfl rfl (by simp [hpc, Pc.counted]) fun _ => ⟨rfl, rfl, rfl⟩
  case grab1 | lock2 | grab2 | enter2 | lock3 | enter3 =>
    obtain ⟨-, rfl⟩ := hs
    exact h.move_late (by simp [hpc, Pc.gathering]) rfl rfl (by simp [hpc, Pc.counted, State.goto]) rfl
  case test2 | test3 =>
    subst hs
    refine h.move_late (by simp [hpc, Pc.gathering]) rfl rfl ?_ rfl
    split <;> simp [hpc, Pc.counted, State.goto]
  case pass3 =>
    subst hs
    exact h.move_late (by simp [hpc, Pc.gathering]) rfl rfl
      (by simp [hpc, Pc.counted, State.goto, State.postTurnsnile]) rfl
  all_goals
    subst hs
    exact h.move_late (by simp [hpc, Pc.gathering]) rfl rfl
      (by simp [hpc, Pc.counted, State.goto, State.postTurnsnile, State.postTurnsnile2, State.postMutex]) rfl

/-- In a run with at most `k ≤ n` entered calls, the first round holds in every state reached. -/
theorem firstRound_reach {n k : Nat} (hkn : k ≤ n) {s : State m} (h : (cappedBarrier m n k).Reach s) :
    FirstRound n k s := by
  refine Sys.Inductive.reach (S := cappedBarrier m n k) ⟨?_, ?_⟩ h
  · rintro s rfl
    exact firstRound_init n k
  · rintro s i s' hI ⟨hg, hs⟩
    exact hI.step hkn hg hs

/-- In the first round no call returns before `n` calls have entered. -/
theorem FirstRound.safe {n k : Nat} {s : State m} (h : FirstRound n k s) (hkn : k ≤ n) :
    s.returned ≤ n * (s.entered / n) := by
  have hc := h.calls
  have he := h.entered_le
  rcases Nat.lt_or_ge s.entered n with hlt | hge
  · rw [(h.shut hlt).2.2]
    exact Nat.zero_le _
  · have : s.entered = n := by omega
    rcases Nat.eq_zero_or_pos n with rfl | hpos
    · omega
    · rw [this, Nat.div_self hpos]
      omega

/-! ## The round after the first -/

/-- After the first round a call goes through the barrier alone: `waiting` starts at `n`, so the call neither makes it `n`
nor zero, and both turnstiles are open. -/
theorem path_alone {n k : Nat} (hm : 0 < m) (hn : 1 ≤ n) (hk : n + 1 ≤ k) :
    (cappedBarrier m n k).Path (snap n 1 1 n (fun _ => .idle) n n)
      (snap n 1 1 (n + 1 : Int) (fun _ => .idle) (n + 1) (n + 1)) := by
  obtain ⟨i, -⟩ : ∃ i : Fin m, i.val = 0 := ⟨⟨0, hm⟩, rfl⟩
  have h1 := runs_gather (s := snap n 1 1 n (fun _ => .idle) n n) (i := i) rfl rfl (by simp only [snap]; omega)
  have p1 := path_of_runs (n := n) h1 hk
  have h2 := runs_leave1 (s := (snap n 1 1 (n + 1 : Int) (fun _ => .idle) (n + 1) n).goto i .enter1) (i := i)
    (by simp [State.goto]) rfl rfl (by simp only [snap, State.goto]; omega)
  have p2 := path_of_runs (n := n) h2 hk
  have h3 := runs_leave2 (s := (snap n 1 1 n (fun _ => .idle) (n + 1) n).goto i .enter2) (i := i)
    (by simp [State.goto]) rfl rfl (by simp only [snap, State.goto]; omega)
  have p3 := path_of_runs (n := n) h3 hk
  have h4 := runs_return (s := (snap n 1 1 (n + 1 : Int) (fun _ => .idle) (n + 1) n).goto i .enter3) (i := i)
    (by simp [State.goto]) rfl
  have p4 := path_of_runs (n := n) h4 hk
  have back : Function.update (fun _ : Fin m => Pc.idle) i .idle = fun _ => .idle := Function.update_eq_self i _
  have e : (n : Int) + 1 - 1 = n := by omega
  simp only [snap, State.goto, Function.update_idem, e, back] at p1 p2 p3 p4
  exact p1.trans (p2.trans (p3.trans p4))

/-- The barrier is safe exactly in its first round. In a run that lets at most `k` calls execute their first `waiting++`, no
process leaves a round before `n` processes have entered it when `k ≤ n`; with one call more, whoever makes it, there is a run
in which that call returns alone. -/
theorem barrier_safe_iff (n k : Nat) (hn : 2 ≤ n) (hm : n ≤ m) :
    (∀ s : State m, (cappedBarrier m n k).Reach s → s.returned ≤ n * (s.entered / n)) ↔ k ≤ n := by
  constructor
  · intro h
    by_contra hk
    have hr : (cappedBarrier m n k).Reach (snap n 1 1 (n + 1 : Int) (fun _ => .idle) (n + 1) (n + 1)) :=
      (Sys.Reach.init rfl).path ((path_round (by omega) hm (by omega)).trans (path_alone (by omega) (by omega) (by omega)))
    have hs := h _ hr
    have hdiv : (n + 1) / n = 1 := Nat.div_eq_of_lt_le (by omega) (by omega)
    simp only [snap, hdiv] at hs
    omega
  · intro hk s hs
    exact (firstRound_reach hk hs).safe hk

/-- Two processes on a barrier of two, each calling once. -/
theorem barrier_safe_iff_two :
    (∀ s : State 2, (cappedBarrier 2 2 2).Reach s → s.returned ≤ 2 * (s.entered / 2)) ↔ 2 ≤ 2 :=
  barrier_safe_iff 2 2 (by decide) (by decide)

/-- The barrier is not safe: two processes go through it together, and then one of them goes through it alone. -/
theorem barrier_unsafe : ¬ ∀ s : State 2, (barrier 2 2).Reach s → s.returned ≤ 2 * (s.entered / 2) := by
  intro h
  have hr : (cappedBarrier 2 2 3).Reach (snap 2 1 1 3 (fun _ => .idle) 3 3) :=
    (Sys.Reach.init rfl).path
      ((path_round (by decide) (by decide) (by decide)).trans (path_alone (n := 2) (by decide) (by decide) (by decide)))
  exact absurd (h _ hr.of_guard) (by decide)

end OsLabs.Barrier
