import OsLabs.Lib.Fair
import OsLabs.Signals.Cycle
import Mathlib.Data.Finite.Prod
import Mathlib.Data.Finite.Sum

/-!
# The ball goes round (`cycle.c`)

The ball is in the air or held by somebody (`Play.flying_or_held`). In the air it is caught, once the process that it is for is in
`sigsuspend`; held, it is sent on. No other step undoes what these wait for, so weak fairness is enough: whatever the delays of
`usleep`, every process has the ball again and again (`ball_goes_round`).
-/

namespace OsLabs.Cycle

open Filter Sys

variable {n k : Nat} {h : 0 < n} {s s' : State n} {a : Act n} {p q : Proc n} {r : (cycle n).Run}

/-- Ball `k` is sent, and nobody has it yet. -/
structure Flying (h : 0 < n) (k : Nat) (s : State n) : Prop where
  play : Play h s
  log : s.log.length = k
  free : ∀ p, (s.pc p).holds = false

/-- Ball `k` is with its receiver. -/
structure Held (h : 0 < n) (k : Nat) (s : State n) : Prop where
  play : Play h s
  log : s.log.length = k + 1
  holds : (s.pc (turn n k)).holds = true

theorem Flying.pending (hF : Flying h k s) (p : Proc n) : s.pending p = decide (p = turn n k) := by
  rcases hF.play.ball with ⟨hpend, -⟩ | ⟨k', -, -, hh⟩
  · rw [hpend p, hF.log]
  · have := hh (turn n k')
    rw [hF.free] at this
    simp at this

theorem Held.ball (hH : Held h k s) : (∀ p, s.pending p = false) ∧ ∀ p, (s.pc p).holds = decide (p = turn n k) := by
  rcases hH.play.ball with ⟨-, hh⟩ | ⟨k', hk, hpend, hh⟩
  · have := hh (turn n k)
    rw [hH.holds] at this
    cases this
  · obtain rfl : k' = k := by
      have := hH.log
      omega
    exact ⟨hpend, hh⟩

/-- There is always a ball. -/
theorem Play.flying_or_held (hP : Play h s) : (∃ k, Flying h k s) ∨ ∃ k, Held h k s := by
  rcases hP.ball with ⟨-, hh⟩ | ⟨k, hk, -, hh⟩
  · exact Or.inl ⟨_, hP, rfl, hh⟩
  · exact Or.inr ⟨k, hP, hk, by rw [hh, decide_eq_true rfl]⟩

theorem Playing.of_holds (hp : Playing s p q) (hh : (s.pc p).holds = true) : s.pc p = .holding q := by
  rcases hp with (⟨hpc, -⟩ | ⟨hpc, -⟩) | ⟨hpc, -⟩
  · rw [hpc] at hh
    cases hh
  · rw [hpc] at hh
    cases hh
  · exact hpc

/-- Entering `sigsuspend` leaves the ball where it is. -/
theorem holds_suspend (s : State n) {p next : Proc n} (hr : s.pc p = .ready next) (p' : Proc n) :
    ((s.suspend p next).pc p').holds = (s.pc p').holds := by
  by_cases hp : p' = p
  · subst hp
    simp [State.suspend, State.goto, State.mask, hr, Place.holds]
  · rw [(suspend_other hp).1]

/-- What can happen while the ball is in the air. -/
theorem Flying.step (hF : Flying h k s) (hst : Cycle.step s a s') :
    (∃ p next, a = .suspend p ∧ s.pc p = .ready next ∧ s' = s.suspend p next ∧ Flying h k s') ∨
      (a = .handle (turn n k) ∧ s.blocked (turn n k) = false ∧ Held h k s') := by
  have hstarted := hF.play.started
  cases hst with
  | mask hp => exact absurd hp hstarted.1
  | fork _ hp => exact absurd hp hstarted.2
  | start _ hp => exact absurd hp hstarted.2
  | suspend p next hr =>
    exact Or.inl ⟨p, next, rfl, hr, rfl, play_suspend hF.play hr, hF.log, fun p' => by
      rw [← hF.free p']
      exact holds_suspend s hr p'⟩
  | handle p hno _ hb => exact absurd ((hF.play.players p).suspended hb) (hno _ _)
  | wake p next saved hsus hp hb =>
    have hpt : p = turn n k := by simpa [hp] using (hF.pending p).symm
    refine Or.inr ⟨by rw [hpt], hpt ▸ hb, play_wake hF.play hsus hp hb, ?_, ?_⟩
    · simp [hF.log]
    · rw [← hpt]
      simp [State.goto, State.mask, Place.holds]
  | kill p next hk =>
    have := hF.free p
    rw [hk] at this
    cases this

/-- What can happen while somebody has the ball. -/
theorem Held.step (hH : Held h k s) (hst : Cycle.step s a s') :
    (∃ p, a = .suspend p ∧ Held h k s') ∨ (a = .kill (turn n k) (turn n (k + 1)) ∧ Flying h (k + 1) s') := by
  have hstarted := hH.play.started
  cases hst with
  | mask hp => exact absurd hp hstarted.1
  | fork _ hp => exact absurd hp hstarted.2
  | start _ hp => exact absurd hp hstarted.2
  | suspend p next hr => exact Or.inl ⟨p, rfl, play_suspend hH.play hr, hH.log, (holds_suspend s hr _).trans hH.holds⟩
  | handle p hno _ hb => exact absurd ((hH.play.players p).suspended hb) (hno _ _)
  | wake p next saved hsus hp hb =>
    rw [hH.ball.1 p] at hp
    cases hp
  | kill p next hk =>
    have hpt : p = turn n k := by
      have := hH.ball.2 p
      rw [hk] at this
      simpa [Place.holds] using this.symm
    have hnext : next = turn n (k + 1) := by
      have hpc := (hH.play.players p).of_holds (by rw [hk]; rfl)
      rw [← nextOf_turn h, ← hpt]
      exact Place.holding.inj (hk.symm.trans hpc)
    refine Or.inr ⟨by rw [hpt, hnext], (play_kill hH.play hk).2, hH.log, fun p' => ?_⟩
    by_cases hp' : p' = p
    · simp [hp', State.goto, Place.holds]
    · have := hH.ball.2 p'
      rw [decide_eq_false fun e => hp' (e.trans hpt.symm)] at this
      simpa [State.goto, State.kill, hp'] using this

/-! ## From turn to turn -/

/-- What the receiver of ball `k` does. -/
def State.receiverAct (k : Nat) (s : State n) : Act n :=
  if s.blocked (turn n k) = true then .suspend (turn n k) else .handle (turn n k)

/-- The receiver can go on. -/
theorem Flying.enabled (hF : Flying h k s) : (cycle n).Enabled (s.receiverAct k) s := by
  rw [State.receiverAct]
  cases hb : s.blocked (turn n k) with
  | true =>
    rcases hF.play.players (turn n k) with (⟨hpc, -⟩ | ⟨-, hb'⟩) | ⟨hpc, -⟩
    · exact ⟨_, .suspend s _ _ hpc⟩
    · rw [hb] at hb'
      cases hb'
    · have := hF.free (turn n k)
      rw [hpc] at this
      cases this
  | false =>
    have hpend : s.pending (turn n k) = true := by rw [hF.pending, decide_eq_true rfl]
    exact ⟨_, .wake s _ _ true ((hF.play.players _).suspended hb) hpend hb⟩

/-- The ball in the air is caught: its receiver enters `sigsuspend`, if it is not there, and the signal is handled. -/
theorem caught (hr : r.WeaklyFair) {t : Nat} (ht : Flying h k (r.state t)) : ∃ u, t ≤ u ∧ Held h k (r.state u) := by
  refine hr.reaches (fun s => (s.blocked (turn n k)).toNat) (State.receiverAct k) (fun _ => Flying.enabled)
    (fun s a s' hF hst => ?_) ht
  rcases hF.step hst with ⟨p, next, rfl, hpc, rfl, hF'⟩ | ⟨-, -, hH⟩
  · refine Or.inr ⟨hF', ?_⟩
    by_cases hp : p = turn n k
    · subst hp
      have hb := ((hF.play.players _).of_ready hpc).2
      exact Or.inl (by simp [State.suspend, State.mask, hF.play.oldmask, hb])
    · have hb : (s.suspend p next).blocked (turn n k) = s.blocked (turn n k) := (suspend_other (Ne.symm hp)).2
      refine Or.inr ⟨?_, by rw [hb], by rw [State.receiverAct, State.receiverAct, hb]⟩
      rw [State.receiverAct]
      split <;> simp [hp]
  · exact Or.inl hH

/-- Who has the ball can send it on. -/
theorem Held.enabled (hH : Held h k s) : (cycle n).Enabled (.kill (turn n k) (turn n (k + 1))) s :=
  nextOf_turn h k ▸ ⟨_, .kill s _ _ ((hH.play.players (turn n k)).of_holds hH.holds)⟩

/-- The ball that is held is sent on. -/
theorem sent (hr : r.WeaklyFair) {t : Nat} (ht : Held h k (r.state t)) : ∃ u, t ≤ u ∧ Flying h (k + 1) (r.state u) := by
  refine hr.reaches (fun _ => 0) (fun _ => .kill (turn n k) (turn n (k + 1))) (fun _ => Held.enabled)
    (fun s a s' hH hst => ?_) ht
  rcases hH.step hst with ⟨p, rfl, hH'⟩ | ⟨-, hF⟩
  · exact Or.inr ⟨hH', Or.inr ⟨by simp, rfl, rfl⟩⟩
  · exact Or.inl hF

/-- From one turn on all turns come. -/
theorem comes (hr : r.WeaklyFair) {t : Nat} (ht : Flying h k (r.state t)) (m : Nat) : ∃ u, t ≤ u ∧ Held h (k + m) (r.state u) := by
  induction m with
  | zero => exact caught hr ht
  | succ m ih =>
    obtain ⟨u, hu, hH⟩ := ih
    obtain ⟨w, hw, hF⟩ := sent hr hH
    obtain ⟨x, hx, hH'⟩ := caught hr hF
    exact ⟨x, by omega, hH'⟩

/-- Every process has its turn, again and again. -/
theorem exists_turn_ge (p : Proc n) (k : Nat) : ∃ m, turn n (k + m) = p := by
  have hlt : ∀ j, j < n + 1 → (k + (k * n + j)) % (n + 1) = j := by
    intro j hj
    have he : k + (k * n + j) = j + k * (n + 1) := by rw [Nat.mul_succ]; omega
    rw [he, Nat.add_mul_mod_self_right, Nat.mod_eq_of_lt hj]
  cases p with
  | parent =>
    refine ⟨k * n + n, ?_⟩
    rw [turn, dif_neg (by rw [hlt n (Nat.lt_succ_self n)]; exact Nat.lt_irrefl n)]
  | child i =>
    have hi := i.isLt
    have he := hlt (n - 1 - i.val) (by omega)
    refine ⟨k * n + (n - 1 - i.val), ?_⟩
    rw [turn, dif_pos (by omega)]
    congr 1
    apply Fin.ext
    simp only [he]
    omega

/-! ## The first ball -/

/-- The steps of the parent before it plays. -/
def State.toStart (s : State n) : Nat := (if s.pc .parent = .start then 1 else 0) + (n - s.i)

/-- What the parent does next. -/
def State.parentAct (s : State n) : Act n :=
  if s.pc .parent = .start then .mask else if s.i < n then .fork else .kill .parent (turn n 0)

/-- The parent can go on. -/
theorem Setup.enabled (hS : Setup h s) : (cycle n).Enabled s.parentAct s := by
  rcases hS.parent with ⟨hpc, -⟩ | ⟨hpc, -⟩
  · rw [State.parentAct, if_pos hpc]
    exact ⟨_, .mask s hpc⟩
  · rw [State.parentAct, if_neg (by rw [hpc]; simp)]
    by_cases hi : s.i < n
    · rw [if_pos hi]
      by_cases h0 : s.i = 0
      · exact ⟨_, .fork s .parent hpc hi (by rw [if_pos h0])⟩
      · have hlast := hS.last ⟨s.i - 1, by omega⟩ (by simp only; omega)
        exact ⟨_, .fork s _ hpc hi (by rw [if_neg h0]; exact hlast)⟩
    · have hlast := hS.last ⟨n - 1, by omega⟩ (by have := hS.le; simp only; omega)
      rw [if_neg hi, turn_zero h]
      exact ⟨_, .start s _ hpc hi hlast⟩

/-- Before the parent plays, each step is one of its own, or a child enters `sigsuspend`. -/
theorem Setup.step (hS : Setup h s) (hst : Cycle.step s a s') :
    Play h s' ∨ Setup h s' ∧ (s'.toStart < s.toStart ∨
      a ≠ s.parentAct ∧ s'.toStart = s.toStart ∧ s'.parentAct = s.parentAct) := by
  cases hst with
  | mask hpc => exact Or.inr ⟨setup_mask hS hpc, Or.inl (by simp [State.toStart, State.goto, State.mask, hpc])⟩
  | fork next hpc hi hn =>
    refine Or.inr ⟨setup_fork hS hpc hi hn, Or.inl ?_⟩
    simp [State.toStart, State.fork, State.goto, State.mask, hpc]
    omega
  | start q hpc hi hq => exact Or.inl (play_start hS hpc hi hq)
  | suspend p next hr =>
    refine Or.inr ⟨setup_suspend hS hr, Or.inr ?_⟩
    have hp : Proc.parent ≠ p := by
      rintro rfl
      rcases hS.parent with ⟨hpc, -⟩ | ⟨hpc, -⟩ <;> rw [hr] at hpc <;> cases hpc
    have hpc : (s.suspend p next).pc .parent = s.pc .parent := (suspend_other hp).1
    refine ⟨?_, ?_, ?_⟩
    · rw [State.parentAct]
      split
      · simp
      · split <;> simp
    · show (s.suspend p next).toStart = _
      rw [State.toStart, hpc]
      rfl
    · show (s.suspend p next).parentAct = _
      rw [State.parentAct, hpc]
      rfl
  | handle p _ hp _ =>
    rw [hS.quiet p] at hp
    cases hp
  | wake p _ _ _ hp _ =>
    rw [hS.quiet p] at hp
    cases hp
  | kill p next hk => exact absurd hk (hS.no_ball p next)

/-- The parent comes to play. -/
theorem starts (h : 0 < n) (hr : r.WeaklyFair) : ∃ t, Play h (r.state t) := by
  have h0 : Setup h (r.state 0) := by
    have hinit : r.state 0 = main n := r.start
    exact hinit ▸ setup_init h
  obtain ⟨t, -, hP⟩ := hr.reaches State.toStart State.parentAct (fun _ => Setup.enabled)
    (fun _ _ _ hS hst => hS.step hst) h0
  exact ⟨t, hP⟩

/-- Once all play, they do so for ever. -/
theorem Play.next (hP : Play h s) (hst : Cycle.step s a s') : Play h s' := by
  rcases hP.flying_or_held with ⟨k, hF⟩ | ⟨k, hH⟩
  · rcases hF.step hst with ⟨p, next, -, -, -, hF'⟩ | ⟨-, -, hH⟩
    · exact hF'.play
    · exact hH.play
  · rcases hH.step hst with ⟨p, -, hH'⟩ | ⟨-, hF⟩
    · exact hH'.play
    · exact hF.play

/-- Somebody can always take a step. -/
theorem exists_enabled (h : 0 < n) (hs : (cycle n).Reach s) : ∃ a, (cycle n).Enabled a s := by
  rcases inv_reach h hs with hS | hP
  · exact ⟨_, hS.enabled⟩
  · rcases hP.flying_or_held with ⟨k, hF⟩ | ⟨k, hH⟩
    · exact ⟨_, hF.enabled⟩
    · exact ⟨_, hH.enabled⟩

instance : Finite (Act n) :=
  Finite.of_surjective (fun x : Bool ⊕ Proc n ⊕ Proc n ⊕ Proc n × Proc n =>
    Sum.elim (fun b => if b then .mask else .fork) (Sum.elim .suspend (Sum.elim .handle fun y => .kill y.1 y.2)) x) fun a => by
      cases a with
      | mask => exact ⟨.inl true, rfl⟩
      | fork => exact ⟨.inl false, rfl⟩
      | suspend p => exact ⟨.inr (.inl p), rfl⟩
      | handle p => exact ⟨.inr (.inr (.inl p)), rfl⟩
      | kill p q => exact ⟨.inr (.inr (.inr (p, q))), rfl⟩

/-- With at least one child: there are weakly fair runs, and in all of them every process holds the ball again and again. -/
theorem ball_goes_round (n : Nat) (hn : 1 ≤ n) :
    (∃ r : (cycle n).Run, r.WeaklyFair) ∧
    ∀ r : (cycle n).Run, r.WeaklyFair → ∀ p, ∃ᶠ t in atTop, ((r.state t).pc p).holds = true := by
  constructor
  · obtain ⟨r, hr⟩ := exists_stronglyFair (S := cycle n) rfl fun s hs => exists_enabled hn hs
    exact ⟨r, hr.weaklyFair⟩
  · intro r hr p
    refine frequently_atTop.mpr fun T => ?_
    obtain ⟨t, ht⟩ := starts hn hr
    have hplay : ∀ u, t ≤ u → Play hn (r.state u) := by
      intro u hu
      induction u, hu using Nat.le_induction with
      | base => exact ht
      | succ u _ ih => exact ih.next (r.next u)
    have hflying : ∃ u k, T ≤ u ∧ Flying hn k (r.state u) := by
      rcases (hplay (t + T) (Nat.le_add_right t T)).flying_or_held with ⟨k, hF⟩ | ⟨k, hH⟩
      · exact ⟨t + T, k, Nat.le_add_left T t, hF⟩
      · obtain ⟨u, hu, hF⟩ := sent hr hH
        exact ⟨u, k + 1, by omega, hF⟩
    obtain ⟨u, k, hTu, hF⟩ := hflying
    obtain ⟨m, rfl⟩ := exists_turn_ge p k
    obtain ⟨w, hw, hH⟩ := comes hr hF m
    exact ⟨w, Nat.le_trans hTu hw, hH.holds⟩

/-- The witness: a parent with one child. -/
theorem ball_goes_round_one : ∃ r : (cycle 1).Run, ∃ᶠ t in atTop, ((r.state t).pc .parent).holds = true := by
  obtain ⟨⟨r, hr⟩, hall⟩ := ball_goes_round 1 (by decide)
  exact ⟨r, hall r hr .parent⟩

end OsLabs.Cycle
