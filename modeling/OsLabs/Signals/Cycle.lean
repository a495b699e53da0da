import OsLabs.Lib.Count
import OsLabs.Lib.Sys
import Mathlib.Data.Fintype.Sum
import Mathlib.Tactic.DeriveFintype

/-!
# The ball of `cycle.c`

The parent forks `n` children, each of which plays with the child before it, the first one with the parent; then the parent sends
`SIGUSR1` to the last child and plays too. `play` waits in `sigsuspend` and sends the signal on. A pending signal is a flag. The mask is
kept for each process: a signal that is pending is handled as soon as the mask lets it through, wherever the process is, and
`sigsuspend` returns when a signal is handled in it. No process gets `SIGINT` or dies.

The mask is set before the first `Fork` and inherited, so that a process lets `SIGUSR1` through only in `sigsuspend`. A ball that comes
too early stays pending. Hence from the first `Kill` on there is one ball, pending for one process or held by one (`Ball`), and it
makes its `turn`s around the ring.
-/

namespace OsLabs.Cycle

/-- The processes: the parent, and the children by number. -/
inductive Proc (n : Nat) where
  | parent
  | child (i : Fin n)
  deriving DecidableEq, Fintype

/-- Where a process is: not forked, before `sigprocmask`, in the loop of `main`, or in `play` before `sigsuspend`, inside it with the
mask that it restores, or after it. -/
inductive Place (n : Nat) where
  | absent | start | loop
  | ready (next : Proc n)
  | suspended (next : Proc n) (saved : Bool)
  | holding (next : Proc n)
  deriving DecidableEq

/-- Between the return of `sigsuspend` and `Kill`. -/
def Place.holds {n : Nat} : Place n → Bool
  | .holding _ => true
  | _ => false

/-- The variables of `main`, the mask and the pending flag of `SIGUSR1` for each process, and the processes for which `sigsuspend` has
returned, in order. -/
structure State (n : Nat) where
  i : Nat
  lastPid : Option (Proc n)
  oldmask : Bool
  pc : Proc n → Place n
  blocked : Proc n → Bool
  pending : Proc n → Bool
  log : List (Proc n)

variable {n : Nat}

/-- Process `p` goes to `c`. -/
def State.goto (s : State n) (p : Proc n) (c : Place n) : State n := { s with pc := Function.update s.pc p c }

/-- `SIGUSR1` is let through or not in process `p`. -/
def State.mask (s : State n) (p : Proc n) (b : Bool) : State n := { s with blocked := Function.update s.blocked p b }

/-- `Kill(q, SIGUSR1)`: a signal that is pending already stays pending. -/
def State.kill (s : State n) (q : Proc n) : State n := { s with pending := Function.update s.pending q true }

/-- The child that the parent forks in round `i`, with its argument of `play`. -/
def State.fork (s : State n) (j : Fin n) (next : Proc n) : State n :=
  { (s.goto (.child j) (.ready next)).mask (.child j) (s.blocked .parent) with
    i := s.i + 1
    lastPid := some (.child j)
    pending := Function.update s.pending (.child j) false }

/-- What a process does. -/
inductive Act (n : Nat) where
  | mask | fork
  | suspend (p : Proc n)
  | handle (p : Proc n)
  | kill (p q : Proc n)

/-- `main` and `play`. -/
inductive step : State n → Act n → State n → Prop where
  | mask (s : State n) (h : s.pc .parent = .start) :
      step s .mask { (s.goto .parent .loop).mask .parent true with oldmask := s.blocked .parent }
  | fork (s : State n) (next : Proc n) (h : s.pc .parent = .loop) (hi : s.i < n)
      (hn : if s.i = 0 then next = .parent else s.lastPid = some next) : step s .fork (s.fork ⟨s.i, hi⟩ next)
  | start (s : State n) (q : Proc n) (h : s.pc .parent = .loop) (hi : ¬ s.i < n) (hq : s.lastPid = some q) :
      step s (.kill .parent q) ((s.kill q).goto .parent (.ready q))
  | suspend (s : State n) (p next : Proc n) (h : s.pc p = .ready next) :
      step s (.suspend p) ((s.goto p (.suspended next (s.blocked p))).mask p s.oldmask)
  -- The handler does nothing; only `sigsuspend` takes notice.
  | handle (s : State n) (p : Proc n) (h : ∀ next saved, s.pc p ≠ .suspended next saved) (hp : s.pending p = true)
      (hb : s.blocked p = false) : step s (.handle p) { s with pending := Function.update s.pending p false }
  | wake (s : State n) (p next : Proc n) (saved : Bool) (h : s.pc p = .suspended next saved) (hp : s.pending p = true)
      (hb : s.blocked p = false) :
      step s (.handle p) { (s.goto p (.holding next)).mask p saved with
        pending := Function.update s.pending p false
        log := s.log ++ [p] }
  | kill (s : State n) (p next : Proc n) (h : s.pc p = .holding next) :
      step s (.kill p next) ((s.kill next).goto p (.ready next))

/-- The parent alone, with nothing masked and nothing pending. -/
def main (n : Nat) : State n where
  i := 0
  lastPid := none
  oldmask := false
  pc p := if p = .parent then .start else .absent
  blocked _ := false
  pending _ := false
  log := []

/-- The parent and its `n` children. -/
def cycle (n : Nat) : Sys (State n) (Act n) where
  init s := s = main n
  step := step

/-- The parent has sent its first signal: it is in `play`. -/
def Started (s : State n) : Prop := s.pc .parent ≠ .start ∧ s.pc .parent ≠ .loop

instance (s : State n) : Decidable (Started s) := inferInstanceAs (Decidable (_ ∧ _))

/-! ## The ring -/

/-- Whom a process sends the ball to, with at least one child. -/
def nextOf (h : 0 < n) : Proc n → Proc n
  | .parent => .child ⟨n - 1, by omega⟩
  | .child ⟨0, _⟩ => .parent
  | .child ⟨i + 1, hi⟩ => .child ⟨i, by omega⟩

/-- Who gets the ball in turn `k`: the last child, ..., the first child, the parent, and again. -/
def turn (n k : Nat) : Proc n :=
  if h : k % (n + 1) < n then .child ⟨n - 1 - k % (n + 1), by omega⟩ else .parent

/-- The first turn is that of the last child. -/
theorem turn_zero (h : 0 < n) : turn n 0 = .child ⟨n - 1, by omega⟩ := by
  unfold turn
  rw [dif_pos (by simpa using h)]
  simp

/-- The turns follow the ring. -/
theorem nextOf_turn (h : 0 < n) (k : Nat) : nextOf h (turn n k) = turn n (k + 1) := by
  have hlt : k % (n + 1) < n + 1 := Nat.mod_lt k (Nat.succ_pos n)
  unfold turn
  by_cases hk : k % (n + 1) < n
  · have hs : (k + 1) % (n + 1) = k % (n + 1) + 1 := by
      rw [Nat.add_mod, Nat.mod_eq_of_lt (a := 1) (by omega), Nat.mod_eq_of_lt (by omega)]
    rw [dif_pos hk]
    by_cases hk' : k % (n + 1) + 1 < n
    · have e : n - 1 - k % (n + 1) = (n - 1 - (k + 1) % (n + 1)) + 1 := by omega
      rw [dif_pos (by omega)]
      simp only [e, nextOf]
    · have e : n - 1 - k % (n + 1) = 0 := by omega
      rw [dif_neg (by omega)]
      simp only [e, nextOf]
  · have e : k % (n + 1) = n := by omega
    have hs : (k + 1) % (n + 1) = 0 := by
      rw [Nat.add_mod, e]
      by_cases hn1 : n = 0
      · omega
      · rw [Nat.mod_eq_of_lt (a := 1) (by omega), Nat.mod_self]
    rw [dif_neg hk, dif_pos (by omega)]
    simp only [hs, nextOf]
    rfl

/-! ## The invariant -/

/-- A process in `play` that does not hold the ball: `SIGUSR1` is let through exactly in `sigsuspend`. -/
def Waiting (s : State n) (p q : Proc n) : Prop :=
  (s.pc p = .ready q ∧ s.blocked p = true) ∨ (s.pc p = .suspended q true ∧ s.blocked p = false)

/-- A process in `play`. -/
def Playing (s : State n) (p q : Proc n) : Prop := Waiting s p q ∨ (s.pc p = .holding q ∧ s.blocked p = true)

/-- Until the first `Kill` there is no ball, and the children that are there wait. -/
structure Setup (h : 0 < n) (s : State n) : Prop where
  le : s.i ≤ n
  parent : (s.pc .parent = .start ∧ s.i = 0 ∧ s.blocked .parent = false) ∨
    (s.pc .parent = .loop ∧ s.blocked .parent = true ∧ s.oldmask = false)
  last : ∀ j : Fin n, s.i = j.val + 1 → s.lastPid = some (.child j)
  children : ∀ j : Fin n, j.val < s.i → Waiting s (.child j) (nextOf h (.child j))
  absent : ∀ j : Fin n, s.i ≤ j.val → s.pc (.child j) = .absent
  quiet : ∀ p, s.pending p = false
  log : s.log = []

/-- One ball: it is pending for the process whose turn it is, or held by the one whose turn was the last. -/
def Ball (s : State n) : Prop :=
  (∀ p, s.pending p = decide (p = turn n s.log.length)) ∧ (∀ p, (s.pc p).holds = false) ∨
    ∃ k, s.log.length = k + 1 ∧ (∀ p, s.pending p = false) ∧ ∀ p, (s.pc p).holds = decide (p = turn n k)

/-- From the first `Kill` on all are in `play`, and there is one ball. -/
structure Play (h : 0 < n) (s : State n) : Prop where
  oldmask : s.oldmask = false
  players : ∀ p, Playing s p (nextOf h p)
  ball : Ball s
  log : s.log = (List.range s.log.length).map (turn n)

/-- What holds in every reachable state. -/
def Inv (h : 0 < n) (s : State n) : Prop := Setup h s ∨ Play h s

/-! ## Setting up -/

/-- What a waiting process sees of a state is its place and its mask. -/
theorem Waiting.congr {s s' : State n} {p q : Proc n} (h : Waiting s p q) (hp : s'.pc p = s.pc p)
    (hb : s'.blocked p = s.blocked p) : Waiting s' p q := by
  unfold Waiting at h ⊢
  rwa [hp, hb]

/-- What a playing process sees of a state is its place and its mask. -/
theorem Playing.congr {s s' : State n} {p q : Proc n} (h : Playing s p q) (hp : s'.pc p = s.pc p)
    (hb : s'.blocked p = s.blocked p) : Playing s' p q := by
  unfold Playing at h ⊢
  rcases h with h | h
  · exact Or.inl (h.congr hp hb)
  · rw [hp, hb]
    exact Or.inr h

/-- A child is not the parent. -/
theorem child_ne_parent (j : Fin n) : (Proc.child j : Proc n) ≠ .parent := by simp

/-- `sigprocmask`. -/
theorem setup_mask {h : 0 < n} {s : State n} (hS : Setup h s) (hp : s.pc .parent = .start) :
    Setup h { (s.goto .parent .loop).mask .parent true with oldmask := s.blocked .parent } := by
  obtain ⟨hle, hpar, hlast, hch, habs, hq, hlog⟩ := hS
  have hb : s.blocked .parent = false := by
    rcases hpar with ⟨-, -, hb⟩ | ⟨hl, -⟩
    · exact hb
    · rw [hp] at hl
      cases hl
  refine ⟨hle, Or.inr ⟨by simp [State.goto, State.mask], by simp [State.mask], hb⟩, hlast, fun j hj => ?_, fun j hj => ?_, hq, hlog⟩
  · refine (hch j hj).congr ?_ ?_
    · simp [State.goto, State.mask]
    · simp [State.goto, State.mask]
  · have := habs j hj
    simpa [State.goto, State.mask] using this

/-- `Fork` in round `i`: the child inherits the mask, and its neighbour is the child before it. -/
theorem setup_fork {h : 0 < n} {s : State n} {next : Proc n} (hS : Setup h s) (hp : s.pc .parent = .loop) (hi : s.i < n)
    (hn : if s.i = 0 then next = .parent else s.lastPid = some next) : Setup h (s.fork ⟨s.i, hi⟩ next) := by
  obtain ⟨hle, hpar, hlast, hch, habs, hq, hlog⟩ := hS
  have hb : s.blocked .parent = true ∧ s.oldmask = false := by
    rcases hpar with ⟨hs, -⟩ | ⟨-, hb⟩
    · rw [hp] at hs
      cases hs
    · exact hb
  have hnext : nextOf h (.child ⟨s.i, hi⟩) = next := by
    by_cases h0 : s.i = 0
    · rw [if_pos h0] at hn
      rw [hn]
      simp only [h0, nextOf]
    · rw [if_neg h0] at hn
      obtain ⟨k, hk⟩ := Nat.exists_eq_succ_of_ne_zero h0
      have h1 := hlast ⟨k, by omega⟩ hk
      rw [hn] at h1
      rw [Option.some.inj h1]
      simp only [hk, nextOf]
  refine ⟨?_, Or.inr ⟨?_, ?_, hb.2⟩, ?_, ?_, ?_, ?_, hlog⟩
  · exact hi
  · simpa [State.fork, State.goto, State.mask] using hp
  · simpa [State.fork, State.goto, State.mask] using hb.1
  · intro j hj
    have e : j = ⟨s.i, hi⟩ := Fin.ext (Nat.succ.inj hj).symm
    rw [e]
    rfl
  · intro j hj
    have hj' : j.val < s.i + 1 := hj
    by_cases e : j = ⟨s.i, hi⟩
    · subst e
      refine Or.inl ⟨?_, ?_⟩
      · rw [hnext]
        simp [State.fork, State.goto, State.mask]
      · simp [State.fork, State.goto, State.mask, hb.1]
    · have hne : j.val ≠ s.i := fun e' => e (Fin.ext e')
      refine (hch j (by omega)).congr ?_ ?_
      · simp [State.fork, State.goto, State.mask, e]
      · simp [State.fork, State.goto, State.mask, e]
  · intro j hj
    have hj' : s.i + 1 ≤ j.val := hj
    have e : j ≠ ⟨s.i, hi⟩ := by
      rintro rfl
      exact Nat.not_succ_le_self _ hj'
    have := habs j (by omega)
    simpa [State.fork, State.goto, State.mask, e] using this
  · intro p
    by_cases e : p = .child ⟨s.i, hi⟩
    · simp [State.fork, e]
    · simpa [State.fork, State.goto, State.mask, e] using hq p

/-- The first `Kill`: the ball is pending for the last child. -/
theorem play_start {h : 0 < n} {s : State n} {q : Proc n} (hS : Setup h s) (hp : s.pc .parent = .loop) (hi : ¬ s.i < n)
    (hq : s.lastPid = some q) : Play h ((s.kill q).goto .parent (.ready q)) := by
  obtain ⟨hle, hpar, hlast, hch, habs, hquiet, hlog⟩ := hS
  have hb : s.blocked .parent = true ∧ s.oldmask = false := by
    rcases hpar with ⟨hs, -⟩ | ⟨-, hb⟩
    · rw [hp] at hs
      cases hs
    · exact hb
  have hqn : q = .child ⟨n - 1, by omega⟩ := by
    have h1 := hlast ⟨n - 1, by omega⟩ (by simp only; omega)
    rw [hq] at h1
    exact Option.some.inj h1
  refine ⟨hb.2, fun p => ?_, Or.inl ⟨fun p => ?_, fun p => ?_⟩, ?_⟩
  · cases p with
    | parent =>
      refine Or.inl (Or.inl ⟨?_, hb.1⟩)
      rw [hqn]
      simp [State.goto, nextOf]
    | child j =>
      refine Or.inl ((hch j (by omega)).congr ?_ rfl)
      simp [State.goto, State.kill]
  · have e : ((s.kill q).goto .parent (.ready q)).log.length = 0 := by simp [State.goto, State.kill, hlog]
    rw [e, turn_zero h, ← hqn]
    by_cases hpq : p = q
    · simp [State.goto, State.kill, hpq]
    · simp [State.goto, State.kill, hpq, hquiet p]
  · cases p with
    | parent => simp [State.goto, Place.holds]
    | child j =>
      have hw : (s.pc (.child j)).holds = false := by
        rcases hch j (by omega) with ⟨hw, -⟩ | ⟨hw, -⟩
        · rw [hw]; rfl
        · rw [hw]; rfl
      simpa [State.goto, State.kill] using hw
  · simp [State.goto, State.kill, hlog]

/-! ## Waiting -/

/-- The state after `sigsuspend` is entered. -/
def State.suspend (s : State n) (p next : Proc n) : State n :=
  (s.goto p (.suspended next (s.blocked p))).mask p s.oldmask

/-- A process that is ready has `SIGUSR1` masked. -/
theorem Playing.of_ready {s : State n} {p q next : Proc n} (h : Playing s p q) (hr : s.pc p = .ready next) :
    next = q ∧ s.blocked p = true := by
  rcases h with (⟨h, hb⟩ | ⟨h, -⟩) | ⟨h, -⟩
  · rw [hr] at h
    exact ⟨by injection h, hb⟩
  · rw [hr] at h
    cases h
  · rw [hr] at h
    cases h

/-- A ready process enters `sigsuspend`. -/
theorem waiting_suspend {s : State n} {p q next : Proc n} (hw : Playing s p q) (hr : s.pc p = .ready next)
    (ho : s.oldmask = false) : Waiting (s.suspend p next) p q := by
  obtain ⟨rfl, hb⟩ := hw.of_ready hr
  exact Or.inr ⟨by simp [State.suspend, State.goto, State.mask, hb], by simp [State.suspend, State.mask, ho]⟩

/-- The others do not see it. -/
theorem suspend_other {s : State n} {p p' next : Proc n} (hp : p' ≠ p) :
    (s.suspend p next).pc p' = s.pc p' ∧ (s.suspend p next).blocked p' = s.blocked p' := by
  constructor
  · simp [State.suspend, State.goto, State.mask, hp]
  · simp [State.suspend, State.goto, State.mask, hp]

/-- A child enters `sigsuspend` before the first `Kill`. -/
theorem setup_suspend {h : 0 < n} {s : State n} {p next : Proc n} (hS : Setup h s) (hr : s.pc p = .ready next) :
    Setup h (s.suspend p next) := by
  obtain ⟨hle, hpar, hlast, hch, habs, hq, hlog⟩ := hS
  cases p with
  | parent =>
    rcases hpar with ⟨hs, -⟩ | ⟨hs, -⟩
    · rw [hr] at hs
      cases hs
    · rw [hr] at hs
      cases hs
  | child j =>
    have hji : j.val < s.i := by
      by_contra hge
      have := habs j (by omega)
      rw [hr] at this
      cases this
    have ho : s.oldmask = false := by
      rcases hpar with ⟨-, h0, -⟩ | ⟨-, -, ho⟩
      · omega
      · exact ho
    have hother : ∀ p', p' ≠ .child j → (s.suspend (.child j) next).pc p' = s.pc p' ∧
        (s.suspend (.child j) next).blocked p' = s.blocked p' := fun p' hp => suspend_other hp
    obtain ⟨hpp, hpb⟩ := hother .parent (child_ne_parent j).symm
    refine ⟨hle, ?_, hlast, fun k hk => ?_, fun k hk => ?_, hq, hlog⟩
    · rw [hpp, hpb]
      exact hpar
    · by_cases hkj : k = j
      · subst hkj
        exact waiting_suspend (Or.inl (hch k hk)) hr ho
      · obtain ⟨h1, h2⟩ := hother (.child k) (by simpa using hkj)
        exact (hch k hk).congr h1 h2
    · have hk' : s.i ≤ k.val := hk
      have hkj : k ≠ j := by
        rintro rfl
        omega
      rw [(hother (.child k) (by simpa using hkj)).1]
      exact habs k hk

/-- A process enters `sigsuspend` in the game. -/
theorem play_suspend {h : 0 < n} {s : State n} {p next : Proc n} (hP : Play h s) (hr : s.pc p = .ready next) :
    Play h (s.suspend p next) := by
  obtain ⟨ho, hpl, hball, hlog⟩ := hP
  have hholds : ∀ p', ((s.suspend p next).pc p').holds = (s.pc p').holds := by
    intro p'
    by_cases hp : p' = p
    · subst hp
      rw [hr]
      simp [State.suspend, State.goto, State.mask, Place.holds]
    · rw [(suspend_other hp).1]
  refine ⟨ho, fun p' => ?_, ?_, hlog⟩
  · by_cases hp : p' = p
    · subst hp
      exact Or.inl (waiting_suspend (hpl p') hr ho)
    · have hother : (s.suspend p next).pc p' = s.pc p' ∧ (s.suspend p next).blocked p' = s.blocked p' := suspend_other hp
      exact (hpl p').congr hother.1 hother.2
  · rcases hball with ⟨hpend, hh⟩ | ⟨k, hk, hpend, hh⟩
    · exact Or.inl ⟨hpend, fun p' => by rw [hholds, hh]⟩
    · exact Or.inr ⟨k, hk, hpend, fun p' => by rw [hholds, hh]⟩

/-! ## Passing the ball -/

/-- In the game a signal is handled only in `sigsuspend`: elsewhere it is masked. -/
theorem Playing.suspended {s : State n} {p q : Proc n} (h : Playing s p q) (hb : s.blocked p = false) :
    s.pc p = .suspended q true := by
  rcases h with (⟨-, h⟩ | ⟨h, -⟩) | ⟨-, h⟩
  · rw [hb] at h
    cases h
  · exact h
  · rw [hb] at h
    cases h

/-- The process that has the ball holds it. -/
theorem play_wake {h : 0 < n} {s : State n} {p next : Proc n} {saved : Bool} (hP : Play h s)
    (hs : s.pc p = .suspended next saved) (hp : s.pending p = true) (hb : s.blocked p = false) :
    Play h { (s.goto p (.holding next)).mask p saved with
      pending := Function.update s.pending p false
      log := s.log ++ [p] } := by
  obtain ⟨ho, hpl, hball, hlog⟩ := hP
  have hsus := (hpl p).suspended hb
  rw [hs] at hsus
  obtain ⟨rfl, rfl⟩ := Place.suspended.inj hsus
  rcases hball with ⟨hpend, hh⟩ | ⟨k, -, hpend, -⟩
  · have hpt : p = turn n s.log.length := by
      have := hpend p
      rw [hp] at this
      simpa using this.symm
    refine ⟨ho, fun p' => ?_, Or.inr ⟨s.log.length, by simp, fun p' => ?_, fun p' => ?_⟩, ?_⟩
    · by_cases hp' : p' = p
      · subst hp'
        exact Or.inr ⟨by simp [State.goto, State.mask], by simp [State.mask]⟩
      · exact (hpl p').congr (by simp [State.goto, State.mask, hp']) (by simp [State.goto, State.mask, hp'])
    · by_cases hp' : p' = p
      · simp [hp']
      · have := hpend p'
        rw [← hpt] at this
        simp [hp', this]
    · rw [← hpt]
      by_cases hp' : p' = p
      · simp [hp', State.goto, State.mask, Place.holds]
      · simpa [hp', State.goto, State.mask] using hh p'
    · rw [List.length_append, List.length_singleton, List.range_succ, List.map_append, ← hlog, hpt]
      rfl
  · rw [hpend p] at hp
    cases hp

/-- The ball is passed on: it is pending for the next process, for which nothing was. -/
theorem play_kill {h : 0 < n} {s : State n} {p next : Proc n} (hP : Play h s) (hs : s.pc p = .holding next) :
    s.pending next = false ∧ Play h ((s.kill next).goto p (.ready next)) := by
  obtain ⟨ho, hpl, hball, hlog⟩ := hP
  have hown : next = nextOf h p ∧ s.blocked p = true := by
    rcases hpl p with (⟨h', -⟩ | ⟨h', -⟩) | ⟨h', hb⟩
    · rw [hs] at h'
      cases h'
    · rw [hs] at h'
      cases h'
    · rw [hs] at h'
      exact ⟨Place.holding.inj h', hb⟩
  obtain ⟨rfl, hb⟩ := hown
  rcases hball with ⟨-, hh⟩ | ⟨k, hk, hpend, hh⟩
  · have := hh p
    rw [hs] at this
    cases this
  · have hpt : p = turn n k := by
      have := hh p
      rw [hs] at this
      simpa [Place.holds] using this.symm
    have hnt : nextOf h p = turn n s.log.length := by rw [hpt, nextOf_turn, hk]
    refine ⟨hpend _, ho, fun p' => ?_, Or.inl ⟨fun p' => ?_, fun p' => ?_⟩, hlog⟩
    · by_cases hp' : p' = p
      · subst hp'
        exact Or.inl (Or.inl ⟨by simp [State.goto], hb⟩)
      · exact (hpl p').congr (by simp [State.goto, State.kill, hp']) rfl
    · have hl : ((s.kill (nextOf h p)).goto p (.ready (nextOf h p))).log.length = s.log.length := rfl
      rw [hl, ← hnt]
      by_cases hp' : p' = nextOf h p
      · simp [State.goto, State.kill, hp']
      · simp [State.goto, State.kill, hp', hpend p']
    · by_cases hp' : p' = p
      · simp [State.goto, hp', Place.holds]
      · have := hh p'
        rw [← hpt] at this
        simpa [State.goto, State.kill, hp'] using this

/-! ## Every run -/

/-- Before the first `Kill` nothing is handled and nobody holds a ball. -/
theorem Setup.no_ball {h : 0 < n} {s : State n} (hS : Setup h s) (p next : Proc n) : s.pc p ≠ .holding next := by
  intro hp
  cases p with
  | parent =>
    rcases hS.parent with ⟨h', -⟩ | ⟨h', -⟩
    · rw [hp] at h'
      cases h'
    · rw [hp] at h'
      cases h'
  | child j =>
    by_cases hj : j.val < s.i
    · rcases hS.children j hj with ⟨h', -⟩ | ⟨h', -⟩
      · rw [hp] at h'
        cases h'
      · rw [hp] at h'
        cases h'
    · have := hS.absent j (by omega)
      rw [hp] at this
      cases this

/-- In the game the parent is in `play`. -/
theorem Play.started {h : 0 < n} {s : State n} (hP : Play h s) : Started s := by
  rcases hP.players .parent with (⟨h', -⟩ | ⟨h', -⟩) | ⟨h', -⟩
  · exact ⟨by rw [h']; simp, by rw [h']; simp⟩
  · exact ⟨by rw [h']; simp, by rw [h']; simp⟩
  · exact ⟨by rw [h']; simp, by rw [h']; simp⟩

/-- Every step keeps the invariant. -/
theorem inv_step {h : 0 < n} {s s' : State n} {a : Act n} (hI : Inv h s) (hs : step s a s') : Inv h s' := by
  rcases hI with hS | hP
  · cases hs with
    | mask hp => exact Or.inl (setup_mask hS hp)
    | fork next hp hi hn => exact Or.inl (setup_fork hS hp hi hn)
    | start q hp hi hq => exact Or.inr (play_start hS hp hi hq)
    | suspend p next hr => exact Or.inl (setup_suspend hS hr)
    | handle p _ hp _ =>
      rw [hS.quiet p] at hp
      cases hp
    | wake p _ _ _ hp _ =>
      rw [hS.quiet p] at hp
      cases hp
    | kill p next hk => exact absurd hk (hS.no_ball p next)
  · have hst := hP.started
    cases hs with
    | mask hp => exact absurd hp hst.1
    | fork _ hp => exact absurd hp hst.2
    | start _ hp => exact absurd hp hst.2
    | suspend p next hr => exact Or.inr (play_suspend hP hr)
    | handle p hno _ hb => exact absurd ((hP.players p).suspended hb) (hno _ _)
    | wake p next saved hsus hp hb => exact Or.inr (play_wake hP hsus hp hb)
    | kill p next hk => exact Or.inr (play_kill hP hk).2

/-- A signal is sent only to a process for which none is pending. -/
theorem kill_free {h : 0 < n} {s s' : State n} {p q : Proc n} (hI : Inv h s) (hs : step s (.kill p q) s') :
    s.pending q = false := by
  rcases hI with hS | hP
  · exact hS.quiet q
  · cases hs with
    | start _ hp => exact absurd hp hP.started.2
    | kill _ _ hk => exact (play_kill hP hk).1

/-- A signal is handled only in `sigsuspend`. -/
theorem handle_suspended {h : 0 < n} {s s' : State n} {p : Proc n} (hI : Inv h s) (hs : step s (.handle p) s') :
    ∃ next saved, s.pc p = .suspended next saved := by
  rcases hI with hS | hP
  · cases hs with
    | handle _ _ hp _ =>
      rw [hS.quiet p] at hp
      cases hp
    | wake _ next saved hsus => exact ⟨next, saved, hsus⟩
  · cases hs with
    | handle _ hno _ hb => exact absurd ((hP.players p).suspended hb) (hno _ _)
    | wake _ next saved hsus => exact ⟨next, saved, hsus⟩

/-- The parent alone has set up nothing. -/
theorem setup_init (h : 0 < n) : Setup h (main n) := by
  refine ⟨Nat.zero_le _, Or.inl ⟨rfl, rfl, rfl⟩, ?_, ?_, ?_, fun _ => rfl, rfl⟩
  · intro j hj
    cases hj
  · intro j hj
    cases hj
  · intro j _
    simp [main]

/-- The invariant holds in every reachable state. -/
theorem inv_reach (h : 0 < n) {s : State n} (hs : (cycle n).Reach s) : Inv h s := by
  have hind : (cycle n).Inductive (Inv h) := by
    refine ⟨?_, fun _ _ _ hI hst => inv_step hI hst⟩
    intro s hs
    rw [hs]
    exact Or.inl (setup_init h)
  exact hind.reach hs

/-- The number of processes with the signal pending and the number of those that hold the ball are together one. -/
theorem ball_count {s : State n} (hB : Ball s) : count id s.pending + count Place.holds s.pc = 1 := by
  rcases hB with ⟨hpend, hh⟩ | ⟨k, -, hpend, hh⟩
  · have h1 : count Place.holds s.pc = 0 := count_eq_zero_iff.mpr hh
    have h2 : (Finset.univ.filter fun p => id (s.pending p) = true) = {turn n s.log.length} := by
      ext p
      simp [hpend p]
    rw [h1, count, h2, Finset.card_singleton]
  · have h1 : count id s.pending = 0 := count_eq_zero_iff.mpr hpend
    have h2 : (Finset.univ.filter fun p => (s.pc p).holds = true) = {turn n k} := by
      ext p
      simp [hh p]
    rw [h1, count, h2, Finset.card_singleton]

/-- From the first `Kill` on one ball is pending or held; no signal is sent to a process for which one is pending, and none is handled
outside `sigsuspend`; and the ball goes from the last child to the first, to the parent, and again. -/
theorem one_ball (n : Nat) (hn : 1 ≤ n) {s : State n} (h : (cycle n).Reach s) :
    (Started s → count id s.pending + count Place.holds s.pc = 1) ∧
      (∀ p q s', step s (.kill p q) s' → s.pending q = false) ∧
      (∀ p s', step s (.handle p) s' → ∃ next saved, s.pc p = .suspended next saved) ∧
      s.log = (List.range s.log.length).map (turn n) := by
  have hI := inv_reach hn h
  refine ⟨?_, fun p q s' hst => kill_free hI hst, fun p s' hst => handle_suspended hI hst, ?_⟩
  · intro hst
    rcases hI with hS | hP
    · rcases hS.parent with ⟨h', -⟩ | ⟨h', -⟩
      · exact absurd h' hst.1
      · exact absurd h' hst.2
    · exact ball_count hP.ball
  · rcases hI with hS | hP
    · rw [hS.log]
      rfl
    · exact hP.log

example : (List.range 6).map (turn 3) = [.child 2, .child 1, .child 0, .parent, .child 2, .child 1] := by decide

/-- The witness: the parent has a child and sends the ball. -/
theorem one_ball_child : ∃ s : State 1, Started s ∧ count id s.pending + count Place.holds s.pc = 1 := by
  have h0 : (cycle 1).Reach (main 1) := Sys.Reach.init rfl
  have h1 := Sys.Reach.step _ h0 (step.mask _ rfl)
  have h2 := Sys.Reach.step _ h1 (step.fork _ .parent rfl (by decide) rfl)
  have h3 := Sys.Reach.step _ h2 (step.start _ (.child 0) rfl (by decide) rfl)
  exact ⟨_, by decide, (one_ball 1 (by decide) h3).1 (by decide)⟩

end OsLabs.Cycle
