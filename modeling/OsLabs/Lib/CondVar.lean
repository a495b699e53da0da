import OsLabs.Lib.Count
import Mathlib.Logic.Function.Basic

/-!
# Condition variables

A condition variable is known by two places of the threads: the one at which a thread sleeps and the one to which a signal moves it,
where the thread waits for the mutex. A signal moves one sleeper, whichever, and is lost when there is none. What signals do to the
threads is said by counting: `Signals.count` gives the number of threads at any set of places after `n` signals.
-/

namespace OsLabs

/-! ## Threads at a place -/

section Places

variable {ι β : Type} [Fintype ι] [DecidableEq β]

/-- The number of threads at the place `b`. -/
def countAt (b : β) (f : ι → β) : Nat := count (fun c => c == b) f

/-- A thread at a place is counted there. -/
theorem countAt_pos {b : β} {f : ι → β} (i : ι) (h : f i = b) : 0 < countAt b f :=
  count_pos i (by simp [h])

/-- Some thread is at a place with a positive count. -/
theorem exists_of_countAt_pos {b : β} {f : ι → β} (h : 0 < countAt b f) : ∃ i, f i = b := by
  obtain ⟨i, hi⟩ := count_pos_iff.mp h
  exact ⟨i, by simpa using hi⟩

/-- Nobody is at the place exactly when the count is zero. -/
theorem countAt_eq_zero_iff {b : β} {f : ι → β} : countAt b f = 0 ↔ ∀ i, f i ≠ b := by
  rw [countAt, count_eq_zero_iff]
  simp

/-- A place compared with itself counts one, with another place none. -/
theorem toNat_beq (d b : β) : (d == b).toNat = if d = b then 1 else 0 := by
  by_cases h : d = b
  · simp [h]
  · simp [h]

/-- How the number of threads at a place changes when one thread moves. -/
theorem countAt_update [DecidableEq ι] (b : β) (f : ι → β) (i : ι) (c : β) :
    countAt b (Function.update f i c) + (if f i = b then 1 else 0) = countAt b f + (if c = b then 1 else 0) := by
  have h := count_update (fun d => d == b) f i c
  rwa [toNat_beq, toNat_beq] at h

end Places

/-! ## Signals -/

section Signals

variable {ι β : Type} [DecidableEq ι]

/-- `pthread_cond_signal`, with the thread that it wakes: one at `asleep` moves to `woken`; without one there, nothing happens. -/
inductive SignalTo (asleep woken : β) (f : ι → β) : Option ι → (ι → β) → Prop where
  | wake (i : ι) (h : f i = asleep) : SignalTo asleep woken f (some i) (Function.update f i woken)
  | lost (h : ∀ i, f i ≠ asleep) : SignalTo asleep woken f none f

/-- `pthread_cond_signal`. -/
def Signal (asleep woken : β) (f g : ι → β) : Prop := ∃ who, SignalTo asleep woken f who g

/-- `n` signals in a row. -/
inductive Signals (asleep woken : β) : Nat → (ι → β) → (ι → β) → Prop where
  | zero (f : ι → β) : Signals asleep woken 0 f f
  | succ {n : Nat} {f g h : ι → β} (h1 : Signal asleep woken f g) (h2 : Signals asleep woken n g h) :
      Signals asleep woken (n + 1) f h

variable {a w : β} {f g : ι → β} {n : Nat}

/-- A signal may wake any sleeper. -/
theorem Signal.wake (i : ι) (h : f i = a) : Signal a w f (Function.update f i w) := ⟨some i, SignalTo.wake i h⟩

/-- A signal can always be sent. -/
theorem SignalTo.total (a w : β) (f : ι → β) : ∃ who g, SignalTo a w f who g := by
  by_cases h : ∃ i, f i = a
  · obtain ⟨i, hi⟩ := h
    exact ⟨_, _, SignalTo.wake i hi⟩
  · exact ⟨_, f, SignalTo.lost fun i hi => h ⟨i, hi⟩⟩

/-- A thread is where it was, or it slept and was woken. -/
theorem Signal.apply (h : Signal a w f g) (j : ι) : g j = f j ∨ f j = a ∧ g j = w := by
  obtain ⟨who, h⟩ := h
  cases h with
  | wake i hi =>
    by_cases hj : j = i
    · rw [hj, Function.update_self]
      exact Or.inr ⟨hi, rfl⟩
    · exact Or.inl (Function.update_of_ne hj _ _)
  | lost _ => exact Or.inl rfl

/-- So it is after several signals. -/
theorem Signals.apply (h : Signals a w n f g) (j : ι) : g j = f j ∨ f j = a ∧ g j = w := by
  induction h with
  | zero f => exact Or.inl rfl
  | succ h1 h2 ih =>
    rcases ih with ih | ⟨hg, hh⟩
    · rw [ih]
      exact h1.apply j
    · rcases h1.apply j with h1 | ⟨hf, -⟩
      · exact Or.inr ⟨h1.symm.trans hg, hh⟩
      · exact Or.inr ⟨hf, hh⟩

/-- Any number of signals can be sent. -/
theorem Signals.total (a w : β) (n : Nat) (f : ι → β) : ∃ g, Signals a w n f g := by
  induction n generalizing f with
  | zero => exact ⟨f, Signals.zero f⟩
  | succ n ih =>
    obtain ⟨who, g, h1⟩ := SignalTo.total a w f
    obtain ⟨h, h2⟩ := ih g
    exact ⟨h, Signals.succ ⟨who, h1⟩ h2⟩

variable [Fintype ι] [DecidableEq β]

/-- A signal to a place where somebody sleeps wakes somebody. -/
theorem SignalTo.wakes {who : Option ι} (h : SignalTo a w f who g) (hs : 0 < countAt a f) :
    ∃ i, who = some i ∧ f i = a ∧ g = Function.update f i w := by
  cases h with
  | wake i hi => exact ⟨i, rfl, hi, rfl⟩
  | lost hn =>
    obtain ⟨i, hi⟩ := exists_of_countAt_pos hs
    exact absurd hi (hn i)

/-- A signal to a place where nobody sleeps is lost. -/
theorem SignalTo.eq_none {who : Option ι} (h : SignalTo a w f who g) (hs : countAt a f = 0) : who = none := by
  cases h with
  | wake i hi =>
    have := countAt_pos i hi
    omega
  | lost _ => rfl

/-- A signal takes one sleeper, if there is one, out of each count of sleepers and into each count of woken threads. -/
theorem Signal.count (h : Signal a w f g) (p : β → Bool) :
    count p g + min 1 (countAt a f) * (p a).toNat = count p f + min 1 (countAt a f) * (p w).toNat := by
  obtain ⟨who, h⟩ := h
  cases h with
  | wake i hi =>
    have hu := count_update p f i w
    have hm : min 1 (countAt a f) = 1 := Nat.min_eq_left (countAt_pos i hi)
    rw [hm, Nat.one_mul, Nat.one_mul, ← hi]
    exact hu
  | lost hn =>
    have hm : countAt a f = 0 := countAt_eq_zero_iff.mpr hn
    rw [hm]
    simp

/-- `n` signals take `n` sleepers, or all there are, out of each count of sleepers and into each count of woken threads. -/
theorem Signals.count (h : Signals a w n f g) (haw : a ≠ w) (p : β → Bool) :
    count p g + min n (countAt a f) * (p a).toNat = count p f + min n (countAt a f) * (p w).toNat := by
  induction h with
  | zero f => simp
  | @succ n f g h h1 h2 ih =>
    have h3 := h1.count p
    have h4 : countAt a g + min 1 (countAt a f) = countAt a f := by
      have := h1.count fun c => c == a
      simpa [countAt, toNat_beq, haw.symm] using this
    have h5 : min (n + 1) (countAt a f) = min n (countAt a g) + min 1 (countAt a f) := by omega
    rw [h5, Nat.add_mul, Nat.add_mul]
    omega

/-- `n` signals leave `n` sleepers fewer, or none. -/
theorem Signals.countAt_asleep (h : Signals a w n f g) (haw : a ≠ w) : countAt a g = countAt a f - n := by
  have := h.count haw fun c => c == a
  simp [toNat_beq, haw.symm] at this
  unfold countAt at this ⊢
  omega

/-- `n` signals wake `n` threads, or all that sleep. -/
theorem Signals.countAt_woken (h : Signals a w n f g) (haw : a ≠ w) : countAt w g = countAt w f + min n (countAt a f) := by
  have := h.count haw fun c => c == w
  simpa [countAt, toNat_beq, haw] using this

/-- As many signals as there are sleepers wake all of them. -/
theorem Signals.wake_all (haw : a ≠ w) (hn : countAt a f ≤ n) : Signals a w n f fun i => if f i = a then w else f i := by
  obtain ⟨g, h⟩ := Signals.total a w n f
  have hzero : countAt a g = 0 := by
    rw [h.countAt_asleep haw]
    exact Nat.sub_eq_zero_of_le hn
  have hg : g = fun i => if f i = a then w else f i := by
    funext i
    rcases h.apply i with hi | ⟨hf, hi⟩
    · rw [if_neg fun hf => countAt_eq_zero_iff.mp hzero i (hi.trans hf), hi]
    · rw [if_pos hf, hi]
  exact hg ▸ h

/-- Signals leave the number of threads at any other place. -/
theorem Signals.countAt_other (h : Signals a w n f g) (haw : a ≠ w) {b : β} (ha : a ≠ b) (hw : w ≠ b) :
    countAt b g = countAt b f := by
  have := h.count haw fun c => c == b
  simpa [countAt, toNat_beq, ha, hw] using this

end Signals

end OsLabs
