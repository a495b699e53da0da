import Mathlib.Algebra.BigOperators.Group.Finset.Piecewise
import Mathlib.Data.Fintype.Card

/-!
# Counting processes

How many processes are at a place of their program, and how that number changes when one process moves. The invariants of
programs synchronised by counters and semaphores are equations between such numbers.
-/

namespace OsLabs

variable {ι β : Type} [Fintype ι]

/-- The number of processes whose value satisfies `p`. -/
def count (p : β → Bool) (f : ι → β) : Nat := (Finset.univ.filter fun i => p (f i) = true).card

/-- At most all processes are counted. -/
theorem count_le_card (p : β → Bool) (f : ι → β) : count p f ≤ Fintype.card ι :=
  Finset.card_filter_le _ _

/-- Some process is counted exactly when the count is positive. -/
theorem count_pos_iff {p : β → Bool} {f : ι → β} : 0 < count p f ↔ ∃ i, p (f i) = true := by
  rw [count, Finset.card_pos]
  constructor
  · rintro ⟨i, hi⟩
    exact ⟨i, (Finset.mem_filter.mp hi).2⟩
  · rintro ⟨i, hi⟩
    exact ⟨i, Finset.mem_filter.mpr ⟨Finset.mem_univ i, hi⟩⟩

/-- A process that satisfies `p` is counted. -/
theorem count_pos {p : β → Bool} {f : ι → β} (i : ι) (h : p (f i) = true) : 0 < count p f :=
  count_pos_iff.mpr ⟨i, h⟩

/-- No process is counted exactly when none satisfies `p`. -/
theorem count_eq_zero_iff {p : β → Bool} {f : ι → β} : count p f = 0 ↔ ∀ i, p (f i) = false := by
  constructor
  · intro h i
    by_contra hi
    have := count_pos (f := f) i (by simpa using hi)
    omega
  · intro h
    by_contra hc
    obtain ⟨i, hi⟩ := count_pos_iff.mp (Nat.pos_of_ne_zero hc)
    rw [h i] at hi
    cases hi

/-- Every process is counted exactly when all satisfy `p`. -/
theorem count_eq_card_iff {p : β → Bool} {f : ι → β} : count p f = Fintype.card ι ↔ ∀ i, p (f i) = true := by
  rw [count, ← Finset.card_univ, Finset.card_filter_eq_iff]
  simp

/-- Distinct processes that satisfy `p` are all counted. -/
theorem card_le_count {κ : Type} [Fintype κ] {p : β → Bool} {f : ι → β} (g : κ → ι) (hg : Function.Injective g)
    (h : ∀ k, p (f (g k)) = true) : Fintype.card κ ≤ count p f := by
  rw [count, ← Finset.card_univ, ← Finset.card_map ⟨g, hg⟩]
  refine Finset.card_le_card fun i hi => ?_
  obtain ⟨k, -, rfl⟩ := Finset.mem_map.mp hi
  exact Finset.mem_filter.mpr ⟨Finset.mem_univ _, h k⟩

/-- How a count changes when process `i` moves from `f i` to `a`. -/
theorem count_update [DecidableEq ι] (p : β → Bool) (f : ι → β) (i : ι) (a : β) :
    count p (Function.update f i a) + (p (f i)).toNat = count p f + (p a).toNat := by
  have split : ∀ g : ι → β, count p g = (p (g i)).toNat + ∑ j ∈ Finset.univ.erase i, (p (g j)).toNat := by
    intro g
    rw [Finset.add_sum_erase _ (fun j => (p (g j)).toNat) (Finset.mem_univ i), count, Finset.card_filter]
    refine Finset.sum_congr rfl fun j _ => ?_
    cases p (g j) <;> rfl
  have rest : ∑ j ∈ Finset.univ.erase i, (p (Function.update f i a j)).toNat =
      ∑ j ∈ Finset.univ.erase i, (p (f j)).toNat := by
    refine Finset.sum_congr rfl fun j hj => ?_
    rw [Function.update_of_ne (Finset.ne_of_mem_erase hj)]
  rw [split (Function.update f i a), split f, rest, Function.update_self]
  omega

end OsLabs
