import OsLabs.ForkSort.Sequential
import OsLabs.Lib.Run

/-!
# What `QuickSort` relies on (`forksort.c`)

`QuickSort` calls `Partition` with an element of the range as the pivot. When the result is the beginning of the range it swaps the
element there with the one at its own index of the pivot, and goes on with the rest; so it takes for granted that the pivot is where it
was. A swap of `Partition` puts an element below the pivot before `right`, and the next round passes it. So a run that ends where it
began has swapped nothing (`partitionLoop_moves`).
-/

namespace OsLabs.ForkSort

/-! ## `Partition` runs alone -/

theorem scanLeft_alone (right : Nat) (pivot : Int) (fuel left : Nat) : (scanLeft right pivot fuel left).Alone ∅ := by
  induction fuel generalizing left with
  | zero => trivial
  | succ fuel ih =>
    rw [scanLeft]
    split_ifs
    · intro v
      change (if v < pivot then _ else _ : Prog Nat).Alone ∅
      split_ifs
      · exact ih (left + 1)
      · trivial
    · trivial

theorem scanRight_alone (left : Nat) (pivot : Int) (fuel right : Nat) : (scanRight left pivot fuel right).Alone ∅ := by
  induction fuel generalizing right with
  | zero => trivial
  | succ fuel ih =>
    rw [scanRight]
    split_ifs
    · intro v
      change (if pivot ≤ v then _ else _ : Prog Nat).Alone ∅
      split_ifs
      · exact ih (right - 1)
      · trivial
    · trivial

theorem swapFound_alone (left right : Nat) : (swapFound left right).Alone Set.univ := by
  rw [swapFound]
  split_ifs
  · exact fun _ _ => ⟨trivial, trivial, trivial⟩
  · trivial

theorem partitionLoop_alone (pivot : Int) (fuel left right : Nat) : (partitionLoop pivot fuel left right).Alone Set.univ := by
  induction fuel generalizing left right with
  | zero => trivial
  | succ fuel ih =>
    rw [partitionLoop]
    split_ifs
    · exact ((scanLeft_alone _ _ _ _).mono (Set.empty_subset _)).bind fun l =>
        ((scanRight_alone _ _ _ _).mono (Set.empty_subset _)).bind fun r => (swapFound_alone l r).bind fun _ => ih l r
    · trivial

/-! ## What the parts do to the table -/

section Runs

variable {t t' : Nat → Int} {pivot : Int} {left right l r : Nat} {ws : List (Nat × Int)}

/-- The first scan reads, and stops at the end or at an element that is not below the pivot. -/
theorem scanLeft_run (hle : left ≤ right) (hrun : (scanLeft right pivot (right - left + 1) left).run t = some (l, t', ws)) :
    ws = [] ∧ t' = t ∧ left ≤ l ∧ l ≤ right ∧ (l < right → pivot ≤ t l) := by
  have hwp : wp (scanLeft right pivot (right - left + 1) left) Set.univ t []
      fun x _ h _ => h = t ∧ ∃ l, x = some l ∧ left ≤ l ∧ l ≤ right ∧ (l < right → pivot ≤ t l) :=
    scanLeft_wp _ left (Set.subset_univ _) hle (Nat.lt_succ_self _) fun l h1 h2 _ hstop => ⟨rfl, l, rfl, h1, h2, hstop⟩
  obtain ⟨ht, x, hx, hrest⟩ := wp_post (scanLeft_alone _ _ _ _) hwp hrun
  obtain rfl : l = x := Option.some_inj.mp hx
  exact ⟨(scanLeft_alone _ _ _ _).readOnly hrun, ht, hrest⟩

/-- So does the second, at an element below the pivot. -/
theorem scanRight_run (hle : left ≤ right) (hrun : (scanRight left pivot (right - left + 1) right).run t = some (r, t', ws)) :
    ws = [] ∧ t' = t ∧ left ≤ r ∧ r ≤ right ∧ (left < r → t r < pivot) := by
  have hwp : wp (scanRight left pivot (right - left + 1) right) Set.univ t []
      fun x _ h _ => h = t ∧ ∃ r, x = some r ∧ left ≤ r ∧ r ≤ right ∧ (left < r → t r < pivot) :=
    scanRight_wp _ right (Set.subset_univ _) hle (Nat.lt_succ_self _) fun r h1 h2 _ hstop => ⟨rfl, r, rfl, h1, h2, hstop⟩
  obtain ⟨ht, x, hx, hrest⟩ := wp_post (scanRight_alone _ _ _ _) hwp hrun
  obtain rfl : r = x := Option.some_inj.mp hx
  exact ⟨(scanRight_alone _ _ _ _).readOnly hrun, ht, hrest⟩

/-- The block that swaps: nothing, or the element at `right` is at `left` afterwards. -/
theorem swapFound_run {u : Unit} (hrun : (swapFound left right).run t = some (u, t', ws)) :
    (left < right ∧ t' left = t right) ∨ ¬ left < right ∧ t' = t ∧ ws = [] := by
  rw [swapFound] at hrun
  by_cases hlt : left < right
  · rw [if_pos hlt] at hrun
    have hwp : wp (swapElem left right) Set.univ t []
        fun _ _ h _ => h = Function.update (Function.update t left (t right)) right (t left) :=
      swapElem_wp trivial trivial rfl
    have halone : (swapElem left right).Alone Set.univ := fun _ _ => ⟨trivial, trivial, trivial⟩
    refine Or.inl ⟨hlt, ?_⟩
    rw [wp_post halone hwp hrun, Function.update_of_ne (Nat.ne_of_lt hlt), Function.update_self]
  · rw [if_neg hlt] at hrun
    cases hrun
    exact Or.inr ⟨hlt, rfl, rfl⟩

/-- The outer loop does not go back. It goes on from `left` when the element there is below the pivot, and when it writes at all: after a
swap the element at `left` is below the pivot. By induction on the rounds. -/
theorem partitionLoop_moves {s : Nat} (fuel : Nat) (hle : left ≤ right)
    (hrun : (partitionLoop pivot fuel left right).run t = some (s, t', ws)) :
    left ≤ s ∧ (left < right → t left < pivot → left < s) ∧ (ws ≠ [] → left < s) := by
  induction fuel generalizing left right t ws with
  | zero => cases hrun
  | succ fuel ih =>
    rw [partitionLoop] at hrun
    by_cases hlt : left < right
    · rw [if_pos hlt] at hrun
      obtain ⟨l, t₁, ws₁, _, hl, hrun₁, rfl⟩ := Prog.run_bind hrun
      obtain ⟨rfl, rfl, hll, hlr, hstop⟩ := scanLeft_run hle hl
      obtain ⟨r, t₂, ws₂, _, hr, hrun₂, rfl⟩ := Prog.run_bind hrun₁
      obtain ⟨rfl, rfl, hlr', -, hstop'⟩ := scanRight_run hlr hr
      obtain ⟨u, t₃, ws₃, ws₄, hs, hrun₃, rfl⟩ := Prog.run_bind hrun₂
      obtain ⟨hback, hmoves, hwrites⟩ := ih hlr' hrun₃
      refine ⟨hll.trans hback, fun _ hlow => ?_, fun hne => ?_⟩
      · rcases Nat.eq_or_lt_of_le hll with rfl | hmoved
        · exact absurd (hstop hlt) (not_le.mpr hlow)
        · exact hmoved.trans_le hback
      · rcases Nat.eq_or_lt_of_le hll with rfl | hmoved
        · rcases swapFound_run hs with ⟨hswap, hval⟩ | ⟨-, rfl, rfl⟩
          · exact hmoves hswap (hval ▸ hstop' hswap)
          · exact hwrites hne
        · exact hmoved.trans_le hback
    · rw [if_neg hlt] at hrun
      cases hrun
      exact ⟨le_rfl, fun h => absurd h hlt, fun h => absurd rfl h⟩

end Runs

/-- What `QuickSort` expects of a run of `Partition` with the result `s`, the table `t'` and the writes `ws`: the range is permuted and
nothing else changes, the elements before `s` are below the pivot and those from `s` on are not. If `s` is the beginning nothing was
swapped, and an index that held the pivot holds the minimum of the range. -/
structure Contract (t : Nat → Int) (begin end' : Nat) (pivot : Int) (s : Nat) (t' : Nat → Int) (ws : List (Nat × Int)) : Prop where
  begin_le : begin ≤ s
  le_end : s ≤ end'
  perm : Permuted begin end' t t'
  frame : ∀ i, i < begin ∨ end' < i → t' i = t i
  low : ∀ i, begin ≤ i → i < s → t' i < pivot
  high : ∀ i, s ≤ i → i ≤ end' → pivot ≤ t' i
  unmoved : s = begin → ws = []
  minimum : s = begin → ∀ p, begin ≤ p → p ≤ end' → t p = pivot → t' p = pivot ∧ ∀ i, begin ≤ i → i ≤ end' → t' p ≤ t' i

/-- `Partition` with a pivot that occurs in the range ends and keeps its contract. -/
theorem partition_contract (t : Nat → Int) (begin end' : Nat) (pivot : Int) (hle : begin ≤ end')
    (hpivot : ∃ p, begin ≤ p ∧ p ≤ end' ∧ t p = pivot) :
    ∃ s t' ws, (partition begin end' pivot).run t = some (s, t', ws) ∧ Contract t begin end' pivot s t' ws := by
  obtain ⟨p, hp1, hp2, hpv⟩ := hpivot
  have hwp : wp (partition begin end' pivot) Set.univ t []
      fun x _ h _ => ∃ s, x = some s ∧ Partitioned begin end' pivot t h s s :=
    partition_wp hle (Set.subset_univ _) ⟨hp1, hp2⟩ hpv.ge fun s h hpart => ⟨s, rfl, hpart⟩
  obtain ⟨s, t', ws, hrun, s', hs', hpart⟩ := wp_run (partitionLoop_alone _ _ _ _) hwp
  obtain rfl : s = s' := Option.some_inj.mp hs'
  refine ⟨s, t', ws, hrun, hpart.begin_le, hpart.le_end, hpart.perm, fun i hi => ?_, hpart.low, hpart.meets, fun hs => ?_,
    fun hs q hq1 hq2 hqv => ?_⟩
  · refine hpart.frame i fun hin => ?_
    rcases hi with hi | hi
    · exact absurd hin.1 (not_le.mpr hi)
    · exact absurd hin.2 (not_le.mpr hi)
  · by_contra hne
    obtain ⟨-, -, hwrites⟩ := partitionLoop_moves _ hle hrun
    exact absurd (hwrites hne) (hs ▸ lt_irrefl _)
  · -- nothing was moved
    have hsame : t' q = pivot := by
      rcases hpart.unmoved hs with h | ⟨hlt, -⟩
      · rw [h, hqv]
      · exact absurd hlt (lt_irrefl _)
    exact ⟨hsame, fun i h1 h2 => hsame.symm ▸ hpart.meets i (hs ▸ h1) h2⟩

/-- The witness: three elements with the pivot in the middle. -/
theorem partition_contract_three : 0 ≤ 2 ∧ (∃ p, 0 ≤ p ∧ p ≤ 2 ∧ (fun i : Nat => (i : Int)) p = 1) ∧
    ∃ s t' ws, (partition 0 2 1).run (fun i => i) = some (s, t', ws) ∧ Contract (fun i => i) 0 2 1 s t' ws :=
  ⟨by decide, ⟨1, by decide, by decide, rfl⟩,
    partition_contract (fun i => i) 0 2 1 (by decide) ⟨1, by decide, by decide, rfl⟩⟩

end OsLabs.ForkSort
