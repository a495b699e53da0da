import OsLabs.ForkSort.Correct

/-!
# The sorting program ends (`forksort.c`)

`forksort_correct` says what holds when the first process has collected its child. Here: every run in which the forks succeed comes to its
end, however the processes are scheduled and whatever `random` returns, and what is left then is the first process alone, with the table
sorted and verified.
-/

namespace OsLabs.ForkSort

/-- When the processes at the top have ended and are well formed, the first one is alone, and its postcondition holds. -/
theorem alone_of_ended {t : Nat → Int} {f : Forest Unit} {K : Kid} (he : Ended true f) (hok : ForestOk t true f [K]) :
    K.Holds t ∧ ∃ c, (c = none ∨ c = some (.ret ())) ∧ f = .node c K.lo K.hi .nil .nil := by
  cases hok with
  | run hset hown hsep hwp hkids hsibs =>
    cases hsibs
    cases he
    obtain ⟨-, rfl, -, hK⟩ := hwp
    cases hkids
    exact ⟨hK, _, Or.inr rfl, rfl⟩
  | zombie hK hsibs =>
    cases hsibs
    exact ⟨hK, _, Or.inl rfl, rfl⟩

/-- When every fork succeeds the program ends and is right: no run is infinite, however the processes are scheduled, and when no process
has a step any more, the table is a sorted permutation of what it was, all children were waited for, and the first process has ended
without a failed assertion. So no loop runs out of fuel. -/
theorem forksort_total (n : Nat) (t : Nat → Int) (ht : ∀ i, i < n → longMin ≤ t i) :
    (¬ ∃ f : Nat → World Unit, f 0 = .alone t (main n) 0 (n - 1) ∧
      ∀ i, ∃ l, (forksSucceed (main n) 0 (n - 1) t).step (f i) l (f (i + 1))) ∧
    ∀ w, (forksSucceed (main n) 0 (n - 1) t).Reach w → (∀ l w', ¬ (forksSucceed (main n) 0 (n - 1) t).step w l w') →
      (elements n w.table).Perm (elements n t) ∧ (elements n w.table).Pairwise (· ≤ ·) ∧
        ∃ c, (c = none ∨ c = some (.ret ())) ∧ w.procs = .node c 0 (n - 1) .nil .nil := by
  constructor
  · rintro ⟨f, -, hf⟩
    exact processes_end _ _ _ _ ⟨f, hf⟩
  · intro w hw hstuck
    have hok := (processes_ok (K := whole n t) (main_whole n t ht)).reach hw
    have hended : Ended true w.procs := by
      rcases main_progress n t ht w hw with he | ⟨l, w', hst⟩
      · exact he
      · exact absurd hst (hstuck l w')
    obtain ⟨hK, hprocs⟩ := alone_of_ended hended hok
    rcases Nat.eq_zero_or_pos n with rfl | hn
    · exact ⟨List.Perm.refl _, List.Pairwise.nil, hprocs⟩
    · obtain ⟨hperm, hsorted⟩ := (hK w.table (Agree.refl _ _) hn).elements hn
      exact ⟨hperm, hsorted, hprocs⟩

/-- A table that is one element too long to be sorted without a fork: some run comes to its end, and the table is sorted there. -/
theorem forksort_total_descending : ∃ w : World Unit,
    (forksSucceed (main (forksortMin + 2)) 0 (forksortMin + 1) descending).Reach w ∧
      (∀ l w', ¬ (forksSucceed (main (forksortMin + 2)) 0 (forksortMin + 1) descending).step w l w') ∧
        (elements (forksortMin + 2) w.table).Pairwise (· ≤ ·) := by
  have hmin : ∀ i, i < forksortMin + 2 → longMin ≤ descending i := by
    intro i hi
    have hle : forksortMin + 2 ≤ 2 ^ 63 := by decide
    unfold longMin descending
    omega
  obtain ⟨w, hpath, hend⟩ := exists_processes_end (main (forksortMin + 2)) 0 (forksortMin + 1) descending
    (.alone descending (main (forksortMin + 2)) 0 (forksortMin + 1))
  have hw : (forksSucceed (main (forksortMin + 2)) 0 (forksortMin + 1) descending).Reach w := (Sys.Reach.init rfl).path hpath
  exact ⟨w, hw, hend, ((forksort_total _ descending hmin).2 w hw hend).2.1⟩

end OsLabs.ForkSort
