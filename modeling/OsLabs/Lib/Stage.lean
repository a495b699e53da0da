import Mathlib.NumberTheory.PrimeCounting
import Mathlib.Data.List.Sort

/-!
# The stages of a sieve

`stage N k` is the list of the numbers from 2 to `N` that none of the first `k` primes divides. Its first number is the next prime, and
the multiples of that prime taken out of the rest leave the next stage; so the first numbers of the stages are the primes up to `N`.
-/

namespace OsLabs

/-- The `k`-th prime, from 2 for `k = 0`. -/
noncomputable def nthPrime (k : Nat) : Nat := Nat.nth Nat.Prime k

/-- The first `k` primes. -/
noncomputable def firstPrimes (k : Nat) : List Nat := (List.range k).map nthPrime

open Classical in
/-- The numbers from 2 to `N` that none of the first `k` primes divides, in order. -/
noncomputable def stage (N k : Nat) : List Nat := (List.range' 2 (N - 1)).filter fun n => decide (∀ i, i < k → ¬ nthPrime i ∣ n)

/-- What remains of the numbers after a prime when its multiples are taken out. -/
def sift (p : Nat) (xs : List Nat) : List Nat := xs.filter fun n => n % p != 0

theorem sift_append (p : Nat) (xs ys : List Nat) : sift p (xs ++ ys) = sift p xs ++ sift p ys := List.filter_append ..

/-- A number that is not a multiple remains. -/
theorem sift_snoc_of_ne {p n : Nat} (xs : List Nat) (h : n % p ≠ 0) : sift p (xs ++ [n]) = sift p xs ++ [n] := by
  simp [sift, h]

/-- A multiple does not. -/
theorem sift_snoc_of_eq {p n : Nat} (xs : List Nat) (h : n % p = 0) : sift p (xs ++ [n]) = sift p xs := by
  simp [sift, h]

/-- A prefix remains a prefix. -/
theorem sift_mono {p : Nat} {xs ys : List Nat} (h : xs <+: ys) : sift p xs <+: sift p ys := h.filter _

/-- Different places in the list of primes have different primes. -/
theorem nthPrime_lt {i j : Nat} : nthPrime i < nthPrime j ↔ i < j := Nat.nth_lt_nth Nat.infinite_setOfPred_prime

theorem prime_nthPrime (k : Nat) : (nthPrime k).Prime := Nat.prime_nth_prime k

theorem nthPrime_zero : nthPrime 0 = 2 := Nat.nth_prime_zero_eq_two

theorem nthPrime_one : nthPrime 1 = 3 := Nat.nth_prime_one_eq_three

/-- Fewer primes are a beginning of more. -/
theorem firstPrimes_mono {m n : Nat} (h : m ≤ n) : firstPrimes m <+: firstPrimes n := by
  obtain ⟨d, rfl⟩ := Nat.exists_eq_add_of_le h
  unfold firstPrimes
  rw [List.range_add, List.map_append]
  exact List.prefix_append _ _

theorem length_firstPrimes (k : Nat) : (firstPrimes k).length = k := by
  simp [firstPrimes]

/-- Every prime has its place. -/
theorem exists_nthPrime {p : Nat} (h : p.Prime) : ∃ k, nthPrime k = p := ⟨Nat.count Nat.Prime p, Nat.nth_count h⟩

/-- The members of a stage. -/
theorem mem_stage {N k n : Nat} : n ∈ stage N k ↔ (2 ≤ n ∧ n ≤ N) ∧ ∀ i, i < k → ¬ nthPrime i ∣ n := by
  unfold stage
  rw [List.mem_filter, List.mem_range'_1]
  constructor
  · rintro ⟨⟨h1, h2⟩, h3⟩
    exact ⟨⟨h1, by omega⟩, by simpa using h3⟩
  · rintro ⟨⟨h1, h2⟩, h3⟩
    exact ⟨⟨h1, by omega⟩, by simpa using h3⟩

/-- A stage is in increasing order. -/
theorem stage_sorted (N k : Nat) : (stage N k).Pairwise (· < ·) := List.Pairwise.filter _ List.pairwise_lt_range'

/-- A shorter range is a beginning of a longer one. -/
theorem range'_prefix {a m n : Nat} (h : m ≤ n) : List.range' a m <+: List.range' a n := by
  obtain ⟨k, rfl⟩ := Nat.exists_eq_add_of_le h
  exact ⟨List.range' (a + m) k, by simp⟩

/-- The first stage is everything. -/
theorem stage_zero (N : Nat) : stage N 0 = List.range' 2 (N - 1) := by
  unfold stage
  simp

/-- A stage has at most `N` numbers. -/
theorem length_stage_le (N k : Nat) : (stage N k).length ≤ N := by
  refine (List.length_filter_le _ _).trans ?_
  simp

/-- The `k`-th prime is in the stage `k`, if it is at most `N`. -/
theorem nthPrime_mem_stage {N k : Nat} (h : nthPrime k ≤ N) : nthPrime k ∈ stage N k := by
  refine mem_stage.mpr ⟨⟨(prime_nthPrime k).two_le, h⟩, fun i hi hd => ?_⟩
  have he := (Nat.prime_dvd_prime_iff_eq (prime_nthPrime i) (prime_nthPrime k)).mp hd
  have := nthPrime_lt.mpr hi
  omega

/-- A member of the stage `k` is at least the `k`-th prime: its least prime factor is not among the first `k` primes. -/
theorem nthPrime_le_of_mem {N k n : Nat} (h : n ∈ stage N k) : nthPrime k ≤ n := by
  obtain ⟨⟨h2, -⟩, hd⟩ := mem_stage.mp h
  obtain ⟨q, hq⟩ := exists_nthPrime (Nat.minFac_prime (show n ≠ 1 by omega))
  have hdvd : nthPrime q ∣ n := by
    rw [hq]
    exact Nat.minFac_dvd n
  have hkq : k ≤ q := by
    by_contra hlt
    exact hd q (by omega) hdvd
  have hle : nthPrime k ≤ nthPrime q := Nat.nth_monotone Nat.infinite_setOfPred_prime hkq
  have := Nat.le_of_dvd (by omega) hdvd
  omega

/-- The first number of a stage is the next prime. -/
theorem head_stage {N k p : Nat} {xs : List Nat} (h : stage N k = p :: xs) : p = nthPrime k := by
  have hmem : p ∈ stage N k := by
    rw [h]
    exact List.mem_cons_self
  have hle := nthPrime_le_of_mem hmem
  have hN := (mem_stage.mp hmem).1.2
  have hin := nthPrime_mem_stage (hle.trans hN)
  have hs := stage_sorted N k
  rw [h] at hin hs
  rcases List.mem_cons.mp hin with e | hin
  · exact e.symm
  · have := (List.pairwise_cons.mp hs).1 _ hin
    omega

/-- The next stage takes the multiples of one more prime out. -/
theorem stage_filter (N k : Nat) : stage N (k + 1) = sift (nthPrime k) (stage N k) := by
  unfold stage sift
  rw [List.filter_filter]
  refine List.filter_congr fun n _ => ?_
  rw [Bool.eq_iff_iff]
  simp only [decide_eq_true_eq, Bool.and_eq_true, bne_iff_ne, ne_eq, ← Nat.dvd_iff_mod_eq_zero]
  constructor
  · intro h
    exact ⟨h k (by omega), fun i hi => h i (by omega)⟩
  · rintro ⟨h1, h2⟩ i hi
    by_cases hik : i = k
    · rw [hik]
      exact h1
    · exact h2 i (by omega)

/-- The next stage is what remains after the first number. -/
theorem stage_succ {N k p : Nat} {xs : List Nat} (h : stage N k = p :: xs) : stage N (k + 1) = sift p xs := by
  rw [stage_filter, h, ← head_stage h]
  simp [sift]

/-- A beginning of a stage starts with its prime, and what remains of the rest is a beginning of the next stage. -/
theorem sift_prefix_stage {N k p : Nat} {xs : List Nat} (h : p :: xs <+: stage N k) :
    p = nthPrime k ∧ sift p xs <+: stage N (k + 1) := by
  obtain ⟨ys, hys⟩ := h
  have hs : stage N k = p :: (xs ++ ys) := by rw [← hys, List.cons_append]
  refine ⟨head_stage hs, ?_⟩
  rw [stage_succ hs, sift_append]
  exact List.prefix_append _ _

/-- After an empty stage all are empty. -/
theorem stage_succ_nil {N k : Nat} (h : stage N k = []) : stage N (k + 1) = [] := by
  rw [stage_filter, h]
  rfl

theorem stage_nil_of_le {N j k : Nat} (h : stage N j = []) (hjk : j ≤ k) : stage N k = [] := by
  induction k, hjk using Nat.le_induction with
  | base => exact h
  | succ k _ ih => exact stage_succ_nil ih

/-- There are fewer stages that are not empty than numbers. -/
theorem lt_of_stage_ne_nil {N k : Nat} (h : stage N k ≠ []) : k < N := by
  obtain ⟨p, xs, hp⟩ := List.exists_cons_of_ne_nil h
  have hmem : p ∈ stage N k := by
    rw [hp]
    exact List.mem_cons_self
  have hN := (mem_stage.mp hmem).1.2
  have := head_stage hp
  have hk : k + 2 ≤ nthPrime k := Nat.add_two_le_nth_prime k
  omega

/-- A stage is empty exactly when its prime is above `N`. -/
theorem stage_eq_nil_iff {N k : Nat} : stage N k = [] ↔ N < nthPrime k := by
  constructor
  · intro h
    by_contra hle
    have := nthPrime_mem_stage (show nthPrime k ≤ N by omega)
    rw [h] at this
    cases this
  · intro h
    by_contra hne
    obtain ⟨p, xs, hp⟩ := List.exists_cons_of_ne_nil hne
    have hmem : p ∈ stage N k := by
      rw [hp]
      exact List.mem_cons_self
    have := (mem_stage.mp hmem).1.2
    have := head_stage hp
    omega

/-- If the stages before an empty one are not empty, their primes are the primes up to `N`, in order. -/
theorem firstPrimes_eq {N k : Nat} (h : stage N k = []) (hk : ∀ i, i < k → stage N i ≠ []) :
    firstPrimes k = (List.range' 2 (N - 1)).filter fun n => decide n.Prime := by
  have hs1 : (firstPrimes k).Pairwise (· < ·) := by
    unfold firstPrimes
    rw [List.pairwise_map]
    exact List.pairwise_lt_range.imp fun h => nthPrime_lt.mpr h
  have hs2 : ((List.range' 2 (N - 1)).filter fun n => decide n.Prime).Pairwise (· < ·) :=
    List.Pairwise.filter _ List.pairwise_lt_range'
  refine hs1.eq_of_mem_iff hs2 fun n => ?_
  have hN := stage_eq_nil_iff.mp h
  unfold firstPrimes
  rw [List.mem_map, List.mem_filter, List.mem_range'_1]
  constructor
  · rintro ⟨i, hi, rfl⟩
    have hi := List.mem_range.mp hi
    have hle := mt stage_eq_nil_iff.mpr (hk i hi)
    have := (prime_nthPrime i).two_le
    exact ⟨⟨this, by omega⟩, by simpa using prime_nthPrime i⟩
  · rintro ⟨⟨-, hn⟩, hp⟩
    have hp : n.Prime := by simpa using hp
    obtain ⟨i, rfl⟩ := exists_nthPrime hp
    refine ⟨i, List.mem_range.mpr (nthPrime_lt.mp ?_), rfl⟩
    have := hp.two_le
    omega

end OsLabs
