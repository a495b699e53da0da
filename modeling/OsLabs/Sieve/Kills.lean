import OsLabs.Sieve.Runs
import Mathlib.NumberTheory.PrimeCounting

/-!
# Nobody writes into the void

A `Write` to a pipe whose read end nobody has open kills the writer. It does not happen here: who has a number to write has a reader,
because what is not written yet is missing from the stage of that reader. The filters are counted too: filter `k` has the `k`-th
prime, and in the end there is one for each prime up to `maxprime`.
-/

namespace OsLabs.Sieve

variable {N : Nat} {s : State} {maxprime : Int} {mode : Mode}

/-- The prime that a filter has. -/
def FilterPc.prime : FilterPc → Option Nat
  | .closeRead prime | .read prime | .write prime _ => some prime
  | _ => none

/-- A stage is not empty exactly for as many primes as there are. -/
theorem stage_ne_nil_iff {k : Nat} : stage N k ≠ [] ↔ k < Nat.primeCounting N := by
  have hcount : Nat.count Nat.Prime (N + 1) ≤ k ↔ N + 1 ≤ nthPrime k := Nat.count_le_iff_le_nth Nat.infinite_setOfPred_prime
  rw [ne_eq, stage_eq_nil_iff, Nat.primeCounting, Nat.primeCounting']
  omega

/-- A generator that is to write has a reader. -/
theorem Inv.gen_reader (hI : Inv N s) {n : Nat} (h : s.gen.pc = .loop n) (hn : n ≤ N) : s.Open (.rd 0) := by
  have hgen := hI.gen
  rw [h] at hgen
  obtain ⟨h2, -, hout⟩ := hgen
  refine hI.reader_of_lt (by simp [h]) (Nat.zero_le _) ?_
  rw [hout, stage_zero, List.length_range', List.length_range']
  omega

/-- Filter `k` has the `k`-th prime. -/
theorem Inv.prime_eq (hI : Inv N s) {k prime : Nat} (h : (s.filter k).pc.prime = some prime) : prime = nthPrime k := by
  have hk := hI.filter k
  have hin := hI.input_stage k
  cases hpc : (s.filter k).pc with
  | closeRead p | read p =>
    rw [hpc] at h hk
    obtain rfl := Option.some.inj h
    obtain ⟨xs, hinp, -⟩ := hk
    rw [hinp] at hin
    exact (sift_prefix_stage hin).1
  | write p num =>
    rw [hpc] at h hk
    obtain rfl := Option.some.inj h
    obtain ⟨xs, hinp, -⟩ := hk
    rw [hinp] at hin
    exact (sift_prefix_stage hin).1
  | unborn | closeIn | exit | zombie =>
    rw [hpc] at h
    cases h

/-- There are at most as many filters as primes. -/
theorem Inv.forks_le_primes (hI : Inv N s) : s.chain.pc.forks ≤ Nat.primeCounting N := by
  by_contra hlt
  have hu : (s.filter (Nat.primeCounting N)).pc ≠ .unborn := fun hu => hlt ((hI.born _).mp hu)
  have hin := hI.input_stage (Nat.primeCounting N)
  refine absurd (stage_ne_nil_iff.mp fun hnil => ?_) (Nat.lt_irrefl (Nat.primeCounting N))
  rw [hnil, List.prefix_nil] at hin
  exact (hI.filter _).input_ne_nil hu hin

/-- When all processes have ended there is a filter for each prime. -/
theorem Inv.forks_finished (hI : Inv N s) (hf : s.Finished) : s.chain.pc.forks = Nat.primeCounting N := by
  refine le_antisymm hI.forks_le_primes (not_lt.mp fun hlt => ?_)
  obtain ⟨-, -, ⟨j, hc⟩, -⟩ := hf
  have hchain := hI.chain
  rw [hc] at hchain hlt
  exact stage_ne_nil_iff.mpr hlt hchain.1

/-- In every state of every run whoever is to write to a pipe has a reader, so that no process is killed; filter `k` takes out the
multiples of the `k`-th prime, and there are never more filters than primes up to `maxprime`. When all processes have ended there was
one for each of these primes. This is for `maxprime` below `LONG_MAX`. -/
theorem nobody_killed (h : (sieve maxprime mode).Reach s) :
    (∀ n, s.gen.pc = .loop n → (n : Int) ≤ maxprime → s.Open (.rd 0)) ∧
    (∀ k prime num, (s.filter k).pc = .write prime num → s.Open (.rd (k + 1))) ∧
    (∀ k prime, (s.filter k).pc.prime = some prime → prime = nthPrime k) ∧
    s.chain.pc.forks ≤ Nat.primeCounting maxprime.toNat ∧
    ((∀ s', ¬ Step maxprime mode s s') → ∀ k, (s.filter k).pc = .zombie ↔ k < Nat.primeCounting maxprime.toNat) := by
  have hI := inv_reach h
  refine ⟨fun n hn hle => hI.gen_reader hn (by omega), fun k prime num hw => hI.filter_reader hw, fun k prime => hI.prime_eq,
    hI.forks_le_primes, fun hst k => ?_⟩
  have hf := finished_of_stuck hI hst
  rw [← hI.forks_finished hf]
  rcases hf.2.2.2 k with hk | hk
  · have hle := (hI.born k).mp hk
    rw [hk]
    exact iff_of_false (fun e => by cases e) (by omega)
  · rw [hk]
    refine iff_of_true rfl (not_le.mp fun hle => ?_)
    have hu := (hI.born k).mpr hle
    rw [hk] at hu
    cases hu

/-- A run for 5 ends with three filters. -/
theorem nobody_killed_five : ∃ s, (sieve 5 .full).Reach s ∧ ∀ k, (s.filter k).pc = .zombie ↔ k < 3 := by
  obtain ⟨s, hr, hst⟩ := exists_stuck 5 .full
  exact ⟨s, hr, (nobody_killed hr).2.2.2.2 hst⟩

end OsLabs.Sieve
