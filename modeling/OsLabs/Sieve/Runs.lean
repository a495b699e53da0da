import OsLabs.Sieve.Invariant
import Mathlib.Algebra.Order.BigOperators.Group.Finset

/-!
# Every run of the pipeline ends, with the primes printed

A step never takes a process back, so a number that says how far they all are grows with each step; the numbers that are read bound it.
Where no process has a step, nobody has the write end of pipe 0 open, so filter 0 is not waiting for it; and if filter `k` is not
there any more then nobody has the write end of pipe `k + 1` open. So the end of file comes to every stage and all processes have
ended (`finished_of_stuck`); what they have read and printed then is what the invariant says of their last places.
-/

namespace OsLabs.Sieve

variable {N : Nat} {s s' : State} {maxprime : Int} {mode : Mode}

/-! ## How far a run is -/

/-- How far `main` is. -/
def MainPc.rank : MainPc → Nat
  | .makePipe => 0
  | .forkGen => 1
  | .closeWrite => 2
  | .forkChain => 3
  | .closeRead => 4
  | .wait n => 7 - n
  | .ended => 8

/-- How far the generator is. -/
def GenPc.rank (N : Nat) : GenPc → Nat
  | .unborn => 0
  | .closeRead => 1
  | .loop n => n
  | .exit => N + 3
  | .zombie => N + 4
  | .reaped => N + 5

/-- How far `filter_chain` is: each of its calls has seven places. -/
def ChainPc.rank : ChainPc → Nat
  | .unborn => 0
  | .read j => 7 * j + 1
  | .print j _ | .exit j => 7 * j + 2
  | .makePipe j _ | .zombie j => 7 * j + 3
  | .fork j _ | .reaped j => 7 * j + 4
  | .closeWrite j => 7 * j + 5
  | .closeRead j => 7 * j + 6

/-- How far a filter is, after so many numbers have been read from its pipe. -/
def FilterPc.rank (N len : Nat) : FilterPc → Nat
  | .unborn => 0
  | .closeRead _ => 1
  | .write _ _ => 2 * len + 1
  | .read _ => 2 * len + 2
  | .closeIn => 2 * N + 3
  | .exit => 2 * N + 4
  | .zombie => 2 * N + 5

/-- How far filter `k` is. -/
def State.filterRank (N : Nat) (s : State) (k : Nat) : Nat := (s.filter k).pc.rank N (s.input k).length

/-- How far the run is. -/
def progress (N : Nat) (s : State) : Nat :=
  s.main.pc.rank + s.gen.pc.rank N + s.chain.pc.rank + ∑ k ∈ Finset.range N, s.filterRank N k

/-- The run is farther when no process is back and one of them is farther. -/
theorem progress_lt (hm : s.main.pc.rank ≤ s'.main.pc.rank) (hg : s.gen.pc.rank N ≤ s'.gen.pc.rank N)
    (hc : s.chain.pc.rank ≤ s'.chain.pc.rank) (hf : ∀ k, s.filterRank N k ≤ s'.filterRank N k)
    (h : s.main.pc.rank < s'.main.pc.rank ∨ s.gen.pc.rank N < s'.gen.pc.rank N ∨ s.chain.pc.rank < s'.chain.pc.rank ∨
      ∃ k, k < N ∧ s.filterRank N k < s'.filterRank N k) : progress N s < progress N s' := by
  have hsum : ∑ k ∈ Finset.range N, s.filterRank N k ≤ ∑ k ∈ Finset.range N, s'.filterRank N k :=
    Finset.sum_le_sum fun k _ => hf k
  unfold progress
  rcases h with h | h | h | ⟨k, hk, h⟩
  · omega
  · omega
  · omega
  · have := Finset.sum_lt_sum (fun i _ => hf i) ⟨k, Finset.mem_range.mpr hk, h⟩
    omega

/-- More numbers read do not take a filter back. -/
theorem FilterPc.rank_mono (pc : FilterPc) {m n : Nat} (h : m ≤ n) : pc.rank N m ≤ pc.rank N n := by
  cases pc <;> simp [FilterPc.rank] <;> omega

/-- No filter is back after a step of the others that reads from at most one pipe. -/
theorem filterRank_le_read (j n : Nat) {t : State} (hf : t.filter = s.filter)
    (hin : t.input = Function.update s.input j (s.input j ++ [n])) (k : Nat) : s.filterRank N k ≤ t.filterRank N k := by
  unfold State.filterRank
  rw [hf, hin]
  refine FilterPc.rank_mono _ ?_
  by_cases hk : k = j
  · rw [hk, Function.update_self, List.length_append]
    exact Nat.le_add_right _ _
  · rw [Function.update_of_ne hk]

/-- A filter that has moved to a place farther on is farther. -/
theorem filterRank_lt_set {k : Nat} {p : Proc FilterPc} {t : State} (hf : t.filter = Function.update s.filter k p)
    (h : s.filterRank N k < p.pc.rank N (t.input k).length) : s.filterRank N k < t.filterRank N k := by
  have hk : t.filterRank N k = p.pc.rank N (t.input k).length := by
    unfold State.filterRank
    rw [hf, Function.update_self]
  rw [hk]
  exact h

/-- The other filters are where they were. -/
theorem filterRank_le_set {k : Nat} {p : Proc FilterPc} {t : State} (hf : t.filter = Function.update s.filter k p)
    (hin : ∀ i, i ≠ k → t.input i = s.input i) (h : s.filterRank N k < p.pc.rank N (t.input k).length) (i : Nat) :
    s.filterRank N i ≤ t.filterRank N i := by
  by_cases hi : i = k
  · rw [hi]
    exact (filterRank_lt_set hf h).le
  · unfold State.filterRank
    rw [hf, Function.update_of_ne hi, hin i hi]

/-- At most `N` numbers are read from a pipe. -/
theorem Inv.length_input_le (hI : Inv N s) (k : Nat) : (s.input k).length ≤ N :=
  (hI.input_stage k).length_le.trans (length_stage_le N k)

/-- The filters that were forked have a stage that is not empty, so there are at most `N`. -/
theorem Inv.lt_of_born (hI : Inv N s) {k : Nat} (h : (s.filter k).pc ≠ .unborn) : k < N := by
  have hne := (hI.filter k).input_ne_nil h
  refine lt_of_stage_ne_nil fun hnil => hne ?_
  have hin := hI.input_stage k
  rwa [hnil, List.prefix_nil] at hin

/-- `filter_chain` has forked at most `N` filters. -/
theorem Inv.forks_le (hI : Inv N s) : s.chain.pc.forks ≤ N := by
  by_contra h
  have hu : (s.filter N).pc ≠ .unborn := by
    intro hu
    have := (hI.born N).mp hu
    omega
  exact Nat.lt_irrefl N (hI.lt_of_born hu)

/-- A step of `main` is progress, and so is what a child of it does with that. -/
theorem progress_main (hm : s.main.pc.rank < s'.main.pc.rank) (hg : s.gen.pc.rank N ≤ s'.gen.pc.rank N)
    (hc : s.chain.pc.rank ≤ s'.chain.pc.rank) (hf : s'.filter = s.filter) (hi : s'.input = s.input) : progress N s < progress N s' := by
  refine progress_lt hm.le hg hc (fun k => ?_) (Or.inl hm)
  unfold State.filterRank
  rw [hf, hi]

/-- A step of the generator is progress. -/
theorem progress_gen (hg : s.gen.pc.rank N < s'.gen.pc.rank N) (hm : s'.main = s.main) (hc : s'.chain = s.chain)
    (hf : s'.filter = s.filter) (hi : s'.input = s.input) : progress N s < progress N s' := by
  refine progress_lt (by rw [hm]) hg.le (by rw [hc]) (fun k => ?_) (Or.inr (Or.inl hg))
  unfold State.filterRank
  rw [hf, hi]

/-- A step of `filter_chain` is progress. -/
theorem progress_chain (hc : s.chain.pc.rank < s'.chain.pc.rank) (hm : s'.main = s.main) (hg : s'.gen = s.gen)
    (hf : ∀ k, s.filterRank N k ≤ s'.filterRank N k) : progress N s < progress N s' :=
  progress_lt (by rw [hm]) (by rw [hg]) hc.le hf (Or.inr (Or.inr (Or.inl hc)))

/-- A step of a filter is progress. -/
theorem progress_filter {k : Nat} {p : Proc FilterPc} (hk : k < N) (hf : s'.filter = Function.update s.filter k p)
    (h : s.filterRank N k < p.pc.rank N (s'.input k).length) (hi : ∀ i, i ≠ k → s'.input i = s.input i) (hm : s'.main = s.main)
    (hg : s'.gen = s.gen) (hc : s'.chain = s.chain) : progress N s < progress N s' :=
  progress_lt (by rw [hm]) (by rw [hg]) (by rw [hc]) (filterRank_le_set hf hi h)
    (Or.inr (Or.inr (Or.inr ⟨k, hk, filterRank_lt_set hf h⟩)))

/-- Every step is progress. -/
theorem progress_step (hI : Inv maxprime.toNat s) (hs : Step maxprime mode s s') :
    progress maxprime.toNat s < progress maxprime.toNat s' := by
  have hmain := hI.main
  have hgen := hI.gen
  cases hs with
  | mainPipe h | mainCloseWrite h | mainExit h =>
    exact progress_main (by simp [h, Proc.close, unborn, MainPc.rank]) le_rfl le_rfl rfl rfl
  | forkGen h =>
    rw [h] at hmain
    exact progress_main (by simp [h, MainPc.rank]) (by simp [hmain.1, GenPc.rank]) le_rfl rfl rfl
  | forkChain h =>
    rw [h] at hmain
    exact progress_main (by simp [h, MainPc.rank]) le_rfl (by simp [hmain.2.1, ChainPc.rank]) rfl rfl
  | mainCloseRead h => exact progress_main (by simp [h, Proc.close, MainPc.rank]) le_rfl le_rfl rfl rfl
  | @waitGen n h hz =>
    rw [h] at hmain
    have hn := hmain.2.2
    refine progress_main ?_ (by simp [hz, GenPc.rank]) le_rfl rfl rfl
    simp only [h, MainPc.rank]
    omega
  | @waitChain n j h hz =>
    rw [h] at hmain
    have hn := hmain.2.2
    refine progress_main ?_ le_rfl (by simp [hz, ChainPc.rank]) rfl rfl
    simp only [h, MainPc.rank]
    omega
  | genCloseRead h => exact progress_gen (by simp [h, Proc.close, GenPc.rank]) rfl rfl rfl rfl
  | genWrite h hn hr => exact progress_gen (by simp [h, GenPc.rank]) rfl rfl rfl rfl
  | genKilled h hn hr =>
    rw [h] at hgen
    refine progress_gen ?_ rfl rfl rfl rfl
    have hb := hgen.2.1
    simp only [h, unborn, GenPc.rank]
    omega
  | genDone h hn =>
    rw [h] at hgen
    refine progress_gen ?_ rfl rfl rfl rfl
    have hb := hgen.2.1
    simp only [h, GenPc.rank]
    omega
  | genExit h => exact progress_gen (by simp [h, unborn, GenPc.rank]) rfl rfl rfl rfl
  | @chainRead j n rest h hp =>
    exact progress_chain (by simp [h, ChainPc.rank]) rfl rfl (filterRank_le_read j n rfl rfl)
  | chainEof h hp hw => exact progress_chain (by simp [h, ChainPc.rank]) rfl rfl (fun _ => le_rfl)
  | chainPrint h => exact progress_chain (by simp [h, ChainPc.rank]) rfl rfl (fun _ => le_rfl)
  | chainPipe h => exact progress_chain (by simp [h, ChainPc.rank]) rfl rfl (fun _ => le_rfl)
  | @chainFork j prime h =>
    have hu : (s.filter j).pc = .unborn := (hI.born j).mpr (by rw [h]; exact le_rfl)
    refine progress_chain (by simp [h, ChainPc.rank]) rfl rfl (fun i => ?_)
    have hlt : s.filterRank maxprime.toNat j < FilterPc.rank maxprime.toNat (s.input j).length (.closeRead prime) := by
      simp [State.filterRank, hu, FilterPc.rank]
    apply filterRank_le_set (k := j) (p := ⟨.closeRead prime, s.chain.fds, s.chain.buf⟩)
    · rfl
    · exact fun _ _ => rfl
    · exact hlt
  | chainCloseWrite h => exact progress_chain (by simp [h, Proc.close, ChainPc.rank]) rfl rfl (fun _ => le_rfl)
  | chainCloseRead h =>
    refine progress_chain ?_ rfl rfl (fun _ => le_rfl)
    simp only [h, Proc.close, ChainPc.rank]
    omega
  | chainExit h => exact progress_chain (by simp [h, unborn, ChainPc.rank]) rfl rfl (fun _ => le_rfl)
  | @filterCloseRead k prime h =>
    refine progress_filter (hI.lt_of_born (by simp [h])) rfl ?_ (fun _ _ => rfl) rfl rfl rfl
    simp [State.filterRank, h, Proc.close, FilterPc.rank]
  | @filterRead k prime n rest h hp =>
    refine progress_filter (hI.lt_of_born (by simp [h])) rfl ?_ (fun _ hi => Function.update_of_ne hi _ _) rfl rfl rfl
    simp only [State.filterRank, h, Function.update_self, List.length_append, List.length_singleton]
    split <;> simp only [FilterPc.rank] <;> omega
  | @filterEof k prime h hp hw =>
    have hlen := hI.length_input_le k
    refine progress_filter (hI.lt_of_born (by simp [h])) rfl ?_ (fun _ _ => rfl) rfl rfl rfl
    simp only [State.filterRank, h, FilterPc.rank]
    omega
  | @filterWrite k prime num h hr =>
    refine progress_filter (hI.lt_of_born (by simp [h])) rfl ?_ (fun _ _ => rfl) rfl rfl rfl
    simp [State.filterRank, h, FilterPc.rank]
  | @filterKilled k prime num h hr =>
    have hlen := hI.length_input_le k
    refine progress_filter (hI.lt_of_born (by simp [h])) rfl ?_ (fun _ _ => rfl) rfl rfl rfl
    simp only [State.filterRank, h, unborn, FilterPc.rank]
    omega
  | @filterCloseIn k fds h hcl =>
    refine progress_filter (hI.lt_of_born (by simp [h])) rfl ?_ (fun _ _ => rfl) rfl rfl rfl
    simp [State.filterRank, h, FilterPc.rank]
  | @filterExit k h =>
    refine progress_filter (hI.lt_of_born (by simp [h])) rfl ?_ (fun _ _ => rfl) rfl rfl rfl
    simp [State.filterRank, h, unborn, FilterPc.rank]

/-- How far a run can get. -/
theorem progress_le (hI : Inv N s) : progress N s ≤ 8 + (N + 5) + (7 * N + 7) + N * (2 * N + 5) := by
  have hm : s.main.pc.rank ≤ 8 := by
    cases s.main.pc <;> simp [MainPc.rank]
    omega
  have hg : s.gen.pc.rank N ≤ N + 5 := by
    have h := hI.gen
    cases hpc : s.gen.pc with
    | loop n =>
      rw [hpc] at h
      have hb := h.2.1
      simp only [GenPc.rank]
      omega
    | unborn | closeRead | exit | zombie | reaped => simp [GenPc.rank]
  have hc : s.chain.pc.rank ≤ 7 * N + 7 := by
    have h := hI.forks_le
    cases hpc : s.chain.pc <;> simp only [hpc, ChainPc.forks] at h <;> simp only [ChainPc.rank] <;> omega
  have hf : ∑ k ∈ Finset.range N, s.filterRank N k ≤ N * (2 * N + 5) := by
    refine (Finset.sum_le_card_nsmul _ _ (2 * N + 5) ?_).trans (by simp)
    intro k _
    have hlen := hI.length_input_le k
    unfold State.filterRank
    cases (s.filter k).pc <;> simp only [FilterPc.rank] <;> omega
  unfold progress
  omega

/-- Some run comes to a state without a step. -/
theorem exists_stuck (maxprime : Int) (mode : Mode) :
    ∃ s, (sieve maxprime mode).Reach s ∧ ∀ s', ¬ Step maxprime mode s s' := by
  obtain ⟨s, hpath, hend⟩ := (inv_inductive maxprime mode).exists_end (μ := progress maxprime.toNat)
    (fun _ _ _ hI hs => progress_step hI hs) (fun _ hI => progress_le hI) (inv_start _)
  exact ⟨s, (Sys.Reach.init rfl).path hpath, fun s' hs => hend () s' hs⟩

/-! ## Where no process has a step -/

/-- All processes have ended, and `main` has waited for its children. -/
def State.Finished (s : State) : Prop :=
  s.main.pc = .ended ∧ s.gen.pc = .reaped ∧ (∃ j, s.chain.pc = .reaped j) ∧ ∀ k, (s.filter k).pc = .unborn ∨ (s.filter k).pc = .zombie

/-- Without a step, `main` waits for a child or has ended. -/
theorem main_of_stuck (hst : ∀ s', ¬ Step maxprime mode s s') : s.main.pc = .ended ∨ ∃ n, s.main.pc = .wait (n + 1) := by
  cases h : s.main.pc with
  | makePipe => exact absurd (StepIn.mainPipe h) (hst _)
  | forkGen => exact absurd (StepIn.forkGen h) (hst _)
  | closeWrite => exact absurd (StepIn.mainCloseWrite h) (hst _)
  | forkChain => exact absurd (StepIn.forkChain h) (hst _)
  | closeRead => exact absurd (StepIn.mainCloseRead h) (hst _)
  | ended => exact Or.inl rfl
  | wait n =>
    cases n with
    | zero => exact absurd (StepIn.mainExit h) (hst _)
    | succ n => exact Or.inr ⟨n, rfl⟩

/-- Without a step, the generator is not there yet or has ended. -/
theorem gen_of_stuck (hst : ∀ s', ¬ Step maxprime mode s s') :
    s.gen.pc = .unborn ∨ s.gen.pc = .zombie ∨ s.gen.pc = .reaped := by
  cases h : s.gen.pc with
  | unborn => exact Or.inl rfl
  | closeRead => exact absurd (StepIn.genCloseRead h) (hst _)
  | loop n =>
    by_cases hn : (n : Int) ≤ maxprime
    · by_cases hr : s.Open (.rd 0)
      · exact absurd (StepIn.genWrite h hn hr) (hst _)
      · exact absurd (StepIn.genKilled h hn hr) (hst _)
    · exact absurd (StepIn.genDone h (by omega)) (hst _)
  | exit => exact absurd (StepIn.genExit h) (hst _)
  | zombie => exact Or.inr (Or.inl rfl)
  | reaped => exact Or.inr (Or.inr rfl)

/-- Without a step, `filter_chain` is not there yet, waits for a number that somebody may still write, or has ended. -/
theorem chain_of_stuck (hst : ∀ s', ¬ Step maxprime mode s s') :
    s.chain.pc = .unborn ∨ (∃ j, s.chain.pc = .read j ∧ s.Open (.wr j)) ∨ ∃ j, s.chain.pc = .zombie j ∨ s.chain.pc = .reaped j := by
  cases h : s.chain.pc with
  | unborn => exact Or.inl rfl
  | read j =>
    cases hp : s.pipe j with
    | nil =>
      by_cases hw : s.Open (.wr j)
      · exact Or.inr (Or.inl ⟨j, rfl, hw⟩)
      · exact absurd (StepIn.chainEof h hp hw) (hst _)
    | cons n rest => exact absurd (StepIn.chainRead h hp) (hst _)
  | print j prime => exact absurd (StepIn.chainPrint h) (hst _)
  | makePipe j prime => exact absurd (StepIn.chainPipe h) (hst _)
  | fork j prime => exact absurd (StepIn.chainFork h) (hst _)
  | closeWrite j => exact absurd (StepIn.chainCloseWrite h) (hst _)
  | closeRead j => exact absurd (StepIn.chainCloseRead h) (hst _)
  | exit j => exact absurd (StepIn.chainExit h) (hst _)
  | zombie j => exact Or.inr (Or.inr ⟨j, Or.inl rfl⟩)
  | reaped j => exact Or.inr (Or.inr ⟨j, Or.inr rfl⟩)

/-- Without a step, a filter is not there yet, waits for a number that somebody may still write, or has ended. -/
theorem filter_of_stuck (hst : ∀ s', ¬ Step maxprime mode s s') (k : Nat) :
    (s.filter k).pc = .unborn ∨ s.Open (.wr k) ∨ (s.filter k).pc = .zombie := by
  cases h : (s.filter k).pc with
  | unborn => exact Or.inl rfl
  | closeRead prime => exact absurd (StepIn.filterCloseRead h) (hst _)
  | read prime =>
    cases hp : s.pipe k with
    | nil =>
      by_cases hw : s.Open (.wr k)
      · exact Or.inr (Or.inl hw)
      · exact absurd (StepIn.filterEof h hp hw) (hst _)
    | cons n rest => exact absurd (StepIn.filterRead h hp) (hst _)
  | write prime num =>
    by_cases hr : s.Open (.rd (k + 1))
    · exact absurd (StepIn.filterWrite h hr) (hst _)
    · exact absurd (StepIn.filterKilled h hr) (hst _)
  | closeIn => exact absurd (StepIn.filterCloseIn h (Or.inl rfl)) (hst _)
  | exit => exact absurd (StepIn.filterExit h) (hst _)
  | zombie => exact Or.inr (Or.inr rfl)

/-- Without a step, only a filter can have the write end of a pipe open: that of the pipe after its own. -/
theorem writer_of_stuck (hI : Inv N s) (hst : ∀ s', ¬ Step maxprime mode s s') {j : Nat} (hw : s.Open (.wr j)) :
    ∃ k, j = k + 1 ∧ (s.filter k).pc ≠ .unborn ∧ (s.filter k).pc ≠ .zombie := by
  rcases hw with hw | hw | hw | ⟨k, hw⟩
  · rw [hI.ends.main] at hw
    rcases main_of_stuck hst with h | ⟨n, h⟩
    · simp [h, MainPc.fds] at hw
    · simp [h, MainPc.fds] at hw
  · rw [hI.ends.gen] at hw
    rcases gen_of_stuck hst with h | h | h
    · simp [h, GenPc.fds] at hw
    · simp [h, GenPc.fds] at hw
    · simp [h, GenPc.fds] at hw
  · rw [hI.ends.chain] at hw
    rcases chain_of_stuck hst with h | ⟨i, h, -⟩ | ⟨i, h | h⟩
    · simp [h, ChainPc.fds] at hw
    · simp [h, ChainPc.fds] at hw
    · simp [h, ChainPc.fds] at hw
    · simp [h, ChainPc.fds] at hw
  · have hmem := hI.ends.sub k hw
    refine ⟨k, ?_, ?_, ?_⟩
    · cases h : (s.filter k).pc <;> simp [h, FilterPc.fds] at hmem <;> exact hmem
    · intro h
      simp [h, FilterPc.fds] at hmem
    · intro h
      simp [h, FilterPc.fds] at hmem

/-- Without a step, nobody can write to any pipe: by induction on the pipes, since the writer of a pipe waits for the one before. -/
theorem no_writer_of_stuck (hI : Inv N s) (hst : ∀ s', ¬ Step maxprime mode s s') (j : Nat) : ¬ s.Open (.wr j) := by
  induction j with
  | zero =>
    intro hw
    obtain ⟨k, hk, -⟩ := writer_of_stuck hI hst hw
    cases hk
  | succ j ih =>
    intro hw
    obtain ⟨k, hk, hu, hz⟩ := writer_of_stuck hI hst hw
    have hkj : k = j := by omega
    rw [hkj] at hu hz
    rcases filter_of_stuck hst j with h | h | h
    · exact hu h
    · exact ih h
    · exact hz h

/-- Without a step, every process has ended. -/
theorem finished_of_stuck (hI : Inv N s) (hst : ∀ s', ¬ Step maxprime mode s s') : s.Finished := by
  have hnw := no_writer_of_stuck hI hst
  have hmain := hI.main
  have hborn : s.gen.pc ≠ .unborn ∧ s.chain.pc ≠ .unborn := by
    rcases main_of_stuck hst with h | ⟨n, h⟩
    · rw [h] at hmain
      exact ⟨hmain.1, hmain.2.1⟩
    · rw [h] at hmain
      exact ⟨hmain.1, hmain.2.1⟩
  have hgen := (gen_of_stuck hst).resolve_left hborn.1
  have hchain : ∃ j, s.chain.pc = .zombie j ∨ s.chain.pc = .reaped j := by
    rcases (chain_of_stuck hst).resolve_left hborn.2 with ⟨j, -, hw⟩ | h
    · exact absurd hw (hnw j)
    · exact h
  obtain ⟨j, hchain⟩ := hchain
  have hfilter : ∀ k, (s.filter k).pc = .unborn ∨ (s.filter k).pc = .zombie := by
    intro k
    rcases filter_of_stuck hst k with h | h | h
    · exact Or.inl h
    · exact absurd h (hnw k)
    · exact Or.inr h
  rcases main_of_stuck hst with h | ⟨n, h⟩
  · rw [h] at hmain
    have hr := hmain.2.2
    unfold State.reaped at hr
    rcases hgen with hg | hg <;> rcases hchain with hc | hc <;> simp [hg, hc] at hr
    exact ⟨h, hg, ⟨j, hc⟩, hfilter⟩
  · -- `main` waits for a child that has ended
    rw [h] at hmain
    have hr := hmain.2.2
    rcases hgen with hg | hg
    · exact absurd (StepIn.waitGen h hg) (hst _)
    · rcases hchain with hc | hc
      · exact absurd (StepIn.waitChain h hc) (hst _)
      · simp [State.reaped, hg, hc] at hr

/-- What was read and printed when all processes have ended. -/
theorem Inv.finished (hI : Inv N s) (hf : s.Finished) :
    ∃ j, stage N j = [] ∧ (∀ i, i < j → stage N i ≠ []) ∧ s.printed = firstPrimes j ∧ ∀ k, s.input k = stage N k := by
  obtain ⟨-, -, ⟨j, hc⟩, hfilter⟩ := hf
  have hchain := hI.chain
  rw [hc] at hchain
  obtain ⟨hnil, hinp, hprinted⟩ := hchain
  have hforks : s.chain.pc.forks = j := by rw [hc]; rfl
  have hended : ∀ i, i < j → FilterOk N i .zombie (s.input i) (s.written (i + 1)) := by
    intro i hi
    have hk := hI.filter i
    rcases hfilter i with h | h
    · have := (hI.born i).mp h
      omega
    · rwa [h] at hk
  have hrest : ∀ k, j ≤ k → s.input k = [] := by
    intro k hk
    induction k, hk using Nat.le_induction with
    | base => exact hinp
    | succ k hk _ =>
      have hu : (s.filter k).pc = .unborn := (hI.born k).mpr (by omega)
      have h := hI.filter k
      rw [hu] at h
      exact (List.append_eq_nil_iff.mp h).1
  refine ⟨j, hnil, fun i hi => (hended i hi).1, hprinted, fun k => ?_⟩
  by_cases hk : k < j
  · exact (hended k hk).2.1
  · rw [hrest k (by omega), stage_nil_of_le hnil (by omega)]

/-- The numbers printed when all processes have ended. -/
theorem Inv.printed_finished (hI : Inv N s) (hf : s.Finished) :
    s.printed = (List.range' 2 (N - 1)).filter fun n => decide n.Prime := by
  obtain ⟨j, hnil, hne, hprinted, -⟩ := hI.finished hf
  rw [hprinted, firstPrimes_eq hnil hne]

/-! ## The counter of the generator -/

/-- A counter that has not overflowed is the number itself. -/
theorem long_of_le {n : Nat} (h : (n : Int) ≤ longMax) : long n = n :=
  Int.bmod_eq_of_le (by omega) (by unfold longMax at h; omega)

/-- A `long` is at most `LONG_MAX`. -/
theorem long_le (n : Nat) : long n ≤ longMax := by
  have h : (n : Int).bmod (2 ^ 64) < (2 ^ 64 + 1) / 2 := Int.bmod_lt (by decide)
  unfold long longMax
  omega

/-- A step is one for any way to compare the counter that agrees on what the counter is. -/
theorem StepIn.congr {val val' : Nat → Int} (hv : ∀ n, s.gen.pc = .loop n → val n = val' n)
    (hs : StepIn val maxprime mode s s') : StepIn val' maxprime mode s s' := by
  cases hs with
  | mainPipe h => exact .mainPipe h
  | forkGen h => exact .forkGen h
  | mainCloseWrite h => exact .mainCloseWrite h
  | forkChain h => exact .forkChain h
  | mainCloseRead h => exact .mainCloseRead h
  | waitGen h hz => exact .waitGen h hz
  | waitChain h hz => exact .waitChain h hz
  | mainExit h => exact .mainExit h
  | genCloseRead h => exact .genCloseRead h
  | genWrite h hn hr => exact .genWrite h (hv _ h ▸ hn) hr
  | genKilled h hn hr => exact .genKilled h (hv _ h ▸ hn) hr
  | genDone h hn => exact .genDone h (hv _ h ▸ hn)
  | genExit h => exact .genExit h
  | chainRead h hp => exact .chainRead h hp
  | chainEof h hp hw => exact .chainEof h hp hw
  | chainPrint h => exact .chainPrint h
  | chainPipe h => exact .chainPipe h
  | chainFork h => exact .chainFork h
  | chainCloseWrite h => exact .chainCloseWrite h
  | chainCloseRead h => exact .chainCloseRead h
  | chainExit h => exact .chainExit h
  | filterCloseRead h => exact .filterCloseRead h
  | filterRead h hp => exact .filterRead h hp
  | filterEof h hp hw => exact .filterEof h hp hw
  | filterWrite h hr => exact .filterWrite h hr
  | filterKilled h hr => exact .filterKilled h hr
  | filterCloseIn h hc => exact .filterCloseIn h hc
  | filterExit h => exact .filterExit h

/-- Below `LONG_MAX` the counter, which comes to one more than `maxprime` at most, does not overflow. -/
theorem step_long_iff (hmax : maxprime < longMax) (hI : Inv maxprime.toNat s) :
    StepIn long maxprime mode s s' ↔ Step maxprime mode s s' := by
  have hv : ∀ n, s.gen.pc = .loop n → long n = n := by
    intro n h
    have hgen := hI.gen
    rw [h] at hgen
    obtain ⟨-, hle, -⟩ := hgen
    refine long_of_le ?_
    unfold longMax at hmax ⊢
    omega
  exact ⟨StepIn.congr hv, StepIn.congr fun n h => (hv n h).symm⟩

/-- Below `LONG_MAX` the program with a counter of type `long` reaches the states that it reaches with one without bound. -/
theorem longSieve_reach_iff (hmax : maxprime < longMax) : (longSieve maxprime mode).Reach s ↔ (sieve maxprime mode).Reach s := by
  constructor
  · intro h
    induction h with
    | init h0 => exact .init h0
    | step a _ hs ih => exact .step a ih ((step_long_iff hmax (inv_reach ih)).mp hs)
  · intro h
    induction h with
    | init h0 => exact .init h0
    | step a hr hs ih => exact .step a ih ((step_long_iff hmax (inv_reach hr)).mpr hs)

/-- The generator of a run for `LONG_MAX`, with the other processes left where they are: what `i` steps come to. -/
def endless : Nat → State
  | 0 => start
  | 1 => { start with main := ⟨.forkGen, {.rd 0, .wr 0}, []⟩ }
  | 2 => { start with main := ⟨.closeWrite, {.rd 0, .wr 0}, []⟩, gen := ⟨.closeRead, {.rd 0, .wr 0}, []⟩ }
  | k + 3 =>
    { start with
      main := ⟨.closeWrite, {.rd 0, .wr 0}, []⟩
      gen := ⟨.loop (k + 2), ({.rd 0, .wr 0} : Finset End).erase (.rd 0), []⟩
      pipe := Function.update (fun _ => []) 0 (List.range' 2 k) }

/-- For `LONG_MAX` the generator goes on writing. -/
theorem endless_step (i : Nat) : StepIn long longMax mode (endless i) (endless (i + 1)) := by
  match i with
  | 0 => exact .mainPipe rfl
  | 1 => exact .forkGen rfl
  | 2 =>
    have h : StepIn long longMax mode (endless 2) _ := .genCloseRead rfl
    simpa [endless, Proc.close, start] using h
  | k + 3 =>
    have h : StepIn long longMax mode (endless (k + 3)) _ := .genWrite rfl (long_le (k + 2)) (Or.inl (by simp [endless]))
    have hrange : List.range' 2 (k + 1) = List.range' 2 k ++ [k + 2] := by
      rw [List.range'_1_concat, Nat.add_comm 2 k]
    simpa [endless, hrange] using h

/-! ## Every run -/

/-- For every `maxprime` below `LONG_MAX` and every scheduling, every run ends, with all processes ended. The numbers printed then are
the primes up to `maxprime` in increasing order, the numbers read from pipe `k` are those from 2 to `maxprime` that none of the first
`k` primes divides, in order, and the first of them, which `filter_chain` reads, is the one that it prints. -/
theorem primes_printed (maxprime : Int) (mode : Mode) (hmax : maxprime < longMax) :
    (¬ ∃ f : Nat → State, f 0 = start ∧ ∀ i, StepIn long maxprime mode (f i) (f (i + 1))) ∧
      ∀ s, (longSieve maxprime mode).Reach s → (∀ s', ¬ StepIn long maxprime mode s s') →
        s.Finished ∧ s.printed = (List.range' 2 (maxprime.toNat - 1)).filter (fun n => decide n.Prime) ∧
          (∀ k, s.input k = stage maxprime.toNat k) ∧ ∀ k, (s.input k).head? = s.printed[k]? := by
  refine ⟨?_, fun s hr hst => ?_⟩
  · rintro ⟨f, h0, hstep⟩
    have hreach : ∀ i, (longSieve maxprime mode).Reach (f i) := by
      intro i
      induction i with
      | zero => exact .init h0
      | succ i ih => exact .step () ih (hstep i)
    have hstep' : ∀ i, Step maxprime mode (f i) (f (i + 1)) := fun i =>
      (step_long_iff hmax (inv_reach ((longSieve_reach_iff hmax).mp (hreach i)))).mp (hstep i)
    exact (inv_inductive maxprime mode).no_infinite_run (μ := progress maxprime.toNat) (fun _ _ _ hI hs => progress_step hI hs)
      (fun _ hI => progress_le hI) ⟨f, h0, fun i => ⟨(), hstep' i⟩⟩
  · have hI := inv_reach ((longSieve_reach_iff hmax).mp hr)
    have hfin := finished_of_stuck hI fun s' hs => hst s' ((step_long_iff hmax hI).mpr hs)
    obtain ⟨j, hnil, hne, hprinted, hinput⟩ := hI.finished hfin
    refine ⟨hfin, hI.printed_finished hfin, hinput, fun k => ?_⟩
    rw [hinput, hprinted]
    by_cases hk : k < j
    · obtain ⟨p, xs, hp⟩ := List.exists_cons_of_ne_nil (hne k hk)
      rw [hp, head_stage hp]
      simp [firstPrimes, hk]
    · rw [stage_nil_of_le hnil (by omega)]
      simp [firstPrimes]
      omega

/-- A run for 5. -/
theorem primes_printed_five : ∃ s, (longSieve 5 .full).Reach s ∧ s.printed = [2, 3, 5] := by
  have hmax : 5 < longMax := by decide
  obtain ⟨s, hr, hst⟩ := exists_stuck 5 .full
  have hI := inv_reach hr
  have hr' := (longSieve_reach_iff hmax).mpr hr
  have h := ((primes_printed 5 .full hmax).2 s hr' fun s' hs => hst s' ((step_long_iff hmax hI).mp hs)).2.1
  refine ⟨s, hr', ?_⟩
  rw [h]
  decide

/-- For `LONG_MAX` some run does not end: no value of a `long` fails the test of the generator's loop. -/
theorem generator_endless :
    ¬ ∀ (maxprime : Int) (mode : Mode), maxprime ≤ longMax →
      ¬ ∃ f : Nat → State, f 0 = start ∧ ∀ i, StepIn long maxprime mode (f i) (f (i + 1)) :=
  fun h => h longMax .line le_rfl ⟨endless, rfl, endless_step⟩

end OsLabs.Sieve
