import OsLabs.Sieve.Simulation

/-!
# The descriptors of the sieve

The variables of type `pipe_t` outlive what they name: in a filter `in.write` was closed long ago, in another process. After `filter` the
child wants to close the pipe it has written to, but calls `CloseWriteEnd(in)`. The first filter has nothing under that number, 4, and
its `Close` fails; the later ones have their own write end under it, 5, which is what should have been closed. All other calls of `Close`
are of open numbers, and in `filter` every filter has the ends it needs and no others (`disciplined_iff`). So every run for 2 or more
fails exactly one `Close`, and one for less fails none (`failed_of_end`).
-/

namespace OsLabs.Sieve

variable {w w' : World} {s : State} {maxprime : Int} {mode : Mode} {P : Process} {N n : Nat} {p : Pid}

/-- The number that a process is about to close, with `code` left of its running call. -/
def closing (vars : Var → PipeT) : List Stmt → Option Nat
  | .closeReadEnd v :: _ => some (vars v).read
  | .closeWriteEnd v :: _ => some (vars v).write
  | _ => none

/-- A process is in `filter`, which reads and writes. -/
def inFilter : List Stmt → Bool
  | .filter :: _ | .writeNum _ :: _ => true
  | _ => false

/-- Besides 0, 1 and 2 the process has the read end of pipe `k` under `in.read`, the write end of the next one under `filter_pipe.write`,
and no other descriptor. -/
def Process.HoldsOnly (P : Process) (k : Nat) : Prop :=
  (P.vars .inp).read ≠ (P.vars .filterPipe).write ∧
    ∀ n, P.table.file n =
      if n < 3 then some .terminal
      else if n = (P.vars .inp).read then readEnd k
      else if n = (P.vars .filterPipe).write then writeEnd (k + 1)
      else none

/-- No process is about to close a number that it has not open, and every filter in `filter` has only its two ends. -/
structure Disciplined (w : World) : Prop where
  closes : ∀ p n, closing (w.proc p).vars (w.proc p).code = some n → (w.proc p).table.file n ≠ none
  filters : ∀ p, inFilter (w.proc p).code = true → ∃ k, p = [k, 1] ∧ (w.proc p).HoldsOnly k

/-- The first filter has come out of `filter`, to its `CloseWriteEnd(in)`. -/
def FirstFilterCloses (w : World) : Prop := ∃ rest, (w.proc [0, 1]).code = .closeWriteEnd .inp :: rest

/-! ## The processes that are no filters -/

/-- The process closes open numbers, and is not in `filter`. -/
structure Process.Careful (P : Process) : Prop where
  closes : ∀ n, closing P.vars P.code = some n → P.table.file n ≠ none
  other : inFilter P.code = false

/-- A process that does not close anything now. -/
theorem careful_of_code {code : List Stmt} (h : P.code = code) (hc : closing P.vars code = none) (hf : inFilter code = false) :
    P.Careful where
  closes n hn := by
    rw [h, hc] at hn
    cases hn
  other := by rw [h, hf]

/-- A process that closes an open number. -/
theorem careful_of_close {code : List Stmt} (h : P.code = code) (hc : closing P.vars code = some n) (hopen : P.table.file n ≠ none)
    (hf : inFilter code = false) : P.Careful where
  closes i hi := by
    rw [h, hc] at hi
    obtain rfl := Option.some.inj hi
    exact hopen
  other := by rw [h, hf]

theorem MainAt.careful {q : Proc MainPc} (h : MainAt P q) : P.Careful := by
  obtain ⟨-, h⟩ := h
  cases hq : q.pc with
  | makePipe =>
    rw [hq] at h
    exact careful_of_code h.code rfl rfl
  | forkGen | forkChain =>
    rw [hq] at h
    exact careful_of_code h.1.code rfl rfl
  | closeWrite | closeRead =>
    rw [hq] at h
    obtain ⟨hrun, hvars⟩ := h
    refine careful_of_close hrun.code rfl ?_ rfl
    rw [hrun.table, hvars]
    simp [slots, std, pipeOf, FdTable.file]
  | wait k =>
    rw [hq] at h
    cases k with
    | zero => exact careful_of_code h.code rfl rfl
    | succ k => exact careful_of_code h.code rfl rfl
  | ended =>
    rw [hq] at h
    exact careful_of_code h.code rfl rfl

theorem GenAt.careful {q : Proc GenPc} (h : GenAt P q) : P.Careful := by
  obtain ⟨-, h⟩ := h
  cases hq : q.pc with
  | unborn =>
    rw [hq] at h
    exact careful_of_code (congrArg Process.code h) rfl rfl
  | closeRead =>
    rw [hq] at h
    obtain ⟨rest, hrun, hvars⟩ := h
    refine careful_of_close hrun.code rfl ?_ rfl
    rw [hrun.table, hvars]
    simp [slots, std, pipeOf, FdTable.file]
  | loop k =>
    rw [hq] at h
    obtain ⟨rest, hrun, -⟩ := h
    exact careful_of_code hrun.code rfl rfl
  | exit =>
    rw [hq] at h
    obtain ⟨rest, hrun⟩ := h
    exact careful_of_code hrun.code rfl rfl
  | zombie | reaped =>
    rw [hq] at h
    exact careful_of_code h.code rfl rfl

theorem ChainAt.careful {q : Proc ChainPc} (h : ChainAt P q) : P.Careful := by
  obtain ⟨-, h⟩ := h
  cases hq : q.pc with
  | unborn =>
    rw [hq] at h
    exact careful_of_code (congrArg Process.code h) rfl rfl
  | read j =>
    rw [hq] at h
    rcases h with ⟨hrun, -⟩ | ⟨v, rest, hrun, -⟩
    · exact careful_of_code hrun.code rfl rfl
    · exact careful_of_code hrun.code rfl rfl
  | print _ _ | makePipe _ _ | fork _ _ =>
    rw [hq] at h
    exact careful_of_code h.1.code rfl rfl
  | closeWrite j =>
    rw [hq] at h
    obtain ⟨hrun, -, hfilterPipe⟩ := h
    refine careful_of_close hrun.code rfl ?_ rfl
    rw [hrun.table, hfilterPipe]
    show (slots j _ _ [_]).file 5 ≠ none
    simp
  | closeRead j =>
    rw [hq] at h
    obtain ⟨hrun, hvars, -⟩ := h
    refine careful_of_close hrun.code rfl ?_ rfl
    rw [hrun.table, hvars]
    show (slots j _ _ [_]).file (3 + j % 2) ≠ none
    simp
  | exit j | zombie j | reaped j =>
    rw [hq] at h
    exact careful_of_code h.code rfl rfl

/-! ## The filters -/

/-- What is under each number. -/
theorem file_slots (j n : Nat) (a c : Option File) :
    (slots j a none [c]).file n =
      if n < 3 then some .terminal else if n = 3 + j % 2 then a else if n = 5 then c else none := by
  rcases Nat.mod_two_eq_zero_or_one j with hj | hj
  · rcases n with _ | _ | _ | _ | _ | _ | n <;> simp [slots, std, FdTable.file, hj]
  · rcases n with _ | _ | _ | _ | _ | _ | n <;> simp [slots, std, FdTable.file, hj]

/-- The table of a filter in `filter`. -/
theorem holdsOnly_slots {k : Nat} (hinp : P.vars .inp = pipeOf k) (hfilterPipe : P.vars .filterPipe = pipeOf (k + 1))
    (htable : P.table = slots k (readEnd k) none [writeEnd (k + 1)]) : P.HoldsOnly k := by
  unfold Process.HoldsOnly
  rw [hinp, hfilterPipe, htable]
  refine ⟨?_, fun n => file_slots k n _ _⟩
  show 3 + k % 2 ≠ 5
  omega

/-- In `filter` a filter has only its two ends. -/
theorem FilterAt.holdsOnly {k : Nat} {q : Proc FilterPc} (h : FilterAt k P q) (hf : inFilter P.code = true) : P.HoldsOnly k := by
  obtain ⟨-, h⟩ := h
  cases hq : q.pc with
  | unborn =>
    rw [hq] at h
    obtain rfl : P = .unforked := h
    cases hf
  | closeRead _ | closeIn | exit =>
    rw [hq] at h
    rw [h.1.code] at hf
    cases hf
  | read _ | write _ _ =>
    rw [hq] at h
    obtain ⟨hrun, hvars, hfilterPipe, -⟩ := h
    exact holdsOnly_slots hvars hfilterPipe hrun.table
  | zombie =>
    rw [hq] at h
    rw [h.code] at hf
    cases hf

/-- A filter closes open numbers, but for the last `Close` of the first one. -/
theorem FilterAt.closes {k : Nat} {q : Proc FilterPc} (h : FilterAt k P q) (hk : ¬ (k = 0 ∧ q.pc = .closeIn)) {n : Nat}
    (hc : closing P.vars P.code = some n) : P.table.file n ≠ none := by
  obtain ⟨-, h⟩ := h
  cases hq : q.pc with
  | unborn =>
    rw [hq] at h
    obtain rfl : P = .unforked := h
    cases hc
  | closeRead _ =>
    rw [hq] at h
    obtain ⟨hrun, -, hfilterPipe, -⟩ := h
    rw [hrun.code] at hc
    obtain rfl := Option.some.inj hc
    rw [hrun.table, hfilterPipe]
    show (slots k _ _ [_]).file (3 + (k + 1) % 2) ≠ none
    simp
  | closeIn =>
    rw [hq] at h
    obtain ⟨hrun, hvars⟩ := h
    rw [hrun.code] at hc
    obtain rfl := Option.some.inj hc
    have h0 : k ≠ 0 := fun h0 => hk ⟨h0, hq⟩
    rw [hrun.table, hvars, pipeOf, if_neg h0]
    simp
  | read _ | write _ _ | exit =>
    rw [hq] at h
    rw [h.1.code] at hc
    cases hc
  | zombie =>
    rw [hq] at h
    rw [h.code] at hc
    cases hc

/-- The first filter has nothing under the number of its last `Close`. -/
theorem FilterAt.file_four {q : Proc FilterPc} (h : FilterAt 0 P q) (hq : q.pc = .closeIn) :
    closing P.vars P.code = some 4 ∧ P.table.file 4 = none := by
  obtain ⟨-, h⟩ := h
  rw [hq] at h
  obtain ⟨hrun, hvars⟩ := h
  constructor
  · rw [hrun.code]
    show some (P.vars .inp).write = some 4
    rw [hvars]
    rfl
  · rw [hrun.table]
    exact file_slots_other 0 _ _ _

/-- What is left of the call tells whether a filter is there. -/
theorem FilterAt.closeIn_iff {k : Nat} {q : Proc FilterPc} (h : FilterAt k P q) :
    q.pc = .closeIn ↔ ∃ rest, P.code = .closeWriteEnd .inp :: rest := by
  obtain ⟨-, h⟩ := h
  cases hq : q.pc with
  | unborn =>
    rw [hq] at h
    obtain rfl : P = .unforked := h
    simp [Process.unforked]
  | closeIn =>
    rw [hq] at h
    exact iff_of_true rfl ⟨_, h.1.code⟩
  | closeRead _ | read _ | write _ _ | exit =>
    rw [hq] at h
    simp [h.1.code, childCode, chainChild]
  | zombie =>
    rw [hq] at h
    simp [h.code]

/-! ## The discipline -/

/-- A state is disciplined exactly when the first filter is not at its last `Close`. -/
theorem Related.disciplined_iff_not (hR : Related w s) : Disciplined w ↔ ¬ FirstFilterCloses w := by
  have hfirst : (s.filter 0).pc = .closeIn ↔ FirstFilterCloses w := (hR.procs.filter 0).closeIn_iff
  constructor
  · intro hd hcloses
    obtain ⟨hclosing, hfile⟩ := (hR.procs.filter 0).file_four (hfirst.mpr hcloses)
    exact hd.closes [0, 1] 4 hclosing hfile
  · intro hnot
    have hunforked : ∀ p, w.proc p = .unforked → (w.proc p).Careful := fun p hu =>
      careful_of_code (congrArg Process.code hu) rfl rfl
    constructor
    · intro p n hc
      by_cases hu : w.proc p = .unforked
      · exact (hunforked p hu).closes n hc
      · rcases hR.procs.forked hu with rfl | rfl | rfl | ⟨k, rfl⟩
        · exact hR.procs.main.careful.closes n hc
        · exact hR.procs.gen.careful.closes n hc
        · exact hR.procs.chain.careful.closes n hc
        · refine (hR.procs.filter k).closes ?_ hc
          rintro ⟨rfl, hpc⟩
          exact hnot (hfirst.mp hpc)
    · intro p hf
      by_cases hu : w.proc p = .unforked
      · exact absurd hf (by simp [(hunforked p hu).other])
      · rcases hR.procs.forked hu with rfl | rfl | rfl | ⟨k, rfl⟩
        · exact absurd hf (by simp [hR.procs.main.careful.other])
        · exact absurd hf (by simp [hR.procs.gen.careful.other])
        · exact absurd hf (by simp [hR.procs.chain.careful.other])
        · exact ⟨k, rfl, (hR.procs.filter k).holdsOnly hf⟩

/-! ## The calls that fail -/

/-- A `Close` fails when the number is not open. -/
theorem World.close_failed (n : Nat) (rest : List Stmt) :
    (w.close p P n rest).failed = if P.table.file n = none then w.failed ++ [(p, n)] else w.failed := by
  unfold World.close
  split_ifs <;> rfl

theorem World.readNum_failed {i : Nat} {ok : Nat → Process} {eof : Process} (h : w.readNum p P i ok eof w') : w'.failed = w.failed := by
  unfold World.readNum at h
  split at h
  · rcases h with ⟨num, rest, -, rfl⟩ | ⟨-, -, rfl⟩
    · rfl
    · rfl
  · exact h.elim
  · rw [h]
    rfl

theorem World.writeNum_failed {i num : Nat} {rest : List Stmt} (h : w.writeNum p P i num rest w') : w'.failed = w.failed := by
  unfold World.writeNum at h
  split at h
  · rcases h with ⟨-, rfl⟩ | ⟨-, rfl⟩
    · rfl
    · rfl
  · exact h.elim
  · rw [h]
    rfl

theorem World.wait_failed {rest alone : List Stmt} (h : w.wait p P rest alone w') : w'.failed = w.failed := by
  rcases h with ⟨i, -, -, rfl⟩ | ⟨-, rfl⟩
  · rfl
  · rfl

/-- A step records a failed `Close` exactly when the process was about to close a number that it has not open. -/
theorem failed_step (hst : (calls maxprime mode).step w p w') : w'.failed = w.failed ∨
    ∃ n, closing (w.proc p).vars (w.proc p).code = some n ∧ (w.proc p).table.file n = none ∧ w'.failed = w.failed ++ [(p, n)] := by
  have hexec := hst.2
  have hclose : ∀ i rest, w' = w.close p (w.proc p) i rest → w'.failed = w.failed ∨
      ((w.proc p).table.file i = none ∧ w'.failed = w.failed ++ [(p, i)]) := by
    rintro i rest rfl
    rw [World.close_failed]
    by_cases hfile : (w.proc p).table.file i = none
    · exact Or.inr ⟨hfile, if_pos hfile⟩
    · exact Or.inl (if_neg hfile)
  cases hcode : (w.proc p).code with
  | nil =>
    rw [hcode] at hexec
    obtain ⟨f, stack, -, rfl⟩ := hexec
    exact Or.inl rfl
  | cons stmt rest =>
    rw [hcode] at hexec
    cases stmt with
    | closeReadEnd v | closeWriteEnd v =>
      rcases hclose _ _ hexec with hsame | ⟨hfile, hfailed⟩
      · exact Or.inl hsame
      · exact Or.inr ⟨_, rfl, hfile, hfailed⟩
    | makePipe _ | fork _ _ | printPrime | filterChain _ | exit =>
      obtain rfl := hexec
      exact Or.inl rfl
    | readPrime | filter => exact Or.inl (World.readNum_failed hexec)
    | writeNum _ => exact Or.inl (World.writeNum_failed hexec)
    | wait | waitChecked => exact Or.inl (World.wait_failed hexec)
    | generate k =>
      simp only [World.exec] at hexec
      split_ifs at hexec
      · exact Or.inl (World.writeNum_failed hexec)
      · rw [hexec]
        exact Or.inl rfl

/-- If a `Close` has failed, a state before was not disciplined. -/
theorem undisciplined_of_failed (hw : (calls maxprime mode).Reach w) (hf : w.failed ≠ []) :
    ∃ w₀, (calls maxprime mode).Reach w₀ ∧ ¬ Disciplined w₀ := by
  induction hw with
  | init h0 =>
    obtain rfl := h0
    exact absurd rfl hf
  | @step w w' p hw hst ih =>
    rcases failed_step hst with hsame | ⟨n, hc, hfile, -⟩
    · exact ih (hsame ▸ hf)
    · exact ⟨w, hw, fun hd => hd.closes p n hc hfile⟩

/-- At the end of every run for 2 or more one `Close` has failed, that of 4 by the first filter; for less, none. -/
theorem failed_of_end (hw : (calls maxprime mode).Reach w) (hend : ∀ p w', ¬ (calls maxprime mode).step w p w') :
    w.failed = if 2 ≤ maxprime then [([0, 1], 4)] else [] := by
  obtain ⟨s, hI, hR, hfin⟩ := calls_finished hw hend
  rw [hR.failed]
  by_cases hmax : 2 ≤ maxprime
  · have hborn : (s.filter 0).pc ≠ .unborn := fun hu => Nat.not_le.mpr (hI.forks_pos hfin hmax) ((hI.born 0).mp hu)
    have hzombie := (hfin.2.2.2 0).resolve_left hborn
    rw [hzombie, if_pos hmax]
    rfl
  · have hunborn : (s.filter 0).pc = .unborn := (hI.born 0).mpr (hI.forks_eq_zero (not_le.mp hmax)).le
    rw [hunborn, if_neg hmax]
    rfl

/-- For 2 or more some run is not disciplined. -/
theorem exists_undisciplined (hmax : 2 ≤ maxprime) (mode : Mode) : ∃ w, (calls maxprime mode).Reach w ∧ ¬ Disciplined w := by
  obtain ⟨w, hw, hend⟩ := calls_exists_end maxprime mode
  refine undisciplined_of_failed hw ?_
  rw [failed_of_end hw hend, if_pos hmax]
  exact List.cons_ne_nil _ _

/-- In every run the discipline holds exactly where the first filter is not at its `CloseWriteEnd(in)`; so it holds in all states of all
runs exactly when `maxprime` is less than 2, and there is no filter. `LONG_MAX`, for which the generator does not end, is left out. -/
theorem disciplined_iff (maxprime : Int) (mode : Mode) :
    (∀ w, (calls maxprime mode).Reach w → (Disciplined w ↔ ¬ FirstFilterCloses w)) ∧
      ((∀ w, (calls maxprime mode).Reach w → Disciplined w) ↔ maxprime < 2) := by
  refine ⟨fun w hw => ?_, ?_, fun hmax w hw => ?_⟩
  · obtain ⟨s, -, hR⟩ := related_reach hw
    exact hR.disciplined_iff_not
  · intro hall
    by_contra hmax
    obtain ⟨w, hw, hnot⟩ := exists_undisciplined (not_lt.mp hmax) mode
    exact hnot (hall w hw)
  · obtain ⟨s, hI, hR⟩ := related_reach hw
    refine hR.disciplined_iff_not.mpr fun hcloses => ?_
    have hunborn : (s.filter 0).pc = .unborn := (hI.born 0).mpr (hI.forks_eq_zero hmax).le
    have hcloseIn := (hR.procs.filter 0).closeIn_iff.mpr hcloses
    rw [hunborn] at hcloseIn
    cases hcloseIn

/-- The run for 2, with its one filter. -/
theorem undisciplined_two : ¬ ∀ w, (calls 2 .line).Reach w → Disciplined w := by
  intro hall
  obtain ⟨w, hw, hnot⟩ := exists_undisciplined (show (2 : Int) ≤ 2 by decide) .line
  exact hnot (hall w hw)

end OsLabs.Sieve
