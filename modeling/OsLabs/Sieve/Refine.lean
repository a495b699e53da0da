import OsLabs.Lib.Simulation
import OsLabs.Sieve.Program
import OsLabs.Sieve.Runs

/-!
# The statements refine the pipeline

What is left of a running call tells where the process is in the pipeline, and that place tells the descriptor table: in the call of
`filter_chain` for pipe `j` the read end of `in` is under 3 if `j` is even and under 4 if it is odd, the read end of `filter_pipe` under
the other of the two, and its write end under 5. So every step of the statements is a step of the pipeline, but for the calls of
`filter_chain`, which the pipeline does not show.
-/

namespace OsLabs.Sieve

/-! ## Descriptor tables -/

/-- A descriptor of the read end of pipe `j`. -/
abbrev readEnd (j : Nat) : Option File := some (.pipe (.rd j))

/-- A descriptor of the write end of pipe `j`. -/
abbrev writeEnd (j : Nat) : Option File := some (.pipe (.wr j))

/-- The descriptors 0, 1 and 2. -/
def std : FdTable File := [some .terminal, some .terminal, some .terminal]

/-- The table with `a` under 3 and `b` under 4, if `j` is even, or the other way round, and `rest` from 5 on. -/
def slots (j : Nat) (a b : Option File) (rest : FdTable File) : FdTable File := std ++ (if j % 2 = 0 then [a, b] else [b, a]) ++ rest

/-- The numbers of pipe `j`: the first write end is under 4, and the others are under 5. -/
def pipeOf (j : Nat) : PipeT := ⟨3 + j % 2, if j = 0 then 4 else 5⟩

/-- From 5 on: nothing yet in the first call of `filter_chain`, and a number that is free again in the others. -/
def spare (j : Nat) : FdTable File := if j = 0 then [] else [none]

section Slots

variable (j : Nat) (a b c : Option File) (f g h : File) (rest : FdTable File)

/-- In the next call 3 and 4 have changed places. -/
theorem slots_succ : slots (j + 1) a b rest = slots j b a rest := by
  rcases Nat.mod_two_eq_zero_or_one j with hj | hj
  · simp [slots, hj, Nat.add_mod]
  · simp [slots, hj, Nat.add_mod]

/-- What is in the table. -/
theorem mem_slots (x : Option File) : x ∈ slots j a b rest ↔ x = some .terminal ∨ x = a ∨ x = b ∨ x ∈ rest := by
  rcases Nat.mod_two_eq_zero_or_one j with hj | hj
  · simp [slots, std, hj]
  · simp [slots, std, hj, or_left_comm]

@[simp] theorem file_slots_read : (slots j a b rest).file (3 + j % 2) = a := by
  rcases Nat.mod_two_eq_zero_or_one j with hj | hj
  · simp [slots, std, FdTable.file, hj]
  · simp [slots, std, FdTable.file, hj]

@[simp] theorem file_slots_other : (slots j a b rest).file (3 + (j + 1) % 2) = b := by
  rw [← slots_succ, file_slots_read]

@[simp] theorem file_slots_five : (slots j a b (c :: rest)).file 5 = c := by
  rcases Nat.mod_two_eq_zero_or_one j with hj | hj
  · simp [slots, std, FdTable.file, hj]
  · simp [slots, std, FdTable.file, hj]

@[simp] theorem close_slots_read : (slots j a b rest).close (3 + j % 2) = slots j none b rest := by
  rcases Nat.mod_two_eq_zero_or_one j with hj | hj
  · simp [slots, std, FdTable.close, hj]
  · simp [slots, std, FdTable.close, hj]

@[simp] theorem close_slots_other : (slots j a b rest).close (3 + (j + 1) % 2) = slots j a none rest := by
  rw [← slots_succ, close_slots_read, slots_succ]

@[simp] theorem close_slots_five : (slots j a b [c]).close 5 = slots j a b [none] := by
  rcases Nat.mod_two_eq_zero_or_one j with hj | hj
  · simp [slots, std, FdTable.close, hj]
  · simp [slots, std, FdTable.close, hj]

/-- The lowest free number is the one of 3 and 4 that is not taken. -/
theorem lowest_slots_other : FdTable.lowest (slots j (some f) none rest) = 3 + (j + 1) % 2 := by
  rcases Nat.mod_two_eq_zero_or_one j with hj | hj
  · simp [slots, std, FdTable.lowest, hj, Nat.add_mod]
  · simp [slots, std, FdTable.lowest, hj, Nat.add_mod]

theorem add_slots_other : FdTable.add f (slots j (some g) none rest) = slots j (some g) (some f) rest := by
  rcases Nat.mod_two_eq_zero_or_one j with hj | hj
  · simp [slots, std, FdTable.add, hj]
  · simp [slots, std, FdTable.add, hj]

/-- When both are taken, it is 5. -/
theorem lowest_slots_five : FdTable.lowest (slots j (some f) (some g) (spare j)) = 5 := by
  rcases Nat.mod_two_eq_zero_or_one j with hj | hj
  · by_cases h0 : j = 0
    · simp [slots, std, FdTable.lowest, spare, h0]
    · simp [slots, std, FdTable.lowest, spare, hj, h0]
  · have h0 : j ≠ 0 := by rintro rfl; simp at hj
    simp [slots, std, FdTable.lowest, spare, hj, h0]

theorem add_slots_five : FdTable.add h (slots j (some f) (some g) (spare j)) = slots j (some f) (some g) [some h] := by
  rcases Nat.mod_two_eq_zero_or_one j with hj | hj
  · by_cases h0 : j = 0
    · simp [slots, std, FdTable.add, spare, h0]
    · simp [slots, std, FdTable.add, spare, hj, h0]
  · have h0 : j ≠ 0 := by rintro rfl; simp at hj
    simp [slots, std, FdTable.add, spare, hj, h0]

end Slots

/-! ## Where a process is -/

/-- The process runs, with `code` left of its running call. -/
structure Process.Running (P : Process) (code : List Stmt) (table : FdTable File) (forks : Nat) : Prop where
  status : P.status = .live
  code : P.code = code
  table : P.table = table
  forks : P.forks = forks

/-- The process has ended. -/
structure Process.Ended (P : Process) (status : Status) (forks : Nat) : Prop where
  status : P.status = status
  code : P.code = []
  table : P.table = []
  forks : P.forks = forks

/-- What is left of a call of `filter_chain` to the parent after the `Fork`. -/
def parentCode : List Stmt := chainParent ++ [.exit]

/-- What is left of it to the child. -/
def childCode : List Stmt := chainChild ++ [.exit]

/-- `main` is where the pipeline says. -/
def MainAt (P : Process) (q : Proc MainPc) : Prop :=
  P.buf = q.buf ∧
    match q.pc with
    | .makePipe => P.Running mainBody std 0
    | .forkGen => P.Running (mainBody.drop 1) (slots 0 (readEnd 0) (writeEnd 0) []) 0 ∧ P.vars .genPipe = pipeOf 0
    | .closeWrite =>
      P.Running (.closeWriteEnd .genPipe :: mainBody.drop 2) (slots 0 (readEnd 0) (writeEnd 0) []) 1 ∧ P.vars .genPipe = pipeOf 0
    | .forkChain => P.Running (mainBody.drop 2) (slots 0 (readEnd 0) none []) 1 ∧ P.vars .genPipe = pipeOf 0
    | .closeRead => P.Running (.closeReadEnd .genPipe :: mainBody.drop 3) (slots 0 (readEnd 0) none []) 2 ∧ P.vars .genPipe = pipeOf 0
    | .wait n => P.Running (List.replicate n .waitChecked ++ [.exit]) (slots 0 none none []) 2
    | .ended => P.Ended .zombie 2

/-- The generator is. -/
def GenAt (P : Process) (q : Proc GenPc) : Prop :=
  P.buf = q.buf ∧
    match q.pc with
    | .unborn => P = .unforked
    | .closeRead =>
      ∃ rest, P.Running (genChild ++ rest) (slots 0 (readEnd 0) (writeEnd 0) []) 0 ∧ P.vars .genPipe = pipeOf 0
    | .loop n => ∃ rest, P.Running (.generate n :: .exit :: rest) (slots 0 none (writeEnd 0) []) 0 ∧ P.vars .genPipe = pipeOf 0
    | .exit => ∃ rest, P.Running (.exit :: rest) (slots 0 none (writeEnd 0) []) 0
    | .zombie => P.Ended .zombie 0
    | .reaped => P.Ended .reaped 0

/-- The process of `filter_chain` is. Before it reads in call `j`, that call may still be to come. -/
def ChainAt (P : Process) (q : Proc ChainPc) : Prop :=
  P.buf = q.buf ∧
    match q.pc with
    | .unborn => P = .unforked
    | .read j =>
      P.Running filterChainBody (slots j (readEnd j) none (spare j)) j ∧ P.vars .inp = pipeOf j ∨
        ∃ v rest, P.Running (.filterChain v :: rest) (slots j (readEnd j) none (spare j)) j ∧ P.vars v = pipeOf j
    | .print j prime =>
      P.Running (filterChainBody.drop 1) (slots j (readEnd j) none (spare j)) j ∧ P.vars .inp = pipeOf j ∧ P.prime = prime
    | .makePipe j prime =>
      P.Running (filterChainBody.drop 2) (slots j (readEnd j) none (spare j)) j ∧ P.vars .inp = pipeOf j ∧ P.prime = prime
    | .fork j prime =>
      P.Running (filterChainBody.drop 3) (slots j (readEnd j) (readEnd (j + 1)) [writeEnd (j + 1)]) j ∧
        P.vars .inp = pipeOf j ∧ P.vars .filterPipe = pipeOf (j + 1) ∧ P.prime = prime
    | .closeWrite j =>
      P.Running parentCode (slots j (readEnd j) (readEnd (j + 1)) [writeEnd (j + 1)]) (j + 1) ∧
        P.vars .inp = pipeOf j ∧ P.vars .filterPipe = pipeOf (j + 1)
    | .closeRead j =>
      P.Running (parentCode.drop 1) (slots j (readEnd j) (readEnd (j + 1)) [none]) (j + 1) ∧
        P.vars .inp = pipeOf j ∧ P.vars .filterPipe = pipeOf (j + 1)
    | .exit j => P.Running [.exit] (slots j (readEnd j) none (spare j)) j
    | .zombie j => P.Ended .zombie j
    | .reaped j => P.Ended .reaped j

/-- Filter `k` is. -/
def FilterAt (k : Nat) (P : Process) (q : Proc FilterPc) : Prop :=
  P.buf = q.buf ∧
    match q.pc with
    | .unborn => P = .unforked
    | .closeRead prime =>
      P.Running childCode (slots k (readEnd k) (readEnd (k + 1)) [writeEnd (k + 1)]) 0 ∧
        P.vars .inp = pipeOf k ∧ P.vars .filterPipe = pipeOf (k + 1) ∧ P.prime = prime
    | .read prime =>
      P.Running (childCode.drop 1) (slots k (readEnd k) none [writeEnd (k + 1)]) 0 ∧
        P.vars .inp = pipeOf k ∧ P.vars .filterPipe = pipeOf (k + 1) ∧ P.prime = prime
    | .write prime num =>
      P.Running (.writeNum num :: childCode.drop 1) (slots k (readEnd k) none [writeEnd (k + 1)]) 0 ∧
        P.vars .inp = pipeOf k ∧ P.vars .filterPipe = pipeOf (k + 1) ∧ P.prime = prime
    | .closeIn =>
      P.Running (childCode.drop 2) (slots k (readEnd k) none [writeEnd (k + 1)]) 0 ∧ P.vars .inp = pipeOf k
    | .exit => P.Running [.exit] P.table 0 ∧ ∀ e, e ∈ q.fds ↔ P.table.Holds (.pipe e)
    | .zombie => P.Ended .zombie 0

/-! ## The relation -/

/-- The pipes that `filter_chain` leaves made, with the one of `main`. -/
def ChainPc.pipes : ChainPc → Nat
  | .unborn => 1
  | .read j | .print j _ | .makePipe j _ | .exit j | .zombie j | .reaped j => j + 1
  | .fork j _ | .closeWrite j | .closeRead j => j + 2

/-- The pipes made. -/
def pipes (main : MainPc) (chain : ChainPc) : Nat :=
  match main with
  | .makePipe => 0
  | _ => chain.pipes

/-- The filter has executed its last `Close`. -/
def FilterPc.closed : FilterPc → Bool
  | .exit | .zombie => true
  | _ => false

/-- Every process is where the pipeline says. -/
structure Procs (proc : Pid → Process) (main : Proc MainPc) (gen : Proc GenPc) (chain : Proc ChainPc) (filter : Nat → Proc FilterPc) :
    Prop where
  main : MainAt (proc []) main
  gen : GenAt (proc [0]) gen
  chain : ChainAt (proc [1]) chain
  filter : ∀ k, FilterAt k (proc [k, 1]) (filter k)
  other : ∀ p, p ≠ [] → p ≠ [0] → p ≠ [1] → (∀ k, p ≠ [k, 1]) → proc p = .unforked

/-- The state of the pipeline that `w` refines. The only `Close` that fails is the last one of the first filter, of the number 4. -/
structure Related (w : World) (s : State) : Prop where
  procs : Procs w.proc s.main s.gen s.chain s.filter
  pipe : w.pipe = s.pipe
  stdout : w.stdout = s.stdout
  input : w.input = s.input
  printed : w.printed = s.printed
  made : w.made = pipes s.main.pc s.chain.pc
  failed : w.failed = if (s.filter 0).pc.closed = true then [([0, 1], 4)] else []

/-- It holds at the start. -/
theorem related_boot : Related boot start where
  procs :=
    { main := ⟨rfl, rfl, rfl, rfl, rfl⟩
      gen := ⟨rfl, rfl⟩
      chain := ⟨rfl, rfl⟩
      filter := fun _ => ⟨rfl, rfl⟩
      other := fun p hp _ _ _ => by simp [boot, Function.update_of_ne hp] }
  pipe := rfl
  stdout := rfl
  input := rfl
  printed := rfl
  made := rfl
  failed := rfl

section Moves

variable {proc : Pid → Process} {P : Process} {main : Proc MainPc} {gen : Proc GenPc} {chain : Proc ChainPc} {filter : Nat → Proc FilterPc}

/-- No other process is forked. -/
theorem Procs.forked (h : Procs proc main gen chain filter) {p : Pid} (hp : proc p ≠ .unforked) :
    p = [] ∨ p = [0] ∨ p = [1] ∨ ∃ k, p = [k, 1] := by
  by_contra hnot
  obtain ⟨h0, h1, h2, h3⟩ : p ≠ [] ∧ p ≠ [0] ∧ p ≠ [1] ∧ ¬ ∃ k, p = [k, 1] := by simpa only [not_or] using hnot
  exact hp (h.other p h0 h1 h2 fun k hk => h3 ⟨k, hk⟩)

/-- `main` moves. -/
theorem Procs.setMain (h : Procs proc main gen chain filter) {q : Proc MainPc} (hq : MainAt P q) :
    Procs (Function.update proc [] P) q gen chain filter where
  main := by rwa [Function.update_self]
  gen := by rw [Function.update_of_ne (by simp)]; exact h.gen
  chain := by rw [Function.update_of_ne (by simp)]; exact h.chain
  filter k := by rw [Function.update_of_ne (by simp)]; exact h.filter k
  other p h0 h1 h2 h3 := by rw [Function.update_of_ne h0]; exact h.other p h0 h1 h2 h3

/-- The generator moves. -/
theorem Procs.setGen (h : Procs proc main gen chain filter) {q : Proc GenPc} (hq : GenAt P q) :
    Procs (Function.update proc [0] P) main q chain filter where
  main := by rw [Function.update_of_ne (by simp)]; exact h.main
  gen := by rwa [Function.update_self]
  chain := by rw [Function.update_of_ne (by simp)]; exact h.chain
  filter k := by rw [Function.update_of_ne (by simp)]; exact h.filter k
  other p h0 h1 h2 h3 := by rw [Function.update_of_ne h1]; exact h.other p h0 h1 h2 h3

/-- `filter_chain` moves. -/
theorem Procs.setChain (h : Procs proc main gen chain filter) {q : Proc ChainPc} (hq : ChainAt P q) :
    Procs (Function.update proc [1] P) main gen q filter where
  main := by rw [Function.update_of_ne (by simp)]; exact h.main
  gen := by rw [Function.update_of_ne (by simp)]; exact h.gen
  chain := by rwa [Function.update_self]
  filter k := by rw [Function.update_of_ne (by simp)]; exact h.filter k
  other p h0 h1 h2 h3 := by rw [Function.update_of_ne h2]; exact h.other p h0 h1 h2 h3

/-- Filter `k` moves. -/
theorem Procs.setFilter (h : Procs proc main gen chain filter) {k : Nat} {q : Proc FilterPc} (hq : FilterAt k P q) :
    Procs (Function.update proc [k, 1] P) main gen chain (Function.update filter k q) where
  main := by rw [Function.update_of_ne (by simp)]; exact h.main
  gen := by rw [Function.update_of_ne (by simp)]; exact h.gen
  chain := by rw [Function.update_of_ne (by simp)]; exact h.chain
  filter i := by
    by_cases hi : i = k
    · subst hi
      rwa [Function.update_self, Function.update_self]
    · rw [Function.update_of_ne hi, Function.update_of_ne (by simpa using hi)]
      exact h.filter i
  other p h0 h1 h2 h3 := by rw [Function.update_of_ne (h3 k)]; exact h.other p h0 h1 h2 h3

end Moves

/-! ## Lives -/

/-- Where in its life `main` is. -/
def MainPc.status : MainPc → Status
  | .ended => .zombie
  | _ => .live

/-- Where in its life the generator is. -/
def GenPc.status : GenPc → Status
  | .unborn => .unborn
  | .zombie => .zombie
  | .reaped => .reaped
  | _ => .live

/-- Where in its life the process of `filter_chain` is. -/
def ChainPc.status : ChainPc → Status
  | .unborn => .unborn
  | .zombie _ => .zombie
  | .reaped _ => .reaped
  | _ => .live

/-- Where in its life a filter is. -/
def FilterPc.status : FilterPc → Status
  | .unborn => .unborn
  | .zombie => .zombie
  | _ => .live

theorem GenPc.of_zombie {pc : GenPc} (h : pc.status = .zombie) : pc = .zombie := by
  cases pc <;> first | rfl | cases h

theorem GenPc.of_reaped {pc : GenPc} (h : pc.status = .reaped) : pc = .reaped := by
  cases pc <;> first | rfl | cases h

theorem ChainPc.of_zombie {pc : ChainPc} (h : pc.status = .zombie) : ∃ j, pc = .zombie j := by
  cases pc <;> first | exact ⟨_, rfl⟩ | cases h

theorem ChainPc.of_reaped {pc : ChainPc} (h : pc.status = .reaped) : ∃ j, pc = .reaped j := by
  cases pc <;> first | exact ⟨_, rfl⟩ | cases h

section Lives

variable {P : Process}

theorem MainAt.status_eq {q : Proc MainPc} (h : MainAt P q) : P.status = q.pc.status := by
  obtain ⟨-, h⟩ := h
  cases hq : q.pc with
  | makePipe | wait _ | ended =>
    rw [hq] at h
    exact h.status
  | forkGen | closeWrite | forkChain | closeRead =>
    rw [hq] at h
    exact h.1.status

/-- The generator forks nobody. -/
theorem GenAt.status_eq {q : Proc GenPc} (h : GenAt P q) : P.status = q.pc.status ∧ P.forks = 0 := by
  obtain ⟨-, h⟩ := h
  cases hq : q.pc with
  | unborn =>
    rw [hq] at h
    exact ⟨congrArg Process.status h, congrArg Process.forks h⟩
  | closeRead | loop _ =>
    rw [hq] at h
    obtain ⟨rest, h, -⟩ := h
    exact ⟨h.status, h.forks⟩
  | exit =>
    rw [hq] at h
    obtain ⟨rest, h⟩ := h
    exact ⟨h.status, h.forks⟩
  | zombie | reaped =>
    rw [hq] at h
    exact ⟨h.status, h.forks⟩

/-- The process of `filter_chain` has forked the filters that the pipeline says. -/
theorem ChainAt.status_eq {q : Proc ChainPc} (h : ChainAt P q) : P.status = q.pc.status ∧ P.forks = q.pc.forks := by
  obtain ⟨-, h⟩ := h
  cases hq : q.pc with
  | unborn =>
    rw [hq] at h
    exact ⟨congrArg Process.status h, congrArg Process.forks h⟩
  | read j =>
    rw [hq] at h
    rcases h with ⟨h, -⟩ | ⟨v, rest, h, -⟩
    · exact ⟨h.status, h.forks⟩
    · exact ⟨h.status, h.forks⟩
  | print _ _ | makePipe _ _ | fork _ _ | closeWrite _ | closeRead _ =>
    rw [hq] at h
    exact ⟨h.1.status, h.1.forks⟩
  | exit j | zombie j | reaped j =>
    rw [hq] at h
    exact ⟨h.status, h.forks⟩

/-- Nor does a filter. -/
theorem FilterAt.status_eq {k : Nat} {q : Proc FilterPc} (h : FilterAt k P q) : P.status = q.pc.status ∧ P.forks = 0 := by
  obtain ⟨-, h⟩ := h
  cases hq : q.pc with
  | unborn =>
    rw [hq] at h
    exact ⟨congrArg Process.status h, congrArg Process.forks h⟩
  | closeRead _ | read _ | write _ _ | closeIn | exit =>
    rw [hq] at h
    exact ⟨h.1.status, h.1.forks⟩
  | zombie =>
    rw [hq] at h
    exact ⟨h.status, h.forks⟩

end Lives

/-! ## The ends that are open -/

section Open

variable {P : Process} {e : End}

theorem holds_slots {j : Nat} {a b : Option File} {rest : FdTable File} :
    (slots j a b rest).Holds (.pipe e) ↔ some (.pipe e) = a ∨ some (.pipe e) = b ∨ some (.pipe e) ∈ rest := by
  rw [FdTable.holds_iff_mem, mem_slots]
  simp

theorem not_holds_nil {f : File} : ¬ FdTable.Holds [] f := by
  rw [FdTable.holds_iff_mem]
  exact List.not_mem_nil

theorem not_holds_unforked {f : File} : ¬ Process.unforked.table.Holds f := not_holds_nil

/-- The ends that `main` has open. -/
theorem MainAt.holds {q : Proc MainPc} (h : MainAt P q) : P.table.Holds (.pipe e) ↔ e ∈ q.pc.fds := by
  obtain ⟨-, h⟩ := h
  cases hq : q.pc with
  | makePipe =>
    rw [hq] at h
    rw [h.table, FdTable.holds_iff_mem]
    simp [std, MainPc.fds]
  | forkGen | closeWrite | forkChain | closeRead =>
    rw [hq] at h
    rw [h.1.table, holds_slots]
    simp [MainPc.fds]
  | wait n =>
    rw [hq] at h
    rw [h.table, holds_slots]
    simp [MainPc.fds]
  | ended =>
    rw [hq] at h
    rw [h.table]
    simpa [MainPc.fds] using not_holds_nil

/-- The ends that the generator has open. -/
theorem GenAt.holds {q : Proc GenPc} (h : GenAt P q) : P.table.Holds (.pipe e) ↔ e ∈ q.pc.fds := by
  obtain ⟨-, h⟩ := h
  cases hq : q.pc with
  | unborn =>
    rw [hq] at h
    obtain rfl : P = .unforked := h
    simpa [GenPc.fds] using not_holds_unforked
  | closeRead | loop n =>
    rw [hq] at h
    obtain ⟨rest, h, -⟩ := h
    rw [h.table, holds_slots]
    simp [GenPc.fds]
  | exit =>
    rw [hq] at h
    obtain ⟨rest, h⟩ := h
    rw [h.table, holds_slots]
    simp [GenPc.fds]
  | zombie | reaped =>
    rw [hq] at h
    rw [h.table]
    simpa [GenPc.fds] using not_holds_nil

theorem not_mem_spare {f : File} (j : Nat) : some f ∉ spare j := by
  unfold spare
  split_ifs <;> simp

/-- The ends that `filter_chain` has open. -/
theorem ChainAt.holds {q : Proc ChainPc} (h : ChainAt P q) : P.table.Holds (.pipe e) ↔ e ∈ q.pc.fds := by
  obtain ⟨-, h⟩ := h
  cases hq : q.pc with
  | unborn =>
    rw [hq] at h
    obtain rfl : P = .unforked := h
    simpa [ChainPc.fds] using not_holds_unforked
  | read j =>
    rw [hq] at h
    have htable : P.table = slots j (readEnd j) none (spare j) := by
      rcases h with ⟨h, -⟩ | ⟨v, rest, h, -⟩
      · exact h.table
      · exact h.table
    rw [htable, holds_slots]
    simp [ChainPc.fds, not_mem_spare]
  | print j prime | makePipe j prime =>
    rw [hq] at h
    rw [h.1.table, holds_slots]
    simp [ChainPc.fds, not_mem_spare]
  | fork j prime | closeWrite j | closeRead j =>
    rw [hq] at h
    rw [h.1.table, holds_slots]
    simp [ChainPc.fds]
  | exit j =>
    rw [hq] at h
    rw [h.table, holds_slots]
    simp [ChainPc.fds, not_mem_spare]
  | zombie j | reaped j =>
    rw [hq] at h
    rw [h.table]
    simpa [ChainPc.fds] using not_holds_nil

/-- The ends that a filter has open. -/
theorem FilterAt.holds {k : Nat} {q : Proc FilterPc} (h : FilterAt k P q) (hsub : q.fds ⊆ q.pc.fds k)
    (heq : q.pc.runs = true → q.fds = q.pc.fds k) : P.table.Holds (.pipe e) ↔ e ∈ q.fds := by
  obtain ⟨-, h⟩ := h
  cases hq : q.pc with
  | unborn =>
    rw [hq] at h hsub
    obtain rfl : P = .unforked := h
    rw [Finset.subset_empty.mp hsub]
    simpa using not_holds_unforked
  | closeRead prime | read prime | write prime num | closeIn =>
    rw [hq] at h heq
    rw [heq rfl, h.1.table, holds_slots]
    simp [FilterPc.fds]
  | exit =>
    rw [hq] at h
    exact (h.2 e).symm
  | zombie =>
    rw [hq] at h hsub
    rw [h.table, Finset.subset_empty.mp hsub]
    simpa using not_holds_nil

variable {w : World} {s : State} {N : Nat}

/-- The two have the same ends open. -/
theorem Related.open_iff (h : Related w s) (hI : Inv N s) : w.Open e ↔ s.Open e := by
  have hfilter : ∀ k, (w.proc [k, 1]).table.Holds (.pipe e) ↔ e ∈ (s.filter k).fds := fun k =>
    (h.procs.filter k).holds (hI.ends.sub k) (hI.ends.filter k)
  have hmain : (w.proc []).table.Holds (.pipe e) ↔ e ∈ s.main.fds := by
    rw [hI.ends.main]
    exact h.procs.main.holds
  have hgen : (w.proc [0]).table.Holds (.pipe e) ↔ e ∈ s.gen.fds := by
    rw [hI.ends.gen]
    exact h.procs.gen.holds
  have hchain : (w.proc [1]).table.Holds (.pipe e) ↔ e ∈ s.chain.fds := by
    rw [hI.ends.chain]
    exact h.procs.chain.holds
  constructor
  · rintro ⟨p, hp⟩
    have hforked : w.proc p ≠ .unforked := fun hu => not_holds_unforked (hu ▸ hp)
    rcases h.procs.forked hforked with rfl | rfl | rfl | ⟨k, rfl⟩
    · exact Or.inl (hmain.mp hp)
    · exact Or.inr (Or.inl (hgen.mp hp))
    · exact Or.inr (Or.inr (Or.inl (hchain.mp hp)))
    · exact Or.inr (Or.inr (Or.inr ⟨k, (hfilter k).mp hp⟩))
  · rintro (hm | hg | hc | ⟨k, hk⟩)
    · exact ⟨[], hmain.mpr hm⟩
    · exact ⟨[0], hgen.mpr hg⟩
    · exact ⟨[1], hchain.mpr hc⟩
    · exact ⟨[k, 1], (hfilter k).mpr hk⟩

end Open

end OsLabs.Sieve
