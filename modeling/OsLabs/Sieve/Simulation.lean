import OsLabs.Sieve.Refine

/-!
# The pipeline simulates the statements

One lemma for each process: a step of the process is a step of the pipeline, which leads to a related state. The call of `filter_chain`
is the only statement that is no step of the pipeline; `World.called` falls at each call and rises when it is done.
-/

namespace OsLabs.Sieve

variable {w w' : World} {s : State} {maxprime : Int} {mode : Mode} {N : Nat}

/-! ## Moves -/

/-- A `Close` of a number that is open. -/
theorem World.close_eq {p : Pid} {P : Process} {n : Nat} {rest : List Stmt} (h : P.table.file n ≠ none) :
    w.close p P n rest = w.set p { P with code := rest, table := P.table.close n } := if_neg h

section Moves

variable {P : Process}

/-- `main` moves, and makes no pipe. -/
theorem Related.setMain (hR : Related w s) {q : Proc MainPc} (hq : MainAt P q)
    (hpipes : pipes q.pc s.chain.pc = pipes s.main.pc s.chain.pc) :
    Related (w.set [] P) { s with main := q } :=
  ⟨hR.procs.setMain hq, hR.pipe, hR.stdout, hR.input, hR.printed, hR.made.trans hpipes.symm, hR.failed⟩

/-- The generator moves. -/
theorem Related.setGen (hR : Related w s) {q : Proc GenPc} (hq : GenAt P q) : Related (w.set [0] P) { s with gen := q } :=
  ⟨hR.procs.setGen hq, hR.pipe, hR.stdout, hR.input, hR.printed, hR.made, hR.failed⟩

/-- `filter_chain` moves, and makes no pipe. -/
theorem Related.setChain (hR : Related w s) {q : Proc ChainPc} (hq : ChainAt P q)
    (hpipes : pipes s.main.pc q.pc = pipes s.main.pc s.chain.pc) :
    Related (w.set [1] P) { s with chain := q } :=
  ⟨hR.procs.setChain hq, hR.pipe, hR.stdout, hR.input, hR.printed, hR.made.trans hpipes.symm, hR.failed⟩

/-- Filter `k` moves, and does not execute its last `Close`. -/
theorem Related.setFilter (hR : Related w s) {k : Nat} {q : Proc FilterPc} (hq : FilterAt k P q)
    (hclosed : q.pc.closed = (s.filter k).pc.closed) :
    Related (w.set [k, 1] P) { s with filter := Function.update s.filter k q } := by
  refine ⟨hR.procs.setFilter hq, hR.pipe, hR.stdout, hR.input, hR.printed, hR.made, ?_⟩
  have hsame : (Function.update s.filter k q 0).pc.closed = (s.filter 0).pc.closed := by
    by_cases h0 : 0 = k
    · subst h0
      rw [Function.update_self, hclosed]
    · rw [Function.update_of_ne h0]
  show w.failed = if (Function.update s.filter k q 0).pc.closed = true then _ else _
  rw [hsame]
  exact hR.failed

/-- Both write to `stdout`. -/
theorem Related.write (hR : Related w s) (out : List (List Char)) :
    Related { w with stdout := w.stdout ++ out } { s with stdout := s.stdout ++ out } :=
  { hR with stdout := congrArg (· ++ out) hR.stdout }

/-- Both read a number from pipe `j`. -/
theorem Related.readPipe (hR : Related w s) (j num : Nat) (rest : List Nat) :
    Related { w with pipe := Function.update w.pipe j rest, input := Function.update w.input j (w.input j ++ [num]) }
      { s with pipe := Function.update s.pipe j rest, input := Function.update s.input j (s.input j ++ [num]) } :=
  { hR with
    pipe := congrArg (fun f => Function.update f j rest) hR.pipe
    input := congrArg (fun f => Function.update f j (f j ++ [num])) hR.input }

/-- Both write a number to pipe `j`. -/
theorem Related.writePipe (hR : Related w s) (j num : Nat) :
    Related { w with pipe := Function.update w.pipe j (w.pipe j ++ [num]) }
      { s with pipe := Function.update s.pipe j (s.pipe j ++ [num]) } :=
  { hR with pipe := congrArg (fun f => Function.update f j (f j ++ [num])) hR.pipe }

end Moves

/-! ## `main` -/

/-- `main` waits for one of its two children. -/
theorem main_wait_sim {n : Nat} {alone : List Stmt} (hR : Related w s) (hI : Inv N s) (hq : s.main.pc = .wait (n + 1))
    (hforks : (w.proc []).forks = 2)
    (hmoved : MainAt { w.proc [] with code := List.replicate n .waitChecked ++ [.exit] } { s.main with pc := .wait n })
    (hst : w.wait [] (w.proc []) (List.replicate n .waitChecked ++ [.exit]) alone w') :
    ∃ s', Related w' s' ∧ Step maxprime mode s s' := by
  have hgen := hR.procs.gen.status_eq.1
  have hchain := hR.procs.chain.status_eq.1
  have hmain := hI.main
  rw [hq] at hmain
  have hstep := hR.setMain hmoved (by rw [hq]; rfl)
  rcases hst with ⟨i, hi, hzombie, rfl⟩ | ⟨hreaped, -⟩
  · rw [hforks] at hi
    obtain rfl | rfl : i = 0 ∨ i = 1 := by omega
    · have hz : s.gen.pc = .zombie := GenPc.of_zombie (hgen.symm.trans hzombie)
      obtain ⟨hbuf, hat⟩ := hR.procs.gen
      rw [hz] at hat
      have hreap : GenAt { w.proc [0] with status := .reaped } { s.gen with pc := .reaped } := ⟨hbuf, rfl, hat.code, hat.table, hat.forks⟩
      exact ⟨_, hstep.setGen hreap, StepIn.waitGen hq hz⟩
    · obtain ⟨j, hz⟩ := ChainPc.of_zombie (hchain.symm.trans hzombie)
      obtain ⟨hbuf, hat⟩ := hR.procs.chain
      rw [hz] at hat
      have hreap : ChainAt { w.proc [1] with status := .reaped } { s.chain with pc := .reaped j } :=
        ⟨hbuf, rfl, hat.code, hat.table, hat.forks⟩
      exact ⟨_, hstep.setChain hreap (by simp only [hz]; rfl), StepIn.waitChain hq hz⟩
  · -- not both children have been waited for
    rw [hforks] at hreaped
    have hg := GenPc.of_reaped (hgen.symm.trans (hreaped 0 (by decide)))
    obtain ⟨j, hc⟩ := ChainPc.of_reaped (hchain.symm.trans (hreaped 1 (by decide)))
    have hcount := hmain.2.2
    simp [State.reaped, hg, hc] at hcount

/-- A step of `main`. -/
theorem main_sim (hR : Related w s) (hI : Inv N s) (hst : (calls maxprime mode).step w [] w') :
    ∃ s', Related w' s' ∧ Step maxprime mode s s' := by
  obtain ⟨hlive, hst⟩ := hst
  obtain ⟨hbuf, hat⟩ := hR.procs.main
  have hmade := hR.made
  have hmain := hI.main
  cases hq : s.main.pc with
  | makePipe =>
    rw [hq] at hat hmade hmain
    rw [hat.code] at hst
    obtain rfl := hst
    refine ⟨_, ?_, StepIn.mainPipe hq⟩
    refine ⟨hR.procs.setMain ⟨hbuf, ⟨hlive, rfl, ?_, hat.forks⟩, ?_⟩, hR.pipe, hR.stdout, hR.input, hR.printed, ?_, hR.failed⟩
    · show FdTable.add _ (FdTable.add _ (w.proc []).table) = _
      rw [hat.table, hmade]
      rfl
    · show Function.update (w.proc []).vars .genPipe _ .genPipe = _
      rw [Function.update_self, hat.table]
      rfl
    · show w.made + 1 = s.chain.pc.pipes
      rw [hmade, hmain.2]
      rfl
  | forkGen =>
    rw [hq] at hat
    obtain ⟨hrun, hvars⟩ := hat
    rw [hrun.code] at hst
    simp only [World.exec, mainBody, List.drop, hrun.forks] at hst
    obtain rfl := hst
    have hparent : MainAt { w.proc [] with code := .closeWriteEnd .genPipe :: mainBody.drop 2, forks := 1 }
        { s.main with pc := .closeWrite } := ⟨hbuf, ⟨hlive, rfl, hrun.table, rfl⟩, hvars⟩
    have hchild : GenAt { w.proc [] with code := genChild ++ mainBody.drop 2, forks := 0 } ⟨.closeRead, s.main.fds, s.main.buf⟩ :=
      ⟨hbuf, _, ⟨hlive, rfl, hrun.table, rfl⟩, hvars⟩
    exact ⟨_, (hR.setMain hparent (by rw [hq]; rfl)).setGen hchild, StepIn.forkGen hq⟩
  | closeWrite =>
    rw [hq] at hat
    obtain ⟨hrun, hvars⟩ := hat
    rw [hrun.code] at hst
    obtain rfl := hst
    rw [World.close_eq]
    · refine ⟨_, ?_, StepIn.mainCloseWrite hq⟩
      refine hR.setMain ⟨hbuf, ⟨hlive, rfl, ?_, hrun.forks⟩, hvars⟩ ?_
      · show FdTable.close (w.proc []).table _ = _
        rw [hrun.table, hvars]
        rfl
      · rw [hq]
        rfl
    · rw [hrun.table, hvars]
      simp [slots, std, pipeOf, FdTable.file]
  | forkChain =>
    rw [hq] at hat hmain
    obtain ⟨hrun, hvars⟩ := hat
    rw [hrun.code] at hst
    simp only [World.exec, mainBody, List.drop, hrun.forks] at hst
    obtain rfl := hst
    have hparent : MainAt { w.proc [] with code := .closeReadEnd .genPipe :: mainBody.drop 3, forks := 2 }
        { s.main with pc := .closeRead } := ⟨hbuf, ⟨hlive, rfl, hrun.table, rfl⟩, hvars⟩
    have hchild : ChainAt { w.proc [] with code := .filterChain .genPipe :: mainBody.drop 3, forks := 0 }
        ⟨.read 0, s.main.fds, s.main.buf⟩ := ⟨hbuf, Or.inr ⟨.genPipe, _, ⟨hlive, rfl, hrun.table, rfl⟩, hvars⟩⟩
    exact ⟨_, (hR.setMain hparent (by rw [hq]; rfl)).setChain hchild (by simp only [hmain.2.1]; rfl), StepIn.forkChain hq⟩
  | closeRead =>
    rw [hq] at hat
    obtain ⟨hrun, hvars⟩ := hat
    rw [hrun.code] at hst
    obtain rfl := hst
    rw [World.close_eq]
    · refine ⟨_, ?_, StepIn.mainCloseRead hq⟩
      refine hR.setMain ⟨hbuf, ⟨hlive, rfl, ?_, hrun.forks⟩⟩ ?_
      · show FdTable.close (w.proc []).table _ = _
        rw [hrun.table, hvars]
        rfl
      · rw [hq]
        rfl
    · rw [hrun.table, hvars]
      simp [slots, std, pipeOf, FdTable.file]
  | wait n =>
    rw [hq] at hat
    rw [hat.code] at hst
    cases n with
    | zero =>
      simp only [World.exec, List.replicate, List.nil_append, hbuf] at hst
      obtain rfl := hst
      have hdead : MainAt (w.proc []).dead (unborn .ended) := ⟨rfl, rfl, rfl, rfl, hat.forks⟩
      exact ⟨_, (hR.setMain hdead (by rw [hq]; rfl)).write (flush s.main.buf), StepIn.mainExit hq⟩
    | succ n => exact main_wait_sim hR hI hq hat.forks ⟨hbuf, hlive, rfl, hat.table, hat.forks⟩ hst
  | ended =>
    rw [hq] at hat
    rw [hat.status] at hlive
    cases hlive

/-! ## The generator -/

/-- A step of the generator. -/
theorem gen_sim (hR : Related w s) (hI : Inv N s) (hst : (calls maxprime mode).step w [0] w') :
    ∃ s', Related w' s' ∧ Step maxprime mode s s' := by
  obtain ⟨hlive, hst⟩ := hst
  have hstatus := hR.procs.gen.status_eq.1
  obtain ⟨hbuf, hat⟩ := hR.procs.gen
  cases hq : s.gen.pc with
  | closeRead =>
    rw [hq] at hat
    obtain ⟨rest, hrun, hvars⟩ := hat
    rw [hrun.code] at hst
    obtain rfl := hst
    rw [World.close_eq]
    · refine ⟨_, ?_, StepIn.genCloseRead hq⟩
      refine hR.setGen ⟨hbuf, rest, ⟨hlive, rfl, ?_, hrun.forks⟩, hvars⟩
      show FdTable.close (w.proc [0]).table _ = _
      rw [hrun.table, hvars]
      rfl
    · rw [hrun.table, hvars]
      simp [slots, std, pipeOf, FdTable.file]
  | loop n =>
    rw [hq] at hat
    obtain ⟨rest, hrun, hvars⟩ := hat
    rw [hrun.code] at hst
    simp only [World.exec] at hst
    split_ifs at hst with hn
    · have hfile : (w.proc [0]).table.file ((w.proc [0]).vars .genPipe).write = writeEnd 0 := by
        rw [hrun.table, hvars]
        rfl
      unfold World.writeNum at hst
      rw [hfile] at hst
      rcases hst with ⟨hopen, rfl⟩ | ⟨hopen, rfl⟩
      · have hmoved : GenAt { w.proc [0] with code := .generate (n + 1) :: .exit :: rest } { s.gen with pc := .loop (n + 1) } :=
          ⟨hbuf, rest, ⟨hlive, rfl, hrun.table, hrun.forks⟩, hvars⟩
        exact ⟨_, (hR.setGen hmoved).writePipe 0 n, StepIn.genWrite hq hn ((hR.open_iff hI).mp hopen)⟩
      · refine ⟨_, ?_, StepIn.genKilled hq hn fun ho => hopen ((hR.open_iff hI).mpr ho)⟩
        exact hR.setGen ⟨rfl, rfl, rfl, rfl, hrun.forks⟩
    · obtain rfl := hst
      refine ⟨_, ?_, StepIn.genDone hq (not_le.mp hn)⟩
      exact hR.setGen ⟨hbuf, rest, hlive, rfl, hrun.table, hrun.forks⟩
  | exit =>
    rw [hq] at hat
    obtain ⟨rest, hrun⟩ := hat
    rw [hrun.code] at hst
    simp only [World.exec, hbuf] at hst
    obtain rfl := hst
    have hdead : GenAt (w.proc [0]).dead (unborn .zombie) := ⟨rfl, rfl, rfl, rfl, hrun.forks⟩
    exact ⟨_, (hR.setGen hdead).write (flush s.gen.buf), StepIn.genExit hq⟩
  | unborn | zombie | reaped =>
    rw [hq, hlive] at hstatus
    cases hstatus

/-! ## `filter_chain` -/

/-- Whether the process of `filter_chain` is in a call: 0 before it. -/
def World.called (w : World) : Nat :=
  match (w.proc [1]).code with
  | .filterChain _ :: _ => 0
  | _ => 1

/-- When there is a `filter_chain`, `main` has made its pipe. -/
theorem pipes_eq (hI : Inv N s) (hc : s.chain.pc ≠ .unborn) (c : ChainPc) : pipes s.main.pc c = c.pipes := by
  have hmain := hI.main
  unfold pipes
  split
  · rename_i hq
    rw [hq] at hmain
    exact absurd hmain.2 hc
  · rfl

/-- A step of `filter_chain`. -/
theorem chain_sim (hR : Related w s) (hI : Inv N s) (hst : (calls maxprime mode).step w [1] w') :
    ∃ s', Related w' s' ∧ (Step maxprime mode s s' ∨ s' = s ∧ w.called < w'.called) := by
  obtain ⟨hlive, hst⟩ := hst
  have hstatus := hR.procs.chain.status_eq.1
  rw [hlive] at hstatus
  have hborn : s.chain.pc ≠ .unborn := by
    intro hu
    rw [hu] at hstatus
    cases hstatus
  have hpipes := pipes_eq hI hborn
  have hsame : ∀ c : ChainPc, c.pipes = s.chain.pc.pipes → pipes s.main.pc c = pipes s.main.pc s.chain.pc := by
    intro c hc
    rw [hpipes, hpipes, hc]
  obtain ⟨hbuf, hat⟩ := hR.procs.chain
  cases hq : s.chain.pc with
  | read j =>
    rw [hq] at hat hsame
    rcases hat with ⟨hrun, hvars⟩ | ⟨v, rest, hrun, hvars⟩
    · rw [hrun.code] at hst
      have hfile : (w.proc [1]).table.file ((w.proc [1]).vars .inp).read = readEnd j := by
        rw [hrun.table, hvars]
        exact file_slots_read j _ _ _
      simp only [World.exec, filterChainBody, World.readNum] at hst
      rw [hfile] at hst
      rcases hst with ⟨num, rest, hp, rfl⟩ | ⟨hp, hw, rfl⟩
      · have hmoved : ChainAt { w.proc [1] with code := filterChainBody.drop 1, prime := num } { s.chain with pc := .print j num } :=
          ⟨hbuf, ⟨hlive, rfl, hrun.table, hrun.forks⟩, hvars, rfl⟩
        exact ⟨_, (hR.setChain hmoved (hq ▸ hsame _ rfl)).readPipe j num rest, Or.inl (StepIn.chainRead hq (hR.pipe ▸ hp))⟩
      · refine ⟨_, ?_, Or.inl (StepIn.chainEof hq (hR.pipe ▸ hp) fun ho => hw ((hR.open_iff hI).mpr ho))⟩
        exact hR.setChain ⟨hbuf, hlive, rfl, hrun.table, hrun.forks⟩ (hq ▸ hsame _ rfl)
    · -- the call itself
      rw [hrun.code] at hst
      obtain rfl := hst
      refine ⟨s, hR.setChain (q := s.chain) ⟨hbuf, ?_⟩ rfl, Or.inr ⟨rfl, ?_⟩⟩
      · rw [hq]
        refine Or.inl ⟨⟨hlive, rfl, hrun.table, hrun.forks⟩, ?_⟩
        simpa using hvars
      · simp [World.called, hrun.code, World.set, filterChainBody]
  | print j prime =>
    rw [hq] at hat hsame
    obtain ⟨hrun, hvars, hprime⟩ := hat
    rw [hrun.code] at hst
    obtain rfl := hst
    refine ⟨_, ?_, Or.inl (StepIn.chainPrint hq)⟩
    refine ⟨hR.procs.setChain ⟨?_, ⟨hlive, rfl, hrun.table, hrun.forks⟩, hvars, hprime⟩, hR.pipe, ?_, hR.input, ?_,
      hR.made.trans (hq ▸ (hsame _ rfl).symm), hR.failed⟩
    · show (printf mode (w.proc [1]).buf (line (w.proc [1]).prime)).2 = (printf mode s.chain.buf (line prime)).2
      rw [hbuf, hprime]
    · show w.stdout ++ (printf mode (w.proc [1]).buf (line (w.proc [1]).prime)).1 = s.stdout ++ (printf mode s.chain.buf (line prime)).1
      rw [hR.stdout, hbuf, hprime]
    · show w.printed ++ [(w.proc [1]).prime] = s.printed ++ [prime]
      rw [hR.printed, hprime]
  | makePipe j prime =>
    rw [hq] at hat
    obtain ⟨hrun, hvars, hprime⟩ := hat
    rw [hrun.code] at hst
    obtain rfl := hst
    have hmade : w.made = j + 1 := by
      rw [hR.made, hpipes, hq]
      rfl
    refine ⟨_, ?_, Or.inl (StepIn.chainPipe hq)⟩
    refine ⟨hR.procs.setChain ⟨hbuf, ⟨hlive, rfl, ?_, hrun.forks⟩, ?_, ?_, hprime⟩, hR.pipe, hR.stdout, hR.input, hR.printed, ?_, hR.failed⟩
    · show FdTable.add _ (FdTable.add _ (w.proc [1]).table) = _
      rw [hrun.table, hmade, add_slots_other, add_slots_five]
    · simpa using hvars
    · show Function.update (w.proc [1]).vars .filterPipe _ .filterPipe = _
      rw [Function.update_self, hrun.table, lowest_slots_other, add_slots_other, lowest_slots_five]
      rfl
    · show w.made + 1 = _
      rw [hmade, hpipes]
      rfl
  | fork j prime =>
    rw [hq] at hat hsame
    obtain ⟨hrun, hvars, hfilterPipe, hprime⟩ := hat
    rw [hrun.code] at hst
    simp only [World.exec, filterChainBody, List.drop, hrun.forks] at hst
    obtain rfl := hst
    have hparent : ChainAt { w.proc [1] with code := parentCode, forks := j + 1 } { s.chain with pc := .closeWrite j } :=
      ⟨hbuf, ⟨hlive, rfl, hrun.table, rfl⟩, hvars, hfilterPipe⟩
    have hchild : FilterAt j { w.proc [1] with code := childCode, forks := 0 } ⟨.closeRead prime, s.chain.fds, s.chain.buf⟩ :=
      ⟨hbuf, ⟨hlive, rfl, hrun.table, rfl⟩, hvars, hfilterPipe, hprime⟩
    have hunborn : (s.filter j).pc = .unborn := (hI.born j).mpr (by rw [hq]; exact Nat.le_refl j)
    exact ⟨_, (hR.setChain hparent (hq ▸ hsame _ rfl)).setFilter hchild (by simp only [hunborn]; rfl), Or.inl (StepIn.chainFork hq)⟩
  | closeWrite j =>
    rw [hq] at hat hsame
    obtain ⟨hrun, hvars, hfilterPipe⟩ := hat
    rw [hrun.code] at hst
    obtain rfl := hst
    rw [World.close_eq]
    · refine ⟨_, ?_, Or.inl (StepIn.chainCloseWrite hq)⟩
      refine hR.setChain ⟨hbuf, ⟨hlive, rfl, ?_, hrun.forks⟩, hvars, hfilterPipe⟩ (hq ▸ hsame _ rfl)
      show FdTable.close (w.proc [1]).table _ = _
      rw [hrun.table, hfilterPipe]
      exact close_slots_five j _ _ _
    · rw [hrun.table, hfilterPipe]
      show (slots j _ _ [_]).file 5 ≠ none
      simp
  | closeRead j =>
    rw [hq] at hat hsame
    obtain ⟨hrun, hvars, hfilterPipe⟩ := hat
    rw [hrun.code] at hst
    obtain rfl := hst
    rw [World.close_eq]
    · refine ⟨_, ?_, Or.inl (StepIn.chainCloseRead hq)⟩
      refine hR.setChain ⟨hbuf, Or.inr ⟨.filterPipe, _, ⟨hlive, rfl, ?_, hrun.forks⟩, hfilterPipe⟩⟩ (hq ▸ hsame _ rfl)
      show FdTable.close (w.proc [1]).table _ = _
      rw [hrun.table, hvars, slots_succ]
      exact close_slots_read j _ _ _
    · rw [hrun.table, hvars]
      show (slots j _ _ _).file (3 + j % 2) ≠ none
      simp
  | exit j =>
    rw [hq] at hat hsame
    rw [hat.code] at hst
    simp only [World.exec, hbuf] at hst
    obtain rfl := hst
    have hdead : ChainAt (w.proc [1]).dead (unborn (.zombie j)) := ⟨rfl, rfl, rfl, rfl, hat.forks⟩
    exact ⟨_, (hR.setChain hdead (hq ▸ hsame _ rfl)).write (flush s.chain.buf), Or.inl (StepIn.chainExit hq)⟩
  | unborn => exact absurd hq hborn
  | zombie _ | reaped _ =>
    rw [hq] at hstatus
    cases hstatus

/-! ## The filters -/

/-- The last `Close` of a filter, which is of `in.write`. -/
theorem filter_close_sim {k : Nat} {rest : List Stmt} (hR : Related w s) (hI : Inv N s) (hq : (s.filter k).pc = .closeIn)
    (hrun : (w.proc [k, 1]).Running (.closeWriteEnd .inp :: rest) (slots k (readEnd k) none [writeEnd (k + 1)]) 0)
    (hrest : rest = [.exit]) :
    ∃ s', Related (w.close [k, 1] (w.proc [k, 1]) (pipeOf k).write rest) s' ∧ Step maxprime mode s s' := by
  obtain ⟨hbuf, -⟩ := hR.procs.filter k
  have hholds : ∀ e, (w.proc [k, 1]).table.Holds (.pipe e) ↔ e ∈ (s.filter k).fds := fun e =>
    (hR.procs.filter k).holds (hI.ends.sub k) (hI.ends.filter k)
  have hfailed := hR.failed
  by_cases h0 : k = 0
  · -- the first filter has nothing under 4
    subst h0
    have hfile : (w.proc [0, 1]).table.file 4 = none := by
      rw [hrun.table]
      exact file_slots_other 0 _ _ _
    refine ⟨_, ?_, StepIn.filterCloseIn hq (Or.inl rfl)⟩
    show Related (w.close [0, 1] _ 4 _) _
    rw [World.close, if_pos hfile]
    refine ⟨hR.procs.setFilter ⟨hbuf, ⟨hrun.status, rfl, rfl, hrun.forks⟩, fun e => (hholds e).symm⟩, hR.pipe, hR.stdout, hR.input,
      hR.printed, hR.made, ?_⟩
    rw [hq] at hfailed
    show w.failed ++ [([0, 1], 4)] = if (Function.update s.filter 0 _ 0).pc.closed = true then _ else _
    rw [Function.update_self, hfailed]
    rfl
  · -- the others have their own write end under 5
    have hfive : (pipeOf k).write = 5 := if_neg h0
    have hfile : (w.proc [k, 1]).table.file 5 ≠ none := by
      rw [hrun.table, file_slots_five]
      simp
    have hends : (s.filter k).fds = {.rd k, .wr (k + 1)} := by
      rw [hI.ends.filter k (by rw [hq]; rfl), hq]
      rfl
    have hclosed : (w.proc [k, 1]).table.close 5 = slots k (readEnd k) none [none] := by
      rw [hrun.table, close_slots_five]
    rw [hfive, World.close_eq hfile]
    refine ⟨_, ?_, StepIn.filterCloseIn hq (Or.inr ⟨.wr (k + 1), rfl⟩)⟩
    refine ⟨hR.procs.setFilter ⟨hbuf, ⟨hrun.status, hrest, rfl, hrun.forks⟩, fun e => ?_⟩, hR.pipe, hR.stdout, hR.input, hR.printed,
      hR.made, ?_⟩
    · show e ∈ (s.filter k).fds.erase (.wr (k + 1)) ↔ FdTable.Holds (FdTable.close (w.proc [k, 1]).table 5) _
      rw [hclosed, holds_slots, hends, Finset.pair_comm, Finset.erase_insert (by simp)]
      simp
    · show w.failed = if (Function.update s.filter k _ 0).pc.closed = true then _ else _
      rw [Function.update_of_ne (Ne.symm h0)]
      exact hfailed

/-- A step of filter `k`. -/
theorem filter_sim {k : Nat} (hR : Related w s) (hI : Inv N s) (hst : (calls maxprime mode).step w [k, 1] w') :
    ∃ s', Related w' s' ∧ Step maxprime mode s s' := by
  obtain ⟨hlive, hst⟩ := hst
  have hstatus := (hR.procs.filter k).status_eq.1
  rw [hlive] at hstatus
  obtain ⟨hbuf, hat⟩ := hR.procs.filter k
  cases hq : (s.filter k).pc with
  | closeRead prime =>
    rw [hq] at hat
    obtain ⟨hrun, hvars, hfilterPipe, hprime⟩ := hat
    rw [hrun.code] at hst
    obtain rfl := hst
    rw [World.close_eq]
    · refine ⟨_, ?_, StepIn.filterCloseRead hq⟩
      refine hR.setFilter ⟨hbuf, ⟨hlive, rfl, ?_, hrun.forks⟩, hvars, hfilterPipe, hprime⟩ (by rw [hq]; rfl)
      show FdTable.close (w.proc [k, 1]).table _ = _
      rw [hrun.table, hfilterPipe]
      exact close_slots_other k _ _ _
    · rw [hrun.table, hfilterPipe]
      show (slots k _ _ _).file (3 + (k + 1) % 2) ≠ none
      simp
  | read prime =>
    rw [hq] at hat
    obtain ⟨hrun, hvars, hfilterPipe, hprime⟩ := hat
    rw [hrun.code] at hst
    have hfile : (w.proc [k, 1]).table.file ((w.proc [k, 1]).vars .inp).read = readEnd k := by
      rw [hrun.table, hvars]
      exact file_slots_read k _ _ _
    simp only [World.exec, childCode, chainChild, List.cons_append, List.drop, World.readNum] at hst
    rw [hfile] at hst
    rcases hst with ⟨num, rest, hp, rfl⟩ | ⟨hp, hw, rfl⟩
    · refine ⟨_, (hR.setFilter ?_ ?_).readPipe k num rest, StepIn.filterRead hq (hR.pipe ▸ hp)⟩
      · rw [hprime]
        by_cases hnum : num % prime ≠ 0
        · rw [if_pos hnum, if_pos hnum]
          exact ⟨hbuf, ⟨hlive, rfl, hrun.table, hrun.forks⟩, hvars, hfilterPipe, rfl⟩
        · rw [if_neg hnum, if_neg hnum]
          exact ⟨hbuf, ⟨hlive, rfl, hrun.table, hrun.forks⟩, hvars, hfilterPipe, rfl⟩
      · rw [hq]
        split_ifs <;> rfl
    · refine ⟨_, ?_, StepIn.filterEof hq (hR.pipe ▸ hp) fun ho => hw ((hR.open_iff hI).mpr ho)⟩
      exact hR.setFilter ⟨hbuf, ⟨hlive, rfl, hrun.table, hrun.forks⟩, hvars⟩ (by rw [hq]; rfl)
  | write prime num =>
    rw [hq] at hat
    obtain ⟨hrun, hvars, hfilterPipe, hprime⟩ := hat
    rw [hrun.code] at hst
    have hfile : (w.proc [k, 1]).table.file ((w.proc [k, 1]).vars .filterPipe).write = writeEnd (k + 1) := by
      rw [hrun.table, hfilterPipe]
      exact file_slots_five k _ _ _ _
    simp only [World.exec, World.writeNum] at hst
    rw [hfile] at hst
    have hopen := hI.filter_reader hq
    rcases hst with ⟨-, rfl⟩ | ⟨hno, -⟩
    · have hmoved : FilterAt k { w.proc [k, 1] with code := childCode.drop 1 }
          { s.filter k with pc := .read prime } := ⟨hbuf, ⟨hlive, rfl, hrun.table, hrun.forks⟩, hvars, hfilterPipe, hprime⟩
      exact ⟨_, (hR.setFilter hmoved (by rw [hq]; rfl)).writePipe (k + 1) num, StepIn.filterWrite hq hopen⟩
    · exact absurd ((hR.open_iff hI).mpr hopen) hno
  | closeIn =>
    rw [hq] at hat
    obtain ⟨hrun, hvars⟩ := hat
    rw [hrun.code] at hst
    obtain rfl := hst
    rw [hvars]
    exact filter_close_sim hR hI hq hrun rfl
  | exit =>
    rw [hq] at hat
    obtain ⟨hrun, -⟩ := hat
    rw [hrun.code] at hst
    simp only [World.exec, hbuf] at hst
    obtain rfl := hst
    have hdead : FilterAt k (w.proc [k, 1]).dead (unborn .zombie) := ⟨rfl, rfl, rfl, rfl, hrun.forks⟩
    exact ⟨_, (hR.setFilter hdead (by rw [hq]; rfl)).write (flush (s.filter k).buf), StepIn.filterExit hq⟩
  | unborn | zombie =>
    rw [hq] at hstatus
    cases hstatus

/-! ## Runs -/

/-- A step of any process. -/
theorem sim_step {p : Pid} (hR : Related w s) (hI : Inv N s) (hst : (calls maxprime mode).step w p w') :
    ∃ s', Related w' s' ∧ ((∃ b, (sieve maxprime mode).step s b s') ∨ s' = s ∧ w.called < w'.called) := by
  have hforked : w.proc p ≠ .unforked := by
    intro hu
    have hlive := hst.1
    rw [hu] at hlive
    cases hlive
  rcases hR.procs.forked hforked with rfl | rfl | rfl | ⟨k, rfl⟩
  · obtain ⟨s', hR', hs⟩ := main_sim hR hI hst
    exact ⟨s', hR', Or.inl ⟨(), hs⟩⟩
  · obtain ⟨s', hR', hs⟩ := gen_sim hR hI hst
    exact ⟨s', hR', Or.inl ⟨(), hs⟩⟩
  · obtain ⟨s', hR', hs | hcall⟩ := chain_sim hR hI hst
    · exact ⟨s', hR', Or.inl ⟨(), hs⟩⟩
    · exact ⟨s', hR', Or.inr hcall⟩
  · obtain ⟨s', hR', hs⟩ := filter_sim hR hI hst
    exact ⟨s', hR', Or.inl ⟨(), hs⟩⟩

/-- The pipeline simulates the statements. -/
theorem simulates (maxprime : Int) (mode : Mode) : (calls maxprime mode).Simulates (sieve maxprime mode) Related World.called where
  init := by
    rintro w rfl
    exact ⟨start, rfl, related_boot⟩
  step w p w' s hs hR hst := sim_step hR (inv_reach hs) hst

/-- Every state that the statements reach refines one of the pipeline. -/
theorem related_reach (hw : (calls maxprime mode).Reach w) : ∃ s, Inv maxprime.toNat s ∧ Related w s := by
  obtain ⟨s, hs, hR⟩ := (simulates maxprime mode).reach hw
  exact ⟨s, inv_reach hs, hR⟩

/-- Some run of the statements comes to a state without a step. -/
theorem calls_exists_end (maxprime : Int) (mode : Mode) :
    ∃ w, (calls maxprime mode).Reach w ∧ ∀ p w', ¬ (calls maxprime mode).step w p w' := by
  have hcalled : ∀ w : World, w.called ≤ 1 := by
    intro w
    unfold World.called
    split
    · exact Nat.zero_le 1
    · exact le_refl 1
  exact (simulates maxprime mode).exists_end (fun _ _ _ hs hst => progress_step (inv_reach hs) hst) (fun _ hs => progress_le (inv_reach hs))
    hcalled (Sys.Reach.init rfl) (Sys.Reach.init rfl) related_boot

/-! ## Where no process has a step -/

/-- A process that runs has a step if what is left of its call has one. -/
theorem step_of_exec {p : Pid} {code : List Stmt} {table : FdTable File} {forks : Nat} (hrun : (w.proc p).Running code table forks)
    (h : ∃ w', w.exec p (w.proc p) maxprime mode code w') : ∃ p w', (calls maxprime mode).step w p w' := by
  obtain ⟨w', h⟩ := h
  refine ⟨p, w', hrun.status, ?_⟩
  rw [hrun.code]
  exact h

/-- A `ReadNum` goes on when there is a number in the pipe. -/
theorem World.readNum_ok {p : Pid} {P : Process} {n j num : Nat} {rest : List Nat} {ok : Nat → Process} {eof : Process}
    (hfile : P.table.file n = readEnd j) (hp : w.pipe j = num :: rest) : ∃ w', w.readNum p P n ok eof w' := by
  unfold World.readNum
  rw [hfile]
  exact ⟨_, Or.inl ⟨num, rest, hp, rfl⟩⟩

/-- It goes on at the end of the pipe. -/
theorem World.readNum_eof {p : Pid} {P : Process} {n j : Nat} {ok : Nat → Process} {eof : Process}
    (hfile : P.table.file n = readEnd j) (hp : w.pipe j = []) (hw : ¬ w.Open (.wr j)) : ∃ w', w.readNum p P n ok eof w' := by
  unfold World.readNum
  rw [hfile]
  exact ⟨_, Or.inr ⟨hp, hw, rfl⟩⟩

/-- A `WriteNum` always goes on. -/
theorem World.writeNum_total {p : Pid} {P : Process} {n j num : Nat} {rest : List Stmt} (hfile : P.table.file n = writeEnd j) :
    ∃ w', w.writeNum p P n num rest w' := by
  unfold World.writeNum
  rw [hfile]
  by_cases hopen : w.Open (.rd j)
  · exact ⟨_, Or.inl ⟨hopen, rfl⟩⟩
  · exact ⟨_, Or.inr ⟨hopen, rfl⟩⟩

/-- Where the pipeline has a step, so have the statements. -/
theorem step_of_step {s' : State} (hR : Related w s) (hI : Inv N s) (hst : Step maxprime mode s s') :
    ∃ p w', (calls maxprime mode).step w p w' := by
  obtain ⟨-, hmain⟩ := hR.procs.main
  obtain ⟨-, hgen⟩ := hR.procs.gen
  obtain ⟨-, hchain⟩ := hR.procs.chain
  have hfilter := fun k => (hR.procs.filter k).2
  cases hst with
  | mainPipe h =>
    rw [h] at hmain
    exact step_of_exec hmain ⟨_, rfl⟩
  | forkGen h | mainCloseWrite h | forkChain h | mainCloseRead h =>
    rw [h] at hmain
    exact step_of_exec hmain.1 ⟨_, rfl⟩
  | waitGen h hz =>
    rw [h] at hmain
    have hzombie : (w.proc [0]).status = .zombie := by rw [hR.procs.gen.status_eq.1, hz]; rfl
    exact step_of_exec hmain ⟨_, Or.inl ⟨0, by rw [hmain.forks]; decide, hzombie, rfl⟩⟩
  | waitChain h hz =>
    rw [h] at hmain
    have hzombie : (w.proc [1]).status = .zombie := by rw [hR.procs.chain.status_eq.1, hz]; rfl
    exact step_of_exec hmain ⟨_, Or.inl ⟨1, by rw [hmain.forks]; decide, hzombie, rfl⟩⟩
  | mainExit h =>
    rw [h] at hmain
    exact step_of_exec hmain ⟨_, rfl⟩
  | genCloseRead h =>
    rw [h] at hgen
    obtain ⟨rest, hrun, -⟩ := hgen
    exact step_of_exec hrun ⟨_, rfl⟩
  | genWrite h hn hr | genKilled h hn hr =>
    rw [h] at hgen
    obtain ⟨rest, hrun, hvars⟩ := hgen
    refine step_of_exec hrun ?_
    simp only [World.exec, if_pos hn, hvars]
    exact World.writeNum_total (by rw [hrun.table]; rfl)
  | genDone h hn =>
    rw [h] at hgen
    obtain ⟨rest, hrun, -⟩ := hgen
    refine step_of_exec hrun ?_
    simp only [World.exec, if_neg (not_le.mpr hn)]
    exact ⟨_, rfl⟩
  | genExit h =>
    rw [h] at hgen
    obtain ⟨rest, hrun⟩ := hgen
    exact step_of_exec hrun ⟨_, rfl⟩
  | chainRead h hp =>
    rw [h] at hchain
    rcases hchain with ⟨hrun, hvars⟩ | ⟨v, rest, hrun, -⟩
    · refine step_of_exec hrun (World.readNum_ok ?_ (hR.pipe ▸ hp))
      rw [hrun.table, hvars]
      exact file_slots_read _ _ _ _
    · exact step_of_exec hrun ⟨_, rfl⟩
  | chainEof h hp hw =>
    rw [h] at hchain
    rcases hchain with ⟨hrun, hvars⟩ | ⟨v, rest, hrun, -⟩
    · refine step_of_exec hrun (World.readNum_eof ?_ (hR.pipe ▸ hp) fun ho => hw ((hR.open_iff hI).mp ho))
      rw [hrun.table, hvars]
      exact file_slots_read _ _ _ _
    · exact step_of_exec hrun ⟨_, rfl⟩
  | chainPrint h | chainPipe h | chainFork h | chainCloseWrite h | chainCloseRead h =>
    rw [h] at hchain
    exact step_of_exec hchain.1 ⟨_, rfl⟩
  | chainExit h =>
    rw [h] at hchain
    exact step_of_exec hchain ⟨_, rfl⟩
  | @filterCloseRead k _ h =>
    have hat := hfilter k
    rw [h] at hat
    exact step_of_exec hat.1 ⟨_, rfl⟩
  | @filterRead k _ _ _ h hp =>
    have hat := hfilter k
    rw [h] at hat
    obtain ⟨hrun, hvars, -⟩ := hat
    refine step_of_exec hrun (World.readNum_ok ?_ (hR.pipe ▸ hp))
    rw [hrun.table, hvars]
    exact file_slots_read _ _ _ _
  | @filterEof k _ h hp hw =>
    have hat := hfilter k
    rw [h] at hat
    obtain ⟨hrun, hvars, -⟩ := hat
    refine step_of_exec hrun (World.readNum_eof ?_ (hR.pipe ▸ hp) fun ho => hw ((hR.open_iff hI).mp ho))
    rw [hrun.table, hvars]
    exact file_slots_read _ _ _ _
  | @filterWrite k _ _ h hr | @filterKilled k _ _ h hr =>
    have hat := hfilter k
    rw [h] at hat
    obtain ⟨hrun, -, hfilterPipe, -⟩ := hat
    have hfile : (w.proc [k, 1]).table.file ((w.proc [k, 1]).vars .filterPipe).write = writeEnd (k + 1) := by
      rw [hrun.table, hfilterPipe]
      exact file_slots_five k _ _ _ _
    exact step_of_exec hrun (World.writeNum_total hfile)
  | @filterCloseIn k _ h hc =>
    have hat := hfilter k
    rw [h] at hat
    exact step_of_exec hat.1 ⟨_, rfl⟩
  | @filterExit k h =>
    have hat := hfilter k
    rw [h] at hat
    exact step_of_exec hat.1 ⟨_, rfl⟩

/-- When no process has a step, every process has ended. -/
theorem calls_finished (hw : (calls maxprime mode).Reach w) (hend : ∀ p w', ¬ (calls maxprime mode).step w p w') :
    ∃ s, Inv maxprime.toNat s ∧ Related w s ∧ s.Finished := by
  obtain ⟨s, hI, hR⟩ := related_reach hw
  have hstuck : ∀ s', ¬ Step maxprime mode s s' := by
    intro s' hst
    obtain ⟨p, w', hstep⟩ := step_of_step hR hI hst
    exact hend p w' hstep
  exact ⟨s, hI, hR, finished_of_stuck hI hstuck⟩

/-! ## Whether there is a filter -/

/-- For a `maxprime` below 2 no filter is forked. -/
theorem Inv.forks_eq_zero (hI : Inv maxprime.toNat s) (hmax : maxprime < 2) : s.chain.pc.forks = 0 := by
  have hstage : stage maxprime.toNat 0 = [] := by
    have hN : maxprime.toNat - 1 = 0 := by omega
    simp [stage, hN]
  have hunborn : (s.filter 0).pc = .unborn := by
    by_contra hu
    have hprefix := hI.input_stage 0
    rw [hstage] at hprefix
    exact (hI.filter 0).input_ne_nil hu (List.prefix_nil.mp hprefix)
  exact Nat.le_zero.mp ((hI.born 0).mp hunborn)

/-- For any other there is one when all processes have ended. -/
theorem Inv.forks_pos (hI : Inv maxprime.toNat s) (hf : s.Finished) (hmax : 2 ≤ maxprime) : 0 < s.chain.pc.forks := by
  obtain ⟨-, -, ⟨j, hj⟩, -⟩ := hf
  have hchain := hI.chain
  rw [hj] at hchain ⊢
  show 0 < j
  by_contra h0
  obtain rfl : j = 0 := by omega
  have hstage := hchain.1
  simp [stage] at hstage
  omega

end OsLabs.Sieve
