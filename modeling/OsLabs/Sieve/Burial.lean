import OsLabs.Sieve.Simulation

/-!
# The dead of the sieve

`filter_chain` calls itself and comes back from no call, since each ends in `exit`: the innermost call ends the process when it reads the
end of its pipe. The `wait(NULL)` after the inner call is left on the stack by every call but the innermost, and is never executed
(`no_wait`). So `main` buries its two children, but the process of `filter_chain`, which has forked all the filters, buries none of them
(`buried_iff`, `filters_unburied`).
-/

namespace OsLabs.Sieve

variable {w w' : World} {s : State} {maxprime : Int} {mode : Mode} {P : Process} {N : Nat}

/-- The process has ended, whether or not it was waited for. -/
def Process.Exited (P : Process) : Prop := P.status = .zombie ∨ P.status = .reaped

/-- Every process that has ended has waited for all children that it forked. -/
def Buried (w : World) : Prop := ∀ p, (w.proc p).Exited → ∀ i < (w.proc p).forks, (w.proc (i :: p)).status = .reaped

/-- The process of `filter_chain` has ended, and had forked a filter. -/
def ChainLeft (w : World) : Prop := (w.proc [1]).Exited ∧ 0 < (w.proc [1]).forks

/-! ## Who has children -/

/-- When `main` has waited twice, it has waited for both its children. -/
theorem State.reaped_eq_two (h : s.reaped = 2) : s.gen.pc = .reaped ∧ ∃ j, s.chain.pc = .reaped j := by
  unfold State.reaped at h
  split at h
  · rename_i hgen
    split at h
    · rename_i j hchain
      exact ⟨hgen, j, hchain⟩
    · omega
  · split at h
    · omega
    · omega

/-- `main` ends with both its children waited for. -/
theorem main_buries (hR : Related w s) (hI : Inv N s) (he : (w.proc []).Exited) {i : Nat} (hi : i < (w.proc []).forks) :
    (w.proc [i]).status = .reaped := by
  have hended : s.main.pc = .ended := by
    have hstatus := hR.procs.main.status_eq
    unfold Process.Exited at he
    rw [hstatus] at he
    cases hq : s.main.pc <;> simp [hq, MainPc.status] at he ⊢
  have hmain := hI.main
  obtain ⟨-, hat⟩ := hR.procs.main
  rw [hended] at hat hmain
  rw [hat.forks] at hi
  obtain ⟨hgen, j, hchain⟩ := State.reaped_eq_two hmain.2.2
  obtain rfl | rfl : i = 0 ∨ i = 1 := by omega
  · rw [hR.procs.gen.status_eq.1, hgen]
    rfl
  · rw [hR.procs.chain.status_eq.1, hchain]
    rfl

/-- Nobody waits for a filter. -/
theorem filter_not_reaped (hR : Related w s) (k : Nat) : (w.proc [k, 1]).status ≠ .reaped := by
  rw [(hR.procs.filter k).status_eq.1]
  cases (s.filter k).pc <;> simp [FilterPc.status]

/-- All are buried exactly when the process of `filter_chain` has not ended with a filter forked. -/
theorem Related.buried_iff_not (hR : Related w s) (hI : Inv N s) : Buried w ↔ ¬ ChainLeft w := by
  constructor
  · rintro hb ⟨he, hpos⟩
    exact filter_not_reaped hR 0 (hb [1] he 0 hpos)
  · intro hnot p he i hi
    have hforked : w.proc p ≠ .unforked := by
      intro hu
      rw [hu] at hi
      exact absurd hi (Nat.not_lt_zero i)
    rcases hR.procs.forked hforked with rfl | rfl | rfl | ⟨k, rfl⟩
    · exact main_buries hR hI he hi
    · rw [hR.procs.gen.status_eq.2] at hi
      exact absurd hi (Nat.not_lt_zero i)
    · exact absurd ⟨he, Nat.zero_lt_of_lt hi⟩ hnot
    · rw [(hR.procs.filter k).status_eq.2] at hi
      exact absurd hi (Nat.not_lt_zero i)

/-! ## The waits after the inner calls -/

/-- The next statement is `wait(NULL)`. -/
def waits : List Stmt → Bool
  | .wait :: _ => true
  | _ => false

theorem MainAt.not_waits {q : Proc MainPc} (h : MainAt P q) : waits P.code = false := by
  obtain ⟨-, h⟩ := h
  cases hq : q.pc with
  | makePipe | ended =>
    rw [hq] at h
    rw [h.code]
    rfl
  | forkGen | forkChain | closeWrite | closeRead =>
    rw [hq] at h
    rw [h.1.code]
    rfl
  | wait k =>
    rw [hq] at h
    rw [h.code]
    cases k with
    | zero => rfl
    | succ k => rfl

theorem GenAt.not_waits {q : Proc GenPc} (h : GenAt P q) : waits P.code = false := by
  obtain ⟨-, h⟩ := h
  cases hq : q.pc with
  | unborn =>
    rw [hq] at h
    obtain rfl : P = .unforked := h
    rfl
  | closeRead | loop _ =>
    rw [hq] at h
    obtain ⟨rest, hrun, -⟩ := h
    rw [hrun.code]
    rfl
  | exit =>
    rw [hq] at h
    obtain ⟨rest, hrun⟩ := h
    rw [hrun.code]
    rfl
  | zombie | reaped =>
    rw [hq] at h
    rw [h.code]
    rfl

/-- A call of `filter_chain` comes to an inner call or to `exit`, and never goes on after it. -/
theorem ChainAt.not_waits {q : Proc ChainPc} (h : ChainAt P q) : waits P.code = false := by
  obtain ⟨-, h⟩ := h
  cases hq : q.pc with
  | unborn =>
    rw [hq] at h
    obtain rfl : P = .unforked := h
    rfl
  | read j =>
    rw [hq] at h
    rcases h with ⟨hrun, -⟩ | ⟨v, rest, hrun, -⟩
    · rw [hrun.code]
      rfl
    · rw [hrun.code]
      rfl
  | print _ _ | makePipe _ _ | fork _ _ | closeWrite _ | closeRead _ =>
    rw [hq] at h
    rw [h.1.code]
    rfl
  | exit j | zombie j | reaped j =>
    rw [hq] at h
    rw [h.code]
    rfl

theorem FilterAt.not_waits {k : Nat} {q : Proc FilterPc} (h : FilterAt k P q) : waits P.code = false := by
  obtain ⟨-, h⟩ := h
  cases hq : q.pc with
  | unborn =>
    rw [hq] at h
    obtain rfl : P = .unforked := h
    rfl
  | closeRead _ | read _ | write _ _ | closeIn | exit =>
    rw [hq] at h
    rw [h.1.code]
    rfl
  | zombie =>
    rw [hq] at h
    rw [h.code]
    rfl

/-- No process comes to the `wait(NULL)` of `filter_chain`. -/
theorem no_wait (hw : (calls maxprime mode).Reach w) (p : Pid) : waits (w.proc p).code = false := by
  obtain ⟨s, -, hR⟩ := related_reach hw
  by_cases hu : w.proc p = .unforked
  · rw [hu]
    rfl
  · rcases hR.procs.forked hu with rfl | rfl | rfl | ⟨k, rfl⟩
    · exact hR.procs.main.not_waits
    · exact hR.procs.gen.not_waits
    · exact hR.procs.chain.not_waits
    · exact (hR.procs.filter k).not_waits

/-! ## Runs -/

/-- At the end of every run, all filters that were forked are zombies, which nobody has waited for. -/
theorem filters_unburied (hw : (calls maxprime mode).Reach w) (hend : ∀ p w', ¬ (calls maxprime mode).step w p w') (k : Nat)
    (hk : k < (w.proc [1]).forks) : (w.proc [k, 1]).status = .zombie := by
  obtain ⟨s, hI, hR, hfin⟩ := calls_finished hw hend
  rw [hR.procs.chain.status_eq.2] at hk
  have hborn : (s.filter k).pc ≠ .unborn := fun hu => Nat.not_le.mpr hk ((hI.born k).mp hu)
  rw [(hR.procs.filter k).status_eq.1, (hfin.2.2.2 k).resolve_left hborn]
  rfl

/-- For 2 or more every run that ends leaves a filter unburied. -/
theorem chainLeft_of_end (hmax : 2 ≤ maxprime) (hw : (calls maxprime mode).Reach w)
    (hend : ∀ p w', ¬ (calls maxprime mode).step w p w') : ChainLeft w := by
  obtain ⟨s, hI, hR, hfin⟩ := calls_finished hw hend
  have hpos := hI.forks_pos hfin hmax
  obtain ⟨-, -, ⟨j, hj⟩, -⟩ := hfin
  obtain ⟨hstatus, hforks⟩ := hR.procs.chain.status_eq
  rw [hj] at hstatus
  exact ⟨Or.inr hstatus, hforks ▸ hpos⟩

/-- In every run all are buried exactly where the process of `filter_chain` has not ended after forking a filter; so they are in all
states of all runs exactly when `maxprime` is less than 2, and there is no filter. `LONG_MAX`, for which the generator does not end, is
left out. -/
theorem buried_iff (maxprime : Int) (mode : Mode) :
    (∀ w, (calls maxprime mode).Reach w → (Buried w ↔ ¬ ChainLeft w)) ∧
      ((∀ w, (calls maxprime mode).Reach w → Buried w) ↔ maxprime < 2) := by
  refine ⟨fun w hw => ?_, ?_, fun hmax w hw => ?_⟩
  · obtain ⟨s, hI, hR⟩ := related_reach hw
    exact hR.buried_iff_not hI
  · intro hall
    by_contra hmax
    obtain ⟨w, hw, hend⟩ := calls_exists_end maxprime mode
    obtain ⟨s, hI, hR⟩ := related_reach hw
    exact (hR.buried_iff_not hI).mp (hall w hw) (chainLeft_of_end (not_lt.mp hmax) hw hend)
  · obtain ⟨s, hI, hR⟩ := related_reach hw
    refine (hR.buried_iff_not hI).mpr fun hleft => ?_
    have hforks := hleft.2
    rw [hR.procs.chain.status_eq.2, hI.forks_eq_zero hmax] at hforks
    exact Nat.lt_irrefl 0 hforks

/-- The run for 2, with its one filter. -/
theorem unburied_two : ¬ ∀ w, (calls 2 .line).Reach w → Buried w := by
  intro hall
  obtain ⟨w, hw, hend⟩ := calls_exists_end 2 .line
  obtain ⟨s, hI, hR⟩ := related_reach hw
  exact (hR.buried_iff_not hI).mp (hall w hw) (chainLeft_of_end (le_refl 2) hw hend)

end OsLabs.Sieve
