import OsLabs.Lib.Forest
import Mathlib.Data.Multiset.DershowitzManna
import Mathlib.SetTheory.Ordinal.Family
import Mathlib.Tactic.Abel

/-!
# Programs that fork end

A program is a tree without an infinite branch, whatever it reads and draws, so it has a rank that falls at each of its operations. A
fork leaves two programs where one was, both of a lower rank; a wait and an exit only take processes away. The multiset of the ranks of
the processes falls at each step of any of them, and so no run is infinite.
-/

namespace OsLabs

variable {α : Type}

/-- How far a program is from its end. -/
noncomputable def Prog.rank : Prog α → Ordinal.{0}
  | .ret _ => 0
  | .read _ k => ⨆ v, Order.succ (k v).rank
  | .write _ _ k => Order.succ k.rank
  | .random k => ⨆ n, Order.succ (k n).rank
  | .fork _ _ k => ⨆ pid, Order.succ (k pid).rank
  | .wait k => Order.succ k.rank
  | .exit => 0
  | .stuck => 0

theorem lt_iSup_succ {ι : Type} (f : ι → Ordinal.{0}) (i : ι) : f i < ⨆ j, Order.succ (f j) :=
  (Order.lt_succ (f i)).trans_le (Ordinal.le_iSup (fun j => Order.succ (f j)) i)

/-- The rank of a process that has not exited. -/
noncomputable def rankOf : Option (Prog α) → Multiset Ordinal.{0}
  | some p => {p.rank}
  | none => 0

/-- The ranks of the processes that have not exited. -/
noncomputable def Forest.ranks : Forest α → Multiset Ordinal.{0}
  | .nil => 0
  | .node c _ _ kids sibs => rankOf c + (kids.ranks + sibs.ranks)

theorem Forest.ranks_append (f g : Forest α) : (f.append g).ranks = f.ranks + g.ranks := by
  induction f with
  | nil => exact (zero_add _).symm
  | node c lo hi kids sibs ihk ihs => simp only [Forest.append, Forest.ranks, ihs, add_assoc]

/-- A process that is waited for has exited. -/
theorem Reap.ranks {f f' : Forest α} (h : Reap f f') : f'.ranks = f.ranks := by
  induction h with
  | here => simp only [Forest.ranks, rankOf, zero_add]
  | later h ih => simp only [Forest.ranks, ih]

/-- One process gives way to processes of lower ranks. -/
def Falls (M N : Multiset Ordinal.{0}) : Prop := ∃ X Y y, M = X + Y ∧ N = X + {y} ∧ ∀ z ∈ Y, z < y

theorem Falls.add {M N : Multiset Ordinal.{0}} (h : Falls M N) (Z : Multiset Ordinal.{0}) : Falls (Z + M) (Z + N) := by
  obtain ⟨X, Y, y, rfl, rfl, hlt⟩ := h
  exact ⟨Z + X, Y, y, (add_assoc Z X Y).symm, (add_assoc Z X {y}).symm, hlt⟩

theorem Falls.dershowitzManna {M N : Multiset Ordinal.{0}} (h : Falls M N) : M.IsDershowitzMannaLT N := by
  obtain ⟨X, Y, y, rfl, rfl, hlt⟩ := h
  exact ⟨X, Y, {y}, Multiset.singleton_ne_zero y, rfl, rfl, fun z hz => ⟨y, Multiset.mem_singleton_self y, hlt z hz⟩⟩

/-- One process goes on with a program of a lower rank. -/
theorem falls_one {x y : Ordinal.{0}} (h : x < y) (X : Multiset Ordinal.{0}) : Falls ({x} + X) ({y} + X) := by
  refine ⟨X, {x}, y, add_comm _ _, add_comm _ _, fun z hz => ?_⟩
  rw [Multiset.mem_singleton.mp hz]
  exact h

/-- It forks. -/
theorem falls_two {x x' y : Ordinal.{0}} (h : x < y) (h' : x' < y) (X : Multiset Ordinal.{0}) :
    Falls ({x} + ({x'} + X)) ({y} + X) := by
  refine ⟨X, {x} + {x'}, y, by rw [← add_assoc, add_comm], add_comm _ _, fun z hz => ?_⟩
  rw [Multiset.mem_add, Multiset.mem_singleton, Multiset.mem_singleton] at hz
  rcases hz with rfl | rfl
  · exact h
  · exact h'

/-- It exits. -/
theorem falls_none (y : Ordinal.{0}) (X : Multiset Ordinal.{0}) : Falls X ({y} + X) :=
  ⟨X, 0, y, (add_zero X).symm, add_comm _ _, fun z hz => absurd hz (Multiset.notMem_zero z)⟩

/-- Each step of a process, by induction on the way to it. -/
theorem FStep.falls {t t' : Nat → Int} {f f' orphans : Forest α} {path : List Nat} {a : Access}
    (h : FStep t f path a t' f' orphans) : Falls (f'.ranks + orphans.ranks) f.ranks := by
  induction h with
  | @read i k lo hi kids sibs =>
    simp only [Forest.ranks, rankOf, add_zero]
    exact falls_one (lt_iSup_succ (fun v => (k v).rank) (t i)) _
  | @write i v k lo hi kids sibs =>
    simp only [Forest.ranks, rankOf, add_zero]
    exact falls_one (Order.lt_succ k.rank) _
  | @random k lo hi kids sibs n =>
    simp only [Forest.ranks, rankOf, add_zero]
    exact falls_one (lt_iSup_succ (fun n => (k n).rank) n) _
  | @fork lo' hi' k lo hi kids sibs pid hpid =>
    simp only [Forest.ranks, rankOf, add_zero, zero_add, add_assoc]
    exact falls_two (lt_iSup_succ (fun pid => (k pid).rank) pid) (lt_iSup_succ (fun pid => (k pid).rank) 0) _
  | @forkFail lo' hi' k lo hi kids sibs =>
    simp only [Forest.ranks, rankOf, add_zero]
    exact falls_one (lt_iSup_succ (fun pid => (k pid).rank) (-1)) _
  | @wait k lo hi kids kids' sibs hreap =>
    simp only [Forest.ranks, rankOf, add_zero, hreap.ranks]
    exact falls_one (Order.lt_succ k.rank) _
  | @exit lo hi kids sibs =>
    simp only [Forest.ranks, rankOf, zero_add, add_comm sibs.ranks]
    exact falls_none _ _
  | @kid c lo hi kids kids' sibs orphans path a t' h ih =>
    have hfall := ih.add (rankOf c + sibs.ranks)
    have hbefore : rankOf c + sibs.ranks + kids.ranks = rankOf c + (kids.ranks + sibs.ranks) := by abel
    have hafter : rankOf c + sibs.ranks + (kids'.ranks + orphans.ranks) = rankOf c + (kids'.ranks + sibs.ranks) + orphans.ranks := by
      abel
    rw [hbefore, hafter] at hfall
    exact hfall
  | @sib c lo hi kids sibs sibs' orphans j path a t' h ih =>
    have hfall := ih.add (rankOf c + kids.ranks)
    simp only [Forest.ranks, add_assoc] at hfall ⊢
    exact hfall

theorem step_falls {main : Prog α} {lo hi : Nat} {t : Nat → Int} (w : World α) (l : List Nat × Access) (w' : World α)
    (h : (forksSucceed main lo hi t).step w l w') : Multiset.IsDershowitzMannaLT w'.procs.ranks w.procs.ranks := by
  obtain ⟨-, f', orphans, hstep, hw'⟩ := h
  rw [hw', Forest.ranks_append]
  exact hstep.falls.dershowitzManna

/-- No run of the processes is infinite. -/
theorem processes_end (main : Prog α) (lo hi : Nat) (t : Nat → Int) :
    ¬ ∃ f : Nat → World α, ∀ i, ∃ l, (forksSucceed main lo hi t).step (f i) l (f (i + 1)) :=
  Sys.no_infinite_run_of_wellFounded Multiset.wellFounded_isDershowitzMannaLT (fun w => w.procs.ranks) step_falls

/-- Every run of the processes can be brought to a state without a step. -/
theorem exists_processes_end (main : Prog α) (lo hi : Nat) (t : Nat → Int) (w : World α) :
    ∃ w', (forksSucceed main lo hi t).Path w w' ∧ ∀ l w'', ¬ (forksSucceed main lo hi t).step w' l w'' :=
  Sys.exists_end_of_wellFounded Multiset.wellFounded_isDershowitzMannaLT (fun w => w.procs.ranks) step_falls w

end OsLabs
