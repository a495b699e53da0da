import OsLabs.ForkSort.Correct

/-!
# Forks that fail (`forksort.c`)

`QuickSort` returns what `fork` returned when that is not zero: the pid of the child, or -1 when there is none. But -1 is also what a
call returns that has sorted its range, and the caller takes it for that. `calls` are the runs of one call with its children, whatever
its forks return, while other processes change cells outside its range.

A call with a small range does not fork, nor do the calls it makes, and sorts in place. A call with a larger range returns -1 only
when its fork fails, and then it has not touched the range. So `failed_fork_iff`: a call that returns -1 has sorted its range in every
run where no fork fails; and in every run at all exactly when the range is small or was sorted before.
-/

namespace OsLabs.ForkSort

variable {left right fuel : Nat} {t : Nat → Int}

/-! ## A small range is sorted without a fork -/

@[simp] theorem get_noFork (i : Nat) : (get i).noFork = get i := rfl

@[simp] theorem put_noFork (i : Nat) (v : Int) : (put i v).noFork = put i v := rfl

@[simp] theorem findInsert_noFork (pivot fuel insert : Nat) : (findInsert pivot fuel insert).noFork = findInsert pivot fuel insert := by
  induction fuel generalizing insert with
  | zero => rfl
  | succ fuel ih => simp only [findInsert, apply_ite Prog.noFork, Prog.noFork_bind, Prog.noFork_pure, get_noFork, ih]

@[simp] theorem memmove_noFork (insert n : Nat) : (memmove insert n).noFork = memmove insert n := by
  induction n with
  | zero => rfl
  | succ n ih => simp only [memmove, Prog.noFork_bind, get_noFork, put_noFork, ih]

@[simp] theorem moveElem_noFork (insert pivot : Nat) : (moveElem insert pivot).noFork = moveElem insert pivot := by
  simp only [moveElem, apply_ite Prog.noFork, Prog.noFork_bind, Prog.noFork_pure, get_noFork, put_noFork, memmove_noFork]

@[simp] theorem insertionLoop_noFork (left right fuel pivot : Nat) :
    (insertionLoop left right fuel pivot).noFork = insertionLoop left right fuel pivot := by
  induction fuel generalizing pivot with
  | zero => rfl
  | succ fuel ih =>
    simp only [insertionLoop, apply_ite Prog.noFork, Prog.noFork_bind, Prog.noFork_pure, findInsert_noFork, moveElem_noFork, ih]

@[simp] theorem swapElem_noFork (i j : Nat) : (swapElem i j).noFork = swapElem i j := by
  simp only [swapElem, Prog.noFork_bind, get_noFork, put_noFork]

@[simp] theorem scanLeft_noFork (right : Nat) (pivot : Int) (fuel left : Nat) :
    (scanLeft right pivot fuel left).noFork = scanLeft right pivot fuel left := by
  induction fuel generalizing left with
  | zero => rfl
  | succ fuel ih => simp only [scanLeft, apply_ite Prog.noFork, Prog.noFork_bind, Prog.noFork_pure, get_noFork, ih]

@[simp] theorem scanRight_noFork (left : Nat) (pivot : Int) (fuel right : Nat) :
    (scanRight left pivot fuel right).noFork = scanRight left pivot fuel right := by
  induction fuel generalizing right with
  | zero => rfl
  | succ fuel ih => simp only [scanRight, apply_ite Prog.noFork, Prog.noFork_bind, Prog.noFork_pure, get_noFork, ih]

@[simp] theorem partitionLoop_noFork (pivot : Int) (fuel left right : Nat) :
    (partitionLoop pivot fuel left right).noFork = partitionLoop pivot fuel left right := by
  induction fuel generalizing left right with
  | zero => rfl
  | succ fuel ih =>
    simp only [partitionLoop, swapFound, apply_ite Prog.noFork, Prog.noFork_bind, Prog.noFork_pure, scanLeft_noFork, scanRight_noFork,
      swapElem_noFork, ih]

@[simp] theorem waitPart_noFork (pid : Int) : (waitPart pid).noFork = waitPart pid := by
  simp only [waitPart, apply_ite Prog.noFork, Prog.noFork, Prog.noFork_pure]

/-- The forks of `QuickSort` after its own are those of the calls it makes. -/
theorem sortRange_noFork (quickSort : Nat → Nat → Prog Int) (left right : Nat) (doFork : Bool) :
    (sortRange quickSort left right doFork).noFork = sortRange (fun l r => (quickSort l r).noFork) left right doFork := by
  have hexit : (Prog.exit : Prog Int).noFork = .exit := rfl
  have hrandom : (Prog.random pure : Prog Nat).noFork = .random pure := rfl
  simp only [sortRange, sortRight, insertionSort, partition, apply_ite Prog.noFork, Prog.noFork_bind, Prog.noFork_pure,
    insertionLoop_noFork, get_noFork, partitionLoop_noFork, swapElem_noFork, waitPart_noFork, hexit, hrandom]

/-- A call with a small range sorts it without a fork. -/
theorem quickSort_small : ∀ fuel left right, left ≤ right → right - left < fuel → right - left ≤ forksortMin →
    SortsRange (fun l r => (quickSort fuel l r).noFork) left right
  | 0, _, _, _, hf, _ => absurd hf (Nat.not_lt_zero _)
  | fuel + 1, left, right, hlr, hf, hsmall => by
    intro own h kids Q hsub hdone _
    change wp (quickSort (fuel + 1) left right).noFork own h kids Q
    rw [quickSort, if_neg (Nat.not_lt.mpr hsmall), sortRange_noFork]
    exact sortRange_here hlr hsub hsmall (fun l r _ h1 _ h2 => quickSort_small fuel l r h1 (by omega) (by omega)) hdone

/-! ## A call and what its forks return -/

/-- A call with its children, and the cells that they have written. -/
structure Call where
  world : World Int
  written : List Nat

/-- The runs of `QuickSort(table, left, right)`: a step of one of its processes, with a fork that fails or not, or a step of another
process (`none`), which may change any cell outside the range. -/
def calls (fuel left right : Nat) (t : Nat → Int) : Sys Call (Option (List Nat × Access)) where
  init s := s.world = .alone t (quickSort fuel left right) left right ∧ s.written = []
  step s l s' :=
    match l with
    | some l =>
      (processes (quickSort fuel left right) left right t).step s.world l s'.world ∧ s'.written = l.2.writes ++ s.written
    | none =>
      s'.world.procs = s.world.procs ∧ Agree (Set.Icc left right) s.world.table s'.world.table ∧ s'.written = s.written

/-- A step with a fork that fails. -/
def ForkFails (l : Option (List Nat × Access)) : Prop := ∃ path, l = some (path, .forkFail)

/-- If the call has returned -1, its range is sorted, with the elements that it had, and nothing outside was written. -/
def SortsInPlace (left right : Nat) (t : Nat → Int) (s : Call) : Prop :=
  ∀ lo hi kids sibs, s.world.procs = .node (some (.ret (-1))) lo hi kids sibs →
    Sorts left right t s.world.table ∧ ∀ i ∈ s.written, i ∈ Set.Icc left right

/-! ## Small ranges -/

/-- The result of a call that sorts in place. -/
def inPlace (left right : Nat) (t : Nat → Int) : Post Int := fun r own h _ =>
  r = some (-1) ∧ own = Set.Icc left right ∧ Sorts left right t h

theorem inPlace_stable : Stable (inPlace left right t) := by
  rintro r own h h' kids ha ⟨hr, rfl, hs⟩
  exact ⟨hr, rfl, hs.congr ha⟩

/-- A call with a small range is one process, which sorts in place and does not fork. -/
def Small (left right : Nat) (t : Nat → Int) (s : Call) : Prop :=
  (∃ c, s.world.procs = .node (some c) left right .nil .nil ∧
    wp c.noFork (Set.Icc left right) s.world.table [] (inPlace left right t)) ∧ ∀ i ∈ s.written, i ∈ Set.Icc left right

theorem small_inductive (hlr : left ≤ right) (hf : right - left < fuel) (hsmall : right - left ≤ forksortMin) :
    (calls fuel left right t).Inductive (Small left right t) where
  start := by
    rintro s ⟨hw, hwritten⟩
    refine ⟨⟨_, by rw [hw]; rfl, ?_⟩, fun i hi => ?_⟩
    · rw [hw]
      exact quickSort_small fuel left right hlr hf hsmall _ t [] _ le_rfl (fun h' hs _ => ⟨rfl, rfl, hs⟩)
        fun pid _ hlt => absurd hlt (Nat.not_lt.mpr hsmall)
    · rw [hwritten] at hi
      cases hi
  keep := by
    rintro s l s' ⟨⟨c, hc, hwp⟩, hin⟩ hstep
    cases l with
    | none =>
      obtain ⟨hprocs, ha, hwritten⟩ := hstep
      exact ⟨⟨c, hprocs.trans hc, wp_congr inPlace_stable ha hwp⟩, hwritten ▸ hin⟩
    | some l =>
      obtain ⟨⟨f', orphans, hst, hprocs⟩, hwritten⟩ := hstep
      rw [hc] at hst
      obtain ⟨c', rfl, rfl, hwp', hwrites⟩ := hst.alone (fun own h kids hq => nomatch hq.1) hwp
      refine ⟨⟨c', by rw [hprocs, Forest.append_nil], hwp'⟩, fun i hi => ?_⟩
      rw [hwritten] at hi
      exact (List.mem_append.mp hi).elim (hwrites i) (hin i)

theorem Small.sortsInPlace {s : Call} (h : Small left right t s) : SortsInPlace left right t s := by
  intro lo hi kids sibs hret
  obtain ⟨⟨c, hc, hwp⟩, hin⟩ := h
  rw [hc] at hret
  cases hret
  exact ⟨hwp.2.2, hin⟩

/-! ## Large ranges -/

/-- A call with a large range has done nothing, and is before its fork or, if forks may fail, has returned -1; or it has returned the
pid of a child. -/
def Delegates (mayFail : Prop) (fuel left right : Nat) (t : Nat → Int) (s : Call) : Prop :=
  (∃ c, s.world.procs = .node (some c) left right .nil .nil ∧ (c = quickSort fuel left right ∨ mayFail ∧ c = .ret (-1)) ∧
    Agree (Set.Icc left right) t s.world.table ∧ s.written = []) ∨
  ∃ pid kids sibs, 0 < pid ∧ s.world.procs = .node (some (.ret pid)) left right kids sibs

theorem delegates_start {mayFail : Prop} {s : Call} (h : (calls fuel left right t).init s) :
    Delegates mayFail fuel left right t s := by
  obtain ⟨hw, hwritten⟩ := h
  refine Or.inl ⟨_, by rw [hw]; rfl, Or.inl rfl, ?_, hwritten⟩
  rw [hw]
  exact Agree.refl _ t

/-- The first step of a call with a large range. -/
theorem quickSort_fork (hlarge : forksortMin < right - left) {t' : Nat → Int} {f' orphans : Forest Int} {path : List Nat} {a : Access}
    (h : FStep t (.node (some (quickSort (fuel + 1) left right)) left right .nil .nil) path a t' f' orphans) :
    t' = t ∧ orphans = .nil ∧ a.writes = [] ∧
      ((a = .forkFail ∧ f' = .node (some (.ret (-1))) left right .nil .nil) ∨
        ∃ pid kids, 0 < pid ∧ f' = .node (some (.ret pid)) left right kids .nil) := by
  rw [quickSort, if_pos hlarge] at h
  cases h with
  | @fork _ _ _ _ _ _ _ pid hpid =>
    have hret : (if pid ≠ 0 then pure pid else sortRange (quickSort fuel) left right true) = .ret pid := if_pos (by omega)
    exact ⟨rfl, rfl, rfl, Or.inr ⟨pid, _, hpid, by rw [← hret]⟩⟩
  | forkFail => exact ⟨rfl, rfl, rfl, Or.inl ⟨rfl, rfl⟩⟩
  | kid hstep => cases hstep
  | sib hstep => cases hstep

theorem Delegates.step {mayFail : Prop} (hlarge : forksortMin < right - left) {s s' : Call} {l : Option (List Nat × Access)}
    (h : Delegates mayFail (fuel + 1) left right t s) (hstep : (calls (fuel + 1) left right t).step s l s')
    (hl : ForkFails l → mayFail) : Delegates mayFail (fuel + 1) left right t s' := by
  cases l with
  | none =>
    obtain ⟨hprocs, ha, hwritten⟩ := hstep
    rcases h with ⟨c, hc, hcase, hag, hw⟩ | ⟨pid, kids, sibs, hpid, hret⟩
    · exact Or.inl ⟨c, hprocs.trans hc, hcase, hag.trans ha, hwritten.trans hw⟩
    · exact Or.inr ⟨pid, kids, sibs, hpid, hprocs.trans hret⟩
  | some l =>
    obtain ⟨⟨f', orphans, hst, hprocs⟩, hwritten⟩ := hstep
    rcases h with ⟨c, hc, rfl | ⟨-, rfl⟩, hag, hw⟩ | ⟨pid, kids, sibs, hpid, hret⟩
    · -- the fork
      rw [hc] at hst
      obtain ⟨htable, rfl, hwrites, ⟨hfail, rfl⟩ | ⟨pid, kids, hpid, rfl⟩⟩ := quickSort_fork hlarge hst
      · refine Or.inl ⟨_, hprocs, Or.inr ⟨hl ⟨l.1, ?_⟩, rfl⟩, ?_, ?_⟩
        · rw [← hfail]
        · rw [htable]
          exact hag
        · rw [hwritten, hwrites, hw, List.append_nil]
      · exact Or.inr ⟨pid, kids, _, hpid, hprocs⟩
    · -- the call has returned -1 and has no children
      rw [hc] at hst
      obtain ⟨-, -, -, hno⟩ := FStep.returned hst
      exact absurd ⟨rfl, rfl⟩ hno
    · rw [hret] at hst
      obtain ⟨kids', sibs', rfl, -⟩ := FStep.returned hst
      exact Or.inr ⟨pid, kids', _, hpid, hprocs⟩

/-- A large range of a call that has returned -1 is as it was. -/
theorem Delegates.sortsInPlace {mayFail : Prop} (hlarge : forksortMin < right - left) {s : Call}
    (h : Delegates mayFail (fuel + 1) left right t s) (hs : mayFail → SortedOn left right t) : SortsInPlace left right t s := by
  intro lo hi kids sibs hret
  rcases h with ⟨c, hc, hcase, hag, hw⟩ | ⟨pid, kids', sibs', hpid, hc⟩
  · rw [hc] at hret
    rcases hcase with rfl | ⟨hfail, rfl⟩
    · rw [quickSort, if_pos hlarge] at hret
      cases hret
    · refine ⟨Sorts.congr ⟨Permuted.refl left right t, hs hfail⟩ hag, fun i hi => ?_⟩
      rw [hw] at hi
      cases hi
  · rw [hc] at hret
    cases hret
    exact absurd hpid (by decide)

/-- A call with a large range whose fork fails has returned -1, and the table is as it was. -/
theorem forkFail_reach (hlarge : forksortMin < right - left) :
    (calls (fuel + 1) left right t).Reach ⟨.alone t (.ret (-1)) left right, []⟩ := by
  have hstart : (calls (fuel + 1) left right t).Reach ⟨.alone t (quickSort (fuel + 1) left right) left right, []⟩ := .init ⟨rfl, rfl⟩
  have hfail : FStep t (.node (some (quickSort (fuel + 1) left right)) left right .nil .nil) [0] .forkFail t
      (.node (some (.ret (-1))) left right .nil .nil) .nil := by
    rw [quickSort, if_pos hlarge]
    exact .forkFail
  exact .step (some ([0], .forkFail)) hstart ⟨⟨_, .nil, hfail, rfl⟩, rfl⟩

/-! ## Calls that return -1 -/

/-- Without a failing fork a call that returns -1 has sorted its range. With them it has in all runs exactly when the range is small,
and no fork is tried, or was sorted before. -/
theorem failed_fork_iff (t : Nat → Int) (left right fuel : Nat) (hlr : left ≤ right) (hf : right - left < fuel) :
    (∀ s, ((calls fuel left right t).guard fun _ l => ¬ ForkFails l).Reach s → SortsInPlace left right t s) ∧
      ((∀ s, (calls fuel left right t).Reach s → SortsInPlace left right t s) ↔
        right - left ≤ forksortMin ∨ SortedOn left right t) := by
  obtain ⟨fuel, rfl⟩ := Nat.exists_eq_succ_of_ne_zero (Nat.ne_zero_of_lt hf)
  rcases Nat.lt_or_ge forksortMin (right - left) with hlarge | hsmall
  · have hnofail : ((calls (fuel + 1) left right t).guard fun _ l => ¬ ForkFails l).Inductive
        (Delegates False (fuel + 1) left right t) :=
      ⟨fun s => delegates_start, fun s l s' h hstep => h.step hlarge hstep.2 fun hl => absurd hl hstep.1⟩
    have hany : (calls (fuel + 1) left right t).Inductive (Delegates True (fuel + 1) left right t) :=
      ⟨fun s => delegates_start, fun s l s' h hstep => h.step hlarge hstep fun _ => trivial⟩
    refine ⟨fun s hs => (hnofail.reach hs).sortsInPlace hlarge False.elim, fun h => Or.inr ?_, ?_⟩
    · exact (h _ (forkFail_reach hlarge) left right .nil .nil rfl).1.2
    · rintro (hsmall | hsorted)
      · exact absurd hsmall (Nat.not_le.mpr hlarge)
      · exact fun s hs => (hany.reach hs).sortsInPlace hlarge fun _ => hsorted
  · have hall : ∀ s, (calls (fuel + 1) left right t).Reach s → SortsInPlace left right t s := fun s hs =>
      ((small_inductive hlr hf hsmall).reach hs).sortsInPlace
    exact ⟨fun s hs => hall s hs.of_guard, fun _ => Or.inl hsmall, fun _ => hall⟩

/-- A range that is too long to be sorted without a fork, and is not sorted: the calls in which the fork fails are the wrong ones. -/
theorem failed_fork_iff_descending :
    (∀ s, ((calls (forksortMin + 2) 0 (forksortMin + 1) descending).guard fun _ l => ¬ ForkFails l).Reach s →
      SortsInPlace 0 (forksortMin + 1) descending s) ∧
      ¬ ∀ s, (calls (forksortMin + 2) 0 (forksortMin + 1) descending).Reach s → SortsInPlace 0 (forksortMin + 1) descending s := by
  obtain ⟨hsucceed, hiff⟩ := failed_fork_iff descending 0 (forksortMin + 1) (forksortMin + 2) (Nat.zero_le _) (Nat.lt_succ_self _)
  refine ⟨hsucceed, fun hall => ?_⟩
  rcases hiff.mp hall with hsmall | hsorted
  · exact absurd hsmall (by decide)
  · exact absurd (hsorted 0 1 (by decide) (by decide) (by decide)) (by decide)

/-- The fork fails: the call returns -1 and has sorted nothing. -/
theorem unsorted_returned : ¬ ∀ (t : Nat → Int) (left right fuel : Nat), left ≤ right → right - left < fuel →
    ∀ s, (calls fuel left right t).Reach s → SortsInPlace left right t s := by
  intro h
  have hlarge : forksortMin < forksortMin + 1 - 0 := by decide
  have hs := h descending 0 (forksortMin + 1) (forksortMin + 1 + 1) (by decide) (by decide) _ (forkFail_reach hlarge)
  obtain ⟨⟨-, hsorted⟩, -⟩ := hs 0 (forksortMin + 1) .nil .nil rfl
  exact absurd (hsorted 0 1 (by decide) (by decide) (by decide)) (by decide)

end OsLabs.ForkSort
