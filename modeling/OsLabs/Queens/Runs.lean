import OsLabs.Queens.Output
import Mathlib.Algebra.BigOperators.Group.Finset.Piecewise
import Mathlib.Algebra.Order.BigOperators.Group.Finset
import Mathlib.Data.Fin.VecNotation
import Mathlib.Data.Fintype.BigOperators

/-!
# The runs of `het.c`

Each process has only so much to do, with the children that it will fork (`work`), so all processes are gone in the end if those that
wait for the lock do not keep the others from running (`progress`, `total_step`). Then every choice of a column in each row was
made by one process, and the file has the boards without a conflict, each once (`queens`).
-/

namespace OsLabs.Queens

variable {size : Nat}

/-! ## How much there is to do -/

/-- The number of writes of `print_board`. -/
def pieces (size : Nat) : Nat := size * (size + 1 + size + 1) + (size + 1) + 1

theorem length_printBoard (size : Nat) (board : List Nat) : (printBoard size board).length = pieces size := by
  have hsep : (printLineSep size).length = size + 1 := by simp [printLineSep]
  have hrow : ∀ i, (printRow size board i).length = size + 1 + size + 1 := by
    intro i
    simp [printRow, hsep]
    omega
  have hrows : ((List.range size).flatMap (printRow size board)).length = size * (size + 1 + size + 1) := by
    rw [List.length_flatMap]
    simp [hrow]
  rw [printBoard, List.length_append, List.length_append, hrows, hsep]
  rfl

/-- The number of steps of a process and of those below it, with so many rows to go. -/
def work (size : Nat) : Nat → Nat
  | 0 => pieces size + 4
  | rows + 1 => size * (work size rows + 1) + size + 3

/-- What a process with `len` rows has left to do, with the children that it has yet to fork. -/
def Place.left (size len : Nat) : Place → Nat
  | .forking i _ => (size - i) * (work size (size - len - 1) + 1) + size + 3
  | .waiting i _ => size - i + 2
  | .check => pieces size + 4
  | .lock => pieces size + 3
  | .print rest => rest.length + 2
  | .closing => 1
  | .exited => 0

/-- What process `p` has left to do. -/
def left (size : Nat) (s : State) (p : Nat) : Nat := (s.procs p).elim 0 fun P => P.pc.left size P.board.length

/-- What all have left to do. -/
def total (size : Nat) (s : State) : Nat := ∑ p ∈ Finset.range s.next, left size s p

theorem left_some {s : State} {p : Nat} {P : Proc} (h : s.procs p = some P) : left size s p = P.pc.left size P.board.length := by
  rw [left, h]
  rfl

/-- A new process. -/
theorem left_enter {board : List Nat} (h : board.length ≤ size) :
    (enter size board).pc.left size board.length = work size (size - board.length) := by
  unfold enter
  dsimp only
  split
  · obtain ⟨k, hk⟩ := Nat.exists_eq_succ_of_ne_zero (n := size - board.length) (by omega)
    rw [Place.left, hk]
    rfl
  · have h0 : size - board.length = 0 := by omega
    rw [h0]
    rfl

/-- A step of one process that lowers what it has left. -/
theorem total_move {s s' : State} {p : Nat} {P P' : Proc} (hT : Tree size s) (h : s.procs p = some P)
    (hs : s'.procs = Function.update s.procs p (some P')) (hn : s'.next = s.next)
    (hlt : P'.pc.left size P'.board.length < P.pc.left size P.board.length) : total size s' < total size s := by
  have hp : p ∈ Finset.range s.next := by
    rw [Finset.mem_range]
    by_contra hge
    rw [hT.fresh p (Nat.not_lt.mp hge)] at h
    cases h
  have hself : left size s' p < left size s p := by
    rw [left_some h, left_some (P := P') (by rw [hs, Function.update_self])]
    exact hlt
  rw [total, total, hn]
  refine Finset.sum_lt_sum (fun q _ => ?_) ⟨p, hp, hself⟩
  by_cases hq : q = p
  · rw [hq]
    exact Nat.le_of_lt hself
  · rw [left, left, hs, Function.update_of_ne hq]

/-- `Fork` hands work to the child, and does a step. -/
theorem total_fork {s : State} {p : Nat} {P : Proc} {i : Nat} {children : List Nat} (hT : Tree size s) (h : s.procs p = some P)
    (hpc : P.pc = .forking i children) (hi : i < size) : total size (s.fork size p P i children) < total size s := by
  have hl := (hT.procs p P h).level
  rw [hpc] at hl
  have hlt : p < s.next := by
    by_contra hge
    rw [hT.fresh p (Nat.not_lt.mp hge)] at h
    cases h
  have hchild : left size (s.fork size p P i children) s.next = work size (size - P.board.length - 1) := by
    have hlen : (P.board ++ [i]).length = P.board.length + 1 := by simp
    have hle : (P.board ++ [i]).length ≤ size := by
      rw [hlen]
      exact hl.1
    have hnew : (s.fork size p P i children).procs s.next = some (enter size (P.board ++ [i])) := by
      simp [State.fork, State.set]
    rw [left_some hnew]
    have hb : (enter size (P.board ++ [i])).board = P.board ++ [i] := rfl
    rw [hb, left_enter hle, hlen, Nat.sub_sub]
  have hparent : left size (s.fork size p P i children) p + work size (size - P.board.length - 1) < left size s p := by
    have hne : p ≠ s.next := Nat.ne_of_lt hlt
    have hnew : (s.fork size p P i children).procs p = some { P with pc := .forking (i + 1) (children ++ [s.next]) } := by
      simp [State.fork, State.set, hne]
    have hsub : size - i = size - (i + 1) + 1 := by omega
    rw [left_some hnew, left_some h, hpc]
    simp only [Place.left]
    rw [hsub, Nat.add_mul, Nat.one_mul]
    omega
  have hnext : (s.fork size p P i children).next = s.next + 1 := rfl
  rw [total, total, hnext, Finset.sum_range_succ, hchild]
  have hsum : ∑ q ∈ Finset.range s.next, (left size (s.fork size p P i children) q +
      if q = p then work size (size - P.board.length - 1) else 0) =
      ∑ q ∈ Finset.range s.next, left size (s.fork size p P i children) q + work size (size - P.board.length - 1) := by
    rw [Finset.sum_add_distrib, Finset.sum_ite_eq', if_pos (Finset.mem_range.mpr hlt)]
  rw [← hsum]
  refine Finset.sum_lt_sum (fun q hq => ?_) ⟨p, Finset.mem_range.mpr hlt, ?_⟩
  · by_cases hqp : q = p
    · rw [if_pos hqp, hqp]
      exact Nat.le_of_lt hparent
    · have hqn : q ≠ s.next := Nat.ne_of_lt (Finset.mem_range.mp hq)
      have hsame : (s.fork size p P i children).procs q = s.procs q := by
        simp [State.fork, State.set, hqn, hqp]
      rw [if_neg hqp, Nat.add_zero, left, left, hsame]
  · rw [if_pos rfl]
    exact hparent

/-- Every step but a failed `lockf` leaves less to do. -/
theorem total_step {s s' : State} {p : Nat} (hT : Tree size s) (hs : step size s (.step p) s') : total size s' < total size s := by
  cases hs with
  | fork _ P i children h hpc hi => exact total_fork hT h hpc hi
  | forked _ P i children h hpc hi =>
    refine total_move hT h rfl rfl ?_
    rw [hpc]
    simp only [Place.left]
    omega
  | wait _ P i children c C h hpc hi =>
    refine total_move hT h rfl rfl ?_
    rw [hpc]
    simp only [Place.left]
    omega
  | waited _ P i children h hpc hi =>
    refine total_move hT h rfl rfl ?_
    rw [hpc]
    simp only [Place.left]
    omega
  | check _ P h hpc =>
    refine total_move hT h rfl rfl ?_
    rw [hpc]
    dsimp only
    split
    · simp only [Place.left]
      omega
    · simp only [Place.left]
      omega
  | lock _ P h hpc hf =>
    refine total_move hT h rfl rfl ?_
    rw [hpc]
    simp only [Place.left, length_printBoard]
    omega
  | print _ P piece rest h hpc =>
    refine total_move hT h rfl rfl ?_
    rw [hpc]
    simp only [Place.left, List.length_cons]
    omega
  | unlock _ P h hpc =>
    refine total_move hT h rfl rfl ?_
    rw [hpc]
    simp only [Place.left, List.length_nil]
    omega
  | close _ P h hpc =>
    refine total_move hT h rfl rfl ?_
    rw [hpc]
    simp only [Place.left]
    omega

/-! ## Somebody can go on -/

/-- While a process is there, some process has a step that is not a failed `lockf`: the process itself, one of its children, or the one
that prints. The induction is on the rows that are left. -/
theorem progress {s : State} (hT : Tree size s) (hO : Output size s) {p : Nat} {P : Proc} (h : s.procs p = some P)
    (hpc : P.pc ≠ .exited) : ∃ q s', step size s (.step q) s' := by
  induction hk : size - P.board.length using Nat.strongRecOn generalizing p P with
  | ind k ih =>
    have hP := hT.procs p P h
    cases hc : P.pc with
    | forking i children =>
      by_cases hi : i < size
      · exact ⟨p, _, step.fork s p P i children h hc hi⟩
      · exact ⟨p, _, step.forked s p P i children h hc hi⟩
    | waiting i children =>
      by_cases hi : i < size
      · have hl := hP.level
        rw [hc] at hl
        have hlt : i < children.length := by
          rw [hl.2]
          exact hi
        obtain ⟨b, hb, hlong⟩ := hP.listed children[i] (by rw [hc]; exact List.getElem_mem hlt)
        obtain ⟨C, hC, rfl⟩ := exists_of_boardOf hb
        by_cases hx : C.pc = .exited
        · exact ⟨p, _, step.wait s p P i children children[i] C h hc hi (List.getElem?_eq_getElem hlt) hC hx⟩
        · have hle := (hT.valid _ _ hb).1
          exact ih (size - C.board.length) (by omega) hC hx rfl
      · exact ⟨p, _, step.waited s p P i children h hc hi⟩
    | check => exact ⟨p, _, step.check s p P h hc⟩
    | lock =>
      by_cases hf : s.free p
      · exact ⟨p, _, step.lock s p P h hc hf⟩
      · -- Somebody has locked the end of the file, and prints.
        have hex : ∃ q Q rest, s.procs q = some Q ∧ Q.pc = .print rest := by
          by_contra hno
          refine hf fun q Q _ hQ lo hi hlo => ?_
          exact (hO.quiet hQ fun rest e => hno ⟨q, Q, rest, hQ, e⟩).below lo hi hlo
        obtain ⟨q, Q, rest, hQ, hQpc⟩ := hex
        cases rest with
        | nil => exact ⟨q, _, step.unlock s q Q hQ hQpc⟩
        | cons piece rest => exact ⟨q, _, step.print s q Q piece rest hQ hQpc⟩
    | print rest =>
      cases rest with
      | nil => exact ⟨p, _, step.unlock s p P h hc⟩
      | cons piece rest => exact ⟨p, _, step.print s p P piece rest h hc⟩
    | closing => exact ⟨p, _, step.close s p P h hc⟩
    | exited => exact absurd hc hpc

/-- What holds in every reachable state, with a bound on what is left to do. -/
structure Inv (size : Nat) (s : State) : Prop extends Tree size s, Output size s where
  bound : total size s ≤ total size (start size)

/-- The steps without failed calls of `lockf` keep the invariant. -/
theorem inv_inductive (size : Nat) : (het size).Inductive (Inv size) := by
  refine ⟨?_, ?_⟩
  · intro s hs
    rw [hs]
    exact { tree_start size, output_start size with bound := Nat.le_refl _ }
  · intro s a s' hI hs
    have hT := hI.toTree.step hs
    have hO := hI.toOutput.step hI.toTree hs
    cases a with
    | step p =>
      have hlt := total_step hI.toTree hs
      exact { hT, hO with bound := Nat.le_trans (Nat.le_of_lt hlt) hI.bound }
    | busy p =>
      cases hs
      exact hI

/-- The steps that are not failed calls of `lockf`. -/
def Busy (_ : State) (a : Act) : Prop := ∃ p, a = .step p

/-- The invariant of the runs without failed calls. -/
theorem inv_guard (size : Nat) : ((het size).guard Busy).Inductive (Inv size) :=
  ⟨(inv_inductive size).start, fun s a s' hI hs => (inv_inductive size).keep s a s' hI hs.2⟩

/-- How much is done, which every step but a failed `lockf` raises. -/
theorem done_lt (size : Nat) (s : State) (a : Act) (s' : State) (hI : Inv size s) (hs : ((het size).guard Busy).step s a s') :
    total size (start size) - total size s < total size (start size) - total size s' := by
  obtain ⟨⟨p, rfl⟩, hs⟩ := hs
  have hlt := total_step hI.toTree hs
  have hle := hI.bound
  omega

/-- No run goes on for ever, but for failed calls of `lockf`. -/
theorem het_ends (size : Nat) :
    ¬ ∃ f : Nat → State, (het size).init (f 0) ∧ ∀ i, ∃ a, ((het size).guard Busy).step (f i) a (f (i + 1)) :=
  (inv_guard size).no_infinite_run (fun s a s' hI hs => done_lt size s a s' hI hs) fun s _ => Nat.sub_le _ (total size s)

/-- From every reachable state all processes can come to their ends. -/
theorem het_finishes {s : State} (h : (het size).Reach s) : ∃ s', (het size).Path s s' ∧ Finished s' := by
  have hI := (inv_inductive size).reach h
  obtain ⟨s', hpath, hend⟩ := (inv_guard size).exists_end (fun s a s' hI hs => done_lt size s a s' hI hs)
    (fun s _ => Nat.sub_le _ (total size s)) hI
  have hI' := (inv_inductive size).reach (h.path hpath.of_guard)
  refine ⟨s', hpath.of_guard, fun p P hP => ?_⟩
  by_contra hne
  obtain ⟨q, s'', hs⟩ := progress hI'.toTree hI'.toOutput hP hne
  exact hend _ s'' ⟨⟨q, rfl⟩, hs⟩

/-! ## Choices -/

/-- The board of a choice of a column for each row. -/
def rows (f : Fin size → Fin size) : List Nat := List.ofFn fun i => (f i).val

/-- No two queens stand in one column or on one diagonal. -/
def Peaceful (f : Fin size → Fin size) : Prop :=
  Function.Injective f ∧ (Function.Injective fun i => i.val + (f i).val) ∧ Function.Injective fun i => (i.val : Int) - (f i).val

instance (f : Fin size → Fin size) : Decidable (Peaceful f) := inferInstanceAs (Decidable (_ ∧ _))

/-- `conflict` of two rows, for queens. -/
theorem peaceful_iff (f : Fin size → Fin size) :
    Peaceful f ↔ ∀ i j : Fin size, i ≠ j → conflict i.val (f i).val j.val (f j).val = false := by
  have hrows : ∀ i j : Fin size, i ≠ j → (conflict i.val (f i).val j.val (f j).val = false ↔
      f i ≠ f j ∧ i.val + (f i).val ≠ j.val + (f j).val ∧ (i.val : Int) - (f i).val ≠ j.val - (f j).val) := by
    intro i j hij
    have hne : (i.val : Int) ≠ j.val := fun e => hij (Fin.ext (Int.ofNat.inj e))
    have hcol : f i = f j ↔ ((f i).val : Int) = (f j).val := by rw [Fin.ext_iff]; omega
    have hsum : i.val + (f i).val = j.val + (f j).val ↔ (i.val : Int) + (f i).val = j.val + (f j).val := by omega
    rw [Ne, Ne, hcol, hsum]
    simp [conflict, hne, and_assoc]
  constructor
  · rintro ⟨h1, h2, h3⟩ i j hij
    exact (hrows i j hij).mpr ⟨fun e => hij (h1 e), fun e => hij (h2 e), fun e => hij (h3 e)⟩
  · intro h
    refine ⟨fun i j e => ?_, fun i j e => ?_, fun i j e => ?_⟩
    all_goals
      by_contra hij
      obtain ⟨h1, h2, h3⟩ := (hrows i j hij).mp (h i j hij)
    · exact h1 e
    · exact h2 e
    · exact h3 e

theorem rows_injective : Function.Injective (rows : (Fin size → Fin size) → List Nat) := by
  intro f g h
  funext i
  exact Fin.ext (congrFun (List.ofFn_injective h) i)

/-- A board with all rows is a choice. -/
theorem exists_rows {b : List Nat} (hlen : b.length = size) (hb : ∀ x ∈ b, x < size) : ∃ f : Fin size → Fin size, rows f = b := by
  subst hlen
  exact ⟨fun i => ⟨b[i], hb _ (List.getElem_mem i.isLt)⟩, List.ofFn_getElem⟩

theorem cell_rows (f : Fin size → Fin size) (i : Fin size) : cell (rows f) i.val = (f i).val := by
  simp [cell, rows]

/-- The check of `main` is whether two rows conflict. -/
theorem conflicts_rows (f : Fin size → Fin size) : conflicts size (rows f) = false ↔ Peaceful f := by
  have hcell := cell_rows f
  rw [peaceful_iff]
  unfold conflicts
  rw [List.any_eq_false]
  constructor
  · intro h i j hne
    have hi := h i.val (List.mem_range.mpr i.isLt)
    rw [Bool.not_eq_true, List.any_eq_false] at hi
    have hij := hi j.val (List.mem_range.mpr j.isLt)
    have hv : i.val ≠ j.val := fun e => hne (Fin.ext e)
    rw [hcell i, hcell j] at hij
    simpa [hv] using hij
  · intro h i hi
    rw [Bool.not_eq_true, List.any_eq_false]
    intro j hj
    have hi' := List.mem_range.mp hi
    have hj' := List.mem_range.mp hj
    rw [hcell ⟨i, hi'⟩, hcell ⟨j, hj'⟩]
    by_cases hij : i = j
    · simp [hij]
    · have := h ⟨i, hi'⟩ ⟨j, hj'⟩ fun e => hij (congrArg Fin.val e)
      simpa [hij] using this

example : conflicts 4 [1, 3, 0, 2] = false ∧ conflicts 4 [0, 2, 3, 1] = true := by decide

/-- What was printed is peaceful. -/
theorem Printed.peaceful {s : State} (hT : Tree size s) {b : List Nat} (h : Printed size s b) :
    ∃ f : Fin size → Fin size, rows f = b ∧ Peaceful f := by
  obtain ⟨p, P, hP, rfl, hlen, hc, -⟩ := h
  obtain ⟨f, hf⟩ := exists_rows hlen (hT.valid p _ (boardOf_some hP)).2
  refine ⟨f, hf, (conflicts_rows f).mp ?_⟩
  rw [hf]
  exact hc

/-- The processes that have made all their choices. -/
def leaves (size : Nat) (s : State) : Finset Nat := (Finset.range s.next).filter fun p => (s.boardOf p).map List.length = some size

/-- A process with a board is one of those forked. -/
theorem lt_next {s : State} (hT : Tree size s) {p : Nat} {b : List Nat} (h : s.boardOf p = some b) : p < s.next := by
  by_contra hge
  rw [State.boardOf, hT.fresh p (Nat.not_lt.mp hge)] at h
  cases h

/-- In the end each choice has one process, and there are as many processes as choices. -/
theorem leaves_of_finished {s : State} (hT : Tree size s) (hF : Finished s) :
    (∀ f : Fin size → Fin size, ∃! p, s.boardOf p = some (rows f)) ∧ (leaves size s).card = size ^ size := by
  have hex : ∀ f : Fin size → Fin size, ∃ p, s.boardOf p = some (rows f) := by
    intro f
    refine hT.complete hF (rows f) (by simp [rows]) fun x hx => ?_
    obtain ⟨i, rfl⟩ := (List.mem_ofFn' _ _).mp hx
    exact (f i).isLt
  constructor
  · intro f
    obtain ⟨p, hp⟩ := hex f
    exact ⟨p, hp, fun q hq => hT.inj q p _ hq hp⟩
  · choose g hg using hex
    have hinj : Function.Injective g := by
      intro f f' e
      have := hg f
      rw [e, hg f'] at this
      exact (rows_injective (Option.some.inj this)).symm
    have himage : leaves size s = Finset.univ.image g := by
      ext p
      rw [leaves, Finset.mem_filter, Finset.mem_range, Finset.mem_image]
      constructor
      · rintro ⟨-, hp⟩
        obtain ⟨b, hb, hlen⟩ := Option.map_eq_some_iff.mp hp
        obtain ⟨f, rfl⟩ := exists_rows hlen (hT.valid p b hb).2
        exact ⟨f, Finset.mem_univ f, hT.inj _ _ _ (hg f) hb⟩
      · rintro ⟨f, -, rfl⟩
        refine ⟨lt_next hT (hg f), ?_⟩
        rw [hg f]
        simp [rows]
    rw [himage, Finset.card_image_of_injective _ hinj, Finset.card_univ, Fintype.card_fun, Fintype.card_fin]

/-- In the end what was printed is every peaceful choice. -/
theorem printed_of_finished {s : State} (hT : Tree size s) (hF : Finished s) (b : List Nat) :
    Printed size s b ↔ ∃ f : Fin size → Fin size, rows f = b ∧ Peaceful f := by
  constructor
  · exact fun h => h.peaceful hT
  · rintro ⟨f, rfl, hf⟩
    obtain ⟨p, hp, -⟩ := (leaves_of_finished hT hF).1 f
    obtain ⟨P, hP, hb⟩ := exists_of_boardOf hp
    exact ⟨p, P, hP, hb, by simp [rows], (conflicts_rows f).mpr hf, by rw [hF p P hP]; rfl⟩

/-- The picture of a choice shows a queen where the choice has one. -/
theorem queenAt_rows (f : Fin size → Fin size) (i j : Fin size) : queenAt size (boardText size (rows f)) i j = true ↔ f i = j := by
  rw [queenAt_boardText (rows f) i.isLt j.isLt, cell_rows, Fin.ext_iff]
  omega

/-- The pictures of some choices, one after another. -/
def pictures (fs : List (Fin size → Fin size)) : List Char := fs.flatMap fun f => boardText size (rows f)

/-- They have one reading. -/
theorem pictures_injective : Function.Injective (pictures : List (Fin size → Fin size) → List Char) := by
  intro fs gs h
  refine flatMap_injective (fun f => length_boardText size (rows f)) (Nat.succ_pos _) (fun f g hfg => ?_) h
  funext i
  have hfg : boardText size (rows f) = boardText size (rows g) := hfg
  exact ((queenAt_rows g i (f i)).mp (hfg ▸ (queenAt_rows f i (f i)).mpr rfl)).symm

/-- The boards of the file, as choices. -/
theorem exists_choices {order : List (List Nat)} (hnd : order.Nodup)
    (h : ∀ b ∈ order, ∃ f : Fin size → Fin size, rows f = b ∧ Peaceful f) :
    ∃ fs : List (Fin size → Fin size), fs.map rows = order ∧ fs.Nodup ∧ ∀ f ∈ fs, Peaceful f := by
  have : Nonempty (Fin size → Fin size) := ⟨id⟩
  choose! g hg hp using h
  have hmap : (order.map g).map rows = order := by
    rw [List.map_map]
    exact (List.map_congr_left fun b hb => hg b hb).trans (List.map_id order)
  refine ⟨order.map g, hmap, ?_, fun f hf => ?_⟩
  · exact List.Nodup.of_map rows (hmap.symm ▸ hnd)
  · obtain ⟨b, hb, rfl⟩ := List.mem_map.mp hf
    exact hp b hb

/-- What is in the file in a reachable state. -/
theorem written_pictures {s : State} (hT : Tree size s) (hO : Output size s) : ∃ (fs : List (Fin size → Fin size)) (part : List Char),
    fs.Nodup ∧ (∀ f ∈ fs, Peaceful f) ∧ s.written = pictures fs ++ part ∧
      (part = [] ∨ ∃ f : Fin size → Fin size, Peaceful f ∧ f ∉ fs ∧ part <+: boardText size (rows f)) := by
  obtain ⟨order, hnd, hmem, hwr⟩ := hO.text
  obtain ⟨fs, rfl, hfs, hpeace⟩ := exists_choices hnd fun b hb => ((hmem b).mp hb).peaceful hT
  rw [Written, List.flatMap_map] at hwr
  rcases hwr with ⟨-, htext⟩ | ⟨p, P, rest, printed, hP, hpr, -, hpb, htext⟩
  · exact ⟨fs, [], hfs, hpeace, by rw [List.append_nil]; exact htext, Or.inl rfl⟩
  · refine ⟨fs, printed.flatten, hfs, hpeace, htext, Or.inr ?_⟩
    have hl := (hT.procs p P hP).level
    rw [hpr.pc] at hl
    obtain ⟨f, hf⟩ := exists_rows hl (hT.valid p _ (boardOf_some hP)).2
    refine ⟨f, (conflicts_rows f).mp (by rw [hf]; exact hpr.checked), fun hb => ?_, ?_⟩
    · obtain ⟨q, Q, hQ, hQb, -, -, hdone⟩ := (hmem _).mp (List.mem_map_of_mem hb)
      have hqp := hT.inj q p P.board (by rw [← hf, ← hQb]; exact boardOf_some hQ) (boardOf_some hP)
      rw [hqp, hP] at hQ
      obtain rfl := Option.some.inj hQ
      rw [hpr.pc] at hdone
      cases hdone
    · rw [hf, boardText, hpb, List.flatten_append]
      exact List.prefix_append _ _

/-- What is in the file in the end. -/
theorem written_of_finished {s : State} (hT : Tree size s) (hO : Output size s) (hF : Finished s) :
    ∃ fs : List (Fin size → Fin size), fs.Nodup ∧ (∀ f, f ∈ fs ↔ Peaceful f) ∧ s.written = pictures fs := by
  obtain ⟨order, hnd, hmem, hwr⟩ := hO.text
  obtain ⟨fs, rfl, hfs, hpeace⟩ := exists_choices hnd fun b hb => ((hmem b).mp hb).peaceful hT
  rw [Written, List.flatMap_map] at hwr
  refine ⟨fs, hfs, fun f => ⟨hpeace f, fun hf => ?_⟩, ?_⟩
  · have hprinted := (hmem (rows f)).mpr ((printed_of_finished hT hF _).mpr ⟨f, rfl, hf⟩)
    obtain ⟨g, hg, he⟩ := List.mem_map.mp hprinted
    exact rows_injective he ▸ hg
  · rcases hwr with ⟨-, htext⟩ | ⟨p, P, rest, printed, hP, hpr, -⟩
    · exact htext
    · have e := hF p P hP
      rw [hpr.pc] at e
      cases e

/-- In every reachable state no two processes have made the same choices, and the file has pictures of choices without two queens that
attack each other, each once and whole, but for a part of one that comes last. No run goes on for ever, but for failed calls of `lockf`,
and all processes can come to their ends; then every choice of the columns has one process, of `size ^ size`, and the file has the
pictures of all choices without two such queens. A picture shows the queens of its choice, and the file can be read in one way only. -/
theorem queens (size : Nat) {s : State} (h : (het size).Reach s) :
    (∀ p q b, s.boardOf p = some b → s.boardOf q = some b → p = q) ∧
      (∃ (fs : List (Fin size → Fin size)) (part : List Char), fs.Nodup ∧ (∀ f ∈ fs, Peaceful f) ∧ s.written = pictures fs ++ part ∧
        (part = [] ∨ ∃ f : Fin size → Fin size, Peaceful f ∧ f ∉ fs ∧ part <+: boardText size (rows f))) ∧
      (¬ ∃ f : Nat → State, (het size).init (f 0) ∧ ∀ i, ∃ a, ((het size).guard Busy).step (f i) a (f (i + 1))) ∧
      (∃ s', (het size).Path s s' ∧ Finished s') ∧
      (Finished s → (∀ f : Fin size → Fin size, ∃! p, s.boardOf p = some (rows f)) ∧ (leaves size s).card = size ^ size ∧
        ∃ fs : List (Fin size → Fin size), fs.Nodup ∧ (∀ f, f ∈ fs ↔ Peaceful f) ∧ s.written = pictures fs ∧
          ∀ gs : List (Fin size → Fin size), s.written = pictures gs → gs = fs) ∧
      ∀ f : Fin size → Fin size, ∀ i j, queenAt size (boardText size (rows f)) i.val j.val = true ↔ f i = j := by
  have hI := (inv_inductive size).reach h
  have hT := hI.toTree
  refine ⟨hT.inj, written_pictures hT hI.toOutput, het_ends size, het_finishes h, fun hF => ?_, queenAt_rows⟩
  obtain ⟨h1, h2⟩ := leaves_of_finished hT hF
  obtain ⟨fs, hnd, hmem, htext⟩ := written_of_finished hT hI.toOutput hF
  exact ⟨h1, h2, fs, hnd, hmem, htext, fun gs hgs => pictures_injective (hgs.symm.trans htext)⟩

/-- The first of the two choices for a board of four rows, and the second. -/
def four₁ : Fin 4 → Fin 4 := ![1, 3, 0, 2]

def four₂ : Fin 4 → Fin 4 := ![2, 0, 3, 1]

theorem peaceful_four : ∀ f : Fin 4 → Fin 4, Peaceful f ↔ f = four₁ ∨ f = four₂ := by
  decide +kernel

/-- The witness: with four rows a run comes to its end, and then the file has the two pictures. -/
theorem queens_four : ∃ s, (het 4).Reach s ∧ Finished s ∧ (leaves 4 s).card = 256 ∧
    (s.written = pictures [four₁, four₂] ∨ s.written = pictures [four₂, four₁]) := by
  have h0 : (het 4).Reach (start 4) := Sys.Reach.init rfl
  obtain ⟨s, hpath, hF⟩ := (queens 4 h0).2.2.2.1
  obtain ⟨-, hcard, fs, hnd, hmem, htext, -⟩ := (queens 4 (h0.path hpath)).2.2.2.2.1 hF
  refine ⟨s, h0.path hpath, hF, hcard, ?_⟩
  rw [htext]
  have hperm : fs.Perm [four₁, four₂] := by
    refine (List.perm_ext_iff_of_nodup hnd (by decide)).mpr fun f => ?_
    rw [hmem, peaceful_four]
    simp
  obtain ⟨f, g, rfl⟩ := List.length_eq_two.mp hperm.length_eq
  have hne : f ≠ g := by simpa using hnd
  rcases (peaceful_four f).mp ((hmem f).mp (by simp)) with rfl | rfl <;>
    rcases (peaceful_four g).mp ((hmem g).mp (by simp)) with rfl | rfl
  · exact absurd rfl hne
  · exact Or.inl rfl
  · exact Or.inr rfl
  · exact absurd rfl hne

end OsLabs.Queens
