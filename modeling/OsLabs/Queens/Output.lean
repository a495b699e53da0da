import OsLabs.Queens.Picture
import OsLabs.Queens.Tree

/-!
# What is written

A process prints between its `lockf` and its `F_ULOCK`, and all that time it has locked the end of the file, so it prints alone. What
was written is therefore boards, one after another, of the processes that are through, and a part of the board of the one that prints
(`Output.text`).
-/

namespace OsLabs.Queens

variable {size : Nat}

/-- Behind the check and `print_board`. -/
def Place.done : Place → Bool
  | .closing | .exited => true
  | _ => false

/-- A process with the board has printed it. -/
def Printed (size : Nat) (s : State) (b : List Nat) : Prop :=
  ∃ p P, s.procs p = some P ∧ P.board = b ∧ b.length = size ∧ conflicts size b = false ∧ P.pc.done = true

/-- A process that does not print: what it has locked ends before the offset `off`, and before `lockf` its check is passed. -/
structure Quiet (size off : Nat) (P : Proc) : Prop where
  idle : ∀ rest, P.pc ≠ .print rest
  below : ∀ lo hi, P.locked = some (lo, hi) → ∃ e, hi = some e ∧ e ≤ off
  checked : P.pc = .lock → conflicts size P.board = false

/-- A process that prints has locked the end of the file. -/
structure Printing (size : Nat) (P : Proc) (rest : List (List Char)) : Prop where
  pc : P.pc = .print rest
  tail : ∃ lo, P.locked = some (lo, none)
  checked : conflicts size P.board = false

/-- The boards `order` were written, and nothing else, or a part of the board of the one process that prints. -/
def Written (size : Nat) (s : State) (order : List (List Nat)) : Prop :=
  ((∀ p P, s.procs p = some P → Quiet size s.written.length P) ∧ s.written = order.flatMap (boardText size)) ∨
    ∃ p P rest printed, s.procs p = some P ∧ Printing size P rest ∧
      (∀ q Q, q ≠ p → s.procs q = some Q → Quiet size s.written.length Q) ∧ printBoard size P.board = printed ++ rest ∧
      s.written = order.flatMap (boardText size) ++ printed.flatten

/-- Each board that was printed was written once. -/
structure Output (size : Nat) (s : State) : Prop where
  text : ∃ order : List (List Nat), order.Nodup ∧ (∀ b, b ∈ order ↔ Printed size s b) ∧ Written size s order

/-- A new process prints nothing and has locked nothing. -/
theorem quiet_enter (size off : Nat) (board : List Nat) : Quiet size off (enter size board) := by
  unfold enter
  split
  · exact ⟨by simp, by simp, by simp⟩
  · exact ⟨by simp, by simp, by simp⟩

/-- A new process has printed nothing. -/
theorem not_done_enter (size : Nat) (board : List Nat) : (enter size board).pc.done = false := by
  unfold enter
  dsimp only
  split
  · rfl
  · rfl

/-! ## Steps that write nothing -/

/-- Boards printed before and after a step of one process. -/
theorem printed_move {s s' : State} {p : Nat} {P P' : Proc} (h : s.procs p = some P)
    (hs : s'.procs = Function.update s.procs p (some P')) (hb : P'.board = P.board)
    (hd : P.board.length = size → conflicts size P.board = false → P'.pc.done = P.pc.done) (b : List Nat) :
    Printed size s' b ↔ Printed size s b := by
  constructor
  · rintro ⟨q, Q, hQ, rfl, hlen, hc, hdone⟩
    rw [hs] at hQ
    by_cases hq : q = p
    · rw [hq, Function.update_self] at hQ
      obtain rfl := Option.some.inj hQ
      rw [hb] at hlen hc ⊢
      exact ⟨p, P, h, rfl, hlen, hc, by rw [← hd hlen hc]; exact hdone⟩
    · rw [Function.update_of_ne hq] at hQ
      exact ⟨q, Q, hQ, rfl, hlen, hc, hdone⟩
  · rintro ⟨q, Q, hQ, rfl, hlen, hc, hdone⟩
    by_cases hq : q = p
    · rw [hq, h] at hQ
      obtain rfl := Option.some.inj hQ
      exact ⟨p, P', by rw [hs, Function.update_self], hb, hlen, hc, by rw [hd hlen hc]; exact hdone⟩
    · exact ⟨q, Q, by rw [hs, Function.update_of_ne hq]; exact hQ, rfl, hlen, hc, hdone⟩

/-- A state with the same text in which the new processes are quiet, and the one that prints is as before. -/
theorem Output.same {s s' : State} (hO : Output size s) (hw : s'.written = s.written)
    (hP : ∀ b, Printed size s' b ↔ Printed size s b)
    (hprint : ∀ p P rest, s.procs p = some P → P.pc = .print rest → s'.procs p = some P)
    (hquiet : ∀ p P', s'.procs p = some P' → s.procs p = some P' ∨ Quiet size s.written.length P') : Output size s' := by
  obtain ⟨order, hnd, hmem, hwr⟩ := hO.text
  refine ⟨order, hnd, fun b => by rw [hmem, hP], ?_⟩
  rcases hwr with ⟨hall, htext⟩ | ⟨p, P, rest, printed, h, hpr, hothers, hpb, htext⟩
  · refine Or.inl ⟨fun p P' h' => ?_, by rw [hw]; exact htext⟩
    rw [hw]
    rcases hquiet p P' h' with h | h
    · exact hall p P' h
    · exact h
  · refine Or.inr ⟨p, P, rest, printed, hprint p P rest h hpr.pc, hpr, fun q Q hq h' => ?_, hpb, by rw [hw]; exact htext⟩
    rw [hw]
    rcases hquiet q Q h' with h | h
    · exact hothers q Q hq h
    · exact h

/-- A step of one process that does not print. -/
theorem Output.move {s s' : State} {p : Nat} {P P' : Proc} (hO : Output size s) (h : s.procs p = some P)
    (hs : s'.procs = Function.update s.procs p (some P')) (hw : s'.written = s.written) (hb : P'.board = P.board)
    (hd : P.board.length = size → conflicts size P.board = false → P'.pc.done = P.pc.done) (hi : ∀ rest, P.pc ≠ .print rest)
    (hq : Quiet size s.written.length P') : Output size s' := by
  refine hO.same hw (printed_move h hs hb hd) (fun q Q rest hQ hpc => ?_) fun q Q hQ => ?_
  · have hqp : q ≠ p := by
      rintro rfl
      rw [h] at hQ
      obtain rfl := Option.some.inj hQ
      exact hi rest hpc
    rw [hs, Function.update_of_ne hqp]
    exact hQ
  · rw [hs] at hQ
    by_cases hqp : q = p
    · rw [hqp, Function.update_self] at hQ
      obtain rfl := Option.some.inj hQ
      exact Or.inr hq
    · rw [Function.update_of_ne hqp] at hQ
      exact Or.inl hQ

/-- A process that does not print is quiet. -/
theorem Output.quiet {s : State} (hO : Output size s) {p : Nat} {P : Proc} (h : s.procs p = some P)
    (hi : ∀ rest, P.pc ≠ .print rest) : Quiet size s.written.length P := by
  obtain ⟨order, -, -, ⟨hall, -⟩ | ⟨q, Q, rest, printed, hQ, hpr, hothers, -⟩⟩ := hO.text
  · exact hall p P h
  · refine hothers p P ?_ h
    rintro rfl
    rw [h] at hQ
    obtain rfl := Option.some.inj hQ
    exact hi rest hpr.pc

/-- `Fork` writes nothing. -/
theorem Output.fork {s : State} {p : Nat} {P : Proc} {i : Nat} {children : List Nat} (hT : Tree size s) (hO : Output size s)
    (h : s.procs p = some P) (hpc : P.pc = .forking i children) : Output size (s.fork size p P i children) := by
  have hl := (hT.procs p P h).level
  rw [hpc] at hl
  have hfresh := hT.fresh s.next (Nat.le_refl _)
  have hne : p ≠ s.next := by
    rintro rfl
    rw [hfresh] at h
    cases h
  have hquiet := hO.quiet h (by simp [hpc])
  have hprocs : (s.fork size p P i children).procs =
      Function.update (Function.update s.procs p (some { P with pc := .forking (i + 1) (children ++ [s.next]) })) s.next
        (some (enter size (P.board ++ [i]))) := rfl
  have henter := not_done_enter size (P.board ++ [i])
  -- Neither the parent, which has not all its rows, nor the child has printed anything.
  have hPr : ∀ b, Printed size (s.fork size p P i children) b ↔ Printed size s b := by
    intro b
    constructor
    · rintro ⟨q, Q, hQ, rfl, hlen, hc, hdone⟩
      rw [hprocs] at hQ
      by_cases hqn : q = s.next
      · rw [hqn, Function.update_self] at hQ
        obtain rfl := Option.some.inj hQ
        rw [henter] at hdone
        cases hdone
      · rw [Function.update_of_ne hqn] at hQ
        by_cases hqp : q = p
        · rw [hqp, Function.update_self] at hQ
          obtain rfl := Option.some.inj hQ
          cases hdone
        · rw [Function.update_of_ne hqp] at hQ
          exact ⟨q, Q, hQ, rfl, hlen, hc, hdone⟩
    · rintro ⟨q, Q, hQ, rfl, hlen, hc, hdone⟩
      have hqn : q ≠ s.next := by
        rintro rfl
        rw [hfresh] at hQ
        cases hQ
      have hqp : q ≠ p := by
        rintro rfl
        rw [h] at hQ
        obtain rfl := Option.some.inj hQ
        rw [hpc] at hdone
        cases hdone
      exact ⟨q, Q, by rw [hprocs, Function.update_of_ne hqn, Function.update_of_ne hqp]; exact hQ, rfl, hlen, hc, hdone⟩
  refine hO.same rfl hPr (fun q Q rest hQ hQpc => ?_) fun q Q hQ => ?_
  · have hqn : q ≠ s.next := by
      rintro rfl
      rw [hfresh] at hQ
      cases hQ
    have hqp : q ≠ p := by
      rintro rfl
      rw [h] at hQ
      obtain rfl := Option.some.inj hQ
      rw [hpc] at hQpc
      cases hQpc
    rw [hprocs, Function.update_of_ne hqn, Function.update_of_ne hqp]
    exact hQ
  · rw [hprocs] at hQ
    by_cases hqn : q = s.next
    · rw [hqn, Function.update_self] at hQ
      obtain rfl := Option.some.inj hQ
      exact Or.inr (quiet_enter size s.written.length _)
    · rw [Function.update_of_ne hqn] at hQ
      by_cases hqp : q = p
      · rw [hqp, Function.update_self] at hQ
        obtain rfl := Option.some.inj hQ
        exact Or.inr ⟨by simp, hquiet.below, by simp⟩
      · rw [Function.update_of_ne hqp] at hQ
        exact Or.inl hQ

/-! ## Printing -/

/-- `lockf` succeeds: nobody else prints. -/
theorem Output.lock {s : State} {p : Nat} {P : Proc} (hO : Output size s) (h : s.procs p = some P) (hpc : P.pc = .lock)
    (hf : s.free p) :
    Output size (s.set p { P with pc := .print (printBoard size P.board), locked := some (s.written.length, none) }) := by
  have hc := (hO.quiet h (by simp [hpc])).checked hpc
  have hd : ∀ b, Printed size (s.set p { P with pc := .print (printBoard size P.board), locked := some (s.written.length, none) }) b ↔
      Printed size s b := printed_move h rfl rfl fun _ _ => by rw [hpc]; rfl
  obtain ⟨order, hnd, hmem, hwr⟩ := hO.text
  refine ⟨order, hnd, fun b => by rw [hmem, hd], Or.inr ⟨p, _, printBoard size P.board, [], Function.update_self .., ⟨rfl, ⟨_, rfl⟩, hc⟩,
    fun q Q hq hQ => ?_, rfl, ?_⟩⟩
  · have hQ' : s.procs q = some Q := by
      rw [← hQ]
      exact (Function.update_of_ne hq _ _).symm
    rcases hwr with ⟨hall, -⟩ | ⟨r, R, rest, printed, hR, hpr, hothers, -⟩
    · exact hall q Q hQ'
    · by_cases hqr : q = r
      · -- The one that prints would have locked the end of the file.
        subst hqr
        rw [hQ'] at hR
        obtain rfl := Option.some.inj hR
        obtain ⟨lo, hlo⟩ := hpr.tail
        obtain ⟨e, he, -⟩ := hf q Q hq hQ' lo none hlo
        cases he
      · exact hothers q Q hqr hQ'
  · have hidle : s.written = order.flatMap (boardText size) := by
      rcases hwr with ⟨-, htext⟩ | ⟨r, R, rest, printed, hR, hpr, -⟩
      · exact htext
      · have hrp : r ≠ p := by
          rintro rfl
          rw [h] at hR
          obtain rfl := Option.some.inj hR
          have e := hpr.pc
          rw [hpc] at e
          cases e
        obtain ⟨lo, hlo⟩ := hpr.tail
        obtain ⟨e, he, -⟩ := hf r R hrp hR lo none hlo
        cases he
    rw [List.flatten_nil, List.append_nil]
    exact hidle

/-- The process that prints, and what it has printed. -/
theorem Output.printing {s : State} (hO : Output size s) {p : Nat} {P : Proc} {rest : List (List Char)} (h : s.procs p = some P)
    (hpc : P.pc = .print rest) :
    Printing size P rest ∧ (∀ q Q, q ≠ p → s.procs q = some Q → Quiet size s.written.length Q) ∧
      ∃ (order : List (List Nat)) (printed : List (List Char)), order.Nodup ∧ (∀ b, b ∈ order ↔ Printed size s b) ∧
        printBoard size P.board = printed ++ rest ∧
        s.written = order.flatMap (boardText size) ++ printed.flatten := by
  obtain ⟨order, hnd, hmem, ⟨hall, -⟩ | ⟨q, Q, rest', printed, hQ, hpr, hothers, hpb, htext⟩⟩ := hO.text
  · exact absurd hpc ((hall p P h).idle rest)
  · have hqp : q = p := by
      by_contra hne
      exact (hothers p P (Ne.symm hne) h).idle rest hpc
    subst hqp
    rw [h] at hQ
    obtain rfl := Option.some.inj hQ
    have hr : rest = rest' := by
      have := hpr.pc
      rw [hpc] at this
      exact Place.print.inj this
    subst hr
    exact ⟨hpr, hothers, order, printed, hnd, hmem, hpb, htext⟩

/-- Quiet processes stay quiet when the text grows. -/
theorem Quiet.mono {off off' : Nat} {P : Proc} (h : Quiet size off P) (hle : off ≤ off') : Quiet size off' P := by
  refine ⟨h.idle, fun lo hi hlo => ?_, h.checked⟩
  obtain ⟨e, he, hb⟩ := h.below lo hi hlo
  exact ⟨e, he, Nat.le_trans hb hle⟩

/-- One call of `dprintf`. -/
theorem Output.print {s : State} {p : Nat} {P : Proc} {piece : List Char} {rest : List (List Char)} (hO : Output size s)
    (h : s.procs p = some P) (hpc : P.pc = .print (piece :: rest)) :
    Output size { s.set p { P with pc := .print rest } with written := s.written ++ piece } := by
  obtain ⟨hpr, hothers, order, printed, hnd, hmem, hpb, htext⟩ := hO.printing h hpc
  have hd : ∀ b, Printed size { s.set p { P with pc := .print rest } with written := s.written ++ piece } b ↔ Printed size s b :=
    printed_move h rfl rfl fun _ _ => by rw [hpc]; rfl
  refine ⟨order, hnd, fun b => by rw [hmem, hd], Or.inr ⟨p, _, rest, printed ++ [piece], Function.update_self ..,
    ⟨rfl, hpr.tail, hpr.checked⟩, fun q Q hq hQ => ?_, ?_, ?_⟩⟩
  · have hQ' : s.procs q = some Q := by
      rw [← hQ]
      exact (Function.update_of_ne hq _ _).symm
    refine (hothers q Q hq hQ').mono ?_
    rw [List.length_append]
    exact Nat.le_add_right _ _
  · rw [List.append_assoc, List.singleton_append]
    exact hpb
  · simp only [htext, List.flatten_append, List.flatten_cons, List.flatten_nil, List.append_nil, List.append_assoc]

/-- `F_ULOCK`: the board is printed. -/
theorem Output.unlock {s : State} {p : Nat} {P : Proc} (hT : Tree size s) (hO : Output size s) (h : s.procs p = some P)
    (hpc : P.pc = .print []) :
    Output size (s.set p { P with pc := .closing, locked := Queens.unlock s.written.length P.locked }) := by
  obtain ⟨hpr, hothers, order, printed, hnd, hmem, hpb, htext⟩ := hO.printing h hpc
  have hlen : P.board.length = size := by
    have hl := (hT.procs p P h).level
    rw [hpc] at hl
    exact hl
  -- Its board is not among those printed: no other process has it.
  have hnew : P.board ∉ order := by
    intro hb
    obtain ⟨q, Q, hQ, hQb, -, -, hdone⟩ := (hmem _).mp hb
    have hqp := hT.inj q p P.board (by rw [← hQb]; exact boardOf_some hQ) (boardOf_some h)
    rw [hqp, h] at hQ
    obtain rfl := Option.some.inj hQ
    rw [hpc] at hdone
    cases hdone
  refine ⟨order ++ [P.board], ?_, fun b => ?_, Or.inl ⟨fun q Q hQ => ?_, ?_⟩⟩
  · refine List.nodup_append.mpr ⟨hnd, by simp, ?_⟩
    intro b hb b' hb' he
    rw [he, List.mem_singleton.mp hb'] at hb
    exact hnew hb
  · rw [List.mem_append, List.mem_singleton, hmem]
    constructor
    · rintro (⟨q, Q, hQ, rfl, hQlen, hc, hdone⟩ | rfl)
      · have hqp : q ≠ p := by
          rintro rfl
          rw [h] at hQ
          obtain rfl := Option.some.inj hQ
          rw [hpc] at hdone
          cases hdone
        exact ⟨q, Q, by rw [← hQ]; exact Function.update_of_ne hqp _ _, rfl, hQlen, hc, hdone⟩
      · exact ⟨p, _, Function.update_self .., rfl, hlen, hpr.checked, rfl⟩
    · rintro ⟨q, Q, hQ, rfl, hQlen, hc, hdone⟩
      by_cases hqp : q = p
      · subst hqp
        have hQ' := Function.update_self q (some { P with pc := .closing, locked := Queens.unlock s.written.length P.locked }) s.procs
        obtain rfl := Option.some.inj (hQ'.symm.trans hQ)
        exact Or.inr rfl
      · have hQ' : s.procs q = some Q := by
          rw [← hQ]
          exact (Function.update_of_ne hqp _ _).symm
        exact Or.inl ⟨q, Q, hQ', rfl, hQlen, hc, hdone⟩
  · by_cases hqp : q = p
    · subst hqp
      have hQ' := Function.update_self q (some { P with pc := .closing, locked := Queens.unlock s.written.length P.locked }) s.procs
      obtain rfl := Option.some.inj (hQ'.symm.trans hQ)
      obtain ⟨lo, hlo⟩ := hpr.tail
      refine ⟨by simp, fun lo' hi he => ?_, by simp⟩
      simp only [Queens.unlock, hlo, Option.map_some, Option.some.injEq, Prod.mk.injEq] at he
      exact ⟨s.written.length, he.2.symm, Nat.le_refl _⟩
    · have hQ' : s.procs q = some Q := by
        rw [← hQ]
        exact (Function.update_of_ne hqp _ _).symm
      exact hothers q Q hqp hQ'
  · rw [List.append_nil] at hpb
    have htext' : s.written = order.flatMap (boardText size) ++ printed.flatten := htext
    rw [List.flatMap_append, List.flatMap_singleton, boardText, hpb]
    exact htext'

/-! ## All steps -/

/-- A step of a process that has not chosen a column for each row. -/
theorem Output.choose {s : State} {p : Nat} {P : Proc} {c : Place} (hO : Output size s) (h : s.procs p = some P)
    (hlt : P.board.length < size) (hidle : ∀ rest, P.pc ≠ .print rest) (hprint : ∀ rest, c ≠ .print rest) (hlock : c ≠ .lock) :
    Output size (s.set p { P with pc := c }) :=
  hO.move h rfl rfl rfl (fun hlen => absurd hlen (Nat.ne_of_lt hlt)) hidle
    ⟨hprint, (hO.quiet h hidle).below, fun e => absurd e hlock⟩

/-- Every step keeps the text in order. -/
theorem Output.step {s s' : State} {a : Act} (hT : Tree size s) (hO : Output size s) (hs : Queens.step size s a s') :
    Output size s' := by
  cases hs with
  | fork p P i children h hpc hi => exact hO.fork hT h hpc
  | forked p P i children h hpc hi =>
    have hl := (hT.procs p P h).level
    rw [hpc] at hl
    exact hO.choose h hl.1 (by simp [hpc]) (by simp) (by simp)
  | wait p P i children c C h hpc hi hc hC hx =>
    have hl := (hT.procs p P h).level
    rw [hpc] at hl
    exact hO.choose h hl.1 (by simp [hpc]) (by simp) (by simp)
  | waited p P i children h hpc hi =>
    have hl := (hT.procs p P h).level
    rw [hpc] at hl
    exact hO.choose h hl.1 (by simp [hpc]) (by simp) (by simp)
  | check p P h hpc =>
    have hidle : ∀ rest, P.pc ≠ .print rest := by simp [hpc]
    cases hc : conflicts size P.board with
    | true =>
      simp only [if_true]
      exact hO.move h rfl rfl rfl (fun _ hf => by rw [hc] at hf; cases hf) hidle
        ⟨by simp, (hO.quiet h hidle).below, by simp⟩
    | false =>
      simp only [Bool.false_eq_true, if_false]
      exact hO.move h rfl rfl rfl (fun _ _ => by rw [hpc]; rfl) hidle
        ⟨by simp, (hO.quiet h hidle).below, fun _ => hc⟩
  | lock p P h hpc hf => exact hO.lock h hpc hf
  | busy => exact hO
  | print p P piece rest h hpc => exact hO.print h hpc
  | unlock p P h hpc => exact hO.unlock hT h hpc
  | close p P h hpc =>
    have hidle : ∀ rest, P.pc ≠ .print rest := by simp [hpc]
    exact hO.move h rfl rfl rfl (fun _ _ => by rw [hpc]; rfl) hidle
      ⟨by simp, by simp, by simp⟩

/-- At first nothing is written. -/
theorem output_start (size : Nat) : Output size (start size) := by
  have hone : ∀ p P, (start size).procs p = some P → P = enter size [] := by
    intro p P h
    by_cases hp : p = 0
    · subst hp
      exact (Option.some.inj h).symm
    · have hnone : (start size).procs p = none := by simp [start, hp]
      rw [hnone] at h
      cases h
  refine ⟨[], List.nodup_nil, fun b => ⟨fun h => absurd h List.not_mem_nil, ?_⟩, Or.inl ⟨fun p P h => ?_, rfl⟩⟩
  · rintro ⟨p, P, h, -, -, -, hdone⟩
    rw [hone p P h, not_done_enter] at hdone
    cases hdone
  · rw [hone p P h]
    exact quiet_enter size _ []

end OsLabs.Queens
