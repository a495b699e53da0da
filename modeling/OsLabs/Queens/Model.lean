import OsLabs.Lib.Sys
import Mathlib.Logic.Function.Basic
import Mathlib.Algebra.Order.Ring.Nat

/-!
# The queens of `het.c`

The program places the queens row by row. In `ndselect` a process forks a child for each column and waits for all of them; the choice
is returned in the children only, so that a process with a board of `size` rows has all its choices made. Such a process checks its
board, and prints it under a record lock of the file. A step is one system call of one process; the check is a step too. `Fork` never
fails.

The file is open in all processes, with one offset: what is written goes to its end, and `written` is all of it. `lockf` locks from the
offset on without an end, `F_ULOCK` unlocks from the offset on and leaves what was written locked, and `close` unlocks the rest. A
failed `lockf` is a step that changes nothing.
-/

namespace OsLabs.Queens

/-- `conflict`. -/
def conflict (x1 y1 x2 y2 : Int) : Bool := x1 == x2 || y1 == y2 || x1 + y1 == x2 + y2 || x1 - y1 == x2 - y2

/-- `board[i]`: the cells that are not set hold -1. -/
def cell (board : List Nat) (i : Nat) : Int := (board[i]?.map fun c => (c : Int)).getD (-1)

/-- The check of `main`. -/
def conflicts (size : Nat) (board : List Nat) : Bool :=
  (List.range size).any fun i => (List.range size).any fun j => i != j && conflict i (cell board i) j (cell board j)

/-- `print_line_sep`: what is written, call by call. -/
def printLineSep (size : Nat) : List (List Char) := List.replicate size "+---".toList ++ ["+\n".toList]

/-- A round of the loop of `print_board`. -/
def printRow (size : Nat) (board : List Nat) (i : Nat) : List (List Char) :=
  printLineSep size ++
    (List.range size).map (fun j : Nat => "|".toList ++ if cell board i = j then " Q ".toList else "   ".toList) ++ ["|\n".toList]

/-- `print_board`. -/
def printBoard (size : Nat) (board : List Nat) : List (List Char) :=
  (List.range size).flatMap (printRow size board) ++ printLineSep size ++ ["\n".toList]

/-- Where a process is: in the first or the second loop of `ndselect` with the processes it has forked, before the check, before
`lockf`, in `print_board` with what it has yet to write, before `close`, or gone. -/
inductive Place where
  | forking (i : Nat) (children : List Nat)
  | waiting (i : Nat) (children : List Nat)
  | check
  | lock
  | print (rest : List (List Char))
  | closing
  | exited

/-- A process: the rows of its board that are set, its place, and the bytes of the file that it has locked, from one on and up to
another if there is an end. -/
structure Proc where
  board : List Nat
  pc : Place
  locked : Option (Nat × Option Nat)

/-- The processes by their numbers, the number of the next one, and what was written to the file. -/
structure State where
  procs : Nat → Option Proc
  next : Nat
  written : List Char

/-- A process at the beginning of a round of the loop of `main`, or behind the loop. -/
def enter (size : Nat) (board : List Nat) : Proc where
  board := board
  pc := if board.length < size then .forking 0 [] else .check
  locked := none

/-- Process `p` becomes `P`. -/
def State.set (s : State) (p : Nat) (P : Proc) : State := { s with procs := Function.update s.procs p (some P) }

/-- Nobody but `p` has locked a byte from the offset on. -/
def State.free (s : State) (p : Nat) : Prop :=
  ∀ q Q, q ≠ p → s.procs q = some Q → ∀ lo hi, Q.locked = some (lo, hi) → ∃ e, hi = some e ∧ e ≤ s.written.length

/-- The lock of a process after `F_ULOCK` from the offset `off` on. -/
def unlock (off : Nat) (locked : Option (Nat × Option Nat)) : Option (Nat × Option Nat) :=
  locked.map fun l => (l.1, some off)

/-- What a process does. -/
inductive Act where
  | step (p : Nat)
  /-- `lockf` fails. -/
  | busy (p : Nat)

/-- A step of process `p`. -/
inductive step (size : Nat) : State → Act → State → Prop where
  | fork (s : State) (p : Nat) (P : Proc) (i : Nat) (children : List Nat) (h : s.procs p = some P)
      (hpc : P.pc = .forking i children) (hi : i < size) :
      step size s (.step p) { (s.set p { P with pc := .forking (i + 1) (children ++ [s.next]) }).set s.next
        (enter size (P.board ++ [i])) with next := s.next + 1 }
  | forked (s : State) (p : Nat) (P : Proc) (i : Nat) (children : List Nat) (h : s.procs p = some P)
      (hpc : P.pc = .forking i children) (hi : ¬ i < size) :
      step size s (.step p) (s.set p { P with pc := .waiting 0 children })
  | wait (s : State) (p : Nat) (P : Proc) (i : Nat) (children : List Nat) (c : Nat) (C : Proc) (h : s.procs p = some P)
      (hpc : P.pc = .waiting i children) (hi : i < size) (hc : children[i]? = some c) (hC : s.procs c = some C)
      (hx : C.pc = .exited) : step size s (.step p) (s.set p { P with pc := .waiting (i + 1) children })
  | waited (s : State) (p : Nat) (P : Proc) (i : Nat) (children : List Nat) (h : s.procs p = some P)
      (hpc : P.pc = .waiting i children) (hi : ¬ i < size) : step size s (.step p) (s.set p { P with pc := .closing })
  | check (s : State) (p : Nat) (P : Proc) (h : s.procs p = some P) (hpc : P.pc = .check) :
      step size s (.step p) (s.set p { P with pc := if conflicts size P.board then .closing else .lock })
  | lock (s : State) (p : Nat) (P : Proc) (h : s.procs p = some P) (hpc : P.pc = .lock) (hf : s.free p) :
      step size s (.step p)
        (s.set p { P with pc := .print (printBoard size P.board), locked := some (s.written.length, none) })
  | busy (s : State) (p : Nat) (P : Proc) (h : s.procs p = some P) (hpc : P.pc = .lock) (hf : ¬ s.free p) :
      step size s (.busy p) s
  | print (s : State) (p : Nat) (P : Proc) (piece : List Char) (rest : List (List Char)) (h : s.procs p = some P)
      (hpc : P.pc = .print (piece :: rest)) :
      step size s (.step p) { s.set p { P with pc := .print rest } with written := s.written ++ piece }
  | unlock (s : State) (p : Nat) (P : Proc) (h : s.procs p = some P) (hpc : P.pc = .print []) :
      step size s (.step p) (s.set p { P with pc := .closing, locked := unlock s.written.length P.locked })
  | close (s : State) (p : Nat) (P : Proc) (h : s.procs p = some P) (hpc : P.pc = .closing) :
      step size s (.step p) (s.set p { P with pc := .exited, locked := none })

/-- One process, and an empty file. -/
def start (size : Nat) : State where
  procs := Function.update (fun _ => none) 0 (some (enter size []))
  next := 1
  written := []

/-- The program for a board with `size` rows. -/
def het (size : Nat) : Sys State Act where
  init s := s = start size
  step := step size

/-- All processes are gone. -/
def Finished (s : State) : Prop := ∀ p P, s.procs p = some P → P.pc = .exited

/-- The board of process `p`. -/
def State.boardOf (s : State) (p : Nat) : Option (List Nat) := (s.procs p).map Proc.board

end OsLabs.Queens
