import OsLabs.Lib.Stage
import OsLabs.Lib.Sys
import Mathlib.Data.Finset.Insert
import Mathlib.Logic.Function.Basic

/-!
# The pipeline of primes of `prime.c`

The processes are `main`, the generator, the process that runs `filter_chain`, and one filter for each prime. A process is its place
in the program, the ends of pipes that it has open and its buffer of `stdout`; `Fork` copies the last two. The pipe of `main` is
number 0, and the one that `filter_chain` makes when it reads from pipe `j` is number `j + 1`; the filter forked there is number `j`.
A pipe is a queue of numbers without bound, `Read` finds its end when it is empty and nobody has its write end open, and a
`Write` to a pipe whose read end nobody has open kills the writer. `Pipe`, `Fork` and the other calls do not fail, but for the last
`Close` of a filter: that is of `in.write`, a number that the process has closed or that names another end by now.

Kept beside the program are the numbers read from each pipe and the numbers given to `printf`.

The generator's counter is the only `long` that can overflow: for `LONG_MAX` its test `n <= maxprime` is always met, and `n++` wraps.
`longSieve` is the program with that test; for any smaller `maxprime` its runs are those of `sieve`, where the counter has no bound
(`longSieve_reach_iff`), and so are the theorems about `sieve` to be read. Past an overflow the numbers in the pipes are the counts of
`n++` and not the values of the `long`s.
-/

namespace OsLabs.Sieve

/-- The ends of pipe `j`. -/
inductive End where
  | rd (j : Nat)
  | wr (j : Nat)
  deriving DecidableEq

/-- A process: its place, the ends that it has open, and what is in its buffer of `stdout`. -/
structure Proc (P : Type) where
  pc : P
  fds : Finset End
  buf : List Char

/-- Where `main` is. -/
inductive MainPc where
  | makePipe | forkGen | closeWrite | forkChain | closeRead
  /-- In the loop, with `n` calls of `Wait` to come. -/
  | wait (n : Nat)
  | ended

/-- Where the generator is. `reaped` is after `main` has waited for it. -/
inductive GenPc where
  | unborn | closeRead
  | loop (n : Nat)
  | exit | zombie | reaped

/-- Where `filter_chain` is, in its call for pipe `j`. -/
inductive ChainPc where
  | unborn
  | read (j : Nat)
  | print (j prime : Nat)
  | makePipe (j prime : Nat)
  | fork (j prime : Nat)
  | closeWrite (j : Nat)
  | closeRead (j : Nat)
  | exit (j : Nat)
  | zombie (j : Nat)
  | reaped (j : Nat)

/-- Where a filter is. -/
inductive FilterPc where
  | unborn
  | closeRead (prime : Nat)
  | read (prime : Nat)
  | write (prime num : Nat)
  /-- Before `CloseWriteEnd(in)`. -/
  | closeIn
  | exit | zombie

/-- How `stdout` is buffered. -/
inductive Mode where
  | line | full
  deriving DecidableEq

/-- The processes, the pipes, and the writes to `stdout` in their order. -/
structure State where
  main : Proc MainPc
  gen : Proc GenPc
  chain : Proc ChainPc
  filter : Nat → Proc FilterPc
  pipe : Nat → List Nat
  stdout : List (List Char)
  /-- The numbers read from each pipe. -/
  input : Nat → List Nat
  /-- The numbers given to `printf`. -/
  printed : List Nat

/-- A process that is not forked yet. -/
def unborn {P : Type} (pc : P) : Proc P := ⟨pc, ∅, []⟩

/-- The state when `main` starts. -/
def start : State where
  main := unborn .makePipe
  gen := unborn .unborn
  chain := unborn .unborn
  filter _ := unborn .unborn
  pipe _ := []
  stdout := []
  input _ := []
  printed := []

/-- Some process has the end `e` open. -/
def State.Open (s : State) (e : End) : Prop :=
  e ∈ s.main.fds ∨ e ∈ s.gen.fds ∨ e ∈ s.chain.fds ∨ ∃ k, e ∈ (s.filter k).fds

/-- The process closes an end and goes on. -/
def Proc.close {P : Type} (p : Proc P) (e : End) (pc : P) : Proc P := { p with pc := pc, fds := p.fds.erase e }

/-- The write of a buffer to `stdout`: none if it is empty. -/
def flush (buf : List Char) : List (List Char) := if buf = [] then [] else [buf]

/-- The buffer of `stdout` in a file or a pipe. -/
def bufsiz : Nat := 4096

/-- What `printf` of one line writes to `stdout`, and what is in the buffer after it. -/
def printf (mode : Mode) (buf line : List Char) : List (List Char) × List Char :=
  match mode with
  | .line => ([buf ++ line], [])
  | .full => if (buf ++ line).length ≤ bufsiz then ([], buf ++ line) else ([(buf ++ line).take bufsiz], (buf ++ line).drop bufsiz)

/-- The line of a number: `"%ld\n"`. -/
def line (n : Nat) : List Char := Nat.toDigits 10 n ++ ['\n']

/-- The steps of the processes, where the generator compares `val n` with `maxprime` when its counter is `n`. -/
inductive StepIn (val : Nat → Int) (maxprime : Int) (mode : Mode) (s : State) : State → Prop where
  -- `main`
  | mainPipe (h : s.main.pc = .makePipe) :
      StepIn val maxprime mode s { s with main := { s.main with pc := .forkGen, fds := {.rd 0, .wr 0} } }
  | forkGen (h : s.main.pc = .forkGen) :
      StepIn val maxprime mode s
        { s with main := { s.main with pc := .closeWrite }, gen := ⟨.closeRead, s.main.fds, s.main.buf⟩ }
  | mainCloseWrite (h : s.main.pc = .closeWrite) :
      StepIn val maxprime mode s { s with main := s.main.close (.wr 0) .forkChain }
  | forkChain (h : s.main.pc = .forkChain) :
      StepIn val maxprime mode s
        { s with main := { s.main with pc := .closeRead }, chain := ⟨.read 0, s.main.fds, s.main.buf⟩ }
  | mainCloseRead (h : s.main.pc = .closeRead) :
      StepIn val maxprime mode s { s with main := s.main.close (.rd 0) (.wait 2) }
  | waitGen {n : Nat} (h : s.main.pc = .wait (n + 1)) (hz : s.gen.pc = .zombie) :
      StepIn val maxprime mode s { s with main := { s.main with pc := .wait n }, gen := { s.gen with pc := .reaped } }
  | waitChain {n j : Nat} (h : s.main.pc = .wait (n + 1)) (hz : s.chain.pc = .zombie j) :
      StepIn val maxprime mode s { s with main := { s.main with pc := .wait n }, chain := { s.chain with pc := .reaped j } }
  | mainExit (h : s.main.pc = .wait 0) :
      StepIn val maxprime mode s { s with main := unborn .ended, stdout := s.stdout ++ flush s.main.buf }
  -- `generator`
  | genCloseRead (h : s.gen.pc = .closeRead) :
      StepIn val maxprime mode s { s with gen := s.gen.close (.rd 0) (.loop 2) }
  | genWrite {n : Nat} (h : s.gen.pc = .loop n) (hn : val n ≤ maxprime) (hr : s.Open (.rd 0)) :
      StepIn val maxprime mode s
        { s with
          gen := { s.gen with pc := .loop (n + 1) }
          pipe := Function.update s.pipe 0 (s.pipe 0 ++ [n]) }
  | genKilled {n : Nat} (h : s.gen.pc = .loop n) (hn : val n ≤ maxprime) (hr : ¬ s.Open (.rd 0)) :
      StepIn val maxprime mode s { s with gen := unborn .zombie }
  | genDone {n : Nat} (h : s.gen.pc = .loop n) (hn : maxprime < val n) :
      StepIn val maxprime mode s { s with gen := { s.gen with pc := .exit } }
  | genExit (h : s.gen.pc = .exit) :
      StepIn val maxprime mode s { s with gen := unborn .zombie, stdout := s.stdout ++ flush s.gen.buf }
  -- `filter_chain`
  | chainRead {j n : Nat} {rest : List Nat} (h : s.chain.pc = .read j) (hp : s.pipe j = n :: rest) :
      StepIn val maxprime mode s
        { s with
          chain := { s.chain with pc := .print j n }
          pipe := Function.update s.pipe j rest
          input := Function.update s.input j (s.input j ++ [n]) }
  | chainEof {j : Nat} (h : s.chain.pc = .read j) (hp : s.pipe j = []) (hw : ¬ s.Open (.wr j)) :
      StepIn val maxprime mode s { s with chain := { s.chain with pc := .exit j } }
  | chainPrint {j prime : Nat} (h : s.chain.pc = .print j prime) :
      StepIn val maxprime mode s
        { s with
          chain := { s.chain with pc := .makePipe j prime, buf := (printf mode s.chain.buf (line prime)).2 }
          stdout := s.stdout ++ (printf mode s.chain.buf (line prime)).1
          printed := s.printed ++ [prime] }
  | chainPipe {j prime : Nat} (h : s.chain.pc = .makePipe j prime) :
      StepIn val maxprime mode s
        { s with chain := { s.chain with pc := .fork j prime, fds := s.chain.fds ∪ {.rd (j + 1), .wr (j + 1)} } }
  | chainFork {j prime : Nat} (h : s.chain.pc = .fork j prime) :
      StepIn val maxprime mode s
        { s with
          chain := { s.chain with pc := .closeWrite j }
          filter := Function.update s.filter j ⟨.closeRead prime, s.chain.fds, s.chain.buf⟩ }
  | chainCloseWrite {j : Nat} (h : s.chain.pc = .closeWrite j) :
      StepIn val maxprime mode s { s with chain := s.chain.close (.wr (j + 1)) (.closeRead j) }
  | chainCloseRead {j : Nat} (h : s.chain.pc = .closeRead j) :
      StepIn val maxprime mode s { s with chain := s.chain.close (.rd j) (.read (j + 1)) }
  | chainExit {j : Nat} (h : s.chain.pc = .exit j) :
      StepIn val maxprime mode s { s with chain := unborn (.zombie j), stdout := s.stdout ++ flush s.chain.buf }
  -- `filter`
  | filterCloseRead {k prime : Nat} (h : (s.filter k).pc = .closeRead prime) :
      StepIn val maxprime mode s
        { s with filter := Function.update s.filter k ((s.filter k).close (.rd (k + 1)) (.read prime)) }
  | filterRead {k prime n : Nat} {rest : List Nat} (h : (s.filter k).pc = .read prime) (hp : s.pipe k = n :: rest) :
      StepIn val maxprime mode s
        { s with
          filter := Function.update s.filter k
            { s.filter k with pc := if n % prime ≠ 0 then .write prime n else .read prime }
          pipe := Function.update s.pipe k rest
          input := Function.update s.input k (s.input k ++ [n]) }
  | filterEof {k prime : Nat} (h : (s.filter k).pc = .read prime) (hp : s.pipe k = []) (hw : ¬ s.Open (.wr k)) :
      StepIn val maxprime mode s { s with filter := Function.update s.filter k { s.filter k with pc := .closeIn } }
  | filterWrite {k prime num : Nat} (h : (s.filter k).pc = .write prime num) (hr : s.Open (.rd (k + 1))) :
      StepIn val maxprime mode s
        { s with
          filter := Function.update s.filter k { s.filter k with pc := .read prime }
          pipe := Function.update s.pipe (k + 1) (s.pipe (k + 1) ++ [num]) }
  | filterKilled {k prime num : Nat} (h : (s.filter k).pc = .write prime num) (hr : ¬ s.Open (.rd (k + 1))) :
      StepIn val maxprime mode s { s with filter := Function.update s.filter k (unborn .zombie) }
  /-- `Close` fails, which ends the process by `exit`, or it closes an end that the process does not use any more. -/
  | filterCloseIn {k : Nat} {fds : Finset End} (h : (s.filter k).pc = .closeIn)
      (hc : fds = (s.filter k).fds ∨ ∃ e, fds = (s.filter k).fds.erase e) :
      StepIn val maxprime mode s { s with filter := Function.update s.filter k { s.filter k with pc := .exit, fds := fds } }
  | filterExit {k : Nat} (h : (s.filter k).pc = .exit) :
      StepIn val maxprime mode s
        { s with
          filter := Function.update s.filter k (unborn .zombie)
          stdout := s.stdout ++ flush (s.filter k).buf }

/-- The steps for a counter without bound. -/
abbrev Step : Int → Mode → State → State → Prop := StepIn Nat.cast

/-- The program run for `maxprime`, for a counter without bound. -/
def sieve (maxprime : Int) (mode : Mode) : Sys State Unit where
  init s := s = start
  step s _ s' := Step maxprime mode s s'

/-- `LONG_MAX`. -/
def longMax : Int := 2 ^ 63 - 1

/-- What a counter of type `long` holds after `n++` has made it `n`: it wraps. -/
def long (n : Nat) : Int := (n : Int).bmod (2 ^ 64)

/-- The program run for `maxprime`, for a counter of type `long`. -/
def longSieve (maxprime : Int) (mode : Mode) : Sys State Unit where
  init s := s = start
  step s _ s' := StepIn long maxprime mode s s'

end OsLabs.Sieve
