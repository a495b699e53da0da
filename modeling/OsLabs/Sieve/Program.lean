import OsLabs.Lib.FdTable
import OsLabs.Sieve.Model

/-!
# The text of `prime.c`

The program again, statement by statement, with what the pipeline leaves out: the numbers of the descriptors, which the variables of type
`pipe_t` hold and `fork` copies, the calls of `filter_chain` that wait for an inner call to return, and which children a process has
forked and waited for. `MakePipe` takes the two lowest free numbers. `Close` of a number that is not open, or a `Read` or `Write` of one
that is not such an end of a pipe, fails: the wrapper prints the error and ends the process by `exit`. Nothing else fails. The counter
of the generator has no bound here, so `maxprime` is to be read as less than `LONG_MAX`.

A process is known by the way to it in the tree of forks: `i :: p` is the child of `p` that was forked after `i` others, and `main`
is `[]`. A process that has ended is a zombie until its parent waits for it; the process that adopts orphans is left out.
-/

namespace OsLabs.Sieve

/-! ## Statements -/

/-- The two descriptors of a pipe. -/
structure PipeT where
  read : Nat
  write : Nat

/-- The variables of type `pipe_t`: `gen_pipe` of `main`, and `in` and `filter_pipe` of `filter_chain`. -/
inductive Var where
  | genPipe | inp | filterPipe
  deriving DecidableEq

/-- The statements of the program. -/
inductive Stmt where
  /-- `v = MakePipe()`. -/
  | makePipe (v : Var)
  | closeReadEnd (v : Var)
  | closeWriteEnd (v : Var)
  /-- `if (Fork()) parent else child`. -/
  | fork (parent child : List Stmt)
  /-- `if (!ReadNum(in, &prime)) exit(0)`. -/
  | readPrime
  /-- `printf("%ld\n", prime)`. -/
  | printPrime
  /-- `filter_chain(v)`. -/
  | filterChain (v : Var)
  /-- The loop of `generator`, which writes to `gen_pipe`, with `n` to come. -/
  | generate (n : Nat)
  /-- The loop of `filter`, which reads from `in`. -/
  | filter
  /-- `WriteNum(out, num)` in that loop; `out` is `filter_pipe`. -/
  | writeNum (num : Nat)
  /-- `wait(NULL)`. -/
  | wait
  /-- `Wait(NULL)`, which fails without a child. -/
  | waitChecked
  | exit

/-- What the parent does after the `Fork` of `filter_chain`. -/
def chainParent : List Stmt := [.closeWriteEnd .filterPipe, .closeReadEnd .inp, .filterChain .filterPipe, .wait]

/-- What the child does, with the body of `filter`. -/
def chainChild : List Stmt := [.closeReadEnd .filterPipe, .filter, .closeWriteEnd .inp]

/-- `filter_chain`. -/
def filterChainBody : List Stmt := [.readPrime, .printPrime, .makePipe .filterPipe, .fork chainParent chainChild, .exit]

/-- What the generator does, with the body of `generator`. -/
def genChild : List Stmt := [.closeReadEnd .genPipe, .generate 2, .exit]

/-- `main`, with one argument. -/
def mainBody : List Stmt :=
  [.makePipe .genPipe, .fork [.closeWriteEnd .genPipe] genChild, .fork [.closeReadEnd .genPipe] [.filterChain .genPipe],
    .waitChecked, .waitChecked, .exit]

/-! ## Processes -/

/-- What a descriptor is of. -/
inductive File where
  | terminal
  | pipe (e : End)
  deriving DecidableEq

/-- A call that waits for the return of an inner call: what it does then, and its variables. -/
structure Frame where
  code : List Stmt
  vars : Var → PipeT
  prime : Nat

/-- Where the life of a process is. `reaped` is after its parent has waited for it. -/
inductive Status where
  | unborn | live | zombie | reaped
  deriving DecidableEq

/-- A process: what is left of the running call, the variables of that call, the calls that wait for it, the descriptors, the buffer of
`stdout`, and how often it has forked. -/
structure Process where
  status : Status
  code : List Stmt
  vars : Var → PipeT
  prime : Nat
  stack : List Frame
  table : FdTable File
  buf : List Char
  forks : Nat

/-- A process that is not forked yet. -/
def Process.unforked : Process where
  status := .unborn
  code := []
  vars _ := ⟨0, 0⟩
  prime := 0
  stack := []
  table := []
  buf := []
  forks := 0

/-- A process that has ended. -/
def Process.dead (P : Process) : Process := { P with status := .zombie, code := [], table := [], buf := [] }

/-- A process by the way to it from `main`. -/
abbrev Pid := List Nat

/-- The processes, the pipes and how many were made, the writes to `stdout`, and the calls of `Close` that failed. As before, the numbers
read from each pipe and those given to `printf` are kept too. -/
structure World where
  proc : Pid → Process
  pipe : Nat → List Nat
  made : Nat
  stdout : List (List Char)
  failed : List (Pid × Nat)
  input : Nat → List Nat
  printed : List Nat

/-- When `main` starts, the numbers 0, 1 and 2 are open. -/
def boot : World where
  proc := Function.update (fun _ => Process.unforked) []
    { Process.unforked with status := .live, code := mainBody, table := [some .terminal, some .terminal, some .terminal] }
  pipe _ := []
  made := 0
  stdout := []
  failed := []
  input _ := []
  printed := []

/-- Some process has the end `e` open. -/
def World.Open (w : World) (e : End) : Prop := ∃ p, (w.proc p).table.Holds (.pipe e)

/-- Process `p` becomes `P`. -/
def World.set (w : World) (p : Pid) (P : Process) : World := { w with proc := Function.update w.proc p P }

/-! ## Steps -/

variable (w : World) (p : Pid) (P : Process)

/-- `Close`. -/
def World.close (n : Nat) (rest : List Stmt) : World :=
  if P.table.file n = none then
    { w.set p { P with code := [.exit] } with failed := w.failed ++ [(p, n)] }
  else
    w.set p { P with code := rest, table := P.table.close n }

/-- `ReadNum`: the process goes on as `ok` with the number, and as `eof` at the end of the pipe. -/
def World.readNum (n : Nat) (ok : Nat → Process) (eof : Process) (w' : World) : Prop :=
  match P.table.file n with
  | some (.pipe (.rd j)) =>
    (∃ num rest, w.pipe j = num :: rest ∧
      w' =
        { w.set p (ok num) with
          pipe := Function.update w.pipe j rest
          input := Function.update w.input j (w.input j ++ [num]) }) ∨
      w.pipe j = [] ∧ ¬ w.Open (.wr j) ∧ w' = w.set p eof
  | some .terminal => False
  | _ => w' = w.set p { P with code := [.exit] }

/-- `WriteNum`: the process goes on with `rest`, or is killed if nobody can read. -/
def World.writeNum (n num : Nat) (rest : List Stmt) (w' : World) : Prop :=
  match P.table.file n with
  | some (.pipe (.wr j)) =>
    w.Open (.rd j) ∧ w' = { w.set p { P with code := rest } with pipe := Function.update w.pipe j (w.pipe j ++ [num]) } ∨
      ¬ w.Open (.rd j) ∧ w' = w.set p P.dead
  | some .terminal => False
  | _ => w' = w.set p { P with code := [.exit] }

/-- `wait`: the process goes on with `rest` when some child has ended, and with `none` if it has no child left to wait for. -/
def World.wait (rest alone : List Stmt) (w' : World) : Prop :=
  (∃ i < P.forks, (w.proc (i :: p)).status = .zombie ∧
    w' = (w.set p { P with code := rest }).set (i :: p) { w.proc (i :: p) with status := .reaped }) ∨
    (∀ i < P.forks, (w.proc (i :: p)).status = .reaped) ∧ w' = w.set p { P with code := alone }

/-- What process `p` does when `code` is left of its running call. At the end of a function it goes on with the call that waits. -/
def World.exec (maxprime : Int) (mode : Mode) (code : List Stmt) (w' : World) : Prop :=
  match code with
  | [] => ∃ f stack, P.stack = f :: stack ∧ w' = w.set p { P with code := f.code, vars := f.vars, prime := f.prime, stack := stack }
  | .makePipe v :: rest =>
    let table := P.table.add (.pipe (.rd w.made))
    w' =
      { w.set p
          { P with
            code := rest
            vars := Function.update P.vars v ⟨P.table.lowest, table.lowest⟩
            table := table.add (.pipe (.wr w.made)) } with
        made := w.made + 1 }
  | .closeReadEnd v :: rest => w' = w.close p P (P.vars v).read rest
  | .closeWriteEnd v :: rest => w' = w.close p P (P.vars v).write rest
  | .fork parent child :: rest =>
    w' =
      (w.set p { P with code := parent ++ rest, forks := P.forks + 1 }).set (P.forks :: p)
        { P with code := child ++ rest, forks := 0 }
  | .readPrime :: rest =>
    w.readNum p P (P.vars .inp).read (fun num => { P with code := rest, prime := num }) { P with code := [.exit] } w'
  | .printPrime :: rest =>
    w' =
      { w.set p { P with code := rest, buf := (printf mode P.buf (line P.prime)).2 } with
        stdout := w.stdout ++ (printf mode P.buf (line P.prime)).1
        printed := w.printed ++ [P.prime] }
  | .filterChain v :: rest =>
    -- the other variables of the new call are not read before they are set
    w' =
      w.set p
        { P with
          code := filterChainBody
          vars := Function.update P.vars .inp (P.vars v)
          stack := ⟨rest, P.vars, P.prime⟩ :: P.stack }
  | .generate n :: rest =>
    if (n : Int) ≤ maxprime then w.writeNum p P (P.vars .genPipe).write n (.generate (n + 1) :: rest) w'
    else w' = w.set p { P with code := rest }
  | .filter :: rest =>
    w.readNum p P (P.vars .inp).read
      (fun num => { P with code := if num % P.prime ≠ 0 then .writeNum num :: .filter :: rest else .filter :: rest })
      { P with code := rest } w'
  | .writeNum num :: rest => w.writeNum p P (P.vars .filterPipe).write num rest w'
  | .wait :: rest => w.wait p P rest rest w'
  | .waitChecked :: rest => w.wait p P rest [.exit] w'
  | .exit :: _ => w' = { w.set p P.dead with stdout := w.stdout ++ flush P.buf }

/-- The runs of the program for `maxprime`: in each step one process that lives goes on. -/
def calls (maxprime : Int) (mode : Mode) : Sys World Pid where
  init w := w = boot
  step w p w' := (w.proc p).status = .live ∧ w.exec p (w.proc p) maxprime mode (w.proc p).code w'

end OsLabs.Sieve
