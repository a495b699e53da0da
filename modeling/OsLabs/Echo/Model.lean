import OsLabs.Lib.Sys
import Mathlib.Logic.Function.Basic

/-!
# The forking echo server of `echoserver-fork.c`

The server process is its place in `main` and a stack of signal handlers that interrupt it; each statement that touches memory, the
signal mask or another process is one step, and `+=`, `++` and `--` are a load and a store. A signal that is pending and not blocked
may be delivered before any step. The children are listed until they are reaped; each fills in its slot of the table and counts the
bytes that it echoes. `echoed` counts the bytes of all completed `Rio_writen` calls; the program has no such counter.

The byte counts are natural numbers. `nread` is a `size_t` that is printed by `%ld`, so a run that echoes `2^63` bytes is outside the
model.
-/

namespace OsLabs.Echo

/-! ## The client table -/

/-- `client_t`. -/
structure Client where
  pid : Int
  nread : Nat

/-- `MAXCLIENTS`: a page holds this many records of 16 bytes. `PAGE_SIZE`, which is not defined in the repository, is taken as 4096. -/
def maxClients : Nat := 4096 / 16

/-- `findclient`. -/
def findclient (client : Nat → Client) (pid : Int) : Option Nat :=
  (List.range maxClients).find? fun i => (client i).pid == pid

/-- `client[i].pid = pid`. -/
def setPid (client : Nat → Client) (i : Nat) (pid : Int) : Nat → Client :=
  Function.update client i { client i with pid := pid }

/-- `client[i].nread = n`. -/
def setNread (client : Nat → Client) (i n : Nat) : Nat → Client := Function.update client i { client i with nread := n }

/-! ## Places -/

/-- Where the server is in `main`. The slot is the one that `addclient` takes. -/
inductive MainPc where
  /-- In `Accept`. -/
  | accept
  /-- Before `Sigprocmask(SIG_BLOCK, ..)`. -/
  | block
  /-- `findclient(0)`. -/
  | find
  /-- `c->pid = -1`. -/
  | setPid (i : Nat)
  /-- `c->nread = 0`. -/
  | setNread (i : Nat)
  /-- `nclients++`, the load and the store. -/
  | loadN (i : Nat)
  | storeN (i : Nat) (tmp : Int)
  /-- `Fork()`, with the result of `addclient`. -/
  | fork (c : Option Nat)
  /-- `printf`. -/
  | print
  /-- `Sigprocmask(SIG_SETMASK, ..)`. -/
  | unblock
  deriving DecidableEq

/-- Where the handler is in `delclient`. -/
inductive DelPc where
  /-- `findclient(pid)` and the assertion. -/
  | find
  /-- `nread += c->nread`, the load and the store. -/
  | load (i : Nat)
  | store (i : Nat) (tmp : Nat)
  /-- `c->pid = 0`. -/
  | clear (i : Nat)
  /-- `nclients--`, the load and the store. -/
  | loadN
  | storeN (tmp : Int)
  deriving DecidableEq

/-- Where the server is in `sigchld_handler`: before `waitpid`, or in `delclient` for a child that was reaped, with the slot that the
child was given. -/
inductive ChldPc where
  | wait
  | del (pid : Nat) (slot : Option Nat) (at_ : DelPc)
  deriving DecidableEq

/-- Where the server is in `sigint_handler`. -/
inductive IntPc where
  /-- Before the first `Sigprocmask`. -/
  | start
  /-- `while (nclients)`. -/
  | test
  /-- Before `Sigsuspend`, and in it. -/
  | suspend
  | suspended
  /-- The second `Sigprocmask`. -/
  | restore
  /-- `safe_printf` of `nread`. -/
  | print
  /-- `_exit(0)`. -/
  | exit
  deriving DecidableEq

/-- The signals that are blocked. -/
structure Mask where
  chld : Bool
  int : Bool
  deriving DecidableEq

/-- A handler on the stack. `sigchld_handler` comes with the mask to which it returns; `sigint_handler` does not return and comes
with its `old_mask`, which is set by the first `Sigprocmask`. -/
inductive Frame where
  | sigchld (pc : ChldPc) (old : Mask)
  | sigint (pc : IntPc) (oldMask : Mask)
  deriving DecidableEq

/-- Where a child is: before `c->pid = getpid()`, before the next line, between `Rio_writen` of `n` bytes and `c->nread += n`, or
ended and not yet reaped. -/
inductive ChildPc where
  | start
  | echo
  | wrote (n : Nat)
  | zombie
  deriving DecidableEq

/-- A child of the server, with its `c`. -/
structure Child where
  pid : Nat
  c : Option Nat
  pc : ChildPc
  deriving DecidableEq

/-- The server runs, has ended, or was aborted by the assertion of `delclient`. -/
inductive Status where
  | running
  | exited
  | aborted
  deriving DecidableEq

structure State where
  client : Nat → Client
  nclients : Int
  nread : Nat
  pc : MainPc
  /-- The local `mask` of `main`. -/
  oldMask : Mask
  stack : List Frame
  mask : Mask
  pendingChld : Bool
  pendingInt : Bool
  children : List Child
  status : Status
  /-- What `sigint_handler` has printed. -/
  printed : Option Nat
  /-- The bytes echoed. -/
  echoed : Nat

/-- The server in its first `Accept`. -/
def init : State where
  client _ := { pid := 0, nread := 0 }
  nclients := 0
  nread := 0
  pc := .accept
  oldMask := { chld := false, int := false }
  stack := []
  mask := { chld := false, int := false }
  pendingChld := false
  pendingInt := false
  children := []
  status := .running
  printed := none
  echoed := 0

/-! ## Steps -/

/-- What a child does: `c->pid = getpid()`, a line read and written back, `c->nread += n`, the return from `echo` at the end of its
connection, the crash on a null `c`, or an end for another reason. -/
inductive ChildAct where
  | setPid
  | write (n : Nat)
  | account
  | eof
  | crash
  | kill
  deriving DecidableEq

/-- What happens in a step. -/
inductive Act where
  /-- A connection arrives. -/
  | accept
  /-- The server goes on. -/
  | run
  | fork (pid : Nat)
  | forkFail
  /-- `waitpid` returns the pid of a child that has ended. -/
  | reap (pid : Nat)
  /-- SIGINT is sent to the server. -/
  | sendInt
  | deliverChld
  | deliverInt
  | child (pid : Nat) (a : ChildAct)
  deriving DecidableEq

/-- `Sigsuspend` returns once a handler has run. -/
def wake : List Frame → List Frame
  | .sigint .suspended old :: rest => .sigint .test old :: rest
  | stack => stack

/-- The children with the one of this pid at another place. -/
def setChild (children : List Child) (pid : Nat) (pc : ChildPc) : List Child :=
  children.map fun c => if c.pid = pid then { c with pc := pc } else c

/-- The steps of `main`. -/
inductive MainStep (s : State) : Act → State → Prop where
  | accept (hp : s.pc = .accept) : MainStep s .accept { s with pc := .block }
  | block (hp : s.pc = .block) :
      MainStep s .run { s with pc := .find, oldMask := s.mask, mask := { s.mask with chld := true } }
  | find {i : Nat} (hp : s.pc = .find) (hf : findclient s.client 0 = some i) : MainStep s .run { s with pc := .setPid i }
  | full (hp : s.pc = .find) (hf : findclient s.client 0 = none) : MainStep s .run { s with pc := .fork none }
  | setPid {i : Nat} (hp : s.pc = .setPid i) :
      MainStep s .run { s with pc := .setNread i, client := setPid s.client i (-1) }
  | setNread {i : Nat} (hp : s.pc = .setNread i) :
      MainStep s .run { s with pc := .loadN i, client := setNread s.client i 0 }
  | loadN {i : Nat} (hp : s.pc = .loadN i) : MainStep s .run { s with pc := .storeN i s.nclients }
  | storeN {i : Nat} {tmp : Int} (hp : s.pc = .storeN i tmp) :
      MainStep s .run { s with pc := .fork (some i), nclients := tmp + 1 }
  | fork {c : Option Nat} {pid : Nat} (hp : s.pc = .fork c) (h0 : 0 < pid) (hpid : ∀ d ∈ s.children, d.pid ≠ pid) :
      MainStep s (.fork pid) { s with pc := .print, children := s.children ++ [{ pid := pid, c := c, pc := .start }] }
  | forkFail {c : Option Nat} (hp : s.pc = .fork c) : MainStep s .forkFail { s with status := .exited }
  | print (hp : s.pc = .print) : MainStep s .run { s with pc := .unblock }
  | unblock (hp : s.pc = .unblock) : MainStep s .run { s with pc := .accept, mask := s.oldMask }

/-- The steps of `sigchld_handler`, on top of the handlers `rest`. -/
inductive ChldStep (s : State) (old : Mask) (rest : List Frame) : ChldPc → Act → State → Prop where
  | reap {c : Child} (hc : c ∈ s.children) (hz : c.pc = .zombie) :
      ChldStep s old rest .wait (.reap c.pid)
        { s with children := s.children.filter (·.pid ≠ c.pid), stack := .sigchld (.del c.pid c.c .find) old :: rest }
  | return (hz : ∀ c ∈ s.children, c.pc ≠ .zombie) : ChldStep s old rest .wait .run { s with mask := old, stack := rest }
  | find {pid : Nat} {slot : Option Nat} {i : Nat} (hf : findclient s.client pid = some i) :
      ChldStep s old rest (.del pid slot .find) .run { s with stack := .sigchld (.del pid slot (.load i)) old :: rest }
  | assert {pid : Nat} {slot : Option Nat} (hf : findclient s.client pid = none) :
      ChldStep s old rest (.del pid slot .find) .run { s with status := .aborted }
  | load {pid : Nat} {slot : Option Nat} {i : Nat} :
      ChldStep s old rest (.del pid slot (.load i)) .run
        { s with stack := .sigchld (.del pid slot (.store i (s.nread + (s.client i).nread))) old :: rest }
  | store {pid : Nat} {slot : Option Nat} {i tmp : Nat} :
      ChldStep s old rest (.del pid slot (.store i tmp)) .run
        { s with nread := tmp, stack := .sigchld (.del pid slot (.clear i)) old :: rest }
  | clear {pid : Nat} {slot : Option Nat} {i : Nat} :
      ChldStep s old rest (.del pid slot (.clear i)) .run
        { s with client := setPid s.client i 0, stack := .sigchld (.del pid slot .loadN) old :: rest }
  | loadN {pid : Nat} {slot : Option Nat} :
      ChldStep s old rest (.del pid slot .loadN) .run
        { s with stack := .sigchld (.del pid slot (.storeN s.nclients)) old :: rest }
  | storeN {pid : Nat} {slot : Option Nat} {tmp : Int} :
      ChldStep s old rest (.del pid slot (.storeN tmp)) .run
        { s with nclients := tmp - 1, stack := .sigchld .wait old :: rest }

/-- The steps of `sigint_handler`, on top of the handlers `rest`. -/
inductive IntStep (s : State) (oldMask : Mask) (rest : List Frame) : IntPc → State → Prop where
  | start : IntStep s oldMask rest .start
      { s with mask := { chld := false, int := true }, stack := .sigint .test s.mask :: rest }
  | loop (hn : s.nclients ≠ 0) : IntStep s oldMask rest .test { s with stack := .sigint .suspend oldMask :: rest }
  | done (hn : s.nclients = 0) : IntStep s oldMask rest .test { s with stack := .sigint .restore oldMask :: rest }
  | suspend : IntStep s oldMask rest .suspend { s with stack := .sigint .suspended oldMask :: rest }
  | restore : IntStep s oldMask rest .restore { s with mask := oldMask, stack := .sigint .print oldMask :: rest }
  | print : IntStep s oldMask rest .print { s with printed := some s.nread, stack := .sigint .exit oldMask :: rest }
  | exit : IntStep s oldMask rest .exit { s with status := .exited }

/-- The steps of a child. -/
inductive ChildStep (s : State) (c : Child) : ChildAct → State → Prop where
  | setPid {i : Nat} (hp : c.pc = .start) (hc : c.c = some i) :
      ChildStep s c .setPid
        { s with client := Echo.setPid s.client i c.pid,
                 children := setChild s.children c.pid .echo }
  | write {n : Nat} (hp : c.pc = .echo) (hn : 0 < n) :
      ChildStep s c (.write n) { s with children := setChild s.children c.pid (.wrote n), echoed := s.echoed + n }
  | account {i n : Nat} (hp : c.pc = .wrote n) (hc : c.c = some i) :
      ChildStep s c .account
        { s with client := setNread s.client i ((s.client i).nread + n),
                 children := setChild s.children c.pid .echo }
  | eof (hp : c.pc = .echo) :
      ChildStep s c .eof { s with children := setChild s.children c.pid .zombie, pendingChld := true }
  | crash (hp : c.pc = .start) (hc : c.c = none) :
      ChildStep s c .crash { s with children := setChild s.children c.pid .zombie, pendingChld := true }
  | kill (hp : c.pc ≠ .zombie) :
      ChildStep s c .kill { s with children := setChild s.children c.pid .zombie, pendingChld := true }

/-- The steps of the server and its children. -/
inductive Step (s : State) : Act → State → Prop where
  | main {a : Act} {s' : State} (hr : s.status = .running) (hs : s.stack = []) (h : MainStep s a s') : Step s a s'
  | chld {a : Act} {s' : State} {pc : ChldPc} {old : Mask} {rest : List Frame} (hr : s.status = .running)
      (hs : s.stack = .sigchld pc old :: rest) (h : ChldStep s old rest pc a s') : Step s a s'
  | int {s' : State} {pc : IntPc} {oldMask : Mask} {rest : List Frame} (hr : s.status = .running)
      (hs : s.stack = .sigint pc oldMask :: rest) (h : IntStep s oldMask rest pc s') : Step s .run s'
  | sendInt : Step s .sendInt { s with pendingInt := true }
  | deliverChld (hr : s.status = .running) (hp : s.pendingChld = true) (hm : s.mask.chld = false) :
      Step s .deliverChld
        { s with pendingChld := false, mask := { s.mask with chld := true },
                 stack := .sigchld .wait s.mask :: wake s.stack }
  | deliverInt (hr : s.status = .running) (hp : s.pendingInt = true) (hm : s.mask.int = false) :
      Step s .deliverInt
        { s with pendingInt := false, mask := { s.mask with int := true },
                 stack := .sigint .start { s.mask with int := true } :: wake s.stack }
  | child {c : Child} {a : ChildAct} {s' : State} (hc : c ∈ s.children) (h : ChildStep s c a s') :
      Step s (.child c.pid a) s'

/-- The server. -/
def server : Sys State Act where
  init s := s = init
  step := Step

end OsLabs.Echo
