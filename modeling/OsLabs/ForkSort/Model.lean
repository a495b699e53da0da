import OsLabs.Lib.Prog
import Mathlib.Algebra.Order.Ring.Nat

/-!
# The sorting program of `forksort.c`

The program sorts a shared table with a quick sort that hands large ranges to forked processes. Each access to the table is one
operation of `Prog`, and so are `random`, `fork`, the waits and `exit`. A loop takes fuel and is stuck without it; the weakest
precondition of a stuck program is false, so what is proved by it includes that the fuel is enough.

The elements of the table are integers and the indices natural numbers: the program only compares elements, and an index never
passes `right`.
-/

namespace OsLabs.ForkSort

/-- Ranges of at most this many elements, and one, are sorted by insertion. -/
def insertsortMax : Nat := 32

/-- Ranges of more elements than this, and one, are sorted by another process. -/
def forksortMin : Nat := 1 <<< 18

/-- `table[i]`. -/
def get (i : Nat) : Prog Int := .read i .ret

/-- `table[i] = v`. -/
def put (i : Nat) (v : Int) : Prog Unit := .write i v (.ret ())

/-- The inner loop of `InsertionSort`: the first index whose element is not below the one at `pivot`. -/
def findInsert (pivot : Nat) : Nat → Nat → Prog Nat
  | 0, _ => .stuck
  | fuel + 1, insert =>
    if insert < pivot then do
      let x ← get insert
      let y ← get pivot
      if x < y then findInsert pivot fuel (insert + 1) else pure insert
    else pure insert

/-- `memmove(&table[insert + 1], &table[insert], n * sizeof(long))`: the ranges overlap, so the copy starts at the end. -/
def memmove (insert : Nat) : Nat → Prog Unit
  | 0 => pure ()
  | n + 1 => do
    let x ← get (insert + n)
    put (insert + 1 + n) x
    memmove insert n

/-- The block of `InsertionSort` that moves the element at `pivot` to `insert`. -/
def moveElem (insert pivot : Nat) : Prog Unit :=
  if insert < pivot then do
    let n := pivot - insert
    let tmp ← get pivot
    memmove insert n
    put insert tmp
  else pure ()

/-- The outer loop of `InsertionSort`. -/
def insertionLoop (left right : Nat) : Nat → Nat → Prog Unit
  | 0, _ => .stuck
  | fuel + 1, pivot =>
    if pivot ≤ right then do
      let insert ← findInsert pivot (pivot - left + 1) left
      moveElem insert pivot
      insertionLoop left right fuel (pivot + 1)
    else pure ()

/-- `InsertionSort`. -/
def insertionSort (left right : Nat) : Prog Unit := insertionLoop left right (right - left + 1) (left + 1)

/-- `SwapElem`. -/
def swapElem (i j : Nat) : Prog Unit := do
  let tmp ← get i
  let x ← get j
  put i x
  put j tmp

/-- The first inner loop of `Partition`. -/
def scanLeft (right : Nat) (pivot : Int) : Nat → Nat → Prog Nat
  | 0, _ => .stuck
  | fuel + 1, left =>
    if left < right then do
      let x ← get left
      if x < pivot then scanLeft right pivot fuel (left + 1) else pure left
    else pure left

/-- The second inner loop of `Partition`. -/
def scanRight (left : Nat) (pivot : Int) : Nat → Nat → Prog Nat
  | 0, _ => .stuck
  | fuel + 1, right =>
    if left < right then do
      let x ← get right
      if pivot ≤ x then scanRight left pivot fuel (right - 1) else pure right
    else pure right

/-- The block of `Partition` that swaps the two elements found. -/
def swapFound (left right : Nat) : Prog Unit := if left < right then swapElem left right else pure ()

/-- The outer loop of `Partition`. -/
def partitionLoop (pivot : Int) : Nat → Nat → Nat → Prog Nat
  | 0, _, _ => .stuck
  | fuel + 1, left, right =>
    if left < right then do
      let left ← scanLeft right pivot (right - left + 1) left
      let right ← scanRight left pivot (right - left + 1) right
      swapFound left right
      partitionLoop pivot fuel left right
    else pure left

/-- `Partition`. Every round but the first moves `left`. -/
def partition (begin end' : Nat) (pivot : Int) : Prog Nat := partitionLoop pivot (end' - begin + 2) begin end'

/-- The wait of `QuickSort` for a part whose call returned `pid`. It is for any child, as `Waitpid` gets the outer `pid`, which is
always -1. -/
def waitPart (pid : Int) : Prog Unit := if pid ≠ -1 then .wait (pure ()) else pure ()

/-- The end of `QuickSort`: the right part, the waits, and the exit of a process that was forked for this range. -/
def sortRight (quickSort : Nat → Nat → Prog Int) (split right : Nat) (pidLeft : Int) (doFork : Bool) : Prog Int := do
  let pidRight ← quickSort split right
  waitPart pidLeft
  waitPart pidRight
  if doFork then .exit else pure (-1)

/-- `QuickSort` after the fork. The pid returned is the outer one. -/
def sortRange (quickSort : Nat → Nat → Prog Int) (left right : Nat) (doFork : Bool) : Prog Int :=
  if left < right then
    if right - left ≤ insertsortMax then do
      insertionSort left right
      pure (-1)
    else do
      let r ← Prog.random pure
      let pivot := left + r % (right - left + 1)
      let x ← get pivot
      let split ← partition left right x
      if left = split then
        swapElem left pivot
        sortRight quickSort (split + 1) right (-1) doFork
      else
        let pidLeft ← quickSort left (split - 1)
        sortRight quickSort split right pidLeft doFork
  else pure (-1)

/-- `QuickSort`: the caller of a large range returns with the pid of the child, or with -1 when `fork` fails. -/
def quickSort : Nat → Nat → Nat → Prog Int
  | 0, _, _ => .stuck
  | fuel + 1, left, right =>
    if forksortMin < right - left then
      .fork left right fun pid => if pid ≠ 0 then pure pid else sortRange (quickSort fuel) left right true
    else sortRange (quickSort fuel) left right false

/-- `Mmap` of `size` bytes: to map no bytes is an error, and the program ends. -/
def mmap (size : Nat) : Prog Unit := if size = 0 then .exit else pure ()

/-- `main` to the point where the table of `n` elements is sorted. The table is filled before, with anything. -/
def sortTable (n : Nat) : Prog Unit := do
  mmap (n * 8)
  let pid ← quickSort n 0 (n - 1)
  if 0 < pid then .wait (pure ()) else pure ()

/-- `LONG_MIN`. -/
def longMin : Int := -2 ^ 63

/-- The last loop of `main`; a failed assertion is stuck. -/
def verify : Nat → Nat → Int → Prog Unit
  | 0, _, _ => pure ()
  | n + 1, i, prev => do
    let x ← get i
    if prev ≤ x then verify n (i + 1) x else .stuck

/-- `main` with a table of `n` elements. -/
def main (n : Nat) : Prog Unit := do
  sortTable n
  verify n 0 longMin

end OsLabs.ForkSort
