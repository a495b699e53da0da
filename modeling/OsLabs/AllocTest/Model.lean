import OsLabs.Lib.ByteMem
import Mathlib.Data.Multiset.Range
import Mathlib.Data.Multiset.MapFold

/-!
# The test of the allocators (`test.h`)

The test allocates and frees buffers at random and fills each with random bytes. It is included by the files of both allocators and
uses their `alloc_fn` and `free_fn`; here these are a parameter, with what the test relies on (`Correct`). The numbers that `rand`
returns are any sequence. The test itself checks nothing that it wrote; the log of its calls is kept beside the state, and `Shadow`
says what a test with a copy of every buffer would see.
-/

namespace OsLabs.AllocTest

/-- `MAX_PTRS`. -/
def maxPtrs : Nat := 10000

/-- `CYCLES`. -/
def cycles : Nat := 100

/-- The allocator that the test is compiled with. `alloc_fn` may call `rand`: it gets the sequence and how many numbers of it are
drawn, and returns the heap, the pointer, `*lenp` and how many are drawn then. -/
structure Allocator (σ ε : Type) where
  allocFn : (Nat → Nat) → Nat → σ → Except ε (σ × Nat × Nat × Nat)
  freeFn : Nat → σ → Except ε σ
  mem : σ → Mem
  setMem : σ → Mem → σ
  mem_setMem : ∀ g m, mem (setMem g m) = m
  setMem_setMem : ∀ g m m', setMem (setMem g m) m' = setMem g m'
  setMem_mem : ∀ g, setMem g (mem g) = g

/-- Why the test does not return: a call that stops the program, an index outside of `ptrs`, a remainder of a division by zero, or
a loop that runs out of fuel. -/
inductive Fault (ε : Type) where
  | stop (e : ε)
  | outside | division | fuel

/-- A call of the test: a pointer with the bytes put into its buffer, or a pointer freed with the memory at that time. -/
inductive Event where
  | alloc (p : Nat) (bs : List Byte)
  | free (p : Nat) (mem : Mem)

/-- The state of the test. -/
structure State (σ : Type) where
  heap : σ
  drawn : Nat
  ptrs : Nat → Nat
  ptrn : Nat
  log : List Event

/-- The start of the program. -/
def State.init {σ : Type} (g : σ) : State σ := { heap := g, drawn := 0, ptrs := fun _ => 0, ptrn := 0, log := [] }

section

variable {σ ε : Type} (A : Allocator σ ε) (rand : Nat → Nat)

/-- The loop of `randfill`, from `buf[i]` on for `n` bytes. -/
def randfillLoop (buf : Nat) : Nat → Nat → Nat → Mem → Mem
  | 0, _, _, mem => mem
  | n + 1, i, drawn, mem => randfillLoop buf n (i + 1) (drawn + 1) (mem.store (buf + i) (BitVec.ofNat 8 (rand drawn)))

/-- The bytes that `randfill` writes. -/
def randBytes (drawn len : Nat) : List Byte := (List.range len).map fun i => BitVec.ofNat 8 (rand (drawn + i))

/-- `test_alloc`. -/
def testAlloc (s : State σ) : Except (Fault ε) (State σ) :=
  if ¬ s.ptrn < maxPtrs then .error .outside
  else
    match A.allocFn rand s.drawn s.heap with
    | .error e => .error (.stop e)
    | .ok (g, p, len, drawn) =>
      .ok { heap := A.setMem g (randfillLoop rand p len 0 drawn (A.mem g)), drawn := drawn + len,
            ptrs := Function.update s.ptrs s.ptrn p, ptrn := s.ptrn + 1, log := s.log ++ [.alloc p (randBytes rand drawn len)] }

/-- `test_free`. -/
def testFree (s : State σ) : Except (Fault ε) (State σ) :=
  if s.ptrn = 0 then .error .division
  else
    let i := rand s.drawn % s.ptrn
    match A.freeFn (s.ptrs i) s.heap with
    | .error e => .error (.stop e)
    | .ok g =>
      .ok { heap := g, drawn := s.drawn + 1, ptrs := Function.update s.ptrs i (s.ptrs (s.ptrn - 1)), ptrn := s.ptrn - 1,
            log := s.log ++ [.free (s.ptrs i) (A.mem s.heap)] }

/-- `while (c) body`. -/
def whileLoop (c : State σ → Bool) (body : State σ → Except (Fault ε) (State σ)) : Nat → State σ → Except (Fault ε) (State σ)
  | 0, _ => .error .fuel
  | fuel + 1, s =>
    if c s then do
      let s ← body s
      whileLoop c body fuel s
    else .ok s

/-- The first half of a round of `main`: new blocks up to `n`. -/
def allocUpTo (n : Nat) (s : State σ) : Except (Fault ε) (State σ) :=
  if n > s.ptrn then whileLoop (fun s => decide (n > s.ptrn)) (testAlloc A rand) (maxPtrs + 1) s else .ok s

/-- The second half: random blocks are freed down to `n`. -/
def freeDownTo (n : Nat) (s : State σ) : Except (Fault ε) (State σ) :=
  if n < s.ptrn then whileLoop (fun s => decide (n < s.ptrn)) (testFree A rand) (maxPtrs + 1) s else .ok s

/-- One round of the loop of `main`. -/
def cycle (s : State σ) : Except (Fault ε) (State σ) := do
  let n := rand s.drawn % maxPtrs
  let s ← allocUpTo A rand n { s with drawn := s.drawn + 1 }
  freeDownTo A rand n s

/-- The loop of `main`. -/
def mainLoop : Nat → State σ → Except (Fault ε) (State σ)
  | 0, s => .ok s
  | n + 1, s => do
    let s ← cycle A rand s
    mainLoop n s

/-- `main`. -/
def main (g : σ) : Except (Fault ε) (State σ) := do
  let s ← mainLoop A rand cycles (State.init g)
  whileLoop (fun s => decide (s.ptrn ≠ 0)) (testFree A rand) (maxPtrs + 1) s

end

/-! ## What a test with a copy of every buffer would see -/

/-- The memory holds the bytes at the pointer. -/
def Holds (mem : Mem) (p : Nat) (bs : List Byte) : Prop := ∀ i b, bs[i]? = some b → mem (p + i) = b

/-- The log is that of a correct allocator, and these buffers are live at its end: a new buffer does not overlap the live ones and
is not at `NULL` unless it is empty; what is freed is live and still holds the bytes that were put into it. -/
inductive Shadow : List Event → Multiset (Nat × List Byte) → Prop where
  | nil : Shadow [] 0
  | alloc {log : List Event} {t : Multiset (Nat × List Byte)} {p : Nat} {bs : List Byte} (h : Shadow log t)
      (hnull : bs ≠ [] → p ≠ 0) (hapart : ∀ q ∈ t, p + bs.length ≤ q.1 ∨ q.1 + q.2.length ≤ p) :
      Shadow (log ++ [.alloc p bs]) ((p, bs) ::ₘ t)
  | free {log : List Event} {t : Multiset (Nat × List Byte)} {p : Nat} {bs : List Byte} {mem : Mem}
      (h : Shadow log ((p, bs) ::ₘ t)) (hbytes : Holds mem p bs) : Shadow (log ++ [.free p mem]) t

/-! ## What the test relies on -/

/-- The bytes of the buffers are the same in two memories. -/
def SameBytes (live : Multiset (Nat × Nat)) (mem mem' : Mem) : Prop := ∀ q ∈ live, ∀ i, i < q.2 → mem' (q.1 + i) = mem (q.1 + i)

/-- The allocator keeps an invariant of its heap and of the live buffers, pointers with lengths: `alloc_fn` returns a buffer apart
from these or stops with an error of `E`, `free_fn` accepts a live one, neither changes the bytes of the others, and the client may
store into live buffers. -/
structure Correct {σ ε : Type} (A : Allocator σ ε) (Inv : σ → Multiset (Nat × Nat) → Prop) (E : ε → Prop) : Prop where
  alloc : ∀ {g live} (rand : Nat → Nat) (drawn : Nat), Inv g live →
    (∃ e, A.allocFn rand drawn g = .error e ∧ E e) ∨ ∃ g' p len drawn', A.allocFn rand drawn g = .ok (g', p, len, drawn') ∧
      Inv g' ((p, len) ::ₘ live) ∧ (len ≠ 0 → p ≠ 0) ∧ (∀ q ∈ live, p + len ≤ q.1 ∨ q.1 + q.2 ≤ p) ∧
      SameBytes live (A.mem g) (A.mem g')
  free : ∀ {g live p len}, Inv g ((p, len) ::ₘ live) →
    ∃ g', A.freeFn p g = .ok g' ∧ Inv g' live ∧ SameBytes live (A.mem g) (A.mem g')
  store : ∀ {g live p len i} (b : Byte), Inv g live → (p, len) ∈ live → i < len →
    Inv (A.setMem g ((A.mem g).store (p + i) b)) live

/-! ## The loops -/

/-- The program returns a result with the property, or stops with an error of `E`. -/
inductive Ends {ε α : Type} (E : ε → Prop) (P : α → Prop) : Except (Fault ε) α → Prop where
  | ok {a : α} (h : P a) : Ends E P (.ok a)
  | stop {e : ε} (h : E e) : Ends E P (.error (.stop e))

theorem Ends.mono {ε α : Type} {E : ε → Prop} {P Q : α → Prop} {x : Except (Fault ε) α} (h : Ends E P x) (hPQ : ∀ a, P a → Q a) :
    Ends E Q x := by
  cases h with
  | ok h => exact .ok (hPQ _ h)
  | stop h => exact .stop h

theorem Ends.bind {ε α β : Type} {E : ε → Prop} {P : α → Prop} {Q : β → Prop} {x : Except (Fault ε) α}
    {f : α → Except (Fault ε) β} (h : Ends E P x) (hf : ∀ a, P a → Ends E Q (f a)) : Ends E Q (x >>= f) := by
  cases h with
  | ok h => exact hf _ h
  | stop h => exact .stop h

/-- A loop whose body keeps the invariant and lowers the measure ends, and its condition is false then. -/
theorem Ends.whileLoop {σ ε : Type} {E : ε → Prop} {I : State σ → Prop} {c : State σ → Bool}
    {body : State σ → Except (Fault ε) (State σ)} (measure : State σ → Nat)
    (hbody : ∀ s, I s → c s = true → Ends E (fun s' => I s' ∧ measure s' < measure s) (body s)) :
    ∀ (fuel : Nat) (s : State σ), I s → measure s < fuel →
      Ends E (fun s' => I s' ∧ c s' = false) (AllocTest.whileLoop c body fuel s)
  | 0, _, _, h => absurd h (Nat.not_lt_zero _)
  | fuel + 1, s, hI, hlt => by
    rw [AllocTest.whileLoop]
    by_cases hc : c s = true
    · rw [if_pos hc]
      exact (hbody s hI hc).bind fun s' ⟨hI', hm⟩ => Ends.whileLoop measure hbody fuel s' hI' (by omega)
    · rw [if_neg hc]
      exact .ok ⟨hI, by simpa using hc⟩

end OsLabs.AllocTest
