import OsLabs.Arena
import OsLabs.Lib.Bits
import OsLabs.Lib.Sys
import OsLabs.Lib.Word
import Mathlib.Data.Finset.Basic

/-!
# The object pool (`objpool.c`)

An arena holds objects of 32 bytes behind a header: the number of items, the number of free ones, the address of the first, and a
bitmap of the items in use. The program has two builds. With `TEST` the bitmap is that of `bitstring.h` and `alloc_block` looks
for a byte that is not `0xff`; without it, two levels of summary stand before the bitmap, and `my_bit_ffc` goes down from the
upper one. `init_arena` lays out the arena in the same way for both.
-/

namespace OsLabs.ObjPool

/-- `sizeof(object_t)`. -/
def sizeofObject : Nat := 32

/-- `sizeof(arena_t)`: the list link, three words, and a bitmap of no bytes. -/
def sizeofArena : Nat := 32

/-- Why a call does not return; `outside` when a scan leaves the bitmap. -/
inductive Stop where
  | assertion | mmapError | outside
  deriving DecidableEq, Repr

/-! ## The layout of an arena -/

/-- `bitstr_size`. -/
def bitstrSize (nbits : Nat) : Nat := (nbits - 1) / 8 + 1

/-- `bitmap_size`, `level1_size`, `level2_size` of `init_arena`. -/
def bitmapSize (size : Nat) : Nat := bitstrSize ((size - sizeofArena) / sizeofObject)

@[inherit_doc bitmapSize]
def level1Size (size : Nat) : Nat := bitmapSize size / 8

@[inherit_doc bitmapSize]
def level2Size (size : Nat) : Nat := level1Size size / 8

/-- `level2_offset`, `level1_offset`, `bitmap_offset`. -/
def level2Offset : Nat := 0

@[inherit_doc level2Offset]
def level1Offset (size : Nat) : Nat := level2Size size

@[inherit_doc level2Offset]
def bitmapOffset (size : Nat) : Nat := level2Size size + level1Size size

/-- `nitems` of `init_arena`. -/
def itemCount (size : Nat) : Nat :=
  (size - sizeofArena - bitmapSize size - level2Size size - level1Size size) / sizeofObject

/-- `ar->nitems`. -/
def nitems (mem : Mem) (ar : Nat) : Nat := mem.read (ar + 8) 8

/-- `ar->nfree`. -/
def nfree (mem : Mem) (ar : Nat) : Nat := mem.read (ar + 16) 8

/-- `ar->items`. -/
def items (mem : Mem) (ar : Nat) : Nat := mem.read (ar + 24) 8

/-- `ar->bitmap`. -/
def bitmap (ar : Nat) : Nat := ar + sizeofArena

/-- `init_arena`. -/
def initArena (size : Nat) (mem : Mem) (ar : Nat) : Mem :=
  let mem := mem.write (ar + 8) 8 (itemCount size)
  let mem := mem.write (ar + 16) 8 (itemCount size)
  mem.write (ar + 24) 8 (ar + size - itemCount size * sizeofObject)

/-! ## The bitmap of three levels -/

/-- `my_bit_test`. -/
def myBitTest (size : Nat) (mem : Mem) (bitmap bit : Nat) : Bool :=
  decide (mem (bitmap + (bitmapOffset size + bit / 8)) &&& mask (bit % 8) ≠ 0)

/-- `my_bit_set`. -/
def myBitSet (size : Nat) (mem : Mem) (bitmap bit : Nat) : Mem :=
  let level1Idx := bit / 8
  let level2Idx := level1Idx / 8
  let mem := mem.orMask (bitmap + (bitmapOffset size + bit / 8)) (bit % 8)
  if mem (bitmap + (bitmapOffset size + bit / 8)) = 0xff then
    let mem := mem.orMask (bitmap + (level1Offset size + level1Idx / 8)) (level1Idx % 8)
    if mem (bitmap + (level1Offset size + level1Idx / 8)) = 0xff then
      mem.orMask (bitmap + (level2Offset + level2Idx / 8)) (level2Idx % 8)
    else mem
  else mem

/-- `my_bit_clear`. -/
def myBitClear (size : Nat) (mem : Mem) (bitmap bit : Nat) : Mem :=
  let level1Idx := bit / 8
  let level2Idx := level1Idx / 8
  let mem := mem.andNotMask (bitmap + (bitmapOffset size + bit / 8)) (bit % 8)
  if mem (bitmap + (level1Offset size + level1Idx / 8)) ≠ 0 ∧ mem (bitmap + (bitmapOffset size + bit / 8)) ≠ 0xff then
    let mem := mem.andNotMask (bitmap + (level1Offset size + level1Idx / 8)) (level1Idx % 8)
    if mem (bitmap + (level2Offset + level2Idx / 8)) ≠ 0 ∧ mem (bitmap + (level1Offset size + level1Idx / 8)) ≠ 0xff then
      mem.andNotMask (bitmap + (level2Offset + level2Idx / 8)) (level2Idx % 8)
    else mem
  else mem

/-- The scan for the first byte that is not `0xff`: its offset, if it is one of the next `n`. -/
def scanLoop (mem : Mem) (bp : Nat) : Nat → Nat → Option Nat
  | 0, _ => none
  | n + 1, offset => if mem (bp + offset) = 0xff then scanLoop mem bp n (offset + 1) else some offset

/-- The index that `alloc_block` computes with `TEST`: the first clear bit of the `n` bytes at `bp`. -/
def scanIndex (mem : Mem) (bp n : Nat) : Option Nat :=
  match scanLoop mem bp n 0 with
  | none => none
  | some offset => some (tzcnt (notInt (mem (bp + offset))) + offset * 8)

/-- `my_bit_ffc`, as long as its scan does not leave the upper level. -/
def myBitFfc (size : Nat) (mem : Mem) (bitmap : Nat) : Option Nat :=
  match scanLoop mem bitmap (level2Size size) 0 with
  | none => none
  | some level2Idx =>
    let level1Idx := level2Idx * 8 + tzcnt (notInt (mem (bitmap + level2Idx)))
    let bitmapIdx := level1Idx * 8 + tzcnt (notInt (mem (bitmap + (level1Offset size + level1Idx))))
    some (bitmapIdx * 8 + tzcnt (notInt (mem (bitmap + (bitmapOffset size + bitmapIdx)))))

/-! ## The pool, with `TEST` -/

/-- `name[bit >> 3]`, where `bit` is an `int`. -/
def bitByte (name : Nat) (bit : Int) : Nat := (name + bit / 8).toNat

/-- `1 << (bit & 7)`. -/
def bitMask (bit : Int) : Nat := (bit % 8).toNat

/-- `bit_test`. -/
def bitTest (mem : Mem) (name : Nat) (bit : Int) : Bool := decide (mem (bitByte name bit) &&& mask (bitMask bit) ≠ 0)

/-- `bit_set`. -/
def bitSet (mem : Mem) (name : Nat) (bit : Int) : Mem := mem.orMask (bitByte name bit) (bitMask bit)

/-- `bit_clear`. -/
def bitClear (mem : Mem) (name : Nat) (bit : Int) : Mem := mem.andNotMask (bitByte name bit) (bitMask bit)

/-- The memory and the arena list. -/
structure Pool where
  mem : Mem
  arenas : List Nat

/-- `alloc_block`: the pool and the address of the object. -/
def allocBlock (size : Nat) (g : Pool) (ar : Nat) : Except Stop (Pool × Nat) :=
  if ¬ 0 < nfree g.mem ar then .error .assertion
  else
    match scanIndex g.mem (bitmap ar) (bitmapSize size) with
    | none => .error .outside
    | some index =>
      let mem := bitSet g.mem (bitmap ar) index
      let mem := mem.write (ar + 16) 8 (nfree mem ar - 1)
      .ok ({ g with mem := mem }, items mem ar + sizeofObject * index)

/-- `(ptr - ar->items) / sizeof(object_t)`: the difference is taken as a `size_t`, the quotient is cut to an `int`. -/
def freeIndex (ptr items : Nat) : Int :=
  (BitVec.ofNat 32 ((BitVec.ofInt 64 ((ptr : Int) - items)).toNat / sizeofObject)).toInt

/-- `free_block`. -/
def freeBlock (g : Pool) (ar ptr : Nat) : Pool :=
  let index := freeIndex ptr (items g.mem ar)
  if bitTest g.mem (bitmap ar) index then
    let mem := bitClear g.mem (bitmap ar) index
    { g with mem := mem.write (ar + 16) 8 (nfree mem ar + 1) }
  else g

/-- `objalloc`. -/
def objalloc (size : Nat) (os : List Nat → Option Nat) (g : Pool) : Except Stop (Pool × Nat) :=
  -- Find arena with at least one free item.
  match g.arenas.find? fun ar => decide (0 < nfree g.mem ar) with
  | some ar => allocBlock size g ar
  | none =>
    -- If none found then allocate an item from new arena.
    match os g.arenas with
    | none => .error .mmapError
    | some new =>
      allocBlock size { mem := initArena size (g.mem.zero new size) new, arenas := allocAfterArena g.arenas none new } new

/-- `objfree`. -/
def objfree (size ptr : Nat) (g : Pool) : Except Stop Pool :=
  if ptr = 0 then .ok g
  else
    match findPtrArena size g.arenas ptr with
    | none => .error .assertion
    | some ar => .ok (freeBlock g ar ptr)

/-- The difference of two values of type `size_t`, which wraps. -/
def sizeDiff (a b : Nat) : Nat := (a + 2 ^ 64 - b) % 2 ^ 64

theorem sizeDiff_of_le {a b : Nat} (h : b ≤ a) (ha : a < 2 ^ 64) : sizeDiff a b = a - b := by
  unfold sizeDiff
  omega

/-- `nused` of `objmemcheck`. -/
def nused (mem : Mem) (ar : Nat) : Nat :=
  (List.range (nitems mem ar)).foldl (fun (nused i : Nat) => nused + if bitTest mem (bitmap ar) i then 1 else 0) 0

/-- `objmemcheck`. -/
def objmemcheck (g : Pool) : Except Stop Unit :=
  g.arenas.forM fun ar => if nused g.mem ar = sizeDiff (nitems g.mem ar) (nfree g.mem ar) then .ok () else .error .assertion

/-! ## The pool and its client -/

/-- The pool with the objects that `objalloc` returned and that were not freed since. -/
structure Client where
  pool : Pool
  live : Finset Nat

/-- What the client does. -/
inductive Act where
  /-- `objalloc()`, in a kernel that answers `mmap` with `os`. -/
  | alloc (os : List Nat → Option Nat)
  /-- `objfree(p)`. -/
  | free (p : Nat)
  /-- A byte of a live object is overwritten. -/
  | write (p i : Nat) (b : Byte)

/-- The calls and stores of a client that frees `NULL` or live objects, and stores into live objects only. -/
inductive Step (size : Nat) (s : Client) : Act → Client → Prop where
  | alloc {p : Nat} {os : List Nat → Option Nat} {g : Pool} (hos : MmapOk size os) (h : objalloc size os s.pool = .ok (g, p)) :
      Step size s (.alloc os) { pool := g, live := insert p s.live }
  | free {p : Nat} {g : Pool} (hp : p = 0 ∨ p ∈ s.live) (h : objfree size p s.pool = .ok g) :
      Step size s (.free p) { pool := g, live := s.live.erase p }
  | write {p i : Nat} (b : Byte) (hp : p ∈ s.live) (hi : i < sizeofObject) :
      Step size s (.write p i b) { s with pool := { s.pool with mem := s.pool.mem.store (p + i) b } }

/-- What is done with the bitmap of an arena. -/
inductive BitAct where
  | set (i : Nat)
  | clear (i : Nat)

/-- The bit that `my_bit_ffc` found is set, or a bit of the bitmap that is set is cleared. -/
inductive BitStep (size bitmap : Nat) (mem : Mem) : BitAct → Mem → Prop where
  | set {i : Nat} (h : myBitFfc size mem bitmap = some i) : BitStep size bitmap mem (.set i) (myBitSet size mem bitmap i)
  | clear {i : Nat} (hi : i < 8 * bitmapSize size) (h : myBitTest size mem bitmap i = true) :
      BitStep size bitmap mem (.clear i) (myBitClear size mem bitmap i)

/-- The runs of the bitmap of three levels, from one without a set bit. -/
def bitmapRuns (size bitmap : Nat) : Sys Mem BitAct where
  init mem := ∀ x, x < bitmapOffset size + bitmapSize size → mem (bitmap + x) = 0
  step := BitStep size bitmap

/-- The runs of the pool with a client, from the start of the program. -/
def client (size : Nat) : Sys Client Act where
  init s := ∃ mem, s = { pool := { mem := mem, arenas := [] }, live := ∅ }
  step := Step size

end OsLabs.ObjPool
