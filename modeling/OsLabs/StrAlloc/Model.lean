import OsLabs.Arena
import OsLabs.Lib.Sys
import Mathlib.Data.Finset.Basic

/-!
# The string allocator (`stralloc.c`)

An arena holds, behind its list link, blocks of at most 127 bytes. A block starts with a one-byte header, its size, negative
when the block is free; a zero byte ends the arena. `allocBlock` scans the blocks of one arena from the global cursor on,
`stralloc` goes round the arenas, `strfree` flips the sign of a header. The program runs on a flat memory; a call that stops the
program (a failed assertion, an error exit of `Mmap`) is an error, and a loop that runs out of fuel is one too.
-/

namespace OsLabs.StrAlloc

/-- `MAX_LENGTH` and `MAX_BLKSZ`. -/
def maxLength : Nat := 126

@[inherit_doc maxLength]
def maxBlksz : Nat := maxLength + 1

/-- `sizeof(arena_t)`: the list link, since `ARENA_EXTRA` is empty here. -/
def sizeofArena : Nat := 8

/-- Why a call does not return. -/
inductive Stop where
  | assertion | mmapError | fuel
  deriving DecidableEq, Repr

/-! ## The macros on block headers -/

/-- `BLOCK_HEADER(data)` with the cursor at `off`, an `int8_t`. -/
def header (mem : Mem) (data off : Nat) : Int := (mem (data + off)).toInt

/-- `BLOCK_SIZE(data)`. -/
def blockSize (mem : Mem) (data off : Nat) : Nat := (header mem data off).natAbs

/-- `NEXT_BLOCK_HEADER(data)`. -/
def nextHeader (mem : Mem) (data off : Nat) : Int := header mem data (off + blockSize mem data off)

/-- `NEXT_BLOCK_SIZE(data)`. -/
def nextBlockSize (mem : Mem) (data off : Nat) : Nat := (nextHeader mem data off).natAbs

/-- `BLOCK_HEADER(data) = v`: the value is cut to `int8_t`. -/
def setHeader (mem : Mem) (data off : Nat) (v : Int) : Mem := mem.store (data + off) (BitVec.ofInt 8 v)

/-! ## The functions -/

/-- The loop of `init_chunk`: free blocks of the largest size while they fit. It returns the offset it stops at. -/
def initChunkLoop (size : Nat) (mem : Mem) (ar offset : Nat) : Mem × Nat :=
  if offset + maxBlksz < size then
    initChunkLoop size (setHeader mem ar offset (-maxBlksz)) ar (offset + maxBlksz)
  else (mem, offset)
  termination_by size - offset
  decreasing_by unfold maxBlksz at *; omega

/-- `init_chunk`: the last block takes what is left before the zero byte at the end. -/
def initChunk (size : Nat) (mem : Mem) (ar : Nat) : Mem :=
  let (mem, offset) := initChunkLoop size mem ar sizeofArena
  let mem := setHeader mem ar offset (-(size - 1 - offset : Int))
  setHeader mem ar (size - 1) 0

/-- `alloc_block`: the memory and the cursor after the scan, and the pointer found, if any. `len` is the size of the block,
header included; the scan starts at the cursor `off`. -/
def allocBlock (data len : Nat) : Nat → Mem → Nat → Option (Mem × Nat × Option Nat)
  | 0, _, _ => none
  | fuel + 1, mem, off =>
    let h := header mem data off
    let size := blockSize mem data off
    if h = 0 then some (mem, off, none)
    -- occupied block
    else if h > 0 then allocBlock data len fuel mem (off + size)
    -- free block of exact size
    else if size = len then some (setHeader mem data off (h * -1), off, some (data + off + 1))
    -- free block is too large: the rest is stored as a positive header
    else if size > len then
      let bigBlock := size
      let mem := setHeader mem data off len
      some (setHeader mem data (off + blockSize mem data off) (bigBlock - len : Int), off, some (data + off + 1))
    -- next block is occupied or does not exist
    else if ¬ nextHeader mem data off < 0 then allocBlock data len fuel mem (off + size)
    -- merge two free blocks, but do not allocate
    else if (nextBlockSize mem data off : Int) ≤ len - size then
      let mem := setHeader mem data off (h + nextBlockSize mem data off)
      allocBlock data len fuel mem (off + blockSize mem data off)
    -- merge two free blocks and allocate with split
    else
      let mem := setHeader mem data off (h + nextBlockSize mem data off)
      let bigBlock := blockSize mem data off
      let mem := setHeader mem data off len
      some (setHeader mem data (off + blockSize mem data off) (bigBlock - len : Int), off, some (data + off + 1))

/-- The memory and the globals of the allocator: `arenas`, `cur_arena`, `cur_offset`. -/
structure Heap where
  mem : Mem
  arenas : List Nat
  curArena : Option Nat
  curOffset : Nat

/-- The allocator before its first call, on any memory. -/
def Heap.init (mem : Mem) : Heap := { mem := mem, arenas := [], curArena := none, curOffset := 0 }

/-- The loop of `stralloc` round the arenas: `cur` is `cur_arena`, `ar` the arena to look at. -/
def strallocLoop (size : Nat) (os : List Nat → Option Nat) (len cur : Nat) : Nat → Heap → Nat → Except Stop (Heap × Nat)
  | 0, _, _ => .error .fuel
  | fuel + 1, g, ar =>
    match allocBlock ar (len + 1) size g.mem g.curOffset with
    | none => .error .fuel
    | some (mem, off, some ptr) => .ok ({ g with mem := mem, curOffset := off, curArena := some ar }, ptr)
    | some (mem, _, none) =>
      let g := { g with mem := mem, curOffset := sizeofArena }
      -- that was the last arena, move to the first one
      match (nextArena g.arenas ar).or g.arenas.head? with
      | none => .error .assertion
      | some ar =>
        if ar = cur then
          -- all arenas on the list are checked
          match os g.arenas with
          | none => .error .mmapError
          | some new =>
            let g := { g with arenas := allocAfterArena g.arenas (some ar) new,
                              mem := initChunk size (g.mem.zero new size) new }
            match nextArena g.arenas ar with
            | none => .error .assertion
            | some ar => strallocLoop size os len cur fuel g ar
        else strallocLoop size os len cur fuel g ar

/-- The start of `stralloc`: the first arena, when there are none yet, and `cur_arena`. -/
def strallocStart (size : Nat) (os : List Nat → Option Nat) (g : Heap) : Except Stop (Heap × Nat) :=
  match g.curArena with
  | some ar => .ok (g, ar)
  | none =>
    match os g.arenas with
    | none => .error .mmapError
    | some new =>
      .ok ({ mem := initChunk size (g.mem.zero new size) new, arenas := allocFirstArena g.arenas new,
             curArena := some new, curOffset := sizeofArena }, new)

/-- `stralloc(len)`: the pointer returned, 0 for `NULL`. -/
def stralloc (size : Nat) (os : List Nat → Option Nat) (fuel len : Nat) (g : Heap) : Except Stop (Heap × Nat) :=
  if maxLength < len then .error .assertion
  else if len = 0 then .ok (g, 0)
  else do
    let (g, ar) ← strallocStart size os g
    strallocLoop size os len ar fuel g ar

/-- The loop of `strfree`: follow the headers from `ptr` up to `target`. -/
def strfreeWalk (mem : Mem) (target : Nat) : Nat → Nat → Except Stop Nat
  | 0, _ => .error .fuel
  | fuel + 1, ptr =>
    if ptr < target then
      if (mem ptr).toInt = 0 then .error .assertion
      else strfreeWalk mem target fuel (ptr + (mem ptr).toInt.natAbs)
    else .ok ptr

/-- `strfree(str)`, with the checks of `DEBUG_LEVEL` 2. -/
def strfree (size str : Nat) (g : Heap) : Except Stop Heap :=
  if str = 0 then .ok g
  else if ¬ (g.mem (str - 1)).toInt > 0 then .error .assertion
  else
    match findPtrArena size g.arenas str with
    | none => .error .assertion
    | some ar => do
      let ptr ← strfreeWalk g.mem (str - 1) size (ar + sizeofArena)
      if ptr ≠ str - 1 then .error .assertion
      else if (g.mem ptr).toInt = 0 then .error .assertion
      else .ok { g with mem := g.mem.store ptr (BitVec.ofInt 8 (-(g.mem ptr).toInt)) }

/-- The walk of `strmemcheck` over one arena. -/
def strmemcheckWalk (size : Nat) (mem : Mem) (data : Nat) : Nat → Nat → Except Stop Unit
  | 0, _ => .error .fuel
  | fuel + 1, offset =>
    if offset ≠ size - 1 then
      if ¬ offset < size then .error .assertion
      else if header mem data offset = 0 then .error .assertion
      else strmemcheckWalk size mem data fuel (offset + blockSize mem data offset)
    else if header mem data offset = 0 then .ok () else .error .assertion

/-- `strmemcheck`. -/
def strmemcheck (size : Nat) (g : Heap) : Except Stop Unit :=
  g.arenas.forM fun ar => strmemcheckWalk size g.mem ar size sizeofArena

/-! ## The allocator and its client -/

/-- The allocator with the client's live buffers: the pointers that `stralloc` returned and that were not freed since, each with
the length asked for. -/
structure Client where
  heap : Heap
  live : Finset (Nat × Nat)

/-- What the client does. -/
inductive Act where
  /-- `stralloc(len)`, in a kernel that answers `mmap` with `os`. -/
  | alloc (len : Nat) (os : List Nat → Option Nat)
  /-- `strfree(p)`. -/
  | free (p : Nat)
  /-- A byte of a live buffer is overwritten. -/
  | write (p i : Nat) (b : Byte)

/-- The calls and stores of a client that follows the rules: it asks for at most 126 bytes, frees `NULL` or live pointers, and
stores into live buffers only. -/
inductive Step (size : Nat) (s : Client) : Act → Client → Prop where
  | alloc {len fuel p : Nat} {os : List Nat → Option Nat} {g : Heap} (hlen : len ≤ maxLength) (hos : MmapOk size os)
      (h : stralloc size os fuel len s.heap = .ok (g, p)) :
      Step size s (.alloc len os) { heap := g, live := if p = 0 then s.live else insert (p, len) s.live }
  | free {p : Nat} {g : Heap} (hp : p = 0 ∨ ∃ len, (p, len) ∈ s.live) (h : strfree size p s.heap = .ok g) :
      Step size s (.free p) { heap := g, live := s.live.filter fun q => q.1 ≠ p }
  | write {p len i : Nat} (b : Byte) (hp : (p, len) ∈ s.live) (hi : i < len) :
      Step size s (.write p i b) { s with heap := { s.heap with mem := s.heap.mem.store (p + i) b } }

/-- The runs of the allocator with a client, from the start of the program. -/
def client (size : Nat) : Sys Client Act where
  init s := ∃ mem, s = { heap := Heap.init mem, live := ∅ }
  step := Step size

end OsLabs.StrAlloc
