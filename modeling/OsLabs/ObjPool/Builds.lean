import OsLabs.Lib.Outcome
import OsLabs.ObjPool.Invalid
import OsLabs.ObjPool.Layout
import OsLabs.ObjPool.Levels
import Mathlib.Data.List.Find

/-!
# The two builds of the pool are one allocator

Without `TEST` the pool marks its items in a bitmap of three levels and finds a free one with `my_bit_ffc`; with `TEST` it has one
bitmap and scans it from the start. Both builds run on one list of operations: the same answers come out, the same errors, and
the same bytes in the objects. The client may free pointers into the middle of objects, and objects that are free already; only
pointers to the header of an arena or to its bitmap are left out, since there the two builds look at different bytes.
-/

namespace OsLabs.ObjPool

/-! ## The pool, without `TEST` -/

namespace NoTest

/-- `alloc_block`. -/
def allocBlock (size : Nat) (g : Pool) (ar : Nat) : Except Stop (Pool × Nat) :=
  if ¬ 0 < nfree g.mem ar then .error .assertion
  else
    match myBitFfc size g.mem (bitmap ar) with
    | none => .error .outside
    | some index =>
      let mem := myBitSet size g.mem (bitmap ar) index
      let mem := mem.write (ar + 16) 8 (nfree mem ar - 1)
      .ok ({ g with mem := mem }, items mem ar + sizeofObject * index)

/-- `free_block`: the index is an `int`, the bit that the functions of the bitmap get a `size_t`. -/
def freeBlock (size : Nat) (g : Pool) (ar ptr : Nat) : Pool :=
  let index := freeIndex ptr (items g.mem ar)
  let bit := (BitVec.ofInt 64 index).toNat
  if myBitTest size g.mem (bitmap ar) bit then
    let mem := myBitClear size g.mem (bitmap ar) bit
    { g with mem := mem.write (ar + 16) 8 (nfree mem ar + 1) }
  else g

/-- `objalloc`. -/
def objalloc (size : Nat) (os : List Nat → Option Nat) (g : Pool) : Except Stop (Pool × Nat) :=
  match g.arenas.find? fun ar => decide (0 < nfree g.mem ar) with
  | some ar => allocBlock size g ar
  | none =>
    match os g.arenas with
    | none => .error .mmapError
    | some new =>
      allocBlock size { mem := initArena size (g.mem.zero new size) new, arenas := allocAfterArena g.arenas none new } new

/-- `objfree`. -/
def objfree (size ptr : Nat) (g : Pool) : Except Stop Pool :=
  if ptr = 0 then .ok g
  else
    match findPtrArena size g.arenas ptr with
    | none => .error .assertion
    | some ar => .ok (freeBlock size g ar ptr)

/-- `nused` of `objmemcheck`. -/
def nused (size : Nat) (mem : Mem) (ar : Nat) : Nat :=
  (List.range (nitems mem ar)).foldl (fun (nused i : Nat) => nused + if myBitTest size mem (bitmap ar) i then 1 else 0) 0

/-- `objmemcheck`. -/
def objmemcheck (size : Nat) (g : Pool) : Except Stop Unit :=
  g.arenas.forM fun ar => if nused size g.mem ar = sizeDiff (nitems g.mem ar) (nfree g.mem ar) then .ok () else .error .assertion

end NoTest

/-! ## The operations of a client -/

/-- What a client does. -/
inductive Op where
  /-- `objalloc()`, in a kernel that answers `mmap` with `os`. -/
  | alloc (os : List Nat → Option Nat)
  /-- `objfree(p)`. -/
  | free (p : Nat)
  /-- `objmemcheck()`. -/
  | check
  /-- A byte is stored. -/
  | store (a : Nat) (b : Byte)

/-- The functions of one build. -/
structure Build where
  objalloc : (List Nat → Option Nat) → Pool → Except Stop (Pool × Nat)
  objfree : Nat → Pool → Except Stop Pool
  objmemcheck : Pool → Except Stop Unit

/-- The build with `TEST`. -/
def withTest (size : Nat) : Build := ⟨objalloc size, objfree size, objmemcheck⟩

/-- The build without `TEST`. -/
def withoutTest (size : Nat) : Build := ⟨NoTest.objalloc size, NoTest.objfree size, NoTest.objmemcheck size⟩

/-- An operation: the pool after it and the pointer it returns, if any. -/
def Build.step (b : Build) (op : Op) (g : Pool) : Except Stop (Pool × Option Nat) :=
  match op with
  | .alloc os => do
    let (g, p) ← b.objalloc os g
    pure (g, some p)
  | .free p => do
    let g ← b.objfree p g
    pure (g, none)
  | .check => do
    b.objmemcheck g
    pure (g, none)
  | .store a c => .ok ({ g with mem := g.mem.store a c }, none)

/-- The client frees `NULL`, pointers into the items of an arena, or pointers outside all arenas; it stores into items only. -/
def Op.Legal (size : Nat) (op : Op) (g : Pool) : Prop :=
  match op with
  | .alloc os => MmapOk size os
  | .free p => ∀ ar ∈ g.arenas, ar < p → p < ar + size → items g.mem ar ≤ p
  | .check => True
  | .store a _ => ∃ ar ∈ g.arenas, items g.mem ar ≤ a ∧ a < ar + size

/-! ## The bitmap of three levels as a set -/

/-- `my_bit_set` stores into the three levels only. -/
theorem myBitSet_outside {size bitmap i x : Nat} (mem : Mem) (hl : LevelLayout size) (hi : i < 8 * bitmapSize size)
    (hx : x < bitmap ∨ bitmap + (bitmapOffset size + bitmapSize size) ≤ x) : myBitSet size mem bitmap i x = mem x := by
  have h1 := hl.level1
  have h2 := hl.level2
  have e1 : level1Offset size = level2Size size := rfl
  have e2 : bitmapOffset size = level2Size size + level1Size size := rfl
  have e3 : level2Offset = 0 := rfl
  rw [myBitSet]
  simp only
  split
  · split
    · rw [Mem.orMask_ne _ (by omega), Mem.orMask_ne _ (by omega), Mem.orMask_ne _ (by omega)]
    · rw [Mem.orMask_ne _ (by omega), Mem.orMask_ne _ (by omega)]
  · rw [Mem.orMask_ne _ (by omega)]

/-- `my_bit_clear` stores into the three levels only. -/
theorem myBitClear_outside {size bitmap i x : Nat} (mem : Mem) (hl : LevelLayout size) (hi : i < 8 * bitmapSize size)
    (hx : x < bitmap ∨ bitmap + (bitmapOffset size + bitmapSize size) ≤ x) : myBitClear size mem bitmap i x = mem x := by
  have h1 := hl.level1
  have h2 := hl.level2
  have e1 : level1Offset size = level2Size size := rfl
  have e2 : bitmapOffset size = level2Size size + level1Size size := rfl
  have e3 : level2Offset = 0 := rfl
  rw [myBitClear]
  simp only
  split
  · split
    · rw [Mem.andNotMask_ne _ (by omega), Mem.andNotMask_ne _ (by omega), Mem.andNotMask_ne _ (by omega)]
    · rw [Mem.andNotMask_ne _ (by omega), Mem.andNotMask_ne _ (by omega)]
  · rw [Mem.andNotMask_ne _ (by omega)]

/-- A store below a bitmap does not change its bits. -/
theorem bit_store_below (mem : Mem) {a x : Nat} (b : Byte) (h : x < a) (j : Nat) : (mem.store x b).bit a j = mem.bit a j := by
  rw [Mem.bit, Mem.store_ne _ _ (by omega), ← Mem.bit]

/-- `my_bit_set` sets one bit of the bitmap. -/
theorem myBitSet_bit {size bitmap i : Nat} (mem : Mem) (hl : LevelLayout size) (hi : i < 8 * bitmapSize size) (j : Nat) :
    (myBitSet size mem bitmap i).bit (bitmap + bitmapOffset size) j =
      (decide (j = i) || mem.bit (bitmap + bitmapOffset size) j) := by
  have h1 := hl.level1
  have h2 := hl.level2
  have e1 : level1Offset size = level2Size size := rfl
  have e2 : bitmapOffset size = level2Size size + level1Size size := rfl
  have e3 : level2Offset = 0 := rfl
  rw [← Mem.bit_orMask, myBitSet]
  simp only [← Nat.add_assoc]
  split
  · split
    · rw [Mem.orMask, bit_store_below _ _ (by omega), Mem.orMask, bit_store_below _ _ (by omega)]
    · rw [Mem.orMask, bit_store_below _ _ (by omega)]
  · rfl

/-- `my_bit_clear` clears one bit of the bitmap. -/
theorem myBitClear_bit {size bitmap i : Nat} (mem : Mem) (hl : LevelLayout size) (hi : i < 8 * bitmapSize size) (j : Nat) :
    (myBitClear size mem bitmap i).bit (bitmap + bitmapOffset size) j =
      (decide (j ≠ i) && mem.bit (bitmap + bitmapOffset size) j) := by
  have h1 := hl.level1
  have h2 := hl.level2
  have e1 : level1Offset size = level2Size size := rfl
  have e2 : bitmapOffset size = level2Size size + level1Size size := rfl
  have e3 : level2Offset = 0 := rfl
  rw [← Mem.bit_andNotMask, myBitClear]
  simp only [← Nat.add_assoc]
  split
  · split
    · rw [Mem.andNotMask, bit_store_below _ _ (by omega), Mem.andNotMask, bit_store_below _ _ (by omega)]
    · rw [Mem.andNotMask, bit_store_below _ _ (by omega)]
  · rfl

/-! ## An arena of the build without `TEST` -/

/-- What both builds need of the size of an arena. -/
structure Fits (size : Nat) : Prop where
  layout : Layout size
  levels : LevelLayout size
  room : sizeofArena + (bitmapOffset size + bitmapSize size) + itemCount size * sizeofObject ≤ size

theorem fits_arenaSize : Fits arenaSize := by
  refine ⟨layout_arenaSize, levelLayout_arenaSize, ?_⟩
  have h := items_room arenaSize (by decide)
  rwa [show level2Size arenaSize + level1Size arenaSize = bitmapOffset arenaSize from rfl] at h

/-- The header and the three levels of an arena agree with the set of the slots in use. -/
structure LevelsOk (size : Nat) (mem : Mem) (ar : Nat) (used : Finset Nat) : Prop where
  nitems : nitems mem ar = itemCount size
  nfree : nfree mem ar + used.card = itemCount size
  items : items mem ar = itemsAt size ar
  levels : Levels size (bitmap ar) mem
  bits : ∀ i, i < 8 * bitmapSize size → (mem.bit (bitmap ar + bitmapOffset size) i = true ↔ i ∈ used)
  bound : ∀ i ∈ used, i < itemCount size

/-- The summaries only depend on the bytes of the three levels. -/
theorem Levels.frame {size bitmap : Nat} {mem mem' : Mem} (h : Levels size bitmap mem) (hl : LevelLayout size)
    (heq : ∀ x, bitmap ≤ x → x < bitmap + (bitmapOffset size + bitmapSize size) → mem' x = mem x) :
    Levels size bitmap mem' := by
  have h1 := hl.level1
  have h2 := hl.level2
  have e1 : level1Offset size = level2Size size := rfl
  have e2 : bitmapOffset size = level2Size size + level1Size size := rfl
  have e3 : level2Offset = 0 := rfl
  exact ⟨h.low.frame (fun j hj => heq _ (by omega) (by omega)) fun j hj => heq _ (by omega) (by omega),
    h.up.frame (fun j hj => heq _ (by omega) (by omega)) fun j hj => heq _ (by omega) (by omega)⟩

theorem LevelsOk.frame {size ar : Nat} {mem mem' : Mem} {used : Finset Nat} (h : LevelsOk size mem ar used) (hl : LevelLayout size)
    (heq : ∀ x, ar + 8 ≤ x → x < ar + (sizeofArena + (bitmapOffset size + bitmapSize size)) → mem' x = mem x) :
    LevelsOk size mem' ar used := by
  have hA : sizeofArena = 32 := rfl
  refine ⟨?_, ?_, ?_, h.levels.frame hl fun x h1 h2 => ?_, fun i hi => ?_, h.bound⟩
  · rw [ObjPool.nitems, Mem.read_congr fun x h1 h2 => heq x (by omega) (by omega)]
    exact h.nitems
  · rw [ObjPool.nfree, Mem.read_congr fun x h1 h2 => heq x (by omega) (by omega)]
    exact h.nfree
  · rw [ObjPool.items, Mem.read_congr fun x h1 h2 => heq x (by omega) (by omega)]
    exact h.items
  · unfold bitmap at h1 h2
    exact heq x (by omega) (by omega)
  · rw [← h.bits i hi, Mem.bit, Mem.bit, heq]
    · unfold bitmap
      omega
    · unfold bitmap
      omega

/-- A fresh arena has no slot in use. -/
theorem initArena_levelsOk {size : Nat} (new : Nat) (h : Fits size) (mem : Mem) (hnew : new + size ≤ 2 ^ 47) :
    LevelsOk size (initArena size (mem.zero new size) new) new ∅ := by
  have hA : sizeofArena = 32 := rfl
  have hroom := h.room
  have e1 : level1Offset size = level2Size size := rfl
  have e2 : bitmapOffset size = level2Size size + level1Size size := rfl
  have e3 : level2Offset = 0 := rfl
  have hbits := h.levels.items
  obtain ⟨hok, -⟩ := initArena_ok new h.layout mem hnew
  -- behind the header the arena is zero
  have hzero : ∀ x, x < bitmapOffset size + bitmapSize size → initArena size (mem.zero new size) new (bitmap new + x) = 0 := by
    intro x hx
    rw [initArena]
    unfold bitmap
    rw [Mem.write_outside _ _ (by omega), Mem.write_outside _ _ (by omega), Mem.write_outside _ _ (by omega),
      Mem.zero_inside _ (by omega) (by omega)]
  refine ⟨hok.nitems, hok.nfree, hok.items, levels_reach h.levels (.init hzero), fun i hi => ?_, by simp⟩
  rw [Mem.bit, Nat.add_assoc, hzero _ (by omega)]
  simp

/-- The bits of the bitmap and the number of free items change together. -/
theorem LevelsOk.update {size ar n : Nat} {mem mem₁ : Mem} {used used' : Finset Nat} (hok : LevelsOk size mem ar used)
    (h : Fits size) (hlevels : Levels size (bitmap ar) mem₁)
    (hout : ∀ x, x < bitmap ar ∨ bitmap ar + (bitmapOffset size + bitmapSize size) ≤ x → mem₁ x = mem x)
    (hbits : ∀ i, i < 8 * bitmapSize size → (mem₁.bit (bitmap ar + bitmapOffset size) i = true ↔ i ∈ used'))
    (hbound : ∀ i ∈ used', i < itemCount size) (hn : n + used'.card = itemCount size) :
    LevelsOk size (mem₁.write (ar + 16) 8 n) ar used' := by
  have hA : sizeofArena = 32 := rfl
  have hcount := h.layout.count_lt
  have hb : bitmap ar = ar + sizeofArena := rfl
  refine ⟨?_, ?_, ?_, hlevels.frame h.levels fun x h1 h2 => Mem.write_outside _ _ (by omega), fun i hi => ?_, hbound⟩
  · rw [ObjPool.nitems, Mem.read_write_ne _ _ (by omega), Mem.read_congr fun x _ _ => hout x (by omega)]
    exact hok.nitems
  · rw [ObjPool.nfree, Mem.read_write _ (by omega)]
    exact hn
  · rw [ObjPool.items, Mem.read_write_ne _ _ (by omega), Mem.read_congr fun x _ _ => hout x (by omega)]
    exact hok.items
  · rw [← hbits i hi, Mem.bit, Mem.write_outside _ _ (by omega), ← Mem.bit]

/-- An arena with a free item: the first slot that is not in use is taken. -/
theorem LevelsOk.allocBlock {size ar index : Nat} {g : Pool} {used : Finset Nat} (hok : LevelsOk size g.mem ar used) (h : Fits size)
    (hlt : index < itemCount size) (hnot : index ∉ used) (hfirst : ∀ j, j < index → j ∈ used) :
    ∃ mem', NoTest.allocBlock size g ar = .ok ({ g with mem := mem' }, itemsAt size ar + sizeofObject * index) ∧
      LevelsOk size mem' ar (insert index used) ∧
      ∀ x, x < ar + 16 ∨ ar + (sizeofArena + (bitmapOffset size + bitmapSize size)) ≤ x → mem' x = g.mem x := by
  have hA : sizeofArena = 32 := rfl
  have hb : bitmap ar = ar + sizeofArena := rfl
  have hitems := h.levels.items
  have hclear : g.mem.bit (bitmap ar + bitmapOffset size) index = false := by
    rw [← Bool.not_eq_true, hok.bits index (by omega)]
    exact hnot
  obtain ⟨k, hk, hffc, hkfirst⟩ := hok.levels.ffc h.levels (by omega) hclear
  obtain rfl : k = index := hkfirst.unique ⟨hclear, fun j hj => (hok.bits j (by omega)).mpr (hfirst j hj)⟩
  generalize hmem : myBitSet size g.mem (bitmap ar) k = mem₁
  have hout : ∀ x, x < bitmap ar ∨ bitmap ar + (bitmapOffset size + bitmapSize size) ≤ x → mem₁ x = g.mem x := fun x hx => by
    rw [← hmem]
    exact myBitSet_outside g.mem h.levels (by omega) hx
  have hnfree₁ : ObjPool.nfree mem₁ ar = ObjPool.nfree g.mem ar := Mem.read_congr fun x _ _ => hout x (by omega)
  have hcard := Finset.card_insert_of_notMem hnot
  have hnfree := hok.nfree
  have hinsert : ∀ j ∈ insert k used, j < itemCount size := by
    intro j hj
    rcases Finset.mem_insert.mp hj with rfl | hj
    · exact hlt
    · exact hok.bound j hj
  have hle : (insert k used).card ≤ itemCount size := by
    have := Finset.card_le_card fun j hj => Finset.mem_range.mpr (hinsert j hj)
    rwa [Finset.card_range] at this
  have hnew : LevelsOk size (mem₁.write (ar + 16) 8 (ObjPool.nfree g.mem ar - 1)) ar (insert k used) := by
    refine hok.update h (by rw [← hmem]; exact hok.levels.set h.levels (by omega)) hout (fun i hi => ?_) hinsert (by omega)
    rw [← hmem, myBitSet_bit g.mem h.levels (by omega), Finset.mem_insert, Bool.or_eq_true, decide_eq_true_eq, hok.bits i hi]
  refine ⟨_, ?_, hnew, fun x hx => ?_⟩
  · rw [NoTest.allocBlock, if_neg (by omega), hffc]
    simp only [hmem, hnfree₁, hnew.items]
  · rw [Mem.write_outside _ _ (by omega), hout x (by omega)]

/-- `free_block` on a pointer into a slot: the slot is not in use afterwards. -/
theorem LevelsOk.freeBlock {size ar ptr index : Nat} {g : Pool} {used : Finset Nat} (hok : LevelsOk size g.mem ar used)
    (h : Fits size) (hlt : index < itemCount size) (hindex : freeIndex ptr (itemsAt size ar) = index) :
    ∃ mem', NoTest.freeBlock size g ar ptr = { g with mem := mem' } ∧ LevelsOk size mem' ar (used.erase index) ∧
      ∀ x, x < ar + 16 ∨ ar + (sizeofArena + (bitmapOffset size + bitmapSize size)) ≤ x → mem' x = g.mem x := by
  have hA : sizeofArena = 32 := rfl
  have hb : bitmap ar = ar + sizeofArena := rfl
  have hitems := h.levels.items
  have hcount := h.layout.count_lt
  have hbit : (BitVec.ofInt 64 (index : Int)).toNat = index := by
    rw [BitVec.ofInt_natCast, BitVec.toNat_ofNat, Nat.mod_eq_of_lt (by omega)]
  rw [NoTest.freeBlock]
  simp only [hok.items, hindex, hbit, myBitTest_eq]
  by_cases hused : index ∈ used
  · rw [if_pos ((hok.bits index (by omega)).mpr hused)]
    generalize hmem : myBitClear size g.mem (bitmap ar) index = mem₁
    have hout : ∀ x, x < bitmap ar ∨ bitmap ar + (bitmapOffset size + bitmapSize size) ≤ x → mem₁ x = g.mem x := fun x hx => by
      rw [← hmem]
      exact myBitClear_outside g.mem h.levels (by omega) hx
    have hnfree₁ : ObjPool.nfree mem₁ ar = ObjPool.nfree g.mem ar := Mem.read_congr fun x _ _ => hout x (by omega)
    have hcard := Finset.card_erase_of_mem hused
    have hpos := Finset.card_pos.mpr ⟨index, hused⟩
    have hnfree := hok.nfree
    refine ⟨_, rfl, ?_, fun x hx => ?_⟩
    · refine hok.update h (by rw [← hmem]; exact hok.levels.clear h.levels (by omega)) hout (fun i hi => ?_)
        (fun i hi => hok.bound i (Finset.mem_of_mem_erase hi)) (by omega)
      rw [← hmem, myBitClear_bit g.mem h.levels (by omega), Finset.mem_erase, Bool.and_eq_true, decide_eq_true_eq,
        hok.bits i hi]
    · rw [Mem.write_outside _ _ (by omega), hout x (by omega)]
  · rw [if_neg (fun hset => hused ((hok.bits index (by omega)).mp hset)), Finset.erase_eq_of_notMem hused]
    exact ⟨g.mem, rfl, hok, fun _ _ => rfl⟩

/-! ## The same for the build with `TEST` -/

/-- The slot that `alloc_block` takes is the first one that is not in use. -/
theorem ArenaOk.allocBlock {size ar : Nat} {g : Pool} {used : Finset Nat} (hok : ArenaOk size g.mem ar used) (h : Layout size)
    (hfree : 0 < ObjPool.nfree g.mem ar) :
    ∃ index mem', index < itemCount size ∧ index ∉ used ∧ (∀ j, j < index → j ∈ used) ∧
      allocBlock size g ar = .ok ({ g with mem := mem' }, itemsAt size ar + sizeofObject * index) ∧
      ArenaOk size mem' ar (insert index used) ∧
      ∀ x, x < ar + 16 ∨ ar + (sizeofArena + bitmapSize size) ≤ x → mem' x = g.mem x := by
  have hbits := h.bits
  obtain ⟨index, mem', hlt, hnot, hcall, hok', hout⟩ := allocBlock_ok h hok hfree
  refine ⟨index, mem', hlt, hnot, ?_, hcall, hok', hout⟩
  have hclear : g.mem.bit (bitmap ar) index = false := by
    rw [← Bool.not_eq_true, hok.bits index (by omega)]
    exact hnot
  obtain ⟨k, hk, hscan, hfirst⟩ := scanIndex_firstClear (n := bitmapSize size) (by omega) hclear
  -- the address that is returned is that of the slot of the scan
  rw [ObjPool.allocBlock, if_neg (not_not.mpr hfree), hscan] at hcall
  obtain ⟨hpool, hptr⟩ := Prod.mk.inj (Except.ok.inj hcall)
  have hmem := congrArg Pool.mem hpool
  simp only at hmem hptr
  rw [hmem, hok'.items, show sizeofObject = 32 from rfl] at hptr
  obtain rfl : k = index := by omega
  exact fun j hj => (hok.bits j (by omega)).mp (hfirst.2 j hj)

/-- `free_block` on a pointer into a slot: the slot is not in use afterwards. -/
theorem ArenaOk.freeBlock {size ar ptr index : Nat} {g : Pool} {used : Finset Nat} (hok : ArenaOk size g.mem ar used)
    (h : Layout size) (hlt : index < itemCount size) (hindex : freeIndex ptr (itemsAt size ar) = index) :
    ∃ mem', freeBlock g ar ptr = { g with mem := mem' } ∧ ArenaOk size mem' ar (used.erase index) ∧
      ∀ x, x < ar + 16 ∨ ar + (sizeofArena + bitmapSize size) ≤ x → mem' x = g.mem x := by
  have hbits := h.bits
  have hcount := h.count_lt
  by_cases hused : index ∈ used
  · obtain ⟨mem', hcall, hrest⟩ := freeBlock_ok h hok hused
    refine ⟨mem', ?_, hrest⟩
    rw [← hcall]
    exact freeBlock_congr (by rw [hok.items, hindex, freeIndex_slot (by omega)])
  · have htest : bitTest g.mem (bitmap ar) index = false := by
      rw [bitTest_nat, ← Bool.not_eq_true, hok.bits index (by omega)]
      exact hused
    refine ⟨g.mem, ?_, by rwa [Finset.erase_eq_of_notMem hused], fun _ _ => rfl⟩
    rw [ObjPool.freeBlock]
    simp only [hok.items, hindex, htest, Bool.false_eq_true, if_false]

/-! ## Side by side -/

/-- One arena in the two builds: the same slots are in use, and the items hold the same bytes. -/
structure SameArena (size : Nat) (mem mem' : Mem) (ar : Nat) (used : Finset Nat) : Prop where
  plain : ArenaOk size mem ar used
  levels : LevelsOk size mem' ar used
  bytes : ∀ x, itemsAt size ar ≤ x → x < ar + size → mem' x = mem x

/-- The pool in the two builds. -/
structure Same (size : Nat) (g g' : Pool) (used : Nat → Finset Nat) : Prop where
  arenas : g'.arenas = g.arenas
  apart : Apart size g.arenas
  arena : ∀ ar ∈ g.arenas, SameArena size g.mem g'.mem ar (used ar)

theorem SameArena.frame {size ar : Nat} {mem mem' mem₁ mem₁' : Mem} {used : Finset Nat} (hs : SameArena size mem mem' ar used)
    (h : Fits size) (hout : ∀ x, ar ≤ x → x < ar + size → mem₁ x = mem x) (hout' : ∀ x, ar ≤ x → x < ar + size → mem₁' x = mem' x) :
    SameArena size mem₁ mem₁' ar used := by
  have hroom := h.room
  have hfits := h.layout.fits
  refine ⟨hs.plain.frame fun x h1 h2 => hout x (by omega) (by omega),
    hs.levels.frame h.levels fun x h1 h2 => hout' x (by omega) (by omega), fun x h1 h2 => ?_⟩
  unfold itemsAt at h1
  rw [hout x (by omega) h2, hout' x (by omega) h2]
  exact hs.bytes x (by unfold itemsAt; omega) h2

/-- A change of one arena, in both builds. -/
theorem Same.change {size ar : Nat} {g g' : Pool} {used : Nat → Finset Nat} (hs : Same size g g' used) (h : Fits size)
    {mem mem' : Mem} {arenas : List Nat} {U : Finset Nat} (hap : Apart size arenas) (har : ar ∈ arenas)
    (hin : ∀ x ∈ arenas, x = ar ∨ x ∈ g.arenas) (hout : ∀ x, x < ar ∨ ar + size ≤ x → mem x = g.mem x)
    (hout' : ∀ x, x < ar ∨ ar + size ≤ x → mem' x = g'.mem x) (hnew : SameArena size mem mem' ar U) :
    Same size ⟨mem, arenas⟩ ⟨mem', arenas⟩ (Function.update used ar U) := by
  refine ⟨rfl, hap, fun x hx => ?_⟩
  by_cases he : x = ar
  · rw [he, Function.update_self]
    exact hnew
  · rw [Function.update_of_ne he]
    have hapart := hap.of_ne hx har he
    unfold ApartFrom at hapart
    exact (hs.arena x ((hin x hx).resolve_left he)).frame h (fun y _ _ => hout y (by omega)) fun y _ _ => hout' y (by omega)

/-- The items lie behind the levels. -/
theorem Fits.behind {size : Nat} (h : Fits size) (ar : Nat) :
    ar + (sizeofArena + (bitmapOffset size + bitmapSize size)) ≤ itemsAt size ar ∧ itemsAt size ar ≤ ar + size := by
  have hroom := h.room
  unfold itemsAt
  omega

/-- `alloc_block` in both builds. -/
theorem Same.allocBlock {size ar : Nat} {g g' : Pool} {used : Nat → Finset Nat} (hs : Same size g g' used) (h : Fits size)
    (har : ar ∈ g.arenas) (hfree : 0 < ObjPool.nfree g.mem ar) :
    SameOutcome (· ≠ .outside) (fun a b => a.2 = b.2 ∧ ∃ used', Same size a.1 b.1 used') (ObjPool.allocBlock size g ar)
      (NoTest.allocBlock size g' ar) := by
  have hbehind := h.behind ar
  have hfits := h.layout.fits
  obtain ⟨hplain, hlevels, hbytes⟩ := hs.arena ar har
  obtain ⟨index, mem, hlt, hnot, hfirst, hcall, hok, hout⟩ := hplain.allocBlock h.layout hfree
  obtain ⟨mem', hcall', hok', hout'⟩ := hlevels.allocBlock h hlt hnot hfirst
  rw [hcall, hcall', hs.arenas]
  refine .ok ⟨rfl, Function.update used ar (insert index (used ar)), ?_⟩
  refine hs.change h hs.apart har (fun x hx => Or.inr hx) (fun x hx => hout x (by omega)) (fun x hx => hout' x (by omega))
    ⟨hok, hok', fun x h1 h2 => ?_⟩
  rw [hout x (by omega), hout' x (by omega)]
  exact hbytes x h1 h2

/-- A fresh arena in both builds. -/
theorem Same.fresh {size new : Nat} {g g' : Pool} {used : Nat → Finset Nat} (hs : Same size g g' used) (h : Fits size)
    {os : List Nat → Option Nat} (hos : MmapOk size os) (hnew : os g.arenas = some new) :
    Same size { mem := initArena size (g.mem.zero new size) new, arenas := allocAfterArena g.arenas none new }
      { mem := initArena size (g'.mem.zero new size) new, arenas := allocAfterArena g.arenas none new }
      (Function.update used new ∅) := by
  have hA : sizeofArena = 32 := rfl
  have hbehind := h.behind new
  obtain ⟨-, htop, hapart⟩ := hos _ _ hnew
  obtain ⟨hok, hout⟩ := initArena_ok new h.layout g.mem htop
  obtain ⟨-, hout'⟩ := initArena_ok new h.layout g'.mem htop
  have hperm : (allocAfterArena g.arenas none new).Perm (new :: g.arenas) := List.perm_append_singleton _ _
  refine hs.change h (hs.apart.insert hperm hapart) (hperm.mem_iff.mpr List.mem_cons_self)
    (fun x hx => List.mem_cons.mp (hperm.mem_iff.mp hx)) hout hout' ⟨hok, initArena_levelsOk new h g'.mem htop, fun x h1 h2 => ?_⟩
  rw [initArena, initArena]
  simp only [Mem.write_outside _ _ (show x < new + 8 ∨ new + 8 + 8 ≤ x by omega),
    Mem.write_outside _ _ (show x < new + 16 ∨ new + 16 + 8 ≤ x by omega),
    Mem.write_outside _ _ (show x < new + 24 ∨ new + 24 + 8 ≤ x by omega), Mem.zero_inside _ (show new ≤ x by omega) h2]

/-- `objalloc` in both builds. -/
theorem Same.objalloc {size : Nat} {g g' : Pool} {used : Nat → Finset Nat} (hs : Same size g g' used) (h : Fits size)
    {os : List Nat → Option Nat} (hos : MmapOk size os) :
    SameOutcome (· ≠ .outside) (fun a b => a.2 = b.2 ∧ ∃ used', Same size a.1 b.1 used') (ObjPool.objalloc size os g)
      (NoTest.objalloc size os g') := by
  have hfind : (g'.arenas.find? fun ar => decide (0 < ObjPool.nfree g'.mem ar)) =
      g.arenas.find? fun ar => decide (0 < ObjPool.nfree g.mem ar) := by
    rw [hs.arenas]
    refine List.find?_congr fun ar har => ?_
    obtain ⟨hplain, hlevels, -⟩ := hs.arena ar har
    have h1 := hplain.nfree
    have h2 := hlevels.nfree
    rw [show ObjPool.nfree g'.mem ar = ObjPool.nfree g.mem ar by omega]
  rw [ObjPool.objalloc, NoTest.objalloc, hfind, hs.arenas]
  cases hf : g.arenas.find? fun ar => decide (0 < ObjPool.nfree g.mem ar) with
  | some ar =>
    have hfree := List.find?_some hf
    exact hs.allocBlock h (List.mem_of_find?_eq_some hf) (by simpa using hfree)
  | none =>
    cases hnew : os g.arenas with
    | none => exact .error (by simp)
    | some new =>
      have hs' := hs.fresh h hos hnew
      have hin : new ∈ allocAfterArena g.arenas none new := by simp [allocAfterArena]
      have hnfree := (hs'.arena new hin).plain.nfree
      have hpos := h.layout.pos
      rw [Function.update_self, Finset.card_empty, Nat.add_zero] at hnfree
      exact hs'.allocBlock h hin (by rw [hnfree]; exact hpos)

/-- `objfree` in both builds. -/
theorem Same.objfree {size p : Nat} {g g' : Pool} {used : Nat → Finset Nat} (hs : Same size g g' used) (h : Fits size)
    (hp : (Op.free p).Legal size g) :
    SameOutcome (· ≠ .outside) (fun a b => ∃ used', Same size a b used') (ObjPool.objfree size p g) (NoTest.objfree size p g') := by
  rw [ObjPool.objfree, NoTest.objfree, hs.arenas]
  split
  · exact .ok ⟨used, hs⟩
  · cases hf : findPtrArena size g.arenas p with
    | none => exact .error (by simp)
    | some ar =>
      obtain ⟨har, h1, h2⟩ := findPtrArena_some hf
      have hO : sizeofObject = 32 := rfl
      have hbehind := h.behind ar
      have hfits := h.layout.fits
      have hsmall := h.layout.small
      obtain ⟨hplain, hlevels, hbytes⟩ := hs.arena ar har
      have hitems : itemsAt size ar ≤ p := by
        have := hp ar har h1 h2
        rwa [hplain.items] at this
      -- the slot of the pointer
      have hlt : (p - itemsAt size ar) / sizeofObject < itemCount size := by
        rw [Nat.div_lt_iff_lt_mul (by decide)]
        unfold itemsAt at hitems ⊢
        omega
      have hindex := freeIndex_nat hitems (by omega)
      obtain ⟨mem, hcall, hok, hout⟩ := hplain.freeBlock h.layout hlt hindex
      obtain ⟨mem', hcall', hok', hout'⟩ := hlevels.freeBlock h hlt hindex
      simp only [hcall, hcall', hs.arenas]
      refine .ok ⟨Function.update used ar ((used ar).erase ((p - itemsAt size ar) / sizeofObject)), ?_⟩
      refine hs.change h hs.apart har (fun x hx => Or.inr hx) (fun x hx => hout x (by omega)) (fun x hx => hout' x (by omega))
        ⟨hok, hok', fun x h1 h2 => ?_⟩
      rw [hout x (by omega), hout' x (by omega)]
      exact hbytes x h1 h2

/-- `objmemcheck` accepts in both builds. -/
theorem Same.objmemcheck {size : Nat} {g g' : Pool} {used : Nat → Finset Nat} (hs : Same size g g' used) (h : Fits size) :
    ObjPool.objmemcheck g = .ok () ∧ NoTest.objmemcheck size g' = .ok () := by
  have hall : ∀ ar ∈ g.arenas, nused g.mem ar = sizeDiff (ObjPool.nitems g.mem ar) (ObjPool.nfree g.mem ar) ∧
      NoTest.nused size g'.mem ar = sizeDiff (ObjPool.nitems g'.mem ar) (ObjPool.nfree g'.mem ar) := by
    intro ar har
    obtain ⟨hplain, hlevels, -⟩ := hs.arena ar har
    refine ⟨hplain.nused_eq h.layout, ?_⟩
    have hbits := h.levels.items
    have hset : (Finset.range (itemCount size)).filter
        (fun i => g'.mem.bit (bitmap ar + bitmapOffset size) i = true) = used ar := by
      ext i
      rw [Finset.mem_filter, Finset.mem_range]
      constructor
      · rintro ⟨hi, hb⟩
        exact (hlevels.bits i (by omega)).mp hb
      · intro hi
        have hlt := hlevels.bound i hi
        exact ⟨hlt, (hlevels.bits i (by omega)).mpr hi⟩
    rw [sizeDiff_used hlevels.nitems hlevels.nfree, NoTest.nused, foldl_count (fun i : Nat => myBitTest size g'.mem (bitmap ar) i),
      hlevels.nitems, Nat.zero_add]
    simp only [myBitTest_eq, hset]
  rw [ObjPool.objmemcheck, NoTest.objmemcheck, hs.arenas]
  exact ⟨forM_ok fun ar har => if_pos (hall ar har).1, forM_ok fun ar har => if_pos (hall ar har).2⟩

/-- A store into an item in both builds. -/
theorem Same.store {size a : Nat} {g g' : Pool} {used : Nat → Finset Nat} (hs : Same size g g' used) (h : Fits size) (b : Byte)
    (ha : (Op.store a b).Legal size g) :
    Same size { g with mem := g.mem.store a b } { g' with mem := g'.mem.store a b } used := by
  obtain ⟨ar, har, h1, h2⟩ := ha
  rw [(hs.arena ar har).plain.items] at h1
  have hbehind := h.behind ar
  have hfits := h.layout.fits
  refine ⟨hs.arenas, hs.apart, fun x hx => ?_⟩
  obtain ⟨hplain, hlevels, hbytes⟩ := hs.arena x hx
  have hbehind' := h.behind x
  have hfar : ∀ y, x ≤ y → y < itemsAt size x → y ≠ a := by
    rintro y hy hlt rfl
    by_cases he : x = ar
    · subst he
      omega
    · have := hs.apart.of_ne hx har he
      unfold ApartFrom at this
      omega
  refine ⟨hplain.frame fun y hy hlt => Mem.store_ne _ _ (hfar y (by omega) (by omega)),
    hlevels.frame h.levels fun y hy hlt => Mem.store_ne _ _ (hfar y (by omega) (by omega)), fun y hy hlt => ?_⟩
  by_cases he : y = a
  · simp only [he, Mem.store_self]
  · simp only [Mem.store_ne _ _ he]
    exact hbytes y hy hlt

/-- One operation in both builds. -/
theorem Same.step {size : Nat} {g g' : Pool} (h : Fits size) (hs : ∃ used, Same size g g' used) (op : Op) (hop : op.Legal size g) :
    SameOutcome (· ≠ .outside) (fun a b => a.2 = b.2 ∧ ∃ used, Same size a.1 b.1 used) ((withTest size).step op g)
      ((withoutTest size).step op g') := by
  obtain ⟨used, hs⟩ := hs
  cases op with
  | alloc os => exact (hs.objalloc h hop).bind fun a b _ _ hab => .ok ⟨congrArg some hab.1, hab.2⟩
  | free p => exact (hs.objfree h hop).bind fun a b _ _ hab => .ok ⟨rfl, hab⟩
  | check =>
    obtain ⟨h1, h2⟩ := hs.objmemcheck h
    simp only [Build.step, withTest, withoutTest, h1, h2]
    exact .ok ⟨rfl, used, hs⟩
  | store a b => exact .ok ⟨rfl, used, hs.store h b hop⟩

/-- The pool in the two builds: the arenas and their headers are the same, the same items are in use, the items hold the same
bytes, and `objmemcheck` accepts. -/
structure SamePool (size : Nat) (g g' : Pool) : Prop where
  arenas : g'.arenas = g.arenas
  header : ∀ ar ∈ g.arenas, nitems g'.mem ar = nitems g.mem ar ∧ nfree g'.mem ar = nfree g.mem ar ∧
    items g'.mem ar = items g.mem ar
  bits : ∀ ar ∈ g.arenas, ∀ i, i < 8 * bitmapSize size →
    myBitTest size g'.mem (bitmap ar) i = bitTest g.mem (bitmap ar) i
  bytes : ∀ ar ∈ g.arenas, ∀ x, items g.mem ar ≤ x → x < ar + size → g'.mem x = g.mem x
  memcheck : objmemcheck g = .ok () ∧ NoTest.objmemcheck size g' = .ok ()

theorem Same.samePool {size : Nat} {g g' : Pool} {used : Nat → Finset Nat} (hs : Same size g g' used) (h : Fits size) :
    SamePool size g g' := by
  refine ⟨hs.arenas, fun ar har => ?_, fun ar har i hi => ?_, fun ar har x h1 h2 => ?_, hs.objmemcheck h⟩
  · obtain ⟨hplain, hlevels, -⟩ := hs.arena ar har
    have h1 := hplain.nfree
    have h2 := hlevels.nfree
    exact ⟨hlevels.nitems.trans hplain.nitems.symm, by omega, hlevels.items.trans hplain.items.symm⟩
  · obtain ⟨hplain, hlevels, -⟩ := hs.arena ar har
    rw [myBitTest_eq, bitTest_nat, Bool.eq_iff_iff, hlevels.bits i hi, hplain.bits i hi]
  · rw [(hs.arena ar har).plain.items] at h1
    exact (hs.arena ar har).bytes x h1 h2

/-- On every list of operations the two builds give the same answers, or stop at the same place with the same error, and no scan
leaves a bitmap. -/
theorem builds_agree (mem : Mem) (ops : List Op)
    (hops : Allowed (Op.Legal arenaSize) (withTest arenaSize).step ops ⟨mem, []⟩) :
    SameOutcome (· ≠ .outside) (fun a b => a.2 = b.2 ∧ SamePool arenaSize a.1 b.1)
      (runOps (withTest arenaSize).step ops ⟨mem, []⟩) (runOps (withoutTest arenaSize).step ops ⟨mem, []⟩) := by
  have h0 : ∃ used, Same arenaSize ⟨mem, []⟩ ⟨mem, []⟩ used := ⟨fun _ => ∅, rfl, List.Pairwise.nil, nofun⟩
  have hstep : ∀ op g g', (∃ used, Same arenaSize g g' used) → op.Legal arenaSize g →
      SameOutcome (· ≠ .outside) (fun a b => a.2 = b.2 ∧ ∃ used, Same arenaSize a.1 b.1 used) ((withTest arenaSize).step op g)
        ((withoutTest arenaSize).step op g') := fun op g g' hs hop => Same.step fits_arenaSize hs op hop
  exact (SameOutcome.runOps hstep ops _ _ h0 hops).mono fun a b ⟨hans, used, hs⟩ => ⟨hans, hs.samePool fits_arenaSize⟩

/-- The pool with one arena, in some state. -/
def OneArena (g : Pool) : Prop := g.arenas = [4096] ∧ ∃ g' used, Same arenaSize g g' used

/-- A pointer behind the start of the items may be freed, and the arena stays. -/
theorem OneArena.free {g : Pool} (h : OneArena g) {p : Nat} (hp : 4448 ≤ p) :
    (Op.free p).Legal arenaSize g ∧ ∀ g' r, (withTest arenaSize).step (.free p) g = .ok (g', r) → OneArena g' := by
  obtain ⟨har, g₁, used, hs⟩ := h
  have hlegal : (Op.free p).Legal arenaSize g := by
    intro ar hin _ _
    rw [(hs.arena ar hin).plain.items, itemsAt_arenaSize]
    rw [har, List.mem_singleton] at hin
    omega
  refine ⟨hlegal, fun g' r hr => ?_⟩
  have hsame := Same.step fits_arenaSize ⟨used, hs⟩ (.free p) hlegal
  rw [hr] at hsame
  cases hcall : objfree arenaSize p g with
  | error e =>
    simp only [Build.step, withTest, hcall] at hr
    cases hr
  | ok g₂ =>
    simp only [Build.step, withTest, hcall] at hr
    obtain ⟨rfl, -⟩ := Prod.mk.inj (Except.ok.inj hr)
    refine ⟨(objfree_arenas hcall).trans har, ?_⟩
    generalize (withoutTest arenaSize).step (.free p) g₁ = y at hsame
    cases hsame with
    | ok h => exact ⟨_, h.2⟩

/-- A client takes an object and frees a pointer into its middle twice. -/
def interiorOps : List Op := [.alloc oneArena, .free 4453, .free 4453, .check]

theorem interiorOps_allowed : Allowed (Op.Legal arenaSize) (withTest arenaSize).step interiorOps ⟨fun _ => 0, []⟩ := by
  refine ⟨oneArena_ok, fun g r hr => ?_⟩
  have hone : OneArena g := by
    have hempty : ∃ used, Same arenaSize ⟨fun _ => 0, []⟩ ⟨fun _ => 0, []⟩ used := ⟨fun _ => ∅, rfl, List.Pairwise.nil, nofun⟩
    have hsame := Same.step fits_arenaSize hempty (.alloc oneArena) oneArena_ok
    rw [hr] at hsame
    cases hcall : objalloc arenaSize oneArena ⟨fun _ => 0, []⟩ with
    | error e =>
      simp only [Build.step, withTest, hcall] at hr
      cases hr
    | ok gp =>
      simp only [Build.step, withTest, hcall] at hr
      obtain ⟨rfl, -⟩ := Prod.mk.inj (Except.ok.inj hr)
      rcases objalloc_arenas hcall with ⟨ar, har, -⟩ | ⟨new, hnew, -, he⟩
      · cases har
      · obtain rfl := Option.some.inj hnew
        refine ⟨he, ?_⟩
        generalize (withoutTest arenaSize).step (.alloc oneArena) ⟨fun _ => 0, []⟩ = y at hsame
        cases hsame with
        | ok h => exact ⟨_, h.2⟩
  obtain ⟨hlegal, hnext⟩ := hone.free (show 4448 ≤ 4453 by decide)
  refine ⟨hlegal, fun g₁ r₁ hr₁ => ?_⟩
  obtain ⟨hlegal₁, -⟩ := (hnext g₁ r₁ hr₁).free (show 4448 ≤ 4453 by decide)
  exact ⟨hlegal₁, fun _ _ _ => ⟨trivial, fun _ _ _ => trivial⟩⟩

/-- The builds agree on that client. -/
theorem builds_agree_interior : SameOutcome (· ≠ .outside) (fun a b => a.2 = b.2 ∧ SamePool arenaSize a.1 b.1)
    (runOps (withTest arenaSize).step interiorOps ⟨fun _ => 0, []⟩)
    (runOps (withoutTest arenaSize).step interiorOps ⟨fun _ => 0, []⟩) :=
  builds_agree _ _ interiorOps_allowed

end OsLabs.ObjPool
