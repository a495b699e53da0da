import OsLabs.ObjPool.Model
import Mathlib.Algebra.Order.BigOperators.Group.Finset
import Mathlib.Data.Finset.Card

/-!
# The pool of the `TEST` build keeps its bitmaps

In an arena (`ArenaOk`) the set bits of the bitmap are the slots in use, all below the number of items, and the number of free
items is what is left of them. So a scan with a free item left finds a byte that is not full, the first clear bit is that of a
free slot, and the live objects are the slots in use of all arenas (`Inv`).
-/

namespace OsLabs.ObjPool

/-- What the layout of an arena must satisfy: the items lie behind the bitmap, the bitmap has a bit for each of them, and an
index of one is an `int`. -/
structure Layout (size : Nat) : Prop where
  fits : sizeofArena + bitmapSize size + itemCount size * sizeofObject ≤ size
  bits : itemCount size ≤ 8 * bitmapSize size
  pos : 0 < itemCount size
  small : size ≤ 2 ^ 31

/-- The layout of an arena of the default size. -/
theorem layout_arenaSize : Layout arenaSize := ⟨by decide, by decide, by decide, by decide⟩

/-- The number of items is an `int`. -/
theorem Layout.count_lt {size : Nat} (h : Layout size) : itemCount size < 2 ^ 31 := by
  have hfits := h.fits
  have hsmall := h.small
  unfold sizeofArena sizeofObject at hfits
  omega

/-! ## The scan -/

/-- A scan with a byte that is not full ahead stops at the first such byte. -/
theorem scanLoop_some {mem : Mem} {bp n : Nat} (offset d : Nat) (hd : d < n) (hne : mem (bp + (offset + d)) ≠ 0xff) :
    ∃ e, e ≤ d ∧ scanLoop mem bp n offset = some (offset + e) ∧ mem (bp + (offset + e)) ≠ 0xff ∧
      ∀ j, j < e → mem (bp + (offset + j)) = 0xff := by
  induction n generalizing offset d with
  | zero => omega
  | succ n ih =>
    rw [scanLoop]
    by_cases h0 : mem (bp + offset) = 0xff
    · rw [if_pos h0]
      have hd0 : d ≠ 0 := by
        rintro rfl
        exact hne h0
      obtain ⟨e, he, hs, hne', hfull⟩ := ih (offset + 1) (d - 1) (by omega)
        (by rwa [show offset + 1 + (d - 1) = offset + d by omega])
      refine ⟨e + 1, by omega, by rw [hs, show offset + 1 + e = offset + (e + 1) by omega], ?_, fun j hj => ?_⟩
      · rwa [show offset + (e + 1) = offset + 1 + e by omega]
      · by_cases hj0 : j = 0
        · rw [hj0, Nat.add_zero]
          exact h0
        · have := hfull (j - 1) (by omega)
          rwa [show offset + 1 + (j - 1) = offset + j by omega] at this
    · rw [if_neg h0]
      exact ⟨0, by omega, by simp, h0, fun j hj => absurd hj (by omega)⟩

/-- A scan over full bytes only finds nothing. -/
theorem scanLoop_none {mem : Mem} {bp n offset : Nat} (h : ∀ j, j < n → mem (bp + (offset + j)) = 0xff) :
    scanLoop mem bp n offset = none := by
  induction n generalizing offset with
  | zero => rfl
  | succ n ih =>
    rw [scanLoop, if_pos (by simpa using h 0 (by omega))]
    exact ih fun j hj => by rw [show offset + 1 + j = offset + (j + 1) by omega]; exact h (j + 1) (by omega)

/-- The scan of a bitmap with a clear bit finds the first one. -/
theorem scanIndex_firstClear {mem : Mem} {bp n i : Nat} (hi : i < 8 * n) (hclear : mem.bit bp i = false) :
    ∃ index, index ≤ i ∧ scanIndex mem bp n = some index ∧ FirstClear (mem.bit bp) index := by
  have hne : mem (bp + (0 + i / 8)) ≠ 0xff := by
    rw [Nat.zero_add, ne_eq, mem.byte_eq_ff_iff]
    intro hall
    have := hall (i % 8) (by omega)
    rw [show 8 * (i / 8) + i % 8 = i by omega, hclear] at this
    cases this
  obtain ⟨e, he, hs, hne', hfull⟩ := scanLoop_some (n := n) _ _ (by omega) hne
  simp only [Nat.zero_add] at hs hne' hfull
  have hfirst := FirstClear.of_byte hne' hfull
  rw [Nat.add_comm, Nat.mul_comm] at hfirst
  refine ⟨_, ?_, by rw [scanIndex, hs], hfirst⟩
  by_contra hlt
  have := hfirst.2 i (by omega)
  rw [hclear] at this
  cases this

/-! ## The bits of `bitstring.h` -/

theorem bitByte_nat (name i : Nat) : bitByte name (i : Int) = name + i / 8 := by
  unfold bitByte
  omega

theorem bitMask_nat (i : Nat) : bitMask (i : Int) = i % 8 := by
  unfold bitMask
  omega

theorem bitTest_nat (mem : Mem) (name i : Nat) : bitTest mem name (i : Int) = mem.bit name i := by
  rw [bitTest, bitByte_nat, bitMask_nat, Mem.bit]
  by_cases h : (mem (name + i / 8)).getLsbD (i % 8) = false
  · rw [h, decide_eq_false_iff_not, not_not]
    exact (and_mask_eq_zero (by omega)).mpr h
  · rw [Bool.not_eq_false] at h
    rw [h, decide_eq_true_eq, ne_eq, and_mask_eq_zero (by omega), h]
    simp

theorem bitSet_nat (mem : Mem) (name i : Nat) : bitSet mem name (i : Int) = mem.orMask (name + i / 8) (i % 8) := by
  rw [bitSet, bitByte_nat, bitMask_nat]

theorem bitClear_nat (mem : Mem) (name i : Nat) : bitClear mem name (i : Int) = mem.andNotMask (name + i / 8) (i % 8) := by
  rw [bitClear, bitByte_nat, bitMask_nat]

/-- The index that `free_block` computes for the start of a slot. -/
theorem freeIndex_slot {items i : Nat} (hi : i < 2 ^ 31) : freeIndex (items + sizeofObject * i) items = i := by
  have hdiff : (((items + sizeofObject * i : Nat) : Int) - items) = ((sizeofObject * i : Nat) : Int) := by omega
  have hlt : sizeofObject * i < 2 ^ 64 := by
    unfold sizeofObject
    omega
  rw [freeIndex, hdiff, BitVec.ofInt_natCast, BitVec.toNat_ofNat, Nat.mod_eq_of_lt hlt,
    Nat.mul_div_cancel_left i (by decide), BitVec.toInt_ofNat']
  exact Int.bmod_eq_of_le (by omega) (by omega)

/-! ## One arena -/

/-- The address of the first item of an arena. -/
def itemsAt (size ar : Nat) : Nat := ar + size - itemCount size * sizeofObject

/-- The header and the bitmap of an arena agree with the set of the slots in use. -/
structure ArenaOk (size : Nat) (mem : Mem) (ar : Nat) (used : Finset Nat) : Prop where
  nitems : nitems mem ar = itemCount size
  nfree : nfree mem ar + used.card = itemCount size
  items : items mem ar = itemsAt size ar
  bits : ∀ i, i < 8 * bitmapSize size → (mem.bit (bitmap ar) i = true ↔ i ∈ used)
  bound : ∀ i ∈ used, i < itemCount size

theorem ArenaOk.frame {size ar : Nat} {mem mem' : Mem} {used : Finset Nat} (h : ArenaOk size mem ar used)
    (heq : ∀ x, ar + 8 ≤ x → x < ar + (sizeofArena + bitmapSize size) → mem' x = mem x) : ArenaOk size mem' ar used := by
  have hA : sizeofArena = 32 := rfl
  refine ⟨?_, ?_, ?_, fun i hi => ?_, h.bound⟩
  · rw [ObjPool.nitems, Mem.read_congr fun x h1 h2 => heq x (by omega) (by omega)]
    exact h.nitems
  · rw [ObjPool.nfree, Mem.read_congr fun x h1 h2 => heq x (by omega) (by omega)]
    exact h.nfree
  · rw [ObjPool.items, Mem.read_congr fun x h1 h2 => heq x (by omega) (by omega)]
    exact h.items
  · rw [← h.bits i hi, Mem.bit, Mem.bit, heq]
    · unfold bitmap
      omega
    · unfold bitmap
      omega

/-- A fresh arena has no slot in use. -/
theorem initArena_ok {size : Nat} (new : Nat) (h : Layout size) (mem : Mem) (hnew : new + size ≤ 2 ^ 47) :
    ArenaOk size (initArena size (mem.zero new size) new) new ∅ ∧
      ∀ x, x < new ∨ new + size ≤ x → initArena size (mem.zero new size) new x = mem x := by
  have hA : sizeofArena = 32 := rfl
  have hO : sizeofObject = 32 := rfl
  have hfits := h.fits
  have hcount : itemCount size < 256 ^ 8 := by
    have := h.count_lt
    omega
  have haddr : new + size - itemCount size * sizeofObject < 256 ^ 8 := by omega
  refine ⟨⟨?_, ?_, ?_, fun i hi => ?_, by simp⟩, fun x hx => ?_⟩
  · simp only [nitems, initArena]
    rw [Mem.read_write_ne _ _ (by omega), Mem.read_write_ne _ _ (by omega), Mem.read_write _ hcount]
  · simp only [nfree, initArena]
    rw [Mem.read_write_ne _ _ (by omega), Mem.read_write _ hcount]
    simp
  · simp only [items, initArena]
    rw [Mem.read_write _ haddr]
    rfl
  · rw [Mem.bit, initArena]
    unfold bitmap
    rw [Mem.write_outside _ _ (by omega), Mem.write_outside _ _ (by omega), Mem.write_outside _ _ (by omega),
      Mem.zero_inside _ (by omega) (by omega)]
    simp
  · rw [initArena]
    rw [Mem.write_outside _ _ (by omega), Mem.write_outside _ _ (by omega), Mem.write_outside _ _ (by omega),
      Mem.zero_outside _ hx]

/-- An arena with a free item: `alloc_block` takes the first free slot. -/
theorem allocBlock_ok {size ar : Nat} {g : Pool} {used : Finset Nat} (h : Layout size) (hok : ArenaOk size g.mem ar used)
    (hfree : 0 < nfree g.mem ar) :
    ∃ index mem', index < itemCount size ∧ index ∉ used ∧
      allocBlock size g ar = .ok ({ g with mem := mem' }, itemsAt size ar + sizeofObject * index) ∧
      ArenaOk size mem' ar (insert index used) ∧
      ∀ x, x < ar + 16 ∨ ar + (sizeofArena + bitmapSize size) ≤ x → mem' x = g.mem x := by
  have hA : sizeofArena = 32 := rfl
  have hbits := h.bits
  have hcount := h.count_lt
  have hfits := h.fits
  -- some slot below the number of items is not in use
  obtain ⟨i, hi, hnot⟩ : ∃ i, i < itemCount size ∧ i ∉ used := by
    by_contra hall
    push Not at hall
    have := Finset.card_le_card (s := Finset.range (itemCount size)) (t := used) fun i hi => hall i (Finset.mem_range.mp hi)
    rw [Finset.card_range] at this
    have := hok.nfree
    omega
  have hclear : g.mem.bit (bitmap ar) i = false := by
    rw [← Bool.not_eq_true, hok.bits i (by omega)]
    exact hnot
  obtain ⟨index, hle, hscan, hfirst⟩ := scanIndex_firstClear (n := bitmapSize size) (by omega) hclear
  have hnotin : index ∉ used := by
    rw [← hok.bits index (by omega), hfirst.1]
    nofun
  generalize hmem : g.mem.orMask (bitmap ar + index / 8) (index % 8) = mem₁
  have hout₁ : ∀ x, x < ar + sizeofArena ∨ ar + (sizeofArena + bitmapSize size) ≤ x → mem₁ x = g.mem x := by
    intro x hx
    rw [← hmem]
    refine Mem.orMask_ne _ ?_
    unfold bitmap
    omega
  have hnfree₁ : nfree mem₁ ar = nfree g.mem ar := Mem.read_congr fun x _ _ => hout₁ x (by omega)
  have hitems₁ : items mem₁ ar = items g.mem ar := Mem.read_congr fun x _ _ => hout₁ x (by omega)
  have hnfree := hok.nfree
  refine ⟨index, mem₁.write (ar + 16) 8 (nfree g.mem ar - 1), by omega, hnotin, ?_, ⟨?_, ?_, ?_, fun j hj => ?_, ?_⟩, ?_⟩
  · rw [allocBlock, if_neg (not_not.mpr hfree), hscan]
    simp only [bitSet_nat, hmem, hnfree₁]
    rw [items, Mem.read_write_ne _ _ (by omega), ← items, hitems₁, hok.items]
  · rw [nitems, Mem.read_write_ne _ _ (by omega), Mem.read_congr fun x _ _ => hout₁ x (by omega)]
    exact hok.nitems
  · rw [nfree, Mem.read_write _ (by omega), Finset.card_insert_of_notMem hnotin]
    omega
  · rw [items, Mem.read_write_ne _ _ (by omega)]
    exact hitems₁.trans hok.items
  · rw [Mem.bit, Mem.write_outside _ _ (by unfold bitmap; omega), ← Mem.bit, ← hmem, Mem.bit_orMask, Finset.mem_insert,
      Bool.or_eq_true, decide_eq_true_eq, hok.bits j hj]
  · intro j hj
    rcases Finset.mem_insert.mp hj with rfl | hj
    · omega
    · exact hok.bound j hj
  · intro x hx
    rw [Mem.write_outside _ _ (by omega)]
    exact hout₁ x (by omega)

/-- `free_block` on the start of a slot in use. -/
theorem freeBlock_ok {size ar index : Nat} {g : Pool} {used : Finset Nat} (h : Layout size) (hok : ArenaOk size g.mem ar used)
    (hused : index ∈ used) :
    ∃ mem', freeBlock g ar (itemsAt size ar + sizeofObject * index) = { g with mem := mem' } ∧
      ArenaOk size mem' ar (used.erase index) ∧
      ∀ x, x < ar + 16 ∨ ar + (sizeofArena + bitmapSize size) ≤ x → mem' x = g.mem x := by
  have hA : sizeofArena = 32 := rfl
  have hO : sizeofObject = 32 := rfl
  have hbits := h.bits
  have hcount := h.count_lt
  have hfits := h.fits
  have hlt := hok.bound index hused
  have hset : g.mem.bit (bitmap ar) index = true := (hok.bits index (by omega)).mpr hused
  generalize hmem : g.mem.andNotMask (bitmap ar + index / 8) (index % 8) = mem₁
  have hout₁ : ∀ x, x < ar + sizeofArena ∨ ar + (sizeofArena + bitmapSize size) ≤ x → mem₁ x = g.mem x := by
    intro x hx
    rw [← hmem]
    refine Mem.andNotMask_ne _ ?_
    unfold bitmap
    omega
  have hnfree₁ : nfree mem₁ ar = nfree g.mem ar := Mem.read_congr fun x _ _ => hout₁ x (by omega)
  have hnfree := hok.nfree
  have hcard := Finset.card_pos.mpr ⟨index, hused⟩
  refine ⟨mem₁.write (ar + 16) 8 (nfree g.mem ar + 1), ?_, ⟨?_, ?_, ?_, fun j hj => ?_, ?_⟩, ?_⟩
  · rw [freeBlock]
    simp only [hok.items, freeIndex_slot (show index < 2 ^ 31 by omega), bitTest_nat, hset, if_true, bitClear_nat, hmem,
      hnfree₁]
  · rw [nitems, Mem.read_write_ne _ _ (by omega), Mem.read_congr fun x _ _ => hout₁ x (by omega)]
    exact hok.nitems
  · rw [nfree, Mem.read_write _ (by omega), Finset.card_erase_of_mem hused]
    omega
  · rw [items, Mem.read_write_ne _ _ (by omega), Mem.read_congr fun x _ _ => hout₁ x (by omega)]
    exact hok.items
  · rw [Mem.bit, Mem.write_outside _ _ (by unfold bitmap; omega), ← Mem.bit, ← hmem, Mem.bit_andNotMask, Finset.mem_erase,
      Bool.and_eq_true, decide_eq_true_eq, hok.bits j hj]
  · exact fun j hj => hok.bound j (Finset.mem_of_mem_erase hj)
  · intro x hx
    rw [Mem.write_outside _ _ (by omega)]
    exact hout₁ x (by omega)

end OsLabs.ObjPool
