import OsLabs.ObjPool.Pool

/-!
# The bitmap of three levels refines the flat one

A level summarises the one below it: its bit `j` is set when byte `j` below is full (`Sums`). Setting or clearing one bit below, with
the change above that the code makes, keeps this (`Sums.or`, `Sums.andNot`); so both summaries hold in every run. From the first
clear bit of a summary one gets the first byte that is not full and the first clear bit below, down to the bitmap itself.
-/

namespace OsLabs.ObjPool

/-- Bit `j` of the bitmap at `up` tells whether byte `j` of the `n` bytes at `low` is full. -/
def Sums (mem : Mem) (up low n : Nat) : Prop := ∀ j, j < n → (mem.bit up j = true ↔ mem (low + j) = 0xff)

/-- A summary only depends on its two regions. -/
theorem Sums.frame {mem mem' : Mem} {up low n : Nat} (h : Sums mem up low n)
    (hup : ∀ j, j < n → mem' (up + j / 8) = mem (up + j / 8)) (hlow : ∀ j, j < n → mem' (low + j) = mem (low + j)) :
    Sums mem' up low n := by
  intro j hj
  rw [Mem.bit, hup j hj, hlow j hj]
  exact h j hj

/-- A bit is set below and the byte is not full then: the summary is kept. -/
theorem Sums.or_part {mem : Mem} {up low k i : Nat} (h : Sums mem up low (8 * k)) (hul : up + k ≤ low)
    (hpart : mem.orMask (low + i / 8) (i % 8) (low + i / 8) ≠ 0xff) :
    Sums (mem.orMask (low + i / 8) (i % 8)) up low (8 * k) := by
  intro j hj
  have hup : (mem.orMask (low + i / 8) (i % 8)).bit up j = mem.bit up j := by
    rw [Mem.bit, Mem.orMask_ne mem (by omega), Mem.bit]
  rw [hup, h j hj]
  by_cases hji : j = i / 8
  · subst hji
    refine iff_of_false (fun hfull => hpart ?_) hpart
    rw [Mem.byte_eq_ff_iff] at hfull ⊢
    exact fun b hb => by rw [Mem.bit_orMask, hfull b hb, Bool.or_true]
  · rw [Mem.orMask_ne mem (by omega)]

/-- A bit is set below, the byte is full then, and its bit above is set: the summary is kept. -/
theorem Sums.or_full {mem : Mem} {up low k i : Nat} (h : Sums mem up low (8 * k)) (hul : up + k ≤ low) (hi : i / 8 < 8 * k)
    (hfull : mem.orMask (low + i / 8) (i % 8) (low + i / 8) = 0xff) :
    Sums ((mem.orMask (low + i / 8) (i % 8)).orMask (up + i / 8 / 8) (i / 8 % 8)) up low (8 * k) := by
  intro j hj
  have hup : (mem.orMask (low + i / 8) (i % 8)).bit up j = mem.bit up j := by
    rw [Mem.bit, Mem.orMask_ne mem (by omega), Mem.bit]
  rw [Mem.bit_orMask, hup, Bool.or_eq_true, decide_eq_true_eq, h j hj, Mem.orMask_ne _ (by omega)]
  by_cases hji : j = i / 8
  · subst hji
    exact iff_of_true (Or.inl rfl) hfull
  · rw [Mem.orMask_ne mem (by omega)]
    simp [hji]

/-- A byte with a cleared bit is not full. -/
theorem andNotMask_ne_ff (mem : Mem) (low i : Nat) : mem.andNotMask (low + i / 8) (i % 8) (low + i / 8) ≠ 0xff := by
  rw [ne_eq, Mem.byte_eq_ff_iff]
  intro hall
  have := hall (i % 8) (by omega)
  rw [show 8 * (i / 8) + i % 8 = i by omega, Mem.bit_andNotMask] at this
  simp at this

/-- A bit is cleared below, and its bit above: the summary is kept. -/
theorem Sums.andNot {mem : Mem} {up low k i : Nat} (h : Sums mem up low (8 * k)) (hul : up + k ≤ low) (hi : i / 8 < 8 * k) :
    Sums ((mem.andNotMask (low + i / 8) (i % 8)).andNotMask (up + i / 8 / 8) (i / 8 % 8)) up low (8 * k) := by
  intro j hj
  have hup : (mem.andNotMask (low + i / 8) (i % 8)).bit up j = mem.bit up j := by
    rw [Mem.bit, Mem.andNotMask_ne mem (by omega), Mem.bit]
  rw [Mem.bit_andNotMask, hup, Bool.and_eq_true, decide_eq_true_eq, h j hj, Mem.andNotMask_ne _ (by omega)]
  by_cases hji : j = i / 8
  · subst hji
    exact iff_of_false (fun hand => hand.1 rfl) (andNotMask_ne_ff mem low i)
  · rw [Mem.andNotMask_ne mem (by omega)]
    simp [hji]

/-- A bit is cleared below and the byte of its bit above is zero already: the summary is kept. -/
theorem Sums.andNot_zero {mem : Mem} {up low k i : Nat} (h : Sums mem up low (8 * k)) (hul : up + k ≤ low)
    (hzero : mem (up + i / 8 / 8) = 0) : Sums (mem.andNotMask (low + i / 8) (i % 8)) up low (8 * k) := by
  intro j hj
  have hup : (mem.andNotMask (low + i / 8) (i % 8)).bit up j = mem.bit up j := by
    rw [Mem.bit, Mem.andNotMask_ne mem (by omega), Mem.bit]
  by_cases hji : j = i / 8
  · subst hji
    have hclear : mem.bit up (i / 8) = false := by
      rw [Mem.bit, hzero]
      simp
    rw [hup, hclear]
    exact iff_of_false Bool.false_ne_true (andNotMask_ne_ff mem low i)
  · rw [hup, h j hj, Mem.andNotMask_ne mem (by omega)]

/-- The first clear bit of a summary leads to the first clear bit below. -/
theorem Sums.firstClear {mem : Mem} {up low n j : Nat} (h : Sums mem up low n) (hj : j < n) (hfirst : FirstClear (mem.bit up) j) :
    FirstClear (mem.bit low) (j * 8 + tzcnt (notInt (mem (low + j)))) := by
  rw [Nat.mul_comm]
  refine FirstClear.of_byte (fun hfull => ?_) fun i hi => ?_
  · have := (h j hj).mpr hfull
    rw [hfirst.1] at this
    cases this
  · exact (h i (by omega)).mp (hfirst.2 i hi)

/-- A clear bit below makes the bit above of its byte clear. -/
theorem Sums.clear_above {mem : Mem} {up low n i : Nat} (h : Sums mem up low n) (hi : i / 8 < n)
    (hclear : mem.bit low i = false) : mem.bit up (i / 8) = false := by
  rw [← Bool.not_eq_true, h (i / 8) hi, Mem.byte_eq_ff_iff]
  intro hall
  have := hall (i % 8) (by omega)
  rw [show 8 * (i / 8) + i % 8 = i by omega, hclear] at this
  cases this

/-! ## The three levels -/

/-- Every level has whole bytes of summary. -/
structure LevelLayout (size : Nat) : Prop where
  level1 : bitmapSize size = 8 * level1Size size
  level2 : level1Size size = 8 * level2Size size
  items : itemCount size ≤ 8 * bitmapSize size

theorem levelLayout_arenaSize : LevelLayout arenaSize := ⟨by decide, by decide, by decide⟩

/-- Both summaries hold. -/
structure Levels (size bitmap : Nat) (mem : Mem) : Prop where
  low : Sums mem (bitmap + level1Offset size) (bitmap + bitmapOffset size) (bitmapSize size)
  up : Sums mem (bitmap + level2Offset) (bitmap + level1Offset size) (level1Size size)

/-- `my_bit_set` keeps both summaries. -/
theorem Levels.set {size bitmap i : Nat} {mem : Mem} (h : Levels size bitmap mem) (hl : LevelLayout size)
    (hi : i < 8 * bitmapSize size) : Levels size bitmap (myBitSet size mem bitmap i) := by
  obtain ⟨hlow, hup⟩ := h
  have h1 := hl.level1
  have h2 := hl.level2
  have e1 : level1Offset size = level2Size size := rfl
  have e2 : bitmapOffset size = level2Size size + level1Size size := rfl
  have e3 : level2Offset = 0 := rfl
  rw [h1] at hlow
  rw [h2] at hup
  rw [myBitSet]
  simp only [← Nat.add_assoc]
  -- the upper summary does not see the bit of the bitmap
  have hup₁ : Sums (mem.orMask (bitmap + bitmapOffset size + i / 8) (i % 8)) (bitmap + level2Offset)
      (bitmap + level1Offset size) (8 * level2Size size) :=
    hup.frame (fun j _ => Mem.orMask_ne _ (by omega)) fun j _ => Mem.orMask_ne _ (by omega)
  split
  · rename_i hfull
    have hlow₁ := hlow.or_full (by omega) (by omega) hfull
    split
    · rename_i hfull'
      have hup₂ := hup₁.or_full (i := i / 8) (by omega) (by omega) hfull'
      refine ⟨?_, by rw [h2]; exact hup₂⟩
      rw [h1]
      exact hlow₁.frame (fun j _ => Mem.orMask_ne _ (by omega)) fun j _ => Mem.orMask_ne _ (by omega)
    · rename_i hpart'
      exact ⟨by rw [h1]; exact hlow₁, by rw [h2]; exact hup₁.or_part (i := i / 8) (by omega) hpart'⟩
  · rename_i hpart
    exact ⟨by rw [h1]; exact hlow.or_part (by omega) hpart, by rw [h2]; exact hup₁⟩

/-- `my_bit_clear` keeps both summaries. -/
theorem Levels.clear {size bitmap i : Nat} {mem : Mem} (h : Levels size bitmap mem) (hl : LevelLayout size)
    (hi : i < 8 * bitmapSize size) : Levels size bitmap (myBitClear size mem bitmap i) := by
  obtain ⟨hlow, hup⟩ := h
  have h1 := hl.level1
  have h2 := hl.level2
  have e1 : level1Offset size = level2Size size := rfl
  have e2 : bitmapOffset size = level2Size size + level1Size size := rfl
  have e3 : level2Offset = 0 := rfl
  rw [h1] at hlow
  rw [h2] at hup
  rw [myBitClear]
  simp only [← Nat.add_assoc]
  have hne := andNotMask_ne_ff mem (bitmap + bitmapOffset size) i
  have hup₁ : Sums (mem.andNotMask (bitmap + bitmapOffset size + i / 8) (i % 8)) (bitmap + level2Offset)
      (bitmap + level1Offset size) (8 * level2Size size) :=
    hup.frame (fun j _ => Mem.andNotMask_ne _ (by omega)) fun j _ => Mem.andNotMask_ne _ (by omega)
  have hbyte : mem.andNotMask (bitmap + bitmapOffset size + i / 8) (i % 8) (bitmap + level1Offset size + i / 8 / 8) =
      mem (bitmap + level1Offset size + i / 8 / 8) := Mem.andNotMask_ne _ (by omega)
  split
  · have hlow₁ := hlow.andNot (i := i) (by omega) (by omega)
    split
    · have hup₂ := hup₁.andNot (i := i / 8) (by omega) (by omega)
      refine ⟨?_, by rw [h2]; exact hup₂⟩
      rw [h1]
      exact hlow₁.frame (fun j _ => Mem.andNotMask_ne _ (by omega)) fun j _ => Mem.andNotMask_ne _ (by omega)
    · rename_i hguard
      refine ⟨by rw [h1]; exact hlow₁, ?_⟩
      rw [h2]
      refine hup₁.andNot_zero (i := i / 8) (by omega) ?_
      have hne₁ := andNotMask_ne_ff (mem.andNotMask (bitmap + bitmapOffset size + i / 8) (i % 8)) (bitmap + level1Offset size)
        (i / 8)
      by_contra hzero
      exact hguard ⟨fun hz => hzero ((Mem.andNotMask_ne _ (by omega)).symm.trans hz), hne₁⟩
  · rename_i hguard
    refine ⟨?_, by rw [h2]; exact hup₁⟩
    rw [h1]
    refine hlow.andNot_zero (by omega) ?_
    by_contra hzero
    exact hguard ⟨by rw [hbyte]; exact hzero, hne⟩

/-- With a clear bit in the bitmap `my_bit_ffc` finds the first one. -/
theorem Levels.ffc {size bitmap i : Nat} {mem : Mem} (h : Levels size bitmap mem) (hl : LevelLayout size)
    (hi : i < 8 * bitmapSize size) (hclear : mem.bit (bitmap + bitmapOffset size) i = false) :
    ∃ k, k ≤ i ∧ myBitFfc size mem bitmap = some k ∧ FirstClear (mem.bit (bitmap + bitmapOffset size)) k := by
  have h1 := hl.level1
  have h2 := hl.level2
  have hclear₁ := h.low.clear_above (by omega) hclear
  have hclear₂ := h.up.clear_above (by omega) hclear₁
  obtain ⟨j₂, hj₂, hscan, hfirst₂⟩ := scanIndex_firstClear (n := level2Size size) (by omega) hclear₂
  rw [scanIndex] at hscan
  rw [myBitFfc]
  have e3 : bitmap + level2Offset = bitmap := rfl
  rw [e3] at hscan hfirst₂
  cases hloop : scanLoop mem bitmap (level2Size size) 0 with
  | none =>
    rw [hloop] at hscan
    cases hscan
  | some level2Idx =>
    rw [hloop] at hscan
    simp only [Option.some.injEq] at hscan ⊢
    rw [Nat.add_comm] at hscan
    rw [hscan]
    have hfirst₁ := h.up.firstClear (by omega) hfirst₂
    rw [Nat.add_assoc] at hfirst₁
    generalize hj₁ : j₂ * 8 + tzcnt (notInt (mem (bitmap + (level1Offset size + j₂)))) = j₁ at hfirst₁
    have hle₁ : j₁ ≤ i / 8 := by
      by_contra hlt
      exact absurd (hfirst₁.2 (i / 8) (by omega)) (by simp [hclear₁])
    have hfirst₀ := h.low.firstClear (by omega) hfirst₁
    rw [Nat.add_assoc] at hfirst₀
    generalize hj₀ : j₁ * 8 + tzcnt (notInt (mem (bitmap + (bitmapOffset size + j₁)))) = j₀ at hfirst₀
    refine ⟨j₀, ?_, rfl, hfirst₀⟩
    by_contra hlt
    exact absurd (hfirst₀.2 i (by omega)) (by simp [hclear])

/-- What `my_bit_ffc` finds, if it finds anything, is a bit of the bitmap. -/
theorem Levels.of_ffc {size bitmap i : Nat} {mem : Mem} (h : Levels size bitmap mem) (hl : LevelLayout size)
    (hffc : myBitFfc size mem bitmap = some i) : i < 8 * bitmapSize size := by
  have h1 := hl.level1
  have h2 := hl.level2
  -- the scan has found a byte of the upper level that is not full, so some bit of the bitmap is clear
  by_cases hall : ∀ j, j < 8 * bitmapSize size → mem.bit (bitmap + bitmapOffset size) j = true
  · exfalso
    have hlow : ∀ j, j < 8 * level1Size size → mem.bit (bitmap + level1Offset size) j = true := by
      intro j hj
      refine (h.low j (by omega)).mpr ?_
      rw [Mem.byte_eq_ff_iff]
      exact fun b hb => hall _ (by omega)
    have hup : ∀ j, j < level2Size size → mem (bitmap + j) = 0xff := by
      intro j hj
      have : mem (bitmap + level2Offset + j) = 0xff := by
        rw [Mem.byte_eq_ff_iff]
        refine fun b hb => (h.up _ (by omega)).mpr ?_
        rw [Mem.byte_eq_ff_iff]
        exact fun c hc => hlow _ (by omega)
      exact this
    rw [myBitFfc, scanLoop_none (by simpa using hup)] at hffc
    cases hffc
  · obtain ⟨j, hj, hclear⟩ : ∃ j, j < 8 * bitmapSize size ∧ mem.bit (bitmap + bitmapOffset size) j = false := by
      simpa using hall
    obtain ⟨k, hk, hffc', -⟩ := h.ffc hl hj hclear
    rw [hffc] at hffc'
    have := Option.some.inj hffc'
    omega

/-! ## Runs -/

/-- Both summaries hold in every state of every run. -/
theorem levels_reach {size bitmap : Nat} (hl : LevelLayout size) {mem : Mem} (hs : (bitmapRuns size bitmap).Reach mem) :
    Levels size bitmap mem := by
  have h1 := hl.level1
  have h2 := hl.level2
  have e1 : level1Offset size = level2Size size := rfl
  have e2 : bitmapOffset size = level2Size size + level1Size size := rfl
  have e3 : level2Offset = 0 := rfl
  have hind : (bitmapRuns size bitmap).Inductive (Levels size bitmap) := by
    refine ⟨fun mem hzero => ⟨fun j hj => ?_, fun j hj => ?_⟩, fun mem a mem' h hst => ?_⟩
    · rw [Mem.bit, Nat.add_assoc, Nat.add_assoc, hzero _ (by omega), hzero _ (by omega)]
      simp
    · rw [Mem.bit, Nat.add_assoc, Nat.add_assoc, hzero _ (by omega), hzero _ (by omega)]
      simp
    · cases hst with
      | set hffc => exact h.set hl (h.of_ffc hl hffc)
      | clear hi _ => exact h.clear hl hi
  exact hind.reach hs

/-- `my_bit_test` reads a bit of the bitmap. -/
theorem myBitTest_eq (size : Nat) (mem : Mem) (bitmap i : Nat) :
    myBitTest size mem bitmap i = mem.bit (bitmap + bitmapOffset size) i := by
  rw [← bitTest_nat, bitTest, bitByte_nat, bitMask_nat, myBitTest, Nat.add_assoc]

/-- In every run of the bitmap of an arena of the default size a bit of level 1 is set when its byte of the bitmap is full and a
bit of level 2 when its byte of level 1 is; and as long as fewer bits are set than there are items, `my_bit_ffc` returns the lowest
clear bit, that of an item, as the plain scan does. -/
theorem bitmap_refines {bitmap : Nat} {mem : Mem} (hs : (bitmapRuns arenaSize bitmap).Reach mem) :
    (∀ j, j < bitmapSize arenaSize →
      (mem.bit (bitmap + level1Offset arenaSize) j = true ↔ mem (bitmap + bitmapOffset arenaSize + j) = 0xff)) ∧
    (∀ k, k < level1Size arenaSize →
      (mem.bit (bitmap + level2Offset) k = true ↔ mem (bitmap + level1Offset arenaSize + k) = 0xff)) ∧
    (((Finset.range (8 * bitmapSize arenaSize)).filter fun i => myBitTest arenaSize mem bitmap i = true).card <
        itemCount arenaSize →
      ∃ i, i < itemCount arenaSize ∧ myBitFfc arenaSize mem bitmap = some i ∧
        FirstClear (myBitTest arenaSize mem bitmap) i ∧
        scanIndex mem (bitmap + bitmapOffset arenaSize) (bitmapSize arenaSize) = some i) := by
  have hl := levelLayout_arenaSize
  have h := levels_reach hl hs
  refine ⟨h.low, h.up, fun hcard => ?_⟩
  have htest : myBitTest arenaSize mem bitmap = mem.bit (bitmap + bitmapOffset arenaSize) :=
    funext (myBitTest_eq arenaSize mem bitmap)
  rw [htest] at hcard ⊢
  -- fewer set bits than items: some bit of an item is clear
  obtain ⟨i, hi, hclear⟩ : ∃ i, i < itemCount arenaSize ∧ mem.bit (bitmap + bitmapOffset arenaSize) i = false := by
    by_contra hall
    push Not at hall
    have hsub : Finset.range (itemCount arenaSize) ⊆ (Finset.range (8 * bitmapSize arenaSize)).filter
        fun i => mem.bit (bitmap + bitmapOffset arenaSize) i = true := by
      intro i hi
      have hi' := Finset.mem_range.mp hi
      have := hl.items
      exact Finset.mem_filter.mpr ⟨Finset.mem_range.mpr (by omega), by simpa using hall i hi'⟩
    have := Finset.card_le_card hsub
    rw [Finset.card_range] at this
    omega
  have hi' : i < 8 * bitmapSize arenaSize := Nat.lt_of_lt_of_le hi hl.items
  obtain ⟨k, hk, hffc, hfirst⟩ := h.ffc hl hi' hclear
  obtain ⟨k', -, hscan, hfirst'⟩ := scanIndex_firstClear (n := bitmapSize arenaSize) hi' hclear
  refine ⟨k, by omega, hffc, hfirst, ?_⟩
  rw [hscan, hfirst.unique hfirst']

/-- The bitmap of an arena with its first item in use. -/
theorem bitmap_refines_one : ∃ mem, (bitmapRuns arenaSize 4128).Reach mem ∧ myBitTest arenaSize mem 4128 0 = true ∧
    (mem.bit (4128 + level1Offset arenaSize) 0 = true ↔ mem (4128 + bitmapOffset arenaSize + 0) = 0xff) := by
  have h0 : (bitmapRuns arenaSize 4128).Reach fun _ => 0 := .init fun _ _ => rfl
  have hffc : myBitFfc arenaSize (fun _ => 0) 4128 = some 0 := by decide +kernel
  have h1 : (bitmapRuns arenaSize 4128).Reach (myBitSet arenaSize (fun _ => 0) 4128 0) := .step (.set 0) h0 (.set hffc)
  exact ⟨_, h1, by decide +kernel, (bitmap_refines h1).1 0 (by decide)⟩

end OsLabs.ObjPool
