import OsLabs.Lib.ByteMem

/-!
# Bitmaps in memory

Bit `i` of the bitmap at an address is bit `i % 8` of its byte `i / 8`. Setting and clearing a bit store one byte and change one
bit. A byte with a clear bit is not `0xff`, and `tzcnt` of its complement is the lowest clear one; so a search that finds the first
byte that is not full and then its lowest clear bit finds the first clear bit of the bitmap (`FirstClear.of_byte`).
-/

namespace OsLabs

/-- `1 << k`, cut to a byte. -/
def mask (k : Nat) : Byte := 1#8 <<< k

theorem getLsbD_mask {j k : Nat} (h : k < 8) : (mask k).getLsbD j = decide (j = k) := by
  rw [mask, ← BitVec.twoPow_eq, BitVec.getLsbD_twoPow]
  simp [h, eq_comm]

/-- A byte is `0xff` when all its bits are set. -/
theorem eq_ff_iff (b : Byte) : b = 0xff ↔ ∀ k, k < 8 → b.getLsbD k = true := by
  have hff : (0xff : Byte) = BitVec.allOnes 8 := by decide
  constructor
  · rintro rfl k hk
    rw [hff, BitVec.getLsbD_allOnes]
    exact decide_eq_true hk
  · intro h
    rw [hff]
    refine BitVec.eq_of_getLsbD_eq fun k hk => ?_
    rw [h k hk, BitVec.getLsbD_allOnes]
    exact (decide_eq_true hk).symm

/-- A byte that is not `0xff` has a clear bit. -/
theorem ne_ff_iff (b : Byte) : b ≠ 0xff ↔ ∃ k, k < 8 ∧ b.getLsbD k = false := by
  rw [ne_eq, eq_ff_iff]
  simp

theorem and_mask_eq_zero {b : Byte} {k : Nat} (hk : k < 8) : b &&& mask k = 0 ↔ b.getLsbD k = false := by
  constructor
  · intro h
    have := congrArg (·.getLsbD k) h
    simpa [getLsbD_mask hk] using this
  · intro h
    refine BitVec.eq_of_getLsbD_eq fun j hj => ?_
    by_cases e : j = k <;> simp [getLsbD_mask hk, e, h]

/-- `tzcnt`: the number of trailing zeros of a word of 32 bits. -/
def tzcnt (x : BitVec 32) : Nat := x.ctz.toNat

/-- `~b`, computed in an `int`. -/
def notInt (b : Byte) : BitVec 32 := ~~~ (b.setWidth 32)

/-- `tzcnt` of the complement of a byte is its lowest clear bit. -/
theorem tzcnt_not {b : Byte} (h : b ≠ 0xff) :
    tzcnt (notInt b) < 8 ∧ b.getLsbD (tzcnt (notInt b)) = false ∧ ∀ j, j < tzcnt (notInt b) → b.getLsbD j = true := by
  obtain ⟨k, hk, hclear⟩ := (ne_ff_iff b).mp h
  have hbit : ∀ i, i < 8 → (notInt b).getLsbD i = !b.getLsbD i := by
    intro i hi
    simp [notInt, show i < 32 by omega]
  have hlow : ∀ i, i < tzcnt (notInt b) → (notInt b).getLsbD i = false := fun i hi =>
    BitVec.getLsbD_false_of_lt_ctz hi
  have hle : tzcnt (notInt b) ≤ k := by
    by_contra hlt
    have := hlow k (by omega)
    simp [hbit k hk, hclear] at this
  have hne : notInt b ≠ 0#32 := by
    intro h0
    have := hbit k hk
    simp [h0, hclear] at this
  refine ⟨by omega, ?_, fun j hj => ?_⟩
  · have := BitVec.getLsbD_true_ctz_of_ne_zero hne
    rw [show (notInt b).ctz.toNat = tzcnt (notInt b) from rfl, hbit _ (by omega)] at this
    simpa using this
  · have := hlow j hj
    rw [hbit j (by omega)] at this
    simpa using this

namespace Mem

/-- Bit `i` of the bitmap at `a`. -/
def bit (m : Mem) (a i : Nat) : Bool := (m (a + i / 8)).getLsbD (i % 8)

/-- `name[x] |= 1 << k`. -/
def orMask (m : Mem) (x k : Nat) : Mem := m.store x (m x ||| mask k)

/-- `name[x] &= ~(1 << k)`. -/
def andNotMask (m : Mem) (x k : Nat) : Mem := m.store x (m x &&& ~~~ mask k)

theorem orMask_ne (m : Mem) {x y k : Nat} (h : y ≠ x) : m.orMask x k y = m y := store_ne _ _ h

theorem andNotMask_ne (m : Mem) {x y k : Nat} (h : y ≠ x) : m.andNotMask x k y = m y := store_ne _ _ h

/-- Setting a bit changes that bit only. -/
theorem bit_orMask (m : Mem) (a i j : Nat) :
    (m.orMask (a + i / 8) (i % 8)).bit a j = (decide (j = i) || m.bit a j) := by
  unfold bit
  by_cases hb : j / 8 = i / 8
  · rw [hb, orMask, store_self, BitVec.getLsbD_or, getLsbD_mask (Nat.mod_lt _ (by decide)), Bool.or_comm]
    congr 1
    rw [decide_eq_decide]
    constructor
    · intro h
      omega
    · rintro rfl
      rfl
  · rw [orMask_ne m (by omega)]
    have : j ≠ i := by
      rintro rfl
      exact hb rfl
    simp [this]

/-- Clearing a bit changes that bit only. -/
theorem bit_andNotMask (m : Mem) (a i j : Nat) :
    (m.andNotMask (a + i / 8) (i % 8)).bit a j = (decide (j ≠ i) && m.bit a j) := by
  unfold bit
  by_cases hb : j / 8 = i / 8
  · rw [hb, andNotMask, store_self, BitVec.getLsbD_and, BitVec.getLsbD_not, getLsbD_mask (Nat.mod_lt _ (by decide)),
      Bool.and_comm]
    have hj : j % 8 < 8 := Nat.mod_lt _ (by decide)
    have hiff : (j % 8 = i % 8) ↔ j = i := by
      constructor
      · intro h
        omega
      · rintro rfl
        rfl
    simp only [hj, decide_true, Bool.true_and, hiff, ne_eq, decide_not]
  · rw [andNotMask_ne m (by omega)]
    have : j ≠ i := by
      rintro rfl
      exact hb rfl
    simp [this]

/-- A byte of a bitmap is `0xff` when its eight bits are set. -/
theorem byte_eq_ff_iff (m : Mem) (a n : Nat) : m (a + n) = 0xff ↔ ∀ k, k < 8 → m.bit a (8 * n + k) = true := by
  rw [eq_ff_iff]
  refine forall₂_congr fun k hk => ?_
  rw [bit, show (8 * n + k) / 8 = n by omega, show (8 * n + k) % 8 = k by omega]

end Mem

/-- `i` is the first index without the property. -/
def FirstClear (p : Nat → Bool) (i : Nat) : Prop := p i = false ∧ ∀ j, j < i → p j = true

theorem FirstClear.unique {p : Nat → Bool} {i j : Nat} (hi : FirstClear p i) (hj : FirstClear p j) : i = j := by
  rcases Nat.lt_trichotomy i j with h | h | h
  · exact absurd (hj.2 i h) (by simp [hi.1])
  · exact h
  · exact absurd (hi.2 j h) (by simp [hj.1])

/-- The first byte that is not full and its lowest clear bit give the first clear bit. -/
theorem FirstClear.of_byte {m : Mem} {a n : Nat} (hne : m (a + n) ≠ 0xff) (hfull : ∀ j, j < n → m (a + j) = 0xff) :
    FirstClear (m.bit a) (8 * n + tzcnt (notInt (m (a + n)))) := by
  obtain ⟨hlt, hclear, hmin⟩ := tzcnt_not hne
  refine ⟨?_, fun j hj => ?_⟩
  · rw [Mem.bit, show (8 * n + tzcnt (notInt (m (a + n)))) / 8 = n by omega,
      show (8 * n + tzcnt (notInt (m (a + n)))) % 8 = tzcnt (notInt (m (a + n))) by omega]
    exact hclear
  · by_cases h : j < 8 * n
    · have := (m.byte_eq_ff_iff a (j / 8)).mp (hfull (j / 8) (by omega)) (j % 8) (by omega)
      rwa [show 8 * (j / 8) + j % 8 = j by omega] at this
    · have := hmin (j - 8 * n) (by omega)
      rw [Mem.bit, show j / 8 = n by omega, show j % 8 = j - 8 * n by omega]
      exact this

end OsLabs
