import OsLabs.Lib.ByteMem

/-!
# Words in memory

Numbers of `n` bytes in memory, the lowest byte first. What is written is read back when it fits, and a word only depends on its
bytes.
-/

namespace OsLabs

namespace Mem

/-- The number in the `n` bytes at `a`. -/
def read (m : Mem) (a : Nat) : Nat → Nat
  | 0 => 0
  | n + 1 => (m a).toNat + 256 * m.read (a + 1) n

/-- The memory with `v` written to the `n` bytes at `a`. -/
def write (m : Mem) (a : Nat) : Nat → Nat → Mem
  | 0, _ => m
  | n + 1, v => (m.store a (BitVec.ofNat 8 v)).write (a + 1) n (v / 256)

theorem write_outside (m : Mem) {a n x : Nat} (v : Nat) (h : x < a ∨ a + n ≤ x) : m.write a n v x = m x := by
  induction n generalizing m a v with
  | zero => rfl
  | succ n ih =>
    rw [write, ih _ _ (by omega)]
    exact store_ne _ _ (by omega)

theorem read_congr {m m' : Mem} {a n : Nat} (h : ∀ x, a ≤ x → x < a + n → m' x = m x) : m'.read a n = m.read a n := by
  induction n generalizing a with
  | zero => rfl
  | succ n ih =>
    rw [read, read, h a (by omega) (by omega), ih fun x h1 h2 => h x (by omega) (by omega)]

/-- A word of zero bytes. -/
theorem read_zero (a n : Nat) : read (fun _ => 0) a n = 0 := by
  induction n generalizing a with
  | zero => rfl
  | succ n ih =>
    rw [read, ih]
    rfl

theorem read_write (m : Mem) {a n v : Nat} (h : v < 256 ^ n) : (m.write a n v).read a n = v := by
  induction n generalizing m a v with
  | zero =>
    rw [Nat.pow_zero] at h
    rw [read]
    omega
  | succ n ih =>
    rw [Nat.pow_succ] at h
    have hb : (m.write a (n + 1) v) a = BitVec.ofNat 8 v := by
      rw [write, write_outside _ _ (by omega), store_self]
    rw [read, hb, write, ih _ (Nat.div_lt_of_lt_mul (by rwa [Nat.mul_comm]))]
    simp only [BitVec.toNat_ofNat]
    omega

theorem read_lt (m : Mem) (a n : Nat) : m.read a n < 256 ^ n := by
  induction n generalizing a with
  | zero => exact Nat.one_pos
  | succ n ih =>
    have h := ih (a + 1)
    have hb : (m a).toNat < 256 := (m a).isLt
    rw [read, Nat.pow_succ]
    omega

/-- The high bytes of a small number are zero. -/
theorem byte_zero_of_read_lt {m : Mem} {a n j : Nat} (hj : j < n) (h : m.read a n < 256 ^ j) : m (a + j) = 0 := by
  induction n generalizing a j with
  | zero => omega
  | succ n ih =>
    rw [read] at h
    cases j with
    | zero =>
      rw [Nat.pow_zero] at h
      have hzero : (m a).toNat = 0 := by omega
      exact BitVec.eq_of_toNat_eq hzero
    | succ j =>
      rw [Nat.pow_succ] at h
      have := ih (a := a + 1) (show j < n by omega) (by omega)
      rwa [Nat.add_assoc, Nat.add_comm 1] at this

/-- A word elsewhere is not changed. -/
theorem read_write_ne (m : Mem) {a b n k : Nat} (v : Nat) (h : b + k ≤ a ∨ a + n ≤ b) :
    (m.write a n v).read b k = m.read b k :=
  read_congr fun _ h1 h2 => write_outside _ _ (by omega)

end Mem

end OsLabs
