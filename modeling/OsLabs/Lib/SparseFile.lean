import OsLabs.Lib.Records
import Mathlib.Order.Interval.Finset.Nat
import Mathlib.Order.Lattice.Nat

/-!
# Files with holes

A file that is written through one descriptor: its bytes, its size, the offset, and the blocks that are stored. `lseek` can go past the
end, and a later write leaves a hole there, which reads as zeros and takes no block. A write of a whole block stores that block and no
other.
-/

namespace OsLabs

/-- A file and the offset of its descriptor; what lies past the size is not in the file. -/
structure SparseFile where
  data : Mem
  size : Nat
  offset : Nat
  stored : Finset Nat

namespace SparseFile

/-- The file after `open` with `O_TRUNC`. -/
def empty : SparseFile := ⟨fun _ => 0, 0, 0, ∅⟩

/-- `lseek(fd, n, SEEK_CUR)`. -/
def seek (f : SparseFile) (n : Nat) : SparseFile := { f with offset := f.offset + n }

/-- `write`: the bytes go to the offset, into the blocks of size `B` that they lie in. -/
def write (B : Nat) (f : SparseFile) (l : List Byte) : SparseFile where
  data := f.data.put f.offset l
  size := max f.size (f.offset + l.length)
  offset := f.offset + l.length
  stored := f.stored ∪ Finset.Icc (f.offset / B) ((f.offset + l.length - 1) / B)

variable {f : SparseFile} {B n : Nat} {l : List Byte}

/-- A block, written at its place, is the only block that is stored. -/
theorem write_stored (hB : 0 < B) (ho : f.offset = B * n) (hl : l.length = B) : (f.write B l).stored = insert n f.stored := by
  have hfirst : f.offset / B = n := by rw [ho, Nat.mul_div_cancel_left _ hB]
  have hlast : (f.offset + l.length - 1) / B = n := by
    rw [ho, hl]
    refine Nat.div_eq_of_lt_le ?_ ?_
    · rw [Nat.mul_comm]
      omega
    · rw [Nat.succ_mul, Nat.mul_comm]
      omega
  unfold write
  rw [hfirst, hlast, Finset.Icc_self, Finset.union_comm]
  rfl

/-- Its bytes are the bytes of the block. -/
theorem write_data (ho : f.offset = B * n) (hl : l.length = B) {j : Nat} (hj : j < B) : (f.write B l).data (B * n + j) = l[j] := by
  have h := f.data.holds_put f.offset l j (by omega)
  rw [ho] at h
  unfold write
  rw [ho]
  exact h

/-- The other blocks have the bytes that they had. -/
theorem write_data_ne (ho : f.offset = B * n) (hl : l.length = B) {x : Nat} (hx : x / B ≠ n) :
    (f.write B l).data x = f.data x := by
  refine f.data.put_outside ?_
  rw [ho, hl]
  by_contra hin
  rw [not_or, not_lt, not_le] at hin
  refine hx (Nat.div_eq_of_lt_le ?_ ?_)
  · rw [Nat.mul_comm]
    exact hin.1
  · rw [Nat.succ_mul, Nat.mul_comm]
    exact hin.2

end SparseFile

end OsLabs
