import OsLabs.Lib.CStr

/-!
# Copying a leaked file (`innocent.c`)

For every descriptor that it inherited the program writes a header line and copies the file. It reads at most 999 bytes at a time into a
buffer of 1000, ends them with a zero byte, and prints them as a string. The zero byte is stored at `n - 1`, over the last byte that was
read, instead of behind it. So each chunk loses its last byte (`copy_chunks`), and only the empty file is copied as it is.

How the file comes in chunks is up to `read`; `Chunks` is any way to cut it.
-/

namespace OsLabs.Innocent

/-- The ways in which `read(i, buf, 999)` may return a file, up to the call that returns 0. -/
structure Chunks (file : List Byte) where
  list : List (List Byte)
  flatten : list.flatten = file
  sizes : ∀ chunk ∈ list, 1 ≤ chunk.length ∧ chunk.length ≤ 999

/-- `read`: the chunk is stored at the start of the buffer, and the rest of the buffer stays. -/
def readInto (buf : Ptr) (chunk : List Byte) : Ptr := fun j => if h : j < chunk.length then chunk[j] else buf j

/-- `dprintf(out, "%s", buf)`: the bytes it writes, of a string in a buffer of 1000. -/
def printString (buf : Ptr) : List Byte := buf.cstr 1000

/-- The loop: what is appended to the output. -/
def copy (buf : Ptr) : List (List Byte) → List Byte
  | [] => []
  | chunk :: chunks =>
    let n := chunk.length
    let buf := readInto buf chunk
    let buf := Function.update buf (n - 1) 0
    printString buf ++ copy buf chunks

/-- The bytes of a text. -/
def bytes (s : String) : List Byte := s.toList.map fun c => BitVec.ofNat 8 c.toNat

/-- The header line. -/
def header (i : Nat) (fdPath : Ptr) : List Byte :=
  bytes ("File descriptor " ++ toString i ++ " is '") ++ fdPath.cstr 4096 ++ bytes "' file!\n"

/-- What one descriptor appends to the output: `lseek` has gone to the start of the file. -/
def leak (i : Nat) (fdPath buf : Ptr) {file : List Byte} (chunks : Chunks file) : List Byte :=
  header i fdPath ++ copy buf chunks.list

/-! ## What is printed -/

/-- The string in the buffer is the chunk without its last byte. -/
theorem printString_chunk (buf : Ptr) {chunk : List Byte} (h0 : (0 : Byte) ∉ chunk) (hpos : 1 ≤ chunk.length)
    (hlen : chunk.length ≤ 999) : printString (Function.update (readInto buf chunk) (chunk.length - 1) 0) = chunk.dropLast := by
  refine Ptr.cstr_terminated (fun h => h0 ((List.dropLast_sublist chunk).subset h)) ?_ (fun j hj => ?_) ?_
  · rw [List.length_dropLast]
    omega
  · rw [List.length_dropLast] at hj
    have hin : j < chunk.length := by omega
    rw [Function.update_of_ne (Nat.ne_of_lt hj), readInto, dif_pos hin, List.getElem_dropLast]
  · rw [List.length_dropLast, Function.update_self]

/-- Each chunk loses its last byte, whatever was in the buffer. -/
theorem copy_chunks (buf : Ptr) {chunks : List (List Byte)} (h0 : ∀ chunk ∈ chunks, (0 : Byte) ∉ chunk)
    (hsizes : ∀ chunk ∈ chunks, 1 ≤ chunk.length ∧ chunk.length ≤ 999) : copy buf chunks = chunks.flatMap List.dropLast := by
  induction chunks generalizing buf with
  | nil => rfl
  | cons chunk chunks ih =>
    rw [List.forall_mem_cons] at h0 hsizes
    rw [copy, List.flatMap_cons]
    rw [printString_chunk buf h0.1 hsizes.1.1 hsizes.1.2, ih _ h0.2 hsizes.2]

/-- So the copy is shorter than the file by the number of the chunks. -/
theorem length_dropLasts {chunks : List (List Byte)} (hsizes : ∀ chunk ∈ chunks, 1 ≤ chunk.length) :
    (chunks.flatMap List.dropLast).length + chunks.length = chunks.flatten.length := by
  induction chunks with
  | nil => rfl
  | cons chunk chunks ih =>
    rw [List.forall_mem_cons] at hsizes
    have hrest := ih hsizes.2
    have hfirst := hsizes.1
    rw [List.flatMap_cons, List.flatten_cons, List.length_append, List.length_append, List.length_dropLast, List.length_cons]
    omega

/-- What follows the header is the file exactly when the file is empty: however a file comes in chunks, one chunk is too many. -/
theorem leak_eq_file_iff (i : Nat) (fdPath buf : Ptr) (file : List Byte) (h0 : (0 : Byte) ∉ file) (chunks : Chunks file) :
    leak i fdPath buf chunks = header i fdPath ++ file ↔ file = [] := by
  have hfree : ∀ chunk ∈ chunks.list, (0 : Byte) ∉ chunk := by
    intro chunk hchunk h
    refine h0 ?_
    rw [← chunks.flatten]
    exact List.mem_flatten.mpr ⟨chunk, hchunk, h⟩
  have hlen := length_dropLasts fun chunk h => (chunks.sizes chunk h).1
  rw [chunks.flatten] at hlen
  rw [leak, List.append_cancel_left_eq, copy_chunks buf hfree chunks.sizes]
  constructor
  · intro h
    rw [h] at hlen
    have hnone : chunks.list = [] := List.eq_nil_of_length_eq_zero (by omega)
    rw [← chunks.flatten, hnone]
    rfl
  · rintro rfl
    exact List.eq_nil_of_length_eq_zero (by simpa using (Nat.add_eq_zero_iff.mp hlen).1)

/-- The witness: a file of two bytes, read at once. -/
theorem leak_eq_file_iff_hi :
    leak 3 (fun _ => 0) (fun _ => 0) (⟨[[104, 105]], rfl, by decide⟩ : Chunks [104, 105]) = header 3 (fun _ => 0) ++ [104, 105] ↔
      ([104, 105] : List Byte) = [] :=
  leak_eq_file_iff 3 (fun _ => 0) (fun _ => 0) [104, 105] (by decide) ⟨[[104, 105]], rfl, by decide⟩

/-- A file of one byte: nothing of it is copied. -/
theorem leak_loses : ¬ ∀ (i : Nat) (fdPath buf : Ptr) (file : List Byte), (0 : Byte) ∉ file → ∀ chunks : Chunks file,
    leak i fdPath buf chunks = header i fdPath ++ file := by
  intro h
  have hx := h 3 (fun _ => 0) (fun _ => 0) [120] (by decide) ⟨[[120]], rfl, by decide⟩
  rw [leak, List.append_cancel_left_eq] at hx
  exact absurd hx (by decide)

end OsLabs.Innocent
