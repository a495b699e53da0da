import OsLabs.Lib.ByteMem

/-!
# One write for many (`writeperf.c`)

The program writes a triangle of stars `times` times: the line, the line without its first star, and so on. In the mode `write` each
piece is a call of its own. In the mode `writev` the pieces are collected in an array of as many entries as one call may take; the array
is sent when it is full, and once more after the loops. The index into the array runs on from one triangle to the next.

What was collected so far is what was sent and what is waiting in the array, in this order (`Batching`). So all pieces are sent once and
in order, in calls that are neither empty nor too large.

The length is a number here. `malloc` fails for the largest `int`, and then no mode writes anything.
-/

namespace OsLabs.Writeperf

/-- `line`: the stars and a newline. -/
def line (length : Nat) : List Byte := List.replicate length 42 ++ [10]

/-- `struct iovec`, with the base as an offset into `line`. -/
structure Iovec where
  iov_base : Nat
  iov_len : Nat

/-- The bytes that an entry stands for. -/
def Iovec.bytes (length : Nat) (v : Iovec) : List Byte := ((line length).drop v.iov_base).take v.iov_len

/-- `line + k` and `length + 1 - k`. -/
def piece (length k : Nat) : Iovec := ⟨k, length + 1 - k⟩

/-- The bytes that the mode `write` writes. -/
def writeMode (length times : Nat) : List Byte :=
  (List.range times).foldl (fun out _ =>
    (List.range length).foldl (fun out k => out ++ (piece length k).bytes length) out) []

/-- The variables of the mode `writev`, and the calls of `writev` so far with the entries that they carried. -/
structure Batch where
  i : Nat
  iov : Nat → Iovec
  calls : List (List Iovec)

/-- `writev(STDOUT_FILENO, iov, count)`. -/
def Batch.writev (b : Batch) (count : Nat) : Batch := { b with calls := b.calls ++ [(List.range count).map b.iov] }

/-- The body of the inner loop. It has no value when the entry is outside the array. -/
def fill (length n : Nat) (b : Batch) (k : Nat) : Option Batch :=
  if b.i < n then
    let b := { b with iov := Function.update b.iov b.i (piece length k), i := b.i + 1 }
    if b.i = n then
      let b := b.writev n
      some { b with i := 0 }
    else some b
  else none

/-- The two loops. -/
def fillAll (length times n : Nat) (b : Batch) : Option Batch :=
  (List.range times).foldlM (fun b _ => (List.range length).foldlM (fill length n) b) b

/-- The mode `writev`: the calls that it makes. The array is not initialised. -/
def writevMode (length times n : Nat) (iov : Nat → Iovec) : Option (List (List Iovec)) :=
  match fillAll length times n ⟨0, iov, []⟩ with
  | none => none
  | some b => if b.i ≠ 0 then some (b.writev b.i).calls else some b.calls

/-- The bytes that calls of `writev` write. -/
def output (length : Nat) (calls : List (List Iovec)) : List Byte :=
  calls.flatMap fun iov => iov.flatMap (Iovec.bytes length)

/-- All the pieces, in the order of the loops. -/
def pieces (length times : Nat) : List Iovec :=
  (List.range times).flatMap fun _ => (List.range length).map (piece length)

/-! ## Loops -/

section Loops

variable {σ ε δ : Type} {done : List δ}

/-- A loop whose body always has a value, and adds `g x` to what was done: its value, by induction on the elements. -/
theorem foldlM_done {f : σ → ε → Option σ} {P : List δ → σ → Prop} {g : ε → List δ}
    (step : ∀ done s x, P done s → ∃ s', f s x = some s' ∧ P (done ++ g x) s') (xs : List ε) {s : σ} (h : P done s) :
    ∃ s', xs.foldlM f s = some s' ∧ P (done ++ xs.flatMap g) s' := by
  induction xs generalizing done s with
  | nil => exact ⟨s, rfl, by simpa using h⟩
  | cons x xs ih =>
    obtain ⟨s₁, h₁, hP₁⟩ := step done s x h
    obtain ⟨s₂, h₂, hP₂⟩ := ih hP₁
    refine ⟨s₂, ?_, ?_⟩
    · rw [List.foldlM_cons, h₁]
      exact h₂
    · rwa [List.flatMap_cons, ← List.append_assoc]

/-- A loop that appends. -/
theorem foldl_append (g : ε → List δ) (xs : List ε) (done : List δ) :
    xs.foldl (fun out x => out ++ g x) done = done ++ xs.flatMap g := by
  induction xs generalizing done with
  | nil => simp
  | cons x xs ih => rw [List.foldl_cons, ih, List.flatMap_cons, List.append_assoc]

end Loops

/-! ## What was collected -/

/-- The pieces in `done` were sent or wait in the array; the array has room, and no call was empty or too large. -/
structure Batching (n : Nat) (done : List Iovec) (b : Batch) : Prop where
  room : b.i < n
  sent : b.calls.flatten ++ (List.range b.i).map b.iov = done
  sizes : ∀ call ∈ b.calls, 1 ≤ call.length ∧ call.length ≤ n

/-- The array with one more entry. -/
theorem map_update (iov : Nat → Iovec) (i : Nat) (v : Iovec) :
    (List.range (i + 1)).map (Function.update iov i v) = (List.range i).map iov ++ [v] := by
  rw [List.range_succ, List.map_append, List.map_singleton, Function.update_self]
  congr 1
  refine List.map_congr_left fun x hx => ?_
  have hlt : x < i := List.mem_range.mp hx
  exact Function.update_of_ne (Nat.ne_of_lt hlt) _ _

/-- One pass of the inner loop. -/
theorem fill_batching (length n : Nat) (done : List Iovec) (b : Batch) (k : Nat) (h : Batching n done b) :
    ∃ b', fill length n b k = some b' ∧ Batching n (done ++ [piece length k]) b' := by
  have hcollected : b.calls.flatten ++ (List.range (b.i + 1)).map (Function.update b.iov b.i (piece length k)) =
      done ++ [piece length k] := by
    rw [map_update, ← List.append_assoc, h.sent]
  rw [fill, if_pos h.room]
  by_cases hfull : b.i + 1 = n
  · rw [if_pos hfull]
    refine ⟨_, rfl, Nat.lt_of_le_of_lt (Nat.zero_le _) h.room, ?_, ?_⟩
    · rw [← hfull]
      simpa [Batch.writev] using hcollected
    · intro call hcall
      rcases List.mem_append.mp hcall with hold | hnew
      · exact h.sizes call hold
      · rw [List.mem_singleton.mp hnew, List.length_map, List.length_range]
        omega
  · rw [if_neg hfull]
    refine ⟨_, rfl, ?_, hcollected, h.sizes⟩
    have := h.room
    show b.i + 1 < n
    omega

/-- Both loops. -/
theorem fillAll_batching (length times n : Nat) {b : Batch} (h : Batching n [] b) :
    ∃ b', fillAll length times n b = some b' ∧ Batching n (pieces length times) b' := by
  have hinner : ∀ (done : List Iovec) (b : Batch) (_ : Nat), Batching n done b →
      ∃ b', (List.range length).foldlM (fill length n) b = some b' ∧
        Batching n (done ++ (List.range length).map (piece length)) b' := by
    intro done b _ hb
    rw [List.map_eq_flatMap]
    exact foldlM_done (fill_batching length n) (List.range length) hb
  exact foldlM_done hinner (List.range times) h

/-- The bytes of the mode `write` are those of all the pieces. -/
theorem writeMode_eq (length times : Nat) : writeMode length times = (pieces length times).flatMap (Iovec.bytes length) := by
  have hinner : ∀ out : List Byte, (List.range length).foldl (fun out k => out ++ (piece length k).bytes length) out =
      out ++ ((List.range length).map (piece length)).flatMap (Iovec.bytes length) := by
    intro out
    rw [foldl_append, List.flatMap_map]
  unfold writeMode pieces
  simp only [hinner]
  rw [foldl_append, List.nil_append, List.flatMap_assoc]

theorem output_eq (length : Nat) (calls : List (List Iovec)) : output length calls = calls.flatten.flatMap (Iovec.bytes length) := by
  rw [List.flatten_eq_flatMap, List.flatMap_assoc]
  rfl

/-- The mode `writev` has a value: no entry is outside the array. It writes what the mode `write` writes, each call carries between 1 and
`n` entries, and the calls carry all the pieces, in order. -/
theorem writev_eq_write (length times n : Nat) (iov : Nat → Iovec) (hn : 1 ≤ n) :
    ∃ calls, writevMode length times n iov = some calls ∧ output length calls = writeMode length times ∧
      (∀ call ∈ calls, 1 ≤ call.length ∧ call.length ≤ n) ∧ calls.flatten = pieces length times := by
  have hstart : Batching n [] ⟨0, iov, []⟩ := ⟨hn, rfl, fun _ h => absurd h List.not_mem_nil⟩
  obtain ⟨b, hb, hend⟩ := fillAll_batching length times n hstart
  -- it is enough to look at the entries of the calls
  have key : ∀ calls : List (List Iovec), calls.flatten = pieces length times → output length calls = writeMode length times := by
    intro calls h
    rw [output_eq, h, writeMode_eq]
  have hsent := hend.sent
  have hsizes := hend.sizes
  rw [writevMode, hb]
  by_cases hrest : b.i = 0
  · rw [hrest, List.range_zero, List.map_nil, List.append_nil] at hsent
    exact ⟨b.calls, if_neg (not_not_intro hrest), key _ hsent, hsizes, hsent⟩
  · have hall : (b.writev b.i).calls.flatten = pieces length times := by
      simpa [Batch.writev] using hsent
    refine ⟨(b.writev b.i).calls, if_pos hrest, key _ hall, ?_, hall⟩
    intro call hcall
    rcases List.mem_append.mp hcall with hold | hlast
    · exact hsizes call hold
    · rw [List.mem_singleton.mp hlast, List.length_map, List.length_range]
      have := hend.room
      omega

/-- The witness: six pieces, in calls of at most four. -/
theorem writev_eq_write_six : 1 ≤ 4 ∧ ∃ calls, writevMode 3 2 4 (fun _ => ⟨0, 0⟩) = some calls ∧ output 3 calls = writeMode 3 2 ∧
    (∀ call ∈ calls, 1 ≤ call.length ∧ call.length ≤ 4) ∧ calls.flatten = pieces 3 2 :=
  ⟨by decide, writev_eq_write 3 2 4 _ (by decide)⟩

end OsLabs.Writeperf
