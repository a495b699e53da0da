import OsLabs.Lib.SparseFile

/-!
# A file with holes (`mkholes.c`)

For each of 8192 blocks the program draws a number; it goes past the block, or writes it with random bytes. On the way it draws a map of
the file on `stderr`, 64 blocks on a line with the number of the first, and in the end it prints how many blocks it has written.

The map, the count and the file agree whatever the random numbers are (`mkholes_spec`): the blocks that are marked are those that are
stored, and all other bytes are zero. The file ends behind the last stored block, as nothing writes the holes at its end.
-/

namespace OsLabs.Mkholes

/-- `BLKSZ`, `NBLKS` and `WRAP`. -/
def blksz : Nat := 4096

def nblks : Nat := 8192

def wrap : Nat := 64

/-- The bytes of a text. -/
def text (cs : List Char) : List Byte := cs.map fun c => BitVec.ofNat 8 c.toNat

/-- `%04d`. -/
def number (i : Nat) : List Byte := text (List.replicate (4 - (Nat.toDigits 10 i).length) '0' ++ Nat.toDigits 10 i)

/-- The file, the calls of `random` so far, `usedblks`, and what was written to `stderr`. -/
structure State where
  file : SparseFile
  calls : Nat
  usedblks : Nat
  err : List Byte

/-- `blk`, filled by the loop over `j`. -/
def fillBlk (random : Nat → Nat) (calls : Nat) : List Byte := (List.range blksz).map fun j => BitVec.ofNat 8 (random (calls + j))

/-- The body of the loop; `random n` is what call `n` of `random` returns. -/
def body (random : Nat → Nat) (s : State) (i : Nat) : State :=
  let s := if i % wrap = 0 then { s with err := s.err ++ (number i ++ text [' ']) } else s
  let draw := random s.calls
  let s := { s with calls := s.calls + 1 }
  let s :=
    if draw % 64 ≠ 0 then { s with file := s.file.seek blksz, err := s.err ++ text ['.'] }
    else
      let blk := fillBlk random s.calls
      { file := s.file.write blksz blk, calls := s.calls + blksz, usedblks := s.usedblks + 1, err := s.err ++ text ['O'] }
  if i % wrap = wrap - 1 then { s with err := s.err ++ text ['\n'] } else s

/-- The loop. -/
def loop (random : Nat → Nat) (n : Nat) : State := (List.range n).foldl (body random) ⟨.empty, 0, 0, []⟩

/-- `main`: the file, and what was written to `stderr`. -/
def main (random : Nat → Nat) : SparseFile × List Byte :=
  let s := loop random nblks
  (s.file, s.err ++ (text "Non-zero blocks: ".toList ++ text (Nat.toDigits 10 s.usedblks) ++ text ['\n']))

/-! ## The map and the file -/

/-- The mark of a block on the map, with the number before the first of a line and the newline behind the last. -/
def cell (stored : Finset Nat) (i : Nat) : List Byte :=
  (if i % wrap = 0 then number i ++ text [' '] else []) ++ text [if i ∈ stored then 'O' else '.'] ++
    if i % wrap = wrap - 1 then text ['\n'] else []

/-- The map of the first blocks. -/
def picture (stored : Finset Nat) (n : Nat) : List Byte := (List.range n).flatMap (cell stored)

/-- The call of `random` that decides about a block: one for each block before it, and one for each byte of those that are stored. -/
def draw (stored : Finset Nat) (i : Nat) : Nat := i + blksz * (stored.filter fun j => j < i).card

/-- The file agrees with the random numbers in its first `n` blocks. -/
structure Drawn (random : Nat → Nat) (n : Nat) (f : SparseFile) : Prop where
  stored : ∀ i, i ∈ f.stored ↔ i < n ∧ random (draw f.stored i) % 64 = 0
  bytes : ∀ i ∈ f.stored, ∀ j, j < blksz → f.data (blksz * i + j) = BitVec.ofNat 8 (random (draw f.stored i + 1 + j))
  holes : ∀ x, x / blksz ∉ f.stored → f.data x = 0
  size : f.size = blksz * f.stored.sup fun i => i + 1
  offset : f.offset = blksz * n

/-- After `n` turns of the loop. -/
structure Inv (random : Nat → Nat) (n : Nat) (s : State) : Prop where
  file : Drawn random n s.file
  calls : s.calls = n + blksz * s.file.stored.card
  usedblks : s.usedblks = s.file.stored.card
  err : s.err = picture s.file.stored n

variable {random : Nat → Nat} {n i : Nat} {f : SparseFile} {s : State} {stored : Finset Nat}

/-- What comes later does not change the draw of a block. -/
theorem draw_insert (h : i ≤ n) : draw (insert n stored) i = draw stored i := by
  unfold draw
  rw [Finset.filter_insert, if_neg (by omega)]

theorem Drawn.lt (h : Drawn random n f) (hi : i ∈ f.stored) : i < n := ((h.stored i).mp hi).1

/-- All stored blocks are before the next one. -/
theorem Drawn.draw_next (h : Drawn random n f) : draw f.stored n = n + blksz * f.stored.card := by
  unfold draw
  rw [Finset.filter_true_of_mem fun i hi => h.lt hi]

theorem Drawn.notMem (h : Drawn random n f) : n ∉ f.stored := fun hi => absurd (h.lt hi) (Nat.lt_irrefl n)

/-- A block that is left out. -/
theorem Drawn.seek (h : Drawn random n f) (hr : random (draw f.stored n) % 64 ≠ 0) : Drawn random (n + 1) (f.seek blksz) where
  stored i := by
    refine (h.stored i).trans (and_congr_left fun hi => ?_)
    have hne : i ≠ n := by
      rintro rfl
      exact hr hi
    omega
  bytes := h.bytes
  holes := h.holes
  size := h.size
  offset := by
    show f.offset + blksz = _
    rw [h.offset, Nat.mul_succ]

theorem length_fillBlk (random : Nat → Nat) (calls : Nat) : (fillBlk random calls).length = blksz := by
  rw [fillBlk, List.length_map, List.length_range]

/-- A block that is written. -/
theorem Drawn.write (h : Drawn random n f) (hr : random (draw f.stored n) % 64 = 0) :
    Drawn random (n + 1) (f.write blksz (fillBlk random (draw f.stored n + 1))) := by
  have hpos : 0 < blksz := by decide
  have hlen := length_fillBlk random (draw f.stored n + 1)
  have hst := SparseFile.write_stored hpos h.offset hlen
  refine ⟨fun i => ?_, fun i hi j hj => ?_, fun x hx => ?_, ?_, ?_⟩
  · rw [hst, Finset.mem_insert]
    constructor
    · rintro (rfl | hi)
      · rw [draw_insert (Nat.le_refl i)]
        exact ⟨Nat.lt_succ_self i, hr⟩
      · rw [draw_insert (Nat.le_of_lt (h.lt hi))]
        exact ⟨Nat.lt_succ_of_lt (h.lt hi), ((h.stored i).mp hi).2⟩
    · rintro ⟨hlt, hi⟩
      rw [draw_insert (Nat.le_of_lt_succ hlt)] at hi
      by_cases hin : i = n
      · exact Or.inl hin
      · exact Or.inr ((h.stored i).mpr ⟨by omega, hi⟩)
  · rw [hst] at hi ⊢
    rcases Finset.mem_insert.mp hi with rfl | hi
    · rw [draw_insert (Nat.le_refl i), SparseFile.write_data h.offset hlen hj]
      simp only [fillBlk, List.getElem_map, List.getElem_range]
    · have hne : i ≠ n := Nat.ne_of_lt (h.lt hi)
      have hdiv : (blksz * i + j) / blksz = i := by
        rw [Nat.mul_add_div hpos, Nat.div_eq_of_lt hj, Nat.add_zero]
      rw [draw_insert (Nat.le_of_lt (h.lt hi)), SparseFile.write_data_ne h.offset hlen (by rwa [hdiv]), h.bytes i hi j hj]
  · rw [hst, Finset.mem_insert, not_or] at hx
    rw [SparseFile.write_data_ne h.offset hlen hx.1, h.holes x hx.2]
  · have hsup : (f.stored.sup fun i => i + 1) ≤ n := Finset.sup_le fun i hi => h.lt hi
    have hmul : blksz * (f.stored.sup fun i => i + 1) ≤ blksz * n := Nat.mul_le_mul_left blksz hsup
    rw [hst, Finset.sup_insert, Nat.max_eq_left (by omega)]
    show max f.size (f.offset + (fillBlk random (draw f.stored n + 1)).length) = _
    rw [hlen, h.size, h.offset, Nat.mul_succ]
    omega
  · show f.offset + (fillBlk random (draw f.stored n + 1)).length = _
    rw [hlen, h.offset, Nat.mul_succ]

/-! ## The loop -/

/-- What the body prints around the mark. -/
theorem body_hole (h : random s.calls % 64 ≠ 0) : body random s i =
    { file := s.file.seek blksz, calls := s.calls + 1, usedblks := s.usedblks, err := s.err ++
      ((if i % wrap = 0 then number i ++ text [' '] else []) ++ text ['.'] ++ if i % wrap = wrap - 1 then text ['\n'] else []) } := by
  by_cases h1 : i % wrap = 0
  · have h2 : ¬ i % wrap = wrap - 1 := by
      rw [h1]
      decide
    simp [body, if_pos h1, if_neg h2, h]
  · by_cases h2 : i % wrap = wrap - 1
    · simp [body, if_neg h1, if_pos h2, h]
    · simp [body, if_neg h1, if_neg h2, h]

theorem body_block (h : random s.calls % 64 = 0) : body random s i =
    { file := s.file.write blksz (fillBlk random (s.calls + 1)), calls := s.calls + 1 + blksz, usedblks := s.usedblks + 1,
      err := s.err ++
        ((if i % wrap = 0 then number i ++ text [' '] else []) ++ text ['O'] ++
          if i % wrap = wrap - 1 then text ['\n'] else []) } := by
  by_cases h1 : i % wrap = 0
  · have h2 : ¬ i % wrap = wrap - 1 := by
      rw [h1]
      decide
    simp [body, if_pos h1, if_neg h2, h]
  · by_cases h2 : i % wrap = wrap - 1
    · simp [body, if_neg h1, if_pos h2, h]
    · simp [body, if_neg h1, if_neg h2, h]

/-- The map of the blocks before the next one does not show it. -/
theorem picture_insert (stored : Finset Nat) (n : Nat) : picture (insert n stored) n = picture stored n := by
  unfold picture
  refine List.flatMap_congr fun i hi => ?_
  have hne : i ≠ n := Nat.ne_of_lt (List.mem_range.mp hi)
  unfold cell
  simp only [Finset.mem_insert, hne, false_or]

theorem picture_succ (stored : Finset Nat) (n : Nat) : picture stored (n + 1) = picture stored n ++ cell stored n := by
  unfold picture
  rw [List.range_succ, List.flatMap_append, List.flatMap_singleton]

/-- One turn. -/
theorem inv_step (h : Inv random n s) : Inv random (n + 1) (body random s n) := by
  obtain ⟨hf, hcalls, hused, herr⟩ := h
  have hdraw : s.calls = draw s.file.stored n := by rw [hcalls, hf.draw_next]
  by_cases hr : random s.calls % 64 = 0
  · have hst := SparseFile.write_stored (by decide) hf.offset (length_fillBlk random (s.calls + 1))
    have hcard : (insert n s.file.stored).card = s.file.stored.card + 1 := Finset.card_insert_of_notMem hf.notMem
    rw [body_block hr]
    refine ⟨?_, ?_, ?_, ?_⟩
    · rw [hdraw] at hr ⊢
      exact hf.write hr
    · simp only [hst, hcard]
      rw [hcalls, Nat.mul_succ]
      omega
    · simp only [hst, hcard]
      rw [hused]
    · simp only [hst]
      rw [picture_succ, picture_insert, ← herr]
      simp [cell]
  · rw [body_hole hr]
    refine ⟨?_, ?_, hused, ?_⟩
    · rw [hdraw] at hr
      exact hf.seek hr
    · show s.calls + 1 = n + 1 + blksz * s.file.stored.card
      omega
    · show _ = picture s.file.stored (n + 1)
      rw [picture_succ, ← herr]
      simp [cell, hf.notMem]

/-- Any number of turns. -/
theorem inv_loop (random : Nat → Nat) (n : Nat) : Inv random n (loop random n) := by
  induction n with
  | zero => exact ⟨⟨fun i => by simp [loop, SparseFile.empty], by simp [loop, SparseFile.empty], fun _ _ => rfl, rfl, rfl⟩, rfl, rfl, rfl⟩
  | succ n ih =>
    rw [loop, List.range_succ, List.foldl_append]
    exact inv_step ih

/-- Whatever the random numbers are: a block is stored exactly when the number drawn for it is a multiple of 64, and then it has the
numbers drawn after that one for its bytes; all other bytes of the file are zero, and it ends behind the last stored block. The map marks
the stored blocks, and the number that is printed is how many they are. -/
theorem mkholes_spec (random : Nat → Nat) :
    ∃ stored : Finset Nat, (main random).1.stored = stored ∧
      (∀ i, i ∈ stored ↔ i < nblks ∧ random (draw stored i) % 64 = 0) ∧
      (∀ i ∈ stored, ∀ j, j < blksz → (main random).1.data (blksz * i + j) = BitVec.ofNat 8 (random (draw stored i + 1 + j))) ∧
      (∀ x, x / blksz ∉ stored → (main random).1.data x = 0) ∧
      (main random).1.size = blksz * (stored.sup fun i => i + 1) ∧
      (main random).2 = picture stored nblks ++
        (text "Non-zero blocks: ".toList ++ text (Nat.toDigits 10 stored.card) ++ text ['\n']) := by
  have hloop := inv_loop random nblks
  unfold main
  generalize loop random nblks = s at hloop ⊢
  obtain ⟨⟨hstored, hbytes, hholes, hsize, -⟩, -, hused, herr⟩ := hloop
  refine ⟨s.file.stored, rfl, hstored, hbytes, hholes, hsize, ?_⟩
  rw [← herr, ← hused]

end OsLabs.Mkholes
