import OsLabs.StrAlloc.Blocks

/-!
# The walks over an arena

`init_chunk` writes the free blocks of a fresh arena, `strfree` follows the headers up to a block, `strmemcheck` up to the end of
the arena. `OnWalk` are the offsets that such a walk visits. In an arena that holds a list of blocks, these are the offsets of the
blocks and the end.
-/

namespace OsLabs.StrAlloc

/-! ## A fresh arena -/

/-- The loop of `init_chunk` writes free blocks of the largest size and stops when no more fits. -/
theorem initChunkLoop_spec (size : Nat) (mem : Mem) (ar offset : Nat) (h : offset < size) :
    ∃ k, (initChunkLoop size mem ar offset).2 = offset + k * maxBlksz ∧ offset + k * maxBlksz < size ∧
      size ≤ offset + k * maxBlksz + maxBlksz ∧
      Seg (initChunkLoop size mem ar offset).1 ar offset (List.replicate k ⟨maxBlksz, .free⟩) ∧
      ∀ x, x < ar + offset ∨ ar + (offset + k * maxBlksz) ≤ x → (initChunkLoop size mem ar offset).1 x = mem x := by
  have hmax : maxBlksz = 127 := rfl
  induction hn : size - offset using Nat.strongRecOn generalizing mem offset with
  | ind n ih =>
    rw [initChunkLoop]
    by_cases hlt : offset + maxBlksz < size
    · rw [if_pos hlt]
      obtain ⟨k, h1, h2, h3, hseg, hframe⟩ :=
        ih (size - (offset + maxBlksz)) (by omega) (setHeader mem ar offset (-maxBlksz)) (offset + maxBlksz) hlt rfl
      have hk : (k + 1) * maxBlksz = maxBlksz + k * maxBlksz := by rw [Nat.succ_mul, Nat.add_comm]
      refine ⟨k + 1, by omega, by omega, by omega, ?_, fun x hx => ?_⟩
      · rw [List.replicate_succ]
        refine ⟨⟨by decide, Nat.le_refl _, ?_⟩, hseg⟩
        rw [header, hframe _ (Or.inl (by omega))]
        exact header_setHeader_self (by decide) (by decide)
      · rw [hframe x (by omega)]
        exact setHeader_apply_ne _ (by omega)
    · rw [if_neg hlt]
      exact ⟨0, by simp, by omega, by omega, trivial, fun _ _ => rfl⟩

/-- What `init_chunk` leaves: an arena of free blocks, spaced, the first of the largest size unless the arena is tiny. -/
theorem initChunk_spec {size : Nat} (mem : Mem) (ar : Nat) (hsize : sizeofArena < size) :
    ∃ bs, Chunk size (initChunk size mem ar) ar bs ∧ bs.IsChain Spaced ∧ (∀ b ∈ bs, b.status = .free) ∧
      (sizeofArena + maxBlksz < size → ∃ rest, bs = ⟨maxBlksz, .free⟩ :: rest) ∧
      ∀ x, x < ar + sizeofArena ∨ ar + size ≤ x → initChunk size mem ar x = mem x := by
  have hmax : maxBlksz = 127 := rfl
  obtain ⟨k, hoff, hlt, hle, hseg, hframe⟩ := initChunkLoop_spec size mem ar sizeofArena hsize
  -- what is left before the zero byte at the end, less than a block of the largest size
  let rest : List Block := if size - 1 - (sizeofArena + k * maxBlksz) = 0 then []
    else [⟨size - 1 - (sizeofArena + k * maxBlksz), .free⟩]
  have htotal : total (List.replicate k ⟨maxBlksz, .free⟩) = k * maxBlksz := by simp [total]
  have hrest : total rest = size - 1 - (sizeofArena + k * maxBlksz) := by
    simp only [rest]
    split <;> simp_all
  have hchain : (List.replicate k (⟨maxBlksz, .free⟩ : Block) ++ rest).IsChain Spaced := by
    refine List.IsChain.append (List.isChain_replicate_of_rel k (Or.inr (Or.inr rfl))) ?_ fun x hx y _ => ?_
    · simp only [rest]
      split <;> simp
    · exact Or.inr (Or.inr (by rw [List.eq_of_mem_replicate (List.mem_of_mem_getLast? hx)]))
  rw [initChunk]
  simp only [hoff]
  refine ⟨List.replicate k ⟨maxBlksz, .free⟩ ++ rest, ⟨seg_append.mpr ⟨?_, ?_⟩, ?_, ?_⟩, hchain, ?_, ?_, fun x hx => ?_⟩
  · refine seg_frame (fun x h1 h2 => ?_) hseg
    rw [htotal] at h2
    rw [setHeader_apply_ne _ (by omega), setHeader_apply_ne _ (by omega)]
  · rw [htotal]
    simp only [rest]
    by_cases h0 : size - 1 - (sizeofArena + k * maxBlksz) = 0
    · rw [if_pos h0]
      trivial
    · rw [if_neg h0]
      refine ⟨⟨by simp only; omega, by simp only; omega, ?_⟩, trivial⟩
      rw [header_setHeader_ne _ (by omega), header_setHeader_self (by omega) (by omega)]
      simp only [Block.header, if_true]
      omega
  · rw [total_append, htotal, hrest]
    omega
  · exact header_setHeader_self (by decide) (by decide)
  · intro b hb
    rcases List.mem_append.mp hb with hb | hb
    · rw [List.eq_of_mem_replicate hb]
    · simp only [rest] at hb
      split at hb
      · cases hb
      · rw [List.mem_singleton.mp hb]
  · intro hbig
    obtain ⟨j, rfl⟩ : ∃ j, k = j + 1 := ⟨k - 1, by
      have : k ≠ 0 := by
        rintro rfl
        omega
      omega⟩
    exact ⟨List.replicate j ⟨maxBlksz, .free⟩ ++ rest, by rw [List.replicate_succ]; rfl⟩
  · rw [setHeader_apply_ne _ (by omega), setHeader_apply_ne _ (by omega)]
    exact hframe x (by omega)

/-! ## Places in a list of blocks -/

/-- The blocks that follow a block lie behind it. -/
theorem total_lt_of_split {pre pre' post : List Block} {b : Block} (h : pre' = pre ++ b :: post) :
    total pre + b.size ≤ total pre' := by
  subst h
  simp only [total_append, total_cons]
  omega

/-- Two blocks of a list are the same one, or one lies behind the other. -/
theorem block_cases {pre pre' post post' : List Block} {b b' : Block} (h : pre ++ b :: post = pre' ++ b' :: post') :
    (pre = pre' ∧ b = b' ∧ post = post') ∨ total pre + b.size ≤ total pre' ∨ total pre' + b'.size ≤ total pre := by
  rcases List.append_eq_append_iff.mp h with ⟨as, e1, e2⟩ | ⟨as, e1, e2⟩
  · cases as with
    | nil =>
      simp only [List.append_nil, List.nil_append, List.cons.injEq] at e1 e2
      exact Or.inl ⟨e1.symm, e2⟩
    | cons c as =>
      obtain ⟨rfl, -⟩ := List.cons.inj e2
      exact Or.inr (Or.inl (total_lt_of_split e1))
  · cases as with
    | nil =>
      simp only [List.append_nil, List.nil_append, List.cons.injEq] at e1 e2
      exact Or.inl ⟨e1, e2.1.symm, e2.2.symm⟩
    | cons c as =>
      obtain ⟨rfl, -⟩ := List.cons.inj e2
      exact Or.inr (Or.inr (total_lt_of_split e1))

/-- The number of blocks of a segment is at most its number of bytes. -/
theorem Seg.length_le {mem : Mem} {data off : Nat} {bs : List Block} (h : Seg mem data off bs) : bs.length ≤ total bs := by
  induction bs generalizing off with
  | nil => simp
  | cons b bs ih =>
    have := h.1.1
    have := ih h.2
    rw [List.length_cons, total_cons]
    omega

/-! ## Following the headers -/

/-- The offsets that a walk over an arena visits: the first block, and behind each block the next. -/
inductive OnWalk (mem : Mem) (data : Nat) : Nat → Prop where
  | first : OnWalk mem data sizeofArena
  | next {off : Nat} (h : OnWalk mem data off) (hne : header mem data off ≠ 0) :
      OnWalk mem data (off + blockSize mem data off)

/-- The header of a block is not zero. -/
theorem Block.header_ne {b : Block} (h : 1 ≤ b.size) : b.header ≠ 0 := by
  rw [Block.header]
  split <;> omega

/-- The walk visits every block of an arena. -/
theorem Chunk.onWalk {size : Nat} {mem : Mem} {data : Nat} {bs : List Block} (h : Chunk size mem data bs) :
    ∀ pre post, bs = pre ++ post → OnWalk mem data (sizeofArena + total pre) := by
  intro pre
  induction pre using List.reverseRecOn with
  | nil =>
    intro post _
    exact OnWalk.first
  | append_singleton pre b ih =>
    intro post e
    have e' : bs = pre ++ b :: post := by rw [e, List.append_assoc]; rfl
    obtain ⟨hb1, -, hbh⟩ := h.seg.block e'
    have hstep := OnWalk.next (ih (b :: post) e') (by rw [hbh]; exact Block.header_ne hb1)
    rw [blockSize_of_header hbh] at hstep
    simpa only [total_append, total_cons, total_nil, Nat.add_zero, Nat.add_assoc] using hstep

/-- The walk visits nothing but the blocks and the end. -/
theorem Chunk.of_onWalk {size : Nat} {mem : Mem} {data off : Nat} {bs : List Block} (h : Chunk size mem data bs)
    (hw : OnWalk mem data off) : ∃ pre post, bs = pre ++ post ∧ off = sizeofArena + total pre := by
  induction hw with
  | first => exact ⟨[], bs, rfl, by simp⟩
  | next _ hne ih =>
    obtain ⟨pre, post, e, rfl⟩ := ih
    cases post with
    | nil =>
      have hz := h.zero
      rw [← h.ends, e, List.append_nil] at hz
      exact absurd hz hne
    | cons b post =>
      obtain ⟨-, -, hbh⟩ := h.seg.block e
      refine ⟨pre ++ [b], post, by rw [e, List.append_assoc]; rfl, ?_⟩
      rw [blockSize_of_header hbh]
      simp only [total_append, total_cons, total_nil, Nat.add_zero, Nat.add_assoc]

/-- `strmemcheck` accepts an arena that holds a list of blocks. -/
theorem strmemcheckWalk_ok {size : Nat} {mem : Mem} {data : Nat} (hz : header mem data (size - 1) = 0) :
    ∀ (bs : List Block) (off fuel : Nat), Seg mem data off bs → off + total bs = size - 1 → bs.length < fuel →
      strmemcheckWalk size mem data fuel off = .ok () := by
  intro bs
  induction bs with
  | nil =>
    intro off fuel _ hend hfuel
    obtain ⟨fuel, rfl⟩ : ∃ f, fuel = f + 1 := ⟨fuel - 1, by omega⟩
    rw [strmemcheckWalk, if_neg (by simpa using hend), show off = size - 1 by simpa using hend, if_pos hz]
  | cons b bs ih =>
    intro off fuel hseg hend hfuel
    obtain ⟨⟨hb1, -, hbh⟩, hrest⟩ := hseg
    rw [total_cons] at hend
    rw [List.length_cons] at hfuel
    obtain ⟨fuel, rfl⟩ : ∃ f, fuel = f + 1 := ⟨fuel - 1, by omega⟩
    rw [strmemcheckWalk, if_pos (by omega), if_neg (by omega), hbh, if_neg (Block.header_ne hb1),
      blockSize_of_header hbh]
    exact ih (off + b.size) fuel hrest (by omega) (by omega)

/-- `strfree` reaches every block of an arena. -/
theorem strfreeWalk_ok (mem : Mem) (data : Nat) :
    ∀ (pre : List Block) (off fuel : Nat), Seg mem data off pre → pre.length < fuel →
      strfreeWalk mem (data + (off + total pre)) fuel (data + off) = .ok (data + (off + total pre)) := by
  intro pre
  induction pre with
  | nil =>
    intro off fuel _ hfuel
    obtain ⟨fuel, rfl⟩ : ∃ f, fuel = f + 1 := ⟨fuel - 1, by omega⟩
    simp [strfreeWalk]
  | cons b pre ih =>
    intro off fuel hseg hfuel
    obtain ⟨⟨hb1, -, hbh⟩, hrest⟩ := hseg
    rw [List.length_cons] at hfuel
    obtain ⟨fuel, rfl⟩ : ∃ f, fuel = f + 1 := ⟨fuel - 1, by omega⟩
    have hne : (mem (data + off)).toInt ≠ 0 := by
      have := Block.header_ne hb1
      rwa [← hbh, header] at this
    have hsz : (mem (data + off)).toInt.natAbs = b.size := blockSize_of_header hbh
    have := ih (off + b.size) fuel hrest (by omega)
    rw [total_cons, strfreeWalk, if_pos (by omega), if_neg hne, hsz, Nat.add_assoc data off,
      show off + (b.size + total pre) = off + b.size + total pre by omega]
    exact this

/-- A walk of `strfree` that ends on its target has found a block, or the end. -/
theorem of_strfreeWalk {mem : Mem} {data target : Nat} :
    ∀ (bs : List Block) (off fuel : Nat), Seg mem data off bs → header mem data (off + total bs) = 0 →
      strfreeWalk mem target fuel (data + off) = .ok target →
      ∃ pre post, bs = pre ++ post ∧ target = data + (off + total pre) := by
  intro bs
  induction bs with
  | nil =>
    intro off fuel _ hz h
    cases fuel with
    | zero => cases h
    | succ fuel =>
      rw [strfreeWalk] at h
      have hz' : (mem (data + off)).toInt = 0 := by simpa [header] using hz
      rw [if_pos hz'] at h
      split at h
      · cases h
      · exact ⟨[], [], rfl, by simpa using (Except.ok.inj h).symm⟩
  | cons b bs ih =>
    intro off fuel hseg hz h
    obtain ⟨⟨hb1, -, hbh⟩, hrest⟩ := hseg
    cases fuel with
    | zero => cases h
    | succ fuel =>
      have hne : (mem (data + off)).toInt ≠ 0 := by
        have := Block.header_ne hb1
        rwa [← hbh, header] at this
      have hsz : (mem (data + off)).toInt.natAbs = b.size := blockSize_of_header hbh
      rw [strfreeWalk, if_neg hne, hsz] at h
      split at h
      · rw [Nat.add_assoc] at h
        obtain ⟨pre, post, e, ht⟩ := ih (off + b.size) fuel hrest (by rw [total_cons, ← Nat.add_assoc] at hz; exact hz) h
        refine ⟨b :: pre, post, by rw [e]; rfl, ?_⟩
        rw [ht, total_cons, Nat.add_assoc off]
      · exact ⟨[], b :: bs, rfl, by simpa using (Except.ok.inj h).symm⟩

end OsLabs.StrAlloc
