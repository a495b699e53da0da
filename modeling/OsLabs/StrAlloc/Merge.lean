import OsLabs.StrAlloc.Walk

/-!
# The scan of `alloc_block` on any arena

Here the blocks of an arena are arbitrary: free blocks may be neighbours, as the allocator itself never leaves them. The branches
of `alloc_block` for two adjacent free blocks add the size of the second one to the negative header of the first, so the header
that results is the difference of the two sizes and not their sum. `Harmless` says of the blocks from the cursor on that the scan
still leaves a list of blocks, and `Outcome` what it then does.
-/

namespace OsLabs.StrAlloc

/-! ## Reading the blocks of an arena -/

/-- The blocks of an arena from an offset on, as the headers in memory give them. -/
def readBlocks (mem : Mem) (data : Nat) : Nat → Nat → List Block
  | 0, _ => []
  | fuel + 1, off =>
    if header mem data off = 0 then []
    else ⟨blockSize mem data off, if header mem data off < 0 then .free else .live⟩ ::
      readBlocks mem data fuel (off + blockSize mem data off)

/-- An arena that the walk of `strmemcheck` accepts, with headers of absolute value at most 127. -/
structure Accepted (size : Nat) (mem : Mem) (data : Nat) : Prop where
  walk : strmemcheckWalk size mem data size sizeofArena = .ok ()
  sizes : ∀ off, OnWalk mem data off → blockSize mem data off ≤ maxBlksz

/-- A header that is not zero, as the block that is read from it. -/
theorem header_read {mem : Mem} {data off : Nat} :
    header mem data off =
      (⟨blockSize mem data off, if header mem data off < 0 then .free else .live⟩ : Block).header := by
  unfold Block.header blockSize
  by_cases h : header mem data off < 0
  · simp only [h, if_true]
    omega
  · simp only [h, if_false, reduceCtorEq]
    omega

/-- The blocks that are read on an accepted walk are those of the arena. -/
theorem seg_readBlocks {size : Nat} {mem : Mem} {data : Nat} (hs : ∀ off, OnWalk mem data off → blockSize mem data off ≤ maxBlksz) :
    ∀ (fuel off : Nat), OnWalk mem data off → strmemcheckWalk size mem data fuel off = .ok () →
      Seg mem data off (readBlocks mem data fuel off) ∧ off + total (readBlocks mem data fuel off) = size - 1 ∧
        header mem data (size - 1) = 0 := by
  intro fuel
  induction fuel with
  | zero =>
    intro off _ h
    rw [strmemcheckWalk] at h
    cases h
  | succ fuel ih =>
    intro off hw h
    rw [strmemcheckWalk] at h
    by_cases hend : off = size - 1
    · rw [if_neg (not_not_intro hend)] at h
      split at h
      · rename_i hz
        rw [readBlocks, if_pos hz]
        exact ⟨trivial, hend, hend ▸ hz⟩
      · cases h
    · rw [if_pos hend] at h
      split at h
      · cases h
      · split at h
        · cases h
        · rename_i hne
          obtain ⟨hseg, htot, hz⟩ := ih _ (hw.next hne) h
          rw [readBlocks, if_neg hne]
          refine ⟨⟨⟨?_, hs off hw, header_read⟩, hseg⟩, ?_, hz⟩
          · simp only [blockSize]
            omega
          · rw [total_cons, ← Nat.add_assoc]
            exact htot

/-- An accepted arena holds the blocks that are read from it. -/
theorem Accepted.chunk {size : Nat} {mem : Mem} {data : Nat} (h : Accepted size mem data) :
    Chunk size mem data (readBlocks mem data size sizeofArena) := by
  obtain ⟨hseg, htot, hz⟩ := seg_readBlocks h.sizes size sizeofArena OnWalk.first h.walk
  exact ⟨hseg, htot, hz⟩

/-- A block as it is read back: lost blocks look like live ones. -/
def Block.read (b : Block) : Block := ⟨b.size, if b.status = .free then .free else .live⟩

/-- The blocks of a segment are read back, up to the difference between live and lost. -/
theorem readBlocks_eq {mem : Mem} {data : Nat} : ∀ (bs : List Block) (fuel off : Nat), Seg mem data off bs →
    header mem data (off + total bs) = 0 → bs.length < fuel → readBlocks mem data fuel off = bs.map Block.read := by
  intro bs
  induction bs with
  | nil =>
    intro fuel off _ hz hfuel
    obtain ⟨fuel, rfl⟩ : ∃ f, fuel = f + 1 := ⟨fuel - 1, by omega⟩
    rw [readBlocks, if_pos (by simpa using hz)]
    rfl
  | cons b bs ih =>
    intro fuel off hseg hz hfuel
    obtain ⟨⟨hb1, -, hbh⟩, hrest⟩ := hseg
    rw [List.length_cons] at hfuel
    obtain ⟨fuel, rfl⟩ : ∃ f, fuel = f + 1 := ⟨fuel - 1, by omega⟩
    have htail := ih fuel (off + b.size) hrest (by rw [Nat.add_assoc, ← total_cons]; exact hz) (by omega)
    rw [readBlocks, hbh, if_neg (Block.header_ne hb1), blockSize_of_header hbh, htail, List.map_cons]
    by_cases hfree : b.status = .free
    · rw [if_pos (by rw [Block.header_free hfree]; omega), Block.read, if_pos hfree]
    · rw [if_neg (by have := Block.header_pos hb1 hfree; omega), Block.read, if_neg hfree]

/-! ## Replacing some blocks of an arena -/

/-- Some blocks of an arena are replaced by others of the same bytes, and nothing else changes. -/
theorem Chunk.replace {size : Nat} {mem mem' : Mem} {data : Nat} {pre mid post new : List Block}
    (h : Chunk size mem data (pre ++ (mid ++ post)))
    (hnew : Seg mem' data (sizeofArena + total pre) new) (htot : total new = total mid)
    (hframe : ∀ x, x < data + (sizeofArena + total pre) ∨ data + (sizeofArena + total pre + total mid) ≤ x → mem' x = mem x) :
    Chunk size mem' data (pre ++ (new ++ post)) := by
  obtain ⟨hseg, hends, hzero⟩ := h
  obtain ⟨hpre, hmid⟩ := seg_append.mp hseg
  obtain ⟨-, hpost⟩ := seg_append.mp hmid
  simp only [total_append] at hends
  refine ⟨seg_append.mpr ⟨?_, seg_append.mpr ⟨hnew, ?_⟩⟩, ?_, ?_⟩
  · exact seg_frame (fun x _ hx => hframe x (Or.inl hx)) hpre
  · rw [htot]
    exact seg_frame (fun x hx _ => hframe x (Or.inr hx)) hpost
  · simp only [total_append, htot]
    exact hends
  · rw [header, hframe _ (Or.inr (by omega))]
    exact hzero

/-! ## Two adjacent free blocks -/

/-- The memory after the branch that merges the free block at `off` with the next one and splits the result: the header of the
merged block is the difference `d` of the two sizes, and the header of the rest is made from it. -/
def mergeSplit (mem : Mem) (data off len d : Nat) : Mem :=
  setHeader (setHeader mem data off len) data (off + len) (d - len : Int)

theorem setHeader_setHeader (mem : Mem) (data off : Nat) (v w : Int) :
    setHeader (setHeader mem data off v) data off w = setHeader mem data off w :=
  Function.update_idem ..

/-- The scan stops at a zero byte. -/
theorem allocBlock_zero {mem : Mem} {data off : Nat} (len fuel : Nat) (h : header mem data off = 0) :
    allocBlock data len (fuel + 1) mem off = some (mem, off, none) := by
  rw [allocBlock]
  simp only [h, if_true]

/-- What the scan reads at two adjacent free blocks. -/
theorem pair_sizes {mem : Mem} {data off s t : Nat} (hs : header mem data off = -s) (ht : header mem data (off + s) = -t) :
    blockSize mem data off = s ∧ nextHeader mem data off = -t ∧ nextBlockSize mem data off = t := by
  have hsize : blockSize mem data off = s := by rw [blockSize, hs, Int.natAbs_neg, Int.natAbs_natCast]
  have hnext : nextHeader mem data off = -t := by rw [nextHeader, hsize, ht]
  exact ⟨hsize, hnext, by rw [nextBlockSize, hnext, Int.natAbs_neg, Int.natAbs_natCast]⟩

section Pair

variable {mem : Mem} {data off len s t : Nat} (fuel : Nat) (hs : header mem data off = -s) (ht : header mem data (off + s) = -t)
  (hs1 : 1 ≤ s) (hs2 : s ≤ maxBlksz) (ht1 : 1 ≤ t) (ht2 : t ≤ maxBlksz) (hlt : s < len)

include hs ht hs1 hs2 ht1 ht2 hlt

/-- Two adjacent free blocks that are not larger than the request together: the header of the first becomes the difference of the
sizes, and the scan goes on behind as many bytes. -/
theorem allocBlock_merge (hle : s + t ≤ len) :
    allocBlock data len (fuel + 1) mem off =
      allocBlock data len fuel (setHeader mem data off (t - s : Int)) (off + (t - s : Int).natAbs) := by
  obtain ⟨hsize, hnext, hnextSize⟩ := pair_sizes hs ht
  have hmax : maxBlksz = 127 := rfl
  rw [allocBlock]
  simp only [hsize, hs, hnext, hnextSize]
  rw [if_neg (by omega), if_neg (by omega), if_neg (by omega), if_neg (by omega), if_neg (by omega), if_pos (by omega)]
  have hd : (-s + t : Int) = t - s := by omega
  have hback : blockSize (setHeader mem data off (t - s : Int)) data off = (t - s : Int).natAbs := by
    rw [blockSize, header_setHeader_self (by omega) (by omega)]
  rw [hd, hback]

/-- Two adjacent free blocks that are larger than the request together: the request is served at the first one, and the header of
the rest is made from the difference of the sizes. -/
theorem allocBlock_mergeSplit (hgt : len < s + t) (hlen : len ≤ maxBlksz) :
    allocBlock data len (fuel + 1) mem off =
      some (mergeSplit mem data off len (t - s : Int).natAbs, off, some (data + off + 1)) := by
  obtain ⟨hsize, hnext, hnextSize⟩ := pair_sizes hs ht
  have hmax : maxBlksz = 127 := rfl
  rw [allocBlock]
  simp only [hsize, hs, hnext, hnextSize]
  rw [if_neg (by omega), if_neg (by omega), if_neg (by omega), if_neg (by omega), if_neg (by omega), if_neg (by omega)]
  have hd : (-s + t : Int) = t - s := by omega
  have hbig : blockSize (setHeader mem data off (t - s : Int)) data off = (t - s : Int).natAbs := by
    rw [blockSize, header_setHeader_self (by omega) (by omega)]
  rw [hd, hbig, setHeader_setHeader]
  have hback : blockSize (setHeader mem data off len) data off = len := by
    rw [blockSize, header_setHeader_self (by omega) (by omega)]
    omega
  rw [hback, mergeSplit]

end Pair

/-! ## Scans that do no harm -/

/-- A block in front of `rest` that the scan passes: a used one, or a free one that is too small and not followed by another. -/
def Passed (len : Nat) (b : Block) (rest : List Block) : Prop :=
  b.status = .free → b.size < len ∧ ∀ c ∈ rest.head?, c.status ≠ .free

/-- The blocks from the cursor on with which the scan for `len` bytes does what it should: the first block that it does not pass
has exactly `len` bytes; or it is smaller, the next one has at most `len` bytes, the two have more together, and the wrong header
that results jumps exactly over free blocks; or all blocks are passed. -/
inductive Harmless (len : Nat) : List Block → Prop where
  | nil : Harmless len []
  | skip {b : Block} {rest : List Block} (h : Passed len b rest) (hrest : Harmless len rest) : Harmless len (b :: rest)
  | exact {b : Block} {rest : List Block} (hfree : b.status = .free) (hsize : b.size = len) : Harmless len (b :: rest)
  | pair {b c : Block} {us rest : List Block} (hb : b.status = .free) (hc : c.status = .free) (hlt : b.size < len)
      (hle : c.size ≤ len) (hgt : len < b.size + c.size) (hus : ∀ u ∈ us, u.status = .free)
      (htot : total us = 2 * (len - max b.size c.size)) : Harmless len (b :: c :: (us ++ rest))

/-- No run of adjacent free blocks has `len` bytes. -/
def NoRun (len : Nat) (bs : List Block) : Prop :=
  ∀ mid fs rest, bs = mid ++ (fs ++ rest) → (∀ b ∈ fs, b.status = .free) → total fs < len

/-- What the scan does from the cursor on, when the blocks `pre` are in front of it and `post` behind: nothing, when no run of free
blocks is large enough; else it puts a used block of `len` bytes, and free ones, in the place of some free blocks. -/
inductive Outcome (data len : Nat) (mem : Mem) (pre post : List Block) : Mem × Nat × Option Nat → Prop where
  | null {off : Nat} (h : NoRun len post) : Outcome data len mem pre post (mem, off, none)
  | made {mem' : Mem} {off : Nat} {mid fs rest new : List Block} (e : post = mid ++ (fs ++ rest))
      (hfree : ∀ b ∈ fs, b.status = .free) (hnew : ∀ b ∈ new, b.status = .free) (htot : len + total new = total fs)
      (hseg : Seg mem' data (sizeofArena + total (pre ++ mid)) (⟨len, .live⟩ :: new))
      (hframe : ∀ x, x < data + (sizeofArena + total (pre ++ mid)) ∨
        data + (sizeofArena + total (pre ++ mid) + total fs) ≤ x → mem' x = mem x) :
      Outcome data len mem pre post (mem', off, some (data + (sizeofArena + total (pre ++ mid)) + 1))

/-- A passed block in front adds no run of free blocks. -/
theorem NoRun.cons {len : Nat} {b : Block} {rest : List Block} (h : NoRun len rest) (hb : Passed len b rest) (h1 : 1 ≤ len) :
    NoRun len (b :: rest) := by
  intro mid fs ws e hfree
  cases mid with
  | cons m mid =>
    rw [List.cons_append] at e
    obtain ⟨-, e⟩ := List.cons.inj e
    exact h mid fs ws e hfree
  | nil =>
    cases fs with
    | nil => exact h1
    | cons f fs =>
      simp only [List.nil_append, List.cons_append] at e
      obtain ⟨rfl, rfl⟩ := List.cons.inj e
      obtain ⟨hlt, hnext⟩ := hb (hfree b List.mem_cons_self)
      cases fs with
      | nil =>
        rw [total_cons, total_nil]
        exact hlt
      | cons g fs => exact absurd (hfree g (by simp)) (hnext g (by simp))

/-- A scan that starts behind a passed block does the same as one that starts at it. -/
theorem Outcome.cons {data len : Nat} {mem : Mem} {pre rest : List Block} {b : Block} {r : Mem × Nat × Option Nat}
    (h : Outcome data len mem (pre ++ [b]) rest r) (hb : Passed len b rest) (h1 : 1 ≤ len) :
    Outcome data len mem pre (b :: rest) r := by
  cases h with
  | null h => exact Outcome.null (h.cons hb h1)
  | @made _ _ mid fs ws new e hfree hnew htot hseg hframe =>
    rw [List.append_assoc, List.singleton_append] at hseg hframe ⊢
    exact Outcome.made (by rw [e]; rfl) hfree hnew htot hseg hframe

/-- The request is served from free blocks right at the cursor. -/
theorem Outcome.front {data len off : Nat} {mem mem' : Mem} {pre rest : List Block} (fs new : List Block)
    (hfree : ∀ b ∈ fs, b.status = .free) (hnew : ∀ b ∈ new, b.status = .free) (htot : len + total new = total fs)
    (hseg : Seg mem' data (sizeofArena + total pre) (⟨len, .live⟩ :: new))
    (hframe : ∀ x, x < data + (sizeofArena + total pre) ∨ data + (sizeofArena + total pre + total fs) ≤ x → mem' x = mem x) :
    Outcome data len mem pre (fs ++ rest) (mem', off, some (data + (sizeofArena + total pre) + 1)) := by
  have h := @Outcome.made data len mem pre (fs ++ rest) mem' off [] fs rest new rfl hfree hnew htot
  rw [List.append_nil] at h
  exact h hseg hframe

/-- Behind a block that is not followed by a free one stands a header that is not negative. -/
theorem Chunk.next_header {size : Nat} {mem : Mem} {data : Nat} {pre rest : List Block} {b : Block}
    (h : Chunk size mem data (pre ++ b :: rest)) (hnext : ∀ c ∈ rest.head?, c.status ≠ .free) :
    0 ≤ header mem data (sizeofArena + total pre + b.size) := by
  obtain ⟨hseg, hends, hzero⟩ := h
  cases rest with
  | nil =>
    simp only [total_append, total_cons, total_nil] at hends
    rw [show sizeofArena + total pre + b.size = size - 1 by omega, hzero]
  | cons c rest =>
    obtain ⟨-, -, ⟨hc1, -, hch⟩, -⟩ := seg_append.mp hseg
    rw [hch]
    exact Int.le_of_lt (Block.header_pos hc1 (hnext c rfl))

/-- The scan passes a block. -/
theorem Chunk.scan_passed {size : Nat} {mem : Mem} {data len : Nat} {pre rest : List Block} {b : Block} (fuel : Nat)
    (h : Chunk size mem data (pre ++ b :: rest)) (hlen : len ≤ maxBlksz) (hb : Passed len b rest) :
    allocBlock data len (fuel + 1) mem (sizeofArena + total pre) =
      allocBlock data len fuel mem (sizeofArena + total (pre ++ [b])) := by
  obtain ⟨hb1, -, hbh⟩ := h.seg.block rfl
  have hfit : ¬ b.Fits len := by
    rintro ⟨hfree, hle⟩
    exact absurd (hb hfree).1 (Nat.not_lt.mpr hle)
  rw [allocBlock_skip hlen hb1 hbh hfit fun hfree => Or.inr (h.next_header (hb hfree).2)]
  simp only [total_append, total_cons, total_nil, Nat.add_zero, Nat.add_assoc]

/-- The two headers that the branches for adjacent free blocks read. -/
theorem Chunk.pair_headers {size : Nat} {mem : Mem} {data : Nat} {pre rest : List Block} {b c : Block}
    (h : Chunk size mem data (pre ++ b :: c :: rest)) (hb : b.status = .free) (hc : c.status = .free) :
    header mem data (sizeofArena + total pre) = -b.size ∧ header mem data (sizeofArena + total pre + b.size) = -c.size ∧
      1 ≤ b.size ∧ b.size ≤ maxBlksz ∧ 1 ≤ c.size ∧ c.size ≤ maxBlksz := by
  obtain ⟨-, ⟨hb1, hb2, hbh⟩, ⟨hc1, hc2, hch⟩, -⟩ := seg_append.mp h.seg
  exact ⟨hbh.trans (Block.header_free hb), hch.trans (Block.header_free hc), hb1, hb2, hc1, hc2⟩

/-- The merge of two free blocks when the wrong header jumps over free blocks `us`: the blocks that then stand there. -/
theorem seg_mergeSplit (mem : Mem) (data off : Nat) {len d : Nat} (h1 : 1 ≤ len) (hlen : len ≤ maxBlksz) (hd : d < len) :
    Seg (mergeSplit mem data off len d) data off [⟨len, .live⟩, ⟨len - d, .free⟩] := by
  have hmax : maxBlksz = 127 := rfl
  refine ⟨⟨h1, hlen, ?_⟩, ⟨?_, ?_, ?_⟩, trivial⟩
  · rw [mergeSplit, header_setHeader_ne _ (by omega), header_setHeader_self (by omega) (by omega)]
    rfl
  · simp only
    omega
  · simp only
    omega
  · rw [mergeSplit, header_setHeader_self (by omega) (by omega)]
    simp only [Block.header, if_true]
    omega

/-- The scan changes two headers when it merges and splits. -/
theorem mergeSplit_apply {mem : Mem} {data off len d x : Nat} (h1 : x ≠ data + off) (h2 : x ≠ data + (off + len)) :
    mergeSplit mem data off len d x = mem x := by
  rw [mergeSplit, setHeader_apply_ne _ h2, setHeader_apply_ne _ h1]

/-- From harmless blocks on, the scan ends and does what it should. -/
theorem Harmless.scan {size data len : Nat} (h1 : 1 ≤ len) (hlen : len ≤ maxBlksz) {post : List Block}
    (hpost : Harmless len post) : ∀ {mem : Mem} {pre : List Block} {fuel : Nat}, Chunk size mem data (pre ++ post) →
      post.length < fuel → ∃ r, allocBlock data len fuel mem (sizeofArena + total pre) = some r ∧ Outcome data len mem pre post r := by
  have hmax : maxBlksz = 127 := rfl
  induction hpost with
  | nil =>
    intro mem pre fuel h hfuel
    obtain ⟨fuel, rfl⟩ : ∃ f, fuel = f + 1 := ⟨fuel - 1, by omega⟩
    have hends := h.ends
    rw [List.append_nil] at hends
    refine ⟨_, allocBlock_zero len fuel (by rw [hends]; exact h.zero), Outcome.null ?_⟩
    intro mid fs rest e _
    obtain ⟨-, e⟩ := List.append_eq_nil_iff.mp e.symm
    obtain ⟨rfl, -⟩ := List.append_eq_nil_iff.mp e
    exact h1
  | @skip b rest hb _ ih =>
    intro mem pre fuel h hfuel
    obtain ⟨fuel, rfl⟩ : ∃ f, fuel = f + 1 := ⟨fuel - 1, by omega⟩
    rw [List.length_cons] at hfuel
    rw [h.scan_passed fuel hlen hb]
    obtain ⟨r, hr, ho⟩ := ih (show Chunk size mem data ((pre ++ [b]) ++ rest) by rw [List.append_assoc]; exact h)
      (show rest.length < fuel by omega)
    exact ⟨r, hr, ho.cons hb h1⟩
  | @exact b rest hfree hsize =>
    intro mem pre fuel h hfuel
    obtain ⟨fuel, rfl⟩ : ∃ f, fuel = f + 1 := ⟨fuel - 1, by omega⟩
    obtain ⟨hb1, hb2, hbh⟩ := h.seg.block rfl
    refine ⟨_, allocBlock_take len fuel hlen hb1 hb2 hbh ⟨hfree, Nat.le_of_eq hsize.symm⟩, ?_⟩
    have hplace := h.place h1 (Nat.le_of_eq hsize.symm)
    have hsplit : b.split len = [⟨len, .live⟩] := by rw [Block.split, if_pos hsize]
    rw [hsplit] at hplace
    refine Outcome.front [b] [] (by simpa using hfree) (by simp) (by simp [hsize]) ?_ fun x hx => ?_
    · exact (seg_append.mp (seg_append.mp hplace.seg).2).1
    · rw [total_cons, total_nil] at hx
      exact place_apply (Nat.le_of_eq hsize.symm) hb1 (by omega)
  | @pair b c us rest hb hc hlt hle hgt hus htot =>
    intro mem pre fuel h hfuel
    obtain ⟨fuel, rfl⟩ : ∃ f, fuel = f + 1 := ⟨fuel - 1, by omega⟩
    obtain ⟨hs, ht, hs1, hs2, ht1, ht2⟩ := h.pair_headers hb hc
    refine ⟨_, allocBlock_mergeSplit fuel hs ht hs1 hs2 ht1 ht2 hlt hgt hlen, ?_⟩
    have hd : (c.size - b.size : Int).natAbs < len := by omega
    have htotal : total (b :: c :: us) = len + (len - (c.size - b.size : Int).natAbs) := by
      rw [total_cons, total_cons, htot]
      omega
    refine Outcome.front (b :: c :: us) [⟨len - (c.size - b.size : Int).natAbs, .free⟩] ?_ ?_ ?_
      (seg_mergeSplit _ _ _ h1 hlen hd) fun x hx => mergeSplit_apply (by omega) (by omega)
    · rintro x hx
      rcases List.mem_cons.mp hx with rfl | hx
      · exact hb
      · rcases List.mem_cons.mp hx with rfl | hx
        · exact hc
        · exact hus x hx
    · intro x hx
      rw [List.mem_singleton.mp hx]
    · rw [htotal, total_cons, total_nil, Nat.add_zero]

end OsLabs.StrAlloc
