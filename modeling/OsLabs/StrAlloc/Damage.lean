import OsLabs.StrAlloc.Coalesce

/-!
# When `alloc_block` coalesces

The headers that the code writes for split and merged blocks damage the arena, unless the blocks from the cursor on are
`Harmless`: a split block loses its rest, and the header of merged blocks, the difference of their sizes, leads into a payload,
over used blocks or to a zero byte. With payloads of zero bytes the walk stops there and the damage shows, so a call does what it
should for all contents of the payloads exactly when the blocks are harmless.
-/

namespace OsLabs.StrAlloc

/-! ## The walk over a damaged arena -/

/-- The walk of `strmemcheck` that succeeds goes on from each offset to the next block. -/
theorem walk_next {size : Nat} {mem : Mem} {data fuel off : Nat} (h : strmemcheckWalk size mem data fuel off = .ok ())
    (hne : off ≠ size - 1) :
    off < size ∧ header mem data off ≠ 0 ∧ ∃ f, strmemcheckWalk size mem data f (off + blockSize mem data off) = .ok () := by
  cases fuel with
  | zero =>
    rw [strmemcheckWalk] at h
    cases h
  | succ fuel =>
    rw [strmemcheckWalk, if_pos hne] at h
    split at h
    · cases h
    · rename_i hlt
      split at h
      · cases h
      · rename_i hz
        exact ⟨not_not.mp hlt, hz, fuel, h⟩

/-- It goes on behind blocks. -/
theorem walk_seg {size : Nat} {mem : Mem} {data : Nat} {bs : List Block} : ∀ {fuel off : Nat}, Seg mem data off bs →
    off + total bs ≤ size - 1 → strmemcheckWalk size mem data fuel off = .ok () →
      ∃ f, strmemcheckWalk size mem data f (off + total bs) = .ok () := by
  induction bs with
  | nil =>
    intro fuel off _ _ h
    exact ⟨fuel, h⟩
  | cons b bs ih =>
    intro fuel off hseg hle h
    obtain ⟨⟨hb1, -, hbh⟩, hrest⟩ := hseg
    rw [total_cons] at hle
    obtain ⟨-, -, f, hf⟩ := walk_next h (by omega)
    rw [blockSize_of_header hbh] at hf
    rw [total_cons, ← Nat.add_assoc]
    exact ih hrest (by omega) hf

/-- The walk fails when blocks lead to a zero byte that is not the end. -/
theorem walk_stuck {size : Nat} {mem : Mem} {data : Nat} {bs : List Block} (hseg : Seg mem data sizeofArena bs)
    (hlt : sizeofArena + total bs < size - 1) (hz : header mem data (sizeofArena + total bs) = 0) :
    strmemcheckWalk size mem data size sizeofArena ≠ .ok () := by
  intro h
  obtain ⟨f, hf⟩ := walk_seg hseg (Nat.le_of_lt hlt) h
  exact (walk_next hf (Nat.ne_of_lt hlt)).2.1 hz

/-- A header with an absolute value that a block can have, as a block. -/
theorem seg_header {mem : Mem} {data off n : Nat} (h : blockSize mem data off = n) (h1 : 1 ≤ n) (h2 : n ≤ maxBlksz) :
    Seg mem data off [⟨n, if header mem data off < 0 then .free else .live⟩] := by
  subst h
  exact ⟨⟨h1, h2, header_read⟩, trivial⟩

/-! ## Blank payloads -/

/-- The payloads of blocks consist of zero bytes. -/
def Blank (mem : Mem) (data off : Nat) (bs : List Block) : Prop :=
  ∀ us b ws, bs = us ++ b :: ws → ∀ x, off + total us < x → x < off + total us + b.size → mem (data + x) = 0

theorem Blank.tail {mem : Mem} {data off : Nat} {b : Block} {bs : List Block} (h : Blank mem data off (b :: bs)) :
    Blank mem data (off + b.size) bs := by
  intro us c ws e x h1 h2
  refine h (b :: us) c ws (by rw [e]; rfl) x ?_ ?_
  · rw [total_cons]
    omega
  · rw [total_cons]
    omega

theorem Blank.frame {mem mem' : Mem} {data off : Nat} {bs : List Block} (h : Blank mem data off bs)
    (heq : ∀ x, off ≤ x → mem' (data + x) = mem (data + x)) : Blank mem' data off bs := by
  intro us b ws e x h1 h2
  rw [heq x (by omega)]
  exact h us b ws e x h1 h2

/-- A blank byte is no header. -/
theorem Blank.header {mem mem' : Mem} {data off x : Nat} {us ws bs : List Block} {b : Block} (h : Blank mem data off bs)
    (e : bs = us ++ b :: ws) (h1 : off + total us < x) (h2 : x < off + total us + b.size)
    (heq : mem' (data + x) = mem (data + x)) : header mem' data x = 0 := by
  rw [StrAlloc.header, heq, h us b ws e x h1 h2]
  rfl

/-- An arena with its headers kept and all other bytes zero. -/
def blank (mem : Mem) (data : Nat) (bs : List Block) : Mem :=
  fun x => if ∃ q ∈ placed sizeofArena bs, x = data + q.1 then mem x else 0

theorem blank_header {mem : Mem} {data : Nat} {pre post : List Block} {b : Block} :
    blank mem data (pre ++ b :: post) (data + (sizeofArena + total pre)) = mem (data + (sizeofArena + total pre)) := by
  rw [blank, if_pos]
  exact ⟨_, mem_placed.mpr ⟨pre, post, rfl, rfl⟩, rfl⟩

theorem blank_blank {size : Nat} {mem : Mem} {data : Nat} {bs : List Block} (h : Chunk size mem data bs) :
    Blank (blank mem data bs) data sizeofArena bs := by
  intro us b ws e x h1 h2
  rw [blank, if_neg]
  rintro ⟨⟨o, c⟩, hc, hx⟩
  simp only at hx
  have hc1 := h.seg.pos c (mem_of_placed hc)
  rcases placed_cases hc (mem_placed.mpr ⟨us, ws, e, rfl⟩) with ⟨rfl, -⟩ | h' | h'
  · omega
  · omega
  · omega

/-- Two memories with the same headers on the walk of an arena. -/
def SameHeaders (mem mem₂ : Mem) (data : Nat) : Prop := ∀ off, OnWalk mem data off → mem₂ (data + off) = mem (data + off)

theorem Chunk.sameHeaders {size : Nat} {mem mem₂ : Mem} {data : Nat} {bs : List Block} (h : Chunk size mem data bs)
    (hs : SameHeaders mem mem₂ data) : Chunk size mem₂ data bs := by
  refine ⟨seg_congr (fun pre b post e => hs _ (h.onWalk pre (b :: post) e)) h.seg, h.ends, ?_⟩
  have hw := h.onWalk bs [] (List.append_nil bs).symm
  rw [h.ends] at hw
  rw [header, hs _ hw]
  exact h.zero

theorem Chunk.sameHeaders_blank {size : Nat} {mem : Mem} {data : Nat} {bs : List Block} (h : Chunk size mem data bs) :
    SameHeaders mem (blank mem data bs) data := by
  intro off hw
  obtain ⟨pre, post, rfl, rfl⟩ := h.of_onWalk hw
  cases post with
  | cons b post => exact blank_header
  | nil =>
    rw [blank]
    split
    · rfl
    · have hz := h.zero
      rw [← h.ends, List.append_nil, header] at hz
      exact (BitVec.eq_of_toInt_eq hz).symm

/-! ## Scans that do harm -/

/-- What is wrong after a scan with the blocks `post` behind the cursor at `off`: the walk fails, or misses a used block, or more
than the block handed out is gone from the free space, `before`. -/
def Damaged (size data len off : Nat) (post : List Block) (before : Nat) (mem' : Mem) (r : Option Nat) : Prop :=
  strmemcheckWalk size mem' data size sizeofArena ≠ .ok () ∨
    (∃ o b, (o, b) ∈ placed off post ∧ b.status ≠ .free ∧ ¬ OnWalk mem' data o) ∨
    freeBytes size mem' data + (if r.isSome then len else 0) < before

/-- Damage behind a block is damage. -/
theorem Damaged.cons {size data len off before : Nat} {b : Block} {post : List Block} {mem' : Mem} {r : Option Nat}
    (h : Damaged size data len (off + b.size) post before mem' r) : Damaged size data len off (b :: post) before mem' r := by
  rcases h with h | ⟨o, c, hc, hne, hw⟩ | h
  · exact Or.inl h
  · exact Or.inr (Or.inl ⟨o, c, List.mem_cons_of_mem _ hc, hne, hw⟩)
  · exact Or.inr (Or.inr h)

theorem Damaged.mono {size data len off before before' : Nat} {post : List Block} {mem' : Mem} {r : Option Nat}
    (h : Damaged size data len off post before mem' r) (hle : before ≤ before') :
    Damaged size data len off post before' mem' r := by
  rcases h with h | h | h
  · exact Or.inl h
  · exact Or.inr (Or.inl h)
  · exact Or.inr (Or.inr (Nat.lt_of_lt_of_le h hle))

/-- Damage is not what a call should leave. -/
theorem Damaged.not_coalesced {size data len : Nat} {mem mem' : Mem} {pre post : List Block} {r : Option Nat} {off : Nat}
    (h : Chunk size mem data (pre ++ post))
    (hd : Damaged size data len (sizeofArena + total pre) post (freeTotal (pre ++ post)) mem' r) :
    ¬ Coalesced size data len off mem mem' r := by
  intro hc
  rcases hd with hd | ⟨o, b, hb, hne, hw⟩ | hd
  · exact hd hc.accepted
  · have hb' : (o, b) ∈ placed sizeofArena (pre ++ post) := mem_placed_append.mpr (Or.inr hb)
    obtain ⟨hon, hh⟩ := h.block_onWalk hb'
    refine hw (hc.used o hon ?_).1
    rw [hh]
    exact Block.header_pos (h.seg.pos b (mem_of_placed hb')) hne
  · have := hc.conserved
    rw [h.freeBytes] at this
    omega

/-- A free block that is larger than the request is split, and the rest of it is no longer free. -/
theorem Chunk.split_damaged {size data len : Nat} {mem : Mem} {pre rest : List Block} {b : Block} (fuel : Nat)
    (h : Chunk size mem data (pre ++ b :: rest)) (h1 : 1 ≤ len) (hlen : len ≤ maxBlksz) (hfree : b.status = .free)
    (hgt : len < b.size) :
    ∃ mem' off' r, allocBlock data len (fuel + 1) mem (sizeofArena + total pre) = some (mem', off', r) ∧
      Damaged size data len (sizeofArena + total pre) (b :: rest) (freeTotal (pre ++ b :: rest)) mem' r := by
  obtain ⟨hb1, hb2, hbh⟩ := h.seg.block rfl
  have hle := Nat.le_of_lt hgt
  refine ⟨_, _, _, allocBlock_take len fuel hlen hb1 hb2 hbh ⟨hfree, hle⟩, Or.inr (Or.inr ?_)⟩
  rw [(h.place h1 hle).freeBytes, Block.split, if_neg (by omega)]
  simp only [freeTotal_append, freeTotal_cons, freeTotal_nil, hfree, Option.isSome_some, if_true, reduceCtorEq, if_false]
  omega

/-- The bytes of two adjacent blocks that are not their headers are zero. -/
theorem Blank.pair {mem mem' : Mem} {data off x : Nat} {b c : Block} {rest : List Block}
    (h : Blank mem data off (b :: c :: rest)) (h1 : 0 < x) (h2 : x < b.size + c.size) (hx : x ≠ b.size)
    (heq : mem' (data + (off + x)) = mem (data + (off + x))) : StrAlloc.header mem' data (off + x) = 0 := by
  by_cases hlt : x < b.size
  · have hin : off + total [] < off + x ∧ off + x < off + total [] + b.size := by
      rw [total_nil]
      omega
    exact h.header (List.nil_append _).symm hin.1 hin.2 heq
  · have hin : off + total [b] < off + x ∧ off + x < off + total [b] + c.size := by
      rw [total_cons, total_nil]
      omega
    exact h.header (List.singleton_append ..).symm hin.1 hin.2 heq

/-- Where a number of bytes ends in a list of blocks: between two of them, inside one, or behind them all. -/
theorem split_total (bs : List Block) : ∀ n : Nat, (∃ us ws, bs = us ++ ws ∧ total us = n) ∨
    (∃ us w ws, bs = us ++ w :: ws ∧ total us < n ∧ n < total us + w.size) ∨ total bs < n := by
  induction bs with
  | nil =>
    intro n
    cases n with
    | zero => exact Or.inl ⟨[], [], rfl, rfl⟩
    | succ n => exact Or.inr (Or.inr (Nat.succ_pos n))
  | cons b bs ih =>
    intro n
    rcases Nat.eq_zero_or_pos n with rfl | hpos
    · exact Or.inl ⟨[], b :: bs, rfl, rfl⟩
    · by_cases hlt : n < b.size
      · exact Or.inr (Or.inl ⟨[], b, bs, rfl, hpos, by rw [total_nil]; omega⟩)
      · rcases ih (n - b.size) with ⟨us, ws, rfl, htot⟩ | ⟨us, w, ws, rfl, h1, h2⟩ | htot
        · exact Or.inl ⟨b :: us, ws, rfl, by rw [total_cons]; omega⟩
        · exact Or.inr (Or.inl ⟨b :: us, w, ws, rfl, by rw [total_cons]; omega, by rw [total_cons]; omega⟩)
        · exact Or.inr (Or.inr (by rw [total_cons]; omega))

/-- The walk of an arena with two blocks behind `pre` has no offset inside the second one. -/
theorem Chunk.not_onWalk {size : Nat} {mem : Mem} {data o : Nat} {pre rest : List Block} {b c : Block}
    (h : Chunk size mem data (pre ++ ([b, c] ++ rest))) (h1 : sizeofArena + total pre + b.size < o)
    (h2 : o < sizeofArena + total pre + b.size + c.size) : ¬ OnWalk mem data o := by
  intro hw
  obtain ⟨pre', post', e, rfl⟩ := h.of_onWalk hw
  rcases List.append_eq_append_iff.mp e with ⟨as, rfl, e'⟩ | ⟨as, rfl, -⟩
  · rw [total_append] at h1 h2
    cases as with
    | nil =>
      rw [total_nil] at h1
      omega
    | cons x as =>
      simp only [List.cons_append, List.nil_append] at e'
      obtain ⟨rfl, e₂⟩ := List.cons.inj e'
      cases as with
      | nil =>
        rw [total_cons, total_nil] at h1
        omega
      | cons y as =>
        rw [List.cons_append] at e₂
        obtain ⟨rfl, -⟩ := List.cons.inj e₂
        rw [total_cons, total_cons] at h2
        omega
  · rw [total_append] at h1
    omega

/-- The blocks in front of two that are merged and split stay as they are. -/
theorem Chunk.pre_mergeSplit {size : Nat} {mem : Mem} {data : Nat} {pre post : List Block} (h : Chunk size mem data (pre ++ post))
    (len d : Nat) : Seg (mergeSplit mem data (sizeofArena + total pre) len d) data sizeofArena pre :=
  seg_frame (fun _ _ hx => mergeSplit_apply (by omega) (by omega)) (seg_append.mp h.seg).1

section Pair

variable {size data len : Nat} {mem : Mem} {pre rest : List Block} {b c : Block} (fuel : Nat)
  (h : Chunk size mem data (pre ++ b :: c :: rest)) (hblank : Blank mem data (sizeofArena + total pre) (b :: c :: rest))
  (hb : b.status = .free) (hc : c.status = .free) (hlt : b.size < len)

include h hblank hb hc hlt

/-- Two free blocks that are merged without serving the request: unless the second one is twice as large as the first, the header
that results leads into a payload. -/
theorem Chunk.merge_damaged (hle : b.size + c.size ≤ len) (hne : c.size ≠ 2 * b.size) :
    ∃ mem' off' r, allocBlock data len (fuel + 2) mem (sizeofArena + total pre) = some (mem', off', r) ∧
      Damaged size data len (sizeofArena + total pre) (b :: c :: rest) (freeTotal (pre ++ b :: c :: rest)) mem' r := by
  have hmax : maxBlksz = 127 := rfl
  obtain ⟨hs, ht, hs1, hs2, ht1, ht2⟩ := h.pair_headers hb hc
  have hends := h.ends
  simp only [total_append, total_cons] at hends
  have hpre := (seg_append.mp h.seg).1
  generalize hd : (c.size - b.size : Int) = d at *
  have hself : header (setHeader mem data (sizeofArena + total pre) d) data (sizeofArena + total pre) = d :=
    header_setHeader_self (by omega) (by omega)
  have hpre' : Seg (setHeader mem data (sizeofArena + total pre) d) data sizeofArena pre :=
    seg_frame (fun x _ hx => setHeader_apply_ne _ (by omega)) hpre
  rw [allocBlock_merge (fuel + 1) hs ht hs1 hs2 ht1 ht2 hlt hle, hd]
  by_cases h0 : d = 0
  · -- the header is zero: the scan stops at it, and so does the walk
    rw [h0] at hself hpre' ⊢
    refine ⟨_, _, _, allocBlock_zero len fuel hself, Or.inl (walk_stuck hpre' (by omega) hself)⟩
  · have hz : header (setHeader mem data (sizeofArena + total pre) d) data (sizeofArena + total pre + d.natAbs) = 0 :=
      hblank.pair (by omega) (by omega) (by omega) (setHeader_apply_ne _ (by omega))
    refine ⟨_, _, _, allocBlock_zero len fuel hz, Or.inl ?_⟩
    have hseg := seg_append.mpr ⟨hpre', seg_header (n := d.natAbs) (by rw [blockSize, hself]) (by omega) (by omega)⟩
    refine walk_stuck hseg ?_ ?_
    · simp only [total_append, total_cons, total_nil]
      omega
    · simp only [total_append, total_cons, total_nil, Nat.add_zero, ← Nat.add_assoc]
      exact hz

/-- Two free blocks that are merged without serving the request, the second one twice as large as the first: the header that
results makes the first one a used block, and the scan goes on at the second. -/
theorem Chunk.merge_double (hle : b.size + c.size ≤ len) (h2 : c.size = 2 * b.size) :
    ∃ (mem₁ : Mem) (b₁ : Block), allocBlock data len (fuel + 1) mem (sizeofArena + total pre) =
        allocBlock data len fuel mem₁ (sizeofArena + total (pre ++ [b₁])) ∧
      Chunk size mem₁ data ((pre ++ [b₁]) ++ c :: rest) ∧
      Blank mem₁ data (sizeofArena + total (pre ++ [b₁])) (c :: rest) ∧ b₁.size = b.size ∧
      freeTotal ((pre ++ [b₁]) ++ c :: rest) < freeTotal (pre ++ b :: c :: rest) := by
  obtain ⟨hs, ht, hs1, hs2, ht1, ht2⟩ := h.pair_headers hb hc
  have hd : (c.size - b.size : Int) = b.size := by omega
  have hplace : sizeofArena + total (pre ++ [{ b with status := .live }]) = sizeofArena + total pre + b.size := by
    simp only [total_append, total_cons, total_nil]
    omega
  have hlive := h.setStatus .live
  have hheader : ({ b with status := .live } : Block).header = b.size := rfl
  rw [hheader] at hlive
  refine ⟨setHeader mem data (sizeofArena + total pre) b.size, { b with status := .live }, ?_, ?_, ?_, rfl, ?_⟩
  · rw [allocBlock_merge fuel hs ht hs1 hs2 ht1 ht2 hlt hle, hd, Int.natAbs_natCast, hplace]
  · rw [List.append_assoc]
    exact hlive
  · rw [hplace]
    exact hblank.tail.frame fun x hx => setHeader_apply_ne _ (by omega)
  · simp only [freeTotal_append, freeTotal_cons, freeTotal_nil, hb, reduceCtorEq, if_true, if_false]
    omega

/-- Two free blocks that are merged and split, with a second one that is too large: the header of the rest leads into its
payload. -/
theorem Chunk.mergeSplit_short (h1 : 1 ≤ len) (hlen : len ≤ maxBlksz) (hgt : len < c.size) :
    ∃ mem' off' r, allocBlock data len (fuel + 1) mem (sizeofArena + total pre) = some (mem', off', r) ∧
      Damaged size data len (sizeofArena + total pre) (b :: c :: rest) (freeTotal (pre ++ b :: c :: rest)) mem' r := by
  have hmax : maxBlksz = 127 := rfl
  obtain ⟨hs, ht, hs1, hs2, ht1, ht2⟩ := h.pair_headers hb hc
  have hends := h.ends
  simp only [total_append, total_cons] at hends
  refine ⟨_, _, _, allocBlock_mergeSplit fuel hs ht hs1 hs2 ht1 ht2 hlt (by omega) hlen, Or.inl ?_⟩
  generalize hd : (c.size - b.size : Int).natAbs = d
  generalize hm : mergeSplit mem data (sizeofArena + total pre) len d = mem'
  have hframe : ∀ x, x ≠ data + (sizeofArena + total pre) → x ≠ data + (sizeofArena + total pre + len) → mem' x = mem x := by
    intro x hx1 hx2
    rw [← hm]
    exact mergeSplit_apply hx1 hx2
  have hserved : header mem' data (sizeofArena + total pre) = len := by
    rw [← hm, mergeSplit, header_setHeader_ne _ (by omega), header_setHeader_self (by omega) (by omega)]
  have hrest : header mem' data (sizeofArena + total pre + len) = d - len := by
    rw [← hm, mergeSplit, header_setHeader_self (by omega) (by omega)]
  have hpre : Seg mem' data sizeofArena pre := hm ▸ h.pre_mergeSplit len d
  have hfirst : Seg mem' data sizeofArena (pre ++ [⟨len, .live⟩]) :=
    seg_append.mpr ⟨hpre, ⟨h1, hlen, hserved⟩, trivial⟩
  have hplace : sizeofArena + total (pre ++ [⟨len, .live⟩]) = sizeofArena + total pre + len := by
    simp only [total_append, total_cons, total_nil]
    omega
  by_cases h0 : d = len
  · refine walk_stuck hfirst ?_ ?_
    · omega
    · rw [hplace, hrest, h0]
      omega
  · have hsize : blockSize mem' data (sizeofArena + total (pre ++ [⟨len, .live⟩])) = (d - len : Int).natAbs := by
      rw [hplace, blockSize, hrest]
    have hseg := seg_append.mpr ⟨hfirst, seg_header hsize (by omega) (by omega)⟩
    have hend : sizeofArena + total (pre ++ [⟨len, .live⟩] ++ [⟨(d - len : Int).natAbs,
        if header mem' data (sizeofArena + total (pre ++ [⟨len, .live⟩])) < 0 then .free else .live⟩]) =
          sizeofArena + total pre + (len + (d - len : Int).natAbs) := by
      simp only [total_append, total_cons, total_nil]
      omega
    refine walk_stuck hseg ?_ ?_
    · omega
    · rw [hend]
      exact hblank.pair (by omega) (by omega) (by omega) (hframe _ (by omega) (by omega))

/-- Two free blocks that are merged and split, with a second one that is not too large: the header of the rest leads to the end of
free blocks, or the arena is damaged. -/
theorem Chunk.mergeSplit_jump (h1 : 1 ≤ len) (hlen : len ≤ maxBlksz) (hgt : len < b.size + c.size) (hle : c.size ≤ len)
    (hbad : ¬ Harmless len (b :: c :: rest)) :
    ∃ mem' off' r, allocBlock data len (fuel + 1) mem (sizeofArena + total pre) = some (mem', off', r) ∧
      Damaged size data len (sizeofArena + total pre) (b :: c :: rest) (freeTotal (pre ++ b :: c :: rest)) mem' r := by
  have hmax : maxBlksz = 127 := rfl
  obtain ⟨hs, ht, hs1, hs2, ht1, ht2⟩ := h.pair_headers hb hc
  have hends := h.ends
  simp only [total_append, total_cons] at hends
  refine ⟨_, _, _, allocBlock_mergeSplit fuel hs ht hs1 hs2 ht1 ht2 hlt hgt hlen, ?_⟩
  generalize hd : (c.size - b.size : Int).natAbs = d
  generalize hgap : 2 * (len - max b.size c.size) = gap
  have hjump : len + (len - d) = b.size + (c.size + gap) := by omega
  have hdlen : d < len := by omega
  clear hd
  have hnew := seg_mergeSplit mem data (sizeofArena + total pre) h1 hlen hdlen
  generalize hm : mergeSplit mem data (sizeofArena + total pre) len d = mem' at hnew ⊢
  have hframe : ∀ x, x ≠ data + (sizeofArena + total pre) → x ≠ data + (sizeofArena + total pre + len) → mem' x = mem x := by
    intro x hx1 hx2
    rw [← hm]
    exact mergeSplit_apply hx1 hx2
  have hpre : Seg mem' data sizeofArena pre := hm ▸ h.pre_mergeSplit len d
  have hseg := seg_append.mpr ⟨hpre, hnew⟩
  have hend : sizeofArena + total (pre ++ [⟨len, .live⟩, ⟨len - d, .free⟩]) =
      sizeofArena + total pre + (len + (len - d)) := by
    simp only [total_append, total_cons, total_nil]
    omega
  rcases split_total rest gap with ⟨us, ws, rfl, htot⟩ | ⟨us, w, ws, rfl, hw1, hw2⟩ | hbehind
  · -- the header leads to the end of the blocks `us`, and one of them is used
    refine Or.inr (Or.inl ?_)
    obtain ⟨u, hu, hne⟩ : ∃ u ∈ us, u.status ≠ .free := by
      by_contra hall
      exact hbad (Harmless.pair hb hc hlt hle hgt (fun u hu => not_not.mp fun hne => hall ⟨u, hu, hne⟩) (htot.trans hgap.symm))
    clear hgap
    obtain ⟨us₁, us₂, rfl⟩ := List.append_of_mem hu
    have hnewtot : total [(⟨len, .live⟩ : Block), ⟨len - d, .free⟩] = total (b :: c :: (us₁ ++ u :: us₂)) := by
      rw [total_cons, total_cons, total_cons, total_cons, total_nil, htot]
      exact hjump
    have hchunk : Chunk size mem' data (pre ++ ([⟨len, .live⟩, ⟨len - d, .free⟩] ++ ws)) := by
      have h' : Chunk size mem data (pre ++ ((b :: c :: (us₁ ++ u :: us₂)) ++ ws)) := h
      refine h'.replace hnew hnewtot fun x hx => hframe x ?_ ?_
      · rw [total_cons, total_cons] at hx
        omega
      · rw [total_cons, total_cons, htot] at hx
        omega
    have hupos := h.seg.pos u (by simp)
    rw [total_append, total_cons] at htot
    refine ⟨sizeofArena + total pre + total (b :: c :: us₁), u, mem_placed.mpr ⟨b :: c :: us₁, us₂ ++ ws, by simp, rfl⟩, hne,
      hchunk.not_onWalk ?_ ?_⟩
    · simp only [total_cons]
      omega
    · simp only [total_cons]
      omega
  · -- the header leads into the payload of a block
    refine Or.inl (walk_stuck hseg ?_ ?_)
    · rw [total_append, total_cons] at hends
      omega
    · rw [hend]
      have e : b :: c :: (us ++ w :: ws) = (b :: c :: us) ++ w :: ws := rfl
      refine hblank.header e ?_ ?_ (hframe _ (by omega) (by omega))
      · simp only [total_cons]
        omega
      · simp only [total_cons]
        omega
  · -- the header leads out of the arena
    refine Or.inl fun hok => ?_
    have hfirst : Seg mem' data sizeofArena (pre ++ [⟨len, .live⟩]) :=
      seg_append.mpr ⟨hpre, hnew.1, trivial⟩
    have hplace : sizeofArena + total (pre ++ [⟨len, .live⟩]) = sizeofArena + total pre + len := by
      simp only [total_append, total_cons, total_nil]
      omega
    obtain ⟨f, hf⟩ := walk_seg hfirst (by omega) hok
    rw [hplace] at hf
    obtain ⟨-, -, f', hf'⟩ := walk_next hf (by omega)
    rw [blockSize_of_header hnew.2.1.2.2] at hf'
    simp only at hf'
    exact absurd (walk_next hf' (by omega)).1 (by omega)

end Pair

/-- A scan over blocks with blank payloads that are not harmless ends, and does damage. -/
theorem Chunk.scan_damaged {size data len : Nat} (h1 : 1 ≤ len) (hlen : len ≤ maxBlksz) : ∀ (post : List Block) {mem : Mem}
    {pre : List Block} {fuel : Nat}, Chunk size mem data (pre ++ post) → Blank mem data (sizeofArena + total pre) post →
      ¬ Harmless len post → post.length < fuel →
      ∃ mem' off' r, allocBlock data len fuel mem (sizeofArena + total pre) = some (mem', off', r) ∧
        Damaged size data len (sizeofArena + total pre) post (freeTotal (pre ++ post)) mem' r := by
  intro post
  induction post with
  | nil =>
    intro mem pre fuel _ _ hbad _
    exact absurd Harmless.nil hbad
  | cons b rest ih =>
    intro mem pre fuel h hblank hbad hfuel
    obtain ⟨fuel, rfl⟩ : ∃ f, fuel = f + 1 := ⟨fuel - 1, by omega⟩
    rw [List.length_cons] at hfuel
    have hplace : sizeofArena + total (pre ++ [b]) = sizeofArena + total pre + b.size := by
      simp only [total_append, total_cons, total_nil]
      omega
    by_cases hpass : Passed len b rest
    · -- the scan goes on behind the block
      have h' : Chunk size mem data ((pre ++ [b]) ++ rest) := by rw [List.append_assoc]; exact h
      rw [h.scan_passed fuel hlen hpass]
      obtain ⟨mem', off', r, hr, hd⟩ := ih h' (by rw [hplace]; exact hblank.tail)
        (fun hrest => hbad (Harmless.skip hpass hrest)) (show rest.length < fuel by omega)
      rw [hplace, List.append_assoc] at hd
      exact ⟨mem', off', r, hr, hd.cons⟩
    · obtain ⟨hb, hnot⟩ := Classical.not_imp.mp hpass
      rcases Nat.lt_trichotomy b.size len with hlt | heq | hgt
      · -- the block is too small, and another free one follows
        obtain ⟨c, hchead, hc⟩ : ∃ c ∈ rest.head?, c.status = .free := by
          by_contra hall
          exact hnot ⟨hlt, fun c hcm hcf => hall ⟨c, hcm, hcf⟩⟩
        obtain ⟨rest, rfl⟩ : ∃ rest', rest = c :: rest' := by
          cases rest with
          | nil => cases hchead
          | cons d rest =>
            obtain rfl := Option.some.inj hchead
            exact ⟨rest, rfl⟩
        rw [List.length_cons] at hfuel
        obtain ⟨fuel, rfl⟩ : ∃ f, fuel = f + 1 := ⟨fuel - 1, by omega⟩
        by_cases hle : b.size + c.size ≤ len
        · by_cases h2 : c.size = 2 * b.size
          · -- the first block becomes a used one, and the scan goes on at the second
            obtain ⟨mem₁, b₁, hscan, hchunk, hblank₁, hsize, hless⟩ := h.merge_double (fuel + 1) hblank hb hc hlt hle h2
            have hplace₁ : sizeofArena + total (pre ++ [b₁]) = sizeofArena + total pre + b.size := by
              simp only [total_append, total_cons, total_nil, hsize]
              omega
            have hfuel₁ : (c :: rest).length < fuel + 1 := by
              rw [List.length_cons]
              omega
            rw [hscan]
            by_cases hgood : Harmless len (c :: rest)
            · obtain ⟨⟨mem', off', r⟩, hr, ho⟩ := hgood.scan h1 hlen hchunk hfuel₁
              refine ⟨mem', off', r, hr, Or.inr (Or.inr ?_)⟩
              have hcons := (ho.coalesced hchunk).conserved
              rw [hchunk.freeBytes] at hcons
              omega
            · obtain ⟨mem', off', r, hr, hd⟩ := ih hchunk hblank₁ hgood hfuel₁
              rw [hplace₁] at hd
              exact ⟨mem', off', r, hr, (hd.mono (Nat.le_of_lt hless)).cons⟩
          · exact h.merge_damaged fuel hblank hb hc hlt hle h2
        · by_cases hcl : c.size ≤ len
          · exact h.mergeSplit_jump (fuel + 1) hblank hb hc hlt h1 hlen (Nat.lt_of_not_le hle) hcl hbad
          · exact h.mergeSplit_short (fuel + 1) hblank hb hc hlt h1 hlen (Nat.lt_of_not_le hcl)
      · exact absurd (Harmless.exact hb heq) hbad
      · exact h.split_damaged fuel h1 hlen hb hgt

/-! ## When a call coalesces -/

/-- The blocks that are read back from an arena are not lost. -/
theorem read_of_mem {mem : Mem} {data : Nat} {b : Block} : ∀ {fuel off : Nat}, b ∈ readBlocks mem data fuel off → b.read = b := by
  intro fuel
  induction fuel with
  | zero =>
    intro off hb
    cases hb
  | succ fuel ih =>
    intro off hb
    rw [readBlocks] at hb
    split at hb
    · cases hb
    · rcases List.mem_cons.mp hb with rfl | hb
      · by_cases hneg : header mem data off < 0 <;> simp [Block.read, hneg]
      · exact ih hb

/-- An offset of an accepted walk splits the blocks of the arena. -/
theorem Accepted.split {size : Nat} {mem : Mem} {data off : Nat} (h : Accepted size mem data) (hw : OnWalk mem data off) :
    ∃ pre, Chunk size mem data (pre ++ readBlocks mem data size off) ∧ off = sizeofArena + total pre := by
  have hchunk := h.chunk
  obtain ⟨pre, post, e, rfl⟩ := hchunk.of_onWalk hw
  rw [e] at hchunk
  have hlt := hchunk.length_lt
  rw [List.length_append] at hlt
  have hends := hchunk.ends
  rw [total_append, ← Nat.add_assoc] at hends
  have hread := readBlocks_eq post size (sizeofArena + total pre) (seg_append.mp hchunk.seg).2 (by rw [hends]; exact hchunk.zero)
    (by omega)
  have hpost : post.map Block.read = post := by
    refine (List.map_congr_left fun b hb => ?_).trans (List.map_id post)
    exact read_of_mem (show b ∈ readBlocks mem data size sizeofArena by rw [e]; exact List.mem_append_right pre hb)
  rw [hread, hpost]
  exact ⟨pre, hchunk, rfl⟩

/-- An arena that holds blocks is accepted. -/
theorem Chunk.accepted {size : Nat} {mem : Mem} {data : Nat} {bs : List Block} (h : Chunk size mem data bs) :
    Accepted size mem data := by
  refine ⟨h.walk_ok, fun off hw => ?_⟩
  obtain ⟨pre, post, e, rfl⟩ := h.of_onWalk hw
  cases post with
  | cons b post =>
    obtain ⟨-, hb2, hbh⟩ := h.seg.block e
    rw [blockSize_of_header hbh]
    exact hb2
  | nil =>
    have hz := h.zero
    rw [← h.ends, e, List.append_nil] at hz
    rw [blockSize, hz]
    exact Nat.zero_le _

/-- On every accepted arena, from every offset of the walk: `alloc_block` does what it should, whatever the payloads contain, if
and only if the blocks from the cursor on are harmless. -/
theorem alloc_block_coalesces_iff {size data len off : Nat} {mem : Mem} (h : Accepted size mem data) (h2 : 2 ≤ len)
    (hlen : len ≤ maxBlksz) (hw : OnWalk mem data off) :
    (∀ mem₂, SameHeaders mem mem₂ data → ∃ mem' off' r, allocBlock data len size mem₂ off = some (mem', off', r) ∧
      Coalesced size data len off mem₂ mem' r) ↔ Harmless len (readBlocks mem data size off) := by
  have h1 : 1 ≤ len := Nat.le_of_succ_le h2
  obtain ⟨pre, hchunk, rfl⟩ := h.split hw
  generalize readBlocks mem data size (sizeofArena + total pre) = post at hchunk ⊢
  have hlt := hchunk.length_lt
  rw [List.length_append] at hlt
  have hfuel : post.length < size := Nat.lt_of_le_of_lt (Nat.le_add_left _ _) hlt
  constructor
  · intro hall
    by_contra hbad
    -- with blank payloads the damage shows
    have hsame := hchunk.sameHeaders_blank
    have hblank := blank_blank hchunk
    have hchunk₂ := hchunk.sameHeaders hsame
    have hblank₂ : Blank (blank mem data (pre ++ post)) data (sizeofArena + total pre) post := by
      intro us b ws e x hx1 hx2
      refine hblank (pre ++ us) b ws (by rw [e, List.append_assoc]) x ?_ ?_
      · rw [total_append]
        omega
      · rw [total_append]
        omega
    obtain ⟨mem', off', r, hr, hd⟩ := Chunk.scan_damaged h1 hlen post hchunk₂ hblank₂ hbad hfuel
    obtain ⟨mem'', off'', r', hr', hc⟩ := hall _ hsame
    rw [hr] at hr'
    obtain ⟨rfl, rfl, rfl⟩ : mem' = mem'' ∧ off' = off'' ∧ r = r' := by simpa using hr'
    exact hd.not_coalesced hchunk₂ hc
  · intro hgood mem₂ hsame
    have hchunk₂ := hchunk.sameHeaders hsame
    obtain ⟨⟨mem', off', r⟩, hr, ho⟩ := hgood.scan h1 hlen hchunk₂ hfuel
    exact ⟨mem', off', r, hr, ho.coalesced hchunk₂⟩

/-- The first arena of a run. -/
def freshArena : Mem := initChunk arenaSize (fun _ => 0) 4096

theorem freshArena_chunk : ∃ rest, Chunk arenaSize freshArena 4096 (⟨maxBlksz, .free⟩ :: rest) := by
  obtain ⟨bs, hchunk, -, -, hbig, -⟩ := initChunk_spec (fun _ => 0) 4096 (show sizeofArena < arenaSize by decide)
  obtain ⟨rest, rfl⟩ := hbig (by decide)
  exact ⟨rest, hchunk⟩

/-- The witness: the first request of a run, for six bytes with the header. -/
theorem alloc_block_coalesces_fresh :
    (∀ mem₂, SameHeaders freshArena mem₂ 4096 → ∃ mem' off' r, allocBlock 4096 6 arenaSize mem₂ 8 = some (mem', off', r) ∧
      Coalesced arenaSize 4096 6 8 mem₂ mem' r) ↔ Harmless 6 (readBlocks freshArena 4096 arenaSize 8) := by
  obtain ⟨rest, hchunk⟩ := freshArena_chunk
  exact alloc_block_coalesces_iff hchunk.accepted (by decide) (by decide) OnWalk.first

/-- A request for six bytes in a fresh arena takes a block of 127 bytes from the free space. -/
theorem not_coalesced_fresh : ¬ ∀ (size data len off : Nat) (mem : Mem), Accepted size mem data → 2 ≤ len → len ≤ maxBlksz →
    OnWalk mem data off → ∃ mem' off' r, allocBlock data len size mem off = some (mem', off', r) ∧
      Coalesced size data len off mem mem' r := by
  intro hall
  obtain ⟨rest, hchunk⟩ := freshArena_chunk
  have hchunk' : Chunk arenaSize freshArena 4096 ([] ++ ⟨maxBlksz, .free⟩ :: rest) := hchunk
  obtain ⟨mem', off', r, hr, hd⟩ := hchunk'.split_damaged (arenaSize - 1) (show 1 ≤ 6 by decide) (by decide) rfl (by decide)
  obtain ⟨mem'', off'', r', hr', hc⟩ := hall arenaSize 4096 6 8 freshArena hchunk.accepted (by decide) (by decide) OnWalk.first
  have he : some (mem', off', r) = some (mem'', off'', r') := hr.symm.trans hr'
  obtain ⟨rfl, rfl, rfl⟩ : mem' = mem'' ∧ off' = off'' ∧ r = r' := by simpa using he
  exact hd.not_coalesced hchunk hc

end OsLabs.StrAlloc
