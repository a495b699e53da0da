import OsLabs.StrAlloc.Merge
import OsLabs.StrAlloc.Safety

/-!
# What `alloc_block` should do

`Coalesced` is what a call of `alloc_block` should do on any arena that the walk of `strmemcheck` accepts: keep it accepted, keep
the used blocks, take exactly `len` bytes from the free space, and find them whenever adjacent free blocks have them. A scan with
the outcome of `Harmless.scan` does all of this.
-/

namespace OsLabs.StrAlloc

/-! ## What a call should do -/

/-- The bytes of the free blocks of an arena. -/
def freeBytes (size : Nat) (mem : Mem) (data : Nat) : Nat := (scanFree mem data size sizeofArena).sum

/-- From the offset `off` on stand adjacent free blocks of `n` bytes together. -/
inductive FreeRun (mem : Mem) (data : Nat) : Nat → Nat → Prop where
  | nil (off : Nat) : FreeRun mem data off 0
  | cons {off n : Nat} (hfree : header mem data off < 0) (h : FreeRun mem data (off + blockSize mem data off) n) :
      FreeRun mem data off (blockSize mem data off + n)

/-- What `alloc_block(data, len)` should leave of the memory `mem` and return, with the cursor at `off`. -/
structure Coalesced (size data len off : Nat) (mem mem' : Mem) (r : Option Nat) : Prop where
  accepted : strmemcheckWalk size mem' data size sizeofArena = .ok ()
  used : ∀ o, OnWalk mem data o → 0 < header mem data o →
    OnWalk mem' data o ∧ ∀ x, data + o ≤ x → x < data + (o + blockSize mem data o) → mem' x = mem x
  conserved : freeBytes size mem' data + (if r.isSome then len else 0) = freeBytes size mem data
  made : ∀ p, r = some p → ∃ o, p = data + o + 1 ∧ OnWalk mem' data o ∧ header mem' data o = len ∧
    ∀ x, o ≤ x → x < o + len →
      ∃ o', OnWalk mem data o' ∧ header mem data o' < 0 ∧ o' ≤ x ∧ x < o' + blockSize mem data o'
  found : r.isSome = true ↔ ∃ o n, off ≤ o ∧ OnWalk mem data o ∧ FreeRun mem data o n ∧ len ≤ n

/-! ## Free bytes and runs, by blocks -/

/-- The bytes of the free blocks of a list. -/
def freeTotal (bs : List Block) : Nat := (freeSizes bs).sum

@[simp] theorem freeTotal_append (bs cs : List Block) : freeTotal (bs ++ cs) = freeTotal bs + freeTotal cs := by
  simp [freeTotal, freeSizes]

@[simp] theorem freeTotal_nil : freeTotal [] = 0 := rfl

theorem freeTotal_cons (b : Block) (bs : List Block) :
    freeTotal (b :: bs) = (if b.status = .free then b.size else 0) + freeTotal bs := by
  by_cases h : b.status = .free <;> simp [freeTotal, freeSizes, h]

/-- Free blocks are free bytes. -/
theorem freeTotal_of_free {bs : List Block} (h : ∀ b ∈ bs, b.status = .free) : freeTotal bs = total bs := by
  induction bs with
  | nil => rfl
  | cons b bs ih =>
    obtain ⟨hb, hbs⟩ := List.forall_mem_cons.mp h
    rw [freeTotal_cons, if_pos hb, total_cons, ih hbs]

/-- A list of blocks is shorter than its arena. -/
theorem Chunk.length_lt {size : Nat} {mem : Mem} {data : Nat} {bs : List Block} (h : Chunk size mem data bs) :
    bs.length < size := by
  have hlength := h.seg.length_le
  have hends := h.ends
  have h8 : sizeofArena = 8 := rfl
  omega

theorem Chunk.freeBytes {size : Nat} {mem : Mem} {data : Nat} {bs : List Block} (h : Chunk size mem data bs) :
    freeBytes size mem data = freeTotal bs := by
  rw [StrAlloc.freeBytes, freeTotal, scanFree_eq bs sizeofArena size h.seg (by rw [h.ends]; exact h.zero) h.length_lt]

/-- `strmemcheck` accepts an arena that holds blocks. -/
theorem Chunk.walk_ok {size : Nat} {mem : Mem} {data : Nat} {bs : List Block} (h : Chunk size mem data bs) :
    strmemcheckWalk size mem data size sizeofArena = .ok () :=
  strmemcheckWalk_ok h.zero bs sizeofArena size h.seg h.ends h.length_lt

/-- Free blocks in a row are a run. -/
theorem freeRun_of_seg {mem : Mem} {data : Nat} {fs : List Block} (hfree : ∀ b ∈ fs, b.status = .free) :
    ∀ {off : Nat}, Seg mem data off fs → FreeRun mem data off (total fs) := by
  induction fs with
  | nil =>
    intro off _
    exact FreeRun.nil off
  | cons b fs ih =>
    intro off hseg
    obtain ⟨⟨hb1, -, hbh⟩, hrest⟩ := hseg
    obtain ⟨hb, hfs⟩ := List.forall_mem_cons.mp hfree
    have hsize := blockSize_of_header hbh
    have hneg : header mem data off < 0 := by
      rw [hbh, Block.header_free hb]
      omega
    have htail : FreeRun mem data (off + blockSize mem data off) (total fs) := by
      rw [hsize]
      exact ih hfs hrest
    have hrun := FreeRun.cons hneg htail
    rw [hsize] at hrun
    rw [total_cons]
    exact hrun

/-- A run is a row of free blocks. -/
theorem Chunk.of_freeRun {size : Nat} {mem : Mem} {data off n : Nat} {bs : List Block} (h : Chunk size mem data bs)
    (hrun : FreeRun mem data off n) : ∀ {pre post : List Block}, bs = pre ++ post → off = sizeofArena + total pre →
      ∃ fs rest, post = fs ++ rest ∧ (∀ b ∈ fs, b.status = .free) ∧ total fs = n := by
  induction hrun with
  | nil off =>
    intro pre post _ _
    exact ⟨[], post, rfl, by simp, rfl⟩
  | @cons off n hneg _ ih =>
    intro pre post e hoff
    cases post with
    | nil =>
      have hz := h.zero
      rw [← h.ends, e, List.append_nil, ← hoff] at hz
      rw [hz] at hneg
      exact absurd hneg (Int.lt_irrefl 0)
    | cons b post =>
      obtain ⟨hb1, -, hbh⟩ := h.seg.block e
      rw [← hoff] at hbh
      have hsize := blockSize_of_header hbh
      have hfree : b.status = .free := by
        by_contra hne
        have := Block.header_pos hb1 hne
        omega
      obtain ⟨fs, rest, rfl, hfs, htot⟩ := ih (show bs = (pre ++ [b]) ++ post by rw [e, List.append_assoc]; rfl)
        (by rw [hsize, hoff]; simp only [total_append, total_cons, total_nil, Nat.add_zero, Nat.add_assoc])
      exact ⟨b :: fs, rest, rfl, List.forall_mem_cons.mpr ⟨hfree, hfs⟩, by rw [total_cons, htot, hsize]⟩

/-- Behind the cursor a run of free blocks is one of the blocks from the cursor on. -/
theorem Chunk.run_iff {size : Nat} {mem : Mem} {data len : Nat} {pre post : List Block} (h : Chunk size mem data (pre ++ post)) :
    (∃ o n, sizeofArena + total pre ≤ o ∧ OnWalk mem data o ∧ FreeRun mem data o n ∧ len ≤ n) ↔ ¬ NoRun len post := by
  constructor
  · rintro ⟨o, n, hle, hw, hrun, hn⟩ hno
    obtain ⟨pre', post', e, rfl⟩ := h.of_onWalk hw
    obtain ⟨fs, rest, rfl, hfree, htot⟩ := h.of_freeRun hrun e rfl
    have hpos := h.seg.pos
    rcases List.append_eq_append_iff.mp e with ⟨as, -, e'⟩ | ⟨as, rfl, e'⟩
    · have := hno as fs rest e' hfree
      omega
    · -- the run starts not before the cursor, so nothing is between them
      have has : as = [] := by
        cases as with
        | nil => rfl
        | cons a as =>
          have := hpos a (by simp)
          simp only [total_append, total_cons] at hle
          omega
      subst has
      rw [List.nil_append] at e'
      have := hno [] fs rest e'.symm hfree
      omega
  · intro hno
    by_contra hall
    refine hno fun mid fs rest e hfree => Nat.lt_of_not_le fun hle => hall ?_
    subst e
    refine ⟨sizeofArena + total (pre ++ mid), total fs, by rw [total_append]; omega,
      h.onWalk (pre ++ mid) (fs ++ rest) (by rw [List.append_assoc]), ?_, hle⟩
    rw [← List.append_assoc] at h
    exact freeRun_of_seg hfree (seg_append.mp (seg_append.mp h.seg).2).1

/-! ## Harmless scans -/

/-- Every byte of a list of blocks is in one of them. -/
theorem placed_cover {off x : Nat} {bs : List Block} (h1 : off ≤ x) (h2 : x < off + total bs) :
    ∃ o b, (o, b) ∈ placed off bs ∧ o ≤ x ∧ x < o + b.size := by
  induction bs generalizing off with
  | nil =>
    rw [total_nil] at h2
    omega
  | cons b bs ih =>
    rw [total_cons] at h2
    by_cases hx : x < off + b.size
    · exact ⟨off, b, List.mem_cons_self, h1, hx⟩
    · obtain ⟨o, c, hc, h3, h4⟩ := ih (Nat.not_lt.mp hx) (by omega)
      exact ⟨o, c, List.mem_cons_of_mem _ hc, h3, h4⟩

/-- The used blocks of a walk are blocks that are not free. -/
theorem Chunk.used_block {size : Nat} {mem : Mem} {data o : Nat} {bs : List Block} (h : Chunk size mem data bs)
    (hw : OnWalk mem data o) (hpos : 0 < header mem data o) :
    ∃ b, (o, b) ∈ placed sizeofArena bs ∧ b.status ≠ .free ∧ blockSize mem data o = b.size := by
  obtain ⟨pre, post, e, rfl⟩ := h.of_onWalk hw
  cases post with
  | nil =>
    have hz := h.zero
    rw [← h.ends, e, List.append_nil] at hz
    rw [hz] at hpos
    exact absurd hpos (Int.lt_irrefl 0)
  | cons b post =>
    obtain ⟨hb1, -, hbh⟩ := h.seg.block e
    refine ⟨b, mem_placed.mpr ⟨pre, post, e, rfl⟩, fun hfree => ?_, blockSize_of_header hbh⟩
    rw [hbh, Block.header_free hfree] at hpos
    omega

/-- The walk visits the place of a block, and finds its header there. -/
theorem Chunk.block_onWalk {size : Nat} {mem : Mem} {data o : Nat} {bs : List Block} {b : Block} (h : Chunk size mem data bs)
    (hb : (o, b) ∈ placed sizeofArena bs) : OnWalk mem data o ∧ header mem data o = b.header := by
  obtain ⟨pre, post, e, rfl⟩ := mem_placed.mp hb
  exact ⟨h.onWalk pre (b :: post) e, (h.seg.block e).2.2⟩

/-- A scan with such an outcome does what it should. -/
theorem Outcome.coalesced {size data len : Nat} {mem mem' : Mem} {pre post : List Block} {off' : Nat} {r : Option Nat}
    (h : Chunk size mem data (pre ++ post)) (ho : Outcome data len mem pre post (mem', off', r)) :
    Coalesced size data len (sizeofArena + total pre) mem mem' r := by
  cases ho with
  | null hno =>
    refine ⟨h.walk_ok, fun o hw hpos => ⟨hw, fun x _ _ => rfl⟩, rfl, fun p hp => ?_, ?_⟩
    · cases hp
    · refine iff_of_false Bool.false_ne_true ?_
      rw [h.run_iff]
      exact not_not_intro hno
  | @made _ _ mid fs rest new e hfree hnew htot hseg hframe =>
    subst e
    have hnewtot : total (⟨len, .live⟩ :: new) = total fs := by rw [total_cons, ← htot]
    have h' : Chunk size mem data ((pre ++ mid) ++ (fs ++ rest)) := by rw [List.append_assoc]; exact h
    have hchunk := h'.replace hseg hnewtot hframe
    have hplace : (sizeofArena + total (pre ++ mid), (⟨len, .live⟩ : Block)) ∈
        placed sizeofArena ((pre ++ mid) ++ ((⟨len, .live⟩ :: new) ++ rest)) :=
      mem_placed.mpr ⟨pre ++ mid, new ++ rest, rfl, rfl⟩
    refine ⟨hchunk.walk_ok, fun o hw hpos => ?_, ?_, fun p hp => ?_, ?_⟩
    · -- a used block is not among the blocks replaced, so it stands where it stood
      obtain ⟨b, hb, hne, hsize⟩ := h'.used_block hw hpos
      rw [hsize]
      rcases mem_placed_append.mp hb with hb | hb
      · have hbound := placed_bounds hb
        exact ⟨(hchunk.block_onWalk (mem_placed_append.mpr (Or.inl hb))).1, fun x _ hx => hframe x (Or.inl (by omega))⟩
      · rcases mem_placed_append.mp hb with hb | hb
        · exact absurd (hfree b (mem_of_placed hb)) hne
        · have hbound := placed_bounds hb
          have hb' : (o, b) ∈ placed (sizeofArena + total (pre ++ mid) + total (⟨len, .live⟩ :: new)) rest := by
            rw [hnewtot]
            exact hb
          have hin := mem_placed_append.mpr (Or.inr (mem_placed_append.mpr (Or.inr hb')))
          exact ⟨(hchunk.block_onWalk hin).1, fun x hx _ => hframe x (Or.inr (by omega))⟩
    · rw [hchunk.freeBytes, h'.freeBytes]
      simp only [freeTotal_append, freeTotal_cons, freeTotal_of_free hfree, freeTotal_of_free hnew, ← htot, Option.isSome_some,
        if_true, reduceCtorEq, if_false]
      omega
    · obtain rfl := Option.some.inj hp
      refine ⟨_, rfl, (hchunk.block_onWalk hplace).1, ?_, fun x hx1 hx2 => ?_⟩
      · rw [(hchunk.block_onWalk hplace).2]
        rfl
      · obtain ⟨o, b, hb, ho1, ho2⟩ := placed_cover hx1 (show x < sizeofArena + total (pre ++ mid) + total fs by omega)
        have hb' : (o, b) ∈ placed sizeofArena ((pre ++ mid) ++ (fs ++ rest)) :=
          mem_placed_append.mpr (Or.inr (mem_placed_append.mpr (Or.inl hb)))
        obtain ⟨hw, hh⟩ := h'.block_onWalk hb'
        have hb1 := h'.seg.pos b (mem_of_placed hb')
        refine ⟨o, hw, ?_, ho1, ?_⟩
        · rw [hh, Block.header_free (hfree b (mem_of_placed hb))]
          omega
        · rw [blockSize_of_header hh]
          exact ho2
    · refine iff_of_true rfl (h.run_iff.mpr fun hno => ?_)
      have := hno mid fs rest rfl hfree
      omega

end OsLabs.StrAlloc
