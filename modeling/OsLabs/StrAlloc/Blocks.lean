import OsLabs.StrAlloc.Model
import Mathlib.Algebra.BigOperators.Group.List.Basic
import Mathlib.Algebra.Order.Ring.Nat
import Mathlib.Data.List.Chain

/-!
# The blocks of an arena

An arena is read as a list of blocks: free, live (handed to the client and not freed since) or lost (stored with a positive
header when a block was split, and handed to nobody). `Seg` says that a piece of memory holds the headers of a list of blocks,
`Chunk` that a whole arena does. In an arena the allocator has worked on, two neighbours of which neither is lost are a block of
the largest size and whatever follows it (`Spaced`); this is why the scan never merges two free blocks.
-/

namespace OsLabs.StrAlloc

/-- What a block is used for. -/
inductive Status where
  | free | live | lost
  deriving DecidableEq, Repr

/-- A block: its size with the header, and its status. -/
structure Block where
  size : Nat
  status : Status
  deriving DecidableEq, Repr

/-- The header of a block. -/
def Block.header (b : Block) : Int := if b.status = .free then -b.size else b.size

/-- The bytes that a list of blocks takes. -/
def total (bs : List Block) : Nat := (bs.map Block.size).sum

@[simp] theorem total_nil : total [] = 0 := rfl

@[simp] theorem total_cons (b : Block) (bs : List Block) : total (b :: bs) = b.size + total bs := by
  simp [total]

@[simp] theorem total_append (bs cs : List Block) : total (bs ++ cs) = total bs + total cs := by
  simp [total]

/-- From the offset `off` on, `data` holds the headers of the blocks `bs`, each of a size that a header can store. -/
def Seg (mem : Mem) (data : Nat) : Nat → List Block → Prop
  | _, [] => True
  | off, b :: bs => (1 ≤ b.size ∧ b.size ≤ maxBlksz ∧ header mem data off = b.header) ∧ Seg mem data (off + b.size) bs

/-- The arena at `data` holds the blocks `bs` and the zero byte at its end. -/
structure Chunk (size : Nat) (mem : Mem) (data : Nat) (bs : List Block) : Prop where
  seg : Seg mem data sizeofArena bs
  ends : sizeofArena + total bs = size - 1
  zero : header mem data (size - 1) = 0

/-- Two neighbours are spaced when one of them is lost or the first one has the largest size. -/
def Spaced (b c : Block) : Prop := b.status = .lost ∨ c.status = .lost ∨ b.size = maxBlksz

/-! ## Reading a segment -/

theorem seg_append {mem : Mem} {data off : Nat} {bs cs : List Block} :
    Seg mem data off (bs ++ cs) ↔ Seg mem data off bs ∧ Seg mem data (off + total bs) cs := by
  induction bs generalizing off with
  | nil => simp [Seg]
  | cons b bs ih =>
    simp only [List.cons_append, Seg, ih, total_cons, Nat.add_assoc]
    tauto

/-- A block of a segment. -/
theorem Seg.block {mem : Mem} {data off : Nat} {bs pre post : List Block} {b : Block} (h : Seg mem data off bs)
    (e : bs = pre ++ b :: post) : 1 ≤ b.size ∧ b.size ≤ maxBlksz ∧ header mem data (off + total pre) = b.header := by
  subst e
  exact (seg_append.mp h).2.1

/-- The blocks of a segment are not empty. -/
theorem Seg.pos {mem : Mem} {data off : Nat} {bs : List Block} (h : Seg mem data off bs) : ∀ b ∈ bs, 1 ≤ b.size := by
  intro b hb
  obtain ⟨pre, post, e⟩ := List.append_of_mem hb
  exact (h.block e).1

/-- A segment only depends on its headers. -/
theorem seg_congr {mem mem' : Mem} {data off : Nat} {bs : List Block}
    (h : ∀ pre b post, bs = pre ++ b :: post → mem' (data + (off + total pre)) = mem (data + (off + total pre)))
    (hs : Seg mem data off bs) : Seg mem' data off bs := by
  induction bs generalizing off with
  | nil => trivial
  | cons b bs ih =>
    obtain ⟨⟨h1, h2, h3⟩, hrest⟩ := hs
    refine ⟨⟨h1, h2, ?_⟩, ih ?_ hrest⟩
    · have := h [] b bs rfl
      simp only [total_nil, Nat.add_zero] at this
      rw [header, this]
      exact h3
    · intro pre c post e
      have := h (b :: pre) c post (by rw [e]; rfl)
      simpa only [total_cons, Nat.add_assoc] using this

/-- A segment is kept by every change of the memory outside it. -/
theorem seg_frame {mem mem' : Mem} {data off : Nat} {bs : List Block}
    (h : ∀ x, data + off ≤ x → x < data + (off + total bs) → mem' x = mem x) (hs : Seg mem data off bs) :
    Seg mem' data off bs := by
  refine seg_congr (fun pre b post e => h _ (by omega) ?_) hs
  have := (hs.block e).1
  simp only [e, total_append, total_cons]
  omega

/-! ## Headers -/

theorem header_setHeader_self {mem : Mem} {data off : Nat} {v : Int} (h1 : -128 ≤ v) (h2 : v < 128) :
    header (setHeader mem data off v) data off = v := by
  rw [header, setHeader, Mem.store_self, toInt_ofInt8 h1 h2]

theorem header_setHeader_ne {mem : Mem} {data off off' : Nat} (v : Int) (h : off' ≠ off) :
    header (setHeader mem data off v) data off' = header mem data off' := by
  rw [header, header, setHeader, Mem.store_ne _ _ (by omega)]

theorem setHeader_apply_ne {mem : Mem} {data off x : Nat} (v : Int) (h : x ≠ data + off) :
    setHeader mem data off v x = mem x :=
  Mem.store_ne _ _ h

/-- The size read back from a header is the size of the block. -/
theorem blockSize_of_header {mem : Mem} {data off : Nat} {b : Block} (h : header mem data off = b.header) :
    blockSize mem data off = b.size := by
  rw [blockSize, h, Block.header]
  split <;> simp

/-- A block that is not free has a positive header. -/
theorem Block.header_pos {b : Block} (h1 : 1 ≤ b.size) (h : b.status ≠ .free) : 0 < b.header := by
  rw [Block.header, if_neg h]
  omega

/-- A free block has a negative header. -/
theorem Block.header_free {b : Block} (h : b.status = .free) : b.header = -b.size := by
  rw [Block.header, if_pos h]

/-! ## The scan of `alloc_block` -/

/-- A block that can serve a request of `len` bytes. -/
def Block.Fits (len : Nat) (b : Block) : Prop := b.status = .free ∧ len ≤ b.size

instance (len : Nat) (b : Block) : Decidable (b.Fits len) := inferInstanceAs (Decidable (_ ∧ _))

/-- The memory after a request of `len` bytes is served from the free block `b` at `off`. -/
def place (mem : Mem) (data off len : Nat) (b : Block) : Mem :=
  if b.size = len then setHeader mem data off len
  else setHeader (setHeader mem data off len) data (off + len) (b.size - len : Int)

/-- The blocks that then stand where `b` stood: the live one, and what is split off. -/
def Block.split (len : Nat) (b : Block) : List Block :=
  ⟨len, .live⟩ :: if b.size = len then [] else [⟨b.size - len, .lost⟩]

/-- The scan passes a block that does not fit, as long as it is not a small free block in front of another free one. -/
theorem allocBlock_skip {mem : Mem} {data len off fuel : Nat} {b : Block} (hlen : len ≤ maxBlksz) (h1 : 1 ≤ b.size)
    (hh : header mem data off = b.header) (hfit : ¬ b.Fits len)
    (hnext : b.status = .free → b.size = maxBlksz ∨ 0 ≤ header mem data (off + b.size)) :
    allocBlock data len (fuel + 1) mem off = allocBlock data len fuel mem (off + b.size) := by
  have hsize := blockSize_of_header hh
  rw [allocBlock]
  by_cases hfree : b.status = .free
  · have hneg := Block.header_free hfree
    have hlt : b.size < len := Nat.lt_of_not_le fun h => hfit ⟨hfree, h⟩
    have hnonneg : 0 ≤ header mem data (off + b.size) := (hnext hfree).resolve_left (by omega)
    simp only [hsize, hh, nextHeader]
    rw [if_neg (by omega), if_neg (by omega), if_neg (by omega), if_neg (by omega), if_pos (by omega)]
  · have hpos := Block.header_pos h1 hfree
    simp only [hsize, hh]
    rw [if_neg (by omega), if_pos (by omega)]

/-- The scan takes the first block that fits. -/
theorem allocBlock_take {mem : Mem} {data off : Nat} (len fuel : Nat) {b : Block} (hlen : len ≤ maxBlksz)
    (h1 : 1 ≤ b.size) (hmax : b.size ≤ maxBlksz) (hh : header mem data off = b.header) (hfit : b.Fits len) :
    allocBlock data len (fuel + 1) mem off = some (place mem data off len b, off, some (data + off + 1)) := by
  obtain ⟨hfree, hle⟩ := hfit
  have hsize := blockSize_of_header hh
  have hneg := Block.header_free hfree
  have hmax' : maxBlksz = 127 := rfl
  rw [allocBlock, place]
  simp only [hsize, hh]
  rw [if_neg (by omega), if_neg (by omega)]
  by_cases he : b.size = len
  · rw [if_pos he, if_pos he, hneg, he]
    simp
  · rw [if_neg he, if_pos (by omega), if_neg he]
    have hback : blockSize (setHeader mem data off len) data off = len := by
      rw [blockSize, header_setHeader_self (by omega) (by omega)]
      simp
    rw [hback]

/-- The scan passes all blocks of a spaced segment that do not fit. -/
theorem allocBlock_skips {mem : Mem} {data len : Nat} (fuel : Nat) (hlen : len ≤ maxBlksz) (rest : List Block) :
    ∀ (pre : List Block) (off : Nat), Seg mem data off (pre ++ rest) → (pre ++ rest).IsChain Spaced →
      header mem data (off + total (pre ++ rest)) = 0 → (∀ b ∈ pre, ¬ b.Fits len) →
      allocBlock data len (pre.length + fuel) mem off = allocBlock data len fuel mem (off + total pre) := by
  intro pre
  induction pre with
  | nil =>
    intro off _ _ _ _
    simp
  | cons b pre ih =>
    intro off hseg hchain hzero hfit
    rw [List.cons_append] at hseg hchain hzero
    obtain ⟨⟨h1, -, hh⟩, hrest⟩ := hseg
    have hnext : b.status = .free → b.size = maxBlksz ∨ 0 ≤ header mem data (off + b.size) := by
      intro hfree
      cases hpr : pre ++ rest with
      | nil =>
        right
        simp only [hpr, total_cons, total_nil, Nat.add_zero] at hzero
        omega
      | cons c cs =>
        rw [hpr] at hrest hchain
        rcases (List.isChain_cons_cons.mp hchain).1 with h | h | h
        · rw [hfree] at h
          cases h
        · right
          obtain ⟨⟨hc1, -, hch⟩, -⟩ := hrest
          have := Block.header_pos hc1 (by rw [h]; nofun)
          omega
        · exact Or.inl h
    have hstep : allocBlock data len (pre.length + fuel + 1) mem off =
        allocBlock data len (pre.length + fuel) mem (off + b.size) :=
      allocBlock_skip hlen h1 hh (hfit b List.mem_cons_self) hnext
    have htail : (pre ++ rest).IsChain Spaced := hchain.tail
    rw [List.length_cons, show pre.length + 1 + fuel = pre.length + fuel + 1 by omega, hstep,
      ih (off + b.size) hrest htail (by rw [Nat.add_assoc, ← total_cons]; exact hzero)
        (fun c hc => hfit c (List.mem_cons_of_mem b hc)), total_cons, Nat.add_assoc]

/-- When no block from the cursor on fits, the scan stops at the zero byte and changes nothing. -/
theorem allocBlock_none {mem : Mem} {data len off fuel : Nat} {bs : List Block} (hlen : len ≤ maxBlksz)
    (hseg : Seg mem data off bs) (hchain : bs.IsChain Spaced) (hzero : header mem data (off + total bs) = 0)
    (hfit : ∀ b ∈ bs, ¬ b.Fits len) (hfuel : bs.length < fuel) :
    allocBlock data len fuel mem off = some (mem, off + total bs, none) := by
  have h := allocBlock_skips (fuel - bs.length) hlen [] bs off (by simpa using hseg)
    (by simpa using hchain) (by simpa using hzero) hfit
  rw [show bs.length + (fuel - bs.length) = fuel by omega] at h
  rw [h, show fuel - bs.length = fuel - bs.length - 1 + 1 by omega, allocBlock]
  simp only [hzero, if_true]

/-- When some block from the cursor on fits, the scan serves the request from the first one. -/
theorem allocBlock_some {mem : Mem} {data len off fuel : Nat} {pre post : List Block} {b : Block}
    (hlen : len ≤ maxBlksz) (hseg : Seg mem data off (pre ++ b :: post)) (hchain : (pre ++ b :: post).IsChain Spaced)
    (hzero : header mem data (off + total (pre ++ b :: post)) = 0) (hpre : ∀ c ∈ pre, ¬ c.Fits len) (hfit : b.Fits len)
    (hfuel : pre.length < fuel) :
    allocBlock data len fuel mem off =
      some (place mem data (off + total pre) len b, off + total pre, some (data + (off + total pre) + 1)) := by
  have h := allocBlock_skips (fuel - pre.length) hlen _ pre off hseg hchain hzero hpre
  obtain ⟨⟨h1, hmax, hh⟩, -⟩ := (seg_append.mp hseg).2
  rw [show pre.length + (fuel - pre.length) = fuel by omega] at h
  rw [h, show fuel - pre.length = fuel - pre.length - 1 + 1 by omega, allocBlock_take _ _ hlen h1 hmax hh hfit]

/-- Either no block of a list fits, or there is a first one that does. -/
theorem first_fit (len : Nat) (bs : List Block) :
    (∀ b ∈ bs, ¬ b.Fits len) ∨
      ∃ pre b post, bs = pre ++ b :: post ∧ (∀ c ∈ pre, ¬ c.Fits len) ∧ b.Fits len := by
  induction bs with
  | nil => exact Or.inl (by simp)
  | cons b bs ih =>
    by_cases hb : b.Fits len
    · exact Or.inr ⟨[], b, bs, rfl, by simp, hb⟩
    · rcases ih with h | ⟨pre, c, post, e, hpre, hc⟩
      · exact Or.inl (List.forall_mem_cons.mpr ⟨hb, h⟩)
      · exact Or.inr ⟨b :: pre, c, post, by rw [e]; rfl, List.forall_mem_cons.mpr ⟨hb, hpre⟩, hc⟩

/-! ## Changing one block of an arena -/

/-- A chain stays one when an element is replaced by one that has the same neighbours. -/
theorem isChain_replace {α : Type} {R : α → α → Prop} {pre post : List α} {b b' : α} (h : (pre ++ b :: post).IsChain R)
    (h1 : ∀ a, R a b → R a b') (h2 : ∀ c, R b c → R b' c) : (pre ++ b' :: post).IsChain R := by
  rw [List.isChain_append] at h ⊢
  obtain ⟨hpre, hpost, hj⟩ := h
  refine ⟨hpre, ?_, fun x hx y hy => ?_⟩
  · rw [List.isChain_cons] at hpost ⊢
    exact ⟨fun y hy => h2 y (hpost.1 y hy), hpost.2⟩
  · obtain rfl : b' = y := by simpa using hy
    exact h1 x (hj x hx b (by simp))

/-- Giving a block another status keeps the spacing, as long as neither status is lost. -/
theorem isChain_status {pre post : List Block} {b : Block} (st : Status) (h : (pre ++ b :: post).IsChain Spaced)
    (hb : b.status ≠ .lost) : (pre ++ { b with status := st } :: post).IsChain Spaced := by
  refine isChain_replace h ?_ ?_
  · rintro a (h | h | h)
    · exact Or.inl h
    · exact absurd h hb
    · exact Or.inr (Or.inr h)
  · rintro c (h | h | h)
    · exact absurd h hb
    · exact Or.inr (Or.inl h)
    · exact Or.inr (Or.inr h)

/-- Splitting a free block keeps the spacing: the rest is lost. -/
theorem isChain_split_block {pre post : List Block} {b : Block} {len : Nat} (h : (pre ++ b :: post).IsChain Spaced)
    (hb : b.status = .free) : (pre ++ (b.split len ++ post)).IsChain Spaced := by
  have hne : b.status ≠ .lost := by rw [hb]; nofun
  unfold Block.split
  by_cases he : b.size = len
  · rw [if_pos he, ← he]
    exact isChain_status .live h hne
  · rw [if_neg he]
    rw [List.isChain_append] at h
    obtain ⟨hpre, hpost, hj⟩ := h
    have hlost : ((⟨b.size - len, .lost⟩ : Block) :: post).IsChain Spaced :=
      List.isChain_cons.mpr ⟨fun _ _ => Or.inl rfl, (List.isChain_cons.mp hpost).2⟩
    refine hpre.append (List.isChain_cons_cons.mpr ⟨Or.inr (Or.inl rfl), hlost⟩) fun x hx y hy => ?_
    obtain rfl : (⟨len, .live⟩ : Block) = y := by simpa using hy
    rcases hj x hx b (by simp) with h | h | h
    · exact Or.inl h
    · exact absurd h hne
    · exact Or.inr (Or.inr h)

/-- The split keeps the bytes of the block. -/
theorem total_split {len : Nat} {b : Block} (h : len ≤ b.size) : total (b.split len) = b.size := by
  unfold Block.split
  split
  · simp only [total_cons, total_nil]
    omega
  · simp only [total_cons, total_nil]
    omega

/-- A request changes only bytes of the block that serves it. -/
theorem place_apply {mem : Mem} {data off len x : Nat} {b : Block} (hle : len ≤ b.size) (hpos : 1 ≤ b.size)
    (hx : x < data + off ∨ data + (off + b.size) ≤ x) : place mem data off len b x = mem x := by
  unfold place
  split
  · exact setHeader_apply_ne _ (by omega)
  · rw [setHeader_apply_ne _ (by omega), setHeader_apply_ne _ (by omega)]

/-- After a request the arena holds the split block where the free one stood. -/
theorem Chunk.place {size : Nat} {mem : Mem} {data len : Nat} {pre post : List Block} {b : Block}
    (h : Chunk size mem data (pre ++ b :: post)) (h1 : 1 ≤ len) (hle : len ≤ b.size) :
    Chunk size (place mem data (sizeofArena + total pre) len b) data (pre ++ (b.split len ++ post)) := by
  obtain ⟨hseg, hends, hzero⟩ := h
  obtain ⟨hpre, ⟨hb1, hbmax, hbh⟩, hpost⟩ := seg_append.mp hseg
  have hmax : maxBlksz = 127 := rfl
  simp only [total_append, total_cons] at hends
  refine ⟨seg_append.mpr ⟨?_, seg_append.mpr ⟨?_, ?_⟩⟩, ?_, ?_⟩
  · exact seg_frame (fun x _ hx => place_apply hle hb1 (Or.inl (by omega))) hpre
  · unfold StrAlloc.place Block.split
    by_cases he : b.size = len
    · rw [if_pos he, if_pos he]
      refine ⟨⟨h1, show len ≤ maxBlksz by omega, ?_⟩, trivial⟩
      exact header_setHeader_self (by omega) (by omega)
    · rw [if_neg he, if_neg he]
      refine ⟨⟨h1, show len ≤ maxBlksz by omega, ?_⟩,
        ⟨show 1 ≤ b.size - len by omega, show b.size - len ≤ maxBlksz by omega, ?_⟩, trivial⟩
      · rw [header_setHeader_ne _ (by omega)]
        exact header_setHeader_self (by omega) (by omega)
      · rw [header_setHeader_self (by omega) (by omega)]
        simp only [Block.header, reduceCtorEq, if_false]
        omega
  · rw [total_split hle]
    exact seg_frame (fun x hx _ => place_apply hle hb1 (Or.inr (by omega))) hpost
  · simp only [total_append, total_split hle]
    omega
  · rw [header, place_apply hle hb1 (Or.inr (by omega))]
    exact hzero

/-- Storing the header of a block with another status changes only the status. -/
theorem Chunk.setStatus {size : Nat} {mem : Mem} {data : Nat} {pre post : List Block} {b : Block} (st : Status)
    (h : Chunk size mem data (pre ++ b :: post)) :
    Chunk size (setHeader mem data (sizeofArena + total pre) ({ b with status := st } : Block).header) data
      (pre ++ { b with status := st } :: post) := by
  obtain ⟨hseg, hends, hzero⟩ := h
  obtain ⟨hpre, ⟨hb1, hbmax, hbh⟩, hpost⟩ := seg_append.mp hseg
  have hmax : maxBlksz = 127 := rfl
  simp only [total_append, total_cons] at hends
  refine ⟨seg_append.mpr ⟨?_, ⟨hb1, hbmax, ?_⟩, ?_⟩, ?_, ?_⟩
  · exact seg_frame (fun x _ hx => setHeader_apply_ne _ (by omega)) hpre
  · apply header_setHeader_self <;> simp only [Block.header] <;> split <;> omega
  · exact seg_frame (fun x hx _ => setHeader_apply_ne _ (by simp only at hx; omega)) hpost
  · simp only [total_append, total_cons]
    omega
  · rw [header_setHeader_ne _ (by omega)]
    exact hzero

/-- A store into the payload of a block, or outside the arena, keeps the blocks. -/
theorem Chunk.store {size : Nat} {mem : Mem} {data x : Nat} {bs : List Block} (c : Byte) (h : Chunk size mem data bs)
    (hx : ∀ pre b post, bs = pre ++ b :: post → x ≠ data + (sizeofArena + total pre)) (hend : x ≠ data + (size - 1)) :
    Chunk size (mem.store x c) data bs := by
  refine ⟨seg_congr (fun pre b post e => Mem.store_ne _ _ (Ne.symm (hx pre b post e))) h.seg, h.ends, ?_⟩
  rw [header, Mem.store_ne _ _ (Ne.symm hend)]
  exact h.zero

/-- Blocks of an arena are kept by every change of the memory outside it. -/
theorem Chunk.frame {size : Nat} {mem mem' : Mem} {data : Nat} {bs : List Block} (h : Chunk size mem data bs)
    (hsize : sizeofArena < size) (heq : ∀ x, data + sizeofArena ≤ x → x < data + size → mem' x = mem x) :
    Chunk size mem' data bs := by
  have hends := h.ends
  refine ⟨seg_frame (fun x h1 h2 => heq x h1 (by omega)) h.seg, h.ends, ?_⟩
  rw [header, heq _ (by omega) (by omega)]
  exact h.zero

end OsLabs.StrAlloc
