import OsLabs.StrAlloc.Walk
import Mathlib.Tactic.IntervalCases

/-!
# A fresh arena of any size (`stralloc.c`)

`init_chunk` counts its offset in an `unsigned int`, as the other functions of the allocator do. Here the loop is run with that offset,
and with the bytes that it writes. As long as the offset does not wrap round it is the loop over numbers (`initLoop_eq`), and the arena
is tiled with free blocks.

The offsets of the blocks are 8 more than a multiple of 127, and the last such number before `2 ^ 32` is `2 ^ 32 - 8`. In an arena that
is larger the loop goes on from there at 119, inside the first block; when the offset has wrapped round eight times it is 7, in the list
link of the arena. In an arena of `2 ^ 32` bytes the loop does not end.
-/

namespace OsLabs.StrAlloc

/-- A value of type `unsigned int`. -/
def toUnsigned (n : Nat) : Nat := n % 4294967296

/-- The loop of `init_chunk`, with the offset as an `unsigned int`: the memory, the offset at the end, and the offsets and values
written. -/
def initLoop (size ar : Nat) : Nat → Mem → Nat → Option (Mem × Nat × List (Nat × Int))
  | 0, _, _ => none
  | fuel + 1, mem, offset =>
    if toUnsigned (offset + maxBlksz) < size then
      (initLoop size ar fuel (setHeader mem ar offset (-maxBlksz)) (toUnsigned (offset + maxBlksz))).map
        fun (mem, last, ws) => (mem, last, (offset, -maxBlksz) :: ws)
    else some (mem, offset, [])

/-- `init_chunk`, with the offset as an `unsigned int`. What it stores is cut to a byte, so the sign of the difference may be taken over the
integers. -/
def initChunkIn (size ar fuel : Nat) (mem : Mem) : Option (Mem × List (Nat × Int)) :=
  match initLoop size ar fuel mem sizeofArena with
  | none => none
  | some (mem, offset, ws) =>
    let mem := setHeader mem ar offset (-(size - 1 - offset : Int))
    some (setHeader mem ar (size - 1) 0, ws ++ [(offset, -(size - 1 - offset : Int)), (size - 1, 0)])

/-- An arena after `init_chunk`: it wrote only behind the link and only values of an `int8_t`, the headers lead from free block to free
block, and the walk ends on the zero byte at the end. -/
structure Tiled (size ar : Nat) (mem : Mem) (ws : List (Nat × Int)) : Prop where
  inside : ∀ w ∈ ws, sizeofArena ≤ w.1 ∧ w.1 < size
  fits : ∀ w ∈ ws, -128 ≤ w.2 ∧ w.2 < 128
  free : ∀ off, OnWalk mem ar off → off ≠ size - 1 → off < size - 1 ∧ -127 ≤ header mem ar off ∧ header mem ar off ≤ -1
  ends : OnWalk mem ar (size - 1) ∧ header mem ar (size - 1) = 0
  check : strmemcheckWalk size mem ar size sizeofArena = .ok ()

/-! ## Without wrapping round -/

/-- The offset of a block of an arena of at most `2 ^ 32 - 8` bytes, and the next one. -/
theorem toUnsigned_next {size k : Nat} (hsize : size ≤ 4294967288) (h : sizeofArena + k * maxBlksz < size) :
    toUnsigned (sizeofArena + k * maxBlksz + maxBlksz) = sizeofArena + k * maxBlksz + maxBlksz := by
  have h' : 8 + k * 127 < size := h
  have hlt : 8 + k * 127 + 127 < 4294967296 := by omega
  exact Nat.mod_eq_of_lt hlt

/-- The loop is the loop over numbers, and it writes the largest header between its first offset and its last. -/
theorem initLoop_eq {size : Nat} (ar : Nat) (hsize : size ≤ 4294967288) (fuel k : Nat) (mem : Mem)
    (h : sizeofArena + k * maxBlksz < size) (hfuel : size - (sizeofArena + k * maxBlksz) < fuel) :
    ∃ ws, initLoop size ar fuel mem (sizeofArena + k * maxBlksz) =
        some ((initChunkLoop size mem ar (sizeofArena + k * maxBlksz)).1, (initChunkLoop size mem ar (sizeofArena + k * maxBlksz)).2, ws) ∧
      ∀ w ∈ ws, sizeofArena ≤ w.1 ∧ w.1 < size ∧ w.2 = -maxBlksz := by
  have hmax : maxBlksz = 127 := rfl
  induction fuel generalizing k mem with
  | zero => exact absurd hfuel (Nat.not_lt_zero _)
  | succ fuel ih =>
    rw [initLoop, initChunkLoop, toUnsigned_next hsize h]
    by_cases hlt : sizeofArena + k * maxBlksz + maxBlksz < size
    · have hk : sizeofArena + k * maxBlksz + maxBlksz = sizeofArena + (k + 1) * maxBlksz := by
        rw [Nat.succ_mul, Nat.add_assoc]
      rw [if_pos hlt, if_pos hlt, hk]
      obtain ⟨ws, hws, hin⟩ := ih (k + 1) (setHeader mem ar (sizeofArena + k * maxBlksz) (-maxBlksz)) (hk ▸ hlt) (by omega)
      refine ⟨(sizeofArena + k * maxBlksz, -maxBlksz) :: ws, by rw [hws]; rfl, fun w hw => ?_⟩
      rcases List.mem_cons.mp hw with rfl | hw
      · exact ⟨Nat.le_add_right _ _, h, rfl⟩
      · exact hin w hw
    · rw [if_neg hlt, if_neg hlt]
      exact ⟨[], rfl, fun w hw => absurd hw List.not_mem_nil⟩

/-- So `init_chunk` is what it is over numbers, and its writes are inside the arena. -/
theorem initChunkIn_eq {size : Nat} (ar : Nat) (mem : Mem) (h9 : sizeofArena < size) (hsize : size ≤ 4294967288) :
    ∃ ws, initChunkIn size ar size mem = some (initChunk size mem ar, ws) ∧
      ∀ w ∈ ws, (sizeofArena ≤ w.1 ∧ w.1 < size) ∧ -128 ≤ w.2 ∧ w.2 < 128 := by
  have hmax : maxBlksz = 127 := rfl
  have h8 : sizeofArena = 8 := rfl
  have h0 : sizeofArena + 0 * maxBlksz = sizeofArena := by rw [Nat.zero_mul, Nat.add_zero]
  obtain ⟨ws, hws, hin⟩ := initLoop_eq ar hsize size 0 mem (by rw [h0]; exact h9) (by omega)
  obtain ⟨k, hoff, hlt, hle, -, -⟩ := initChunkLoop_spec size mem ar sizeofArena h9
  rw [h0] at hws
  rw [initChunkIn, hws, initChunk]
  refine ⟨_, rfl, fun w hw => ?_⟩
  rw [hoff] at hw
  rcases List.mem_append.mp hw with hw | hw
  · obtain ⟨h1, h2, h3⟩ := hin w hw
    rw [h3, hmax]
    exact ⟨⟨h1, h2⟩, by decide, by decide⟩
  · rcases List.mem_cons.mp hw with rfl | hw
    · dsimp only
      omega
    · rw [List.mem_singleton.mp hw]
      dsimp only
      omega

/-! ## Wrapping round -/

/-- An arena of at least `2 ^ 32` bytes: every offset is before its end. -/
theorem initLoop_diverges {size : Nat} (ar : Nat) (hsize : 4294967296 ≤ size) (fuel : Nat) (mem : Mem) (offset : Nat) :
    initLoop size ar fuel mem offset = none := by
  induction fuel generalizing mem offset with
  | zero => rfl
  | succ fuel ih =>
    have hlt : toUnsigned (offset + maxBlksz) < size := (Nat.mod_lt _ (by decide)).trans_le hsize
    rw [initLoop, if_pos hlt, ih]
    rfl

/-- One round of the loop. -/
theorem initLoop_round {size ar fuel offset last : Nat} {mem mem' : Mem} {ws : List (Nat × Int)}
    (hrun : initLoop size ar fuel mem (toUnsigned offset) = some (mem', last, ws)) (hgo : toUnsigned (offset + maxBlksz) < size) :
    ∃ fuel' mem₁ rest, ws = (toUnsigned offset, (-maxBlksz : Int)) :: rest ∧
      initLoop size ar fuel' mem₁ (toUnsigned (offset + maxBlksz)) = some (mem', last, rest) := by
  have hnext : toUnsigned (toUnsigned offset + maxBlksz) = toUnsigned (offset + maxBlksz) := Nat.mod_add_mod _ _ _
  cases fuel with
  | zero => cases hrun
  | succ fuel =>
    rw [initLoop, hnext, if_pos hgo] at hrun
    obtain ⟨⟨mem₂, last₂, rest⟩, hrest, hout⟩ := Option.map_eq_some_iff.mp hrun
    obtain ⟨rfl, rfl, rfl⟩ : mem₂ = mem' ∧ last₂ = last ∧ (toUnsigned offset, (-maxBlksz : Int)) :: rest = ws := by
      simpa using hout
    exact ⟨fuel, _, rest, rfl, hrest⟩

/-- The loop writes at every offset it comes to, by induction on the rounds. -/
theorem initLoop_writes {size ar last : Nat} {mem' : Mem} (n : Nat) :
    ∀ {fuel offset : Nat} {mem : Mem} {ws : List (Nat × Int)},
      initLoop size ar fuel mem (toUnsigned offset) = some (mem', last, ws) →
      (∀ i, i ≤ n → toUnsigned (offset + (i + 1) * maxBlksz) < size) → ∃ v, (toUnsigned (offset + n * maxBlksz), v) ∈ ws := by
  induction n with
  | zero =>
    intro fuel offset mem ws hrun hgo
    have hfirst := hgo 0 le_rfl
    rw [Nat.zero_add, Nat.one_mul] at hfirst
    obtain ⟨_, _, rest, rfl, -⟩ := initLoop_round hrun hfirst
    rw [Nat.zero_mul, Nat.add_zero]
    exact ⟨_, List.mem_cons_self⟩
  | succ n ih =>
    intro fuel offset mem ws hrun hgo
    have hfirst := hgo 0 (Nat.zero_le _)
    rw [Nat.zero_add, Nat.one_mul] at hfirst
    obtain ⟨_, _, rest, rfl, hrest⟩ := initLoop_round hrun hfirst
    have hshift : ∀ j, offset + (j + 1) * maxBlksz = offset + maxBlksz + j * maxBlksz := fun j => by
      rw [Nat.succ_mul, Nat.add_comm (j * maxBlksz), Nat.add_assoc]
    obtain ⟨v, hv⟩ := ih hrest fun i hi => hshift (i + 1) ▸ hgo (i + 1) (Nat.succ_le_succ hi)
    exact ⟨v, List.mem_cons_of_mem _ (hshift n ▸ hv)⟩

/-- An arena of more than `2 ^ 32 - 8` bytes: if the loop ends it has wrapped round eight times and come to the offset 7. -/
theorem initLoop_link {size ar fuel last : Nat} {mem mem' : Mem} {ws : List (Nat × Int)} (hsize : 4294967288 < size)
    (hrun : initLoop size ar fuel mem sizeofArena = some (mem', last, ws)) : ∃ v, (7, v) ∈ ws := by
  have hgo : ∀ i, i ≤ 270549121 → toUnsigned (sizeofArena + (i + 1) * maxBlksz) < size := by
    intro i hi
    refine Nat.lt_of_le_of_lt ?_ hsize
    show (8 + (i + 1) * 127) % 4294967296 ≤ 4294967288
    -- in none of the rounds is the offset one of the last seven numbers
    have hround := Nat.div_add_mod (8 + (i + 1) * 127) 4294967296
    have hq : (8 + (i + 1) * 127) / 4294967296 ≤ 8 := by omega
    generalize (8 + (i + 1) * 127) / 4294967296 = q at hround hq
    interval_cases q <;> omega
  have h7 : toUnsigned (sizeofArena + 270549121 * maxBlksz) = 7 := by norm_num [toUnsigned, sizeofArena, maxBlksz, maxLength]
  have hstart : toUnsigned sizeofArena = sizeofArena := rfl
  rw [← hstart] at hrun
  obtain ⟨v, hv⟩ := initLoop_writes 270549121 hrun hgo
  exact ⟨v, h7 ▸ hv⟩

/-- `init_chunk` ends and tiles the arena exactly when the arena has at most `2 ^ 32 - 8` bytes. -/
theorem init_chunk_tiles_iff (size ar : Nat) (mem : Mem) (h9 : sizeofArena + 1 ≤ size) :
    (∃ fuel mem' ws, initChunkIn size ar fuel mem = some (mem', ws) ∧ Tiled size ar mem' ws) ↔ size ≤ 4294967288 := by
  constructor
  · rintro ⟨fuel, mem', ws, hrun, ht⟩
    by_contra hbig
    rw [initChunkIn] at hrun
    cases hloop : initLoop size ar fuel mem sizeofArena with
    | none =>
      rw [hloop] at hrun
      cases hrun
    | some r =>
      obtain ⟨mem₁, last, ws₁⟩ := r
      rw [hloop] at hrun
      cases hrun
      -- the list link is overwritten
      obtain ⟨v, hv⟩ := initLoop_link (not_le.mp hbig) hloop
      have h8 : sizeofArena ≤ 7 := (ht.inside (7, v) (List.mem_append_left _ hv)).1
      exact absurd h8 (by decide)
  · intro hsize
    obtain ⟨ws, hrun, hws⟩ := initChunkIn_eq ar mem h9 hsize
    obtain ⟨bs, hchunk, -, hfree, -, -⟩ := initChunk_spec mem ar h9
    have hlen := hchunk.seg.length_le
    have hends := hchunk.ends
    refine ⟨size, _, ws, hrun, fun w hw => (hws w hw).1, fun w hw => (hws w hw).2, fun off hoff hne => ?_, ⟨?_, hchunk.zero⟩, ?_⟩
    · obtain ⟨pre, post, hsplit, rfl⟩ := hchunk.of_onWalk hoff
      cases post with
      | nil =>
        rw [List.append_nil] at hsplit
        exact absurd (hsplit ▸ hends) hne
      | cons b post =>
        obtain ⟨h1, h127, hh⟩ := hchunk.seg.block hsplit
        have hmax : maxBlksz = 127 := rfl
        rw [hh, Block.header_free (hfree b (hsplit ▸ List.mem_append_right _ List.mem_cons_self))]
        rw [hsplit, total_append, total_cons] at hends
        omega
    · have hlast := hchunk.onWalk bs [] (List.append_nil bs).symm
      rwa [hends] at hlast
    · exact strmemcheckWalk_ok hchunk.zero bs sizeofArena size hchunk.seg hends (by omega)

/-- The witness: an arena of one page. -/
theorem init_chunk_tiles_page : sizeofArena + 1 ≤ 4096 ∧
    ((∃ fuel mem' ws, initChunkIn 4096 0 fuel (fun _ => 0) = some (mem', ws) ∧ Tiled 4096 0 mem' ws) ↔ 4096 ≤ 4294967288) :=
  ⟨by decide, init_chunk_tiles_iff 4096 0 (fun _ => 0) (by decide)⟩

/-- An arena of `2 ^ 32` bytes: `init_chunk` does not return. -/
theorem init_chunk_huge : ¬ ∀ (size ar : Nat) (mem : Mem), sizeofArena + 1 ≤ size →
    ∃ fuel mem' ws, initChunkIn size ar fuel mem = some (mem', ws) ∧ Tiled size ar mem' ws := by
  intro h
  obtain ⟨fuel, mem', ws, hrun, -⟩ := h 4294967296 0 (fun _ => 0) (by decide)
  rw [initChunkIn, initLoop_diverges 0 le_rfl] at hrun
  cases hrun

end OsLabs.StrAlloc
