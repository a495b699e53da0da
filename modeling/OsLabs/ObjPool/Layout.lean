import OsLabs.ObjPool.Pool
import Mathlib.Order.Interval.Set.Basic
import Mathlib.Data.Set.Lattice
import Mathlib.Order.CompletePartialOrder

/-!
# The layout that `init_arena` computes, for every `ARENA_SIZE`

`bitstr_size` rounds the size of the bitmap up, but `level1_size` and `level2_size` are quotients rounded down. So the regions
never overlap and the bitmap has a bit for every item, but a level can be too short for the one below it. `layout_sound_iff` says
for which sizes this does not happen.
-/

namespace OsLabs.ObjPool

/-- The addresses of a region of `n` bytes at `offset` in the bitmap of an arena. -/
def region (ar offset n : Nat) : Set Nat := Set.Ico (bitmap ar + offset) (bitmap ar + offset + n)

/-- The regions of the three levels, in the arena at `ar`. -/
def level2Region (size ar : Nat) : Set Nat := region ar level2Offset (level2Size size)

@[inherit_doc level2Region]
def level1Region (size ar : Nat) : Set Nat := region ar (level1Offset size) (level1Size size)

@[inherit_doc level2Region]
def bitmapRegion (size ar : Nat) : Set Nat := region ar (bitmapOffset size) (bitmapSize size)

/-- The layout of the arena at `ar` is sound: the levels are apart from each other and before the items, each has a bit for
everything below it that holds an item, and the items reach to the end of the arena. -/
structure LayoutSound (size : Nat) (mem : Mem) (ar : Nat) : Prop where
  apart21 : Disjoint (level2Region size ar) (level1Region size ar)
  apart20 : Disjoint (level2Region size ar) (bitmapRegion size ar)
  apart10 : Disjoint (level1Region size ar) (bitmapRegion size ar)
  before2 : ∀ x ∈ level2Region size ar, x < items mem ar
  before1 : ∀ x ∈ level1Region size ar, x < items mem ar
  before0 : ∀ x ∈ bitmapRegion size ar, x < items mem ar
  level0 : nitems mem ar ≤ 8 * bitmapSize size
  level1 : bitstrSize (nitems mem ar) ≤ 8 * level1Size size
  level2 : bitstrSize (bitstrSize (nitems mem ar)) ≤ 8 * level2Size size
  endsAt : items mem ar + nitems mem ar * sizeofObject = ar + size

/-- Regions that follow each other are disjoint. -/
theorem region_disjoint {ar o n o' n' : Nat} (h : o + n ≤ o') : Disjoint (region ar o n) (region ar o' n') := by
  refine Set.disjoint_left.mpr fun x hx hx' => ?_
  have h1 := hx.2
  have h2 := hx'.1
  omega

/-- The sizes that do not depend on the rounding: the items have the room that the levels leave. -/
theorem items_room (size : Nat) (hsize : sizeofArena + sizeofObject ≤ size) :
    sizeofArena + (level2Size size + level1Size size + bitmapSize size) + itemCount size * sizeofObject ≤ size := by
  have hA : sizeofArena = 32 := rfl
  have hO : sizeofObject = 32 := rfl
  unfold itemCount level2Size level1Size bitmapSize bitstrSize
  rw [hA, hO] at hsize ⊢
  omega

/-- The bitmap has a bit for every item. -/
theorem itemCount_le_bits (size : Nat) : itemCount size ≤ 8 * bitmapSize size := by
  have hA : sizeofArena = 32 := rfl
  have hO : sizeofObject = 32 := rfl
  unfold itemCount level2Size level1Size bitmapSize bitstrSize
  rw [hA, hO]
  omega

/-- What `init_arena` stores in the header. -/
theorem initArena_header {size ar : Nat} (mem : Mem) (har : ar + size ≤ 2 ^ 47) :
    nitems (initArena size mem ar) ar = itemCount size ∧ items (initArena size mem ar) ar = itemsAt size ar := by
  have hcount : itemCount size < 256 ^ 8 := by
    have hle : itemCount size ≤ size := by
      unfold itemCount
      exact (Nat.div_le_self _ _).trans (by omega)
    omega
  have haddr : ar + size - itemCount size * sizeofObject < 256 ^ 8 := by omega
  constructor
  · simp only [nitems, initArena]
    rw [Mem.read_write_ne _ _ (by omega), Mem.read_write_ne _ _ (by omega), Mem.read_write _ hcount]
  · simp only [items, initArena]
    rw [Mem.read_write _ haddr]
    rfl

theorem one_le_bitstrSize (n : Nat) : 1 ≤ bitstrSize n := by
  unfold bitstrSize
  omega

/-- The bytes of a bitmap fit in the bits of a level exactly when its bits do, eight for each. -/
theorem bitstrSize_le_iff {n k : Nat} (hn : 1 ≤ n) : bitstrSize n ≤ k ↔ n ≤ 8 * k := by
  unfold bitstrSize
  omega

/-- Level 2 is long enough only if level 1 is. -/
theorem level1_of_level2 {size n : Nat} (hn : 1 ≤ n) (h : n ≤ 512 * level2Size size) : bitstrSize n ≤ 8 * level1Size size := by
  rw [bitstrSize_le_iff hn]
  unfold level2Size at h
  omega

/-- The items of an arena have bits in all levels for the sizes with a remainder that the items give up to the levels. -/
theorem itemCount_le_iff (size : Nat) (hsize : sizeofArena + sizeofObject ≤ size) :
    itemCount size ≤ 512 * level2Size size ↔
      (size + 192) % 16384 < 256 + (size + 192) / 256 + (size + 192) / 2048 + (size + 192) / 16384 := by
  have hA : sizeofArena = 32 := rfl
  have hO : sizeofObject = 32 := rfl
  rw [hA, hO] at hsize
  have hbitmap : bitmapSize size = (size + 192) / 256 := by
    unfold bitmapSize bitstrSize
    rw [hA, hO]
    omega
  have h1 : level1Size size = (size + 192) / 2048 := by
    unfold level1Size
    rw [hbitmap]
    omega
  have h2 : level2Size size = (size + 192) / 16384 := by
    unfold level2Size
    rw [h1]
    omega
  unfold itemCount
  rw [hbitmap, h1, h2, hA, hO]
  omega

/-- The layout that `init_arena` computes is sound exactly for the sizes that are little more than a multiple of 16 KiB, as far as
that is measured by the bytes that the three levels take: too far above it, level 2 has no bit for the last items. -/
theorem layout_sound_iff {size ar : Nat} (mem : Mem) (hsize : sizeofArena + sizeofObject ≤ size) (har : ar + size ≤ 2 ^ 47)
    (hn : 1 ≤ nitems (initArena size mem ar) ar) :
    LayoutSound size (initArena size mem ar) ar ↔
      (size + 192) % 16384 < 256 + (size + 192) / 256 + (size + 192) / 2048 + (size + 192) / 16384 := by
  obtain ⟨hnitems, hitems⟩ := initArena_header mem har
  have hroom := items_room size hsize
  have hA : sizeofArena = 32 := rfl
  rw [← itemCount_le_iff size hsize]
  rw [hnitems] at hn
  constructor
  · intro h
    have h2 := h.level2
    rw [hnitems, bitstrSize_le_iff (one_le_bitstrSize _), bitstrSize_le_iff hn] at h2
    omega
  · intro h
    have hbefore : ∀ o n, o + n ≤ level2Size size + level1Size size + bitmapSize size →
        ∀ x ∈ region ar o n, x < items (initArena size mem ar) ar := by
      intro o n ho x hx
      have hx2 := hx.2
      rw [hitems, itemsAt]
      unfold bitmap at hx2
      omega
    refine ⟨region_disjoint ?_, region_disjoint ?_, region_disjoint ?_, hbefore _ _ ?_, hbefore _ _ ?_, hbefore _ _ ?_, ?_, ?_,
      ?_, ?_⟩
    · exact (Nat.zero_add _).le
    · exact (Nat.zero_add _).le.trans (Nat.le_add_right _ _)
    · exact le_rfl
    · unfold level2Offset
      omega
    · unfold level1Offset
      omega
    · unfold bitmapOffset
      omega
    · rw [hnitems]
      exact itemCount_le_bits size
    · rw [hnitems]
      exact level1_of_level2 hn h
    · rw [hnitems, bitstrSize_le_iff (one_le_bitstrSize _), bitstrSize_le_iff hn]
      omega
    · rw [hitems, hnitems, itemsAt]
      omega

/-- Arenas of the default size. -/
theorem layout_sound_arenaSize : LayoutSound arenaSize (initArena arenaSize (fun _ => 0) 4096) 4096 :=
  (layout_sound_iff (fun _ => 0) (by decide) (by decide) (by decide +kernel)).mpr (by decide)

/-- Arenas of one page: level 1 has 2 bytes, level 2 none. -/
theorem layout_page_unsound : ¬ ∀ (size ar : Nat) (mem : Mem), sizeofArena + sizeofObject ≤ size → ar + size ≤ 2 ^ 47 →
    1 ≤ nitems (initArena size mem ar) ar → LayoutSound size (initArena size mem ar) ar := by
  intro h
  have hpage := (h 4096 4096 (fun _ => 0) (by decide) (by decide) (by decide +kernel)).level2
  have hzero : level2Size 4096 = 0 := by decide
  rw [hzero] at hpage
  unfold bitstrSize at hpage
  omega

end OsLabs.ObjPool
