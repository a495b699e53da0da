import OsLabs.StrAlloc.Safety

/-!
# `stralloc` ends

The loop of `stralloc` has no counter: it walks the ring of arenas from `cur_arena` on, and inserts an arena behind it when it is
back. `strallocScans` lists the scans of that walk. Every scan ends, at a result or at the zero byte of its arena; and the walk
inserts at most one arena, because the first block of a fresh one is large enough for any request.
-/

namespace OsLabs.StrAlloc

/-- The calls of `alloc_block` in the loop of `stralloc`: the heap before each, and the arena it scans. -/
def strallocScans (size : Nat) (os : List Nat → Option Nat) (len cur : Nat) : Nat → Heap → Nat → List (Heap × Nat)
  | 0, _, _ => []
  | fuel + 1, g, ar =>
    (g, ar) ::
      match allocBlock ar (len + 1) size g.mem g.curOffset with
      | none => []
      | some (_, _, some _) => []
      | some (mem, _, none) =>
        let g := { g with mem := mem, curOffset := sizeofArena }
        match (nextArena g.arenas ar).or g.arenas.head? with
        | none => []
        | some ar =>
          if ar = cur then
            match os g.arenas with
            | none => []
            | some new =>
              let g := { g with arenas := allocAfterArena g.arenas (some ar) new,
                                mem := initChunk size (g.mem.zero new size) new }
              match nextArena g.arenas ar with
              | none => []
              | some ar => strallocScans size os len cur fuel g ar
          else strallocScans size os len cur fuel g ar

/-- The calls of `alloc_block` in a call of `stralloc`. -/
def scans (size : Nat) (os : List Nat → Option Nat) (fuel len : Nat) (g : Heap) : List (Heap × Nat) :=
  match strallocStart size os g with
  | .error _ => []
  | .ok (g, ar) => strallocScans size os len ar fuel g ar

/-- A scan ends: with a pointer behind the header at the cursor, or at the zero byte that ends the arena. -/
def ScanEnds (size len : Nat) (scan : Heap × Nat) : Prop :=
  ∃ mem off r, allocBlock scan.2 (len + 1) size scan.1.mem scan.1.curOffset = some (mem, off, r) ∧
    (∀ p, r = some p → p = scan.2 + off + 1) ∧ (r = none → header mem scan.2 off = 0)

/-- Whatever a scan runs on, it returns the pointer behind the cursor, or stops at a zero byte. -/
theorem allocBlock_result {data len off' : Nat} {mem' : Mem} {r : Option Nat} :
    ∀ (fuel : Nat) (mem : Mem) (off : Nat), allocBlock data len fuel mem off = some (mem', off', r) →
      (∀ p, r = some p → p = data + off' + 1) ∧ (r = none → header mem' data off' = 0) := by
  intro fuel
  induction fuel with
  | zero =>
    intro mem off h
    cases h
  | succ fuel ih =>
    intro mem off h
    -- a branch that returns a pointer
    have hfound : ∀ m, some (m, off, some (data + off + 1)) = some (mem', off', r) →
        (∀ p, r = some p → p = data + off' + 1) ∧ (r = none → header mem' data off' = 0) := by
      intro m e
      simp only [Option.some.injEq, Prod.mk.injEq] at e
      obtain ⟨-, rfl, rfl⟩ := e
      exact ⟨fun p hp => (Option.some.inj hp).symm, fun hp => by cases hp⟩
    rw [allocBlock] at h
    simp only at h
    split at h
    · rename_i hzero
      simp only [Option.some.injEq, Prod.mk.injEq] at h
      obtain ⟨rfl, rfl, rfl⟩ := h
      exact ⟨fun p hp => absurd hp.symm (Option.some_ne_none p), fun _ => hzero⟩
    · split at h
      · exact ih _ _ h
      · split at h
        · exact hfound _ h
        · split at h
          · exact hfound _ h
          · split at h
            · exact ih _ _ h
            · split at h
              · exact ih _ _ h
              · exact hfound _ h

/-! ## The rounds of the loop -/

section Round

variable {size : Nat} (os : List Nat → Option Nat) {len : Nat} (cur : Nat) {live : Finset (Nat × Nat)} {g : Heap}
  {bl : Nat → List Block} {ar : Nat} {pre post : List Block}

/-- The scan that serves the request is the last one. -/
theorem strallocScans_serve {mid rest : List Block} {b : Block} (fuel : Nat) (hsize : sizeofArena < size)
    (h : Holds size g.mem g.arenas live bl) (hlen : len ≤ maxLength) (har : ar ∈ g.arenas)
    (ebl : bl ar = pre ++ (mid ++ b :: rest)) (hoff : g.curOffset = sizeofArena + total pre)
    (hmid : ∀ c ∈ mid, ¬ c.Fits (len + 1)) (hfit : b.Fits (len + 1)) :
    strallocScans size os len cur (fuel + 1) g ar = [(g, ar)] ∧ ScanEnds size len (g, ar) := by
  have hscan := h.scan_some hsize hlen har ebl hmid hfit
  rw [← hoff] at hscan
  refine ⟨?_, _, _, _, hscan, allocBlock_result _ _ _ hscan⟩
  rw [strallocScans, hscan]

/-- A scan of an arena without a block that fits ends. -/
theorem Holds.scanEnds (hsize : sizeofArena < size) (h : Holds size g.mem g.arenas live bl) (hlen : len ≤ maxLength)
    (har : ar ∈ g.arenas) (ebl : bl ar = pre ++ post) (hoff : g.curOffset = sizeofArena + total pre)
    (hnone : ∀ b ∈ post, ¬ b.Fits (len + 1)) : ScanEnds size len (g, ar) := by
  obtain ⟨off, hscan⟩ := h.scan_none hsize hlen har ebl hnone
  rw [← hoff] at hscan
  exact ⟨_, _, _, hscan, allocBlock_result _ _ _ hscan⟩

/-- The scans after one that finds nothing are those of the next arena of the ring. -/
theorem strallocScans_next {done todo : List Nat} {x : Nat} (fuel : Nat) (hsize : sizeofArena < size)
    (h : Holds size g.mem g.arenas live bl) (hlen : len ≤ maxLength) (hcur : cur ∈ g.arenas)
    (hring : ring g.arenas cur = done ++ ar :: x :: todo) (ebl : bl ar = pre ++ post)
    (hoff : g.curOffset = sizeofArena + total pre) (hnone : ∀ b ∈ post, ¬ b.Fits (len + 1)) :
    strallocScans size os len cur (fuel + 1) g ar =
      (g, ar) :: strallocScans size os len cur fuel { g with curOffset := sizeofArena } x := by
  obtain ⟨⟨off, hscan⟩, hnext, hne⟩ := h.scan_next cur hsize hlen hcur hring ebl hnone
  rw [strallocScans, hoff, hscan]
  simp only [hnext, if_neg hne]

/-- The scans after the last one of the ring are those of the fresh arena, if it is mapped. -/
theorem strallocScans_map {done : List Nat} (fuel : Nat) (hsize : sizeofArena < size)
    (h : Holds size g.mem g.arenas live bl) (hlen : len ≤ maxLength) (hcur : cur ∈ g.arenas)
    (hring : ring g.arenas cur = done ++ [ar]) (ebl : bl ar = pre ++ post)
    (hoff : g.curOffset = sizeofArena + total pre) (hnone : ∀ b ∈ post, ¬ b.Fits (len + 1)) :
    (os g.arenas = none → strallocScans size os len cur (fuel + 1) g ar = [(g, ar)]) ∧
      ∀ new, os g.arenas = some new → strallocScans size os len cur (fuel + 1) g ar =
        (g, ar) :: strallocScans size os len cur fuel
          { g with mem := initChunk size (g.mem.zero new size) new, arenas := insertAfter g.arenas cur new,
                   curOffset := sizeofArena } new := by
  obtain ⟨⟨off, hscan⟩, hnext⟩ := h.scan_last cur hsize hlen hcur hring ebl hnone
  constructor
  · intro hos
    rw [strallocScans, hoff, hscan]
    simp only [hnext, if_true, hos]
  · intro new hos
    rw [strallocScans, hoff, hscan]
    simp only [hnext, if_true, hos, allocAfterArena, nextArena_insertAfter new hcur]

end Round

/-! ## The loop -/

/-- Every scan ends, and the call leaves the list of arenas or maps one arena behind `cur`. -/
structure LoopEnds (size : Nat) (os : List Nat → Option Nat) (len cur : Nat) (g : Heap) (scans : List (Heap × Nat))
    (r : Except Stop (Heap × Nat)) : Prop where
  scan : ∀ x ∈ scans, ScanEnds size len x
  arenas : ∀ g' p, r = .ok (g', p) → g'.arenas = g.arenas ∨ ∃ new, os g.arenas = some new ∧ g'.arenas = insertAfter g.arenas cur new

/-- A loop that starts at an arena with a block that fits behind the cursor. -/
theorem LoopEnds.serve {size : Nat} (os : List Nat → Option Nat) {len : Nat} (cur : Nat) {live : Finset (Nat × Nat)} {g : Heap}
    {bl : Nat → List Block} {ar : Nat} {pre mid rest : List Block} {b : Block} (fuel : Nat) (hsize : sizeofArena < size)
    (h : Holds size g.mem g.arenas live bl) (hlen : len ≤ maxLength) (har : ar ∈ g.arenas)
    (ebl : bl ar = pre ++ (mid ++ b :: rest)) (hoff : g.curOffset = sizeofArena + total pre)
    (hmid : ∀ c ∈ mid, ¬ c.Fits (len + 1)) (hfit : b.Fits (len + 1)) :
    (∀ x ∈ strallocScans size os len cur (fuel + 1) g ar, ScanEnds size len x) ∧
      ∀ g' p, strallocLoop size os len cur (fuel + 1) g ar = .ok (g', p) → g'.arenas = g.arenas := by
  obtain ⟨hscans, hends⟩ := strallocScans_serve os cur fuel hsize h hlen har ebl hoff hmid hfit
  refine ⟨fun x hx => ?_, fun g' p hrun => ?_⟩
  · rw [hscans, List.mem_singleton] at hx
    rw [hx]
    exact hends
  · rw [strallocLoop_serve os cur fuel hsize h hlen har ebl hoff hmid hfit] at hrun
    obtain ⟨rfl, -⟩ := Prod.mk.inj (Except.ok.inj hrun)
    rfl

/-- In a fresh arena the first block fits. -/
theorem LoopEnds.fresh {size : Nat} (os : List Nat → Option Nat) {len : Nat} (cur : Nat) {live : Finset (Nat × Nat)} {g : Heap}
    {bl : Nat → List Block} {ar : Nat} {rest : List Block} (fuel : Nat) (hsize : sizeofArena < size)
    (h : Holds size g.mem g.arenas live bl) (hlen : len ≤ maxLength) (har : ar ∈ g.arenas)
    (ebl : bl ar = ⟨maxBlksz, .free⟩ :: rest) (hoff : g.curOffset = sizeofArena) :
    (∀ x ∈ strallocScans size os len cur fuel g ar, ScanEnds size len x) ∧
      ∀ g' p, strallocLoop size os len cur fuel g ar = .ok (g', p) → g'.arenas = g.arenas := by
  cases fuel with
  | zero => exact ⟨nofun, nofun⟩
  | succ fuel =>
    have hmax : maxBlksz = maxLength + 1 := rfl
    have hblocks : bl ar = [] ++ ([] ++ ⟨maxBlksz, .free⟩ :: rest) := ebl
    exact LoopEnds.serve os cur fuel hsize h hlen har hblocks hoff nofun ⟨rfl, by simp only; omega⟩

/-- The loop of `stralloc` from an arena `ar` of the ring with the cursor on a block, by induction on the arenas still to see. -/
theorem strallocLoop_ends {size : Nat} {os : List Nat → Option Nat} {len : Nat} (cur : Nat) {live : Finset (Nat × Nat)}
    {bl : Nat → List Block} (hbig : sizeofArena + maxBlksz < size) (hos : MmapOk size os) (hlen : len ≤ maxLength) :
    ∀ (todo : List Nat) (fuel : Nat) (g : Heap) (ar : Nat) (done : List Nat) (pre post : List Block),
      Holds size g.mem g.arenas live bl → cur ∈ g.arenas → ring g.arenas cur = done ++ ar :: todo →
      bl ar = pre ++ post → g.curOffset = sizeofArena + total pre →
      LoopEnds size os len cur g (strallocScans size os len cur fuel g ar) (strallocLoop size os len cur fuel g ar) := by
  have hsize : sizeofArena < size := by omega
  intro todo
  induction todo with
  | nil =>
    intro fuel g ar done pre post h hcur hring ebl hoff
    cases fuel with
    | zero => exact ⟨nofun, nofun⟩
    | succ fuel =>
      have har := mem_of_ring hcur hring
      rcases first_fit (len + 1) post with hnone | ⟨mid, b, rest, rfl, hmid, hfit⟩
      · -- the ring is closed: a fresh arena is mapped, and its first block fits
        have hends := h.scanEnds hsize hlen har ebl hoff hnone
        obtain ⟨hfail, hmap⟩ := strallocLoop_map os cur fuel hsize h hlen hcur hring ebl hoff hnone
        obtain ⟨hfail', hmap'⟩ := strallocScans_map os cur fuel hsize h hlen hcur hring ebl hoff hnone
        cases hnew : os g.arenas with
        | none =>
          rw [hfail hnew, hfail' hnew]
          exact ⟨List.forall_mem_singleton.mpr hends, nofun⟩
        | some new =>
          have hperm := insertAfter_perm new hcur
          obtain ⟨bs, hholds, -, hfirst⟩ := h.fresh hsize hos hnew hperm
          obtain ⟨rest, rfl⟩ := hfirst hbig
          have hfresh := LoopEnds.fresh os cur fuel hsize (g := { g with
            mem := initChunk size (g.mem.zero new size) new, arenas := insertAfter g.arenas cur new,
            curOffset := sizeofArena }) hholds hlen (hperm.mem_iff.mpr List.mem_cons_self) (Function.update_self ..) rfl
          rw [hmap new hnew, hmap' new hnew]
          exact ⟨List.forall_mem_cons.mpr ⟨hends, hfresh.1⟩, fun g' p hrun => Or.inr ⟨new, hnew, hfresh.2 g' p hrun⟩⟩
      · obtain ⟨h1, h2⟩ := LoopEnds.serve os cur fuel hsize h hlen har ebl hoff hmid hfit
        exact ⟨h1, fun g' p hrun => Or.inl (h2 g' p hrun)⟩
  | cons x xs ih =>
    intro fuel g ar done pre post h hcur hring ebl hoff
    cases fuel with
    | zero => exact ⟨nofun, nofun⟩
    | succ fuel =>
      have har := mem_of_ring hcur hring
      rcases first_fit (len + 1) post with hnone | ⟨mid, b, rest, rfl, hmid, hfit⟩
      · have hrest := ih fuel { g with curOffset := sizeofArena } x (done ++ [ar]) [] (bl x) h hcur
          (by rw [hring, List.append_assoc]; rfl) rfl rfl
        rw [strallocLoop_next os cur fuel hsize h hlen hcur hring ebl hoff hnone,
          strallocScans_next os cur fuel hsize h hlen hcur hring ebl hoff hnone]
        exact ⟨List.forall_mem_cons.mpr ⟨h.scanEnds hsize hlen har ebl hoff hnone, hrest.scan⟩, hrest.arenas⟩
      · obtain ⟨h1, h2⟩ := LoopEnds.serve os cur fuel hsize h hlen har ebl hoff hmid hfit
        exact ⟨h1, fun g' p hrun => Or.inl (h2 g' p hrun)⟩

/-! ## The call -/

/-- Inserting an arena keeps the others in their order. -/
theorem sublist_insertAfter (al : List Nat) (ar new : Nat) (h : ar ∈ al) : al.Sublist (insertAfter al ar new) := by
  induction al with
  | nil => cases h
  | cons a rest ih =>
    unfold insertAfter
    by_cases ha : a = ar
    · rw [if_pos ha]
      exact ((List.sublist_cons_self new rest).cons_cons a)
    · rw [if_neg ha]
      exact (ih ((List.mem_cons.mp h).resolve_left (Ne.symm ha))).cons_cons a

/-- All scans of a call end, and a call that returns has added at most one arena. -/
theorem Inv.stralloc_ends (fuel : Nat) {size len : Nat} {os : List Nat → Option Nat} {s : Client} {bl : Nat → List Block}
    (h : Inv size s bl) (hbig : sizeofArena + maxBlksz < size) (hos : MmapOk size os) (h1 : 1 ≤ len) (hlen : len ≤ maxLength) :
    (∀ x ∈ scans size os fuel len s.heap, ScanEnds size len x) ∧
      ∀ g p, stralloc size os fuel len s.heap = .ok (g, p) →
        s.heap.arenas.Sublist g.arenas ∧ g.arenas.length ≤ s.heap.arenas.length + 1 := by
  have hsize : sizeofArena < size := by omega
  have hmax : maxBlksz = maxLength + 1 := rfl
  have hcur := h.cursor
  have hholds := h.holds
  rw [stralloc, if_neg (by omega), if_neg (by omega), scans, strallocStart]
  unfold OnBlock at hcur
  cases hc : s.heap.curArena with
  | none =>
    rw [hc] at hcur
    simp only at hcur
    cases hnew : os s.heap.arenas with
    | none => exact ⟨fun x hx => absurd hx List.not_mem_nil, fun g p hrun => by cases hrun⟩
    | some new =>
      obtain ⟨bs, hfresh, -, hfirst⟩ := hholds.fresh hsize hos hnew (List.Perm.refl (new :: s.heap.arenas))
      obtain ⟨rest, rfl⟩ := hfirst hbig
      obtain ⟨hscan, harenas⟩ := LoopEnds.fresh os new fuel hsize
        (g := ⟨initChunk size (s.heap.mem.zero new size) new, allocFirstArena s.heap.arenas new, some new, sizeofArena⟩)
        hfresh hlen (by simp [allocFirstArena]) (Function.update_self ..) rfl
      refine ⟨hscan, fun g p hrun => ?_⟩
      rw [harenas g p hrun, hcur]
      exact ⟨List.nil_sublist _, Nat.le_refl 1⟩
  | some cur =>
    rw [hc] at hcur
    obtain ⟨hin, pre, post, ebl, hoff⟩ := hcur
    obtain ⟨rest, hring⟩ := ring_head hin
    have hends := strallocLoop_ends cur hbig hos hlen rest fuel s.heap cur [] pre post hholds hin hring ebl hoff
    refine ⟨hends.scan, fun g p hrun => ?_⟩
    rcases hends.arenas g p hrun with he | ⟨new, -, he⟩
    · rw [he]
      exact ⟨List.Sublist.refl _, Nat.le_succ _⟩
    · rw [he, (insertAfter_perm new hin).length_eq]
      exact ⟨sublist_insertAfter _ _ _ hin, Nat.le_refl _⟩

/-- The block that serves a request stands at the cursor. -/
theorem Served.at_cursor {size len : Nat} {live : Finset (Nat × Nat)} {sizes : List Nat} {mem : Mem} {arenas : List Nat}
    {bl : Nat → List Block} {g' : Heap} {p : Nat} {mem₁ : Mem} {bl₁ : Nat → List Block} {ar : Nat} {pre post : List Block}
    {b : Block} (h : Served size len live sizes mem arenas bl g' p mem₁ bl₁ ar pre post b) (hsize : sizeofArena < size) :
    OnWalk g'.mem ar g'.curOffset ∧ header g'.mem ar g'.curOffset = len + 1 := by
  obtain ⟨hholds, -⟩ := h.next hsize
  have hchunk := hholds.chunk ar h.arena
  have hblocks : served bl₁ ar len pre post b ar = pre ++ (b.split (len + 1) ++ post) := Function.update_self ..
  obtain ⟨rest, hsplit⟩ : ∃ rest, b.split (len + 1) = ⟨len + 1, .live⟩ :: rest := by
    unfold Block.split
    split
    · exact ⟨_, rfl⟩
    · exact ⟨_, rfl⟩
  rw [h.cursor.2]
  refine ⟨hchunk.onWalk pre _ hblocks, ?_⟩
  rw [hsplit] at hblocks
  obtain ⟨-, -, hh⟩ := hchunk.seg.block hblocks
  rw [hh]
  simp [Block.header]

/-- A request of 1 to 126 bytes in any reachable state: every scan of an arena ends, and the call returns within one round of the
arenas and a fresh one, unless `mmap` fails. Then at most one arena was added, `cur_arena` is an arena of the list, and the cursor
is on a block of it of the size asked for. -/
theorem stralloc_terminates {size : Nat} (hbig : sizeofArena + maxBlksz < size) {s : Client} (hs : (client size).Reach s)
    {len fuel : Nat} {os : List Nat → Option Nat} (hos : MmapOk size os) (h1 : 1 ≤ len) (hlen : len ≤ maxLength)
    (hfuel : s.heap.arenas.length < fuel) :
    (∀ x ∈ scans size os fuel len s.heap, ScanEnds size len x) ∧
      ((stralloc size os fuel len s.heap = .error .mmapError ∧ ∃ al, os al = none) ∨
        ∃ g p, stralloc size os fuel len s.heap = .ok (g, p) ∧ s.heap.arenas.Sublist g.arenas ∧
          g.arenas.length ≤ s.heap.arenas.length + 1 ∧
          ∃ ar ∈ g.arenas, g.curArena = some ar ∧ OnWalk g.mem ar g.curOffset ∧ header g.mem ar g.curOffset = len + 1) := by
  have hsize : sizeofArena < size := by omega
  obtain ⟨bl, h⟩ := inv_reach hsize hs
  obtain ⟨hscan, harenas⟩ := h.stralloc_ends fuel hbig hos h1 hlen
  refine ⟨hscan, ?_⟩
  have hpost := stralloc_post hsize hos (show 0 < len by omega) hlen fuel s.heap bl h.holds h.cursor
  cases hr : stralloc size os fuel len s.heap with
  | error e =>
    rw [hr] at hpost
    cases e with
    | assertion => exact hpost.elim
    | mmapError => exact Or.inl ⟨rfl, hpost⟩
    | fuel => exact absurd (hpost hbig) (by omega)
  | ok r =>
    obtain ⟨g, p⟩ := r
    rw [hr] at hpost
    obtain ⟨_, _, ar, _, _, _, hv⟩ := hpost
    obtain ⟨hsub, hle⟩ := harenas g p hr
    exact Or.inr ⟨g, p, rfl, hsub, hle, ar, hv.arena, hv.cursor.1, hv.at_cursor hsize⟩

/-- A second request, in the only arena. -/
theorem stralloc_terminates_second :
    (∀ x ∈ scans arenaSize oneArena 2 5 afterFirst.heap, ScanEnds arenaSize 5 x) ∧
      ((stralloc arenaSize oneArena 2 5 afterFirst.heap = .error .mmapError ∧ ∃ al, oneArena al = none) ∨
        ∃ g p, stralloc arenaSize oneArena 2 5 afterFirst.heap = .ok (g, p) ∧ afterFirst.heap.arenas.Sublist g.arenas ∧
          g.arenas.length ≤ afterFirst.heap.arenas.length + 1 ∧
          ∃ ar ∈ g.arenas, g.curArena = some ar ∧ OnWalk g.mem ar g.curOffset ∧ header g.mem ar g.curOffset = 5 + 1) :=
  stralloc_terminates (by decide) afterFirst_reach oneArena_ok (by decide) (by decide) (by decide)

end OsLabs.StrAlloc
