import OsLabs.StrAlloc.Safety

/-!
# When the string allocator grows

`stralloc` looks at the current arena from the cursor on, then at the other arenas, and maps a fresh one when it is back at the
current arena. The blocks of the current arena in front of the cursor are not looked at. So a call grows the heap while a free
block is large enough exactly when all such blocks are in the current arena in front of the cursor (`OnlyBehind`). A run that
fills the first arena and frees its first buffer comes to such a state.
-/

namespace OsLabs.StrAlloc

/-! ## Free blocks -/

/-- The arena `ar` has a free block of at least `n` bytes, header included, at the offset `off`. -/
def FreeAt (mem : Mem) (ar off n : Nat) : Prop := OnWalk mem ar off ∧ header mem ar off < 0 ∧ n ≤ blockSize mem ar off

/-- The free blocks that a request can use are the free blocks of the walk. -/
theorem Chunk.freeAt_iff {size : Nat} {mem : Mem} {ar off n : Nat} {bs : List Block} (h : Chunk size mem ar bs) :
    FreeAt mem ar off n ↔ ∃ b : Block, b.Fits n ∧ (off, b) ∈ placed sizeofArena bs := by
  constructor
  · rintro ⟨hw, hneg, hle⟩
    obtain ⟨pre, post, e, rfl⟩ := h.of_onWalk hw
    cases post with
    | nil =>
      have hz := h.zero
      rw [← h.ends, e, List.append_nil] at hz
      rw [hz] at hneg
      exact absurd hneg (Int.lt_irrefl 0)
    | cons b post =>
      obtain ⟨h1, -, hh⟩ := h.seg.block e
      rw [blockSize_of_header hh] at hle
      have hfree : b.status = .free := by
        by_contra hne
        have := Block.header_pos h1 hne
        omega
      exact ⟨b, ⟨hfree, hle⟩, mem_placed.mpr ⟨pre, post, e, rfl⟩⟩
  · rintro ⟨b, ⟨hfree, hle⟩, hb⟩
    obtain ⟨pre, post, e, rfl⟩ := mem_placed.mp hb
    obtain ⟨h1, -, hh⟩ := h.seg.block e
    refine ⟨h.onWalk pre (b :: post) e, ?_, ?_⟩
    · rw [hh, Block.header_free hfree]
      omega
    · rw [blockSize_of_header hh]
      exact hle

/-! ## The arenas after a call -/

/-- The loop of `stralloc` leaves the list of arenas as it is exactly when a block that it still has to see fits. -/
theorem strallocLoop_arenas {size : Nat} {os : List Nat → Option Nat} {len : Nat} (cur : Nat) {live : Finset (Nat × Nat)}
    {bl : Nat → List Block} {g' : Heap} {p : Nat} (hsize : sizeofArena < size) (hos : MmapOk size os) (hlen : len ≤ maxLength) :
    ∀ (fuel : Nat) (g : Heap) (ar : Nat) (done todo : List Nat) (pre post : List Block),
      Holds size g.mem g.arenas live bl → cur ∈ g.arenas → ring g.arenas cur = done ++ ar :: todo →
      bl ar = pre ++ post → g.curOffset = sizeofArena + total pre →
      strallocLoop size os len cur fuel g ar = .ok (g', p) →
      (g'.arenas = g.arenas ↔ ∃ b ∈ post ++ todo.flatMap bl, b.Fits (len + 1)) := by
  intro fuel
  induction fuel with
  | zero =>
    intro g ar done todo pre post _ _ _ _ _ hrun
    rw [strallocLoop] at hrun
    cases hrun
  | succ fuel ih =>
    intro g ar done todo pre post h hcur hring ebl hoff hrun
    have har := mem_of_ring hcur hring
    rcases first_fit (len + 1) post with hnone | ⟨mid, b, rest, rfl, hmid, hfit⟩
    · cases todo with
      | nil =>
        -- the ring is closed: the fresh arena is on the list from now on
        have hno : ¬ ∃ b ∈ post ++ [].flatMap bl, b.Fits (len + 1) := by
          rintro ⟨b, hb, hfit⟩
          rw [List.flatMap_nil, List.append_nil] at hb
          exact hnone b hb hfit
        refine iff_of_false (fun heq => ?_) hno
        obtain ⟨hfail, hmap⟩ := strallocLoop_map os cur fuel hsize h hlen hcur hring ebl hoff hnone
        cases hnew : os g.arenas with
        | none =>
          rw [hfail hnew] at hrun
          cases hrun
        | some new =>
          rw [hmap new hnew] at hrun
          have hperm := insertAfter_perm new hcur
          obtain ⟨bs, hholds, -, -⟩ := h.fresh hsize hos hnew hperm
          have hpost := strallocLoop_post cur hsize hos hlen fuel
            { g with mem := initChunk size (g.mem.zero new size) new, arenas := insertAfter g.arenas cur new,
                     curOffset := sizeofArena }
            (Function.update bl new bs) new [cur] (ring g.arenas cur).tail [] bs
            (fuel + (ring g.arenas cur).tail.length + 2) hholds
            (hperm.mem_iff.mpr (List.mem_cons_of_mem _ hcur)) (ring_insertAfter new hcur) (Function.update_self ..) rfl
            fun _ => ⟨by omega, fun _ => by omega⟩
          rw [hrun] at hpost
          obtain ⟨_, _, _, _, _, _, hv⟩ := hpost
          have hin := (hv.grown.sub new (hperm.mem_iff.mpr List.mem_cons_self)).1
          rw [heq] at hin
          exact not_mem_of_mmapOk hos (by omega) hnew hin
      | cons x xs =>
        rw [strallocLoop_next os cur fuel hsize h hlen hcur hring ebl hoff hnone] at hrun
        have hnext := ih { g with curOffset := sizeofArena } x (done ++ [ar]) xs [] (bl x) h hcur
          (by rw [hring, List.append_assoc]; rfl) rfl rfl hrun
        rw [hnext, List.flatMap_cons]
        constructor
        · rintro ⟨b, hb, hfit⟩
          exact ⟨b, List.mem_append_right post hb, hfit⟩
        · rintro ⟨b, hb, hfit⟩
          rcases List.mem_append.mp hb with hb | hb
          · exact absurd hfit (hnone b hb)
          · exact ⟨b, hb, hfit⟩
    · rw [strallocLoop_serve os cur fuel hsize h hlen har ebl hoff hmid hfit] at hrun
      obtain ⟨rfl, -⟩ := Prod.mk.inj (Except.ok.inj hrun)
      exact iff_of_true rfl ⟨b, List.mem_append_left _ (List.mem_append_right mid List.mem_cons_self), hfit⟩

/-! ## When a call grows the heap too early -/

/-- The call of `stralloc(len)` that led from `g` to `g'` mapped an arena only if no arena had a free block large enough. -/
def GrownWhenFull (g g' : Heap) (len : Nat) : Prop :=
  g'.arenas ≠ g.arenas → ∀ ar ∈ g.arenas, ∀ off, ¬ FreeAt g.mem ar off (len + 1)

/-- Not all free blocks of at least `n` bytes are in the current arena in front of the cursor, unless there is none. -/
def NotOnlyBehind (g : Heap) (n : Nat) : Prop :=
  ∀ cur, g.curArena = some cur → (∃ off, off < g.curOffset ∧ FreeAt g.mem cur off n) →
    (∃ off, g.curOffset ≤ off ∧ FreeAt g.mem cur off n) ∨ ∃ ar ∈ g.arenas, ar ≠ cur ∧ ∃ off, FreeAt g.mem ar off n

/-- The free blocks of the current arena, by their place. -/
theorem Chunk.behind_iff {size : Nat} {mem : Mem} {ar n : Nat} {pre post : List Block}
    (h : Chunk size mem ar (pre ++ post)) :
    ((∃ off, off < sizeofArena + total pre ∧ FreeAt mem ar off n) ↔ ∃ b ∈ pre, b.Fits n) ∧
      ((∃ off, sizeofArena + total pre ≤ off ∧ FreeAt mem ar off n) ↔ ∃ b ∈ post, b.Fits n) := by
  have hpos := h.seg.pos
  constructor
  · constructor
    · rintro ⟨off, hoff, hfree⟩
      obtain ⟨b, hfit, hb⟩ := h.freeAt_iff.mp hfree
      rw [placed_append] at hb
      rcases List.mem_append.mp hb with hb | hb
      · exact ⟨b, mem_of_placed hb, hfit⟩
      · have := (placed_bounds hb).1
        omega
    · rintro ⟨b, hb, hfit⟩
      obtain ⟨o, ho⟩ := exists_placed sizeofArena hb
      have hbound := (placed_bounds ho).2
      have hb1 := hpos b (List.mem_append_left post hb)
      refine ⟨o, by omega, h.freeAt_iff.mpr ⟨b, hfit, ?_⟩⟩
      rw [placed_append]
      exact List.mem_append_left _ ho
  · constructor
    · rintro ⟨off, hoff, hfree⟩
      obtain ⟨b, hfit, hb⟩ := h.freeAt_iff.mp hfree
      rw [placed_append] at hb
      rcases List.mem_append.mp hb with hb | hb
      · have hbound := (placed_bounds hb).2
        have hb1 := hpos b (List.mem_append_left post (mem_of_placed hb))
        omega
      · exact ⟨b, mem_of_placed hb, hfit⟩
    · rintro ⟨b, hb, hfit⟩
      obtain ⟨o, ho⟩ := exists_placed (sizeofArena + total pre) hb
      refine ⟨o, (placed_bounds ho).1, h.freeAt_iff.mpr ⟨b, hfit, ?_⟩⟩
      rw [placed_append]
      exact List.mem_append_right _ ho

/-- An arena has a free block for a request exactly when one of its blocks fits. -/
theorem Chunk.exists_freeAt {size : Nat} {mem : Mem} {ar n : Nat} {bs : List Block} (h : Chunk size mem ar bs) :
    (∃ off, FreeAt mem ar off n) ↔ ∃ b ∈ bs, b.Fits n := by
  constructor
  · rintro ⟨off, hfree⟩
    obtain ⟨b, hfit, hb⟩ := h.freeAt_iff.mp hfree
    exact ⟨b, mem_of_placed hb, hfit⟩
  · rintro ⟨b, hb, hfit⟩
    obtain ⟨o, ho⟩ := exists_placed sizeofArena hb
    exact ⟨o, h.freeAt_iff.mpr ⟨b, hfit, ho⟩⟩

/-- A call grows the heap only when it is full exactly when the blocks it does not look at make no difference. -/
theorem Inv.grows_iff {size len fuel p : Nat} {os : List Nat → Option Nat} {c : Client} {g' : Heap} {bl : Nat → List Block}
    (h : Inv size c bl) (hsize : sizeofArena < size) (hos : MmapOk size os) (h1 : 1 ≤ len) (hlen : len ≤ maxLength)
    (hcall : stralloc size os fuel len c.heap = .ok (g', p)) :
    GrownWhenFull c.heap g' len ↔ NotOnlyBehind c.heap (len + 1) := by
  obtain ⟨hholds, hcur⟩ := h
  unfold OnBlock at hcur
  cases hc : c.heap.curArena with
  | none =>
    rw [hc] at hcur
    simp only at hcur
    refine iff_of_true (fun _ ar har => ?_) (fun cur he => ?_)
    · rw [hcur] at har
      cases har
    · rw [hc] at he
      cases he
  | some cur =>
    rw [hc] at hcur
    obtain ⟨hin, pre, post, ebl, hoff⟩ := hcur
    obtain ⟨rest, hring⟩ := ring_head hin
    have hmem : ∀ ar, ar ∈ c.heap.arenas ↔ ar = cur ∨ ar ∈ rest := by
      intro ar
      rw [← (ring_perm hin).mem_iff, hring, List.mem_cons]
    have hchunk := hholds.chunk cur hin
    rw [ebl] at hchunk
    obtain ⟨hbehind, hahead⟩ := hchunk.behind_iff (n := len + 1)
    rw [← hoff] at hbehind hahead
    have hrun : strallocLoop size os len cur fuel c.heap cur = .ok (g', p) := by
      rw [stralloc, if_neg (by omega), if_neg (by omega), strallocStart, hc] at hcall
      exact hcall
    have hsame := strallocLoop_arenas cur hsize hos hlen fuel c.heap cur [] rest pre post hholds hin hring ebl hoff hrun
    constructor
    · rintro hP cur' hcur' ⟨off, hlt, hfree⟩
      rw [hc] at hcur'
      obtain rfl := Option.some.inj hcur'
      by_contra hno
      rw [not_or] at hno
      refine hP (fun heq => ?_) cur hin off hfree
      obtain ⟨b, hb, hfit⟩ := hsame.mp heq
      rcases List.mem_append.mp hb with hb | hb
      · exact hno.1 (hahead.mpr ⟨b, hb, hfit⟩)
      · obtain ⟨ar, har, hb⟩ := List.mem_flatMap.mp hb
        have hne : ar ≠ cur := by
          rintro rfl
          have hnd := (ring_perm hin).nodup_iff.mpr (hholds.apart.nodup (by omega))
          rw [hring] at hnd
          exact (List.nodup_cons.mp hnd).1 har
        have har' := (hmem ar).mpr (Or.inr har)
        exact hno.2 ⟨ar, har', hne, (hholds.chunk ar har').exists_freeAt.mpr ⟨b, hb, hfit⟩⟩
    · intro hC hne ar har off hfree
      have hno := mt hsame.mpr hne
      -- a free block that the call looks at keeps it from growing the heap
      have hseen : ¬ ∃ off, c.heap.curOffset ≤ off ∧ FreeAt c.heap.mem cur off (len + 1) := by
        intro hex
        obtain ⟨b, hb, hfit⟩ := hahead.mp hex
        exact hno ⟨b, List.mem_append_left _ hb, hfit⟩
      have hother : ¬ ∃ ar ∈ c.heap.arenas, ar ≠ cur ∧ ∃ off, FreeAt c.heap.mem ar off (len + 1) := by
        rintro ⟨x, hx, hne, hex⟩
        obtain ⟨b, hb, hfit⟩ := (hholds.chunk x hx).exists_freeAt.mp hex
        have hxr := ((hmem x).mp hx).resolve_left hne
        exact hno ⟨b, List.mem_append_right post (List.mem_flatMap.mpr ⟨x, hxr, hb⟩), hfit⟩
      by_cases he : ar = cur
      · subst he
        rcases Nat.lt_or_ge off c.heap.curOffset with hlt | hge
        · rcases hC ar hc ⟨off, hlt, hfree⟩ with hex | hex
          · exact hseen hex
          · exact hother hex
        · exact hseen ⟨off, hge, hfree⟩
      · exact hother ⟨ar, har, he, off, hfree⟩

/-! ## A run that grows the heap too early -/

/-- A kernel that maps two arenas. -/
def twoArenas (al : List Nat) : Option Nat :=
  if al = [] then some 4096 else if al = [4096] then some 69632 else none

theorem twoArenas_ok : MmapOk arenaSize twoArenas := by
  intro al new h
  unfold twoArenas at h
  split at h
  · rename_i hal
    obtain rfl := Option.some.inj h
    exact ⟨by decide, by decide, by rw [hal]; simp⟩
  · split at h
    · rename_i hal
      obtain rfl := Option.some.inj h
      exact ⟨by decide, by decide, by rw [hal]; decide⟩
    · cases h

/-- The heap has one arena, at 4096, with the blocks `pre` in front of the cursor and `post` from it on. -/
structure OneArena (c : Client) (bl : Nat → List Block) (pre post : List Block) : Prop where
  holds : Holds arenaSize c.heap.mem c.heap.arenas c.live bl
  arenas : c.heap.arenas = [4096]
  blocks : bl 4096 = pre ++ post
  current : c.heap.curArena = some 4096
  offset : c.heap.curOffset = sizeofArena + total pre

/-- A block of the largest size, in use. -/
def whole : Block := ⟨maxBlksz, .live⟩

/-- A request of 126 bytes takes the first whole free block from the cursor on. -/
theorem OneArena.serve {c : Client} {bl : Nat → List Block} {pre mid rest : List Block} {b : Block}
    (h : OneArena c bl pre (mid ++ b :: rest)) (hmid : ∀ d ∈ mid, ¬ d.Fits maxBlksz) (hfit : b.Fits maxBlksz) :
    ∃ (c' : Client) (p : Nat) (bl' : Nat → List Block), p ≠ 0 ∧ c'.live = insert (p, 126) c.live ∧
      strallocLoop arenaSize twoArenas 126 4096 1 c.heap 4096 = .ok (c'.heap, p) ∧
      OneArena c' bl' (pre ++ mid) (whole :: rest) := by
  have hsize : sizeofArena < arenaSize := by decide
  have har : 4096 ∈ c.heap.arenas := by
    rw [h.arenas]
    exact List.mem_singleton_self _
  have hb : (sizeofArena + total (pre ++ mid), b) ∈ placed sizeofArena (bl 4096) :=
    mem_placed.mpr ⟨pre ++ mid, rest, by rw [h.blocks, List.append_assoc], rfl⟩
  have hle := (h.holds.block har hb).2.1
  have hsplit : b.split (maxLength + 1) = [whole] := by
    have he : b.size = maxLength + 1 := Nat.le_antisymm hle hfit.2
    rw [Block.split, if_pos he]
    rfl
  have hrun := strallocLoop_serve twoArenas 4096 0 hsize h.holds (show 126 ≤ 126 by decide) har h.blocks h.offset hmid hfit
  have hblocks : bl 4096 = (pre ++ mid) ++ b :: rest := by rw [h.blocks, List.append_assoc]
  have hplace := h.holds.place hsize har hblocks hfit
  rw [hsplit] at hplace
  refine ⟨⟨_, _⟩, _, Function.update bl 4096 (pre ++ mid ++ ([whole] ++ rest)), Nat.succ_ne_zero _, rfl, hrun, ?_⟩
  exact ⟨hplace, h.arenas, Function.update_self .., rfl, rfl⟩

/-- A step of a run with one arena: the request of 126 bytes. -/
theorem OneArena.step {c c' : Client} {bl : Nat → List Block} {pre post : List Block} {p : Nat} (h : OneArena c bl pre post)
    (hp : p ≠ 0) (hlive : c'.live = insert (p, 126) c.live)
    (hrun : strallocLoop arenaSize twoArenas 126 4096 1 c.heap 4096 = .ok (c'.heap, p)) :
    Step arenaSize c (.alloc 126 twoArenas) c' := by
  have hcall : stralloc arenaSize twoArenas 1 126 c.heap = .ok (c'.heap, p) := by
    rw [stralloc, if_neg (by decide), if_neg (by decide), strallocStart, h.current]
    exact hrun
  have hstep := Step.alloc (by decide) twoArenas_ok hcall
  rw [if_neg hp, ← hlive] at hstep
  exact hstep

/-- From the cursor on, 126-byte requests take whole blocks until no block is large enough. -/
theorem OneArena.fill {n : Nat} : ∀ (c : Client) (bl : Nat → List Block) (pre post : List Block), post.length = n →
    (client arenaSize).Reach c → OneArena c bl (whole :: pre) (whole :: post) →
    ∃ c' bl' pre' post', (client arenaSize).Reach c' ∧ OneArena c' bl' (whole :: pre') (whole :: post') ∧
      ∀ b ∈ whole :: post', ¬ b.Fits maxBlksz := by
  induction n using Nat.strongRecOn with
  | ind n ih =>
    intro c bl pre post hn hc h
    have hwhole : ¬ whole.Fits maxBlksz := by decide
    rcases first_fit maxBlksz post with hnone | ⟨mid, b, rest, rfl, hmid, hfit⟩
    · exact ⟨c, bl, pre, post, hc, h, List.forall_mem_cons.mpr ⟨hwhole, hnone⟩⟩
    · rw [← List.cons_append] at h
      obtain ⟨c', p, bl', hp, hlive, hrun, h'⟩ := h.serve (List.forall_mem_cons.mpr ⟨hwhole, hmid⟩) hfit
      have hstep := h.step hp hlive hrun
      rw [List.length_append, List.length_cons] at hn
      exact ih rest.length (by omega) c' bl' (pre ++ whole :: mid) rest rfl (.step _ hc hstep) h'

/-- A spaced list of free blocks with more bytes than one block can have starts with a whole one. -/
theorem first_whole {bs : List Block} (hle : ∀ b ∈ bs, b.size ≤ maxBlksz) (hchain : bs.IsChain Spaced)
    (hfree : ∀ b ∈ bs, b.status = .free) (h : maxBlksz < total bs) : ∃ rest, bs = ⟨maxBlksz, .free⟩ :: rest := by
  cases bs with
  | nil => exact absurd h (Nat.not_lt_zero _)
  | cons b bs =>
    have hb := hfree b List.mem_cons_self
    cases bs with
    | nil =>
      have := hle b List.mem_cons_self
      rw [total_cons, total_nil] at h
      omega
    | cons d bs =>
      have hd := hfree d (by simp)
      rcases (List.isChain_cons_cons.mp hchain).1 with hs | hs | hs
      · rw [hb] at hs
        cases hs
      · rw [hd] at hs
        cases hs
      · exact ⟨d :: bs, by rw [← hs, ← hb]⟩

/-- The first arena of a run has at least two whole blocks. -/
theorem start_oneArena : ∃ g bl rest, strallocStart arenaSize twoArenas (Heap.init fun _ => 0) = .ok (g, 4096) ∧
    OneArena ⟨g, ∅⟩ bl [] (⟨maxBlksz, .free⟩ :: ⟨maxBlksz, .free⟩ :: rest) := by
  have hsize : sizeofArena < arenaSize := by decide
  have hmax : maxBlksz = 127 := rfl
  have hinit : Holds arenaSize (fun _ => 0) [] ∅ fun _ => [] := (inv_init ⟨fun _ => 0, rfl⟩ : Inv arenaSize _ _).holds
  obtain ⟨bs, hholds, hgrown, -⟩ := hinit.fresh hsize twoArenas_ok (show twoArenas [] = some 4096 from rfl)
    (List.Perm.refl [4096])
  have hin : 4096 ∈ [4096] := List.mem_singleton_self _
  have hchunk := hholds.chunk 4096 hin
  have hspaced := hholds.spaced 4096 hin
  have hfree := hgrown.fresh 4096 hin List.not_mem_nil
  rw [Function.update_self] at hchunk hspaced hfree
  have hle : ∀ b ∈ bs, b.size ≤ maxBlksz := by
    intro b hb
    obtain ⟨pre, post, e⟩ := List.append_of_mem hb
    exact (hchunk.seg.block e).2.1
  have htotal : total bs = 65527 := by
    have := hchunk.ends
    have h1 : sizeofArena = 8 := rfl
    have h2 : arenaSize = 65536 := rfl
    omega
  obtain ⟨bs', rfl⟩ := first_whole hle hspaced hfree (by omega)
  rw [total_cons] at htotal
  obtain ⟨rest, rfl⟩ := first_whole (fun b hb => hle b (List.mem_cons_of_mem _ hb)) hspaced.tail
    (fun b hb => hfree b (List.mem_cons_of_mem _ hb)) (by simp only at htotal; omega)
  exact ⟨_, _, rest, rfl, ⟨hholds, rfl, Function.update_self .., rfl, rfl⟩⟩

/-- A run that fills the first arena: its first block is in use, the cursor is behind it, and no block from there on is large
enough for 126 bytes. -/
theorem first_arena_full : ∃ c bl pre post, (client arenaSize).Reach c ∧ OneArena c bl (whole :: pre) post ∧
    ∀ b ∈ post, ¬ b.Fits maxBlksz := by
  obtain ⟨g, bl, rest, hstart, h⟩ := start_oneArena
  have hfit : Block.Fits maxBlksz ⟨maxBlksz, .free⟩ := by decide
  -- the first request maps the arena
  obtain ⟨c₁, p₁, bl₁, hp₁, hlive₁, hrun₁, h₁⟩ := (show OneArena ⟨g, ∅⟩ bl [] ([] ++ _ :: _) from h).serve (by simp) hfit
  have hcall : stralloc arenaSize twoArenas 1 126 (Heap.init fun _ => 0) = .ok (c₁.heap, p₁) := by
    rw [stralloc, if_neg (by decide), if_neg (by decide), hstart]
    exact hrun₁
  have hstep₁ := Step.alloc (s := ⟨Heap.init fun _ => 0, ∅⟩) (by decide) twoArenas_ok hcall
  rw [if_neg hp₁, ← hlive₁] at hstep₁
  have hc₁ : (client arenaSize).Reach c₁ := .step _ (.init ⟨_, rfl⟩) hstep₁
  -- the second one moves the cursor behind the first block
  obtain ⟨c₂, p₂, bl₂, hp₂, hlive₂, hrun₂, h₂⟩   :=
    (show OneArena c₁ bl₁ [] ([whole] ++ _ :: rest) from h₁).serve (by decide) hfit
  have hc₂ : (client arenaSize).Reach c₂ := .step _ hc₁ (h₁.step hp₂ hlive₂ hrun₂)
  obtain ⟨c, bl', pre, post, hc, h', hnone⟩ := OneArena.fill c₂ bl₂ [] rest rfl hc₂ h₂
  exact ⟨c, bl', pre, whole :: post, hc, h', hnone⟩

/-- Then the first buffer is freed: the block in front of the cursor is the only free one that is large enough. -/
theorem first_block_free : ∃ c bl pre post, (client arenaSize).Reach c ∧
    OneArena c bl (⟨maxBlksz, .free⟩ :: pre) post ∧ ∀ b ∈ post, ¬ b.Fits maxBlksz := by
  obtain ⟨c, bl, pre, post, hc, h, hnone⟩ := first_arena_full
  have har : 4096 ∈ c.heap.arenas := by
    rw [h.arenas]
    exact List.mem_singleton_self _
  have hlive : (4105, 126) ∈ c.live := by
    refine (h.holds.live 4105 126).mpr ⟨4096, har, sizeofArena, ?_, rfl⟩
    rw [h.blocks]
    exact List.mem_cons_self
  obtain ⟨ar, har', pre', post', e, hp, hfree⟩ := strfree_live h.holds hlive
  rw [h.arenas, List.mem_singleton] at har'
  subst har'
  -- the buffer is the payload of the first block
  have hpre : pre' = [] := by
    cases pre' with
    | nil => rfl
    | cons b pre' =>
      have hb := (h.holds.chunk 4096 har).seg.pos b (by rw [e]; simp)
      have h8 : sizeofArena = 8 := rfl
      rw [total_cons] at hp
      omega
  subst hpre
  rw [h.blocks] at e
  obtain ⟨-, rfl⟩ := List.cons.inj e
  have hstep : Step arenaSize c (.free 4105) _ := Step.free (Or.inr ⟨126, hlive⟩) hfree
  have hblocks : bl 4096 = [] ++ ⟨126 + 1, .live⟩ :: (pre ++ post) := h.blocks
  have hholds := h.holds.free (by decide) har hblocks
  exact ⟨_, _, pre, post, .step _ hc hstep, ⟨hholds, h.arenas, Function.update_self .., h.current, h.offset⟩, hnone⟩

/-- The next request of 126 bytes maps a second arena, although the first one has a free block for it. -/
theorem second_arena : ∃ (c : Client) (g' : Heap) (p : Nat), (client arenaSize).Reach c ∧ c.heap.arenas = [4096] ∧
    stralloc arenaSize twoArenas 2 126 c.heap = .ok (g', p) ∧ ¬ GrownWhenFull c.heap g' 126 := by
  have hsize : sizeofArena < arenaSize := by decide
  obtain ⟨c, bl, pre, post, hc, h, hnone⟩ := first_block_free
  have har : 4096 ∈ c.heap.arenas := by
    rw [h.arenas]
    exact List.mem_singleton_self _
  have hring : ring c.heap.arenas 4096 = [] ++ [4096] := by
    rw [h.arenas]
    rfl
  have hnew : twoArenas c.heap.arenas = some 69632 := by
    rw [h.arenas]
    rfl
  obtain ⟨bs, hholds, -, hbig⟩ := h.holds.fresh hsize twoArenas_ok hnew (insertAfter_perm 69632 har)
  obtain ⟨rest, rfl⟩ := hbig (by decide)
  have hmap := (strallocLoop_map twoArenas 4096 1 hsize h.holds (show 126 ≤ maxLength by decide) har hring h.blocks h.offset
    hnone).2 _ hnew
  have hblocks : Function.update bl 69632 (⟨maxBlksz, .free⟩ :: rest) 69632 = [] ++ ([] ++ ⟨maxBlksz, .free⟩ :: rest) :=
    Function.update_self ..
  rw [strallocLoop_serve twoArenas 4096 0 hsize hholds (by decide) ((insertAfter_perm 69632 har).mem_iff.mpr List.mem_cons_self)
    hblocks rfl (by simp) (show Block.Fits 127 ⟨maxBlksz, .free⟩ by decide)] at hmap
  obtain ⟨g', p, hrun, harenas⟩ : ∃ g' p, strallocLoop arenaSize twoArenas 126 4096 2 c.heap 4096 = .ok (g', p) ∧
    g'.arenas = insertAfter c.heap.arenas 4096 69632 := ⟨_, _, hmap, rfl⟩
  have hcall : stralloc arenaSize twoArenas 2 126 c.heap = .ok (g', p) := by
    rw [stralloc, if_neg (by decide), if_neg (by decide), strallocStart, h.current]
    exact hrun
  have hchunk := h.holds.chunk 4096 har
  rw [h.blocks] at hchunk
  have hfree : FreeAt c.heap.mem 4096 sizeofArena maxBlksz :=
    hchunk.freeAt_iff.mpr ⟨⟨maxBlksz, .free⟩, by decide, List.mem_cons_self⟩
  have hne : g'.arenas ≠ c.heap.arenas := by
    intro heq
    have hlen := congrArg List.length heq
    rw [harenas, (insertAfter_perm 69632 har).length_eq, List.length_cons] at hlen
    omega
  exact ⟨c, g', p, hc, h.arenas, hcall, fun hgrown => hgrown hne 4096 har sizeofArena hfree⟩

/-! ## Exactly when -/

/-- In every reachable state: a request maps a new arena only if no arena has a free block that is large enough, if and only if
such a block in front of the cursor of the current arena is never the only kind there is. -/
theorem grown_when_full_iff {size len fuel p : Nat} {os : List Nat → Option Nat} {c : Client} {g' : Heap}
    (hsize : sizeofArena < size) (hc : (client size).Reach c) (hos : MmapOk size os) (h1 : 1 ≤ len) (hlen : len ≤ maxLength)
    (hcall : stralloc size os fuel len c.heap = .ok (g', p)) :
    GrownWhenFull c.heap g' len ↔ NotOnlyBehind c.heap (len + 1) := by
  obtain ⟨bl, h⟩ := inv_reach hsize hc
  exact h.grows_iff hsize hos h1 hlen hcall

/-- In the run above the only free block that is large enough is in front of the cursor. -/
theorem grown_when_full_second : ∃ (c : Client) (g' : Heap) (p : Nat), (client arenaSize).Reach c ∧ c.heap.arenas = [4096] ∧
    stralloc arenaSize twoArenas 2 126 c.heap = .ok (g', p) ∧ ¬ NotOnlyBehind c.heap 127 := by
  obtain ⟨c, g', p, hc, harenas, hcall, hnot⟩ := second_arena
  have hiff : GrownWhenFull c.heap g' 126 ↔ NotOnlyBehind c.heap 127 :=
    grown_when_full_iff (by decide) hc twoArenas_ok (by decide) (by decide) hcall
  exact ⟨c, g', p, hc, harenas, hcall, fun hbehind => hnot (hiff.mpr hbehind)⟩

/-- A request that maps an arena although there is room. -/
theorem not_grown_when_full : ¬ ∀ (c : Client) (len fuel p : Nat) (os : List Nat → Option Nat) (g' : Heap),
    (client arenaSize).Reach c → MmapOk arenaSize os → 1 ≤ len → len ≤ maxLength →
    stralloc arenaSize os fuel len c.heap = .ok (g', p) → GrownWhenFull c.heap g' len := by
  intro hall
  obtain ⟨c, g', p, hc, -, hcall, hnot⟩ := second_arena
  exact hnot (hall c 126 2 p twoArenas g' hc twoArenas_ok (by decide) (by decide) hcall)

end OsLabs.StrAlloc
