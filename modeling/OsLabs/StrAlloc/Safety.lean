import OsLabs.StrAlloc.Heap

/-!
# Every run keeps the heap well formed

The operations of the client one by one (`stralloc_post`, `strfree_live`, a store into a live buffer) keep the invariant `Inv`,
so it holds in every reachable state. What it says about the memory is then read off: `strmemcheck` accepts, the walk of an
arena visits the live buffers, these are disjoint, and a call leaves their bytes alone.
-/

namespace OsLabs.StrAlloc

/-! ## What the next request looks at -/

/-- The sizes of the free blocks of an arena from an offset on, as the headers in memory give them. -/
def scanFree (mem : Mem) (data : Nat) : Nat → Nat → List Nat
  | 0, _ => []
  | fuel + 1, off =>
    if header mem data off = 0 then []
    else if header mem data off < 0 then blockSize mem data off :: scanFree mem data fuel (off + blockSize mem data off)
    else scanFree mem data fuel (off + blockSize mem data off)

/-- The sizes of the free blocks that a request looks at, in order: those of the current arena from the cursor on, then those
of the other arenas round the list. -/
def scanSizes (size : Nat) (g : Heap) : List Nat :=
  match g.curArena with
  | none => []
  | some cur => scanFree g.mem cur size g.curOffset ++
      (ring g.arenas cur).tail.flatMap fun ar => scanFree g.mem ar size sizeofArena

theorem scanFree_eq {mem : Mem} {data : Nat} :
    ∀ (bs : List Block) (off fuel : Nat), Seg mem data off bs → header mem data (off + total bs) = 0 → bs.length < fuel →
      scanFree mem data fuel off = freeSizes bs := by
  intro bs
  induction bs with
  | nil =>
    intro off fuel _ hz hfuel
    obtain ⟨fuel, rfl⟩ : ∃ f, fuel = f + 1 := ⟨fuel - 1, by omega⟩
    rw [scanFree, if_pos (by simpa using hz)]
    rfl
  | cons b bs ih =>
    intro off fuel hseg hz hfuel
    obtain ⟨⟨hb1, -, hbh⟩, hrest⟩ := hseg
    rw [List.length_cons] at hfuel
    obtain ⟨fuel, rfl⟩ : ∃ f, fuel = f + 1 := ⟨fuel - 1, by omega⟩
    have hih := ih (off + b.size) fuel hrest (by rw [Nat.add_assoc, ← total_cons]; exact hz) (by omega)
    rw [scanFree, hbh, if_neg (Block.header_ne hb1), blockSize_of_header hbh, hih]
    by_cases hfree : b.status = .free
    · rw [if_pos (by rw [Block.header_free hfree]; omega)]
      simp [freeSizes, hfree]
    · rw [if_neg (by have := Block.header_pos hb1 hfree; omega)]
      simp [freeSizes, hfree]

/-- The cursor is on a block of the current arena, or on its end; before the first request there is no arena. -/
def OnBlock (g : Heap) (bl : Nat → List Block) : Prop :=
  match g.curArena with
  | none => g.arenas = []
  | some ar => ar ∈ g.arenas ∧ ∃ pre post, bl ar = pre ++ post ∧ g.curOffset = sizeofArena + total pre

/-- What `stralloc` does with a request of at least one byte. -/
theorem stralloc_post {size : Nat} {os : List Nat → Option Nat} {len : Nat} {live : Finset (Nat × Nat)}
    (hsize : sizeofArena < size) (hos : MmapOk size os) (h1 : 0 < len) (hlen : len ≤ maxLength) (fuel : Nat) (g : Heap)
    (bl : Nat → List Block) (h : Holds size g.mem g.arenas live bl) (hcur : OnBlock g bl) :
    LoopPost size os len live g.mem g.arenas bl (scanSizes size g) (g.arenas.length + 1) fuel
      (stralloc size os fuel len g) := by
  have hmax : maxBlksz = maxLength + 1 := rfl
  rw [stralloc, if_neg (by omega), if_neg (by omega), strallocStart]
  unfold OnBlock at hcur
  unfold scanSizes
  cases hc : g.curArena with
  | none =>
    rw [hc] at hcur
    simp only at hcur
    cases hnew : os g.arenas with
    | none => exact ⟨g.arenas, hnew⟩
    | some new =>
      obtain ⟨bs, hholds, hgrown, hbig⟩ := h.fresh hsize hos hnew (List.Perm.refl (new :: g.arenas))
      have hpost := strallocLoop_post new hsize hos hlen fuel
        { mem := initChunk size (g.mem.zero new size) new, arenas := allocFirstArena g.arenas new, curArena := some new,
          curOffset := sizeofArena } (Function.update bl new bs) new [] [] [] bs 1 hholds
        (by simp [allocFirstArena]) (by simp [allocFirstArena, hcur, ring]) (Function.update_self ..) rfl
        fun hb => ⟨Nat.le_refl 1, fun hno => ?_⟩
      · refine LoopPost.grown hgrown (fun _ => ?_) (fun hb => ?_) hpost
        · omega
        · obtain ⟨rest, rfl⟩ := hbig hb
          have hfit : Block.Fits (len + 1) ⟨maxBlksz, .free⟩ := ⟨rfl, by simp only; omega⟩
          have hfirst := find_freeSizes_some [] rest (by simp) hfit
          rw [List.nil_append] at hfirst
          rw [List.flatMap_nil, List.append_nil, hfirst]
          rfl
      · obtain ⟨rest, rfl⟩ := hbig hb
        exact absurd ⟨rfl, by simp only; omega⟩ (hno ⟨maxBlksz, .free⟩ List.mem_cons_self)
  | some cur =>
    rw [hc] at hcur
    obtain ⟨hin, pre, post, ebl, hoff⟩ := hcur
    obtain ⟨rest, hring⟩ := ring_head hin
    have hscan : ∀ ar ∈ g.arenas, ∀ pre post, bl ar = pre ++ post →
        scanFree g.mem ar size (sizeofArena + total pre) = freeSizes post := by
      intro ar har pre post e
      obtain ⟨hseg, hends, hzero⟩ := h.chunk ar har
      have hlength := hseg.length_le
      rw [e] at hseg hends hlength
      rw [total_append] at hends hlength
      rw [List.length_append] at hlength
      refine scanFree_eq post _ size (seg_append.mp hseg).2 ?_ (by omega)
      rw [show sizeofArena + total pre + total post = size - 1 by omega]
      exact hzero
    have hrest : (rest.flatMap fun ar => scanFree g.mem ar size sizeofArena) = rest.flatMap fun ar => freeSizes (bl ar) := by
      refine List.flatMap_congr fun ar har => ?_
      exact hscan ar ((ring_perm hin).mem_iff.mp (by rw [hring]; exact List.mem_cons_of_mem _ har)) [] (bl ar) rfl
    have hlen' : rest.length + 1 = g.arenas.length := by
      rw [← (ring_perm hin).length_eq, hring, List.length_cons]
    simp only [hring, List.tail_cons, hoff, hscan cur hin pre post ebl, hrest]
    exact strallocLoop_post cur hsize hos hlen fuel g bl cur [] rest pre post _ h hin hring ebl hoff fun _ =>
      ⟨by omega, fun _ => by omega⟩

/-! ## The invariant, step by step -/

/-- The blocks of the arenas after a request is served. -/
def served (bl : Nat → List Block) (ar len : Nat) (pre post : List Block) (b : Block) : Nat → List Block :=
  Function.update bl ar (pre ++ (b.split (len + 1) ++ post))

theorem Served.next {size len : Nat} {live : Finset (Nat × Nat)} {sizes : List Nat} {mem : Mem} {arenas : List Nat}
    {bl : Nat → List Block} {g' : Heap} {p : Nat} {mem₁ : Mem} {bl₁ : Nat → List Block} {ar : Nat} {pre post : List Block}
    {b : Block} (h : Served size len live sizes mem arenas bl g' p mem₁ bl₁ ar pre post b) (hsize : sizeofArena < size) :
    Holds size g'.mem g'.arenas (insert (p, len) live) (served bl₁ ar len pre post b) ∧
      OnBlock g' (served bl₁ ar len pre post b) := by
  refine ⟨?_, ?_⟩
  · rw [h.heap, h.ptr]
    exact h.holds.place hsize h.arena h.blocks h.fits
  · rw [OnBlock, h.cursor.1]
    exact ⟨h.arena, pre, _, Function.update_self .., h.cursor.2⟩

/-- A request that is served leaves the payload of every live buffer alone. -/
theorem Served.payload {size len : Nat} {live : Finset (Nat × Nat)} {sizes : List Nat} {mem : Mem} {arenas : List Nat}
    {bl : Nat → List Block} {g' : Heap} {p : Nat} {mem₁ : Mem} {bl₁ : Nat → List Block} {ar : Nat} {pre post : List Block}
    {b : Block} (h : Served size len live sizes mem arenas bl g' p mem₁ bl₁ ar pre post b)
    (h0 : Holds size mem arenas live bl) {q l i : Nat} (hq : (q, l) ∈ live) (hi : i < l) : g'.mem (q + i) = mem (q + i) := by
  have hb : (sizeofArena + total pre, b) ∈ placed sizeofArena (bl₁ ar) := mem_placed.mpr ⟨pre, post, h.blocks, rfl⟩
  have hb1 := (h.holds.block h.arena hb).1
  have hout : q + i < ar + (sizeofArena + total pre) ∨ ar + (sizeofArena + total pre + b.size) ≤ q + i := by
    rcases h.holds.payload hq hi h.arena hb with ⟨-, e⟩ | hout
    · have := h.fits.1
      rw [e] at this
      cases this
    · exact hout
  rw [h.heap, place_apply h.fits.2 hb1 hout]
  obtain ⟨x, hx, o, ho, rfl⟩ := (h0.live q l).mp hq
  have hblock := h0.block hx ho
  simp only at hblock
  exact h.grown.mem x hx _ (by omega) (by omega)

/-- A request that is served returns no live buffer. -/
theorem Served.fresh {size len : Nat} {live : Finset (Nat × Nat)} {sizes : List Nat} {mem : Mem} {arenas : List Nat}
    {bl : Nat → List Block} {g' : Heap} {p : Nat} {mem₁ : Mem} {bl₁ : Nat → List Block} {ar : Nat} {pre post : List Block}
    {b : Block} (h : Served size len live sizes mem arenas bl g' p mem₁ bl₁ ar pre post b) (l : Nat) : (p, l) ∉ live := by
  intro hp
  have hb : (sizeofArena + total pre, b) ∈ placed sizeofArena (bl₁ ar) := mem_placed.mpr ⟨pre, post, h.blocks, rfl⟩
  obtain ⟨x, hx, o, ho, he⟩ := (h.holds.live p l).mp hp
  have hptr := h.ptr
  have heq := (h.holds.block_eq h.arena hx hb ho (by omega)).2.2
  have hfree := h.fits.1
  rw [heq] at hfree
  cases hfree

/-- The block of a live buffer, as `strfree` finds it. -/
theorem strfree_live {size p len : Nat} {g : Heap} {live : Finset (Nat × Nat)} {bl : Nat → List Block}
    (h : Holds size g.mem g.arenas live bl) (hp : (p, len) ∈ live) :
    ∃ ar ∈ g.arenas, ∃ pre post, bl ar = pre ++ ⟨len + 1, .live⟩ :: post ∧ p = ar + (sizeofArena + total pre) + 1 ∧
      strfree size p g = .ok { g with mem := setHeader g.mem ar (sizeofArena + total pre) (-(len + 1 : Nat) : Int) } := by
  obtain ⟨ar, har, o, ho, rfl⟩ := (h.live p len).mp hp
  have hblock := h.block har ho
  obtain ⟨pre, post, e, rfl⟩ := mem_placed.mp ho
  refine ⟨ar, har, pre, post, e, rfl, ?_⟩
  obtain ⟨hseg, -, -⟩ := h.chunk ar har
  rw [e] at hseg
  have hlength := (seg_append.mp hseg).1.length_le
  simp only at hblock
  have hheader : (g.mem (ar + (sizeofArena + total pre))).toInt = (len + 1 : Nat) := by
    have := hblock.2.2.1
    rw [header] at this
    rw [this]
    simp [Block.header]
  have hwalk := strfreeWalk_ok g.mem ar pre sizeofArena size (seg_append.mp hseg).1 (by omega)
  rw [strfree, if_neg (by omega), Nat.add_sub_cancel, if_neg (by rw [hheader]; omega),
    findPtrArena_eq h.apart har (by omega) (by omega)]
  simp only [hwalk, bind, Except.bind, ne_eq, not_true_eq_false, if_false]
  rw [if_neg (by rw [hheader]; omega), hheader]
  rfl

/-- Freeing a block: the live blocks are the others. -/
theorem live_free {off o n : Nat} {pre post : List Block} {b : Block}
    (hpos : ∀ c ∈ pre ++ b :: post, 1 ≤ c.size) :
    (o, ⟨n, .live⟩) ∈ placed off (pre ++ { b with status := .free } :: post) ↔
      (o, ⟨n, .live⟩) ∈ placed off (pre ++ b :: post) ∧ o ≠ off + total pre := by
  have hb : (off + total pre, b) ∈ placed off (pre ++ b :: post) := mem_placed.mpr ⟨pre, post, rfl, rfl⟩
  have hb1 := hpos b (by simp)
  constructor
  · intro h
    have h' : (o, (⟨n, .live⟩ : Block)) ∈ placed off (pre ++ b :: post) := by
      simp only [placed_append, List.mem_append, placed, List.mem_cons, Prod.mk.injEq] at h ⊢
      rcases h with h | ⟨-, h⟩ | h
      · exact Or.inl h
      · cases h
      · exact Or.inr (Or.inr h)
    refine ⟨h', ?_⟩
    rintro rfl
    have hf : (off + total pre, ({ b with status := .free } : Block)) ∈ placed off (pre ++ { b with status := .free } :: post) :=
      mem_placed.mpr ⟨pre, post, rfl, rfl⟩
    rcases placed_cases h hf with ⟨-, e⟩ | hlt | hlt
    · cases e
    · obtain ⟨pre', post', e, -⟩ := mem_placed.mp h'
      have := hpos ⟨n, .live⟩ (by rw [e]; simp)
      omega
    · simp only at hlt
      omega
  · rintro ⟨h, hne⟩
    simp only [placed_append, List.mem_append, placed, List.mem_cons, Prod.mk.injEq] at h ⊢
    rcases h with h | ⟨h, -⟩ | h
    · exact Or.inl h
    · exact absurd h hne
    · exact Or.inr (Or.inr h)

/-- A block that changes its status keeps all blocks in their places. -/
theorem same_places {pre post pre' post' : List Block} {b : Block} (b' : Block) (e : pre ++ b :: post = pre' ++ post')
    (hb : b'.size = b.size) : ∃ pre₂ post₂, pre ++ b' :: post = pre₂ ++ post₂ ∧ total pre' = total pre₂ := by
  rcases List.append_eq_append_iff.mp e with ⟨as, e1, e2⟩ | ⟨as, e1, -⟩
  · cases as with
    | nil => exact ⟨pre, b' :: post, rfl, by rw [e1, List.append_nil]⟩
    | cons c as =>
      obtain ⟨rfl, rfl⟩ := List.cons.inj e2
      exact ⟨pre ++ b' :: as, post', by simp, by simp [e1, hb]⟩
  · exact ⟨pre', as ++ b' :: post, by rw [e1, List.append_assoc], rfl⟩

/-- A live buffer is freed: the invariant holds without it. -/
theorem Holds.free {size : Nat} {mem : Mem} {arenas : List Nat} {live : Finset (Nat × Nat)} {bl : Nat → List Block}
    (h : Holds size mem arenas live bl) (hsize : sizeofArena < size) {ar len : Nat} {pre post : List Block} (har : ar ∈ arenas)
    (e : bl ar = pre ++ ⟨len + 1, .live⟩ :: post) :
    Holds size (setHeader mem ar (sizeofArena + total pre) (-(len + 1 : Nat) : Int)) arenas
      (live.filter fun q => q.1 ≠ ar + (sizeofArena + total pre) + 1)
      (Function.update bl ar (pre ++ ⟨len + 1, .free⟩ :: post)) := by
  have hb : (sizeofArena + total pre, (⟨len + 1, .live⟩ : Block)) ∈ placed sizeofArena (bl ar) :=
    mem_placed.mpr ⟨pre, post, e, rfl⟩
  have hblock := h.block har hb
  simp only at hblock
  have hchunk := h.chunk ar har
  have hspaced := h.spaced ar har
  have hpos := hchunk.seg.pos
  rw [e] at hchunk hspaced hpos
  refine h.change hsize (fun x hx => Or.inr hx) har h.apart (fun x hx => setHeader_apply_ne _ (by omega))
    (hchunk.setStatus .free) (isChain_status .free hspaced (by nofun)) fun p n => ?_
  rw [Finset.mem_filter, h.live]
  constructor
  · rintro ⟨⟨x, hx, o, ho, rfl⟩, hne⟩
    refine ⟨x, hx, o, ?_, rfl⟩
    by_cases hxa : x = ar
    · subst hxa
      rw [Function.update_self]
      refine (live_free hpos).mpr ⟨e ▸ ho, ?_⟩
      rintro rfl
      exact hne rfl
    · rw [Function.update_of_ne hxa]
      exact ho
  · rintro ⟨x, hx, o, ho, rfl⟩
    by_cases hxa : x = ar
    · subst hxa
      rw [Function.update_self] at ho
      obtain ⟨ho, hne⟩ := (live_free hpos).mp ho
      refine ⟨⟨x, hx, o, e ▸ ho, rfl⟩, ?_⟩
      simp only
      omega
    · rw [Function.update_of_ne hxa] at ho
      refine ⟨⟨x, hx, o, ho, rfl⟩, fun he => hxa ?_⟩
      exact (h.block_eq hx har ho hb (by simp only at he; omega)).1

/-- A store into the payload of a live buffer keeps the invariant. -/
theorem Holds.store {size : Nat} {mem : Mem} {arenas : List Nat} {live : Finset (Nat × Nat)} {bl : Nat → List Block}
    (h : Holds size mem arenas live bl) {p len i : Nat} (c : Byte) (hp : (p, len) ∈ live) (hi : i < len) :
    Holds size (mem.store (p + i) c) arenas live bl := by
  refine ⟨h.apart, fun ar har => (h.chunk ar har).store c (fun pre b post e => ?_) ?_, h.spaced, h.live⟩
  · have hb : (sizeofArena + total pre, b) ∈ placed sizeofArena (bl ar) := mem_placed.mpr ⟨pre, post, e, rfl⟩
    have hb1 := (h.block har hb).1
    have := h.payload hp hi har hb
    omega
  · obtain ⟨x, hx, o, ho, rfl⟩ := (h.live p len).mp hp
    have hblock := h.block hx ho
    simp only at hblock
    by_cases hne : x = ar
    · subst hne
      omega
    · have := h.apart.of_ne hx har hne
      unfold ApartFrom at this
      omega

/-- The invariant of the allocator with its client. -/
structure Inv (size : Nat) (s : Client) (bl : Nat → List Block) : Prop where
  holds : Holds size s.heap.mem s.heap.arenas s.live bl
  cursor : OnBlock s.heap bl

/-- The payloads of the live buffers are the same in two memories. -/
def SamePayload (live : Finset (Nat × Nat)) (mem mem' : Mem) : Prop :=
  ∀ q l, (q, l) ∈ live → ∀ i, i < l → mem' (q + i) = mem (q + i)

/-- No block of the arenas is lost. -/
def NoLost (arenas : List Nat) (bl : Nat → List Block) : Prop := ∀ ar ∈ arenas, ∀ b ∈ bl ar, b.status ≠ .lost

theorem noLost_update {arenas : List Nat} {bl : Nat → List Block} {ar : Nat} {bs : List Block} (har : ar ∈ arenas) :
    NoLost arenas (Function.update bl ar bs) ↔
      (∀ x ∈ arenas, x ≠ ar → ∀ b ∈ bl x, b.status ≠ .lost) ∧ ∀ b ∈ bs, b.status ≠ .lost := by
  constructor
  · intro h
    refine ⟨fun x hx hne b hb => h x hx b (by rwa [Function.update_of_ne hne]), fun b hb => h ar har b ?_⟩
    rwa [Function.update_self]
  · rintro ⟨h1, h2⟩ x hx b hb
    by_cases he : x = ar
    · rw [he, Function.update_self] at hb
      exact h2 b hb
    · rw [Function.update_of_ne he] at hb
      exact h1 x hx he b hb

theorem noLost_split {arenas : List Nat} {bl : Nat → List Block} {ar : Nat} (har : ar ∈ arenas) :
    NoLost arenas bl ↔
      (∀ x ∈ arenas, x ≠ ar → ∀ b ∈ bl x, b.status ≠ .lost) ∧ ∀ b ∈ bl ar, b.status ≠ .lost := by
  rw [← noLost_update har, Function.update_eq_self]

/-- The first block that is large enough for a request is exactly as large: the request splits no block. -/
def ExactFit (size : Nat) (g : Heap) (len : Nat) : Prop :=
  ((scanSizes size g).find? fun n => decide (len + 1 ≤ n)).getD maxBlksz = len + 1

instance (size : Nat) (g : Heap) (len : Nat) : Decidable (ExactFit size g len) :=
  inferInstanceAs (Decidable (_ = _))

/-- A request loses a block exactly when it splits one. -/
theorem Served.noLost {size len : Nat} {live : Finset (Nat × Nat)} {sizes : List Nat} {mem : Mem} {arenas : List Nat}
    {bl : Nat → List Block} {g' : Heap} {p : Nat} {mem₁ : Mem} {bl₁ : Nat → List Block} {ar : Nat} {pre post : List Block}
    {b : Block} (h : Served size len live sizes mem arenas bl g' p mem₁ bl₁ ar pre post b) :
    NoLost g'.arenas (served bl₁ ar len pre post b) ↔ NoLost arenas bl ∧ b.size = len + 1 := by
  have hgrown : NoLost g'.arenas bl₁ ↔ NoLost arenas bl := by
    constructor
    · intro hno x hx c hc
      obtain ⟨hx', e⟩ := h.grown.sub x hx
      exact hno x hx' c (e ▸ hc)
    · intro hno x hx c hc
      by_cases hin : x ∈ arenas
      · exact hno x hin c ((h.grown.sub x hin).2 ▸ hc)
      · rw [h.grown.fresh x hx hin c hc]
        nofun
  rw [← hgrown]
  have hsplit : (∀ c ∈ b.split (len + 1), c.status ≠ .lost) ↔ b.size = len + 1 := by
    unfold Block.split
    split
    · simpa using ‹b.size = len + 1›
    · simpa using ‹¬ b.size = len + 1›
  rw [served, noLost_update h.arena, noLost_split h.arena, h.blocks, ← hsplit]
  have hfree := h.fits.1
  simp only [List.forall_mem_append, List.forall_mem_cons, hfree]
  tauto

/-- A request keeps the invariant and the payloads; it loses a block unless it finds one of exactly its size. -/
theorem Inv.alloc {size len fuel p : Nat} {os : List Nat → Option Nat} {s : Client} {g : Heap} {bl : Nat → List Block}
    (h : Inv size s bl) (hsize : sizeofArena < size) (hos : MmapOk size os) (hlen : len ≤ maxLength)
    (hcall : stralloc size os fuel len s.heap = .ok (g, p)) :
    ∃ bl', Inv size { heap := g, live := if p = 0 then s.live else insert (p, len) s.live } bl' ∧
      SamePayload s.live s.heap.mem g.mem ∧ (sizeofArena + maxBlksz < size →
        (NoLost g.arenas bl' ↔ NoLost s.heap.arenas bl ∧ (len = 0 ∨ ExactFit size s.heap len))) := by
  by_cases h0 : len = 0
  · subst h0
    rw [stralloc, if_neg (by omega), if_pos rfl] at hcall
    obtain ⟨rfl, rfl⟩ := Prod.mk.inj (Except.ok.inj hcall)
    exact ⟨bl, h, fun _ _ _ _ _ => rfl, fun _ => by simp⟩
  · have hpost := stralloc_post hsize hos (by omega) hlen fuel s.heap bl h.holds h.cursor
    rw [hcall] at hpost
    obtain ⟨mem₁, bl₁, ar, pre, post, b, hv⟩ := hpost
    obtain ⟨hholds, hcursor⟩ := hv.next hsize
    have hp : p ≠ 0 := by
      have := hv.ptr
      omega
    refine ⟨served bl₁ ar len pre post b, ⟨?_, hcursor⟩, fun q l hq i hi => hv.payload h.holds hq hi, fun hbig => ?_⟩
    · rw [if_neg hp]
      exact hholds
    · rw [hv.noLost, hv.first hbig]
      simp only [h0, false_or, ExactFit]

/-- `strfree` keeps the invariant and the payloads, and loses no block. -/
theorem Inv.free {size p : Nat} {s : Client} {g : Heap} {bl : Nat → List Block} (h : Inv size s bl)
    (hsize : sizeofArena < size) (hp : p = 0 ∨ ∃ len, (p, len) ∈ s.live) (hcall : strfree size p s.heap = .ok g) :
    ∃ bl', Inv size { heap := g, live := s.live.filter fun q => q.1 ≠ p } bl' ∧ SamePayload s.live s.heap.mem g.mem ∧
      (NoLost g.arenas bl' ↔ NoLost s.heap.arenas bl) := by
  rcases hp with rfl | ⟨len, hp⟩
  · rw [strfree, if_pos rfl] at hcall
    obtain rfl := Except.ok.inj hcall
    have hall : (s.live.filter fun q => q.1 ≠ 0) = s.live := by
      refine Finset.filter_true_of_mem fun q hq => ?_
      obtain ⟨x, -, o, -, e⟩ := (h.holds.live q.1 q.2).mp hq
      omega
    refine ⟨bl, ⟨?_, h.cursor⟩, fun _ _ _ _ _ => rfl, Iff.rfl⟩
    simp only [hall]
    exact h.holds
  · obtain ⟨ar, har, pre, post, e, rfl, hok⟩ := strfree_live h.holds hp
    rw [hok] at hcall
    obtain rfl := Except.ok.inj hcall
    have hb : (sizeofArena + total pre, (⟨len + 1, .live⟩ : Block)) ∈ placed sizeofArena (bl ar) :=
      mem_placed.mpr ⟨pre, post, e, rfl⟩
    refine ⟨_, ⟨h.holds.free hsize har e, ?_⟩, fun q l hq i hi => setHeader_apply_ne _ ?_, ?_⟩
    · -- the cursor stays on the same block
      have hcur := h.cursor
      unfold OnBlock at hcur ⊢
      cases hc : s.heap.curArena with
      | none => rw [hc] at hcur; exact hcur
      | some x =>
        rw [hc] at hcur
        obtain ⟨hx, pre', post', e', hoff⟩ := hcur
        by_cases hxa : x = ar
        · subst hxa
          obtain ⟨pre₂, post₂, e₂, ht⟩ := same_places ⟨len + 1, .free⟩ (e.symm.trans e') rfl
          exact ⟨hx, pre₂, post₂, by rw [Function.update_self, e₂], hoff.trans (by rw [ht])⟩
        · exact ⟨hx, pre', post', by rw [Function.update_of_ne hxa, e'], hoff⟩
    · have := h.holds.payload hq hi har hb
      simp only at this
      omega
    · rw [noLost_update har, noLost_split har, e]
      simp only [List.forall_mem_append, List.forall_mem_cons, ne_eq, reduceCtorEq, not_false_eq_true, true_and]

/-- Every step of the client keeps the invariant. -/
theorem Inv.step {size : Nat} {s s' : Client} {a : Act} {bl : Nat → List Block} (h : Inv size s bl)
    (hsize : sizeofArena < size) (hs : Step size s a s') : ∃ bl', Inv size s' bl' := by
  cases hs with
  | alloc hlen hos hcall =>
    obtain ⟨bl', h', -⟩ := h.alloc hsize hos hlen hcall
    exact ⟨bl', h'⟩
  | free hp hcall =>
    obtain ⟨bl', h', -⟩ := h.free hsize hp hcall
    exact ⟨bl', h'⟩
  | write c hp hi => exact ⟨bl, h.holds.store c hp hi, h.cursor⟩

/-- The allocator starts without arenas and without live buffers. -/
theorem inv_init {size : Nat} {s : Client} (h : (client size).init s) : Inv size s fun _ => [] := by
  obtain ⟨mem, rfl⟩ := h
  refine ⟨⟨List.Pairwise.nil, nofun, nofun, fun p len => ?_⟩, rfl⟩
  simp [Heap.init]

/-- The invariant holds in every reachable state. -/
theorem inv_reach {size : Nat} (hsize : sizeofArena < size) {s : Client} (hs : (client size).Reach s) :
    ∃ bl, Inv size s bl := by
  have hind : (client size).Inductive fun s => ∃ bl, Inv size s bl :=
    ⟨fun s h => ⟨_, inv_init h⟩, fun s a s' ⟨bl, h⟩ hst => h.step hsize hst⟩
  exact hind.reach hs

/-! ## What the invariant says about the memory -/

/-- The heap passes the allocator's own check, the walk of each arena ends on the zero byte at its end, and the live buffers are
disjoint blocks of the walk. -/
structure WellFormed (size : Nat) (s : Client) : Prop where
  memcheck : strmemcheck size s.heap = .ok ()
  ends : ∀ ar ∈ s.heap.arenas, OnWalk s.heap.mem ar (size - 1) ∧ header s.heap.mem ar (size - 1) = 0
  inside : ∀ ar ∈ s.heap.arenas, ∀ off, OnWalk s.heap.mem ar off → off ≠ size - 1 →
    off < size - 1 ∧ header s.heap.mem ar off ≠ 0
  live : ∀ p len, (p, len) ∈ s.live → ∃ ar ∈ s.heap.arenas, ∃ off, OnWalk s.heap.mem ar off ∧ off + (len + 1) ≤ size - 1 ∧
    header s.heap.mem ar off = len + 1 ∧ p = ar + off + 1
  disjoint : ∀ p len q l, (p, len) ∈ s.live → (q, l) ∈ s.live → (p, len) ≠ (q, l) → p + len + 1 ≤ q ∨ q + l + 1 ≤ p

theorem strmemcheck_ok {size : Nat} {g : Heap} (h : ∀ ar ∈ g.arenas, strmemcheckWalk size g.mem ar size sizeofArena = .ok ()) :
    strmemcheck size g = .ok () := by
  unfold strmemcheck
  generalize g.arenas = al at h
  induction al with
  | nil => rfl
  | cons ar al ih =>
    rw [List.forM_eq_forM, List.forM_cons, h ar List.mem_cons_self]
    exact ih fun x hx => h x (List.mem_cons_of_mem ar hx)

/-- The invariant gives the well-formedness of the heap. -/
theorem Inv.wellFormed {size : Nat} {s : Client} {bl : Nat → List Block} (h : Inv size s bl) (hsize : sizeofArena < size) :
    WellFormed size s := by
  have hlive : ∀ p len, (p, len) ∈ s.live → ∃ ar ∈ s.heap.arenas, ∃ off,
      (off, (⟨len + 1, .live⟩ : Block)) ∈ placed sizeofArena (bl ar) ∧ p = ar + off + 1 :=
    fun p len => (h.holds.live p len).mp
  refine ⟨strmemcheck_ok fun ar har => ?_, fun ar har => ?_, fun ar har off hw hne => ?_, fun p len hp => ?_,
    fun p len q l hp hq hne => ?_⟩
  · obtain ⟨hseg, hends, hzero⟩ := h.holds.chunk ar har
    have := hseg.length_le
    exact strmemcheckWalk_ok hzero (bl ar) sizeofArena size hseg hends (by omega)
  · have hchunk := h.holds.chunk ar har
    refine ⟨?_, hchunk.zero⟩
    rw [← hchunk.ends]
    exact hchunk.onWalk (bl ar) [] (by simp)
  · have hchunk := h.holds.chunk ar har
    obtain ⟨pre, post, e, rfl⟩ := hchunk.of_onWalk hw
    have hends := hchunk.ends
    cases post with
    | nil =>
      rw [e, List.append_nil] at hends
      exact absurd hends hne
    | cons b post =>
      obtain ⟨h1, -, hh⟩ := hchunk.seg.block e
      rw [e, total_append, total_cons] at hends
      exact ⟨by omega, by rw [hh]; exact Block.header_ne h1⟩
  · obtain ⟨ar, har, off, ho, rfl⟩ := hlive p len hp
    obtain ⟨-, -, hh, -, hle⟩ := h.holds.block har ho
    obtain ⟨pre, post, e, rfl⟩ := mem_placed.mp ho
    refine ⟨ar, har, _, (h.holds.chunk ar har).onWalk pre _ e, hle, ?_, rfl⟩
    rw [hh]
    simp [Block.header]
  · obtain ⟨ar, har, off, ho, rfl⟩ := hlive p len hp
    have hblock := h.holds.block har ho
    obtain ⟨x, hx, o, hb, rfl⟩ := hlive q l hq
    have hblock' := h.holds.block hx hb
    simp only at hblock hblock'
    by_cases hxa : ar = x
    · subst hxa
      rcases placed_cases ho hb with ⟨rfl, e⟩ | hlt | hlt
      · simp only [Block.mk.injEq, Nat.add_right_cancel_iff, and_true] at e
        exact absurd (by rw [e]) hne
      · simp only at hlt
        omega
      · simp only at hlt
        omega
    · have := h.holds.apart.of_ne har hx hxa
      unfold ApartFrom at this
      omega

/-- In every reachable state the heap is well formed, no call of `stralloc` or `strfree` changes a byte of a live buffer, and
`stralloc` returns no buffer that is live. -/
theorem stralloc_safe {size : Nat} (hsize : sizeofArena < size) {s : Client} (hs : (client size).Reach s) :
    WellFormed size s ∧
    (∀ a s', Step size s a s' → (∀ p i c, a ≠ .write p i c) →
      ∀ q l, (q, l) ∈ s.live → ∀ i, i < l → s'.heap.mem (q + i) = s.heap.mem (q + i)) ∧
    ∀ len os fuel g p, len ≤ maxLength → MmapOk size os → stralloc size os fuel len s.heap = .ok (g, p) →
      ∀ l, (p, l) ∉ s.live := by
  obtain ⟨bl, h⟩ := inv_reach hsize hs
  refine ⟨h.wellFormed hsize, fun a s' hst hwrite => ?_, fun len os fuel g p hlen hos hcall l => ?_⟩
  rotate_left
  · by_cases h0 : len = 0
    · rw [stralloc, if_neg (by omega), if_pos h0] at hcall
      obtain ⟨-, rfl⟩ := Prod.mk.inj (Except.ok.inj hcall)
      intro hp
      obtain ⟨x, -, o, -, e⟩ := (h.holds.live 0 l).mp hp
      omega
    · have hpost := stralloc_post hsize hos (by omega) hlen fuel s.heap bl h.holds h.cursor
      rw [hcall] at hpost
      obtain ⟨_, _, _, _, _, _, hv⟩ := hpost
      exact hv.fresh l
  cases hst with
  | alloc hlen hos hcall =>
    obtain ⟨bl', -, hsame, -⟩ := h.alloc hsize hos hlen hcall
    exact hsame
  | free hp hcall =>
    obtain ⟨bl', -, hsame, -⟩ := h.free hsize hp hcall
    exact hsame
  | write c _ _ => exact absurd rfl (hwrite _ _ c)

/-- No call of a client that follows the rules stops the program: a request returns after at most one round of the arenas and one
fresh arena, unless `mmap` fails, and `strfree` accepts `NULL` and the live buffers. -/
theorem calls_return {size : Nat} (hbig : sizeofArena + maxBlksz < size) {s : Client} (hs : (client size).Reach s) :
    (∀ len os, len ≤ maxLength → MmapOk size os →
      (∃ r, stralloc size os (s.heap.arenas.length + 1) len s.heap = .ok r) ∨
        stralloc size os (s.heap.arenas.length + 1) len s.heap = .error .mmapError) ∧
      ∀ p, (p = 0 ∨ ∃ len, (p, len) ∈ s.live) → ∃ g, strfree size p s.heap = .ok g := by
  have hsize : sizeofArena < size := by omega
  obtain ⟨bl, h⟩ := inv_reach hsize hs
  refine ⟨fun len os hlen hos => ?_, fun p hp => ?_⟩
  · by_cases h0 : len = 0
    · rw [stralloc, if_neg (by omega), if_pos h0]
      exact Or.inl ⟨_, rfl⟩
    · have hpost := stralloc_post hsize hos (by omega) hlen (s.heap.arenas.length + 1) s.heap bl h.holds h.cursor
      cases hr : stralloc size os (s.heap.arenas.length + 1) len s.heap with
      | ok r => exact Or.inl ⟨r, rfl⟩
      | error e =>
        rw [hr] at hpost
        cases e with
        | assertion => exact hpost.elim
        | mmapError => exact Or.inr rfl
        | fuel => exact absurd (hpost hbig) (Nat.lt_irrefl _)
  · rcases hp with rfl | ⟨len, hp⟩
    · exact ⟨s.heap, by rw [strfree, if_pos rfl]⟩
    · obtain ⟨_, _, _, _, _, _, hok⟩ := strfree_live h.holds hp
      exact ⟨_, hok⟩

/-! ## The first request -/

/-- The heap after the first request, when the first arena is mapped at `new`. -/
def firstHeap (size new len : Nat) (mem : Mem) : Heap where
  mem := place (initChunk size (mem.zero new size) new) new sizeofArena (len + 1) ⟨maxBlksz, .free⟩
  arenas := [new]
  curArena := some new
  curOffset := sizeofArena

/-- The first request takes the front of the first arena. -/
theorem stralloc_first {size new len fuel : Nat} {os : List Nat → Option Nat} (mem : Mem)
    (hbig : sizeofArena + maxBlksz < size) (hlen : len ≤ maxLength) (h1 : 0 < len) (hos : os [] = some new) :
    stralloc size os (fuel + 1) len (Heap.init mem) = .ok (firstHeap size new len mem, new + sizeofArena + 1) := by
  have hmax : maxBlksz = maxLength + 1 := rfl
  obtain ⟨bs, hchunk, -, -, hfirst, -⟩ := initChunk_spec (mem.zero new size) new (show sizeofArena < size by omega)
  obtain ⟨rest, rfl⟩ := hfirst hbig
  have hscan := allocBlock_take (len + 1) (size - 1) (by omega) hchunk.seg.1.1 hchunk.seg.1.2.1
    hchunk.seg.1.2.2 ⟨rfl, by simp only; omega⟩
  rw [show size - 1 + 1 = size by omega] at hscan
  rw [stralloc, if_neg (by omega), if_neg (by omega), strallocStart]
  simp only [Heap.init, hos, bind, Except.bind, strallocLoop, hscan]
  rfl

/-- A client after one request of five bytes. -/
def afterFirst : Client where
  heap := firstHeap arenaSize 4096 5 fun _ => 0
  live := {(4105, 5)}

theorem afterFirst_step : Step arenaSize ⟨Heap.init fun _ => 0, ∅⟩ (.alloc 5 oneArena) afterFirst := by
  have hcall : stralloc arenaSize oneArena 1 5 (Heap.init fun _ => 0) = .ok (afterFirst.heap, 4105) :=
    stralloc_first _ (by decide) (by decide) (by decide) rfl
  exact Step.alloc (s := ⟨Heap.init fun _ => 0, ∅⟩) (by decide) oneArena_ok hcall

theorem afterFirst_reach : (client arenaSize).Reach afterFirst :=
  .step (.alloc 5 oneArena) (.init ⟨_, rfl⟩) afterFirst_step

/-- The run of one request meets the condition of the theorem. -/
theorem stralloc_safe_first : WellFormed arenaSize afterFirst := (stralloc_safe (by decide) afterFirst_reach).1

end OsLabs.StrAlloc
