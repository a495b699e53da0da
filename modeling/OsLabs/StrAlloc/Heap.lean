import OsLabs.StrAlloc.Walk

/-!
# The invariant of the string allocator

`Holds` says that every arena holds a spaced list of blocks and that the client's live buffers are the live blocks. `stralloc`
goes round the arenas in the order `ring`; each round either serves the request from the first block that fits (`Served`) or,
after the last arena, maps a fresh one (`Grown`). No branch of `alloc_block` that merges is ever taken.
-/

namespace OsLabs.StrAlloc

/-! ## The order of the arenas -/

/-- The order in which `stralloc` looks at the arenas: from `cur` on round the list. -/
def ring (al : List Nat) (cur : Nat) : List Nat :=
  al.dropWhile (fun ar => decide (ar ≠ cur)) ++ al.takeWhile (fun ar => decide (ar ≠ cur))

theorem ring_eq {pre post : List Nat} {cur : Nat} (h : cur ∉ pre) : ring (pre ++ cur :: post) cur = cur :: (post ++ pre) := by
  have hp : ∀ ar ∈ pre, decide (ar ≠ cur) = true := by
    intro ar har
    simpa using fun e : ar = cur => h (e ▸ har)
  rw [ring, List.dropWhile_append_of_pos hp, List.takeWhile_append_of_pos hp]
  simp

/-- The arenas of the ring are those of the list. -/
theorem ring_perm {al : List Nat} {cur : Nat} (h : cur ∈ al) : (ring al cur).Perm al := by
  obtain ⟨pre, post, rfl, hpre⟩ := List.eq_append_cons_of_mem h
  rw [ring_eq hpre, ← List.cons_append]
  exact List.perm_append_comm

/-- A ring starts with its arena. -/
theorem ring_head {al : List Nat} {cur : Nat} (h : cur ∈ al) : ∃ rest, ring al cur = cur :: rest := by
  obtain ⟨pre, post, rfl, hpre⟩ := List.eq_append_cons_of_mem h
  exact ⟨post ++ pre, ring_eq hpre⟩

/-- The arenas of a ring are those of the list. -/
theorem mem_of_ring {al done todo : List Nat} {cur ar : Nat} (hcur : cur ∈ al) (h : ring al cur = done ++ ar :: todo) : ar ∈ al := by
  refine (ring_perm hcur).mem_iff.mp ?_
  rw [h]
  exact List.mem_append_right done List.mem_cons_self

theorem nextArena_append {pre post : List Nat} {ar : Nat} (h : ar ∉ pre) : nextArena (pre ++ ar :: post) ar = post.head? := by
  induction pre with
  | nil => simp [nextArena]
  | cons a pre ih =>
    rw [List.mem_cons, not_or] at h
    rw [List.cons_append, nextArena, if_neg (Ne.symm h.1)]
    exact ih h.2

/-- The step of `stralloc` to the next arena, or from the last to the first, goes round the ring. -/
theorem ring_next {al done todo : List Nat} {cur ar : Nat} (hnd : al.Nodup) (hcur : cur ∈ al)
    (h : ring al cur = done ++ ar :: todo) : (nextArena al ar).or al.head? = some (todo.head?.getD cur) := by
  obtain ⟨pre, post, rfl, hpre⟩ := List.eq_append_cons_of_mem hcur
  rw [ring_eq hpre] at h
  -- the place of `ar` in the list: it is `cur`, or stands before it, or behind it
  have key : ∀ x y, pre ++ cur :: post = x ++ ar :: y → nextArena (pre ++ cur :: post) ar = y.head? := by
    intro x y e
    rw [e] at hnd ⊢
    refine nextArena_append fun hx => ?_
    exact (List.disjoint_of_nodup_append hnd hx) List.mem_cons_self
  cases done with
  | nil =>
    obtain ⟨rfl, rfl⟩ := List.cons.inj h
    rw [key pre post rfl]
    cases post <;> cases pre <;> simp
  | cons c done =>
    obtain ⟨rfl, hrest⟩ := List.cons.inj h
    rcases List.append_eq_append_iff.mp hrest with ⟨as, -, e⟩ | ⟨as, e, e'⟩
    · rw [key as (todo ++ cur :: post) (by rw [e]; simp)]
      cases todo <;> simp
    · cases as with
      | nil =>
        rw [key [] (todo ++ cur :: post) (by rw [← List.nil_append pre, ← e']; simp)]
        cases todo <;> simp
      | cons a as =>
        obtain ⟨rfl, rfl⟩ := List.cons.inj e'
        rw [key (pre ++ cur :: done) as (by rw [e]; simp)]
        cases as <;> cases pre <;> simp

/-- Only the first arena of a ring is the one it starts from. -/
theorem ring_ne {al done todo : List Nat} {cur ar x : Nat} (hnd : al.Nodup) (hcur : cur ∈ al)
    (h : ring al cur = done ++ ar :: x :: todo) : x ≠ cur := by
  rintro rfl
  obtain ⟨rest, hrest⟩ := ring_head hcur
  have hnd' : (ring al x).Nodup := (ring_perm hcur).nodup_iff.mpr hnd
  rw [hrest] at h
  rw [hrest, List.nodup_cons] at hnd'
  refine hnd'.1 ?_
  cases done with
  | nil =>
    rw [(List.cons.inj h).2]
    exact List.mem_cons_self
  | cons c done =>
    rw [(List.cons.inj h).2]
    simp

/-- The arena mapped after `cur` is the next one of the ring. -/
theorem ring_insertAfter {al : List Nat} {cur : Nat} (new : Nat) (h : cur ∈ al) :
    ring (insertAfter al cur new) cur = cur :: new :: (ring al cur).tail := by
  obtain ⟨pre, post, rfl, hpre⟩ := List.eq_append_cons_of_mem h
  have hins : insertAfter (pre ++ cur :: post) cur new = pre ++ cur :: new :: post := by
    clear h
    induction pre with
    | nil => simp [insertAfter]
    | cons a pre ih =>
      rw [List.mem_cons, not_or] at hpre
      rw [List.cons_append, insertAfter, if_neg (Ne.symm hpre.1), ih hpre.2, List.cons_append]
  rw [hins, ring_eq hpre, ring_eq hpre]
  rfl

/-! ## Blocks with their offsets -/

/-- The blocks of a list with their offsets. -/
def placed : Nat → List Block → List (Nat × Block)
  | _, [] => []
  | off, b :: bs => (off, b) :: placed (off + b.size) bs

@[simp] theorem placed_append (off : Nat) (bs cs : List Block) :
    placed off (bs ++ cs) = placed off bs ++ placed (off + total bs) cs := by
  induction bs generalizing off with
  | nil => simp [placed]
  | cons b bs ih => simp [placed, ih, Nat.add_assoc]

theorem mem_placed_append {off : Nat} {q : Nat × Block} {bs cs : List Block} :
    q ∈ placed off (bs ++ cs) ↔ q ∈ placed off bs ∨ q ∈ placed (off + total bs) cs := by
  rw [placed_append, List.mem_append]

theorem mem_placed {off o : Nat} {bs : List Block} {b : Block} :
    (o, b) ∈ placed off bs ↔ ∃ pre post, bs = pre ++ b :: post ∧ o = off + total pre := by
  constructor
  · intro h
    induction bs generalizing off with
    | nil => cases h
    | cons c bs ih =>
      rcases List.mem_cons.mp h with h | h
      · obtain ⟨rfl, rfl⟩ := Prod.mk.inj h
        exact ⟨[], bs, rfl, by simp⟩
      · obtain ⟨pre, post, rfl, rfl⟩ := ih h
        exact ⟨c :: pre, post, rfl, by rw [total_cons, Nat.add_assoc]⟩
  · rintro ⟨pre, post, rfl, rfl⟩
    simp [placed]

/-- Two blocks of a list are the same one, or one lies behind the other. -/
theorem placed_cases {off o o' : Nat} {bs : List Block} {b b' : Block} (h : (o, b) ∈ placed off bs)
    (h' : (o', b') ∈ placed off bs) : (o = o' ∧ b = b') ∨ o + b.size ≤ o' ∨ o' + b'.size ≤ o := by
  obtain ⟨pre, post, e, rfl⟩ := mem_placed.mp h
  obtain ⟨pre', post', e', rfl⟩ := mem_placed.mp h'
  rcases block_cases (e.symm.trans e') with ⟨rfl, rfl, -⟩ | h | h
  · exact Or.inl ⟨rfl, rfl⟩
  · exact Or.inr (Or.inl (by omega))
  · exact Or.inr (Or.inr (by omega))

/-- Blocks stand behind the place where their list starts, and in front of its end. -/
theorem placed_bounds {off o : Nat} {bs : List Block} {b : Block} (h : (o, b) ∈ placed off bs) :
    off ≤ o ∧ o + b.size ≤ off + total bs := by
  obtain ⟨pre, post, rfl, rfl⟩ := mem_placed.mp h
  rw [total_append, total_cons]
  omega

theorem exists_placed (off : Nat) {bs : List Block} {b : Block} (h : b ∈ bs) : ∃ o, (o, b) ∈ placed off bs := by
  obtain ⟨pre, post, rfl⟩ := List.append_of_mem h
  exact ⟨_, mem_placed.mpr ⟨pre, post, rfl, rfl⟩⟩

theorem mem_of_placed {off o : Nat} {bs : List Block} {b : Block} (h : (o, b) ∈ placed off bs) : b ∈ bs := by
  obtain ⟨pre, post, rfl, -⟩ := mem_placed.mp h
  simp

/-! ## The invariant -/

/-- The arenas hold the blocks `bl`, and the live buffers are the live blocks. -/
structure Holds (size : Nat) (mem : Mem) (arenas : List Nat) (live : Finset (Nat × Nat)) (bl : Nat → List Block) : Prop where
  apart : Apart size arenas
  chunk : ∀ ar ∈ arenas, Chunk size mem ar (bl ar)
  spaced : ∀ ar ∈ arenas, (bl ar).IsChain Spaced
  live : ∀ p len, (p, len) ∈ live ↔
    ∃ ar ∈ arenas, ∃ o, (o, ⟨len + 1, .live⟩) ∈ placed sizeofArena (bl ar) ∧ p = ar + o + 1

/-- A block of an arena, with the facts that its place gives. -/
theorem Holds.block {size : Nat} {mem : Mem} {arenas : List Nat} {live : Finset (Nat × Nat)} {bl : Nat → List Block}
    (h : Holds size mem arenas live bl) {ar o : Nat} {b : Block} (har : ar ∈ arenas)
    (hb : (o, b) ∈ placed sizeofArena (bl ar)) :
    1 ≤ b.size ∧ b.size ≤ maxBlksz ∧ header mem ar o = b.header ∧ sizeofArena ≤ o ∧ o + b.size ≤ size - 1 := by
  obtain ⟨pre, post, e, rfl⟩ := mem_placed.mp hb
  obtain ⟨h1, h2, h3⟩ := (h.chunk ar har).seg.block e
  have hends := (h.chunk ar har).ends
  rw [e, total_append, total_cons] at hends
  exact ⟨h1, h2, h3, by omega, by omega⟩

/-- Two blocks of a heap at one address are the same block. -/
theorem Holds.block_eq {size : Nat} {mem : Mem} {arenas : List Nat} {live : Finset (Nat × Nat)} {bl : Nat → List Block}
    (h : Holds size mem arenas live bl) {ar ar' o o' : Nat} {b b' : Block} (har : ar ∈ arenas) (har' : ar' ∈ arenas)
    (hb : (o, b) ∈ placed sizeofArena (bl ar)) (hb' : (o', b') ∈ placed sizeofArena (bl ar')) (he : ar + o = ar' + o') :
    ar = ar' ∧ o = o' ∧ b = b' := by
  have h1 := h.block har hb
  have h2 := h.block har' hb'
  obtain rfl : ar = ar' := by
    by_contra hne
    have := h.apart.of_ne har har' hne
    unfold ApartFrom at this
    omega
  rcases placed_cases hb hb' with ⟨rfl, rfl⟩ | h | h
  · exact ⟨rfl, rfl, rfl⟩
  · omega
  · omega

/-- A payload byte of a live buffer lies outside every other block. -/
theorem Holds.payload {size : Nat} {mem : Mem} {arenas : List Nat} {live : Finset (Nat × Nat)} {bl : Nat → List Block}
    (h : Holds size mem arenas live bl) {q l i ar o : Nat} {b : Block} (hq : (q, l) ∈ live) (hi : i < l)
    (har : ar ∈ arenas) (hb : (o, b) ∈ placed sizeofArena (bl ar)) :
    (q = ar + o + 1 ∧ b = ⟨l + 1, .live⟩) ∨ q + i < ar + o ∨ ar + (o + b.size) ≤ q + i := by
  obtain ⟨ar', har', o', hb', rfl⟩ := (h.live q l).mp hq
  have h1 := h.block har hb
  have h2 := h.block har' hb'
  simp only at h2
  by_cases hne : ar' = ar
  · subst hne
    rcases placed_cases hb hb' with ⟨rfl, rfl⟩ | h | h
    · exact Or.inl ⟨rfl, rfl⟩
    · exact Or.inr (Or.inr (by omega))
    · simp only at h
      exact Or.inr (Or.inl (by omega))
  · have := h.apart.of_ne har' har hne
    unfold ApartFrom at this
    exact Or.inr (by omega)

/-- The invariant after a change of one arena: what is to be shown about that arena and the live buffers. -/
theorem Holds.change {size : Nat} {mem mem' : Mem} {arenas arenas' : List Nat} {live live' : Finset (Nat × Nat)}
    {bl : Nat → List Block} {ar : Nat} {bs : List Block} (h : Holds size mem arenas live bl) (hsize : sizeofArena < size)
    (hin : ∀ x ∈ arenas', x = ar ∨ x ∈ arenas) (har : ar ∈ arenas') (hap : Apart size arenas')
    (hframe : ∀ x, x < ar ∨ ar + size ≤ x → mem' x = mem x) (hc : Chunk size mem' ar bs) (hs : bs.IsChain Spaced)
    (hlive : ∀ p len, (p, len) ∈ live' ↔ ∃ x ∈ arenas', ∃ o,
      (o, ⟨len + 1, .live⟩) ∈ placed sizeofArena (Function.update bl ar bs x) ∧ p = x + o + 1) :
    Holds size mem' arenas' live' (Function.update bl ar bs) := by
  refine ⟨hap, fun x hx => ?_, fun x hx => ?_, hlive⟩
  · by_cases he : x = ar
    · rw [he, Function.update_self]
      exact hc
    · rw [Function.update_of_ne he]
      have hapart := hap.of_ne hx har he
      unfold ApartFrom at hapart
      exact (h.chunk x ((hin x hx).resolve_left he)).frame hsize fun y _ _ => hframe y (by omega)
  · by_cases he : x = ar
    · rw [he, Function.update_self]
      exact hs
    · rw [Function.update_of_ne he]
      exact h.spaced x ((hin x hx).resolve_left he)

/-- The blocks after a split: the block handed out is the only new live one. -/
theorem live_split {off o n len : Nat} {pre post : List Block} {b : Block} (hfit : b.Fits len) :
    (o, ⟨n, .live⟩) ∈ placed off (pre ++ (b.split len ++ post)) ↔
      (o, ⟨n, .live⟩) ∈ placed off (pre ++ b :: post) ∨ (o = off + total pre ∧ n = len) := by
  have hb : ¬ (⟨n, .live⟩ : Block) = b := by
    rintro rfl
    exact absurd hfit.1 (by nofun)
  simp only [placed_append, total_split hfit.2, List.mem_append, placed, List.mem_cons, Prod.mk.injEq]
  have hsp : (o, (⟨n, .live⟩ : Block)) ∈ placed (off + total pre) (b.split len) ↔ o = off + total pre ∧ n = len := by
    unfold Block.split
    split <;> simp [placed]
  rw [hsp]
  tauto

/-- A request that a block serves: the invariant holds with one more live buffer. -/
theorem Holds.place {size : Nat} {mem : Mem} {arenas : List Nat} {live : Finset (Nat × Nat)} {bl : Nat → List Block}
    (h : Holds size mem arenas live bl) (hsize : sizeofArena < size) {ar len : Nat} {pre post : List Block} {b : Block}
    (har : ar ∈ arenas) (e : bl ar = pre ++ b :: post) (hfit : b.Fits (len + 1)) :
    Holds size (place mem ar (sizeofArena + total pre) (len + 1) b) arenas
      (insert (ar + (sizeofArena + total pre) + 1, len) live)
      (Function.update bl ar (pre ++ (b.split (len + 1) ++ post))) := by
  have hb : (sizeofArena + total pre, b) ∈ placed sizeofArena (bl ar) := mem_placed.mpr ⟨pre, post, e, rfl⟩
  have hblock := h.block har hb
  have hchunk := h.chunk ar har
  have hspaced := h.spaced ar har
  rw [e] at hchunk hspaced
  refine h.change hsize (fun x hx => Or.inr hx) har h.apart (fun x hx => place_apply hfit.2 hblock.1 (by omega))
    (hchunk.place (by omega) hfit.2) (isChain_split_block hspaced hfit.1) fun p n => ?_
  rw [Finset.mem_insert, Prod.mk.injEq, h.live]
  constructor
  · rintro (⟨rfl, rfl⟩ | ⟨x, hx, o, ho, rfl⟩)
    · refine ⟨ar, har, sizeofArena + total pre, ?_, rfl⟩
      rw [Function.update_self]
      exact (live_split hfit).mpr (Or.inr ⟨rfl, rfl⟩)
    · refine ⟨x, hx, o, ?_, rfl⟩
      by_cases he : x = ar
      · subst he
        rw [Function.update_self]
        exact (live_split hfit).mpr (Or.inl (e ▸ ho))
      · rw [Function.update_of_ne he]
        exact ho
  · rintro ⟨x, hx, o, ho, rfl⟩
    by_cases he : x = ar
    · subst he
      rw [Function.update_self] at ho
      rcases (live_split hfit).mp ho with ho | ⟨rfl, hn⟩
      · exact Or.inr ⟨x, hx, o, e ▸ ho, rfl⟩
      · exact Or.inl ⟨rfl, by omega⟩
    · rw [Function.update_of_ne he] at ho
      exact Or.inr ⟨x, hx, o, ho, rfl⟩

/-- The arenas of a heap are still there in a later one, unchanged, and the new ones hold only free blocks. -/
structure Grown (size : Nat) (mem : Mem) (arenas : List Nat) (bl : Nat → List Block) (mem' : Mem) (arenas' : List Nat)
    (bl' : Nat → List Block) : Prop where
  sub : ∀ ar ∈ arenas, ar ∈ arenas' ∧ bl' ar = bl ar
  mem : ∀ ar ∈ arenas, ∀ x, ar ≤ x → x < ar + size → mem' x = mem x
  fresh : ∀ ar ∈ arenas', ar ∉ arenas → ∀ b ∈ bl' ar, b.status = .free

theorem Grown.refl (size : Nat) (mem : Mem) (arenas : List Nat) (bl : Nat → List Block) :
    Grown size mem arenas bl mem arenas bl :=
  ⟨fun _ h => ⟨h, rfl⟩, fun _ _ _ _ _ => rfl, fun _ h h' => absurd h h'⟩

theorem Grown.trans {size : Nat} {mem₁ mem₂ mem₃ : Mem} {al₁ al₂ al₃ : List Nat} {bl₁ bl₂ bl₃ : Nat → List Block}
    (h : Grown size mem₁ al₁ bl₁ mem₂ al₂ bl₂) (h' : Grown size mem₂ al₂ bl₂ mem₃ al₃ bl₃) :
    Grown size mem₁ al₁ bl₁ mem₃ al₃ bl₃ := by
  refine ⟨fun ar har => ?_, fun ar har x h1 h2 => ?_, fun ar har hnot b hb => ?_⟩
  · obtain ⟨h2, e⟩ := h.sub ar har
    obtain ⟨h3, e'⟩ := h'.sub ar h2
    exact ⟨h3, e'.trans e⟩
  · rw [h'.mem ar (h.sub ar har).1 x h1 h2, h.mem ar har x h1 h2]
  · by_cases h2 : ar ∈ al₂
    · rw [(h'.sub ar h2).2] at hb
      exact h.fresh ar h2 hnot b hb
    · exact h'.fresh ar har h2 b hb

/-- A fresh arena: the invariant holds with its free blocks. -/
theorem Holds.fresh {size : Nat} {mem : Mem} {arenas arenas' : List Nat} {live : Finset (Nat × Nat)}
    {bl : Nat → List Block} (h : Holds size mem arenas live bl) (hsize : sizeofArena < size)
    {os : List Nat → Option Nat} (hos : MmapOk size os) {new : Nat} (hnew : os arenas = some new)
    (hp : arenas'.Perm (new :: arenas)) :
    ∃ bs, Holds size (initChunk size (mem.zero new size) new) arenas' live (Function.update bl new bs) ∧
      Grown size mem arenas bl (initChunk size (mem.zero new size) new) arenas' (Function.update bl new bs) ∧
      (sizeofArena + maxBlksz < size → ∃ rest, bs = ⟨maxBlksz, .free⟩ :: rest) := by
  obtain ⟨bs, hchunk, hspaced, hfree, hbig, hframe⟩ := initChunk_spec (mem.zero new size) new hsize
  have hnot := not_mem_of_mmapOk hos (by omega) hnew
  have hin : ∀ x, x ∈ arenas' ↔ x = new ∨ x ∈ arenas := fun x => by rw [hp.mem_iff, List.mem_cons]
  have hframe' : ∀ x, x < new ∨ new + size ≤ x → initChunk size (mem.zero new size) new x = mem x := fun x hx => by
    rw [hframe x (by omega), mem.zero_outside hx]
  refine ⟨bs, h.change hsize (fun x hx => (hin x).mp hx) ((hin new).mpr (Or.inl rfl))
    (h.apart.insert hp (hos arenas new hnew).2.2) hframe' hchunk hspaced fun p len => ?_, ?_, hbig⟩
  rotate_left
  · refine ⟨fun x hx => ⟨(hin x).mpr (Or.inr hx), Function.update_of_ne (fun e : x = new => hnot (e ▸ hx)) _ _⟩,
      fun x hx y h1 h2 => ?_, fun x hx hx' b hb => ?_⟩
    · have := (hos arenas new hnew).2.2 x hx
      exact hframe' y (by omega)
    · rw [((hin x).mp hx).resolve_right hx', Function.update_self] at hb
      exact hfree b hb
  rw [h.live]
  constructor
  · rintro ⟨x, hx, o, ho, rfl⟩
    refine ⟨x, (hin x).mpr (Or.inr hx), o, ?_, rfl⟩
    rw [Function.update_of_ne (fun e : x = new => hnot (e ▸ hx))]
    exact ho
  · rintro ⟨x, hx, o, ho, rfl⟩
    by_cases he : x = new
    · subst he
      rw [Function.update_self] at ho
      obtain ⟨pre, post, e, -⟩ := mem_placed.mp ho
      exact absurd (hfree ⟨len + 1, .live⟩ (by rw [e]; simp)) (by nofun)
    · rw [Function.update_of_ne he] at ho
      exact ⟨x, ((hin x).mp hx).resolve_left he, o, ho, rfl⟩

/-! ## `stralloc` -/

/-- The sizes of the free blocks of a list. -/
def freeSizes (bs : List Block) : List Nat := (bs.filter fun b => b.status = .free).map Block.size

/-- `stralloc(len)` has served its request from the heap `g` with blocks `bl`: after new arenas, if any, were mapped, the block
`b` of the arena `ar` was taken. Its size is the first one of `sizes` that is large enough, or that of a fresh block. -/
structure Served (size len : Nat) (live : Finset (Nat × Nat)) (sizes : List Nat) (mem : Mem) (arenas : List Nat)
    (bl : Nat → List Block) (g' : Heap) (p : Nat) (mem₁ : Mem) (bl₁ : Nat → List Block) (ar : Nat) (pre post : List Block)
    (b : Block) : Prop where
  grown : Grown size mem arenas bl mem₁ g'.arenas bl₁
  holds : Holds size mem₁ g'.arenas live bl₁
  arena : ar ∈ g'.arenas
  blocks : bl₁ ar = pre ++ b :: post
  fits : b.Fits (len + 1)
  heap : g'.mem = place mem₁ ar (sizeofArena + total pre) (len + 1) b
  cursor : g'.curArena = some ar ∧ g'.curOffset = sizeofArena + total pre
  ptr : p = ar + (sizeofArena + total pre) + 1
  first : sizeofArena + maxBlksz < size → b.size = (sizes.find? fun n => decide (len + 1 ≤ n)).getD maxBlksz

/-- What the loop of `stralloc` does, by its result. -/
def LoopPost (size : Nat) (os : List Nat → Option Nat) (len : Nat) (live : Finset (Nat × Nat)) (mem : Mem)
    (arenas : List Nat) (bl : Nat → List Block) (sizes : List Nat) (rounds fuel : Nat) : Except Stop (Heap × Nat) → Prop
  | .ok (g', p) => ∃ mem₁ bl₁ ar pre post b, Served size len live sizes mem arenas bl g' p mem₁ bl₁ ar pre post b
  | .error .mmapError => ∃ al, os al = none
  | .error .fuel => sizeofArena + maxBlksz < size → fuel < rounds
  | .error .assertion => False

/-- No size of a list of blocks is large enough when none of its free blocks fits. -/
theorem find_freeSizes_none {len : Nat} {bs : List Block} (h : ∀ b ∈ bs, ¬ b.Fits len) :
    (freeSizes bs).find? (fun n => decide (len ≤ n)) = none := by
  rw [List.find?_eq_none]
  intro n hn
  obtain ⟨b, hb, rfl⟩ := List.mem_map.mp hn
  obtain ⟨hb, hfree⟩ := List.mem_filter.mp hb
  simp only [decide_eq_true_eq] at hfree ⊢
  exact fun hle => h b hb ⟨hfree, hle⟩

/-- The first block that fits gives the first size that is large enough. -/
theorem find_freeSizes_some {len : Nat} (pre post : List Block) {b : Block} (h : ∀ c ∈ pre, ¬ c.Fits len) (hb : b.Fits len) :
    (freeSizes (pre ++ b :: post)).find? (fun n => decide (len ≤ n)) = some b.size := by
  have e : freeSizes (pre ++ b :: post) = freeSizes pre ++ b.size :: freeSizes post := by simp [freeSizes, hb.1]
  rw [e, List.find?_append, find_freeSizes_none h, Option.none_or, List.find?_cons_of_pos (by simpa using hb.2)]

/-- What holds from a later heap on holds from an earlier one on. -/
theorem LoopPost.grown {size : Nat} {os : List Nat → Option Nat} {len : Nat} {live : Finset (Nat × Nat)} {mem mem₁ : Mem}
    {al al₁ : List Nat} {bl bl₁ : Nat → List Block} {sizes sizes₁ : List Nat} {rounds rounds₁ fuel fuel₁ : Nat}
    {r : Except Stop (Heap × Nat)} (hg : Grown size mem al bl mem₁ al₁ bl₁)
    (hr : sizeofArena + maxBlksz < size → fuel₁ < rounds₁ → fuel < rounds)
    (hs : sizeofArena + maxBlksz < size → (sizes₁.find? fun n => decide (len + 1 ≤ n)).getD maxBlksz =
      (sizes.find? fun n => decide (len + 1 ≤ n)).getD maxBlksz)
    (h : LoopPost size os len live mem₁ al₁ bl₁ sizes₁ rounds₁ fuel₁ r) :
    LoopPost size os len live mem al bl sizes rounds fuel r := by
  match r, h with
  | .ok (g', p), ⟨mem₂, bl₂, ar, pre, post, b, hv⟩ =>
    exact ⟨mem₂, bl₂, ar, pre, post, b, { hv with
      grown := hg.trans hv.grown, first := fun hbig => (hv.first hbig).trans (hs hbig) }⟩
  | .error .mmapError, h => exact h
  | .error .fuel, h =>
    intro hbig
    exact hr hbig (h hbig)
  | .error .assertion, h => exact h

/-! ## One round of the loop -/

section Round

variable {size : Nat} (os : List Nat → Option Nat) {len : Nat} (cur : Nat) {live : Finset (Nat × Nat)} {g : Heap}
  {bl : Nat → List Block} {ar : Nat} {pre post : List Block}

/-- What a scan of an arena has in front of it at the cursor. -/
theorem Holds.rest (hsize : sizeofArena < size) (h : Holds size g.mem g.arenas live bl) (har : ar ∈ g.arenas)
    (ebl : bl ar = pre ++ post) : Seg g.mem ar (sizeofArena + total pre) post ∧ post.IsChain Spaced ∧
      header g.mem ar (sizeofArena + total pre + total post) = 0 ∧ post.length < size := by
  obtain ⟨hseg, hends, hzero⟩ := h.chunk ar har
  have hlength := hseg.length_le
  have hchain := h.spaced ar har
  rw [ebl] at hseg hends hchain hlength
  rw [total_append] at hends hlength
  rw [List.length_append] at hlength
  refine ⟨(seg_append.mp hseg).2, (List.isChain_append.mp hchain).2.1, ?_, by omega⟩
  rw [Nat.add_assoc, hends]
  exact hzero

/-- No block of an arena fits from the cursor on: the scan returns `NULL` and leaves the memory. -/
theorem Holds.scan_none (hsize : sizeofArena < size) (h : Holds size g.mem g.arenas live bl) (hlen : len ≤ maxLength)
    (har : ar ∈ g.arenas) (ebl : bl ar = pre ++ post) (hnone : ∀ b ∈ post, ¬ b.Fits (len + 1)) :
    ∃ off, allocBlock ar (len + 1) size g.mem (sizeofArena + total pre) = some (g.mem, off, none) := by
  obtain ⟨hseg, hchain, hzero, hlength⟩ := h.rest hsize har ebl
  exact ⟨_, allocBlock_none (Nat.succ_le_succ hlen) hseg hchain hzero hnone hlength⟩

/-- The first block that fits from the cursor on ends the scan. -/
theorem Holds.scan_some {mid rest : List Block} {b : Block} (hsize : sizeofArena < size) (h : Holds size g.mem g.arenas live bl)
    (hlen : len ≤ maxLength) (har : ar ∈ g.arenas) (ebl : bl ar = pre ++ (mid ++ b :: rest))
    (hmid : ∀ c ∈ mid, ¬ c.Fits (len + 1)) (hfit : b.Fits (len + 1)) :
    allocBlock ar (len + 1) size g.mem (sizeofArena + total pre) =
      some (StrAlloc.place g.mem ar (sizeofArena + total (pre ++ mid)) (len + 1) b, sizeofArena + total (pre ++ mid),
        some (ar + (sizeofArena + total (pre ++ mid)) + 1)) := by
  obtain ⟨hseg, hchain, hzero, hlength⟩ := h.rest hsize har ebl
  rw [List.length_append] at hlength
  rw [allocBlock_some (Nat.succ_le_succ hlen) hseg hchain hzero hmid hfit (by omega)]
  simp only [total_append, Nat.add_assoc]

/-- After a scan that finds nothing the next arena of the ring is another one than the first. -/
theorem Holds.scan_next {done todo : List Nat} {x : Nat} (hsize : sizeofArena < size) (h : Holds size g.mem g.arenas live bl)
    (hlen : len ≤ maxLength) (hcur : cur ∈ g.arenas) (hring : ring g.arenas cur = done ++ ar :: x :: todo) (ebl : bl ar = pre ++ post)
    (hnone : ∀ b ∈ post, ¬ b.Fits (len + 1)) :
    (∃ off, allocBlock ar (len + 1) size g.mem (sizeofArena + total pre) = some (g.mem, off, none)) ∧
      (nextArena g.arenas ar).or g.arenas.head? = some x ∧ x ≠ cur := by
  have hnodup := h.apart.nodup (Nat.zero_lt_of_lt hsize)
  have hnext := ring_next hnodup hcur hring
  rw [List.head?_cons, Option.getD_some] at hnext
  exact ⟨h.scan_none hsize hlen (mem_of_ring hcur hring) ebl hnone, hnext, ring_ne hnodup hcur hring⟩

/-- After a scan of the last arena of the ring that finds nothing the next arena is the first. -/
theorem Holds.scan_last {done : List Nat} (hsize : sizeofArena < size) (h : Holds size g.mem g.arenas live bl) (hlen : len ≤ maxLength)
    (hcur : cur ∈ g.arenas) (hring : ring g.arenas cur = done ++ [ar]) (ebl : bl ar = pre ++ post)
    (hnone : ∀ b ∈ post, ¬ b.Fits (len + 1)) :
    (∃ off, allocBlock ar (len + 1) size g.mem (sizeofArena + total pre) = some (g.mem, off, none)) ∧
      (nextArena g.arenas ar).or g.arenas.head? = some cur := by
  have hnext := ring_next (h.apart.nodup (Nat.zero_lt_of_lt hsize)) hcur hring
  rw [List.head?_nil, Option.getD_none] at hnext
  exact ⟨h.scan_none hsize hlen (mem_of_ring hcur hring) ebl hnone, hnext⟩

/-- The first block that fits from the cursor on serves the request. -/
theorem strallocLoop_serve {mid rest : List Block} {b : Block} (fuel : Nat) (hsize : sizeofArena < size)
    (h : Holds size g.mem g.arenas live bl) (hlen : len ≤ maxLength) (har : ar ∈ g.arenas)
    (ebl : bl ar = pre ++ (mid ++ b :: rest)) (hoff : g.curOffset = sizeofArena + total pre)
    (hmid : ∀ c ∈ mid, ¬ c.Fits (len + 1)) (hfit : b.Fits (len + 1)) :
    strallocLoop size os len cur (fuel + 1) g ar =
      .ok ({ g with mem := place g.mem ar (sizeofArena + total (pre ++ mid)) (len + 1) b,
                    curOffset := sizeofArena + total (pre ++ mid), curArena := some ar },
        ar + (sizeofArena + total (pre ++ mid)) + 1) := by
  rw [strallocLoop, hoff, h.scan_some hsize hlen har ebl hmid hfit]

/-- No block of the arena fits: the loop goes on to the next arena of the ring. -/
theorem strallocLoop_next {done todo : List Nat} {x : Nat} (fuel : Nat) (hsize : sizeofArena < size)
    (h : Holds size g.mem g.arenas live bl) (hlen : len ≤ maxLength) (hcur : cur ∈ g.arenas)
    (hring : ring g.arenas cur = done ++ ar :: x :: todo) (ebl : bl ar = pre ++ post)
    (hoff : g.curOffset = sizeofArena + total pre) (hnone : ∀ b ∈ post, ¬ b.Fits (len + 1)) :
    strallocLoop size os len cur (fuel + 1) g ar =
      strallocLoop size os len cur fuel { g with curOffset := sizeofArena } x := by
  obtain ⟨⟨off, hscan⟩, hnext, hne⟩ := h.scan_next cur hsize hlen hcur hring ebl hnone
  rw [strallocLoop, hoff, hscan]
  simp only [hnext, if_neg hne]

/-- No block of the last arena of the ring fits: a fresh arena is mapped after `cur`, and the loop goes on there. -/
theorem strallocLoop_map {done : List Nat} (fuel : Nat) (hsize : sizeofArena < size)
    (h : Holds size g.mem g.arenas live bl) (hlen : len ≤ maxLength) (hcur : cur ∈ g.arenas)
    (hring : ring g.arenas cur = done ++ [ar]) (ebl : bl ar = pre ++ post)
    (hoff : g.curOffset = sizeofArena + total pre) (hnone : ∀ b ∈ post, ¬ b.Fits (len + 1)) :
    (os g.arenas = none → strallocLoop size os len cur (fuel + 1) g ar = .error .mmapError) ∧
      ∀ new, os g.arenas = some new → strallocLoop size os len cur (fuel + 1) g ar =
        strallocLoop size os len cur fuel
          { g with mem := initChunk size (g.mem.zero new size) new, arenas := insertAfter g.arenas cur new,
                   curOffset := sizeofArena } new := by
  obtain ⟨⟨off, hscan⟩, hnext⟩ := h.scan_last cur hsize hlen hcur hring ebl hnone
  constructor
  · intro hos
    rw [strallocLoop, hoff, hscan]
    simp only [hnext, if_true, hos]
  · intro new hos
    rw [strallocLoop, hoff, hscan]
    simp only [hnext, if_true, hos, allocAfterArena, nextArena_insertAfter new hcur]

end Round

/-- The loop of `stralloc` round the ring, from an arena `ar` with the cursor on a block and the arenas `todo` still to see. -/
theorem strallocLoop_post {size : Nat} {os : List Nat → Option Nat} {len : Nat} (cur : Nat) {live : Finset (Nat × Nat)}
    (hsize : sizeofArena < size) (hos : MmapOk size os) (hlen : len ≤ maxLength) :
    ∀ (fuel : Nat) (g : Heap) (bl : Nat → List Block) (ar : Nat) (done todo : List Nat) (pre post : List Block) (rounds : Nat),
      Holds size g.mem g.arenas live bl → cur ∈ g.arenas → ring g.arenas cur = done ++ ar :: todo →
      bl ar = pre ++ post → g.curOffset = sizeofArena + total pre →
      (sizeofArena + maxBlksz < size → 1 ≤ rounds ∧ ((∀ b ∈ post, ¬ b.Fits (len + 1)) → todo.length + 2 ≤ rounds)) →
      LoopPost size os len live g.mem g.arenas bl (freeSizes post ++ todo.flatMap fun x => freeSizes (bl x))
        rounds fuel (strallocLoop size os len cur fuel g ar) := by
  have hmax : maxBlksz = maxLength + 1 := rfl
  intro fuel
  induction fuel with
  | zero =>
    intro g bl ar done todo pre post rounds _ _ _ _ _ hr
    rw [strallocLoop]
    exact fun hbig => (hr hbig).1
  | succ fuel ih =>
    intro g bl ar done todo pre post rounds h hcur hring ebl hoff hr
    have har := mem_of_ring hcur hring
    rcases first_fit (len + 1) post with hnone | ⟨mid, b, rest, rfl, hmid, hfit⟩
    · -- no block of this arena fits: go on to the next one
      cases todo with
      | nil =>
        -- the ring is closed: a fresh arena is mapped after `cur`
        obtain ⟨hfail, hmap⟩ := strallocLoop_map os cur fuel hsize h hlen hcur hring ebl hoff hnone
        cases hnew : os g.arenas with
        | none =>
          rw [hfail hnew]
          exact ⟨g.arenas, hnew⟩
        | some new =>
          rw [hmap new hnew]
          have hperm := insertAfter_perm new hcur
          obtain ⟨bs, hholds, hgrown, hbig⟩ := h.fresh hsize hos hnew hperm
          refine LoopPost.grown hgrown (fun hb hlt => ?_) (fun hb => ?_)
            (ih _ (Function.update bl new bs) new [cur] (ring g.arenas cur).tail [] bs 1 hholds
              (hperm.mem_iff.mpr (List.mem_cons_of_mem _ hcur)) (ring_insertAfter new hcur) (Function.update_self ..) rfl
              fun hb => ⟨Nat.le_refl 1, fun hno => ?_⟩)
          · have := (hr hb).2 hnone
            rw [List.length_nil] at this
            omega
          · obtain ⟨rest, rfl⟩ := hbig hb
            have hfit : Block.Fits (len + 1) ⟨maxBlksz, .free⟩ := ⟨rfl, by simp only; omega⟩
            have hfirst := find_freeSizes_some [] rest (by simp) hfit
            rw [List.nil_append] at hfirst
            rw [List.find?_append, hfirst, List.flatMap_nil, List.append_nil, find_freeSizes_none hnone]
            rfl
          · obtain ⟨rest, rfl⟩ := hbig hb
            exact absurd ⟨rfl, by simp only; omega⟩ (hno ⟨maxBlksz, .free⟩ List.mem_cons_self)
      | cons x xs =>
        rw [strallocLoop_next os cur fuel hsize h hlen hcur hring ebl hoff hnone]
        refine LoopPost.grown (Grown.refl size g.mem g.arenas bl) (fun hb hlt => ?_) (fun _ => ?_)
          (ih _ bl x (done ++ [ar]) xs [] (bl x) (rounds - 1) h hcur (by rw [hring, List.append_assoc]; rfl) rfl rfl
            fun hb => ?_)
        · have := (hr hb).1
          omega
        · simp only [List.find?_append, find_freeSizes_none hnone, Option.none_or, List.flatMap_cons]
        · have := (hr hb).2 hnone
          rw [List.length_cons] at this
          exact ⟨by omega, fun _ => by omega⟩
    · -- the first block that fits serves the request
      rw [strallocLoop_serve os cur fuel hsize h hlen har ebl hoff hmid hfit]
      refine ⟨g.mem, bl, ar, pre ++ mid, rest, b, Grown.refl size g.mem g.arenas bl, h, har, ?_, hfit, rfl, ⟨rfl, rfl⟩, rfl, ?_⟩
      · rw [ebl, List.append_assoc]
      · intro _
        rw [List.find?_append, find_freeSizes_some _ _ hmid hfit, Option.some_or, Option.getD_some]

end OsLabs.StrAlloc
