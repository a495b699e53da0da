import OsLabs.StrAlloc.Safety

/-!
# Which runs lose space

A block that `alloc_block` splits leaves a rest with a positive header, which belongs to nobody and which nobody can free: the
rest should have been stored as a free block. Space is accounted for exactly as long as no request splits a block, that is, as
long as the first block that is large enough for a request has the size of the request (`ExactFit`).
-/

namespace OsLabs.StrAlloc

/-- The space of the arenas is accounted for: the used blocks are the blocks of the live buffers, all blocks are free when no
buffer is live, and `strfree` accepts the live buffers and nothing else. -/
structure Accounted (size : Nat) (s : Client) : Prop where
  used : ∀ p len : Nat, (p, len) ∈ s.live ↔ ∃ ar ∈ s.heap.arenas, ∃ off, OnWalk s.heap.mem ar off ∧
    header s.heap.mem ar off = len + 1 ∧ p = ar + off + 1
  empty : s.live = ∅ → ∀ ar ∈ s.heap.arenas, ∀ off, OnWalk s.heap.mem ar off → header s.heap.mem ar off ≤ 0
  accepts : ∀ p, p ≠ 0 → ((∃ g, strfree size p s.heap = .ok g) ↔ ∃ len, (p, len) ∈ s.live)

/-- A used block on a walk is a live or a lost block of the arena. -/
theorem Inv.used_block {size : Nat} {s : Client} {bl : Nat → List Block} (h : Inv size s bl) {ar off : Nat}
    (har : ar ∈ s.heap.arenas) (hw : OnWalk s.heap.mem ar off) (hpos : 0 < header s.heap.mem ar off) :
    ∃ b, (off, b) ∈ placed sizeofArena (bl ar) ∧ b.status ≠ .free ∧ header s.heap.mem ar off = b.size := by
  have hchunk := h.holds.chunk ar har
  obtain ⟨pre, post, e, rfl⟩ := hchunk.of_onWalk hw
  cases post with
  | nil =>
    have hzero := hchunk.zero
    rw [← hchunk.ends, e, List.append_nil] at hzero
    omega
  | cons b post =>
    obtain ⟨-, -, hh⟩ := hchunk.seg.block e
    have hne : b.status ≠ .free := fun hfree => by
      rw [hh, Block.header_free hfree] at hpos
      omega
    refine ⟨b, mem_placed.mpr ⟨pre, post, e, rfl⟩, hne, ?_⟩
    rw [hh, Block.header, if_neg hne]

/-- What `strfree` accepts is a used block of an arena. -/
theorem Inv.of_strfree {size p : Nat} {s : Client} {g : Heap} {bl : Nat → List Block} (h : Inv size s bl)
    (hp : p ≠ 0) (hcall : strfree size p s.heap = .ok g) :
    ∃ ar ∈ s.heap.arenas, ∃ off b, (off, b) ∈ placed sizeofArena (bl ar) ∧ b.status ≠ .free ∧ p = ar + off + 1 := by
  rw [strfree, if_neg hp] at hcall
  split at hcall
  · cases hcall
  · rename_i hpos
    cases hfind : findPtrArena size s.heap.arenas p with
    | none => rw [hfind] at hcall; cases hcall
    | some ar =>
      rw [hfind] at hcall
      obtain ⟨har, -, -⟩ := findPtrArena_some hfind
      simp only at hcall
      cases hwalk : strfreeWalk s.heap.mem (p - 1) size (ar + sizeofArena) with
      | error e => rw [hwalk] at hcall; cases hcall
      | ok ptr =>
        rw [hwalk] at hcall
        simp only [bind, Except.bind] at hcall
        split at hcall
        · cases hcall
        · rename_i hptr
          obtain rfl : ptr = p - 1 := by simpa using hptr
          obtain ⟨hseg, hends, hzero⟩ := h.holds.chunk ar har
          obtain ⟨pre, post, e, ht⟩ := of_strfreeWalk (bl ar) sizeofArena size hseg (by rw [hends]; exact hzero) hwalk
          have hw := (h.holds.chunk ar har).onWalk pre post e
          have hheader : 0 < header s.heap.mem ar (sizeofArena + total pre) := by
            rw [header, ← ht]
            omega
          obtain ⟨b, hb, hne, -⟩ := h.used_block har hw hheader
          exact ⟨ar, har, _, b, hb, hne, by omega⟩

/-- A block that is neither free nor lost is live. -/
theorem Status.live_of {st : Status} (h1 : st ≠ .free) (h2 : st ≠ .lost) : st = .live := by
  cases st
  · exact absurd rfl h1
  · rfl
  · exact absurd rfl h2

/-- The block of a live buffer at the place of a block that is not free. -/
theorem Inv.live_block {size : Nat} {s : Client} {bl : Nat → List Block} (h : Inv size s bl) {ar off : Nat} {b : Block}
    (har : ar ∈ s.heap.arenas) (hb : (off, b) ∈ placed sizeofArena (bl ar)) (hlive : b.status = .live) :
    (ar + off + 1, b.size - 1) ∈ s.live := by
  have hblock := h.holds.block har hb
  refine (h.holds.live _ _).mpr ⟨ar, har, off, ?_, rfl⟩
  rw [show b.size - 1 + 1 = b.size by omega, ← hlive]
  exact hb

/-- Space is accounted for exactly when no block is lost. -/
theorem Inv.accounted_iff {size : Nat} {s : Client} {bl : Nat → List Block} (h : Inv size s bl)
    (hsize : sizeofArena < size) : Accounted size s ↔ NoLost s.heap.arenas bl := by
  constructor
  · rintro hacc ar har b hb hlost
    obtain ⟨pre, post, e⟩ := List.append_of_mem hb
    have hplaced : (sizeofArena + total pre, b) ∈ placed sizeofArena (bl ar) := mem_placed.mpr ⟨pre, post, e, rfl⟩
    obtain ⟨h1, -, hh, -, -⟩ := h.holds.block har hplaced
    have hw := (h.holds.chunk ar har).onWalk pre _ e
    rw [Block.header, if_neg (by simp [hlost])] at hh
    have hin := (hacc.used (ar + (sizeofArena + total pre) + 1) (b.size - 1)).mpr
      ⟨ar, har, _, hw, by rw [hh]; omega, rfl⟩
    obtain ⟨x, hx, o, ho, he⟩ := (h.holds.live _ _).mp hin
    rw [(h.holds.block_eq har hx hplaced ho (by omega)).2.2] at hlost
    cases hlost
  · intro hno
    have hstatus : ∀ ar ∈ s.heap.arenas, ∀ off b, (off, b) ∈ placed sizeofArena (bl ar) → b.status ≠ .free →
        b.status = .live := by
      intro ar har off b hb hne
      obtain ⟨pre, post, e, -⟩ := mem_placed.mp hb
      exact Status.live_of hne (hno ar har b (by rw [e]; simp))
    refine ⟨fun p len => ⟨fun hp => ?_, ?_⟩, fun hempty ar har off hw => ?_, fun p hp => ⟨?_, ?_⟩⟩
    · obtain ⟨ar, har, off, hw, -, hh, rfl⟩ := (h.wellFormed hsize).live p len hp
      exact ⟨ar, har, off, hw, hh, rfl⟩
    · rintro ⟨ar, har, off, hw, hh, rfl⟩
      obtain ⟨b, hb, hne, hbh⟩ := h.used_block har hw (by omega)
      have := h.live_block har hb (hstatus ar har off b hb hne)
      rwa [show b.size - 1 = len by omega] at this
    · by_contra hpos
      obtain ⟨b, hb, hne, -⟩ := h.used_block har hw (by omega)
      have := h.live_block har hb (hstatus ar har off b hb hne)
      rw [hempty] at this
      simp at this
    · rintro ⟨g, hcall⟩
      obtain ⟨ar, har, off, b, hb, hne, rfl⟩ := h.of_strfree hp hcall
      exact ⟨_, h.live_block har hb (hstatus ar har off b hb hne)⟩
    · rintro ⟨len, hlive⟩
      obtain ⟨_, _, _, _, _, _, hok⟩ := strfree_live h.holds hlive
      exact ⟨_, hok⟩

/-! ## Runs -/

/-- A call that splits no block: each request of at least one byte finds, as the first block that is large enough, one of exactly
its size. -/
def NoSplit (size : Nat) (s : Client) : Act → Prop
  | .alloc len _ => len = 0 ∨ ExactFit size s.heap len
  | _ => True

/-- A step keeps "no block is lost" exactly when it splits no block. -/
theorem Inv.step_noLost {size : Nat} {s s' : Client} {a : Act} {bl : Nat → List Block} (h : Inv size s bl)
    (hbig : sizeofArena + maxBlksz < size) (hno : NoLost s.heap.arenas bl) (hs : Step size s a s') :
    ∃ bl', Inv size s' bl' ∧ (NoLost s'.heap.arenas bl' ↔ NoSplit size s a) := by
  have hsize : sizeofArena < size := by omega
  cases hs with
  | alloc hlen hos hcall =>
    obtain ⟨bl', h', -, hlost⟩ := h.alloc hsize hos hlen hcall
    exact ⟨bl', h', (hlost hbig).trans (and_iff_right hno)⟩
  | free hp hcall =>
    obtain ⟨bl', h', -, hlost⟩ := h.free hsize hp hcall
    exact ⟨bl', h', hlost.trans (iff_true_intro hno)⟩
  | write c hp hi => exact ⟨bl, ⟨h.holds.store c hp hi, h.cursor⟩, iff_true_intro hno⟩

/-- In a run whose requests split no block, no block is lost. -/
theorem noLost_reach {size : Nat} (hbig : sizeofArena + maxBlksz < size) {s : Client}
    (hs : ((client size).guard (NoSplit size)).Reach s) : ∃ bl, Inv size s bl ∧ NoLost s.heap.arenas bl := by
  have hind : ((client size).guard (NoSplit size)).Inductive fun s => ∃ bl, Inv size s bl ∧ NoLost s.heap.arenas bl := by
    refine ⟨fun s h => ⟨_, inv_init h, fun _ _ _ h => nomatch h⟩, ?_⟩
    rintro s a s' ⟨bl, h, hno⟩ ⟨hsplit, hst⟩
    obtain ⟨bl', h', hlost⟩ := h.step_noLost hbig hno hst
    exact ⟨bl', h', hlost.mpr hsplit⟩
  exact hind.reach hs

/-- In a run whose requests split no block, the space is accounted for in every state; and the first step that splits a block ends
this. -/
theorem accounted_iff_noSplit {s : Client} (hs : ((client arenaSize).guard (NoSplit arenaSize)).Reach s) :
    Accounted arenaSize s ∧
      ∀ a s', Step arenaSize s a s' → (Accounted arenaSize s' ↔ NoSplit arenaSize s a) := by
  have hsize : sizeofArena < arenaSize := by decide
  obtain ⟨bl, h, hno⟩ := noLost_reach (by decide) hs
  refine ⟨(h.accounted_iff hsize).mpr hno, fun a s' hst => ?_⟩
  obtain ⟨bl', h', hlost⟩ := h.step_noLost (by decide) hno hst
  exact (h'.accounted_iff hsize).trans hlost

/-! ## Instances -/

/-- A client after one request of 126 bytes, which takes a whole block. -/
def afterWhole : Client where
  heap := firstHeap arenaSize 4096 126 fun _ => 0
  live := {(4105, 126)}

/-- The run of one request of 126 bytes splits no block. -/
theorem accounted_afterWhole : Accounted arenaSize afterWhole := by
  have h0 : ((client arenaSize).guard (NoSplit arenaSize)).Reach ⟨Heap.init fun _ => 0, ∅⟩ := .init ⟨_, rfl⟩
  have hcall : stralloc arenaSize oneArena 1 126 (Heap.init fun _ => 0) = .ok (afterWhole.heap, 4105) :=
    stralloc_first _ (by decide) (by decide) (by decide) rfl
  have hstep : Step arenaSize ⟨Heap.init fun _ => 0, ∅⟩ (.alloc 126 oneArena) ⟨afterWhole.heap, _⟩ :=
    Step.alloc (by decide) oneArena_ok hcall
  have hsplit : NoSplit arenaSize ⟨Heap.init fun _ => 0, ∅⟩ (.alloc 126 oneArena) := Or.inr (by decide)
  exact (accounted_iff_noSplit (.step (.alloc 126 oneArena) h0 ⟨hsplit, hstep⟩)).1

/-- One request of five bytes loses 121 bytes. -/
theorem not_accounted_afterFirst : ¬ ∀ s, (client arenaSize).Reach s → Accounted arenaSize s := by
  intro hall
  have h0 : ((client arenaSize).guard (NoSplit arenaSize)).Reach ⟨Heap.init fun _ => 0, ∅⟩ := .init ⟨_, rfl⟩
  obtain ⟨bl, h, hno⟩ := noLost_reach (by decide) h0
  obtain ⟨bl', h', hlost⟩ := h.step_noLost (by decide) hno afterFirst_step
  have hacc := (h'.accounted_iff (by decide)).mp (hall _ afterFirst_reach)
  rcases hlost.mp hacc with h | h
  · exact absurd h (by decide)
  · exact absurd h (by decide)

end OsLabs.StrAlloc
