import OsLabs.ObjPool.Pool

/-!
# Every run of the pool

`objalloc`, `objfree` and stores into live objects keep the invariant `Inv`: each arena agrees with the set of its slots in use, and
the live objects are these slots. `PoolOk` is what this says about the memory.
-/

namespace OsLabs.ObjPool

/-- Each arena agrees with the set of its slots in use, and the live objects are these slots. -/
structure Inv (size : Nat) (s : Client) (used : Nat → Finset Nat) : Prop where
  apart : Apart size s.pool.arenas
  ok : ∀ ar ∈ s.pool.arenas, ArenaOk size s.pool.mem ar (used ar)
  live : ∀ p, p ∈ s.live ↔ ∃ ar ∈ s.pool.arenas, ∃ i ∈ used ar, p = itemsAt size ar + sizeofObject * i

/-- The items of an arena lie behind its bitmap and before its end. -/
theorem slot_inside {size i : Nat} (ar : Nat) (h : Layout size) (hi : i < itemCount size) :
    ar + (sizeofArena + bitmapSize size) ≤ itemsAt size ar ∧
      itemsAt size ar + sizeofObject * i + sizeofObject ≤ ar + size := by
  have hfits := h.fits
  have hle : sizeofObject * i + sizeofObject ≤ itemCount size * sizeofObject := by
    rw [← Nat.mul_succ, Nat.mul_comm (itemCount size)]
    exact Nat.mul_le_mul_left sizeofObject hi
  unfold itemsAt
  omega

/-- Two slots at overlapping addresses are the same slot. -/
theorem slot_cases {size : Nat} {al : List Nat} (h : Layout size) (hap : Apart size al) {ar ar' i i' : Nat} (har : ar ∈ al)
    (har' : ar' ∈ al) (hi : i < itemCount size) (hi' : i' < itemCount size) :
    (ar = ar' ∧ i = i') ∨ itemsAt size ar + sizeofObject * i + sizeofObject ≤ itemsAt size ar' + sizeofObject * i' ∨
      itemsAt size ar' + sizeofObject * i' + sizeofObject ≤ itemsAt size ar + sizeofObject * i := by
  have hO : sizeofObject = 32 := rfl
  have h1 := slot_inside ar h hi
  have h2 := slot_inside ar' h hi'
  by_cases hne : ar = ar'
  · subst hne
    rw [hO]
    omega
  · have := hap.of_ne har har' hne
    unfold ApartFrom at this
    omega

/-- The invariant after a change of one arena. -/
theorem Inv.change {size : Nat} {s : Client} {used : Nat → Finset Nat} (h : Inv size s used) {mem : Mem} {arenas : List Nat}
    {live : Finset Nat} {ar : Nat} {U : Finset Nat} (hsize : sizeofArena + bitmapSize size ≤ size)
    (hin : ∀ x ∈ arenas, x = ar ∨ x ∈ s.pool.arenas) (har : ar ∈ arenas) (hap : Apart size arenas)
    (hframe : ∀ x, x < ar ∨ ar + size ≤ x → mem x = s.pool.mem x) (hok : ArenaOk size mem ar U)
    (hlive : ∀ p, p ∈ live ↔ ∃ x ∈ arenas, ∃ i ∈ Function.update used ar U x, p = itemsAt size x + sizeofObject * i) :
    Inv size { pool := { mem := mem, arenas := arenas }, live := live } (Function.update used ar U) := by
  refine ⟨hap, fun x hx => ?_, hlive⟩
  by_cases he : x = ar
  · rw [he, Function.update_self]
    exact hok
  · rw [Function.update_of_ne he]
    have hapart := hap.of_ne hx har he
    unfold ApartFrom at hapart
    exact (h.ok x ((hin x hx).resolve_left he)).frame fun y _ _ => hframe y (by omega)

/-- An allocation in an arena with a free item. -/
theorem Inv.allocBlock {size ar : Nat} {s : Client} {used : Nat → Finset Nat} (h : Inv size s used) (hl : Layout size)
    (har : ar ∈ s.pool.arenas) (hfree : 0 < nfree s.pool.mem ar) :
    ∃ g p used', allocBlock size s.pool ar = .ok (g, p) ∧ p ∉ s.live ∧
      Inv size { pool := g, live := insert p s.live } used' := by
  have hfits := hl.fits
  obtain ⟨index, mem', hlt, hnot, hcall, hok, hframe⟩ := allocBlock_ok hl (h.ok ar har) hfree
  have hnew : itemsAt size ar + sizeofObject * index ∉ s.live := by
    rw [h.live]
    rintro ⟨x, hx, i, hi, he⟩
    have := slot_cases hl h.apart har hx hlt ((h.ok x hx).bound i hi)
    unfold sizeofObject at this he
    rcases this with ⟨rfl, rfl⟩ | hgt | hgt
    · exact hnot hi
    · omega
    · omega
  refine ⟨_, _, _, hcall, hnew, h.change (by omega) (fun x hx => Or.inr hx) har h.apart (fun x hx => hframe x (by omega)) hok
    fun p => ?_⟩
  rw [Finset.mem_insert, h.live]
  constructor
  · rintro (rfl | ⟨x, hx, i, hi, rfl⟩)
    · exact ⟨ar, har, index, by simp, rfl⟩
    · refine ⟨x, hx, i, ?_, rfl⟩
      by_cases he : x = ar
      · subst he
        simp [hi]
      · rwa [Function.update_of_ne he]
  · rintro ⟨x, hx, i, hi, rfl⟩
    by_cases he : x = ar
    · subst he
      rw [Function.update_self] at hi
      rcases Finset.mem_insert.mp hi with rfl | hi
      · exact Or.inl rfl
      · exact Or.inr ⟨x, hx, i, hi, rfl⟩
    · rw [Function.update_of_ne he] at hi
      exact Or.inr ⟨x, hx, i, hi, rfl⟩

/-- A fresh arena at the end of the list. -/
theorem Inv.fresh {size new : Nat} {s : Client} {used : Nat → Finset Nat} (h : Inv size s used) (hl : Layout size)
    {os : List Nat → Option Nat} (hos : MmapOk size os) (hnew : os s.pool.arenas = some new) :
    Inv size { pool := { mem := initArena size (s.pool.mem.zero new size) new,
                         arenas := allocAfterArena s.pool.arenas none new }, live := s.live } (Function.update used new ∅) := by
  have hfits := hl.fits
  obtain ⟨hpos, htop, hapart⟩ := hos _ _ hnew
  obtain ⟨hok, hframe⟩ := initArena_ok new hl s.pool.mem htop
  have hperm : (allocAfterArena s.pool.arenas none new).Perm (new :: s.pool.arenas) := List.perm_append_singleton _ _
  have hnot := not_mem_of_mmapOk hos (show 0 < size by unfold sizeofArena at hfits; omega) hnew
  have hin : ∀ x, x ∈ allocAfterArena s.pool.arenas none new ↔ x = new ∨ x ∈ s.pool.arenas := fun x => by
    rw [hperm.mem_iff, List.mem_cons]
  refine h.change (by omega) (fun x hx => (hin x).mp hx) ((hin new).mpr (Or.inl rfl)) (h.apart.insert hperm hapart) hframe hok
    fun p => ?_
  rw [h.live]
  constructor
  · rintro ⟨x, hx, i, hi, rfl⟩
    refine ⟨x, (hin x).mpr (Or.inr hx), i, ?_, rfl⟩
    rwa [Function.update_of_ne fun e : x = new => hnot (e ▸ hx)]
  · rintro ⟨x, hx, i, hi, rfl⟩
    by_cases he : x = new
    · subst he
      rw [Function.update_self] at hi
      exact absurd hi (by simp)
    · rw [Function.update_of_ne he] at hi
      exact ⟨x, ((hin x).mp hx).resolve_left he, i, hi, rfl⟩

/-- `alloc_block` leaves the list of arenas. -/
theorem allocBlock_arenas {size ar p : Nat} {g g' : Pool} (h : allocBlock size g ar = .ok (g', p)) : g'.arenas = g.arenas := by
  unfold allocBlock at h
  split at h
  · cases h
  · split at h
    · cases h
    · obtain ⟨rfl, -⟩ := Prod.mk.inj (Except.ok.inj h)
      rfl

/-- `objalloc` takes an object from an arena with a free item, or else maps one arena more. -/
theorem objalloc_arenas {size p : Nat} {os : List Nat → Option Nat} {g g' : Pool} (h : objalloc size os g = .ok (g', p)) :
    (∃ ar ∈ g.arenas, 0 < nfree g.mem ar ∧ g'.arenas = g.arenas) ∨
      (∃ new, os g.arenas = some new ∧ (∀ ar ∈ g.arenas, nfree g.mem ar = 0) ∧ g'.arenas = g.arenas ++ [new]) := by
  rw [ObjPool.objalloc] at h
  cases hfind : g.arenas.find? fun ar => decide (0 < nfree g.mem ar) with
  | some ar =>
    rw [hfind] at h
    have hfree := List.find?_some hfind
    exact Or.inl ⟨ar, List.mem_of_find?_eq_some hfind, by simpa using hfree, allocBlock_arenas h⟩
  | none =>
    rw [hfind] at h
    have hfull := List.find?_eq_none.mp hfind
    simp only [decide_eq_true_eq, not_lt, Nat.le_zero] at hfull
    cases hnew : os g.arenas with
    | none =>
      rw [hnew] at h
      cases h
    | some new =>
      rw [hnew] at h
      exact Or.inr ⟨new, rfl, hfull, allocBlock_arenas h⟩

/-- `objfree` leaves the list of arenas. -/
theorem objfree_arenas {size p : Nat} {g g' : Pool} (h : objfree size p g = .ok g') : g'.arenas = g.arenas := by
  unfold ObjPool.objfree at h
  split at h
  · rw [← Except.ok.inj h]
  · split at h
    · cases h
    · rw [← Except.ok.inj h, freeBlock]
      split <;> rfl

/-- `objalloc` returns an object that is not live and keeps the invariant, unless `mmap` fails. -/
theorem Inv.objalloc {size : Nat} {s : Client} {used : Nat → Finset Nat} (h : Inv size s used) (hl : Layout size)
    {os : List Nat → Option Nat} (hos : MmapOk size os) :
    objalloc size os s.pool = .error .mmapError ∨ ∃ g p used', objalloc size os s.pool = .ok (g, p) ∧ p ∉ s.live ∧
      Inv size { pool := g, live := insert p s.live } used' := by
  rw [ObjPool.objalloc]
  cases hfind : s.pool.arenas.find? fun ar => decide (0 < nfree s.pool.mem ar) with
  | some ar =>
    have hfree := List.find?_some hfind
    exact Or.inr (h.allocBlock hl (List.mem_of_find?_eq_some hfind) (by simpa using hfree))
  | none =>
    cases hnew : os s.pool.arenas with
    | none => exact Or.inl rfl
    | some new =>
      have h' := h.fresh hl hos hnew
      have hin : new ∈ allocAfterArena s.pool.arenas none new := by simp [allocAfterArena]
      have hnfree := (h'.ok new hin).nfree
      have hpos := hl.pos
      simp only [Function.update_self, Finset.card_empty, Nat.add_zero] at hnfree
      exact Or.inr (h'.allocBlock hl hin (by rw [hnfree]; exact hpos))

/-- `objfree` of `NULL` or of a live object returns and keeps the invariant. -/
theorem Inv.objfree {size p : Nat} {s : Client} {used : Nat → Finset Nat} (h : Inv size s used) (hl : Layout size)
    (hp : p = 0 ∨ p ∈ s.live) :
    ∃ g used', objfree size p s.pool = .ok g ∧ Inv size { pool := g, live := s.live.erase p } used' := by
  have hfits := hl.fits
  have hA : sizeofArena = 32 := rfl
  have hO : sizeofObject = 32 := rfl
  by_cases h0 : p = 0
  · have hnot : p ∉ s.live := by
      rw [h.live]
      rintro ⟨x, hx, i, hi, he⟩
      have := slot_inside x hl ((h.ok x hx).bound i hi)
      omega
    refine ⟨s.pool, used, by rw [ObjPool.objfree, if_pos h0], ?_⟩
    rw [Finset.erase_eq_of_notMem hnot]
    exact h
  · obtain ⟨ar, har, i, hi, rfl⟩ := (h.live p).mp (hp.resolve_left h0)
    have hbound := (h.ok ar har).bound i hi
    have hinside := slot_inside ar hl hbound
    obtain ⟨mem', hcall, hok, hframe⟩ := freeBlock_ok hl (h.ok ar har) hi
    refine ⟨_, _, ?_, h.change (by omega) (fun x hx => Or.inr hx) har h.apart (fun x hx => hframe x (by omega)) hok
      fun q => ?_⟩
    · rw [ObjPool.objfree, if_neg h0, findPtrArena_eq h.apart har (by omega) (by omega)]
      simp only [hcall]
    · rw [Finset.mem_erase, h.live]
      constructor
      · rintro ⟨hne, x, hx, j, hj, rfl⟩
        refine ⟨x, hx, j, ?_, rfl⟩
        by_cases he : x = ar
        · subst he
          rw [Function.update_self, Finset.mem_erase]
          exact ⟨fun e => hne (by rw [e]), hj⟩
        · rwa [Function.update_of_ne he]
      · rintro ⟨x, hx, j, hj, rfl⟩
        by_cases he : x = ar
        · subst he
          rw [Function.update_self, Finset.mem_erase] at hj
          exact ⟨fun e => hj.1 (by rw [hO] at e; omega), x, hx, j, hj.2, rfl⟩
        · rw [Function.update_of_ne he] at hj
          refine ⟨fun e => he ?_, x, hx, j, hj, rfl⟩
          rcases slot_cases hl h.apart hx har ((h.ok x hx).bound j hj) hbound with ⟨e', -⟩ | hlt | hlt
          · exact e'
          · omega
          · omega

/-- A store into a live object keeps the invariant. -/
theorem Inv.store {size p i : Nat} {s : Client} {used : Nat → Finset Nat} (h : Inv size s used) (hl : Layout size) (b : Byte)
    (hp : p ∈ s.live) (hi : i < sizeofObject) :
    Inv size { s with pool := { s.pool with mem := s.pool.mem.store (p + i) b } } used := by
  refine ⟨h.apart, fun ar har => (h.ok ar har).frame fun x h1 h2 => Mem.store_ne _ _ ?_, h.live⟩
  obtain ⟨y, hy, j, hj, rfl⟩ := (h.live p).mp hp
  have hinside := slot_inside y hl ((h.ok y hy).bound j hj)
  have hfits := hl.fits
  by_cases hne : y = ar
  · subst hne
    omega
  · have := h.apart.of_ne hy har hne
    unfold ApartFrom at this
    omega

/-- The invariant holds in every reachable state. -/
theorem inv_reach {size : Nat} (hl : Layout size) {s : Client} (hs : (client size).Reach s) : ∃ used, Inv size s used := by
  have hind : (client size).Inductive fun s => ∃ used, Inv size s used := by
    refine ⟨?_, ?_⟩
    · rintro s ⟨mem, rfl⟩
      exact ⟨fun _ => ∅, List.Pairwise.nil, nofun, fun p => by simp⟩
    · rintro s a s' ⟨used, h⟩ hst
      cases hst with
      | alloc hos hcall =>
        rcases h.objalloc hl hos with he | ⟨g, p, used', hok, -, h'⟩
        · rw [he] at hcall
          cases hcall
        · rw [hok] at hcall
          obtain ⟨rfl, rfl⟩ := Prod.mk.inj (Except.ok.inj hcall)
          exact ⟨used', h'⟩
      | free hp hcall =>
        obtain ⟨g, used', hok, h'⟩ := h.objfree hl hp
        rw [hok] at hcall
        obtain rfl := Except.ok.inj hcall
        exact ⟨used', h'⟩
      | write b hp hi => exact ⟨used, h.store hl b hp hi⟩
  exact hind.reach hs

/-! ## What the invariant says about the memory -/

/-- The live objects are disjoint slots of the item areas, the bitmaps and the counters agree with them, and `objmemcheck`
accepts. -/
structure PoolOk (size : Nat) (s : Client) : Prop where
  slots : ∀ p ∈ s.live, ∃ ar ∈ s.pool.arenas, ∃ i, i < nitems s.pool.mem ar ∧ p = items s.pool.mem ar + sizeofObject * i
  area : ∀ ar ∈ s.pool.arenas, bitmap ar + bitmapSize size ≤ items s.pool.mem ar ∧
    items s.pool.mem ar + nitems s.pool.mem ar * sizeofObject = ar + size
  disjoint : ∀ p ∈ s.live, ∀ q ∈ s.live, p ≠ q → p + sizeofObject ≤ q ∨ q + sizeofObject ≤ p
  bits : ∀ ar ∈ s.pool.arenas, ∀ i, i < 8 * bitmapSize size → (bitTest s.pool.mem (bitmap ar) i = true ↔
    i < nitems s.pool.mem ar ∧ items s.pool.mem ar + sizeofObject * i ∈ s.live)
  nfree : ∀ ar ∈ s.pool.arenas, nfree s.pool.mem ar =
    ((Finset.range (nitems s.pool.mem ar)).filter fun i : Nat => bitTest s.pool.mem (bitmap ar) i = false).card
  memcheck : objmemcheck s.pool = .ok ()

/-- The loop of `objmemcheck` counts. -/
theorem foldl_count (p : Nat → Bool) (n k : Nat) :
    (List.range n).foldl (fun (c i : Nat) => c + if p i then 1 else 0) k =
      k + ((Finset.range n).filter fun i => p i = true).card := by
  induction n with
  | zero => simp
  | succ n ih =>
    rw [List.range_succ, List.foldl_append, ih, Finset.range_add_one, Finset.filter_insert]
    by_cases h : p n = true
    · simp [h, Nat.add_assoc]
    · simp [h]

/-- The slots in use are those whose bit is set. -/
theorem ArenaOk.used_eq {size ar : Nat} {mem : Mem} {used : Finset Nat} (h : ArenaOk size mem ar used) (hl : Layout size) :
    (Finset.range (itemCount size)).filter (fun i : Nat => bitTest mem (bitmap ar) i = true) = used := by
  have hbits := hl.bits
  ext i
  rw [Finset.mem_filter, Finset.mem_range, bitTest_nat]
  constructor
  · rintro ⟨hi, hb⟩
    exact (h.bits i (by omega)).mp hb
  · intro hi
    have := h.bound i hi
    exact ⟨this, (h.bits i (by omega)).mpr hi⟩

/-- The number of free items is the number of clear bits. -/
theorem ArenaOk.nfree_eq {size ar : Nat} {mem : Mem} {used : Finset Nat} (h : ArenaOk size mem ar used) (hl : Layout size) :
    ObjPool.nfree mem ar = ((Finset.range (itemCount size)).filter fun i : Nat => bitTest mem (bitmap ar) i = false).card := by
  have hsplit := Finset.card_filter_add_card_filter_not (s := Finset.range (itemCount size))
    fun i : Nat => bitTest mem (bitmap ar) i = true
  simp only [Bool.not_eq_true, h.used_eq hl, Finset.card_range] at hsplit
  have := h.nfree
  omega

/-- The items that are not free are those in use. -/
theorem sizeDiff_used {ar count : Nat} {mem : Mem} {used : Finset Nat} (hn : ObjPool.nitems mem ar = count)
    (hf : ObjPool.nfree mem ar + used.card = count) : sizeDiff (ObjPool.nitems mem ar) (ObjPool.nfree mem ar) = used.card := by
  have hlt : ObjPool.nitems mem ar < 256 ^ 8 := Mem.read_lt _ _ _
  rw [sizeDiff_of_le (by omega) (by omega)]
  omega

theorem ArenaOk.nused_eq {size ar : Nat} {mem : Mem} {used : Finset Nat} (h : ArenaOk size mem ar used) (hl : Layout size) :
    nused mem ar = sizeDiff (ObjPool.nitems mem ar) (ObjPool.nfree mem ar) := by
  rw [sizeDiff_used h.nitems h.nfree, nused, foldl_count (fun i : Nat => bitTest mem (bitmap ar) i), h.nitems, h.used_eq hl,
    Nat.zero_add]

theorem Inv.poolOk {size : Nat} {s : Client} {used : Nat → Finset Nat} (h : Inv size s used) (hl : Layout size) :
    PoolOk size s := by
  have hfits := hl.fits
  refine ⟨fun p hp => ?_, fun ar har => ?_, fun p hp q hq hne => ?_, fun ar har i hi => ?_, fun ar har => ?_, ?_⟩
  · obtain ⟨ar, har, i, hi, rfl⟩ := (h.live p).mp hp
    have hok := h.ok ar har
    refine ⟨ar, har, i, ?_, ?_⟩
    · rw [hok.nitems]
      exact hok.bound i hi
    · rw [hok.items]
  · have hok := h.ok ar har
    rw [hok.items, hok.nitems, bitmap, itemsAt]
    omega
  · obtain ⟨ar, har, i, hi, rfl⟩ := (h.live p).mp hp
    obtain ⟨x, hx, j, hj, rfl⟩ := (h.live q).mp hq
    rcases slot_cases hl h.apart har hx ((h.ok ar har).bound i hi) ((h.ok x hx).bound j hj) with ⟨rfl, rfl⟩ | hlt | hlt
    · exact absurd rfl hne
    · exact Or.inl hlt
    · exact Or.inr hlt
  · have hok := h.ok ar har
    rw [bitTest_nat, hok.bits i hi, hok.nitems, hok.items, h.live]
    constructor
    · intro hu
      exact ⟨hok.bound i hu, ar, har, i, hu, rfl⟩
    · rintro ⟨hlt, x, hx, j, hj, he⟩
      have hO : sizeofObject = 32 := rfl
      rcases slot_cases hl h.apart har hx hlt ((h.ok x hx).bound j hj) with ⟨rfl, rfl⟩ | hgt | hgt
      · exact hj
      · omega
      · omega
  · rw [(h.ok ar har).nitems]
    exact (h.ok ar har).nfree_eq hl
  · unfold objmemcheck
    have hall : ∀ ar ∈ s.pool.arenas, nused s.pool.mem ar = sizeDiff (nitems s.pool.mem ar) (ObjPool.nfree s.pool.mem ar) :=
      fun ar har => (h.ok ar har).nused_eq hl
    generalize s.pool.arenas = al at hall
    induction al with
    | nil => rfl
    | cons ar al ih =>
      rw [List.forM_eq_forM, List.forM_cons, if_pos (hall ar List.mem_cons_self)]
      exact ih fun x hx => hall x (List.mem_cons_of_mem ar hx)

/-- In every reachable state of a pool with arenas of the default size the bitmaps agree with the live objects, a request returns
an object that is not live, without leaving a bitmap, unless `mmap` fails, and freeing a live object returns. -/
theorem objpool_safe {s : Client} (hs : (client arenaSize).Reach s) :
    PoolOk arenaSize s ∧
    (∀ os, MmapOk arenaSize os → objalloc arenaSize os s.pool = .error .mmapError ∨
      ∃ g p, objalloc arenaSize os s.pool = .ok (g, p) ∧ p ∉ s.live) ∧
    ∀ p, p = 0 ∨ p ∈ s.live → ∃ g, objfree arenaSize p s.pool = .ok g := by
  obtain ⟨used, h⟩ := inv_reach layout_arenaSize hs
  refine ⟨h.poolOk layout_arenaSize, fun os hos => ?_, fun p hp => ?_⟩
  · rcases h.objalloc layout_arenaSize hos with he | ⟨g, p, -, hok, hnot, -⟩
    · exact Or.inl he
    · exact Or.inr ⟨g, p, hok, hnot⟩
  · obtain ⟨g, -, hok, -⟩ := h.objfree layout_arenaSize hp
    exact ⟨g, hok⟩

/-- The first object: the kernel maps an arena, and `alloc_block` finds a free item in it. -/
theorem objalloc_first : ∃ g p, objalloc arenaSize oneArena ⟨fun _ => 0, []⟩ = .ok (g, p) ∧
    (client arenaSize).Reach ⟨g, {p}⟩ := by
  have h0 : (client arenaSize).Reach ⟨⟨fun _ => 0, []⟩, ∅⟩ := .init ⟨_, rfl⟩
  obtain ⟨used, h⟩ := inv_reach layout_arenaSize h0
  rcases h.objalloc layout_arenaSize oneArena_ok with he | ⟨g, p, -, hok, -, -⟩
  · -- the call of `alloc_block` in the new arena does not end with an error of `mmap`
    exfalso
    simp only [objalloc, List.find?_nil, oneArena, if_true] at he
    unfold allocBlock at he
    split at he
    · cases he
    · split at he <;> cases he
  · exact ⟨g, p, hok, .step (.alloc oneArena) h0 (Step.alloc oneArena_ok hok)⟩

/-- A client with one object. -/
theorem objpool_safe_one : ∃ s p, (client arenaSize).Reach s ∧ p ∈ s.live ∧ PoolOk arenaSize s := by
  obtain ⟨g, p, -, hs⟩ := objalloc_first
  exact ⟨_, p, hs, Finset.mem_singleton_self p, (objpool_safe hs).1⟩

end OsLabs.ObjPool
