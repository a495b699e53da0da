import OsLabs.ObjPool.Runs

/-!
# Frees of pointers that are not live objects

`free_block` finds the slot of a pointer by a division, and a slot in use is freed. A pointer into the header or the bitmap gives a
negative index, whose bit lies in the two highest bytes of `ar->items`; these are zero, because addresses of the user half of the
address space have 47 bits. A pointer to a slot that is not in use finds a clear bit. But a pointer into the middle of an object is
not told from one to its start: `invalid_free_iff` says that these pointers, and no others, free what they should not.
-/

namespace OsLabs.ObjPool

/-- The pointer lies inside a live object, behind its start. -/
def Interior (s : Client) (p : Nat) : Prop := ∃ q ∈ s.live, q < p ∧ p < q + sizeofObject

/-- The steps of a client that may free any pointer. -/
inductive AnyStep (size : Nat) (s : Client) : Act → Client → Prop where
  | valid {a : Act} {s' : Client} (h : Step size s a s') : AnyStep size s a s'
  | free {p : Nat} {g : Pool} (h : objfree size p s.pool = .ok g) :
      AnyStep size s (.free p) { pool := g, live := s.live.erase p }

/-- The runs of the pool with a client that may free any pointer. -/
def anyClient (size : Nat) : Sys Client Act where
  init := (client size).init
  step := AnyStep size

/-- The client does not free a pointer into the middle of an object. -/
def NoInterior (s : Client) (a : Act) : Prop := ∀ p, a = .free p → ¬ Interior s p

/-- The arenas lie in the user half of the address space. -/
theorem arenas_low {size : Nat} {s : Client} (hs : (client size).Reach s) : ∀ ar ∈ s.pool.arenas, ar + size ≤ 2 ^ 47 := by
  induction hs with
  | init h0 =>
    obtain ⟨mem, rfl⟩ := h0
    nofun
  | step a _ hst ih =>
    cases hst with
    | alloc hos hcall =>
      rcases objalloc_arenas hcall with ⟨-, -, -, he⟩ | ⟨new, hnew, -, he⟩
      · simpa only [he] using ih
      · simp only [he, List.mem_append, List.mem_singleton]
        rintro ar (har | rfl)
        · exact ih ar har
        · exact (hos _ _ hnew).2.1
    | free hp hcall =>
      simp only [objfree_arenas hcall]
      exact ih
    | write b hp hi => exact ih

/-! ## The index of any pointer of an arena -/

/-- The unsigned division and the cut to an `int` give the quotient rounded down, below the first item also. -/
theorem freeIndex_eq {p first : Nat} (h1 : first ≤ p + 2 ^ 32) (h2 : p ≤ first + 2 ^ 32) :
    freeIndex p first = ((p : Int) - first) / sizeofObject := by
  have hO : sizeofObject = 32 := rfl
  rw [freeIndex, BitVec.toInt_ofNat', BitVec.toNat_ofInt, hO, Int.bmod]
  omega

/-- The index of a pointer behind the start of the items. -/
theorem freeIndex_nat {p first : Nat} (h1 : first ≤ p) (h2 : p ≤ first + 2 ^ 32) :
    freeIndex p first = ((p - first) / sizeofObject : Nat) := by
  have hO : sizeofObject = 32 := rfl
  rw [freeIndex_eq (by omega) h2, hO]
  omega

/-- The slot of that index holds the pointer, and no other slot does. -/
theorem div_slot {p first i : Nat} (h : first ≤ p) :
    (p - first) / sizeofObject = i ↔ first + sizeofObject * i ≤ p ∧ p < first + sizeofObject * i + sizeofObject := by
  have hO : sizeofObject = 32 := rfl
  rw [hO]
  omega

/-- The items of an arena of the default size start 352 bytes behind its start. -/
theorem itemsAt_arenaSize (ar : Nat) : itemsAt arenaSize ar = ar + 352 := by
  have hsize : arenaSize = 65536 := by decide
  have hcount : itemCount arenaSize * sizeofObject = 65184 := by decide
  rw [itemsAt, hcount, hsize]
  omega

/-- `free_block` only looks at the index of the pointer. -/
theorem freeBlock_congr {g : Pool} {ar p q : Nat} (h : freeIndex p (items g.mem ar) = freeIndex q (items g.mem ar)) :
    freeBlock g ar p = freeBlock g ar q := by
  rw [freeBlock, freeBlock, h]

/-- A pointer before the items: the bit that is tested is in the highest bytes of `ar->items`, and it is clear. -/
theorem freeBlock_before {g : Pool} {ar p : Nat} {used : Finset Nat} (hok : ArenaOk arenaSize g.mem ar used)
    (hlow : ar + arenaSize ≤ 2 ^ 47) (h1 : ar < p) (h2 : p < itemsAt arenaSize ar) : freeBlock g ar p = g := by
  have hitems := hok.items
  rw [itemsAt_arenaSize] at h2 hitems
  have hO : sizeofObject = 32 := rfl
  have hindex : freeIndex p (ar + 352) = ((p : Int) - (ar + 352 : Nat)) / 32 := freeIndex_eq (by omega) (by omega)
  have hsmall : g.mem.read (ar + 24) 8 < 256 ^ 6 := by
    rw [items] at hitems
    rw [hitems]
    omega
  have hlt : 256 ^ 6 < 256 ^ 7 := by decide
  have hbyte : g.mem (bitByte (bitmap ar) (freeIndex p (ar + 352))) = 0 := by
    have h6 : g.mem (ar + 24 + 6) = 0 := Mem.byte_zero_of_read_lt (by decide) hsmall
    have h7 : g.mem (ar + 24 + 7) = 0 := Mem.byte_zero_of_read_lt (n := 8) (by decide) (hsmall.trans hlt)
    have hA : sizeofArena = 32 := rfl
    have hplace : bitByte (bitmap ar) (freeIndex p (ar + 352)) = ar + 24 + 6 ∨
        bitByte (bitmap ar) (freeIndex p (ar + 352)) = ar + 24 + 7 := by
      rw [hindex, bitByte, bitmap, hA]
      omega
    rcases hplace with he | he
    · rw [he, h6]
    · rw [he, h7]
  have htest : bitTest g.mem (bitmap ar) (freeIndex p (ar + 352)) = false := by
    rw [bitTest, hbyte]
    simp
  rw [freeBlock]
  simp only [hitems, htest, Bool.false_eq_true, if_false]

/-- A pointer to a slot that is not in use. -/
theorem freeBlock_unused {g : Pool} {ar p i : Nat} {used : Finset Nat} (hok : ArenaOk arenaSize g.mem ar used)
    (hi : i < itemCount arenaSize) (hindex : freeIndex p (itemsAt arenaSize ar) = i) (hnot : i ∉ used) :
    freeBlock g ar p = g := by
  have hbits := layout_arenaSize.bits
  have htest : bitTest g.mem (bitmap ar) i = false := by
    rw [bitTest_nat, ← Bool.not_eq_true, hok.bits i (by omega)]
    exact hnot
  rw [freeBlock]
  simp only [hok.items, hindex, htest, Bool.false_eq_true, if_false]

/-- A pointer into a slot in use frees the slot. -/
theorem freeBlock_used {g : Pool} {ar p i : Nat} {used : Finset Nat} (hok : ArenaOk arenaSize g.mem ar used)
    (hindex : freeIndex p (itemsAt arenaSize ar) = i) (hi : i ∈ used) : freeBlock g ar p ≠ g := by
  have hbound := hok.bound i hi
  have hcount := layout_arenaSize.count_lt
  obtain ⟨mem', hcall, hok', -⟩ := freeBlock_ok layout_arenaSize hok hi
  have hsame : freeBlock g ar p = freeBlock g ar (itemsAt arenaSize ar + sizeofObject * i) :=
    freeBlock_congr (by rw [hok.items, hindex, freeIndex_slot (by omega)])
  intro heq
  rw [hsame, hcall] at heq
  have hmem : mem' = g.mem := congrArg Pool.mem heq
  rw [hmem] at hok'
  -- one free item more
  have hold := hok.nfree
  have hnew := hok'.nfree
  rw [Finset.card_erase_of_mem hi] at hnew
  have := Finset.card_pos.mpr ⟨i, hi⟩
  omega

/-! ## A free of any pointer of an arena -/

/-- A pointer inside an arena lies in a live object, which is freed then, or in none, and nothing happens then. -/
theorem Inv.objfree_inside {s : Client} {used : Nat → Finset Nat} (h : Inv arenaSize s used)
    (hlow : ∀ ar ∈ s.pool.arenas, ar + arenaSize ≤ 2 ^ 47) {ar p : Nat} (har : ar ∈ s.pool.arenas) (h1 : ar < p)
    (h2 : p < ar + arenaSize) :
    (ObjPool.objfree arenaSize p s.pool = .ok s.pool ∧ ∀ q ∈ s.live, p < q ∨ q + sizeofObject ≤ p) ∨
      ∃ g, ObjPool.objfree arenaSize p s.pool = .ok g ∧ g ≠ s.pool ∧ ∃ q ∈ s.live, q ≤ p ∧ p < q + sizeofObject := by
  have hl := layout_arenaSize
  have hO : sizeofObject = 32 := rfl
  have hsize : arenaSize = 65536 := by decide
  have hcount : itemCount arenaSize = 2037 := by decide
  have hfirst := itemsAt_arenaSize ar
  have hok := h.ok ar har
  have hcall : ObjPool.objfree arenaSize p s.pool = .ok (freeBlock s.pool ar p) := by
    rw [ObjPool.objfree, if_neg (by omega), findPtrArena_eq h.apart har h1 h2]
  -- a live object at the pointer is a slot of this arena
  have hslot : ∀ q ∈ s.live, q ≤ p → p < q + sizeofObject → ∃ i ∈ used ar, q = itemsAt arenaSize ar + sizeofObject * i := by
    intro q hq hqp hpq
    obtain ⟨x, hx, i, hi, rfl⟩ := (h.live q).mp hq
    have hin := slot_inside x hl ((h.ok x hx).bound i hi)
    by_cases he : x = ar
    · subst he
      exact ⟨i, hi, rfl⟩
    · have := h.apart.of_ne hx har he
      unfold ApartFrom at this
      omega
  by_cases hbefore : p < itemsAt arenaSize ar
  · refine Or.inl ⟨?_, fun q hq => ?_⟩
    · rw [hcall, freeBlock_before hok (hlow ar har) h1 hbefore]
    · by_contra hcon
      obtain ⟨i, -, rfl⟩ := hslot q hq (by omega) (by omega)
      omega
  · rw [not_lt] at hbefore
    obtain ⟨i, hi⟩ : ∃ i, (p - itemsAt arenaSize ar) / sizeofObject = i := ⟨_, rfl⟩
    have hindex : freeIndex p (itemsAt arenaSize ar) = i := by
      rw [freeIndex_nat hbefore (by omega), hi]
    have hin := (div_slot hbefore).mp hi
    by_cases hused : i ∈ used ar
    · exact Or.inr ⟨_, hcall, freeBlock_used hok hindex hused, itemsAt arenaSize ar + sizeofObject * i,
        (h.live _).mpr ⟨ar, har, i, hused, rfl⟩, hin⟩
    · refine Or.inl ⟨?_, fun q hq => ?_⟩
      · have hlt : i < itemCount arenaSize := by
          rw [hO] at hin
          omega
        rw [hcall, freeBlock_unused hok hlt hindex hused]
      · by_contra hcon
        obtain ⟨j, hj, rfl⟩ := hslot q hq (by omega) (by omega)
        have hji : i = j := hi.symm.trans ((div_slot hbefore).mpr ⟨by omega, by omega⟩)
        exact hused (hji ▸ hj)

/-- Two live objects that hold a pointer are the same. -/
theorem Inv.live_unique {s : Client} {used : Nat → Finset Nat} (h : Inv arenaSize s used) {p q : Nat} (hp : p ∈ s.live)
    (hq : q ∈ s.live) (h1 : q ≤ p) (h2 : p < q + sizeofObject) : q = p := by
  obtain ⟨x, hx, i, hi, rfl⟩ := (h.live p).mp hp
  obtain ⟨y, hy, j, hj, rfl⟩ := (h.live q).mp hq
  rcases slot_cases layout_arenaSize h.apart hx hy ((h.ok x hx).bound i hi) ((h.ok y hy).bound j hj) with
    ⟨rfl, rfl⟩ | hlt | hlt
  · rfl
  · omega
  · omega

/-- A free of a pointer inside an arena only changes the pool for a live object exactly if the pointer is not into the middle of
one. -/
theorem Inv.objfree_iff {s : Client} {used : Nat → Finset Nat} (h : Inv arenaSize s used)
    (hlow : ∀ ar ∈ s.pool.arenas, ar + arenaSize ≤ 2 ^ 47) {ar p : Nat} (har : ar ∈ s.pool.arenas) (h1 : ar < p)
    (h2 : p < ar + arenaSize) :
    (∀ g, ObjPool.objfree arenaSize p s.pool = .ok g → g ≠ s.pool → p ∈ s.live) ↔ ¬ Interior s p := by
  rcases h.objfree_inside hlow har h1 h2 with ⟨hcall, hnone⟩ | ⟨g, hcall, hne, q, hq, hqp, hpq⟩
  · refine iff_of_true (fun g hg hne => ?_) ?_
    · rw [hcall] at hg
      exact absurd (Except.ok.inj hg).symm hne
    · rintro ⟨q, hq, hlt, hgt⟩
      have := hnone q hq
      omega
  · constructor
    · rintro hall ⟨q', hq', hlt, hgt⟩
      have := h.live_unique (hall g hcall hne) hq' (by omega) hgt
      omega
    · intro hnot g' _ _
      rcases Nat.lt_or_ge q p with hlt | hge
      · exact absurd ⟨q, hq, hlt, hpq⟩ hnot
      · rwa [show p = q by omega]

/-- Frees that are not into the middle of an object do not leave the states that valid calls reach. -/
theorem reach_noInterior {s : Client} (hs : ((anyClient arenaSize).guard NoInterior).Reach s) : (client arenaSize).Reach s := by
  induction hs with
  | init h0 => exact .init h0
  | @step s s' a _ hst ih =>
    obtain ⟨hg, hst⟩ := hst
    cases hst with
    | valid h => exact .step a ih h
    | @free p g hcall =>
      by_cases hp : p = 0 ∨ p ∈ s.live
      · exact .step _ ih (.free hp hcall)
      · rw [not_or] at hp
        -- an invalid free returns with the pool as it was
        have hsame : g = s.pool := by
          by_contra hne
          obtain ⟨used, h⟩ := inv_reach layout_arenaSize ih
          cases hfind : findPtrArena arenaSize s.pool.arenas p with
          | none =>
            rw [objfree, if_neg hp.1, hfind] at hcall
            cases hcall
          | some ar =>
            obtain ⟨har, h1, h2⟩ := findPtrArena_some hfind
            exact hp.2 ((h.objfree_iff (arenas_low ih) har h1 h2).mpr (hg p rfl) g hcall hne)
        rw [hsame, Finset.erase_eq_of_notMem hp.2]
        exact ih

/-- A byte behind the start of the only object is inside an arena. -/
theorem slot_one {g : Pool} {q : Nat} (hs : (client arenaSize).Reach ⟨g, {q}⟩) :
    ∃ ar ∈ g.arenas, ar < q + 1 ∧ q + 1 < ar + arenaSize := by
  obtain ⟨used, h⟩ := inv_reach layout_arenaSize hs
  obtain ⟨ar, har, i, hi, rfl⟩ := (h.live q).mp (Finset.mem_singleton_self q)
  have hin := slot_inside ar layout_arenaSize ((h.ok ar har).bound i hi)
  have hO : sizeofObject = 32 := rfl
  exact ⟨ar, har, by omega, by omega⟩

/-- In every run of the pool whose frees, valid or not, are not of pointers into the middle of live objects: a free of a pointer
inside an arena changes the pool only for a live object, if and only if that pointer is not into the middle of a live object. -/
theorem invalid_free_iff {s : Client} (hs : ((anyClient arenaSize).guard NoInterior).Reach s) {ar p : Nat}
    (har : ar ∈ s.pool.arenas) (h1 : ar < p) (h2 : p < ar + arenaSize) :
    (∀ g, objfree arenaSize p s.pool = .ok g → g ≠ s.pool → p ∈ s.live) ↔ ¬ Interior s p := by
  have hreach := reach_noInterior hs
  obtain ⟨used, h⟩ := inv_reach layout_arenaSize hreach
  exact h.objfree_iff (arenas_low hreach) har h1 h2

/-- One object, and a pointer that is one byte into it. -/
theorem invalid_free_iff_one : ∃ s p, ((anyClient arenaSize).guard NoInterior).Reach s ∧ Interior s p ∧
    ¬ ∀ g, objfree arenaSize p s.pool = .ok g → g ≠ s.pool → p ∈ s.live := by
  obtain ⟨g, q, hcall, hs⟩ := objalloc_first
  have h0 : ((anyClient arenaSize).guard NoInterior).Reach ⟨⟨fun _ => 0, []⟩, ∅⟩ := .init ⟨_, rfl⟩
  have h1 : ((anyClient arenaSize).guard NoInterior).Reach ⟨g, {q}⟩ :=
    .step (.alloc oneArena) h0 ⟨nofun, .valid (.alloc oneArena_ok hcall)⟩
  have hin : Interior ⟨g, {q}⟩ (q + 1) := ⟨q, Finset.mem_singleton_self q, by omega, by unfold sizeofObject; omega⟩
  obtain ⟨ar, har, h2, h3⟩ := slot_one hs
  exact ⟨_, q + 1, h1, hin, fun hall => (invalid_free_iff h1 har h2 h3).mp hall hin⟩

/-- A free of the pointer one byte into the only object frees the object. -/
theorem interior_freed : ¬ ∀ s : Client, (client arenaSize).Reach s → ∀ ar ∈ s.pool.arenas, ∀ p, ar < p → p < ar + arenaSize →
    ∀ g, objfree arenaSize p s.pool = .ok g → g ≠ s.pool → p ∈ s.live := by
  intro hall
  obtain ⟨g, q, -, hs⟩ := objalloc_first
  obtain ⟨used, h⟩ := inv_reach layout_arenaSize hs
  obtain ⟨ar, har, h1, h2⟩ := slot_one hs
  exact (h.objfree_iff (arenas_low hs) har h1 h2).mp (hall _ hs ar har (q + 1) h1 h2)
    ⟨q, Finset.mem_singleton_self q, by omega, by unfold sizeofObject; omega⟩

end OsLabs.ObjPool
