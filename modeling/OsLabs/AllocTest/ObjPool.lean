import OsLabs.AllocTest.Runs
import OsLabs.ObjPool.Builds
import Mathlib.Data.Finset.Dedup

/-!
# The test of the object pool

`objpool.c` includes the test with objects of 32 bytes. The build with `TEST` is correct by the invariant of the pool, the other one
because it gives the same answers.
-/

namespace OsLabs.ObjPool

open AllocTest

/-- `alloc_fn`, with the `objalloc` of a build. -/
def Build.allocFn (b : Build) (os : List Nat → Option Nat) (drawn : Nat) (g : Pool) : Except Stop (Pool × Nat × Nat × Nat) := do
  let (g, p) ← b.objalloc os g
  pure (g, p, sizeofObject, drawn)

/-- A build of the pool, for the test. -/
def Build.tested (b : Build) (os : List Nat → Option Nat) : Allocator Pool Stop where
  allocFn _ := b.allocFn os
  freeFn := b.objfree
  mem := Pool.mem
  setMem g m := { g with mem := m }
  mem_setMem _ _ := rfl
  setMem_setMem _ _ _ := rfl
  setMem_mem _ := rfl

/-! ## The bytes of live objects -/

/-- A byte of a live object is not in the header or the bitmap of an arena. -/
theorem Inv.object_outside {size ar q i : Nat} {s : Client} {used : Nat → Finset Nat} (h : Inv size s used) (hl : Layout size)
    (har : ar ∈ s.pool.arenas) (hq : q ∈ s.live) (hi : i < sizeofObject) :
    q + i < ar + 16 ∨ ar + (sizeofArena + bitmapSize size) ≤ q + i := by
  have hfits := hl.fits
  obtain ⟨x, hx, j, hj, rfl⟩ := (h.live q).mp hq
  have hinside := slot_inside x hl ((h.ok x hx).bound j hj)
  by_cases hne : x = ar
  · subst hne
    omega
  · have := h.apart.of_ne hx har hne
    unfold ApartFrom at this
    omega

/-- `alloc_block` does not change the bytes of live objects. -/
theorem Inv.allocBlock_bytes {size ar p : Nat} {s : Client} {used : Nat → Finset Nat} {g : Pool} (h : Inv size s used)
    (hl : Layout size) (har : ar ∈ s.pool.arenas) (hfree : 0 < nfree s.pool.mem ar)
    (hcall : ObjPool.allocBlock size s.pool ar = .ok (g, p)) {q i : Nat} (hq : q ∈ s.live) (hi : i < sizeofObject) :
    g.mem (q + i) = s.pool.mem (q + i) := by
  obtain ⟨index, mem', -, -, hok, -, hout⟩ := allocBlock_ok hl (h.ok ar har) hfree
  rw [hok] at hcall
  obtain ⟨rfl, -⟩ := Prod.mk.inj (Except.ok.inj hcall)
  exact hout _ (h.object_outside hl har hq hi)

/-- `objalloc` does not change the bytes of live objects. -/
theorem Inv.objalloc_bytes {size p : Nat} {s : Client} {used : Nat → Finset Nat} {os : List Nat → Option Nat} {g : Pool}
    (h : Inv size s used) (hl : Layout size) (hos : MmapOk size os) (hcall : ObjPool.objalloc size os s.pool = .ok (g, p))
    {q i : Nat} (hq : q ∈ s.live) (hi : i < sizeofObject) : g.mem (q + i) = s.pool.mem (q + i) := by
  rw [ObjPool.objalloc] at hcall
  cases hfind : s.pool.arenas.find? fun ar => decide (0 < nfree s.pool.mem ar) with
  | some ar =>
    rw [hfind] at hcall
    have hfree := List.find?_some hfind
    exact h.allocBlock_bytes hl (List.mem_of_find?_eq_some hfind) (by simpa using hfree) hcall hq hi
  | none =>
    rw [hfind] at hcall
    cases hnew : os s.pool.arenas with
    | none =>
      rw [hnew] at hcall
      cases hcall
    | some new =>
      rw [hnew] at hcall
      have h' := h.fresh hl hos hnew
      have hin : new ∈ allocAfterArena s.pool.arenas none new := by simp [allocAfterArena]
      have hnfree := (h'.ok new hin).nfree
      have hpos := hl.pos
      simp only [Function.update_self, Finset.card_empty, Nat.add_zero] at hnfree
      rw [h'.allocBlock_bytes hl hin (by rw [hnfree]; exact hpos) hcall hq hi]
      -- the fresh arena is apart from the objects
      obtain ⟨-, htop, hapart⟩ := hos _ _ hnew
      obtain ⟨x, hx, j, hj, rfl⟩ := (h.live q).mp hq
      have hinside := slot_inside x hl ((h.ok x hx).bound j hj)
      have := hapart x hx
      exact (initArena_ok new hl s.pool.mem htop).2 _ (by omega)

/-- `objfree` of a live object does not change the bytes of live objects. -/
theorem Inv.objfree_bytes {size p : Nat} {s : Client} {used : Nat → Finset Nat} {g : Pool} (h : Inv size s used)
    (hl : Layout size) (hp : p ∈ s.live) (hcall : ObjPool.objfree size p s.pool = .ok g) {q i : Nat} (hq : q ∈ s.live)
    (hi : i < sizeofObject) : g.mem (q + i) = s.pool.mem (q + i) := by
  have hA : sizeofArena = 32 := rfl
  have hO : sizeofObject = 32 := rfl
  obtain ⟨ar, har, j, hj, rfl⟩ := (h.live p).mp hp
  have hinside := slot_inside ar hl ((h.ok ar har).bound j hj)
  obtain ⟨mem', hfree, -, hout⟩ := freeBlock_ok hl (h.ok ar har) hj
  rw [ObjPool.objfree, if_neg (by omega), findPtrArena_eq h.apart har (by omega) (by omega)] at hcall
  simp only [hfree] at hcall
  obtain rfl := Except.ok.inj hcall
  exact hout _ (h.object_outside hl har hq hi)

/-! ## The build with `TEST` -/

/-- The invariant of the pool, with the objects of the test. -/
structure TestInv (size : Nat) (g : Pool) (live : Multiset (Nat × Nat)) : Prop where
  inv : ∃ used, Inv size ⟨g, (live.map Prod.fst).toFinset⟩ used
  nodup : (live.map Prod.fst).Nodup
  object : ∀ q ∈ live, q.2 = sizeofObject

theorem mem_objects {live : Multiset (Nat × Nat)} {q : Nat × Nat} (h : q ∈ live) : q.1 ∈ (live.map Prod.fst).toFinset :=
  Multiset.mem_toFinset.mpr (Multiset.mem_map_of_mem Prod.fst h)

/-- `objalloc` only stops when `mmap` fails. -/
theorem objalloc_mmapError {size : Nat} {os : List Nat → Option Nat} {g : Pool}
    (h : objalloc size os g = .error .mmapError) : ∃ al, os al = none := by
  have hblock : ∀ g' ar, allocBlock size g' ar ≠ .error .mmapError := by
    intro g' ar he
    unfold allocBlock at he
    split at he
    · cases he
    · split at he <;> cases he
  unfold objalloc at h
  split at h
  · exact absurd h (hblock _ _)
  · split at h
    · exact ⟨g.arenas, ‹_›⟩
    · exact absurd h (hblock _ _)

/-- A request of the test. -/
theorem TestInv.objalloc {size : Nat} {g : Pool} {live : Multiset (Nat × Nat)} {os : List Nat → Option Nat}
    (h : TestInv size g live) (hl : Layout size) (hos : MmapOk size os) :
    (ObjPool.objalloc size os g = .error .mmapError ∧ ∃ al, os al = none) ∨
      ∃ g' p, ObjPool.objalloc size os g = .ok (g', p) ∧ TestInv size g' ((p, sizeofObject) ::ₘ live) ∧ p ≠ 0 ∧
        (∀ q ∈ live, p + sizeofObject ≤ q.1 ∨ q.1 + q.2 ≤ p) ∧ SameBytes live g.mem g'.mem := by
  have hfits := hl.fits
  have hA : sizeofArena = 32 := rfl
  obtain ⟨used, hinv⟩ := h.inv
  rcases hinv.objalloc hl hos with he | ⟨g', p, used', hcall, hfresh, hinv'⟩
  · exact Or.inl ⟨he, objalloc_mmapError he⟩
  · have hset : insert p (live.map Prod.fst).toFinset = (((p, sizeofObject) ::ₘ live).map Prod.fst).toFinset := by
      rw [Multiset.map_cons, Multiset.toFinset_cons]
    have hin : p ∈ insert p (live.map Prod.fst).toFinset := Finset.mem_insert_self _ _
    have hok := hinv'.poolOk hl
    refine Or.inr ⟨g', p, hcall, ⟨⟨used', hset ▸ hinv'⟩, ?_, ?_⟩, ?_, fun q hq => ?_, fun q hq i hi => ?_⟩
    · rw [Multiset.map_cons]
      exact Multiset.nodup_cons.mpr ⟨fun hmem => hfresh (Multiset.mem_toFinset.mpr hmem), h.nodup⟩
    · intro q hq
      rcases Multiset.mem_cons.mp hq with rfl | hq
      · rfl
      · exact h.object q hq
    · obtain ⟨ar, har, i, hi, rfl⟩ := (hinv'.live p).mp hin
      have := slot_inside ar hl ((hinv'.ok ar har).bound i hi)
      omega
    · have hq' := mem_objects hq
      have := hok.disjoint p hin q.1 (Finset.mem_insert_of_mem hq') fun e => hfresh (e ▸ hq')
      rw [h.object q hq]
      exact this
    · exact hinv.objalloc_bytes hl hos hcall (mem_objects hq) (by rwa [h.object q hq] at hi)

/-- A free of the test. -/
theorem TestInv.objfree {size p len : Nat} {g : Pool} {live : Multiset (Nat × Nat)} (h : TestInv size g ((p, len) ::ₘ live))
    (hl : Layout size) : ∃ g', ObjPool.objfree size p g = .ok g' ∧ TestInv size g' live ∧ SameBytes live g.mem g'.mem := by
  obtain ⟨used, hinv⟩ := h.inv
  have hin := mem_objects (Multiset.mem_cons_self (p, len) live)
  obtain ⟨g', used', hcall, hinv'⟩ := hinv.objfree hl (Or.inr hin)
  have hnodup := h.nodup
  rw [Multiset.map_cons] at hnodup
  obtain ⟨hnot, hnodup⟩ := Multiset.nodup_cons.mp hnodup
  have hset : ((((p, len) ::ₘ live).map Prod.fst).toFinset.erase p) = (live.map Prod.fst).toFinset := by
    rw [Multiset.map_cons, Multiset.toFinset_cons, Finset.erase_insert fun hmem => hnot (Multiset.mem_toFinset.mp hmem)]
  simp only [hset] at hinv'
  refine ⟨g', hcall, ⟨⟨used', hinv'⟩, hnodup, fun q hq => h.object q (Multiset.mem_cons_of_mem hq)⟩, fun q hq i hi => ?_⟩
  rw [h.object q (Multiset.mem_cons_of_mem hq)] at hi
  exact hinv.objfree_bytes hl hin hcall (mem_objects (Multiset.mem_cons_of_mem hq)) hi

/-- The pool is what the test relies on. -/
theorem withTest_correct {size : Nat} {os : List Nat → Option Nat} (hl : Layout size) (hos : MmapOk size os) :
    Correct ((withTest size).tested os) (TestInv size) fun e => e = .mmapError ∧ ∃ al, os al = none where
  alloc := by
    intro g live rand drawn h
    simp only [Build.tested, Build.allocFn, withTest]
    rcases h.objalloc hl hos with ⟨hcall, hnone⟩ | ⟨g', p, hcall, hinv, hp, hrest⟩
    · exact Or.inl ⟨.mmapError, by rw [hcall]; rfl, rfl, hnone⟩
    · exact Or.inr ⟨g', p, _, drawn, by rw [hcall]; rfl, hinv, fun _ => hp, hrest⟩
  free := fun h => h.objfree hl
  store := by
    intro g live p len i b h hp hi
    obtain ⟨used, hinv⟩ := h.inv
    obtain rfl : len = sizeofObject := h.object _ hp
    exact ⟨⟨used, hinv.store hl b (mem_objects hp) hi⟩, h.nodup, h.object⟩

/-! ## The build without `TEST` -/

/-- A live object lies in the items of an arena. -/
theorem TestInv.slot {size p len : Nat} {g : Pool} {live : Multiset (Nat × Nat)} (h : TestInv size g live) (hl : Layout size)
    (hp : (p, len) ∈ live) : len = sizeofObject ∧ ∃ ar ∈ g.arenas, items g.mem ar ≤ p ∧ p + sizeofObject ≤ ar + size := by
  obtain ⟨used, hinv⟩ := h.inv
  obtain ⟨ar, har, i, hi, rfl⟩ := (hinv.live p).mp (mem_objects hp)
  have hok := hinv.ok ar har
  have hinside := slot_inside ar hl (hok.bound i hi)
  refine ⟨h.object _ hp, ar, har, ?_, hinside.2⟩
  rw [hok.items]
  exact Nat.le_add_right _ _

/-- The pool of the other build gives the same answers, so it is what the test relies on. -/
theorem withoutTest_correct {size : Nat} {os : List Nat → Option Nat} (h : Fits size) (hos : MmapOk size os) :
    Correct ((withoutTest size).tested os) (fun g' live => ∃ g, TestInv size g live ∧ ∃ used, Same size g g' used)
      fun e => e = .mmapError ∧ ∃ al, os al = none := by
  have hfits := h.layout.fits
  refine (withTest_correct h.layout hos).transfer (fun g g' => ∃ used, Same size g g' used) (fun e => e ≠ .outside)
    ?_ ?_ ?_ ?_
  · rintro g g' live rand drawn - ⟨used, hs⟩
    exact (hs.objalloc h hos).bind fun a b _ _ hab => .ok ⟨by rw [hab.1], hab.2⟩
  · rintro g g' live p len hinv ⟨used, hs⟩
    refine hs.objfree h fun ar har h1 h2 => ?_
    obtain ⟨-, x, hx, h3, h4⟩ := hinv.slot h.layout (Multiset.mem_cons_self _ _)
    have hbehind := h.behind x
    rw [(hs.arena x hx).plain.items] at h3
    by_cases he : x = ar
    · subst he
      rwa [(hs.arena x hx).plain.items]
    · have := hs.apart.of_ne hx har he
      unfold ApartFrom at this
      omega
  · rintro g g' live p len i b hinv ⟨used, hs⟩ hp hi
    obtain ⟨rfl, ar, har, h3, h4⟩ := hinv.slot h.layout hp
    exact ⟨used, hs.store h b ⟨ar, har, by omega, by omega⟩⟩
  · rintro g g' live hinv ⟨used, hs⟩ q hq i hi
    obtain ⟨hlen, ar, har, h3, h4⟩ := hinv.slot h.layout hq
    rw [(hs.arena ar har).plain.items] at h3
    exact (hs.arena ar har).bytes _ (by omega) (by omega)

/-- For every sequence of random numbers the test of the pool, in both builds, ends with every object freed, each of them apart from
the others and intact until then, and with bitmaps that `objmemcheck` accepts; it only stops when `mmap` fails. -/
theorem test_objpool {os : List Nat → Option Nat} (hos : MmapOk arenaSize os) (rand : Nat → Nat) (mem : Mem) (b : Build)
    (hb : b = withTest arenaSize ∨ b = withoutTest arenaSize) :
    Ends (fun e => e = .mmapError ∧ ∃ al, os al = none)
      (fun s => s.ptrn = 0 ∧ Shadow s.log 0 ∧ b.objmemcheck s.heap = .ok ())
      (AllocTest.main (b.tested os) rand ⟨mem, []⟩) := by
  have hf := fits_arenaSize
  have h0 : TestInv arenaSize ⟨mem, []⟩ 0 :=
    ⟨⟨fun _ => ∅, List.Pairwise.nil, nofun, fun p => by simp⟩, Multiset.nodup_zero, by simp⟩
  rcases hb with rfl | rfl
  · refine (main_ends (withTest_correct hf.layout hos) rand h0).mono fun s ⟨hzero, hlog, hinv⟩ => ⟨hzero, hlog, ?_⟩
    obtain ⟨used, hinv⟩ := hinv.inv
    exact (hinv.poolOk hf.layout).memcheck
  · have hsame : ∃ used, Same arenaSize ⟨mem, []⟩ ⟨mem, []⟩ used := ⟨fun _ => ∅, rfl, List.Pairwise.nil, nofun⟩
    refine (main_ends (withoutTest_correct hf hos) rand ⟨_, h0, hsame⟩).mono fun s ⟨hzero, hlog, hinv⟩ => ⟨hzero, hlog, ?_⟩
    obtain ⟨g, -, used, hs⟩ := hinv
    exact (hs.objmemcheck hf).2

/-- The test of the build without `TEST`, in a kernel that maps one arena. -/
theorem test_objpool_one : Ends (fun e => e = .mmapError ∧ ∃ al, oneArena al = none)
    (fun s => s.ptrn = 0 ∧ Shadow s.log 0 ∧ (withoutTest arenaSize).objmemcheck s.heap = .ok ())
    (AllocTest.main ((withoutTest arenaSize).tested oneArena) (fun n => n) ⟨fun _ => 0, []⟩) :=
  test_objpool oneArena_ok (fun n => n) (fun _ => 0) (withoutTest arenaSize) (Or.inr rfl)

end OsLabs.ObjPool
