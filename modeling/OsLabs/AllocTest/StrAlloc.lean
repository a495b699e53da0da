import OsLabs.AllocTest.Runs
import OsLabs.StrAlloc.Safety
import Mathlib.Data.Finset.Dedup

/-!
# The test of the string allocator

`stralloc.c` includes the test with buffers of at most 100 bytes; a request of no bytes gets `NULL`. The invariant of the allocator
is about the buffers that are not `NULL`; each of these is live once.
-/

namespace OsLabs.StrAlloc

open AllocTest

/-- `MAX_LEN`. -/
def maxLen : Nat := 100

/-- `alloc_fn`. -/
def allocFn (size : Nat) (os : List Nat → Option Nat) (rand : Nat → Nat) (drawn : Nat) (g : Heap) :
    Except Stop (Heap × Nat × Nat × Nat) := do
  let len := rand drawn % (maxLen + 1)
  let (g, p) ← stralloc size os (g.arenas.length + 1) len g
  pure (g, p, len, drawn + 1)

/-- The string allocator, for the test. -/
def tested (size : Nat) (os : List Nat → Option Nat) : Allocator Heap Stop where
  allocFn := allocFn size os
  freeFn := strfree size
  mem := Heap.mem
  setMem g m := { g with mem := m }
  mem_setMem _ _ := rfl
  setMem_setMem _ _ _ := rfl
  setMem_mem _ := rfl

/-- The buffers that are not `NULL`. -/
def buffers (live : Multiset (Nat × Nat)) : Multiset (Nat × Nat) := live.filter fun q => q.1 ≠ 0

/-- The invariant of the allocator, with the buffers of the test. -/
structure TestInv (size : Nat) (g : Heap) (live : Multiset (Nat × Nat)) : Prop where
  inv : ∃ bl, Inv size ⟨g, (buffers live).toFinset⟩ bl
  nodup : (buffers live).Nodup
  null : ∀ q ∈ live, q.1 = 0 → q.2 = 0

theorem mem_buffers {live : Multiset (Nat × Nat)} {q : Nat × Nat} (h : q ∈ live) (h0 : q.1 ≠ 0) : q ∈ (buffers live).toFinset :=
  Multiset.mem_toFinset.mpr (Multiset.mem_filter.mpr ⟨h, h0⟩)

/-- A request of the test. -/
theorem TestInv.stralloc {size len : Nat} {g : Heap} {live : Multiset (Nat × Nat)} {os : List Nat → Option Nat}
    (h : TestInv size g live) (hbig : sizeofArena + maxBlksz < size) (hos : MmapOk size os) (hlen : len ≤ maxLength) :
    (StrAlloc.stralloc size os (g.arenas.length + 1) len g = .error .mmapError ∧ ∃ al, os al = none) ∨
      ∃ g' p, StrAlloc.stralloc size os (g.arenas.length + 1) len g = .ok (g', p) ∧ TestInv size g' ((p, len) ::ₘ live) ∧
        (len ≠ 0 → p ≠ 0) ∧ (∀ q ∈ live, p + len ≤ q.1 ∨ q.1 + q.2 ≤ p) ∧ SameBytes live g.mem g'.mem := by
  have hsize : sizeofArena < size := by omega
  obtain ⟨bl, hinv⟩ := h.inv
  by_cases h0 : len = 0
  · subst h0
    refine Or.inr ⟨g, 0, ?_, ⟨⟨bl, ?_⟩, ?_, ?_⟩, fun hne => absurd rfl hne, fun q _ => Or.inl (by omega), fun _ _ _ _ => rfl⟩
    · rw [StrAlloc.stralloc, if_neg (by omega), if_pos rfl]
    · rwa [buffers, Multiset.filter_cons_of_neg _ (by simp)]
    · rw [buffers, Multiset.filter_cons_of_neg _ (by simp)]
      exact h.nodup
    · intro q hq hq0
      rcases Multiset.mem_cons.mp hq with rfl | hq
      · rfl
      · exact h.null q hq hq0
  · have hpost := stralloc_post hsize hos (by omega) hlen (g.arenas.length + 1) g bl hinv.holds hinv.cursor
    cases hcall : StrAlloc.stralloc size os (g.arenas.length + 1) len g with
    | error e =>
      rw [hcall] at hpost
      cases e with
      | assertion => exact hpost.elim
      | mmapError => exact Or.inl ⟨rfl, hpost⟩
      | fuel => exact absurd (hpost hbig) (Nat.lt_irrefl _)
    | ok gp =>
      obtain ⟨g', p⟩ := gp
      rw [hcall] at hpost
      obtain ⟨_, _, _, _, _, _, hv⟩ := hpost
      have hp : p ≠ 0 := by
        have := hv.ptr
        omega
      obtain ⟨bl', hinv', hsame, -⟩ := hinv.alloc hsize hos hlen hcall
      have hcons : buffers ((p, len) ::ₘ live) = (p, len) ::ₘ buffers live :=
        Multiset.filter_cons_of_pos _ (by simpa using hp)
      have hfresh : (p, len) ∉ buffers live := fun hin => hv.fresh len (Multiset.mem_toFinset.mpr hin)
      rw [if_neg hp, ← Multiset.toFinset_cons, ← hcons] at hinv'
      refine Or.inr ⟨g', p, rfl, ⟨⟨bl', hinv'⟩, ?_, ?_⟩, fun _ => hp, fun q hq => ?_, fun q hq i hi => ?_⟩
      · rw [hcons]
        exact Multiset.nodup_cons.mpr ⟨hfresh, h.nodup⟩
      · intro q hq hq0
        rcases Multiset.mem_cons.mp hq with rfl | hq
        · exact absurd hq0 hp
        · exact h.null q hq hq0
      · by_cases hq0 : q.1 = 0
        · have := h.null q hq hq0
          exact Or.inr (by omega)
        · have hne : (p, len) ≠ (q.1, q.2) := fun e => hfresh (by rw [e]; exact Multiset.mem_filter.mpr ⟨hq, hq0⟩)
          have := (hinv'.wellFormed hsize).disjoint p len q.1 q.2 (mem_buffers (Multiset.mem_cons_self _ _) hp)
            (mem_buffers (Multiset.mem_cons_of_mem hq) hq0) hne
          omega
      · have hq0 : q.1 ≠ 0 := fun hq0 => by
          have := h.null q hq hq0
          omega
        exact hsame q.1 q.2 (mem_buffers hq hq0) i hi

/-- A free of the test. -/
theorem TestInv.strfree {size p len : Nat} {g : Heap} {live : Multiset (Nat × Nat)} (h : TestInv size g ((p, len) ::ₘ live))
    (hsize : sizeofArena < size) :
    ∃ g', StrAlloc.strfree size p g = .ok g' ∧ TestInv size g' live ∧ SameBytes live g.mem g'.mem := by
  obtain ⟨bl, hinv⟩ := h.inv
  have hnull : ∀ q ∈ live, q.1 = 0 → q.2 = 0 := fun q hq => h.null q (Multiset.mem_cons_of_mem hq)
  have hnodup := h.nodup
  by_cases hp : p = 0
  · have hcons : buffers ((p, len) ::ₘ live) = buffers live := Multiset.filter_cons_of_neg _ (by simpa using hp)
    rw [hcons] at hnodup hinv
    exact ⟨g, by rw [StrAlloc.strfree, if_pos hp], ⟨⟨bl, hinv⟩, hnodup, hnull⟩, fun _ _ _ _ => rfl⟩
  · have hcons : buffers ((p, len) ::ₘ live) = (p, len) ::ₘ buffers live := Multiset.filter_cons_of_pos _ (by simpa using hp)
    have hin := mem_buffers (Multiset.mem_cons_self (p, len) live) hp
    obtain ⟨_, _, _, _, _, _, hcall⟩ := strfree_live hinv.holds hin
    obtain ⟨bl', hinv', hsame, -⟩ := hinv.free hsize (Or.inr ⟨len, hin⟩) hcall
    rw [hcons] at hnodup
    obtain ⟨hfresh, hnodup⟩ := Multiset.nodup_cons.mp hnodup
    -- no other buffer has this pointer
    have hother : ∀ q ∈ buffers live, q.1 ≠ p := by
      rintro ⟨q, l⟩ hq rfl
      have hne : (q, len) ≠ (q, l) := fun e => hfresh (by rw [e]; exact hq)
      have := (hinv.wellFormed hsize).disjoint q len q l hin
        (mem_buffers (Multiset.mem_cons_of_mem (Multiset.mem_filter.mp hq).1) hp) hne
      omega
    have hlive : ((buffers ((p, len) ::ₘ live)).toFinset.filter fun q => q.1 ≠ p) = (buffers live).toFinset := by
      rw [hcons, Multiset.toFinset_cons, Finset.filter_insert, if_neg (by simp)]
      exact Finset.filter_true_of_mem fun q hq => hother q (Multiset.mem_toFinset.mp hq)
    simp only [hlive] at hinv'
    refine ⟨_, hcall, ⟨⟨bl', hinv'⟩, hnodup, hnull⟩, fun q hq i hi => ?_⟩
    have hq0 : q.1 ≠ 0 := fun hq0 => by
      have := hnull q hq hq0
      omega
    exact hsame q.1 q.2 (mem_buffers (Multiset.mem_cons_of_mem hq) hq0) i hi

/-- The string allocator is what the test relies on. -/
theorem tested_correct {size : Nat} {os : List Nat → Option Nat} (hbig : sizeofArena + maxBlksz < size) (hos : MmapOk size os) :
    Correct (tested size os) (TestInv size) fun e => e = .mmapError ∧ ∃ al, os al = none where
  alloc := by
    intro g live rand drawn h
    have hlen : rand drawn % (maxLen + 1) ≤ maxLength := by
      have := Nat.mod_lt (rand drawn) (show 0 < maxLen + 1 by decide)
      unfold maxLen maxLength at *
      omega
    simp only [tested, allocFn]
    rcases h.stralloc hbig hos hlen with ⟨hcall, hnone⟩ | ⟨g', p, hcall, hrest⟩
    · exact Or.inl ⟨.mmapError, by rw [hcall]; rfl, rfl, hnone⟩
    · exact Or.inr ⟨g', p, _, drawn + 1, by rw [hcall]; rfl, hrest⟩
  free := fun h => h.strfree (by omega)
  store := by
    intro g live p len i b h hp hi
    obtain ⟨bl, hinv⟩ := h.inv
    have hp0 : p ≠ 0 := fun hp0 => by
      have := h.null _ hp hp0
      omega
    exact ⟨⟨bl, hinv.holds.store b (mem_buffers hp hp0) hi, hinv.cursor⟩, h.nodup, h.null⟩

/-- For every sequence of random numbers the test of the string allocator ends with every buffer freed, each of them apart from the
others and intact until then, and with a heap that `strmemcheck` accepts; it only stops when `mmap` fails. -/
theorem test_stralloc {os : List Nat → Option Nat} (hos : MmapOk arenaSize os) (rand : Nat → Nat) (mem : Mem) :
    Ends (fun e => e = .mmapError ∧ ∃ al, os al = none)
      (fun s => s.ptrn = 0 ∧ Shadow s.log 0 ∧ strmemcheck arenaSize s.heap = .ok ())
      (AllocTest.main (tested arenaSize os) rand (Heap.init mem)) := by
  have hbig : sizeofArena + maxBlksz < arenaSize := by decide
  have h0 : TestInv arenaSize (Heap.init mem) 0 := ⟨⟨_, inv_init ⟨mem, rfl⟩⟩, Multiset.nodup_zero, by simp⟩
  refine (main_ends (tested_correct hbig hos) rand h0).mono fun s ⟨hzero, hlog, hinv⟩ => ⟨hzero, hlog, ?_⟩
  obtain ⟨bl, hinv⟩ := hinv.inv
  exact (hinv.wellFormed (by decide)).memcheck

/-- The test in a kernel that maps one arena. -/
theorem test_stralloc_one : Ends (fun e => e = .mmapError ∧ ∃ al, oneArena al = none)
    (fun s => s.ptrn = 0 ∧ Shadow s.log 0 ∧ strmemcheck arenaSize s.heap = .ok ())
    (AllocTest.main (tested arenaSize oneArena) (fun n => n) (Heap.init fun _ => 0)) :=
  test_stralloc oneArena_ok (fun n => n) fun _ => 0

end OsLabs.StrAlloc
