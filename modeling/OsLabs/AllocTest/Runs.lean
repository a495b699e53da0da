import OsLabs.AllocTest.Model
import OsLabs.Lib.Outcome

/-!
# The test with a correct allocator

With a correct allocator the test ends with `OK`: no index leaves `ptrs`, no remainder divides by zero, every loop ends, every buffer
is freed once and holds what was put into it until then. The invariant `Good` relates the pointers of the test to the live buffers;
`test_alloc` and `test_free` keep it.
-/

namespace OsLabs.AllocTest

/-! ## `randfill` -/

theorem randfillLoop_outside (rand : Nat → Nat) (buf : Nat) {x : Nat} :
    ∀ (n i drawn : Nat) (mem : Mem), (x < buf + i ∨ buf + i + n ≤ x) → randfillLoop rand buf n i drawn mem x = mem x
  | 0, _, _, _, _ => rfl
  | n + 1, i, drawn, mem, h => by
    rw [randfillLoop, randfillLoop_outside rand buf n (i + 1) _ _ (by omega), Mem.store_ne _ _ (by omega)]

theorem randfillLoop_inside (rand : Nat → Nat) (buf : Nat) :
    ∀ (n i drawn : Nat) (mem : Mem) (j : Nat), j < n →
      randfillLoop rand buf n i drawn mem (buf + (i + j)) = BitVec.ofNat 8 (rand (drawn + j))
  | n + 1, i, drawn, mem, 0, _ => by
    rw [randfillLoop, randfillLoop_outside rand buf n _ _ _ (by omega), Nat.add_zero, Mem.store_self, Nat.add_zero]
  | n + 1, i, drawn, mem, j + 1, h => by
    rw [randfillLoop, show i + (j + 1) = i + 1 + j by omega, randfillLoop_inside rand buf n _ _ _ j (by omega),
      show drawn + 1 + j = drawn + (j + 1) by omega]

/-- The buffer holds the bytes that `randfill` wrote. -/
theorem holds_randfill (rand : Nat → Nat) (p len drawn : Nat) (mem : Mem) :
    Holds (randfillLoop rand p len 0 drawn mem) p (randBytes rand drawn len) := by
  intro i b hb
  rw [randBytes, List.getElem?_map] at hb
  obtain ⟨j, hj, rfl⟩ := Option.map_eq_some_iff.mp hb
  obtain ⟨hlt, rfl⟩ := List.getElem?_eq_some_iff.mp hj
  rw [List.length_range] at hlt
  have := randfillLoop_inside rand p len 0 drawn mem i hlt
  rw [Nat.zero_add] at this
  rw [this, List.getElem_range]

@[simp] theorem randBytes_length (rand : Nat → Nat) (drawn len : Nat) : (randBytes rand drawn len).length = len := by
  rw [randBytes, List.length_map, List.length_range]

section

variable {σ ε : Type} {A : Allocator σ ε} {Inv : σ → Multiset (Nat × Nat) → Prop} {E : ε → Prop}

/-- Filling a live buffer keeps the invariant of the allocator. -/
theorem Correct.randfill (hA : Correct A Inv E) (rand : Nat → Nat) {live : Multiset (Nat × Nat)} {p len : Nat}
    (hp : (p, len) ∈ live) :
    ∀ (n i drawn : Nat) (g : σ), i + n ≤ len → Inv g live → Inv (A.setMem g (randfillLoop rand p n i drawn (A.mem g))) live
  | 0, _, _, g, _, h => by rwa [randfillLoop, A.setMem_mem]
  | n + 1, i, drawn, g, hlen, h => by
    have hstore := hA.store (i := i) (BitVec.ofNat 8 (rand drawn)) h hp (by omega)
    have hrest := Correct.randfill hA rand hp n (i + 1) (drawn + 1) _ (by omega) hstore
    rwa [A.mem_setMem, A.setMem_setMem] at hrest

/-! ## The pointers of the test -/

/-- Putting the last pointer in the place of one of them takes that one out. -/
theorem swap_remove (ptrs : Nat → Nat) {n i : Nat} (hi : i < n) :
    (Multiset.range n).map ptrs =
      ptrs i ::ₘ (Multiset.range (n - 1)).map (Function.update ptrs i (ptrs (n - 1))) := by
  obtain ⟨m, rfl⟩ : ∃ m, n = m + 1 := ⟨n - 1, by omega⟩
  rw [Nat.add_sub_cancel, Multiset.range_succ, Multiset.map_cons]
  by_cases him : i = m
  · subst him
    refine congrArg _ (Multiset.map_congr rfl fun x hx => ?_)
    have := Multiset.mem_range.mp hx
    rw [Function.update_of_ne (by omega)]
  · obtain ⟨rest, hrest⟩ := Multiset.exists_cons_of_mem (Multiset.mem_range.mpr (show i < m by omega))
    have hnot : i ∉ rest := by
      have hnodup := Multiset.nodup_range m
      rw [hrest] at hnodup
      exact (Multiset.nodup_cons.mp hnodup).1
    rw [hrest, Multiset.map_cons, Multiset.map_cons, Function.update_self, Multiset.cons_swap]
    refine congrArg _ (congrArg _ (Multiset.map_congr rfl fun x hx => ?_))
    rw [Function.update_of_ne fun he : x = i => hnot (he ▸ hx)]

/-- The pointers of the test are those of the live buffers, the allocator agrees on these, and they hold what was put into them. -/
structure Good (A : Allocator σ ε) (Inv : σ → Multiset (Nat × Nat) → Prop) (s : State σ) (t : Multiset (Nat × List Byte)) :
    Prop where
  room : s.ptrn ≤ maxPtrs
  ptrs : (Multiset.range s.ptrn).map s.ptrs = t.map Prod.fst
  inv : Inv s.heap (t.map fun q => (q.1, q.2.length))
  bytes : ∀ q ∈ t, Holds (A.mem s.heap) q.1 q.2
  log : Shadow s.log t

/-- A buffer keeps its bytes when the memory does. -/
theorem Holds.congr {mem mem' : Mem} {q : Nat × List Byte} {t : Multiset (Nat × List Byte)} (h : Holds mem q.1 q.2) (hq : q ∈ t)
    (hsame : SameBytes (t.map fun q => (q.1, q.2.length)) mem mem') : Holds mem' q.1 q.2 := by
  intro i b hb
  have hlt := (List.getElem?_eq_some_iff.mp hb).1
  rw [hsame (q.1, q.2.length) (Multiset.mem_map.mpr ⟨q, hq, rfl⟩) i hlt]
  exact h i b hb

/-- `test_alloc` keeps the invariant. -/
theorem Good.testAlloc (hA : Correct A Inv E) (rand : Nat → Nat) {s : State σ} {t : Multiset (Nat × List Byte)}
    (h : Good A Inv s t) (hroom : s.ptrn < maxPtrs) :
    Ends E (fun s' => (∃ t', Good A Inv s' t') ∧ s'.ptrn = s.ptrn + 1) (testAlloc A rand s) := by
  rw [AllocTest.testAlloc, if_neg (not_not.mpr hroom)]
  rcases hA.alloc rand s.drawn h.inv with ⟨e, he, hE⟩ | ⟨g, p, len, drawn, he, hinv, hnull, hapart, hsame⟩
  · rw [he]
    exact .stop hE
  · rw [he]
    have hfill := hA.randfill rand (Multiset.mem_cons_self (p, len) _) len 0 drawn g (by omega) hinv
    -- the buffers that were live are outside of the new one
    have hapart' : ∀ q ∈ t, p + len ≤ q.1 ∨ q.1 + q.2.length ≤ p := fun q hq =>
      hapart (q.1, q.2.length) (Multiset.mem_map.mpr ⟨q, hq, rfl⟩)
    refine .ok ⟨⟨(p, randBytes rand drawn len) ::ₘ t, ⟨hroom, ?_, ?_, ?_, ?_⟩⟩, rfl⟩
    · have hold : (Multiset.range s.ptrn).map (Function.update s.ptrs s.ptrn p) = (Multiset.range s.ptrn).map s.ptrs := by
        refine Multiset.map_congr rfl fun x hx => ?_
        have := Multiset.mem_range.mp hx
        rw [Function.update_of_ne (by omega)]
      simp only [Multiset.range_succ, Multiset.map_cons, Function.update_self, hold, h.ptrs]
    · rwa [Multiset.map_cons, randBytes_length]
    · intro q hq
      rw [A.mem_setMem]
      rcases Multiset.mem_cons.mp hq with rfl | hq
      · exact holds_randfill rand p len drawn _
      · refine ((h.bytes q hq).congr hq hsame).congr hq fun r hr i hi => ?_
        obtain ⟨q', hq', rfl⟩ := Multiset.mem_map.mp hr
        have := hapart' q' hq'
        simp only at hi
        exact randfillLoop_outside rand p len 0 drawn _ (by simp only; omega)
    · refine .alloc h.log (fun hne => hnull fun h0 => hne ?_) (by simpa using hapart')
      rw [h0]
      rfl

/-- `test_free` keeps the invariant. -/
theorem Good.testFree (hA : Correct A Inv E) (rand : Nat → Nat) {s : State σ} {t : Multiset (Nat × List Byte)}
    (h : Good A Inv s t) (hpos : s.ptrn ≠ 0) :
    Ends E (fun s' => (∃ t', Good A Inv s' t') ∧ s'.ptrn + 1 = s.ptrn) (testFree A rand s) := by
  rw [AllocTest.testFree, if_neg hpos]
  simp only
  generalize hidx : rand s.drawn % s.ptrn = i
  have hi : i < s.ptrn := hidx ▸ Nat.mod_lt _ (by omega)
  have hswap := swap_remove s.ptrs hi
  -- the pointer is that of a live buffer
  obtain ⟨⟨p, bs⟩, hmem, hp⟩ : ∃ q ∈ t, q.1 = s.ptrs i := by
    rw [← Multiset.mem_map, ← h.ptrs, hswap]
    exact Multiset.mem_cons_self _ _
  simp only at hp
  obtain ⟨u, rfl⟩ := Multiset.exists_cons_of_mem hmem
  have hinv := h.inv
  rw [Multiset.map_cons] at hinv
  obtain ⟨g, hcall, hinv', hsame⟩ := hA.free hinv
  rw [← hp, hcall]
  have hbytes := h.bytes
  refine .ok ⟨⟨u, ⟨?_, ?_, hinv', fun q hq => ?_, ?_⟩⟩, ?_⟩
  · have := h.room
    simp only
    omega
  · have hptrs := h.ptrs
    rw [hswap, Multiset.map_cons, hp] at hptrs
    exact (Multiset.cons_inj_right _).mp hptrs
  · exact (hbytes q (Multiset.mem_cons_of_mem hq)).congr hq hsame
  · exact .free h.log (hbytes (p, bs) (Multiset.mem_cons_self _ _))
  · simp only
    omega

theorem Good.allocUpTo (hA : Correct A Inv E) (rand : Nat → Nat) {s : State σ} {n : Nat} (hn : n < maxPtrs)
    (h : ∃ t, Good A Inv s t) : Ends E (fun s' => ∃ t, Good A Inv s' t) (allocUpTo A rand n s) := by
  rw [AllocTest.allocUpTo]
  split
  · refine (Ends.whileLoop (fun s => maxPtrs - s.ptrn) (fun s' ⟨t, hs⟩ hc => ?_) _ _ h (by omega)).mono fun _ hs => hs.1
    have hc' := of_decide_eq_true hc
    exact (hs.testAlloc hA rand (by omega)).mono fun s'' ⟨hg, hm⟩ => ⟨hg, by omega⟩
  · exact .ok h

theorem Good.freeDownTo (hA : Correct A Inv E) (rand : Nat → Nat) {s : State σ} (n : Nat) (h : ∃ t, Good A Inv s t) :
    Ends E (fun s' => ∃ t, Good A Inv s' t) (freeDownTo A rand n s) := by
  have hroom : s.ptrn < maxPtrs + 1 := by
    obtain ⟨t, hs⟩ := h
    exact Nat.lt_succ_of_le hs.room
  rw [AllocTest.freeDownTo]
  split
  · refine (Ends.whileLoop State.ptrn (fun s' ⟨t, hs⟩ hc => ?_) _ _ h hroom).mono fun _ hs => hs.1
    have hc' := of_decide_eq_true hc
    exact (hs.testFree hA rand (by omega)).mono fun s'' ⟨hg, hm⟩ => ⟨hg, by omega⟩
  · exact .ok h

/-- One round of `main` keeps the invariant. -/
theorem Good.cycle (hA : Correct A Inv E) (rand : Nat → Nat) {s : State σ} (h : ∃ t, Good A Inv s t) :
    Ends E (fun s' => ∃ t, Good A Inv s' t) (cycle A rand s) := by
  have hn : rand s.drawn % maxPtrs < maxPtrs := Nat.mod_lt _ (by decide)
  have h0 : ∃ t, Good A Inv { s with drawn := s.drawn + 1 } t := by
    obtain ⟨t, h⟩ := h
    exact ⟨t, h.room, h.ptrs, h.inv, h.bytes, h.log⟩
  exact (Good.allocUpTo hA rand hn h0).bind fun s' hs' => Good.freeDownTo hA rand _ hs'

theorem Good.mainLoop (hA : Correct A Inv E) (rand : Nat → Nat) :
    ∀ (n : Nat) (s : State σ), (∃ t, Good A Inv s t) → Ends E (fun s' => ∃ t, Good A Inv s' t) (mainLoop A rand n s)
  | 0, _, h => .ok h
  | n + 1, _, h => (Good.cycle hA rand h).bind fun s' hs' => Good.mainLoop hA rand n s' hs'

/-- With a correct allocator the test ends with no pointer left, a log that is right and a heap without live buffers, or the
allocator has stopped it. -/
theorem main_ends (hA : Correct A Inv E) (rand : Nat → Nat) {g : σ} (hg : Inv g 0) :
    Ends E (fun s => s.ptrn = 0 ∧ Shadow s.log 0 ∧ Inv s.heap 0) (main A rand g) := by
  have h0 : ∃ t, Good A Inv (State.init g) t := ⟨0, ⟨Nat.zero_le _, rfl, hg, by simp, .nil⟩⟩
  refine (Good.mainLoop hA rand cycles _ h0).bind fun s hs => ?_
  refine (Ends.whileLoop (I := fun s => ∃ t, Good A Inv s t) State.ptrn (fun s' ⟨t, hs⟩ hc => ?_) _ _ hs ?_).mono fun s' hs' => ?_
  · exact (hs.testFree hA rand (of_decide_eq_true hc)).mono fun s'' ⟨hg, hm⟩ => ⟨hg, by omega⟩
  · obtain ⟨t, hs⟩ := hs
    exact Nat.lt_succ_of_le hs.room
  · obtain ⟨⟨t, hs'⟩, hc⟩ := hs'
    have hzero : s'.ptrn = 0 := by simpa using hc
    have hptrs := hs'.ptrs
    rw [hzero, Multiset.range_zero, Multiset.map_zero] at hptrs
    obtain rfl := Multiset.map_eq_zero.mp hptrs.symm
    exact ⟨hzero, hs'.log, hs'.inv⟩

/-! ## Two allocators side by side -/

/-- An allocator that gives the answers of a correct one, with the same bytes in the buffers, is correct. -/
theorem Correct.transfer {τ : Type} {B : Allocator τ ε} (hA : Correct A Inv E) (Rel : σ → τ → Prop) (E' : ε → Prop)
    (halloc : ∀ {g h live} (rand : Nat → Nat) (drawn : Nat), Inv g live → Rel g h →
      SameOutcome E' (fun a b => a.2 = b.2 ∧ Rel a.1 b.1) (A.allocFn rand drawn g) (B.allocFn rand drawn h))
    (hfree : ∀ {g h live p len}, Inv g ((p, len) ::ₘ live) → Rel g h → SameOutcome E' Rel (A.freeFn p g) (B.freeFn p h))
    (hstore : ∀ {g h live p len i} (b : Byte), Inv g live → Rel g h → (p, len) ∈ live → i < len →
      Rel (A.setMem g ((A.mem g).store (p + i) b)) (B.setMem h ((B.mem h).store (p + i) b)))
    (hbytes : ∀ {g h live}, Inv g live → Rel g h → SameBytes live (A.mem g) (B.mem h)) :
    Correct B (fun h live => ∃ g, Inv g live ∧ Rel g h) E where
  alloc := by
    rintro h live rand drawn ⟨g, hinv, hrel⟩
    have hagree := halloc rand drawn hinv hrel
    rcases hA.alloc rand drawn hinv with ⟨e, he, hE⟩ | ⟨g', p, len, drawn', he, hinv', hnull, hapart, hsame⟩
    · rw [he] at hagree
      generalize B.allocFn rand drawn h = y at hagree
      cases hagree
      exact Or.inl ⟨e, rfl, hE⟩
    · rw [he] at hagree
      generalize B.allocFn rand drawn h = y at hagree
      cases hagree with
      | @ok _ b hb =>
        obtain ⟨h', r⟩ := b
        obtain ⟨rfl, hrel'⟩ := hb
        refine Or.inr ⟨h', p, len, drawn', rfl, ⟨g', hinv', hrel'⟩, hnull, hapart, fun q hq i hi => ?_⟩
        rw [hbytes hinv' hrel' q (Multiset.mem_cons_of_mem hq) i hi, hsame q hq i hi, hbytes hinv hrel q hq i hi]
  free := by
    rintro h live p len ⟨g, hinv, hrel⟩
    have hagree := hfree hinv hrel
    obtain ⟨g', he, hinv', hsame⟩ := hA.free hinv
    rw [he] at hagree
    generalize B.freeFn p h = y at hagree
    cases hagree with
    | @ok _ h' hrel' =>
      refine ⟨h', rfl, ⟨g', hinv', hrel'⟩, fun q hq i hi => ?_⟩
      rw [hbytes hinv' hrel' q hq i hi, hsame q hq i hi, hbytes hinv hrel q (Multiset.mem_cons_of_mem hq) i hi]
  store := fun b ⟨g, hinv, hrel⟩ hp hi => ⟨_, hA.store b hinv hp hi, hstore b hinv hrel hp hi⟩

end

end OsLabs.AllocTest
