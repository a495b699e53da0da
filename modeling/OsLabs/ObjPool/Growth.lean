import OsLabs.ObjPool.Runs

/-!
# The pool maps no arena that it does not need

A request maps an arena only when no arena has a free item, and then every item of every arena is live. So the number of arenas
follows the largest number of objects that were live at a time. `peakClient` keeps that number beside the pool.
-/

namespace OsLabs.ObjPool

/-- The runs of the pool with a client, and the largest number of objects live at a time so far. -/
def peakClient (size : Nat) : Sys (Client × Nat) Act where
  init sp := (client size).init sp.1 ∧ sp.2 = 0
  step sp a sp' := Step size sp.1 a sp'.1 ∧ sp'.2 = max sp.2 sp'.1.live.card

/-- The slots in use of an arena. -/
def slots (size : Nat) (used : Nat → Finset Nat) (ar : Nat) : Finset Nat :=
  (used ar).image fun i => itemsAt size ar + sizeofObject * i

theorem card_slots (size : Nat) (used : Nat → Finset Nat) (ar : Nat) : (slots size used ar).card = (used ar).card := by
  refine Finset.card_image_of_injective _ fun i j hij => ?_
  have hO : sizeofObject = 32 := rfl
  simp only [hO] at hij
  omega

/-- The live objects and the free items make up all items of all arenas. -/
theorem Inv.card_live {size : Nat} {s : Client} {used : Nat → Finset Nat} (h : Inv size s used) (hl : Layout size) :
    s.live.card + ∑ ar ∈ s.pool.arenas.toFinset, nfree s.pool.mem ar = s.pool.arenas.length * itemCount size := by
  have hfits := hl.fits
  have hA : sizeofArena = 32 := rfl
  have hO : sizeofObject = 32 := rfl
  have hlive : s.live = s.pool.arenas.toFinset.biUnion (slots size used) := by
    ext p
    rw [h.live, Finset.mem_biUnion]
    constructor
    · rintro ⟨ar, har, i, hi, rfl⟩
      exact ⟨ar, List.mem_toFinset.mpr har, Finset.mem_image.mpr ⟨i, hi, rfl⟩⟩
    · rintro ⟨ar, har, hp⟩
      obtain ⟨i, hi, rfl⟩ := Finset.mem_image.mp hp
      exact ⟨ar, List.mem_toFinset.mp har, i, hi, rfl⟩
  have hdisj : ∀ a ∈ s.pool.arenas.toFinset, ∀ b ∈ s.pool.arenas.toFinset, a ≠ b →
      Disjoint (slots size used a) (slots size used b) := by
    intro a ha b hb hne
    refine Finset.disjoint_left.mpr fun p hpa hpb => ?_
    obtain ⟨i, hi, rfl⟩ := Finset.mem_image.mp hpa
    obtain ⟨j, hj, he⟩ := Finset.mem_image.mp hpb
    have ha' := List.mem_toFinset.mp ha
    have hb' := List.mem_toFinset.mp hb
    rcases slot_cases hl h.apart ha' hb' ((h.ok a ha').bound i hi) ((h.ok b hb').bound j hj) with ⟨e, -⟩ | hlt | hlt
    · exact hne e
    · omega
    · omega
  have hcard : s.live.card = ∑ ar ∈ s.pool.arenas.toFinset, (used ar).card := by
    rw [hlive, Finset.card_biUnion hdisj]
    exact Finset.sum_congr rfl fun ar _ => card_slots size used ar
  have heach : ∀ ar ∈ s.pool.arenas.toFinset, (used ar).card + nfree s.pool.mem ar = itemCount size := by
    intro ar har
    rw [Nat.add_comm]
    exact (h.ok ar (List.mem_toFinset.mp har)).nfree
  rw [hcard, ← Finset.sum_add_distrib, Finset.sum_const_nat heach, List.toFinset_card_of_nodup (h.apart.nodup (by omega))]

/-- The number of arenas is the least one that the largest number of live objects fits in. -/
structure Tight (size : Nat) (s : Client) (peak : Nat) : Prop where
  live : s.live.card ≤ peak
  enough : peak ≤ s.pool.arenas.length * itemCount size
  least : s.pool.arenas.length * itemCount size < peak + itemCount size

/-- A request keeps the number of arenas the least one. -/
theorem Tight.objalloc {size p peak : Nat} {s : Client} {used : Nat → Finset Nat} {os : List Nat → Option Nat} {g : Pool}
    (ht : Tight size s peak) (h : Inv size s used) (hl : Layout size) (hnew : p ∉ s.live)
    (hcall : objalloc size os s.pool = .ok (g, p)) :
    Tight size ⟨g, insert p s.live⟩ (max peak (insert p s.live).card) := by
  obtain ⟨hlive, henough, hleast⟩ := ht
  have hsum := h.card_live hl
  have hpos := hl.pos
  have hcard := Finset.card_insert_of_notMem hnew
  rcases objalloc_arenas hcall with ⟨ar, har, hfree, he⟩ | ⟨new, -, hfull, he⟩
  · -- an arena has a free item: the live objects do not fill the arenas
    have hle := Finset.single_le_sum (fun x _ => Nat.zero_le (nfree s.pool.mem x)) (List.mem_toFinset.mpr har)
    refine ⟨le_max_right _ _, ?_, ?_⟩
    · rw [he, hcard]
      exact max_le henough (by omega)
    · rw [he]
      exact hleast.trans_le (Nat.add_le_add_right (le_max_left _ _) _)
  · -- all items are live: one more object needs one more arena
    rw [Finset.sum_eq_zero fun x hx => hfull x (List.mem_toFinset.mp hx), Nat.add_zero] at hsum
    have hlen : g.arenas.length * itemCount size = s.live.card + itemCount size := by
      rw [he, List.length_append, List.length_singleton, Nat.add_mul, Nat.one_mul, ← hsum]
    refine ⟨le_max_right _ _, ?_, ?_⟩
    · show _ ≤ g.arenas.length * itemCount size
      rw [hlen, hcard]
      exact max_le (by omega) (by omega)
    · show g.arenas.length * itemCount size < _
      rw [hlen, hcard]
      have := le_max_right peak (s.live.card + 1)
      omega

/-- A step that maps no arena and makes no object live keeps the number of arenas the least one. -/
theorem Tight.keep {size peak : Nat} {s s' : Client} (ht : Tight size s peak) (ha : s'.pool.arenas = s.pool.arenas)
    (hlive : s'.live ⊆ s.live) : Tight size s' (max peak s'.live.card) := by
  have hle : s'.live.card ≤ peak := (Finset.card_le_card hlive).trans ht.live
  rw [max_eq_left hle]
  refine ⟨hle, ?_, ?_⟩
  · rw [ha]
    exact ht.enough
  · rw [ha]
    exact ht.least

/-- The number of arenas is the least one in every state of every run. -/
theorem tight_reach {size : Nat} (hl : Layout size) {sp : Client × Nat} (hs : (peakClient size).Reach sp) :
    (∃ used, Inv size sp.1 used) ∧ Tight size sp.1 sp.2 := by
  have hind : (peakClient size).Inductive fun sp => (client size).Reach sp.1 ∧ Tight size sp.1 sp.2 := by
    refine ⟨?_, ?_⟩
    · rintro ⟨s, peak⟩ ⟨hinit, rfl⟩
      refine ⟨.init hinit, ?_⟩
      obtain ⟨mem, rfl⟩ := hinit
      have hpos := hl.pos
      exact ⟨by simp, by simp, by simpa using hpos⟩
    · rintro ⟨s, peak⟩ a ⟨s', peak'⟩ ⟨hreach, ht⟩ ⟨hst, hpeak⟩
      obtain rfl : peak' = max peak s'.live.card := hpeak
      refine ⟨.step a hreach hst, ?_⟩
      obtain ⟨used, h⟩ := inv_reach hl hreach
      cases hst with
      | alloc hos hcall =>
        rcases h.objalloc hl hos with he | ⟨g', p', used', hok, hnew, -⟩
        · rw [he] at hcall
          cases hcall
        · have heq := hok
          rw [hcall] at heq
          obtain ⟨rfl, rfl⟩ := Prod.mk.inj (Except.ok.inj heq)
          exact ht.objalloc h hl hnew hcall
      | free hp hcall => exact ht.keep (objfree_arenas hcall) (Finset.erase_subset _ _)
      | write b hp hi => exact ht.keep rfl subset_rfl
  have h := hind.reach hs
  exact ⟨inv_reach hl h.1, h.2⟩

/-- In every state of every run of the pool the number of arenas is the largest number of objects live at a time so far, divided by
the number of items of an arena and rounded up. -/
theorem arenas_minimal {s : Client} {peak : Nat} (hs : (peakClient arenaSize).Reach (s, peak)) :
    (∀ ar ∈ s.pool.arenas, nitems s.pool.mem ar = itemCount arenaSize) ∧
    s.pool.arenas.length = (peak + itemCount arenaSize - 1) / itemCount arenaSize := by
  obtain ⟨⟨used, h⟩, ht⟩ := tight_reach layout_arenaSize hs
  have hpos := layout_arenaSize.pos
  have henough : peak ≤ s.pool.arenas.length * itemCount arenaSize := ht.enough
  have hleast : s.pool.arenas.length * itemCount arenaSize < peak + itemCount arenaSize := ht.least
  refine ⟨fun ar har => (h.ok ar har).nitems, Eq.symm ?_⟩
  refine Nat.div_eq_of_lt_le ?_ ?_
  · omega
  · rw [Nat.succ_mul]
    omega

/-- One object needs one arena. -/
theorem arenas_minimal_one : ∃ s : Client, (peakClient arenaSize).Reach (s, 1) ∧ s.pool.arenas.length = 1 := by
  have h0 : (peakClient arenaSize).Reach (⟨⟨fun _ => 0, []⟩, ∅⟩, 0) := .init ⟨⟨_, rfl⟩, rfl⟩
  obtain ⟨g, p, hcall, -⟩ := objalloc_first
  have h1 : (peakClient arenaSize).Reach (⟨g, insert p ∅⟩, 1) := .step (.alloc oneArena) h0 ⟨.alloc oneArena_ok hcall, rfl⟩
  exact ⟨_, h1, (arenas_minimal h1).2.trans (by decide)⟩

end OsLabs.ObjPool
