import OsLabs.ForkSort.Model
import Mathlib.Logic.Equiv.Basic
import Mathlib.Data.List.Perm.Lattice

/-!
# The parts of the sort that do not fork

Sorting a range permutes its elements and leaves them in order. Each loop of `InsertionSort` and `Partition` has one rule: what the
postcondition must hold of for the weakest precondition to hold.
-/

namespace OsLabs.ForkSort

/-! ## Permuted and sorted ranges -/

/-- The elements from `a` to `b` of `h'` are those of `h` in some order. -/
def Permuted (a b : Nat) (h h' : Nat → Int) : Prop :=
  ∃ σ : Equiv.Perm Nat, (∀ i, i ∉ Set.Icc a b → σ i = i) ∧ ∀ i ∈ Set.Icc a b, h' i = h (σ i)

/-- The elements from `a` to `b` are in order. -/
def SortedOn (a b : Nat) (h : Nat → Int) : Prop := ∀ i j, a ≤ i → i ≤ j → j ≤ b → h i ≤ h j

/-- The elements from `a` to `b` of `h'` are those of `h`, in order. -/
def Sorts (a b : Nat) (h h' : Nat → Int) : Prop := Permuted a b h h' ∧ SortedOn a b h'

section Tables

variable {a b m : Nat} {h h' h'' : Nat → Int}

/-- A permutation that fixes what is outside a set keeps the set. -/
theorem perm_mem {S : Set Nat} {σ : Equiv.Perm Nat} (hσ : ∀ i, i ∉ S → σ i = i) {i : Nat} (hi : i ∈ S) : σ i ∈ S := by
  by_contra hn
  have he : σ i = i := σ.injective (hσ _ hn)
  exact hn (he.symm ▸ hi)

theorem Permuted.refl (a b : Nat) (h : Nat → Int) : Permuted a b h h := ⟨Equiv.refl Nat, fun _ _ => rfl, fun _ _ => rfl⟩

theorem Permuted.trans (h1 : Permuted a b h h') (h2 : Permuted a b h' h'') : Permuted a b h h'' := by
  obtain ⟨σ, hσ, e1⟩ := h1
  obtain ⟨τ, hτ, e2⟩ := h2
  refine ⟨τ.trans σ, fun i hi => ?_, fun i hi => ?_⟩
  · rw [Equiv.trans_apply, hτ i hi, hσ i hi]
  · rw [Equiv.trans_apply, e2 i hi, e1 _ (perm_mem hτ hi)]

/-- What holds of the elements of a range holds of them in another order. -/
theorem Permuted.forall {P : Int → Prop} (hp : Permuted a b h h') (hP : ∀ i, a ≤ i → i ≤ b → P (h i)) :
    ∀ i, a ≤ i → i ≤ b → P (h' i) := by
  obtain ⟨σ, hσ, e⟩ := hp
  intro i h1 h2
  rw [e i ⟨h1, h2⟩]
  obtain ⟨h3, h4⟩ := perm_mem hσ (Set.mem_Icc.mpr ⟨h1, h2⟩)
  exact hP _ h3 h4

theorem Permuted.congr (hp : Permuted a b h h') (ha : Agree (Set.Icc a b) h' h'') : Permuted a b h h'' := by
  obtain ⟨σ, hσ, e⟩ := hp
  exact ⟨σ, hσ, fun i hi => (ha i hi).trans (e i hi)⟩

theorem Sorts.congr (hs : Sorts a b h h') (ha : Agree (Set.Icc a b) h' h'') : Sorts a b h h'' := by
  refine ⟨hs.1.congr ha, fun i j h1 h2 h3 => ?_⟩
  rw [ha i ⟨h1, h2.trans h3⟩, ha j ⟨h1.trans h2, h3⟩]
  exact hs.2 i j h1 h2 h3

theorem Sorts.single (a : Nat) (h : Nat → Int) : Sorts a a h h := by
  refine ⟨Permuted.refl a a h, fun i j h1 h2 h3 => ?_⟩
  obtain rfl : i = j := by omega
  exact le_rfl

/-- Two elements are exchanged. -/
theorem Permuted.swap {i j : Nat} (hi : i ∈ Set.Icc a b) (hj : j ∈ Set.Icc a b) :
    Permuted a b h (Function.update (Function.update h i (h j)) j (h i)) := by
  refine ⟨Equiv.swap i j, fun k hk => Equiv.swap_apply_of_ne_of_ne ?_ ?_, fun k _ => ?_⟩
  · rintro rfl
    exact hk hi
  · rintro rfl
    exact hk hj
  · by_cases e : k = j
    · rw [e, Function.update_self, Equiv.swap_apply_right]
    · by_cases e' : k = i
      · rw [Function.update_of_ne e, e', Function.update_self, Equiv.swap_apply_left]
      · rw [Function.update_of_ne e, Function.update_of_ne e', Equiv.swap_apply_of_ne_of_ne e' e]

/-- The element at `p` goes to `q` and those between move up by one. -/
def rotate {q p : Nat} (hqp : q ≤ p) : Equiv.Perm Nat where
  toFun i := if i = q then p else if q < i ∧ i ≤ p then i - 1 else i
  invFun i := if i = p then q else if q ≤ i ∧ i < p then i + 1 else i
  left_inv i := by grind
  right_inv i := by grind

theorem Permuted.rotate {q p : Nat} (haq : a ≤ q) (hqp : q ≤ p) (hpb : p ≤ b) (hq : h' q = h p)
    (hmove : ∀ i, q < i → i ≤ p → h' i = h (i - 1)) (hrest : ∀ i, i < q ∨ p < i → h' i = h i) : Permuted a b h h' := by
  refine ⟨ForkSort.rotate hqp, fun i hi => ?_, fun i _ => ?_⟩
  · rw [Set.mem_Icc] at hi
    change (if i = q then p else if q < i ∧ i ≤ p then i - 1 else i) = i
    rw [if_neg (by omega), if_neg (by omega)]
  · change h' i = h (if i = q then p else if q < i ∧ i ≤ p then i - 1 else i)
    split_ifs with h1 h2
    · rw [h1, hq]
    · exact hmove i h2.1 h2.2
    · exact hrest i (by omega)

/-- Two sorted parts make a sorted range, if the elements of the first were not above those of the second. -/
theorem Sorts.glue (ham : a ≤ m) (hmb : m < b) (hp : Permuted a b h h')
    (hle : ∀ i j, a ≤ i → i ≤ m → m < j → j ≤ b → h' i ≤ h' j) {k : Nat → Int} (hl : Sorts a m h' k)
    (hr : Sorts (m + 1) b h' k) : Sorts a b h k := by
  obtain ⟨⟨σ, hσ, el⟩, hsl⟩ := hl
  obtain ⟨⟨τ, hτ, er⟩, hsr⟩ := hr
  constructor
  · refine hp.trans ⟨τ.trans σ, fun i hi => ?_, fun i hi => ?_⟩
    · rw [Set.mem_Icc] at hi
      rw [Equiv.trans_apply, hτ i (by rw [Set.mem_Icc]; omega), hσ i (by rw [Set.mem_Icc]; omega)]
    · rw [Set.mem_Icc] at hi
      rw [Equiv.trans_apply]
      rcases Nat.lt_or_ge m i with hm | hm
      · have hi' : i ∈ Set.Icc (m + 1) b := ⟨hm, hi.2⟩
        have hτi := perm_mem hτ hi'
        rw [hσ (τ i) (by rw [Set.mem_Icc] at hτi ⊢; omega), er i hi']
      · rw [hτ i (by rw [Set.mem_Icc]; omega), el i ⟨hi.1, hm⟩]
  · intro i j h1 h2 h3
    rcases Nat.lt_or_ge m i with hi | hi
    · exact hsr i j hi h2 h3
    · rcases Nat.lt_or_ge m j with hj | hj
      · -- an element of the first part and one of the second
        have hσi := perm_mem hσ (Set.mem_Icc.mpr ⟨h1, hi⟩)
        have hτj := perm_mem hτ (Set.mem_Icc.mpr ⟨hj, h3⟩)
        rw [Set.mem_Icc] at hσi hτj
        rw [el i ⟨h1, hi⟩, er j ⟨hj, h3⟩]
        exact hle _ _ hσi.1 hσi.2 hτj.1 hτj.2
      · exact hsl i j h1 h2 hj

end Tables

/-! ## Insertion sort -/

section Rules

variable {a b : Nat} {own : Set Nat} {h : Nat → Int} {kids : List Kid}

theorem wp_get {α : Type} {Q : Post α} {i : Nat} {f : Int → Prog α} (hi : i ∈ own) (hQ : wp (f (h i)) own h kids Q) :
    wp (get i >>= f) own h kids Q := ⟨hi, hQ⟩

theorem wp_put {Q : Post Unit} {i : Nat} {v : Int} (hi : i ∈ own) (hQ : Q (some ()) own (Function.update h i v) kids) :
    wp (put i v) own h kids Q := ⟨hi, hQ⟩

theorem findInsert_wp {Q : Post Nat} {pivot : Nat} (hsub : Set.Icc a pivot ⊆ own) :
    ∀ fuel insert, a ≤ insert → insert ≤ pivot → pivot - insert < fuel → (∀ i, a ≤ i → i < insert → h i < h pivot) →
      (∀ r, insert ≤ r → r ≤ pivot → (∀ i, a ≤ i → i < r → h i < h pivot) → (r < pivot → h pivot ≤ h r) →
        Q (some r) own h kids) →
      wp (findInsert pivot fuel insert) own h kids Q
  | 0, insert, _, _, hf, _, _ => absurd hf (Nat.not_lt_zero _)
  | fuel + 1, insert, ha, hp, hf, hlow, hQ => by
    rw [findInsert]
    split_ifs with hlt
    · refine wp_get (hsub ⟨ha, hp⟩) (wp_get (hsub ⟨ha.trans hp, le_rfl⟩) ?_)
      split_ifs with hx
      · refine findInsert_wp hsub fuel (insert + 1) (by omega) hlt (by omega) (fun i h1 h2 => ?_)
          fun r hr => hQ r (by omega)
        rcases Nat.lt_succ_iff_lt_or_eq.mp h2 with h2 | rfl
        · exact hlow i h1 h2
        · exact hx
      · exact hQ insert le_rfl hp hlow fun _ => not_lt.mp hx
    · exact hQ insert le_rfl hp hlow fun h' => absurd h' hlt

theorem memmove_wp {Q : Post Unit} {insert : Nat} :
    ∀ (n : Nat) (h : Nat → Int), Set.Icc insert (insert + n) ⊆ own →
      (∀ h', (∀ i, insert < i → i ≤ insert + n → h' i = h (i - 1)) → (∀ i, i ≤ insert ∨ insert + n < i → h' i = h i) →
        Q (some ()) own h' kids) →
      wp (memmove insert n) own h kids Q
  | 0, h, _, hQ => hQ h (fun i h1 h2 => absurd h1 (by omega)) fun _ _ => rfl
  | n + 1, h, hsub, hQ => by
    rw [memmove]
    refine wp_get (hsub ⟨by omega, by omega⟩) (wp_bind (wp_put (hsub ⟨by omega, by omega⟩) ?_))
    refine memmove_wp n _ (fun i hi => hsub ⟨hi.1, hi.2.trans (by omega)⟩) fun h' hmove hrest =>
      hQ h' (fun i h1 h2 => ?_) fun i hi => ?_
    · rcases Nat.lt_or_ge (insert + n) i with hi | hi
      · obtain rfl : i = insert + 1 + n := by omega
        rw [hrest _ (Or.inr hi), Function.update_self]
        congr 1
        omega
      · rw [hmove i h1 hi, Function.update_of_ne (by omega)]
    · rw [hrest i (by omega), Function.update_of_ne (by omega)]

/-- The element at `pivot` is put in its place among the sorted ones before it. -/
theorem moveElem_wp {Q : Post Unit} {insert pivot : Nat} (ha : a ≤ insert) (hip : insert ≤ pivot) (hpb : pivot ≤ b)
    (hsub : Set.Icc a b ⊆ own) (hsorted : ∀ i j, a ≤ i → i ≤ j → j < pivot → h i ≤ h j)
    (hlow : ∀ i, a ≤ i → i < insert → h i < h pivot) (hhigh : insert < pivot → h pivot ≤ h insert)
    (hQ : ∀ h', Permuted a b h h' → Agree (Set.Icc a b)ᶜ h h' → SortedOn a pivot h' → Q (some ()) own h' kids) :
    wp (moveElem insert pivot) own h kids Q := by
  rw [moveElem]
  split_ifs with hlt
  · refine wp_get (hsub ⟨by omega, hpb⟩) (wp_bind (memmove_wp (pivot - insert) h ?_ fun h' hmove hrest => ?_))
    · exact fun i hi => hsub ⟨ha.trans hi.1, hi.2.trans (by omega)⟩
    · refine wp_put (hsub ⟨ha, by omega⟩) ?_
      have hq : Function.update h' insert (h pivot) insert = h pivot := Function.update_self _ _ _
      have hm : ∀ i, insert < i → i ≤ pivot → Function.update h' insert (h pivot) i = h (i - 1) := fun i h1 h2 => by
        rw [Function.update_of_ne (by omega), hmove i h1 (by omega)]
      have hr : ∀ i, i < insert ∨ pivot < i → Function.update h' insert (h pivot) i = h i := fun i hi => by
        rw [Function.update_of_ne (by omega), hrest i (by omega)]
      refine hQ _ (.rotate ha hip hpb hq hm hr) (fun i hi => hr i ?_) fun i j h1 h2 h3 => ?_
      · by_contra hn
        exact hi ⟨by omega, by omega⟩
      · generalize Function.update h' insert (h pivot) = k at hq hm hr ⊢
        rcases Nat.lt_trichotomy i insert with hi | rfl | hi
        · rcases Nat.lt_trichotomy j insert with hj | rfl | hj
          · rw [hr i (Or.inl hi), hr j (Or.inl hj)]
            exact hsorted i j h1 h2 (by omega)
          · rw [hr i (Or.inl hi), hq]
            exact (hlow i h1 hi).le
          · rw [hr i (Or.inl hi), hm j hj h3]
            exact hsorted i (j - 1) h1 (by omega) (by omega)
        · rcases Nat.eq_or_lt_of_le h2 with rfl | hj
          · exact le_rfl
          · rw [hq, hm j hj h3]
            exact (hhigh hlt).trans (hsorted i (j - 1) h1 (by omega) (by omega))
        · rw [hm i hi (by omega), hm j (by omega) h3]
          exact hsorted (i - 1) (j - 1) (by omega) (by omega) (by omega)
  · obtain rfl : insert = pivot := by omega
    refine hQ h (Permuted.refl a b h) (Agree.refl _ h) fun i j h1 h2 h3 => ?_
    rcases Nat.eq_or_lt_of_le h3 with rfl | hj
    · rcases Nat.eq_or_lt_of_le h2 with rfl | hi
      · exact le_rfl
      · exact (hlow i h1 hi).le
    · exact hsorted i j h1 h2 hj

theorem insertionLoop_wp {Q : Post Unit} (hsub : Set.Icc a b ⊆ own) :
    ∀ fuel pivot (h : Nat → Int), a < pivot → pivot ≤ b + 1 → b + 1 - pivot < fuel → SortedOn a (pivot - 1) h →
      (∀ h', Sorts a b h h' → Agree (Set.Icc a b)ᶜ h h' → Q (some ()) own h' kids) →
      wp (insertionLoop a b fuel pivot) own h kids Q
  | 0, pivot, _, _, _, hf, _, _ => absurd hf (Nat.not_lt_zero _)
  | fuel + 1, pivot, h, ha, hb, hf, hsorted, hQ => by
    rw [insertionLoop]
    split_ifs with hle
    · refine wp_bind (findInsert_wp (fun i hi => hsub ⟨hi.1, hi.2.trans hle⟩) _ a le_rfl (by omega) (by omega)
        (fun i h1 h2 => by omega) fun r har hrp hlow hhigh => ?_)
      refine wp_bind (moveElem_wp har hrp hle hsub (fun i j h1 h2 h3 => hsorted i j h1 h2 (by omega)) hlow hhigh
        fun h' hp hframe hs => ?_)
      refine insertionLoop_wp hsub fuel (pivot + 1) h' (by omega) (by omega) (by omega) hs fun h'' hs' hframe' =>
        hQ h'' ⟨hp.trans hs'.1, hs'.2⟩ (hframe.trans hframe')
    · obtain rfl : pivot = b + 1 := by omega
      exact hQ h ⟨Permuted.refl a b h, hsorted⟩ (Agree.refl _ h)

theorem insertionSort_wp {Q : Post Unit} (hab : a ≤ b) (hsub : Set.Icc a b ⊆ own)
    (hQ : ∀ h', Sorts a b h h' → Agree (Set.Icc a b)ᶜ h h' → Q (some ()) own h' kids) :
    wp (insertionSort a b) own h kids Q :=
  insertionLoop_wp hsub _ (a + 1) h (by omega) (by omega) (by omega) (Sorts.single a h).2 hQ

/-! ## Partition -/

theorem swapElem_wp {Q : Post Unit} {i j : Nat} (hi : i ∈ own) (hj : j ∈ own)
    (hQ : Q (some ()) own (Function.update (Function.update h i (h j)) j (h i)) kids) : wp (swapElem i j) own h kids Q :=
  wp_get hi (wp_get hj (wp_bind (wp_put hi (wp_put hj hQ))))

theorem scanLeft_wp {Q : Post Nat} {right : Nat} {pivot : Int} :
    ∀ fuel left, Set.Icc left right ⊆ own → left ≤ right → right - left < fuel →
      (∀ r, left ≤ r → r ≤ right → (∀ i, left ≤ i → i < r → h i < pivot) → (r < right → pivot ≤ h r) →
        Q (some r) own h kids) →
      wp (scanLeft right pivot fuel left) own h kids Q
  | 0, left, _, _, hf, _ => absurd hf (Nat.not_lt_zero _)
  | fuel + 1, left, hsub, hle, hf, hQ => by
    rw [scanLeft]
    split_ifs with hlt
    · refine wp_get (hsub ⟨le_rfl, hle⟩) ?_
      split_ifs with hx
      · refine scanLeft_wp fuel (left + 1) (fun i hi => hsub ⟨by have := hi.1; omega, hi.2⟩) hlt (by omega)
          fun r h1 h2 hlow => hQ r (by omega) h2 fun i h3 h4 => ?_
        rcases Nat.eq_or_lt_of_le h3 with rfl | h3
        · exact hx
        · exact hlow i h3 h4
      · exact hQ left le_rfl hle (fun i h1 h2 => by omega) fun _ => not_lt.mp hx
    · exact hQ left le_rfl hle (fun i h1 h2 => by omega) fun h' => absurd h' hlt

theorem scanRight_wp {Q : Post Nat} {left : Nat} {pivot : Int} :
    ∀ fuel right, Set.Icc left right ⊆ own → left ≤ right → right - left < fuel →
      (∀ r, left ≤ r → r ≤ right → (∀ i, r < i → i ≤ right → pivot ≤ h i) → (left < r → h r < pivot) →
        Q (some r) own h kids) →
      wp (scanRight left pivot fuel right) own h kids Q
  | 0, right, _, _, hf, _ => absurd hf (Nat.not_lt_zero _)
  | fuel + 1, right, hsub, hle, hf, hQ => by
    rw [scanRight]
    split_ifs with hlt
    · refine wp_get (hsub ⟨hle, le_rfl⟩) ?_
      split_ifs with hx
      · refine scanRight_wp fuel (right - 1) (fun i hi => hsub ⟨hi.1, hi.2.trans (by omega)⟩) (by omega) (by omega)
          fun r h1 h2 hhigh => hQ r h1 (by omega) fun i h3 h4 => ?_
        rcases Nat.eq_or_lt_of_le h4 with rfl | h4
        · exact hx
        · exact hhigh i h3 (by omega)
      · exact hQ right hle le_rfl (fun i h1 h2 => by omega) fun _ => not_le.mp hx
    · exact hQ right hle le_rfl (fun i h1 h2 => by omega) fun h' => absurd h' hlt

/-- What `Partition` has done when its outer loop tests `left` and `right`: the elements before `left` are below the pivot, those
after `right` are not; so is the one at `right`, or nothing is known of the right part but that some element from `left` on is not
below the pivot. While `left` is at the beginning nothing was moved, or the next round moves `left`. -/
structure Partitioned (a b : Nat) (pivot : Int) (h h' : Nat → Int) (left right : Nat) : Prop where
  begin_le : a ≤ left
  le : left ≤ right
  le_end : right ≤ b
  perm : Permuted a b h h'
  frame : Agree (Set.Icc a b)ᶜ h h'
  low : ∀ i, a ≤ i → i < left → h' i < pivot
  high : ∀ i, right < i → i ≤ b → pivot ≤ h' i
  meet : pivot ≤ h' right ∨ right = b ∧ ∃ p, left ≤ p ∧ p ≤ b ∧ pivot ≤ h' p
  unmoved : left = a → h' = h ∨ left < right ∧ h' left < pivot

/-- The element where `left` and `right` meet is not below the pivot. -/
theorem Partitioned.meets {pivot : Int} {h h' : Nat → Int} {s : Nat} (hp : Partitioned a b pivot h h' s s) :
    ∀ i, s ≤ i → i ≤ b → pivot ≤ h' i := by
  intro i h1 h2
  rcases Nat.eq_or_lt_of_le h1 with rfl | h1
  · rcases hp.meet with hm | ⟨rfl, p, h3, h4, hm⟩
    · exact hm
    · obtain rfl : p = s := by omega
      exact hm
  · exact hp.high i h1 h2

theorem Partitioned.start {pivot : Int} (hab : a ≤ b) {p : Nat} (hp : p ∈ Set.Icc a b) (hv : pivot ≤ h p) :
    Partitioned a b pivot h h a b where
  begin_le := le_rfl
  le := hab
  le_end := le_rfl
  perm := Permuted.refl a b h
  frame := Agree.refl _ h
  low i h1 h2 := absurd h2 (by omega)
  high i h1 h2 := absurd h1 (by omega)
  meet := Or.inr ⟨rfl, p, hp.1, hp.2, hv⟩
  unmoved _ := Or.inl rfl

/-- A round in which the two indices meet. -/
theorem Partitioned.close {pivot : Int} {h' : Nat → Int} {left right s : Nat} (hp : Partitioned a b pivot h h' left right)
    (hls : left ≤ s) (hsr : s ≤ right) (hlow : ∀ i, left ≤ i → i < s → h' i < pivot) (hstop : s < right → pivot ≤ h' s)
    (hhigh : ∀ i, s < i → i ≤ right → pivot ≤ h' i) : Partitioned a b pivot h h' s s where
  begin_le := hp.begin_le.trans hls
  le := le_rfl
  le_end := hsr.trans hp.le_end
  perm := hp.perm
  frame := hp.frame
  low i h1 h2 := (Nat.lt_or_ge i left).elim (hp.low i h1) fun h3 => hlow i h3 h2
  high i h1 h2 := (Nat.lt_or_ge right i).elim (fun h3 => hp.high i h3 h2) (hhigh i h1)
  meet := by
    rcases Nat.eq_or_lt_of_le hsr with rfl | hlt
    · rcases hp.meet with hm | ⟨hb, p, h1, h2, hm⟩
      · exact Or.inl hm
      · refine Or.inr ⟨hb, p, ?_, h2, hm⟩
        by_contra hn
        exact absurd (hlow p h1 (by omega)) (by omega)
    · exact Or.inl (hstop hlt)
  unmoved e := by
    obtain rfl : left = a := Nat.le_antisymm (hls.trans e.le) hp.begin_le
    rcases hp.unmoved rfl with hu | ⟨h1, h2⟩
    · exact Or.inl hu
    · subst e
      exact absurd (hstop h1) (by omega)

/-- A round in which two elements are swapped. -/
theorem Partitioned.swap {pivot : Int} {h' : Nat → Int} {left right l r : Nat} (hp : Partitioned a b pivot h h' left right)
    (hll : left ≤ l) (hlr : l < r) (hrr : r ≤ right) (hlow : ∀ i, left ≤ i → i < l → h' i < pivot)
    (hstop : l < right → pivot ≤ h' l) (hhigh : ∀ i, r < i → i ≤ right → pivot ≤ h' i) (hstop' : l < r → h' r < pivot) :
    Partitioned a b pivot h (Function.update (Function.update h' l (h' r)) r (h' l)) l r where
  begin_le := hp.begin_le.trans hll
  le := hlr.le
  le_end := hrr.trans hp.le_end
  perm := by
    have := hp.begin_le
    have := hp.le_end
    exact hp.perm.trans (.swap ⟨by omega, by omega⟩ ⟨by omega, by omega⟩)
  frame i hi := by
    have := hp.begin_le
    have := hp.le_end
    rw [Set.mem_compl_iff, Set.mem_Icc] at hi
    rw [Function.update_of_ne (by omega), Function.update_of_ne (by omega), hp.frame i hi]
  low i h1 h2 := by
    rw [Function.update_of_ne (by omega), Function.update_of_ne (by omega)]
    exact (Nat.lt_or_ge i left).elim (hp.low i h1) fun h3 => hlow i h3 h2
  high i h1 h2 := by
    rw [Function.update_of_ne (by omega), Function.update_of_ne (by omega)]
    exact (Nat.lt_or_ge right i).elim (fun h3 => hp.high i h3 h2) (hhigh i h1)
  meet := by
    rw [Function.update_self]
    exact Or.inl (hstop (by omega))
  unmoved _ := by
    rw [Function.update_of_ne (by omega), Function.update_self]
    exact Or.inr ⟨hlr, hstop' hlr⟩

theorem partitionLoop_wp {Q : Post Nat} {pivot : Int} (hsub : Set.Icc a b ⊆ own)
    (hQ : ∀ s h', Partitioned a b pivot h h' s s → Q (some s) own h' kids) :
    ∀ fuel left right (h' : Nat → Int), Partitioned a b pivot h h' left right →
      0 < fuel → (left < right → right - left + 1 < fuel ∨ h' left < pivot ∧ right - left < fuel) →
      wp (partitionLoop pivot fuel left right) own h' kids Q
  | 0, left, right, _, _, h0, _ => absurd h0 (by omega)
  | fuel + 1, left, right, h', hp, _, hf => by
    have hal := hp.begin_le
    have hrb := hp.le_end
    rw [partitionLoop]
    split_ifs with hlt
    · refine wp_bind (scanLeft_wp _ left (fun i hi => hsub ⟨hal.trans hi.1, hi.2.trans hrb⟩) hlt.le (by omega)
        fun l hll hlr hlow hstop => ?_)
      refine wp_bind (scanRight_wp _ right (fun i hi => hsub ⟨(hal.trans hll).trans hi.1, hi.2.trans hrb⟩) hlr (by omega)
        fun r hlr' hrr hhigh hstop' => wp_bind ?_)
      rw [swapFound]
      split_ifs with hlr''
      · refine swapElem_wp (hsub ⟨by omega, by omega⟩) (hsub ⟨by omega, by omega⟩) ?_
        refine partitionLoop_wp hsub hQ fuel l r _ (hp.swap hll hlr'' hrr hlow hstop hhigh hstop')
          (by omega) fun _ => Or.inr ⟨?_, ?_⟩
        · rw [Function.update_of_ne (by omega), Function.update_self]
          exact hstop' hlr''
        · rcases hf hlt with hf | ⟨h1, h2⟩
          · omega
          · -- the element at `left` is below the pivot, so `left` has moved
            rcases Nat.eq_or_lt_of_le hll with rfl | hll
            · exact absurd (hstop hlt) (by omega)
            · omega
      · obtain rfl : l = r := by omega
        exact partitionLoop_wp hsub hQ fuel l l h' (hp.close hll hlr hlow hstop hhigh) (by omega) (by omega)
    · obtain rfl : left = right := Nat.le_antisymm hp.le (not_lt.mp hlt)
      exact hQ left h' hp

/-- `Partition` with an element of the range that is not below the pivot. -/
theorem partition_wp {Q : Post Nat} {pivot : Int} (hab : a ≤ b) (hsub : Set.Icc a b ⊆ own) {p : Nat} (hp : p ∈ Set.Icc a b)
    (hv : pivot ≤ h p) (hQ : ∀ s h', Partitioned a b pivot h h' s s → Q (some s) own h' kids) :
    wp (partition a b pivot) own h kids Q :=
  partitionLoop_wp hsub hQ _ a b h (.start hab hp hv) (by omega) fun _ => Or.inl (by omega)

end Rules

end OsLabs.ForkSort
