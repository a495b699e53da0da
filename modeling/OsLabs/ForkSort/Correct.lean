import OsLabs.ForkSort.Sequential
import OsLabs.Lib.ForkEnds
import Mathlib.Data.List.Perm.Subperm

/-!
# The sort with its processes

`SortsRange` is what a call of `QuickSort` gives its caller: the range is sorted and the call has returned -1, or a child has the
range and the call has returned its pid. It holds by induction on the length of the range, in the caller and in the child alike.
From it every run of the program sorts the table, and a range that was given to a process is touched by this process and its
descendants only.
-/

namespace OsLabs.ForkSort

variable {a b m left right : Nat} {own : Set Nat} {h h' k : Nat → Int} {kids : List Kid}

/-- The child that was forked for a range. -/
def part (left right : Nat) (h : Nat → Int) : Kid := ⟨left, right, Sorts left right h⟩

theorem part_holds (hs : Sorts left right h h') : (part left right h).Holds h' := fun _ ha => hs.congr ha

/-- The rule of a call of `QuickSort`. -/
def SortsRange (quickSort : Nat → Nat → Prog Int) (left right : Nat) : Prop :=
  ∀ (own : Set Nat) (h : Nat → Int) (kids : List Kid) (Q : Post Int), Set.Icc left right ⊆ own →
    (∀ h', Sorts left right h h' → Agree (Set.Icc left right)ᶜ h h' → Q (some (-1)) own h' kids) →
    (∀ pid, 0 < pid → forksortMin < right - left →
      Q (some pid) (own \ Set.Icc left right) h (part left right h :: kids)) →
    wp (quickSort left right) own h kids Q

/-! ## The two parts -/

/-- The range is split after `m`: no element before is above one behind. -/
structure Split (a m b : Nat) (h h' : Nat → Int) : Prop where
  le : a ≤ m
  lt : m < b
  perm : Permuted a b h h'
  frame : Agree (Set.Icc a b)ᶜ h h'
  order : ∀ i j, a ≤ i → i ≤ m → m < j → j ≤ b → h' i ≤ h' j

theorem Split.sorts (hs : Split a m b h h') (hl : Sorts a m h' k) (hr : Sorts (m + 1) b h' k) : Sorts a b h k :=
  hl.glue hs.le hs.lt hs.perm hs.order hr

/-- `Partition` has moved its first index: the split is before the place where the two meet. -/
theorem Partitioned.split {pivot : Int} {s : Nat} (hp : Partitioned a b pivot h h' s s) (hs : a ≠ s) :
    Split a (s - 1) b h h' where
  le := by have := hp.begin_le; omega
  lt := by have := hp.le_end; have := hp.begin_le; omega
  perm := hp.perm
  frame := hp.frame
  order i j h1 h2 h3 h4 := by
    have := hp.begin_le
    exact ((hp.low i h1 (by omega)).trans_le (hp.meets j (by omega) h4)).le

/-- `Partition` has not moved its first index: the pivot is a least element, and goes to the beginning. -/
theorem Partitioned.split_swap {p : Nat} (hp : Partitioned a b (h p) h h' a a) (hpr : p ∈ Set.Icc a b) (hab : a < b) :
    h' = h ∧ Split a a b h (Function.update (Function.update h a (h p)) p (h a)) := by
  obtain rfl : h' = h := by
    rcases hp.unmoved rfl with hu | ⟨hlt, -⟩
    · exact hu
    · omega
  have hperm : Permuted a b h' (Function.update (Function.update h' a (h' p)) p (h' a)) := .swap ⟨le_rfl, hab.le⟩ hpr
  refine ⟨rfl, le_rfl, hab, hperm, fun i hi => ?_, fun i j h1 h2 h3 h4 => ?_⟩
  · rw [Set.mem_compl_iff, Set.mem_Icc] at hi
    obtain ⟨hp1, hp2⟩ := hpr
    rw [Function.update_of_ne (by omega), Function.update_of_ne (by omega)]
  · obtain rfl : i = a := by omega
    have hi : Function.update (Function.update h' i (h' p)) p (h' i) i = h' p := by
      by_cases e : i = p
      · rw [e, Function.update_self]
      · rw [Function.update_of_ne e, Function.update_self]
    rw [hi]
    exact hperm.forall (P := fun x => h' p ≤ x) hp.meets j (by omega) h4

/-- The rule of `QuickSort` after the fork: a small range is sorted at once; otherwise the left part is sorted or delegated, and
the right part is next. -/
theorem sortRange_wp {quickSort : Nat → Nat → Prog Int} {doFork : Bool} {Q : Post Int} (hlr : left ≤ right)
    (hsub : Set.Icc left right ⊆ own)
    (hrec : ∀ l r, left ≤ l → l ≤ r → r ≤ right → r - l < right - left → SortsRange quickSort l r)
    (hsmall : right - left ≤ insertsortMax → ∀ h', Sorts left right h h' → Agree (Set.Icc left right)ᶜ h h' →
      Q (some (-1)) own h' kids)
    (hdone : ∀ m h' k, Split left m right h h' → Sorts left m h' k → Agree (Set.Icc left m)ᶜ h' k →
      wp (sortRight quickSort (m + 1) right (-1) doFork) own k kids Q)
    (hdelegated : ∀ m h' pid, Split left m right h h' → 0 < pid → forksortMin < m - left →
      wp (sortRight quickSort (m + 1) right pid doFork) (own \ Set.Icc left m) h' (part left m h' :: kids) Q) :
    wp (sortRange quickSort left right doFork) own h kids Q := by
  rw [sortRange]
  split_ifs with hlt hle
  · exact wp_bind (insertionSort_wp hlr hsub (hsmall hle))
  · intro r
    have hmod : r % (right - left + 1) < right - left + 1 := Nat.mod_lt _ (Nat.succ_pos _)
    have hpr : left + r % (right - left + 1) ∈ Set.Icc left right := ⟨by omega, by omega⟩
    refine wp_get (hsub hpr) (wp_bind (partition_wp hlr hsub hpr le_rfl fun s h' hpart => ?_))
    change wp (if left = s then _ else _) own h' kids Q
    split_ifs with hs
    · subst hs
      obtain ⟨rfl, hsplit⟩ := hpart.split_swap hpr hlt
      exact wp_bind (swapElem_wp (hsub ⟨le_rfl, hlr⟩) (hsub hpr)
        (hdone left _ _ hsplit (Sorts.single left _) (Agree.refl _ _)))
    · have hsplit := hpart.split hs
      have hs1 : s - 1 + 1 = s := by have := hpart.begin_le; omega
      have hm := hsplit.lt
      refine wp_bind (hrec left (s - 1) le_rfl hsplit.le hm.le (by omega) own h' kids _ (fun i hi => hsub ⟨hi.1, hi.2.trans hm.le⟩)
        (fun k hk hframe => ?_) fun pid hpid hlen => ?_)
      · rw [← hs1]
        exact hdone (s - 1) h' k hsplit hk hframe
      · have hd := hdelegated (s - 1) h' pid hsplit hpid hlen
        rw [hs1] at hd
        exact hd
  · obtain rfl : left = right := by omega
    exact hsmall (by omega) h (Sorts.single left h) (Agree.refl _ h)

/-! ## The waits -/

theorem waitPart_none {Q : Post Unit} (hQ : Q (some ()) own h kids) : wp (waitPart (-1)) own h kids Q := hQ

/-- A wait gives the range of some child back. -/
theorem waitPart_wp {Q : Post Unit} {pid : Int} (hpid : 0 < pid) (hkids : kids ≠ [])
    (hQ : ∀ l K r, kids = l ++ K :: r → ∀ h', Agree own h h' → K.post h' → Q (some ()) (own ∪ K.set) h' (l ++ r)) :
    wp (waitPart pid) own h kids Q := by
  rw [waitPart, if_pos (by omega)]
  exact ⟨hkids, hQ⟩

theorem waitPart_one {Q : Post Unit} {pid : Int} {K : Kid} (hpid : 0 < pid)
    (hQ : ∀ h', Agree own h h' → K.post h' → Q (some ()) (own ∪ K.set) h' []) : wp (waitPart pid) own h [K] Q := by
  refine waitPart_wp hpid (List.cons_ne_nil _ _) fun l K' r e => ?_
  rcases l with - | ⟨B, l⟩
  · obtain ⟨rfl, rfl⟩ : K = K' ∧ [] = r := by simpa using e
    exact hQ
  · simp at e

theorem waitPart_two {Q : Post Unit} {pid : Int} {A B : Kid} (hpid : 0 < pid)
    (hA : ∀ h', Agree own h h' → A.post h' → Q (some ()) (own ∪ A.set) h' [B])
    (hB : ∀ h', Agree own h h' → B.post h' → Q (some ()) (own ∪ B.set) h' [A]) : wp (waitPart pid) own h [A, B] Q := by
  refine waitPart_wp hpid (List.cons_ne_nil _ _) fun l K r e => ?_
  rcases l with - | ⟨A', - | ⟨B', l⟩⟩
  · obtain ⟨rfl, rfl⟩ : A = K ∧ [B] = r := by simpa using e
    exact hA
  · obtain ⟨rfl, rfl, rfl⟩ : A = A' ∧ B = K ∧ [] = r := by simpa using e
    exact hB
  · simp at e

/-- A part that was sorted in the meantime stays sorted while the other cells change. -/
theorem Sorts.keep {S : Set Nat} (hs : Sorts left right h k) (ha : Agree S k h') (hsub : Set.Icc left right ⊆ S) :
    Sorts left right h h' := hs.congr (ha.mono hsub)

/-- Sorting only sees the range before it. -/
theorem Sorts.congr_left (hs : Sorts left right h k) (ha : Agree (Set.Icc left right) h h') : Sorts left right h' k := by
  obtain ⟨⟨σ, hσ, e⟩, hsorted⟩ := hs
  exact ⟨⟨σ, hσ, fun i hi => (e i hi).trans (ha _ (perm_mem hσ hi)).symm⟩, hsorted⟩

/-- The two parts of a range do not overlap. -/
theorem right_subset (a m b : Nat) : Set.Icc (m + 1) b ⊆ (Set.Icc a m)ᶜ := by
  rintro i ⟨h1, h2⟩ ⟨h3, h4⟩
  omega

theorem left_subset (a m b : Nat) : Set.Icc a m ⊆ (Set.Icc (m + 1) b)ᶜ := by
  rintro i ⟨h1, h2⟩ ⟨h3, h4⟩
  omega

/-- Without a fork the right part is sorted at once. -/
theorem sortRight_here {quickSort : Nat → Nat → Prog Int} {Q : Post Int} (hs : Split a m b h h') (hl : Sorts a m h' k)
    (ha : Agree (Set.Icc a m)ᶜ h' k) (hsub : Set.Icc a b ⊆ own) (hsmall : b - a ≤ forksortMin)
    (hrec : SortsRange quickSort (m + 1) b)
    (hQ : ∀ h', Sorts a b h h' → Agree (Set.Icc a b)ᶜ h h' → Q (some (-1)) own h' kids) :
    wp (sortRight quickSort (m + 1) b (-1) false) own k kids Q := by
  have hle := hs.le
  refine wp_bind (hrec own k kids _ (fun i hi => hsub ⟨by have := hi.1; omega, hi.2⟩) (fun h3 hr hframe => ?_)
    fun pid _ hlen => absurd hlen (by omega))
  refine hQ h3 (hs.sorts (hl.keep hframe (left_subset a m b)) (hr.congr_left fun i hi => (ha i (right_subset a m b hi)).symm))
    fun i hi => ?_
  have hlt := hs.lt
  rw [Set.mem_compl_iff, Set.mem_Icc] at hi
  rw [hframe i fun hi' => hi ⟨by have := hi'.1; omega, hi'.2⟩, ha i fun hi' => hi ⟨hi'.1, by have := hi'.2; omega⟩,
    hs.frame i fun hi' => hi hi']

/-- The rule of `QuickSort` for a range that is sorted without a fork. -/
theorem sortRange_here {quickSort : Nat → Nat → Prog Int} {Q : Post Int} (hlr : left ≤ right) (hsub : Set.Icc left right ⊆ own)
    (hsmall : right - left ≤ forksortMin)
    (hrec : ∀ l r, left ≤ l → l ≤ r → r ≤ right → r - l < right - left → SortsRange quickSort l r)
    (hdone : ∀ h', Sorts left right h h' → Agree (Set.Icc left right)ᶜ h h' → Q (some (-1)) own h' kids) :
    wp (sortRange quickSort left right false) own h kids Q := by
  refine sortRange_wp hlr hsub hrec (fun _ => hdone) (fun m h' k hs hl ha => ?_) fun m h' pid hs _ hm => ?_
  · have := hs.le
    have := hs.lt
    exact sortRight_here hs hl ha hsub hsmall (hrec _ _ (by omega) (by omega) le_rfl (by omega)) hdone
  · have := hs.lt
    omega

/-! ## A process that was forked for a range -/

/-- A forked process that has its whole range back, sorted, exits. -/
theorem exit_done {h0 : Nat → Int} (hown : own = Set.Icc a b) (hs : Sorts a b h0 h) :
    wp (if true = true then Prog.exit else pure (-1) : Prog Int) own h [] (part a b h0).done :=
  ⟨rfl, rfl, hown, part_holds hs⟩

/-- The right part of a forked process that has sorted the left part itself. -/
theorem sortRight_done {quickSort : Nat → Nat → Prog Int} (hs : Split a m b h h') (hl : Sorts a m h' k)
    (ha : Agree (Set.Icc a m)ᶜ h' k) (hrec : SortsRange quickSort (m + 1) b) :
    wp (sortRight quickSort (m + 1) b (-1) true) (Set.Icc a b) k [] (part a b h).done := by
  have hle := hs.le
  have hsub : Set.Icc (m + 1) b ⊆ Set.Icc a b := Set.Icc_subset_Icc_left (by omega)
  have hbefore : Agree (Set.Icc (m + 1) b) k h' := fun i hi => (ha i (right_subset a m b hi)).symm
  refine wp_bind (hrec _ k [] _ hsub (fun h3 hr hframe => ?_) fun pid hpid _ => ?_)
  · refine wp_bind (waitPart_none (wp_bind (waitPart_none ?_)))
    exact exit_done rfl (hs.sorts (hl.keep hframe (left_subset a m b)) (hr.congr_left hbefore))
  · refine wp_bind (waitPart_none (wp_bind (waitPart_one hpid fun h3 hag hr => ?_)))
    refine exit_done (Set.sdiff_union_of_subset hsub) (hs.sorts (hl.keep hag fun i hi => ⟨?_, ?_⟩) (Sorts.congr_left hr hbefore))
    · exact Set.Icc_subset_Icc_right hs.lt.le hi
    · exact left_subset a m b hi

/-- The right part of a forked process that has delegated the left part. -/
theorem sortRight_delegated {quickSort : Nat → Nat → Prog Int} {pid : Int} (hs : Split a m b h h') (hpid : 0 < pid)
    (hrec : SortsRange quickSort (m + 1) b) :
    wp (sortRight quickSort (m + 1) b pid true) (Set.Icc a b \ Set.Icc a m) h' [part a m h'] (part a b h).done := by
  have hle := hs.le
  have hlt := hs.lt
  have hsub : Set.Icc (m + 1) b ⊆ Set.Icc a b \ Set.Icc a m := fun i hi =>
    ⟨Set.Icc_subset_Icc_left (by omega) hi, right_subset a m b hi⟩
  refine wp_bind (hrec _ h' _ _ hsub (fun h3 hr hframe => ?_) fun pid' hpid' _ => ?_)
  · -- the right part was sorted here: one child to wait for
    refine wp_bind (waitPart_one hpid fun h4 hag hl => wp_bind (waitPart_none ?_))
    exact exit_done (Set.sdiff_union_of_subset (Set.Icc_subset_Icc_right hlt.le)) (hs.sorts hl (hr.keep hag hsub))
  · -- both parts were delegated: the children end in some order
    have hown : ∀ i, i ∈ Set.Icc a b ↔ i ∈ Set.Icc a m ∨ i ∈ Set.Icc (m + 1) b := fun i => by
      simp only [Set.mem_Icc]
      omega
    refine wp_bind (waitPart_two hpid (fun h4 _ hr => ?_) fun h4 _ hl => ?_)
    · refine wp_bind (waitPart_one hpid' fun h5 hag hl => exit_done ?_ (hs.sorts hl (Sorts.keep hr hag Set.subset_union_right)))
      change _ \ Set.Icc (m + 1) b ∪ Set.Icc (m + 1) b ∪ Set.Icc a m = _
      rw [Set.sdiff_union_of_subset hsub]
      exact Set.sdiff_union_of_subset (Set.Icc_subset_Icc_right hlt.le)
    · refine wp_bind (waitPart_one hpid' fun h5 hag hr => exit_done ?_ (hs.sorts (Sorts.keep hl hag Set.subset_union_right) hr))
      ext i
      simp only [Kid.set, part, Set.mem_union, Set.mem_sdiff, hown]
      tauto

/-! ## QuickSort and the program -/

/-- The rule of `QuickSort`, by induction on the fuel, which bounds the length of the range. -/
theorem quickSort_sorts : ∀ fuel left right, left ≤ right → right - left < fuel → SortsRange (quickSort fuel) left right
  | 0, _, _, _, hf => absurd hf (Nat.not_lt_zero _)
  | fuel + 1, left, right, hlr, hf => by
    intro own h kids Q hsub hdone hdelegated
    have hrec : ∀ l r, left ≤ l → l ≤ r → r ≤ right → r - l < right - left → SortsRange (quickSort fuel) l r :=
      fun l r _ h1 _ h2 => quickSort_sorts fuel l r h1 (by omega)
    rw [quickSort]
    split_ifs with hlen
    · refine ⟨Sorts left right h, hsub, ?_, fun pid hpid => ?_⟩
      · -- the child
        have h32 : ¬ right - left ≤ insertsortMax := fun hle => absurd (hlen.trans_le hle) (by decide)
        refine sortRange_wp hlr le_rfl hrec (fun hle => absurd hle h32) (fun m h' k hs hl ha => ?_) fun m h' pid hs hpid _ => ?_
        · have := hs.le
          have := hs.lt
          exact sortRight_done hs hl ha (hrec _ _ (by omega) (by omega) le_rfl (by omega))
        · have := hs.le
          have := hs.lt
          exact sortRight_delegated hs hpid (hrec _ _ (by omega) (by omega) le_rfl (by omega))
      · -- the caller
        change wp (if pid ≠ 0 then _ else _) _ _ _ _
        rw [if_pos (by omega)]
        exact hdelegated pid hpid hlen
    · exact sortRange_here hlr hsub (by omega) hrec hdone

/-- The program sorts its table, or ends at once when it has none. -/
theorem sortTable_wp {n : Nat} {t : Nat → Int} {Q : Post Unit} (hnone : n = 0 → Q none (Set.Icc 0 (n - 1)) t [])
    (hsorts : 0 < n → ∀ h', Sorts 0 (n - 1) t h' → Q (some ()) (Set.Icc 0 (n - 1)) h' []) :
    wp (sortTable n) (Set.Icc 0 (n - 1)) t [] Q := by
  refine wp_bind ?_
  rw [mmap]
  split_ifs with hn
  · exact hnone (by omega)
  · have hn' : 0 < n := by omega
    refine wp_bind (quickSort_sorts n 0 (n - 1) (Nat.zero_le _) (by omega) _ t [] _ le_rfl (fun h' hs _ => ?_) fun pid hpid _ => ?_)
    · exact hsorts hn' h' hs
    · change wp (if 0 < pid then _ else _) _ _ _ _
      rw [if_pos hpid]
      refine ⟨List.cons_ne_nil _ _, fun l K r e h' _ hK => ?_⟩
      rcases l with - | ⟨B, l⟩
      · obtain ⟨rfl, rfl⟩ : part 0 (n - 1) t = K ∧ [] = r := by simpa using e
        change Q (some ()) (_ \ Set.Icc 0 (n - 1) ∪ Set.Icc 0 (n - 1)) h' []
        rw [Set.sdiff_union_of_subset le_rfl]
        exact hsorts hn' h' hK
      · simp at e

/-- The first process: its postcondition is the sorted table. -/
def whole (n : Nat) (t : Nat → Int) : Kid := ⟨0, n - 1, fun h => 0 < n → Sorts 0 (n - 1) t h⟩

theorem sortTable_whole (n : Nat) (t : Nat → Int) : wp (sortTable n) (whole n t).set t [] ((whole n t).ended true) :=
  sortTable_wp (fun hn => ⟨nofun, rfl, rfl, fun _ _ h0 => absurd h0 (by omega)⟩)
    fun _ _ hs => ⟨nofun, rfl, rfl, fun _ ha _ => hs.congr ha⟩

/-- The elements of the table. -/
def elements (n : Nat) (t : Nat → Int) : List Int := (List.range n).map t

/-- A range that is the whole table is sorted when the list of its elements is. -/
theorem Sorts.elements {n : Nat} (hn : 0 < n) {t t' : Nat → Int} (hs : Sorts 0 (n - 1) t t') :
    (elements n t').Perm (elements n t) ∧ (elements n t').Pairwise (· ≤ ·) := by
  obtain ⟨⟨σ, hσ, e⟩, hsorted⟩ := hs
  constructor
  · have hmap : ForkSort.elements n t' = ((List.range n).map σ).map t := by
      rw [List.map_map]
      exact List.map_congr_left fun i hi => e i ⟨Nat.zero_le i, by have := List.mem_range.mp hi; omega⟩
    have hperm : ((List.range n).map σ).Perm (List.range n) := by
      refine (List.subperm_of_subset (List.nodup_range.map σ.injective) fun j hj => ?_).perm_of_length_le (by simp)
      obtain ⟨i, hi, rfl⟩ := List.mem_map.mp hj
      have hσi := perm_mem hσ (i := i) ⟨Nat.zero_le i, by have := List.mem_range.mp hi; omega⟩
      exact List.mem_range.mpr (by have := hσi.2; omega)
    rw [hmap]
    exact hperm.map t
  · refine List.pairwise_map.mpr (List.pairwise_lt_range.imp_of_mem fun {i j} _ hj hij => ?_)
    have := List.mem_range.mp hj
    exact hsorted i j (Nat.zero_le i) hij.le (by omega)

/-- Along every run in which the forks succeed the processes are well formed. -/
theorem sortTable_ok (n : Nat) (t : Nat → Int) :
    (forksSucceed (sortTable n) 0 (n - 1) t).Inductive fun w => ForestOk w.table true w.procs [whole n t] :=
  processes_ok (K := whole n t) (sortTable_whole n t)

/-- Every run in which the forks succeed can go on until the first process has ended. -/
theorem sortTable_progress (n : Nat) (t : Nat → Int) (w : World Unit)
    (hw : (forksSucceed (sortTable n) 0 (n - 1) t).Reach w) :
    Ended true w.procs ∨ ∃ l w', (forksSucceed (sortTable n) 0 (n - 1) t).step w l w' :=
  processes_progress (K := whole n t) (sortTable_whole n t) hw

/-- In every run in which the forks succeed: when the first process has collected its child, or has sorted the table itself, the
table is a sorted permutation of what it was; and as long as a process was not waited for, a step that touches a cell of the range
that it was forked for is a step of this process or of a descendant. -/
theorem forksort_correct (n : Nat) (t : Nat → Int) (w : World Unit)
    (hw : (forksSucceed (sortTable n) 0 (n - 1) t).Reach w) :
    (∀ lo hi kids sibs, w.procs = .node (some (.ret ())) lo hi kids sibs →
      (elements n w.table).Perm (elements n t) ∧ (elements n w.table).Pairwise (· ≤ ·)) ∧
    ∀ path a w', (forksSucceed (sortTable n) 0 (n - 1) t).step w (path, a) w' →
      ∀ owner lo hi i, w.procs.rangeAt owner = some (lo, hi) → a.touches i → lo ≤ i → i ≤ hi → owner <+: path := by
  have hok := (sortTable_ok n t).reach hw
  constructor
  · intro lo hi kids sibs hret
    rw [hret] at hok
    obtain _ | ⟨hset, hown, hsep, ⟨-, -, -, hK⟩, hkids, hsibs⟩ := hok
    rcases Nat.eq_zero_or_pos n with rfl | hn
    · exact ⟨List.Perm.refl _, List.Pairwise.nil⟩
    · exact (hK w.table (Agree.refl _ _) hn).elements hn
  · rintro path a w' ⟨hfork, f', orphans, hstep, -⟩ owner lo hi i hr hi hlo hhi
    exact hstep.exclusive hfork hok (List.pairwise_singleton _ _) hr hi hlo hhi

/-- A table in descending order. -/
def descending (i : Nat) : Int := -i

/-- The first step for a table that is one element too long to be sorted without a fork. -/
theorem sortTable_forks : ∃ k, sortTable (forksortMin + 2) = .fork 0 (forksortMin + 1) k ∧ k 1 = .wait (.ret ()) := by
  have hlarge : forksortMin < forksortMin + 2 - 1 - 0 := by decide
  rw [sortTable, mmap, if_neg (by decide), quickSort, if_pos hlarge]
  exact ⟨_, rfl, rfl⟩

/-- A table that is one element too long to be sorted without a fork is given to a child. While the first process waits, a run goes on
to its end, and then the table is sorted. -/
theorem forksort_correct_descending : ∃ w w' : World Unit,
    (forksSucceed (sortTable (forksortMin + 2)) 0 (forksortMin + 1) descending).Reach w ∧
      (∃ child, w.procs = .node (some (.wait (.ret ()))) 0 (forksortMin + 1)
        (.node (some child) 0 (forksortMin + 1) .nil .nil) .nil) ∧
      (forksSucceed (sortTable (forksortMin + 2)) 0 (forksortMin + 1) descending).Path w w' ∧
        (elements (forksortMin + 2) w'.table).Perm (elements (forksortMin + 2) descending) ∧
          (elements (forksortMin + 2) w'.table).Pairwise (· ≤ ·) := by
  obtain ⟨k, hfork, hparent⟩ := sortTable_forks
  have hstart : (forksSucceed (sortTable (forksortMin + 2)) 0 (forksortMin + 1) descending).Reach
      (.alone descending (sortTable (forksortMin + 2)) 0 (forksortMin + 1)) := .init rfl
  have hstep : FStep descending (.node (some (sortTable (forksortMin + 2))) 0 (forksortMin + 1) .nil .nil) [0] .silent descending
      (.node (some (k 1)) 0 (forksortMin + 1) (.node (some (k 0)) 0 (forksortMin + 1) .nil .nil) .nil) .nil := by
    rw [hfork]
    exact .fork Int.one_pos
  have hforked : (forksSucceed (sortTable (forksortMin + 2)) 0 (forksortMin + 1) descending).Reach
      ⟨descending, .node (some (k 1)) 0 (forksortMin + 1) (.node (some (k 0)) 0 (forksortMin + 1) .nil .nil) .nil⟩ :=
    .step ([0], .silent) hstart ⟨nofun, _, .nil, hstep, rfl⟩
  obtain ⟨w', hpath, hend⟩ := exists_processes_end (sortTable (forksortMin + 2)) 0 (forksortMin + 1) descending
    ⟨descending, .node (some (k 1)) 0 (forksortMin + 1) (.node (some (k 0)) 0 (forksortMin + 1) .nil .nil) .nil⟩
  refine ⟨_, w', hforked, ⟨k 0, by rw [hparent]⟩, hpath, ?_⟩
  obtain ⟨c, kids, sibs, hc, hcase⟩ := path_of_waiting hpath ⟨_, _, by rw [hparent]⟩
  have hended : Ended true w'.procs := by
    rcases sortTable_progress _ _ w' (hforked.path hpath) with he | ⟨l, w'', hst⟩
    · exact he
    · exact absurd hst (hend l w'')
  rw [hc] at hended
  obtain rfl : c = .ret () := by
    rcases hcase with rfl | rfl
    · cases hended
    · rfl
  exact (forksort_correct _ _ w' (hforked.path hpath)).1 _ _ _ _ hc

/-- The last loop of `main` on a table in order. -/
theorem verify_wp {Q : Post Unit} : ∀ n i prev, (∀ j, i ≤ j → j < i + n → j ∈ own ∧ prev ≤ h j) →
    (∀ j l, i ≤ j → j ≤ l → l < i + n → h j ≤ h l) → Q (some ()) own h kids → wp (verify n i prev) own h kids Q
  | 0, _, _, _, _, hQ => hQ
  | n + 1, i, prev, hprev, hsorted, hQ => by
    obtain ⟨hi, hpi⟩ := hprev i le_rfl (by omega)
    rw [verify]
    refine wp_get hi ?_
    rw [if_pos hpi]
    exact verify_wp n (i + 1) _
      (fun j h1 h2 => ⟨(hprev j (by omega) (by omega)).1, hsorted i j le_rfl (by omega) (by omega)⟩)
      (fun j l h1 h2 h3 => hsorted j l (by omega) h2 (by omega)) hQ

theorem main_whole (n : Nat) (t : Nat → Int) (ht : ∀ i, i < n → longMin ≤ t i) :
    wp (main n) (whole n t).set t [] ((whole n t).ended true) := by
  refine wp_bind (sortTable_wp (fun hn => ⟨nofun, rfl, rfl, fun _ _ h0 => absurd h0 (by omega)⟩) fun hn h' hs => ?_)
  have hmin := hs.1.forall (P := fun x => longMin ≤ x) fun i _ hi => ht i (by omega)
  refine verify_wp n 0 longMin (fun j h1 h2 => ⟨⟨h1, by omega⟩, hmin j h1 (by omega)⟩)
    (fun j l h1 h2 h3 => hs.2 j l h1 h2 (by omega)) ?_
  exact ⟨nofun, rfl, rfl, fun _ ha _ => hs.congr ha⟩

/-- The assertion of `main` never fails: a run can go on until the first process has ended. -/
theorem main_progress (n : Nat) (t : Nat → Int) (ht : ∀ i, i < n → longMin ≤ t i) (w : World Unit)
    (hw : (forksSucceed (main n) 0 (n - 1) t).Reach w) :
    Ended true w.procs ∨ ∃ l w', (forksSucceed (main n) 0 (n - 1) t).step w l w' :=
  processes_progress (K := whole n t) (main_whole n t ht) hw

end OsLabs.ForkSort
