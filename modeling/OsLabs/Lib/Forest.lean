import OsLabs.Lib.Prog
import OsLabs.Lib.Sys

/-!
# Processes and their interleavings

The processes of a run form a forest: each node is a process with its program, the range it was given, its children that were not
waited for, and the next sibling. A process that has exited stays as a zombie until its parent waits for it; its own children go to
the top of the forest. `Step` is one step of one process, with the path to it. The forest is well formed (`ForestOk`) when every
process satisfies its weakest precondition on the cells it owns, which are those of its range that its children do not have; every
step keeps this, and no process touches a cell of a range that was given to a child of another branch.
-/

namespace OsLabs

variable {α : Type}

/-- A list of sibling processes with their children; a process without a program has exited. -/
inductive Forest (α : Type) : Type where
  | nil
  | node (code : Option (Prog α)) (lo hi : Nat) (kids sibs : Forest α)

/-- One list of processes after another. -/
def Forest.append : Forest α → Forest α → Forest α
  | .nil, g => g
  | .node c lo hi kids sibs, g => .node c lo hi kids (sibs.append g)

/-- What a step does. -/
inductive Access where
  | silent | read (i : Nat) | write (i : Nat) | forkFail

/-- The cell that a step touches. -/
def Access.touches : Access → Nat → Prop
  | .read i, j => j = i
  | .write i, j => j = i
  | _, _ => False

/-- One of the processes has exited and is waited for. -/
inductive Reap : Forest α → Forest α → Prop where
  | here {lo hi : Nat} {sibs : Forest α} : Reap (.node none lo hi .nil sibs) sibs
  | later {c : Option (Prog α)} {lo hi : Nat} {kids sibs sibs' : Forest α} (h : Reap sibs sibs') :
      Reap (.node c lo hi kids sibs) (.node c lo hi kids sibs')

/-- One step of one process: the path to it, what it does, the array, the forest, and the processes that lost their parent. -/
inductive FStep (t : Nat → Int) : Forest α → List Nat → Access → (Nat → Int) → Forest α → Forest α → Prop where
  | read {i : Nat} {k : Int → Prog α} {lo hi : Nat} {kids sibs : Forest α} :
      FStep t (.node (some (.read i k)) lo hi kids sibs) [0] (.read i) t (.node (some (k (t i))) lo hi kids sibs) .nil
  | write {i : Nat} {v : Int} {k : Prog α} {lo hi : Nat} {kids sibs : Forest α} :
      FStep t (.node (some (.write i v k)) lo hi kids sibs) [0] (.write i) (Function.update t i v)
        (.node (some k) lo hi kids sibs) .nil
  | random {k : Nat → Prog α} {lo hi : Nat} {kids sibs : Forest α} (n : Nat) :
      FStep t (.node (some (.random k)) lo hi kids sibs) [0] .silent t (.node (some (k n)) lo hi kids sibs) .nil
  | fork {lo' hi' : Nat} {k : Int → Prog α} {lo hi : Nat} {kids sibs : Forest α} {pid : Int} (h : 0 < pid) :
      FStep t (.node (some (.fork lo' hi' k)) lo hi kids sibs) [0] .silent t
        (.node (some (k pid)) lo hi (.node (some (k 0)) lo' hi' .nil kids) sibs) .nil
  | forkFail {lo' hi' : Nat} {k : Int → Prog α} {lo hi : Nat} {kids sibs : Forest α} :
      FStep t (.node (some (.fork lo' hi' k)) lo hi kids sibs) [0] .forkFail t (.node (some (k (-1))) lo hi kids sibs) .nil
  | wait {k : Prog α} {lo hi : Nat} {kids kids' sibs : Forest α} (h : Reap kids kids') :
      FStep t (.node (some (.wait k)) lo hi kids sibs) [0] .silent t (.node (some k) lo hi kids' sibs) .nil
  | exit {lo hi : Nat} {kids sibs : Forest α} :
      FStep t (.node (some .exit) lo hi kids sibs) [0] .silent t (.node none lo hi .nil sibs) kids
  | kid {c : Option (Prog α)} {lo hi : Nat} {kids kids' sibs orphans : Forest α} {path : List Nat} {a : Access}
      {t' : Nat → Int} (h : FStep t kids path a t' kids' orphans) :
      FStep t (.node c lo hi kids sibs) (0 :: path) a t' (.node c lo hi kids' sibs) orphans
  | sib {c : Option (Prog α)} {lo hi : Nat} {kids sibs sibs' orphans : Forest α} {j : Nat} {path : List Nat} {a : Access}
      {t' : Nat → Int} (h : FStep t sibs (j :: path) a t' sibs' orphans) :
      FStep t (.node c lo hi kids sibs) ((j + 1) :: path) a t' (.node c lo hi kids sibs') orphans

/-- The range that was given to the process at a path. -/
def Forest.rangeAt : Forest α → List Nat → Option (Nat × Nat)
  | .nil, _ => none
  | .node _ _ _ _ _, [] => none
  | .node _ lo hi kids _, 0 :: path => if path = [] then some (lo, hi) else kids.rangeAt path
  | .node _ _ _ _ sibs, (j + 1) :: path => sibs.rangeAt (j :: path)

/-- The array and the processes. -/
structure World (α : Type) where
  table : Nat → Int
  procs : Forest α

/-- The runs from one process with the range from `lo` to `hi`. -/
def processes (main : Prog α) (lo hi : Nat) (t : Nat → Int) : Sys (World α) (List Nat × Access) where
  init w := w = { table := t, procs := .node (some main) lo hi .nil .nil }
  step w l w' := ∃ f' orphans, FStep w.table w.procs l.1 l.2 w'.table f' orphans ∧ w'.procs = f'.append orphans

/-! ## The invariant -/

/-- The cells of the ranges of some children. -/
def cover (kids : List Kid) : Set Nat := {i | ∃ K ∈ kids, i ∈ K.set}

/-- The ranges of some children do not overlap. -/
def Separate (kids : List Kid) : Prop := kids.Pairwise fun K K' => ∀ i ∈ K.set, i ∉ K'.set

/-- A process has ended with its range and its postcondition; only a process at the top may return. -/
def Kid.ended (top : Bool) (K : Kid) : Post α := fun r own h kids =>
  (top = false → r = none) ∧ kids = [] ∧ own = K.set ∧ K.Holds h

/-- Every process satisfies its weakest precondition on the cells it owns; every zombie has established its postcondition. -/
inductive ForestOk (t : Nat → Int) : Bool → Forest α → List Kid → Prop where
  | nil {top : Bool} : ForestOk t top .nil []
  | run {top : Bool} {c : Prog α} {own : Set Nat} {kids sibs : Forest α} {ks Ks : List Kid} {K : Kid}
      (hset : own ∪ cover ks = K.set) (hown : ∀ i ∈ own, i ∉ cover ks) (hsep : Separate ks)
      (hwp : wp c own t ks (K.ended top)) (hkids : ForestOk t false kids ks) (hsibs : ForestOk t top sibs Ks) :
      ForestOk t top (.node (some c) K.lo K.hi kids sibs) (K :: Ks)
  | zombie {top : Bool} {sibs : Forest α} {Ks : List Kid} {K : Kid} (hK : K.Holds t) (hsibs : ForestOk t top sibs Ks) :
      ForestOk t top (.node none K.lo K.hi .nil sibs) (K :: Ks)

theorem cover_cons (K : Kid) (Ks : List Kid) : cover (K :: Ks) = K.set ∪ cover Ks := by
  ext i
  simp [cover]

theorem Kid.ended_stable (top : Bool) (K : Kid) : Stable (K.ended top : Post α) := by
  rintro r own h h' kids ha ⟨hr, hk, rfl, hK⟩
  exact ⟨hr, hk, rfl, hK.congr ha⟩

/-- A forest only sees the array on its ranges. -/
theorem ForestOk.congr {t t' : Nat → Int} {top : Bool} {f : Forest α} {Ks : List Kid} (h : ForestOk t top f Ks)
    (ha : Agree (cover Ks) t t') : ForestOk t' top f Ks := by
  induction h with
  | nil => exact .nil
  | run hset hown hsep hwp hkids hsibs ihk ihs =>
    rw [cover_cons] at ha
    have haK := ha.mono Set.subset_union_left
    rw [← hset] at haK
    exact .run hset hown hsep (wp_congr (Kid.ended_stable _ _) (haK.mono Set.subset_union_left) hwp)
      (ihk (haK.mono Set.subset_union_right)) (ihs (ha.mono Set.subset_union_right))
  | zombie hK hsibs ihs =>
    rw [cover_cons] at ha
    exact .zombie (hK.congr (ha.mono Set.subset_union_left)) (ihs (ha.mono Set.subset_union_right))

/-- Waiting takes one zombie out, whose postcondition holds. -/
theorem Reap.ok {t : Nat → Int} {top : Bool} {f f' : Forest α} (h : Reap f f') {Ks : List Kid} (hok : ForestOk t top f Ks) :
    ∃ l K r, Ks = l ++ K :: r ∧ K.Holds t ∧ ForestOk t top f' (l ++ r) := by
  induction h generalizing Ks with
  | here =>
    cases hok with
    | zombie hK hsibs => exact ⟨[], _, _, rfl, hK, hsibs⟩
  | later h ih =>
    cases hok with
    | run hset hown hsep hwp hkids hsibs =>
      obtain ⟨l, K, r, rfl, hK, hok⟩ := ih hsibs
      exact ⟨_ :: l, K, r, rfl, hK, .run hset hown hsep hwp hkids hok⟩
    | zombie hK' hsibs =>
      obtain ⟨l, K, r, rfl, hK, hok⟩ := ih hsibs
      exact ⟨_ :: l, K, r, rfl, hK, .zombie hK' hok⟩

theorem cover_middle (l r : List Kid) (K : Kid) : cover (l ++ K :: r) = cover (l ++ r) ∪ K.set := by
  ext i
  simp only [cover, List.mem_append, List.mem_cons, Set.mem_ofPred_eq, Set.mem_union]
  constructor
  · rintro ⟨K', h | rfl | h, hi⟩
    · exact Or.inl ⟨K', Or.inl h, hi⟩
    · exact Or.inr hi
    · exact Or.inl ⟨K', Or.inr h, hi⟩
  · rintro (⟨K', h | h, hi⟩ | hi)
    · exact ⟨K', Or.inl h, hi⟩
    · exact ⟨K', Or.inr (Or.inr h), hi⟩
    · exact ⟨K, Or.inr (Or.inl rfl), hi⟩

/-- The range of one child is separate from those of the others. -/
theorem Separate.middle {l r : List Kid} {K : Kid} (h : Separate (l ++ K :: r)) :
    Separate (l ++ r) ∧ ∀ i ∈ K.set, i ∉ cover (l ++ r) := by
  unfold Separate at h ⊢
  rw [List.pairwise_append, List.pairwise_cons] at h
  obtain ⟨hl, ⟨hK, hr⟩, hlr⟩ := h
  refine ⟨List.pairwise_append.mpr ⟨hl, hr, fun A hA B hB => hlr A hA B (List.mem_cons_of_mem K hB)⟩, ?_⟩
  rintro i hi ⟨B, hB, hiB⟩
  rcases List.mem_append.mp hB with hB | hB
  · exact hlr B hB K List.mem_cons_self i hiB hi
  · exact hK B hB i hi hiB

/-- A range that is not covered by the others. -/
theorem Separate.tail {K : Kid} {Ks : List Kid} (h : Separate (K :: Ks)) : Separate Ks ∧ ∀ i ∈ K.set, i ∉ cover Ks :=
  Separate.middle (l := []) h

/-- A step of a well-formed forest leaves no orphan, changes cells of the ranges only, and keeps the forest well formed. -/
theorem FStep.ok {t t' : Nat → Int} {f f' orphans : Forest α} {path : List Nat} {a : Access}
    (h : FStep t f path a t' f' orphans) (hfork : a ≠ .forkFail) {top : Bool} {Ks : List Kid} (hok : ForestOk t top f Ks)
    (hsep : Separate Ks) :
    orphans = .nil ∧ ForestOk t' top f' Ks ∧ (∀ i, i ∉ cover Ks → t' i = t i) ∧ ∀ i, a.touches i → i ∈ cover Ks := by
  induction h generalizing top Ks with
  | read =>
    cases hok with
    | run hset hown hs hwp hkids hsibs =>
      refine ⟨rfl, .run hset hown hs hwp.2 hkids hsibs, fun _ _ => rfl, ?_⟩
      rintro i rfl
      rw [cover_cons, ← hset]
      exact Or.inl (Or.inl hwp.1)
  | @write i v k lo hi kids sibs =>
    cases hok with
    | @run _ _ own _ _ ks Ks' K hset hown hs hwp hkids hsibs =>
      have hiK : i ∈ K.set := hset ▸ Or.inl hwp.1
      have hne : ∀ j, j ≠ i → Function.update t i v j = t j := fun j hj => Function.update_of_ne hj _ _
      refine ⟨rfl, .run hset hown hs hwp.2 (hkids.congr fun j hj => hne j ?_) (hsibs.congr fun j hj => hne j ?_),
        fun j hj => hne j ?_, ?_⟩
      · rintro rfl
        exact hown _ hwp.1 hj
      · rintro rfl
        exact hsep.tail.2 _ hiK hj
      · rintro rfl
        exact hj (by rw [cover_cons]; exact Or.inl hiK)
      · rintro j rfl
        rw [cover_cons]
        exact Or.inl hiK
  | random n =>
    cases hok with
    | run hset hown hs hwp hkids hsibs =>
      exact ⟨rfl, .run hset hown hs (hwp n) hkids hsibs, fun _ _ => rfl, nofun⟩
  | @fork lo' hi' k lo hi kids sibs pid hpid =>
    cases hok with
    | @run _ _ own _ _ ks Ks' K hset hown hs hwp hkids hsibs =>
      obtain ⟨post, hsub, hchild, hparent⟩ := hwp
      have hC : Kid.set ⟨lo', hi', post⟩ = Set.Icc lo' hi' := rfl
      refine ⟨rfl, @ForestOk.run _ _ _ _ (own \ Set.Icc lo' hi') _ _ (⟨lo', hi', post⟩ :: ks) _ _ ?_ ?_ ?_ (hparent pid hpid) ?_ hsibs,
        fun _ _ => rfl, nofun⟩
      · rw [cover_cons, hC, ← Set.union_assoc, Set.sdiff_union_of_subset hsub]
        exact hset
      · rintro i ⟨hi, hni⟩ hc
        rw [cover_cons] at hc
        rcases hc with hc | hc
        · exact hni hc
        · exact hown i hi hc
      · exact List.pairwise_cons.mpr ⟨fun K' hK' i hi hi' => hown i (hsub hi) ⟨K', hK', hi'⟩, hs⟩
      · refine @ForestOk.run _ _ _ _ (Set.Icc lo' hi') _ _ [] _ ⟨lo', hi', post⟩ ?_ ?_ List.Pairwise.nil
          (wp_mono (fun r own h kids hd => ⟨fun _ => hd.1, hd.2⟩) hchild) .nil hkids
        · ext i
          simp [cover, Kid.set]
        · rintro i - ⟨K', hK', -⟩
          cases hK'
  | forkFail => exact absurd rfl hfork
  | wait hreap =>
    cases hok with
    | @run _ _ own _ _ ks Ks' K hset hown hs hwp hkids hsibs =>
      obtain ⟨l, C, r, rfl, hC, hkids'⟩ := hreap.ok hkids
      obtain ⟨hs', hCs⟩ := hs.middle
      rw [cover_middle] at hset hown
      refine ⟨rfl, @ForestOk.run _ _ _ _ (own ∪ C.set) _ _ (l ++ r) _ _ ?_ ?_ hs'
        (hwp.2 l C r rfl t (Agree.refl own t) (hC t (Agree.refl _ t))) hkids' hsibs, fun _ _ => rfl, nofun⟩
      · rw [← hset, Set.union_assoc, Set.union_comm C.set]
      · rintro i (hi | hi) hc
        · exact hown i hi (Or.inl hc)
        · exact hCs i hi hc
  | exit =>
    cases hok with
    | run hset hown hs hwp hkids hsibs =>
      obtain ⟨-, rfl, -, hK⟩ := hwp
      cases hkids
      exact ⟨rfl, .zombie hK hsibs, fun _ _ => rfl, nofun⟩
  | @kid c lo hi kids kids' sibs orphans path a t' hstep ih =>
    cases hok with
    | @run _ c own _ _ ks Ks' K hset hown hs hwp hkids hsibs =>
      obtain ⟨ho, hkids', hframe, htouch⟩ := ih hfork hkids hs
      have hsub : cover ks ⊆ K.set := hset ▸ Set.subset_union_right
      refine ⟨ho, .run hset hown hs (wp_congr (Kid.ended_stable top K) (fun i hi => hframe i (hown i hi)) hwp) hkids'
        (hsibs.congr fun i hi => hframe i fun hc => hsep.tail.2 i (hsub hc) hi), fun i hi => hframe i fun hc => hi ?_,
        fun i hi => ?_⟩
      · rw [cover_cons]
        exact Or.inl (hsub hc)
      · rw [cover_cons]
        exact Or.inl (hsub (htouch i hi))
    | zombie hK hsibs => cases hstep
  | @sib c lo hi kids sibs sibs' orphans j path a t' hstep ih =>
    cases hok with
    | @run _ c own _ _ ks Ks' K hset hown hs hwp hkids hsibs =>
      obtain ⟨ho, hsibs', hframe, htouch⟩ := ih hfork hsibs hsep.tail.1
      have hK : ∀ i ∈ K.set, t' i = t i := fun i hi => hframe i (hsep.tail.2 i hi)
      refine ⟨ho, .run hset hown hs (wp_congr (Kid.ended_stable top K) (fun i hi => hK i (hset ▸ Or.inl hi)) hwp)
        (hkids.congr fun i hi => hK i (hset ▸ Or.inr hi)) hsibs', fun i hi => hframe i fun hc => hi ?_, fun i hi => ?_⟩
      · rw [cover_cons]
        exact Or.inr hc
      · rw [cover_cons]
        exact Or.inr (htouch i hi)
    | @zombie _ _ Ks' K hKt hsibs =>
      obtain ⟨ho, hsibs', hframe, htouch⟩ := ih hfork hsibs hsep.tail.1
      refine ⟨ho, .zombie (hKt.congr fun i hi => hframe i (hsep.tail.2 i hi)) hsibs', fun i hi => hframe i fun hc => hi ?_,
        fun i hi => ?_⟩
      · rw [cover_cons]
        exact Or.inr hc
      · rw [cover_cons]
        exact Or.inr (htouch i hi)

/-- The cells that a step writes. -/
def Access.writes : Access → List Nat
  | .write i => [i]
  | _ => []

/-- A step of one process without children whose program cannot fork, and cannot exit: it writes only cells that it owns, and keeps its
weakest precondition. -/
theorem FStep.alone {t t' : Nat → Int} {c : Prog α} {lo hi : Nat} {f' orphans : Forest α} {path : List Nat} {a : Access}
    (h : FStep t (.node (some c) lo hi .nil .nil) path a t' f' orphans) {own : Set Nat} {Q : Post α}
    (hQ : ∀ own h kids, ¬ Q none own h kids) (hwp : wp c.noFork own t [] Q) :
    ∃ c', f' = .node (some c') lo hi .nil .nil ∧ orphans = .nil ∧ wp c'.noFork own t' [] Q ∧ ∀ i ∈ a.writes, i ∈ own := by
  cases h with
  | read => exact ⟨_, rfl, rfl, hwp.2, nofun⟩
  | write =>
    refine ⟨_, rfl, rfl, hwp.2, fun i hi => ?_⟩
    rw [List.mem_singleton.mp hi]
    exact hwp.1
  | random n => exact ⟨_, rfl, rfl, hwp n, nofun⟩
  | fork hpid => exact hwp.elim
  | forkFail => exact hwp.elim
  | wait hreap => cases hreap
  | exit => exact absurd hwp (hQ _ _ _)
  | kid hstep => cases hstep
  | sib hstep => cases hstep

/-- A process that has returned takes no step; its children and siblings may. -/
theorem FStep.returned {t t' : Nat → Int} {r : α} {lo hi : Nat} {kids sibs f' orphans : Forest α} {path : List Nat} {a : Access}
    (h : FStep t (.node (some (.ret r)) lo hi kids sibs) path a t' f' orphans) :
    ∃ kids' sibs', f' = .node (some (.ret r)) lo hi kids' sibs' ∧ ¬ (kids = .nil ∧ sibs = .nil) := by
  cases h with
  | kid hstep =>
    refine ⟨_, _, rfl, fun hnil => ?_⟩
    rw [hnil.1] at hstep
    cases hstep
  | sib hstep =>
    refine ⟨_, _, rfl, fun hnil => ?_⟩
    rw [hnil.2] at hstep
    cases hstep

/-- A process that waits is before its wait or behind it. -/
theorem FStep.waiting {t t' : Nat → Int} {k : Prog α} {lo hi : Nat} {kids sibs f' orphans : Forest α} {path : List Nat} {a : Access}
    (h : FStep t (.node (some (.wait k)) lo hi kids sibs) path a t' f' orphans) :
    ∃ c kids' sibs', f' = .node (some c) lo hi kids' sibs' ∧ (c = .wait k ∨ c = k) := by
  cases h with
  | wait => exact ⟨_, _, _, rfl, Or.inr rfl⟩
  | kid => exact ⟨_, _, _, rfl, Or.inl rfl⟩
  | sib => exact ⟨_, _, _, rfl, Or.inl rfl⟩

/-! ## Who touches what -/

/-- The range given to a process of a well-formed forest is one of the ranges of the forest. -/
theorem ForestOk.rangeAt_subset {t : Nat → Int} {top : Bool} {f : Forest α} {Ks : List Kid} (hok : ForestOk t top f Ks)
    (path : List Nat) {lo hi : Nat} (hr : f.rangeAt path = some (lo, hi)) : Set.Icc lo hi ⊆ cover Ks := by
  induction hok generalizing path with
  | nil => cases path <;> exact nomatch hr
  | @run top c own kids sibs ks Ks K hset hown hsep hwp hkids hsibs ihk ihs =>
    rw [cover_cons]
    match path, hr with
    | [0], hr =>
      obtain ⟨rfl, rfl⟩ : K.lo = lo ∧ K.hi = hi := by simpa [Forest.rangeAt] using hr
      exact Set.subset_union_left
    | 0 :: j :: rest, hr =>
      have hks := ihk (j :: rest) (by simpa [Forest.rangeAt] using hr)
      exact fun i hi => Or.inl (hset ▸ Or.inr (hks hi))
    | (j + 1) :: rest, hr => exact (ihs (j :: rest) hr).trans Set.subset_union_right
  | @zombie top sibs Ks K hK hsibs ihs =>
    rw [cover_cons]
    match path, hr with
    | [0], hr =>
      obtain ⟨rfl, rfl⟩ : K.lo = lo ∧ K.hi = hi := by simpa [Forest.rangeAt] using hr
      exact Set.subset_union_left
    | 0 :: j :: rest, hr => simp [Forest.rangeAt] at hr
    | (j + 1) :: rest, hr => exact (ihs (j :: rest) hr).trans Set.subset_union_right

/-- A process whose program touches a cell it owns: the only range with this cell is its own. -/
theorem ForestOk.only_own {t : Nat → Int} {top : Bool} {c : Prog α} {kids sibs : Forest α} {own : Set Nat} {ks Ks : List Kid}
    {K : Kid} (hset : own ∪ cover ks = K.set) (hown : ∀ i ∈ own, i ∉ cover ks) (hkids : ForestOk t false kids ks)
    (hsibs : ForestOk t top sibs Ks) (hsep : Separate (K :: Ks)) {i : Nat} (hi : i ∈ own) {path : List Nat} {lo hi' : Nat}
    (hr : (Forest.node (some c) K.lo K.hi kids sibs).rangeAt path = some (lo, hi')) (hlo : lo ≤ i) (hhi : i ≤ hi') :
    path = [0] := by
  match path, hr with
  | [0], _ => rfl
  | 0 :: j :: rest, hr =>
    have hks := hkids.rangeAt_subset (j :: rest) (by simpa [Forest.rangeAt] using hr)
    exact absurd (hks ⟨hlo, hhi⟩) (hown i hi)
  | (j + 1) :: rest, hr =>
    have hKs := hsibs.rangeAt_subset (j :: rest) hr
    exact absurd (hKs ⟨hlo, hhi⟩) (hsep.tail.2 i (hset ▸ Or.inl hi))

/-- A step that touches a cell of the range that was given to a process is a step of that process or of a descendant. -/
theorem FStep.exclusive {t t' : Nat → Int} {f f' orphans : Forest α} {path : List Nat} {a : Access}
    (h : FStep t f path a t' f' orphans) (hfork : a ≠ .forkFail) {top : Bool} {Ks : List Kid} (hok : ForestOk t top f Ks)
    (hsep : Separate Ks) {owner : List Nat} {lo hi i : Nat} (hr : f.rangeAt owner = some (lo, hi)) (hai : a.touches i)
    (hlo : lo ≤ i) (hhi : i ≤ hi) : owner <+: path := by
  induction h generalizing top Ks owner with
  | read =>
    obtain rfl := hai
    cases hok with
    | run hset hown hs hwp hkids hsibs =>
      obtain rfl := ForestOk.only_own hset hown hkids hsibs hsep hwp.1 hr hlo hhi
      exact List.prefix_rfl
  | write =>
    obtain rfl := hai
    cases hok with
    | run hset hown hs hwp hkids hsibs =>
      obtain rfl := ForestOk.only_own hset hown hkids hsibs hsep hwp.1 hr hlo hhi
      exact List.prefix_rfl
  | random | fork | forkFail | wait | exit => exact nomatch hai
  | @kid c lo' hi' kids kids' sibs orphans path a t' hstep ih =>
    cases hok with
    | @run _ c own _ _ ks Ks' K hset hown hs hwp hkids hsibs =>
      match owner, hr with
      | [0], _ => exact ⟨path, rfl⟩
      | 0 :: j :: rest, hr =>
        exact List.cons_prefix_cons.mpr ⟨rfl, ih hfork hkids hs (by simpa [Forest.rangeAt] using hr) hai⟩
      | (j + 1) :: rest, hr =>
        have hKs := hsibs.rangeAt_subset (j :: rest) hr
        have hiK : i ∈ K.set := hset ▸ Or.inr ((hstep.ok hfork hkids hs).2.2.2 i hai)
        exact absurd (hKs ⟨hlo, hhi⟩) (hsep.tail.2 i hiK)
    | zombie hK hsibs => cases hstep
  | @sib c lo' hi' kids sibs sibs' orphans j path a t' hstep ih =>
    -- the range of the first sibling and those of its descendants are within the first range
    have hfirst : ∀ {K Ks'}, Ks = K :: Ks' → ForestOk t top sibs Ks' → Set.Icc lo hi ⊆ K.set → False := by
      rintro K Ks' rfl hsibs hsub
      exact hsep.tail.2 i (hsub ⟨hlo, hhi⟩) ((hstep.ok hfork hsibs hsep.tail.1).2.2.2 i hai)
    cases hok with
    | @run _ c own _ _ ks Ks' K hset hown hs hwp hkids hsibs =>
      match owner, hr with
      | [0], hr =>
        obtain ⟨rfl, rfl⟩ : K.lo = lo ∧ K.hi = hi := by simpa [Forest.rangeAt] using hr
        exact (hfirst rfl hsibs le_rfl).elim
      | 0 :: j' :: rest, hr =>
        have hks := hkids.rangeAt_subset (j' :: rest) (by simpa [Forest.rangeAt] using hr)
        exact (hfirst rfl hsibs fun i hi => hset ▸ Or.inr (hks hi)).elim
      | (j' + 1) :: rest, hr =>
        obtain ⟨hj, hp⟩ := List.cons_prefix_cons.mp
          (ih hfork hsibs hsep.tail.1 (show sibs.rangeAt (j' :: rest) = some (lo, hi) from hr) hai)
        exact List.cons_prefix_cons.mpr ⟨by omega, hp⟩
    | @zombie _ _ Ks' K hK hsibs =>
      match owner, hr with
      | [0], hr =>
        obtain ⟨rfl, rfl⟩ : K.lo = lo ∧ K.hi = hi := by simpa [Forest.rangeAt] using hr
        exact (hfirst rfl hsibs le_rfl).elim
      | 0 :: j' :: rest, hr => simp [Forest.rangeAt] at hr
      | (j' + 1) :: rest, hr =>
        obtain ⟨hj, hp⟩ := List.cons_prefix_cons.mp
          (ih hfork hsibs hsep.tail.1 (show sibs.rangeAt (j' :: rest) = some (lo, hi) from hr) hai)
        exact List.cons_prefix_cons.mpr ⟨by omega, hp⟩

/-! ## Progress -/

/-- Every process of a list has ended: it has exited, or it is at the top and has returned. -/
inductive Ended : Bool → Forest α → Prop where
  | nil {top : Bool} : Ended top .nil
  | zombie {top : Bool} {lo hi : Nat} {kids sibs : Forest α} (h : Ended top sibs) : Ended top (.node none lo hi kids sibs)
  | ret {a : α} {lo hi : Nat} {kids sibs : Forest α} (h : Ended true sibs) : Ended true (.node (some (.ret a)) lo hi kids sibs)

/-- A well-formed forest whose processes have not all ended has a step in which no fork fails. -/
theorem ForestOk.progress {t : Nat → Int} {top : Bool} {f : Forest α} {Ks : List Kid} (hok : ForestOk t top f Ks) :
    Ended top f ∨ ∃ j path a t' f' orphans, FStep t f (j :: path) a t' f' orphans ∧ a ≠ .forkFail := by
  induction hok with
  | nil => exact Or.inl .nil
  | @run top c own kids sibs ks Ks K hset hown hsep hwp hkids hsibs ihk ihs =>
    cases c with
    | ret a =>
      cases top with
      | false => exact absurd (hwp.1 rfl) nofun
      | true =>
        rcases ihs with ihs | ⟨j, path, a', t', f', orphans, hst, ha⟩
        · exact Or.inl (.ret ihs)
        · exact Or.inr ⟨_, _, _, _, _, _, .sib hst, ha⟩
    | read i k => exact Or.inr ⟨_, _, _, _, _, _, .read, nofun⟩
    | write i v k => exact Or.inr ⟨_, _, _, _, _, _, .write, nofun⟩
    | random k => exact Or.inr ⟨_, _, _, _, _, _, .random 0, nofun⟩
    | fork lo hi k => exact Or.inr ⟨_, _, _, _, _, _, .fork Int.one_pos, nofun⟩
    | wait k =>
      -- there is a child; either it has exited or one of its descendants has a step
      rcases ihk with ihk | ⟨j, path, a', t', f', orphans, hst, ha⟩
      · cases hkids with
        | nil => exact absurd rfl hwp.1
        | run => cases ihk
        | zombie => exact Or.inr ⟨_, _, _, _, _, _, .wait .here, nofun⟩
      · exact Or.inr ⟨_, _, _, _, _, _, .kid hst, ha⟩
    | exit => exact Or.inr ⟨_, _, _, _, _, _, .exit, nofun⟩
    | stuck => exact hwp.elim
  | zombie hK hsibs ihs =>
    rcases ihs with ihs | ⟨j, path, a', t', f', orphans, hst, ha⟩
    · exact Or.inl (.zombie ihs)
    · exact Or.inr ⟨_, _, _, _, _, _, .sib hst, ha⟩

/-! ## Runs -/

/-- The runs in which every fork succeeds. -/
def forksSucceed (main : Prog α) (lo hi : Nat) (t : Nat → Int) : Sys (World α) (List Nat × Access) :=
  (processes main lo hi t).guard fun _ l => l.2 ≠ .forkFail

theorem Forest.append_nil (f : Forest α) : f.append .nil = f := by
  induction f with
  | nil => rfl
  | node c lo hi kids sibs ihk ihs => rw [Forest.append, ihs]

/-- Along every run the forest is well formed, if the first process satisfies its weakest precondition. -/
theorem processes_ok {main : Prog α} {t : Nat → Int} {K : Kid} (hwp : wp main K.set t [] (K.ended true)) :
    (forksSucceed main K.lo K.hi t).Inductive fun w => ForestOk w.table true w.procs [K] where
  start := by
    rintro w rfl
    refine @ForestOk.run _ _ _ _ K.set _ _ [] _ _ ?_ ?_ List.Pairwise.nil hwp .nil .nil
    · ext i
      simp [cover]
    · rintro i - ⟨K', hK', -⟩
      cases hK'
  keep := by
    rintro w l w' hok ⟨hfork, f', orphans, hstep, hw'⟩
    obtain ⟨rfl, hok', -, -⟩ := hstep.ok hfork hok (List.pairwise_singleton _ _)
    rw [hw', Forest.append_nil]
    exact hok'

/-- A run can go on until the processes at the top have ended. -/
theorem processes_progress {main : Prog α} {t : Nat → Int} {K : Kid} (hwp : wp main K.set t [] (K.ended true)) {w : World α}
    (hw : (forksSucceed main K.lo K.hi t).Reach w) :
    Ended true w.procs ∨ ∃ l w', (forksSucceed main K.lo K.hi t).step w l w' := by
  rcases ((processes_ok hwp).reach hw).progress with he | ⟨j, path, a, t', f', orphans, hstep, ha⟩
  · exact Or.inl he
  · exact Or.inr ⟨(j :: path, a), { table := t', procs := f'.append orphans }, ha, f', orphans, hstep, rfl⟩

/-- One process without children. -/
def World.alone (t : Nat → Int) (p : Prog α) (lo hi : Nat) : World α := { table := t, procs := .node (some p) lo hi .nil .nil }

/-- A first process that waits for a child and then returns is before the wait or has returned. -/
theorem path_of_waiting {main : Prog α} {lo hi lo' hi' : Nat} {t : Nat → Int} {r : α} {w w' : World α}
    (h : (forksSucceed main lo hi t).Path w w') (hw : ∃ kids sibs, w.procs = .node (some (.wait (.ret r))) lo' hi' kids sibs) :
    ∃ c kids sibs, w'.procs = .node (some c) lo' hi' kids sibs ∧ (c = .wait (.ret r) ∨ c = .ret r) := by
  induction h with
  | refl =>
    obtain ⟨kids, sibs, hw⟩ := hw
    exact ⟨_, kids, sibs, hw, Or.inl rfl⟩
  | tail _ hst ih =>
    obtain ⟨l, -, f', orphans, hstep, hprocs⟩ := hst
    obtain ⟨c, kids, sibs, hc, rfl | rfl⟩ := ih
    · rw [hc] at hstep
      obtain ⟨c', kids', sibs', rfl, hc'⟩ := FStep.waiting hstep
      exact ⟨c', _, _, hprocs, hc'⟩
    · rw [hc] at hstep
      obtain ⟨kids', sibs', rfl, -⟩ := FStep.returned hstep
      exact ⟨_, _, _, hprocs, Or.inr rfl⟩

end OsLabs
