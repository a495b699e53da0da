import OsLabs.Lib.Interleaving
import Mathlib.Data.Int.Order.Basic

/-!
# `Merge` of `mergesort.c`

`Merge` reads two streams of numbers and writes one. A stream is the list of the numbers that can be read from it before its end;
`Read` and `Write` move one `int` at a time and do not fail. The variables `left` and `right` are read one number ahead: they keep
their last value when their stream has ended, and `has_left` and `has_right` say which of them still counts.

`merge_interleaves` is the result: the loop ends, and what it writes is an interleaving of the two streams, sorted if they are.
-/

namespace OsLabs.MergeSort

/-- The descriptors of a call of `Merge`: what is still to be read from `left_fd` and `right_fd`, and what is written to
`parent_fd`. -/
@[ext] structure Fds where
  left : List Int
  right : List Int
  parent : List Int

/-- `MaybeReadNum`: its result, the rest of the stream, and the number at `num_p`. -/
def maybeReadNum (fd : List Int) (num : Int) : Bool × List Int × Int :=
  match fd with
  | [] => (false, [], num)
  | n :: fd => (true, fd, n)

/-- `ReadNum`: the number and the rest of the stream. -/
def readNum (fd : List Int) : Except String (Int × List Int) :=
  match fd with
  | [] => .error "ReadNum error"
  | n :: fd => .ok (n, fd)

/-- `WriteNum`. -/
def writeNum (fd : List Int) (num : Int) : List Int := fd ++ [num]

/-- The variables of `Merge`. -/
structure Merging where
  hasLeft : Bool
  hasRight : Bool
  left : Int
  right : Int
  fds : Fds

/-- The condition in the loop: the next number comes from the left. -/
def Merging.takesLeft (m : Merging) : Bool :=
  if m.hasLeft && m.hasRight then decide (m.left < m.right) else m.hasLeft

/-- The body of the loop. -/
def Merging.body (m : Merging) : Merging :=
  if m.takesLeft then
    let (hasLeft, leftFd, left) := maybeReadNum m.fds.left m.left
    { m with
      hasLeft := hasLeft
      left := left
      fds := { m.fds with left := leftFd, parent := writeNum m.fds.parent m.left } }
  else
    let (hasRight, rightFd, right) := maybeReadNum m.fds.right m.right
    { m with
      hasRight := hasRight
      right := right
      fds := { m.fds with right := rightFd, parent := writeNum m.fds.parent m.right } }

/-- The loop, which tests its condition after its body; `none` if `fuel` runs out. -/
def mergeLoop : Nat → Merging → Option Merging
  | 0, _ => none
  | fuel + 1, m => if m.body.hasLeft || m.body.hasRight then mergeLoop fuel m.body else some m.body

/-- `Merge`. -/
def merge (fuel : Nat) (fds : Fds) : Except String (Option Fds) := do
  let (left, leftFd) ← readNum fds.left
  let (right, rightFd) ← readNum fds.right
  return (mergeLoop fuel ⟨true, true, left, right, { fds with left := leftFd, right := rightFd }⟩).map (·.fds)

/-! ## What is still to be written -/

/-- The numbers still to come on one side: the one read ahead, if it counts, and the rest of its stream. -/
def ahead (has : Bool) (num : Int) (fd : List Int) : List Int := if has then num :: fd else []

/-- What is still to come from the left. -/
def Merging.pendingLeft (m : Merging) : List Int := ahead m.hasLeft m.left m.fds.left

/-- What is still to come from the right. -/
def Merging.pendingRight (m : Merging) : List Int := ahead m.hasRight m.right m.fds.right

/-- A side that does not count any more has nothing left in its stream. -/
structure Merging.Drained (m : Merging) : Prop where
  left : m.hasLeft = false → m.fds.left = []
  right : m.hasRight = false → m.fds.right = []

/-- Reading on moves the numbers of the stream to the variable, or finds that there are none. -/
theorem ahead_maybeReadNum (fd : List Int) (num : Int) :
    ahead (maybeReadNum fd num).1 (maybeReadNum fd num).2.2 (maybeReadNum fd num).2.1 = fd := by
  cases fd with
  | nil => rfl
  | cons n fd => rfl

theorem maybeReadNum_eof {fd : List Int} {num : Int} (h : (maybeReadNum fd num).1 = false) :
    (maybeReadNum fd num).2.1 = [] := by
  cases fd with
  | nil => rfl
  | cons n fd => exact absurd h (by simp [maybeReadNum])

/-- The left is only taken while it counts. -/
theorem Merging.takesLeft_has {m : Merging} (h : m.takesLeft = true) : m.hasLeft = true := by
  unfold Merging.takesLeft at h
  split at h
  next hb =>
    rw [Bool.and_eq_true] at hb
    exact hb.1
  next => exact h

/-- The right is taken while it counts, in a loop that goes on. -/
theorem Merging.takesRight_has {m : Merging} (h : m.takesLeft = false) (hm : m.hasLeft = true ∨ m.hasRight = true) :
    m.hasRight = true := by
  unfold Merging.takesLeft at h
  split at h
  next hb =>
    rw [Bool.and_eq_true] at hb
    exact hb.2
  next => exact hm.resolve_left (by rw [h]; decide)

/-- The number that the body writes is not above the first one of the other side. -/
theorem Merging.takesLeft_lt {m : Merging} (h : m.takesLeft = true) (hr : m.hasRight = true) : m.left < m.right := by
  have hl := takesLeft_has h
  simpa [Merging.takesLeft, hl, hr] using h

theorem Merging.takesRight_le {m : Merging} (h : m.takesLeft = false) (hl : m.hasLeft = true)
    (hm : m.hasLeft = true ∨ m.hasRight = true) : m.right ≤ m.left := by
  have hr := takesRight_has h hm
  simpa [Merging.takesLeft, hl, hr] using h

/-- One iteration moves the first pending number of one side to the output, and it is a number not above the first pending one of
the other. -/
theorem Merging.body_cases {m : Merging} (hd : m.Drained) (hm : m.hasLeft = true ∨ m.hasRight = true) :
    m.body.Drained ∧
      ((m.pendingLeft = m.left :: m.body.pendingLeft ∧ m.body.pendingRight = m.pendingRight ∧
          m.body.fds.parent = m.fds.parent ++ [m.left] ∧ ∀ n ∈ m.pendingRight.head?, m.left ≤ n) ∨
        (m.pendingRight = m.right :: m.body.pendingRight ∧ m.body.pendingLeft = m.pendingLeft ∧
          m.body.fds.parent = m.fds.parent ++ [m.right] ∧ ∀ n ∈ m.pendingLeft.head?, m.right ≤ n)) := by
  cases ht : m.takesLeft with
  | true =>
    have hl := takesLeft_has ht
    simp only [Merging.body, ht, if_true, Merging.pendingLeft, Merging.pendingRight, ahead_maybeReadNum]
    refine ⟨⟨maybeReadNum_eof, hd.right⟩, .inl ⟨by simp [ahead, hl], trivial, rfl, fun n hn => ?_⟩⟩
    cases hr : m.hasRight with
    | true =>
      rw [hr] at hn
      cases hn
      exact Int.le_of_lt (takesLeft_lt ht hr)
    | false =>
      rw [hr] at hn
      cases hn
  | false =>
    have hr := takesRight_has ht hm
    simp only [Merging.body, ht, Bool.false_eq_true, if_false, Merging.pendingLeft, Merging.pendingRight,
      ahead_maybeReadNum]
    refine ⟨⟨hd.left, maybeReadNum_eof⟩, .inr ⟨by simp [ahead, hr], trivial, rfl, fun n hn => ?_⟩⟩
    cases hl : m.hasLeft with
    | true =>
      rw [hl] at hn
      cases hn
      exact takesRight_le ht hl hm
    | false =>
      rw [hl] at hn
      cases hn

/-! ## The loop -/

/-- What a loop that starts in `m` does: it ends, both streams are read to their ends, and what it adds to the output interleaves
what was pending. -/
structure Merged (m m' : Merging) (out : List Int) : Prop where
  fds : m'.fds = ⟨[], [], m.fds.parent ++ out⟩
  interleaves : Interleaving m.pendingLeft m.pendingRight out
  sorted : m.pendingLeft.Pairwise (· ≤ ·) → m.pendingRight.Pairwise (· ≤ ·) → out.Pairwise (· ≤ ·)

/-- A number not above the first one of a sorted list is not above any of them. -/
theorem le_of_head {n : Int} {xs : List Int} (hs : xs.Pairwise (· ≤ ·)) (hn : ∀ a ∈ xs.head?, n ≤ a) : ∀ a ∈ xs, n ≤ a := by
  cases xs with
  | nil => simp
  | cons x xs =>
    intro a ha
    have hx : n ≤ x := hn x rfl
    rcases List.mem_cons.mp ha with rfl | ha
    · exact hx
    · exact Int.le_trans hx ((List.pairwise_cons.mp hs).1 a ha)

/-- One iteration before a loop: what the rest of the run adds comes after the number written by the body. -/
theorem Merged.body {m m' : Merging} {out : List Int} (hd : m.Drained) (hm : m.hasLeft = true ∨ m.hasRight = true)
    (h : Merged m.body m' out) : ∃ out, Merged m m' out := by
  obtain ⟨-, ⟨hl, hr, hp, hh⟩ | ⟨hr, hl, hp, hh⟩⟩ := Merging.body_cases hd hm
  · refine ⟨m.left :: out, by rw [h.fds, hp, List.append_assoc]; rfl, ?_, fun sl sr => ?_⟩
    · rw [hl, ← hr]
      exact .left _ h.interleaves
    · have hle := le_of_head sr hh
      rw [hl, List.pairwise_cons] at sl
      rw [← hr] at sr hle
      exact h.interleaves.sorted_cons (h.sorted sl.2 sr) sl.1 hle
  · refine ⟨m.right :: out, by rw [h.fds, hp, List.append_assoc]; rfl, ?_, fun sl sr => ?_⟩
    · rw [hr, ← hl]
      exact .right _ h.interleaves
    · have hle := le_of_head sl hh
      rw [hr, List.pairwise_cons] at sr
      rw [← hl] at sl hle
      exact h.interleaves.sorted_cons (h.sorted sl sr.2) hle sr.1

/-- A state in which neither side counts has nothing pending. -/
theorem Merged.done {m : Merging} (hd : m.Drained) (hl : m.hasLeft = false) (hr : m.hasRight = false) : Merged m m [] where
  fds := Fds.ext (hd.left hl) (hd.right hr) (List.append_nil _).symm
  interleaves := by
    simp only [Merging.pendingLeft, Merging.pendingRight, ahead, hl, hr]
    exact .nil
  sorted _ _ := .nil

/-- The loop ends within as many iterations as numbers are pending, by induction on these. -/
theorem mergeLoop_merged (fuel : Nat) (m : Merging) (hd : m.Drained) (hm : m.hasLeft = true ∨ m.hasRight = true)
    (hf : m.pendingLeft.length + m.pendingRight.length ≤ fuel) : ∃ m' out, mergeLoop fuel m = some m' ∧ Merged m m' out := by
  induction fuel generalizing m with
  | zero =>
    rcases hm with hm | hm
    · simp [Merging.pendingLeft, ahead, hm] at hf
    · simp [Merging.pendingRight, ahead, hm] at hf
  | succ fuel ih =>
    obtain ⟨hd', hc⟩ := Merging.body_cases hd hm
    have hlen : m.body.pendingLeft.length + m.body.pendingRight.length ≤ fuel := by
      rcases hc with ⟨hl, hr, -, -⟩ | ⟨hr, hl, -, -⟩
      · rw [hl, ← hr, List.length_cons] at hf
        omega
      · rw [hr, ← hl, List.length_cons] at hf
        omega
    simp only [mergeLoop]
    split
    next hgo =>
      rw [Bool.or_eq_true] at hgo
      obtain ⟨m', out, he, hout⟩ := ih m.body hd' hgo hlen
      obtain ⟨out', hout'⟩ := hout.body hd hm
      exact ⟨m', out', he, hout'⟩
    next hstop =>
      rw [Bool.or_eq_true, not_or, Bool.not_eq_true, Bool.not_eq_true] at hstop
      obtain ⟨out', hout'⟩ := (Merged.done hd' hstop.1 hstop.2).body hd hm
      exact ⟨m.body, out', rfl, hout'⟩

/-- `Merge` ends: it reads both streams to their ends and appends to the output an interleaving of the two, which is sorted if both
are. -/
theorem merge_interleaves (fds : Fds) (hl : fds.left ≠ []) (hr : fds.right ≠ []) (fuel : Nat)
    (hf : fds.left.length + fds.right.length ≤ fuel) :
    ∃ out, merge fuel fds = .ok (some ⟨[], [], fds.parent ++ out⟩) ∧ Interleaving fds.left fds.right out ∧
      fds.left.Sublist out ∧ fds.right.Sublist out ∧ out.length = fds.left.length + fds.right.length ∧
      (fds.left.Pairwise (· ≤ ·) → fds.right.Pairwise (· ≤ ·) → out.Pairwise (· ≤ ·)) := by
  obtain ⟨left, right, parent⟩ := fds
  obtain ⟨l, ls, rfl⟩ := List.exists_cons_of_ne_nil hl
  obtain ⟨r, rs, rfl⟩ := List.exists_cons_of_ne_nil hr
  have hd : Merging.Drained ⟨true, true, l, r, ls, rs, parent⟩ := ⟨fun h => Bool.noConfusion h, fun h => Bool.noConfusion h⟩
  obtain ⟨m', out, he, hm⟩ := mergeLoop_merged fuel _ hd (.inl rfl) hf
  refine ⟨out, ?_, hm.interleaves, hm.interleaves.sublist_left, hm.interleaves.sublist_right, hm.interleaves.length, hm.sorted⟩
  show Except.ok ((mergeLoop fuel _).map (·.fds)) = _
  rw [he, Option.map_some, hm.fds]

/-- Two sorted streams of which the left ends first. -/
theorem merge_interleaves_two :
    ∃ out, merge 5 ⟨[1, 4], [2, 4, 7], []⟩ = .ok (some ⟨[], [], out⟩) ∧ Interleaving [1, 4] [2, 4, 7] out := by
  obtain ⟨out, h, hi, -⟩ := merge_interleaves ⟨[1, 4], [2, 4, 7], []⟩ (by decide) (by decide) 5 (by decide)
  exact ⟨out, h, hi⟩

end OsLabs.MergeSort
