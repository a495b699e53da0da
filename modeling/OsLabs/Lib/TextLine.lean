import OsLabs.Lib.ByteMem
import Mathlib.Data.List.Infix
import Mathlib.Data.List.TakeWhile

/-!
# Lines of bounded length

The functions that read a line into a buffer take the bytes up to the newline, but no more than there is room for: `splitLine n` is the
line and what follows it. Who reads from a stream has to wait until `WholeLine n`: a newline has arrived, or `n` bytes have. A line that
was split off is whole only at its last byte (`not_wholeLine_of_prefix`), so a reader that gets it in pieces takes all of it at once.
-/

namespace OsLabs

/-- `'\n'`. -/
def newline : Byte := 10

/-- The first line, of at most `n` bytes, and the rest. -/
def splitLine : Nat → List Byte → List Byte × List Byte
  | 0, l => ([], l)
  | _ + 1, [] => ([], [])
  | n + 1, b :: l => if b = newline then ([b], l) else ((b :: (splitLine n l).1), (splitLine n l).2)

/-- The bytes start with a whole line. -/
def WholeLine (n : Nat) (l : List Byte) : Prop := newline ∈ l.take n ∨ n ≤ l.length

instance (n : Nat) (l : List Byte) : Decidable (WholeLine n l) := inferInstanceAs (Decidable (_ ∨ _))

variable {n : Nat} {l p : List Byte}

/-- Nothing is lost. -/
theorem splitLine_append (n : Nat) (l : List Byte) : (splitLine n l).1 ++ (splitLine n l).2 = l := by
  induction n generalizing l with
  | zero => rfl
  | succ n ih =>
    cases l with
    | nil => rfl
    | cons b l =>
      rw [splitLine]
      split
      · rfl
      · rw [List.cons_append, ih l]

theorem length_splitLine_le (n : Nat) (l : List Byte) : (splitLine n l).1.length ≤ n := by
  induction n generalizing l with
  | zero => exact Nat.le_refl 0
  | succ n ih =>
    cases l with
    | nil => exact Nat.zero_le _
    | cons b l =>
      rw [splitLine]
      split
      · exact Nat.succ_le_succ (Nat.zero_le n)
      · exact Nat.succ_le_succ (ih l)

theorem splitLine_ne_nil (hn : 0 < n) (hl : l ≠ []) : (splitLine n l).1 ≠ [] := by
  obtain ⟨n, rfl⟩ : ∃ k, n = k + 1 := ⟨n - 1, by omega⟩
  obtain ⟨b, l, rfl⟩ := List.exists_cons_of_ne_nil hl
  rw [splitLine]
  split <;> exact List.cons_ne_nil _ _

@[simp] theorem splitLine_nil (n : Nat) : splitLine n [] = ([], []) := by
  cases n <;> rfl

theorem wholeLine_cons {b : Byte} (hb : b ≠ newline) : WholeLine (n + 1) (b :: l) ↔ WholeLine n l := by
  unfold WholeLine
  rw [List.take_succ_cons, List.mem_cons, List.length_cons, Nat.add_le_add_iff_right]
  simp [Ne.symm hb]

/-- A whole line that is split off is whole. -/
theorem wholeLine_splitLine : WholeLine n (splitLine n l).1 ↔ WholeLine n l := by
  induction n generalizing l with
  | zero => exact iff_of_true (Or.inr (Nat.zero_le _)) (Or.inr (Nat.zero_le _))
  | succ n ih =>
    cases l with
    | nil => rw [splitLine_nil]
    | cons b l =>
      rw [splitLine]
      split
      · next hb =>
        subst hb
        exact iff_of_true (Or.inl (by simp)) (Or.inl (by simp))
      · next hb =>
        show WholeLine (n + 1) (b :: (splitLine n l).1) ↔ _
        rw [wholeLine_cons hb, wholeLine_cons hb, ih]

/-- A line has no line behind it. -/
theorem splitLine_splitLine (n : Nat) (l : List Byte) : splitLine n (splitLine n l).1 = ((splitLine n l).1, []) := by
  induction n generalizing l with
  | zero => rfl
  | succ n ih =>
    cases l with
    | nil => rw [splitLine_nil, splitLine_nil]
    | cons b l =>
      rw [splitLine]
      split
      · next hb => rw [splitLine, if_pos hb]
      · next hb =>
        show splitLine (n + 1) (b :: (splitLine n l).1) = _
        rw [splitLine, if_neg hb, ih l]

/-- A newline in a line is its end. -/
theorem splitLine_newline (h : newline ∈ (splitLine n l).1) : ∃ p, (splitLine n l).1 = p ++ [newline] := by
  induction n generalizing l with
  | zero => exact absurd h List.not_mem_nil
  | succ n ih =>
    cases l with
    | nil => exact absurd h List.not_mem_nil
    | cons b l =>
      rw [splitLine] at h ⊢
      split
      · next hb => exact ⟨[], by rw [hb]; rfl⟩
      · next hb =>
        rw [if_neg hb] at h
        obtain ⟨p, hp⟩ := ih ((List.mem_cons.mp h).resolve_left (Ne.symm hb))
        exact ⟨b :: p, by rw [hp]; rfl⟩

/-- A part of a line is not whole. -/
theorem not_wholeLine_of_prefix (h : p <+: (splitLine n l).1) (hne : p ≠ (splitLine n l).1) : ¬ WholeLine n p := by
  induction n generalizing l p with
  | zero => exact absurd (List.prefix_nil.mp h) hne
  | succ n ih =>
    cases l with
    | nil =>
      rw [splitLine_nil] at h hne
      exact absurd (List.prefix_nil.mp h) hne
    | cons b l =>
      cases p with
      | nil => simp [WholeLine]
      | cons c p =>
        rw [splitLine] at h hne
        split at h
        · next hb =>
          rw [if_pos hb] at hne
          obtain ⟨rfl, hp⟩ := List.cons_prefix_cons.mp h
          rw [List.prefix_nil.mp hp] at hne
          exact absurd rfl hne
        · next hb =>
          rw [if_neg hb] at hne
          obtain ⟨rfl, hp⟩ := List.cons_prefix_cons.mp h
          rw [wholeLine_cons hb]
          exact ih hp fun e => hne (by rw [e])

/-! ## The last line -/

/-- The length of what follows the last newline. -/
def tailLength (l : List Byte) : Nat := (l.reverse.takeWhile fun b => b ≠ newline).length

theorem tailLength_of_notMem (h : newline ∉ l) : tailLength l = l.length := by
  have hall : l.reverse.takeWhile (fun b => decide (b ≠ newline)) = l.reverse := by
    rw [List.takeWhile_eq_self_iff]
    intro b hb
    have hne : b ≠ newline := fun e => h (e ▸ List.mem_reverse.mp hb)
    simpa using hne
  rw [tailLength, hall, List.length_reverse]

/-- What follows the last newline does not depend on what is before it. -/
theorem tailLength_append (p l : List Byte) :
    tailLength (p ++ l) = if newline ∈ l then tailLength l else l.length + tailLength p := by
  unfold tailLength
  rw [List.reverse_append, List.takeWhile_append]
  by_cases h : newline ∈ l
  · have hlen : (l.reverse.takeWhile fun b => decide (b ≠ newline)).length ≠ l.reverse.length := by
      intro he
      have hself := (List.takeWhile_prefix fun b => decide (b ≠ newline)).eq_of_length he
      simpa using List.takeWhile_eq_self_iff.mp hself newline (List.mem_reverse.mpr h)
    rw [if_neg hlen, if_pos h]
  · have hlen := tailLength_of_notMem h
    unfold tailLength at hlen
    rw [if_pos (by rw [hlen, List.length_reverse]), if_neg h, List.length_append, List.length_reverse]

/-- A whole line leaves a multiple of its bound, nothing or everything. -/
theorem tailLength_splitLine (h : WholeLine n l) : tailLength (splitLine n l).1 % n = 0 := by
  by_cases hnl : newline ∈ (splitLine n l).1
  · obtain ⟨p, hp⟩ := splitLine_newline hnl
    rw [hp, tailLength_append, if_pos List.mem_cons_self]
    exact Nat.zero_mod n
  · have hle := length_splitLine_le n l
    have hge : n ≤ (splitLine n l).1.length :=
      (wholeLine_splitLine.mpr h).resolve_left fun hm => hnl (List.mem_of_mem_take hm)
    rw [tailLength_of_notMem hnl, Nat.le_antisymm hle hge, Nat.mod_self]

end OsLabs
