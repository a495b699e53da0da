import Mathlib.Data.List.Basic

/-!
# Descriptor tables

The descriptor table of a process: the numbers from 0 on, each free or the descriptor of a file. A new descriptor gets the lowest free
number (`FdTable.lowest`), `close` frees one, and `fork` copies the table.
-/

namespace OsLabs

/-- A descriptor table over the files `φ`. All numbers from its length on are free. -/
abbrev FdTable (φ : Type) := List (Option φ)

namespace FdTable

variable {φ : Type} {t : FdTable φ} {f : φ} {n : Nat}

/-- What a number is the descriptor of. -/
def file (t : FdTable φ) (n : Nat) : Option φ := t[n]?.join

/-- The lowest free number. -/
def lowest : FdTable φ → Nat
  | [] => 0
  | none :: _ => 0
  | some _ :: t => lowest t + 1

/-- A new descriptor of `f`, under the lowest free number. -/
def add (f : φ) : FdTable φ → FdTable φ
  | [] => [some f]
  | none :: t => some f :: t
  | some g :: t => some g :: add f t

/-- The number is free again. -/
def close (t : FdTable φ) (n : Nat) : FdTable φ := t.set n none

/-- The number is a descriptor of `f` now, whatever it was: the target of `dup2`. -/
def put (t : FdTable φ) (n : Nat) (f : φ) : FdTable φ := (t ++ List.replicate (n + 1 - t.length) none).set n (some f)

/-- The table that is left after `exec`, which closes some descriptors. -/
def exec (keep : φ → Bool) (t : FdTable φ) : FdTable φ := t.map (Option.filter keep)

/-- The lowest free number is free. -/
theorem file_lowest (t : FdTable φ) : t.file t.lowest = none := by
  induction t with
  | nil => rfl
  | cons g t ih =>
    cases g with
    | none => rfl
    | some g => exact ih

/-- A new descriptor is the only change. -/
theorem file_add (f : φ) (t : FdTable φ) (n : Nat) : (t.add f).file n = if n = t.lowest then some f else t.file n := by
  induction t generalizing n with
  | nil =>
    cases n with
    | zero => rfl
    | succ n => rfl
  | cons g t ih =>
    cases g with
    | none =>
      cases n with
      | zero => rfl
      | succ n => rfl
    | some g =>
      cases n with
      | zero => rfl
      | succ n =>
        show file (add f t) n = if n + 1 = lowest t + 1 then some f else file t n
        rw [ih n]
        simp only [Nat.add_right_cancel_iff]

/-- A closed number is free, and the others are what they were. -/
theorem file_close (t : FdTable φ) (n m : Nat) : (t.close m).file n = if n = m then none else t.file n := by
  unfold close file
  rw [List.getElem?_set]
  by_cases hnm : n = m
  · subst hnm
    by_cases hlt : n < t.length
    · simp [hlt]
    · simp [hlt]
  · simp [hnm, Ne.symm hnm]

/-- A descriptor that is put in place is the only change. -/
theorem file_put (t : FdTable φ) (n : Nat) (f : φ) (m : Nat) : (t.put n f).file m = if m = n then some f else t.file m := by
  unfold put file
  by_cases hmn : m = n
  · subst hmn
    have hlen : m < (t ++ List.replicate (m + 1 - t.length) (none : Option φ)).length := by
      rw [List.length_append, List.length_replicate]
      omega
    rw [List.getElem?_set_self hlen, if_pos rfl]
    rfl
  · rw [List.getElem?_set_ne (Ne.symm hmn), if_neg hmn]
    by_cases hm : m < t.length
    · rw [List.getElem?_append_left hm]
    · rw [List.getElem?_append_right (by omega), List.getElem?_replicate, List.getElem?_eq_none (l := t) (by omega)]
      split <;> rfl

/-- What is kept is what it was. -/
theorem file_exec (keep : φ → Bool) (t : FdTable φ) (n : Nat) : (t.exec keep).file n = (t.file n).filter keep := by
  unfold exec file
  rw [List.getElem?_map]
  cases t[n]? <;> rfl

/-- Some number is a descriptor of `f`. -/
def Holds (t : FdTable φ) (f : φ) : Prop := ∃ n, t.file n = some f

/-- The files that are open are those in the list. -/
theorem holds_iff_mem : t.Holds f ↔ some f ∈ t := by
  unfold Holds file
  rw [List.mem_iff_getElem?]
  refine exists_congr fun n => ?_
  rw [Option.join_eq_some_iff]

end FdTable

end OsLabs
