import OsLabs.Lib.ByteMem

/-!
# C strings

A string is read through a pointer, the bytes from an address on. The functions of `<string.h>` with a bound `n` look at the bytes
up to the first zero byte and at no more than `n`; `cstr n` is the list of these bytes. `strncmp` compares these lists, and what
`strncpy` stores has the list of its source.

Memory that ends is the list of the bytes from a pointer to its end (`Buf`), and a function that reads past it has no value. Where
the memory holds the terminating zero byte of a string, the functions with a bound read nothing past it, and have the value that they
have on the string alone.
-/

namespace OsLabs

/-- A pointer to bytes: the byte at each offset. -/
abbrev Ptr : Type := Nat → Byte

namespace Ptr

/-- The pointer one byte further. -/
def next (s : Ptr) : Ptr := fun j => s (j + 1)

/-- The bytes before the first zero byte, at most `n`. -/
def cstr (s : Ptr) : Nat → List Byte
  | 0 => []
  | n + 1 => if s 0 = 0 then [] else s 0 :: s.next.cstr n

/-- `strnlen`. -/
def strnlen (s : Ptr) : Nat → Nat
  | 0 => 0
  | n + 1 => if s 0 = 0 then 0 else s.next.strnlen n + 1

/-- `strncmp`. -/
def strncmp (s t : Ptr) : Nat → Int
  | 0 => 0
  | n + 1 =>
    if s 0 ≠ t 0 then (s 0).toNat - (t 0).toNat
    else if s 0 = 0 then 0
    else s.next.strncmp t.next n

/-- The `n` bytes that `strncpy` stores: the string, filled up with zero bytes. -/
def strncpy (s : Ptr) : Nat → List Byte
  | 0 => []
  | n + 1 => if s 0 = 0 then List.replicate (n + 1) 0 else s 0 :: s.next.strncpy n

/-- The pointer to a string literal. -/
def ofList (l : List Byte) : Ptr := fun j => l.getD j 0

@[simp] theorem ofList_zero (b : Byte) (l : List Byte) : ofList (b :: l) 0 = b := rfl

@[simp] theorem ofList_next (b : Byte) (l : List Byte) : (ofList (b :: l)).next = ofList l := rfl

/-- The string as the list of its bytes. -/
theorem map_strnlen (s : Ptr) (n : Nat) : (List.range (s.strnlen n)).map s = s.cstr n := by
  induction n generalizing s with
  | zero => rfl
  | succ n ih =>
    rw [strnlen, cstr]
    split
    · rfl
    · rw [List.range_succ_eq_map, List.map_cons, List.map_map, ← ih s.next]
      rfl

/-- `strncmp` says that two strings are equal exactly when they have the same bytes. -/
theorem strncmp_eq_zero (s t : Ptr) (n : Nat) : s.strncmp t n = 0 ↔ s.cstr n = t.cstr n := by
  induction n generalizing s t with
  | zero => simp [strncmp, cstr]
  | succ n ih =>
    rw [strncmp, cstr, cstr]
    by_cases hne : s 0 = t 0
    · rw [if_neg (by simpa using hne), ← hne]
      by_cases hz : s 0 = 0
      · simp [hz]
      · rw [if_neg hz, if_neg hz, if_neg hz, ih]
        simp
    · rw [if_pos hne]
      have hnat : (s 0).toNat ≠ (t 0).toNat := fun h => hne (BitVec.eq_of_toNat_eq h)
      constructor
      · intro h
        omega
      · intro h
        exfalso
        revert h
        split <;> split <;> simp_all

/-- The string is empty exactly when it starts with a zero byte. -/
theorem cstr_eq_nil (s : Ptr) (n : Nat) : s.cstr (n + 1) = [] ↔ s 0 = 0 := by
  rw [cstr]
  split <;> simp_all

/-- A string only depends on its bytes. -/
theorem cstr_congr {s t : Ptr} {n : Nat} (h : ∀ j, j < n → s j = t j) : s.cstr n = t.cstr n := by
  induction n generalizing s t with
  | zero => rfl
  | succ n ih =>
    rw [cstr, cstr, h 0 (by omega), ih (s := s.next) (t := t.next) fun j hj => h (j + 1) (by omega)]

/-- What the first `j` byte stores of `strncpy` leave in zero bytes reads back as the first `j` bytes of the string. -/
theorem cstr_stored (s t : Ptr) (n j : Nat) (h : ∀ x, x < n → t x = if x < j then (s.strncpy n).getD x 0 else 0) :
    t.cstr n = (s.cstr n).take j := by
  induction n generalizing s t j with
  | zero => simp [cstr]
  | succ n ih =>
    have h0 := h 0 (by omega)
    cases j with
    | zero =>
      rw [cstr, if_pos (by simpa using h0), List.take_zero]
    | succ j =>
      rw [if_pos (by omega), strncpy] at h0
      rw [cstr, cstr]
      by_cases hz : s 0 = 0
      · rw [if_pos hz, List.replicate_succ, List.getD_cons_zero] at h0
        rw [if_pos h0, if_pos hz, List.take_nil]
      · rw [if_neg hz, List.getD_cons_zero] at h0
        rw [h0, if_neg hz, if_neg hz, List.take_succ_cons, ih s.next t.next j fun x hx => ?_]
        have hx' := h (x + 1) (by omega)
        rw [strncpy, if_neg hz, List.getD_cons_succ] at hx'
        simp only [Nat.add_lt_add_iff_right] at hx'
        exact hx'

/-- A bounded read is bounded. -/
theorem length_cstr_le (s : Ptr) (n : Nat) : (s.cstr n).length ≤ n := by
  induction n generalizing s with
  | zero => exact Nat.le_refl 0
  | succ n ih =>
    rw [cstr]
    split
    · exact Nat.zero_le _
    · exact Nat.succ_le_succ (ih s.next)

/-- What `strncpy` stored reads back as the string: all its bytes are stored. -/
theorem cstr_strncpy (s t : Ptr) (n : Nat) (h : ∀ j, j < n → t j = (s.strncpy n).getD j 0) : t.cstr n = s.cstr n := by
  rw [cstr_stored s t n n fun j hj => by rw [if_pos hj, h j hj], List.take_of_length_le (length_cstr_le s n)]

/-- A string with its terminating zero byte within the bound. -/
theorem cstr_terminated {l : List Byte} {s : Ptr} {n : Nat} (h0 : (0 : Byte) ∉ l) (hn : l.length < n)
    (hs : ∀ j (h : j < l.length), s j = l[j]) (hz : s l.length = 0) : s.cstr n = l := by
  induction l generalizing s n with
  | nil =>
    cases n with
    | zero => rfl
    | succ n => exact if_pos hz
  | cons b l ih =>
    cases n with
    | zero => exact absurd hn (Nat.not_lt_zero _)
    | succ n =>
      rw [List.mem_cons, not_or] at h0
      have hb : s 0 = b := hs 0 (Nat.succ_pos _)
      have hnext : s.next.cstr n = l :=
        ih h0.2 (Nat.lt_of_succ_lt_succ hn) (fun j hj => hs (j + 1) (Nat.succ_lt_succ hj)) hz
      rw [cstr, hb, if_neg (Ne.symm h0.1), hnext]

/-- A literal without zero bytes reads as its first `n` bytes. -/
theorem cstr_ofList {l : List Byte} (h : (0 : Byte) ∉ l) (n : Nat) : (ofList l).cstr n = l.take n := by
  induction n generalizing l with
  | zero => simp [cstr]
  | succ n ih =>
    cases l with
    | nil => simp [cstr, ofList]
    | cons b l =>
      rw [List.mem_cons, not_or] at h
      rw [cstr, ofList_zero, ofList_next, if_neg (Ne.symm h.1), List.take_succ_cons, ih h.2]

end Ptr

/-- The bytes from a pointer to the end of the memory it points into. -/
abbrev Buf : Type := List Byte

namespace Buf

/-- `strnlen`, without a value when it reads past the end. -/
def strnlen : Buf → Nat → Option Nat
  | _, 0 => some 0
  | [], _ + 1 => none
  | b :: buf, n + 1 => if b = 0 then some 0 else (strnlen buf n).map (· + 1)

/-- `strncmp`, with a string in memory that does not end. -/
def strncmp : Buf → Ptr → Nat → Option Int
  | _, _, 0 => some 0
  | [], _, _ + 1 => none
  | b :: buf, t, n + 1 =>
    if b ≠ t 0 then some (b.toNat - (t 0).toNat)
    else if b = 0 then some 0
    else strncmp buf t.next n

/-- The `n` bytes that `strncpy` stores. -/
def strncpy : Buf → Nat → Option (List Byte)
  | _, 0 => some []
  | [], _ + 1 => none
  | b :: buf, n + 1 => if b = 0 then some (List.replicate (n + 1) 0) else (strncpy buf n).map (b :: ·)

theorem strnlen_terminated (l : List Byte) (r : Buf) (n : Nat) :
    strnlen (l ++ 0 :: r) n = some ((Ptr.ofList l).strnlen n) := by
  induction n generalizing l with
  | zero => cases l <;> rfl
  | succ n ih =>
    cases l with
    | nil => rfl
    | cons b l =>
      rw [List.cons_append, strnlen, ih l, Ptr.strnlen, Ptr.ofList_zero, Ptr.ofList_next]
      split <;> rfl

/-- The bytes that `strnlen` counts are those of the string. -/
theorem take_strnlen (l : List Byte) (r : Buf) (n : Nat) : (l ++ 0 :: r).take ((Ptr.ofList l).strnlen n) = (Ptr.ofList l).cstr n := by
  induction n generalizing l with
  | zero => exact List.take_zero
  | succ n ih =>
    cases l with
    | nil => rfl
    | cons b l =>
      rw [Ptr.strnlen, Ptr.cstr, Ptr.ofList_zero, Ptr.ofList_next]
      split
      · exact List.take_zero
      · rw [List.cons_append, List.take_succ_cons, ih l]

theorem strncmp_terminated (l : List Byte) (r : Buf) (t : Ptr) (n : Nat) :
    strncmp (l ++ 0 :: r) t n = some ((Ptr.ofList l).strncmp t n) := by
  induction n generalizing l t with
  | zero => cases l <;> rfl
  | succ n ih =>
    cases l with
    | nil =>
      rw [List.nil_append, strncmp, Ptr.strncmp, show (Ptr.ofList []) 0 = 0 from rfl, if_pos rfl, if_pos rfl]
      split <;> rfl
    | cons b l =>
      rw [List.cons_append, strncmp, ih l, Ptr.strncmp, Ptr.ofList_zero, Ptr.ofList_next]
      split
      · rfl
      · split <;> rfl

theorem strncpy_terminated (l : List Byte) (r : Buf) (n : Nat) :
    strncpy (l ++ 0 :: r) n = some ((Ptr.ofList l).strncpy n) := by
  induction n generalizing l with
  | zero => cases l <;> rfl
  | succ n ih =>
    cases l with
    | nil => rfl
    | cons b l =>
      rw [List.cons_append, strncpy, ih l, Ptr.strncpy, Ptr.ofList_zero, Ptr.ofList_next]
      split <;> rfl

end Buf

end OsLabs
