import OsLabs.Sieve.Model

/-!
# Numbers one on a line

`text xs` is what `printf` was given for the numbers `xs`, and `onLines p cs` counts the lines of `cs` that are the number `p`. A write
to `stdout` can end within a line, where the buffer was full, so what comes next continues that line; the second line of a write is a
line of the output wherever the write comes (`countP_le_second`).
-/

namespace OsLabs.Sieve

/-- The lines of some numbers. -/
def text (xs : List Nat) : List Char := xs.flatMap line

/-- How many lines are the number `p`. -/
def onLines (p : Nat) (cs : List Char) : Nat := (cs.splitOn '\n').count (Nat.toDigits 10 p)

theorem text_append (xs ys : List Nat) : text (xs ++ ys) = text xs ++ text ys := List.flatMap_append

theorem text_snoc (xs : List Nat) (n : Nat) : text (xs ++ [n]) = text xs ++ line n := by
  rw [text_append]
  simp [text]

/-- A beginning of the numbers is a beginning of the lines. -/
theorem text_mono {xs ys : List Nat} (h : xs <+: ys) : text xs <+: text ys := by
  obtain ⟨zs, rfl⟩ := h
  rw [text_append]
  exact List.prefix_append _ _

/-- No line is empty. -/
theorem text_ne_nil {xs : List Nat} (h : xs ≠ []) : text xs ≠ [] := by
  obtain ⟨n, ys, rfl⟩ := List.exists_cons_of_ne_nil h
  simp [text, line]

/-- The digits of a number have no newline. -/
theorem newline_notMem_digits (n : Nat) : '\n' ∉ Nat.toDigits 10 n := by
  intro h
  have := Nat.isDigit_of_mem_toDigits (by decide) (by decide) h
  revert this
  decide

/-- Different numbers have different digits. -/
theorem digits_inj {m n : Nat} : Nat.toDigits 10 m = Nat.toDigits 10 n ↔ m = n := by
  constructor
  · intro h
    have := congrArg (fun cs => Nat.ofDigitChars 10 cs 0) h
    simpa using this
  · intro h
    rw [h]

variable (p : Nat)

/-- A newline ends a line. -/
theorem onLines_newline (a b : List Char) : onLines p (a ++ '\n' :: b) = onLines p a + onLines p b := by
  unfold onLines
  rw [List.splitOn_append_cons_self, List.count_append]

theorem onLines_nil : onLines p [] = 0 := by
  simp [onLines, Ne.symm Nat.toDigits_ne_nil]

/-- The line of one number. -/
theorem onLines_digits (n : Nat) : onLines p (Nat.toDigits 10 n) = if n = p then 1 else 0 := by
  unfold onLines
  rw [List.splitOn_eq_singleton (newline_notMem_digits n), List.count_singleton]
  simp [digits_inj]

/-- A line and what follows. -/
theorem onLines_line (n : Nat) (cs : List Char) : onLines p (line n ++ cs) = (if n = p then 1 else 0) + onLines p cs := by
  unfold line
  rw [List.append_assoc, List.singleton_append, onLines_newline, onLines_digits]

/-- Some lines and what follows. -/
theorem onLines_text (xs : List Nat) (cs : List Char) : onLines p (text xs ++ cs) = xs.count p + onLines p cs := by
  induction xs with
  | nil => simp [text]
  | cons n xs ih =>
    have hcons : text (n :: xs) ++ cs = line n ++ (text xs ++ cs) := by simp [text]
    rw [hcons, onLines_line, ih, List.count_cons]
    by_cases h : n = p
    · simp [h]
      omega
    · simp [h]

/-! ## Writes that begin alike -/

/-- Every write of whole lines that begins with `p` has a line `p`. -/
theorem countP_le_first {cs : List (List Char)} (h : ∀ c ∈ cs, ∃ xs, c = text xs) :
    cs.countP (fun c => decide (text [p] <+: c)) ≤ onLines p cs.flatten := by
  induction cs with
  | nil => simp
  | cons c cs ih =>
    obtain ⟨xs, hxs⟩ := h c List.mem_cons_self
    have ih := ih fun d hd => h d (List.mem_cons_of_mem _ hd)
    rw [List.flatten_cons, List.countP_cons]
    by_cases hp : text [p] <+: c
    · have hone : 1 ≤ xs.count p := by
        obtain ⟨r, hr⟩ := hp
        have hxs' := onLines_text p xs []
        rw [List.append_nil, ← hxs, ← hr, onLines_text, onLines_nil] at hxs'
        simp at hxs'
        omega
      rw [if_pos (by simpa using hp), hxs, onLines_text]
      omega
    · rw [if_neg (by simpa using hp), hxs, onLines_text]
      omega

/-- Every write that begins with `q` and `p` has a line `p`, whatever was written before. -/
theorem countP_le_second (q : Nat) (cs : List (List Char)) (pre : List Char) :
    cs.countP (fun c => decide (text [q, p] <+: c)) ≤ onLines p (pre ++ cs.flatten) := by
  induction cs generalizing pre with
  | nil => simp
  | cons c cs ih =>
    rw [List.flatten_cons, List.countP_cons]
    by_cases hp : text [q, p] <+: c
    · obtain ⟨r, hr⟩ := hp
      have hc : pre ++ (c ++ cs.flatten) = (pre ++ Nat.toDigits 10 q) ++ '\n' :: (line p ++ (r ++ cs.flatten)) := by
        rw [← hr]
        simp [text, line]
      have ih := ih r
      rw [if_pos (by simp [← hr]), hc, onLines_newline, onLines_line, if_pos rfl]
      omega
    · have ih := ih (pre ++ c)
      rw [List.append_assoc] at ih
      rw [if_neg (by simpa using hp)]
      omega

end OsLabs.Sieve
