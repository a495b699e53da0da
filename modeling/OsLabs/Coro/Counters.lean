import OsLabs.Coro.Filter
import Mathlib.Algebra.Order.Ring.Nat

/-!
# The counters of the filter (`coro.c`)

`func_1` counts a word where whitespace follows a byte that it passed on, and one more at the end if the last byte that it read is no
whitespace. It does not pass on whitespace at the start or after whitespace. Of each byte that it passes on `func_2` counts it as removed
or `func_3` counts it as printed.

When there was no input at all, the last byte read is the 0 with which `ch` was initialised. It counts as the end of a word. And a counter
is an `int`, so that it cannot tell of `2 ^ 31` words or bytes. Otherwise the counters are right (`counted_iff`).
-/

namespace OsLabs.Coro

/-! ## What is counted -/

/-- The maximal runs of bytes that are no whitespace. -/
def wordsOf (input : List Byte) : List (List Byte) := (input.splitOnP fun b => isspace b.toInt).filter (· ≠ [])

/-- How many whitespace bytes of a text come right after a whitespace byte, `prev` being the byte before the text. -/
def spacesAfter (prev : Byte) (input : List Byte) : Nat :=
  ((prev :: input).zip input).countP fun (a, b) => isspace a.toInt && isspace b.toInt

/-- How many whitespace bytes stand at the start of the input or right after another one: what is before the input counts as whitespace. -/
def skippedSpaces (input : List Byte) : Nat := spacesAfter 32 input

/-- The coroutines are done and have printed their counters, and these are right. -/
def Counted (input : List Byte) (m : Machine Func World) : Prop :=
  m.control = .dispatcher nothing ∧ ∃ words removed printed, m.world.stderr = [.words words, .removed removed, .printed printed] ∧
    words.toInt = (wordsOf input).length ∧ removed.toInt + printed.toInt = (input.length - skippedSpaces input : Nat)

/-- The letters of the input. -/
def lettersOf (input : List Byte) : List Byte := input.filter isLetter

/-- No more words, letters and other bytes passed on than an `int` can tell. -/
def FitsInt (input : List Byte) : Prop :=
  (wordsOf input).length < 2 ^ 31 ∧ (lettersOf input).length < 2 ^ 31 ∧
    input.length - skippedSpaces input - (lettersOf input).length < 2 ^ 31

/-! ## Counting with an `int` -/

/-- An `int` that counts is right below `2 ^ 31`, and too small from there on. -/
theorem toInt_count (n : Nat) : (BitVec.ofNat 32 n).toInt ≤ n ∧ ((BitVec.ofNat 32 n).toInt = n ↔ n < 2 ^ 31) := by
  rw [show (BitVec.ofNat 32 n).toInt = ((n : Int)).bmod (2 ^ 32) from BitVec.toInt_ofNat .., Int.bmod_def]
  constructor
  · split <;> omega
  · split <;> omega

theorem count_one (a : CInt) (n : Nat) : a + 1 + .ofNat 32 n = a + .ofNat 32 (n + 1) := by
  rw [BitVec.ofNat_add, BitVec.add_assoc, BitVec.add_comm (1 : CInt)]
  rfl

/-- Two counters have the right sum only if both are right. -/
theorem toInt_counts (m n : Nat) :
    (BitVec.ofNat 32 m).toInt + (BitVec.ofNat 32 n).toInt = (m + n : Nat) ↔ m < 2 ^ 31 ∧ n < 2 ^ 31 := by
  obtain ⟨h1, h2⟩ := toInt_count m
  obtain ⟨h3, h4⟩ := toInt_count n
  rw [← h2, ← h4]
  omega

/-! ## Reading byte by byte -/

/-- The words that end in the rest of the input, or at its end; `inWord` if the byte before was no whitespace. -/
def wordEnds (inWord : Bool) : List Byte → Nat
  | [] => if inWord then 1 else 0
  | b :: input =>
    if isspace b.toInt then (if inWord then 1 else 0) + wordEnds false input
    else wordEnds true input

/-- The bytes that are passed on of the rest of the input, `prev` being the byte before. -/
def passedOn (prev : Byte) : List Byte → Nat
  | [] => 0
  | b :: input => (if isspace prev.toInt ∧ isspace b.toInt then 0 else 1) + passedOn b input

/-- The bytes that are passed on and are no letters. -/
def othersOn (prev : Byte) : List Byte → Nat
  | [] => 0
  | b :: input => (if isspace prev.toInt ∧ isspace b.toInt ∨ isLetter b then 0 else 1) + othersOn b input

/-- Each word ends once. The first piece between whitespace is a word if it is not empty, or if it goes on with a word that has begun. -/
theorem wordEnds_eq (input : List Byte) :
    wordEnds false input = (wordsOf input).length ∧
      wordEnds true input = 1 + ((input.splitOnP fun b => isspace b.toInt).tail.filter (· ≠ [])).length := by
  induction input with
  | nil => exact ⟨rfl, rfl⟩
  | cons b input ih =>
    rw [wordsOf] at ih ⊢
    rw [wordEnds, wordEnds, List.splitOnP_cons_eq_if_modifyHead]
    by_cases hb : isspace b.toInt
    · rw [if_pos hb, if_pos hb, if_pos hb, ih.1]
      exact ⟨by simp, rfl⟩
    · rw [if_neg hb, if_neg hb, if_neg hb, ih.2]
      obtain ⟨first, more, hsplit⟩ := List.exists_cons_of_ne_nil (List.splitOnP_ne_nil (fun b : Byte => isspace b.toInt) input)
      rw [hsplit]
      simp [Nat.add_comm]

/-- The bytes that are not passed on are the whitespace after whitespace. -/
theorem passedOn_add (prev : Byte) (input : List Byte) : passedOn prev input + spacesAfter prev input = input.length := by
  induction input generalizing prev with
  | nil => rfl
  | cons b input ih =>
    have h := ih b
    have hcount : spacesAfter prev (b :: input) = spacesAfter b input + if isspace prev.toInt && isspace b.toInt then 1 else 0 := by
      rw [spacesAfter, List.zip_cons_cons, List.countP_cons]
      rfl
    rw [passedOn, hcount, List.length_cons]
    by_cases hskip : isspace prev.toInt ∧ isspace b.toInt
    · rw [if_pos hskip, if_pos (by simpa using hskip)]
      omega
    · rw [if_neg hskip, if_neg (by simpa using hskip)]
      omega

theorem isSpace_of_isLetter : ∀ b : Byte, isLetter b → isspace b.toInt = false := by
  decide +kernel

/-- Every letter is passed on. -/
theorem othersOn_add (prev : Byte) (input : List Byte) : othersOn prev input + (lettersOf input).length = passedOn prev input := by
  induction input generalizing prev with
  | nil => rfl
  | cons b input ih =>
    have h := ih b
    rw [lettersOf] at h ⊢
    rw [othersOn, passedOn, List.filter_cons]
    by_cases hl : isLetter b
    · have hs := isSpace_of_isLetter b hl
      rw [if_pos (Or.inr hl), if_pos hl, if_neg (by simp [hs]), List.length_cons]
      omega
    · rw [if_neg hl]
      by_cases hskip : isspace prev.toInt ∧ isspace b.toInt
      · rw [if_pos (Or.inl hskip), if_pos hskip]
        omega
      · rw [if_neg (by simpa [hl] using hskip), if_neg hskip]
        omega

/-! ## The run -/

/-- The run from a place in `func_1` that goes on with `func1Loop`, by induction on the rest of the input. `prevCh` and `ch` are both
whitespace or neither: a byte that is skipped only changes `ch`, from whitespace to whitespace. -/
theorem runs_counting (input : List Byte) (hff : (0xFF : Byte) ∉ input) {f : Func} {words : CInt} {prevCh ch : Byte}
    (hsync : isspace prevCh.toInt = isspace ch.toInt) (removed printed : CInt) (v : Int) (w : World)
    (hbody : body f v w = func1Loop words prevCh ch w input) :
    ∃ k, ((step body)^[k] (atCo 0 f removed printed v w)).control = .dispatcher nothing ∧
      ((step body)^[k] (atCo 0 f removed printed v w)).world.stderr =
        w.stderr ++ [.words (words + .ofNat 32 (wordEnds (!isspace ch.toInt) input)),
          .removed (removed + .ofNat 32 (othersOn ch input)), .printed (printed + .ofNat 32 (lettersOf input).length)] := by
  induction input generalizing f words prevCh ch removed printed v w with
  | nil =>
    rw [func1Loop] at hbody
    obtain ⟨h1, -, -, -, h5⟩ := round_end removed printed hbody (Or.inl rfl)
    refine ⟨3, h1, ?_⟩
    rw [h5, wordEnds]
    by_cases hc : isspace ch.toInt
    · simp [hc, othersOn, lettersOf]
    · simp [hc, othersOn, lettersOf]
  | cons b rest ih =>
    rw [List.mem_cons, not_or] at hff
    rw [func1Loop] at hbody
    by_cases hskip : isspace ch.toInt ∧ isspace b.toInt
    · -- the byte is skipped
      rw [if_pos hskip.2, if_pos (hsync.trans hskip.1)] at hbody
      obtain ⟨k, h1, h2⟩ := ih hff.2 (hsync.trans (hskip.1.trans hskip.2.symm)) removed printed v w hbody
      have hl : isLetter b = false := by
        by_contra hl
        rw [isSpace_of_isLetter b (by simpa using hl)] at hskip
        exact absurd hskip.2 (by decide)
      refine ⟨k, h1, ?_⟩
      rw [h2, wordEnds, if_pos hskip.2, othersOn, if_pos (Or.inl hskip), lettersOf, lettersOf, List.filter_cons, hl, hskip.1, hskip.2]
      simp
    · -- the byte is passed on, and a word ends if it is whitespace
      have hyield : body f v w = (.yield b.toInt (.func1Yield (if isspace b.toInt then words + 1 else words) prevCh b),
          { w with stdin := rest }) := by
        rw [hbody]
        by_cases hb : isspace b.toInt
        · rw [if_pos hb, if_neg (by rw [hsync]; exact fun h => hskip ⟨h, hb⟩), if_pos hb]
        · rw [if_neg hb, if_neg hb]
      have hround := round_byte removed printed hyield (Ne.symm hff.1)
      have hnext : body (.func1Yield (if isspace b.toInt then words + 1 else words) prevCh b) nothing
          { w with stdin := rest, stdout := w.stdout ++ swappedLetters [b] } =
            func1Loop (if isspace b.toInt then words + 1 else words) b b
              { w with stdin := rest, stdout := w.stdout ++ swappedLetters [b] } rest := rfl
      obtain ⟨k, h1, h2⟩ := ih hff.2 rfl (if isLetter b then removed else removed + 1) (if isLetter b then printed + 1 else printed)
        nothing _ hnext
      refine ⟨k + 3, ?_, ?_⟩
      · rw [Function.iterate_add_apply, hround]
        exact h1
      · rw [Function.iterate_add_apply, hround, h2, wordEnds, othersOn, lettersOf, lettersOf, List.filter_cons]
        have hwords : (if isspace b.toInt then words + 1 else words) + .ofNat 32 (wordEnds (!isspace b.toInt) rest) =
            words + .ofNat 32 (if isspace b.toInt then (if !isspace ch.toInt then 1 else 0) + wordEnds false rest
              else wordEnds true rest) := by
          by_cases hb : isspace b.toInt
          · have hc : isspace ch.toInt = false := Bool.eq_false_iff.mpr fun h => hskip ⟨h, hb⟩
            simp [hb, hc, BitVec.ofNat_add, BitVec.add_assoc]
          · simp [hb]
        rw [hwords]
        by_cases hl : isLetter b
        · rw [if_pos hl, if_pos hl, if_pos (Or.inr hl), if_pos hl, count_one, Nat.zero_add, List.length_cons]
        · have hother : ¬ (isspace ch.toInt ∧ isspace b.toInt ∨ isLetter b) := fun h => h.elim hskip hl
          rw [if_neg hl, if_neg hl, if_neg hother, if_neg hl, count_one, Nat.add_comm 1 (othersOn b rest)]

/-- On an input that is not empty the value with which `ch` is initialised does not matter. -/
theorem main_prints {input : List Byte} (hff : (0xFF : Byte) ∉ input) (hne : input ≠ []) :
    ∃ k, ((step body)^[k] (main input)).control = .dispatcher nothing ∧ ((step body)^[k] (main input)).world.stderr =
      [.words (.ofNat 32 (wordsOf input).length), .removed (.ofNat 32 (othersOn 32 input)),
        .printed (.ofNat 32 (lettersOf input).length)] := by
  have hbody : body .func1 nothing { stdin := input, stdout := [], stderr := [] } =
      func1Loop 0 32 32 { stdin := input, stdout := [], stderr := [] } input := by
    obtain ⟨b, rest, rfl⟩ := List.exists_cons_of_ne_nil hne
    rfl
  obtain ⟨k, h1, h2⟩ := runs_counting input hff rfl 0 0 nothing _ hbody
  rw [main_eq]
  refine ⟨k, h1, ?_⟩
  have hspace : (!isspace (32 : Byte).toInt) = false := rfl
  rw [h2, hspace, (wordEnds_eq input).1]
  simp

/-- On no input one word is counted. -/
theorem main_empty : ¬ ∃ n, Counted [] ((step body)^[n] (main [])) := by
  have hend : ((step body)^[3] (main [])).control = .dispatcher nothing ∧
      ((step body)^[3] (main [])).world.stderr = [.words 1, .removed 0, .printed 0] := by
    rw [main_eq]
    exact ⟨rfl, rfl⟩
  rintro ⟨n, hback, words, removed, printed, hout, hwords, -⟩
  rw [dispatcher_unique hback hend.1, hend.2] at hout
  obtain ⟨rfl, -, -⟩ : 1 = words ∧ 0 = removed ∧ 0 = printed := by simpa using hout
  exact absurd hwords (by decide)

/-- On an input without `0xFF` the counters are right exactly if it is not empty and has no more words, letters and other bytes than an
`int` can tell. -/
theorem counted_iff (input : List Byte) (hff : (0xFF : Byte) ∉ input) :
    (∃ n, Counted input ((step body)^[n] (main input))) ↔ input ≠ [] ∧ FitsInt input := by
  by_cases hne : input = []
  · subst hne
    exact ⟨fun h => absurd h main_empty, fun h => absurd rfl h.1⟩
  obtain ⟨k, hback, hout⟩ := main_prints hff hne
  have hpassed := passedOn_add 32 input
  have hothers := othersOn_add 32 input
  have hsum : input.length - skippedSpaces input = othersOn 32 input + (lettersOf input).length := by
    rw [skippedSpaces]
    omega
  have hrest : input.length - skippedSpaces input - (lettersOf input).length = othersOn 32 input := by omega
  rw [FitsInt, hrest]
  constructor
  · rintro ⟨n, hback', words, removed, printed, hout', hwords, hbytes⟩
    rw [dispatcher_unique hback' hback, hout] at hout'
    obtain ⟨rfl, rfl, rfl⟩ : _ = words ∧ _ = removed ∧ _ = printed := by simpa using hout'
    rw [hsum] at hbytes
    obtain ⟨h1, h2⟩ := (toInt_counts _ _).mp hbytes
    exact ⟨hne, (toInt_count _).2.mp hwords, h2, h1⟩
  · rintro ⟨-, h1, h2, h3⟩
    refine ⟨k, hback, _, _, _, hout, (toInt_count _).2.mpr h1, ?_⟩
    rw [hsum]
    exact (toInt_counts _ _).mpr ⟨h3, h2⟩

/-- The witness: two words and a space too many. -/
theorem counted_iff_words : (∃ n, Counted [97, 32, 32, 98] ((step body)^[n] (main [97, 32, 32, 98]))) ↔
    ([97, 32, 32, 98] : List Byte) ≠ [] ∧ FitsInt [97, 32, 32, 98] :=
  counted_iff [97, 32, 32, 98] (by decide)

/-- The empty input has no word. -/
theorem empty_has_a_word : ¬ ∀ input : List Byte, (0xFF : Byte) ∉ input → ∃ n, Counted input ((step body)^[n] (main input)) := by
  intro h
  exact main_empty (h [] (by decide))

end OsLabs.Coro
