import OsLabs.Coro.Sched
import Mathlib.Tactic.SplitIfs

/-!
# The filter of `coro.c`

`func_1`, `func_2` and `func_3` as coroutines. A byte of the input is a `char`, so the value that `func_1` yields is signed. The
input goes through the filter up to the first byte `0xFF`, whose value is `EOF`; the rest is never read.
-/

namespace OsLabs.Coro

/-! ## The coroutines -/

/-- A `char`, which is signed. -/
abbrev Byte := BitVec 8

/-- An `int`, which wraps round. -/
abbrev CInt := BitVec 32

def isspace (c : Int) : Bool := c == 32 || 9 ≤ c && c ≤ 13

def isupper (c : Int) : Bool := 65 ≤ c && c ≤ 90

def islower (c : Int) : Bool := 97 ≤ c && c ≤ 122

def isalpha (c : Int) : Bool := isupper c || islower c

def toupper (c : Int) : Int := if islower c then c - 32 else c

def tolower (c : Int) : Int := if isupper c then c + 32 else c

/-- The counters that the coroutines print when they return. -/
inductive Report where
  | words (n : CInt)
  | removed (n : CInt)
  | printed (n : CInt)
  deriving DecidableEq

/-- The input not yet read, the output, and the counters printed. -/
structure World where
  stdin : List Byte
  stdout : List Byte
  stderr : List Report

/-- Where a coroutine is: at the start of `func_1`, in its `coro_yield`, or at the test of the loop of `func_2` or `func_3`, which
comes next after their start as well. -/
inductive Func where
  | func1
  | func1Yield (words : CInt) (prevCh ch : Byte)
  | func2 (removed : CInt)
  | func3 (printed : CInt)

instance : Inhabited Func := ⟨.func1⟩

/-- The loop of `func_1` on the rest of the input. -/
def func1Loop (words : CInt) (prevCh ch : Byte) (w : World) : List Byte → Outcome Func × World
  | [] =>
    let words := if !isspace ch.toInt then words + 1 else words
    (.done, { w with stdin := [], stderr := w.stderr ++ [.words words] })
  | ch :: rest =>
    if isspace ch.toInt then
      if isspace prevCh.toInt then func1Loop words prevCh ch w rest
      else (.yield ch.toInt (.func1Yield (words + 1) prevCh ch), { w with stdin := rest })
    else (.yield ch.toInt (.func1Yield words prevCh ch), { w with stdin := rest })

/-- The loop of `func_2`. -/
def func2Loop (removed : CInt) (ch : Int) (w : World) : Outcome Func × World :=
  if ch ≠ eof then
    if !isalpha ch then (.yield nothing (.func2 (removed + 1)), w) else (.yield ch (.func2 removed), w)
  else (.done, { w with stderr := w.stderr ++ [.removed removed] })

/-- The loop of `func_3`. `Write` takes the low byte of `ch`. -/
def func3Loop (printed : CInt) (ch : Int) (w : World) : Outcome Func × World :=
  if ch ≠ eof then
    if ch ≠ nothing then
      let ch := if islower ch then toupper ch else if isupper ch then tolower ch else ch
      (.yield nothing (.func3 (printed + 1)), { w with stdout := w.stdout ++ [BitVec.ofInt 8 ch] })
    else (.yield nothing (.func3 printed), w)
  else (.done, { w with stderr := w.stderr ++ [.printed printed] })

/-- The three coroutines, from where they are to the next switch. -/
def body : Func → Int → World → Outcome Func × World
  | .func1, _, w => func1Loop 0 32 0 w w.stdin
  | .func1Yield words _ ch, _, w => func1Loop words ch ch w w.stdin
  | .func2 removed, v, w => func2Loop removed v w
  | .func3 printed, v, w => func3Loop printed v w

/-- `main`, to the entry of the first coroutine. -/
def main (input : List Byte) : Machine Func World :=
  let m : Machine Func World := .init { stdin := input, stdout := [], stderr := [] }
  coroRun (coroAdd (coroAdd (coroAdd m 0 .func1) 1 (.func2 0)) 2 (.func3 0)) nothing

/-! ## What the filter is for -/

/-- An ASCII letter. -/
def isLetter (b : Byte) : Bool := 65 ≤ b.toNat && b.toNat ≤ 90 || 97 ≤ b.toNat && b.toNat ≤ 122

/-- The other case of a letter. -/
def swapCase (b : Byte) : Byte := if b.toNat ≤ 90 then b + 32 else b - 32

/-- The letters of a text in their other case. -/
def swappedLetters (input : List Byte) : List Byte := (input.filter isLetter).map swapCase

/-- The coroutines have done their work and control is back in `main`. -/
structure Filtered (input : List Byte) (m : Machine Func World) : Prop where
  back : m.control = .dispatcher nothing
  queue : m.runqueue = []
  consumed : m.world.stdin = []
  output : m.world.stdout = swappedLetters input

/-! ## One byte through the three coroutines -/

/-- The contexts of the coroutines. -/
def ctxs (f1 f2 f3 : Func) : Nat → Func
  | 0 => f1
  | 1 => f2
  | 2 => f3
  | _ => default

theorem update_ctxs (f1 f2 f3 g : Func) :
    Function.update (ctxs f1 f2 f3) 0 g = ctxs g f2 f3 ∧ Function.update (ctxs f1 f2 f3) 1 g = ctxs f1 g f3 ∧
      Function.update (ctxs f1 f2 f3) 2 g = ctxs f1 f2 g := by
  refine ⟨?_, ?_, ?_⟩ <;> funext i <;> rcases i with - | - | - | i <;> rfl

/-- The coroutine `i` of the three is entered. -/
def atCo (i : Nat) (f1 : Func) (removed printed : CInt) (v : Int) (w : World) : Machine Func World where
  runqueue := [0, 1, 2]
  running := i
  coCtx := ctxs f1 (.func2 removed) (.func3 printed)
  control := .enter v
  world := w

theorem main_eq (input : List Byte) :
    main input = atCo 0 .func1 0 0 nothing { stdin := input, stdout := [], stderr := [] } := by
  have hctx : Function.update (Function.update (Function.update (fun _ => default) 0 .func1) 1 (.func2 0)) 2 (.func3 0) =
      ctxs .func1 (.func2 0) (.func3 0) := by
    funext i
    rcases i with - | - | - | i <;> rfl
  unfold main atCo
  rw [← hctx]
  rfl

section Round

variable {f1 f1' : Func} {removed printed : CInt} {u v : Int} {w w' : World}

/-- A coroutine yields something else than `EOF`: the next one is entered, the first after the last. -/
theorem coroSwitch_atCo {i : Nat} (hi : i < 3) (hv : v ≠ eof) (u : Int) :
    coroSwitch (atCo i f1 removed printed u w) v = atCo ((i + 1) % 3) f1 removed printed (longjmp v) w := by
  rw [coroSwitch, if_neg hv, if_neg fun h => hv h.1]
  match i, hi with
  | 0, _ => rfl
  | 1, _ => rfl
  | 2, _ => rfl

theorem step_func1 (hbody : body f1 v w = (.yield u f1', w')) (hu : u ≠ eof) :
    step body (atCo 0 f1 removed printed v w) = atCo 1 f1' removed printed (longjmp u) w' := by
  rw [step_yield (m := atCo 0 f1 removed printed v w) rfl hbody]
  change coroSwitch { atCo 0 f1 removed printed v w with coCtx := Function.update (ctxs f1 _ _) 0 f1', world := w' } u = _
  rw [(update_ctxs _ _ _ _).1]
  exact coroSwitch_atCo (i := 0) (by omega) hu v

/-- `func_2` lets a letter pass, and counts everything else. -/
theorem step_func2 (f1 : Func) (removed printed : CInt) (w : World) (hv : v ≠ eof) : step body (atCo 1 f1 removed printed v w) =
    atCo 2 f1 (if isalpha v then removed else removed + 1) printed (if isalpha v then longjmp v else nothing) w := by
  by_cases ha : isalpha v
  · have hbody : body (.func2 removed) v w = (.yield v (.func2 removed), w) := by
      rw [body, func2Loop, if_pos hv, if_neg (by simpa using ha)]
    rw [step_yield (m := atCo 1 f1 removed printed v w) rfl hbody, if_pos ha, if_pos ha]
    change coroSwitch { atCo 1 f1 removed printed v w with coCtx := Function.update (ctxs f1 _ _) 1 _ } v = _
    rw [(update_ctxs _ _ _ _).2.1]
    exact coroSwitch_atCo (i := 1) (by omega) hv v
  · have hbody : body (.func2 removed) v w = (.yield nothing (.func2 (removed + 1)), w) := by
      rw [body, func2Loop, if_pos hv, if_pos (by simpa using ha)]
    rw [step_yield (m := atCo 1 f1 removed printed v w) rfl hbody, if_neg ha, if_neg ha]
    change coroSwitch { atCo 1 f1 removed printed v w with coCtx := Function.update (ctxs f1 _ _) 1 _ } nothing = _
    rw [(update_ctxs _ _ _ _).2.1]
    exact coroSwitch_atCo (i := 1) (by omega) (by decide) v

/-- What `func_3` writes. -/
def printChar (v : Int) : List Byte :=
  if v ≠ nothing then [BitVec.ofInt 8 (if islower v then toupper v else if isupper v then tolower v else v)] else []

theorem step_func3 (hv : v ≠ eof) : step body (atCo 2 f1 removed printed v w) =
    atCo 0 f1 removed (if v ≠ nothing then printed + 1 else printed) nothing { w with stdout := w.stdout ++ printChar v } := by
  have hbody : body (.func3 printed) v w =
      (.yield nothing (.func3 (if v ≠ nothing then printed + 1 else printed)), { w with stdout := w.stdout ++ printChar v }) := by
    rw [body, func3Loop, if_pos hv, printChar]
    by_cases hn : v ≠ nothing
    · rw [if_pos hn, if_pos hn, if_pos hn]
    · rw [if_neg hn, if_neg hn, if_neg hn, List.append_nil]
  rw [step_yield (m := atCo 2 f1 removed printed v w) rfl hbody]
  change coroSwitch { atCo 2 f1 removed printed v w with coCtx := Function.update (ctxs f1 _ _) 2 _, world := _ } nothing = _
  rw [(update_ctxs _ _ _ _).2.2]
  exact coroSwitch_atCo (i := 2) (by omega) (by decide) v

/-- What a byte is to `func_2`. -/
theorem byte_func2 : ∀ b : Byte, b ≠ 0xFF →
    b.toInt ≠ eof ∧ longjmp b.toInt ≠ eof ∧ isalpha (longjmp b.toInt) = isLetter b := by
  decide +kernel

/-- What a letter is to `func_3`. -/
theorem letter_func3 : ∀ b : Byte, isLetter b → longjmp (longjmp b.toInt) = b.toInt ∧ b.toInt ≠ eof ∧ b.toInt ≠ nothing ∧
    printChar b.toInt = [swapCase b] := by
  decide +kernel

theorem swappedLetters_singleton (b : Byte) : swappedLetters [b] = if isLetter b then [swapCase b] else [] := by
  rw [swappedLetters, List.filter_cons]
  split_ifs <;> rfl

/-- A byte other than `0xFF` goes through: a letter is printed in its other case and counted by `func_3`, anything else is counted by
`func_2`. -/
theorem round_byte (removed printed : CInt) {b : Byte} (hbody : body f1 v w = (.yield b.toInt f1', w')) (hb : b ≠ 0xFF) :
    (step body)^[3] (atCo 0 f1 removed printed v w) =
      atCo 0 f1' (if isLetter b then removed else removed + 1) (if isLetter b then printed + 1 else printed) nothing
        { w' with stdout := w'.stdout ++ swappedLetters [b] } := by
  obtain ⟨h1, h2, h3⟩ := byte_func2 b hb
  rw [Function.iterate_succ_apply, Function.iterate_succ_apply, Function.iterate_one, step_func1 hbody h1,
    step_func2 f1' removed printed w' h2, h3, swappedLetters_singleton]
  by_cases hl : isLetter b
  · obtain ⟨h4, h5, h6, h7⟩ := letter_func3 b hl
    rw [if_pos hl, if_pos hl, if_pos hl, if_pos hl, h4, ← h7, step_func3 h5, if_pos h6]
  · rw [if_neg hl, if_neg hl, if_neg hl, if_neg hl]
    exact step_func3 (v := nothing) (by decide)

/-- `func_1` has returned, or has read `0xFF`: the other two return as well. -/
theorem round_end (removed printed : CInt) {o : Outcome Func} (hbody : body f1 v w = (o, w')) (ho : o = .done ∨ ∃ f, o = .yield eof f) :
    ((step body)^[3] (atCo 0 f1 removed printed v w)).control = .dispatcher nothing ∧
      ((step body)^[3] (atCo 0 f1 removed printed v w)).runqueue = [] ∧
      ((step body)^[3] (atCo 0 f1 removed printed v w)).world.stdin = w'.stdin ∧
      ((step body)^[3] (atCo 0 f1 removed printed v w)).world.stdout = w'.stdout ∧
      ((step body)^[3] (atCo 0 f1 removed printed v w)).world.stderr = w'.stderr ++ [.removed removed, .printed printed] := by
  have hstep : ∃ f, step body (atCo 0 f1 removed printed v w) =
      { runqueue := [1, 2], running := 1, coCtx := ctxs f (.func2 removed) (.func3 printed), control := .enter eof,
        world := w' } := by
    rcases ho with rfl | ⟨f, rfl⟩
    · refine ⟨f1, ?_⟩
      rw [step_done (m := atCo 0 f1 removed printed v w) rfl hbody]
      rfl
    · refine ⟨f, ?_⟩
      rw [step_yield (m := atCo 0 f1 removed printed v w) rfl hbody, ← (update_ctxs f1 _ _ f).1]
      rfl
  obtain ⟨f, hstep⟩ := hstep
  rw [Function.iterate_succ_apply, hstep]
  exact ⟨rfl, rfl, rfl, rfl, List.append_assoc _ _ _⟩

end Round

/-! ## The whole input -/

/-- A place in `func_1`. -/
inductive InFunc1 : Func → Prop where
  | start : InFunc1 .func1
  | yield (words : CInt) (prevCh ch : Byte) : InFunc1 (.func1Yield words prevCh ch)

/-- What `func_1` does with the rest of the input: it skips some whitespace, and passes the next byte on or returns. -/
theorem func1Loop_cases (words : CInt) (prevCh ch : Byte) (w : World) : ∀ input : List Byte,
    (∃ skipped b rest f, input = skipped ++ b :: rest ∧ (∀ c ∈ skipped, isspace c.toInt) ∧ InFunc1 f ∧
      func1Loop words prevCh ch w input = (.yield b.toInt f, { w with stdin := rest })) ∨
    ∃ report, (∀ c ∈ input, isspace c.toInt) ∧
      func1Loop words prevCh ch w input = (.done, { w with stdin := [], stderr := w.stderr ++ [report] })
  | [] => Or.inr ⟨_, nofun, rfl⟩
  | b :: rest => by
    rw [func1Loop]
    split_ifs with h1 h2
    · rcases func1Loop_cases words prevCh b w rest with ⟨skipped, c, rest', f, rfl, hs, hf, e⟩ | ⟨report, hs, e⟩
      · exact Or.inl ⟨b :: skipped, c, rest', f, rfl, List.forall_mem_cons.mpr ⟨h1, hs⟩, hf, e⟩
      · exact Or.inr ⟨report, List.forall_mem_cons.mpr ⟨h1, hs⟩, e⟩
    · exact Or.inl ⟨[], b, rest, _, rfl, nofun, .yield _ _ _, rfl⟩
    · exact Or.inl ⟨[], b, rest, _, rfl, nofun, .yield _ _ _, rfl⟩

theorem InFunc1.body_eq {f : Func} (hf : InFunc1 f) (v : Int) (w : World) :
    ∃ words prevCh ch, body f v w = func1Loop words prevCh ch w w.stdin := by
  cases hf with
  | start => exact ⟨_, _, _, rfl⟩
  | yield words prevCh ch => exact ⟨_, _, _, rfl⟩

/-- The bytes before the first `0xFF`. -/
def beforeEnd (input : List Byte) : List Byte := input.takeWhile (· ≠ 0xFF)

/-- The bytes behind the first `0xFF`. -/
def behindEnd (input : List Byte) : List Byte := (input.dropWhile (· ≠ 0xFF)).tail

theorem beforeEnd_cons {b : Byte} (hb : b ≠ 0xFF) (rest : List Byte) : beforeEnd (b :: rest) = b :: beforeEnd rest :=
  List.takeWhile_cons_of_pos (p := fun b => decide (b ≠ 0xFF)) (decide_eq_true hb)

theorem behindEnd_cons {b : Byte} (hb : b ≠ 0xFF) (rest : List Byte) : behindEnd (b :: rest) = behindEnd rest := by
  rw [behindEnd, List.dropWhile_cons_of_pos (p := fun b => decide (b ≠ 0xFF)) (decide_eq_true hb)]
  rfl

/-- A whitespace byte is no end and no letter. -/
theorem isspace_plain : ∀ c : Byte, isspace c.toInt → c ≠ 0xFF ∧ isLetter c = false := by
  decide +kernel

theorem swappedLetters_append (l r : List Byte) : swappedLetters (l ++ r) = swappedLetters l ++ swappedLetters r := by
  rw [swappedLetters, List.filter_append, List.map_append]
  rfl

theorem swappedLetters_spaces {skipped : List Byte} (hs : ∀ c ∈ skipped, isspace c.toInt) : swappedLetters skipped = [] := by
  rw [swappedLetters, List.filter_eq_nil_iff.mpr fun c hc => by simp [(isspace_plain c (hs c hc)).2], List.map_nil]

theorem beforeEnd_spaces {skipped : List Byte} (hs : ∀ c ∈ skipped, isspace c.toInt) (rest : List Byte) :
    beforeEnd (skipped ++ rest) = skipped ++ beforeEnd rest :=
  List.takeWhile_append_of_pos fun c hc => decide_eq_true (isspace_plain c (hs c hc)).1

theorem behindEnd_spaces {skipped : List Byte} (hs : ∀ c ∈ skipped, isspace c.toInt) (rest : List Byte) :
    behindEnd (skipped ++ rest) = behindEnd rest := by
  rw [behindEnd, List.dropWhile_append_of_pos fun c hc => decide_eq_true (isspace_plain c (hs c hc)).1]
  rfl

/-- From any place in `func_1` the coroutines run to their end, with the letters up to the first `0xFF` printed and the bytes
behind it left. -/
theorem runs_out {f : Func} (hf : InFunc1 f) (removed printed : CInt) (v : Int) (w : World) : ∃ k,
    ((step body)^[k] (atCo 0 f removed printed v w)).control = .dispatcher nothing ∧
      ((step body)^[k] (atCo 0 f removed printed v w)).runqueue = [] ∧
      ((step body)^[k] (atCo 0 f removed printed v w)).world.stdin = behindEnd w.stdin ∧
      ((step body)^[k] (atCo 0 f removed printed v w)).world.stdout = w.stdout ++ swappedLetters (beforeEnd w.stdin) := by
  obtain ⟨words, prevCh, ch, hbody⟩ := hf.body_eq v w
  rcases func1Loop_cases words prevCh ch w w.stdin with ⟨skipped, b, rest, f', hin, hs, hf', e⟩ | ⟨report, hs, e⟩
  · rw [e] at hbody
    rw [hin, beforeEnd_spaces hs, behindEnd_spaces hs, swappedLetters_append, swappedLetters_spaces hs, List.nil_append]
    by_cases hb : b = 0xFF
    · subst hb
      obtain ⟨h1, h2, h3, h4, -⟩ := round_end removed printed hbody (Or.inr ⟨f', rfl⟩)
      exact ⟨3, h1, h2, h3, by rw [h4]; exact (List.append_nil _).symm⟩
    · obtain ⟨k, h1, h2, h3, h4⟩ := runs_out hf' (if isLetter b then removed else removed + 1)
        (if isLetter b then printed + 1 else printed) nothing { w with stdin := rest, stdout := w.stdout ++ swappedLetters [b] }
      refine ⟨k + 3, ?_⟩
      rw [Function.iterate_add_apply, round_byte removed printed hbody hb]
      refine ⟨h1, h2, ?_, ?_⟩
      · rw [h3, behindEnd_cons hb]
      · rw [h4, beforeEnd_cons hb, List.append_assoc, ← swappedLetters_append]
        rfl
  · rw [e] at hbody
    obtain ⟨h1, h2, h3, h4, -⟩ := round_end removed printed hbody (Or.inl rfl)
    have hb := beforeEnd_spaces hs []
    have hd := behindEnd_spaces hs []
    rw [List.append_nil] at hb hd
    refine ⟨3, h1, h2, h3.trans hd.symm, ?_⟩
    rw [h4, hb, swappedLetters_append, swappedLetters_spaces hs]
    exact (List.append_nil _).symm
termination_by w.stdin.length
decreasing_by
  rw [hin, List.length_append, List.length_cons]
  omega

theorem behindEnd_eq_nil_iff : ∀ input : List Byte, behindEnd input = [] ↔ 0xFF ∉ input.dropLast
  | [] => ⟨fun _ => nofun, fun _ => rfl⟩
  | [b] => by
    refine ⟨fun _ => nofun, fun _ => ?_⟩
    rw [behindEnd, List.dropWhile_cons]
    split_ifs <;> rfl
  | b :: c :: rest => by
    rw [List.dropLast_cons_cons, List.mem_cons, not_or, ← behindEnd_eq_nil_iff (c :: rest)]
    by_cases hb : b = 0xFF
    · subst hb
      exact ⟨nofun, fun h => absurd rfl h.1⟩
    · rw [behindEnd_cons hb]
      exact ⟨fun h => ⟨Ne.symm hb, h⟩, fun h => h.2⟩

/-- If no byte is left, the letters are those of the whole input. -/
theorem swappedLetters_beforeEnd : ∀ {input : List Byte}, behindEnd input = [] →
    swappedLetters (beforeEnd input) = swappedLetters input
  | [], _ => rfl
  | b :: rest, h => by
    by_cases hb : b = 0xFF
    · subst hb
      obtain rfl : rest = [] := h
      rfl
    · rw [behindEnd_cons hb] at h
      rw [beforeEnd_cons hb]
      change swappedLetters ([b] ++ beforeEnd rest) = swappedLetters ([b] ++ rest)
      rw [swappedLetters_append, swappedLetters_append, swappedLetters_beforeEnd h]

/-- The end of the run of `main`. -/
theorem main_runs (input : List Byte) : ∃ k, ((step body)^[k] (main input)).control = .dispatcher nothing ∧
    ((step body)^[k] (main input)).runqueue = [] ∧ ((step body)^[k] (main input)).world.stdin = behindEnd input ∧
    ((step body)^[k] (main input)).world.stdout = swappedLetters (beforeEnd input) := by
  rw [main_eq]
  exact runs_out .start 0 0 nothing { stdin := input, stdout := [], stderr := [] }

/-- The filter does its work exactly on the inputs in which `0xFF` is not followed by another byte. -/
theorem filter_correct_iff (input : List Byte) :
    (∃ n, Filtered input ((step body)^[n] (main input))) ↔ 0xFF ∉ input.dropLast := by
  obtain ⟨k, hback, hqueue, hin, hout⟩ := main_runs input
  rw [← behindEnd_eq_nil_iff]
  constructor
  · rintro ⟨n, hn⟩
    rw [← hin, dispatcher_unique hback hn.back]
    exact hn.consumed
  · intro h
    exact ⟨k, hback, hqueue, hin.trans h, hout.trans (swappedLetters_beforeEnd h)⟩

/-- The input `0xFF`, `a`: the letter is never read. -/
theorem filter_loses_letter : ¬∃ n, Filtered [0xFF, 97] ((step body)^[n] (main [0xFF, 97])) := by
  rintro ⟨n, hn⟩
  obtain ⟨k, hback, -, hin, -⟩ := main_runs [0xFF, 97]
  have hleft := hn.consumed
  rw [dispatcher_unique hn.back hback, hin] at hleft
  exact absurd hleft (by decide)

end OsLabs.Coro
