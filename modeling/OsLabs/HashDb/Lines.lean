import OsLabs.HashDb.Model

/-!
# The lines of the input (`hashdb.c`)

`doit` reads its input in two ways. From a terminal `fgets` reads up to `ENT_LENGTH` bytes at a time and `consume_line` gets what was
read; otherwise the input is mapped and `consume_line` goes from line to line. Memory is the list of the bytes from a pointer to the end
of the buffer; a string that is not terminated within it has no value. What the two ways give the database is the list of keys.

They agree on short lines. `fgets` cuts a long line, and then each piece is a key (`terminal_line`); a line of 48 bytes keeps its
carriage return, and the one of 49 bytes loses it as a line of its own. `same_keys` says for which texts the two lists agree.
-/

namespace OsLabs.HashDb

/-- `'\n'`. -/
def newline : Byte := 10

/-- `'\r'`. -/
def carriageReturn : Byte := 13

/-- `strchr`: where the byte is, if it comes before the terminating zero. -/
def strchr (c : Byte) : List Byte → Option (Option Nat)
  | [] => none
  | b :: buf => if b = c then some (some 0) else if b = 0 then some none else (strchr c buf).map fun e => e.map (· + 1)

/-- The string at a pointer. -/
def cstring (buf : List Byte) : List Byte := buf.takeWhile (· ≠ 0)

/-- `consume_line`: the string that it is left with, and the memory from the next line on. -/
def consumeLine (buf : List Byte) : Option (List Byte × Option (List Byte)) :=
  -- Terminate string at new line character.
  match strchr newline buf with
  | none => none
  | some none => some (cstring buf, none)
  | some (some e) =>
    let buf := if 0 < e ∧ buf[e - 1]? = some carriageReturn then buf.set (e - 1) 0 else buf
    let buf := buf.set e 0
    some (cstring buf, some (buf.drop (e + 1)))

/-- The keys that the database gets: skip if line is empty. -/
def passKey (key : List Byte) : List (List Byte) := if key = [] then [] else [key]

/-- `fgets`, for at most `n` bytes, and what is left of the input. -/
def fgets : Nat → List Byte → List Byte × List Byte
  | 0, input => ([], input)
  | _ + 1, [] => ([], [])
  | n + 1, b :: input =>
    if b = newline then ([b], input)
    else
      let r := fgets n input
      (b :: r.1, r.2)

/-- The loop of `doit` over a terminal: the keys that the database gets. -/
def terminalKeys : Nat → List Byte → Option (List (List Byte))
  | 0, _ => none
  | fuel + 1, input =>
    match fgets entLength input with
    | ([], _) => some []
    | (b :: chunk, input) =>
      match consumeLine (b :: chunk ++ [0]) with
      | none => none
      | some (key, _) => (terminalKeys fuel input).map fun keys => passKey key ++ keys

/-- The loop of `doit` over mapped input. -/
def mappedKeys : Nat → List Byte → Option (List (List Byte))
  | 0, _ => none
  | fuel + 1, buf =>
    match consumeLine buf with
    | none => none
    | some (key, none) => some (passKey key)
    | some (key, some buf) => (mappedKeys fuel buf).map fun keys => passKey key ++ keys

/-- What the database sees of a key. -/
def cut (key : List Byte) : List Byte := key.take entLength

/-! ## One line -/

/-- The line without the carriage return at its end. -/
def stripCr (line : List Byte) : List Byte := if line.getLast? = some carriageReturn then line.dropLast else line

/-- A string is one key, or none. -/
theorem length_passKey (key : List Byte) : (passKey key).length ≤ 1 := by
  unfold passKey
  split
  · exact Nat.zero_le _
  · exact Nat.le_refl _

/-- A string without zero bytes is read up to its terminator. -/
theorem cstring_append {l : List Byte} (h : (0 : Byte) ∉ l) (r : List Byte) : cstring (l ++ 0 :: r) = l := by
  have hall : ∀ b ∈ l, decide (b ≠ 0) = true := by
    intro b hb
    simp only [ne_eq, decide_not, Bool.not_eq_eq_eq_not, Bool.not_true, decide_eq_false_iff_not]
    rintro rfl
    exact h hb
  rw [cstring, List.takeWhile_append_of_pos hall]
  simp

theorem strchr_newline {l : List Byte} (h0 : (0 : Byte) ∉ l) (hn : newline ∉ l) (r : List Byte) :
    strchr newline (l ++ newline :: r) = some (some l.length) := by
  induction l with
  | nil => rfl
  | cons b l ih =>
    rw [List.mem_cons, not_or] at h0 hn
    rw [List.cons_append, strchr, if_neg (Ne.symm hn.1), if_neg (Ne.symm h0.1), ih h0.2 hn.2]
    rfl

theorem strchr_end {l : List Byte} (h0 : (0 : Byte) ∉ l) (hn : newline ∉ l) (r : List Byte) :
    strchr newline (l ++ 0 :: r) = some none := by
  induction l with
  | nil => rfl
  | cons b l ih =>
    rw [List.mem_cons, not_or] at h0 hn
    rw [List.cons_append, strchr, if_neg (Ne.symm hn.1), if_neg (Ne.symm h0.1), ih h0.2 hn.2]
    rfl

/-- No newline and no zero byte: the search leaves the buffer. -/
theorem strchr_outside {l : List Byte} (h0 : (0 : Byte) ∉ l) (hn : newline ∉ l) : strchr newline l = none := by
  induction l with
  | nil => rfl
  | cons b l ih =>
    rw [List.mem_cons, not_or] at h0 hn
    rw [strchr, if_neg (Ne.symm hn.1), if_neg (Ne.symm h0.1), ih h0.2 hn.2]
    rfl

/-- What `consume_line` makes of the memory: a string at the line, and the memory from the next line on. -/
def terminateLine (buf : List Byte) : Option (List Byte × Option (List Byte)) :=
  match strchr newline buf with
  | none => none
  | some none => some (buf, none)
  | some (some e) =>
    let buf := if 0 < e ∧ buf[e - 1]? = some carriageReturn then buf.set (e - 1) 0 else buf
    let buf := buf.set e 0
    some (buf, some (buf.drop (e + 1)))

theorem consumeLine_eq (buf : List Byte) : consumeLine buf = (terminateLine buf).map fun r => (cstring r.1, r.2) := by
  rw [consumeLine, terminateLine]
  cases strchr newline buf with
  | none => rfl
  | some e => cases e <;> rfl

/-- A line that ends with a newline: the string ends where the line does, before its carriage return. -/
theorem terminateLine_newline {l : List Byte} (h0 : (0 : Byte) ∉ l) (hn : newline ∉ l) (r : List Byte) :
    ∃ more, terminateLine (l ++ newline :: r) = some (stripCr l ++ 0 :: more, some r) := by
  rw [terminateLine, strchr_newline h0 hn]
  dsimp only
  by_cases hcr : l.getLast? = some carriageReturn
  · obtain ⟨l', rfl⟩ := List.getLast?_eq_some_iff.mp hcr
    have hcond : 0 < (l' ++ [carriageReturn]).length ∧
        (l' ++ [carriageReturn] ++ newline :: r)[(l' ++ [carriageReturn]).length - 1]? = some carriageReturn := by
      simp
    have hset : (((l' ++ [carriageReturn] ++ newline :: r).set ((l' ++ [carriageReturn]).length - 1) 0).set
        (l' ++ [carriageReturn]).length 0) = l' ++ 0 :: 0 :: r := by
      simp
    have hdrop : (l' ++ 0 :: 0 :: r).drop ((l' ++ [carriageReturn]).length + 1) = r := by
      rw [show l' ++ 0 :: 0 :: r = (l' ++ [0, 0]) ++ r by simp]
      exact List.drop_left' (by simp)
    rw [if_pos hcond, hset, hdrop, stripCr, if_pos hcr, List.dropLast_concat]
    exact ⟨0 :: r, rfl⟩
  · have hcond : ¬ (0 < l.length ∧ (l ++ newline :: r)[l.length - 1]? = some carriageReturn) := by
      rintro ⟨hpos, h⟩
      rw [List.getElem?_append_left (by omega), ← List.getLast?_eq_getElem?] at h
      exact hcr h
    have hset : (l ++ newline :: r).set l.length 0 = l ++ 0 :: r := by simp
    have hdrop : (l ++ 0 :: r).drop (l.length + 1) = r := by simp
    rw [if_neg hcond, hset, hdrop, stripCr, if_neg hcr]
    exact ⟨r, rfl⟩

/-- A line that ends with the string. -/
theorem terminateLine_end {l : List Byte} (h0 : (0 : Byte) ∉ l) (hn : newline ∉ l) (r : List Byte) :
    terminateLine (l ++ 0 :: r) = some (l ++ 0 :: r, none) := by
  rw [terminateLine, strchr_end h0 hn]

theorem not_mem_stripCr {b : Byte} {l : List Byte} (h : b ∉ l) : b ∉ stripCr l := by
  unfold stripCr
  split
  · exact fun hm => h (List.dropLast_subset l hm)
  · exact h

/-- A line that ends with a newline. -/
theorem consumeLine_newline {l : List Byte} (h0 : (0 : Byte) ∉ l) (hn : newline ∉ l) (r : List Byte) :
    consumeLine (l ++ newline :: r) = some (stripCr l, some r) := by
  obtain ⟨more, h⟩ := terminateLine_newline h0 hn r
  rw [consumeLine_eq, h, Option.map_some, cstring_append (not_mem_stripCr h0)]

/-- A line that ends with the string. -/
theorem consumeLine_end {l : List Byte} (h0 : (0 : Byte) ∉ l) (hn : newline ∉ l) (r : List Byte) :
    consumeLine (l ++ 0 :: r) = some (l, none) := by
  rw [consumeLine_eq, terminateLine_end h0 hn, Option.map_some, cstring_append h0]

/-! ## What `fgets` reads -/

theorem fgets_newline {n : Nat} {l : List Byte} (hn : newline ∉ l) (hlt : l.length < n) (r : List Byte) :
    fgets n (l ++ newline :: r) = (l ++ [newline], r) := by
  induction l generalizing n with
  | nil =>
    obtain ⟨n, rfl⟩ := Nat.exists_eq_succ_of_ne_zero (Nat.ne_of_gt hlt)
    rfl
  | cons b l ih =>
    obtain ⟨n, rfl⟩ := Nat.exists_eq_succ_of_ne_zero (Nat.ne_zero_of_lt hlt)
    rw [List.mem_cons, not_or] at hn
    rw [List.cons_append, fgets, if_neg (Ne.symm hn.1), ih hn.2 (Nat.lt_of_succ_lt_succ hlt)]
    rfl

theorem fgets_full {l : List Byte} (hn : newline ∉ l) (r : List Byte) : fgets l.length (l ++ r) = (l, r) := by
  induction l with
  | nil =>
    cases r with
    | nil => rfl
    | cons => rfl
  | cons b l ih =>
    rw [List.mem_cons, not_or] at hn
    rw [List.cons_append, List.length_cons, fgets, if_neg (Ne.symm hn.1), ih hn.2]

theorem fgets_end {n : Nat} {l : List Byte} (hn : newline ∉ l) (hle : l.length ≤ n) : fgets n l = (l, []) := by
  induction l generalizing n with
  | nil =>
    cases n with
    | zero => rfl
    | succ n => rfl
  | cons b l ih =>
    obtain ⟨n, rfl⟩ := Nat.exists_eq_succ_of_ne_zero (Nat.ne_zero_of_lt hle)
    rw [List.mem_cons, not_or] at hn
    rw [fgets, if_neg (Ne.symm hn.1), ih hn.2 (Nat.le_of_succ_le_succ hle)]

/-! ## The terminal -/

/-- The keys of an input from a terminal, with enough fuel for its bytes. -/
def Terminal (input : List Byte) (keys : List (List Byte)) : Prop :=
  ∀ fuel, input.length < fuel → terminalKeys fuel input = some keys

/-- The keys of mapped input, with enough fuel for the bytes before the terminator. -/
def Mapped (text : List Byte) (zeros : Nat) (keys : List (List Byte)) : Prop :=
  ∀ fuel, text.length < fuel → mappedKeys fuel (text ++ List.replicate (zeros + 1) 0) = some keys

/-- One round of the loop. -/
theorem Terminal.chunk {input chunk rest key : List Byte} {next : Option (List Byte)} {keys : List (List Byte)}
    (hf : fgets entLength input = (chunk, rest)) (hne : chunk ≠ []) (hlen : rest.length < input.length)
    (hc : consumeLine (chunk ++ [0]) = some (key, next)) (h : Terminal rest keys) : Terminal input (passKey key ++ keys) := by
  intro fuel hfuel
  obtain ⟨fuel, rfl⟩ := Nat.exists_eq_succ_of_ne_zero (Nat.ne_zero_of_lt hfuel)
  obtain ⟨b, chunk, rfl⟩ := List.exists_cons_of_ne_nil hne
  have hrest := h fuel (Nat.lt_of_lt_of_le hlen (Nat.le_of_lt_succ hfuel))
  rw [terminalKeys, hf]
  simp only [hc, hrest, Option.map_some]

/-- Nothing is left. -/
theorem terminal_nil : Terminal [] [] := by
  intro fuel hfuel
  obtain ⟨fuel, rfl⟩ := Nat.exists_eq_succ_of_ne_zero (Nat.ne_of_gt hfuel)
  rfl

/-- A piece of a line as long as the buffer is a key. -/
theorem Terminal.full {a rest : List Byte} {keys : List (List Byte)} (h0 : (0 : Byte) ∉ a) (hn : newline ∉ a)
    (ha : a.length = entLength) (h : Terminal rest keys) : Terminal (a ++ rest) (a :: keys) := by
  have hne : a ≠ [] := by
    rintro rfl
    cases ha
  have hpass : a :: keys = passKey a ++ keys := by
    rw [passKey, if_neg hne]
    rfl
  have hf : fgets entLength (a ++ rest) = (a, rest) := by
    rw [← ha]
    exact fgets_full hn rest
  have hlen : rest.length < (a ++ rest).length := by
    rw [List.length_append, ha]
    unfold entLength
    omega
  rw [hpass]
  exact Terminal.chunk hf hne hlen (consumeLine_end h0 hn []) h

/-- The keys of a line from a terminal: itself, if it fits the buffer with its newline; otherwise its beginning, and those of the
rest. -/
structure TerminalLine (l : List Byte) (keys : List (List Byte)) : Prop where
  short : l.length < entLength → keys = passKey (stripCr l)
  long : entLength ≤ l.length → ∃ more, keys = l.take entLength :: more ∧
    (more = [] ↔ l.length = entLength ∨ (l.length = entLength + 1 ∧ l.getLast? = some carriageReturn))

/-- Only an empty line, or one with a carriage return, is skipped. -/
theorem passKey_stripCr_eq_nil {l : List Byte} :
    passKey (stripCr l) = [] ↔ l = [] ∨ (l.length = 1 ∧ l.getLast? = some carriageReturn) := by
  unfold passKey stripCr
  by_cases hcr : l.getLast? = some carriageReturn
  · obtain ⟨l', rfl⟩ := List.getLast?_eq_some_iff.mp hcr
    simp
  · simp [hcr]

/-- A line from a terminal, by induction on its length. -/
theorem terminal_line {l rest : List Byte} {keys : List (List Byte)} (h0 : (0 : Byte) ∉ l) (hn : newline ∉ l)
    (h : Terminal rest keys) : ∃ mine, Terminal (l ++ newline :: rest) (mine ++ keys) ∧ TerminalLine l mine := by
  induction hl : l.length using Nat.strongRecOn generalizing l with
  | ind len ih =>
    by_cases hlt : l.length < entLength
    · have hc := consumeLine_newline h0 hn [0]
      have happ : l ++ [newline] ++ [0] = l ++ newline :: [0] := by simp
      refine ⟨passKey (stripCr l), Terminal.chunk (fgets_newline hn hlt rest) (by simp) ?_ (happ ▸ hc) h, fun _ => rfl, ?_⟩
      · simp
        omega
      · intro hge
        omega
    · -- The beginning of the line fills the buffer; the rest is a shorter line.
      have hge : entLength ≤ l.length := Nat.not_lt.mp hlt
      have hdrop : (l.drop entLength).length = l.length - entLength := List.length_drop
      have hpos : 0 < entLength := by decide
      obtain ⟨more, hmore, hspec⟩ := ih (l.drop entLength).length (by omega)
        (fun hm => h0 (List.mem_of_mem_drop hm)) (fun hm => hn (List.mem_of_mem_drop hm)) rfl
      have htake : (l.take entLength).length = entLength := List.length_take_of_le hge
      have hfull := Terminal.full (fun hm => h0 (List.mem_of_mem_take hm)) (fun hm => hn (List.mem_of_mem_take hm)) htake hmore
      rw [← List.append_assoc, List.take_append_drop] at hfull
      refine ⟨l.take entLength :: more, hfull, fun hs => absurd hs hlt, fun _ => ⟨more, rfl, ?_⟩⟩
      by_cases hs : (l.drop entLength).length < entLength
      · rw [hspec.short hs, passKey_stripCr_eq_nil, List.drop_eq_nil_iff, hdrop]
        have hlast : l.length = entLength + 1 → (l.drop entLength).getLast? = l.getLast? := by
          intro h1
          rw [List.getLast?_drop, if_neg (by omega)]
        constructor
        · rintro (h1 | ⟨h1, h2⟩)
          · exact Or.inl (by omega)
          · have h1' : l.length = entLength + 1 := by omega
            exact Or.inr ⟨h1', by rw [← hlast h1']; exact h2⟩
        · rintro (h1 | ⟨h1, h2⟩)
          · exact Or.inl (by omega)
          · exact Or.inr ⟨by omega, by rw [hlast h1]; exact h2⟩
      · obtain ⟨more', rfl, -⟩ := hspec.long (by omega)
        have h48 : entLength = 48 := rfl
        constructor
        · intro hc
          cases hc
        · intro hc
          omega

/-- The last line from a terminal, without a newline: a key if it fits the buffer, several otherwise. -/
theorem terminal_last {l : List Byte} (h0 : (0 : Byte) ∉ l) (hn : newline ∉ l) :
    ∃ keys, Terminal l keys ∧ (l.length ≤ entLength → keys = passKey l) ∧ (entLength < l.length → 2 ≤ keys.length) := by
  have short : ∀ l : List Byte, (0 : Byte) ∉ l → newline ∉ l → l ≠ [] → l.length ≤ entLength → Terminal l (passKey l) := by
    intro l h0 hn hne hle
    rw [← List.append_nil (passKey l)]
    refine Terminal.chunk (fgets_end hn hle) hne ?_ (consumeLine_end h0 hn []) terminal_nil
    exact List.length_pos_iff.mpr hne
  induction hl : l.length using Nat.strongRecOn generalizing l with
  | ind len ih =>
    subst hl
    by_cases hne : l = []
    · subst hne
      exact ⟨[], terminal_nil, fun _ => rfl, fun h => absurd h (by decide)⟩
    · by_cases hle : l.length ≤ entLength
      · exact ⟨_, short l h0 hn hne hle, fun _ => rfl, fun h => absurd hle (Nat.not_le.mpr h)⟩
      · have hdrop : (l.drop entLength).length = l.length - entLength := List.length_drop
        have hpos : 0 < entLength := by decide
        obtain ⟨more, hmore, hshort, hlong⟩ := ih (l.drop entLength).length (by omega)
          (fun hm => h0 (List.mem_of_mem_drop hm)) (fun hm => hn (List.mem_of_mem_drop hm)) rfl
        have htake : (l.take entLength).length = entLength := List.length_take_of_le (by omega)
        have hfull := Terminal.full (fun hm => h0 (List.mem_of_mem_take hm)) (fun hm => hn (List.mem_of_mem_take hm)) htake hmore
        rw [List.take_append_drop] at hfull
        refine ⟨_, hfull, fun h => absurd h hle, fun _ => ?_⟩
        rw [List.length_cons]
        by_cases hs : (l.drop entLength).length ≤ entLength
        · have hne' : l.drop entLength ≠ [] := by
            intro h
            rw [h] at hdrop
            simp at hdrop
            omega
          rw [hshort hs, passKey, if_neg hne']
          exact Nat.le_refl _
        · have := hlong (by omega)
          omega

/-! ## Lines on which the two ways agree -/

/-- A line that ends with a newline and gives the same keys: short, or just at the limit, and with its carriage return on the right
side of it. -/
def LineFits (l : List Byte) : Prop :=
  l.length < entLength ∨ (l.length = entLength ∧ l.getLast? ≠ some carriageReturn) ∨
    (l.length = entLength + 1 ∧ l.getLast? = some carriageReturn)

/-- Every line of a text fits; the last one, without a newline, fits with 48 bytes. -/
def EveryLineFits (text : List Byte) : Prop :=
  (∀ l ∈ (text.splitOn newline).dropLast, LineFits l) ∧ ∀ l ∈ (text.splitOn newline).getLast?, l.length ≤ entLength

/-- The keys of one line from a terminal and mapped are the same exactly when the line fits, and never fewer. -/
theorem TerminalLine.agree {l : List Byte} {keys : List (List Byte)} (h : TerminalLine l keys) :
    (passKey (stripCr l)).length ≤ keys.length ∧ (keys.map cut = (passKey (stripCr l)).map cut ↔ LineFits l) := by
  by_cases hlt : l.length < entLength
  · rw [h.short hlt]
    exact ⟨Nat.le_refl _, fun _ => Or.inl hlt, fun _ => rfl⟩
  · have hge : entLength ≤ l.length := Nat.not_lt.mp hlt
    have h48 : entLength = 48 := rfl
    obtain ⟨more, rfl, hmore⟩ := h.long hge
    have hstrip : (stripCr l).length = if l.getLast? = some carriageReturn then l.length - 1 else l.length := by
      unfold stripCr
      split
      · exact List.length_dropLast
      · rfl
    have hne : stripCr l ≠ [] := by
      intro h0
      rw [h0] at hstrip
      split at hstrip
      · simp at hstrip
        omega
      · simp at hstrip
        omega
    rw [passKey, if_neg hne]
    refine ⟨by simp, ?_⟩
    rw [List.map_cons, List.map_cons, List.map_nil, List.cons.injEq, List.map_eq_nil_iff, hmore]
    have hcut : cut (l.take entLength) = l.take entLength := by
      rw [cut, List.take_take, Nat.min_self]
    rw [hcut]
    by_cases hcr : l.getLast? = some carriageReturn
    · rw [if_pos hcr] at hstrip
      have hs : stripCr l = l.take (l.length - 1) := by
        rw [stripCr, if_pos hcr, List.dropLast_eq_take]
      constructor
      · rintro ⟨he, h1 | h1⟩
        · -- 48 bytes with a carriage return: it stays with the key only from a terminal.
          have := congrArg List.length he
          rw [cut, List.length_take, List.length_take, hstrip] at this
          omega
        · exact Or.inr (Or.inr h1)
      · rintro (h1 | ⟨-, h1⟩ | h1)
        · omega
        · exact absurd hcr h1
        · refine ⟨?_, Or.inr h1⟩
          rw [cut, hs, List.take_take, h1.1]
          rfl
    · have hs : stripCr l = l := by
        rw [stripCr, if_neg hcr]
      rw [hs]
      constructor
      · rintro ⟨-, h1 | h1⟩
        · exact Or.inr (Or.inl ⟨h1, hcr⟩)
        · exact absurd h1.2 hcr
      · rintro (h1 | h1 | h1)
        · omega
        · exact ⟨rfl, Or.inl h1.1⟩
        · exact absurd h1.2 hcr

/-- Two lists in two parts, of which no part is shorter than its partner, agree when the parts do. -/
theorem append_eq_iff {α : Type} {a b c d : List α} (h1 : c.length ≤ a.length) (h2 : d.length ≤ b.length) :
    a ++ b = c ++ d ↔ a = c ∧ b = d := by
  constructor
  · intro h
    have hlen := congrArg List.length h
    rw [List.length_append, List.length_append] at hlen
    exact List.append_inj h (by omega)
  · rintro ⟨rfl, rfl⟩
    rfl

/-- The first line of a text with a newline. -/
theorem first_line {text : List Byte} (h0 : (0 : Byte) ∉ text) (hn : newline ∈ text) :
    ∃ l rest, text = l ++ newline :: rest ∧ newline ∉ l ∧ (0 : Byte) ∉ l ∧ (0 : Byte) ∉ rest ∧ rest.length < text.length := by
  obtain ⟨l, rest, rfl, hnl⟩ := List.eq_append_cons_of_mem hn
  refine ⟨l, rest, rfl, hnl, fun h => h0 (List.mem_append_left _ h), fun h => h0 (List.mem_append_right _ (List.mem_cons_of_mem _ h)), ?_⟩
  rw [List.length_append, List.length_cons]
  omega

/-- A text that starts with a line. -/
theorem splitOn_newline {l : List Byte} (hn : newline ∉ l) (rest : List Byte) :
    (l ++ newline :: rest).splitOn newline = l :: rest.splitOn newline := by
  rw [List.splitOn_append_cons_self, List.splitOn_eq_singleton hn]
  rfl

/-- The lines of a text that starts with a line. -/
theorem everyLineFits_cons {l rest : List Byte} (hn : newline ∉ l) :
    EveryLineFits (l ++ newline :: rest) ↔ LineFits l ∧ EveryLineFits rest := by
  have hne : rest.splitOn newline ≠ [] := List.splitOn_ne_nil _ _
  rw [EveryLineFits, splitOn_newline hn, List.dropLast_cons_of_ne_nil hne, List.getLast?_cons_of_ne_nil hne, EveryLineFits,
    List.forall_mem_cons, and_assoc]

/-- The two lists of keys for a text, by induction on its lines. -/
theorem keys_of_text (zeros : Nat) (text : List Byte) (h0 : (0 : Byte) ∉ text) :
    ∃ keys keys', Terminal text keys ∧ Mapped text zeros keys' ∧ keys'.length ≤ keys.length ∧
      (keys.map cut = keys'.map cut ↔ EveryLineFits text) := by
  induction hlen : text.length using Nat.strongRecOn generalizing text with
  | ind len ih =>
    by_cases hn : newline ∈ text
    · obtain ⟨l, rest, rfl, hnl, h0l, h0r, hlt⟩ := first_line h0 hn
      obtain ⟨keys, keys', hT, hM, hle, hiff⟩ := ih rest.length (hlen ▸ hlt) rest h0r rfl
      obtain ⟨mine, hmine, hspec⟩ := terminal_line h0l hnl hT
      obtain ⟨hle', hiff'⟩ := hspec.agree
      refine ⟨mine ++ keys, passKey (stripCr l) ++ keys', hmine, ?_, ?_, ?_⟩
      · intro fuel hfuel
        obtain ⟨fuel, rfl⟩ := Nat.exists_eq_succ_of_ne_zero (Nat.ne_zero_of_lt hfuel)
        have hrest := hM fuel (Nat.lt_of_lt_of_le hlt (Nat.le_of_lt_succ hfuel))
        rw [mappedKeys, List.append_assoc, List.cons_append, consumeLine_newline h0l hnl]
        simp only [hrest, Option.map_some]
      · rw [List.length_append, List.length_append]
        omega
      · rw [List.map_append, List.map_append, append_eq_iff (by simpa using hle') (by simpa using hle), hiff', hiff,
          everyLineFits_cons hnl]
    · obtain ⟨keys, hT, hshort, hlong⟩ := terminal_last h0 hn
      have hfits : EveryLineFits text ↔ text.length ≤ entLength := by
        rw [EveryLineFits, List.splitOn_eq_singleton hn]
        simp
      refine ⟨keys, passKey text, hT, ?_, ?_, ?_⟩
      · intro fuel hfuel
        obtain ⟨fuel, rfl⟩ := Nat.exists_eq_succ_of_ne_zero (Nat.ne_zero_of_lt hfuel)
        rw [mappedKeys, List.replicate_succ, consumeLine_end h0 hn]
      · by_cases hle : text.length ≤ entLength
        · rw [hshort hle]
        · have := hlong (by omega)
          have hone := length_passKey text
          omega
      · rw [hfits]
        constructor
        · intro he
          by_contra hgt
          have h2 := hlong (Nat.not_le.mp hgt)
          have := congrArg List.length he
          rw [List.length_map, List.length_map] at this
          have hone := length_passKey text
          omega
        · intro hle
          rw [hshort hle]

/-- Both loops end, and the keys from a terminal and from mapped input, cut to 48 bytes, are the same exactly when every line fits. -/
theorem same_keys (text : List Byte) (h0 : (0 : Byte) ∉ text) (zeros : Nat) :
    ∃ keys keys', terminalKeys (text.length + 1) text = some keys ∧
      mappedKeys (text.length + 1) (text ++ List.replicate (zeros + 1) 0) = some keys' ∧
      (keys.map cut = keys'.map cut ↔ EveryLineFits text) := by
  obtain ⟨keys, keys', hT, hM, -, hiff⟩ := keys_of_text zeros text h0
  exact ⟨keys, keys', hT _ (Nat.lt_succ_self _), hM _ (Nat.lt_succ_self _), hiff⟩

/-- The witness: one short line. -/
theorem same_keys_line : ∃ keys keys', terminalKeys 3 [97, 10] = some keys ∧ mappedKeys 3 [97, 10, 0] = some keys' ∧
    (keys.map cut = keys'.map cut ↔ EveryLineFits [97, 10]) :=
  same_keys [97, 10] (by decide) 0

/-- Forty-nine letters are one key when they are mapped, and two from a terminal. -/
theorem long_line_split :
    ¬ ∀ (text : List Byte), (0 : Byte) ∉ text → ∀ zeros : Nat, ∃ keys keys', terminalKeys (text.length + 1) text = some keys ∧
      mappedKeys (text.length + 1) (text ++ List.replicate (zeros + 1) 0) = some keys' ∧ keys.map cut = keys'.map cut := by
  intro h
  obtain ⟨keys, keys', hT, hM, he⟩ := h (List.replicate 49 97) (by decide) 0
  have hT' : terminalKeys 50 (List.replicate 49 97) = some [List.replicate 48 97, [97]] := by decide +kernel
  have hM' : mappedKeys 50 (List.replicate 49 97 ++ List.replicate 1 0) = some [List.replicate 49 97] := by decide +kernel
  have e1 := Option.some.inj (hT.symm.trans hT')
  have e2 := Option.some.inj (hM.symm.trans hM')
  rw [e1, e2] at he
  exact absurd (congrArg List.length he) (by decide)

end OsLabs.HashDb
