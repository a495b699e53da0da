import OsLabs.HashDb.Lines
import Mathlib.Algebra.Order.Ring.Nat

/-!
# The mapped input (`hashdb.c`)

Input that is no terminal is mapped: the bytes of the file, and zero bytes up to the end of the last page. `consume_line` looks for a
newline with `strchr`, and the database reads a key up to its terminating zero byte; neither knows where the mapping ends. Memory is
the list of the bytes from a pointer to the end of the mapping here, and a read past it has no value (`Stray.outside`).

A last line without a newline, and the empty line after the last newline, end at the first zero byte after the file. A file that fills
its pages has none: then the loop reads past the mapping, whatever the lines are (`reads_every_line_iff`).
-/

namespace OsLabs.HashDb

/-- The size of a page. -/
def pageSize : Nat := 4096

/-- The memory of a mapped file: zero bytes fill up the last page. -/
def mapping (text : List Byte) : Buf := text ++ List.replicate ((pageSize - text.length % pageSize) % pageSize) 0

/-! ## The database reads a key in the mapping -/

/-- The stores of `strncpy(db->entry[idx], str, ENT_LENGTH)`. -/
def Fs.store (fs : Fs) (inode idx : Nat) (bytes : List Byte) : Fs :=
  let f := fs.file inode
  let byte x := if idx * entLength ≤ x ∧ x < idx * entLength + entLength then bytes.getD (x - idx * entLength) 0 else f.byte x
  { fs with file := Function.update fs.file inode ⟨f.size, byte⟩ }

/-- The loop of `db_action`, for a key in the mapping. -/
def dbActionLoopIn (fs : Fs) (db : Db) (str : Buf) (op : Op) (chain : BitVec 32) : Nat → Nat → Option (Fs × Bool)
  | 0, _ => some (fs, false)
  | n + 1, c =>
    let idx := slot db.size chain c
    if fs.entry db.entry idx 0 = 0 ∧ op = .insert then (str.strncpy entLength).map fun bytes => (fs.store db.entry idx bytes, true)
    else
      match str.strncmp (fs.entry db.entry idx) entLength with
      | none => none
      | some r => if r = 0 then some (fs, true) else dbActionLoopIn fs db str op chain n (c + 1)

/-- `db_action`, for a key in the mapping. -/
def dbActionIn (hash : List Byte → BitVec 32) (fs : Fs) (db : Db) (str : Buf) (op : Op) : Option (Fs × Bool) :=
  match str with
  | [] => none
  | b :: _ =>
    if b = 0 then some (fs, decide (op = .insert))
    else
      match str.strnlen entLength with
      | none => none
      | some len => dbActionLoopIn fs db str op (hash (str.take len)) (chainLen db.size) 0

/-- `db_insert`, for a key in the mapping. -/
def dbInsertIn (hash : List Byte → BitVec 32) (str : Buf) : Nat → Fs → Db → Option (Except Stop (Fs × Db))
  | 0, _, _ => some (.error .fuel)
  | fuel + 1, fs, db =>
    match dbActionIn hash fs db str .insert with
    | none => none
    | some (fs, true) => some (.ok (fs, db))
    | some (fs, false) =>
      match rehashLoop hash fuel fs db db.size with
      | .error e => some (.error e)
      | .ok (fs, db) => dbInsertIn hash str fuel fs db

/-- A query and an insertion of a key in the mapping read nothing outside, and do what they do with the string, on any database. -/
structure StaysInside (str : Buf) : Prop where
  query : ∀ hash fs db, dbActionIn hash fs db str .query = some (dbAction hash fs db (Ptr.ofList (cstring str)) .query)
  insert : ∀ hash fuel fs db, dbInsertIn hash str fuel fs db = some (dbInsert hash (Ptr.ofList (cstring str)) fuel fs db)

theorem dbActionLoopIn_terminated (fs : Fs) (db : Db) (key : List Byte) (r : Buf) (op : Op) (chain : BitVec 32) (n c : Nat) :
    dbActionLoopIn fs db (key ++ 0 :: r) op chain n c = some (dbActionLoop fs db (Ptr.ofList key) op chain n c) := by
  induction n generalizing c with
  | zero => rfl
  | succ n ih =>
    rw [dbActionLoopIn, dbActionLoop, Buf.strncpy_terminated, Buf.strncmp_terminated, ih]
    dsimp only
    split
    · rfl
    · split <;> rfl

theorem dbActionIn_terminated (hash : List Byte → BitVec 32) (fs : Fs) (db : Db) (key : List Byte) (r : Buf) (op : Op) :
    dbActionIn hash fs db (key ++ 0 :: r) op = some (dbAction hash fs db (Ptr.ofList key) op) := by
  cases key with
  | nil => rfl
  | cons b key =>
    -- the bytes that are hashed are those before the terminator
    have hbytes : (b :: key ++ 0 :: r).take ((Ptr.ofList (b :: key)).strnlen entLength) =
        (List.range ((Ptr.ofList (b :: key)).strnlen entLength)).map (Ptr.ofList (b :: key)) := by
      rw [Buf.take_strnlen, Ptr.map_strnlen]
    rw [List.cons_append, dbActionIn, ← List.cons_append, Buf.strnlen_terminated, dbAction]
    dsimp only
    rw [hbytes, dbActionLoopIn_terminated, show (Ptr.ofList (b :: key)) 0 = b from rfl]
    split <;> rfl

theorem dbInsertIn_terminated (hash : List Byte → BitVec 32) (key : List Byte) (r : Buf) (fuel : Nat) (fs : Fs) (db : Db) :
    dbInsertIn hash (key ++ 0 :: r) fuel fs db = some (dbInsert hash (Ptr.ofList key) fuel fs db) := by
  induction fuel generalizing fs db with
  | zero => rfl
  | succ fuel ih =>
    rw [dbInsertIn, dbInsert, dbActionIn_terminated, dbMaybeInsert]
    cases dbAction hash fs db (Ptr.ofList key) .insert with
    | mk fs ok =>
      cases ok with
      | true => rfl
      | false =>
        cases hr : rehashLoop hash fuel fs db db.size with
        | error e => simp only [hr, bind, Except.bind]
        | ok p => simp only [hr, bind, Except.bind, ih]

/-- A string that is terminated in the mapping. -/
theorem staysInside_terminated {key : List Byte} (h0 : (0 : Byte) ∉ key) (r : Buf) : StaysInside (key ++ 0 :: r) := by
  have hkey : cstring (key ++ 0 :: r) = key := cstring_append h0 r
  constructor
  · intro hash fs db
    rw [hkey]
    exact dbActionIn_terminated hash fs db key r .query
  · intro hash fuel fs db
    rw [hkey]
    exact dbInsertIn_terminated hash key r fuel fs db

/-! ## The loop of `doit` -/

/-- Why the loop has no result. -/
inductive Stray where
  | outside | fuel
  deriving DecidableEq, Repr

/-- The loop of `doit` over the mapping: the keys that the database gets, in the memory that holds them. -/
def mappedCalls : Nat → Buf → Except Stray (List Buf)
  | 0, _ => .error .fuel
  | fuel + 1, buf =>
    match terminateLine buf with
    | none => .error .outside
    | some ([], _) => .error .outside
    | some (b :: line, next) =>
      -- Skip if line is empty.
      let calls := if b = 0 then [] else [b :: line]
      match next with
      | none => .ok calls
      | some buf => (mappedCalls fuel buf).map fun more => calls ++ more

/-- The keys of a text: its lines without the carriage return at their end, those with nothing left apart. A last line without a newline
is kept as it is. -/
def lineKeys (text : List Byte) : List (List Byte) :=
  let lines := text.splitOn newline
  (lines.dropLast.flatMap fun l => passKey (stripCr l)) ++ lines.getLast?.toList.flatMap passKey

/-- The loop over the mapped text ends, nothing outside the mapping is read, and the database is called once for each key in order. -/
def ReadsEveryLine (text : List Byte) : Prop :=
  ∃ fuel calls, mappedCalls fuel (mapping text) = .ok calls ∧ calls.map cstring = lineKeys text ∧ ∀ str ∈ calls, StaysInside str

theorem lineKeys_newline {l : List Byte} (hn : newline ∉ l) (rest : List Byte) :
    lineKeys (l ++ newline :: rest) = passKey (stripCr l) ++ lineKeys rest := by
  have hne : rest.splitOn newline ≠ [] := List.splitOn_ne_nil _ _
  simp only [lineKeys]
  rw [splitOn_newline hn, List.dropLast_cons_of_ne_nil hne, List.getLast?_cons_of_ne_nil hne, List.flatMap_cons, List.append_assoc]

theorem lineKeys_last {l : List Byte} (hn : newline ∉ l) : lineKeys l = passKey l := by
  simp only [lineKeys]
  rw [List.splitOn_eq_singleton hn]
  simp

/-- What one terminated line adds to the calls. -/
theorem calls_terminated {key : List Byte} (h0 : (0 : Byte) ∉ key) (r : Buf) :
    ∃ b line, key ++ 0 :: r = b :: line ∧ (if b = 0 then [] else [b :: line]).map cstring = passKey key ∧
      ∀ str ∈ (if b = 0 then [] else [b :: line]), StaysInside str := by
  cases key with
  | nil => exact ⟨0, r, rfl, rfl, fun str hs => absurd hs List.not_mem_nil⟩
  | cons b key =>
    have hb : b ≠ 0 := fun h => h0 (h ▸ List.mem_cons_self)
    refine ⟨b, key ++ 0 :: r, rfl, ?_, ?_⟩
    · rw [if_neg hb, List.map_singleton, ← List.cons_append, cstring_append h0, passKey, if_neg (List.cons_ne_nil b key)]
    · rw [if_neg hb]
      intro str hs
      rw [List.mem_singleton.mp hs]
      exact staysInside_terminated h0 r

/-- With a zero byte after the text the loop ends at it, by induction on the lines. -/
theorem mappedCalls_terminated (zeros : Nat) (text : List Byte) (h0 : (0 : Byte) ∉ text) : ∀ fuel, text.length < fuel →
    ∃ calls, mappedCalls fuel (text ++ List.replicate (zeros + 1) 0) = .ok calls ∧ calls.map cstring = lineKeys text ∧
      ∀ str ∈ calls, StaysInside str := by
  induction hlen : text.length using Nat.strongRecOn generalizing text with
  | ind len ih =>
    intro fuel hfuel
    obtain ⟨fuel, rfl⟩ := Nat.exists_eq_succ_of_ne_zero (Nat.ne_zero_of_lt hfuel)
    by_cases hn : newline ∈ text
    · obtain ⟨l, rest, rfl, hnl, h0l, h0r, hlt⟩ := first_line h0 hn
      rw [hlen] at hlt
      obtain ⟨calls, hcalls, hkeys, hin⟩ := ih rest.length hlt rest h0r rfl fuel (Nat.lt_of_lt_of_le hlt (Nat.le_of_lt_succ hfuel))
      obtain ⟨more, hterm⟩ := terminateLine_newline h0l hnl (rest ++ List.replicate (zeros + 1) 0)
      obtain ⟨b, line, hline, hkey, hstr⟩ := calls_terminated (not_mem_stripCr h0l) more
      refine ⟨(if b = 0 then [] else [b :: line]) ++ calls, ?_, ?_, ?_⟩
      · rw [mappedCalls, List.append_assoc, List.cons_append, hterm, hline]
        simp only [hcalls]
        rfl
      · rw [List.map_append, hkey, hkeys, lineKeys_newline hnl]
      · intro str hs
        exact (List.mem_append.mp hs).elim (hstr str) (hin str)
    · -- the last line ends at the first zero byte after the file
      obtain ⟨b, line, hline, hkey, hstr⟩ := calls_terminated h0 (List.replicate zeros 0)
      refine ⟨if b = 0 then [] else [b :: line], ?_, ?_, hstr⟩
      · rw [mappedCalls, List.replicate_succ, terminateLine_end h0 hn, hline]
      · rw [hkey, lineKeys_last hn]

/-- Without a zero byte after the text the loop leaves it. -/
theorem mappedCalls_outside (fuel : Nat) {text : List Byte} (h0 : (0 : Byte) ∉ text) (calls : List Buf) :
    mappedCalls fuel text ≠ .ok calls := by
  induction fuel generalizing text calls with
  | zero =>
    intro h
    cases h
  | succ fuel ih =>
    intro h
    rw [mappedCalls] at h
    by_cases hn : newline ∈ text
    · obtain ⟨l, rest, rfl, hnl, h0l, h0r, -⟩ := first_line h0 hn
      obtain ⟨more, hterm⟩ := terminateLine_newline h0l hnl rest
      obtain ⟨b, line, hline, -, -⟩ := calls_terminated (not_mem_stripCr h0l) more
      rw [hterm, hline] at h
      simp only at h
      cases hrest : mappedCalls fuel rest with
      | error e =>
        rw [hrest] at h
        cases h
      | ok calls' => exact ih h0r calls' hrest
    · rw [terminateLine, strchr_outside h0 hn] at h
      cases h

/-- The zero bytes after the text. -/
theorem mapping_zeros (text : List Byte) :
    (text.length % pageSize = 0 ∧ mapping text = text) ∨
      text.length % pageSize ≠ 0 ∧ ∃ zeros, mapping text = text ++ List.replicate (zeros + 1) 0 := by
  have hlt : text.length % pageSize < pageSize := Nat.mod_lt _ (by decide)
  by_cases h : text.length % pageSize = 0
  · refine Or.inl ⟨h, ?_⟩
    rw [mapping, h, Nat.sub_zero, Nat.mod_self]
    exact List.append_nil text
  · refine Or.inr ⟨h, pageSize - text.length % pageSize - 1, ?_⟩
    rw [mapping, Nat.mod_eq_of_lt (by omega)]
    congr 2
    omega

/-- The mapped loop sees every line, and reads nothing outside, exactly for the files that do not fill their pages. An empty file
has no pages: it cannot be mapped. -/
theorem reads_every_line_iff (text : List Byte) (h0 : (0 : Byte) ∉ text) :
    ReadsEveryLine text ↔ text.length % pageSize ≠ 0 := by
  rcases mapping_zeros text with ⟨hfull, hmap⟩ | ⟨hpart, zeros, hmap⟩
  · refine iff_of_false ?_ (not_not_intro hfull)
    rintro ⟨fuel, calls, hcalls, -, -⟩
    rw [hmap] at hcalls
    exact mappedCalls_outside fuel h0 calls hcalls
  · refine iff_of_true ?_ hpart
    obtain ⟨calls, hcalls, hkeys, hin⟩ := mappedCalls_terminated zeros text h0 (text.length + 1) (Nat.lt_succ_self _)
    exact ⟨text.length + 1, calls, by rw [hmap]; exact hcalls, hkeys, hin⟩

/-- The witness: one short line. -/
theorem reads_every_line_short : ReadsEveryLine [97, 10] ↔ [97, 10].length % pageSize ≠ 0 :=
  reads_every_line_iff [97, 10] (by decide)

/-- A page of letters. -/
theorem full_page_outside : ¬ ∀ text : List Byte, (0 : Byte) ∉ text → text ≠ [] → ReadsEveryLine text := by
  intro h
  have h0 : (0 : Byte) ∉ List.replicate 4096 (97 : Byte) := by
    rw [List.mem_replicate]
    decide
  have hmap : mapping (List.replicate 4096 97) = List.replicate 4096 97 := by
    rw [mapping, List.length_replicate]
    exact List.append_nil _
  obtain ⟨fuel, calls, hcalls, -, -⟩ := h (List.replicate 4096 97) h0 (List.cons_ne_nil _ _)
  rw [hmap] at hcalls
  exact mappedCalls_outside fuel h0 calls hcalls

end OsLabs.HashDb
