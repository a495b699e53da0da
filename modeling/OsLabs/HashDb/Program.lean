import OsLabs.HashDb.Mapping
import OsLabs.HashDb.Crash

/-!
# Runs of the program (`hashdb.c`)

`main` opens the database at a path and inserts or queries the keys on its standard input, a terminal or a mapped file. Here is the
program from its options to what it prints, with the memory of the lines; `doit_eq` takes the lines apart from the database, and
`answers_of_runs` follows the database through any number of runs of the program, one after the other. The inputs are without zero
bytes, and a file does not fill its pages (`Stdin.Readable`).

What `db_rehash` prints on `stderr` is left out.
-/

namespace OsLabs.HashDb

/-- Why a run does not return. -/
inductive Fault where
  | usage | mmapError | outside | fuel
  | stop (e : Stop)
  deriving DecidableEq, Repr

/-- Standard input: what is typed at a terminal, or a file. -/
inductive Stdin where
  | terminal (typed : List Byte)
  | file (text : List Byte)

/-- A run of the program: the files, the open database, and the lines printed. -/
structure Session where
  fs : Fs
  db : Db
  out : List String

section Program

variable (hash : List Byte → BitVec 32) (fuel : Nat) (mode : Op)

/-- `db_insert(db, buf)`, or `puts(db_query(db, buf) ? "YES" : "NO")`. -/
def callDb (str : Buf) (c : Session) : Except Fault Session :=
  match mode with
  | .insert =>
    match dbInsertIn hash str fuel c.fs c.db with
    | none => .error .outside
    | some (.error e) => .error (.stop e)
    | some (.ok (fs, db)) => .ok { c with fs := fs, db := db }
  | .query =>
    match dbActionIn hash c.fs c.db str .query with
    | none => .error .outside
    | some (fs, ok) => .ok { c with fs := fs, out := c.out ++ [if ok then "YES" else "NO"] }

/-- `consume_line`: the run behind the line, and the memory from the next line on. -/
def consumeLineDb (buf : Buf) (c : Session) : Except Fault (Session × Option Buf) :=
  match terminateLine buf with
  | none => .error .outside
  | some ([], _) => .error .outside
  | some (b :: line, next) =>
    -- Skip if line is empty.
    if b ≠ 0 then (callDb hash fuel mode (b :: line) c).map fun c => (c, next) else .ok (c, next)

/-- The loop of `doit` over a terminal. -/
def typedLoop : Nat → List Byte → Session → Except Fault Session
  | 0, _, _ => .error .fuel
  | rounds + 1, input, c =>
    match fgets entLength input with
    | ([], _) => .ok c
    | (b :: chunk, input) => do
      let (c, _) ← consumeLineDb hash fuel mode (b :: chunk ++ [0]) c
      typedLoop rounds input c

/-- The loop of `doit` over mapped input. -/
def mappedLoop : Nat → Buf → Session → Except Fault Session
  | 0, _, _ => .error .fuel
  | rounds + 1, line, c => do
    match ← consumeLineDb hash fuel mode line c with
    | (c, none) => .ok c
    | (c, some line) => mappedLoop rounds line c

/-- `doit`: the files and what is printed. An empty file cannot be mapped. -/
def doit (fs : Fs) (path : String) (stdin : Stdin) : Except Fault (Fs × List String) :=
  match dbOpen fs path 0 with
  | .error e => .error (.stop e)
  | .ok (fs, db) => do
    let c ← match stdin with
      | .terminal typed => typedLoop hash fuel mode (typed.length + 1) typed ⟨fs, db, []⟩
      | .file text =>
        if text = [] then .error .mmapError else mappedLoop hash fuel mode (text.length + 1) (mapping text) ⟨fs, db, []⟩
    .ok (c.fs, c.out)

end Program

/-- The `getopt` loop of `main`: the last option counts. -/
def selectMode : List Char → Option Op → Except Fault (Option Op)
  | [], mode => .ok mode
  | 'i' :: opts, _ => selectMode opts (some .insert)
  | 'q' :: opts, _ => selectMode opts (some .query)
  | _ :: _, _ => .error .usage

/-- `main`. -/
def main (hash : List Byte → BitVec 32) (fuel : Nat) (fs : Fs) (opts : List Char) (operands : List String) (stdin : Stdin) :
    Except Fault (Fs × List String) := do
  match ← selectMode opts none, operands with
  | some mode, path :: _ => doit hash fuel mode fs path stdin
  | _, _ => .error .usage

/-! ## The keys of the input -/

/-- The pieces of a line as long as the buffer of the terminal, and what is left. -/
def cutLine (l : List Byte) : List (List Byte) × List Byte :=
  ((List.range (l.length / entLength)).map fun i => (l.drop (entLength * i)).take entLength,
    l.drop (entLength * (l.length / entLength)))

/-- The keys typed at a terminal: the pieces of each line, and what is left of it without the carriage return at its end. A last line
without a newline is kept as it is. -/
def typedKeys (typed : List Byte) : List (List Byte) :=
  let lines := typed.splitOn newline
  (lines.dropLast.flatMap fun l => (cutLine l).1 ++ passKey (stripCr (cutLine l).2)) ++
    lines.getLast?.toList.flatMap fun l => (cutLine l).1 ++ passKey (cutLine l).2

/-- The keys of the standard input. -/
def Stdin.keys : Stdin → List (List Byte)
  | .terminal typed => typedKeys typed
  | .file text => lineKeys text

/-- The input has no zero byte; a file does not fill its pages, and is not empty. -/
def Stdin.Readable : Stdin → Prop
  | .terminal typed => (0 : Byte) ∉ typed
  | .file text => (0 : Byte) ∉ text ∧ text.length % pageSize ≠ 0

/-! ## The loops take the lines apart -/

section Loops

variable {hash : List Byte → BitVec 32} {fuel : Nat} {mode : Op}

/-- What `db_insert` or `db_query` does with a key. -/
def keyCall (hash : List Byte → BitVec 32) (fuel : Nat) (mode : Op) (key : List Byte) (c : Session) : Except Fault Session :=
  match mode with
  | .insert =>
    match dbInsert hash (Ptr.ofList key) fuel c.fs c.db with
    | .error e => .error (.stop e)
    | .ok (fs, db) => .ok { c with fs := fs, db := db }
  | .query => .ok { c with out := c.out ++ [if dbQuery hash c.fs c.db (Ptr.ofList key) then "YES" else "NO"] }

/-- The calls for keys, in order. -/
def keyCalls (hash : List Byte → BitVec 32) (fuel : Nat) (mode : Op) : List (List Byte) → Session → Except Fault Session
  | [], c => .ok c
  | key :: keys, c => do
    let c ← keyCall hash fuel mode key c
    keyCalls hash fuel mode keys c

theorem keyCalls_append (keys keys' : List (List Byte)) (c : Session) :
    keyCalls hash fuel mode (keys ++ keys') c = (keyCalls hash fuel mode keys c).bind (keyCalls hash fuel mode keys') := by
  induction keys generalizing c with
  | nil => rfl
  | cons key keys ih =>
    rw [List.cons_append, keyCalls, keyCalls]
    cases keyCall hash fuel mode key c with
    | error e => rfl
    | ok c => exact ih c

/-- A query writes nothing into the database. -/
theorem dbActionLoop_query_fst (fs : Fs) (db : Db) (str : Ptr) (chain : BitVec 32) (n i : Nat) :
    (dbActionLoop fs db str .query chain n i).1 = fs := by
  induction n generalizing i with
  | zero => rfl
  | succ n ih =>
    rw [dbActionLoop, if_neg (fun h => Op.noConfusion h.2)]
    split
    · rfl
    · exact ih (i + 1)

theorem dbAction_query_fst (fs : Fs) (db : Db) (str : Ptr) : (dbAction hash fs db str .query).1 = fs := by
  rw [dbAction]
  split
  · rfl
  · exact dbActionLoop_query_fst fs db str _ _ _

/-- A line terminated in memory is one key. -/
theorem callDb_terminated (key : List Byte) (r : Buf) (c : Session) :
    callDb hash fuel mode (key ++ 0 :: r) c = keyCall hash fuel mode key c := by
  cases mode with
  | insert =>
    rw [callDb, keyCall, dbInsertIn_terminated]
    cases dbInsert hash (Ptr.ofList key) fuel c.fs c.db with
    | error e => rfl
    | ok p => rfl
  | query =>
    have hfs : (dbAction hash c.fs c.db (Ptr.ofList key) .query).1 = c.fs := dbAction_query_fst _ _ _
    simp only [callDb, keyCall, dbActionIn_terminated, dbQuery, hfs]
    rfl

/-- What `consume_line` does with a string terminated in memory: nothing if it is empty. -/
theorem consumeLineDb_of {buf : Buf} {key : List Byte} {r : Buf} {next : Option Buf} (h0 : (0 : Byte) ∉ key)
    (h : terminateLine buf = some (key ++ 0 :: r, next)) (c : Session) :
    consumeLineDb hash fuel mode buf c = (keyCalls hash fuel mode (passKey key) c).map fun c => (c, next) := by
  rw [consumeLineDb, h]
  cases key with
  | nil => rfl
  | cons b key =>
    have hb : b ≠ 0 := fun e => h0 (e ▸ List.mem_cons_self)
    rw [List.cons_append]
    dsimp only
    rw [if_pos hb, ← List.cons_append, callDb_terminated, passKey, if_neg (List.cons_ne_nil b key), keyCalls]
    cases keyCall hash fuel mode (b :: key) c <;> rfl

theorem consumeLineDb_newline {l : List Byte} (h0 : (0 : Byte) ∉ l) (hn : newline ∉ l) (r : List Byte) (c : Session) :
    consumeLineDb hash fuel mode (l ++ newline :: r) c =
      (keyCalls hash fuel mode (passKey (stripCr l)) c).map fun c => (c, some r) := by
  obtain ⟨more, h⟩ := terminateLine_newline h0 hn r
  exact consumeLineDb_of (not_mem_stripCr h0) h c

theorem consumeLineDb_end {l : List Byte} (h0 : (0 : Byte) ∉ l) (hn : newline ∉ l) (r : List Byte) (c : Session) :
    consumeLineDb hash fuel mode (l ++ 0 :: r) c = (keyCalls hash fuel mode (passKey l) c).map fun c => (c, none) :=
  consumeLineDb_of h0 (terminateLine_end h0 hn r) c

/-! ### Mapped input -/

theorem mappedLoop_terminated (zeros : Nat) (text : List Byte) (h0 : (0 : Byte) ∉ text) : ∀ rounds (c : Session),
    text.length < rounds →
      mappedLoop hash fuel mode rounds (text ++ List.replicate (zeros + 1) 0) c = keyCalls hash fuel mode (lineKeys text) c := by
  induction hlen : text.length using Nat.strongRecOn generalizing text with
  | ind len ih =>
    intro rounds c hrounds
    obtain ⟨rounds, rfl⟩ := Nat.exists_eq_succ_of_ne_zero (Nat.ne_zero_of_lt hrounds)
    rw [mappedLoop]
    by_cases hn : newline ∈ text
    · obtain ⟨l, rest, rfl, hnl, h0l, h0r, hlt⟩ := first_line h0 hn
      rw [hlen] at hlt
      rw [List.append_assoc, List.cons_append, consumeLineDb_newline h0l hnl, lineKeys_newline hnl, keyCalls_append]
      cases keyCalls hash fuel mode (passKey (stripCr l)) c with
      | error e => rfl
      | ok c => exact ih rest.length hlt rest h0r rfl rounds c (by omega)
    · rw [List.replicate_succ, consumeLineDb_end h0 hn, lineKeys_last hn]
      cases keyCalls hash fuel mode (passKey text) c <;> rfl

/-! ### A terminal -/

/-- The loop at a terminal makes the calls for some keys. -/
def Typed (hash : List Byte → BitVec 32) (fuel : Nat) (mode : Op) (input : List Byte) (keys : List (List Byte)) : Prop :=
  ∀ rounds c, input.length < rounds → typedLoop hash fuel mode rounds input c = keyCalls hash fuel mode keys c

/-- One round of the loop. -/
theorem Typed.chunk {input chunk rest : List Byte} {key keys : List (List Byte)} (hf : fgets entLength input = (chunk, rest))
    (hne : chunk ≠ []) (hlen : rest.length < input.length)
    (hc : ∀ c, ∃ next, consumeLineDb hash fuel mode (chunk ++ [0]) c = (keyCalls hash fuel mode key c).map fun c => (c, next))
    (h : Typed hash fuel mode rest keys) : Typed hash fuel mode input (key ++ keys) := by
  intro rounds c hrounds
  obtain ⟨rounds, rfl⟩ := Nat.exists_eq_succ_of_ne_zero (Nat.ne_zero_of_lt hrounds)
  obtain ⟨b, chunk, rfl⟩ := List.exists_cons_of_ne_nil hne
  obtain ⟨next, hnext⟩ := hc c
  rw [typedLoop, hf, keyCalls_append]
  dsimp only
  rw [hnext]
  cases keyCalls hash fuel mode key c with
  | error e => rfl
  | ok c => exact h rounds c (by omega)

theorem typed_nil : Typed hash fuel mode [] [] := by
  intro rounds c hrounds
  obtain ⟨rounds, rfl⟩ := Nat.exists_eq_succ_of_ne_zero (Nat.ne_zero_of_lt hrounds)
  rfl

/-- A piece as long as the buffer. -/
theorem Typed.full {a rest : List Byte} {keys : List (List Byte)} (h0 : (0 : Byte) ∉ a) (hn : newline ∉ a)
    (ha : a.length = entLength) (h : Typed hash fuel mode rest keys) : Typed hash fuel mode (a ++ rest) (a :: keys) := by
  have hne : a ≠ [] := by
    rintro rfl
    cases ha
  have hf : fgets entLength (a ++ rest) = (a, rest) := by
    rw [← ha]
    exact fgets_full hn rest
  have hlen : rest.length < (a ++ rest).length := by
    rw [List.length_append, ha]
    unfold entLength
    omega
  have hround := Typed.chunk hf hne hlen (fun c => ⟨none, consumeLineDb_end h0 hn [] c⟩) h
  rw [passKey, if_neg hne] at hround
  exact hround

/-- The pieces of a line: none, or the first one and those of the rest. -/
theorem cutLine_short {l : List Byte} (h : l.length < entLength) : cutLine l = ([], l) := by
  rw [cutLine, Nat.div_eq_of_lt h]
  rfl

theorem cutLine_long {l : List Byte} (h : entLength ≤ l.length) :
    cutLine l = (l.take entLength :: (cutLine (l.drop entLength)).1, (cutLine (l.drop entLength)).2) := by
  have hdiv : l.length / entLength = (l.drop entLength).length / entLength + 1 := by
    rw [List.length_drop, ← Nat.sub_add_cancel h, Nat.add_sub_cancel, Nat.add_div_right _ (by decide)]
  simp only [cutLine, hdiv, List.range_succ_eq_map, List.map_cons, List.map_map, List.drop_drop, Nat.mul_zero, List.drop_zero,
    Prod.mk.injEq, List.cons.injEq, true_and]
  refine ⟨List.map_congr_left fun i _ => ?_, ?_⟩
  · simp only [Function.comp_apply, Nat.mul_succ, Nat.add_comm]
  · rw [Nat.mul_succ, Nat.add_comm]

/-- The pieces of a line go to the database one by one, and then what is left of it. -/
theorem Typed.line (tail : List Byte) (last : List Byte → List (List Byte))
    (hshort : ∀ l : List Byte, (0 : Byte) ∉ l → newline ∉ l → l.length < entLength → Typed hash fuel mode (l ++ tail) (last l))
    {l : List Byte} (h0 : (0 : Byte) ∉ l) (hn : newline ∉ l) :
    Typed hash fuel mode (l ++ tail) ((cutLine l).1 ++ last (cutLine l).2) := by
  induction hl : l.length using Nat.strongRecOn generalizing l with
  | ind len ih =>
    by_cases hlt : l.length < entLength
    · rw [cutLine_short hlt]
      exact hshort l h0 hn hlt
    · have hge : entLength ≤ l.length := Nat.not_lt.mp hlt
      have hpos : 0 < entLength := by decide
      have hdrop : (l.drop entLength).length = l.length - entLength := List.length_drop
      have hrest := ih (l.drop entLength).length (by omega) (fun hm => h0 (List.mem_of_mem_drop hm))
        (fun hm => hn (List.mem_of_mem_drop hm)) rfl
      have hfull := Typed.full (fun hm => h0 (List.mem_of_mem_take hm)) (fun hm => hn (List.mem_of_mem_take hm))
        (List.length_take_of_le hge) hrest
      rw [← List.append_assoc, List.take_append_drop] at hfull
      rw [cutLine_long hge]
      exact hfull

theorem typedKeys_newline {l : List Byte} (hn : newline ∉ l) (rest : List Byte) :
    typedKeys (l ++ newline :: rest) = (cutLine l).1 ++ passKey (stripCr (cutLine l).2) ++ typedKeys rest := by
  have hne : rest.splitOn newline ≠ [] := List.splitOn_ne_nil _ _
  simp only [typedKeys]
  rw [splitOn_newline hn, List.dropLast_cons_of_ne_nil hne, List.getLast?_cons_of_ne_nil hne, List.flatMap_cons, List.append_assoc]

theorem typedKeys_last {l : List Byte} (hn : newline ∉ l) : typedKeys l = (cutLine l).1 ++ passKey (cutLine l).2 := by
  simp only [typedKeys]
  rw [List.splitOn_eq_singleton hn]
  simp

/-- The loop at a terminal, by induction on the lines. -/
theorem typed_text (text : List Byte) (h0 : (0 : Byte) ∉ text) : Typed hash fuel mode text (typedKeys text) := by
  induction hlen : text.length using Nat.strongRecOn generalizing text with
  | ind len ih =>
    by_cases hn : newline ∈ text
    · obtain ⟨l, rest, rfl, hnl, h0l, h0r, hlt⟩ := first_line h0 hn
      have hrest := ih rest.length (by omega) rest h0r rfl
      rw [typedKeys_newline hnl, List.append_assoc]
      refine Typed.line _ (fun l => passKey (stripCr l) ++ typedKeys rest) (fun l h0 hn hlt => ?_) h0l hnl
      have happ : l ++ [newline] ++ [0] = l ++ newline :: [0] := by simp
      refine Typed.chunk (fgets_newline hn hlt rest) (by simp) ?_ (fun c => ⟨some [0], ?_⟩) hrest
      · rw [List.length_append, List.length_cons]
        omega
      · rw [happ]
        exact consumeLineDb_newline h0 hn [0] c
    · rw [typedKeys_last hn]
      have hline : Typed hash fuel mode (text ++ []) _ := Typed.line [] passKey (fun l h0 hn hlt => ?_) h0 hn
      · rw [List.append_nil] at hline
        exact hline
      · rw [List.append_nil]
        by_cases hne : l = []
        · subst hne
          exact typed_nil
        · rw [← List.append_nil (passKey l)]
          refine Typed.chunk (fgets_end hn (Nat.le_of_lt hlt)) hne ?_ (fun c => ⟨none, consumeLineDb_end h0 hn [] c⟩) typed_nil
          exact List.length_pos_iff.mpr hne

end Loops

/-! ## Many runs -/

section Runs

variable {hash : List Byte → BitVec 32} {name : String}

/-- Enough rounds for the loops of `db_insert`, whatever the database holds. -/
def insertFuel : Nat := 47

theorem large_fuel {size n : Nat} (hpos : 0 < size) (hn : n < 2 ^ 31) : Large (size * 2 ^ 46) n := by
  refine ⟨?_, by omega⟩
  have hle : 2 ^ 14 * (n + 2) ≤ 1 * 2 ^ 46 := by omega
  exact hle.trans (Nat.mul_le_mul_right _ hpos)

/-- The open database has the keys inserted, and room for those to come. -/
structure Holding (hash : List Byte → BitVec 32) (name : String) (c : Session) (inserted : List (List Byte)) : Prop where
  opened : Opened hash name c.fs c.db (prefixes inserted)
  usable : Usable name c.fs c.db
  used : c.fs.used c.db.entry c.db.size ≤ inserted.length

/-- One insertion. -/
theorem Holding.insert {c : Session} {inserted : List (List Byte)} (h : Holding hash name c inserted) {key : List Byte}
    (hkey : IsKey key) (hn : inserted.length < 2 ^ 31) :
    ∃ c', keyCall hash insertFuel .insert key c = .ok c' ∧ c'.out = c.out ∧ Holding hash name c' (key :: inserted) := by
  obtain ⟨⟨fs, db⟩, hr⟩ := h.usable.insert_ends hash 46 (Ptr.ofList key) (large_fuel h.usable.isTable.pos (h.used.trans_lt hn))
  obtain ⟨husable, hused⟩ := h.usable.insert 47 hr
  obtain ⟨hstr, hcstr⟩ := cstr_key hkey
  have hopened := h.opened.insert 47 hstr hr
  refine ⟨{ c with fs := fs, db := db }, ?_, rfl, hopened.congr fun k => ?_, husable, ?_⟩
  · simp only [keyCall, insertFuel, hr]
  · rw [hcstr]
    simp only [prefixes, List.mem_cons, exists_eq_or_imp]
    exact or_congr_left eq_comm
  · rw [List.length_cons]
    exact hused.trans (Nat.succ_le_succ h.used)

/-- All insertions of a run. -/
theorem Holding.insertAll {c : Session} {inserted keys : List (List Byte)} (h : Holding hash name c inserted)
    (hkeys : ∀ key ∈ keys, IsKey key) (hn : inserted.length + keys.length ≤ 2 ^ 31) :
    ∃ c', keyCalls hash insertFuel .insert keys c = .ok c' ∧ c'.out = c.out ∧ Holding hash name c' (keys.reverse ++ inserted) := by
  induction keys generalizing c inserted with
  | nil => exact ⟨c, rfl, rfl, h⟩
  | cons key keys ih =>
    rw [List.length_cons] at hn
    obtain ⟨c₁, hcall, hout, h₁⟩ := h.insert (hkeys key List.mem_cons_self) (by omega)
    obtain ⟨c₂, hcalls, hout', h₂⟩ := ih h₁ (fun k hk => hkeys k (List.mem_cons_of_mem _ hk)) (by rw [List.length_cons]; omega)
    refine ⟨c₂, ?_, hout'.trans hout, ?_⟩
    · rw [keyCalls, hcall]
      exact hcalls
    · rw [List.reverse_cons, List.append_assoc]
      exact h₂

/-- What is printed for a key. -/
def answer (inserted : List (List Byte)) (key : List Byte) : String :=
  if ∃ k ∈ inserted, k.take entLength = key.take entLength then "YES" else "NO"

/-- All queries of a run. -/
theorem Holding.queryAll {c : Session} {inserted keys : List (List Byte)} (h : Holding hash name c inserted)
    (hkeys : ∀ key ∈ keys, IsKey key) (fuel : Nat) :
    keyCalls hash fuel .query keys c = .ok { c with out := c.out ++ keys.map (answer inserted) } := by
  induction keys generalizing c with
  | nil => simp [keyCalls]
  | cons key keys ih =>
    obtain ⟨hstr, hcstr⟩ := cstr_key (hkeys key List.mem_cons_self)
    have hquery : (if dbQuery hash c.fs c.db (Ptr.ofList key) then "YES" else "NO") = answer inserted key := by
      rw [answer]
      refine if_congr ?_ rfl rfl
      rw [h.opened.stored.query hstr, hcstr]
      rfl
    have hrest := @ih { c with out := c.out ++ [answer inserted key] } ⟨h.opened, h.usable, h.used⟩
      fun k hk => hkeys k (List.mem_cons_of_mem _ hk)
    rw [keyCalls, keyCall, hquery]
    refine hrest.trans ?_
    simp only [List.map_cons, List.append_assoc, List.singleton_append]

/-- Between two runs: no file yet, or the database. -/
def Between (hash : List Byte → BitVec 32) (name : String) (fs : Fs) (inserted : List (List Byte)) : Prop :=
  (NewFile name fs ∧ inserted = []) ∨ ∃ db, Holding hash name ⟨fs, db, []⟩ inserted

/-- A run opens the database. -/
theorem Between.open {fs : Fs} {inserted : List (List Byte)} (h : Between hash name fs inserted) :
    ∃ fs' db, dbOpen fs name 0 = .ok (fs', db) ∧ Holding hash name ⟨fs', db, []⟩ inserted := by
  rcases h with ⟨hnew, rfl⟩ | ⟨db, h⟩
  · obtain ⟨⟨fs', db⟩, hopen⟩ : ∃ r, dbOpen fs name 0 = .ok r := by
      cases hdir : fs.dir name <;> exact ⟨_, by simp [dbOpen, Fs.openCreate, hdir, powerof2, bind, Except.bind]; rfl⟩
    have husable := hnew.usable hopen
    refine ⟨fs', db, hopen, (hnew.open hopen).congr fun k => ?_, husable, ?_⟩
    · simp [prefixes]
    · obtain ⟨-, hsize, hbytes, hzero⟩ := hnew.created hopen
      have hone : (fs'.file db.entry).size = 1 * entLength := by rw [hbytes, Nat.one_mul]
      show fs'.used db.entry db.size ≤ 0
      rw [hsize]
      refine Nat.le_of_eq (isTable_zero ⟨0, rfl⟩ hone fun i hi j hj => ?_).2
      obtain rfl := Nat.lt_one_iff.mp hi
      exact hzero _ (by rwa [Nat.zero_mul, Nat.zero_add])
  · obtain ⟨fs', hopen, husable, hentry⟩ := h.usable.reopen
    refine ⟨fs', db, hopen, h.opened.reopen hopen, husable, ?_⟩
    rw [used_congr fun i hi => hentry i hi 0 (by decide)]
    exact h.used

/-! ### The keys are keys -/

theorem passKey_isKey {l : List Byte} (h0 : (0 : Byte) ∉ l) : ∀ key ∈ passKey l, IsKey key := by
  intro key hkey
  unfold passKey at hkey
  split at hkey
  · cases hkey
  · rename_i hne
    obtain rfl := List.mem_singleton.mp hkey
    exact ⟨hne, h0⟩

theorem cutLine_isKey {l : List Byte} (h0 : (0 : Byte) ∉ l) : (∀ key ∈ (cutLine l).1, IsKey key) ∧ (0 : Byte) ∉ (cutLine l).2 := by
  refine ⟨fun key hkey => ?_, fun hm => h0 (List.mem_of_mem_drop hm)⟩
  obtain ⟨i, hi, rfl⟩ := List.mem_map.mp hkey
  have hlt := List.mem_range.mp hi
  refine ⟨fun hnil => ?_, fun hm => h0 (List.mem_of_mem_drop (List.mem_of_mem_take hm))⟩
  have hlen := congrArg List.length hnil
  have hdiv : entLength * (l.length / entLength) ≤ l.length := Nat.mul_div_le _ _
  have hmul : entLength * (i + 1) ≤ entLength * (l.length / entLength) := Nat.mul_le_mul_left _ hlt
  rw [List.length_take, List.length_drop, List.length_nil] at hlen
  have hE : entLength = 48 := rfl
  rw [hE] at hlen hdiv hmul hlt
  omega

theorem Stdin.Readable.keys {stdin : Stdin} (h : stdin.Readable) : ∀ key ∈ stdin.keys, IsKey key := by
  have lines : ∀ (f : List Byte → List (List Byte)) (first : List Byte → List (List Byte)),
      (∀ l rest, newline ∉ l → f (l ++ newline :: rest) = first l ++ f rest) →
      (∀ l : List Byte, (0 : Byte) ∉ l → ∀ key ∈ first l, IsKey key) →
      (∀ l : List Byte, (0 : Byte) ∉ l → newline ∉ l → ∀ key ∈ f l, IsKey key) →
      ∀ text : List Byte, (0 : Byte) ∉ text → ∀ key ∈ f text, IsKey key := by
    intro f first hcons hfirst hlast text h0
    induction hlen : text.length using Nat.strongRecOn generalizing text with
    | ind len ih =>
      by_cases hn : newline ∈ text
      · obtain ⟨l, rest, rfl, hnl, h0l, h0r, hlt⟩ := first_line h0 hn
        rw [hcons l rest hnl]
        intro key hkey
        rcases List.mem_append.mp hkey with hm | hm
        · exact hfirst l h0l key hm
        · exact ih rest.length (by omega) rest h0r rfl key hm
      · exact hlast text h0 hn
  cases stdin with
  | terminal typed =>
    refine lines typedKeys (fun l => (cutLine l).1 ++ passKey (stripCr (cutLine l).2)) (fun l rest hn => typedKeys_newline hn rest)
      (fun l h0 key hkey => ?_) (fun l h0 hn key hkey => ?_) typed h
    · rcases List.mem_append.mp hkey with hm | hm
      · exact (cutLine_isKey h0).1 key hm
      · exact passKey_isKey (not_mem_stripCr (cutLine_isKey h0).2) key hm
    · rw [typedKeys_last hn] at hkey
      rcases List.mem_append.mp hkey with hm | hm
      · exact (cutLine_isKey h0).1 key hm
      · exact passKey_isKey (cutLine_isKey h0).2 key hm
  | file text =>
    refine lines lineKeys (fun l => passKey (stripCr l)) (fun l rest hn => lineKeys_newline hn rest)
      (fun l h0 => passKey_isKey (not_mem_stripCr h0)) (fun l h0 hn key hkey => ?_) text h.1
    rw [lineKeys_last hn] at hkey
    exact passKey_isKey h0 key hkey

/-! ### The runs -/

/-- `doit` makes the calls for the keys of its input. -/
theorem doit_eq {fuel : Nat} {mode : Op} {fs fs' : Fs} {db : Db} {stdin : Stdin} (h : stdin.Readable)
    (hopen : dbOpen fs name 0 = .ok (fs', db)) :
    doit hash fuel mode fs name stdin = (keyCalls hash fuel mode stdin.keys ⟨fs', db, []⟩).map fun c => (c.fs, c.out) := by
  have hcalls : ∀ r : Except Fault Session, (do let c ← r; Except.ok (c.fs, c.out)) = r.map fun c => (c.fs, c.out) := by
    rintro (e | c) <;> rfl
  rw [doit, hopen]
  dsimp only
  cases stdin with
  | terminal typed =>
    rw [hcalls]
    dsimp only
    rw [typed_text typed h _ _ (Nat.lt_succ_self _)]
    rfl
  | file text =>
    have hne : text ≠ [] := by
      rintro rfl
      exact h.2 rfl
    rw [hcalls]
    dsimp only
    rw [if_neg hne]
    rcases mapping_zeros text with ⟨hfull, -⟩ | ⟨-, zeros, hmap⟩
    · exact absurd hfull h.2
    · rw [hmap, mappedLoop_terminated zeros text h.1 _ _ (Nat.lt_succ_self _)]
      rfl

/-- The options and the standard input of a run. -/
structure Run where
  opts : List Char
  stdin : Stdin

/-- The runs of the program on the database at `name`, one after the other, and what each prints. -/
def runAll (hash : List Byte → BitVec 32) (fuel : Nat) (name : String) : List Run → Fs → Except Fault (Fs × List (List String))
  | [], fs => .ok (fs, [])
  | r :: rs, fs => do
    let (fs, out) ← main hash fuel fs r.opts [name] r.stdin
    let (fs, outs) ← runAll hash fuel name rs fs
    .ok (fs, out :: outs)

/-- A run with a mode whose input can be read. -/
structure Run.Ok (r : Run) : Prop where
  mode : ∃ mode, selectMode r.opts none = .ok (some mode)
  readable : r.stdin.Readable

/-- The keys that a run inserts. -/
def Run.inserts (r : Run) : List (List Byte) := if selectMode r.opts none = .ok (some .insert) then r.stdin.keys else []

/-- What a run prints: an answer for each key of a query, nothing for an insertion. -/
def Run.prints (r : Run) (inserted : List (List Byte)) : List String :=
  if selectMode r.opts none = .ok (some .insert) then [] else r.stdin.keys.map (answer inserted)

/-- What all runs print. -/
def answers : List (List Byte) → List Run → List (List String)
  | _, [] => []
  | inserted, r :: rs => r.prints inserted :: answers (r.inserts.reverse ++ inserted) rs

/-- One run. -/
theorem Between.run {fs : Fs} {inserted : List (List Byte)} (h : Between hash name fs inserted) {r : Run} (hr : r.Ok)
    (hn : inserted.length + r.inserts.length ≤ 2 ^ 31) :
    ∃ fs', main hash insertFuel fs r.opts [name] r.stdin = .ok (fs', r.prints inserted) ∧
      Between hash name fs' (r.inserts.reverse ++ inserted) := by
  obtain ⟨fs₁, db₁, hopen, h₁⟩ := h.open
  obtain ⟨mode, hmode⟩ := hr.mode
  have hmain : main hash insertFuel fs r.opts [name] r.stdin = doit hash insertFuel mode fs name r.stdin := by
    simp only [main, hmode, bind, Except.bind]
  rw [hmain, doit_eq hr.readable hopen]
  cases mode with
  | insert =>
    rw [Run.inserts, if_pos hmode] at hn ⊢
    rw [Run.prints, if_pos hmode]
    obtain ⟨c, hcalls, hout, hc⟩ := h₁.insertAll hr.readable.keys hn
    rw [hcalls]
    refine ⟨c.fs, ?_, Or.inr ⟨c.db, hc.opened, hc.usable, hc.used⟩⟩
    rw [Except.map, hout]
  | query =>
    have hno : ¬ selectMode r.opts none = .ok (some .insert) := by
      rw [hmode]
      exact fun he => by cases he
    rw [Run.inserts, if_neg hno, Run.prints, if_neg hno, h₁.queryAll hr.readable.keys]
    exact ⟨fs₁, rfl, Or.inr ⟨db₁, h₁⟩⟩

theorem Between.runs {fs : Fs} {inserted : List (List Byte)} {rs : List Run} (h : Between hash name fs inserted)
    (hrs : ∀ r ∈ rs, r.Ok) (hn : inserted.length + (rs.flatMap Run.inserts).length ≤ 2 ^ 31) :
    ∃ fs', runAll hash insertFuel name rs fs = .ok (fs', answers inserted rs) := by
  induction rs generalizing fs inserted with
  | nil => exact ⟨fs, rfl⟩
  | cons r rs ih =>
    rw [List.flatMap_cons, List.length_append] at hn
    obtain ⟨fs₁, hmain, h₁⟩ := h.run (hrs r List.mem_cons_self) (by omega)
    obtain ⟨fs₂, hrest⟩ := ih h₁ (fun r hr => hrs r (List.mem_cons_of_mem _ hr))
      (by rw [List.length_append, List.length_reverse]; omega)
    refine ⟨fs₂, ?_⟩
    simp only [runAll, answers, hmain, hrest, bind, Except.bind]

/-- Any number of runs of the program, from no database, each with a mode and with an input that has no zero byte and, if it is a file,
does not fill its pages (`Run.Ok`): each returns, an insertion prints nothing, and a query prints one line for each key of its input,
`YES` exactly when a key with the same first 48 bytes was inserted by a run before. -/
theorem answers_of_runs (hash : List Byte → BitVec 32) (name : String) {fs : Fs} (hfs : NewFile name fs) (rs : List Run)
    (hrs : ∀ r ∈ rs, r.Ok) (hn : (rs.flatMap Run.inserts).length ≤ 2 ^ 31) :
    ∃ fs', runAll hash insertFuel name rs fs = .ok (fs', answers [] rs) :=
  Between.runs (Or.inl ⟨hfs, rfl⟩) hrs (by rwa [List.length_nil, Nat.zero_add])

/-- The witness: `ab` is inserted from a file, and typed twice to be queried, the second time cut off. -/
theorem answers_of_two_runs : ∃ fs', runAll (fun _ => 0) insertFuel "db"
    [⟨['i'], .file [97, 98, 10]⟩, ⟨['q'], .terminal [97, 98, 10, 97]⟩] noFiles.fs = .ok (fs', [[], ["YES", "NO"]]) := by
  have hinserts : ([⟨['i'], .file [97, 98, 10]⟩, ⟨['q'], .terminal [97, 98, 10, 97]⟩] : List Run).flatMap Run.inserts = [[97, 98]] := by
    decide
  obtain ⟨fs', h⟩ := answers_of_runs (fun _ => 0) "db" (show NewFile "db" noFiles.fs from ⟨nofun, rfl, nofun⟩)
    [⟨['i'], .file [97, 98, 10]⟩, ⟨['q'], .terminal [97, 98, 10, 97]⟩]
    (by
      intro r hr
      rcases List.mem_pair.mp hr with rfl | rfl
      · exact ⟨⟨.insert, rfl⟩, by decide, by decide⟩
      · exact ⟨⟨.query, rfl⟩, by show (0 : Byte) ∉ _; decide⟩)
    (by rw [hinserts]; decide)
  exact ⟨fs', h⟩

end Runs

/-! ## Keys that are there already -/

section Again

variable {hash : List Byte → BitVec 32} {name : String}

/-- The chain of a key that is behind occupied entries only is followed to the key, and nothing is stored. -/
theorem dbActionLoop_found {fs : Fs} {db : Db} {str : Ptr} (hpos : 0 < db.size) (hstr : str 0 ≠ 0) {n c d : Nat} (hd : d < n)
    (hfound : fs.table db.entry db.size (probe hash db.size (str.cstr entLength) (c + d)) = some (str.cstr entLength))
    (hbefore : ∀ e, e < d → fs.table db.entry db.size (probe hash db.size (str.cstr entLength) (c + e)) ≠ none) :
    dbActionLoop fs db str .insert (hash (str.cstr entLength)) n c = (fs, true) := by
  induction n generalizing c d with
  | zero => exact absurd hd (Nat.not_lt_zero d)
  | succ n ih =>
    have hidx := slot_lt hpos (hash (str.cstr entLength)) c
    rw [dbActionLoop]
    cases d with
    | zero =>
      have hkey : fs.key db.entry (slot db.size (hash (str.cstr entLength)) c) = str.cstr entLength := (table_eq_some.mp hfound).2.1
      have hused : fs.entry db.entry (slot db.size (hash (str.cstr entLength)) c) 0 ≠ 0 := fun h0 =>
        cstr_ne_nil hstr (hkey.symm.trans ((key_eq_nil fs db.entry _).mpr h0))
      rw [if_neg (fun h => hused h.1), if_pos ((Ptr.strncmp_eq_zero _ _ _).mpr hkey.symm)]
    | succ d =>
      have hused := mt (table_eq_none hidx).mpr (hbefore 0 (Nat.succ_pos d))
      rw [if_neg (fun h => hused h.1)]
      split
      · rfl
      · refine ih (Nat.lt_of_succ_lt_succ hd) ?_ fun e he => ?_
        · rw [Nat.add_right_comm, Nat.add_assoc]
          exact hfound
        · rw [Nat.add_right_comm, Nat.add_assoc]
          exact hbefore (e + 1) (Nat.succ_lt_succ he)

/-- An insertion of a key that is there. -/
theorem Stored.insert_there {fs : Fs} {db : Db} {keys : List Byte → Prop} (h : Stored hash fs db.entry db.size keys) {str : Ptr}
    (hstr : str 0 ≠ 0) (hkey : keys (str.cstr entLength)) (fuel : Nat) : dbInsert hash str (fuel + 1) fs db = .ok (fs, db) := by
  obtain ⟨i, hi⟩ := (h.has _).mpr hkey
  obtain ⟨c, hc, rfl, hbefore⟩ := h.probed.behind i _ hi
  have hloop := dbActionLoop_found (c := 0) h.pos hstr hc (by rw [Nat.zero_add]; exact hi) fun e he => by
    rw [Nat.zero_add]
    exact hbefore e he
  have hins : dbMaybeInsert hash fs db str = (fs, true) := by
    rw [dbMaybeInsert, dbAction, if_neg hstr]
    simp only [Ptr.map_strnlen]
    exact hloop
  rw [dbInsert, hins]

/-- The insertions of a run whose keys are all there. -/
theorem Opened.keyCalls_there {c : Session} {inserted keys : List (List Byte)}
    (h : Opened hash name c.fs c.db (prefixes inserted)) (hkeys : ∀ key ∈ keys, IsKey key)
    (hthere : ∀ key ∈ keys, ∃ k ∈ inserted, k.take entLength = key.take entLength) (fuel : Nat) :
    keyCalls hash (fuel + 1) .insert keys c = .ok c := by
  induction keys with
  | nil => rfl
  | cons key keys ih =>
    obtain ⟨hstr, hcstr⟩ := cstr_key (hkeys key List.mem_cons_self)
    have hkey : prefixes inserted ((Ptr.ofList key).cstr entLength) := by
      rw [hcstr]
      exact hthere key List.mem_cons_self
    have hcall : keyCall hash (fuel + 1) .insert key c = .ok c := by
      simp only [keyCall, h.stored.insert_there hstr hkey]
    rw [keyCalls, hcall]
    exact ih (fun k hk => hkeys k (List.mem_cons_of_mem _ hk)) fun k hk => hthere k (List.mem_cons_of_mem _ hk)

/-- The same paths, files of the same sizes, and the same bytes in them. -/
structure Unchanged (fs fs' : Fs) : Prop where
  dir : fs'.dir = fs.dir
  size : ∀ inode, (fs'.file inode).size = (fs.file inode).size
  byte : ∀ inode x, x < (fs.file inode).size → (fs'.file inode).byte x = (fs.file inode).byte x

/-- A database that is opened again. -/
theorem SameElse.unchanged {fs fs' : Fs} {inode size : Nat} (h : SameElse fs fs' inode)
    (hbytes : (fs.file inode).size = size * entLength)
    (hentry : ∀ i, i < size → ∀ j, j < entLength → fs'.entry inode i j = fs.entry inode i j) : Unchanged fs fs' := by
  refine ⟨h.dir, fun i => ?_, fun i x hx => ?_⟩
  · by_cases hi : i = inode
    · rw [hi, h.size]
    · rw [h.others i hi]
  · by_cases hi : i = inode
    · subst hi
      rw [hbytes] at hx
      have hbyte := hentry (x / entLength) (Nat.div_lt_of_lt_mul (by rwa [Nat.mul_comm])) (x % entLength) (Nat.mod_lt _ (by decide))
      have hx' : x / entLength * entLength + x % entLength = x := Nat.div_add_mod' x entLength
      rw [Fs.entry, Fs.entry, hx'] at hbyte
      exact hbyte
    · rw [h.others i hi]

/-- A run of the program that inserts keys which are all there changes nothing, however many keys and in whatever order: it prints
nothing, and leaves the paths, the sizes of the files and their bytes as they were. -/
theorem insert_again (hash : List Byte → BitVec 32) (name : String) {s : St} (hs : (runs hash name).Reach s)
    (hfile : ∃ inode, s.fs.dir name = some inode ∧ (s.fs.file inode).size ≠ 0) {opts : List Char}
    (hmode : selectMode opts none = .ok (some .insert)) {stdin : Stdin} (hread : stdin.Readable)
    (hthere : ∀ key ∈ stdin.keys, ∃ k ∈ s.inserted, k.take entLength = key.take entLength) (fuel : Nat) :
    ∃ fs', main hash (fuel + 1) s.fs opts [name] stdin = .ok (fs', []) ∧ Unchanged s.fs fs' := by
  obtain ⟨db, hopened⟩ : ∃ db, Opened hash name s.fs db (prefixes s.inserted) := by
    have h := inv_reach hs
    unfold Inv at h
    split at h
    · exact ⟨_, h⟩
    · refine h.resolve_left fun hnew => ?_
      obtain ⟨inode, hdir, hsize⟩ := hfile
      exact hsize (hnew.1.empty inode hdir)
  obtain ⟨fs', hopen, hsame, hentry⟩ := dbOpen_again hopened.path hopened.stored.pos hopened.stored.bytes
  have hcalls := Opened.keyCalls_there (c := ⟨fs', _, []⟩) (hopened.reopen hopen) hread.keys hthere fuel
  have hmain : main hash (fuel + 1) s.fs opts [name] stdin = doit hash (fuel + 1) .insert s.fs name stdin := by
    simp only [main, hmode, bind, Except.bind]
  refine ⟨fs', ?_, hsame.unchanged hopened.stored.bytes hentry⟩
  rw [hmain, doit_eq hread hopen, hcalls]
  rfl

/-- Two keys that are there are inserted again from a file. -/
theorem insert_again_two : ∃ fs fs' : Fs, (runs (fun _ => 0) "db").Reach ⟨fs, some ⟨1, 2, "db"⟩, [[98], [97]]⟩ ∧
    main (fun _ => 0) 1 fs ['i'] ["db"] (.file [98, 10, 97, 10]) = .ok (fs', []) ∧ Unchanged fs fs' := by
  obtain ⟨-, fs, -, -, -, h, -⟩ := two_keys
  have hI := inv_reach h
  have hfile : ∃ inode, fs.dir "db" = some inode ∧ (fs.file inode).size ≠ 0 := ⟨1, hI.path, by rw [hI.stored.bytes]; decide⟩
  have hread : (Stdin.file [98, 10, 97, 10]).Readable := ⟨by decide, by decide⟩
  have hthere : ∀ key ∈ (Stdin.file [98, 10, 97, 10]).keys, ∃ k ∈ ([[98], [97]] : List (List Byte)),
      k.take entLength = key.take entLength := by decide
  have hmode : selectMode ['i'] none = .ok (some .insert) := rfl
  obtain ⟨fs', hmain, hsame⟩ := insert_again (fun _ => 0) "db" h hfile hmode hread hthere 0
  exact ⟨fs, fs', h, hmain, hsame⟩

end Again

end OsLabs.HashDb
