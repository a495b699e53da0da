import OsLabs.HashDb.Model
import OsLabs.Lib.Probe
import Mathlib.Logic.ExistsUnique

/-!
# The database refines a table with a probe sequence

The entries of a file are read as a table of keys, the strings of at most 48 bytes. `dbAction` is the lookup and the insertion of
that table (`dbActionLoop_query`, `dbActionLoop_insert`) along the sequence `probe`, and changes one file only; a rehash inserts
the keys of the old table into a new one.
-/

namespace OsLabs.HashDb

variable {hash : List Byte → BitVec 32}

/-- The string in an entry. -/
def Fs.key (fs : Fs) (inode idx : Nat) : List Byte := (fs.entry inode idx).cstr entLength

/-- The table of keys that a file of `size` entries holds. -/
def Fs.table (fs : Fs) (inode size : Nat) : Table (List Byte) :=
  fun i => if i < size ∧ fs.key inode i ≠ [] then some (fs.key inode i) else none

/-- The probe sequence of a key in a table of `size` entries. -/
def probe (hash : List Byte → BitVec 32) (size : Nat) (key : List Byte) (c : Nat) : Nat := slot size (hash key) c

theorem slot_lt {size : Nat} (h : 0 < size) (chain : BitVec 32) (c : Nat) : slot size chain c < size := Nat.mod_lt _ h

/-- An entry is free when it starts with a zero byte. -/
theorem key_eq_nil (fs : Fs) (inode idx : Nat) : fs.key inode idx = [] ↔ fs.entry inode idx 0 = 0 :=
  Ptr.cstr_eq_nil _ 47

theorem cstr_ne_nil {str : Ptr} (h : str 0 ≠ 0) : str.cstr entLength ≠ [] := fun e => h ((Ptr.cstr_eq_nil str 47).mp e)

theorem table_eq_some {fs : Fs} {inode size i : Nat} {k : List Byte} :
    fs.table inode size i = some k ↔ i < size ∧ fs.key inode i = k ∧ k ≠ [] := by
  unfold Fs.table
  split
  · rename_i h
    simp only [Option.some.injEq]
    constructor
    · rintro rfl
      exact ⟨h.1, rfl, h.2⟩
    · exact fun h => h.2.1
  · rename_i h
    refine iff_of_false nofun fun h' => h ⟨h'.1, ?_⟩
    rw [h'.2.1]
    exact h'.2.2

theorem table_eq_none {fs : Fs} {inode size i : Nat} (h : i < size) :
    fs.table inode size i = none ↔ fs.entry inode i 0 = 0 := by
  rw [← key_eq_nil, Fs.table]
  by_cases hk : fs.key inode i = [] <;> simp [h, hk]

/-! ## One store -/

/-- Two file systems that differ in the bytes of one file only. -/
structure SameElse (fs fs' : Fs) (inode : Nat) : Prop where
  dir : fs'.dir = fs.dir
  next : fs'.next = fs.next
  others : ∀ i, i ≠ inode → fs'.file i = fs.file i
  size : (fs'.file inode).size = (fs.file inode).size

theorem SameElse.refl (fs : Fs) (inode : Nat) : SameElse fs fs inode := ⟨rfl, rfl, fun _ _ => rfl, rfl⟩

theorem SameElse.trans {fs fs' fs'' : Fs} {inode : Nat} (h : SameElse fs fs' inode) (h' : SameElse fs' fs'' inode) :
    SameElse fs fs'' inode :=
  ⟨h'.dir.trans h.dir, h'.next.trans h.next, fun i hi => (h'.others i hi).trans (h.others i hi), h'.size.trans h.size⟩

theorem sameElse_strncpy (fs : Fs) (inode idx : Nat) (str : Ptr) : SameElse fs (fs.strncpy inode idx str) inode := by
  refine ⟨rfl, rfl, fun i hi => Function.update_of_ne hi _ _, ?_⟩
  simp [Fs.strncpy]

/-- The keys of a file that did not change. -/
theorem key_of_file {fs fs' : Fs} {inode : Nat} (h : fs'.file inode = fs.file inode) (idx : Nat) :
    fs'.key inode idx = fs.key inode idx :=
  Ptr.cstr_congr fun j _ => by simp only [Fs.entry, h]

/-- A file that did not change holds the same table. -/
theorem table_of_file {fs fs' : Fs} {inode : Nat} (h : fs'.file inode = fs.file inode) (size : Nat) :
    fs'.table inode size = fs.table inode size := by
  funext i
  simp only [Fs.table, key_of_file h]

/-- Entries with the same bytes hold the same table. -/
theorem table_of_entry {fs fs' : Fs} {inode size : Nat}
    (h : ∀ i, i < size → ∀ j, j < entLength → fs'.entry inode i j = fs.entry inode i j) :
    fs'.table inode size = fs.table inode size := by
  funext i
  by_cases hi : i < size
  · have hkey : fs'.key inode i = fs.key inode i := Ptr.cstr_congr (h i hi)
    simp only [Fs.table, hkey]
  · simp only [Fs.table, hi, false_and, if_false]

/-- `strncpy` stores the key in its entry and leaves the others alone. -/
theorem key_strncpy (fs : Fs) (inode idx i : Nat) (str : Ptr) :
    (fs.strncpy inode idx str).key inode i = if i = idx then str.cstr entLength else fs.key inode i := by
  have hE : entLength = 48 := rfl
  unfold Fs.key
  by_cases hi : i = idx
  · rw [if_pos hi, hi]
    refine Ptr.cstr_strncpy str _ entLength fun j hj => ?_
    simp only [Fs.entry, Fs.strncpy, Function.update_self]
    rw [if_pos (by omega), Nat.add_sub_cancel_left]
  · rw [if_neg hi]
    refine Ptr.cstr_congr fun j hj => ?_
    simp only [Fs.entry, Fs.strncpy, Function.update_self]
    rw [hE] at hj ⊢
    rw [if_neg (by omega)]

theorem table_strncpy {fs : Fs} {inode size idx : Nat} {str : Ptr} (hidx : idx < size) (hstr : str 0 ≠ 0) :
    (fs.strncpy inode idx str).table inode size = Function.update (fs.table inode size) idx (some (str.cstr entLength)) := by
  funext i
  rw [Fs.table, key_strncpy]
  by_cases hi : i = idx
  · rw [hi, Function.update_self, if_pos rfl, if_pos ⟨hidx, cstr_ne_nil hstr⟩]
  · rw [if_neg hi, Function.update_of_ne hi]
    rfl

/-! ## One call of `db_action` -/

/-- An insertion that fails has found every entry of the chain in use; one that succeeds changes nothing, or stores the string in a
free entry. -/
theorem dbActionLoop_cases {fs fs' : Fs} {db : Db} {str : Ptr} {chain : BitVec 32} {ok : Bool} (hpos : 0 < db.size) :
    ∀ (n c : Nat), dbActionLoop fs db str .insert chain n c = (fs', ok) →
      (ok = false → fs' = fs ∧ ∀ d, c ≤ d → d < c + n → fs.entry db.entry (slot db.size chain d) 0 ≠ 0) ∧
        (ok = true → fs' = fs ∨ ∃ idx, idx < db.size ∧ fs.entry db.entry idx 0 = 0 ∧ fs' = fs.strncpy db.entry idx str) := by
  intro n
  induction n with
  | zero =>
    intro c h
    obtain ⟨rfl, rfl⟩ := Prod.mk.inj h
    exact ⟨fun _ => ⟨rfl, fun d h1 h2 => by omega⟩, fun e => (by cases e)⟩
  | succ n ih =>
    intro c h
    rw [dbActionLoop] at h
    simp only [and_true] at h
    split at h
    · rename_i hempty
      obtain ⟨rfl, rfl⟩ := Prod.mk.inj h
      exact ⟨fun e => (by cases e), fun _ => Or.inr ⟨_, slot_lt hpos chain c, hempty, rfl⟩⟩
    · rename_i hfull
      split at h
      · obtain ⟨rfl, rfl⟩ := Prod.mk.inj h
        exact ⟨fun e => (by cases e), fun _ => Or.inl rfl⟩
      · obtain ⟨hfail, hok⟩ := ih (c + 1) h
        refine ⟨fun e => ⟨(hfail e).1, fun d h1 h2 => ?_⟩, hok⟩
        by_cases hd : d = c
        · rw [hd]
          exact hfull
        · exact (hfail e).2 d (by omega) (by omega)

/-- A query is a lookup along the probe sequence. -/
theorem dbActionLoop_query {fs : Fs} {db : Db} {str : Ptr} (hpos : 0 < db.size) (hstr : str 0 ≠ 0) (n c : Nat) :
    (dbActionLoop fs db str .query (hash (str.cstr entLength)) n c).2 =
      Table.lookup (probe hash db.size) (fs.table db.entry db.size) (str.cstr entLength) n c := by
  induction n generalizing c with
  | zero => rfl
  | succ n ih =>
    have hidx := slot_lt hpos (hash (str.cstr entLength)) c
    rw [dbActionLoop, Table.lookup]
    simp only [reduceCtorEq, and_false, if_false, Ptr.strncmp_eq_zero, probe, table_eq_some]
    by_cases he : str.cstr entLength = fs.key db.entry (slot db.size (hash (str.cstr entLength)) c)
    · rw [if_pos (by exact he), if_pos ⟨hidx, he.symm, cstr_ne_nil hstr⟩]
    · rw [if_neg (by exact he), if_neg fun h => he h.2.1.symm, ih]

/-- An insertion is the insertion along the probe sequence; when it fails, nothing has changed. -/
theorem dbActionLoop_insert {fs : Fs} {db : Db} {str : Ptr} (hpos : 0 < db.size) (hstr : str 0 ≠ 0) (n c : Nat)
    {fs' : Fs} {ok : Bool} (h : dbActionLoop fs db str .insert (hash (str.cstr entLength)) n c = (fs', ok)) :
    SameElse fs fs' db.entry ∧ (ok = false → fs' = fs) ∧
      (ok = true → Table.insert (probe hash db.size) (fs.table db.entry db.size) (str.cstr entLength) n c =
        some (fs'.table db.entry db.size)) := by
  induction n generalizing c with
  | zero =>
    obtain ⟨rfl, rfl⟩ := Prod.mk.inj h
    exact ⟨.refl fs db.entry, fun _ => rfl, fun e => by cases e⟩
  | succ n ih =>
    have hidx := slot_lt hpos (hash (str.cstr entLength)) c
    rw [dbActionLoop] at h
    rw [Table.insert]
    simp only [probe, and_true] at h ⊢
    split at h
    · rename_i hempty
      obtain ⟨rfl, rfl⟩ := Prod.mk.inj h
      rw [(table_eq_none hidx).mpr hempty]
      exact ⟨sameElse_strncpy .., fun e => (by cases e), fun _ => by rw [table_strncpy hidx hstr]⟩
    · rename_i hfull
      obtain ⟨k, hk⟩ := Option.ne_none_iff_exists'.mp fun h => hfull ((table_eq_none hidx).mp h)
      obtain ⟨-, hkey, -⟩ := table_eq_some.mp hk
      rw [hk]
      simp only [Ptr.strncmp_eq_zero] at h ⊢
      split at h
      · rename_i heq
        obtain ⟨rfl, rfl⟩ := Prod.mk.inj h
        exact ⟨.refl fs db.entry, fun _ => rfl, fun _ => by rw [if_pos (heq.trans hkey)]⟩
      · rename_i hne
        rw [if_neg fun e => hne (e.trans hkey.symm)]
        exact ih (c + 1) h

/-! ## A file that stores a set of keys -/

/-- The file holds a table of `size` entries with exactly the keys `keys`. -/
structure Stored (hash : List Byte → BitVec 32) (fs : Fs) (inode size : Nat) (keys : List Byte → Prop) : Prop where
  pos : 0 < size
  bytes : (fs.file inode).size = size * entLength
  probed : Table.Probed (probe hash size) (chainLen size) (fs.table inode size)
  has : ∀ k, (fs.table inode size).Has k ↔ keys k

theorem Stored.of_table {fs fs' : Fs} {inode size : Nat} {keys : List Byte → Prop} (h : Stored hash fs inode size keys)
    (hb : (fs'.file inode).size = (fs.file inode).size) (ht : fs'.table inode size = fs.table inode size) :
    Stored hash fs' inode size keys :=
  ⟨h.pos, hb.trans h.bytes, by rw [ht]; exact h.probed, by rw [ht]; exact h.has⟩

/-- A change of other files. -/
theorem Stored.of_file {fs fs' : Fs} {inode size : Nat} {keys : List Byte → Prop} (h : Stored hash fs inode size keys)
    (hf : fs'.file inode = fs.file inode) : Stored hash fs' inode size keys :=
  h.of_table (by rw [hf]) (table_of_file hf size)

/-- A query finds exactly the keys stored. -/
theorem Stored.query {fs : Fs} {db : Db} {keys : List Byte → Prop} (h : Stored hash fs db.entry db.size keys) {str : Ptr}
    (hstr : str 0 ≠ 0) : dbQuery hash fs db str = true ↔ keys (str.cstr entLength) := by
  rw [dbQuery, dbAction, if_neg hstr]
  simp only [Ptr.map_strnlen]
  rw [dbActionLoop_query h.pos hstr, h.probed.lookup, h.has]

/-- An insertion that succeeds adds its key; one that fails changes nothing. -/
theorem Stored.maybeInsert {fs fs' : Fs} {db : Db} {keys : List Byte → Prop} (h : Stored hash fs db.entry db.size keys)
    {str : Ptr} (hstr : str 0 ≠ 0) {ok : Bool} (hcall : dbMaybeInsert hash fs db str = (fs', ok)) :
    SameElse fs fs' db.entry ∧ (ok = false → fs' = fs) ∧
      (ok = true → Stored hash fs' db.entry db.size fun k => k = str.cstr entLength ∨ keys k) := by
  rw [dbMaybeInsert, dbAction, if_neg hstr] at hcall
  simp only [Ptr.map_strnlen] at hcall
  obtain ⟨hsame, hfail, hok⟩ := dbActionLoop_insert h.pos hstr _ _ hcall
  refine ⟨hsame, hfail, fun e => ?_⟩
  obtain ⟨hprobed, hhas⟩ := h.probed.insert (hok e)
  exact ⟨h.pos, hsame.size.trans h.bytes, hprobed, fun k => by rw [hhas, h.has]⟩

/-! ## Opening and rehashing -/

/-- The path leads to a database with the keys `keys`, and nothing stands at the path of the rehashed one. -/
structure Opened (hash : List Byte → BitVec 32) (name : String) (fs : Fs) (db : Db) (keys : List Byte → Prop) : Prop where
  stored : Stored hash fs db.entry db.size keys
  path : fs.dir name = some db.entry
  named : db.name = name
  rehash : fs.dir (name ++ ".rehash") = none
  next : ∀ path inode, fs.dir path = some inode → inode < fs.next

/-- A file of zero bytes is an empty table. -/
theorem stored_zero {fs : Fs} {inode size : Nat} (hpos : 0 < size) (hb : (fs.file inode).size = size * entLength)
    (hz : ∀ x, x < size * entLength → (fs.file inode).byte x = 0) : Stored hash fs inode size fun _ => False := by
  have hE : entLength = 48 := rfl
  have ht : fs.table inode size = fun _ => none := by
    funext i
    by_cases hi : i < size
    · rw [table_eq_none hi]
      refine hz _ ?_
      have := Nat.mul_le_mul_right entLength (Nat.succ_le_of_lt hi)
      rw [Nat.succ_mul] at this
      omega
    · exact if_neg fun h => hi h.1
  refine ⟨hpos, hb, by rw [ht]; exact Table.probed_empty, fun k => ?_⟩
  rw [ht]
  exact iff_of_false nofun id

/-- Creating a database of `size` entries at a free path: a new file of zero bytes. -/
theorem dbOpen_new {fs : Fs} {name : String} {size : Nat} (hsize : size ≠ 0) (hpow : powerof2 size) (hfree : fs.dir name = none) :
    ∃ fs', dbOpen fs name size = .ok (fs', ⟨fs.next, size, name⟩) ∧
      (fs'.file fs.next).size = size * entLength ∧ (∀ x, (fs'.file fs.next).byte x = 0) ∧
      fs'.dir = Function.update fs.dir name (some fs.next) ∧ fs'.next = fs.next + 1 ∧
      ∀ i, i ≠ fs.next → fs'.file i = fs.file i := by
  have hopen : dbOpen fs name size = .ok
      (({ dir := Function.update fs.dir name (some fs.next), file := Function.update fs.file fs.next ⟨0, fun _ => 0⟩,
          next := fs.next + 1 } : Fs).truncate fs.next (size * entLength), ⟨fs.next, size, name⟩) := by
    unfold dbOpen
    rw [if_neg (not_not_intro hpow)]
    simp only [Fs.openCreate, hfree, bind, Except.bind, if_neg hsize]
  refine ⟨_, hopen, ?_, fun x => ?_, rfl, rfl, fun i hi => ?_⟩
  · simp [Fs.truncate]
  · simp [Fs.truncate]
  · simp [Fs.truncate, hi]

/-- The copy loop inserts the keys of its entries into the new table. -/
theorem copyLoop_spec {db new : Db} (hne : db.entry ≠ new.entry) (n i : Nat) {fs fs' : Fs} {ok : Bool} {keys : List Byte → Prop}
    (h : Stored hash fs new.entry new.size keys) (hcall : copyLoop hash db new n i fs = (fs', ok)) :
    SameElse fs fs' new.entry ∧ (ok = true → Stored hash fs' new.entry new.size fun k =>
      keys k ∨ ∃ j, i ≤ j ∧ j < i + n ∧ fs.key db.entry j = k ∧ k ≠ []) := by
  induction n generalizing i fs keys with
  | zero =>
    obtain ⟨rfl, rfl⟩ := Prod.mk.inj hcall
    refine ⟨.refl fs new.entry, fun _ => ⟨h.pos, h.bytes, h.probed, fun k => (h.has k).trans ⟨Or.inl, ?_⟩⟩⟩
    rintro (hk | ⟨j, h1, h2, -⟩)
    · exact hk
    · omega
  | succ n ih =>
    rw [copyLoop] at hcall
    by_cases hstr : fs.entry db.entry i 0 = 0
    · -- an empty entry: nothing is stored
      have hskip : dbMaybeInsert hash fs new (fs.entry db.entry i) = (fs, true) := by
        rw [dbMaybeInsert, dbAction, if_pos hstr]
        rfl
      rw [hskip] at hcall
      obtain ⟨hsame, hok⟩ := ih (i + 1) h hcall
      refine ⟨hsame, fun e => ?_⟩
      have hs := hok e
      refine ⟨hs.pos, hs.bytes, hs.probed, fun k => (hs.has k).trans (or_congr Iff.rfl ?_)⟩
      constructor
      · rintro ⟨j, h1, h2, hk⟩
        exact ⟨j, by omega, by omega, hk⟩
      · rintro ⟨j, h1, h2, hk, hne'⟩
        have : j ≠ i := by
          rintro rfl
          exact hne' (hk ▸ (key_eq_nil fs db.entry j).mpr hstr)
        exact ⟨j, by omega, by omega, hk, hne'⟩
    · cases hins : dbMaybeInsert hash fs new (fs.entry db.entry i) with
      | mk fs₁ ok₁ =>
        obtain ⟨hsame₁, hfail₁, hok₁⟩ := h.maybeInsert hstr hins
        rw [hins] at hcall
        cases ok₁ with
        | false =>
          obtain ⟨rfl, rfl⟩ := Prod.mk.inj hcall
          exact ⟨hsame₁, nofun⟩
        | true =>
          obtain ⟨hsame, hok⟩ := ih (i + 1) (hok₁ rfl) hcall
          refine ⟨hsame₁.trans hsame, fun e => ?_⟩
          have hs := hok e
          refine ⟨hs.pos, hs.bytes, hs.probed, fun k => (hs.has k).trans ?_⟩
          have hkey : ∀ j, fs₁.key db.entry j = fs.key db.entry j := key_of_file (hsame₁.others _ hne)
          simp only [hkey]
          constructor
          · rintro ((rfl | hk) | ⟨j, h1, h2, hk⟩)
            · exact Or.inr ⟨i, by omega, by omega, rfl, cstr_ne_nil hstr⟩
            · exact Or.inl hk
            · exact Or.inr ⟨j, by omega, by omega, hk⟩
          · rintro (hk | ⟨j, h1, h2, hk, hne'⟩)
            · exact Or.inl (Or.inr hk)
            · by_cases hj : j = i
              · subst hj
                exact Or.inl (Or.inl hk.symm)
              · exact Or.inr ⟨j, by omega, by omega, hk, hne'⟩

/-- The path of the rehashed database is another path. -/
theorem rehash_ne (name : String) : name ++ ".rehash" ≠ name := by
  intro h
  have := congrArg String.length h
  rw [String.length_append] at this
  have : (".rehash" : String).length = 7 := by decide
  omega

/-- The database is the file at its path, and nothing stands at the path of the rehashed one. -/
structure Placed (name : String) (fs : Fs) (db : Db) : Prop where
  path : fs.dir name = some db.entry
  named : db.name = name
  rehash : fs.dir (name ++ ".rehash") = none
  next : ∀ path inode, fs.dir path = some inode → inode < fs.next

theorem Opened.placed {name : String} {fs : Fs} {db : Db} {keys : List Byte → Prop} (h : Opened hash name fs db keys) :
    Placed name fs db :=
  ⟨h.path, h.named, h.rehash, h.next⟩

/-- A change of the bytes of one file. -/
theorem Placed.of_same {name : String} {fs fs' : Fs} {db : Db} {inode : Nat} (h : Placed name fs db)
    (hsame : SameElse fs fs' inode) : Placed name fs' db := by
  refine ⟨?_, h.named, ?_, ?_⟩
  · rw [hsame.dir]
    exact h.path
  · rw [hsame.dir]
    exact h.rehash
  · rw [hsame.dir, hsame.next]
    exact h.next

/-- The files in the course of a rehash: `fs₁` once the new file is there, `fs₂` once the entries are copied, or do not fit. -/
structure Copied (hash : List Byte → BitVec 32) (name : String) (fs : Fs) (db : Db) (newSize : Nat) (fs₁ fs₂ : Fs)
    (ok : Bool) : Prop where
  create : dbOpen fs (name ++ ".rehash") newSize = .ok (fs₁, ⟨fs.next, newSize, name ++ ".rehash"⟩)
  bytes : (fs₁.file fs.next).size = newSize * entLength
  zero : ∀ x, (fs₁.file fs.next).byte x = 0
  dir : fs₁.dir = Function.update fs.dir (name ++ ".rehash") (some fs.next)
  next : fs₁.next = fs.next + 1
  others : ∀ i, i ≠ fs.next → fs₁.file i = fs.file i
  copy : copyLoop hash db ⟨fs.next, newSize, name ++ ".rehash"⟩ db.size 0 fs₁ = (fs₂, ok)
  same : SameElse fs₁ fs₂ fs.next

/-- An insertion changes one file. -/
theorem dbMaybeInsert_same {fs fs' : Fs} {db : Db} {str : Ptr} {ok : Bool} (hpos : 0 < db.size)
    (h : dbMaybeInsert hash fs db str = (fs', ok)) : SameElse fs fs' db.entry := by
  rw [dbMaybeInsert, dbAction] at h
  split at h
  · obtain ⟨rfl, -⟩ := Prod.mk.inj h
    exact .refl fs db.entry
  · obtain ⟨hfail, hok⟩ := dbActionLoop_cases hpos _ _ h
    cases ok with
    | false =>
      rw [(hfail rfl).1]
      exact .refl fs db.entry
    | true =>
      rcases hok rfl with rfl | ⟨idx, -, -, rfl⟩
      · exact .refl fs' db.entry
      · exact sameElse_strncpy ..

/-- The copy loop changes the new file only. -/
theorem copyLoop_same {db new : Db} (hpos : 0 < new.size) : ∀ (n i : Nat) {fs fs' : Fs} {ok : Bool},
    copyLoop hash db new n i fs = (fs', ok) → SameElse fs fs' new.entry := by
  intro n
  induction n with
  | zero =>
    intro i fs fs' ok h
    obtain ⟨rfl, -⟩ := Prod.mk.inj h
    exact .refl fs new.entry
  | succ n ih =>
    intro i fs fs' ok h
    rw [copyLoop] at h
    cases hins : dbMaybeInsert hash fs new (fs.entry db.entry i) with
    | mk fs₁ ok₁ =>
      have hsame := dbMaybeInsert_same hpos hins
      rw [hins] at h
      cases ok₁ with
      | false =>
        obtain ⟨rfl, -⟩ := Prod.mk.inj h
        exact hsame
      | true => exact hsame.trans (ih (i + 1) h)

/-- What a rehash does: it copies into a new file, which it removes or renames. -/
theorem Placed.dbRehash {name : String} {fs : Fs} {db : Db} {newSize : Nat} (hash : List Byte → BitVec 32)
    (h : Placed name fs db) (hsize : newSize ≠ 0) (hpow : powerof2 newSize) :
    ∃ fs₁ fs₂ ok, Copied hash name fs db newSize fs₁ fs₂ ok ∧ HashDb.dbRehash hash fs db newSize =
      .ok (if ok then (fs₂.rename (name ++ ".rehash") name, ⟨fs.next, newSize, name⟩, true)
        else (fs₂.unlink (name ++ ".rehash"), db, false)) := by
  obtain ⟨fs₁, hopen, hbytes, hzero, hdir, hnext, hothers⟩ := dbOpen_new hsize hpow h.rehash
  cases hcopy : copyLoop hash db ⟨fs.next, newSize, name ++ ".rehash"⟩ db.size 0 fs₁ with
  | mk fs₂ ok =>
    refine ⟨fs₁, fs₂, ok, ⟨hopen, hbytes, hzero, hdir, hnext, hothers, hcopy,
      copyLoop_same (Nat.pos_of_ne_zero hsize) _ _ hcopy⟩, ?_⟩
    rw [HashDb.dbRehash, if_neg (not_not_intro hpow), h.named]
    simp only [bind, Except.bind, hopen, hcopy]
    cases ok with
    | false => rfl
    | true => rfl

/-- The files after a rehash that failed: the new one is gone, and the database is where it was. -/
theorem Copied.fail {name : String} {fs fs₁ fs₂ : Fs} {db : Db} {newSize : Nat} {ok : Bool} (h : Placed name fs db)
    (hc : Copied hash name fs db newSize fs₁ fs₂ ok) :
    Placed name (fs₂.unlink (name ++ ".rehash")) db ∧
      (fs₂.unlink (name ++ ".rehash")).file db.entry = fs.file db.entry := by
  have hlt := h.next name db.entry h.path
  have hd : (fs₂.unlink (name ++ ".rehash")).dir = fs.dir := by
    simp only [Fs.unlink, hc.same.dir, hc.dir, Function.update_idem, ← h.rehash, Function.update_eq_self]
  refine ⟨⟨by rw [hd]; exact h.path, h.named, by rw [hd]; exact h.rehash, fun path inode hp => ?_⟩, ?_⟩
  · rw [hd] at hp
    have := h.next path inode hp
    simp only [Fs.unlink, hc.same.next, hc.next]
    omega
  · exact (hc.same.others _ (by omega)).trans (hc.others _ (by omega))

/-- The files after a rehash that succeeded: the new one is at the path of the database. -/
theorem Copied.done {name : String} {fs fs₁ fs₂ : Fs} {db : Db} {newSize : Nat} {ok : Bool} (h : Placed name fs db)
    (hc : Copied hash name fs db newSize fs₁ fs₂ ok) :
    Placed name (fs₂.rename (name ++ ".rehash") name) ⟨fs.next, newSize, name⟩ := by
  have hdir : fs₂.dir = Function.update fs.dir (name ++ ".rehash") (some fs.next) := hc.same.dir.trans hc.dir
  have hpath : fs₂.dir (name ++ ".rehash") = some fs.next := by rw [hdir, Function.update_self]
  refine ⟨?_, rfl, ?_, fun path inode hp => ?_⟩
  · simp only [Fs.rename]
    rw [Function.update_of_ne (rehash_ne name).symm, Function.update_self, hpath]
  · simp [Fs.rename]
  · simp only [Fs.rename, hpath, hc.same.next, hc.next] at hp ⊢
    by_cases h1 : path = name ++ ".rehash"
    · rw [h1, Function.update_self] at hp
      cases hp
    · rw [Function.update_of_ne h1] at hp
      by_cases h2 : path = name
      · rw [h2, Function.update_self] at hp
        have := Option.some.inj hp
        omega
      · rw [Function.update_of_ne h2, hdir, Function.update_of_ne h1] at hp
        have := h.next path inode hp
        omega

/-- The new size of a rehash that returns is a power of two. -/
theorem powerof2_of_dbRehash {fs : Fs} {db : Db} {newSize : Nat} {r : Fs × Db × Bool}
    (hcall : dbRehash hash fs db newSize = .ok r) : powerof2 newSize := by
  by_contra hpow
  rw [dbRehash, if_pos hpow] at hcall
  cases hcall

/-- A rehash, whether it succeeds or not, keeps the keys of the database. -/
theorem Opened.rehashed {name : String} {fs fs' : Fs} {db db' : Db} {keys : List Byte → Prop} {newSize : Nat} {ok : Bool}
    (h : Opened hash name fs db keys) (hsize : newSize ≠ 0) (hcall : dbRehash hash fs db newSize = .ok (fs', db', ok)) :
    Opened hash name fs' db' keys := by
  obtain ⟨fs₁, fs₂, ok₂, hc, hrun⟩ := h.placed.dbRehash hash hsize (powerof2_of_dbRehash hcall)
  have hr := Except.ok.inj (hrun.symm.trans hcall)
  have hlt := h.next name db.entry h.path
  cases ok₂ with
  | false =>
    obtain ⟨rfl, rfl, -⟩ : fs₂.unlink (name ++ ".rehash") = fs' ∧ db = db' ∧ false = ok := by simpa using hr
    obtain ⟨hp, hfile⟩ := hc.fail h.placed
    exact ⟨h.stored.of_file hfile, hp.path, hp.named, hp.rehash, hp.next⟩
  | true =>
    obtain ⟨rfl, rfl, -⟩ : fs₂.rename (name ++ ".rehash") name = fs' ∧ (⟨fs.next, newSize, name⟩ : Db) = db' ∧ true = ok := by
      simpa using hr
    have hnew : Stored hash fs₁ fs.next newSize fun _ => False :=
      stored_zero (Nat.pos_of_ne_zero hsize) hc.bytes fun x _ => hc.zero x
    have hs := (copyLoop_spec (by simp only; omega) db.size 0 hnew hc.copy).2 rfl
    have hp := hc.done h.placed
    refine ⟨⟨hs.pos, hs.bytes, hs.probed, fun k => (hs.has k).trans ?_⟩, hp.path, hp.named, hp.rehash, hp.next⟩
    rw [← h.stored.has]
    simp only [false_or, Table.Has, table_eq_some, key_of_file (hc.others db.entry (by omega)), Nat.zero_le, true_and,
      Nat.zero_add]

end OsLabs.HashDb
