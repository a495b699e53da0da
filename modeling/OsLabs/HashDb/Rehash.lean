import OsLabs.HashDb.Finish

/-!
# A rehash does all or nothing

`db_rehash` copies the keys into a file of its own and then unlinks it, or renames it over the database. So a rehash that fails has
changed nothing that a path leads to, and one that succeeds has put a table with the same keys at the path of the database.
-/

namespace OsLabs.HashDb

variable {hash : List Byte → BitVec 32} {name : String}

/-- Every path leads to a file with the same bytes, or to none, as before. -/
def SameFiles (fs fs' : Fs) : Prop := ∀ path, (fs'.dir path).map fs'.file = (fs.dir path).map fs.file

/-- A key is in one of the entries of the database. -/
def Stores (fs : Fs) (db : Db) (key : List Byte) : Prop := ∃ i, i < db.size ∧ fs.key db.entry i = key ∧ key ≠ []

/-- The files and the database after a rehash to `newSize` entries that succeeded. -/
structure Rehashed (hash : List Byte → BitVec 32) (fs : Fs) (db : Db) (newSize : Nat) (fs' : Fs) (db' : Db) : Prop where
  path : fs'.dir db.name = some db'.entry
  named : db'.name = db.name
  size : db'.size = newSize
  bytes : (fs'.file db'.entry).size = newSize * entLength
  keys : ∀ key, Stores fs' db' key ↔ Stores fs db key
  once : ∀ i j, i < db'.size → j < db'.size → fs'.key db'.entry i ≠ [] → fs'.key db'.entry i = fs'.key db'.entry j → i = j
  answers : ∀ str, dbQuery hash fs' db' str = dbQuery hash fs db str
  removed : fs'.dir (db.name ++ ".rehash") = none
  others : ∀ path, path ≠ db.name → (fs'.dir path).map fs'.file = (fs.dir path).map fs.file

/-- The copy changes no file that a path leads to. -/
theorem Copied.file_eq {fs fs₁ fs₂ : Fs} {db : Db} {newSize : Nat} {ok : Bool} (h : Placed name fs db)
    (hc : Copied hash name fs db newSize fs₁ fs₂ ok) (path : String) : (fs.dir path).map fs₂.file = (fs.dir path).map fs.file := by
  cases hp : fs.dir path with
  | none => rfl
  | some inode =>
    have hlt := h.next path inode hp
    exact congrArg some ((hc.same.others _ (by omega)).trans (hc.others _ (by omega)))

/-- The directory in the course of a rehash. -/
theorem Copied.dir_eq {fs fs₁ fs₂ : Fs} {db : Db} {newSize : Nat} {ok : Bool}
    (hc : Copied hash name fs db newSize fs₁ fs₂ ok) :
    fs₂.dir = Function.update fs.dir (name ++ ".rehash") (some fs.next) :=
  hc.same.dir.trans hc.dir

/-- The new file unlinked: all files are as they were. -/
theorem Copied.sameFiles {fs fs₁ fs₂ : Fs} {db : Db} {newSize : Nat} {ok : Bool} (h : Placed name fs db)
    (hc : Copied hash name fs db newSize fs₁ fs₂ ok) : SameFiles fs (fs₂.unlink (name ++ ".rehash")) := by
  intro path
  have hd : (fs₂.unlink (name ++ ".rehash")).dir = fs.dir := by
    simp only [Fs.unlink, hc.dir_eq, Function.update_idem, ← h.rehash, Function.update_eq_self]
  rw [hd]
  exact hc.file_eq h path

/-- The new file renamed over the database: the other files are as they were. -/
theorem Copied.otherFiles {fs fs₁ fs₂ : Fs} {db : Db} {newSize : Nat} {ok : Bool} (h : Placed name fs db)
    (hc : Copied hash name fs db newSize fs₁ fs₂ ok) {path : String} (hne : path ≠ name) :
    ((fs₂.rename (name ++ ".rehash") name).dir path).map (fs₂.rename (name ++ ".rehash") name).file =
      (fs.dir path).map fs.file := by
  by_cases hr : path = name ++ ".rehash"
  · rw [hr, h.rehash, (hc.done h).rehash]
    rfl
  · have hd : (fs₂.rename (name ++ ".rehash") name).dir path = fs.dir path := by
      simp only [Fs.rename]
      rw [Function.update_of_ne hr, Function.update_of_ne hne, hc.dir_eq, Function.update_of_ne hr]
    rw [hd]
    exact hc.file_eq h path

/-- The keys of the database are those of its table. -/
theorem has_iff_stores {fs : Fs} {db : Db} {key : List Byte} : (fs.table db.entry db.size).Has key ↔ Stores fs db key :=
  exists_congr fun _ => table_eq_some

/-- Two databases with the same keys answer alike. -/
theorem query_eq {fs fs' : Fs} {db db' : Db} {keys : List Byte → Prop} (h : Opened hash name fs db keys)
    (h' : Opened hash name fs' db' keys) (str : Ptr) : dbQuery hash fs' db' str = dbQuery hash fs db str := by
  by_cases hstr : str 0 = 0
  · rw [dbQuery, dbQuery, dbAction, dbAction, if_pos hstr, if_pos hstr]
  · rw [Bool.eq_iff_iff, h'.stored.query hstr, h.stored.query hstr]

/-- A rehash of an open database returns, and does all or nothing. -/
theorem Opened.all_or_nothing {fs : Fs} {db : Db} {keys : List Byte → Prop} {newSize : Nat} (h : Opened hash name fs db keys)
    (hpow : ∃ k, newSize = 2 ^ k) :
    ∃ fs' db' ok, dbRehash hash fs db newSize = .ok (fs', db', ok) ∧
      (ok = false → db' = db ∧ SameFiles fs fs' ∧ fs'.file db.entry = fs.file db.entry) ∧
      (ok = true → Rehashed hash fs db newSize fs' db') := by
  obtain ⟨k, rfl⟩ := hpow
  have hsize : 2 ^ k ≠ 0 := (Nat.two_pow_pos k).ne'
  obtain ⟨fs₁, fs₂, ok, hc, hrun⟩ := h.placed.dbRehash hash hsize (powerof2_two_pow k)
  cases ok with
  | false =>
    have hbytes : fs₂.file db.entry = fs.file db.entry := by
      have hfile := hc.file_eq h.placed name
      rw [h.path] at hfile
      exact Option.some.inj hfile
    exact ⟨_, _, _, hrun, fun _ => ⟨rfl, hc.sameFiles h.placed, hbytes⟩, fun e => (by cases e)⟩
  | true =>
    have h' := h.rehashed hsize hrun
    have hname := h.named
    refine ⟨_, _, _, hrun, fun e => (by cases e), fun _ => ?_⟩
    refine ⟨hname ▸ h'.path, hname.symm, rfl, h'.stored.bytes, fun key => ?_, fun i j hi hj hne he => ?_, query_eq h h', ?_,
      fun path hp => ?_⟩
    · rw [← has_iff_stores, ← has_iff_stores, h'.stored.has, h.stored.has]
    · exact h'.stored.probed.once i j _ (table_eq_some.mpr ⟨hi, rfl, hne⟩) (table_eq_some.mpr ⟨hj, he.symm, hne⟩)
    · rw [hname]
      exact h'.rehash
    · exact hc.otherFiles h.placed (hname ▸ hp)

/-- A rehash of any reachable database to any power of two either fails and leaves the database, its bytes, the files and their contents
as they were, or puts a table of that size with exactly the same keys, each in one entry, at the path of the database, where the database
is mapped from then on, and leaves nothing behind. -/
theorem rehash_all_or_nothing {s : St} (hs : (runs hash name).Reach s) {db : Db} (hdb : s.db = some db) {newSize : Nat}
    (hpow : ∃ k, newSize = 2 ^ k) :
    ∃ fs' db' ok, dbRehash hash s.fs db newSize = .ok (fs', db', ok) ∧
      (ok = false → db' = db ∧ SameFiles s.fs fs' ∧ fs'.file db.entry = s.fs.file db.entry) ∧
      (ok = true → Rehashed hash s.fs db newSize fs' db') := by
  have h := inv_reach hs
  unfold Inv at h
  rw [hdb] at h
  exact h.all_or_nothing hpow

/-- A database of two keys, rehashed to four entries. -/
theorem rehash_all_or_nothing_two : ∃ fs fs' db', (runs (fun _ => 0) "db").Reach ⟨fs, some ⟨1, 2, "db"⟩, [[98], [97]]⟩ ∧
    dbRehash (fun _ => 0) fs ⟨1, 2, "db"⟩ 4 = .ok (fs', db', true) ∧ Rehashed (fun _ => 0) fs ⟨1, 2, "db"⟩ 4 fs' db' := by
  obtain ⟨-, fs, -, -, -, h, fs₂, db₂, hok⟩ := two_keys
  have hpow : ∃ k, 4 = 2 ^ k := ⟨2, rfl⟩
  obtain ⟨fs', db', ok, hr, -, hall⟩ := rehash_all_or_nothing h rfl hpow
  obtain ⟨rfl, rfl, rfl⟩ : fs' = fs₂ ∧ db' = db₂ ∧ ok = true := by
    have he := Except.ok.inj (hr.symm.trans hok)
    simpa using he
  exact ⟨fs, fs', db', h, hr, hall rfl⟩

end OsLabs.HashDb
