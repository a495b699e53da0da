import OsLabs.Lib.CStr
import OsLabs.Lib.Sys

/-!
# The string database (`hashdb.c`)

The database is a file of entries of 48 bytes, mapped into memory; an entry holds a string, empty when the entry is free, and
without a zero byte when the string is that long. `dbAction` looks for a key, or stores it, in a chain of entries that starts at
the hash of the key. When the chain is full, `dbInsert` builds a larger file with `dbRehash` and renames it over the old one.

`jenkins_hash` is not part of the program; the hash of the bytes of a key is a parameter. Sizes are natural numbers here, which
agree with `ssize_t` and `int` for tables of less than 2^32 entries.
-/

namespace OsLabs.HashDb

/-- `ENT_LENGTH`. -/
def entLength : Nat := 48

/-- `op_t`. -/
inductive Op where
  | query | insert
  deriving DecidableEq, Repr

/-- Why a call does not return. -/
inductive Stop where
  | assertion | openError | fuel
  deriving DecidableEq, Repr

/-! ## Files -/

/-- A file: its size and its bytes. -/
structure File where
  size : Nat
  byte : Nat → Byte

/-- The files of the system by number, the number that each path leads to, and the number of the next new file. -/
structure Fs where
  dir : String → Option Nat
  file : Nat → File
  next : Nat

/-- `Open(name, O_RDWR | O_CREAT | (excl ? O_EXCL : 0))`. -/
def Fs.openCreate (fs : Fs) (name : String) (excl : Bool) : Except Stop (Fs × Nat) :=
  match fs.dir name with
  | some inode => if excl then .error .openError else .ok (fs, inode)
  | none =>
    .ok ({ dir := Function.update fs.dir name (some fs.next), file := Function.update fs.file fs.next ⟨0, fun _ => 0⟩,
           next := fs.next + 1 }, fs.next)

/-- `Ftruncate`: a file that grows is filled up with zero bytes. -/
def Fs.truncate (fs : Fs) (inode size : Nat) : Fs :=
  let f := fs.file inode
  { fs with file := Function.update fs.file inode ⟨size, fun x => if x < size ∧ x < f.size then f.byte x else 0⟩ }

/-- `Unlink`. -/
def Fs.unlink (fs : Fs) (name : String) : Fs := { fs with dir := Function.update fs.dir name none }

/-- `Rename`. -/
def Fs.rename (fs : Fs) (name name' : String) : Fs :=
  { fs with dir := Function.update (Function.update fs.dir name' (fs.dir name)) name none }

/-! ## The database -/

/-- `db_t`: the mapped file, the number of its entries, and its path. -/
structure Db where
  entry : Nat
  size : Nat
  name : String

/-- `db->entry[idx]`. -/
def Fs.entry (fs : Fs) (inode idx : Nat) : Ptr := fun j => (fs.file inode).byte (idx * entLength + j)

/-- `strncpy(db->entry[idx], str, ENT_LENGTH)`. -/
def Fs.strncpy (fs : Fs) (inode idx : Nat) (str : Ptr) : Fs :=
  let f := fs.file inode
  let byte x :=
    if idx * entLength ≤ x ∧ x < idx * entLength + entLength then (str.strncpy entLength).getD (x - idx * entLength) 0
    else f.byte x
  { fs with file := Function.update fs.file inode ⟨f.size, byte⟩ }

/-- `max((db->size >> 14) - 1, 3)`. -/
def chainLen (size : Nat) : Nat := max ((size >>> 14) - 1) 3

/-- `(chain + c) % db->size`, with the sum in `uint32_t`. -/
def slot (size : Nat) (chain : BitVec 32) (c : Nat) : Nat := (chain + BitVec.ofNat 32 c).toNat % size

/-- The loop of `db_action`, with `n` entries of the chain left, from the `c`-th on. -/
def dbActionLoop (fs : Fs) (db : Db) (str : Ptr) (op : Op) (chain : BitVec 32) : Nat → Nat → Fs × Bool
  | 0, _ => (fs, false)
  | n + 1, c =>
    let idx := slot db.size chain c
    if fs.entry db.entry idx 0 = 0 ∧ op = .insert then (fs.strncpy db.entry idx str, true)
    else if str.strncmp (fs.entry db.entry idx) entLength = 0 then (fs, true)
    else dbActionLoop fs db str op chain n (c + 1)

/-- `db_action`. -/
def dbAction (hash : List Byte → BitVec 32) (fs : Fs) (db : Db) (str : Ptr) (op : Op) : Fs × Bool :=
  -- Do not insert empty strings. Database doesn't store them.
  if str 0 = 0 then (fs, decide (op = .insert))
  else
    let len := str.strnlen entLength
    let chain := hash ((List.range len).map str)
    dbActionLoop fs db str op chain (chainLen db.size) 0

/-- `db_query`. -/
def dbQuery (hash : List Byte → BitVec 32) (fs : Fs) (db : Db) (str : Ptr) : Bool := (dbAction hash fs db str .query).2

/-- `db_maybe_insert`. -/
def dbMaybeInsert (hash : List Byte → BitVec 32) (fs : Fs) (db : Db) (str : Ptr) : Fs × Bool := dbAction hash fs db str .insert

/-- `powerof2`. -/
def powerof2 (x : Nat) : Prop := (x - 1) &&& x = 0

instance (x : Nat) : Decidable (powerof2 x) := inferInstanceAs (Decidable (_ = _))

/-- `db_open`. -/
def dbOpen (fs : Fs) (name : String) (size : Nat) : Except Stop (Fs × Db) :=
  if ¬ powerof2 size then .error .assertion
  else do
    let (fs, fd) ← fs.openCreate name (size ≠ 0)
    let size :=
      if size = 0 then
        let size := (fs.file fd).size / entLength
        if size = 0 then 1 else size
      else size
    .ok (fs.truncate fd (size * entLength), { entry := fd, size := size, name := name })

/-- The loop of `db_rehash` that copies `n` entries, from the `i`-th on. -/
def copyLoop (hash : List Byte → BitVec 32) (db new : Db) : Nat → Nat → Fs → Fs × Bool
  | 0, _, fs => (fs, true)
  | n + 1, i, fs =>
    match dbMaybeInsert hash fs new (fs.entry db.entry i) with
    | (fs, true) => copyLoop hash db new n (i + 1) fs
    | (fs, false) => (fs, false)

/-- `db_rehash`: the files, the database and what the call returns. -/
def dbRehash (hash : List Byte → BitVec 32) (fs : Fs) (db : Db) (newSize : Nat) : Except Stop (Fs × Db × Bool) :=
  if ¬ powerof2 newSize then .error .assertion
  else do
    let name := db.name ++ ".rehash"
    let (fs, new) ← dbOpen fs name newSize
    match copyLoop hash db new db.size 0 fs with
    | (fs, false) => .ok (fs.unlink name, db, false)
    | (fs, true) => .ok (fs.rename new.name db.name, { db with entry := new.entry, size := new.size }, true)

/-- The inner loop of `db_insert`: double the size until rehashing succeeds. -/
def rehashLoop (hash : List Byte → BitVec 32) : Nat → Fs → Db → Nat → Except Stop (Fs × Db)
  | 0, _, _, _ => .error .fuel
  | fuel + 1, fs, db, size => do
    let (fs, db, ok) ← dbRehash hash fs db (size * 2)
    if ok then .ok (fs, db) else rehashLoop hash fuel fs db (size * 2)

/-- `db_insert`. -/
def dbInsert (hash : List Byte → BitVec 32) (str : Ptr) : Nat → Fs → Db → Except Stop (Fs × Db)
  | 0, _, _ => .error .fuel
  | fuel + 1, fs, db =>
    match dbMaybeInsert hash fs db str with
    | (fs, true) => .ok (fs, db)
    | (fs, false) => do
      let (fs, db) ← rehashLoop hash fuel fs db db.size
      dbInsert hash str fuel fs db

/-! ## Runs -/

/-- The files, the database when it is open, and the keys inserted so far. -/
structure St where
  fs : Fs
  db : Option Db
  inserted : List (List Byte)

/-- What the program does with the database at a path. -/
inductive Act where
  | openDb | closeDb
  | insert (key : List Byte)
  | query (key : List Byte) (answer : Bool)

/-- A key: a string that is not empty, without its terminating zero byte. -/
def IsKey (key : List Byte) : Prop := key ≠ [] ∧ (0 : Byte) ∉ key

/-- The calls on the database at the path `name`. `db_close` only unmaps the file. -/
inductive Step (hash : List Byte → BitVec 32) (name : String) (s : St) : Act → St → Prop where
  | openDb {fs : Fs} {db : Db} (hdb : s.db = none) (h : dbOpen s.fs name 0 = .ok (fs, db)) :
      Step hash name s .openDb { s with fs := fs, db := some db }
  | closeDb {db : Db} (hdb : s.db = some db) : Step hash name s .closeDb { s with db := none }
  | insert {db db' : Db} {fs : Fs} {key : List Byte} {fuel : Nat} (hdb : s.db = some db) (hkey : IsKey key)
      (h : dbInsert hash (Ptr.ofList key) fuel s.fs db = .ok (fs, db')) :
      Step hash name s (.insert key) { fs := fs, db := some db', inserted := key :: s.inserted }
  | query {db : Db} {key : List Byte} (hdb : s.db = some db) (hkey : IsKey key) :
      Step hash name s (.query key (dbQuery hash s.fs db (Ptr.ofList key))) s

/-- No file yet, or an empty one, at the path; no half-built database beside it. -/
structure NewFile (name : String) (fs : Fs) : Prop where
  empty : ∀ inode, fs.dir name = some inode → (fs.file inode).size = 0
  rehash : fs.dir (name ++ ".rehash") = none
  next : ∀ path inode, fs.dir path = some inode → inode < fs.next

/-- The runs that start with a new empty file at the path `name`. -/
def runs (hash : List Byte → BitVec 32) (name : String) : Sys St Act where
  init s := NewFile name s.fs ∧ s.db = none ∧ s.inserted = []
  step := Step hash name

end OsLabs.HashDb
