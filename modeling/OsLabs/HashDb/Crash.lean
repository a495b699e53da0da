import OsLabs.HashDb.Finish

/-!
# The database after a killed insertion

The files outlive the process, and so do the bytes stored into a shared mapping. `insertPoints` lists the files between any two
system calls or byte stores of `db_insert`, each with its `Moment`. Outside of the calls below the database file holds the keys
before or after the insertion. A kill in `strncpy` leaves the first bytes of the key in its entry. A kill in `db_rehash` leaves the
database as it was, with a half-built file beside it, which `O_EXCL` keeps every later rehash from replacing.
-/

namespace OsLabs.HashDb

/-! ## The files while an insertion runs -/

/-- Where the process is. -/
inductive Moment where
  /-- In `strncpy`, behind the first `j` stores into an entry of the database. -/
  | storing (j : Nat)
  /-- In `db_rehash`, behind its `Open` and before its `Unlink` or `Rename`. -/
  | rehashing
  /-- Anywhere else. -/
  | between
  deriving DecidableEq

/-- The files behind each store of `db_action`, with the number of bytes stored. -/
def actionLoopPoints (fs : Fs) (db : Db) (str : Ptr) (chain : BitVec 32) : Nat → Nat → List (Nat × Fs)
  | 0, _ => []
  | n + 1, c =>
    let idx := slot db.size chain c
    if fs.entry db.entry idx 0 = 0 then (List.range entLength).map fun j => (j + 1, fs.storeBytes db.entry idx str (j + 1))
    else if str.strncmp (fs.entry db.entry idx) entLength = 0 then []
    else actionLoopPoints fs db str chain n (c + 1)

/-- The same for `db_maybe_insert`. -/
def maybeInsertPoints (hash : List Byte → BitVec 32) (fs : Fs) (db : Db) (str : Ptr) : List (Nat × Fs) :=
  if str 0 = 0 then []
  else actionLoopPoints fs db str (hash ((List.range (str.strnlen entLength)).map str)) (chainLen db.size) 0

/-- The files behind each store of the copy loop. -/
def copyPoints (hash : List Byte → BitVec 32) (db new : Db) : Nat → Nat → Fs → List Fs
  | 0, _, _ => []
  | n + 1, i, fs =>
    (maybeInsertPoints hash fs new (fs.entry db.entry i)).map Prod.snd ++
      match dbMaybeInsert hash fs new (fs.entry db.entry i) with
      | (fs, true) => copyPoints hash db new n (i + 1) fs
      | (_, false) => []

/-- The files behind each system call and each store of `db_rehash`. -/
def rehashPoints (hash : List Byte → BitVec 32) (fs : Fs) (db : Db) (newSize : Nat) : List (Moment × Fs) :=
  let name := db.name ++ ".rehash"
  match fs.openCreate name true, dbOpen fs name newSize with
  | .ok (created, _), .ok (fs, new) =>
    (.rehashing, created) :: (.rehashing, fs) :: (copyPoints hash db new db.size 0 fs).map (fun fs => (.rehashing, fs)) ++
      match copyLoop hash db new db.size 0 fs with
      | (fs, false) => [(.between, fs.unlink name)]
      | (fs, true) => [(.between, fs.rename new.name db.name)]
  | _, _ => []

/-- The same for the inner loop of `db_insert`. -/
def rehashLoopPoints (hash : List Byte → BitVec 32) : Nat → Fs → Db → Nat → List (Moment × Fs)
  | 0, _, _, _ => []
  | fuel + 1, fs, db, size =>
    rehashPoints hash fs db (size * 2) ++
      match dbRehash hash fs db (size * 2) with
      | .ok (fs, db, false) => rehashLoopPoints hash fuel fs db (size * 2)
      | _ => []

/-- The files at each point of `db_insert`, before its first store, between any two, and behind the last. -/
def insertPoints (hash : List Byte → BitVec 32) (str : Ptr) : Nat → Fs → Db → List (Moment × Fs)
  | 0, fs, _ => [(.between, fs)]
  | fuel + 1, fs, db =>
    (.between, fs) :: (maybeInsertPoints hash fs db str).map (fun q => (.storing q.1, q.2)) ++
      match dbMaybeInsert hash fs db str with
      | (fs, true) => [(.between, fs)]
      | (fs, false) =>
        rehashLoopPoints hash fuel fs db db.size ++
          match rehashLoop hash fuel fs db db.size with
          | .ok (fs, db) => insertPoints hash str fuel fs db
          | .error _ => []

variable {hash : List Byte → BitVec 32} {name : String}

/-! ## The files at each moment -/

/-- The files behind the stores of an insertion: some bytes of the string stand in a free entry. -/
theorem of_actionLoopPoints {fs fs' : Fs} {db : Db} {str : Ptr} {chain : BitVec 32} {j : Nat} (hpos : 0 < db.size) :
    ∀ (n c : Nat), (j, fs') ∈ actionLoopPoints fs db str chain n c → 0 < j ∧ j ≤ entLength ∧
      ∃ idx, idx < db.size ∧ fs.entry db.entry idx 0 = 0 ∧ fs' = fs.storeBytes db.entry idx str j := by
  intro n
  induction n with
  | zero =>
    intro c h
    cases h
  | succ n ih =>
    intro c h
    rw [actionLoopPoints] at h
    split at h
    · rename_i hfree
      obtain ⟨i, hi, he⟩ := List.mem_map.mp h
      obtain ⟨rfl, rfl⟩ := Prod.mk.inj he
      exact ⟨Nat.succ_pos i, Nat.succ_le_of_lt (List.mem_range.mp hi), _, slot_lt hpos chain c, hfree, rfl⟩
    · split at h
      · cases h
      · exact ih (c + 1) h

theorem of_maybeInsertPoints {fs fs' : Fs} {db : Db} {str : Ptr} {j : Nat} (hpos : 0 < db.size)
    (h : (j, fs') ∈ maybeInsertPoints hash fs db str) : str 0 ≠ 0 ∧ 0 < j ∧ j ≤ entLength ∧
      ∃ idx, idx < db.size ∧ fs.entry db.entry idx 0 = 0 ∧ fs' = fs.storeBytes db.entry idx str j := by
  unfold maybeInsertPoints at h
  split at h
  · cases h
  · rename_i hstr
    exact ⟨hstr, of_actionLoopPoints hpos _ _ h⟩

/-- While the entries are copied, only the new file changes. -/
theorem of_copyPoints {db new : Db} (hpos : 0 < new.size) : ∀ (n i : Nat) {fs fs' : Fs},
    fs' ∈ copyPoints hash db new n i fs → SameElse fs fs' new.entry := by
  intro n
  induction n with
  | zero =>
    intro i fs fs' h
    cases h
  | succ n ih =>
    intro i fs fs' h
    rw [copyPoints] at h
    rcases List.mem_append.mp h with h | h
    · obtain ⟨⟨j, fs''⟩, hq, rfl⟩ := List.mem_map.mp h
      obtain ⟨-, -, -, idx, -, -, rfl⟩ := of_maybeInsertPoints hpos hq
      exact sameElse_storeBytes ..
    · split at h
      · rename_i fs₁ hins
        exact (dbMaybeInsert_same hpos hins).trans (ih (i + 1) h)
      · cases h

/-- The files in the course of a rehash: the database is as it was, and the new file is beside it. -/
structure Beside (name : String) (fs : Fs) (db : Db) (fs' : Fs) : Prop where
  path : fs'.dir name = some db.entry
  file : fs'.file db.entry = fs.file db.entry
  rehash : fs'.dir (name ++ ".rehash") ≠ none

/-- The files at each point of a rehash. -/
theorem Placed.of_rehashPoints {fs fs' : Fs} {db : Db} {newSize : Nat} {m : Moment} (h : Placed name fs db)
    (hsize : newSize ≠ 0) (hpow : powerof2 newSize) (hm : (m, fs') ∈ rehashPoints hash fs db newSize) :
    (m = .rehashing ∧ Beside name fs db fs') ∨
      (m = .between ∧ ∃ db' ok, HashDb.dbRehash hash fs db newSize = .ok (fs', db', ok)) := by
  obtain ⟨fs₁, fs₂, ok, hc, hrun⟩ := h.dbRehash hash hsize hpow
  have hlt := h.next name db.entry h.path
  have hbeside : ∀ {g g' : Fs}, g.dir = Function.update fs.dir (name ++ ".rehash") (some fs.next) →
      (∀ i, i ≠ fs.next → g.file i = fs.file i) → SameElse g g' fs.next → Beside name fs db g' := by
    intro g g' hdir hothers hsame
    refine ⟨?_, (hsame.others _ (by omega)).trans (hothers _ (by omega)), ?_⟩
    · rw [hsame.dir, hdir, Function.update_of_ne (rehash_ne name).symm]
      exact h.path
    · rw [hsame.dir, hdir, Function.update_self]
      nofun
  have hcreated : fs.openCreate (name ++ ".rehash") true = .ok (⟨Function.update fs.dir (name ++ ".rehash") (some fs.next),
      Function.update fs.file fs.next ⟨0, fun _ => 0⟩, fs.next + 1⟩, fs.next) := by
    simp only [Fs.openCreate, h.rehash]
  unfold rehashPoints at hm
  simp only [h.named, hcreated, hc.create, hc.copy] at hm
  rcases List.mem_append.mp hm with hm | hm
  · left
    rcases List.mem_cons.mp hm with he | hm
    · obtain ⟨rfl, rfl⟩ := Prod.mk.inj he
      exact ⟨rfl, hbeside rfl (fun i hi => Function.update_of_ne hi _ _) (.refl _ _)⟩
    · rcases List.mem_cons.mp hm with he | hm
      · obtain ⟨rfl, rfl⟩ := Prod.mk.inj he
        exact ⟨rfl, hbeside hc.dir hc.others (.refl _ _)⟩
      · obtain ⟨g, hg, he⟩ := List.mem_map.mp hm
        obtain ⟨rfl, rfl⟩ := Prod.mk.inj he
        exact ⟨rfl, hbeside hc.dir hc.others (of_copyPoints (Nat.pos_of_ne_zero hsize) _ _ hg)⟩
  · right
    cases ok with
    | false =>
      obtain ⟨rfl, rfl⟩ := Prod.mk.inj (List.mem_singleton.mp hm)
      exact ⟨rfl, _, _, hrun⟩
    | true =>
      obtain ⟨rfl, rfl⟩ := Prod.mk.inj (List.mem_singleton.mp hm)
      exact ⟨rfl, _, _, hrun⟩

/-- A key stored in a free entry, all of it or its first bytes, is what the table has in addition. -/
theorem IsTable.has_store {fs : Fs} {inode size idx : Nat} {str : Ptr} {j : Nat} (h : IsTable fs inode size)
    (hidx : idx < size) (hfree : fs.entry inode idx 0 = 0) (hstr : str 0 ≠ 0) (h1 : 0 < j) (hj : j ≤ entLength)
    (k : List Byte) : ((fs.storeBytes inode idx str j).table inode size).Has k ↔
      k = (str.cstr entLength).take j ∨ (fs.table inode size).Has k := by
  have hkey : (fs.storeBytes inode idx str j).key inode idx = (str.cstr entLength).take j := by
    refine Ptr.cstr_stored str _ entLength j fun x hx => ?_
    rw [entry_storeBytes_self, h.clean idx hidx hfree x hx]
  have hne : (str.cstr entLength).take j ≠ [] := by
    intro he
    rcases List.take_eq_nil_iff.mp he with h0 | h0
    · omega
    · exact cstr_ne_nil hstr h0
  have htable : (fs.storeBytes inode idx str j).table inode size =
      Function.update (fs.table inode size) idx (some ((str.cstr entLength).take j)) := by
    funext i
    by_cases hi : i = idx
    · rw [hi, Function.update_self]
      exact table_eq_some.mpr ⟨hidx, hkey, hne⟩
    · have hsame : (fs.storeBytes inode idx str j).key inode i = fs.key inode i :=
        Ptr.cstr_congr fun x hx => entry_storeBytes_ne fs inode str hi hx hj
      rw [Function.update_of_ne hi]
      simp only [Fs.table, hsame]
  rw [htable]
  exact Table.has_update ((table_eq_none hidx).mpr hfree) k

/-- The files when the process is killed in an insertion of the key `p` into a database with the keys `before`. -/
def Killed (hash : List Byte → BitVec 32) (name : String) (p : List Byte) (before : List Byte → Prop) : Moment → Fs → Prop
  | .storing j, fs => ∃ db, Usable name fs db ∧ ∀ k, (fs.table db.entry db.size).Has k ↔ k = p.take j ∨ before k
  | .rehashing, fs' => ∃ fs db, Usable name fs db ∧ Opened hash name fs db before ∧ Beside name fs db fs'
  | .between, fs => ∃ db, Usable name fs db ∧
      (Opened hash name fs db before ∨ Opened hash name fs db fun k => k = p ∨ before k)

/-- The files in the inner loop of an insertion. -/
theorem Opened.of_rehashLoopPoints {p : List Byte} {before : List Byte → Prop} {m : Moment} {fs' : Fs} : ∀ (fuel size : Nat)
    {fs : Fs} {db : Db}, Opened hash name fs db before → Usable name fs db → (∃ k, size = 2 ^ k) →
      (m, fs') ∈ rehashLoopPoints hash fuel fs db size → Killed hash name p before m fs' := by
  intro fuel
  induction fuel with
  | zero =>
    intro size fs db _ _ _ hm
    cases hm
  | succ fuel ih =>
    intro size fs db h hu hpow hm
    have hpow' := double_pow hpow
    have hp2 : powerof2 (size * 2) := by
      obtain ⟨k, hk⟩ := hpow'
      rw [hk]
      exact powerof2_two_pow k
    have hne : size * 2 ≠ 0 := by
      obtain ⟨k, hk⟩ := hpow'
      rw [hk]
      exact (Nat.two_pow_pos k).ne'
    obtain ⟨fs₁, db₁, ok, hr, h₁, -, -, -⟩ := hu.dbRehash hash hpow'
    have hopened := h.rehashed hne hr
    rw [rehashLoopPoints] at hm
    rcases List.mem_append.mp hm with hm | hm
    · rcases hu.placed.of_rehashPoints hne hp2 hm with ⟨rfl, hb⟩ | ⟨rfl, db₂, ok₂, hr₂⟩
      · exact ⟨fs, db, hu, h, hb⟩
      · obtain ⟨rfl, rfl, -⟩ : fs₁ = fs' ∧ db₁ = db₂ ∧ ok = ok₂ := by simpa using hr.symm.trans hr₂
        exact ⟨db₁, h₁, Or.inl hopened⟩
    · rw [hr] at hm
      cases ok with
      | true => cases hm
      | false => exact ih (size * 2) hopened h₁ hpow' hm

/-- The files at each point of an insertion. -/
theorem Opened.of_insertPoints {before : List Byte → Prop} {str : Ptr} {m : Moment} {fs' : Fs} (hstr : str 0 ≠ 0) :
    ∀ (fuel : Nat) {fs : Fs} {db : Db}, Opened hash name fs db before → Usable name fs db →
      (m, fs') ∈ insertPoints hash str fuel fs db → Killed hash name (str.cstr entLength) before m fs' := by
  intro fuel
  induction fuel with
  | zero =>
    intro fs db h hu hm
    obtain ⟨rfl, rfl⟩ := Prod.mk.inj (List.mem_singleton.mp hm)
    exact ⟨db, hu, Or.inl h⟩
  | succ fuel ih =>
    intro fs db h hu hm
    rw [insertPoints] at hm
    rcases List.mem_append.mp hm with hstore | hrest
    · rcases List.mem_cons.mp hstore with he | hq
      · obtain ⟨rfl, rfl⟩ := Prod.mk.inj he
        exact ⟨db, hu, Or.inl h⟩
      · obtain ⟨⟨j, g⟩, hg, he⟩ := List.mem_map.mp hq
        obtain ⟨rfl, rfl⟩ := Prod.mk.inj he
        obtain ⟨-, h1, hj, idx, hidx, hfree, rfl⟩ := of_maybeInsertPoints hu.isTable.pos hg
        have hsame := sameElse_storeBytes fs db.entry idx str j
        refine ⟨db, ⟨(hu.isTable.store idx hstr h1 hj).1, hu.placed.of_same hsame⟩, fun k => ?_⟩
        rw [hu.isTable.has_store hidx hfree hstr h1 hj, h.stored.has]
    · cases hins : dbMaybeInsert hash fs db str with
      | mk fs₁ ok =>
        obtain ⟨hsame, hfail, hok⟩ := h.stored.maybeInsert hstr hins
        obtain ⟨h₁, -, -⟩ := hu.isTable.maybeInsert hins
        rw [hins] at hrest
        cases ok with
        | true =>
          obtain ⟨rfl, rfl⟩ := Prod.mk.inj (List.mem_singleton.mp hrest)
          exact ⟨db, ⟨h₁, hu.placed.of_same hsame⟩, Or.inr (h.of_stored hsame (hok rfl))⟩
        | false =>
          obtain rfl := hfail rfl
          rcases List.mem_append.mp hrest with hloop | hlater
          · exact h.of_rehashLoopPoints fuel db.size hu hu.isTable.pow hloop
          · cases hr : HashDb.rehashLoop hash fuel fs₁ db db.size with
            | error e => rw [hr] at hlater; cases hlater
            | ok r =>
              obtain ⟨fs₂, db₂⟩ := r
              rw [hr] at hlater
              exact ih (h.rehashLoop fuel db.size h.stored.pos hr) (hu.rehashLoop fuel hu.isTable.pow hr).1 hlater

/-! ## A database with a half-built one beside it -/

/-- The database can be opened and used, but something stands at the path of the rehashed one. -/
structure Stuck (name : String) (fs : Fs) (db : Db) : Prop where
  isTable : IsTable fs db.entry db.size
  path : fs.dir name = some db.entry
  named : db.name = name
  rehash : fs.dir (name ++ ".rehash") ≠ none

/-- A rehash stops at the exclusive `Open`. -/
theorem Stuck.dbRehash {fs : Fs} {db : Db} {newSize : Nat} (h : Stuck name fs db) (hsize : newSize ≠ 0)
    (hpow : powerof2 newSize) : HashDb.dbRehash hash fs db newSize = .error .openError := by
  obtain ⟨inode, hi⟩ := Option.ne_none_iff_exists'.mp h.rehash
  have hopen : dbOpen fs (name ++ ".rehash") newSize = .error .openError := by
    unfold dbOpen
    rw [if_neg (not_not_intro hpow)]
    simp only [Fs.openCreate, hi, ne_eq, hsize, not_false_eq_true, decide_true, if_true, bind, Except.bind]
  rw [HashDb.dbRehash, if_neg (not_not_intro hpow), h.named]
  simp only [hopen, bind, Except.bind]

/-- An insertion succeeds when it finds its place without a rehash, and stops otherwise. -/
theorem Stuck.insert {fs : Fs} {db : Db} (h : Stuck name fs db) (str : Ptr) (fuel : Nat) :
    dbInsert hash str (fuel + 2) fs db =
      if (dbMaybeInsert hash fs db str).2 then .ok ((dbMaybeInsert hash fs db str).1, db) else .error .openError := by
  rw [dbInsert]
  cases hins : dbMaybeInsert hash fs db str with
  | mk fs₁ ok =>
    cases ok with
    | true => rfl
    | false =>
      obtain rfl := (h.isTable.maybeInsert hins).2.2 rfl
      obtain ⟨k, hk⟩ := double_pow h.isTable.pow
      have hne : db.size * 2 ≠ 0 := by
        rw [hk]
        exact (Nat.two_pow_pos k).ne'
      have hr : HashDb.dbRehash hash fs₁ db (db.size * 2) = .error .openError := h.dbRehash hne (hk ▸ powerof2_two_pow k)
      simp only [rehashLoop, hr, bind, Except.bind]
      rfl

theorem Stuck.of_maybeInsert {fs fs' : Fs} {db : Db} {str : Ptr} {ok : Bool} (h : Stuck name fs db)
    (hins : dbMaybeInsert hash fs db str = (fs', ok)) : Stuck name fs' db := by
  have hsame := dbMaybeInsert_same h.isTable.pos hins
  refine ⟨(h.isTable.maybeInsert hins).1, ?_, h.named, ?_⟩
  · rw [hsame.dir]
    exact h.path
  · rw [hsame.dir]
    exact h.rehash

/-- Insertions that succeed leave the database stuck. -/
theorem Stuck.insertAll {fs fs' : Fs} {db db' : Db} {keys : List (List Byte)} {fuel : Nat} (h : Stuck name fs db)
    (hrun : HashDb.insertAll hash (fuel + 2) keys fs db = .ok (fs', db')) : db' = db ∧ Stuck name fs' db := by
  induction keys generalizing fs with
  | nil =>
    obtain ⟨rfl, rfl⟩ := Prod.mk.inj (Except.ok.inj hrun)
    exact ⟨rfl, h⟩
  | cons key keys ih =>
    rw [HashDb.insertAll, h.insert] at hrun
    cases hins : dbMaybeInsert hash fs db (Ptr.ofList key) with
    | mk fs₁ ok =>
      rw [hins] at hrun
      cases ok with
      | false => cases hrun
      | true => exact ih (h.of_maybeInsert hins) hrun

/-! ## After the kill -/

/-- The keys of the database that is opened again, by the moment of the kill: those before the insertion of the key `p`, or those
after it; or, in the store of the key, those before with the first bytes of the key. -/
def KeysAfter (hash : List Byte → BitVec 32) (p : List Byte) (before : List Byte → Prop) (fs : Fs) (db : Db) : Moment → Prop
  | .storing j => ∀ k, (fs.table db.entry db.size).Has k ↔ k = p.take j ∨ before k
  | .rehashing => Stored hash fs db.entry db.size before
  | .between => Stored hash fs db.entry db.size before ∨ Stored hash fs db.entry db.size fun k => k = p ∨ before k

/-- What later insertions do, by the moment of the kill: all of them succeed, as long as there are fewer than 2^31 entries; or, when
a half-built file was left, one after the other succeeds until one needs a rehash, which stops at the `Open`. -/
def LaterInserts (hash : List Byte → BitVec 32) (fs : Fs) (db : Db) : Moment → Prop
  | .rehashing => ∀ fuel keys fs' db', insertAll hash (fuel + 2) keys fs db = .ok (fs', db') →
      db' = db ∧ ∀ key, dbInsert hash (Ptr.ofList key) (fuel + 2) fs' db =
        if (dbMaybeInsert hash fs' db (Ptr.ofList key)).2 then .ok ((dbMaybeInsert hash fs' db (Ptr.ofList key)).1, db)
        else .error .openError
  | _ => ∀ keys : List (List Byte), fs.used db.entry db.size + keys.length < 2 ^ 31 →
      ∃ fuel r, insertAll hash fuel keys fs db = .ok r

/-- A stored table in a file whose entries are the same. -/
theorem Stored.of_reopen {fs fs' : Fs} {db : Db} {keys : List Byte → Prop} (h : Stored hash fs db.entry db.size keys)
    (hu : IsTable fs' db.entry db.size)
    (he : ∀ i, i < db.size → ∀ j, j < entLength → fs'.entry db.entry i j = fs.entry db.entry i j) :
    Stored hash fs' db.entry db.size keys :=
  h.of_table (hu.bytes.trans h.bytes.symm) (table_of_entry he)

/-- The database can be opened after a kill, with these keys and these insertions. -/
theorem Killed.reopen {p : List Byte} {before : List Byte → Prop} {m : Moment} {fs₁ : Fs} (h : Killed hash name p before m fs₁) :
    ∃ fs₂ db₂, dbOpen fs₁ name 0 = .ok (fs₂, db₂) ∧ KeysAfter hash p before fs₂ db₂ m ∧ LaterInserts hash fs₂ db₂ m := by
  cases m with
  | storing j =>
    obtain ⟨db, hu, hhas⟩ := h
    obtain ⟨fs₂, hopen, hu₂, hentry⟩ := hu.reopen
    refine ⟨fs₂, db, hopen, fun k => ?_, fun keys hn => hu₂.insertAll_ends hn⟩
    rw [table_of_entry hentry]
    exact hhas k
  | between =>
    obtain ⟨db, hu, hk⟩ := h
    obtain ⟨fs₂, hopen, hu₂, hentry⟩ := hu.reopen
    refine ⟨fs₂, db, hopen, ?_, fun keys hn => hu₂.insertAll_ends hn⟩
    rcases hk with hk | hk
    · exact Or.inl (hk.stored.of_reopen hu₂.isTable hentry)
    · exact Or.inr (hk.stored.of_reopen hu₂.isTable hentry)
  | rehashing =>
    obtain ⟨fs, db, hu, hk, hb⟩ := h
    have htable : IsTable fs₁ db.entry db.size := hu.isTable.of_file hb.file
    obtain ⟨fs₂, hopen, hsame, hentry⟩ := dbOpen_again hb.path htable.pos htable.bytes
    have htable₂ := htable.of_entry hsame.size hentry
    have hstuck : Stuck name fs₂ ⟨db.entry, db.size, name⟩ := by
      refine ⟨htable₂, ?_, rfl, ?_⟩
      · rw [hsame.dir]
        exact hb.path
      · rw [hsame.dir]
        exact hb.rehash
    have hstored : Stored hash fs₁ db.entry db.size before := hk.stored.of_file hb.file
    refine ⟨fs₂, ⟨db.entry, db.size, name⟩, hopen, hstored.of_reopen htable₂ hentry, fun fuel keys fs' db' hrun => ?_⟩
    obtain ⟨rfl, hstuck'⟩ := hstuck.insertAll hrun
    exact ⟨rfl, fun key => hstuck'.insert (Ptr.ofList key) fuel⟩

/-- From every reachable state, wherever an insertion is killed: the database can be opened again, with the keys and for the later
insertions that the moment of the kill allows. -/
theorem killed_insert (hash : List Byte → BitVec 32) (name : String) {s : St} (hs : (runs hash name).Reach s) {db : Db}
    (hdb : s.db = some db) {key : List Byte} (hkey : IsKey key) {fuel : Nat} {m : Moment} {fs₁ : Fs}
    (hm : (m, fs₁) ∈ insertPoints hash (Ptr.ofList key) fuel s.fs db) :
    ∃ fs₂ db₂, dbOpen fs₁ name 0 = .ok (fs₂, db₂) ∧
      KeysAfter hash (key.take entLength) (prefixes s.inserted) fs₂ db₂ m ∧ LaterInserts hash fs₂ db₂ m := by
  have hopened := inv_reach hs
  have husable := usable_reach hs
  unfold Inv at hopened
  rw [hdb] at hopened husable
  obtain ⟨hstr, hcstr⟩ := cstr_key hkey
  have hkilled := hopened.of_insertPoints hstr fuel husable hm
  rw [hcstr] at hkilled
  exact hkilled.reopen

/-! ## Instances -/

/-- The files once a database is opened at a fresh path. -/
def newDb : Fs :=
  ({ dir := Function.update (fun _ => none) "db" (some 0), file := Function.update (fun _ => ⟨0, fun _ => 0⟩) 0 ⟨0, fun _ => 0⟩,
     next := 1 } : Fs).truncate 0 48

/-- The database is open and empty. -/
def opened : St := ⟨newDb, some ⟨0, 1, "db"⟩, []⟩

theorem opened_reach : (runs (fun _ => 0) "db").Reach opened := by
  have h0 : (runs (fun _ => 0) "db").Reach noFiles := .init ⟨⟨nofun, rfl, nofun⟩, rfl, rfl⟩
  have hopen : dbOpen noFiles.fs "db" 0 = .ok (newDb, ⟨0, 1, "db"⟩) := rfl
  exact .step .openDb h0 (Step.openDb rfl hopen)

/-- The first byte of the key `ab` is stored. -/
theorem half_key : (Moment.storing 1, newDb.storeBytes 0 0 (Ptr.ofList [97, 98]) 1) ∈
    insertPoints (fun _ => 0) (Ptr.ofList [97, 98]) 1 newDb ⟨0, 1, "db"⟩ := by
  have hmem : (1, newDb.storeBytes 0 0 (Ptr.ofList [97, 98]) 1) ∈
      maybeInsertPoints (fun _ => 0) newDb ⟨0, 1, "db"⟩ (Ptr.ofList [97, 98]) := by
    have hfree : newDb.entry 0 (slot 1 0 0) 0 = 0 := rfl
    rw [maybeInsertPoints, if_neg (by decide), show chainLen 1 = 2 + 1 from rfl, actionLoopPoints]
    simp only [hfree, if_true]
    exact List.mem_map.mpr ⟨0, by decide, rfl⟩
  rw [insertPoints]
  exact List.mem_append_left _ (List.mem_cons_of_mem _ (List.mem_map.mpr ⟨_, hmem, rfl⟩))

/-- The witness: a kill after the first byte of the first key. -/
theorem killed_insert_half : ∃ fs₂ db₂, dbOpen (newDb.storeBytes 0 0 (Ptr.ofList [97, 98]) 1) "db" 0 = .ok (fs₂, db₂) ∧
    KeysAfter (fun _ => 0) [97, 98] (prefixes []) fs₂ db₂ (.storing 1) ∧ LaterInserts (fun _ => 0) fs₂ db₂ (.storing 1) :=
  killed_insert (fun _ => 0) "db" opened_reach rfl (show IsKey [97, 98] from ⟨by decide, by decide⟩) half_key

/-- After that kill the database has the key `a`, which nobody inserted. -/
theorem half_key_left : ¬ ∀ (hash : List Byte → BitVec 32) (name : String) (s : St) (db : Db) (key : List Byte) (fuel : Nat)
    (m : Moment) (fs₁ : Fs), (runs hash name).Reach s → s.db = some db → IsKey key →
    (m, fs₁) ∈ insertPoints hash (Ptr.ofList key) fuel s.fs db →
    ∃ fs₂ db₂, dbOpen fs₁ name 0 = .ok (fs₂, db₂) ∧
      ((∀ k, (fs₂.table db₂.entry db₂.size).Has k ↔ prefixes s.inserted k) ∨
        ∀ k, (fs₂.table db₂.entry db₂.size).Has k ↔ prefixes (key :: s.inserted) k) ∧
      ∀ keys : List (List Byte), fs₂.used db₂.entry db₂.size + keys.length < 2 ^ 31 →
        ∃ fuel r, insertAll hash fuel keys fs₂ db₂ = .ok r := by
  intro h
  obtain ⟨fs₂, db₂, hopen, hkeys, -⟩ := h (fun _ => 0) "db" opened ⟨0, 1, "db"⟩ [97, 98] 1 _ _ opened_reach rfl
    ⟨by decide, by decide⟩ half_key
  have hdir : (newDb.storeBytes 0 0 (Ptr.ofList [97, 98]) 1).dir "db" = some 0 := rfl
  obtain ⟨fs, hopen', -, hentry⟩ := dbOpen_again hdir Nat.one_pos rfl
  obtain ⟨rfl, rfl⟩ := Prod.mk.inj (Except.ok.inj (hopen'.symm.trans hopen))
  have hhas : (fs.table 0 1).Has [97] := by
    rw [table_of_entry hentry]
    exact ⟨0, table_eq_some.mpr ⟨Nat.one_pos, rfl, by decide⟩⟩
  rcases hkeys with hk | hk
  · obtain ⟨k, hin, -⟩ := (hk [97]).mp hhas
    cases hin
  · obtain ⟨k, hin, he⟩ := (hk [97]).mp hhas
    obtain rfl := List.mem_singleton.mp hin
    exact absurd he (by decide)

end OsLabs.HashDb
