import OsLabs.HashDb.Table

/-!
# Every run of the database answers by the keys inserted

Insertions with their rehashes, closing and opening again keep the table of the database probed, with exactly the prefixes of 48
bytes of the keys inserted so far. So a query finds a key exactly when its prefix was inserted, and each prefix has one entry.
-/

namespace OsLabs.HashDb

variable {hash : List Byte → BitVec 32} {name : String}

/-- The inner loop of `db_insert` keeps the keys. -/
theorem Opened.rehashLoop (fuel size : Nat) {fs fs' : Fs} {db db' : Db} {keys : List Byte → Prop}
    (h : Opened hash name fs db keys) (hsize : 0 < size)
    (hcall : rehashLoop hash fuel fs db size = .ok (fs', db')) : Opened hash name fs' db' keys := by
  induction fuel generalizing size fs db with
  | zero => cases hcall
  | succ fuel ih =>
    rw [HashDb.rehashLoop] at hcall
    simp only [bind, Except.bind] at hcall
    cases hr : dbRehash hash fs db (size * 2) with
    | error e => rw [hr] at hcall; cases hcall
    | ok r =>
      obtain ⟨fs₁, db₁, ok⟩ := r
      have h₁ := h.rehashed (by omega) hr
      rw [hr] at hcall
      cases ok with
      | true =>
        obtain ⟨rfl, rfl⟩ : fs₁ = fs' ∧ db₁ = db' := by simpa using hcall
        exact h₁
      | false => exact ih (size * 2) h₁ (by omega) (by simpa using hcall)

/-- A change of the database file alone. -/
theorem Opened.of_stored {fs fs' : Fs} {db : Db} {keys keys' : List Byte → Prop} (h : Opened hash name fs db keys)
    (hsame : SameElse fs fs' db.entry) (hs : Stored hash fs' db.entry db.size keys') : Opened hash name fs' db keys' := by
  obtain ⟨hpath, hnamed, hrehash, hnext⟩ := h.placed.of_same hsame
  exact ⟨hs, hpath, hnamed, hrehash, hnext⟩

/-- `db_insert` adds its key, whatever rehashes it makes. -/
theorem Opened.insert (fuel : Nat) {fs fs' : Fs} {db db' : Db} {keys : List Byte → Prop} {str : Ptr} (hstr : str 0 ≠ 0)
    (h : Opened hash name fs db keys) (hcall : dbInsert hash str fuel fs db = .ok (fs', db')) :
    Opened hash name fs' db' fun k => k = str.cstr entLength ∨ keys k := by
  induction fuel generalizing fs db with
  | zero => cases hcall
  | succ fuel ih =>
    rw [dbInsert] at hcall
    cases hins : dbMaybeInsert hash fs db str with
    | mk fs₁ ok =>
      obtain ⟨hsame, hfail, hok⟩ := h.stored.maybeInsert hstr hins
      rw [hins] at hcall
      cases ok with
      | true =>
        obtain ⟨rfl, rfl⟩ : fs₁ = fs' ∧ db = db' := by simpa using hcall
        exact h.of_stored hsame (hok rfl)
      | false =>
        obtain rfl := hfail rfl
        simp only [bind, Except.bind] at hcall
        cases hr : HashDb.rehashLoop hash fuel fs₁ db db.size with
        | error e => rw [hr] at hcall; cases hcall
        | ok r =>
          obtain ⟨fs₂, db₂⟩ := r
          rw [hr] at hcall
          exact ih (h.rehashLoop fuel db.size h.stored.pos hr) hcall

/-- Opening a file of `size` entries: the file keeps its size and its bytes. -/
theorem dbOpen_again {fs : Fs} {inode size : Nat} (hdir : fs.dir name = some inode) (hpos : 0 < size)
    (hbytes : (fs.file inode).size = size * entLength) :
    ∃ fs', dbOpen fs name 0 = .ok (fs', ⟨inode, size, name⟩) ∧ SameElse fs fs' inode ∧
      ∀ i, i < size → ∀ j, j < entLength → fs'.entry inode i j = fs.entry inode i j := by
  have hE : entLength = 48 := rfl
  have hsize : (fs.file inode).size / entLength = size := by
    rw [hbytes]
    exact Nat.mul_div_cancel _ (by decide)
  refine ⟨fs.truncate inode (size * entLength), ?_, ⟨rfl, rfl, fun i hi => Function.update_of_ne hi _ _, ?_⟩, fun i hi j hj => ?_⟩
  · unfold dbOpen
    rw [if_neg (by decide)]
    simp only [Fs.openCreate, hdir, bind, Except.bind, ne_eq, not_true_eq_false, decide_false, Bool.false_eq_true, if_false,
      if_true, hsize]
    rw [if_neg (by omega)]
  · simp [Fs.truncate, hbytes]
  · have hlt : i * entLength + j < size * entLength := by
      rw [hE] at hj ⊢
      omega
    simp only [Fs.entry, Fs.truncate, Function.update_self, hbytes]
    rw [if_pos ⟨hlt, hlt⟩]

/-- Opening a database again. -/
theorem Opened.reopen {fs fs' : Fs} {db db' : Db} {keys : List Byte → Prop} (h : Opened hash name fs db keys)
    (hcall : dbOpen fs name 0 = .ok (fs', db')) : Opened hash name fs' db' keys := by
  obtain ⟨fs₂, hopen, hsame, hentry⟩ := dbOpen_again h.path h.stored.pos h.stored.bytes
  obtain ⟨rfl, rfl⟩ := Prod.mk.inj (Except.ok.inj (hopen.symm.trans hcall))
  have h' := h.of_stored hsame (h.stored.of_table hsame.size (table_of_entry hentry))
  exact ⟨h'.stored, h'.path, rfl, h'.rehash, h'.next⟩

/-- Opening a new file: it becomes one entry of zero bytes. -/
theorem NewFile.created {fs fs' : Fs} {db : Db} (h : NewFile name fs) (hcall : dbOpen fs name 0 = .ok (fs', db)) :
    Placed name fs' db ∧ db.size = 1 ∧ (fs'.file db.entry).size = entLength ∧
      ∀ x, x < entLength → (fs'.file db.entry).byte x = 0 := by
  unfold dbOpen at hcall
  rw [if_neg (by decide)] at hcall
  cases hdir : fs.dir name with
  | none =>
    simp only [Fs.openCreate, hdir, bind, Except.bind, if_true, Function.update_self, Nat.zero_div, Except.ok.injEq,
      Prod.mk.injEq] at hcall
    obtain ⟨rfl, rfl⟩ := hcall
    refine ⟨⟨?_, rfl, ?_, ?_⟩, rfl, by simp [Fs.truncate], by simp [Fs.truncate]⟩
    · simp [Fs.truncate]
    · simp only [Fs.truncate, Function.update_of_ne (rehash_ne name)]
      exact h.rehash
    · intro path inode hp
      simp only [Fs.truncate] at hp ⊢
      by_cases he : path = name
      · rw [he, Function.update_self] at hp
        have := Option.some.inj hp
        omega
      · rw [Function.update_of_ne he] at hp
        have := h.next path inode hp
        omega
  | some inode =>
    have h0 := h.empty inode hdir
    simp only [Fs.openCreate, hdir, bind, Except.bind, ne_eq, not_true_eq_false, decide_false, Bool.false_eq_true, if_false,
      if_true, h0, Nat.zero_div, Except.ok.injEq, Prod.mk.injEq] at hcall
    obtain ⟨rfl, rfl⟩ := hcall
    exact ⟨⟨hdir, rfl, h.rehash, h.next⟩, rfl, by simp [Fs.truncate], by simp [Fs.truncate, h0]⟩

/-- The table of a new file has one entry, which is free. -/
theorem NewFile.open {fs fs' : Fs} {db : Db} (h : NewFile name fs) (hcall : dbOpen fs name 0 = .ok (fs', db)) :
    Opened hash name fs' db fun _ => False := by
  obtain ⟨hplaced, hsize, hbytes, hzero⟩ := h.created hcall
  refine ⟨?_, hplaced.path, hplaced.named, hplaced.rehash, hplaced.next⟩
  rw [hsize]
  exact stored_zero Nat.one_pos hbytes hzero

/-- The prefixes of the keys inserted so far. -/
def prefixes (inserted : List (List Byte)) (p : List Byte) : Prop := ∃ k ∈ inserted, k.take entLength = p

/-- The invariant of the runs: the open database, or the one last closed, has exactly the prefixes inserted. -/
def Inv (hash : List Byte → BitVec 32) (name : String) (s : St) : Prop :=
  match s.db with
  | some db => Opened hash name s.fs db (prefixes s.inserted)
  | none => (NewFile name s.fs ∧ s.inserted = []) ∨ ∃ db, Opened hash name s.fs db (prefixes s.inserted)

/-- The string at the pointer to a key. -/
theorem cstr_key {key : List Byte} (h : IsKey key) :
    (Ptr.ofList key) 0 ≠ 0 ∧ (Ptr.ofList key).cstr entLength = key.take entLength := by
  refine ⟨?_, Ptr.cstr_ofList h.2 entLength⟩
  obtain ⟨hne, h0⟩ := h
  cases key with
  | nil => exact absurd rfl hne
  | cons b key =>
    rw [List.mem_cons, not_or] at h0
    exact Ne.symm h0.1

theorem Opened.congr {fs : Fs} {db : Db} {keys keys' : List Byte → Prop} (h : Opened hash name fs db keys)
    (hk : ∀ k, keys k ↔ keys' k) : Opened hash name fs db keys' :=
  ⟨⟨h.stored.pos, h.stored.bytes, h.stored.probed, fun k => (h.stored.has k).trans (hk k)⟩, h.path, h.named, h.rehash, h.next⟩

/-- Every call keeps the invariant. -/
theorem Inv.step {s s' : St} {a : Act} (h : Inv hash name s) (hs : Step hash name s a s') : Inv hash name s' := by
  cases hs with
  | openDb hdb hcall =>
    unfold Inv at h ⊢
    rw [hdb] at h
    rcases h with ⟨hnew, hempty⟩ | ⟨db₀, h⟩
    · refine (hnew.open hcall).congr fun k => ?_
      simp [prefixes, hempty]
    · exact h.reopen hcall
  | closeDb hdb =>
    unfold Inv at h ⊢
    rw [hdb] at h
    exact Or.inr ⟨_, h⟩
  | insert hdb hkey hcall =>
    unfold Inv at h ⊢
    rw [hdb] at h
    obtain ⟨hstr, hcstr⟩ := cstr_key hkey
    refine (h.insert _ hstr hcall).congr fun k => ?_
    rw [hcstr]
    simp [prefixes, eq_comm]
  | query => exact h

/-- The invariant holds in every reachable state. -/
theorem inv_reach {s : St} (hs : (runs hash name).Reach s) : Inv hash name s := by
  have hind : (runs hash name).Inductive (Inv hash name) := by
    refine ⟨?_, fun s a s' h hst => h.step hst⟩
    rintro s ⟨hnew, hdb, hempty⟩
    unfold Inv
    rw [hdb]
    exact Or.inl ⟨hnew, hempty⟩
  exact hind.reach hs

/-- Whatever the hash function, in every state of every run a query answers whether a key with the same first 48 bytes was
inserted, and each such prefix is stored in exactly one entry. -/
theorem db_correct (hash : List Byte → BitVec 32) (name : String) {s : St} (hs : (runs hash name).Reach s) {db : Db}
    (hdb : s.db = some db) :
    (∀ key, IsKey key → (dbQuery hash s.fs db (Ptr.ofList key) = true ↔
      ∃ k ∈ s.inserted, k.take entLength = key.take entLength)) ∧
    ∀ k ∈ s.inserted, ∃! i, i < db.size ∧ s.fs.key db.entry i = k.take entLength := by
  have h := inv_reach hs
  unfold Inv at h
  rw [hdb] at h
  refine ⟨fun key hkey => ?_, fun k hk => ?_⟩
  · obtain ⟨hstr, hcstr⟩ := cstr_key hkey
    rw [h.stored.query hstr, hcstr]
    rfl
  · obtain ⟨i, hi⟩ := (h.stored.has (k.take entLength)).mpr ⟨k, hk, rfl⟩
    obtain ⟨hlt, hkey, hne⟩ := table_eq_some.mp hi
    refine ⟨i, ⟨hlt, hkey⟩, ?_⟩
    rintro j ⟨hj, hkey'⟩
    exact h.stored.probed.once j i _ (table_eq_some.mpr ⟨hj, hkey', hne⟩) hi

/-! ## An instance -/

/-- A system without files. -/
def noFiles : St := ⟨⟨fun _ => none, fun _ => ⟨0, fun _ => 0⟩, 0⟩, none, []⟩

/-- Two keys with one hash: the second finds the only entry taken, and the database is rehashed to two entries for it. A rehash to four
succeeds too. -/
theorem two_keys : ∃ fs fs' : Fs,
    (runs (fun _ => 0) "db").Reach ⟨fs, some ⟨0, 1, "db"⟩, [[97]]⟩ ∧ fs.key 0 0 = [97] ∧
      dbInsert (fun _ => 0) (Ptr.ofList [98]) 2 fs ⟨0, 1, "db"⟩ = .ok (fs', ⟨1, 2, "db"⟩) ∧
        (runs (fun _ => 0) "db").Reach ⟨fs', some ⟨1, 2, "db"⟩, [[98], [97]]⟩ ∧
          ∃ fs'' db'', dbRehash (fun _ => 0) fs' ⟨1, 2, "db"⟩ 4 = .ok (fs'', db'', true) := by
  have h0 : (runs (fun _ => 0) "db").Reach noFiles := .init ⟨⟨nofun, rfl, nofun⟩, rfl, rfl⟩
  obtain ⟨fs₁, fs₂, fs₃, hopen, hfirst, hkey, hsecond, hrehash⟩ : ∃ fs₁ fs₂ fs₃, dbOpen noFiles.fs "db" 0 = .ok (fs₁, ⟨0, 1, "db"⟩) ∧
      dbInsert (fun _ => 0) (Ptr.ofList [97]) 1 fs₁ ⟨0, 1, "db"⟩ = .ok (fs₂, ⟨0, 1, "db"⟩) ∧ fs₂.key 0 0 = [97] ∧
      dbInsert (fun _ => 0) (Ptr.ofList [98]) 2 fs₂ ⟨0, 1, "db"⟩ = .ok (fs₃, ⟨1, 2, "db"⟩) ∧
      ∃ fs'' db'', dbRehash (fun _ => 0) fs₃ ⟨1, 2, "db"⟩ 4 = .ok (fs'', db'', true) := ⟨_, _, _, rfl, rfl, rfl, rfl, _, _, rfl⟩
  have h1 : (runs (fun _ => 0) "db").Reach ⟨fs₁, some ⟨0, 1, "db"⟩, []⟩ := .step .openDb h0 (Step.openDb rfl hopen)
  have h2 : (runs (fun _ => 0) "db").Reach ⟨fs₂, some ⟨0, 1, "db"⟩, [[97]]⟩ :=
    .step (.insert [97]) h1 (Step.insert rfl ⟨by decide, by decide⟩ hfirst)
  have h3 : (runs (fun _ => 0) "db").Reach ⟨fs₃, some ⟨1, 2, "db"⟩, [[98], [97]]⟩ :=
    .step (.insert [98]) h2 (Step.insert rfl ⟨by decide, by decide⟩ hsecond)
  exact ⟨fs₂, fs₃, h2, hkey, hsecond, h3, hrehash⟩

/-- After a collision and a rehash both keys are found, and no other. -/
theorem db_correct_two : ∃ s db, (runs (fun _ => 0) "db").Reach s ∧ s.db = some db ∧ db.size = 2 ∧
    dbQuery (fun _ => 0) s.fs db (Ptr.ofList [97]) = true ∧ dbQuery (fun _ => 0) s.fs db (Ptr.ofList [98]) = true ∧
    dbQuery (fun _ => 0) s.fs db (Ptr.ofList [99]) = false := by
  obtain ⟨-, fs, -, -, -, h, -⟩ := two_keys
  have hq := (db_correct _ _ h rfl).1
  have hother : ¬ ∃ k ∈ ([[98], [97]] : List (List Byte)), k.take entLength = ([99] : List Byte).take entLength := by decide
  exact ⟨_, _, h, rfl, rfl, (hq [97] ⟨by decide, by decide⟩).mpr ⟨[97], by simp, rfl⟩,
    (hq [98] ⟨by decide, by decide⟩).mpr ⟨[98], by simp, rfl⟩,
    Bool.eq_false_iff.mpr fun hc => hother ((hq [99] ⟨by decide, by decide⟩).mp hc)⟩

end OsLabs.HashDb
