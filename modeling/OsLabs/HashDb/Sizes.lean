import OsLabs.HashDb.Finish

/-!
# The sizes that an insertion tries

`db_insert` tries the size that the database has, then doubles it for every rehash, and may come back with a larger database to try
again. `attempts` lists these sizes, with what came of each. With `n` keys stored an attempt can only fail at a size below
`2^14 * (n + 2)`, whatever the hash function; so the sizes stay below twice that, unless the database is larger already.

A database that is opened takes its size from the length of the file, and no one checks it before an insertion doubles it:
`sizes_powerof2_iff` says for which files the assertions of `db_open` and `db_rehash` hold in all runs.
-/

namespace OsLabs.HashDb

variable {hash : List Byte → BitVec 32} {name : String}

/-- The sizes that the inner loop of `db_insert` tries, each with whether the rehash succeeded. -/
def rehashAttempts (hash : List Byte → BitVec 32) : Nat → Fs → Db → Nat → List (Nat × Bool)
  | 0, _, _, _ => []
  | fuel + 1, fs, db, size =>
    match dbRehash hash fs db (size * 2) with
    | .error _ => [(size * 2, false)]
    | .ok (_, _, true) => [(size * 2, true)]
    | .ok (fs, db, false) => (size * 2, false) :: rehashAttempts hash fuel fs db (size * 2)

/-- The sizes that `db_insert` tries. -/
def attempts (hash : List Byte → BitVec 32) (str : Ptr) : Nat → Fs → Db → List (Nat × Bool)
  | 0, _, _ => []
  | fuel + 1, fs, db =>
    match dbMaybeInsert hash fs db str with
    | (_, true) => [(db.size, true)]
    | (fs, false) =>
      ((db.size, false) :: rehashAttempts hash fuel fs db db.size) ++
        match rehashLoop hash fuel fs db db.size with
        | .error _ => []
        | .ok (fs, db) => attempts hash str fuel fs db

/-! ## Attempts that fail -/

/-- The keys stored in a database. -/
def storedKeys (fs : Fs) (db : Db) : Finset (List Byte) := ((Finset.range db.size).image (fs.key db.entry)).erase []

/-- Each entry in use holds a key of its own. -/
theorem used_le_storedKeys {fs : Fs} {db : Db} {keys : List Byte → Prop} (h : Opened hash name fs db keys) :
    fs.used db.entry db.size ≤ (storedKeys fs db).card := by
  refine Finset.card_le_card_of_injOn (fs.key db.entry) (fun i hi => ?_) fun i hi j hj he => ?_
  · rw [Finset.mem_coe, Finset.mem_filter] at hi
    refine Finset.mem_erase.mpr ⟨fun hnil => hi.2 ((key_eq_nil fs db.entry i).mp hnil), ?_⟩
    exact Finset.mem_image_of_mem _ hi.1
  · rw [Finset.mem_coe, Finset.mem_filter, Finset.mem_range] at hi hj
    have hne : fs.key db.entry i ≠ [] := fun hnil => hi.2 ((key_eq_nil fs db.entry i).mp hnil)
    exact h.stored.probed.once i j _ (table_eq_some.mpr ⟨hi.1, rfl, hne⟩) (table_eq_some.mpr ⟨hj.1, he.symm, hne⟩)

/-- A size that is not large for the keys is small. -/
theorem lt_of_not_large {size m n : Nat} (h : ¬ Large size m) (hle : m ≤ n) (hn : n + 1 ≤ 2 ^ 32) : size < 2 ^ 14 * (n + 2) := by
  by_contra hge
  exact h ⟨by omega, by omega⟩

/-- A rehash that fails was into a small size. -/
theorem Usable.small_of_fail {fs : Fs} {db : Db} {newSize n : Nat} (h : Usable name fs db) (hpow : ∃ k, newSize = 2 ^ k)
    (hle : fs.used db.entry db.size ≤ n) (hn : n + 1 ≤ 2 ^ 32) {fs' : Fs} {db' : Db}
    (hcall : HashDb.dbRehash hash fs db newSize = .ok (fs', db', false)) : newSize < 2 ^ 14 * (n + 2) := by
  obtain ⟨fs₁, db₁, ok, hr, -, -, -, hok⟩ := h.dbRehash hash hpow
  obtain ⟨-, -, rfl⟩ : fs₁ = fs' ∧ db₁ = db' ∧ ok = false := by simpa using hr.symm.trans hcall
  exact lt_of_not_large (fun hl => Bool.noConfusion (hok hl)) hle hn

variable (hash) in
/-- The attempts of the inner loop that fail are small, and it ends with a database of at most twice a small size. -/
theorem Usable.rehashAttempts_small {n : Nat} (hn : n + 1 ≤ 2 ^ 32) : ∀ (fuel : Nat) {size : Nat} {fs : Fs} {db : Db},
    Usable name fs db → (∃ k, size = 2 ^ k) → fs.used db.entry db.size ≤ n → size < 2 ^ 14 * (n + 2) →
      (∀ a ∈ rehashAttempts hash fuel fs db size, a.2 = false → a.1 < 2 ^ 14 * (n + 2)) ∧
        ∀ fs' db', HashDb.rehashLoop hash fuel fs db size = .ok (fs', db') → db'.size ≤ 2 ^ 15 * (n + 2) := by
  intro fuel
  induction fuel with
  | zero => exact fun _ _ _ _ => ⟨nofun, nofun⟩
  | succ fuel ih =>
    intro size fs db h hpow hle hsmall
    obtain ⟨fs₁, db₁, ok, hr, h₁, hused, hsize, -⟩ := h.dbRehash hash (double_pow hpow)
    rw [rehashAttempts, HashDb.rehashLoop, hr]
    cases ok with
    | true =>
      refine ⟨?_, fun fs' db' hcall => ?_⟩
      · intro a ha hfail
        rw [List.mem_singleton.mp ha] at hfail
        cases hfail
      · obtain ⟨rfl, rfl⟩ : fs₁ = fs' ∧ db₁ = db' := by simpa [bind, Except.bind] using hcall
        rw [hsize rfl]
        omega
    | false =>
      have hnext := h.small_of_fail (double_pow hpow) hle hn hr
      obtain ⟨ha, hsize'⟩ := ih h₁ (double_pow hpow) (hused.trans hle) hnext
      exact ⟨List.forall_mem_cons.mpr ⟨fun _ => hnext, ha⟩, fun fs' db' hcall =>
        hsize' fs' db' (by simpa [bind, Except.bind] using hcall)⟩

variable (hash) in
/-- The attempts of `db_insert` that fail are small, and the database does not grow beyond twice a small size. -/
theorem Usable.attempts_small {n : Nat} (hn : n + 1 ≤ 2 ^ 32) (str : Ptr) : ∀ (fuel : Nat) {fs : Fs} {db : Db},
    Usable name fs db → fs.used db.entry db.size ≤ n →
      (∀ a ∈ attempts hash str fuel fs db, a.2 = false → a.1 < 2 ^ 14 * (n + 2)) ∧
        ∀ fs' db', dbInsert hash str fuel fs db = .ok (fs', db') → db'.size ≤ max db.size (2 ^ 15 * (n + 2)) := by
  intro fuel
  induction fuel with
  | zero => exact fun _ _ => ⟨nofun, nofun⟩
  | succ fuel ih =>
    intro fs db h hle
    obtain ⟨k, hk⟩ := h.isTable.pow
    rw [attempts, dbInsert]
    cases hins : dbMaybeInsert hash fs db str with
    | mk fs₁ ok =>
      obtain ⟨-, -, hfail⟩ := h.isTable.maybeInsert hins
      cases ok with
      | true =>
        refine ⟨?_, fun fs' db' hcall => ?_⟩
        · intro a ha hf
          rw [List.mem_singleton.mp ha] at hf
          cases hf
        · obtain ⟨-, rfl⟩ : fs₁ = fs' ∧ db = db' := by simpa using hcall
          exact le_max_left _ _
      | false =>
        obtain rfl := hfail rfl
        -- the insertion failed, so the size is small
        have hsmall : db.size < 2 ^ 14 * (n + 2) := by
          refine lt_of_not_large (fun hl => ?_) hle hn
          have hok := dbMaybeInsert_ok hash hk hl str
          rw [hins] at hok
          cases hok
        obtain ⟨ha, hend⟩ := h.rehashAttempts_small hash hn fuel h.isTable.pow hle hsmall
        cases hr : HashDb.rehashLoop hash fuel fs₁ db db.size with
        | error e =>
          refine ⟨?_, fun fs' db' hcall => ?_⟩
          · simp only [hr, List.append_nil]
            exact List.forall_mem_cons.mpr ⟨fun _ => hsmall, ha⟩
          · simp only [bind, Except.bind, hr] at hcall
            cases hcall
        | ok r =>
          obtain ⟨fs₂, db₂⟩ := r
          obtain ⟨h₂, hused, -⟩ := h.rehashLoop fuel h.isTable.pow hr
          obtain ⟨ha', hend'⟩ := ih h₂ (hused.trans hle)
          refine ⟨?_, fun fs' db' hcall => ?_⟩
          · simp only [hr]
            exact List.forall_mem_append.mpr ⟨List.forall_mem_cons.mpr ⟨fun _ => hsmall, ha⟩, ha'⟩
          · simp only [bind, Except.bind, hr] at hcall
            have h1 := hend' fs' db' hcall
            rw [max_eq_right (hend fs₂ db₂ hr)] at h1
            exact le_max_of_le_right h1

/-- Whatever the hash function, an insertion into any reachable database ends within 33 rounds of its loops. With `n` keys stored,
all attempts that fail are at sizes below `2^14 * (n + 2)`, and the size ends at the larger one of what it was and
`2^15 * (n + 2)` at most, if these bounds are below `2^32`. -/
theorem insert_bounded {s : St} (hs : (runs hash name).Reach s) {db : Db} (hdb : s.db = some db) (str : Ptr) {fuel : Nat}
    (hfuel : 33 ≤ fuel) (hbound : max db.size (2 ^ 15 * ((storedKeys s.fs db).card + 2)) < 2 ^ 32) :
    (∃ fs' db', dbInsert hash str fuel s.fs db = .ok (fs', db') ∧
      db'.size ≤ max db.size (2 ^ 15 * ((storedKeys s.fs db).card + 2))) ∧
      ∀ a ∈ attempts hash str fuel s.fs db, a.2 = false → a.1 < 2 ^ 14 * ((storedKeys s.fs db).card + 2) := by
  have hopen := inv_reach hs
  have h := usable_reach hs
  unfold Inv at hopen
  rw [hdb] at hopen h
  have hused := used_le_storedKeys hopen
  generalize (storedKeys s.fs db).card = n at hbound hused
  have hn : 2 ^ 15 * (n + 2) < 2 ^ 32 := (le_max_right _ _).trans_lt hbound
  have hn' : n + 1 ≤ 2 ^ 32 := by omega
  obtain ⟨e, rfl⟩ : ∃ e, fuel = e + 1 := ⟨fuel - 1, by omega⟩
  have hlarge : Large (db.size * 2 ^ e) (s.fs.used db.entry db.size) := by
    have hpow : 2 ^ 32 ≤ 2 ^ e := Nat.pow_le_pow_right (by decide) (by omega)
    have hmul : 2 ^ e ≤ db.size * 2 ^ e := Nat.le_mul_of_pos_left _ h.isTable.pos
    exact ⟨by omega, by omega⟩
  obtain ⟨⟨fs', db'⟩, hr⟩ := h.insert_ends hash e str hlarge
  obtain ⟨ha, hsize⟩ := h.attempts_small hash hn' str (e + 1) hused
  exact ⟨⟨fs', db', hr, hsize fs' db' hr⟩, ha⟩

/-- A key with the hash of the one that is there: a rehash to two entries. -/
theorem insert_bounded_second : ∃ fs fs' db', (runs (fun _ => 0) "db").Reach ⟨fs, some ⟨0, 1, "db"⟩, [[97]]⟩ ∧
    dbInsert (fun _ => 0) (Ptr.ofList [98]) 33 fs ⟨0, 1, "db"⟩ = .ok (fs', db') ∧ db'.size ≤ 2 ^ 15 * 3 ∧
      ∀ a ∈ attempts (fun _ => 0) (Ptr.ofList [98]) 33 fs ⟨0, 1, "db"⟩, a.2 = false → a.1 < 2 ^ 14 * 3 := by
  obtain ⟨fs, -, h, hkey, -⟩ := two_keys
  have hcard : (storedKeys fs ⟨0, 1, "db"⟩).card = 1 := by
    simp [storedKeys, hkey]
  obtain ⟨⟨fs', db', hr, hsize⟩, ha⟩ := insert_bounded h rfl (Ptr.ofList [98]) (Nat.le_refl 33) (by rw [hcard]; decide)
  rw [hcard] at hsize ha
  exact ⟨fs, fs', db', h, hr, hsize, ha⟩

/-! ## Files of any length -/

/-- The runs of insertions into the database that `db_open` makes of the file at the path, whatever the file holds. -/
def insertions (hash : List Byte → BitVec 32) (name : String) (fs : Fs) : Sys (Fs × Db) Ptr where
  init c := dbOpen fs name 0 = .ok c
  step c str c' := ∃ fuel, dbInsert hash str fuel c.1 c.2 = .ok c'

/-- The size of the database is a power of two, so are the sizes that any insertion tries, and no assertion fails in one. -/
structure SizesOk (hash : List Byte → BitVec 32) (c : Fs × Db) : Prop where
  size : ∃ k, c.2.size = 2 ^ k
  tried : ∀ str fuel, ∀ a ∈ attempts hash str fuel c.1 c.2, ∃ k, a.1 = 2 ^ k
  assertion : ∀ str fuel, dbInsert hash str fuel c.1 c.2 ≠ .error .assertion

/-- `powerof2` holds of zero and the powers of two. -/
theorem powerof2_iff {x : Nat} : powerof2 x ↔ x = 0 ∨ ∃ k, x = 2 ^ k := by
  constructor
  · intro h
    by_cases h0 : x = 0
    · exact Or.inl h0
    · rw [powerof2, Nat.and_comm] at h
      exact Or.inr ((Nat.and_sub_one_eq_zero_iff_isPowerOfTwo h0).mp h)
  · rintro (rfl | ⟨k, rfl⟩)
    · rfl
    · exact powerof2_two_pow k

/-- Opening with a power of two fails no assertion, and gives a database of that size. -/
theorem dbOpen_pow (fs : Fs) (name : String) {size : Nat} (hpow : ∃ k, size = 2 ^ k) :
    dbOpen fs name size ≠ .error .assertion ∧ ∀ fs' db, dbOpen fs name size = .ok (fs', db) → db.size = size := by
  have hp : powerof2 size := powerof2_iff.mpr (Or.inr hpow)
  have hne : size ≠ 0 := by
    obtain ⟨k, rfl⟩ := hpow
    exact (Nat.two_pow_pos k).ne'
  unfold dbOpen
  rw [if_neg (not_not_intro hp)]
  simp only [Fs.openCreate, bind, Except.bind, if_neg hne]
  cases fs.dir name with
  | none =>
    refine ⟨by simp, fun fs' db h => ?_⟩
    obtain ⟨-, rfl⟩ := Prod.mk.inj (Except.ok.inj h)
    rfl
  | some inode =>
    simp only [ne_eq, hne, not_false_eq_true, decide_true, if_true]
    exact ⟨by simp, fun _ _ h => by cases h⟩

/-- A rehash to a power of two fails no assertion, and leaves the database or makes one of that size. -/
theorem dbRehash_pow (hash : List Byte → BitVec 32) (fs : Fs) (db : Db) {newSize : Nat} (hpow : ∃ k, newSize = 2 ^ k) :
    dbRehash hash fs db newSize ≠ .error .assertion ∧
      ∀ fs' db' ok, dbRehash hash fs db newSize = .ok (fs', db', ok) → if ok then db'.size = newSize else db' = db := by
  have hp : powerof2 newSize := powerof2_iff.mpr (Or.inr hpow)
  obtain ⟨hno, hsize⟩ := dbOpen_pow fs (db.name ++ ".rehash") hpow
  rw [dbRehash, if_neg (not_not_intro hp)]
  simp only [bind, Except.bind]
  cases hopen : dbOpen fs (db.name ++ ".rehash") newSize with
  | error e => exact ⟨fun he => hno (by rw [hopen, Except.error.inj he]), fun _ _ _ h => by cases h⟩
  | ok r =>
    obtain ⟨fs₁, new⟩ := r
    cases hcopy : copyLoop hash db new db.size 0 fs₁ with
    | mk fs₂ ok₂ =>
      simp only [hcopy]
      cases ok₂ with
      | false =>
        refine ⟨by simp, fun fs' db' ok h => ?_⟩
        obtain ⟨-, rfl, rfl⟩ : _ ∧ db = db' ∧ false = ok := by simpa using h
        rfl
      | true =>
        refine ⟨by simp, fun fs' db' ok h => ?_⟩
        obtain ⟨-, rfl, rfl⟩ : _ ∧ ({ db with entry := new.entry, size := new.size } : Db) = db' ∧ true = ok := by simpa using h
        exact hsize fs₁ new hopen

/-- The inner loop from a power of two. -/
theorem rehashLoop_pow (hash : List Byte → BitVec 32) : ∀ (fuel : Nat) (fs : Fs) (db : Db) {size : Nat}, (∃ k, size = 2 ^ k) →
    (∀ a ∈ rehashAttempts hash fuel fs db size, ∃ k, a.1 = 2 ^ k) ∧ rehashLoop hash fuel fs db size ≠ .error .assertion ∧
      ∀ fs' db', rehashLoop hash fuel fs db size = .ok (fs', db') → ∃ k, db'.size = 2 ^ k := by
  intro fuel
  induction fuel with
  | zero =>
    intro fs db size _
    exact ⟨fun a ha => absurd ha List.not_mem_nil, by simp [rehashLoop], fun _ _ h => by cases h⟩
  | succ fuel ih =>
    intro fs db size hpow
    have hdouble := double_pow hpow
    obtain ⟨hno, hres⟩ := dbRehash_pow hash fs db hdouble
    rw [rehashAttempts, rehashLoop]
    simp only [bind, Except.bind]
    cases hr : dbRehash hash fs db (size * 2) with
    | error e =>
      exact ⟨List.forall_mem_singleton.mpr hdouble, fun he => hno (by rw [hr, Except.error.inj he]), fun _ _ h => by cases h⟩
    | ok r =>
      obtain ⟨fs₁, db₁, ok⟩ := r
      cases ok with
      | false =>
        obtain ⟨ha, hno', hsize⟩ := ih fs₁ db₁ hdouble
        exact ⟨List.forall_mem_cons.mpr ⟨hdouble, ha⟩, hno', hsize⟩
      | true =>
        refine ⟨List.forall_mem_singleton.mpr hdouble, by simp, fun fs' db' h => ?_⟩
        obtain ⟨-, rfl⟩ : fs₁ = fs' ∧ db₁ = db' := by simpa using h
        have hsize : db₁.size = size * 2 := by simpa using hres fs₁ db₁ true hr
        exact hsize ▸ hdouble

/-- An insertion into a database whose size is a power of two. -/
theorem dbInsert_pow (hash : List Byte → BitVec 32) (str : Ptr) : ∀ (fuel : Nat) (fs : Fs) {db : Db}, (∃ k, db.size = 2 ^ k) →
    (∀ a ∈ attempts hash str fuel fs db, ∃ k, a.1 = 2 ^ k) ∧ dbInsert hash str fuel fs db ≠ .error .assertion ∧
      ∀ fs' db', dbInsert hash str fuel fs db = .ok (fs', db') → ∃ k, db'.size = 2 ^ k := by
  intro fuel
  induction fuel with
  | zero =>
    intro fs db _
    exact ⟨fun a ha => absurd ha List.not_mem_nil, by simp [dbInsert], fun _ _ h => by cases h⟩
  | succ fuel ih =>
    intro fs db hpow
    rw [attempts, dbInsert]
    cases hins : dbMaybeInsert hash fs db str with
    | mk fs₁ ok =>
      cases ok with
      | true =>
        refine ⟨List.forall_mem_singleton.mpr hpow, by simp, fun fs' db' h => ?_⟩
        obtain ⟨-, rfl⟩ : fs₁ = fs' ∧ db = db' := by simpa using h
        exact hpow
      | false =>
        obtain ⟨ha, hno, hsize⟩ := rehashLoop_pow hash fuel fs₁ db hpow
        simp only [bind, Except.bind]
        cases hr : rehashLoop hash fuel fs₁ db db.size with
        | error e =>
          simp only [List.append_nil]
          exact ⟨List.forall_mem_cons.mpr ⟨hpow, ha⟩, fun he => hno (by rw [hr, Except.error.inj he]), fun _ _ h => by cases h⟩
        | ok r =>
          obtain ⟨fs₂, db₂⟩ := r
          obtain ⟨ha', hno', hsize'⟩ := ih fs₂ (hsize fs₂ db₂ hr)
          exact ⟨List.forall_mem_append.mpr ⟨List.forall_mem_cons.mpr ⟨hpow, ha⟩, ha'⟩, hno', hsize'⟩

/-- The size that `db_open` takes from the length of a file. -/
theorem dbOpen_file {fs : Fs} {inode : Nat} (hdir : fs.dir name = some inode) :
    ∃ fs', dbOpen fs name 0 =
      .ok (fs', ⟨inode, if (fs.file inode).size / entLength = 0 then 1 else (fs.file inode).size / entLength, name⟩) := by
  unfold dbOpen
  rw [if_neg (by decide)]
  simp only [Fs.openCreate, hdir, bind, Except.bind, ne_eq, not_true_eq_false, decide_false, Bool.false_eq_true, if_false, if_true]
  exact ⟨_, rfl⟩

/-- In all runs of insertions into an existing file the sizes are powers of two and no assertion fails, if and only if the whole
entries in the length of the file are a power of two, or none. -/
theorem sizes_powerof2_iff (hash : List Byte → BitVec 32) {name : String} {fs : Fs} {inode : Nat} (hdir : fs.dir name = some inode) :
    (∀ c, (insertions hash name fs).Reach c → SizesOk hash c) ↔ powerof2 ((fs.file inode).size / entLength) := by
  obtain ⟨fs', hopen⟩ := dbOpen_file hdir
  constructor
  · intro h
    obtain ⟨k, hk⟩ := (h _ (.init hopen)).size
    rw [powerof2_iff]
    by_cases h0 : (fs.file inode).size / entLength = 0
    · exact Or.inl h0
    · rw [if_neg h0] at hk
      exact Or.inr ⟨k, hk⟩
  · intro hp c hc
    have hind : (insertions hash name fs).Inductive fun c => ∃ k, c.2.size = 2 ^ k := by
      refine ⟨fun c hinit => ?_, fun c str c' hpow hst => ?_⟩
      · obtain rfl := Except.ok.inj (hopen.symm.trans hinit)
        rcases powerof2_iff.mp hp with h0 | ⟨k, hk⟩
        · exact ⟨0, if_pos h0⟩
        · refine ⟨k, ?_⟩
          have hne : (fs.file inode).size / entLength ≠ 0 := by
            rw [hk]
            exact (Nat.two_pow_pos k).ne'
          exact (if_neg hne).trans hk
      · obtain ⟨fuel, hcall⟩ := hst
        exact (dbInsert_pow hash str fuel _ hpow).2.2 c'.1 c'.2 hcall
    have hpow := hind.reach hc
    exact ⟨hpow, fun str fuel => (dbInsert_pow hash str fuel _ hpow).1, fun str fuel => (dbInsert_pow hash str fuel _ hpow).2.1⟩

/-- A file of three entries, with the keys `a`, `b` and `c`. -/
def threeEntries : Fs where
  dir path := if path = "db" then some 0 else none
  file _ := ⟨144, fun x => if x = 0 then 97 else if x = 48 then 98 else if x = 96 then 99 else 0⟩
  next := 1

/-- A file of two entries. -/
def twoEntries : Fs := { threeEntries with file := fun _ => ⟨96, fun _ => 0⟩ }

/-- Two entries. -/
theorem sizes_powerof2_two : (∀ c, (insertions (fun _ => 0) "db" twoEntries).Reach c → SizesOk (fun _ => 0) c) ↔
    powerof2 ((twoEntries.file 0).size / entLength) :=
  sizes_powerof2_iff (fun _ => 0) (show twoEntries.dir "db" = some 0 by decide)

/-- In a file of three entries that are all in use the next key makes the assertion of `db_rehash` fail. -/
theorem three_entries_abort : ¬ ∀ (hash : List Byte → BitVec 32) (name : String) (fs : Fs) (inode : Nat),
    fs.dir name = some inode → ∀ c, (insertions hash name fs).Reach c → SizesOk hash c := by
  intro h
  obtain ⟨c, hopen, hinsert⟩ : ∃ c, dbOpen threeEntries "db" 0 = .ok c ∧
      dbInsert (fun _ => 0) (Ptr.ofList [100]) 2 c.1 c.2 = .error .assertion := ⟨_, rfl, rfl⟩
  exact (h (fun _ => 0) "db" threeEntries 0 (by decide) c (.init hopen)).assertion _ _ hinsert

end OsLabs.HashDb
