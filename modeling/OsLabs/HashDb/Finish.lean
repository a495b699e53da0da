import OsLabs.HashDb.Runs
import Mathlib.Algebra.Order.Ring.Nat
import Mathlib.Data.Finset.Card
import Mathlib.Data.Nat.ModEq

/-!
# Every insertion ends

A chain has `(size >> 14) - 1` entries once the table is large, and the entries of one chain are different, so with fewer keys
than that an insertion finds a free one, whatever the hash function. A rehash into such a table succeeds for the same reason.
Each round of the two loops of `db_insert` doubles the size, so they come to such a table. What the argument needs of the files
(`Usable`) is weaker than what a table with the right keys has: it also holds of a database with a half-written key.
-/

namespace OsLabs.HashDb

variable {hash : List Byte → BitVec 32} {name : String}

/-! ## Entries in use -/

/-- The number of the first `n` entries of a file that are in use. -/
def Fs.used (fs : Fs) (inode n : Nat) : Nat := ((Finset.range n).filter fun i => fs.entry inode i 0 ≠ 0).card

theorem used_congr {fs fs' : Fs} {inode n : Nat} (h : ∀ i, i < n → fs'.entry inode i 0 = fs.entry inode i 0) :
    fs'.used inode n = fs.used inode n := by
  unfold Fs.used
  congr 1
  refine Finset.filter_congr fun i hi => ?_
  rw [h i (Finset.mem_range.mp hi)]

theorem used_of_file {fs fs' : Fs} {inode : Nat} (h : fs'.file inode = fs.file inode) (n : Nat) :
    fs'.used inode n = fs.used inode n :=
  used_congr fun i _ => by simp only [Fs.entry, h]

/-- One more entry. -/
theorem used_succ (fs : Fs) (inode n : Nat) :
    fs.used inode (n + 1) = fs.used inode n + if fs.entry inode n 0 ≠ 0 then 1 else 0 := by
  unfold Fs.used
  rw [Finset.range_add_one, Finset.filter_insert]
  split
  · rw [Finset.card_insert_of_notMem]
    simp
  · rfl

theorem used_mono (fs : Fs) (inode : Nat) {m n : Nat} (h : m ≤ n) : fs.used inode m ≤ fs.used inode n := by
  refine Finset.card_le_card fun i hi => ?_
  rw [Finset.mem_filter, Finset.mem_range] at hi ⊢
  exact ⟨by omega, hi.2⟩

/-- A change of one entry adds at most one. -/
theorem used_le_succ {fs fs' : Fs} {inode n idx : Nat} (h : ∀ i, i ≠ idx → fs'.entry inode i 0 = fs.entry inode i 0) :
    fs'.used inode n ≤ fs.used inode n + 1 := by
  refine (Finset.card_le_card (t := insert idx ((Finset.range n).filter fun i => fs.entry inode i 0 ≠ 0)) fun i hi => ?_).trans
    (Finset.card_insert_le ..)
  rw [Finset.mem_filter] at hi
  by_cases he : i = idx
  · exact he ▸ Finset.mem_insert_self ..
  · rw [h i he] at hi
    exact Finset.mem_insert_of_mem (Finset.mem_filter.mpr hi)

/-! ## The entries of a chain -/

/-- The entries of a chain are different as long as the table, and 32 bits, have room for them. -/
theorem slot_ne {size k : Nat} (hsize : size = 2 ^ k) (chain : BitVec 32) {c d : Nat} (hlt : c < d) (hd : d < size)
    (hd' : d < 2 ^ 32) : slot size chain c ≠ slot size chain d := by
  intro h
  have hof : ∀ e, e < 2 ^ 32 → (chain + BitVec.ofNat 32 e).toNat = (chain.toNat + e) % 2 ^ 32 := by
    intro e he
    rw [BitVec.toNat_add, BitVec.toNat_ofNat, Nat.mod_eq_of_lt he]
  unfold slot at h
  rw [hof c (by omega), hof d hd', hsize] at h
  rcases Nat.le_total k 32 with hk | hk
  · have hdvd : 2 ^ k ∣ 2 ^ 32 := pow_dvd_pow 2 hk
    rw [Nat.mod_mod_of_dvd _ hdvd, Nat.mod_mod_of_dvd _ hdvd] at h
    have hmod : c ≡ d [MOD 2 ^ k] := Nat.ModEq.add_left_cancel' chain.toNat h
    exact absurd (hmod.eq_of_lt_of_lt (by omega) (by omega)) (by omega)
  · have hle : 2 ^ 32 ≤ 2 ^ k := Nat.pow_le_pow_right (by decide) hk
    have hsmall : ∀ e, e % 2 ^ 32 % 2 ^ k = e % 2 ^ 32 := fun e =>
      Nat.mod_eq_of_lt (Nat.lt_of_lt_of_le (Nat.mod_lt _ (by decide)) hle)
    rw [hsmall, hsmall] at h
    have hmod : c ≡ d [MOD 2 ^ 32] := Nat.ModEq.add_left_cancel' chain.toNat h
    exact absurd (hmod.eq_of_lt_of_lt (by omega) (by omega)) (by omega)

/-- A table is large for `n` keys when a chain has more than `n` entries, all of them different. -/
def Large (size n : Nat) : Prop := 2 ^ 14 * (n + 2) ≤ size ∧ n + 1 ≤ 2 ^ 32

theorem Large.chain {size n : Nat} (h : Large size n) : n + 1 ≤ chainLen size ∧ n + 1 ≤ size := by
  obtain ⟨h1, -⟩ := h
  have hdiv : n + 2 ≤ size / 2 ^ 14 := (Nat.le_div_iff_mul_le (by decide)).mpr (by rw [Nat.mul_comm]; exact h1)
  unfold chainLen
  rw [Nat.shiftRight_eq_div_pow]
  omega

theorem Large.mono {size m n : Nat} (h : Large size n) (hle : m ≤ n) : Large size m := by
  obtain ⟨h1, h2⟩ := h
  exact ⟨by omega, by omega⟩

/-- An insertion into a table that is large for its entries finds a free one. -/
theorem dbMaybeInsert_ok (hash : List Byte → BitVec 32) {fs : Fs} {db : Db} {k : Nat} (hsize : db.size = 2 ^ k)
    (hl : Large db.size (fs.used db.entry db.size)) (str : Ptr) : (dbMaybeInsert hash fs db str).2 = true := by
  by_contra hno
  rw [Bool.not_eq_true] at hno
  cases hcall : dbMaybeInsert hash fs db str with
  | mk fs' ok =>
    rw [hcall] at hno
    simp only at hno
    subst hno
    rw [dbMaybeInsert, dbAction] at hcall
    split at hcall
    · cases hcall
    · obtain ⟨hchain, hle⟩ := hl.chain
      have hpos : 0 < db.size := by omega
      have hfull := ((dbActionLoop_cases hpos _ _ hcall).1 rfl).2
      -- all entries of the chain are in use, and different: there are more of them than entries in use
      have hcard := Finset.card_le_card_of_injOn (s := Finset.range (fs.used db.entry db.size + 1))
        (t := (Finset.range db.size).filter fun i => fs.entry db.entry i 0 ≠ 0)
        (slot db.size (hash ((List.range (str.strnlen entLength)).map str))) ?_ ?_
      · rw [Finset.card_range] at hcard
        exact absurd hcard (Nat.not_succ_le_self _)
      · intro c hc
        have hc' := Finset.mem_range.mp hc
        exact Finset.mem_filter.mpr ⟨Finset.mem_range.mpr (slot_lt hpos _ c), hfull c (Nat.zero_le c) (by omega)⟩
      · intro c hc d hd he
        have hc' := Finset.mem_range.mp hc
        have hd' := Finset.mem_range.mp hd
        have h32 := hl.2
        rcases Nat.lt_trichotomy c d with hlt | heq | hlt
        · exact absurd he (slot_ne hsize _ hlt (by omega) (by omega))
        · exact heq
        · exact absurd he.symm (slot_ne hsize _ hlt (by omega) (by omega))

/-! ## Files that are databases -/

/-- The file is a database of `size` entries: its free entries consist of zero bytes. -/
structure IsTable (fs : Fs) (inode size : Nat) : Prop where
  pow : ∃ k, size = 2 ^ k
  bytes : (fs.file inode).size = size * entLength
  clean : ∀ i, i < size → fs.entry inode i 0 = 0 → ∀ j, j < entLength → fs.entry inode i j = 0

theorem IsTable.pos {fs : Fs} {inode size : Nat} (h : IsTable fs inode size) : 0 < size := by
  obtain ⟨k, hk⟩ := h.pow
  rw [hk]
  exact Nat.two_pow_pos k

theorem IsTable.of_entry {fs fs' : Fs} {inode size : Nat} (h : IsTable fs inode size)
    (hb : (fs'.file inode).size = (fs.file inode).size)
    (he : ∀ i, i < size → ∀ j, j < entLength → fs'.entry inode i j = fs.entry inode i j) : IsTable fs' inode size := by
  refine ⟨h.pow, hb.trans h.bytes, fun i hi h0 j hj => ?_⟩
  rw [he i hi 0 (by decide)] at h0
  rw [he i hi j hj]
  exact h.clean i hi h0 j hj

theorem IsTable.of_file {fs fs' : Fs} {inode size : Nat} (h : IsTable fs inode size) (hf : fs'.file inode = fs.file inode) :
    IsTable fs' inode size :=
  h.of_entry (by rw [hf]) fun i _ j _ => by simp only [Fs.entry, hf]

/-- A file of zero bytes is an empty database. -/
theorem isTable_zero {fs : Fs} {inode size : Nat} (hpow : ∃ k, size = 2 ^ k) (hb : (fs.file inode).size = size * entLength)
    (hz : ∀ i, i < size → ∀ j, j < entLength → fs.entry inode i j = 0) : IsTable fs inode size ∧ fs.used inode size = 0 := by
  refine ⟨⟨hpow, hb, fun i hi _ => hz i hi⟩, Finset.card_eq_zero.mpr (Finset.filter_eq_empty_iff.mpr fun i hi => ?_)⟩
  exact not_not_intro (hz i (Finset.mem_range.mp hi) 0 (by decide))

/-- The first `j` byte stores of `strncpy(db->entry[idx], str, ENT_LENGTH)`; all 48 of them are the whole call. -/
def Fs.storeBytes (fs : Fs) (inode idx : Nat) (str : Ptr) (j : Nat) : Fs :=
  let f := fs.file inode
  let byte x :=
    if idx * entLength ≤ x ∧ x < idx * entLength + j then (str.strncpy entLength).getD (x - idx * entLength) 0
    else f.byte x
  { fs with file := Function.update fs.file inode ⟨f.size, byte⟩ }

theorem sameElse_storeBytes (fs : Fs) (inode idx : Nat) (str : Ptr) (j : Nat) :
    SameElse fs (fs.storeBytes inode idx str j) inode := by
  refine ⟨rfl, rfl, fun i hi => Function.update_of_ne hi _ _, ?_⟩
  simp [Fs.storeBytes]

/-- The bytes of an entry after stores into another one. -/
theorem entry_storeBytes_ne (fs : Fs) (inode : Nat) (str : Ptr) {idx i x j : Nat} (hi : i ≠ idx) (hx : x < entLength)
    (hj : j ≤ entLength) : (fs.storeBytes inode idx str j).entry inode i x = fs.entry inode i x := by
  have hE : entLength = 48 := rfl
  rw [hE] at hx hj
  simp only [Fs.entry, Fs.storeBytes, Function.update_self]
  rw [hE, if_neg (by omega)]

/-- The bytes of an entry after stores into it. -/
theorem entry_storeBytes_self (fs : Fs) (inode idx : Nat) (str : Ptr) (j x : Nat) :
    (fs.storeBytes inode idx str j).entry inode idx x =
      if x < j then (str.strncpy entLength).getD x 0 else fs.entry inode idx x := by
  simp only [Fs.entry, Fs.storeBytes, Function.update_self, Nat.le_add_right, true_and, Nat.add_lt_add_iff_left,
    Nat.add_sub_cancel_left]

/-- The first byte that `strncpy` stores is the first byte of the string. -/
theorem strncpy_head (str : Ptr) : (str.strncpy entLength).getD 0 0 = str 0 := by
  show (str.strncpy (47 + 1)).getD 0 0 = str 0
  rw [Ptr.strncpy]
  split
  · rename_i h
    rw [h]
    rfl
  · rfl

/-- A key stored in an entry, all of it or its first bytes, keeps the database and adds at most one entry. -/
theorem IsTable.store {fs : Fs} {inode size : Nat} (h : IsTable fs inode size) (idx : Nat) {str : Ptr} {j : Nat}
    (hstr : str 0 ≠ 0) (h1 : 0 < j) (hj : j ≤ entLength) :
    IsTable (fs.storeBytes inode idx str j) inode size ∧
      (fs.storeBytes inode idx str j).used inode size ≤ fs.used inode size + 1 := by
  refine ⟨⟨h.pow, (sameElse_storeBytes fs inode idx str j).size.trans h.bytes, fun i hi h0 x hx => ?_⟩,
    used_le_succ fun i hi => entry_storeBytes_ne fs inode str hi (by decide) hj⟩
  by_cases he : i = idx
  · rw [he, entry_storeBytes_self, if_pos h1, strncpy_head] at h0
    exact absurd h0 hstr
  · rw [entry_storeBytes_ne fs inode str he (by decide) hj] at h0
    rw [entry_storeBytes_ne fs inode str he hx hj]
    exact h.clean i hi h0 x hx

/-- An insertion keeps the database, and adds at most one entry; when it fails, nothing changes. -/
theorem IsTable.maybeInsert {fs fs' : Fs} {db : Db} {str : Ptr} {ok : Bool} (h : IsTable fs db.entry db.size)
    (hcall : dbMaybeInsert hash fs db str = (fs', ok)) :
    IsTable fs' db.entry db.size ∧
      fs'.used db.entry db.size ≤ fs.used db.entry db.size + (if str 0 ≠ 0 then 1 else 0) ∧ (ok = false → fs' = fs) := by
  rw [dbMaybeInsert, dbAction] at hcall
  split at hcall
  · obtain ⟨rfl, rfl⟩ := Prod.mk.inj hcall
    exact ⟨h, Nat.le_add_right _ _, fun e => (by cases e)⟩
  · rename_i hstr
    rw [if_pos hstr]
    obtain ⟨hfail, hok⟩ := dbActionLoop_cases h.pos _ _ hcall
    cases ok with
    | false =>
      rw [(hfail rfl).1]
      exact ⟨h, Nat.le_add_right _ _, fun _ => rfl⟩
    | true =>
      rcases hok rfl with rfl | ⟨idx, -, -, rfl⟩
      · exact ⟨h, Nat.le_add_right _ _, fun _ => rfl⟩
      · obtain ⟨h', hused⟩ := h.store idx hstr (show 0 < entLength by decide) (Nat.le_refl _)
        exact ⟨h', hused, fun e => (by cases e)⟩

/-- The copy loop of a rehash: the new database has at most the entries of the old one, and it gets them all when it is large. -/
theorem IsTable.copyLoop {db new : Db} (hne : db.entry ≠ new.entry) : ∀ (n i : Nat) {fs fs' : Fs} {ok : Bool},
    IsTable fs new.entry new.size → HashDb.copyLoop hash db new n i fs = (fs', ok) →
      IsTable fs' new.entry new.size ∧
        fs'.used new.entry new.size + fs.used db.entry i ≤ fs.used new.entry new.size + fs.used db.entry (i + n) ∧
        ∀ m, fs.used new.entry new.size + fs.used db.entry (i + n) ≤ m + fs.used db.entry i → Large new.size m → ok = true := by
  intro n
  induction n with
  | zero =>
    intro i fs fs' ok h hcall
    obtain ⟨rfl, rfl⟩ := Prod.mk.inj hcall
    exact ⟨h, Nat.le_refl _, fun _ _ _ => rfl⟩
  | succ n ih =>
    intro i fs fs' ok h hcall
    rw [HashDb.copyLoop] at hcall
    cases hins : dbMaybeInsert hash fs new (fs.entry db.entry i) with
    | mk fs₁ ok₁ =>
      obtain ⟨h₁, hused, hfail⟩ := h.maybeInsert hins
      have hfile : fs₁.file db.entry = fs.file db.entry := (dbMaybeInsert_same h.pos hins).others _ hne
      have hold : ∀ n, fs₁.used db.entry n = fs.used db.entry n := used_of_file hfile
      have hsucc := used_succ fs db.entry i
      have hle := used_mono fs db.entry (show i + 1 ≤ i + (n + 1) by omega)
      rw [hins] at hcall
      cases ok₁ with
      | false =>
        obtain ⟨rfl, rfl⟩ := Prod.mk.inj hcall
        refine ⟨h₁, by omega, fun m hm hl => ?_⟩
        -- a free entry was there for the key
        obtain ⟨k, hk⟩ := h.pow
        have hle' : fs.used new.entry new.size ≤ m := by omega
        have hok := dbMaybeInsert_ok hash hk (hl.mono hle') (fs.entry db.entry i)
        rw [hins] at hok
        cases hok
      | true =>
        obtain ⟨h', hused', hok⟩ := ih (i + 1) h₁ hcall
        rw [hold, hold, show i + 1 + n = i + (n + 1) by omega] at hused' hok
        exact ⟨h', by omega, fun m hm hl => hok m (by omega) hl⟩

/-! ## Databases that can be used -/

/-- The file at the path is a database, whatever its keys, and nothing is at the path of the rehashed one. -/
structure Usable (name : String) (fs : Fs) (db : Db) : Prop where
  isTable : IsTable fs db.entry db.size
  placed : Placed name fs db

theorem powerof2_two_pow (k : Nat) : powerof2 (2 ^ k) := by
  rw [powerof2, Nat.and_comm, Nat.and_two_pow_sub_one_eq_mod, Nat.mod_self]

/-- A rehash keeps the database usable, and succeeds when the new size is large. -/
theorem Usable.dbRehash {fs : Fs} {db : Db} {newSize : Nat} (hash : List Byte → BitVec 32) (h : Usable name fs db)
    (hpow : ∃ k, newSize = 2 ^ k) :
    ∃ fs' db' ok, HashDb.dbRehash hash fs db newSize = .ok (fs', db', ok) ∧ Usable name fs' db' ∧
      fs'.used db'.entry db'.size ≤ fs.used db.entry db.size ∧ (ok = true → db'.size = newSize) ∧
      (Large newSize (fs.used db.entry db.size) → ok = true) := by
  obtain ⟨k, rfl⟩ := hpow
  obtain ⟨fs₁, fs₂, ok, hc, hrun⟩ := h.placed.dbRehash hash (Nat.two_pow_pos k).ne' (powerof2_two_pow k)
  have hlt := h.placed.next name db.entry h.placed.path
  have hE : entLength = 48 := rfl
  obtain ⟨hzero, hnone⟩ := isTable_zero ⟨k, rfl⟩ hc.bytes fun i _ j _ => hc.zero (i * entLength + j)
  have hne : db.entry ≠ fs.next := by omega
  have hzero' : IsTable fs₁ (⟨fs.next, 2 ^ k, name ++ ".rehash"⟩ : Db).entry _ := hzero
  obtain ⟨hnew, hused, hok⟩ := hzero'.copyLoop hne db.size 0 hc.copy
  simp only [used_of_file (hc.others db.entry hne), Nat.zero_add, hnone] at hused hok
  have hempty : fs.used db.entry 0 = 0 := rfl
  rw [hempty] at hused hok
  cases ok with
  | false =>
    obtain ⟨hp, hfile⟩ := hc.fail h.placed
    refine ⟨_, _, _, hrun, ⟨h.isTable.of_file hfile, hp⟩, Nat.le_of_eq (used_of_file hfile _), fun e => (by cases e),
      fun hl => hok _ (by omega) hl⟩
  | true =>
    have hnew' : IsTable fs₂ fs.next (2 ^ k) := hnew
    exact ⟨_, _, _, hrun, ⟨hnew'.of_file rfl, hc.done h.placed⟩, hused, fun _ => rfl, fun _ => rfl⟩

theorem double_pow {size : Nat} (h : ∃ k, size = 2 ^ k) : ∃ k, size * 2 = 2 ^ k := by
  obtain ⟨k, rfl⟩ := h
  exact ⟨k + 1, (pow_succ 2 k).symm⟩

/-- The inner loop of `db_insert` keeps the database usable, and doubles the size at least. -/
theorem Usable.rehashLoop : ∀ (fuel : Nat) {size : Nat} {fs fs' : Fs} {db db' : Db}, Usable name fs db →
    (∃ k, size = 2 ^ k) → HashDb.rehashLoop hash fuel fs db size = .ok (fs', db') →
      Usable name fs' db' ∧ fs'.used db'.entry db'.size ≤ fs.used db.entry db.size ∧ size * 2 ≤ db'.size := by
  intro fuel
  induction fuel with
  | zero =>
    intro size fs fs' db db' _ _ hcall
    cases hcall
  | succ fuel ih =>
    intro size fs fs' db db' h hpow hcall
    obtain ⟨fs₁, db₁, ok, hr, h₁, hused, hsize, -⟩ := h.dbRehash hash (double_pow hpow)
    rw [HashDb.rehashLoop, hr] at hcall
    cases ok with
    | true =>
      obtain ⟨rfl, rfl⟩ : fs₁ = fs' ∧ db₁ = db' := by simpa [bind, Except.bind] using hcall
      exact ⟨h₁, hused, (hsize rfl).ge⟩
    | false =>
      obtain ⟨h', hused', hsize'⟩ := ih h₁ (double_pow hpow) (by simpa [bind, Except.bind] using hcall)
      exact ⟨h', hused'.trans hused, by omega⟩

/-- The inner loop ends once the size is large. -/
theorem Usable.rehashLoop_ends (hash : List Byte → BitVec 32) : ∀ (e : Nat) {size : Nat} {fs : Fs} {db : Db},
    Usable name fs db → (∃ k, size = 2 ^ k) → Large (size * 2 ^ (e + 1)) (fs.used db.entry db.size) →
      ∃ r, HashDb.rehashLoop hash (e + 1) fs db size = .ok r := by
  intro e
  induction e with
  | zero =>
    intro size fs db h hpow hl
    obtain ⟨fs₁, db₁, ok, hr, -, -, -, hok⟩ := h.dbRehash hash (double_pow hpow)
    rw [Nat.zero_add, pow_one] at hl
    obtain rfl := hok hl
    exact ⟨(fs₁, db₁), by rw [HashDb.rehashLoop, hr]; rfl⟩
  | succ e ih =>
    intro size fs db h hpow hl
    obtain ⟨fs₁, db₁, ok, hr, h₁, hused, -, -⟩ := h.dbRehash hash (double_pow hpow)
    rw [HashDb.rehashLoop, hr]
    cases ok with
    | true => exact ⟨(fs₁, db₁), rfl⟩
    | false =>
      have hl' : Large (size * 2 * 2 ^ (e + 1)) (fs.used db.entry db.size) := by
        rw [Nat.mul_assoc, ← pow_succ']
        exact hl
      exact ih h₁ (double_pow hpow) (hl'.mono hused)

/-- `db_insert` keeps the database usable, and adds at most one entry. -/
theorem Usable.insert : ∀ (fuel : Nat) {fs fs' : Fs} {db db' : Db} {str : Ptr}, Usable name fs db →
    dbInsert hash str fuel fs db = .ok (fs', db') →
      Usable name fs' db' ∧ fs'.used db'.entry db'.size ≤ fs.used db.entry db.size + 1 := by
  intro fuel
  induction fuel with
  | zero =>
    intro fs fs' db db' str _ hcall
    cases hcall
  | succ fuel ih =>
    intro fs fs' db db' str h hcall
    rw [dbInsert] at hcall
    cases hins : dbMaybeInsert hash fs db str with
    | mk fs₁ ok =>
      obtain ⟨h₁, hused, hfail⟩ := h.isTable.maybeInsert hins
      rw [hins] at hcall
      cases ok with
      | true =>
        obtain ⟨rfl, rfl⟩ : fs₁ = fs' ∧ db = db' := by simpa using hcall
        have hsame := dbMaybeInsert_same h.isTable.pos hins
        exact ⟨⟨h₁, h.placed.of_same hsame⟩, hused.trans (by split <;> omega)⟩
      | false =>
        obtain rfl := hfail rfl
        simp only [bind, Except.bind] at hcall
        cases hr : HashDb.rehashLoop hash fuel fs₁ db db.size with
        | error e => rw [hr] at hcall; cases hcall
        | ok r =>
          obtain ⟨fs₂, db₂⟩ := r
          obtain ⟨h₂, hused₂, -⟩ := h.rehashLoop fuel h.isTable.pow hr
          rw [hr] at hcall
          obtain ⟨h', hused'⟩ := ih h₂ hcall
          exact ⟨h', by omega⟩

/-- `db_insert` ends: each of its rounds doubles the size, and an insertion into a large database succeeds. -/
theorem Usable.insert_ends (hash : List Byte → BitVec 32) : ∀ (e : Nat) {fs : Fs} {db : Db} (str : Ptr), Usable name fs db →
    Large (db.size * 2 ^ e) (fs.used db.entry db.size) → ∃ r, dbInsert hash str (e + 1) fs db = .ok r := by
  intro e
  induction e with
  | zero =>
    intro fs db str h hl
    obtain ⟨k, hk⟩ := h.isTable.pow
    rw [pow_zero, Nat.mul_one] at hl
    have hok := dbMaybeInsert_ok hash hk hl str
    cases hins : dbMaybeInsert hash fs db str with
    | mk fs₁ ok =>
      rw [hins] at hok
      obtain rfl : ok = true := hok
      exact ⟨(fs₁, db), by rw [dbInsert, hins]⟩
  | succ e ih =>
    intro fs db str h hl
    rw [dbInsert]
    cases hins : dbMaybeInsert hash fs db str with
    | mk fs₁ ok =>
      cases ok with
      | true => exact ⟨(fs₁, db), rfl⟩
      | false =>
        obtain ⟨-, -, hfail⟩ := h.isTable.maybeInsert hins
        obtain rfl := hfail rfl
        obtain ⟨⟨fs₂, db₂⟩, hr⟩ := h.rehashLoop_ends hash e h.isTable.pow hl
        obtain ⟨h₂, hused, hsize⟩ := h.rehashLoop (e + 1) h.isTable.pow hr
        have hl₂ : Large (db₂.size * 2 ^ e) (fs₁.used db.entry db.size) := by
          refine ⟨hl.1.trans ?_, hl.2⟩
          rw [pow_succ', ← Nat.mul_assoc]
          exact Nat.mul_le_mul_right _ hsize
        obtain ⟨r, hr'⟩ := ih str h₂ (hl₂.mono hused)
        exact ⟨r, by simp only [hr, bind, Except.bind, hr']⟩

/-! ## Opening -/

/-- Opening a database again. -/
theorem Usable.reopen {fs : Fs} {db : Db} (h : Usable name fs db) :
    ∃ fs', dbOpen fs name 0 = .ok (fs', db) ∧ Usable name fs' db ∧
      (∀ i, i < db.size → ∀ j, j < entLength → fs'.entry db.entry i j = fs.entry db.entry i j) := by
  obtain ⟨fs', hopen, hsame, hentry⟩ := dbOpen_again h.placed.path h.isTable.pos h.isTable.bytes
  have hdb : (⟨db.entry, db.size, name⟩ : Db) = db := by rw [← h.placed.named]
  exact ⟨fs', hdb ▸ hopen, ⟨h.isTable.of_entry hsame.size hentry, h.placed.of_same hsame⟩, hentry⟩

/-- Opening a new file: a database of one entry. -/
theorem NewFile.usable {fs fs' : Fs} {db : Db} (h : NewFile name fs) (hcall : dbOpen fs name 0 = .ok (fs', db)) :
    Usable name fs' db := by
  obtain ⟨hplaced, hsize, hbytes, hzero⟩ := h.created hcall
  refine ⟨?_, hplaced⟩
  have hone : (fs'.file db.entry).size = 1 * entLength := by rw [hbytes, Nat.one_mul]
  rw [hsize]
  refine (isTable_zero ⟨0, rfl⟩ hone fun i hi j hj => ?_).1
  obtain rfl := Nat.lt_one_iff.mp hi
  exact hzero _ (by rwa [Nat.zero_mul, Nat.zero_add])

/-- In every reachable state the database is usable, and so is the one last closed. -/
theorem usable_reach {s : St} (hs : (runs hash name).Reach s) :
    match s.db with
    | some db => Usable name s.fs db
    | none => NewFile name s.fs ∨ ∃ db, Usable name s.fs db := by
  have hind : (runs hash name).Inductive fun s => match s.db with
      | some db => Usable name s.fs db
      | none => NewFile name s.fs ∨ ∃ db, Usable name s.fs db := by
    constructor
    · rintro s ⟨hnew, hdb, -⟩
      rw [hdb]
      exact Or.inl hnew
    · intro s a s' h hst
      cases hst with
      | openDb hdb hcall =>
        rw [hdb] at h
        rcases h with hnew | ⟨db₀, h⟩
        · exact hnew.usable hcall
        · obtain ⟨fs', hopen, h', -⟩ := h.reopen
          obtain ⟨rfl, rfl⟩ := Prod.mk.inj (Except.ok.inj (hopen.symm.trans hcall))
          exact h'
      | closeDb hdb =>
        rw [hdb] at h
        exact Or.inr ⟨_, h⟩
      | insert hdb _ hcall =>
        rw [hdb] at h
        exact (h.insert _ hcall).1
      | query => exact h
  exact hind.reach hs

/-! ## Many insertions -/

/-- One `db_insert` after the other. -/
def insertAll (hash : List Byte → BitVec 32) (fuel : Nat) : List (List Byte) → Fs → Db → Except Stop (Fs × Db)
  | [], fs, db => .ok (fs, db)
  | key :: keys, fs, db => do
    let (fs, db) ← dbInsert hash (Ptr.ofList key) fuel fs db
    insertAll hash fuel keys fs db

/-- Any sequence of insertions into a usable database succeeds, as long as it then has fewer than 2^31 entries: the chains stay
within an `int`. -/
theorem Usable.insertAll_ends {fs : Fs} {db : Db} {keys : List (List Byte)} (h : Usable name fs db)
    (hn : fs.used db.entry db.size + keys.length < 2 ^ 31) : ∃ fuel r, insertAll hash fuel keys fs db = .ok r := by
  -- enough rounds for the entries of all keys
  obtain ⟨e, he⟩ : ∃ e, Large (2 ^ e) (fs.used db.entry db.size + keys.length) := by
    refine ⟨14 + (fs.used db.entry db.size + keys.length + 2), ?_, by omega⟩
    rw [pow_add]
    exact Nat.mul_le_mul_left _ (Nat.le_of_lt Nat.lt_two_pow_self)
  clear hn
  refine ⟨e + 1, ?_⟩
  induction keys generalizing fs db with
  | nil => exact ⟨(fs, db), rfl⟩
  | cons key keys ih =>
    rw [List.length_cons] at he
    have hl : Large (db.size * 2 ^ e) (fs.used db.entry db.size) :=
      ⟨(he.mono (Nat.le_add_right _ _)).1.trans (Nat.le_mul_of_pos_left _ h.isTable.pos), (he.mono (Nat.le_add_right _ _)).2⟩
    obtain ⟨⟨fs₁, db₁⟩, hr⟩ := h.insert_ends hash e (Ptr.ofList key) hl
    obtain ⟨h₁, hused⟩ := h.insert (e + 1) hr
    obtain ⟨r, hr'⟩ := ih h₁ (he.mono (by omega))
    exact ⟨r, by rw [insertAll, hr]; exact hr'⟩

end OsLabs.HashDb
