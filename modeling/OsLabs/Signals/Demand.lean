import OsLabs.Lib.Word
import Mathlib.Data.List.Induction
import Mathlib.Data.List.Perm.Subperm
import Mathlib.Data.Nat.Bitwise

/-!
# Demand paging in `demand.c`

A store of a `long` needs all its bytes on writable pages; otherwise it faults at the first byte that is not, the handler runs, and the
store is tried again. The handler maps a fresh page of zeros over the page of the fault, whether there was none or a read-only one, and
ends the program for a fault outside the region.

The flat memory that the program sees is the abstract side: bytes that start at zero, and stores. `Paged` relates the two: a writable page
holds the flat bytes, and the flat bytes of any other page are zero. So the handler may put zeros there (`paged_handler`), a store that
is through does to the pages what it does to the flat memory (`storeLong_spec`), and each page faults once, as it is writable from
then on. A store of eight bytes can lie on several pages when pages are smaller than that; then it faults on each of them
(`two_faults`).
-/

namespace OsLabs.Demand

/-- `ADDR_START`. -/
def addrStart : Nat := 0x10000000

/-- `ADDR_END`. -/
def addrEnd : Nat := 0x10010000

/-- `PROT_READ`, and `PROT_READ | PROT_WRITE`. -/
inductive Prot where
  | read | readWrite
  deriving DecidableEq

/-- The pages that are mapped, by address, and what memory holds. -/
structure Vm where
  prot : Nat → Option Prot
  mem : Mem

/-- The address of the page of an address: `fault_addr & ~(pagesize - 1)`. -/
def pageAddr (pagesize addr : Nat) : Nat := (BitVec.ofNat 64 addr &&& ~~~(BitVec.ofNat 64 pagesize - 1#64)).toNat

/-- `mmap_page`. -/
def mmapPage (pagesize : Nat) (s : Vm) (addr : Nat) (prot : Prot) : Vm where
  prot := Function.update s.prot addr (some prot)
  mem := s.mem.zero addr pagesize

/-- The address is on a page that can be written. -/
def Writable (pagesize : Nat) (s : Vm) (addr : Nat) : Prop := s.prot (pageAddr pagesize addr) = some .readWrite

instance (pagesize : Nat) (s : Vm) (addr : Nat) : Decidable (Writable pagesize s addr) := inferInstanceAs (Decidable (_ = _))

/-- `si_code` of a `SIGSEGV`: `SEGV_MAPERR` without a mapping, `SEGV_ACCERR` against its protection. -/
inductive SiCode where
  | maperr | accerr
  deriving DecidableEq

/-- `sigsegv_handler`: the program goes on, or it exits. -/
def sigsegvHandler (pagesize : Nat) (s : Vm) (faultAddr : Nat) (code : SiCode) : Except Nat Vm :=
  let page := pageAddr pagesize faultAddr
  if faultAddr < addrStart ∨ faultAddr ≥ addrEnd then
    .error (128 + 11)
  else
    match code with
    | .maperr => .ok (mmapPage pagesize s page .readWrite)
    | .accerr => .ok (mmapPage pagesize s page .readWrite)

/-- The fault of a store of eight bytes, if there is one: at the first byte that cannot be written. -/
def fault (pagesize : Nat) (s : Vm) (addr : Nat) : Option (Nat × SiCode) :=
  ((List.range 8).find? fun i => ¬ Writable pagesize s (addr + i)).map fun i =>
    (addr + i, if s.prot (pageAddr pagesize (addr + i)) = none then .maperr else .accerr)

/-- What came of a store: the addresses of its faults, memory, and the status if the program has exited. -/
structure Outcome where
  faults : List Nat
  vm : Vm
  exit : Option Nat

/-- A store of a `long`, which is tried again after each fault that the handler returns from. -/
def storeLong (pagesize : Nat) : Nat → Vm → Nat → BitVec 64 → Option Outcome
  | 0, _, _, _ => none
  | fuel + 1, s, addr, v =>
    match fault pagesize s addr with
    | none => some { faults := [], vm := { s with mem := s.mem.write addr 8 v.toNat }, exit := none }
    | some (f, code) =>
      match sigsegvHandler pagesize s f code with
      | .error e => some { faults := [f], vm := s, exit := some e }
      | .ok s' => (storeLong pagesize fuel s' addr v).map fun r => { r with faults := f :: r.faults }

/-- `nelems`. -/
def nelems : Nat := (addrEnd - addrStart) / 8

/-- `&array[index]`. -/
def elem (index : Nat) : Nat := addrStart + 8 * index

/-- The stores of `main`, each an index and a value, with the faults of each. -/
def runStores (pagesize fuel : Nat) (s : Vm) : List (Nat × BitVec 64) → Option (List (List Nat) × Vm × Option Nat)
  | [] => some ([], s, none)
  | st :: rest =>
    match storeLong pagesize fuel s (elem st.1) st.2 with
    | none => none
    | some r =>
      match r.exit with
      | some e => some ([r.faults], r.vm, some e)
      | none => (runStores pagesize fuel r.vm rest).map fun q => (r.faults :: q.1, q.2)

/-- The first loop of `main`: pages of the region are mapped read-only, or not, by chance. -/
def mapSome (pagesize : Nat) (chance : Nat → Bool) (s : Vm) : Vm :=
  (List.range ((addrEnd - addrStart) / pagesize)).foldl
    (fun s i => if chance i then mmapPage pagesize s (addrStart + i * pagesize) .read else s) s

/-! ## The flat memory -/

/-- The stores to flat memory. -/
def flatRun (m : Mem) (stores : List (Nat × BitVec 64)) : Mem :=
  stores.foldl (fun m st => m.write (elem st.1) 8 st.2.toNat) m

/-- The last value stored to an element, or zero. -/
def lastValue (stores : List (Nat × BitVec 64)) (index : Nat) : BitVec 64 :=
  ((stores.filter fun st => st.1 = index).getLast?.map fun st => st.2).getD 0

/-- Flat memory that starts at zero has the last value in each element. -/
theorem read_flatRun (stores : List (Nat × BitVec 64)) (index : Nat) :
    (flatRun (fun _ => 0) stores).read (elem index) 8 = (lastValue stores index).toNat := by
  induction stores using List.reverseRecOn with
  | nil => exact Mem.read_zero (elem index) 8
  | append_singleton stores st ih =>
    have hrun : flatRun (fun _ => 0) (stores ++ [st]) = (flatRun (fun _ => 0) stores).write (elem st.1) 8 st.2.toNat := by
      rw [flatRun, List.foldl_append]
      rfl
    rw [hrun, lastValue, List.filter_append]
    by_cases h : st.1 = index
    · subst h
      rw [Mem.read_write _ st.2.isLt]
      simp
    · rw [Mem.read_write_ne, ih, lastValue]
      · simp [h]
      · unfold elem
        omega

/-! ## Pages -/

section Pages

variable {k : Nat}

/-- The page of an address, for pages of `2 ^ k` bytes. -/
theorem pageAddr_eq (hk : k ≤ 16) {a : Nat} (ha : a < 2 ^ 64) : pageAddr (2 ^ k) a = a / 2 ^ k * 2 ^ k := by
  have hpos : 0 < 2 ^ k := Nat.two_pow_pos k
  have hlt : 2 ^ k < 2 ^ 64 := Nat.pow_lt_pow_right (by decide) (by omega)
  have hmask : BitVec.ofNat 64 (2 ^ k) - 1#64 = BitVec.ofNat 64 (2 ^ k - 1) := by
    refine BitVec.eq_of_toNat_eq ?_
    rw [BitVec.toNat_sub, BitVec.toNat_ofNat, BitVec.toNat_ofNat, BitVec.toNat_ofNat, Nat.mod_eq_of_lt hlt,
      Nat.mod_eq_of_lt (show 2 ^ k - 1 < 2 ^ 64 by omega)]
    omega
  rw [pageAddr, hmask]
  refine Nat.eq_of_testBit_eq fun i => ?_
  rw [BitVec.testBit_toNat, BitVec.getLsbD_and, BitVec.getLsbD_not, BitVec.getLsbD_ofNat, BitVec.getLsbD_ofNat,
    Nat.testBit_two_pow_sub_one, Nat.testBit_mul_two_pow, Nat.testBit_div_two_pow]
  by_cases hi : i < 64
  · by_cases hik : i < k
    · simp [hi, hik, Nat.not_le.mpr hik]
    · have e : i - k + k = i := by omega
      simp [hi, hik, Nat.not_lt.mp hik, e]
  · have h0 : a.testBit i = false := Nat.testBit_lt_two_pow (Nat.lt_of_lt_of_le ha (Nat.pow_le_pow_right (by decide) (by omega)))
    by_cases hik : k ≤ i
    · have e : i - k + k = i := by omega
      simp [hi, hik, e, h0]
    · simp [hi, hik]

/-- Addresses of the region are addresses. -/
theorem lt_of_region {a : Nat} (h : a < addrEnd) : a < 2 ^ 64 := Nat.lt_trans h (by decide)

/-- Two addresses are on one page when their quotients are equal. -/
theorem pageAddr_eq_iff (hk : k ≤ 16) {a b : Nat} (ha : a < 2 ^ 64) (hb : b < 2 ^ 64) :
    pageAddr (2 ^ k) a = pageAddr (2 ^ k) b ↔ a / 2 ^ k = b / 2 ^ k := by
  rw [pageAddr_eq hk ha, pageAddr_eq hk hb]
  constructor
  · intro h
    exact Nat.eq_of_mul_eq_mul_right (Nat.two_pow_pos k) h
  · intro h
    rw [h]

/-- The bytes that are cleared with a page are those on it. -/
theorem zero_page (hk : k ≤ 16) (m : Mem) {a x : Nat} (ha : a < 2 ^ 64) (hx : x < 2 ^ 64) :
    m.zero (pageAddr (2 ^ k) a) (2 ^ k) x = if pageAddr (2 ^ k) x = pageAddr (2 ^ k) a then 0 else m x := by
  have hpos : 0 < 2 ^ k := Nat.two_pow_pos k
  have hiff : (a / 2 ^ k * 2 ^ k ≤ x ∧ x < a / 2 ^ k * 2 ^ k + 2 ^ k) ↔ x / 2 ^ k = a / 2 ^ k := by
    rw [← Nat.le_div_iff_mul_le hpos, ← Nat.succ_mul, ← Nat.div_lt_iff_lt_mul hpos]
    omega
  by_cases h : x / 2 ^ k = a / 2 ^ k
  · obtain ⟨h1, h2⟩ := hiff.mpr h
    rw [if_pos ((pageAddr_eq_iff hk hx ha).mpr h), pageAddr_eq hk ha, Mem.zero_inside m h1 h2]
  · rw [if_neg fun h' => h ((pageAddr_eq_iff hk hx ha).mp h'), pageAddr_eq hk ha]
    exact if_neg fun h' => h (hiff.mp h')

/-- On pages of at least eight bytes an element lies on one page. -/
theorem elem_div (hk : 3 ≤ k) (index : Nat) {i : Nat} (hi : i < 8) : (elem index + i) / 2 ^ k = elem index / 2 ^ k := by
  obtain ⟨d, rfl⟩ := Nat.exists_eq_add_of_le hk
  have h1 : elem index = 8 * (addrStart / 8 + index) := by
    unfold elem addrStart
    omega
  rw [Nat.pow_add, h1, ← Nat.div_div_eq_div_mul, ← Nat.div_div_eq_div_mul]
  congr 1
  omega

/-- On smaller pages two elements share no page. -/
theorem elem_inj (hk : k ≤ 3) {index index' i i' : Nat} (hi : i < 8) (hi' : i' < 8)
    (h : (elem index + i) / 2 ^ k = (elem index' + i') / 2 ^ k) : index = index' := by
  have h8 : 2 ^ k * 2 ^ (3 - k) = 8 := by
    rw [← Nat.pow_add, Nat.add_sub_cancel' hk]
  have h1 := congrArg (· / 2 ^ (3 - k)) h
  simp only [Nat.div_div_eq_div_mul, h8] at h1
  unfold elem addrStart at h1
  omega

end Pages

/-! ## Pages and flat memory -/

section Refinement

variable {k : Nat}

/-- A writable page of the region holds the bytes of flat memory; on any other page these are zero. -/
def Paged (pagesize : Nat) (s : Vm) (flat : Mem) : Prop :=
  ∀ x, addrStart ≤ x → x < addrEnd →
    (Writable pagesize s x → s.mem x = flat x) ∧ (¬ Writable pagesize s x → flat x = 0)

/-- The handler makes one page writable. -/
theorem writable_mmapPage (pagesize : Nat) (s : Vm) (f x : Nat) :
    Writable pagesize (mmapPage pagesize s (pageAddr pagesize f) .readWrite) x ↔
      pageAddr pagesize x = pageAddr pagesize f ∨ Writable pagesize s x := by
  unfold Writable mmapPage
  by_cases h : pageAddr pagesize x = pageAddr pagesize f
  · simp [h]
  · simp [h]

/-- A page that is not writable holds nothing that its zeros could destroy. -/
theorem paged_handler (hk : k ≤ 16) {s : Vm} {flat : Mem} {f : Nat} (hP : Paged (2 ^ k) s flat) (hf : f < addrEnd)
    (hw : ¬ Writable (2 ^ k) s f) : Paged (2 ^ k) (mmapPage (2 ^ k) s (pageAddr (2 ^ k) f) .readWrite) flat := by
  intro x h1 h2
  obtain ⟨hin, hout⟩ := hP x h1 h2
  rw [writable_mmapPage]
  have hz := zero_page hk s.mem (lt_of_region hf) (lt_of_region h2)
  refine ⟨fun h => ?_, fun h => hout fun h' => h (Or.inr h')⟩
  have hmem : (mmapPage (2 ^ k) s (pageAddr (2 ^ k) f) .readWrite).mem x =
      if pageAddr (2 ^ k) x = pageAddr (2 ^ k) f then 0 else s.mem x := hz
  rw [hmem]
  by_cases hp : pageAddr (2 ^ k) x = pageAddr (2 ^ k) f
  · rw [if_pos hp]
    refine (hout ?_).symm
    unfold Writable at hw ⊢
    rwa [hp]
  · rw [if_neg hp]
    exact hin (h.resolve_left hp)

/-- A store on writable pages is a store to flat memory. -/
theorem paged_write {pagesize : Nat} {s : Vm} {flat : Mem} {a : Nat} (v : Nat) (hP : Paged pagesize s flat)
    (hw : ∀ i, i < 8 → Writable pagesize s (a + i)) :
    Paged pagesize { s with mem := s.mem.write a 8 v } (flat.write a 8 v) := by
  have agree : ∀ (n b : Nat) (m m' : Mem) (w x : Nat), m x = m' x → m.write b n w x = m'.write b n w x := by
    intro n
    induction n with
    | zero => intro b m m' w x h; exact h
    | succ n ih =>
      intro b m m' w x h
      refine ih _ _ _ _ _ ?_
      by_cases hx : x = b
      · rw [hx, Mem.store_self, Mem.store_self]
      · rw [Mem.store_ne _ _ hx, Mem.store_ne _ _ hx, h]
  intro x h1 h2
  obtain ⟨hin, hout⟩ := hP x h1 h2
  refine ⟨fun h => agree 8 a _ _ v x (hin h), fun h => ?_⟩
  have hx : x < a ∨ a + 8 ≤ x := by
    by_contra hc
    have := hw (x - a) (by omega)
    rw [show a + (x - a) = x by omega] at this
    exact h this
  rw [Mem.write_outside _ _ hx]
  exact hout h

/-- Before the stores nothing is writable. -/
theorem paged_mapSome (pagesize : Nat) (chance : Nat → Bool) {s : Vm}
    (h0 : ∀ x, addrStart ≤ x → x < addrEnd → s.prot (pageAddr pagesize x) = none) :
    Paged pagesize (mapSome pagesize chance s) fun _ => 0 := by
  have keep : ∀ (l : List Nat) (s : Vm), (∀ x, addrStart ≤ x → x < addrEnd → ¬ Writable pagesize s x) →
      ∀ x, addrStart ≤ x → x < addrEnd → ¬ Writable pagesize (l.foldl
        (fun s i => if chance i then mmapPage pagesize s (addrStart + i * pagesize) .read else s) s) x := by
    intro l
    induction l with
    | nil => intro s h; exact h
    | cons i l ih =>
      intro s h
      refine ih _ fun x h1 h2 => ?_
      dsimp only
      split
      · have hx : s.prot (pageAddr pagesize x) ≠ some .readWrite := h x h1 h2
        unfold Writable mmapPage
        by_cases hp : pageAddr pagesize x = addrStart + i * pagesize
        · simp [hp]
        · simpa [hp] using hx
      · exact h x h1 h2
  intro x h1 h2
  refine ⟨fun h => absurd h (keep _ s ?_ x h1 h2), fun _ => rfl⟩
  intro y h3 h4
  rw [Writable, h0 y h3 h4]
  simp

/-! ## One store -/

/-- Where the first fault is. -/
theorem fault_some {pagesize : Nat} {s : Vm} {a f : Nat} {code : SiCode} (h : fault pagesize s a = some (f, code)) :
    ∃ i, i < 8 ∧ f = a + i ∧ ¬ Writable pagesize s f ∧ ∀ j, j < i → Writable pagesize s (a + j) := by
  obtain ⟨i, hi, he⟩ := Option.map_eq_some_iff.mp h
  obtain ⟨hp, hlt, hall⟩ := List.find?_range_eq_some.mp hi
  obtain ⟨rfl, -⟩ := Prod.mk.inj he
  refine ⟨i, by simpa using hlt, rfl, by simpa using hp, fun j hj => ?_⟩
  simpa using hall j hj

/-- Without a fault all bytes can be written. -/
theorem fault_none {pagesize : Nat} {s : Vm} {a : Nat} (h : fault pagesize s a = none) (i : Nat) (hi : i < 8) :
    Writable pagesize s (a + i) := by
  have hn := Option.map_eq_none_iff.mp h
  have := List.find?_eq_none.mp hn i (List.mem_range.mpr hi)
  simpa using this

/-- What a store in the region does: it gets through, and each fault is at a page of the element that could not be written before and
can be after it. -/
structure Stored (pagesize : Nat) (s : Vm) (flat : Mem) (a : Nat) (v : BitVec 64) (r : Outcome) : Prop where
  exit : r.exit = none
  paged : Paged pagesize r.vm (flat.write a 8 v.toNat)
  nodup : (r.faults.map (pageAddr pagesize)).Nodup
  fresh : ∀ f ∈ r.faults, (∃ i, i < 8 ∧ f = a + i) ∧ ¬ Writable pagesize s f ∧ Writable pagesize r.vm f
  mono : ∀ x, Writable pagesize s x → Writable pagesize r.vm x
  through : ∀ i, i < 8 → Writable pagesize r.vm (a + i)

/-- Addresses on one page are writable together. -/
theorem Writable.congr {pagesize : Nat} {s : Vm} {a b : Nat} (h : Writable pagesize s a)
    (hp : pageAddr pagesize a = pageAddr pagesize b) : Writable pagesize s b := by
  unfold Writable at h ⊢
  rwa [← hp]

/-- A store in the region. The induction is on the tries: each fault is at a later byte than the one before. -/
theorem storeLong_spec (hk : k ≤ 16) {index : Nat} (hidx : index < nelems) (v : BitVec 64) (flat : Mem) (fuel i : Nat)
    (hfuel : 9 ≤ fuel + i) (hi : i ≤ 8) {s : Vm} (hP : Paged (2 ^ k) s flat)
    (hw : ∀ j, j < i → Writable (2 ^ k) s (elem index + j)) :
    ∃ r, storeLong (2 ^ k) fuel s (elem index) v = some r ∧ Stored (2 ^ k) s flat (elem index) v r := by
  have helem : addrStart ≤ elem index ∧ elem index + 8 ≤ addrEnd := by
    unfold nelems addrEnd addrStart at hidx
    unfold elem addrEnd addrStart
    omega
  induction fuel generalizing s i with
  | zero => omega
  | succ fuel ih =>
    rw [storeLong]
    cases hflt : fault (2 ^ k) s (elem index) with
    | none =>
      have hall := fault_none hflt
      exact ⟨_, rfl, rfl, paged_write _ hP hall, List.nodup_nil, fun f hf => absurd hf List.not_mem_nil,
        fun _ h => h, hall⟩
    | some fc =>
      obtain ⟨f, code⟩ := fc
      obtain ⟨i', hi', rfl, hnw, hbefore⟩ := fault_some hflt
      have hlt : i ≤ i' := by
        by_contra hc
        exact hnw (hw i' (by omega))
      have hin : ¬ (elem index + i' < addrStart ∨ elem index + i' ≥ addrEnd) := by omega
      have hh : sigsegvHandler (2 ^ k) s (elem index + i') code =
          .ok (mmapPage (2 ^ k) s (pageAddr (2 ^ k) (elem index + i')) .readWrite) := by
        unfold sigsegvHandler
        rw [if_neg hin]
        cases code <;> rfl
      have hmono : ∀ x, Writable (2 ^ k) s x →
          Writable (2 ^ k) (mmapPage (2 ^ k) s (pageAddr (2 ^ k) (elem index + i')) .readWrite) x :=
        fun x hx => (writable_mmapPage _ s _ x).mpr (Or.inr hx)
      have hself := (writable_mmapPage (2 ^ k) s (elem index + i') (elem index + i')).mpr (Or.inl rfl)
      obtain ⟨r, hr, hst⟩ := ih (i' + 1) (by omega) (by omega) (paged_handler hk hP (by omega) hnw) fun j hj => by
        by_cases hji : j = i'
        · rw [hji]
          exact hself
        · exact hmono _ (hbefore j (by omega))
      simp only [hh, hr, Option.map_some]
      refine ⟨_, rfl, hst.exit, hst.paged, ?_, ?_, fun x hx => hst.mono x (hmono x hx), hst.through⟩
      · -- Later faults are on other pages: this one is writable by then.
        refine List.nodup_cons.mpr ⟨fun hmem => ?_, hst.nodup⟩
        obtain ⟨g, hg, hpg⟩ := List.mem_map.mp hmem
        exact (hst.fresh g hg).2.1 (hself.congr hpg.symm)
      · intro g hg
        rcases List.mem_cons.mp hg with rfl | hg
        · exact ⟨⟨i', hi', rfl⟩, hnw, hst.mono _ hself⟩
        · obtain ⟨h1, h2, h3⟩ := hst.fresh g hg
          exact ⟨h1, fun h => h2 (hmono g h), h3⟩

/-- The number of pages of an element bounds the faults of a store. -/
theorem faults_le (hk : k ≤ 16) {index : Nat} (hidx : index < nelems) {faults : List Nat}
    (hnd : (faults.map (pageAddr (2 ^ k))).Nodup) (hf : ∀ f ∈ faults, ∃ i, i < 8 ∧ f = elem index + i) :
    faults.length ≤ max 1 (8 / 2 ^ k) := by
  have hend : ∀ i, i < 8 → elem index + i < 2 ^ 64 := by
    intro i hi
    refine lt_of_region ?_
    unfold nelems addrEnd addrStart at hidx
    unfold elem addrEnd addrStart
    omega
  -- The pages are those of every `2 ^ k`-th byte.
  have hsub : faults.map (pageAddr (2 ^ k)) ⊆
      (List.range (max 1 (8 / 2 ^ k))).map fun q => pageAddr (2 ^ k) (elem index + q * 2 ^ k) := by
    intro p hp
    obtain ⟨f, hfm, rfl⟩ := List.mem_map.mp hp
    obtain ⟨i, hi, rfl⟩ := hf f hfm
    refine List.mem_map.mpr ?_
    by_cases h3 : 3 ≤ k
    · refine ⟨0, List.mem_range.mpr (by omega), ?_⟩
      rw [pageAddr_eq_iff hk (by rw [Nat.zero_mul]; exact hend 0 (by omega)) (hend i hi), elem_div h3 index hi, Nat.zero_mul,
        Nat.add_zero]
    · have h8 : 2 ^ k * 2 ^ (3 - k) = 8 := by
        rw [← Nat.pow_add, Nat.add_sub_cancel' (by omega)]
      have hpos : 0 < 2 ^ k := Nat.two_pow_pos k
      have hq : i / 2 ^ k < 8 / 2 ^ k := by
        rw [← h8, Nat.mul_div_cancel_left _ hpos]
        exact Nat.div_lt_of_lt_mul (by omega)
      have hle : i / 2 ^ k * 2 ^ k ≤ i := Nat.div_mul_le_self i _
      refine ⟨i / 2 ^ k, List.mem_range.mpr (by omega), ?_⟩
      have helem : elem index = (addrStart / 8 + index) * 2 ^ (3 - k) * 2 ^ k := by
        rw [Nat.mul_assoc, Nat.mul_comm (2 ^ (3 - k)), h8]
        unfold elem addrStart
        omega
      rw [pageAddr_eq_iff hk (hend _ (by omega)) (hend i hi), helem, ← Nat.add_mul, Nat.mul_div_cancel _ hpos,
        Nat.add_comm _ i, Nat.add_mul_div_right _ _ hpos, Nat.add_comm]
  have := (hnd.subperm hsub).length_le
  rwa [List.length_map, List.length_map, List.length_range] at this

/-! ## All stores -/

/-- What the stores of a run do. -/
structure Ran (pagesize : Nat) (s : Vm) (flat : Mem) (stores : List (Nat × BitVec 64)) (faults : List (List Nat)) (s' : Vm) :
    Prop where
  paged : Paged pagesize s' (flatRun flat stores)
  bound : ∀ fs ∈ faults, fs.length ≤ max 1 (8 / pagesize)
  nodup : (faults.flatten.map (pageAddr pagesize)).Nodup
  fresh : ∀ f ∈ faults.flatten, ¬ Writable pagesize s f
  mono : ∀ x, Writable pagesize s x → Writable pagesize s' x
  through : ∀ st ∈ stores, ∀ i, i < 8 → Writable pagesize s' (elem st.1 + i)

/-- The stores get through one after the other, by induction on the stores. -/
theorem runStores_spec (hk : k ≤ 16) (stores : List (Nat × BitVec 64)) (hst : ∀ st ∈ stores, st.1 < nelems) {s : Vm} {flat : Mem}
    (hP : Paged (2 ^ k) s flat) :
    ∃ faults s', runStores (2 ^ k) 9 s stores = some (faults, s', none) ∧ Ran (2 ^ k) s flat stores faults s' := by
  induction stores generalizing s flat with
  | nil =>
    exact ⟨[], s, rfl, hP, fun _ h => absurd h List.not_mem_nil, List.nodup_nil, fun _ h => absurd h List.not_mem_nil, fun _ h => h,
      fun _ h => absurd h List.not_mem_nil⟩
  | cons st rest ih =>
    have hidx := hst st (List.mem_cons_self ..)
    obtain ⟨r, hr, hS⟩ := storeLong_spec hk hidx st.2 flat 9 0 (by omega) (by omega) hP fun j hj => by omega
    obtain ⟨faults, s', hrun, hR⟩ := ih (fun st' h => hst st' (List.mem_cons_of_mem _ h)) hS.paged
    refine ⟨r.faults :: faults, s', ?_, hR.paged, ?_, ?_, ?_, fun x hx => hR.mono x (hS.mono x hx), ?_⟩
    · rw [runStores, hr]
      simp only [hS.exit, hrun, Option.map_some]
    · intro fs hfs
      rcases List.mem_cons.mp hfs with rfl | hfs
      · exact faults_le hk hidx hS.nodup fun f hf => (hS.fresh f hf).1
      · exact hR.bound fs hfs
    · rw [List.flatten_cons, List.map_append]
      refine List.nodup_append.mpr ⟨hS.nodup, hR.nodup, ?_⟩
      rintro p hp p' hp' rfl
      obtain ⟨f, hf, rfl⟩ := List.mem_map.mp hp
      obtain ⟨g, hg, hpg⟩ := List.mem_map.mp hp'
      exact hR.fresh g hg ((hS.fresh f hf).2.2.congr hpg.symm)
    · intro f hf
      rw [List.flatten_cons] at hf
      rcases List.mem_append.mp hf with hf | hf
      · exact (hS.fresh f hf).2.1
      · exact fun h => hR.fresh f hf (hS.mono f h)
    · intro st' hst' i hi
      rcases List.mem_cons.mp hst' with rfl | hst'
      · exact hR.mono _ (hS.through i hi)
      · exact hR.through st' hst' i hi

/-- Some byte of the element is on a page with a byte of an element that was stored to. -/
def Touched (pagesize : Nat) (stores : List (Nat × BitVec 64)) (index : Nat) : Prop :=
  ∃ st ∈ stores, ∃ i i', i < 8 ∧ i' < 8 ∧ pageAddr pagesize (elem index + i) = pageAddr pagesize (elem st.1 + i')

/-- An element of a touched page is on writable pages. -/
theorem Touched.writable (hk : k ≤ 16) {stores : List (Nat × BitVec 64)} {index : Nat} (hidx : index < nelems)
    (hst : ∀ st ∈ stores, st.1 < nelems) (ht : Touched (2 ^ k) stores index) {s : Vm}
    (hw : ∀ st ∈ stores, ∀ i, i < 8 → Writable (2 ^ k) s (elem st.1 + i)) (j : Nat) (hj : j < 8) :
    Writable (2 ^ k) s (elem index + j) := by
  obtain ⟨st, hmem, i, i', hi, hi', hp⟩ := ht
  have hlt : ∀ index, index < nelems → ∀ i, i < 8 → elem index + i < 2 ^ 64 := by
    intro index hidx i hi
    refine lt_of_region ?_
    unfold nelems addrEnd addrStart at hidx
    unfold elem addrEnd addrStart
    omega
  have hq := (pageAddr_eq_iff hk (hlt index hidx i hi) (hlt st.1 (hst st hmem) i' hi')).mp hp
  by_cases h3 : 3 ≤ k
  · refine (hw st hmem i' hi').congr ?_
    rw [pageAddr_eq_iff hk (hlt st.1 (hst st hmem) i' hi') (hlt index hidx j hj), ← hq, elem_div h3 index hi, elem_div h3 index hj]
  · rw [elem_inj (by omega) hi hi' hq]
    exact hw st hmem j hj

/-- A faulting store at an address outside the region ends the program and maps nothing. -/
theorem store_outside (pagesize fuel : Nat) (s : Vm) (a : Nat) (v : BitVec 64) {f : Nat} {code : SiCode}
    (h : fault pagesize s a = some (f, code)) (hf : f < addrStart ∨ addrEnd ≤ f) :
    storeLong pagesize (fuel + 1) s a v = some { faults := [f], vm := s, exit := some 139 } := by
  have hh : sigsegvHandler pagesize s f code = .error 139 := if_pos hf
  rw [storeLong, h]
  simp only [hh]

/-- A store of an aligned `long` outside the region has its fault outside. -/
theorem fault_outside {pagesize : Nat} {s : Vm} {a f : Nat} {code : SiCode} (h : fault pagesize s a = some (f, code)) (ha : 8 ∣ a)
    (hout : a < addrStart ∨ addrEnd ≤ a) : f < addrStart ∨ addrEnd ≤ f := by
  obtain ⟨i, hi, rfl, -⟩ := fault_some h
  unfold addrStart addrEnd at *
  omega

/-- For pages of `2 ^ k` bytes, whichever pages are mapped read-only at first: every store in the region gets through, with one fault at
most, or one for each page of the element when pages are smaller; no page faults twice; and each element of a touched page holds the
last value stored to it, or zero. A store that faults outside the region ends the program and changes nothing. -/
theorem demand_paging (k : Nat) (hk : k ≤ 16) (chance : Nat → Bool) (s₀ : Vm)
    (h₀ : ∀ x, addrStart ≤ x → x < addrEnd → s₀.prot (pageAddr (2 ^ k) x) = none) (stores : List (Nat × BitVec 64))
    (hst : ∀ st ∈ stores, st.1 < nelems) :
    (∃ faults s, runStores (2 ^ k) 9 (mapSome (2 ^ k) chance s₀) stores = some (faults, s, none) ∧
      (∀ fs ∈ faults, fs.length ≤ max 1 (8 / 2 ^ k)) ∧ (faults.flatten.map (pageAddr (2 ^ k))).Nodup ∧
      ∀ index, index < nelems → Touched (2 ^ k) stores index →
        s.mem.read (elem index) 8 = (lastValue stores index).toNat) ∧
    ∀ (fuel : Nat) (s : Vm) (a : Nat) (v : BitVec 64) (f : Nat) (code : SiCode), fault (2 ^ k) s a = some (f, code) →
      ((f < addrStart ∨ addrEnd ≤ f) ∨ (8 ∣ a ∧ (a < addrStart ∨ addrEnd ≤ a))) →
      storeLong (2 ^ k) (fuel + 1) s a v = some { faults := [f], vm := s, exit := some 139 } := by
  constructor
  · obtain ⟨faults, s, hrun, hR⟩ := runStores_spec hk stores hst (paged_mapSome (2 ^ k) chance h₀)
    refine ⟨faults, s, hrun, hR.bound, hR.nodup, fun index hidx ht => ?_⟩
    have hw := ht.writable hk hidx hst hR.through
    rw [← read_flatRun]
    refine Mem.read_congr fun x h1 h2 => ?_
    have hx := hw (x - elem index) (by omega)
    rw [show elem index + (x - elem index) = x by omega] at hx
    refine (hR.paged x ?_ ?_).1 hx
    · unfold elem at h1
      omega
    · unfold nelems addrEnd addrStart at hidx
      unfold elem addrStart at h2
      unfold addrEnd
      omega
  · intro fuel s a v f code h hout
    rcases hout with hout | ⟨ha, hout⟩
    · exact store_outside _ fuel s a v h hout
    · exact store_outside _ fuel s a v h (fault_outside h ha hout)

/-- Nothing is mapped. -/
def unmapped : Vm := { prot := fun _ => none, mem := fun _ => 0 }

/-- The witness: a store to unmapped memory with pages of `4096` bytes, in the region and at its end. -/
theorem demand_paging_page : storeLong 4096 1 unmapped addrEnd 1 = some { faults := [addrEnd], vm := unmapped, exit := some 139 } := by
  have h := demand_paging 12 (by decide) (fun _ => false) unmapped (fun _ _ _ => rfl) [(0, 7)] (by decide)
  exact h.2 0 unmapped addrEnd 1 addrEnd .maperr (by decide) (Or.inl (Or.inr (Nat.le_refl _)))

/-- Nothing is mapped by chance. -/
theorem mapSome_none (pagesize : Nat) (s : Vm) : mapSome pagesize (fun _ => false) s = s := by
  unfold mapSome
  induction List.range ((addrEnd - addrStart) / pagesize) with
  | nil => rfl
  | cons i is ih => exact ih

/-- With pages of four bytes a store faults twice. -/
theorem two_faults :
    ¬ ∀ k : Nat, k ≤ 16 → ∀ (chance : Nat → Bool) (stores : List (Nat × BitVec 64)), (∀ st ∈ stores, st.1 < nelems) →
      ∃ faults s, runStores (2 ^ k) 9 (mapSome (2 ^ k) chance unmapped) stores = some (faults, s, none) ∧
        ∀ fs ∈ faults, fs.length ≤ 1 := by
  intro h
  have h2 : (runStores 4 9 unmapped [(0, 0)]).map (fun q => q.1) = some [[addrStart, addrStart + 4]] := by decide +kernel
  obtain ⟨faults, s, hrun, hle⟩ := h 2 (by decide) (fun _ => false) [(0, 0)] (by decide)
  rw [mapSome_none] at hrun
  have hrun' : runStores 4 9 unmapped [(0, 0)] = some (faults, s, none) := hrun
  rw [hrun'] at h2
  obtain rfl : faults = [[addrStart, addrStart + 4]] := by simpa using h2
  have := hle _ (List.mem_cons_self ..)
  simp at this

end Refinement

end OsLabs.Demand
