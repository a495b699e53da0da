import OsLabs.Lib.Word

/-!
# Records in memory

A list of bytes stored at an address, and records that tell their own length. `Mem.put` stores a list; `Mem.Holds` says that memory has
it. In a format (`Framing`) each record has a length field; a loop that goes from record to record by this field sees the records that
were stored, all and in order, whatever memory has behind them (`walk_records`).
-/

namespace OsLabs

namespace Mem

/-- The memory with the list stored at `a`. -/
def put (m : Mem) (a : Nat) (l : List Byte) : Mem := fun x => if a ≤ x then l.getD (x - a) (m x) else m x

/-- The list is in memory at `a`. -/
def Holds (m : Mem) (a : Nat) (l : List Byte) : Prop := ∀ j (h : j < l.length), m (a + j) = l[j]

/-- What is stored is there. -/
theorem holds_put (m : Mem) (a : Nat) (l : List Byte) : (m.put a l).Holds a l := by
  intro j hj
  rw [put, if_pos (Nat.le_add_right a j), Nat.add_sub_cancel_left, List.getD_eq_getElem?_getD, List.getElem?_eq_getElem hj,
    Option.getD_some]

/-- Elsewhere nothing is stored. -/
theorem put_outside (m : Mem) {a x : Nat} {l : List Byte} (h : x < a ∨ a + l.length ≤ x) : m.put a l x = m x := by
  unfold put
  split
  · rw [List.getD_eq_getElem?_getD, List.getElem?_eq_none (by omega), Option.getD_none]
  · rfl

variable {m : Mem} {a : Nat} {l l' : List Byte}

/-- Two lists one behind the other. -/
theorem holds_append : m.Holds a (l ++ l') ↔ m.Holds a l ∧ m.Holds (a + l.length) l' := by
  constructor
  · intro h
    refine ⟨fun j hj => ?_, fun j hj => ?_⟩
    · have hx := h j (by rw [List.length_append]; omega)
      rwa [List.getElem_append_left hj] at hx
    · have hx := h (l.length + j) (by rw [List.length_append]; omega)
      rw [List.getElem_append_right (by omega)] at hx
      simpa [Nat.add_assoc] using hx
  · rintro ⟨h1, h2⟩ j hj
    rw [List.length_append] at hj
    rw [List.getElem_append]
    split
    · next hlt => exact h1 j hlt
    · next hle =>
      have hx := h2 (j - l.length) (by omega)
      rwa [show a + l.length + (j - l.length) = a + j by omega] at hx

/-- The bytes of a number, the lowest first. -/
def leBytes : Nat → Nat → List Byte
  | 0, _ => []
  | n + 1, v => BitVec.ofNat 8 v :: leBytes n (v / 256)

@[simp] theorem length_leBytes (n v : Nat) : (leBytes n v).length = n := by
  induction n generalizing v with
  | zero => rfl
  | succ n ih => rw [leBytes, List.length_cons, ih]

/-- The number is read back when it fits. -/
theorem Holds.read {n v : Nat} (h : m.Holds a (leBytes n v)) (hv : v < 256 ^ n) : m.read a n = v := by
  induction n generalizing a v with
  | zero =>
    rw [Nat.pow_zero] at hv
    rw [Mem.read]
    omega
  | succ n ih =>
    rw [Nat.pow_succ] at hv
    have hfirst : m a = BitVec.ofNat 8 v := h 0 (by simp)
    have hrest : m.Holds (a + 1) (leBytes n (v / 256)) := by
      intro j hj
      have hx := h (j + 1) (by rw [leBytes, List.length_cons]; omega)
      rwa [← Nat.add_assoc, Nat.add_right_comm] at hx
    rw [Mem.read, hfirst, ih hrest (Nat.div_lt_of_lt_mul (by rwa [Nat.mul_comm]))]
    simp only [BitVec.toNat_ofNat]
    omega

end Mem

/-- Records that tell their own length: `len` reads it from memory. -/
structure Framing (ρ : Type) where
  bytes : ρ → List Byte
  len : Mem → Nat → Nat
  bytes_ne_nil : ∀ r, bytes r ≠ []
  len_eq : ∀ {m a r}, m.Holds a (bytes r) → len m a = (bytes r).length

section Walk

variable {ρ σ : Type}

/-- `for (pos = 0; pos < n; pos += len(pos)) body`, from `pos` on, for a number of turns at most. -/
def walk (len : Nat → Nat) (body : Nat → σ → σ) (n : Nat) : Nat → Nat → σ → Option σ
  | 0, pos, s => if pos < n then none else some s
  | turns + 1, pos, s => if pos < n then walk len body n turns (pos + len pos) (body pos s) else some s

/-- The loop sees the records that were stored, by induction on the records. -/
theorem walk_records (F : Framing ρ) {m : Mem} {body : Nat → σ → σ} {f : σ → ρ → σ} {rs : List ρ}
    (hbody : ∀ r ∈ rs, ∀ a s, m.Holds a (F.bytes r) → body a s = f s r) {turns pos : Nat} (s : σ)
    (hm : m.Holds pos (rs.flatMap F.bytes)) (hturns : rs.length ≤ turns) :
    walk (F.len m) body (pos + (rs.flatMap F.bytes).length) turns pos s = some (rs.foldl f s) := by
  induction rs generalizing turns pos s with
  | nil => cases turns <;> simp [walk]
  | cons r rs ih =>
    rw [List.flatMap_cons, Mem.holds_append] at hm
    rw [List.length_cons] at hturns
    rw [List.forall_mem_cons] at hbody
    have hpos := List.length_pos_iff.mpr (F.bytes_ne_nil r)
    obtain ⟨turns, rfl⟩ : ∃ t, turns = t + 1 := ⟨turns - 1, by omega⟩
    have hin : pos < pos + ((r :: rs).flatMap F.bytes).length := by
      rw [List.flatMap_cons, List.length_append]
      omega
    rw [walk, if_pos hin, F.len_eq hm.1, hbody.1 pos s hm.1, List.flatMap_cons, List.length_append, ← Nat.add_assoc, List.foldl_cons]
    exact ih hbody.2 _ hm.2 (by omega)

/-- There are no more records than bytes. -/
theorem Framing.length_le (F : Framing ρ) (rs : List ρ) : rs.length ≤ (rs.flatMap F.bytes).length := by
  induction rs with
  | nil => exact Nat.le_refl 0
  | cons r rs ih =>
    have hpos := List.length_pos_iff.mpr (F.bytes_ne_nil r)
    rw [List.flatMap_cons, List.length_cons, List.length_append]
    omega

end Walk

end OsLabs
