import Mathlib.Logic.Function.Basic

/-!
# Tables with a probe sequence

A table holds keys in slots. Every key has a sequence of slots, `probe k 0`, `probe k 1`, …, of which the first `len` are looked
at. A key is inserted in the first empty slot of its sequence, unless it is found before. A table built this way (`Probed`) has
every key behind occupied slots of its sequence only, so that a key is found exactly when it is in the table, and it is there
once.
-/

namespace OsLabs

/-- A table: the key in each slot, if any. -/
abbrev Table (κ : Type) : Type := Nat → Option κ

namespace Table

variable {κ : Type} [DecidableEq κ] {probe : κ → Nat → Nat} {len : Nat}

/-- The key is in the table. -/
def Has (t : Table κ) (k : κ) : Prop := ∃ i, t i = some k

/-- Look for `k` in `n` slots of its sequence, from the `c`-th on. -/
def lookup (probe : κ → Nat → Nat) (t : Table κ) (k : κ) : Nat → Nat → Bool
  | 0, _ => false
  | n + 1, c => if t (probe k c) = some k then true else lookup probe t k n (c + 1)

/-- Insert `k` into the first empty one of `n` slots of its sequence, from the `c`-th on, unless `k` is found before. -/
def insert (probe : κ → Nat → Nat) (t : Table κ) (k : κ) : Nat → Nat → Option (Table κ)
  | 0, _ => none
  | n + 1, c =>
    match t (probe k c) with
    | none => some (Function.update t (probe k c) (some k))
    | some k' => if k = k' then some t else insert probe t k n (c + 1)

/-- Every key stands behind occupied slots of its sequence only, and stands there once. -/
structure Probed (probe : κ → Nat → Nat) (len : Nat) (t : Table κ) : Prop where
  behind : ∀ i k, t i = some k → ∃ c, c < len ∧ probe k c = i ∧ ∀ c', c' < c → t (probe k c') ≠ none
  once : ∀ i j k, t i = some k → t j = some k → i = j

omit [DecidableEq κ] in
/-- The empty table. -/
theorem probed_empty : Probed probe len (fun _ => none : Table κ) := ⟨nofun, nofun⟩

/-- What is looked up is found exactly when one of the slots has it. -/
theorem lookup_iff {t : Table κ} {k : κ} {n c : Nat} :
    lookup probe t k n c = true ↔ ∃ d, d < n ∧ t (probe k (c + d)) = some k := by
  induction n generalizing c with
  | zero => simp [lookup]
  | succ n ih =>
    rw [lookup]
    by_cases h : t (probe k c) = some k
    · rw [if_pos h]
      exact iff_of_true rfl ⟨0, by omega, h⟩
    · rw [if_neg h, ih]
      constructor
      · rintro ⟨d, hd, e⟩
        exact ⟨d + 1, by omega, by rwa [show c + (d + 1) = c + 1 + d by omega]⟩
      · rintro ⟨d, hd, e⟩
        cases d with
        | zero => exact absurd e h
        | succ d => exact ⟨d, by omega, by rwa [show c + 1 + d = c + (d + 1) by omega]⟩

/-- In a probed table a key is found exactly when the table has it. -/
theorem Probed.lookup {t : Table κ} (h : Probed probe len t) (k : κ) : lookup probe t k len 0 = true ↔ t.Has k := by
  rw [lookup_iff]
  constructor
  · rintro ⟨d, -, e⟩
    exact ⟨_, e⟩
  · rintro ⟨i, e⟩
    obtain ⟨c, hc, rfl, -⟩ := h.behind i k e
    exact ⟨c, hc, by rwa [Nat.zero_add]⟩

omit [DecidableEq κ] in
/-- A key that was not in the table, stored in an empty slot behind occupied ones. -/
theorem Probed.store {t : Table κ} (h : Probed probe len t) {k : κ} {c : Nat} (hc : c < len) (hempty : t (probe k c) = none)
    (hbefore : ∀ c', c' < c → t (probe k c') ≠ none) (hnew : ¬ t.Has k) :
    Probed probe len (Function.update t (probe k c) (some k)) := by
  have hocc : ∀ i, t i ≠ none → Function.update t (probe k c) (some k) i ≠ none := by
    intro i hi
    by_cases e : i = probe k c
    · rw [e, Function.update_self]
      nofun
    · rwa [Function.update_of_ne e]
  have hold : ∀ i k', Function.update t (probe k c) (some k) i = some k' → (i = probe k c ∧ k' = k) ∨ t i = some k' := by
    intro i k' e
    by_cases hi : i = probe k c
    · rw [hi, Function.update_self] at e
      exact Or.inl ⟨hi, (Option.some.inj e).symm⟩
    · rw [Function.update_of_ne hi] at e
      exact Or.inr e
  refine ⟨fun i k' e => ?_, fun i j k' ei ej => ?_⟩
  · rcases hold i k' e with ⟨rfl, rfl⟩ | e
    · exact ⟨c, hc, rfl, fun c' hc' => hocc _ (hbefore c' hc')⟩
    · obtain ⟨d, hd, hi, hd'⟩ := h.behind i k' e
      exact ⟨d, hd, hi, fun c' hc' => hocc _ (hd' c' hc')⟩
  · rcases hold i k' ei with ⟨hi, ek⟩ | ei <;> rcases hold j k' ej with ⟨hj, ek'⟩ | ej
    · rw [hi, hj]
    · exact absurd ⟨j, ek ▸ ej⟩ hnew
    · exact absurd ⟨i, ek' ▸ ei⟩ hnew
    · exact h.once i j k' ei ej

omit [DecidableEq κ] in
/-- What a table has once a key is stored in an empty slot. -/
theorem has_update {t : Table κ} {k : κ} {i : Nat} (hempty : t i = none) (k' : κ) :
    Table.Has (Function.update t i (some k)) k' ↔ k' = k ∨ t.Has k' := by
  constructor
  · rintro ⟨j, e⟩
    by_cases hj : j = i
    · rw [hj, Function.update_self] at e
      exact Or.inl (Option.some.inj e).symm
    · rw [Function.update_of_ne hj] at e
      exact Or.inr ⟨j, e⟩
  · rintro (rfl | ⟨j, e⟩)
    · exact ⟨i, Function.update_self ..⟩
    · refine ⟨j, ?_⟩
      have hne : j ≠ i := by
        rintro rfl
        rw [hempty] at e
        cases e
      rwa [Function.update_of_ne hne]

/-- An insertion that passed `c` slots, all occupied by other keys, keeps the table probed and adds its key. -/
theorem Probed.insert_from {t t' : Table κ} (h : Probed probe len t) {k : κ} :
    ∀ (n c : Nat), c + n = len → (∀ c', c' < c → t (probe k c') ≠ none ∧ t (probe k c') ≠ some k) →
      insert probe t k n c = some t' → Probed probe len t' ∧ ∀ k', t'.Has k' ↔ k' = k ∨ t.Has k' := by
  intro n
  induction n with
  | zero =>
    intro c _ _ he
    cases he
  | succ n ih =>
    intro c hc hbefore he
    rw [insert] at he
    cases hslot : t (probe k c) with
    | none =>
      rw [hslot] at he
      obtain rfl := Option.some.inj he
      have hnew : ¬ t.Has k := by
        rintro ⟨i, e⟩
        obtain ⟨d, -, hi, hd⟩ := h.behind i k e
        rcases Nat.lt_trichotomy c d with hlt | rfl | hlt
        · exact hd c hlt hslot
        · rw [hi, e] at hslot
          cases hslot
        · exact (hbefore d hlt).2 (hi ▸ e)
      exact ⟨h.store (by omega) hslot (fun c' hc' => (hbefore c' hc').1) hnew, has_update hslot⟩
    | some k' =>
      rw [hslot] at he
      simp only at he
      split at he
      · rename_i heq
        obtain rfl := Option.some.inj he
        refine ⟨h, fun k'' => ⟨Or.inr, ?_⟩⟩
        rintro (rfl | hk)
        · exact ⟨_, heq.symm ▸ hslot⟩
        · exact hk
      · rename_i hne
        refine ih (c + 1) (by omega) (fun c' hc' => ?_) he
        by_cases e : c' = c
        · subst e
          rw [hslot]
          exact ⟨nofun, fun h => hne (Option.some.inj h).symm⟩
        · exact hbefore c' (by omega)

/-- Inserting a key keeps the table probed and adds the key. -/
theorem Probed.insert {t t' : Table κ} (h : Probed probe len t) {k : κ} (he : insert probe t k len 0 = some t') :
    Probed probe len t' ∧ ∀ k', t'.Has k' ↔ k' = k ∨ t.Has k' :=
  h.insert_from len 0 (by omega) (fun c' hc' => absurd hc' (by omega)) he

end Table

end OsLabs
