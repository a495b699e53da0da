import OsLabs.Echo.Model
import Mathlib.Data.List.Nodup

/-!
# Who owns the slots of the client table

A process that the server has forked is held, by its pid and its slot, until `delclient` is done with it. `Table` says that no two
held processes share a pid or a slot, and that a slot in use belongs to a held process or is the one that `addclient` has taken.
The lemmas are the operations of the server and its children on the table.
-/

namespace OsLabs.Echo

theorem findclient_some {client : Nat → Client} {pid : Int} {i : Nat} (h : findclient client pid = some i) :
    i < maxClients ∧ (client i).pid = pid := by
  have hi := List.find?_some h
  exact ⟨List.mem_range.mp (List.mem_of_find?_eq_some h), by simpa using hi⟩

theorem findclient_ne_none {client : Nat → Client} {pid : Int} {i : Nat} (hi : i < maxClients) (hp : (client i).pid = pid) :
    findclient client pid ≠ none := by
  intro h
  have := List.find?_eq_none.mp h i (List.mem_range.mpr hi)
  exact this (by simpa using hp)

theorem setPid_self (client : Nat → Client) (i : Nat) (pid : Int) : (setPid client i pid i).pid = pid := by
  rw [setPid, Function.update_self]

theorem setPid_ne (client : Nat → Client) {i j : Nat} (pid : Int) (hij : j ≠ i) : setPid client i pid j = client j :=
  Function.update_of_ne hij _ _

theorem setPid_nread (client : Nat → Client) (i j : Nat) (pid : Int) : (setPid client i pid j).nread = (client j).nread := by
  by_cases e : j = i
  · rw [e, setPid, Function.update_self]
  · rw [setPid_ne client pid e]

theorem setNread_self (client : Nat → Client) (i n : Nat) : (setNread client i n i).nread = n := by
  rw [setNread, Function.update_self]

theorem setNread_ne (client : Nat → Client) {i j : Nat} (n : Nat) (hij : j ≠ i) : setNread client i n j = client j :=
  Function.update_of_ne hij _ _

theorem setNread_pid (client : Nat → Client) (i j n : Nat) : (setNread client i n j).pid = (client j).pid := by
  by_cases e : j = i
  · rw [e, setNread, Function.update_self]
  · rw [setNread_ne client n e]

/-- A process of the server with its slot. -/
abbrev Held : Type := Nat × Option Nat

/-- The slots of some processes. -/
def slotsOf (held : List Held) : List Nat := held.filterMap Prod.snd

theorem mem_slotsOf {held : List Held} {i : Nat} : i ∈ slotsOf held ↔ ∃ p, (p, some i) ∈ held := by
  simp [slotsOf]

/-- The table, the processes held and the slot that `addclient` has taken. -/
structure Table (client : Nat → Client) (held : List Held) (taken : Option Nat) : Prop where
  pids : (held.map Prod.fst).Nodup
  slots : (taken.toList ++ slotsOf held).Nodup
  bound : ∀ i ∈ taken.toList ++ slotsOf held, i < maxClients
  positive : ∀ x ∈ held, 0 < x.1
  owned : ∀ i, i < maxClients → (client i).pid = 0 ∨ taken = some i ∧ (client i).pid = -1 ∨
    ∃ p, (p, some i) ∈ held ∧ ((client i).pid = -1 ∨ (client i).pid = (p : Int))

namespace Table

variable {client : Nat → Client} {held : List Held} {taken : Option Nat}

/-- Two held processes with one pid are one. -/
theorem unique (h : Table client held taken) {p : Nat} {a b : Option Nat} (ha : (p, a) ∈ held) (hb : (p, b) ∈ held) : a = b := by
  have := List.inj_on_of_nodup_map h.pids ha hb rfl
  exact (Prod.mk.inj this).2

/-- The slot that is taken is nobody's. -/
theorem taken_free (h : Table client held taken) {i : Nat} (ht : taken = some i) : i ∉ slotsOf held := by
  subst ht
  exact (List.nodup_cons.mp h.slots).1

theorem slots_nodup (h : Table client held taken) : (slotsOf held).Nodup := h.slots.of_append_right

/-- Two held processes with one slot are one. -/
theorem slot_unique (h : Table client held taken) {p q i : Nat} (hp : (p, some i) ∈ held) (hq : (q, some i) ∈ held) : q = p := by
  obtain ⟨l, r, rfl⟩ := List.append_of_mem hp
  have hn := h.slots_nodup
  have happ : slotsOf (l ++ (p, some i) :: r) = slotsOf l ++ i :: slotsOf r := List.filterMap_append
  rw [happ, List.nodup_append] at hn
  obtain ⟨-, hr, hlr⟩ := hn
  rcases List.mem_append.mp hq with hq | hq
  · exact absurd rfl (hlr i (mem_slotsOf.mpr ⟨q, hq⟩) i List.mem_cons_self)
  · rcases List.mem_cons.mp hq with e | hq
    · exact (Prod.mk.inj e).1
    · exact absurd (mem_slotsOf.mpr ⟨q, hq⟩) (List.nodup_cons.mp hr).1

/-- `findclient` of the pid of a held process finds its slot. -/
theorem find_slot (h : Table client held taken) {p i : Nat} {slot : Option Nat} (hp : (p, slot) ∈ held)
    (hf : findclient client p = some i) : slot = some i := by
  obtain ⟨hi, hpid⟩ := findclient_some hf
  have h0 := h.positive _ hp
  rcases h.owned i hi with h1 | ⟨-, h1⟩ | ⟨q, hq, h1 | h1⟩
  · omega
  · omega
  · omega
  · obtain rfl : q = p := by omega
    exact h.unique hp hq

/-- The order in which the processes are listed does not matter. -/
theorem perm (h : Table client held taken) {held' : List Held} (hp : held.Perm held') : Table client held' taken where
  pids := (hp.map _).nodup_iff.mp h.pids
  slots := ((hp.filterMap _).append_left _).nodup_iff.mp h.slots
  bound i hi := h.bound i (((hp.filterMap _).append_left _).mem_iff.mpr hi)
  positive x hx := h.positive x (hp.mem_iff.mpr hx)
  owned i hi := by
    rcases h.owned i hi with h1 | h1 | ⟨p, hm, h1⟩
    · exact Or.inl h1
    · exact Or.inr (Or.inl h1)
    · exact Or.inr (Or.inr ⟨p, hp.mem_iff.mp hm, h1⟩)

/-- `addclient` takes a free slot. -/
theorem take (h : Table client held none) {i : Nat} (hi : i < maxClients) (hfree : i ∉ slotsOf held) :
    Table client held (some i) where
  pids := h.pids
  slots := List.nodup_cons.mpr ⟨hfree, h.slots⟩
  bound j hj := by
    rcases List.mem_cons.mp hj with rfl | hj
    · exact hi
    · exact h.bound j hj
  positive := h.positive
  owned j hj := (h.owned j hj).imp_right fun h1 => h1.elim (fun h2 => nomatch h2.1) Or.inr

/-- The pid of a slot is changed to one that is right there. -/
theorem setPid (h : Table client held taken) {i : Nat} (pid : Int)
    (hpid : pid = 0 ∨ taken = some i ∧ pid = -1 ∨ ∃ p, (p, some i) ∈ held ∧ (pid = -1 ∨ pid = (p : Int))) :
    Table (setPid client i pid) held taken where
  pids := h.pids
  slots := h.slots
  bound := h.bound
  positive := h.positive
  owned j hj := by
    by_cases e : j = i
    · subst e
      rw [setPid_self]
      exact hpid
    · rw [setPid_ne client pid e]
      exact h.owned j hj

theorem setNread (h : Table client held taken) (i n : Nat) : Table (setNread client i n) held taken where
  pids := h.pids
  slots := h.slots
  bound := h.bound
  positive := h.positive
  owned j hj := by
    rw [setNread_pid]
    exact h.owned j hj

/-- A process is forked with the slot that was taken. -/
theorem fork (h : Table client held taken) {pid : Nat} (h0 : 0 < pid) (hpid : pid ∉ held.map Prod.fst)
    (hmark : ∀ i, taken = some i → (client i).pid = -1) : Table client ((pid, taken) :: held) none where
  pids := List.nodup_cons.mpr ⟨hpid, h.pids⟩
  slots := by
    have := h.slots
    cases taken <;> exact this
  bound := by
    have := h.bound
    cases taken <;> exact this
  positive x hx := by
    rcases List.mem_cons.mp hx with rfl | hx
    · exact h0
    · exact h.positive x hx
  owned i hi := by
    rcases h.owned i hi with h1 | ⟨ht, h1⟩ | ⟨p, hm, h1⟩
    · exact Or.inl h1
    · exact Or.inr (Or.inr ⟨pid, by rw [← ht]; exact List.mem_cons_self, Or.inl h1⟩)
    · exact Or.inr (Or.inr ⟨p, List.mem_cons_of_mem _ hm, h1⟩)

/-- A process whose slot was given back is dropped. -/
theorem drop {x : Held} (h : Table client (x :: held) taken) (hclear : ∀ i, x.2 = some i → (client i).pid = 0) :
    Table client held taken where
  pids := (List.nodup_cons.mp h.pids).2
  slots := by
    have hsub : (slotsOf held).Sublist (slotsOf (x :: held)) := (List.sublist_cons_self x held).filterMap _
    exact h.slots.sublist (hsub.append_left _)
  bound i hi := by
    have hsub : (slotsOf held).Sublist (slotsOf (x :: held)) := (List.sublist_cons_self x held).filterMap _
    exact h.bound i ((hsub.append_left _).subset hi)
  positive y hy := h.positive y (List.mem_cons_of_mem _ hy)
  owned i hi := by
    rcases h.owned i hi with h1 | h1 | ⟨p, hm, h1⟩
    · exact Or.inl h1
    · exact Or.inr (Or.inl h1)
    · rcases List.mem_cons.mp hm with rfl | hm
      · exact Or.inl (hclear i rfl)
      · exact Or.inr (Or.inr ⟨p, hm, h1⟩)

end Table

end OsLabs.Echo
