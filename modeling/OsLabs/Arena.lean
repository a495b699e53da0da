import OsLabs.Lib.ByteMem
import Mathlib.Data.List.Pairwise

/-!
# Arenas (`arena.c`, `arena.h`)

An arena is a mapped region of `ARENA_SIZE` bytes; it is named by its address. The arenas of a memory manager are on a singly
linked list, a list of addresses here. `ARENA_SIZE` is a build-time parameter of the source (`1 << 16` unless set), an argument
`size` here.

The kernel's answer to `mmap` is a parameter: `os al` is the address of the region it maps when `al` are the arenas mapped so
far, or nothing when the call fails (`Mmap` of `libcsapp` then ends the program).
-/

namespace OsLabs

/-- `ARENA_SIZE`. -/
def arenaSize : Nat := 1 <<< 16

/-- What `mmap` promises: the region it returns is in the user half of the address space and apart from every arena. -/
def MmapOk (size : Nat) (os : List Nat → Option Nat) : Prop :=
  ∀ al new, os al = some new →
    0 < new ∧ new + size ≤ 2 ^ 47 ∧ ∀ ar ∈ al, new + size ≤ ar ∨ ar + size ≤ new

/-- `alloc_first_arena`, once `alloc_arena` has mapped `new`. -/
def allocFirstArena (al : List Nat) (new : Nat) : List Nat := new :: al

/-- `STAILQ_INSERT_AFTER`. -/
def insertAfter (al : List Nat) (ar new : Nat) : List Nat :=
  match al with
  | [] => []
  | a :: rest => if a = ar then a :: new :: rest else a :: insertAfter rest ar new

/-- `alloc_after_arena`, once `alloc_arena` has mapped `new`. -/
def allocAfterArena (al : List Nat) (ar : Option Nat) (new : Nat) : List Nat :=
  match ar with
  | none => al ++ [new]
  | some a => insertAfter al a new

/-- `STAILQ_NEXT`. -/
def nextArena (al : List Nat) (ar : Nat) : Option Nat :=
  match al with
  | [] => none
  | a :: rest => if a = ar then rest.head? else nextArena rest ar

/-- `find_ptr_arena`: the first arena with the pointer strictly inside its range of addresses. -/
def findPtrArena (size : Nat) (al : List Nat) (ptr : Nat) : Option Nat :=
  al.find? fun ar => decide (ar < ptr ∧ ptr < ar + size)

/-! ## The arena list -/

/-- Two regions of `size` bytes do not overlap. -/
def ApartFrom (size a b : Nat) : Prop := a + size ≤ b ∨ b + size ≤ a

instance (size : Nat) : Std.Symm (ApartFrom size) := ⟨fun _ _ h => h.symm⟩

/-- The arenas of a list are pairwise apart. -/
def Apart (size : Nat) (al : List Nat) : Prop := al.Pairwise (ApartFrom size)

/-- Two different arenas of a list are apart. -/
theorem Apart.of_ne {size : Nat} {al : List Nat} (h : Apart size al) {a b : Nat} (ha : a ∈ al) (hb : b ∈ al)
    (hne : a ≠ b) : ApartFrom size a b :=
  List.Pairwise.forall h ha hb hne

/-- The arenas of the list are different. -/
theorem Apart.nodup {size : Nat} {al : List Nat} (h : Apart size al) (hsize : 0 < size) : al.Nodup := by
  refine List.Pairwise.imp (fun {a b} hab heq => ?_) h
  subst heq
  unfold ApartFrom at hab
  omega

/-- Inserting after an arena of the list adds the new one and keeps the others. -/
theorem insertAfter_perm {al : List Nat} {ar : Nat} (new : Nat) (h : ar ∈ al) : (insertAfter al ar new).Perm (new :: al) := by
  induction al with
  | nil => cases h
  | cons a rest ih =>
    unfold insertAfter
    by_cases ha : a = ar
    · rw [if_pos ha]
      exact List.Perm.swap new a rest
    · rw [if_neg ha]
      have hin : ar ∈ rest := (List.mem_cons.mp h).resolve_left (Ne.symm ha)
      exact ((ih hin).cons a).trans (List.Perm.swap new a rest)

/-- A region that `mmap` returns stays apart from the arenas, wherever it is inserted. -/
theorem Apart.insert {size : Nat} {al al' : List Nat} {new : Nat} (h : Apart size al) (hp : al'.Perm (new :: al))
    (hnew : ∀ ar ∈ al, new + size ≤ ar ∨ ar + size ≤ new) : Apart size al' := by
  refine (hp.pairwise_iff fun h => h.symm).mpr ?_
  exact List.pairwise_cons.mpr ⟨hnew, h⟩

/-- A new region is not one of the arenas. -/
theorem not_mem_of_mmapOk {size : Nat} {os : List Nat → Option Nat} (hos : MmapOk size os) (hsize : 0 < size)
    {al : List Nat} {new : Nat} (h : os al = some new) : new ∉ al := by
  intro hin
  have := (hos al new h).2.2 new hin
  omega

/-- A pointer strictly inside an arena is found in that arena. -/
theorem findPtrArena_eq {size : Nat} {al : List Nat} (h : Apart size al) {ar ptr : Nat} (har : ar ∈ al)
    (h1 : ar < ptr) (h2 : ptr < ar + size) : findPtrArena size al ptr = some ar := by
  unfold findPtrArena
  cases hf : al.find? fun ar => decide (ar < ptr ∧ ptr < ar + size) with
  | none =>
    have := List.find?_eq_none.mp hf ar har
    simp only [decide_eq_true_eq, not_and, not_lt] at this
    have := this h1
    omega
  | some b =>
    have hb := List.find?_some hf
    simp only [decide_eq_true_eq] at hb
    by_cases hne : b = ar
    · rw [hne]
    · have := h.of_ne (List.mem_of_find?_eq_some hf) har hne
      unfold ApartFrom at this
      omega

/-- What `find_ptr_arena` returns is an arena of the list with the pointer inside. -/
theorem findPtrArena_some {size : Nat} {al : List Nat} {ar ptr : Nat} (h : findPtrArena size al ptr = some ar) :
    ar ∈ al ∧ ar < ptr ∧ ptr < ar + size := by
  unfold findPtrArena at h
  have hb := List.find?_some h
  simp only [decide_eq_true_eq] at hb
  exact ⟨List.mem_of_find?_eq_some h, hb⟩

/-- The arena after an inserted one's predecessor is the inserted one. -/
theorem nextArena_insertAfter {al : List Nat} {ar : Nat} (new : Nat) (h : ar ∈ al) :
    nextArena (insertAfter al ar new) ar = some new := by
  induction al with
  | nil => cases h
  | cons a rest ih =>
    unfold insertAfter
    by_cases ha : a = ar
    · rw [if_pos ha]
      simp [nextArena, ha]
    · rw [if_neg ha]
      have hin : ar ∈ rest := (List.mem_cons.mp h).resolve_left (Ne.symm ha)
      simp only [nextArena, if_neg ha]
      exact ih hin

/-- A kernel that maps one arena. -/
def oneArena (al : List Nat) : Option Nat := if al = [] then some 4096 else none

theorem oneArena_ok : MmapOk arenaSize oneArena := by
  intro al new h
  unfold oneArena at h
  split at h
  · rename_i hal
    obtain rfl := Option.some.inj h
    exact ⟨by decide, by decide, by rw [hal]; nofun⟩
  · cases h

end OsLabs
