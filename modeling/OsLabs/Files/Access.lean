import Mathlib.Data.List.Basic

/-!
# Who may access a file (`access.c`)

`my_access` answers from the metadata of a file and the real identity of the process. For the owner it looks at the owner bits. For
everybody else it asks whether the real group is among the supplementary groups, and looks at neither the group of the file, nor the
group and other bits, nor the mode that was asked for.

The check of the system takes the first class of the caller that applies, and every permission asked for has to be granted by the bits
of that class (`Permits`). The two answers agree for the owner; for everybody else there are permissions of the file with which they do
not (`myAccess_eq_permits_iff`).
-/

namespace OsLabs.Access

/-- An `int`, read as its bits. -/
abbrev CInt : Type := BitVec 32

/-- The fields of `struct stat` that decide who may do what. -/
structure Stat where
  st_uid : Nat
  st_gid : Nat
  st_mode : CInt

/-- The identity of a process: what `getuid`, `getgid` and `getgroups` return. It has at most as many supplementary groups as the limit
that `sysconf(_SC_NGROUPS_MAX)` returns, and the effective group may be listed with them. -/
structure Caller where
  uid : Nat
  gid : Nat
  groups : List Nat
  ngroupsMax : Nat
  length_le : groups.length ≤ ngroupsMax + 1

/-- `R_OK`, `W_OK` and `X_OK`. -/
def rOk : CInt := 4

def wOk : CInt := 2

def xOk : CInt := 1

/-- `S_IRUSR`, `S_IWUSR` and `S_IXUSR`. -/
def sIrusr : CInt := 0x100

def sIwusr : CInt := 0x80

def sIxusr : CInt := 0x40

/-- `getgroups`: the number of the supplementary groups and the groups, or -1 when there are more than `size`. -/
def getgroups (who : Caller) (size : Nat) : Int × List Nat :=
  if who.groups.length ≤ size then (who.groups.length, who.groups) else (-1, [])

/-- The loop over the first `ngroups` entries of `group`. -/
def groupLoop (rgid : Nat) (group : List Nat) : Bool :=
  match group with
  | [] => false
  | g :: group => if rgid = g then true else groupLoop rgid group

/-- `my_access`. -/
def myAccess (who : Caller) (sb : Stat) (mode : CInt) : Bool :=
  let fileMode := sb.st_mode
  let ruid := who.uid
  if sb.st_uid = ruid then
    let fileR := fileMode &&& sIrusr
    let fileW := fileMode &&& sIwusr
    let fileX := fileMode &&& sIxusr
    if mode &&& rOk ≠ 0 ∧ fileR = 0 then false
    else if mode &&& wOk ≠ 0 ∧ fileW = 0 then false
    else if mode &&& xOk ≠ 0 ∧ fileX = 0 then false
    else true
  else
    let rgid := who.gid
    let ngroupsMax := who.ngroupsMax + 1
    let (ngroups, group) := getgroups who ngroupsMax
    groupLoop rgid (group.take ngroups.toNat)

/-! ## The check of the system -/

/-- The classes of users, in the order in which they are tried. -/
inductive UserClass where
  | owner | group | other
  deriving DecidableEq, Repr

/-- The permissions. -/
inductive Perm where
  | read | write | exec
  deriving DecidableEq, Repr

/-- The bit of a permission in the mode that is asked for. -/
def Perm.ok : Perm → CInt
  | .read => rOk
  | .write => wOk
  | .exec => xOk

/-- The bit of a permission of the owner. -/
def Perm.usr : Perm → CInt
  | .read => sIrusr
  | .write => sIwusr
  | .exec => sIxusr

/-- The bit of a permission of a class: those of the group and of the others are three and six places lower. -/
def UserClass.bit (c : UserClass) (p : Perm) : CInt :=
  match c with
  | .owner => p.usr
  | .group => p.usr >>> 3
  | .other => p.usr >>> 6

/-- The first class that applies to the caller. -/
def Caller.userClass (who : Caller) (sb : Stat) : UserClass :=
  if sb.st_uid = who.uid then .owner
  else if sb.st_gid = who.gid ∨ sb.st_gid ∈ who.groups then .group
  else .other

/-- Every permission asked for is granted by the bits of the first class that applies. -/
def Permits (who : Caller) (sb : Stat) (mode : CInt) : Prop :=
  ∀ p : Perm, mode &&& p.ok ≠ 0 → sb.st_mode &&& (who.userClass sb).bit p ≠ 0

/-! ## What `my_access` computes -/

theorem groupLoop_iff (rgid : Nat) (group : List Nat) : groupLoop rgid group = true ↔ rgid ∈ group := by
  induction group with
  | nil => simp [groupLoop]
  | cons g group ih =>
    rw [groupLoop, List.mem_cons]
    by_cases h : rgid = g
    · simp [h]
    · rw [if_neg h, ih]
      simp [h]

/-- The array that the program allocates is large enough. -/
theorem getgroups_all (who : Caller) : getgroups who (who.ngroupsMax + 1) = ((who.groups.length : Int), who.groups) :=
  if_pos who.length_le

/-- Three reasons to refuse, tried in order. -/
theorem refuse_iff (r w x : Prop) [Decidable r] [Decidable w] [Decidable x] :
    (if r then false else if w then false else if x then false else true) = true ↔ ¬ r ∧ ¬ w ∧ ¬ x := by
  by_cases hr : r
  · simp [hr]
  · by_cases hw : w <;> simp [hr, hw]

/-- The owner is asked for one permission after the other. -/
theorem myAccess_of_owner {who : Caller} {sb : Stat} (mode : CInt) (h : sb.st_uid = who.uid) :
    myAccess who sb mode = true ↔ ∀ p : Perm, ¬ (mode &&& p.ok ≠ 0 ∧ sb.st_mode &&& p.usr = 0) := by
  rw [myAccess, if_pos h]
  dsimp only
  rw [refuse_iff]
  constructor
  · rintro ⟨hr, hw, hx⟩ p
    cases p with
    | read => exact hr
    | write => exact hw
    | exec => exact hx
  · intro hall
    exact ⟨hall .read, hall .write, hall .exec⟩

/-- The owner. -/
theorem myAccess_owner {who : Caller} {sb : Stat} (mode : CInt) (h : sb.st_uid = who.uid) :
    myAccess who sb mode = true ↔ Permits who sb mode := by
  have hclass : who.userClass sb = .owner := if_pos h
  rw [myAccess_of_owner mode h, Permits, hclass]
  exact forall_congr' fun p => not_and

/-- Everybody else: neither the file nor the mode that was asked for matters. -/
theorem myAccess_not_owner {who : Caller} {sb : Stat} (mode : CInt) (h : sb.st_uid ≠ who.uid) :
    myAccess who sb mode = true ↔ who.gid ∈ who.groups := by
  rw [myAccess, if_neg h]
  dsimp only
  rw [getgroups_all]
  rw [Int.toNat_natCast, List.take_length, groupLoop_iff]

/-- A file without any permission bit grants nothing that is asked for. -/
theorem not_permits_none (who : Caller) (uid gid : Nat) : ¬ Permits who ⟨uid, gid, 0⟩ rOk := by
  intro h
  have hread := h .read (by decide)
  simp at hread

/-- A file with all permission bits grants everything. -/
theorem permits_all (who : Caller) (uid gid : Nat) (mode : CInt) : Permits who ⟨uid, gid, 0x1ff⟩ mode := by
  have hbit : ∀ (c : UserClass) (p : Perm), (0x1ff : CInt) &&& c.bit p ≠ 0 := by
    intro c p
    cases c <;> cases p <;> decide
  exact fun p _ => hbit _ p

/-- Whatever the owner and the group of the file: `my_access` is the check of the system, for all permission bits of the file and
everything that can be asked for, exactly if the caller is the owner. -/
theorem myAccess_eq_permits_iff (who : Caller) (uid gid : Nat) :
    (∀ st_mode mode : CInt, myAccess who ⟨uid, gid, st_mode⟩ mode = true ↔ Permits who ⟨uid, gid, st_mode⟩ mode) ↔ uid = who.uid := by
  constructor
  · intro h
    by_contra howner
    by_cases hg : who.gid ∈ who.groups
    · -- everything is granted, although there is no permission bit
      have hyes : myAccess who ⟨uid, gid, 0⟩ rOk = true := (myAccess_not_owner rOk howner).mpr hg
      exact not_permits_none who uid gid ((h 0 rOk).mp hyes)
    · -- nothing is granted, although all bits are there
      have hyes : myAccess who ⟨uid, gid, 0x1ff⟩ rOk = true := (h 0x1ff rOk).mpr (permits_all who uid gid rOk)
      exact hg ((myAccess_not_owner rOk howner).mp hyes)
  · intro howner st_mode mode
    exact myAccess_owner mode howner

/-- A file that everybody may read, and a caller who is neither its owner nor in any supplementary group: `my_access` says no. A file
that only its owner may touch, and a caller whose real group is listed: `my_access` says yes to everything. -/
theorem myAccess_wrong : ¬ ∀ (who : Caller) (sb : Stat) (mode : CInt), who.uid ≠ 0 →
    (myAccess who sb mode = true ↔ Permits who sb mode) := by
  intro h
  have hread := h ⟨1001, 1001, [], 65536, by decide⟩ ⟨1000, 1000, 0x1a4⟩ rOk (by decide)
  have hpermits : Permits ⟨1001, 1001, [], 65536, by decide⟩ ⟨1000, 1000, 0x1a4⟩ rOk := by
    intro p hp
    cases p with
    | read => decide
    | write => exact absurd (by decide) hp
    | exec => exact absurd (by decide) hp
  exact absurd (hread.mpr hpermits) (by decide)

end OsLabs.Access
