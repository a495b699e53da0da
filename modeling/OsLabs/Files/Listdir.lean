import OsLabs.Lib.CStr
import OsLabs.Lib.Records

/-!
# Listing a directory (`listdir.c`)

The program gets the directory from the system in pieces of at most 256 bytes, records of different lengths one behind the other, and
walks over each piece from record to record. However the system cuts the directory into pieces, every entry is printed once and in
order, up to the first one whose record does not fit into the buffer; there the system call fails and the program ends (`listdir_spec`).
With the records of Linux these are the names of more than 236 bytes.

`print_mode` computes three letters for the owner's `x`, each over the one before. So only the last of them is printed, and it is about
the others (`printMode_eq_lsMode_iff`).
-/

namespace OsLabs.Listdir

open Mem

/-- `DIRBUFSZ`. -/
def dirbufsz : Nat := 256

/-- The bytes of a text. -/
def text (cs : List Char) : List Byte := cs.map fun c => BitVec.ofNat 8 c.toNat

/-- A number in decimal. -/
def decimal (n : Int) : List Byte := text (toString n).toList

/-- A conversion with a width: filled up with blanks on the left. -/
def field (width : Nat) (s : List Byte) : List Byte := List.replicate (width - s.length) 32 ++ s

/-- Where the output goes. -/
inductive Stream where
  | stdout | stderr
  deriving DecidableEq, Repr

/-- What is printed: the stream and the bytes of each call. -/
abbrev Output : Type := List (Stream × List Byte)

/-! ## The records of `getdents` -/

/-- `struct linux_dirent`: behind the name there are zero bytes, at least one, and the type is the last byte. -/
structure Dirent where
  d_ino : BitVec 64
  d_off : BitVec 64
  d_name : List Byte
  pad : Nat
  d_type : Byte
  name_free : (0 : Byte) ∉ d_name
  pad_pos : 0 < pad
  reclen_lt : 19 + d_name.length + pad < 2 ^ 16

namespace Dirent

/-- The length of the record. -/
def d_reclen (e : Dirent) : Nat := 19 + e.d_name.length + e.pad

/-- The record as it lies in memory. -/
def bytes (e : Dirent) : List Byte :=
  leBytes 8 e.d_ino.toNat ++ (leBytes 8 e.d_off.toNat ++ (leBytes 2 e.d_reclen ++
    (e.d_name ++ (List.replicate e.pad 0 ++ [e.d_type]))))

theorem length_bytes (e : Dirent) : e.bytes.length = e.d_reclen := by
  simp only [bytes, d_reclen, List.length_append, length_leBytes, List.length_replicate, List.length_singleton]
  omega

/-- The record fits into the buffer. -/
def Fits (e : Dirent) : Prop := e.d_reclen ≤ dirbufsz

instance (e : Dirent) : Decidable e.Fits := inferInstanceAs (Decidable (_ ≤ _))

end Dirent

/-- The bytes of some records. -/
def size (es : List Dirent) : Nat := (es.flatMap Dirent.bytes).length

/-- `getdents` where some entries are left: those that it stores and those it leaves for the next call, or `EINVAL`. It stores nothing
only at the end of the directory, and fails only when the next record does not fit. -/
structure Getdents where
  read : List Dirent → Option (List Dirent × List Dirent)
  whole : ∀ {es now later}, read es = some (now, later) → now ++ later = es
  room : ∀ {es now later}, read es = some (now, later) → size now ≤ dirbufsz
  ends : ∀ {es later}, read es = some ([], later) → es = []
  fails : ∀ {es}, read es = none → ∃ e later, es = e :: later ∧ ¬ e.Fits

/-! ## The program -/

/-- The fields of `struct stat` that are printed. -/
structure Stat where
  st_dev : BitVec 64
  st_mode : BitVec 32
  st_nlink : BitVec 64
  st_uid : BitVec 32
  st_gid : BitVec 32
  st_size : BitVec 64
  st_mtime : BitVec 64

/-- A directory: its entries, what `fstatat` and `readlinkat` say about a name in it, or the error. -/
structure Dir where
  entries : List Dirent
  fstatat : List Byte → Except Nat Stat
  readlinkat : List Byte → Except Nat (List Byte)

/-- What the program gets from elsewhere: the directories by path, the users and groups, and the texts of the library. -/
structure World where
  opendir : List Byte → Option Dir
  getpwuid : BitVec 32 → Option (List Byte)
  getgrgid : BitVec 32 → Option (List Byte)
  strerror : Nat → List Byte
  ctime : BitVec 64 → List Byte
  getdentsError : List Byte

/-- `S_IFMT` and the file types. -/
def sIfmt : BitVec 32 := 0xf000

def sIfsock : BitVec 32 := 0xc000

def sIflnk : BitVec 32 := 0xa000

def sIfreg : BitVec 32 := 0x8000

def sIfblk : BitVec 32 := 0x6000

def sIfdir : BitVec 32 := 0x4000

def sIfchr : BitVec 32 := 0x2000

def sIfifo : BitVec 32 := 0x1000

/-- The set-uid, set-gid and sticky bits. -/
def sIsuid : BitVec 32 := 0x800

def sIsgid : BitVec 32 := 0x400

def sIsvtx : BitVec 32 := 0x200

/-- The permission bits. -/
def sIrusr : BitVec 32 := 0x100

def sIwusr : BitVec 32 := 0x80

def sIxusr : BitVec 32 := 0x40

def sIrgrp : BitVec 32 := 0x20

def sIwgrp : BitVec 32 := 0x10

def sIxgrp : BitVec 32 := 0x8

def sIroth : BitVec 32 := 0x4

def sIwoth : BitVec 32 := 0x2

def sIxoth : BitVec 32 := 0x1

/-- The macros `S_ISDIR` and so on. -/
def isType (m type : BitVec 32) : Prop := m &&& sIfmt = type

instance (m type : BitVec 32) : Decidable (isType m type) := inferInstanceAs (Decidable (_ = _))

/-- `(m & bit) ? yes : no`. -/
def letter (m bit : BitVec 32) (yes no : Char) : Char := if m &&& bit ≠ 0 then yes else no

set_option linter.unusedVariables false in
/-- `print_mode`: the ten letters. The first two values of `ux` that are computed after the permissions are not used. -/
def printMode (m : BitVec 32) : List Char :=
  let t :=
    if isType m sIfdir then 'd'
    else if isType m sIfchr then 'c'
    else if isType m sIfblk then 'b'
    else if isType m sIfreg then '-'
    else if isType m sIfifo then 'f'
    else if isType m sIflnk then 'l'
    else if isType m sIfsock then 's'
    else '?'
  let ur := letter m sIrusr 'r' '-'
  let uw := letter m sIwusr 'w' '-'
  let ux := letter m sIxusr 'x' '-'
  let gr := letter m sIrgrp 'r' '-'
  let gw := letter m sIwgrp 'w' '-'
  let gx := letter m sIxgrp 'x' '-'
  let or := letter m sIroth 'r' '-'
  let ow := letter m sIwoth 'w' '-'
  let ox := letter m sIxoth 'x' '-'
  let ux := letter m sIsuid (letter m sIxusr 's' 'S') ux
  let ux := letter m sIsgid 's' gx
  let ux := letter m sIsvtx 't' ox
  [t, ur, uw, ux, gr, gw, gx, or, ow, ox]

/-- `print_uid` and `print_gid`: the name, or the number printed as an `int`. -/
def printId (name : Option (List Byte)) (id : BitVec 32) : List Byte :=
  match name with
  | some name => text [' '] ++ field 10 name
  | none => text [' '] ++ field 10 (decimal id.toInt)

/-- `major`. -/
def major (dev : BitVec 64) : BitVec 32 := (((dev >>> 8) &&& 0xfff) ||| ((dev >>> 32) &&& ~~~0xfff)).setWidth 32

/-- `minor`. -/
def minor (dev : BitVec 64) : BitVec 32 := ((dev &&& 0xff) ||| ((dev >>> 12) &&& ~~~0xff)).setWidth 32

/-- `file_info`. -/
def fileInfo (w : World) (dir : Dir) (name : List Byte) : Output :=
  match dir.fstatat name with
  | .error errno => [(.stderr, text "ERROR: ".toList ++ w.strerror errno ++ text ['\n']), (.stdout, text ['\n'])]
  | .ok sb =>
    let device := isType sb.st_mode sIfchr ∨ isType sb.st_mode sIfblk
    let columns : Output := [
      (.stdout, text (printMode sb.st_mode)),
      (.stdout, field 4 (decimal sb.st_nlink.toInt)),
      (.stdout, printId (w.getpwuid sb.st_uid) sb.st_uid),
      (.stdout, printId (w.getgrgid sb.st_gid) sb.st_gid),
      (.stdout,
        if device then field 9 (decimal (major sb.st_dev).toNat) ++ text [','] ++ field 3 (decimal (minor sb.st_dev).toNat)
        else field 12 (decimal sb.st_size.toNat) ++ text [' ']),
      -- the newline that ends the time is cut off
      (.stdout, field 26 (w.ctime sb.st_mtime).dropLast)]
    if isType sb.st_mode sIflnk then
      match dir.readlinkat name with
      | .error errno =>
        columns ++ [(.stderr, text "ERROR: ".toList ++ w.strerror errno ++ text ['\n']), (.stdout, text ['\n'])]
      | .ok path =>
        columns ++ [(.stdout, text "  ".toList ++ name ++ text " -> ".toList ++ path.take 4095), (.stdout, text ['\n'])]
    else columns ++ [(.stdout, text "  ".toList ++ name), (.stdout, text ['\n'])]

/-- `d->d_reclen`. -/
def dReclen (buf : Mem) (d : Nat) : Nat := buf.read (d + 16) 2

/-- `d->d_name`: the string that starts there. -/
def dName (buf : Mem) (d : Nat) : List Byte := Ptr.cstr (fun j => buf (d + 18 + j)) dirbufsz

/-- The loop over the records in the first `n` bytes of the buffer. -/
def entryLoop (w : World) (dir : Dir) (buf : Mem) (n : Nat) (out : Output) : Option Output :=
  walk (dReclen buf) (fun bpos out => out ++ fileInfo w dir (dName buf bpos)) n n 0 out

/-- The loop of `main`, and the status that it ends with. -/
def readLoop (k : Getdents) (w : World) (dir : Dir) : Nat → Mem → List Dirent → Output → Option (Output × Nat)
  | 0, _, _, _ => none
  | fuel + 1, buf, rest, out =>
    match k.read rest with
    | none => some (out ++ [(.stderr, w.getdentsError)], 1)
    | some (now, later) =>
      let buf := buf.put 0 (now.flatMap Dirent.bytes)
      let n := size now
      if n ≠ 0 then
        match entryLoop w dir buf n out with
        | none => none
        | some out => readLoop k w dir fuel buf later out
      else some (out, 0)

/-- `main`: without an argument it lists the working directory; `Open` ends the program where there is no such directory. -/
def main (k : Getdents) (w : World) (fuel : Nat) (buf : Mem) (argv1 : Option (List Byte)) : Option (Output × Nat) :=
  match w.opendir (argv1.getD (text ['.'])) with
  | none => some ([], 1)
  | some dir => readLoop k w dir fuel buf dir.entries []

/-! ## What is listed -/

/-- The records are a format. -/
def framing : Framing Dirent where
  bytes := Dirent.bytes
  len := dReclen
  bytes_ne_nil e := by
    rw [← List.length_pos_iff, e.length_bytes, Dirent.d_reclen]
    omega
  len_eq {m a e} h := by
    have h2 := (holds_append.mp (holds_append.mp (holds_append.mp h).2).2).1
    rw [length_leBytes, length_leBytes] at h2
    rw [e.length_bytes, dReclen]
    exact h2.read e.reclen_lt

variable {k : Getdents} {w : World} {dir : Dir} {buf : Mem} {e : Dirent} {es now later : List Dirent} {out : Output}

/-- The name of a record in the buffer. -/
theorem dName_eq {d : Nat} (h : buf.Holds d e.bytes) (hfits : e.Fits) : dName buf d = e.d_name := by
  have h4 := (holds_append.mp (holds_append.mp (holds_append.mp h).2).2).2
  rw [length_leBytes, length_leBytes, length_leBytes] at h4
  obtain ⟨hname, hrest⟩ := holds_append.mp h4
  have hpad := e.pad_pos
  unfold Dirent.Fits Dirent.d_reclen dirbufsz at hfits
  refine Ptr.cstr_terminated e.name_free (by unfold dirbufsz; omega) (fun j hj => hname j hj) ?_
  have hz := (holds_append.mp hrest).1 0 (by rw [List.length_replicate]; exact hpad)
  rw [List.getElem_replicate] at hz
  exact hz

theorem size_cons (e : Dirent) (es : List Dirent) : size (e :: es) = e.d_reclen + size es := by
  rw [size, List.flatMap_cons, List.length_append, e.length_bytes, size]

/-- Each of the records in a buffer fits into it. -/
theorem fits_of_size_le (h : size es ≤ dirbufsz) : ∀ e ∈ es, e.Fits := by
  induction es with
  | nil => exact fun _ he => absurd he List.not_mem_nil
  | cons a es ih =>
    rw [size_cons] at h
    exact List.forall_mem_cons.mpr ⟨by unfold Dirent.Fits; omega, ih (by omega)⟩

/-- The loop over a piece prints its entries, whatever the buffer held before. -/
theorem entryLoop_spec (buf : Mem) (hsize : size es ≤ dirbufsz) (out : Output) :
    entryLoop w dir (buf.put 0 (es.flatMap Dirent.bytes)) (size es) out =
      some (out ++ es.flatMap fun e => fileInfo w dir e.d_name) := by
  have hfits := fits_of_size_le hsize
  have hbody : ∀ e ∈ es, ∀ a out, (buf.put 0 (es.flatMap Dirent.bytes)).Holds a (framing.bytes e) →
      out ++ fileInfo w dir (dName (buf.put 0 (es.flatMap Dirent.bytes)) a) = out ++ fileInfo w dir e.d_name := by
    intro e he a out h
    rw [dName_eq h (hfits e he)]
  have hrun := walk_records framing hbody out (holds_put buf 0 _) (framing.length_le es)
  rw [Nat.zero_add, List.foldl_append_eq_append] at hrun
  exact hrun

/-- What is printed of some entries, and the status: all of them, or those before the first that does not fit. -/
def listing (w : World) (dir : Dir) (es : List Dirent) : Output × Nat :=
  if ∀ e ∈ es, e.Fits then (es.flatMap fun e => fileInfo w dir e.d_name, 0)
  else ((es.takeWhile fun e => decide e.Fits).flatMap (fun e => fileInfo w dir e.d_name) ++ [(.stderr, w.getdentsError)], 1)

/-- A piece of entries that fit, and what follows. -/
theorem listing_append (h : ∀ e ∈ now, e.Fits) : listing w dir (now ++ later) =
    (now.flatMap (fun e => fileInfo w dir e.d_name) ++ (listing w dir later).1, (listing w dir later).2) := by
  have hall : (∀ e ∈ now ++ later, e.Fits) ↔ ∀ e ∈ later, e.Fits := by
    rw [List.forall_mem_append]
    exact and_iff_right h
  unfold listing
  by_cases hl : ∀ e ∈ later, e.Fits
  · rw [if_pos (hall.mpr hl), if_pos hl, List.flatMap_append]
  · rw [if_neg (fun hx => hl (hall.mp hx)), if_neg hl, List.takeWhile_append_of_pos fun e he => decide_eq_true (h e he),
      List.flatMap_append, List.append_assoc]

/-- Nothing fits where the system call fails. -/
theorem listing_fails (h : k.read es = none) : listing w dir es = ([(.stderr, w.getdentsError)], 1) := by
  obtain ⟨e, later, rfl, hfits⟩ := k.fails h
  unfold listing
  rw [if_neg fun hall => hfits (hall e List.mem_cons_self), List.takeWhile_cons_of_neg (by simpa using hfits)]
  rfl

/-- The loop of `main` prints what is left of the directory, by induction on the calls; each but the last takes an entry. -/
theorem readLoop_spec (k : Getdents) (w : World) (dir : Dir) {fuel : Nat} (buf : Mem) {rest : List Dirent} (out : Output)
    (hfuel : rest.length < fuel) :
    readLoop k w dir fuel buf rest out = some (out ++ (listing w dir rest).1, (listing w dir rest).2) := by
  induction fuel generalizing buf rest out with
  | zero => exact absurd hfuel (Nat.not_lt_zero _)
  | succ fuel ih =>
    rw [readLoop]
    cases hread : k.read rest with
    | none => rw [listing_fails hread]
    | some piece =>
      obtain ⟨now, later⟩ := piece
      have hwhole := k.whole hread
      have hroom := k.room hread
      cases now with
      | nil =>
        obtain rfl := k.ends hread
        simp [listing, size]
      | cons e now =>
        have hne : size (e :: now) ≠ 0 := by
          rw [size_cons, Dirent.d_reclen]
          omega
        have hlen := congrArg List.length hwhole
        rw [List.length_append, List.length_cons] at hlen
        simp only [if_pos hne, entryLoop_spec buf hroom out]
        rw [ih _ _ (by omega), ← hwhole, listing_append (fits_of_size_le hroom), List.append_assoc]

/-- As many records as there is room for, from the first on. -/
def fill : Nat → List Dirent → List Dirent × List Dirent
  | _, [] => ([], [])
  | room, e :: es =>
    if e.d_reclen ≤ room then
      let (now, later) := fill (room - e.d_reclen) es
      (e :: now, later)
    else ([], e :: es)

theorem fill_whole (room : Nat) (es : List Dirent) : (fill room es).1 ++ (fill room es).2 = es := by
  induction es generalizing room with
  | nil => rfl
  | cons e es ih =>
    rw [fill]
    split
    · rw [List.cons_append, ih]
    · rfl

theorem fill_room (room : Nat) (es : List Dirent) : size (fill room es).1 ≤ room := by
  induction es generalizing room with
  | nil => exact Nat.zero_le _
  | cons e es ih =>
    rw [fill]
    split
    · have := ih (room - e.d_reclen)
      rw [size_cons]
      omega
    · exact Nat.zero_le _

/-- Nothing is stored only when there is nothing or the first record is too large. -/
theorem fill_nil {room : Nat} (h : (fill room es).1 = []) : es = [] ∨ ∃ e later, es = e :: later ∧ room < e.d_reclen := by
  cases es with
  | nil => exact Or.inl rfl
  | cons e later =>
    rw [fill] at h
    split at h
    · cases h
    · next hle => exact Or.inr ⟨e, later, rfl, not_le.mp hle⟩

/-- `getdents` of Linux: it stores as many records as there is room for. -/
def linuxRead (es : List Dirent) : Option (List Dirent × List Dirent) :=
  if (fill dirbufsz es).1 = [] ∧ es ≠ [] then none else some (fill dirbufsz es)

theorem linuxRead_some (h : linuxRead es = some (now, later)) : fill dirbufsz es = (now, later) ∧ (now = [] → es = []) := by
  unfold linuxRead at h
  split at h
  · cases h
  · next hne =>
    have hfill := Option.some.inj h
    rw [hfill] at hne
    exact ⟨hfill, fun hnow => by_contra fun hes => hne ⟨hnow, hes⟩⟩

def linux : Getdents where
  read := linuxRead
  whole {es now later} h := by
    have hes := fill_whole dirbufsz es
    rwa [(linuxRead_some h).1] at hes
  room {es now later} h := by
    have hes := fill_room dirbufsz es
    rwa [(linuxRead_some h).1] at hes
  ends h := (linuxRead_some h).2 rfl
  fails {es} h := by
    unfold linuxRead at h
    split at h
    · next hnil =>
      obtain ⟨e, later, hes, hlt⟩ := (fill_nil hnil.1).resolve_left hnil.2
      exact ⟨e, later, hes, not_le.mpr hlt⟩
    · cases h

/-- The record of a name of a letter, and that of a name of 237, filled up to a multiple of 8. -/
def shortName : Dirent := ⟨1, 1, [97], 4, 0, by decide, by decide, by decide⟩

def longName : Dirent where
  d_ino := 2
  d_off := 2
  d_name := List.replicate 237 97
  pad := 8
  d_type := 0
  name_free h := absurd (List.eq_of_mem_replicate h) (by decide)
  pad_pos := by decide
  reclen_lt := by rw [List.length_replicate]; omega

theorem longName_large : ¬ longName.Fits := by
  have hlen : longName.d_name.length = 237 := List.length_replicate
  rw [Dirent.Fits, Dirent.d_reclen, hlen]
  decide

/-- The directory of these two, in a world without users; the owner may do everything with the files. -/
def smallDir : Dir where
  entries := [shortName, longName]
  fstatat _ := .ok ⟨0, 0x81c0, 1, 0, 0, 5, 0⟩
  readlinkat _ := .error 22

def smallWorld : World where
  opendir _ := some smallDir
  getpwuid _ := none
  getgrgid _ := none
  strerror _ := []
  ctime _ := [10]
  getdentsError := [69]

/-- The letter for an execute bit that goes with a special bit, as `ls` has it. -/
def lsExec (m exec special : BitVec 32) (both only : Char) : Char :=
  if m &&& special ≠ 0 then letter m exec both only else letter m exec 'x' '-'

/-- The mode as `ls` prints it. -/
def lsMode (m : BitVec 32) : List Char :=
  let t :=
    if isType m sIfdir then 'd'
    else if isType m sIfchr then 'c'
    else if isType m sIfblk then 'b'
    else if isType m sIfreg then '-'
    else if isType m sIfifo then 'p'
    else if isType m sIflnk then 'l'
    else if isType m sIfsock then 's'
    else '?'
  [t, letter m sIrusr 'r' '-', letter m sIwusr 'w' '-', lsExec m sIxusr sIsuid 's' 'S',
    letter m sIrgrp 'r' '-', letter m sIwgrp 'w' '-', lsExec m sIxgrp sIsgid 's' 'S',
    letter m sIroth 'r' '-', letter m sIwoth 'w' '-', lsExec m sIxoth sIsvtx 't' 'T']

variable {m m' : BitVec 32}

/-- The letter of a file type differs only for a FIFO, which has one type. -/
theorem printMode_type : (printMode m).head? = (lsMode m).head? ↔ ¬ isType m sIfifo := by
  simp only [printMode, lsMode, List.head?_cons, Option.some.injEq]
  by_cases hfifo : isType m sIfifo
  · have hother : ∀ type, type ≠ sIfifo → ¬ isType m type := fun type hne h => hne (h.symm.trans hfifo)
    rw [if_neg (hother sIfdir (by decide)), if_neg (hother sIfchr (by decide)), if_neg (hother sIfblk (by decide)),
      if_neg (hother sIfreg (by decide)), if_pos hfifo, if_neg (hother sIfdir (by decide)), if_neg (hother sIfchr (by decide)),
      if_neg (hother sIfblk (by decide)), if_neg (hother sIfreg (by decide)), if_pos hfifo]
    simp [hfifo]
  · simp [hfifo]

/-- The last value of `ux` and the letter of the owner. -/
theorem owner_letter : letter m sIsvtx 't' (letter m sIxoth 'x' '-') = lsExec m sIxusr sIsuid 's' 'S' ↔
    m &&& sIsuid = 0 ∧ m &&& sIsvtx = 0 ∧ (m &&& sIxusr = 0 ↔ m &&& sIxoth = 0) := by
  by_cases huid : m &&& sIsuid = 0 <;> by_cases hvtx : m &&& sIsvtx = 0 <;> by_cases hu : m &&& sIxusr = 0 <;>
    by_cases ho : m &&& sIxoth = 0 <;>
    simp only [lsExec, letter, ne_eq, huid, hvtx, hu, ho, not_true_eq_false, not_false_eq_true, if_true, if_false] <;> decide

/-- A letter without its special bit. -/
theorem exec_letter (exec special : BitVec 32) (both only : Char) (h1 : both ≠ 'x') (h2 : only ≠ '-') :
    letter m exec 'x' '-' = lsExec m exec special both only ↔ m &&& special = 0 := by
  by_cases hs : m &&& special = 0 <;> by_cases he : m &&& exec = 0 <;>
    simp only [lsExec, letter, ne_eq, hs, he, not_true_eq_false, not_false_eq_true, if_true, if_false, Ne.symm h1, Ne.symm h2]

/-- The mode is printed as `ls` prints it exactly when the file is no FIFO and no special bit is set, and the owner may execute the
file if and only if the others may. -/
theorem printMode_eq_lsMode_iff (m : BitVec 32) : printMode m = lsMode m ↔
    ¬ isType m sIfifo ∧ m &&& sIsuid = 0 ∧ m &&& sIsgid = 0 ∧ m &&& sIsvtx = 0 ∧ (m &&& sIxusr = 0 ↔ m &&& sIxoth = 0) := by
  have htype := printMode_type (m := m)
  have howner := owner_letter (m := m)
  have hgroup := exec_letter (m := m) sIxgrp sIsgid 's' 'S' (by decide) (by decide)
  have hothers := exec_letter (m := m) sIxoth sIsvtx 't' 'T' (by decide) (by decide)
  simp only [printMode, lsMode, List.head?_cons, Option.some.injEq] at htype
  simp only [printMode, lsMode, List.cons.injEq, true_and, and_true]
  rw [htype, howner, hgroup, hothers]
  constructor
  · rintro ⟨hfifo, ⟨huid, hvtx, hx⟩, hgid, -⟩
    exact ⟨hfifo, huid, hgid, hvtx, hx⟩
  · rintro ⟨hfifo, huid, hgid, hvtx, hx⟩
    exact ⟨hfifo, ⟨huid, hvtx, hx⟩, hgid, hvtx⟩

/-- A bit under a mask. -/
theorem and_of_mask {mask : BitVec 32} (h : m &&& mask = m' &&& mask) (bit : BitVec 32) (hbit : mask &&& bit = bit) :
    m &&& bit = m' &&& bit := by
  rw [← hbit, ← BitVec.and_assoc, h, BitVec.and_assoc]

/-- The bits that are computed and not printed: set-uid, set-gid, and the owner's execute bit. -/
def hiddenBits : BitVec 32 := sIsuid ||| sIsgid ||| sIxusr

/-- Files that differ in these bits only are printed alike. -/
theorem printMode_hidden (h : m &&& ~~~ hiddenBits = m' &&& ~~~ hiddenBits) : printMode m = printMode m' := by
  have hbit := and_of_mask h
  have htype : ∀ type, isType m type ↔ isType m' type := by
    intro type
    unfold isType
    rw [hbit sIfmt (by decide)]
  have hletter : ∀ bit yes no, ~~~ hiddenBits &&& bit = bit → letter m bit yes no = letter m' bit yes no := by
    intro bit yes no hb
    unfold letter
    rw [hbit bit hb]
  simp only [printMode, htype, hletter sIrusr _ _ (by decide), hletter sIwusr _ _ (by decide), hletter sIrgrp _ _ (by decide),
    hletter sIwgrp _ _ (by decide), hletter sIxgrp _ _ (by decide), hletter sIroth _ _ (by decide),
    hletter sIwoth _ _ (by decide), hletter sIxoth _ _ (by decide), hletter sIsvtx _ _ (by decide)]

/-- For every mode: it is printed as `ls` prints it exactly when the file is no FIFO, no special bit is set, and the owner may execute
the file if and only if the others may; and whoever reads the listing cannot tell the hidden bits. -/
theorem mode_column : (∀ m, printMode m = lsMode m ↔
      ¬ isType m sIfifo ∧ m &&& sIsuid = 0 ∧ m &&& sIsgid = 0 ∧ m &&& sIsvtx = 0 ∧ (m &&& sIxusr = 0 ↔ m &&& sIxoth = 0)) ∧
    ∀ m m', m &&& ~~~ hiddenBits = m' &&& ~~~ hiddenBits → printMode m = printMode m' :=
  ⟨printMode_eq_lsMode_iff, fun _ _ h => printMode_hidden h⟩

end OsLabs.Listdir
