import OsLabs.Queens.Model
import Mathlib.Data.List.Induction

/-!
# The tree of the processes

A process is known by its board: no two processes have the same one, and the children of a process have its board with one more row,
for the columns it has forked (`ProcOk.kids`). So the processes of a run form the tree of all choices, as far as it is forked, and when
all are gone every choice was made (`Tree.complete`). Only `Fork` changes the boards; for the other steps `Tree.move` asks for the one
process that moves.
-/

namespace OsLabs.Queens

variable {size : Nat}

/-- The number of columns that a process has forked children for. -/
def Place.forked (size : Nat) : Place → Nat
  | .forking i _ => i
  | _ => size

/-- The processes that `ndselect` has in its array. -/
def Place.children : Place → List Nat
  | .forking _ children => children
  | .waiting _ children => children
  | _ => []

/-- Which places there are in `ndselect`, and which after it: `len` rows of the board are set. -/
def Place.Level (size len : Nat) : Place → Prop
  | .forking i children => len < size ∧ i ≤ size ∧ children.length = i
  | .waiting _ children => len < size ∧ children.length = size
  | .check | .lock | .print _ => len = size
  | .closing | .exited => True

/-- What holds of a process, where the boards of all are `B`. -/
structure ProcOk (size : Nat) (B : Nat → Option (List Nat)) (P : Proc) : Prop where
  kids : P.board.length < size → ∀ c, c < P.pc.forked size ↔ ∃ q, B q = some (P.board ++ [c])
  listed : ∀ c ∈ P.pc.children, ∃ b, B c = some b ∧ P.board.length < b.length
  level : P.pc.Level size P.board.length

/-- The processes are the choices that were made, each once. -/
structure Tree (size : Nat) (s : State) : Prop where
  fresh : ∀ p, s.next ≤ p → s.procs p = none
  root : ∃ p, s.boardOf p = some []
  valid : ∀ p b, s.boardOf p = some b → b.length ≤ size ∧ ∀ x ∈ b, x < size
  inj : ∀ p q b, s.boardOf p = some b → s.boardOf q = some b → p = q
  parent : ∀ q b c, s.boardOf q = some (b ++ [c]) → ∃ p, s.boardOf p = some b
  procs : ∀ p P, s.procs p = some P → ProcOk size s.boardOf P

/-! ## Steps of one process -/

theorem boardOf_some {s : State} {p : Nat} {P : Proc} (h : s.procs p = some P) : s.boardOf p = some P.board := by
  rw [State.boardOf, h]
  rfl

/-- A process with a board. -/
theorem exists_of_boardOf {s : State} {p : Nat} {b : List Nat} (h : s.boardOf p = some b) :
    ∃ P, s.procs p = some P ∧ P.board = b := Option.map_eq_some_iff.mp h

/-- A process that keeps its board does not change the boards. -/
theorem boardOf_move {s s' : State} {p : Nat} {P P' : Proc} (h : s.procs p = some P)
    (hs : s'.procs = Function.update s.procs p (some P')) (hb : P'.board = P.board) : s'.boardOf = s.boardOf := by
  funext q
  rw [State.boardOf, State.boardOf, hs]
  by_cases hq : q = p
  · rw [hq, Function.update_self, h, Option.map_some, Option.map_some, hb]
  · rw [Function.update_of_ne hq]

/-- A step of one process that forks nothing. -/
theorem Tree.move {s s' : State} {p : Nat} {P P' : Proc} (hT : Tree size s) (h : s.procs p = some P)
    (hs : s'.procs = Function.update s.procs p (some P')) (hn : s'.next = s.next) (hb : P'.board = P.board)
    (hf : P'.board.length < size → P'.pc.forked size = P.pc.forked size) (hc : ∀ c ∈ P'.pc.children, c ∈ P.pc.children)
    (hl : P'.pc.Level size P'.board.length) : Tree size s' := by
  have hB := boardOf_move h hs hb
  have hlt : p < s.next := by
    by_contra hge
    rw [hT.fresh p (Nat.not_lt.mp hge)] at h
    cases h
  obtain ⟨hkids, hlisted, -⟩ := hT.procs p P h
  refine ⟨fun q hq => ?_, by rw [hB]; exact hT.root, by rw [hB]; exact hT.valid, by rw [hB]; exact hT.inj,
    by rw [hB]; exact hT.parent, fun q Q hQ => ?_⟩
  · rw [hs, Function.update_of_ne (by omega)]
    exact hT.fresh q (hn ▸ hq)
  · rw [hB]
    rw [hs] at hQ
    by_cases hq : q = p
    · rw [hq, Function.update_self] at hQ
      obtain rfl := Option.some.inj hQ
      refine ⟨fun hlen c => ?_, fun c hcm => ?_, hl⟩
      · rw [hf hlen, hb]
        exact hkids (hb ▸ hlen) c
      · rw [hb]
        exact hlisted c (hc c hcm)
    · rw [Function.update_of_ne hq] at hQ
      exact hT.procs q Q hQ

/-! ## `Fork` -/

/-- The state after process `p` has forked the child for column `i`. -/
def State.fork (size : Nat) (s : State) (p : Nat) (P : Proc) (i : Nat) (children : List Nat) : State :=
  { (s.set p { P with pc := .forking (i + 1) (children ++ [s.next]) }).set s.next (enter size (P.board ++ [i])) with
    next := s.next + 1 }

/-- The boards after a `Fork`. -/
theorem boardOf_fork {s : State} {p : Nat} {P : Proc} {i : Nat} {children : List Nat} (hT : Tree size s)
    (h : s.procs p = some P) (q : Nat) :
    (s.fork size p P i children).boardOf q = if q = s.next then some (P.board ++ [i]) else s.boardOf q := by
  have hne : p ≠ s.next := by
    rintro rfl
    rw [hT.fresh _ (Nat.le_refl _)] at h
    cases h
  by_cases hq : q = s.next
  · rw [if_pos hq, hq]
    simp [State.boardOf, State.fork, State.set, enter]
  · rw [if_neg hq]
    by_cases hp : q = p
    · subst hp
      simp [State.boardOf, State.fork, State.set, hne, h]
    · simp [State.boardOf, State.fork, State.set, hq, hp]

/-- What a process says of the others is true as more processes come, if none of them is a new child of it. -/
theorem ProcOk.grow {B B' : Nat → Option (List Nat)} {Q : Proc} (hQ : ProcOk size B Q)
    (hle : ∀ q b, B q = some b → B' q = some b)
    (hnew : ∀ q c, B' q = some (Q.board ++ [c]) → ∃ q', B q' = some (Q.board ++ [c])) : ProcOk size B' Q := by
  obtain ⟨hkids, hlisted, hlevel⟩ := hQ
  refine ⟨fun hlen c => ?_, fun c hc => ?_, hlevel⟩
  · rw [hkids hlen c]
    constructor
    · rintro ⟨q, hq⟩
      exact ⟨q, hle q _ hq⟩
    · rintro ⟨q, hq⟩
      exact hnew q c hq
  · obtain ⟨b, hb, hlt⟩ := hlisted c hc
    exact ⟨b, hle c b hb, hlt⟩

/-- `Fork` makes one more choice. -/
theorem Tree.fork {s : State} {p : Nat} {P : Proc} {i : Nat} {children : List Nat} (hT : Tree size s)
    (h : s.procs p = some P) (hpc : P.pc = .forking i children) (hi : i < size) : Tree size (s.fork size p P i children) := by
  have hB : ∀ q, (s.fork size p P i children).boardOf q = if q = s.next then some (P.board ++ [i]) else s.boardOf q :=
    boardOf_fork hT h
  have hP := hT.procs p P h
  have hbP := boardOf_some h
  have hlevel := hP.level
  rw [hpc] at hlevel
  obtain ⟨hlen, -, hch⟩ := hlevel
  have hkids := hP.kids hlen
  rw [hpc] at hkids
  -- The new board is not there yet: column `i` was not forked.
  have hnew : ∀ q, s.boardOf q ≠ some (P.board ++ [i]) := by
    intro q hq
    exact absurd ((hkids i).mpr ⟨q, hq⟩) (Nat.lt_irrefl i)
  have hfree : s.boardOf s.next = none := by
    rw [State.boardOf, hT.fresh _ (Nat.le_refl _)]
    rfl
  have hle : ∀ q b, s.boardOf q = some b → (s.fork size p P i children).boardOf q = some b := by
    intro q b hq
    rw [hB, if_neg, hq]
    rintro rfl
    rw [hfree] at hq
    cases hq
  have hself : (s.fork size p P i children).boardOf s.next = some (P.board ++ [i]) := by
    rw [hB, if_pos rfl]
  have hlong : ∀ q c, s.boardOf q ≠ some (P.board ++ [i] ++ [c]) := by
    intro q c hq
    obtain ⟨q', hq'⟩ := hT.parent q _ c hq
    exact hnew q' hq'
  refine ⟨fun q hq => ?_, ?_, fun q b hq => ?_, fun q q' b hq hq' => ?_, fun q b c hq => ?_, fun q Q hQ => ?_⟩
  · have hq' : s.next + 1 ≤ q := hq
    have hlt : p < s.next := by
      by_contra hge
      rw [hT.fresh p (Nat.not_lt.mp hge)] at h
      cases h
    have hold := hT.fresh q (by omega)
    simp only [State.fork, State.set]
    rw [Function.update_of_ne (by omega), Function.update_of_ne (by omega)]
    exact hold
  · obtain ⟨r, hr⟩ := hT.root
    exact ⟨r, hle r _ hr⟩
  · rw [hB] at hq
    split at hq
    · obtain rfl := Option.some.inj hq
      obtain ⟨-, hv⟩ := hT.valid p _ hbP
      refine ⟨?_, fun x hx => ?_⟩
      · rw [List.length_append, List.length_singleton]
        exact hlen
      · rcases List.mem_append.mp hx with hx | hx
        · exact hv x hx
        · rw [List.mem_singleton.mp hx]
          exact hi
    · exact hT.valid q b hq
  · rw [hB] at hq hq'
    split at hq
    · rename_i e
      split at hq'
      · rename_i e'
        rw [e, e']
      · rw [← hq] at hq'
        exact absurd hq' (hnew q')
    · split at hq'
      · rw [← hq'] at hq
        exact absurd hq (hnew q)
      · exact hT.inj q q' b hq hq'
  · rw [hB] at hq
    split at hq
    · obtain ⟨rfl, -⟩ := List.append_inj' (Option.some.inj hq) rfl
      exact ⟨p, hle p _ hbP⟩
    · obtain ⟨r, hr⟩ := hT.parent q b c hq
      exact ⟨r, hle r b hr⟩
  · have hQ' : Function.update (Function.update s.procs p (some { P with pc := .forking (i + 1) (children ++ [s.next]) })) s.next
        (some (enter size (P.board ++ [i]))) q = some Q := hQ
    by_cases hqn : q = s.next
    · -- The child has no children.
      rw [hqn, Function.update_self] at hQ'
      obtain rfl := Option.some.inj hQ'
      have hno : ∀ q c, (s.fork size p P i children).boardOf q ≠ some (P.board ++ [i] ++ [c]) := by
        intro q c hq
        rw [hB] at hq
        split at hq
        · have := congrArg List.length (Option.some.inj hq)
          simp at this
        · exact hlong q c hq
      refine ⟨fun hl c => ?_, fun c hc => ?_, ?_⟩
      · have hl' : (P.board ++ [i]).length < size := hl
        have hfk : (enter size (P.board ++ [i])).pc.forked size = 0 := by
          rw [enter, if_pos hl']
          rfl
        rw [hfk]
        constructor
        · intro hc
          exact absurd hc (Nat.not_lt_zero c)
        · rintro ⟨q, hq⟩
          exact absurd hq (hno q c)
      · unfold enter at hc
        split at hc
        · cases hc
        · cases hc
      · unfold enter
        dsimp only
        split
        · exact ⟨‹_›, Nat.zero_le _, rfl⟩
        · have hle' : (P.board ++ [i]).length ≤ size := by
            rw [List.length_append, List.length_singleton]
            exact hlen
          simp only [Place.Level]
          omega
    · rw [Function.update_of_ne hqn] at hQ'
      by_cases hqp : q = p
      · -- The parent has one more child.
        rw [hqp, Function.update_self] at hQ'
        obtain rfl := Option.some.inj hQ'
        refine ⟨fun hl c => ?_, fun c hc => ?_, ⟨hlen, hi, by rw [List.length_append, hch, List.length_singleton]⟩⟩
        · have hk := hkids c
          constructor
          · intro hc
            have hc' : c < i + 1 := hc
            by_cases hci : c = i
            · exact ⟨s.next, by rw [hci]; exact hself⟩
            · obtain ⟨q', hq'⟩ := hk.mp (show c < i by omega)
              exact ⟨q', hle q' _ hq'⟩
          · rintro ⟨q', hq'⟩
            rw [hB] at hq'
            split at hq'
            · have := (List.append_inj' (Option.some.inj hq') rfl).2
              obtain rfl : i = c := by simpa using this
              exact Nat.lt_succ_self i
            · exact Nat.lt_succ_of_lt (hk.mpr ⟨q', hq'⟩)
        · have hc' : c ∈ children ++ [s.next] := hc
          rcases List.mem_append.mp hc' with hc' | hc'
          · obtain ⟨b, hb, hlt⟩ := hP.listed c (by rw [hpc]; exact hc')
            exact ⟨b, hle c b hb, hlt⟩
          · rw [List.mem_singleton.mp hc']
            exact ⟨_, hself, by simp⟩
      · -- The others have nothing to do with it.
        rw [Function.update_of_ne hqp] at hQ'
        refine (hT.procs q Q hQ').grow hle fun q' c hq' => ?_
        rw [hB] at hq'
        split at hq'
        · have hb := (List.append_inj' (Option.some.inj hq') rfl).1
          exact absurd (hT.inj q p Q.board (boardOf_some hQ') (hb ▸ hbP)) hqp
        · exact ⟨q', hq'⟩

/-! ## All steps -/

/-- Every step keeps the tree. -/
theorem Tree.step {s s' : State} {a : Act} (hT : Tree size s) (hs : step size s a s') : Tree size s' := by
  cases hs with
  | fork p P i children h hpc hi => exact hT.fork h hpc hi
  | forked p P i children h hpc hi =>
    have hl := (hT.procs p P h).level
    rw [hpc] at hl
    have hi' : i = size := Nat.le_antisymm hl.2.1 (Nat.not_lt.mp hi)
    refine hT.move h rfl rfl rfl (fun _ => ?_) (fun c hc => ?_) ⟨hl.1, hl.2.2.trans hi'⟩
    · rw [hpc]
      exact hi'.symm
    · rw [hpc]
      exact hc
  | wait p P i children c C h hpc hi hc hC hx =>
    have hl := (hT.procs p P h).level
    rw [hpc] at hl
    refine hT.move h rfl rfl rfl (fun _ => by rw [hpc]; rfl) (fun c hc => ?_) hl
    rw [hpc]
    exact hc
  | waited p P i children h hpc hi =>
    exact hT.move h rfl rfl rfl (fun _ => by rw [hpc]; rfl) (fun c hc => by cases hc) trivial
  | check p P h hpc =>
    have hl := (hT.procs p P h).level
    rw [hpc] at hl
    have hl' : P.board.length = size := hl
    refine hT.move h rfl rfl rfl (fun hlt => absurd hl' (Nat.ne_of_lt hlt)) (fun c hc => ?_) ?_
    · split at hc
      · cases hc
      · cases hc
    · split
      · trivial
      · exact hl'
  | lock p P h hpc hf =>
    have hl := (hT.procs p P h).level
    rw [hpc] at hl
    exact hT.move h rfl rfl rfl (fun _ => by rw [hpc]; rfl) (fun c hc => by cases hc) hl
  | busy => exact hT
  | print p P piece rest h hpc =>
    have hl := (hT.procs p P h).level
    rw [hpc] at hl
    exact hT.move h rfl rfl rfl (fun _ => by rw [hpc]; rfl) (fun c hc => by cases hc) hl
  | unlock p P h hpc => exact hT.move h rfl rfl rfl (fun _ => by rw [hpc]; rfl) (fun c hc => by cases hc) trivial
  | close p P h hpc => exact hT.move h rfl rfl rfl (fun _ => by rw [hpc]; rfl) (fun c hc => by cases hc) trivial

/-- At first there is one process, with the empty board. -/
theorem tree_start (size : Nat) : Tree size (start size) := by
  have hB : ∀ q, (start size).boardOf q = if q = 0 then some [] else none := by
    intro q
    by_cases hq : q = 0
    · simp [State.boardOf, start, hq, enter]
    · simp [State.boardOf, start, hq]
  have hno : ∀ q b c, (start size).boardOf q ≠ some (b ++ [c]) := by
    intro q b c h
    rw [hB] at h
    split at h
    · simp at h
    · cases h
  refine ⟨fun p hp => ?_, ⟨0, by rw [hB]; rfl⟩, fun p b hp => ?_, fun p q b hp hq => ?_, fun q b c hq => absurd hq (hno q b c),
    fun p P hP => ?_⟩
  · have hp' : 1 ≤ p := hp
    have hne : p ≠ 0 := Nat.ne_of_gt hp'
    simp [start, hne]
  · rw [hB] at hp
    split at hp
    · obtain rfl := Option.some.inj hp
      exact ⟨Nat.zero_le _, fun x hx => by cases hx⟩
    · cases hp
  · rw [hB] at hp hq
    split at hp
    · split at hq
      · rename_i e e'
        rw [e, e']
      · cases hq
    · cases hp
  · have hb := boardOf_some hP
    rw [hB] at hb
    have hp0 : p = 0 := by
      by_contra hne
      rw [if_neg hne] at hb
      cases hb
    subst hp0
    obtain rfl : enter size [] = P := Option.some.inj hP
    refine ⟨fun hl c => ?_, fun c hc => ?_, ?_⟩
    · have hl' : ([] : List Nat).length < size := hl
      have hf : (enter size []).pc.forked size = 0 := by
        rw [enter, if_pos hl']
        rfl
      rw [hf]
      constructor
      · intro hc
        exact absurd hc (Nat.not_lt_zero c)
      · rintro ⟨q, hq⟩
        exact absurd hq (hno q _ c)
    · unfold enter at hc
      split at hc
      · cases hc
      · cases hc
    · unfold enter
      dsimp only
      split
      · exact ⟨‹_›, Nat.zero_le _, rfl⟩
      · simp only [Place.Level]
        rename_i hnl
        exact Nat.le_antisymm (Nat.zero_le _) (Nat.not_lt.mp hnl)

/-! ## All choices -/

/-- When all processes are gone, every board that obeys the columns was made, by induction on its rows. -/
theorem Tree.complete {s : State} (hT : Tree size s) (hF : Finished s) (b : List Nat) (hlen : b.length ≤ size)
    (hb : ∀ x ∈ b, x < size) : ∃ p, s.boardOf p = some b := by
  induction b using List.reverseRecOn with
  | nil => exact hT.root
  | append_singleton b c ih =>
    rw [List.length_append, List.length_singleton] at hlen
    obtain ⟨p, hp⟩ := ih (by omega) fun x hx => hb x (List.mem_append_left _ hx)
    obtain ⟨P, hP, rfl⟩ := exists_of_boardOf hp
    refine ((hT.procs p P hP).kids hlen c).mp ?_
    rw [hF p P hP]
    exact hb c (List.mem_append_right _ (List.mem_singleton_self c))

end OsLabs.Queens
