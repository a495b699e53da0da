import OsLabs.Lib.Count
import OsLabs.Lib.Sys
import Mathlib.Data.Fintype.EquivFin

/-!
# The dining philosophers of `philosophers.c`

`n` philosophers in a ring take a token from `footman`, then the right fork and the left fork, and give the token back before the
forks. Each operation on a semaphore is one step. `step_effect` says once what a step does to the semaphores: the forks and the token
that a philosopher holds, added to the semaphores, stay the same.

So each fork is free or has one holder (`forks_eq`), and neighbours never eat together. The token is returned first, so that all
philosophers can hold forks; but a philosopher that waits for its left fork had a token when it took the right one. As there are
`n - 1` tokens, when all philosophers wait somebody waits for a token, and then its neighbour has both forks within reach
(`not_all_blocked`).
-/

namespace OsLabs.Philosophers

/-- What a philosopher does next. -/
inductive Place where
  | think | waitFootman | waitRight | waitLeft | eat | postFootman | postRight | postLeft
  deriving DecidableEq

/-- Between `Sem_wait` and `Sem_post` of `footman`. -/
def Place.token : Place → Bool
  | .waitRight | .waitLeft | .eat | .postFootman => true
  | _ => false

/-- Between `Sem_wait` and `Sem_post` of the right fork. -/
def Place.holdsRight : Place → Bool
  | .waitLeft | .eat | .postFootman | .postRight => true
  | _ => false

/-- Between `Sem_wait` and `Sem_post` of the left fork. -/
def Place.holdsLeft : Place → Bool
  | .eat | .postFootman | .postRight | .postLeft => true
  | _ => false

/-- Between the last `Sem_wait` and the first `Sem_post` of the forks. -/
def Place.dines : Place → Bool
  | .eat | .postFootman | .postRight => true
  | _ => false

/-- The semaphores and the places of the philosophers. -/
structure State (n : Nat) where
  footman : Nat
  forks : Fin n → Nat
  pc : Fin n → Place

variable {n : Nat}

/-- `left`: the number of the left fork of philosopher `i`. The right fork has its own number. -/
def leftOf (i : Fin n) : Fin n := ⟨if i.val = 0 then n - 1 else i.val - 1, by split <;> omega⟩

/-- Philosopher `i` goes to `c`. -/
def State.goto (s : State n) (i : Fin n) (c : Place) : State n := { s with pc := Function.update s.pc i c }

/-- The fork `f` is taken. -/
def State.take (s : State n) (f : Fin n) : State n := { s with forks := Function.update s.forks f (s.forks f - 1) }

/-- The fork `f` is put back. -/
def State.put (s : State n) (f : Fin n) : State n := { s with forks := Function.update s.forks f (s.forks f + 1) }

/-- `philosopher`: a `Sem_wait` is a step only when the semaphore is positive. -/
inductive philosopher : State n → Fin n → State n → Prop where
  | think (s : State n) (i : Fin n) (h : s.pc i = .think) : philosopher s i (s.goto i .waitFootman)
  | waitFootman (s : State n) (i : Fin n) (h : s.pc i = .waitFootman) (hp : 0 < s.footman) :
      philosopher s i { s.goto i .waitRight with footman := s.footman - 1 }
  | waitRight (s : State n) (i : Fin n) (h : s.pc i = .waitRight) (hp : 0 < s.forks i) :
      philosopher s i ((s.take i).goto i .waitLeft)
  | waitLeft (s : State n) (i : Fin n) (h : s.pc i = .waitLeft) (hp : 0 < s.forks (leftOf i)) :
      philosopher s i ((s.take (leftOf i)).goto i .eat)
  | eat (s : State n) (i : Fin n) (h : s.pc i = .eat) : philosopher s i (s.goto i .postFootman)
  | postFootman (s : State n) (i : Fin n) (h : s.pc i = .postFootman) :
      philosopher s i { s.goto i .postRight with footman := s.footman + 1 }
  | postRight (s : State n) (i : Fin n) (h : s.pc i = .postRight) : philosopher s i ((s.put i).goto i .postLeft)
  | postLeft (s : State n) (i : Fin n) (h : s.pc i = .postLeft) : philosopher s i ((s.put (leftOf i)).goto i .think)

/-- `main`: `n - 1` tokens and `n` forks, and all philosophers think. -/
def main (n : Nat) : State n where
  footman := n - 1
  forks _ := 1
  pc _ := .think

/-- `n` philosophers. -/
def table (n : Nat) : Sys (State n) (Fin n) where
  init s := s = main n
  step := philosopher

/-- Philosopher `i` holds the fork `f`, as its right or as its left one. -/
def Holds (s : State n) (i f : Fin n) : Prop :=
  (i = f ∧ (s.pc i).holdsRight = true) ∨ (leftOf i = f ∧ (s.pc i).holdsLeft = true)

instance (s : State n) (i f : Fin n) : Decidable (Holds s i f) := inferInstanceAs (Decidable (_ ∨ _))

/-- The number of philosophers that hold the fork `f`. -/
def holders (s : State n) (f : Fin n) : Nat := (Finset.univ.filter fun i => Holds s i f).card

/-- Philosopher `i` waits for a semaphore that is zero. -/
def Blocked (s : State n) (i : Fin n) : Prop :=
  (s.pc i = .waitFootman ∧ s.footman = 0) ∨ (s.pc i = .waitRight ∧ s.forks i = 0) ∨
    (s.pc i = .waitLeft ∧ s.forks (leftOf i) = 0)

/-! ## The ring -/

/-- Different philosophers have different left forks. -/
theorem leftOf_injective : Function.Injective (leftOf (n := n)) := by
  intro i j h
  have h' : (leftOf i).val = (leftOf j).val := by rw [h]
  simp only [leftOf] at h'
  apply Fin.ext
  split at h' <;> split at h' <;> omega

/-- Each fork is somebody's left fork. -/
theorem exists_leftOf (f : Fin n) : ∃ i, leftOf i = f := Finite.surjective_of_injective leftOf_injective f

/-- With two philosophers or more, the two forks of a philosopher are different. -/
theorem leftOf_ne (hn : 2 ≤ n) (i : Fin n) : leftOf i ≠ i := by
  intro h
  have h' : (leftOf i).val = i.val := by rw [h]
  simp only [leftOf] at h'
  split at h' <;> omega

/-! ## What a step does -/

/-- What a philosopher at the place `c` holds of the fork `f`. -/
def held (i f : Fin n) (c : Place) : Nat :=
  (if f = i then c.holdsRight.toNat else 0) + (if f = leftOf i then c.holdsLeft.toNat else 0)

/-- The fork `f` is taken by a philosopher that then holds it, and the other forks stay. -/
theorem take_add {s : State n} {f : Fin n} (hp : 0 < s.forks f) (g : Fin n) :
    (s.take f).forks g + (if g = f then 1 else 0) = s.forks g := by
  by_cases h : g = f
  · subst h
    simp [State.take]
    omega
  · simp [State.take, h]

/-- The fork `f` is put back, and the other forks stay. -/
theorem put_eq (s : State n) (f g : Fin n) : (s.put f).forks g = s.forks g + (if g = f then 1 else 0) := by
  by_cases h : g = f
  · subst h
    simp [State.put]
  · simp [State.put, h]

/-- A step moves one philosopher; the token and the forks that it holds, added to the semaphores, stay the same. -/
theorem step_effect {s s' : State n} {i : Fin n} (h : philosopher s i s') :
    ∃ c, s'.pc = Function.update s.pc i c ∧ s'.footman + c.token.toNat = s.footman + (s.pc i).token.toNat ∧
      ∀ f, s'.forks f + held i f c = s.forks f + held i f (s.pc i) := by
  cases h with
  | think h =>
    refine ⟨_, rfl, ?_, fun f => ?_⟩
    · simp [State.goto, h, Place.token]
    · simp [State.goto, h, held, Place.holdsRight, Place.holdsLeft]
  | waitFootman h hp =>
    refine ⟨_, rfl, ?_, fun f => ?_⟩
    · simp [h, Place.token]
      omega
    · simp [State.goto, h, held, Place.holdsRight, Place.holdsLeft]
  | waitRight h hp =>
    refine ⟨_, rfl, ?_, fun f => ?_⟩
    · simp [State.goto, State.take, h, Place.token]
    · have := take_add hp f
      simpa [State.goto, h, held, Place.holdsRight, Place.holdsLeft] using this
  | waitLeft h hp =>
    refine ⟨_, rfl, ?_, fun f => ?_⟩
    · simp [State.goto, State.take, h, Place.token]
    · have := take_add hp f
      simp [State.goto, h, held, Place.holdsRight, Place.holdsLeft]
      omega
  | eat h =>
    refine ⟨_, rfl, ?_, fun f => ?_⟩
    · simp [State.goto, h, Place.token]
    · simp [State.goto, h, held, Place.holdsRight, Place.holdsLeft]
  | postFootman h =>
    refine ⟨_, rfl, ?_, fun f => ?_⟩
    · simp [h, Place.token]
    · simp [State.goto, h, held, Place.holdsRight, Place.holdsLeft]
  | postRight h =>
    refine ⟨_, rfl, ?_, fun f => ?_⟩
    · simp [State.goto, State.put, h, Place.token]
    · have := put_eq s i f
      simp [State.goto, h, held, Place.holdsRight, Place.holdsLeft]
      omega
  | postLeft h =>
    refine ⟨_, rfl, ?_, fun f => ?_⟩
    · simp [State.goto, State.put, h, Place.token]
    · have := put_eq s (leftOf i) f
      simpa [State.goto, h, held, Place.holdsRight, Place.holdsLeft] using this

/-! ## The invariant -/

/-- The tokens are `n - 1` in all, and each fork is free or held once. -/
structure Inv (s : State n) : Prop where
  tokens : s.footman + count Place.token s.pc = n - 1
  forks : ∀ i, s.forks (leftOf i) + (s.pc (leftOf i)).holdsRight.toNat + (s.pc i).holdsLeft.toNat = 1

/-- Every step keeps the invariant. -/
theorem inv_step (hn : 2 ≤ n) {s s' : State n} {i : Fin n} (hI : Inv s) (h : philosopher s i s') : Inv s' := by
  obtain ⟨c, hpc, htok, hforks⟩ := step_effect h
  refine ⟨?_, ?_⟩
  · have h1 := count_update Place.token s.pc i c
    have h2 := hI.tokens
    rw [hpc]
    omega
  · intro j
    have hj := hI.forks j
    have hf := hforks (leftOf j)
    rw [hpc]
    by_cases hji : j = i
    · -- The fork is the left one of the philosopher that moves.
      subst hji
      rw [held, held, if_neg (leftOf_ne hn j), if_neg (leftOf_ne hn j), if_pos rfl, if_pos rfl] at hf
      rw [Function.update_self, Function.update_of_ne (leftOf_ne hn j)]
      omega
    · have hl : leftOf j ≠ leftOf i := fun e => hji (leftOf_injective e)
      rw [held, held, if_neg hl, if_neg hl] at hf
      rw [Function.update_of_ne hji]
      by_cases hr : leftOf j = i
      · -- It is the right one.
        rw [if_pos hr, if_pos hr] at hf
        rw [hr] at hf hj ⊢
        rw [Function.update_self]
        omega
      · rw [if_neg hr, if_neg hr] at hf
        rw [Function.update_of_ne hr]
        omega

/-- The invariant holds initially. -/
theorem inv_init (n : Nat) : Inv (main n) := by
  refine ⟨?_, fun i => rfl⟩
  have h0 : count Place.token (main n).pc = 0 := count_eq_zero_iff.mpr fun i => rfl
  rw [h0]
  rfl

/-- The invariant holds in every reachable state. -/
theorem inv_reach (hn : 2 ≤ n) {s : State n} (h : (table n).Reach s) : Inv s := by
  have hind : (table n).Inductive Inv := by
    refine ⟨?_, fun _ _ _ hI hs => inv_step hn hI hs⟩
    intro s hs
    rw [hs]
    exact inv_init n
  exact hind.reach h

/-! ## Forks and their holders -/

/-- A fork is held as the right one by the philosopher of its number, and as the left one by the neighbour. -/
theorem holders_eq (hn : 2 ≤ n) (s : State n) (i : Fin n) :
    holders s (leftOf i) = (s.pc (leftOf i)).holdsRight.toNat + (s.pc i).holdsLeft.toNat := by
  have hset : (Finset.univ.filter fun j => Holds s j (leftOf i)) =
      (if (s.pc (leftOf i)).holdsRight = true then {leftOf i} else ∅) ∪ (if (s.pc i).holdsLeft = true then {i} else ∅) := by
    ext j
    rw [Finset.mem_filter, Finset.mem_union]
    simp only [Finset.mem_univ, true_and, Holds]
    refine or_congr ?_ ?_
    · split
      · rename_i hr
        rw [Finset.mem_singleton]
        exact ⟨fun h => h.1, fun h => ⟨h, by rw [h]; exact hr⟩⟩
      · rename_i hr
        simp only [Finset.notMem_empty, iff_false]
        rintro ⟨rfl, h⟩
        exact hr h
    · split
      · rename_i hl
        rw [Finset.mem_singleton]
        exact ⟨fun h => leftOf_injective h.1, fun h => ⟨by rw [h], by rw [h]; exact hl⟩⟩
      · rename_i hl
        simp only [Finset.notMem_empty, iff_false]
        rintro ⟨h, hj⟩
        exact hl (leftOf_injective h ▸ hj)
  have hne := leftOf_ne hn i
  rw [holders, hset, Finset.card_union_of_disjoint]
  · cases (s.pc (leftOf i)).holdsRight <;> cases (s.pc i).holdsLeft <;> rfl
  · cases (s.pc (leftOf i)).holdsRight <;> cases (s.pc i).holdsLeft <;> simp [hne]

/-- A philosopher that dines holds both of its forks. -/
theorem Place.holds_of_dines {c : Place} (h : c.dines = true) : c.holdsRight = true ∧ c.holdsLeft = true := by
  cases c <;> first | exact ⟨rfl, rfl⟩ | cases h

/-- Each fork semaphore is one minus the number of holders. -/
theorem forks_eq (hn : 2 ≤ n) {s : State n} (hI : Inv s) (f : Fin n) : (s.forks f : Int) = 1 - holders s f := by
  obtain ⟨i, rfl⟩ := exists_leftOf f
  have h1 := hI.forks i
  have h2 := holders_eq hn s i
  omega

/-- Neighbours do not dine together: the fork between them has one holder. -/
theorem not_both_dine {s : State n} (hI : Inv s) (i : Fin n) :
    ¬ ((s.pc i).dines = true ∧ (s.pc (leftOf i)).dines = true) := by
  rintro ⟨h1, h2⟩
  have h := hI.forks i
  rw [(Place.holds_of_dines h1).2, (Place.holds_of_dines h2).1] at h
  simp at h

/-! ## Somebody can go on -/

/-- A blocked philosopher has no left fork, and a right fork only when it waits for the left one, which is in use. -/
theorem Blocked.place {s : State n} {i : Fin n} (h : Blocked s i) :
    (s.pc i).holdsLeft = false ∧
      ((s.pc i = .waitFootman ∧ s.footman = 0) ∨ (s.pc i = .waitRight ∧ s.forks i = 0) ∨
        (s.pc i = .waitLeft ∧ s.forks (leftOf i) = 0)) := by
  refine ⟨?_, h⟩
  rcases h with ⟨h, -⟩ | ⟨h, -⟩ | ⟨h, -⟩
  · rw [h]; rfl
  · rw [h]; rfl
  · rw [h]; rfl

/-- When all are blocked, a fork that nobody holds as the right one is free. -/
theorem fork_free {s : State n} (hI : Inv s) (hb : ∀ i, Blocked s i) {f : Fin n} (hf : (s.pc f).holdsRight = false) :
    s.forks f = 1 := by
  obtain ⟨i, rfl⟩ := exists_leftOf f
  have h := hI.forks i
  rw [hf, (hb i).place.1] at h
  simpa using h

/-- When all are blocked, those with a token wait for their left fork. -/
theorem waitLeft_of_blocked {s : State n} (hI : Inv s) (hb : ∀ i, Blocked s i) (i : Fin n) (hi : s.pc i ≠ .waitFootman) :
    s.pc i = .waitLeft ∧ s.forks (leftOf i) = 0 := by
  rcases hb i with ⟨h, -⟩ | ⟨h, h0⟩ | h
  · exact absurd h hi
  · have h1 := fork_free hI hb (f := i) (by rw [h]; rfl)
    omega
  · exact h

/-- Not all philosophers are blocked. -/
theorem not_all_blocked (hn : 2 ≤ n) {s : State n} (hI : Inv s) : ¬ ∀ i, Blocked s i := by
  intro hb
  -- There are not enough tokens for all to wait for their left forks.
  have hq : ∃ q, s.pc q = .waitFootman := by
    by_contra hno
    have hall : ∀ i, (s.pc i).token = true := by
      intro i
      rw [(waitLeft_of_blocked hI hb i fun e => hno ⟨i, e⟩).1]
      rfl
    have h1 := count_eq_card_iff.mpr hall
    have h2 := hI.tokens
    rw [h1, Fintype.card_fin] at h2
    omega
  obtain ⟨q, hq⟩ := hq
  have hq0 : s.footman = 0 := by
    rcases hb q with h | h | h
    · exact h.2
    · rw [hq] at h
      cases h.1
    · rw [hq] at h
      cases h.1
  obtain ⟨p, hp⟩ := exists_leftOf q
  have hpq : p ≠ q := by
    rintro rfl
    exact leftOf_ne hn p hp
  have hfree := fork_free hI hb (f := q) (by rw [hq]; rfl)
  by_cases hpf : s.pc p = .waitFootman
  · -- Two wait for a token: then some token is free.
    have hlt : count Place.token s.pc < n - 1 := by
      have hsub : (Finset.univ.filter fun i => (s.pc i).token = true) ⊆ (Finset.univ.erase p).erase q := by
        intro i hi
        have hi' := (Finset.mem_filter.mp hi).2
        refine Finset.mem_erase.mpr ⟨?_, Finset.mem_erase.mpr ⟨?_, Finset.mem_univ i⟩⟩
        · rintro rfl
          rw [hq] at hi'
          cases hi'
        · rintro rfl
          rw [hpf] at hi'
          cases hi'
      have h1 := Finset.card_le_card hsub
      rw [Finset.card_erase_of_mem (Finset.mem_erase.mpr ⟨hpq.symm, Finset.mem_univ q⟩),
        Finset.card_erase_of_mem (Finset.mem_univ p), Finset.card_univ, Fintype.card_fin] at h1
      have h2 : count Place.token s.pc ≤ n - 1 - 1 := h1
      omega
    have h2 := hI.tokens
    omega
  · -- The neighbour waits for the fork that nobody holds.
    have h1 := (waitLeft_of_blocked hI hb p hpf).2
    rw [hp] at h1
    omega

/-- In every reachable state no two neighbours dine, each fork semaphore is one minus the number of its holders, and not every
philosopher is blocked. -/
theorem dining (n : Nat) (hn : 2 ≤ n) {s : State n} (h : (table n).Reach s) :
    (∀ i, ¬ ((s.pc i).dines = true ∧ (s.pc (leftOf i)).dines = true)) ∧
      (∀ f, (s.forks f : Int) = 1 - holders s f) ∧ ¬ ∀ i, Blocked s i := by
  have hI := inv_reach hn h
  exact ⟨not_both_dine hI, forks_eq hn hI, not_all_blocked hn hI⟩

/-- Three philosophers: the first eats with two forks, its neighbour has the third and waits for one of them, and the last one waits for
a token. -/
theorem dining_three : ∃ s : State 3, (table 3).Reach s ∧ s.pc 0 = .eat ∧ s.pc 1 = .waitLeft ∧ s.pc 2 = .waitFootman ∧
    (∀ f, (s.forks f : Int) = 1 - holders s f) ∧ ¬ ∀ i, Blocked s i := by
  have h0 : (table 3).Reach (main 3) := Sys.Reach.init rfl
  have h1 := Sys.Reach.step 0 h0 (philosopher.think _ 0 rfl)
  have h2 := Sys.Reach.step 1 h1 (philosopher.think _ 1 rfl)
  have h3 := Sys.Reach.step 2 h2 (philosopher.think _ 2 rfl)
  have h4 := Sys.Reach.step 0 h3 (philosopher.waitFootman _ 0 rfl (by decide))
  have h5 := Sys.Reach.step 1 h4 (philosopher.waitFootman _ 1 rfl (by decide))
  have h6 := Sys.Reach.step 0 h5 (philosopher.waitRight _ 0 rfl (by decide))
  have h7 := Sys.Reach.step 1 h6 (philosopher.waitRight _ 1 rfl (by decide))
  have h8 := Sys.Reach.step 0 h7 (philosopher.waitLeft _ 0 rfl (by decide))
  exact ⟨_, h8, rfl, rfl, rfl, (dining 3 (by decide) h8).2⟩

end OsLabs.Philosophers
