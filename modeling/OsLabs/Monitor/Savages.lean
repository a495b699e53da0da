import OsLabs.Lib.CondVar
import OsLabs.Lib.Sys
import Mathlib.Tactic.Ring

/-!
# The savages and the cook of `savages.c`

`n` savages eat from one pot, one cook fills it with `M` meals. The counter `meals` lies in shared memory; a savage reads and writes it
under `mutex`, the cook writes it without. Each operation on a semaphore is one step, and `shared->meals--` is two, the load and the
store, so that a write of the cook could fall between them.

It never does: a savage that finds the pot empty posts `empty` and waits on `full`, with `mutex`, and the two semaphores and the cook
hold one permit between them exactly while a savage waits there (`Inv.handshake`). So the cook writes only then, and all savages but
that one are outside (`Inv.inside`). The same permit shows that somebody can always go on, unless there is no savage.
-/

namespace OsLabs.Savages

/-- What a savage does next: `sem_wait(mutex)`, the test, `sem_post(empty)`, `sem_wait(full)`, the load of `meals`, its store with what
was loaded, `sem_post(mutex)`, `usleep`. -/
inductive Place where
  | hungry | test | call | waitFull | load | store (loaded : Int) | leave | digest
  deriving DecidableEq

/-- Between `sem_wait` and `sem_post` of `mutex`. -/
def Place.inside : Place → Bool
  | .hungry | .digest => false
  | _ => true

/-- What the cook does next: `sem_wait(empty)`, the store of `M` in `meals`, `sem_post(full)`. -/
inductive CookPlace where
  | waitEmpty | cooking | postFull
  deriving DecidableEq

/-- `shared`, the places of the processes, and how many meals were eaten and pots cooked. -/
structure State (n : Nat) where
  meals : Int
  mutex : Nat
  empty : Nat
  full : Nat
  pc : Fin n → Place
  cook : CookPlace
  eaten : Nat
  pots : Nat

variable {n : Nat}

/-- Savage `i` goes to `c`. -/
def State.goto (s : State n) (i : Fin n) (c : Place) : State n := { s with pc := Function.update s.pc i c }

/-- A step of savage `i`, or of the cook. -/
inductive Act (n : Nat) where
  | savage (i : Fin n)
  | cook

/-- `savage` and `cook`, with pots of `M` meals. A `sem_wait` is a step only when the semaphore is positive. -/
inductive step (M : Int) : State n → Act n → State n → Prop where
  | hungry (s : State n) (i : Fin n) (h : s.pc i = .hungry) (hp : 0 < s.mutex) :
      step M s (.savage i) { s.goto i .test with mutex := s.mutex - 1 }
  | test (s : State n) (i : Fin n) (h : s.pc i = .test) :
      step M s (.savage i) (s.goto i (if s.meals = 0 then .call else .load))
  | call (s : State n) (i : Fin n) (h : s.pc i = .call) :
      step M s (.savage i) { s.goto i .waitFull with empty := s.empty + 1 }
  | waitFull (s : State n) (i : Fin n) (h : s.pc i = .waitFull) (hp : 0 < s.full) :
      step M s (.savage i) { s.goto i .load with full := s.full - 1 }
  | load (s : State n) (i : Fin n) (h : s.pc i = .load) : step M s (.savage i) (s.goto i (.store s.meals))
  | store (s : State n) (i : Fin n) (loaded : Int) (h : s.pc i = .store loaded) :
      step M s (.savage i) { s.goto i .leave with meals := loaded - 1, eaten := s.eaten + 1 }
  | leave (s : State n) (i : Fin n) (h : s.pc i = .leave) :
      step M s (.savage i) { s.goto i .digest with mutex := s.mutex + 1 }
  | digest (s : State n) (i : Fin n) (h : s.pc i = .digest) : step M s (.savage i) (s.goto i .hungry)
  | waitEmpty (s : State n) (h : s.cook = .waitEmpty) (hp : 0 < s.empty) :
      step M s .cook { s with empty := s.empty - 1, cook := .cooking }
  | cooking (s : State n) (h : s.cook = .cooking) :
      step M s .cook { s with meals := M, pots := s.pots + 1, cook := .postFull }
  | postFull (s : State n) (h : s.cook = .postFull) :
      step M s .cook { s with full := s.full + 1, cook := .waitEmpty }

/-- `main`: an empty pot, and everybody at the beginning of the loop. -/
def main (n : Nat) : State n where
  meals := 0
  mutex := 1
  empty := 0
  full := 0
  pc _ := .hungry
  cook := .waitEmpty
  eaten := 0
  pots := 0

/-- `n` savages and the cook. -/
def tribe (n : Nat) (M : Int) : Sys (State n) (Act n) where
  init s := s = main n
  step := step M

/-- Savage `i` waits for a semaphore that is zero. -/
def Blocked (s : State n) (i : Fin n) : Prop := (s.pc i = .hungry ∧ s.mutex = 0) ∨ (s.pc i = .waitFull ∧ s.full = 0)

/-- The cook waits for `empty`, which is zero. -/
def CookBlocked (s : State n) : Prop := s.cook = .waitEmpty ∧ s.empty = 0

/-! ## The invariant -/

/-- The cook is between `sem_wait(empty)` and `sem_post(full)`. -/
def CookPlace.busy : CookPlace → Nat
  | .waitEmpty => 0
  | _ => 1

/-- The pot is full, or about to be reported so. -/
def State.cooked (s : State n) : Prop := s.full ≠ 0 ∨ s.cook = .postFull

/-- What the counter is while a savage is at a place inside. -/
def PotAt (M : Int) (s : State n) : Place → Prop
  | .call => s.meals = 0
  | .waitFull => (¬ s.cooked → s.meals = 0) ∧ (s.cooked → s.meals = M)
  | .load => 0 < s.meals
  | .store loaded => loaded = s.meals ∧ 0 < s.meals
  | _ => True

/-- One savage at most is inside; the permit of `empty` and `full` is there exactly while a savage waits for `full`; and the counter
is what the place of each savage asks for. -/
structure Inv (M : Int) (s : State n) : Prop where
  inside : s.mutex + count Place.inside s.pc = 1
  handshake : s.empty + s.full + s.cook.busy = countAt .waitFull s.pc
  nonneg : 0 ≤ s.meals
  le : s.meals ≤ M
  pot : ∀ i, PotAt M s (s.pc i)
  eaten : s.eaten + s.meals = M * s.pots

/-- Two savages inside are one. -/
theorem inside_unique {M : Int} {s : State n} (hI : Inv M s) {i j : Fin n} (hi : (s.pc i).inside = true)
    (hj : (s.pc j).inside = true) : i = j := by
  have h1 : count Place.inside s.pc ≤ 1 := by
    have := hI.inside
    omega
  exact Finset.card_le_one.mp h1 i (Finset.mem_filter.mpr ⟨Finset.mem_univ i, hi⟩) j
    (Finset.mem_filter.mpr ⟨Finset.mem_univ j, hj⟩)

/-- While one savage is inside, the counter is free for the others: their places ask for nothing. -/
theorem potAt_others {M : Int} {s : State n} (hI : Inv M s) {i : Fin n} (hi : (s.pc i).inside = true) (s' : State n) {j : Fin n}
    (hj : j ≠ i) : PotAt M s' (s.pc j) := by
  have hout : (s.pc j).inside = false := by
    by_contra h
    exact hj (inside_unique hI (by simpa using h) hi)
  cases h : s.pc j with
  | hungry => trivial
  | digest => trivial
  | test => rw [h] at hout; cases hout
  | call => rw [h] at hout; cases hout
  | waitFull => rw [h] at hout; cases hout
  | load => rw [h] at hout; cases hout
  | store r => rw [h] at hout; cases hout
  | leave => rw [h] at hout; cases hout

/-- While a savage is inside and does not wait for `full`, nobody does. -/
theorem no_permit {M : Int} {s : State n} (hI : Inv M s) {i : Fin n} (hi : (s.pc i).inside = true) (hf : s.pc i ≠ .waitFull) :
    countAt .waitFull s.pc = 0 := by
  refine countAt_eq_zero_iff.mpr fun j hj => hf ?_
  rw [inside_unique hI hi (j := j) (by rw [hj]; rfl)]
  exact hj

/-- The demands on the counter when a savage that is inside goes to `c`. -/
theorem pot_goto {M : Int} {s s' : State n} (hI : Inv M s) {i : Fin n} (hi : (s.pc i).inside = true) {c : Place}
    (hpc : s'.pc = Function.update s.pc i c) (hc : PotAt M s' c) (j : Fin n) : PotAt M s' (s'.pc j) := by
  rw [hpc]
  by_cases hj : j = i
  · subst hj
    rwa [Function.update_self]
  · rw [Function.update_of_ne hj]
    exact potAt_others hI hi s' hj

/-- The demands on the counter are the same for states with the same counter and the same report of the cook. -/
theorem PotAt.congr {M : Int} {s s' : State n} (hm : s'.meals = s.meals) (hc : s'.cooked ↔ s.cooked) {c : Place}
    (h : PotAt M s c) : PotAt M s' c := by
  cases c <;> simp only [PotAt, hm, hc] at h ⊢ <;> exact h

/-- The cook is awake only while a savage waits for `full` with `mutex`, and then `full` is zero. -/
theorem cook_busy {M : Int} {s : State n} (hI : Inv M s) (hb : s.cook.busy = 1 ∨ 0 < s.empty) :
    ∃ i, s.pc i = .waitFull ∧ s.full = 0 ∧ s.mutex = 0 ∧ s.empty + s.cook.busy = 1 := by
  have h1 := hI.handshake
  obtain ⟨i, hi⟩ := exists_of_countAt_pos (b := Place.waitFull) (f := s.pc) (by omega)
  have hin : (s.pc i).inside = true := by
    rw [hi]
    rfl
  have h2 := count_pos i hin
  have h3 := hI.inside
  have h4 : countAt .waitFull s.pc ≤ count Place.inside s.pc := by
    rw [countAt, count, count]
    refine Finset.card_le_card fun j hj => ?_
    have hj' : s.pc j = .waitFull := by simpa using (Finset.mem_filter.mp hj).2
    exact Finset.mem_filter.mpr ⟨Finset.mem_univ j, by rw [hj']; rfl⟩
  exact ⟨i, hi, by omega, by omega, by omega⟩

/-! ## Each step keeps the invariant -/

/-- How the two counts of the invariant change when a savage moves. -/
theorem counts_goto (s : State n) (i : Fin n) (c : Place) :
    count Place.inside (Function.update s.pc i c) + (s.pc i).inside.toNat = count Place.inside s.pc + c.inside.toNat ∧
      countAt .waitFull (Function.update s.pc i c) + (if s.pc i = .waitFull then 1 else 0) =
        countAt .waitFull s.pc + (if c = .waitFull then 1 else 0) :=
  ⟨count_update Place.inside s.pc i c, countAt_update Place.waitFull s.pc i c⟩

/-- A step of a savage keeps the invariant. -/
theorem inv_savage {M : Int} {s s' : State n} {i : Fin n} (hI : Inv M s) (hM : 1 ≤ M) (h : step M s (.savage i) s') : Inv M s' := by
  have ⟨hin, hhs, h0, hle, hpot, heat⟩ := hI
  cases h with
  | hungry _ h hp =>
    obtain ⟨h1, h2⟩ := counts_goto s i .test
    simp [h, Place.inside] at h1 h2
    have hout : ∀ j, (s.pc j).inside = false := count_eq_zero_iff.mp (by omega)
    refine ⟨by simp [State.goto]; omega, by simp [State.goto]; omega, h0, hle, fun j => ?_, heat⟩
    by_cases hj : j = i
    · subst hj
      simp [State.goto, PotAt]
    · have h3 : (State.goto s i .test).pc j = s.pc j := Function.update_of_ne hj _ _
      simp only [h3]
      exact (hpot j).congr rfl Iff.rfl
  | test _ h =>
    obtain ⟨h1, h2⟩ := counts_goto s i (if s.meals = 0 then .call else .load)
    have hi : (s.pc i).inside = true := by rw [h]; rfl
    by_cases hm : s.meals = 0
    · simp [h, hm, Place.inside] at h1 h2
      refine ⟨by simp [State.goto, hm, h1]; omega, by simp [State.goto, hm]; omega, h0, hle, ?_, heat⟩
      exact pot_goto hI hi rfl (by simp [hm, PotAt, State.goto])
    · simp [h, hm, Place.inside] at h1 h2
      refine ⟨by simp [State.goto, hm, h1]; omega, by simp [State.goto, hm]; omega, h0, hle, ?_, heat⟩
      exact pot_goto hI hi rfl (by simp [hm, PotAt, State.goto]; omega)
  | call _ h =>
    obtain ⟨h1, h2⟩ := counts_goto s i .waitFull
    have hi : (s.pc i).inside = true := by rw [h]; rfl
    have hno := no_permit hI hi (by rw [h]; decide)
    have hm := hpot i
    simp [h, PotAt] at hm
    simp [h, Place.inside] at h1 h2
    refine ⟨by simp [State.goto]; omega, by simp [State.goto]; omega, h0, hle, ?_, heat⟩
    refine pot_goto hI hi rfl ⟨fun _ => hm, ?_⟩
    -- Neither has the cook been woken nor `full` been posted.
    rintro (hc | hc)
    · simp [State.goto] at hc
      omega
    · have hb : s.cook = .postFull := hc
      rw [hb] at hhs
      simp [CookPlace.busy] at hhs
      omega
  | waitFull _ h hp =>
    obtain ⟨h1, h2⟩ := counts_goto s i .load
    have hi : (s.pc i).inside = true := by rw [h]; rfl
    have hm := hpot i
    simp [h, PotAt] at hm
    have hM' := hm.2 (Or.inl (by omega))
    simp [h, Place.inside] at h1 h2
    refine ⟨by simp [State.goto]; omega, by simp [State.goto]; omega, h0, hle, ?_, heat⟩
    exact pot_goto hI hi rfl (by simp [PotAt, State.goto]; omega)
  | load _ h =>
    obtain ⟨h1, h2⟩ := counts_goto s i (.store s.meals)
    have hi : (s.pc i).inside = true := by rw [h]; rfl
    have hm := hpot i
    simp [h, PotAt] at hm
    simp [h, Place.inside] at h1 h2
    refine ⟨by simp [State.goto]; omega, by simp [State.goto]; omega, h0, hle, ?_, heat⟩
    exact pot_goto hI hi rfl ⟨rfl, hm⟩
  | store _ loaded h =>
    obtain ⟨h1, h2⟩ := counts_goto s i .leave
    have hi : (s.pc i).inside = true := by rw [h]; rfl
    have hm := hpot i
    simp [h, PotAt] at hm
    obtain ⟨rfl, hpos⟩ := hm
    simp [h, Place.inside] at h1 h2
    refine ⟨by simp [State.goto]; omega, by simp [State.goto]; omega, by simp; omega, by simp; omega, ?_,
      by simp [State.goto]; omega⟩
    exact pot_goto hI hi rfl trivial
  | leave _ h =>
    obtain ⟨h1, h2⟩ := counts_goto s i .digest
    have hi : (s.pc i).inside = true := by rw [h]; rfl
    simp [h, Place.inside] at h1 h2
    refine ⟨by simp [State.goto]; omega, by simp [State.goto]; omega, h0, hle, ?_, heat⟩
    exact pot_goto hI hi rfl trivial
  | digest _ h =>
    obtain ⟨h1, h2⟩ := counts_goto s i .hungry
    simp [h, Place.inside] at h1 h2
    refine ⟨by simp [State.goto]; omega, by simp [State.goto]; omega, h0, hle, fun j => ?_, heat⟩
    by_cases hj : j = i
    · subst hj
      simp [State.goto, PotAt]
    · have h3 : (State.goto s i .hungry).pc j = s.pc j := Function.update_of_ne hj _ _
      rw [h3]
      exact (hpot j).congr rfl Iff.rfl

/-- A step of the cook keeps the invariant. -/
theorem inv_cook {M : Int} {s s' : State n} (hI : Inv M s) (hM : 1 ≤ M) (h : step M s .cook s') : Inv M s' := by
  have ⟨hin, hhs, h0, hle, hpot, heat⟩ := hI
  cases h with
  | waitEmpty h hp =>
    simp [h, CookPlace.busy] at hhs
    refine ⟨hin, by simp [CookPlace.busy]; omega, h0, hle, fun j => ?_, heat⟩
    refine PotAt.congr (s := s) ?_ ?_ (hpot j)
    · rfl
    · simp [State.cooked, h]
  | cooking h =>
    obtain ⟨i, hi, hf, -, -⟩ := cook_busy hI (Or.inl (by rw [h]; rfl))
    have hm := hpot i
    simp [hi, PotAt, State.cooked, hf, h] at hm
    simp [h, CookPlace.busy] at hhs
    refine ⟨hin, by simp [CookPlace.busy]; omega, by simp; omega, by simp, fun j => ?_, ?_⟩
    · by_cases hj : j = i
      · subst hj
        simp only [hi]
        exact ⟨fun hc => absurd (Or.inr rfl) hc, fun _ => rfl⟩
      · exact potAt_others hI (i := i) (by rw [hi]; rfl) _ hj
    · have : M * ((s.pots + 1 : Nat) : Int) = M * s.pots + M := by
        push_cast
        ring
      simp only
      omega
  | postFull h =>
    simp [h, CookPlace.busy] at hhs
    refine ⟨hin, by simp [CookPlace.busy]; omega, h0, hle, fun j => ?_, heat⟩
    refine PotAt.congr (s := s) ?_ ?_ (hpot j)
    · rfl
    · simp [State.cooked, h]

/-- The invariant holds initially. -/
theorem inv_init (n : Nat) {M : Int} (hM : 1 ≤ M) : Inv M (main n) := by
  have h1 : count Place.inside (main n).pc = 0 := count_eq_zero_iff.mpr fun i => rfl
  have h2 : countAt .waitFull (main n).pc = 0 := countAt_eq_zero_iff.mpr fun i => by simp [main]
  refine ⟨by rw [h1]; rfl, by rw [h2]; rfl, by simp [main], by simp [main]; omega, fun i => trivial, by simp [main]⟩

/-- The invariant holds in every reachable state. -/
theorem inv_reach {M : Int} (hM : 1 ≤ M) {s : State n} (h : (tribe n M).Reach s) : Inv M s := by
  have hind : (tribe n M).Inductive (Inv M) := by
    refine ⟨?_, ?_⟩
    · intro s hs
      rw [hs]
      exact inv_init n hM
    · intro s a s' hI hs
      cases a with
      | savage i => exact inv_savage hI hM hs
      | cook => exact inv_cook hI hM hs
  exact hind.reach h

/-! ## The properties of every reachable state -/

/-- A meal is taken only from a pot that has one. -/
theorem meal_taken {M : Int} {s s' : State n} {a : Act n} (hI : Inv M s) (h : step M s a s') (he : s'.eaten ≠ s.eaten) :
    0 < s.meals ∧ s'.meals = s.meals - 1 := by
  cases h with
  | store i loaded h =>
    have hm := hI.pot i
    rw [h] at hm
    exact ⟨hm.2, by rw [← hm.1]⟩
  | hungry => exact absurd rfl he
  | test => exact absurd rfl he
  | call => exact absurd rfl he
  | waitFull => exact absurd rfl he
  | load => exact absurd rfl he
  | leave => exact absurd rfl he
  | digest => exact absurd rfl he
  | waitEmpty => exact absurd rfl he
  | cooking => exact absurd rfl he
  | postFull => exact absurd rfl he

/-- The cook writes the counter only when it is zero and a savage with `mutex` is blocked on `full`. -/
theorem cook_writes {M : Int} {s : State n} (hI : Inv M s) (h : s.cook = .cooking) :
    s.meals = 0 ∧ ∃ i, s.pc i = .waitFull ∧ s.full = 0 ∧ s.mutex = 0 := by
  obtain ⟨i, hi, hf, hmu, -⟩ := cook_busy hI (Or.inl (by rw [h]; rfl))
  have hm := hI.pot i
  simp [hi, PotAt, State.cooked, hf, h] at hm
  exact ⟨hm, i, hi, hf, hmu⟩

/-- Where there is a savage, not everybody is blocked. -/
theorem not_all_blocked {M : Int} {s : State n} (hI : Inv M s) (hn : 0 < n) : ¬ ((∀ i, Blocked s i) ∧ CookBlocked s) := by
  rintro ⟨hb, hc, he⟩
  have h1 := hI.handshake
  rw [hc, he] at h1
  simp [CookPlace.busy] at h1
  -- A savage that waits for `full` would have the permit.
  have hungry : ∀ i, s.pc i = .hungry ∧ s.mutex = 0 := by
    intro i
    rcases hb i with h | ⟨h, hf⟩
    · exact h
    · have := countAt_pos i h
      omega
  have h2 := hI.inside
  have h3 : count Place.inside s.pc = 0 := count_eq_zero_iff.mpr fun i => by rw [(hungry i).1]; rfl
  rw [(hungry ⟨0, hn⟩).2, h3] at h2
  cases h2

/-- What is said of one state of the tribe. -/
structure Fed (M : Int) (s : State n) : Prop where
  nonneg : 0 ≤ s.meals
  le : s.meals ≤ M
  taken : ∀ a s', step M s a s' → s'.eaten ≠ s.eaten → 0 < s.meals ∧ s'.meals = s.meals - 1
  cooks : s.cook = .cooking → s.meals = 0 ∧ ∃ i, s.pc i = .waitFull ∧ s.full = 0 ∧ s.mutex = 0
  eaten : s.eaten + s.meals = M * s.pots

/-- In every reachable state the pot has between none and `M` meals, a meal is taken only from a pot that has one, the cook writes only
over zero and while a savage with `mutex` is blocked on `full`, no meal is lost, and where there is a savage, not everybody is
blocked. -/
theorem savages_fed (n : Nat) (M : Int) (hM : 1 ≤ M) {s : State n} (h : (tribe n M).Reach s) :
    Fed M s ∧ (0 < n → ¬ ((∀ i, Blocked s i) ∧ CookBlocked s)) := by
  have hI := inv_reach hM h
  exact ⟨⟨hI.nonneg, hI.le, fun a s' hs he => meal_taken hI hs he, cook_writes hI, hI.eaten⟩, not_all_blocked hI⟩

/-- The witness: a savage has called the cook, which has made two meals, and has eaten one of them. -/
theorem savages_fed_one : ∃ s : State 1, s.pots = 1 ∧ s.eaten = 1 ∧ s.meals = 1 ∧ Fed 2 s ∧
    ¬ ((∀ i, Blocked s i) ∧ CookBlocked s) := by
  have h0 : (tribe 1 2).Reach (main 1) := Sys.Reach.init rfl
  have h1 := Sys.Reach.step _ h0 (step.hungry _ 0 rfl (by decide))
  have h2 := Sys.Reach.step _ h1 (step.test _ 0 rfl)
  have h3 := Sys.Reach.step _ h2 (step.call _ 0 rfl)
  have h4 := Sys.Reach.step _ h3 (step.waitEmpty _ rfl (by decide))
  have h5 := Sys.Reach.step _ h4 (step.cooking _ rfl)
  have h6 := Sys.Reach.step _ h5 (step.postFull _ rfl)
  have h7 := Sys.Reach.step _ h6 (step.waitFull _ 0 rfl (by decide))
  have h8 := Sys.Reach.step _ h7 (step.load _ 0 rfl)
  have h9 := Sys.Reach.step _ h8 (step.store _ 0 2 rfl)
  obtain ⟨hfed, hlive⟩ := savages_fed 1 2 (by decide) h9
  exact ⟨_, rfl, rfl, rfl, hfed, hlive (by decide)⟩

/-- Without savages the cook waits for `empty` from the beginning, and there is nobody else. -/
theorem cook_alone :
    ¬ ∀ (n : Nat) (M : Int), 1 ≤ M → ∀ s : State n, (tribe n M).Reach s →
      Fed M s ∧ ¬ ((∀ i, Blocked s i) ∧ CookBlocked s) := by
  intro h
  exact (h 0 1 (by decide) (main 0) (Sys.Reach.init rfl)).2 ⟨fun i => i.elim0, rfl, rfl⟩

end OsLabs.Savages
