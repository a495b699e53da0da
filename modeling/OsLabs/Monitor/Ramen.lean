import OsLabs.Lib.CondVar
import OsLabs.Lib.Sys

/-!
# The ramen restaurant of `ramen.c`

`m` customers call `ramen_wait` and `ramen_finish` in turn. Each critical section is one step; a customer that `queue` signals has its
seat at once and goes on, as another step, when it has the mutex again. There are no spurious wakeups.

Seats are never given out twice: `seated_le_seats` counts the seated customers in every reachable state. Customers can be forgotten,
though: `ramen_finish` sets `waiting` to zero also when it has woken only `max_seats` of them (`customer_forgotten`). That is the only
way in which `waiting` and the sleepers come apart, by `nobody_forgotten` and `forgotten_of_crowd`.
-/

namespace OsLabs.Ramen

/-- Where a customer is: outside, asleep on `queue`, signalled and waiting for the mutex, or between `ramen_wait` and
`ramen_finish`. -/
inductive Place where
  | outside | asleep | woken | eating
  deriving DecidableEq

/-- A customer is seated from when it is admitted or signalled until it is through `ramen_finish`. -/
def Place.seated : Place → Bool
  | .woken | .eating => true
  | _ => false

/-- `ramen_t`, and the place of every customer. -/
structure State (m : Nat) where
  waiting : Int
  eating : Int
  mustWait : Bool
  maxSeats : Int
  pc : Fin m → Place

variable {m : Nat}

/-- `ramen_init`, with every customer outside. -/
def ramenInit (m seats : Nat) : State m where
  waiting := 0
  eating := 0
  mustWait := false
  maxSeats := seats
  pc _ := .outside

/-- `ramen_wait`, up to `pthread_cond_wait` or to the end. -/
def ramenWait (s : State m) (i : Fin m) : State m :=
  if s.mustWait then
    { s with waiting := s.waiting + 1, pc := Function.update s.pc i .asleep }
  else
    { s with eating := s.eating + 1, mustWait := s.eating + 1 == s.maxSeats, pc := Function.update s.pc i .eating }

/-- The number of customers that `ramen_finish` wakes when the last one leaves. -/
def State.next (s : State m) : Int := if s.waiting > s.maxSeats then s.maxSeats else s.waiting

/-- `ramen_finish`. -/
def ramenFinish (s : State m) (i : Fin m) (s' : State m) : Prop :=
  if s.eating - 1 = 0 then
    ∃ pc', Signals Place.asleep .woken s.next.toNat (Function.update s.pc i .outside) pc' ∧
      s' = { s with waiting := 0, eating := s.next, mustWait := s.next == s.maxSeats, pc := pc' }
  else
    s' = { s with eating := s.eating - 1, pc := Function.update s.pc i .outside }

/-- What a customer does. -/
inductive Act (m : Nat) where
  | wait (i : Fin m)
  /-- The rest of `ramen_wait`, with the mutex again. -/
  | wake (i : Fin m)
  | finish (i : Fin m)

/-- A step of a customer. -/
def step (s : State m) : Act m → State m → Prop
  | .wait i, s' => s.pc i = .outside ∧ s' = ramenWait s i
  | .wake i, s' => s.pc i = .woken ∧ s' = { s with pc := Function.update s.pc i .eating }
  | .finish i, s' => s.pc i = .eating ∧ ramenFinish s i s'

/-- `m` customers and a restaurant with `seats` seats. -/
def ramen (m seats : Nat) : Sys (State m) (Act m) where
  init s := s = ramenInit m seats
  step := step

/-- The `ramen_finish` of the last customer, which brings `eating` to zero. -/
def Emptying (s : State m) (a : Act m) : Prop := s.eating = 1 ∧ ∃ i, a = .finish i

/-! ## What a step does -/

/-- The steps, one by one. -/
theorem step_cases {s s' : State m} {a : Act m} (h : step s a s') :
    (∃ i, a = .wait i ∧ s.pc i = .outside ∧ s.mustWait = true ∧
      s' = { s with waiting := s.waiting + 1, pc := Function.update s.pc i .asleep }) ∨
    (∃ i, a = .wait i ∧ s.pc i = .outside ∧ s.mustWait = false ∧
      s' = { s with eating := s.eating + 1, mustWait := s.eating + 1 == s.maxSeats, pc := Function.update s.pc i .eating }) ∨
    (∃ i, a = .wake i ∧ s.pc i = .woken ∧ s' = { s with pc := Function.update s.pc i .eating }) ∨
    (∃ i, a = .finish i ∧ s.pc i = .eating ∧ s.eating ≠ 1 ∧
      s' = { s with eating := s.eating - 1, pc := Function.update s.pc i .outside }) ∨
    (∃ i pc', a = .finish i ∧ s.pc i = .eating ∧ s.eating = 1 ∧
      Signals Place.asleep .woken s.next.toNat (Function.update s.pc i .outside) pc' ∧
      s' = { s with waiting := 0, eating := s.next, mustWait := s.next == s.maxSeats, pc := pc' }) := by
  cases a with
  | wait i =>
    obtain ⟨hi, rfl⟩ := h
    unfold ramenWait
    cases hm : s.mustWait with
    | true => exact Or.inl ⟨i, rfl, hi, rfl, by simp⟩
    | false => exact Or.inr (Or.inl ⟨i, rfl, hi, rfl, by simp⟩)
  | wake i => exact Or.inr (Or.inr (Or.inl ⟨i, rfl, h.1, h.2⟩))
  | finish i =>
    obtain ⟨hi, h⟩ := h
    unfold ramenFinish at h
    split at h
    · rename_i he
      obtain ⟨pc', hsig, rfl⟩ := h
      exact Or.inr (Or.inr (Or.inr (Or.inr ⟨i, pc', rfl, hi, by omega, hsig, rfl⟩)))
    · rename_i he
      exact Or.inr (Or.inr (Or.inr (Or.inl ⟨i, rfl, hi, by omega, h⟩)))

/-! ## Seats -/

/-- What holds in every reachable state. The sleepers may be more than `waiting` says, never fewer. -/
structure Inv (seats : Nat) (s : State m) : Prop where
  maxSeats : s.maxSeats = seats
  seated : (count Place.seated s.pc : Int) = s.eating
  le : s.eating ≤ s.maxSeats
  full : s.eating = s.maxSeats → s.mustWait = true
  nonneg : 0 ≤ s.waiting
  asleep : s.waiting ≤ countAt .asleep s.pc

/-- The number of seated customers when customer `i` moves. -/
theorem seated_update (pc : Fin m → Place) (i : Fin m) (c : Place) :
    count Place.seated (Function.update pc i c) + (pc i).seated.toNat = count Place.seated pc + c.seated.toNat :=
  count_update Place.seated pc i c

/-- No more customers are woken than the seats and the waiting. -/
theorem next_le {s : State m} : s.next ≤ s.maxSeats ∧ s.next ≤ s.waiting := by
  unfold State.next
  split
  · omega
  · omega

/-- When the last customer leaves, `next` customers are seated, and so many sleepers fewer are left. -/
theorem signals_finish {s : State m} {i : Fin m} {pc' : Fin m → Place} {seats : Nat} (hI : Inv seats s) (hi : s.pc i = .eating)
    (he : s.eating = 1) (h : Signals Place.asleep .woken s.next.toNat (Function.update s.pc i .outside) pc') :
    count Place.seated pc' = s.next.toNat ∧ countAt .asleep pc' + s.next.toNat = countAt .asleep s.pc := by
  have hs := hI.seated
  have ha := hI.asleep
  have hle := next_le (s := s)
  have h1 := seated_update s.pc i .outside
  have h2 := countAt_update .asleep s.pc i .outside
  simp [hi, Place.seated] at h1 h2
  have h3 : s.next.toNat ≤ countAt .asleep (Function.update s.pc i .outside) := by omega
  have h4 := h.countAt_asleep (by simp)
  have h5 := h.count (by simp) Place.seated
  rw [Nat.min_eq_left h3] at h5
  simp [Place.seated] at h5
  omega

/-- Every step keeps the invariant. -/
theorem inv_step {seats : Nat} {s s' : State m} {a : Act m} (hI : Inv seats s) (hp : 1 ≤ seats) (h : step s a s') : Inv seats s' := by
  obtain ⟨hmax, hs, hle, hfull, hnn, hal⟩ := hI
  rcases step_cases h with ⟨i, -, hi, hm, rfl⟩ | ⟨i, -, hi, hm, rfl⟩ | ⟨i, -, hi, rfl⟩ | ⟨i, -, hi, he, rfl⟩ |
    ⟨i, pc', -, hi, he, hsig, rfl⟩
  · have h1 := seated_update s.pc i .asleep
    have h2 := countAt_update .asleep s.pc i .asleep
    simp [hi, Place.seated] at h1 h2
    exact ⟨hmax, by simp [h1, hs], hle, hfull, by simp; omega, by simp; omega⟩
  · have h1 := seated_update s.pc i .eating
    have h2 := countAt_update .asleep s.pc i .eating
    simp [hi, Place.seated] at h1 h2
    have hne : s.eating ≠ s.maxSeats := by
      intro e
      rw [hfull e] at hm
      cases hm
    exact ⟨hmax, by simp [h1, hs], by simp; omega, by simp, hnn, by simp; omega⟩
  · have h1 := seated_update s.pc i .eating
    have h2 := countAt_update .asleep s.pc i .eating
    simp [hi, Place.seated] at h1 h2
    exact ⟨hmax, by simp [h1, hs], hle, hfull, hnn, by simp; omega⟩
  · have h1 := seated_update s.pc i .outside
    have h2 := countAt_update .asleep s.pc i .outside
    simp [hi, Place.seated] at h1 h2
    exact ⟨hmax, by simp; omega, by simp; omega, by simp; omega, hnn, by simp; omega⟩
  · obtain ⟨h1, h2⟩ := signals_finish ⟨hmax, hs, hle, hfull, hnn, hal⟩ hi he hsig
    have hn := next_le (s := s)
    have hn0 : 0 ≤ s.next := by
      unfold State.next
      split
      · omega
      · omega
    exact ⟨hmax, by simp [h1, hn0], hn.1, by simp, by simp, by simp⟩

/-- The invariant holds initially. -/
theorem inv_init (m : Nat) {seats : Nat} (hp : 1 ≤ seats) : Inv seats (ramenInit m seats) := by
  have h1 : count Place.seated (ramenInit m seats).pc = 0 := count_eq_zero_iff.mpr fun i => rfl
  refine ⟨rfl, by rw [h1]; rfl, by simp [ramenInit], ?_, by simp [ramenInit], by simp [ramenInit]⟩
  intro h
  simp [ramenInit] at h
  omega

/-- The invariant holds in every reachable state. -/
theorem inv_reach {seats : Nat} (hp : 1 ≤ seats) {s : State m} (h : (ramen m seats).Reach s) : Inv seats s := by
  have hind : (ramen m seats).Inductive (Inv seats) := by
    refine ⟨?_, fun _ _ _ hI hs => inv_step hI hp hs⟩
    intro s hs
    rw [hs]
    exact inv_init m hp
  exact hind.reach h

/-! ## The group rule -/

/-- From a full restaurant on, and until it is empty, newcomers have to wait. -/
def Closed (s : State m) : Prop := s.mustWait = true

/-- A step that does not empty the restaurant keeps it closed and seats nobody. -/
theorem closed_step {s s' : State m} {a : Act m} (hc : Closed s) (ha : ¬ Emptying s a) (h : step s a s') :
    Closed s' ∧ ∀ i, (s'.pc i).seated = true → (s.pc i).seated = true := by
  have moved : ∀ (i : Fin m) (c : Place), (c.seated = true → (s.pc i).seated = true) →
      ∀ j, (Function.update s.pc i c j).seated = true → (s.pc j).seated = true := by
    intro i c hic j hj
    by_cases hji : j = i
    · subst hji
      rw [Function.update_self] at hj
      exact hic hj
    · rwa [Function.update_of_ne hji] at hj
  rcases step_cases h with ⟨i, -, hi, hm, rfl⟩ | ⟨i, -, hi, hm, rfl⟩ | ⟨i, -, hi, rfl⟩ | ⟨i, -, hi, he, rfl⟩ |
    ⟨i, pc', e, hi, he, hsig, rfl⟩
  · exact ⟨hm, moved i .asleep fun e => by cases e⟩
  · rw [hc] at hm
    cases hm
  · refine ⟨hc, moved i .eating fun _ => ?_⟩
    rw [hi]
    rfl
  · exact ⟨hc, moved i .outside fun e => by cases e⟩
  · exact absurd ⟨he, i, e⟩ ha

/-- The restaurant stays closed along steps that do not empty it. -/
theorem closed_path {seats : Nat} {s s' : State m} (hc : Closed s)
    (h : ((ramen m seats).guard fun s a => ¬ Emptying s a).Path s s') : Closed s' := by
  induction h with
  | refl => exact hc
  | tail _ hs ih =>
    obtain ⟨a, ha, hst⟩ := hs
    exact (closed_step ih ha hst).1

/-- The customers seated are as many as `eating` says and at most `max_seats`; and from when they are `max_seats` until the
`ramen_finish` that leaves none, no step seats anybody. -/
theorem seated_le_seats (m seats : Nat) (hp : 1 ≤ seats) {s : State m} (h : (ramen m seats).Reach s) :
    (count Place.seated s.pc : Int) = s.eating ∧ s.eating ≤ seats ∧
      (s.eating = seats → ∀ s₁, ((ramen m seats).guard fun s a => ¬ Emptying s a).Path s s₁ →
        ∀ a s₂, ¬ Emptying s₁ a → step s₁ a s₂ → ∀ i, (s₂.pc i).seated = true → (s₁.pc i).seated = true) := by
  have hI := inv_reach hp h
  have hmax := hI.maxSeats
  refine ⟨hI.seated, by have := hI.le; omega, ?_⟩
  intro he s₁ hpath a s₂ ha hst
  exact (closed_step (closed_path (hI.full (by omega)) hpath) ha hst).2

/-- Two customers in the two seats, and a third that waits. -/
def fullHouse : State 3 := ramenWait (ramenWait (ramenWait (ramenInit 3 2) 0) 1) 2

/-- One of the two has left, and comes back. -/
def oneLeft : State 3 := { fullHouse with eating := 1, pc := Function.update fullHouse.pc 0 .outside }

/-- A customer that comes back while the group is not through is not seated. -/
theorem seated_le_seats_group : (ramen 3 2).Reach fullHouse ∧ fullHouse.eating = 2 ∧
    ((ramen 3 2).guard fun s a => ¬ Emptying s a).Path fullHouse oneLeft ∧ step oneLeft (.wait 0) (ramenWait oneLeft 0) ∧
      ∀ i, ((ramenWait oneLeft 0).pc i).seated = true → (oneLeft.pc i).seated = true := by
  have h0 : (ramen 3 2).Reach (ramenInit 3 2) := Sys.Reach.init rfl
  have h1 := Sys.Reach.step (Act.wait 0) h0 ⟨rfl, rfl⟩
  have h2 := Sys.Reach.step (Act.wait 1) h1 ⟨rfl, rfl⟩
  have h3 : (ramen 3 2).Reach fullHouse := Sys.Reach.step (Act.wait 2) h2 ⟨rfl, rfl⟩
  have hfinish : step fullHouse (.finish 0) oneLeft := ⟨rfl, by rw [ramenFinish, if_neg (by decide)]; rfl⟩
  have hpath : ((ramen 3 2).guard fun s a => ¬ Emptying s a).Path fullHouse oneLeft :=
    Sys.Path.head (Act.finish 0) ⟨fun he => absurd he.1 (by decide), hfinish⟩ (Sys.Path.refl _ _)
  have hwait : step oneLeft (.wait 0) (ramenWait oneLeft 0) := ⟨rfl, rfl⟩
  exact ⟨h3, rfl, hpath, hwait,
    (seated_le_seats 3 2 (by decide) h3).2.2 rfl _ hpath _ _ (fun he => absurd he.2 (by simp)) hwait⟩

/-! ## Forgotten customers -/

/-- `waiting` counts the sleepers, and none sleeps in an empty restaurant. -/
def Remembered (s : State m) : Prop := s.waiting = countAt .asleep s.pc ∧ (s.eating = 0 → countAt .asleep s.pc = 0)

/-- The last customer leaves only while at most `max_seats` customers wait. -/
def NoCrowd (s : State m) (a : Act m) : Prop := Emptying s a → s.waiting ≤ s.maxSeats

/-- An empty restaurant is open and nobody waits; `waiting` counts the sleepers. -/
structure Books (seats : Nat) (s : State m) : Prop extends Inv seats s where
  counted : s.waiting = countAt .asleep s.pc
  empty : s.eating = 0 → s.mustWait = false ∧ s.waiting = 0

/-- Correct books remember everybody. -/
theorem Books.remembered {seats : Nat} {s : State m} (hB : Books seats s) : Remembered s := by
  refine ⟨hB.counted, fun he => ?_⟩
  have h1 := hB.counted
  have h2 := (hB.empty he).2
  omega

/-- A step without a crowd keeps the books. -/
theorem books_step {seats : Nat} {s s' : State m} {a : Act m} (hB : Books seats s) (hp : 1 ≤ seats) (ha : NoCrowd s a)
    (h : step s a s') : Books seats s' := by
  have hI := inv_step hB.toInv hp h
  obtain ⟨⟨hmax, hs, hle, hfull, hnn, hal⟩, hc, he0⟩ := hB
  rcases step_cases h with ⟨i, -, hi, hm, rfl⟩ | ⟨i, -, hi, hm, rfl⟩ | ⟨i, -, hi, rfl⟩ | ⟨i, -, hi, he, rfl⟩ |
    ⟨i, pc', e, hi, he, hsig, rfl⟩
  · have h1 := countAt_update .asleep s.pc i .asleep
    simp [hi] at h1
    refine ⟨hI, by simp [h1, hc], fun e => ?_⟩
    rw [(he0 e).1] at hm
    cases hm
  · have h1 := countAt_update .asleep s.pc i .eating
    simp [hi] at h1
    refine ⟨hI, by simp [h1, hc], fun e => ?_⟩
    simp at e
    omega
  · have h1 := countAt_update .asleep s.pc i .eating
    simp [hi] at h1
    exact ⟨hI, by simp [h1, hc], he0⟩
  · have h1 := countAt_update .asleep s.pc i .outside
    simp [hi] at h1
    refine ⟨hI, by simp [h1, hc], fun e => ?_⟩
    simp at e
    omega
  · obtain ⟨h1, h2⟩ := signals_finish ⟨hmax, hs, hle, hfull, hnn, hal⟩ hi he hsig
    have hw := ha ⟨he, i, e⟩
    have hn : s.next = s.waiting := by
      unfold State.next
      rw [if_neg (by omega)]
    refine ⟨hI, by simp; omega, fun e0 => ⟨?_, rfl⟩⟩
    have e1 : s.next = 0 := e0
    simp [e1]
    omega

/-- The last customer of a crowded restaurant leaves somebody behind. -/
theorem forgotten_of_crowd {seats : Nat} {s s' : State m} {a : Act m} (hB : Books seats s) (ha : ¬ NoCrowd s a)
    (h : step s a s') : ¬ Remembered s' := by
  have hcr : Emptying s a ∧ s.maxSeats < s.waiting := by
    unfold NoCrowd at ha
    push Not at ha
    exact ha
  obtain ⟨⟨he, i, rfl⟩, hw⟩ := hcr
  obtain ⟨hi, h⟩ := h
  unfold ramenFinish at h
  rw [if_pos (by omega)] at h
  obtain ⟨pc', hsig, rfl⟩ := h
  have h2 := (signals_finish hB.toInv hi he hsig).2
  have hc := hB.counted
  have hmax := hB.maxSeats
  have hn : s.next = s.maxSeats := by
    unfold State.next
    rw [if_pos hw]
  intro hr
  have h3 := hr.1
  simp at h3
  omega

/-- While the last customer never leaves a crowd of more than `max_seats`, nobody is forgotten; the first time one does, somebody
is. -/
theorem nobody_forgotten (m seats : Nat) (hp : 1 ≤ seats) {s : State m} (h : ((ramen m seats).guard NoCrowd).Reach s) :
    Remembered s ∧ ∀ a s', step s a s' → (Remembered s' ↔ NoCrowd s a) := by
  have hind : ((ramen m seats).guard NoCrowd).Inductive (Books seats) := by
    refine ⟨?_, fun _ _ _ hB hs => books_step hB hp hs.1 hs.2⟩
    intro s hs
    have h1 : countAt .asleep (ramenInit m seats).pc = 0 := countAt_eq_zero_iff.mpr fun i => by simp [ramenInit]
    rw [hs]
    exact ⟨inv_init m hp, by rw [h1]; rfl, fun _ => ⟨rfl, rfl⟩⟩
  have hB := hind.reach h
  refine ⟨hB.remembered, fun a s' hst => ⟨fun hr => ?_, fun ha => (books_step hB hp ha hst).remembered⟩⟩
  by_contra ha
  exact forgotten_of_crowd hB ha hst hr

/-- Three customers and one seat: one eats and two sleep. -/
def crowd : State 3 := ramenWait (ramenWait (ramenWait (ramenInit 3 1) 0) 1) 2

/-- The crowd is reached, without a crowd before it. -/
theorem crowd_reach : ((ramen 3 1).guard NoCrowd).Reach crowd := by
  have calm : ∀ (s : State 3) (i : Fin 3), NoCrowd s (.wait i) := by
    intro s i h
    obtain ⟨-, j, e⟩ := h
    cases e
  have h0 : ((ramen 3 1).guard NoCrowd).Reach (ramenInit 3 1) := Sys.Reach.init rfl
  have h1 := Sys.Reach.step (Act.wait 0) h0 ⟨calm _ _, rfl, rfl⟩
  have h2 := Sys.Reach.step (Act.wait 1) h1 ⟨calm _ _, rfl, rfl⟩
  exact Sys.Reach.step (Act.wait 2) h2 ⟨calm _ _, rfl, rfl⟩

/-- The crowd when the first customer has left, and the second has its seat. -/
def afterCrowd : State 3 :=
  { crowd with
    waiting := 0
    eating := 1
    pc := Function.update (Function.update crowd.pc 0 .outside) 1 .woken }

/-- One of the two sleepers is woken. -/
theorem step_afterCrowd : step crowd (.finish 0) afterCrowd := by
  refine ⟨rfl, ?_⟩
  unfold ramenFinish
  rw [if_pos (by rfl)]
  exact ⟨_, Signals.succ (Signal.wake 1 rfl) (Signals.zero _), rfl⟩

/-- The witness: the crowd, and what becomes of it. -/
theorem nobody_forgotten_crowd : Remembered crowd ∧ ∀ a s', step crowd a s' → (Remembered s' ↔ NoCrowd crowd a) :=
  nobody_forgotten 3 1 (by decide) crowd_reach

/-- The second customer has its seat and leaves. -/
def emptied : State 3 :=
  { afterCrowd with
    eating := 0
    mustWait := false
    pc := Function.update (Function.update afterCrowd.pc 1 .eating) 1 .outside }

/-- Nobody is woken: `waiting` is zero. -/
theorem step_emptied : step { afterCrowd with pc := Function.update afterCrowd.pc 1 .eating } (.finish 1) emptied := by
  refine ⟨rfl, ?_⟩
  unfold ramenFinish
  rw [if_pos (by rfl)]
  exact ⟨_, Signals.zero _, rfl⟩

/-- The other sleeper is still there: the restaurant is empty, `waiting` is zero, and one customer sleeps. -/
theorem customer_forgotten :
    ¬ ∀ (m seats : Nat), 1 ≤ seats → ∀ s : State m, (ramen m seats).Reach s → Remembered s := by
  intro h
  have h1 : (ramen 3 1).Reach afterCrowd := Sys.Reach.step (Act.finish 0) crowd_reach.of_guard step_afterCrowd
  have h2 := Sys.Reach.step (Act.wake 1) h1 ⟨rfl, rfl⟩
  have h3 : (ramen 3 1).Reach emptied := Sys.Reach.step (Act.finish 1) h2 step_emptied
  have h4 : countAt .asleep emptied.pc = 0 := (h 3 1 (by decide) emptied h3).2 rfl
  exact countAt_eq_zero_iff.mp h4 2 rfl

end OsLabs.Ramen
