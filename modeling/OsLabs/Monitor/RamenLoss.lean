import OsLabs.Monitor.Ramen

/-!
# How many customers the ramen restaurant forgets

A crowd that the last customer leaves behind is not counted any more. `forgotten` is the number of sleepers that `waiting` does not
count: it never goes down, and it stays below what one crowd can leave. So some customer is always awake, and the restaurant works on
for the rest. The bound is reached from the start of the program (`exists_loss`): the customers that have left come back and go to
sleep while the last one eats.
-/

namespace OsLabs.Ramen

variable {m : Nat}

/-- The number of sleepers that `waiting` does not count. -/
def forgotten (s : State m) : Int := countAt .asleep s.pc - s.waiting

/-! ## Counting places -/

/-- Processes of two kinds that exclude each other are at most all processes. -/
theorem count_add_le {ι β : Type} [Fintype ι] {p q : β → Bool} (f : ι → β) (h : ∀ b, p b = true → q b = false) :
    count p f + count q f ≤ Fintype.card ι := by
  classical
  rw [count, count, ← Finset.card_union_of_disjoint]
  · exact Finset.card_le_univ _
  · refine Finset.disjoint_left.mpr fun i hp hq => ?_
    rw [Finset.mem_filter] at hp hq
    rw [h _ hp.2] at hq
    exact absurd hq.2 (by simp)

/-- Nobody sleeps in a seat. -/
theorem asleep_add_seated (pc : Fin m → Place) : countAt .asleep pc + count Place.seated pc ≤ m := by
  have h := count_add_le (p := fun c => c == Place.asleep) (q := Place.seated) pc fun c hc => by
    rw [eq_of_beq hc]
    rfl
  rwa [Fintype.card_fin] at h

/-- While somebody is awake, fewer than all customers sleep. -/
theorem asleep_lt {pc : Fin m → Place} {i : Fin m} (h : pc i ≠ .asleep) : countAt .asleep pc < m := by
  have hle := count_le_card (fun c => c == Place.asleep) pc
  have hne : count (fun c => c == Place.asleep) pc ≠ Fintype.card (Fin m) := by
    intro he
    exact h (by simpa using count_eq_card_iff.mp he i)
  rw [Fintype.card_fin] at hle hne
  exact lt_of_le_of_ne hle hne

/-! ## What is never lost -/

/-- What holds in every reachable state: a closed restaurant is not empty, somebody is awake, and no more customers are forgotten than
one crowd leaves behind. -/
structure Limits (seats : Nat) (s : State m) : Prop extends Inv seats s where
  occupied : s.mustWait = true → 1 ≤ s.eating
  awake : countAt .asleep s.pc < m
  bound : forgotten s ≤ ((m - 1 - seats : Nat) : Int)

/-- No step finds a forgotten customer again. -/
theorem forgotten_step {seats : Nat} {s s' : State m} {a : Act m} (hI : Inv seats s) (h : step s a s') :
    forgotten s ≤ forgotten s' := by
  unfold forgotten
  rcases step_cases h with ⟨i, -, hi, hm, rfl⟩ | ⟨i, -, hi, hm, rfl⟩ | ⟨i, -, hi, rfl⟩ | ⟨i, -, hi, he, rfl⟩ |
    ⟨i, pc', -, hi, he, hsig, rfl⟩
  · have h1 := countAt_update .asleep s.pc i .asleep
    simp [hi] at h1
    simp [h1]
  · have h1 := countAt_update .asleep s.pc i .eating
    simp [hi] at h1
    simp [h1]
  · have h1 := countAt_update .asleep s.pc i .eating
    simp [hi] at h1
    simp [h1]
  · have h1 := countAt_update .asleep s.pc i .outside
    simp [hi] at h1
    simp [h1]
  · have h1 := (signals_finish hI hi he hsig).2
    have h2 := next_le (s := s)
    have h3 := hI.nonneg
    simp only
    omega

/-- Every step keeps the limits. -/
theorem limits_step {seats : Nat} {s s' : State m} {a : Act m} (hL : Limits seats s) (hp : 1 ≤ seats) (h : step s a s') :
    Limits seats s' := by
  have hI := inv_step hL.toInv hp h
  obtain ⟨hInv, hocc, hawake, hbound⟩ := hL
  have hmax := hInv.maxSeats
  have hseated := hInv.seated
  unfold forgotten at hbound
  refine ⟨hI, ?_, ?_, ?_⟩
  · rcases step_cases h with ⟨i, -, hi, hm, rfl⟩ | ⟨i, -, hi, hm, rfl⟩ | ⟨i, -, hi, rfl⟩ | ⟨i, -, hi, he, rfl⟩ |
      ⟨i, pc', -, hi, he, hsig, rfl⟩
    · exact hocc
    · intro _
      simp only
      omega
    · exact hocc
    · intro hm
      have := hocc hm
      simp only
      omega
    · intro hm
      have hn : s.next = s.maxSeats := eq_of_beq hm
      simp only
      omega
  · rcases step_cases h with ⟨i, -, hi, hm, rfl⟩ | ⟨i, -, hi, hm, rfl⟩ | ⟨i, -, hi, rfl⟩ | ⟨i, -, hi, he, rfl⟩ |
      ⟨i, pc', -, hi, he, hsig, rfl⟩
    · -- the one that closes the restaurant to the newcomer is seated
      have h1 := asleep_add_seated (Function.update s.pc i .asleep)
      have h2 := hI.seated
      have h3 := hocc hm
      simp only at h2 ⊢
      omega
    · exact asleep_lt (i := i) (by simp)
    · exact asleep_lt (i := i) (by simp)
    · exact asleep_lt (i := i) (by simp)
    · refine asleep_lt (i := i) ?_
      rcases hsig.apply i with he' | ⟨-, he'⟩
      · simp [he']
      · simp [he']
  · have hsum := asleep_add_seated s.pc
    unfold forgotten
    rcases step_cases h with ⟨i, -, hi, hm, rfl⟩ | ⟨i, -, hi, hm, rfl⟩ | ⟨i, -, hi, rfl⟩ | ⟨i, -, hi, he, rfl⟩ |
      ⟨i, pc', -, hi, he, hsig, rfl⟩
    · have h1 := countAt_update .asleep s.pc i .asleep
      simp [hi] at h1
      simp only [h1]
      omega
    · have h1 := countAt_update .asleep s.pc i .eating
      simp [hi] at h1
      simp only [h1]
      omega
    · have h1 := countAt_update .asleep s.pc i .eating
      simp [hi] at h1
      simp only [h1]
      omega
    · have h1 := countAt_update .asleep s.pc i .outside
      simp [hi] at h1
      simp only [h1]
      omega
    · have h1 := (signals_finish hInv hi he hsig).2
      have h2 := hInv.nonneg
      simp only
      unfold State.next at h1
      split at h1
      · omega
      · omega

/-- The limits hold in every reachable state. -/
theorem limits_reach {seats : Nat} (hm : 1 ≤ m) (hp : 1 ≤ seats) {s : State m} (h : (ramen m seats).Reach s) : Limits seats s := by
  have hind : (ramen m seats).Inductive (Limits seats) := by
    refine ⟨?_, fun _ _ _ hL hs => limits_step hL hp hs⟩
    rintro s rfl
    have hawake : countAt .asleep (ramenInit m seats).pc < m := asleep_lt (i := ⟨0, hm⟩) (by simp [ramenInit])
    have hzero : countAt .asleep (ramenInit m seats).pc = 0 := countAt_eq_zero_iff.mpr fun i => by simp [ramenInit]
    refine ⟨inv_init m hp, by simp [ramenInit], hawake, ?_⟩
    rw [forgotten, hzero]
    simp [ramenInit]
  exact hind.reach h

/-- A customer that is awake has a step. -/
theorem exists_step {s : State m} {i : Fin m} (hi : s.pc i ≠ .asleep) : ∃ a s', step s a s' := by
  cases hp : s.pc i with
  | outside => exact ⟨.wait i, _, hp, rfl⟩
  | asleep => exact absurd hp hi
  | woken => exact ⟨.wake i, _, hp, rfl⟩
  | eating =>
    refine ⟨.finish i, ?_⟩
    by_cases he : s.eating - 1 = 0
    · obtain ⟨pc', hsig⟩ := Signals.total Place.asleep .woken s.next.toNat (Function.update s.pc i .outside)
      exact ⟨_, hp, by rw [ramenFinish, if_pos he]; exact ⟨pc', hsig, rfl⟩⟩
    · exact ⟨_, hp, by rw [ramenFinish, if_neg he]⟩

/-! ## A run that loses as many as possible -/

/-- The run fills the restaurant: as long as it is open, customers come in. -/
def Filling (s : State m) (a : Act m) : Prop := s.mustWait = false ∧ ∃ i, a = .wait i

/-- While the restaurant fills nobody sleeps, and the seated customers eat. -/
structure Fills (seats : Nat) (s : State m) : Prop where
  books : Books seats s
  place : ∀ i, s.pc i = .outside ∨ s.pc i = .eating

/-- Nobody sleeps in an empty restaurant at the start. -/
theorem books_init (m : Nat) {seats : Nat} (hp : 1 ≤ seats) : Books seats (ramenInit m seats) := by
  have h1 : countAt .asleep (ramenInit m seats).pc = 0 := countAt_eq_zero_iff.mpr fun i => by simp [ramenInit]
  exact ⟨inv_init m hp, by rw [h1]; rfl, fun _ => ⟨rfl, rfl⟩⟩

/-- With more customers than seats the restaurant is filled. -/
theorem exists_closed {seats : Nat} (hp : 1 ≤ seats) (hm : seats < m) :
    ∃ s, (ramen m seats).Reach s ∧ Books seats s ∧ Closed s := by
  have hind : ((ramen m seats).guard Filling).Inductive (Fills seats) := by
    refine ⟨?_, ?_⟩
    · rintro s rfl
      exact ⟨books_init m hp, fun i => Or.inl rfl⟩
    · rintro s a s' hF ⟨⟨hopen, i, rfl⟩, hst⟩
      have hcalm : NoCrowd s (.wait i) := by
        rintro ⟨-, j, e⟩
        cases e
      refine ⟨books_step hF.books hp hcalm hst, fun j => ?_⟩
      obtain ⟨hi, rfl⟩ := hst
      rw [ramenWait, if_neg (by simp [hopen])]
      by_cases hj : j = i
      · simp [hj]
      · simp only [Function.update_of_ne hj]
        exact hF.place j
  obtain ⟨s, hpath, hend⟩ := hind.exists_end (μ := fun s => s.eating.toNat) (B := seats)
    (fun s a s' hF hst => by
      obtain ⟨⟨hopen, i, rfl⟩, hi, rfl⟩ := hst
      have := hF.books.seated
      rw [ramenWait, if_neg (by simp [hopen])]
      simp only
      omega)
    (fun s hF => by
      have h1 := hF.books.le
      have h2 := hF.books.maxSeats
      omega)
    (s := ramenInit m seats) ⟨books_init m hp, fun i => Or.inl rfl⟩
  have hreach : ((ramen m seats).guard Filling).Reach s := Sys.Reach.path (.init rfl) hpath
  have hF := hind.reach hreach
  refine ⟨s, hreach.of_guard, hF.books, ?_⟩
  by_contra hopen
  have hopen : s.mustWait = false := by simpa [Closed] using hopen
  -- all customers are inside, but there are not so many seats
  have hall : ∀ i, (s.pc i).seated = true := by
    intro i
    rcases hF.place i with hi | hi
    · exact absurd ⟨⟨hopen, i, rfl⟩, hi, rfl⟩ (hend (.wait i) _)
    · rw [hi]
      rfl
  have hcount := count_eq_card_iff.mpr hall
  rw [Fintype.card_fin] at hcount
  have h1 := hF.books.seated
  have h2 := hF.books.le
  have h3 := hF.books.maxSeats
  omega

/-- The steps of a closed restaurant, up to its last customer. -/
def closing (m seats : Nat) : Sys (State m) (Act m) where
  init s := Books seats s ∧ Closed s ∧ 1 ≤ s.eating
  step s a s' := ¬ Emptying s a ∧ step s a s'

theorem closing_path {seats : Nat} {s s' : State m} (h : (closing m seats).Path s s') : (ramen m seats).Path s s' := by
  induction h with
  | refl => exact Sys.Path.refl _ s
  | tail _ hst ih =>
    obtain ⟨a, ha⟩ := hst
    exact ih.tail ⟨a, ha.2⟩

/-- Every step brings its customer nearer to sleep. -/
def drowsiness (s : State m) : Nat := countAt .eating s.pc + 2 * countAt .outside s.pc + 3 * countAt .asleep s.pc

/-- How the counts change when a customer goes to another place. -/
theorem counts_update (s : State m) (i : Fin m) {c : Place} (hne : s.pc i ≠ c) :
    countAt c (Function.update s.pc i c) = countAt c s.pc + 1 ∧
      countAt (s.pc i) (Function.update s.pc i c) + 1 = countAt (s.pc i) s.pc ∧
      ∀ b, b ≠ c → b ≠ s.pc i → countAt b (Function.update s.pc i c) = countAt b s.pc := by
  refine ⟨?_, ?_, fun b hb hbi => ?_⟩
  · have h := countAt_update c s.pc i c
    rw [if_neg hne, if_pos rfl] at h
    exact h
  · have h := countAt_update (s.pc i) s.pc i c
    rw [if_pos rfl, if_neg fun e => hne e.symm] at h
    exact h
  · have h := countAt_update b s.pc i c
    rw [if_neg fun e => hbi e.symm, if_neg fun e => hb e.symm] at h
    exact h

theorem drowsiness_lt {seats : Nat} {s s' : State m} {a : Act m} (hc : Closed s) (h : (closing m seats).step s a s') :
    drowsiness s < drowsiness s' := by
  obtain ⟨hnot, hst⟩ := h
  unfold drowsiness
  rcases step_cases hst with ⟨i, -, hi, hm, rfl⟩ | ⟨i, -, hi, hm, rfl⟩ | ⟨i, -, hi, rfl⟩ | ⟨i, -, hi, he, rfl⟩ |
    ⟨i, pc', e, hi, he, hsig, rfl⟩
  · obtain ⟨k1, k2, k3⟩ := counts_update s i (c := .asleep) (by simp [hi])
    rw [hi] at k2 k3
    have k4 := k3 .eating (by simp) (by simp)
    simp only
    omega
  · rw [hc] at hm
    cases hm
  · obtain ⟨k1, k2, k3⟩ := counts_update s i (c := .eating) (by simp [hi])
    rw [hi] at k3
    have k4 := k3 .outside (by simp) (by simp)
    have k5 := k3 .asleep (by simp) (by simp)
    simp only
    omega
  · obtain ⟨k1, k2, k3⟩ := counts_update s i (c := .outside) (by simp [hi])
    rw [hi] at k2 k3
    have k4 := k3 .asleep (by simp) (by simp)
    simp only
    omega
  · exact absurd ⟨he, i, e⟩ hnot

theorem drowsiness_le (s : State m) : drowsiness s ≤ 6 * m := by
  have h1 := count_le_card (fun c => c == Place.eating) s.pc
  have h2 := count_le_card (fun c => c == Place.outside) s.pc
  have h3 := count_le_card (fun c => c == Place.asleep) s.pc
  rw [Fintype.card_fin] at h1 h2 h3
  unfold drowsiness countAt
  omega

/-- While the restaurant is closed and the last customer has not left, it stays so. -/
theorem closing_inductive {seats : Nat} (hp : 1 ≤ seats) :
    (closing m seats).Inductive fun s => Books seats s ∧ Closed s ∧ 1 ≤ s.eating := by
  refine ⟨fun s h => h, ?_⟩
  rintro s a s' ⟨hB, hc, h1⟩ ⟨hnot, hst⟩
  refine ⟨books_step hB hp (fun he => absurd he hnot) hst, (closed_step hc hnot hst).1, ?_⟩
  rcases step_cases hst with ⟨i, -, hi, hm, rfl⟩ | ⟨i, -, hi, hm, rfl⟩ | ⟨i, -, hi, rfl⟩ | ⟨i, -, hi, he, rfl⟩ |
    ⟨i, pc', e, hi, he, hsig, rfl⟩
  · exact h1
  · simp only
    omega
  · exact h1
  · simp only
    omega
  · exact absurd ⟨he, i, e⟩ hnot

/-- A closed restaurant comes to its last customer, with all the others asleep. -/
theorem exists_last {seats : Nat} (hp : 1 ≤ seats) {s : State m} (hB : Books seats s) (hc : Closed s) (h1 : 1 ≤ s.eating) :
    ∃ s', (closing m seats).Path s s' ∧ Books seats s' ∧ s'.eating = 1 ∧ ∃ i, s'.pc i = .eating ∧ ∀ j, j ≠ i → s'.pc j = .asleep := by
  have hind := closing_inductive (m := m) hp
  obtain ⟨s', hpath, hend⟩ := hind.exists_end (fun _ _ _ hI hst => drowsiness_lt hI.2.1 hst) (fun s _ => drowsiness_le s)
    ⟨hB, hc, h1⟩
  obtain ⟨hB', hc', h1'⟩ := hind.reach (Sys.Reach.path (.init ⟨hB, hc, h1⟩) hpath)
  -- who could still move is the last customer
  have hlast : ∀ i, s'.pc i ≠ .asleep → s'.eating = 1 ∧ s'.pc i = .eating := by
    intro i hi
    cases hpl : s'.pc i with
    | outside =>
      have hnot : ¬ Emptying s' (.wait i) := by
        rintro ⟨-, j, e⟩
        cases e
      exact absurd ⟨hnot, hpl, rfl⟩ (hend (.wait i) _)
    | asleep => exact absurd hpl hi
    | woken =>
      have hnot : ¬ Emptying s' (.wake i) := by
        rintro ⟨-, j, e⟩
        cases e
      exact absurd ⟨hnot, hpl, rfl⟩ (hend (.wake i) _)
    | eating =>
      refine ⟨?_, rfl⟩
      by_contra hne
      refine hend (.finish i) { s' with eating := s'.eating - 1, pc := Function.update s'.pc i .outside }
        ⟨fun he => hne he.1, hpl, ?_⟩
      rw [ramenFinish, if_neg (by omega)]
  have hseated := hB'.seated
  obtain ⟨i, hi⟩ := count_pos_iff.mp (show 0 < count Place.seated s'.pc by omega)
  have hawake : s'.pc i ≠ .asleep := by
    intro e
    rw [e] at hi
    cases hi
  obtain ⟨he, hei⟩ := hlast i hawake
  refine ⟨s', hpath, hB', he, i, hei, fun j hj => ?_⟩
  by_contra hja
  have hej := (hlast j hja).2
  have h2 := card_le_count (p := Place.seated) (f := s'.pc) (fun b : Bool => if b then i else j)
    (fun a b hab => by cases a <;> cases b <;> simp_all [Ne.symm hj]) fun b => by cases b <;> simp [hei, hej, Place.seated]
  simp at h2
  omega

/-- As many customers as the bound allows can be forgotten. -/
theorem exists_loss {seats : Nat} (hp : 1 ≤ seats) :
    ∃ s : State m, (ramen m seats).Reach s ∧ forgotten s = ((m - 1 - seats : Nat) : Int) := by
  by_cases hm : seats + 1 < m
  · obtain ⟨s, hreach, hB, hc⟩ := exists_closed hp (show seats < m by omega)
    have hL := limits_reach (by omega) hp hreach
    obtain ⟨s', hpath, hB', he, i, hi, hasleep⟩ := exists_last hp hB hc (hL.occupied hc)
    have hreach' : (ramen m seats).Reach s' := hreach.path (closing_path hpath)
    -- all the others sleep and are counted
    have hcount : countAt .asleep s'.pc = m - 1 := by
      have h := countAt_update .asleep s'.pc i .asleep
      have hall : countAt .asleep (Function.update s'.pc i .asleep) = m := by
        have := count_eq_card_iff (p := fun c => c == Place.asleep) (f := Function.update s'.pc i .asleep)
        rw [Fintype.card_fin] at this
        refine this.mpr fun j => ?_
        by_cases hj : j = i
        · simp [hj]
        · simp [Function.update_of_ne hj, hasleep j hj]
      rw [hall, hi] at h
      simp at h
      omega
    have hw := hB'.counted
    have hmax := hB'.maxSeats
    obtain ⟨pc', hsig⟩ := Signals.total Place.asleep .woken s'.next.toNat (Function.update s'.pc i .outside)
    have hst : step s' (.finish i) { s' with waiting := 0, eating := s'.next, mustWait := s'.next == s'.maxSeats, pc := pc' } :=
      ⟨hi, by rw [ramenFinish, if_pos (by omega)]; exact ⟨pc', hsig, rfl⟩⟩
    refine ⟨_, Sys.Reach.step (Act.finish i) hreach' hst, ?_⟩
    have hn : s'.next = seats := by
      unfold State.next
      rw [if_pos (by omega), hmax]
    have h1 := (signals_finish hB'.toInv hi he hsig).2
    simp only [forgotten]
    omega
  · have hzero : countAt .asleep (ramenInit m seats).pc = 0 := countAt_eq_zero_iff.mpr fun i => by simp [ramenInit]
    refine ⟨ramenInit m seats, .init rfl, ?_⟩
    rw [forgotten, hzero, show m - 1 - seats = 0 by omega]
    simp [ramenInit]

/-- Forgotten customers are never found again, and at most `m - 1 - max_seats` are forgotten, a number that is reached; so some
customer is always awake, and the restaurant never stands still. -/
theorem forgotten_customers (m seats : Nat) (hm : 1 ≤ m) (hp : 1 ≤ seats) :
    (∀ s : State m, (ramen m seats).Reach s →
      (0 ≤ forgotten s ∧ forgotten s ≤ ((m - 1 - seats : Nat) : Int)) ∧
      (∀ s', (ramen m seats).Path s s' → forgotten s ≤ forgotten s') ∧
      ∃ a s', step s a s') ∧
    ∃ s : State m, (ramen m seats).Reach s ∧ forgotten s = ((m - 1 - seats : Nat) : Int) := by
  refine ⟨fun s h => ?_, exists_loss hp⟩
  have hL := limits_reach hm hp h
  refine ⟨⟨by have := hL.asleep; unfold forgotten; omega, hL.bound⟩, fun s' hpath => ?_, ?_⟩
  · induction hpath with
    | refl => exact le_refl _
    | tail hpath hst ih =>
      obtain ⟨a, hst⟩ := hst
      exact ih.trans (forgotten_step (limits_reach hm hp (h.path hpath)).toInv hst)
  · by_contra hstuck
    have hall : ∀ i, s.pc i = .asleep := fun i => by
      by_contra hi
      exact hstuck (exists_step hi)
    have hcount := (count_eq_card_iff (p := fun c => c == Place.asleep) (f := s.pc)).mpr fun i => by simp [hall i]
    rw [Fintype.card_fin] at hcount
    have := hL.awake
    unfold countAt at this
    omega

/-- Ten customers and five seats: up to four are forgotten. -/
theorem forgotten_customers_ten : ∃ s : State 10, (ramen 10 5).Reach s ∧ forgotten s = 4 :=
  (forgotten_customers 10 5 (by decide) (by decide)).2

end OsLabs.Ramen
