import OsLabs.Lib.CondVar
import OsLabs.Lib.Sys

/-!
# The post office of `office.c`

One clerk and `m` customers. Each critical section is one step; a thread that a condition variable wakes goes on, as another step, when
it has the mutex again. Spurious wakeups are steps of their own.

The clerk never sleeps while a customer is inside, so some thread can always go on (`office_live`). But a call or a completion that
nobody waits for is lost, and the round of the clerk with it (`round_lost`); a round serves its customer when both signals find
somebody (`served_once`).

Kept beside the program are the customer that the clerk has called in its round and, for each completed round, the customer called and
the customer released.
-/

namespace OsLabs.Office

/-- Where a customer is. A customer `on` a condition variable sleeps, and one `from` it was woken and waits for the mutex. -/
inductive Place where
  | outside
  | onQueue | fromQueue
  | onProcessed | fromProcessed
  deriving DecidableEq

/-- A customer is inside from when it has passed the check of the seats until `waiting--`. -/
def Place.inside : Place → Bool
  | .outside => false
  | _ => true

/-- Where the clerk is: before `clerk_wait`, asleep on `clerk`, woken, or before `clerk_done`. -/
inductive ClerkPc where
  | idle | onClerk | fromClerk | work
  deriving DecidableEq

/-- `office_t`, the places of the clerk and of every customer, and the record of the rounds. -/
structure State (m : Nat) where
  waiting : Int
  seats : Int
  clerk : ClerkPc
  pc : Fin m → Place
  /-- The customer that the clerk has called in this round. -/
  called : Option (Fin m)
  /-- The customers called and released in each completed round. -/
  rounds : List (Option (Fin m) × Option (Fin m))

variable {m : Nat}

/-- `office_init`, with every customer outside. -/
def officeInit (m seats : Nat) : State m where
  waiting := 0
  seats := seats
  clerk := .idle
  pc _ := .outside
  called := none
  rounds := []

/-- `customer_walk_in`, up to the first `pthread_cond_wait`; without a seat the customer leaves. -/
def customerWalkIn (s : State m) (i : Fin m) : State m :=
  if s.waiting = s.seats then s
  else
    { s with
      waiting := s.waiting + 1
      clerk := if s.clerk = .onClerk then .fromClerk else s.clerk
      pc := Function.update s.pc i .onQueue }

/-- `clerk_wait`. -/
def clerkWait (s s' : State m) : Prop :=
  if s.waiting > 0 then
    ∃ who pc', SignalTo Place.onQueue .fromQueue s.pc who pc' ∧ s' = { s with clerk := .work, pc := pc', called := who }
  else
    s' = { s with clerk := .onClerk, called := none }

/-- `clerk_done`. -/
def clerkDone (s s' : State m) : Prop :=
  ∃ who pc', SignalTo Place.onProcessed .fromProcessed s.pc who pc' ∧
    s' = { s with clerk := .idle, pc := pc', rounds := s.rounds ++ [(s.called, who)] }

/-- What the clerk and the customers do. -/
inductive Act (m : Nat) where
  | walkIn (i : Fin m)
  /-- `customer_walk_in` goes on from `queue` to `processed`. -/
  | called (i : Fin m)
  /-- `customer_walk_in` goes on from `processed` to its end. -/
  | leave (i : Fin m)
  | clerkWait
  /-- `clerk_wait` goes on from `clerk` to its end. -/
  | woken
  | clerkDone
  /-- A spurious wakeup of the clerk, and of a customer. -/
  | spuriousClerk
  | spurious (i : Fin m)

/-- A spurious wakeup. -/
def Act.isSpurious : Act m → Bool
  | .spuriousClerk | .spurious _ => true
  | _ => false

/-- A step. -/
def step (s : State m) : Act m → State m → Prop
  | .walkIn i, s' => s.pc i = .outside ∧ s' = customerWalkIn s i
  | .called i, s' => s.pc i = .fromQueue ∧ s' = { s with pc := Function.update s.pc i .onProcessed }
  | .leave i, s' => s.pc i = .fromProcessed ∧ s' = { s with waiting := s.waiting - 1, pc := Function.update s.pc i .outside }
  | .clerkWait, s' => s.clerk = .idle ∧ clerkWait s s'
  | .woken, s' => s.clerk = .fromClerk ∧ s' = { s with clerk := .work }
  | .clerkDone, s' => s.clerk = .work ∧ clerkDone s s'
  | .spuriousClerk, s' => s.clerk = .onClerk ∧ s' = { s with clerk := .fromClerk }
  | .spurious i, s' =>
    (s.pc i = .onQueue ∧ s' = { s with pc := Function.update s.pc i .fromQueue }) ∨
      (s.pc i = .onProcessed ∧ s' = { s with pc := Function.update s.pc i .fromProcessed })

/-- A clerk and `m` customers in an office with `seats` seats. -/
def office (m seats : Nat) : Sys (State m) (Act m) where
  init s := s = officeInit m seats
  step := step

/-- `clerk_wait` calls when customers are inside. -/
theorem clerkWait_call {s : State m} {who : Option (Fin m)} {pc' : Fin m → Place} (hw : s.waiting > 0)
    (h : SignalTo Place.onQueue .fromQueue s.pc who pc') : clerkWait s { s with clerk := .work, pc := pc', called := who } := by
  unfold clerkWait
  rw [if_pos hw]
  exact ⟨who, pc', h, rfl⟩

/-- `clerk_wait` sleeps when nobody is inside. -/
theorem clerkWait_sleep {s : State m} (hw : ¬ s.waiting > 0) : clerkWait s { s with clerk := .onClerk, called := none } := by
  unfold clerkWait
  rw [if_neg hw]

/-! ## Nobody waits in vain for the clerk -/

/-- `waiting` counts the customers inside, and the clerk sleeps only when there are none. -/
structure Inv (seats : Nat) (s : State m) : Prop where
  seats : s.seats = seats
  waiting : s.waiting = count Place.inside s.pc
  le : s.waiting ≤ s.seats
  asleep : s.clerk = .onClerk → s.waiting = 0

/-- The number of customers inside when customer `i` moves. -/
theorem inside_update (pc : Fin m → Place) (i : Fin m) (c : Place) :
    count Place.inside (Function.update pc i c) + (pc i).inside.toNat = count Place.inside pc + c.inside.toNat :=
  count_update Place.inside pc i c

/-- A signal moves nobody in or out. -/
theorem inside_signal {a w : Place} {who : Option (Fin m)} {pc pc' : Fin m → Place} (h : SignalTo a w pc who pc')
    (ha : a.inside = w.inside) : count Place.inside pc' = count Place.inside pc := by
  have h1 := Signal.count ⟨who, h⟩ Place.inside
  rw [ha] at h1
  omega

/-- A customer that moves inside changes nothing. -/
theorem Inv.move {seats : Nat} {s : State m} (hI : Inv seats s) {i : Fin m} {c : Place} (h : c.inside = (s.pc i).inside) :
    Inv seats { s with pc := Function.update s.pc i c } := by
  have h1 := inside_update s.pc i c
  rw [h] at h1
  refine ⟨hI.seats, ?_, hI.le, hI.asleep⟩
  rw [hI.waiting]
  simp
  omega

/-- Every step keeps the invariant. -/
theorem inv_step {seats : Nat} {s s' : State m} {a : Act m} (hI : Inv seats s) (h : step s a s') : Inv seats s' := by
  have hw := hI.waiting
  have hle := hI.le
  cases a with
  | walkIn i =>
    obtain ⟨hi, rfl⟩ := h
    unfold customerWalkIn
    by_cases hfull : s.waiting = s.seats
    · rw [if_pos hfull]
      exact hI
    · rw [if_neg hfull]
      have h1 := inside_update s.pc i .onQueue
      simp [hi, Place.inside] at h1
      refine ⟨hI.seats, by simp [h1, hw], by simp; omega, ?_⟩
      intro hc
      by_cases ha : s.clerk = .onClerk
      · simp [ha] at hc
      · simp [ha] at hc
  | called i =>
    obtain ⟨hi, rfl⟩ := h
    exact hI.move (by rw [hi]; rfl)
  | leave i =>
    obtain ⟨hi, rfl⟩ := h
    have h1 := inside_update s.pc i .outside
    simp [hi, Place.inside] at h1
    refine ⟨hI.seats, by simp; omega, by simp; omega, ?_⟩
    intro hc
    have := hI.asleep hc
    omega
  | clerkWait =>
    obtain ⟨-, h⟩ := h
    unfold clerkWait at h
    split at h
    · obtain ⟨who, pc', hsig, rfl⟩ := h
      exact ⟨hI.seats, by simp [hw, inside_signal hsig rfl], hle, fun e => by cases e⟩
    · subst h
      exact ⟨hI.seats, hw, hle, fun _ => by simp; omega⟩
  | woken =>
    obtain ⟨-, rfl⟩ := h
    exact ⟨hI.seats, hw, hle, fun e => by cases e⟩
  | clerkDone =>
    obtain ⟨-, who, pc', hsig, rfl⟩ := h
    exact ⟨hI.seats, by simp [hw, inside_signal hsig rfl], hle, fun e => by cases e⟩
  | spuriousClerk =>
    obtain ⟨-, rfl⟩ := h
    exact ⟨hI.seats, hw, hle, fun e => by cases e⟩
  | spurious i =>
    rcases h with ⟨hi, rfl⟩ | ⟨hi, rfl⟩
    · exact hI.move (by rw [hi]; rfl)
    · exact hI.move (by rw [hi]; rfl)

/-- The invariant holds in every reachable state. -/
theorem inv_reach {seats : Nat} {s : State m} (h : (office m seats).Reach s) : Inv seats s := by
  have hind : (office m seats).Inductive (Inv seats) := by
    refine ⟨?_, fun _ _ _ hI hs => inv_step hI hs⟩
    intro s hs
    have h1 : count Place.inside (officeInit m seats).pc = 0 := count_eq_zero_iff.mpr fun i => rfl
    rw [hs]
    exact ⟨rfl, by rw [h1]; rfl, by simp [officeInit], fun e => by cases e⟩
  exact hind.reach h

/-- Unless the clerk sleeps, it can go on. -/
theorem clerk_goes_on {s : State m} (h : s.clerk ≠ .onClerk) : ∃ a s', a.isSpurious = false ∧ step s a s' := by
  cases hc : s.clerk with
  | idle =>
    by_cases hw : s.waiting > 0
    · obtain ⟨who, pc', hsig⟩ := SignalTo.total Place.onQueue .fromQueue s.pc
      exact ⟨.clerkWait, _, rfl, hc, clerkWait_call hw hsig⟩
    · exact ⟨.clerkWait, _, rfl, hc, clerkWait_sleep hw⟩
  | onClerk => exact absurd hc h
  | fromClerk => exact ⟨.woken, _, rfl, hc, rfl⟩
  | work =>
    obtain ⟨who, pc', hsig⟩ := SignalTo.total Place.onProcessed .fromProcessed s.pc
    exact ⟨.clerkDone, _, rfl, hc, who, pc', hsig, rfl⟩

/-- When nobody is inside, everybody is outside. -/
theorem outside_of_count (pc : Fin m → Place) (h : count Place.inside pc = 0) (i : Fin m) : pc i = .outside := by
  have h1 := count_eq_zero_iff.mp h i
  cases hp : pc i with
  | outside => rfl
  | onQueue | fromQueue | onProcessed | fromProcessed =>
    rw [hp] at h1
    cases h1

/-- `waiting` counts the customers inside, who are at most `seats`; the clerk sleeps only when there are none; and some thread can
always go on without a spurious wakeup. -/
theorem office_live (m seats : Nat) (hm : 1 ≤ m) {s : State m} (h : (office m seats).Reach s) :
    s.waiting = count Place.inside s.pc ∧ 0 ≤ s.waiting ∧ s.waiting ≤ seats ∧ (s.clerk = .onClerk → s.waiting = 0) ∧
      ∃ a s', a.isSpurious = false ∧ step s a s' := by
  have hI := inv_reach h
  have hw := hI.waiting
  have hle := hI.le
  have hseats := hI.seats
  refine ⟨hw, by omega, by omega, hI.asleep, ?_⟩
  by_cases hc : s.clerk = .onClerk
  · have h0 : count Place.inside s.pc = 0 := by
      have := hI.asleep hc
      omega
    exact ⟨.walkIn ⟨0, hm⟩, _, rfl, outside_of_count s.pc h0 _, rfl⟩
  · exact clerk_goes_on hc

/-- The witness: the clerk has slept and was woken by the first customer, has called it in the next round, and the second has taken a
seat. -/
theorem office_live_two : ∃ s : State 2, s.clerk = .work ∧ s.pc 0 = .fromQueue ∧ s.pc 1 = .onQueue ∧ s.waiting = 2 ∧
    s.waiting = count Place.inside s.pc ∧ ∃ a s', a.isSpurious = false ∧ step s a s' := by
  have h0 : (office 2 2).Reach (officeInit 2 2) := Sys.Reach.init rfl
  have h1 := Sys.Reach.step Act.clerkWait h0 ⟨rfl, clerkWait_sleep (by decide)⟩
  have h2 := Sys.Reach.step (Act.walkIn 0) h1 ⟨rfl, rfl⟩
  have h3 := Sys.Reach.step Act.woken h2 ⟨rfl, rfl⟩
  have h4 := Sys.Reach.step Act.clerkDone h3 ⟨rfl, none, _, SignalTo.lost (by decide), rfl⟩
  have h5 := Sys.Reach.step Act.clerkWait h4 ⟨rfl, clerkWait_call (by decide) (SignalTo.wake 0 (by decide))⟩
  have h6 := Sys.Reach.step (Act.walkIn 1) h5 ⟨by decide, rfl⟩
  have hlive := office_live 2 2 (by decide) h6
  exact ⟨_, by decide, by decide, by decide, by decide, hlive.1, hlive.2.2.2.2⟩

/-! ## Rounds -/

/-- The office without spurious wakeups. -/
def officeCalm (m seats : Nat) : Sys (State m) (Act m) := (office m seats).guard fun _ a => a.isSpurious = false

/-- The completed calls of `clerk_done`. -/
def State.done (s : State m) : Nat := s.rounds.length

/-- The customers that `clerk_done` has released from `processed`. -/
def State.released (s : State m) : Nat := s.rounds.countP fun r => r.2.isSome

/-- Each completed round has called one customer and released the same, so that between rounds as many customers are released as rounds
are done. -/
def Served (s : State m) : Prop :=
  (∀ r ∈ s.rounds, ∃ i, r = (some i, some i)) ∧ (s.clerk = .idle → s.done = s.released)

/-- The clerk calls only when a customer sleeps on `queue`, and is done only when one sleeps on `processed`. -/
structure Prompt (s : State m) (a : Act m) : Prop where
  wait : a = .clerkWait → 0 < countAt .onQueue s.pc
  done : a = .clerkDone → 0 < countAt .onProcessed s.pc

/-- A customer is called from when it is signalled on `queue` until it is signalled on `processed`. -/
def Place.called : Place → Bool
  | .fromQueue | .onProcessed => true
  | _ => false

/-- Between rounds nobody is called; in a round, only the customer of the round. The clerk does not sleep. -/
def State.Phase (s : State m) : Prop :=
  match s.clerk with
  | .idle => ∀ j, (s.pc j).called = false
  | .work => ∃ i, s.called = some i ∧ ∀ j, (s.pc j).called = true → j = i
  | _ => False

/-- The invariant of a prompt run. -/
structure InRound (seats : Nat) (s : State m) : Prop extends Inv seats s where
  served : ∀ r ∈ s.rounds, ∃ i, r = (some i, some i)
  phase : s.Phase

/-- A prompt run serves every customer. -/
theorem InRound.serves {seats : Nat} {s : State m} (hR : InRound seats s) : Served s := by
  refine ⟨hR.served, fun _ => ?_⟩
  unfold State.done State.released
  refine (List.countP_eq_length.mpr fun r hr => ?_).symm
  obtain ⟨i, rfl⟩ := hR.served r hr
  rfl

/-- A customer that moves and is not called afterwards, or was called before, keeps the phase. -/
theorem phase_move {s : State m} (hP : s.Phase) {i : Fin m} {c : Place} (h : c.called = true → (s.pc i).called = true)
    {s' : State m} (hclerk : s'.clerk = s.clerk) (hcalled : s'.called = s.called) (hpc : s'.pc = Function.update s.pc i c) :
    s'.Phase := by
  have moved : ∀ j, (s'.pc j).called = true → (s.pc j).called = true := by
    intro j hj
    rw [hpc] at hj
    by_cases hji : j = i
    · subst hji
      rw [Function.update_self] at hj
      exact h hj
    · rwa [Function.update_of_ne hji] at hj
  unfold State.Phase at hP ⊢
  rw [hclerk]
  cases hc : s.clerk with
  | idle =>
    rw [hc] at hP
    intro j
    have h1 := moved j
    rw [hP j] at h1
    simpa using h1
  | work =>
    rw [hc] at hP
    obtain ⟨i, hi, hj⟩ := hP
    exact ⟨i, hcalled.trans hi, fun j h => hj j (moved j h)⟩
  | onClerk | fromClerk =>
    rw [hc] at hP
    exact hP

/-- With a customer asleep on `queue`, `clerk_wait` calls one. -/
theorem clerkWait_calls {seats : Nat} {s s' : State m} (hI : Inv seats s) (hq : 0 < countAt .onQueue s.pc) (h : clerkWait s s') :
    ∃ i, s.pc i = .onQueue ∧
      s' = { s with clerk := .work, pc := Function.update s.pc i .fromQueue, called := some i } := by
  have hin : 0 < count Place.inside s.pc := by
    obtain ⟨i, hi⟩ := exists_of_countAt_pos hq
    exact count_pos i (by rw [hi]; rfl)
  have hw := hI.waiting
  unfold clerkWait at h
  rw [if_pos (by omega)] at h
  obtain ⟨who, pc', hsig, rfl⟩ := h
  obtain ⟨i, rfl, hi, rfl⟩ := hsig.wakes hq
  exact ⟨i, hi, rfl⟩

/-- A prompt step keeps the invariant. -/
theorem inRound_step {seats : Nat} {s s' : State m} {a : Act m} (hR : InRound seats s) (hs : a.isSpurious = false)
    (hG : Prompt s a) (h : step s a s') : InRound seats s' := by
  have hI := inv_step hR.toInv h
  have hP := hR.phase
  cases a with
  | walkIn i =>
    obtain ⟨hi, rfl⟩ := h
    unfold customerWalkIn at hI ⊢
    by_cases hfull : s.waiting = s.seats
    · rw [if_pos hfull]
      exact hR
    · rw [if_neg hfull] at hI ⊢
      have hc : s.clerk ≠ .onClerk := by
        intro hc
        unfold State.Phase at hP
        rw [hc] at hP
        exact hP
      refine ⟨hI, hR.served, phase_move hP (c := .onQueue) (i := i) (fun e => by cases e) ?_ rfl rfl⟩
      simp [hc]
  | called i =>
    obtain ⟨hi, rfl⟩ := h
    exact ⟨hI, hR.served, phase_move hP (c := .onProcessed) (i := i) (fun _ => by rw [hi]; rfl) rfl rfl rfl⟩
  | leave i =>
    obtain ⟨hi, rfl⟩ := h
    exact ⟨hI, hR.served, phase_move hP (c := .outside) (i := i) (fun e => by cases e) rfl rfl rfl⟩
  | clerkWait =>
    obtain ⟨hc, h⟩ := h
    obtain ⟨i, hi, rfl⟩ := clerkWait_calls hR.toInv (hG.wait rfl) h
    unfold State.Phase at hP
    rw [hc] at hP
    refine ⟨hI, hR.served, i, rfl, fun j hj => ?_⟩
    change (Function.update s.pc i .fromQueue j).called = true at hj
    by_contra hji
    rw [Function.update_of_ne hji, hP j] at hj
    cases hj
  | woken =>
    unfold State.Phase at hP
    rw [h.1] at hP
    exact hP.elim
  | clerkDone =>
    obtain ⟨hc, who, pc', hsig, rfl⟩ := h
    obtain ⟨j, rfl, hj, rfl⟩ := hsig.wakes (hG.done rfl)
    unfold State.Phase at hP
    rw [hc] at hP
    obtain ⟨i, hi, honly⟩ := hP
    have hji : j = i := honly j (by rw [hj]; rfl)
    subst hji
    refine ⟨hI, fun r hr => ?_, fun k => ?_⟩
    · rcases List.mem_append.mp hr with hr | hr
      · exact hR.served r hr
      · rw [List.mem_singleton.mp hr, hi]
        exact ⟨j, rfl⟩
    · change (Function.update s.pc j .fromProcessed k).called = false
      by_cases hkj : k = j
      · subst hkj
        rw [Function.update_self]
        rfl
      · rw [Function.update_of_ne hkj]
        by_contra hk
        exact hkj (honly k (by simpa using hk))
  | spuriousClerk | spurious _ => cases hs

/-- The invariant holds along prompt runs. -/
theorem inRound_reach {seats : Nat} {s : State m} (h : ((officeCalm m seats).guard Prompt).Reach s) : InRound seats s := by
  have hind : ((officeCalm m seats).guard Prompt).Inductive (InRound seats) := by
    refine ⟨?_, fun s a s' hR hs => inRound_step hR hs.2.1 hs.1 hs.2.2⟩
    intro s hs
    have hI : Inv seats s := inv_reach (Sys.Reach.init hs)
    rw [hs] at hI ⊢
    exact ⟨hI, fun r hr => by simp [officeInit] at hr, fun j => rfl⟩
  exact hind.reach h

/-- A round that has called nobody is lost. -/
theorem lost_of_called_none (seats : Nat) {s : State m} (hc : s.clerk = .work) (hn : s.called = none) :
    ∃ s', (officeCalm m seats).Path s s' ∧ ¬ Served s' := by
  obtain ⟨who, pc', hsig⟩ := SignalTo.total Place.onProcessed .fromProcessed s.pc
  have hst : (officeCalm m seats).step s Act.clerkDone
      { s with clerk := .idle, pc := pc', rounds := s.rounds ++ [(s.called, who)] } := ⟨rfl, hc, who, pc', hsig, rfl⟩
  refine ⟨_, Sys.Path.head _ hst (Sys.Path.refl _ _), fun hS => ?_⟩
  obtain ⟨i, hi⟩ := hS.1 (s.called, who) (List.mem_append_right _ (List.mem_singleton_self _))
  rw [hn] at hi
  cases hi

/-- A clerk that was woken on `clerk` calls nobody. -/
theorem lost_of_fromClerk (seats : Nat) {s : State m} (hc : s.clerk = .fromClerk) (hn : s.called = none) :
    ∃ s', (officeCalm m seats).Path s s' ∧ ¬ Served s' := by
  have hst : (officeCalm m seats).step s Act.woken { s with clerk := .work } := ⟨rfl, hc, rfl⟩
  obtain ⟨s', hpath, hS⟩ := lost_of_called_none seats (s := { s with clerk := .work }) rfl hn
  exact ⟨s', Sys.Path.head _ hst hpath, hS⟩

/-- The first step that is not prompt loses the round, or makes it possible that it is lost. -/
theorem lost_of_not_prompt {seats : Nat} (hm : 1 ≤ m) (hp : 1 ≤ seats) {s s' : State m} {a : Act m}
    (h : ((officeCalm m seats).guard Prompt).Reach s) (hG : ¬ Prompt s a) (hst : step s a s') :
    ∃ s'', (officeCalm m seats).Path s' s'' ∧ ¬ Served s'' := by
  have hI := (inRound_reach h).toInv
  have hwait := hI.waiting
  have hseats := hI.seats
  by_cases hd : a = .clerkDone → 0 < countAt .onProcessed s.pc
  · have hw : a = .clerkWait ∧ countAt .onQueue s.pc = 0 := by
      by_contra hn
      push Not at hn
      exact hG ⟨fun e => Nat.pos_of_ne_zero (hn e), hd⟩
    obtain ⟨rfl, hq⟩ := hw
    obtain ⟨-, hst⟩ := hst
    unfold clerkWait at hst
    split at hst
    · obtain ⟨who, pc', hsig, rfl⟩ := hst
      exact lost_of_called_none seats rfl (hsig.eq_none hq)
    · rename_i h0
      subst hst
      -- the next customer wakes the clerk, which then does not call it
      have hout := outside_of_count s.pc (by omega) ⟨0, hm⟩
      have h1 : (officeCalm m seats).step { s with clerk := .onClerk, called := none } (.walkIn ⟨0, hm⟩)
          { s with
            waiting := s.waiting + 1
            clerk := .fromClerk
            pc := Function.update s.pc ⟨0, hm⟩ .onQueue
            called := none } := by
        refine ⟨rfl, hout, ?_⟩
        unfold customerWalkIn
        rw [if_neg (by simp; omega)]
        rfl
      obtain ⟨s'', hpath, hS⟩ := lost_of_fromClerk seats (s := { s with
            waiting := s.waiting + 1
            clerk := .fromClerk
            pc := Function.update s.pc ⟨0, hm⟩ .onQueue
            called := none }) rfl rfl
      exact ⟨s'', Sys.Path.head _ h1 hpath, hS⟩
  · push Not at hd
    obtain ⟨rfl, hd⟩ := hd
    obtain ⟨-, who, pc', hsig, rfl⟩ := hst
    refine ⟨_, Sys.Path.refl _ _, fun hS => ?_⟩
    obtain ⟨i, hi⟩ := hS.1 (s.called, who) (List.mem_append_right _ (List.mem_singleton_self _))
    rw [hsig.eq_none (by omega)] at hi
    exact absurd (congrArg Prod.snd hi) (by simp)

/-- In a run in which the clerk calls only customers that sleep on `queue` and is done only when one sleeps on `processed`, each round
calls one customer and releases the same. -/
theorem served_once (m seats : Nat) {s : State m} (h : ((officeCalm m seats).guard Prompt).Reach s) : Served s :=
  (inRound_reach h).serves

/-- The witness: a customer walks in, is called, waits for the clerk and is released. -/
theorem served_once_one : ∃ s : State 1, s.rounds = [(some 0, some 0)] ∧ s.clerk = .idle ∧ s.pc 0 = .outside ∧ Served s := by
  have h0 : ((officeCalm 1 1).guard Prompt).Reach (officeInit 1 1) := Sys.Reach.init rfl
  have h1 := Sys.Reach.step (Act.walkIn 0) h0 ⟨⟨by simp, by simp⟩, rfl, rfl, rfl⟩
  have h2 := Sys.Reach.step Act.clerkWait h1
    ⟨⟨fun _ => by decide, by simp⟩, rfl, rfl, clerkWait_call (by decide) (SignalTo.wake 0 (by decide))⟩
  have h3 := Sys.Reach.step (Act.called 0) h2 ⟨⟨by simp, by simp⟩, rfl, by decide, rfl⟩
  have h4 := Sys.Reach.step Act.clerkDone h3
    ⟨⟨by simp, fun _ => by decide⟩, rfl, rfl, some 0, _, SignalTo.wake 0 (by decide), rfl⟩
  have h5 := Sys.Reach.step (Act.leave 0) h4 ⟨⟨by simp, by simp⟩, rfl, by decide, rfl⟩
  exact ⟨_, rfl, rfl, by decide, served_once 1 1 h5⟩

/-- The clerk sleeps, and the customer that walks in wakes it. -/
def clerkFirst : State 1 := customerWalkIn { officeInit 1 1 with clerk := .onClerk } 0

/-- The clerk that the customer has woken does not call it, and its `clerk_done` releases nobody: one round is done and nobody is
released. -/
theorem round_lost :
    ¬ ∀ (m seats : Nat), 1 ≤ seats → ∀ s : State m, (officeCalm m seats).Reach s → Served s := by
  intro h
  have h0 : (officeCalm 1 1).Reach (officeInit 1 1) := Sys.Reach.init rfl
  have h1 := Sys.Reach.step Act.clerkWait h0 ⟨rfl, rfl, clerkWait_sleep (by decide)⟩
  have h2 : (officeCalm 1 1).Reach clerkFirst := Sys.Reach.step (Act.walkIn 0) h1 ⟨rfl, rfl, rfl⟩
  have h3 := Sys.Reach.step Act.woken h2 ⟨rfl, rfl, rfl⟩
  have h4 := Sys.Reach.step Act.clerkDone h3 ⟨rfl, rfl, none, _, SignalTo.lost (by decide), rfl⟩
  exact absurd ((h 1 1 (by decide) _ h4).2 rfl) (by decide)

end OsLabs.Office
