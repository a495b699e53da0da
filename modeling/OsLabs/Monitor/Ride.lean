import OsLabs.Lib.CondVar
import OsLabs.Lib.Sys

/-!
# The ride of `ride.c`

One cart and `m` passengers. Each critical section is one step, and so is each semaphore operation and each read of `riding` in the
loop of `cart_load`; there are no spurious wakeups. `want_to_leave_count` is not set by `ride_init`, so its first value is arbitrary.
A failed assertion ends the program: `failed` is set and there are no more steps.
-/

namespace OsLabs.Ride

/-- Where a passenger is. A passenger `on` a condition variable sleeps, and one `from` it was signalled and waits for the mutex. -/
inductive Place where
  /-- Before `passenger_board`. -/
  | outside
  | onQueue | fromQueue
  | onCart | fromCart
  /-- Between `passenger_board` and `passenger_unboard`. -/
  | aboard
  | onLeave | fromLeave
  deriving DecidableEq

/-- Where the cart is. -/
inductive CartPc where
  /-- Before the first critical section of `cart_load`. -/
  | load
  /-- `while (r->riding != min) continue`. -/
  | spin (min : Int)
  /-- Before the second critical section, which opens the queue. -/
  | loaded (min : Int)
  /-- Before `sem_wait(&r->all_ready)`. -/
  | ready
  /-- Before the third critical section, in which the cart departs. -/
  | depart
  /-- Before `sem_wait(&r->passengers_ready_to_leave)` of `cart_unload`. -/
  | unload
  /-- Before the critical section of `cart_unload`. -/
  | leave

/-- `ride_t`, the places of the cart and of every passenger, and whether the assertion failed. -/
structure State (m : Nat) where
  waiting : Int
  seats : Int
  wantToLeaveCount : Int
  riding : Int
  mustWait : Bool
  allReady : Nat
  passengersReadyToLeave : Nat
  cart : CartPc
  pc : Fin m → Place
  failed : Bool

variable {m : Nat}

/-- `ride_init`, with every passenger outside. -/
def rideInit (m seats : Nat) (count : Int) : State m where
  waiting := 0
  seats := seats
  wantToLeaveCount := count
  riding := 0
  mustWait := false
  allReady := 0
  passengersReadyToLeave := 0
  cart := .load
  pc _ := .outside
  failed := false

/-- `cart_load` and `cart_unload`. -/
def cartStep (s s' : State m) : Prop :=
  match s.cart with
  | .load =>
    let min := if s.waiting < s.seats then s.waiting else s.seats
    ∃ pc', Signals Place.onQueue .fromQueue min.toNat s.pc pc' ∧ s' = { s with pc := pc', cart := .spin min }
  | .spin min => s' = if s.riding = min then { s with cart := .loaded min } else s
  | .loaded min => s' = { s with mustWait := if min < s.seats then false else s.mustWait, cart := .ready }
  | .ready => 0 < s.allReady ∧ s' = { s with allReady := s.allReady - 1, cart := .depart }
  | .depart => ∃ pc', Signals Place.onCart .fromCart s.riding.toNat s.pc pc' ∧ s' = { s with pc := pc', cart := .unload }
  | .unload =>
    0 < s.passengersReadyToLeave ∧
      s' = { s with passengersReadyToLeave := s.passengersReadyToLeave - 1, cart := .leave }
  | .leave =>
    ∃ pc', Signals Place.onLeave .fromLeave s.riding.toNat s.pc pc' ∧ s' = { s with riding := 0, pc := pc', cart := .load }

/-- `passenger_board` from `riding++` to `pthread_cond_wait(&r->cart, ..)`. -/
def enter (s : State m) (i : Fin m) : State m :=
  let s := { s with riding := s.riding + 1 }
  if s.riding ≤ s.seats then
    let s := if s.riding = s.seats then { s with mustWait := true, allReady := s.allReady + 1 } else s
    { s with pc := Function.update s.pc i .onCart }
  else
    { s with failed := true }

/-- `passenger_board` until the passenger sleeps on `queue` or `cart`. -/
def passengerBoard (s : State m) (i : Fin m) : State m :=
  if s.riding = s.seats ∨ s.mustWait = true then
    { s with waiting := s.waiting + 1, pc := Function.update s.pc i .onQueue }
  else
    enter s i

/-- `passenger_unboard` until the passenger sleeps on `want_to_leave`. -/
def passengerUnboard (s : State m) (i : Fin m) : State m :=
  let s := { s with wantToLeaveCount := s.wantToLeaveCount + 1 }
  let s :=
    if s.wantToLeaveCount = s.riding then
      { s with passengersReadyToLeave := s.passengersReadyToLeave + 1, wantToLeaveCount := 0 }
    else s
  { s with pc := Function.update s.pc i .onLeave }

/-- What the cart and the passengers do. -/
inductive Act (m : Nat) where
  | cart
  | board (i : Fin m)
  /-- `passenger_board` goes on from `queue`. -/
  | called (i : Fin m)
  /-- `passenger_board` goes on from `cart`. -/
  | boarded (i : Fin m)
  | unboard (i : Fin m)
  /-- `passenger_unboard` goes on from `want_to_leave`. -/
  | unboarded (i : Fin m)

/-- A step, of a program that has not failed. -/
def step (s : State m) (a : Act m) (s' : State m) : Prop :=
  s.failed = false ∧
    match a with
    | .cart => cartStep s s'
    | .board i => s.pc i = .outside ∧ s' = passengerBoard s i
    | .called i => s.pc i = .fromQueue ∧ s' = enter { s with waiting := s.waiting - 1 } i
    | .boarded i => s.pc i = .fromCart ∧ s' = { s with pc := Function.update s.pc i .aboard }
    | .unboard i => s.pc i = .aboard ∧ s' = passengerUnboard s i
    | .unboarded i => s.pc i = .fromLeave ∧ s' = { s with pc := Function.update s.pc i .outside }

/-- A cart with `seats` seats and `m` passengers. -/
def ride (m seats : Nat) : Sys (State m) (Act m) where
  init s := ∃ count, s = rideInit m seats count
  step := step

/-! ## What a step does -/

/-- What the capacity depends on: the passengers asleep on `queue` and those called from it are only counted. -/
structure View where
  waiting : Int
  seats : Int
  riding : Int
  mustWait : Bool
  allReady : Nat
  cart : CartPc
  queued : Nat
  called : Nat
  failed : Bool

/-- The view of a state. -/
def State.view (s : State m) : View where
  waiting := s.waiting
  seats := s.seats
  riding := s.riding
  mustWait := s.mustWait
  allReady := s.allReady
  cart := s.cart
  queued := countAt .onQueue s.pc
  called := countAt .fromQueue s.pc
  failed := s.failed

/-- A passenger enters the cart. -/
def View.enter (v : View) : View :=
  { v with
    riding := v.riding + 1
    mustWait := v.mustWait || v.riding + 1 == v.seats
    allReady := if v.riding + 1 = v.seats then v.allReady + 1 else v.allReady }

/-- The steps of the cart, seen in the view. -/
def View.cartStep (v v' : View) : Prop :=
  match v.cart with
  | .load =>
    let k := if v.waiting < v.seats then v.waiting else v.seats
    v' = { v with queued := v.queued - k.toNat, called := v.called + min k.toNat v.queued, cart := .spin k }
  | .spin min => v' = if v.riding = min then { v with cart := .loaded min } else v
  | .loaded min => v' = { v with mustWait := if min < v.seats then false else v.mustWait, cart := .ready }
  | .ready => 0 < v.allReady ∧ v' = { v with allReady := v.allReady - 1, cart := .depart }
  | .depart => v' = { v with cart := .unload }
  | .unload => v' = { v with cart := .leave }
  | .leave => v' = { v with riding := 0, cart := .load }

/-- Signals on a condition variable that is not `queue` leave the view. -/
theorem view_signals {s : State m} {a w : Place} {n : Nat} {pc' : Fin m → Place} (h : Signals a w n s.pc pc') (haw : a ≠ w)
    (ha : a ≠ .onQueue ∧ a ≠ .fromQueue) (hw : w ≠ .onQueue ∧ w ≠ .fromQueue) :
    countAt .onQueue pc' = s.view.queued ∧ countAt .fromQueue pc' = s.view.called :=
  ⟨h.countAt_other haw ha.1 hw.1, h.countAt_other haw ha.2 hw.2⟩

/-- A step of the cart, seen in the view. -/
theorem view_cartStep {s s' : State m} (h : cartStep s s') : s.view.cartStep s'.view := by
  have hv : s.view.cart = s.cart := rfl
  unfold cartStep at h
  unfold View.cartStep
  cases hc : s.cart with
  | load =>
    rw [hc] at h hv
    obtain ⟨pc', hsig, rfl⟩ := h
    rw [hv]
    simp [State.view, hsig.countAt_asleep, hsig.countAt_woken]
    exact ⟨rfl, rfl, rfl⟩
  | spin min =>
    rw [hc] at h hv
    subst h
    rw [hv]
    by_cases hr : s.riding = min
    · simp [State.view, hr]
    · simp [State.view, hr]
  | loaded min =>
    rw [hc] at h hv
    subst h
    rw [hv]
    rfl
  | ready =>
    rw [hc] at h hv
    obtain ⟨hpos, rfl⟩ := h
    rw [hv]
    exact ⟨hpos, rfl⟩
  | depart =>
    rw [hc] at h hv
    obtain ⟨pc', hsig, rfl⟩ := h
    obtain ⟨h1, h2⟩ := view_signals hsig (by simp) (by simp) (by simp)
    rw [hv]
    simp [State.view, h1, h2]
  | unload =>
    rw [hc] at h hv
    obtain ⟨-, rfl⟩ := h
    rw [hv]
    rfl
  | leave =>
    rw [hc] at h hv
    obtain ⟨pc', hsig, rfl⟩ := h
    obtain ⟨h1, h2⟩ := view_signals hsig (by simp) (by simp) (by simp)
    rw [hv]
    simp [State.view, h1, h2]

/-- The view when passenger `i` moves between places that the view does not count. -/
theorem view_move {s : State m} {i : Fin m} {c : Place} (hi : s.pc i ≠ .onQueue ∧ s.pc i ≠ .fromQueue)
    (hc : c ≠ .onQueue ∧ c ≠ .fromQueue) :
    countAt .onQueue (Function.update s.pc i c) = s.view.queued ∧
      countAt .fromQueue (Function.update s.pc i c) = s.view.called := by
  have h1 := countAt_update .onQueue s.pc i c
  have h2 := countAt_update .fromQueue s.pc i c
  rw [if_neg hi.1, if_neg hc.1] at h1
  rw [if_neg hi.2, if_neg hc.2] at h2
  exact ⟨h1, h2⟩

/-- A passenger that finds a seat enters the cart; the view counts it no more if it was called. -/
theorem view_enter {s : State m} {i : Fin m} (hle : s.riding + 1 ≤ s.seats) (hi : s.pc i ≠ .onQueue) :
    (enter s i).view = { s.view.enter with called := s.view.called - if s.pc i = .fromQueue then 1 else 0 } := by
  have h1 := countAt_update .onQueue s.pc i .onCart
  have h2 := countAt_update .fromQueue s.pc i .onCart
  rw [if_neg hi] at h1
  simp at h1 h2
  unfold enter
  by_cases hr : s.riding + 1 = s.seats
  · simp [State.view, View.enter, hr, h1]
    omega
  · simp [State.view, View.enter, hr, hle, h1]
    omega

/-- A newcomer that finds a free seat and the queue open enters the cart. -/
theorem view_board {s : State m} {i : Fin m} (hi : s.pc i = .outside) (hw : ¬ (s.riding = s.seats ∨ s.mustWait = true))
    (hle : s.riding + 1 ≤ s.seats) : (passengerBoard s i).view = s.view.enter := by
  unfold passengerBoard
  rw [if_neg hw, view_enter hle (by simp [hi])]
  simp [hi]
  rfl

/-- The steps of the passengers and of the cart, seen in the view. Last comes the failure of the assertion. -/
theorem view_step {s s' : State m} {a : Act m} (h : step s a s') :
    (a = .cart ∧ s.view.cartStep s'.view) ∨
    ((∃ i, a = .board i) ∧ (s.riding = s.seats ∨ s.mustWait = true) ∧
      s'.view = { s.view with waiting := s.waiting + 1, queued := s.view.queued + 1 }) ∨
    ((∃ i, a = .board i) ∧ s.riding ≠ s.seats ∧ s.mustWait = false ∧ s'.view = s.view.enter) ∨
    ((∃ i, a = .called i) ∧ 0 < s.view.called ∧
      s'.view = { s.view.enter with waiting := s.waiting - 1, called := s.view.called - 1 }) ∨
    (a ≠ .cart ∧ s'.view = s.view) ∨
    ((s.seats < s.riding + 1 ∧ (s.riding ≠ s.seats ∨ 0 < s.view.called)) ∧ s'.cart = s.cart ∧ s'.riding = s.riding + 1) := by
  obtain ⟨hf, h⟩ := h
  cases a with
  | cart => exact Or.inl ⟨rfl, view_cartStep h⟩
  | board i =>
    obtain ⟨hi, rfl⟩ := h
    by_cases hw : s.riding = s.seats ∨ s.mustWait = true
    · have h1 := countAt_update .onQueue s.pc i .onQueue
      have h2 := countAt_update .fromQueue s.pc i .onQueue
      simp [hi] at h1 h2
      unfold passengerBoard
      rw [if_pos hw]
      exact Or.inr (Or.inl ⟨⟨i, rfl⟩, hw, by simp [State.view, h1, h2]⟩)
    · have hw' := hw
      push Not at hw'
      by_cases hle : s.riding + 1 ≤ s.seats
      · exact Or.inr (Or.inr (Or.inl ⟨⟨i, rfl⟩, hw'.1, by simpa using hw'.2, view_board hi hw hle⟩))
      · refine Or.inr (Or.inr (Or.inr (Or.inr (Or.inr ⟨⟨by omega, Or.inl hw'.1⟩, ?_⟩))))
        unfold passengerBoard enter
        simp [hw, hle]
  | called i =>
    obtain ⟨hi, rfl⟩ := h
    have hpos : 0 < s.view.called := countAt_pos i hi
    by_cases hle : s.riding + 1 ≤ s.seats
    · refine Or.inr (Or.inr (Or.inr (Or.inl ⟨⟨i, rfl⟩, hpos, ?_⟩)))
      have hv := view_enter (s := { s with waiting := s.waiting - 1 }) (i := i) hle (by simp [hi])
      rw [hv]
      simp [hi, State.view, View.enter]
      rfl
    · refine Or.inr (Or.inr (Or.inr (Or.inr (Or.inr ⟨⟨by omega, Or.inr hpos⟩, ?_⟩))))
      unfold enter
      simp [hle]
  | boarded i =>
    obtain ⟨hi, rfl⟩ := h
    obtain ⟨h1, h2⟩ := view_move (s := s) (i := i) (c := .aboard) (by simp [hi]) (by simp)
    exact Or.inr (Or.inr (Or.inr (Or.inr (Or.inl ⟨by simp, by simp [State.view, h1, h2]⟩))))
  | unboard i =>
    obtain ⟨hi, rfl⟩ := h
    obtain ⟨h1, h2⟩ := view_move (s := s) (i := i) (c := .onLeave) (by simp [hi]) (by simp)
    refine Or.inr (Or.inr (Or.inr (Or.inr (Or.inl ⟨by simp, ?_⟩))))
    unfold passengerUnboard
    by_cases hc : s.wantToLeaveCount + 1 = s.riding
    · simp [State.view, hc, h1, h2]
    · simp [State.view, hc, h1, h2]
  | unboarded i =>
    obtain ⟨hi, rfl⟩ := h
    obtain ⟨h1, h2⟩ := view_move (s := s) (i := i) (c := .outside) (by simp [hi]) (by simp)
    exact Or.inr (Or.inr (Or.inr (Or.inr (Or.inl ⟨by simp, by simp [State.view, h1, h2]⟩))))

end OsLabs.Ride
