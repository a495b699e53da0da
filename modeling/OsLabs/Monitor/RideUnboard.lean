import OsLabs.Monitor.Ride
import Mathlib.Data.Fintype.Card

/-!
# Leaving the cart (`ride.c`)

The passengers of a ride count themselves in `want_to_leave_count` when they want to leave, and the one that makes it equal to `riding`
posts `passengers_ready_to_leave` and sets it back to 0. So every ride leaves 0 behind for the next one; but nobody sets it to 0 for the
first ride, since `ride_init` does not.

The history of the current ride is kept beside the state: who has entered the cart since the last ride ended, who of them has executed the
first critical section of `passenger_unboard`, and how often `passengers_ready_to_leave` was posted. While the cart is full nobody enters,
so `riding` does not change from the departure to the end of the ride. If the memory given to `ride_init` holds 0 in
`want_to_leave_count`, every ride is freed by exactly one post; if it holds anything else the first ride is not (`freed_iff`).
-/

namespace OsLabs.Ride

variable {m : Nat}

/-- The state with the history of the current ride. -/
structure Ridden (m : Nat) where
  state : State m
  riders : Finset (Fin m)
  gone : Finset (Fin m)
  posts : Nat

/-- The history after a step that leads to `s'`. A ride ends in the critical section of `cart_unload`. -/
def Ridden.next (x : Ridden m) (a : Act m) (s' : State m) : Ridden m :=
  match a with
  | .cart =>
    match x.state.cart with
    | .leave => { state := s', riders := ∅, gone := ∅, posts := 0 }
    | _ => { x with state := s' }
  | .board i => { x with state := s', riders := if s'.riding = x.state.riding then x.riders else insert i x.riders }
  | .called i => { x with state := s', riders := insert i x.riders }
  | .boarded _ => { x with state := s' }
  | .unboard i =>
    { x with
      state := s'
      gone := insert i x.gone
      posts := x.posts + (s'.passengersReadyToLeave - x.state.passengersReadyToLeave) }
  | .unboarded _ => { x with state := s' }

/-- The start of a ride with `count` in `want_to_leave_count`. -/
def Ridden.start (m seats : Nat) (count : Int) : Ridden m :=
  { state := rideInit m seats count, riders := ∅, gone := ∅, posts := 0 }

/-- The runs of the cart and the passengers, with their history, in memory that held `count` in `want_to_leave_count`. -/
def rides (m seats : Nat) (count : Int) : Sys (Ridden m) (Act m) where
  init x := x = Ridden.start m seats count
  step x a x' := step x.state a x'.state ∧ x' = x.next a x'.state

/-- When all riding passengers have executed the first critical section of `passenger_unboard`, it was posted once that they are ready to
leave, and the count is 0. -/
def Freed (x : Ridden m) : Prop :=
  x.riders.Nonempty → x.riders ⊆ x.gone → x.posts = 1 ∧ x.state.wantToLeaveCount = 0

/-- The history of a run is that of a run of the ride. -/
theorem rides_reach {seats : Nat} {count : Int} {x : Ridden m} (h : (rides m seats count).Reach x) : (ride m seats).Reach x.state := by
  induction h with
  | init h0 =>
    rw [show _ = Ridden.start m seats count from h0]
    exact Sys.Reach.init ⟨count, rfl⟩
  | step a _ hst ih => exact Sys.Reach.step a ih hst.1

/-- Every run of the ride has a history. -/
theorem reach_rides {seats : Nat} {s : State m} (h : (ride m seats).Reach s) :
    ∃ count x, (rides m seats count).Reach x ∧ x.state = s := by
  induction h with
  | init h0 =>
    obtain ⟨count, rfl⟩ := h0
    exact ⟨count, Ridden.start m seats count, Sys.Reach.init rfl, rfl⟩
  | @step s s' a _ hst ih =>
    obtain ⟨count, x, hx, rfl⟩ := ih
    have hnext : (x.next a s').state = s' := by
      cases a with
      | cart =>
        rw [Ridden.next]
        split <;> rfl
      | board i | called i | boarded i | unboard i | unboarded i => rfl
    have hstep : (rides m seats count).step x a (x.next a s') := by
      refine ⟨?_, ?_⟩
      · rw [hnext]
        exact hst
      · rw [hnext]
    exact ⟨count, x.next a s', Sys.Reach.step a hx hstep, hnext⟩

/-! ## The invariant -/

/-- The places from `riding++` to the first critical section of `passenger_unboard`. -/
def Place.Riding (p : Place) : Prop := p = .onCart ∨ p = .fromCart ∨ p = .aboard

/-- Before the departure all riders sleep on `cart`, nobody has gone, and `all_ready` was posted when the cart was full. -/
structure Boarding (seats : Nat) (x : Ridden m) : Prop where
  gone : x.gone = ∅
  asleep : ∀ i ∈ x.riders, x.state.pc i = .onCart
  posts : x.posts = 0
  ready : x.state.passengersReadyToLeave = 0
  count : m < seats ∨ x.state.wantToLeaveCount = 0

/-- Where the ride is: boarding until the cart departs, full; then the riders go one by one, and the last one posts. -/
def Ridden.Phase (seats : Nat) (x : Ridden m) : Prop :=
  match x.state.cart with
  | .load | .spin _ | .loaded _ | .ready => Boarding seats x ∧ x.state.allReady = if x.state.riding = seats then 1 else 0
  | .depart => Boarding seats x ∧ x.state.allReady = 0 ∧ x.state.riding = seats
  | .unload =>
    (x.gone ⊂ x.riders ∧ x.posts = 0 ∧ x.state.passengersReadyToLeave = 0 ∧ x.state.wantToLeaveCount = x.gone.card ∨
      x.gone = x.riders ∧ x.posts = 1 ∧ x.state.passengersReadyToLeave = 1 ∧ x.state.wantToLeaveCount = 0) ∧
      x.state.allReady = 0 ∧ x.state.riding = seats
  | .leave =>
    (x.gone = x.riders ∧ x.posts = 1 ∧ x.state.passengersReadyToLeave = 0 ∧ x.state.wantToLeaveCount = 0) ∧
      x.state.allReady = 0 ∧ x.state.riding = seats

/-- The invariant of a run that has not failed. `riding` counts the riders; those that have not gone are on their way from `riding++` to
the first critical section of `passenger_unboard`, and the others sleep on `want_to_leave`. -/
structure Good (seats : Nat) (x : Ridden m) : Prop where
  failed : x.state.failed = false
  capacity : x.state.seats = seats
  riding : x.state.riding = x.riders.card
  gone : x.gone ⊆ x.riders
  places : ∀ i, (x.state.pc i).Riding ↔ i ∈ x.riders ∧ i ∉ x.gone
  asleep : ∀ i ∈ x.gone, x.state.pc i = .onLeave
  phase : x.Phase seats

variable {seats : Nat} {x : Ridden m}

/-- In a state that satisfies the invariant, a ride that everybody wants to leave was freed. -/
theorem Good.freed (h : Good seats x) : Freed x := by
  intro hsome hall
  have hphase := h.phase
  have hno : x.gone ≠ ∅ := by
    rintro hnone
    rw [hnone, Finset.subset_empty] at hall
    exact hsome.ne_empty hall
  unfold Ridden.Phase at hphase
  split at hphase
  · exact absurd hphase.1.gone hno
  · exact absurd hphase.1.gone hno
  · exact absurd hphase.1.gone hno
  · exact absurd hphase.1.gone hno
  · exact absurd hphase.1.gone hno
  · rcases hphase.1 with ⟨hsub, -⟩ | ⟨-, hposts, -, hcount⟩
    · exact absurd hall hsub.2
    · exact ⟨hposts, hcount⟩
  · exact ⟨hphase.1.2.1, hphase.1.2.2.2⟩

/-- Nobody has entered at the start. -/
theorem good_start {count : Int} (hseats : 1 ≤ seats) (hcount : count = 0 ∨ m < seats) : Good seats (Ridden.start m seats count) where
  failed := rfl
  capacity := rfl
  riding := rfl
  gone := Finset.Subset.refl _
  places i := by simp [Ridden.start, rideInit, Place.Riding]
  asleep i hi := absurd hi (Finset.notMem_empty i)
  phase := by
    refine ⟨⟨rfl, fun i hi => absurd hi (Finset.notMem_empty i), rfl, rfl, hcount.symm⟩, ?_⟩
    have hne : (0 : Int) ≠ seats := by omega
    exact (if_neg hne).symm

/-! ## The cart -/

/-- Signals between two places that both are on the way, or both are not, leave who is on the way. -/
theorem riding_signals {a w : Place} {n : Nat} {pc pc' : Fin m → Place} (h : Signals a w n pc pc') (haw : a.Riding ↔ w.Riding) (i : Fin m) :
    (pc' i).Riding ↔ (pc i).Riding := by
  rcases h.apply i with hi | ⟨ha, hw⟩
  · rw [hi]
  · rw [ha, hw, haw]

/-- The history only starts afresh at the end of a ride. -/
theorem next_cart {s' : State m} (hc : x.state.cart ≠ .leave) : x.next .cart s' = { x with state := s' } := by
  simp only [Ridden.next]

theorem next_leave {s' : State m} (hc : x.state.cart = .leave) :
    x.next .cart s' = { state := s', riders := ∅, gone := ∅, posts := 0 } := by
  simp only [Ridden.next, hc]

/-- A step that changes nothing but the places, the queue and the cart. -/
theorem Good.of_state (h : Good seats x) {s' : State m} (hf : s'.failed = x.state.failed) (hs : s'.seats = x.state.seats)
    (hr : s'.riding = x.state.riding) (hp : ∀ i, (s'.pc i).Riding ↔ (x.state.pc i).Riding)
    (ha : ∀ i ∈ x.gone, s'.pc i = .onLeave) (hphase : Ridden.Phase seats { x with state := s' }) :
    Good seats { x with state := s' } where
  failed := hf.trans h.failed
  capacity := hs.trans h.capacity
  riding := hr.trans h.riding
  gone := h.gone
  places i := (hp i).trans (h.places i)
  asleep := ha
  phase := hphase

/-- The cart keeps the invariant. -/
theorem Good.cart (h : Good seats x) (hseats : 1 ≤ seats) {s' : State m} (hst : cartStep x.state s') :
    Good seats (x.next .cart s') := by
  have hphase := h.phase
  unfold Ridden.Phase at hphase
  unfold cartStep at hst
  cases hc : x.state.cart with
  | load =>
    rw [hc] at hphase hst
    obtain ⟨pc', hsig, rfl⟩ := hst
    obtain ⟨⟨hgone, hasleep, hposts, hready, hcount⟩, hall⟩ := hphase
    rw [next_cart (by simp [hc])]
    refine h.of_state rfl rfl rfl (riding_signals hsig (by simp [Place.Riding])) (by simp [hgone])
      ⟨⟨hgone, ?_, hposts, hready, hcount⟩, hall⟩
    intro i hi
    rcases hsig.apply i with hsame | ⟨hqueue, -⟩
    · exact hsame.trans (hasleep i hi)
    · rw [hasleep i hi] at hqueue
      cases hqueue
  | spin min =>
    rw [hc] at hphase hst
    obtain ⟨⟨hgone, hasleep, hposts, hready, hcount⟩, hall⟩ := hphase
    rw [next_cart (by simp [hc]), hst]
    split_ifs with hr
    · exact h.of_state rfl rfl rfl (fun _ => Iff.rfl) h.asleep ⟨⟨hgone, hasleep, hposts, hready, hcount⟩, hall⟩
    · exact h
  | loaded min =>
    rw [hc] at hphase hst
    obtain ⟨⟨hgone, hasleep, hposts, hready, hcount⟩, hall⟩ := hphase
    rw [next_cart (by simp [hc]), hst]
    exact h.of_state rfl rfl rfl (fun _ => Iff.rfl) h.asleep ⟨⟨hgone, hasleep, hposts, hready, hcount⟩, hall⟩
  | ready =>
    rw [hc] at hphase hst
    obtain ⟨hpos, rfl⟩ := hst
    obtain ⟨hboard, hall⟩ := hphase
    rw [next_cart (by simp [hc])]
    have hfull : x.state.riding = seats := by
      by_contra hne
      rw [if_neg hne] at hall
      omega
    rw [if_pos hfull] at hall
    have hnone : x.state.allReady - 1 = 0 := by omega
    exact h.of_state rfl rfl rfl (fun _ => Iff.rfl) h.asleep ⟨⟨hboard.gone, hboard.asleep, hboard.posts, hboard.ready, hboard.count⟩,
      hnone, hfull⟩
  | depart =>
    rw [hc] at hphase hst
    obtain ⟨pc', hsig, rfl⟩ := hst
    obtain ⟨⟨hgone, hasleep, hposts, hready, hcount⟩, hall, hfull⟩ := hphase
    rw [next_cart (by simp [hc])]
    -- the cart is full, so there are enough passengers
    have hcard : (x.riders.card : Int) = seats := h.riding.symm.trans hfull
    have hle : x.riders.card ≤ m := by simpa using Finset.card_le_univ x.riders
    have hzero : x.state.wantToLeaveCount = 0 := hcount.resolve_left (by omega)
    have hsome : x.gone ⊂ x.riders := by
      rw [hgone, Finset.empty_ssubset, ← Finset.card_pos]
      omega
    refine h.of_state rfl rfl rfl (riding_signals hsig (by simp [Place.Riding])) (by simp [hgone])
      ⟨Or.inl ⟨hsome, hposts, hready, ?_⟩, hall, hfull⟩
    show x.state.wantToLeaveCount = x.gone.card
    rw [hzero, hgone]
    rfl
  | unload =>
    rw [hc] at hphase hst
    obtain ⟨hpos, rfl⟩ := hst
    obtain ⟨hgo, hall, hfull⟩ := hphase
    rw [next_cart (by simp [hc])]
    rcases hgo with ⟨-, -, hready, -⟩ | ⟨hgone, hposts, hready, hcount⟩
    · omega
    · have hnone : x.state.passengersReadyToLeave - 1 = 0 := by omega
      exact h.of_state rfl rfl rfl (fun _ => Iff.rfl) h.asleep ⟨⟨hgone, hposts, hnone, hcount⟩, hall, hfull⟩
  | leave =>
    rw [hc] at hphase hst
    obtain ⟨pc', hsig, rfl⟩ := hst
    obtain ⟨⟨hgone, hposts, hready, hcount⟩, hall, hfull⟩ := hphase
    rw [next_leave hc]
    refine ⟨h.failed, h.capacity, rfl, Finset.Subset.refl _, fun i => ?_, fun i hi => absurd hi (Finset.notMem_empty i),
      ⟨⟨rfl, fun i hi => absurd hi (Finset.notMem_empty i), rfl, hready, Or.inr hcount⟩, ?_⟩⟩
    · -- everybody has gone, so nobody is on the way
      rw [riding_signals hsig (by simp [Place.Riding]) i, h.places i, hgone]
      simp
    · have hne : (0 : Int) ≠ seats := by omega
      exact hall.trans (if_neg hne).symm

/-! ## The passengers -/

/-- The cases of a ride in which a passenger may still enter: boarding, with a free seat. -/
theorem Good.boarding (h : Good seats x) (hfree : x.state.riding ≠ seats) : Boarding seats x ∧ x.state.allReady = 0 ∧
    ∀ x' : Ridden m, x'.state.cart = x.state.cart →
      Boarding seats x' → (x'.state.allReady = if x'.state.riding = seats then 1 else 0) → x'.Phase seats := by
  have hphase := h.phase
  unfold Ridden.Phase at hphase ⊢
  cases hc : x.state.cart with
  | load | spin _ | loaded _ | ready =>
    rw [hc] at hphase
    rw [if_neg hfree] at hphase
    refine ⟨hphase.1, hphase.2, fun x' hcart hboard hall => ?_⟩
    rw [hcart]
    exact ⟨hboard, hall⟩
  | depart | unload | leave =>
    rw [hc] at hphase
    exact absurd hphase.2.2 hfree

/-- A passenger enters the cart, or the assertion fails and somebody has entered that never leaves. -/
theorem Good.enter (h : Good seats x) {i : Fin m} (hi : x.state.pc i = .outside ∨ x.state.pc i = .fromQueue) (waiting : Int) :
    Good seats { x with state := enter { x.state with waiting := waiting } i, riders := insert i x.riders } ∨
      (enter { x.state with waiting := waiting } i).failed = true ∧ ¬ insert i x.riders ⊆ x.gone := by
  have hnot : ¬ (x.state.pc i).Riding := by
    rcases hi with hi | hi
    · simp [hi, Place.Riding]
    · simp [hi, Place.Riding]
  have hgone : i ∉ x.gone := by
    intro hmem
    have hleave := h.asleep i hmem
    rcases hi with hi | hi
    · rw [hi] at hleave
      cases hleave
    · rw [hi] at hleave
      cases hleave
  have hriders : i ∉ x.riders := fun hmem => hnot ((h.places i).mpr ⟨hmem, hgone⟩)
  have hcap := h.capacity
  unfold Ride.enter
  dsimp only
  by_cases hle : x.state.riding + 1 ≤ x.state.seats
  · left
    rw [if_pos hle]
    have hfree : x.state.riding ≠ seats := by omega
    obtain ⟨hboard, hall, hphase⟩ := h.boarding hfree
    have hcard : (x.state.riding + 1 : Int) = (insert i x.riders).card := by
      rw [Finset.card_insert_of_notMem hriders, h.riding]
      rfl
    have hplaces : ∀ j, (Function.update x.state.pc i .onCart j).Riding ↔ j ∈ insert i x.riders ∧ j ∉ x.gone := by
      intro j
      by_cases hj : j = i
      · subst hj
        rw [Function.update_self]
        simp [Place.Riding, hgone]
      · rw [Function.update_of_ne hj, h.places j, Finset.mem_insert]
        simp [hj]
    have hasleep : ∀ j ∈ x.gone, Function.update x.state.pc i .onCart j = .onLeave := by
      intro j hj
      have hne : j ≠ i := fun e => hgone (e ▸ hj)
      rw [Function.update_of_ne hne]
      exact h.asleep j hj
    have hcart : ∀ j ∈ insert i x.riders, Function.update x.state.pc i .onCart j = .onCart := by
      intro j hj
      by_cases hji : j = i
      · rw [hji, Function.update_self]
      · rw [Function.update_of_ne hji]
        exact hboard.asleep j ((Finset.mem_insert.mp hj).resolve_left hji)
    have hsub := h.gone.trans (Finset.subset_insert i x.riders)
    by_cases hfull : x.state.riding + 1 = x.state.seats
    · rw [if_pos hfull]
      refine ⟨h.failed, hcap, hcard, hsub, hplaces, hasleep, hphase _ rfl ⟨hboard.gone, hcart, hboard.posts, hboard.ready, hboard.count⟩ ?_⟩
      show x.state.allReady + 1 = if x.state.riding + 1 = seats then 1 else 0
      rw [if_pos (hfull.trans hcap), hall]
    · rw [if_neg hfull]
      refine ⟨h.failed, hcap, hcard, hsub, hplaces, hasleep, hphase _ rfl ⟨hboard.gone, hcart, hboard.posts, hboard.ready, hboard.count⟩ ?_⟩
      show x.state.allReady = if x.state.riding + 1 = seats then 1 else 0
      rw [if_neg fun e => hfull (e.trans hcap.symm), hall]
  · right
    rw [if_neg hle]
    exact ⟨rfl, fun hsub => hgone (hsub (Finset.mem_insert_self i _))⟩

/-- A passenger that sleeps neither on `cart` nor on `want_to_leave` moves between two places that are both on the way, or both not. -/
theorem Good.move (h : Good seats x) {i : Fin m} {p : Place} (waiting : Int) (hp : p.Riding ↔ (x.state.pc i).Riding)
    (hcart : x.state.pc i ≠ .onCart) (hleave : x.state.pc i ≠ .onLeave) :
    Good seats { x with state := { x.state with waiting := waiting, pc := Function.update x.state.pc i p } } := by
  have hplaces : ∀ j, (Function.update x.state.pc i p j).Riding ↔ (x.state.pc j).Riding := by
    intro j
    by_cases hj : j = i
    · rw [hj, Function.update_self, hp]
    · rw [Function.update_of_ne hj]
  have hother : ∀ j, x.state.pc j = .onCart ∨ x.state.pc j = .onLeave → Function.update x.state.pc i p j = x.state.pc j := by
    intro j hj
    refine Function.update_of_ne ?_ _ _
    rintro rfl
    exact hj.elim hcart hleave
  refine h.of_state rfl rfl rfl hplaces (fun j hj => (hother j (Or.inr (h.asleep j hj))).trans (h.asleep j hj)) ?_
  have hphase := h.phase
  have hboard : Boarding seats x →
      Boarding seats { x with state := { x.state with waiting := waiting, pc := Function.update x.state.pc i p } } := fun hb =>
    ⟨hb.gone, fun j hj => (hother j (Or.inl (hb.asleep j hj))).trans (hb.asleep j hj), hb.posts, hb.ready, hb.count⟩
  unfold Ridden.Phase at hphase ⊢
  cases hc : x.state.cart with
  | load | spin _ | loaded _ | ready | depart =>
    rw [hc] at hphase
    exact ⟨hboard hphase.1, hphase.2⟩
  | unload | leave =>
    rw [hc] at hphase
    exact hphase

/-- The first critical section of `passenger_unboard`. -/
theorem Good.unboard (h : Good seats x) {i : Fin m} (hi : x.state.pc i = .aboard) :
    Good seats (x.next (.unboard i) (passengerUnboard x.state i)) := by
  obtain ⟨hrider, hstays⟩ := (h.places i).mp (by simp [hi, Place.Riding])
  have hphase := h.phase
  have hnot : ¬ Boarding seats x := by
    intro hb
    have hcart := hb.asleep i hrider
    rw [hi] at hcart
    cases hcart
  have hplaces : ∀ j, (Function.update x.state.pc i .onLeave j).Riding ↔ j ∈ x.riders ∧ j ∉ insert i x.gone := by
    intro j
    by_cases hj : j = i
    · subst hj
      rw [Function.update_self]
      simp [Place.Riding]
    · rw [Function.update_of_ne hj, h.places j, Finset.mem_insert]
      simp [hj]
  have hasleep : ∀ j ∈ insert i x.gone, Function.update x.state.pc i .onLeave j = .onLeave := by
    intro j hj
    by_cases hji : j = i
    · rw [hji, Function.update_self]
    · rw [Function.update_of_ne hji]
      exact h.asleep j ((Finset.mem_insert.mp hj).resolve_left hji)
  have hsub : insert i x.gone ⊆ x.riders := Finset.insert_subset hrider h.gone
  have hcard : (insert i x.gone).card = x.gone.card + 1 := Finset.card_insert_of_notMem hstays
  unfold Ridden.Phase at hphase
  cases hc : x.state.cart with
  | load | spin _ | loaded _ | ready | depart =>
    rw [hc] at hphase
    exact absurd hphase.1 hnot
  | leave =>
    rw [hc] at hphase
    exact absurd (hphase.1.1 ▸ hrider) hstays
  | unload =>
    rw [hc] at hphase
    obtain ⟨⟨-, hposts, hready, hcount⟩ | ⟨hall, -⟩, hrest⟩ := hphase
    · have hriding := h.riding
      unfold passengerUnboard Ridden.next
      dsimp only
      by_cases hlast : x.state.wantToLeaveCount + 1 = x.state.riding
      · -- the last one
        rw [if_pos hlast]
        have hdone : insert i x.gone = x.riders := Finset.eq_of_subset_of_card_le hsub (by omega)
        refine ⟨h.failed, h.capacity, h.riding, hsub, hplaces, hasleep, ?_⟩
        unfold Ridden.Phase
        dsimp only
        rw [hc]
        refine ⟨Or.inr ⟨hdone, ?_, ?_, rfl⟩, hrest⟩
        · show x.posts + (x.state.passengersReadyToLeave + 1 - x.state.passengersReadyToLeave) = 1
          omega
        · show x.state.passengersReadyToLeave + 1 = 1
          omega
      · rw [if_neg hlast]
        have hmore : insert i x.gone ⊂ x.riders := by
          refine hsub.ssubset_of_ne ?_
          intro e
          rw [e] at hcard
          omega
        refine ⟨h.failed, h.capacity, h.riding, hsub, hplaces, hasleep, ?_⟩
        unfold Ridden.Phase
        dsimp only
        rw [hc]
        refine ⟨Or.inl ⟨hmore, ?_, hready, ?_⟩, hrest⟩
        · show x.posts + (x.state.passengersReadyToLeave - x.state.passengersReadyToLeave) = 0
          omega
        · show x.state.wantToLeaveCount + 1 = (insert i x.gone).card
          omega
    · exact absurd (hall ▸ hrider) hstays

/-! ## Runs -/

/-- The invariant, or the program has failed with somebody in the cart that never leaves. -/
def Kept (seats : Nat) (x : Ridden m) : Prop := Good seats x ∨ x.state.failed = true ∧ ¬ x.riders ⊆ x.gone

/-- Every step keeps it. -/
theorem kept_step (hseats : 1 ≤ seats) {x x' : Ridden m} {a : Act m} (h : Kept seats x) (hst : step x.state a x'.state)
    (hnext : x' = x.next a x'.state) : Kept seats x' := by
  obtain ⟨hf, hst⟩ := hst
  rcases h with h | ⟨hfailed, -⟩
  rotate_left
  · rw [hf] at hfailed
    cases hfailed
  cases a with
  | cart =>
    rw [hnext]
    exact Or.inl (h.cart hseats hst)
  | board i =>
    obtain ⟨hi, hst⟩ := hst
    rw [hnext, hst, passengerBoard]
    by_cases hw : x.state.riding = x.state.seats ∨ x.state.mustWait = true
    · rw [if_pos hw, Ridden.next, if_pos rfl]
      refine Or.inl (h.move (x.state.waiting + 1) ?_ ?_ ?_) <;> simp [hi, Place.Riding]
    · rw [if_neg hw]
      have hmore : (enter x.state i).riding ≠ x.state.riding := by
        unfold enter
        dsimp only
        split_ifs <;> simp
      rw [Ridden.next, if_neg hmore]
      exact h.enter (Or.inl hi) x.state.waiting
  | called i =>
    obtain ⟨hi, hst⟩ := hst
    rw [hnext, hst]
    exact h.enter (Or.inr hi) (x.state.waiting - 1)
  | boarded i =>
    obtain ⟨hi, hst⟩ := hst
    rw [hnext, hst]
    refine Or.inl (h.move x.state.waiting ?_ ?_ ?_) <;> simp [hi, Place.Riding]
  | unboard i =>
    obtain ⟨hi, hst⟩ := hst
    rw [hnext, hst]
    exact Or.inl (h.unboard hi)
  | unboarded i =>
    obtain ⟨hi, hst⟩ := hst
    rw [hnext, hst]
    refine Or.inl (h.move x.state.waiting ?_ ?_ ?_) <;> simp [hi, Place.Riding]

/-- In memory that held 0 every ride is freed. -/
theorem freed_reach (hseats : 1 ≤ seats) {count : Int} (hcount : count = 0 ∨ m < seats) (h : (rides m seats count).Reach x) : Freed x := by
  have hind : (rides m seats count).Inductive (Kept seats) := by
    refine ⟨?_, fun x a x' hx hst => kept_step hseats hx hst.1 hst.2⟩
    intro x hx
    rw [show x = Ridden.start m seats count from hx]
    exact Or.inl (good_start hseats hcount)
  rcases hind.reach h with hgood | ⟨-, hnever⟩
  · exact hgood.freed
  · exact fun _ hall => absurd hall hnever

/-! ## The first ride in other memory -/

/-- The first `k` passengers are at the place `p`, those after them up to the number of seats at `q`, and the others outside. -/
def places (seats k : Nat) (p q : Place) : Fin m → Place := fun i => if i < k then p else if i < seats then q else .outside

/-- The next passenger is at `q`. -/
theorem places_next {k : Nat} (p q : Place) (hk : k < seats) (hm : k < m) : places seats k p q (⟨k, hm⟩ : Fin m) = q := by
  unfold places
  rw [if_neg (Nat.lt_irrefl k), if_pos hk]

/-- It moves from `q` to `p`. -/
theorem places_update {k : Nat} (p q : Place) (hm : k < m) :
    Function.update (places seats k p q) (⟨k, hm⟩ : Fin m) p = places seats (k + 1) p q := by
  funext i
  by_cases hi : (i : Nat) = k
  · obtain rfl : i = ⟨k, hm⟩ := Fin.ext hi
    rw [Function.update_self, places, if_pos (Nat.lt_succ_self k)]
  · rw [Function.update_of_ne fun e => hi (congrArg Fin.val e)]
    unfold places
    by_cases hlt : (i : Nat) < k
    · rw [if_pos hlt, if_pos (Nat.lt_succ_of_lt hlt)]
    · have hle : ¬ (i : Nat) < k + 1 := by omega
      rw [if_neg hlt, if_neg hle]

/-- When all have moved from `q` to `p`, they are all at `p`. -/
theorem places_all (p q q' : Place) : places (m := m) seats seats p q = places seats 0 q' p := by
  funext i
  unfold places
  by_cases hlt : (i : Nat) < seats
  · simp [hlt]
  · simp [hlt]

/-- At most as many passengers are in the cart as it has seats. -/
theorem countAt_onCart_le (seats : Nat) : countAt .onCart (places (m := m) seats seats .onCart .outside) ≤ seats := by
  rw [countAt, count, ← Finset.card_range seats]
  refine Finset.card_le_card_of_injOn Fin.val ?_ Fin.val_injective.injOn
  intro i hi
  by_contra hle
  have hout : places seats seats .onCart .outside i = .outside := by
    simp [places, Finset.mem_range.not.mp hle]
  simp [hout] at hi

/-- The passengers whose number is less than `k + 1`. -/
theorem filter_lt_succ {k : Nat} (hk : k < m) :
    (Finset.univ.filter fun i : Fin m => (i : Nat) < k + 1) = insert ⟨k, hk⟩ (Finset.univ.filter fun i : Fin m => (i : Nat) < k) := by
  ext i
  simp only [Finset.mem_filter, Finset.mem_univ, true_and, Finset.mem_insert, Fin.ext_iff]
  omega

/-- The cart waits for the passengers, and the first `k` of them have entered it. -/
def Ridden.entered (m seats : Nat) (count : Int) (k : Nat) : Ridden m where
  state :=
    { rideInit m seats count with
      riding := k
      mustWait := decide (k = seats)
      allReady := if k = seats then 1 else 0
      cart := .ready
      pc := places seats k .onCart .outside }
  riders := Finset.univ.filter fun i => i < k
  gone := ∅
  posts := 0

/-- A full cart after its departure, with the passengers at `pc`; the first `k` have executed the first critical section of
`passenger_unboard`, and it was posted `posts` times that they are ready. -/
def Ridden.away (m seats : Nat) (pc : Fin m → Place) (count : Int) (k posts : Nat) : Ridden m where
  state :=
    { rideInit m seats count with
      riding := seats
      mustWait := true
      passengersReadyToLeave := posts
      cart := .unload
      pc := pc }
  riders := Finset.univ.filter fun i => i < seats
  gone := Finset.univ.filter fun i => i < k
  posts := posts

/-- The cart comes to wait for the passengers before any of them enters. -/
theorem reach_entered_zero (hseats : 1 ≤ seats) (count : Int) : (rides m seats count).Reach (Ridden.entered m seats count 0) := by
  have hpos : 0 < seats := hseats
  have hne : 0 ≠ seats := by omega
  have hout : places (m := m) seats 0 .onCart .outside = fun _ => .outside := by
    funext i
    simp [places]
  have h0 : (rides m seats count).Reach (Ridden.start m seats count) := Sys.Reach.init rfl
  have h1 : (rides m seats count).Reach { Ridden.start m seats count with state := { rideInit m seats count with cart := .spin 0 } } := by
    refine Sys.Reach.step Act.cart h0 ⟨⟨rfl, fun _ => .outside, ?_, ?_⟩, rfl⟩
    · simp [Ridden.start, rideInit, hpos, Signals.zero]
    · simp [Ridden.start, rideInit, hpos]
  have h2 : (rides m seats count).Reach { Ridden.start m seats count with state := { rideInit m seats count with cart := .loaded 0 } } := by
    refine Sys.Reach.step Act.cart h1 ⟨⟨rfl, ?_⟩, rfl⟩
    simp [cartStep, rideInit]
  refine Sys.Reach.step Act.cart h2 ⟨⟨rfl, ?_⟩, ?_⟩
  · simp [cartStep, Ridden.entered, rideInit, hpos, hne, hout]
  · simp [Ridden.entered, Ridden.next, Ridden.start, rideInit]

/-- The passengers enter one after the other. -/
theorem reach_entered (hseats : 1 ≤ seats) (hm : seats ≤ m) (count : Int) {k : Nat} (hk : k ≤ seats) :
    (rides m seats count).Reach (Ridden.entered m seats count k) := by
  induction k with
  | zero => exact reach_entered_zero hseats count
  | succ k ih =>
    have hlt : k < seats := hk
    have hkm : k < m := by omega
    have hnat : k ≠ seats := by omega
    have hint : (k : Int) ≠ seats := by omega
    have hle : (k : Int) + 1 ≤ seats := by omega
    have hcast : (k : Int) + 1 = seats ↔ k + 1 = seats := by omega
    refine Sys.Reach.step (Act.board ⟨k, hkm⟩) (ih hlt.le) ⟨⟨rfl, places_next _ _ hlt hkm, ?_⟩, ?_⟩
    · by_cases hfull : k + 1 = seats
      · obtain rfl : k + 1 = seats := hfull
        simp [Ridden.entered, rideInit, passengerBoard, enter, places_update]
      · simp [Ridden.entered, rideInit, passengerBoard, enter, hnat, hint, hle, hcast, hfull, places_update]
    · simp only [Ridden.entered, filter_lt_succ hkm]
      simp [rideInit, Ridden.next]

/-- The full cart departs, and calls every passenger in it. -/
theorem reach_away (hseats : 1 ≤ seats) (hm : seats ≤ m) (count : Int) :
    (rides m seats count).Reach (Ridden.away m seats (places seats 0 .aboard .fromCart) count 0 0) := by
  have h0 := reach_entered hseats hm count (le_refl seats)
  let x1 : Ridden m :=
    { Ridden.entered m seats count seats with state := { (Ridden.entered m seats count seats).state with allReady := 0, cart := .depart } }
  have h1 : (rides m seats count).Reach x1 := by
    refine Sys.Reach.step Act.cart h0 ⟨⟨rfl, ?_⟩, rfl⟩
    simp [cartStep, x1, Ridden.entered]
  have hcalled : (fun i => if places (m := m) seats seats .onCart .outside i = .onCart then .fromCart
      else places seats seats .onCart .outside i) = places (m := m) seats 0 .aboard .fromCart := by
    funext i
    by_cases hlt : (i : Nat) < seats
    · simp [places, hlt]
    · simp [places, hlt]
  refine Sys.Reach.step Act.cart h1 ⟨⟨rfl, _, Signals.wake_all (by simp) (countAt_onCart_le seats), ?_⟩, ?_⟩
  · simp [x1, Ridden.entered, Ridden.away, rideInit, hcalled]
  · simp [x1, Ridden.entered, Ridden.away, rideInit, Ridden.next]

/-- They come out of the condition variable. -/
theorem reach_aboard (hseats : 1 ≤ seats) (hm : seats ≤ m) (count : Int) {k : Nat} (hk : k ≤ seats) :
    (rides m seats count).Reach (Ridden.away m seats (places seats k .aboard .fromCart) count 0 0) := by
  induction k with
  | zero => exact reach_away hseats hm count
  | succ k ih =>
    have hlt : k < seats := hk
    have hkm : k < m := by omega
    refine Sys.Reach.step (Act.boarded ⟨k, hkm⟩) (ih hlt.le) ⟨⟨rfl, places_next _ _ hlt hkm, ?_⟩, ?_⟩
    · simp [Ridden.away, places_update]
    · simp [Ridden.away, Ridden.next]

/-- They leave one after the other, and `want_to_leave_count` loses `seats` at each post. -/
theorem reach_gone (hseats : 1 ≤ seats) (hm : seats ≤ m) (count : Int) {k : Nat} (hk : k ≤ seats) :
    ∃ left posts, (rides m seats count).Reach (Ridden.away m seats (places seats k .onLeave .aboard) left k posts) ∧
      left + posts * seats = count + k := by
  induction k with
  | zero =>
    refine ⟨count, 0, ?_, by simp⟩
    have h := reach_aboard hseats hm count (le_refl seats)
    rwa [places_all] at h
  | succ k ih =>
    have hlt : k < seats := hk
    have hkm : k < m := by omega
    obtain ⟨left, posts, hreach, hsum⟩ := ih hlt.le
    by_cases hpost : left + 1 = seats
    · refine ⟨0, posts + 1, Sys.Reach.step (Act.unboard ⟨k, hkm⟩) hreach ⟨⟨rfl, places_next _ _ hlt hkm, ?_⟩, ?_⟩, ?_⟩
      · simp [Ridden.away, rideInit, passengerUnboard, hpost, places_update]
      · simp only [Ridden.away, filter_lt_succ hkm]
        simp [rideInit, Ridden.next]
      · push_cast
        rw [Int.add_mul]
        omega
    · refine ⟨left + 1, posts, Sys.Reach.step (Act.unboard ⟨k, hkm⟩) hreach ⟨⟨rfl, places_next _ _ hlt hkm, ?_⟩, ?_⟩, ?_⟩
      · simp [Ridden.away, rideInit, passengerUnboard, hpost, places_update]
      · simp only [Ridden.away, filter_lt_succ hkm]
        simp [rideInit, Ridden.next]
      · push_cast
        omega

/-- The first ride is not freed when the memory held anything but 0. -/
theorem exists_not_freed (hseats : 1 ≤ seats) (hm : seats ≤ m) {count : Int} (hcount : count ≠ 0) :
    ∃ x, (rides m seats count).Reach x ∧ ¬ Freed x := by
  obtain ⟨left, posts, hreach, hsum⟩ := reach_gone hseats hm count (le_refl seats)
  refine ⟨_, hreach, fun hfreed => ?_⟩
  obtain ⟨hposts, hleft⟩ := hfreed ⟨⟨0, by omega⟩, by simp [Ridden.away]; omega⟩ (Finset.Subset.refl _)
  obtain rfl : posts = 1 := hposts
  obtain rfl : left = 0 := hleft
  omega

/-- Every ride is freed by one post, in every run, exactly when the memory given to `ride_init` held 0 in `want_to_leave_count` or there
are not enough passengers for any ride. -/
theorem freed_iff {count : Int} (hseats : 1 ≤ seats) :
    (∀ x, (rides m seats count).Reach x → Freed x) ↔ count = 0 ∨ m < seats := by
  constructor
  · intro hall
    by_contra hnot
    obtain ⟨hcount, hm⟩ := not_or.mp hnot
    obtain ⟨x, hreach, hnever⟩ := exists_not_freed hseats (Nat.le_of_not_lt hm) hcount
    exact hnever (hall x hreach)
  · exact fun hcount x hreach => freed_reach hseats hcount hreach

/-- Two seats, three passengers and memory that held 0. -/
theorem freed_iff_zeroed : 1 ≤ 2 ∧ ((∀ x, (rides 3 2 0).Reach x → Freed x) ↔ (0 : Int) = 0 ∨ 3 < 2) :=
  ⟨by decide, freed_iff (by decide)⟩

/-- The ride of `main`, on a stack that held 1 there. -/
theorem stack_not_freed : ¬ ∀ x, (rides 50 10 1).Reach x → Freed x := by
  intro hall
  obtain ⟨x, hreach, hnever⟩ : ∃ x, (rides 50 10 1).Reach x ∧ ¬ Freed x := exists_not_freed (by decide) (by decide) (by decide)
  exact hnever (hall x hreach)

end OsLabs.Ride
