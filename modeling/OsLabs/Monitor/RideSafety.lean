import OsLabs.Monitor.Ride

/-!
# Capacity of the ride, and the loop of the cart

A passenger that the cart calls enters without a look at the seats, so a call is a promise of a seat. The cart keeps its promises
while nobody is aboard when it calls and nobody else takes a seat before the called passengers are in. Nothing in `ride.c` sees to
that: passengers that start before the cart overfill it (`ride_overfull`), or leave it in its loop for ever (`cart_spins_for_ever`).

The two conditions on a run are `Orderly`, under which `riding` never exceeds `seats` (`riding_le_seats`), and `Counted`, under which
the cart never waits for fewer passengers than are riding (`riding_le_min`).
-/

namespace OsLabs.Ride

variable {m : Nat}

/-! ## Seats and promises -/

/-- The passengers aboard and those called have their seats. -/
structure Fits (seats : Nat) (v : View) : Prop where
  failed : v.failed = false
  seats : v.seats = seats
  nonneg : 0 ≤ v.riding
  waiting : v.waiting = v.queued + v.called
  fits : v.riding + v.called ≤ v.seats

variable {seats : Nat} {v v' : View}

/-- The assertion does not fail where a seat is free for each passenger called. -/
theorem Fits.holds (hF : Fits seats v) : ¬ (v.seats < v.riding + 1 ∧ (v.riding ≠ v.seats ∨ 0 < v.called)) := by
  have := hF.fits
  omega

/-- A passenger that waits takes no seat. -/
theorem Fits.wait (hF : Fits seats v) : Fits seats { v with waiting := v.waiting + 1, queued := v.queued + 1 } := by
  have := hF.waiting
  exact ⟨hF.failed, hF.seats, hF.nonneg, by simp; omega, hF.fits⟩

/-- A passenger may take a free seat that is not promised. -/
theorem Fits.board (hF : Fits seats v) (hc : v.called = 0) (hr : v.riding ≠ v.seats) : Fits seats v.enter := by
  have h1 := hF.nonneg
  have h2 := hF.fits
  exact ⟨hF.failed, hF.seats, by simp [View.enter]; omega, hF.waiting, by simp [View.enter]; omega⟩

/-- A passenger that was called takes the seat promised to it. -/
theorem Fits.called (hF : Fits seats v) (hc : 0 < v.called) :
    Fits seats { v.enter with waiting := v.waiting - 1, called := v.called - 1 } := by
  have h1 := hF.nonneg
  have h2 := hF.fits
  have h3 := hF.waiting
  exact ⟨hF.failed, hF.seats, by simp [View.enter]; omega, by simp [View.enter]; omega, by simp [View.enter]; omega⟩

/-- In an empty cart, or with nobody waiting, the cart promises only seats that are free; and it calls as many as `min` says. -/
theorem Fits.load (hF : Fits seats v) (hl : v.cart = .load) (hc : v.called = 0) (hr : v.riding = 0 ∨ v.waiting = 0)
    (h : v.cartStep v') : Fits seats v' ∧ v'.cart = .spin v'.called ∧ v'.mustWait = v.mustWait ∧ v'.riding = v.riding ∧
      v'.allReady = v.allReady ∧ (v.waiting = 0 → v'.called = 0) := by
  obtain ⟨h1, h2, h3, h4, h5⟩ := hF
  unfold View.cartStep at h
  rw [hl] at h
  subst h
  by_cases hw : v.waiting < v.seats
  · simp [hw]
    refine ⟨⟨h1, h2, h3, ?_, ?_⟩, by omega, by omega⟩
    · simp
      omega
    · simp
      omega
  · simp [hw]
    refine ⟨⟨h1, h2, h3, ?_, ?_⟩, by omega, by omega⟩
    · simp
      omega
    · simp
      omega

/-- The other steps of the cart promise nothing. -/
theorem Fits.cart (hF : Fits seats v) (hl : v.cart ≠ .load) (hc : v.cart = .leave → v.called = 0) (h : v.cartStep v') :
    Fits seats v' ∧ v'.called = v.called ∧ v'.queued = v.queued := by
  obtain ⟨h1, h2, h3, h4, h5⟩ := hF
  unfold View.cartStep at h
  split at h
  · rename_i hcart
    exact absurd hcart hl
  · split at h
    · subst h
      exact ⟨⟨h1, h2, h3, h4, h5⟩, rfl, rfl⟩
    · subst h
      exact ⟨⟨h1, h2, h3, h4, h5⟩, rfl, rfl⟩
  · subst h
    exact ⟨⟨h1, h2, h3, h4, h5⟩, rfl, rfl⟩
  · obtain ⟨-, rfl⟩ := h
    exact ⟨⟨h1, h2, h3, h4, h5⟩, rfl, rfl⟩
  · subst h
    exact ⟨⟨h1, h2, h3, h4, h5⟩, rfl, rfl⟩
  · subst h
    exact ⟨⟨h1, h2, h3, h4, h5⟩, rfl, rfl⟩
  · rename_i hcart
    have hc := hc hcart
    subst h
    exact ⟨⟨h1, h2, by simp, h4, by simp; omega⟩, rfl, rfl⟩

/-- Nobody is called, and nobody rides, at first. -/
theorem fits_init (m seats : Nat) (count : Int) :
    Fits seats (rideInit m seats count).view ∧ (rideInit m seats count).view.called = 0 ∧
      (rideInit m seats count).view.queued = 0 := by
  have h1 : countAt .onQueue (rideInit m seats count).pc = 0 := countAt_eq_zero_iff.mpr fun i => by simp [rideInit]
  have h2 : countAt .fromQueue (rideInit m seats count).pc = 0 := countAt_eq_zero_iff.mpr fun i => by simp [rideInit]
  refine ⟨⟨rfl, rfl, by simp [State.view, rideInit], ?_, ?_⟩, h2, h1⟩
  · simp only [State.view, h1, h2]
    rfl
  · simp only [State.view, h2]
    simp [rideInit]

/-! ## The loop of the cart -/

/-- The cart calls passengers only while nobody rides, and nobody boards without being called while it is in its loop. -/
structure Counted (s : State m) (a : Act m) : Prop where
  load : a = .cart → s.cart = .load → s.riding = 0
  board : (∃ i, a = .board i) → (∃ min, s.cart = .spin min) → s.riding = s.seats ∨ s.mustWait = true

/-- Whom the cart has called: in the loop, the passengers that are missing. -/
def View.Missing (v : View) : Prop :=
  match v.cart with
  | .spin min => v.riding + v.called = min
  | _ => v.called = 0

/-- Out of its loop the cart has called nobody. -/
theorem View.Missing.called {v : View} (h : v.Missing) (hs : ∀ min, v.cart ≠ .spin min) : v.called = 0 := by
  unfold View.Missing at h
  split at h
  · rename_i min hc
    exact absurd hc (hs min)
  · exact h

/-- A cart that is out of its loop and has called nobody misses nobody. -/
theorem View.missing_of_called {v : View} (hs : ∀ min, v.cart ≠ .spin min) (h : v.called = 0) : v.Missing := by
  unfold View.Missing
  split
  · rename_i min hc
    exact absurd hc (hs min)
  · exact h

/-- The cart comes into its loop only from the first critical section. -/
theorem View.cart_out {v v' : View} (hl : v.cart ≠ .load) (hs : ∀ min, v.cart ≠ .spin min) (h : v.cartStep v') :
    ∀ min, v'.cart ≠ .spin min := by
  intro k
  unfold View.cartStep at h
  cases hc : v.cart with
  | load => exact absurd hc hl
  | spin min => exact absurd hc (hs min)
  | loaded min =>
    rw [hc] at h
    simp [h]
  | ready =>
    rw [hc] at h
    simp [h.2]
  | depart =>
    rw [hc] at h
    simp [h]
  | unload =>
    rw [hc] at h
    simp [h]
  | leave =>
    rw [hc] at h
    simp [h]

/-- The invariant of a counted run. -/
structure Waits (seats : Nat) (v : View) : Prop extends Fits seats v where
  missing : v.Missing

/-- The cart keeps the invariant. -/
theorem waits_cart (hW : Waits seats v) (hl : v.cart = .load → v.riding = 0) (h : v.cartStep v') : Waits seats v' := by
  obtain ⟨hF, hM⟩ := hW
  by_cases hc : v.cart = .load
  · obtain ⟨hF', hc', -, hr', -, -⟩ := hF.load hc (hM.called (by simp [hc])) (Or.inl (hl hc)) h
    refine ⟨hF', ?_⟩
    unfold View.Missing
    rw [hc']
    have := hl hc
    simp
    omega
  by_cases hs : ∃ min, v.cart = .spin min
  · obtain ⟨min, hs⟩ := hs
    obtain ⟨hF', hcalled, -⟩ := hF.cart hc (by simp [hs]) h
    refine ⟨hF', ?_⟩
    unfold View.Missing at hM
    unfold View.cartStep at h
    rw [hs] at h hM
    by_cases hr : v.riding = min
    · simp [hr] at h
      refine View.missing_of_called (by simp [h]) ?_
      simp at hM
      omega
    · simp [hr] at h
      rw [h]
      unfold View.Missing
      rw [hs]
      exact hM
  · push Not at hs
    have hcalled := hM.called hs
    obtain ⟨hF', hcalled', -⟩ := hF.cart hc (fun _ => hcalled) h
    exact ⟨hF', View.missing_of_called (View.cart_out hc hs h) (by omega)⟩

/-- A passenger that enters the cart misses it no more. -/
theorem missing_called (hM : v.Missing) (hc : 0 < v.called) :
    View.Missing { v.enter with waiting := v.waiting - 1, called := v.called - 1 } := by
  unfold View.Missing at hM ⊢
  cases hs : v.cart with
  | spin min =>
    rw [hs] at hM
    simp [View.enter, hs] at hM ⊢
    omega
  | load | loaded _ | ready | depart | unload | leave =>
    rw [hs] at hM
    simp at hM
    omega

/-- A counted step keeps the invariant. -/
theorem waits_step {s s' : State m} {a : Act m} (hW : Waits seats s.view) (hG : Counted s a) (h : step s a s') :
    Waits seats s'.view := by
  have hM := hW.missing
  rcases view_step h with ⟨ha, hv⟩ | ⟨-, -, hv⟩ | ⟨hi, hr, hm, hv⟩ | ⟨-, hc, hv⟩ | ⟨-, hv⟩ | ⟨hv, -⟩
  · exact waits_cart hW (hG.load ha) hv
  · rw [hv]
    exact ⟨hW.toFits.wait, hM⟩
  · have hs : ∀ min, s.view.cart ≠ .spin min := by
      intro min hs
      rcases hG.board hi ⟨min, hs⟩ with hr' | hm'
      · exact hr hr'
      · rw [hm] at hm'
        cases hm'
    have hc := hM.called hs
    rw [hv]
    exact ⟨hW.toFits.board hc hr, View.missing_of_called hs hc⟩
  · rw [hv]
    exact ⟨hW.toFits.called hc, missing_called hM hc⟩
  · rw [hv]
    exact hW
  · exact absurd hv hW.toFits.holds

/-- A cart in its loop that waits for fewer passengers than are riding stays there: only the cart itself lowers `riding`. -/
theorem spin_step {s s' : State m} {a : Act m} {min : Int} (hs : s.cart = .spin min) (hr : min < s.riding) (h : step s a s') :
    s'.cart = .spin min ∧ min < s'.riding := by
  have hcart : s.view.cart = .spin min := hs
  have hrid : s.view.riding = s.riding := rfl
  have key : s'.view.cart = .spin min ∧ min < s'.view.riding := by
    rcases view_step h with ⟨ha, hv⟩ | ⟨-, -, hv⟩ | ⟨-, -, hm, hv⟩ | ⟨-, hc, hv⟩ | ⟨-, hv⟩ | ⟨-, hc, hv⟩
    · unfold View.cartStep at hv
      rw [hcart] at hv
      simp [hrid, show s.riding ≠ min by omega] at hv
      rw [hv]
      exact ⟨hcart, hr⟩
    · rw [hv]
      exact ⟨hcart, hr⟩
    · rw [hv]
      exact ⟨hcart, by simp [View.enter, hrid]; omega⟩
    · rw [hv]
      exact ⟨hcart, by simp [View.enter, hrid]; omega⟩
    · rw [hv]
      exact ⟨hcart, hr⟩
    · exact ⟨hc.trans hs, by rw [show s'.view.riding = s'.riding from rfl]; omega⟩
  exact key

/-- If more passengers are aboard or called than the cart in its loop waits for, the cart may get stuck there. -/
theorem stuck_of_called (seats n : Nat) {s : State m} {min : Int} (hf : s.failed = false) (hs : s.cart = .spin min)
    (hle : min ≤ s.seats) (hc : s.view.called = n) (hr : min < s.riding + n) :
    ∃ s', (ride m seats).Path s s' ∧ s'.cart = .spin min ∧ min < s'.riding := by
  induction n generalizing s with
  | zero => exact ⟨s, Sys.Path.refl _ s, hs, by omega⟩
  | succ n ih =>
    have hpos : 0 < countAt .fromQueue s.pc := by
      have : countAt .fromQueue s.pc = n + 1 := hc
      omega
    obtain ⟨i, hi⟩ := exists_of_countAt_pos hpos
    have hst : (ride m seats).step s (.called i) (enter { s with waiting := s.waiting - 1 } i) := ⟨hf, hi, rfl⟩
    by_cases hfree : s.riding + 1 ≤ s.seats
    · have hv := view_enter (s := { s with waiting := s.waiting - 1 }) (i := i) hfree (by simp [hi])
      have hcalled := congrArg View.called hv
      have hriding : _ = s.riding + 1 := congrArg View.riding hv
      simp [hi] at hcalled
      obtain ⟨s', hp, h1, h2⟩ := ih ((congrArg View.failed hv).trans hf) ((congrArg View.cart hv).trans hs)
        (le_of_le_of_eq hle (congrArg View.seats hv).symm) (hcalled.trans (congrArg (· - 1) hc)) (by
          change min < (enter { s with waiting := s.waiting - 1 } i).view.riding + n
          omega)
      exact ⟨s', Sys.Path.head _ hst hp, h1, h2⟩
    · refine ⟨_, Sys.Path.head _ hst (Sys.Path.refl _ _), ?_⟩
      unfold enter
      simp [hfree, hs]
      omega

/-- The invariant holds along counted runs. -/
theorem waits_reach {s : State m} (h : ((ride m seats).guard Counted).Reach s) : Waits seats s.view := by
  have hind : ((ride m seats).guard Counted).Inductive fun s => Waits seats s.view := by
    refine ⟨?_, fun _ _ _ hW hst => waits_step hW hst.1 hst.2⟩
    intro s hs
    obtain ⟨count, rfl⟩ := hs
    obtain ⟨h1, h2, -⟩ := fits_init m seats count
    exact ⟨h1, h2⟩
  exact hind.reach h

/-- The first step that is not counted makes it possible that the cart gets stuck. -/
theorem stuck_of_not_counted {s s' : State m} {a : Act m} (h : ((ride m seats).guard Counted).Reach s) (hG : ¬ Counted s a)
    (hst : step s a s') : ∃ s'' min, (ride m seats).Path s' s'' ∧ s''.cart = .spin min ∧ min < s''.riding := by
  have hW := waits_reach h
  have hfits : s.riding + s.view.called ≤ s.seats := hW.fits
  have hM := hW.missing
  by_cases hl : a = .cart → s.cart = .load → s.riding = 0
  · have hb : ∃ i min, a = .board i ∧ s.cart = .spin min ∧ s.riding ≠ s.seats ∧ s.mustWait = false := by
      by_contra hn
      refine hG ⟨hl, fun hi hs => ?_⟩
      obtain ⟨i, hi⟩ := hi
      obtain ⟨min, hs⟩ := hs
      by_contra hr
      push Not at hr
      exact hn ⟨i, min, hi, hs, hr.1, by simpa using hr.2⟩
    obtain ⟨i, min, rfl, hs, hr, hm⟩ := hb
    have hsv : s.view.cart = .spin min := hs
    unfold View.Missing at hM
    rw [hsv] at hM
    have hM : s.riding + s.view.called = min := hM
    have hv : s'.view = s.view.enter := by
      obtain ⟨-, hi, rfl⟩ := hst
      exact view_board hi (by simp [hr, hm]) (by omega)
    obtain ⟨s'', hp, h1, h2⟩ := stuck_of_called seats s'.view.called
      ((congrArg View.failed hv).trans hW.failed) ((congrArg View.cart hv).trans hs) (by
        have : s'.seats = s.seats := congrArg View.seats hv
        omega) rfl (by
        have h3 : s'.view.called = s.view.called := by
          rw [hv]
          rfl
        have h4 : s'.riding = s.riding + 1 := congrArg View.riding hv
        omega)
    exact ⟨s'', min, hp, h1, h2⟩
  · push Not at hl
    obtain ⟨rfl, hl, hr⟩ := hl
    have hcalled : s.view.called = 0 := hM.called fun k e => by
      rw [show s.view.cart = .load from hl] at e
      cases e
    have hnn : 0 ≤ s.riding := hW.nonneg
    have hw : s.waiting = s.view.queued + s.view.called := hW.waiting
    have hv := view_cartStep hst.2
    unfold View.cartStep at hv
    rw [show s.view.cart = .load from hl] at hv
    have h1 : s'.failed = false := (congrArg View.failed hv).trans hW.failed
    have h2 := congrArg View.called hv
    have h3 : s'.cart = .spin (if s.waiting < s.seats then s.waiting else s.seats) := congrArg View.cart hv
    have h4 : s'.seats = s.seats := congrArg View.seats hv
    have h5 : s'.riding = s.riding := congrArg View.riding hv
    change s'.view.called = s.view.called +
      Min.min (if s.waiting < s.seats then s.waiting else s.seats).toNat s.view.queued at h2
    obtain ⟨s'', hp, h6, h7⟩ := stuck_of_called seats s'.view.called h1 h3 (by omega) rfl (by omega)
    exact ⟨s'', _, hp, h6, h7⟩

/-- The cart does not call anybody into a full cart, and does not open the queue of a full cart. -/
structure Orderly (s : State m) (a : Act m) : Prop where
  load : a = .cart → s.cart = .load → s.riding = s.seats → s.waiting = 0
  loaded : a = .cart → ∀ min, s.cart = .loaded min → min < s.seats → s.riding ≠ s.seats

/-- A state with one seat and one passenger. -/
def solo (waiting riding : Int) (mustWait : Bool) (allReady leaving : Nat) (cart : CartPc) (place : Place) : State 1 where
  waiting := waiting
  seats := 1
  wantToLeaveCount := 0
  riding := riding
  mustWait := mustWait
  allReady := allReady
  passengersReadyToLeave := leaving
  cart := cart
  pc _ := place
  failed := false

theorem update_solo (p q : Place) : Function.update (fun _ : Fin 1 => p) 0 q = fun _ => q := by
  funext i
  rw [Subsingleton.elim i 0, Function.update_self]

theorem signals_solo (p q : Place) : Signals p q 1 (fun _ : Fin 1 => p) fun _ => q :=
  update_solo p q ▸ Signals.succ (Signal.wake 0 rfl) (Signals.zero _)

/-- The runs in which the cart neither calls nor opens the queue out of turn. -/
def calmRide : Sys (State 1) (Act 1) := (ride 1 1).guard fun s a => Counted s a ∧ Orderly s a

/-- A passenger rides, and is called into the cart for a second ride. -/
theorem second_ride : calmRide.Reach (solo 0 1 true 1 0 (.spin 1) .onCart) := by
  have hcart : ∀ s : State 1, (s.cart = .load ∨ (∃ min, s.cart = .loaded min) → s.riding = 0 ∧ s.seats = 1) →
      Counted s .cart ∧ Orderly s .cart := by
    intro s h
    refine ⟨⟨fun _ hl => (h (Or.inl hl)).1, fun hb => absurd hb (by simp)⟩, fun _ hl hfull => ?_, fun _ min hl _ hfull => ?_⟩
    · obtain ⟨h0, h1⟩ := h (Or.inl hl)
      omega
    · obtain ⟨h0, h1⟩ := h (Or.inr ⟨min, hl⟩)
      omega
  have hpass : ∀ (s : State 1) a, a ≠ .cart → ((∃ i, a = .board i) → ∀ min, s.cart ≠ .spin min) → Counted s a ∧ Orderly s a := by
    intro s a ha h
    refine ⟨⟨fun hc => absurd hc ha, fun hb hs => ?_⟩, fun hc => absurd hc ha, fun hc => absurd hc ha⟩
    obtain ⟨min, hs⟩ := hs
    exact absurd hs (h hb min)
  have h0 : calmRide.Reach (solo 0 0 false 0 0 .load .outside) := .init ⟨0, rfl⟩
  -- the cart finds nobody and opens the queue
  have h1 : calmRide.Reach (solo 0 0 false 0 0 (.spin 0) .outside) := .step Act.cart h0
    ⟨hcart _ fun _ => ⟨rfl, rfl⟩, rfl, _, Signals.zero _, rfl⟩
  have h2 : calmRide.Reach (solo 0 0 false 0 0 (.loaded 0) .outside) := .step Act.cart h1 ⟨hcart _ fun _ => ⟨rfl, rfl⟩, rfl, rfl⟩
  have h3 : calmRide.Reach (solo 0 0 false 0 0 .ready .outside) := .step Act.cart h2 ⟨hcart _ fun _ => ⟨rfl, rfl⟩, rfl, rfl⟩
  -- the passenger takes the seat, and the cart departs
  have h4 : calmRide.Reach (solo 0 1 true 1 0 .ready .onCart) := .step (Act.board 0) h3
    ⟨hpass _ _ (by simp) (by simp [solo]), rfl, rfl, by simp [passengerBoard, enter, solo, update_solo]⟩
  have h5 : calmRide.Reach (solo 0 1 true 0 0 .depart .onCart) := .step Act.cart h4 ⟨hcart _ (by simp [solo]), rfl, Nat.one_pos, rfl⟩
  have h6 : calmRide.Reach (solo 0 1 true 0 0 .unload .fromCart) := .step Act.cart h5
    ⟨hcart _ (by simp [solo]), rfl, _, signals_solo _ _, rfl⟩
  have h7 : calmRide.Reach (solo 0 1 true 0 0 .unload .aboard) := .step (Act.boarded 0) h6
    ⟨hpass _ _ (by simp) (by simp), rfl, rfl, by simp [solo, update_solo]⟩
  -- the cart arrives
  have h8 : calmRide.Reach (solo 0 1 true 0 1 .unload .onLeave) := .step (Act.unboard 0) h7
    ⟨hpass _ _ (by simp) (by simp), rfl, rfl, by simp [passengerUnboard, solo, update_solo]⟩
  have h9 : calmRide.Reach (solo 0 1 true 0 0 .leave .onLeave) := .step Act.cart h8 ⟨hcart _ (by simp [solo]), rfl, Nat.one_pos, rfl⟩
  have h10 : calmRide.Reach (solo 0 0 true 0 0 .load .fromLeave) := .step Act.cart h9
    ⟨hcart _ (by simp [solo]), rfl, _, signals_solo _ _, rfl⟩
  have h11 : calmRide.Reach (solo 0 0 true 0 0 .load .outside) := .step (Act.unboarded 0) h10
    ⟨hpass _ _ (by simp) (by simp), rfl, rfl, by simp [solo, update_solo]⟩
  -- the queue is closed now: the passenger waits to be called
  have h12 : calmRide.Reach (solo 1 0 true 0 0 .load .onQueue) := .step (Act.board 0) h11
    ⟨hpass _ _ (by simp) (by simp [solo]), rfl, rfl, by simp [passengerBoard, solo, update_solo]⟩
  have h13 : calmRide.Reach (solo 1 0 true 0 0 (.spin 1) .fromQueue) := .step Act.cart h12
    ⟨hcart _ fun _ => ⟨rfl, rfl⟩, rfl, _, signals_solo _ _, rfl⟩
  exact .step (Act.called 0) h13 ⟨hpass _ _ (by simp) (by simp), rfl, rfl, by simp [enter, solo, update_solo]⟩
/-- In a counted run the cart in its loop never waits for fewer passengers than are riding. In any run, a cart that does stays in its
loop for ever. -/
theorem riding_le_min (m seats : Nat) :
    (∀ s : State m, ((ride m seats).guard Counted).Reach s → ∀ min, s.cart = .spin min → s.riding ≤ min) ∧
      ∀ (s s' : State m) (min : Int), s.cart = .spin min → min < s.riding → (ride m seats).Path s s' →
        s'.cart = .spin min ∧ min < s'.riding := by
  constructor
  · intro s h min hs
    have hM := (waits_reach h).missing
    have hcart : s.view.cart = .spin min := hs
    unfold View.Missing at hM
    rw [hcart] at hM
    have hM : s.riding + s.view.called = min := hM
    omega
  · intro s s' min hs hr hp
    induction hp with
    | refl => exact ⟨hs, hr⟩
    | tail _ hst ih =>
      obtain ⟨a, hst⟩ := hst
      exact spin_step ih.1 ih.2 hst

/-- The passenger that the cart has called for the second ride is riding. -/
theorem riding_le_min_called : ∃ (s : State 1) (min : Int), ((ride 1 1).guard Counted).Reach s ∧ s.cart = .spin min ∧ s.riding = 1 ∧
    s.riding ≤ min := by
  have h : ((ride 1 1).guard Counted).Reach (solo 0 1 true 1 0 (.spin 1) .onCart) := second_ride.guard_mono fun _ _ hG => hG.1
  exact ⟨_, 1, h, rfl, rfl, (riding_le_min 1 1).1 _ h 1 rfl⟩

/-- One passenger boards before the cart looks: the cart waits for nobody, and one is riding. -/
theorem cart_spins_for_ever : ¬ ∀ (m seats : Nat), 1 ≤ seats → ∀ s : State m, (ride m seats).Reach s →
    ∀ min, s.cart = .spin min → s.riding ≤ min := by
  intro h
  have h0 : (ride 1 1).Reach (rideInit 1 1 0) := Sys.Reach.init ⟨0, rfl⟩
  have h1 := Sys.Reach.step (Act.board 0) h0 ⟨rfl, rfl, rfl⟩
  have hst : step (passengerBoard (rideInit 1 1 0) 0) .cart { passengerBoard (rideInit 1 1 0) 0 with cart := .spin 0 } :=
    ⟨rfl, _, Signals.zero _, rfl⟩
  have h2 := h 1 1 (by decide) _ (Sys.Reach.step Act.cart h1 hst) 0 rfl
  exact absurd h2 (by decide)

/-! ## Capacity -/

/-- What holds where the cart is. Before a first ride the queue is open and nobody waits, or the cart is full; before a later one the
queue is closed and the cart empty. In the loop the queue is closed as long as somebody is called. -/
def View.Phase (v : View) : Prop :=
  match v.cart with
  | .load => v.called = 0 ∧ (0 < v.queued → v.mustWait = true) ∧ (v.mustWait = true → v.riding = 0 ∨ v.riding = v.seats)
  | .spin min => v.called = 0 ∨ v.mustWait = true ∧ v.riding + v.called = min
  | .loaded _ | .ready => v.called = 0
  | .depart | .unload | .leave => v.called = 0 ∧ v.riding = v.seats ∧ v.allReady = 0

/-- The invariant of an orderly run: a full cart is closed, and has been reported at most once. -/
structure Safe (seats : Nat) (v : View) : Prop extends Fits seats v where
  full : v.riding = v.seats → v.mustWait = true
  allReady : v.allReady = 0 ∨ v.allReady = 1 ∧ v.riding = v.seats
  phase : v.Phase

/-- Nobody is called while the queue is open. -/
theorem View.Phase.opened {v : View} (h : v.Phase) (hm : v.mustWait = false) : v.called = 0 := by
  unfold View.Phase at h
  rw [hm] at h
  split at h
  · exact h.1
  · simpa using h
  · exact h
  · exact h
  · exact h.1
  · exact h.1
  · exact h.1

/-- Passengers are called only while the cart is in its loop and the queue is closed. -/
theorem View.Phase.called {v : View} (h : v.Phase) (hc : 0 < v.called) :
    ∃ min, v.cart = .spin min ∧ v.mustWait = true ∧ v.riding + v.called = min := by
  unfold View.Phase at h
  split at h
  · omega
  · rename_i min hs
    rcases h with h | ⟨hm, h⟩
    · omega
    · exact ⟨min, hs, hm, h⟩
  · omega
  · omega
  · omega
  · omega
  · omega

/-- A passenger that waits keeps the invariant. -/
theorem Safe.wait (hS : Safe seats v) (hm : v.riding = v.seats ∨ v.mustWait = true) :
    Safe seats { v with waiting := v.waiting + 1, queued := v.queued + 1 } := by
  have hm : v.mustWait = true := hm.elim hS.full id
  refine ⟨hS.toFits.wait, hS.full, hS.allReady, ?_⟩
  have hP := hS.phase
  unfold View.Phase at hP ⊢
  cases hc : v.cart with
  | load =>
    rw [hc] at hP
    exact ⟨hP.1, fun _ => hm, hP.2.2⟩
  | spin _ | loaded _ | ready | depart | unload | leave =>
    rw [hc] at hP
    exact hP

/-- A newcomer that boards keeps the invariant. -/
theorem Safe.board (hS : Safe seats v) (hr : v.riding ≠ v.seats) (hm : v.mustWait = false) : Safe seats v.enter := by
  have hP := hS.phase
  have hc := hP.opened hm
  have ha : v.allReady = 0 := by
    have := hS.allReady
    omega
  refine ⟨hS.toFits.board hc hr, ?_, ?_, ?_⟩
  · intro h
    simpa [View.enter, hm] using h
  · by_cases h : v.riding + 1 = v.seats
    · simp [View.enter, h, ha]
    · simp [View.enter, h, ha]
  · unfold View.Phase at hP ⊢
    cases hcart : v.cart with
    | load =>
      rw [hcart, hm] at hP
      simp [View.enter, hcart, hm, hc]
      have := hP.2.1
      simp at this
      omega
    | spin min => simp [View.enter, hcart, hc]
    | loaded _ | ready => simp [View.enter, hcart, hc]
    | depart | unload | leave =>
      rw [hcart] at hP
      exact absurd hP.2.1 hr

/-- A called passenger that boards keeps the invariant. -/
theorem Safe.called (hS : Safe seats v) (hc : 0 < v.called) :
    Safe seats { v.enter with waiting := v.waiting - 1, called := v.called - 1 } := by
  obtain ⟨min, hs, hm, hsum⟩ := hS.phase.called hc
  have hfits := hS.fits
  have ha : v.allReady = 0 := by
    have := hS.allReady
    omega
  refine ⟨hS.toFits.called hc, ?_, ?_, ?_⟩
  · intro _
    simp [View.enter, hm]
  · by_cases h : v.riding + 1 = v.seats
    · simp [View.enter, h, ha]
    · simp [View.enter, h, ha]
  · unfold View.Phase
    simp [View.enter, hs, hm]
    omega

/-- The cart keeps the invariant. -/
theorem Safe.cart (hS : Safe seats v) (hp : 1 ≤ seats) (hl : v.cart = .load → v.riding = v.seats → v.waiting = 0)
    (ho : ∀ min, v.cart = .loaded min → min < v.seats → v.riding ≠ v.seats) (h : v.cartStep v') : Safe seats v' := by
  have hP := hS.phase
  have hw := hS.waiting
  unfold View.Phase at hP
  cases hc : v.cart with
  | load =>
    rw [hc] at hP
    obtain ⟨hcalled, hq, hm⟩ := hP
    have hr : v.waiting = 0 ∨ v.mustWait = true ∧ v.riding = 0 := by
      by_cases h0 : v.queued = 0
      · omega
      · have hm' := hq (by omega)
        rcases hm hm' with hr | hr
        · exact Or.inr ⟨hm', hr⟩
        · exact Or.inl (hl hc hr)
    obtain ⟨hF, hs, hm', hr', ha', h0⟩ := hS.toFits.load hc hcalled (hr.symm.imp And.right id) h
    have hseats : v'.seats = v.seats := by rw [hF.seats, hS.seats]
    refine ⟨hF, by rw [hr', hm', hseats]; exact hS.full, by rw [hr', ha', hseats]; exact hS.allReady, ?_⟩
    unfold View.Phase
    rw [hs]
    rcases hr with hr | ⟨hm, hr⟩
    · exact Or.inl (h0 hr)
    · exact Or.inr ⟨hm'.trans hm, by omega⟩
  | spin min =>
    obtain ⟨hF, -, -⟩ := hS.toFits.cart (by simp [hc]) (by simp [hc]) h
    unfold View.cartStep at h
    rw [hc] at h hP
    change v' = (if v.riding = min then { v with cart := .loaded min } else v) at h
    by_cases hr : v.riding = min
    · rw [if_pos hr] at h
      subst h
      refine ⟨hF, hS.full, hS.allReady, ?_⟩
      rcases hP with hP | ⟨-, hP⟩
      · exact hP
      · change v.called = 0
        omega
    · rw [if_neg hr] at h
      rwa [h]
  | loaded min =>
    obtain ⟨hF, -, -⟩ := hS.toFits.cart (by simp [hc]) (by simp [hc]) h
    unfold View.cartStep at h
    rw [hc] at h hP
    subst h
    refine ⟨hF, ?_, hS.allReady, hP⟩
    intro hr
    by_cases hlt : min < v.seats
    · exact absurd hr (ho min hc hlt)
    · simpa [hlt] using hS.full hr
  | ready =>
    obtain ⟨hF, -, -⟩ := hS.toFits.cart (by simp [hc]) (by simp [hc]) h
    unfold View.cartStep at h
    rw [hc] at h hP
    obtain ⟨hpos, rfl⟩ := h
    have ha := hS.allReady
    have hcalled : v.called = 0 := hP
    have hr : v.riding = v.seats := by omega
    have h0 : v.allReady - 1 = 0 := by omega
    exact ⟨hF, hS.full, Or.inl h0, hcalled, hr, h0⟩
  | depart =>
    obtain ⟨hF, -, -⟩ := hS.toFits.cart (by simp [hc]) (by simp [hc]) h
    unfold View.cartStep at h
    rw [hc] at h hP
    subst h
    exact ⟨hF, hS.full, hS.allReady, hP⟩
  | unload =>
    obtain ⟨hF, -, -⟩ := hS.toFits.cart (by simp [hc]) (by simp [hc]) h
    unfold View.cartStep at h
    rw [hc] at h hP
    subst h
    exact ⟨hF, hS.full, hS.allReady, hP⟩
  | leave =>
    rw [hc] at hP
    obtain ⟨hcalled, hr, ha⟩ := hP
    obtain ⟨hF, -, -⟩ := hS.toFits.cart (by simp [hc]) (fun _ => hcalled) h
    unfold View.cartStep at h
    rw [hc] at h
    subst h
    have hseats := hS.seats
    refine ⟨hF, ?_, Or.inl ha, hcalled, fun _ => hS.full hr, fun _ => Or.inl rfl⟩
    intro h0
    simp at h0
    omega

/-- An orderly step keeps the invariant. -/
theorem safe_step {s s' : State m} {a : Act m} (hS : Safe seats s.view) (hp : 1 ≤ seats) (hG : Orderly s a) (h : step s a s') :
    Safe seats s'.view := by
  rcases view_step h with ⟨ha, hv⟩ | ⟨-, hr, hv⟩ | ⟨-, hr, hm, hv⟩ | ⟨-, hc, hv⟩ | ⟨-, hv⟩ | ⟨hv, -⟩
  · exact hS.cart hp (hG.load ha) (hG.loaded ha) hv
  · rw [hv]
    exact hS.wait hr
  · rw [hv]
    exact hS.board hr hm
  · rw [hv]
    exact hS.called hc
  · rw [hv]
    exact hS
  · exact absurd hv hS.toFits.holds

/-- In an orderly run the cart is never overfull, so the assertion of `passenger_board` does not fail. -/
theorem riding_le_seats (m seats : Nat) (hp : 1 ≤ seats) {s : State m} (h : ((ride m seats).guard Orderly).Reach s) :
    s.riding ≤ seats ∧ s.failed = false := by
  have hind : ((ride m seats).guard Orderly).Inductive fun s => Safe seats s.view := by
    refine ⟨?_, fun _ _ _ hS hst => safe_step hS hp hst.1 hst.2⟩
    intro s hs
    obtain ⟨count, rfl⟩ := hs
    obtain ⟨h1, h2, h3⟩ := fits_init m seats count
    refine ⟨h1, fun h0 => ?_, Or.inl rfl, h2, fun h0 => by omega, fun h0 => ?_⟩
    · have : (0 : Int) = seats := h0
      omega
    · cases h0
  have hS := hind.reach h
  have hfits : s.riding + s.view.called ≤ s.seats := hS.fits
  have hseats : s.seats = seats := hS.seats
  exact ⟨by omega, hS.failed⟩

/-- After a ride, with the passenger in the cart again. -/
theorem riding_le_seats_one : ∃ s : State 1, ((ride 1 1).guard Orderly).Reach s ∧ s.riding = 1 ∧ s.riding ≤ 1 ∧ s.failed = false := by
  have h : ((ride 1 1).guard Orderly).Reach (solo 0 1 true 1 0 (.spin 1) .onCart) := second_ride.guard_mono fun _ _ hG => hG.2
  exact ⟨_, h, rfl, riding_le_seats 1 1 (by decide) h⟩

/-- One seat and two passengers that start before the cart: one boards and the other waits. -/
def early : State 2 := passengerBoard (passengerBoard (rideInit 2 1 0) 0) 1

/-- The cart calls the one that waits. -/
def earlyCalled : State 2 := { early with cart := .spin 1, pc := Function.update early.pc 1 .fromQueue }

/-- The passenger that was called boards a full cart, and the assertion fails. -/
theorem ride_overfull : ¬ ∀ (m seats : Nat), 1 ≤ seats → ∀ s : State m, (ride m seats).Reach s →
    s.riding ≤ seats ∧ s.failed = false := by
  intro h
  have h0 : (ride 2 1).Reach (rideInit 2 1 0) := Sys.Reach.init ⟨0, rfl⟩
  have h1 := Sys.Reach.step (Act.board 0) h0 ⟨rfl, rfl, rfl⟩
  have h2 : (ride 2 1).Reach early := Sys.Reach.step (Act.board 1) h1 ⟨rfl, rfl, rfl⟩
  have h3 : (ride 2 1).Reach earlyCalled :=
    Sys.Reach.step Act.cart h2 ⟨rfl, _, Signals.succ (Signal.wake 1 rfl) (Signals.zero _), rfl⟩
  have h4 := Sys.Reach.step (Act.called 1) h3 ⟨rfl, rfl, rfl⟩
  exact absurd (h 2 1 (by decide) _ h4).1 (by decide)

end OsLabs.Ride
