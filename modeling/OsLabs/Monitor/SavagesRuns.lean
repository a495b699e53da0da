import OsLabs.Lib.Fair
import OsLabs.Monitor.Savages

/-!
# The tribe in the long run (`savages.c`)

Whatever the order in which the savages and the cook go on, they print the same text: a `C`, and as many `E`s as there are meals in a
pot, and again (`one_output`). Each `outc` is a step of its own in the source, just before the access to `meals`, and one with it here:
a savage prints while it holds `mutex`, and the cook while that savage waits for `full`, so no letter can come between the two.

Who eats is another matter. In a strongly fair run nobody waits for `full` for ever, as the cook goes on, and nobody waits for `mutex` for
ever, as the savage that holds it goes on; so every savage eats again and again, and the cook cooks (`every_savage_eats`). In a run that is
only weakly fair, the others can pass `mutex` to each other and leave one savage hungry.
-/

namespace OsLabs.Savages

open Filter Sys

variable {n : Nat} {M : Int} {s s' : State n} {i j : Fin n} {a : Act n} {r : (tribe n M).Run}

/-! ## The output -/

/-- What a step prints: the cook prints before it fills the pot, and a savage before it takes a meal. -/
def outc (s : State n) : Act n → List Char
  | .cook => if s.cook = .cooking then ['C'] else []
  | .savage i => if s.pc i = .load then ['E'] else []

/-- The tribe, and what it has printed. -/
def printing (n : Nat) (M : Int) : Sys (State n × List Char) (Act n) where
  init x := x = (main n, [])
  step x a x' := step M x.1 a x'.1 ∧ x'.2 = x.2 ++ outc x.1 a

/-- Letter `k` of a text that begins with a `C` and has a `C` after every `M` other letters. -/
def letter (M : Int) (k : Nat) : Char := if (k : Int) % (M + 1) = 0 then 'C' else 'E'

/-- A savage that has printed its letter, and not eaten yet. -/
def Place.printed : Place → Bool
  | .store _ => true
  | _ => false

/-- The text so far, with a letter for each pot and for each meal that is eaten or about to be. -/
structure Output (M : Int) (x : State n × List Char) : Prop where
  inv : Inv M x.1
  length : x.2.length = x.1.pots + x.1.eaten + count Place.printed x.1.pc
  text : x.2 = (List.range x.2.length).map (letter M)

/-- While a savage is inside, no other has printed a letter that counts. -/
theorem printed_eq (hI : Inv M s) (hi : (s.pc i).inside = true) : count Place.printed s.pc = (s.pc i).printed.toNat := by
  have hle : ∀ j, (s.pc j).printed = true → j = i := by
    intro j hj
    refine inside_unique hI ?_ hi
    cases hpc : s.pc j with
    | store v => rfl
    | _ => rw [hpc] at hj; cases hj
  cases hp : (s.pc i).printed with
  | true =>
    have hset : (Finset.univ.filter fun j => (s.pc j).printed = true) = {i} := by
      ext j
      simp only [Finset.mem_filter, Finset.mem_univ, true_and, Finset.mem_singleton]
      exact ⟨hle j, fun e => e ▸ hp⟩
    rw [count, hset, Finset.card_singleton, Bool.toNat_true]
  | false =>
    refine count_eq_zero_iff.mpr fun j => ?_
    by_contra hj
    have hj' : (s.pc j).printed = true := by simpa using hj
    rw [hle j hj', hp] at hj'
    cases hj'

/-- A letter that is the next one of the text. -/
theorem text_append {out : List Char} (h : out = (List.range out.length).map (letter M)) {c : Char} (hc : letter M out.length = c) :
    out ++ [c] = (List.range (out ++ [c]).length).map (letter M) := by
  rw [List.length_append, List.length_singleton, List.range_succ, List.map_append, ← h, List.map_singleton, hc]

theorem letter_pot (M : Int) (p : Nat) : ∀ {k : Nat}, (k : Int) = (M + 1) * p → letter M k = 'C' := by
  intro k hk
  rw [letter, hk, Int.mul_emod_right, if_pos rfl]

theorem letter_meal {p k : Nat} {m : Int} (hk : (k : Int) = (M + 1) * p - m) (h0 : 0 < m) (hle : m ≤ M) : letter M k = 'E' := by
  rw [letter, if_neg]
  intro hdvd
  have h1 : (M + 1) ∣ (M + 1) * p - k := Int.dvd_sub (Int.dvd_mul_right ..) (Int.dvd_of_emod_eq_zero hdvd)
  have h2 := Int.le_of_dvd (by omega) h1
  omega

/-- How the count of printed letters changes when a savage moves. -/
theorem printed_goto (s : State n) (i : Fin n) (c : Place) :
    count Place.printed (Function.update s.pc i c) + (s.pc i).printed.toNat = count Place.printed s.pc + c.printed.toNat :=
  count_update Place.printed s.pc i c

/-- Each letter stands for a pot, or for a meal about to be eaten. -/
theorem outc_length (hst : step M s a s') :
    s'.pots + s'.eaten + count Place.printed s'.pc = s.pots + s.eaten + count Place.printed s.pc + (outc s a).length := by
  cases hst with
  | hungry i h hp =>
    have hc := printed_goto s i .test
    simp [h, Place.printed] at hc
    simp [outc, h, State.goto, hc]
  | test i h =>
    have hc := printed_goto s i (if s.meals = 0 then .call else .load)
    have h0 : (if s.meals = 0 then Place.call else Place.load).printed = false := by split <;> rfl
    rw [h, h0] at hc
    simp [outc, h, State.goto]
    exact hc
  | call i h =>
    have hc := printed_goto s i .waitFull
    simp [h, Place.printed] at hc
    simp [outc, h, State.goto, hc]
  | waitFull i h hp =>
    have hc := printed_goto s i .load
    simp [h, Place.printed] at hc
    simp [outc, h, State.goto, hc]
  | load i h =>
    have hc := printed_goto s i (.store s.meals)
    simp [h, Place.printed] at hc
    simp [outc, h, State.goto, hc]
    omega
  | store i loaded h =>
    have hc := printed_goto s i .leave
    simp [h, Place.printed] at hc
    simp [outc, h, State.goto]
    omega
  | leave i h =>
    have hc := printed_goto s i .digest
    simp [h, Place.printed] at hc
    simp [outc, h, State.goto, hc]
  | digest i h =>
    have hc := printed_goto s i .hungry
    simp [h, Place.printed] at hc
    simp [outc, h, State.goto, hc]
  | waitEmpty h hp => simp [outc, h]
  | cooking h =>
    simp [outc, h]
    omega
  | postFull h => simp [outc, h]

/-- A letter that is printed is the next one of the text: before a `C` the pots are eaten, and before an `E` some meals of the last pot
are left. -/
theorem outc_letter (hI : Inv M s) {out : List Char} (hlen : out.length = s.pots + s.eaten + count Place.printed s.pc) :
    outc s a = [] ∨ ∃ c, outc s a = [c] ∧ letter M out.length = c := by
  have heaten := hI.eaten
  cases a with
  | cook =>
    by_cases hc : s.cook = .cooking
    · obtain ⟨h0, i, hi, -, -⟩ := cook_writes hI hc
      have hp := printed_eq hI (i := i) (by rw [hi]; rfl)
      simp only [hi, Place.printed, Bool.toNat_false] at hp
      refine Or.inr ⟨'C', by simp [outc, hc], letter_pot M s.pots ?_⟩
      have hmul : (M + 1) * (s.pots : Int) = M * s.pots + s.pots := by ring
      omega
    · exact Or.inl (by simp [outc, hc])
  | savage i =>
    by_cases hi : s.pc i = .load
    · have hp := printed_eq hI (i := i) (by rw [hi]; rfl)
      simp only [hi, Place.printed, Bool.toNat_false] at hp
      have hm := hI.pot i
      rw [hi] at hm
      refine Or.inr ⟨'E', by simp [outc, hi], letter_meal (p := s.pots) (m := s.meals) ?_ hm hI.le⟩
      have hmul : (M + 1) * (s.pots : Int) = M * s.pots + s.pots := by ring
      omega
    · exact Or.inl (by simp [outc, hi])

/-- Every step adds the letter that the text wants. -/
theorem output_step {x x' : State n × List Char} (hM : 1 ≤ M) (h : Output M x) (hst : (printing n M).step x a x') : Output M x' := by
  obtain ⟨s, out⟩ := x
  obtain ⟨s', out'⟩ := x'
  obtain ⟨hst, hout⟩ := hst
  have hI' : Inv M s' := by
    cases a with
    | savage i => exact inv_savage h.inv hM hst
    | cook => exact inv_cook h.inv hM hst
  have hlen : out.length = s.pots + s.eaten + count Place.printed s.pc := h.length
  have hout : out' = out ++ outc s a := hout
  subst hout
  refine ⟨hI', ?_, ?_⟩
  · show (out ++ outc s a).length = _
    rw [List.length_append, hlen, outc_length hst]
  · rcases outc_letter h.inv hlen (a := a) with h0 | ⟨c, hc, hletter⟩
    · show out ++ outc s a = _
      rw [h0, List.append_nil]
      exact h.text
    · show out ++ outc s a = (List.range (out ++ outc s a).length).map (letter M)
      rw [hc]
      exact text_append h.text hletter

/-- The output is the same in all runs: a `C`, `M` times an `E`, and again. -/
theorem one_output (n : Nat) (M : Int) (hM : 1 ≤ M) {s : State n} {out : List Char} (h : (printing n M).Reach (s, out)) :
    out = (List.range out.length).map (letter M) := by
  have hind : (printing n M).Inductive (Output M) := by
    refine ⟨fun x hx => ?_, fun x a x' => output_step hM⟩
    rw [hx]
    have h0 : count Place.printed (main n).pc = 0 := count_eq_zero_iff.mpr fun i => rfl
    exact ⟨inv_init n hM, by rw [h0]; rfl, rfl⟩
  exact (hind.reach h).text

/-- The witness: one savage finds the pot empty and calls the cook. -/
theorem one_output_first : ['C'] = (List.range 1).map (letter 1) := by
  have go : ∀ {s s' : State 1} {out : List Char} (a : Act 1), (printing 1 1).Reach (s, out) → step 1 s a s' →
      (printing 1 1).Reach (s', out ++ outc s a) := fun a h hst => Sys.Reach.step a h ⟨hst, rfl⟩
  have h0 : (printing 1 1).Reach (main 1, []) := Sys.Reach.init rfl
  have h1 := go _ h0 (.hungry (main 1) 0 rfl (by decide))
  have h2 := go _ h1 (.test _ 0 rfl)
  have h3 := go _ h2 (.call _ 0 rfl)
  have h4 := go _ h3 (.waitEmpty _ rfl (by decide))
  have h5 := go _ h4 (.cooking _ rfl)
  exact one_output 1 1 (by decide) h5

/-! ## Savages that go on -/

instance : Finite (Act n) :=
  Finite.of_surjective (fun o : Option (Fin n) => o.elim .cook .savage) fun a => by
    cases a with
    | savage i => exact ⟨some i, rfl⟩
    | cook => exact ⟨none, rfl⟩

/-- The places in the order of the loop, the last ones before `sem_post(mutex)` with the smallest numbers. -/
def Place.toLeave : Place → Nat
  | .leave => 0
  | .store _ => 1
  | .load => 2
  | .waitFull => 3
  | .call => 4
  | .test => 5
  | .hungry => 6
  | .digest => 7

/-- The same with the last ones before a meal first. -/
def Place.toMeal : Place → Nat
  | .leave => 8
  | c => c.toLeave

/-- A savage comes nearer to `sem_post(mutex)` until it is there, and nearer to a meal until it eats. -/
theorem nearer (h : step M s (.savage i) s') :
    (s.pc i ≠ .leave → (s'.pc i).toLeave < (s.pc i).toLeave) ∧
      ((∀ v, s.pc i ≠ .store v) → (s'.pc i).toMeal < (s.pc i).toMeal) := by
  cases h with
  | test _ h => by_cases h0 : s.meals = 0 <;> simp [State.goto, h, h0, Place.toLeave, Place.toMeal]
  | hungry _ h _ | call _ h | waitFull _ h _ | load _ h | store _ _ h | leave _ h | digest _ h =>
    simp [State.goto, h, Place.toLeave, Place.toMeal]

/-- A savage is moved by no step but its own. -/
theorem pc_step_ne (ha : a ≠ .savage i) (h : step M s a s') : s'.pc i = s.pc i := by
  cases h with
  | waitEmpty | cooking | postFull => rfl
  | hungry j | test j | call j | waitFull j | load j | store j | leave j | digest j =>
    have hij : i ≠ j := fun e => ha (e ▸ rfl)
    simp [State.goto, hij]

/-- A savage that takes steps again and again posts `mutex` again and again. -/
theorem leaves (hinf : ∃ᶠ t in atTop, r.act t = .savage i) :
    ∃ᶠ t in atTop, r.act t = .savage i ∧ (r.state t).pc i = .leave :=
  Run.again (P := fun s => s.pc i = .leave) (v := fun s => (s.pc i).toLeave) hinf (fun _ _ hne hst => (nearer hst).1 hne)
    fun s a s' ha hst => by rw [pc_step_ne ha hst]

/-- A savage that takes steps again and again eats again and again. -/
theorem eats (hinf : ∃ᶠ t in atTop, r.act t = .savage i) :
    ∃ᶠ t in atTop, r.act t = .savage i ∧ ∃ v, (r.state t).pc i = .store v :=
  Run.again (P := fun s => ∃ v, s.pc i = .store v) (v := fun s => (s.pc i).toMeal) hinf
    (fun _ _ hne hst => (nearer hst).2 fun v hv => hne ⟨v, hv⟩) fun s a s' ha hst => by rw [pc_step_ne ha hst]

/-- The steps of the cook, the last ones before `sem_post(full)` with the smallest numbers. -/
def CookPlace.toPost : CookPlace → Nat
  | .postFull => 0
  | .cooking => 1
  | .waitEmpty => 2

/-- The same with the last ones before the pot is filled first. -/
def CookPlace.toFill : CookPlace → Nat
  | .cooking => 0
  | .waitEmpty => 1
  | .postFull => 2

theorem cook_nearer (h : step M s .cook s') :
    (s.cook ≠ .postFull → s'.cook.toPost < s.cook.toPost) ∧ (s.cook ≠ .cooking → s'.cook.toFill < s.cook.toFill) := by
  cases h with
  | waitEmpty h _ | cooking h | postFull h => simp [h, CookPlace.toPost, CookPlace.toFill]

theorem cook_step_ne (ha : a ≠ .cook) (h : step M s a s') : s'.cook = s.cook := by
  cases h with
  | waitEmpty | cooking | postFull => exact absurd rfl ha
  | hungry | test | call | waitFull | load | store | leave | digest => rfl

/-- A cook that takes steps again and again posts `full` again and again. -/
theorem posts (hinf : ∃ᶠ t in atTop, r.act t = .cook) : ∃ᶠ t in atTop, r.act t = .cook ∧ (r.state t).cook = .postFull :=
  Run.again (P := fun s => s.cook = .postFull) (v := fun s => s.cook.toPost) hinf (fun _ _ hne hst => (cook_nearer hst).1 hne)
    fun s a s' ha hst => by rw [cook_step_ne ha hst]

/-- A cook that takes steps again and again cooks again and again. -/
theorem cooks (hinf : ∃ᶠ t in atTop, r.act t = .cook) : ∃ᶠ t in atTop, r.act t = .cook ∧ (r.state t).cook = .cooking :=
  Run.again (P := fun s => s.cook = .cooking) (v := fun s => s.cook.toFill) hinf (fun _ _ hne hst => (cook_nearer hst).2 hne)
    fun s a s' ha hst => by rw [cook_step_ne ha hst]

/-! ## Nobody stops -/

/-- A savage that is not blocked can take a step. -/
theorem enabled_of_not_blocked (h : ¬ Blocked s i) : (tribe n M).Enabled (.savage i) s := by
  cases hpc : s.pc i with
  | hungry => exact ⟨_, .hungry s i hpc (Nat.pos_of_ne_zero fun h0 => h (Or.inl ⟨hpc, h0⟩))⟩
  | test => exact ⟨_, .test s i hpc⟩
  | call => exact ⟨_, .call s i hpc⟩
  | waitFull => exact ⟨_, .waitFull s i hpc (Nat.pos_of_ne_zero fun h0 => h (Or.inr ⟨hpc, h0⟩))⟩
  | load => exact ⟨_, .load s i hpc⟩
  | store v => exact ⟨_, .store s i v hpc⟩
  | leave => exact ⟨_, .leave s i hpc⟩
  | digest => exact ⟨_, .digest s i hpc⟩

theorem cook_enabled (h : ¬ CookBlocked s) : (tribe n M).Enabled .cook s := by
  cases hc : s.cook with
  | waitEmpty => exact ⟨_, .waitEmpty s hc (Nat.pos_of_ne_zero fun h0 => h ⟨hc, h0⟩)⟩
  | cooking => exact ⟨_, .cooking s hc⟩
  | postFull => exact ⟨_, .postFull s hc⟩

/-- In a strongly fair run, a savage that takes no more steps waits for one semaphore, which is zero, from some time on. -/
theorem blocked_of_idle (h : r.StronglyFair) (hidle : ¬ ∃ᶠ t in atTop, r.act t = .savage i) :
    (∀ᶠ t in atTop, (r.state t).pc i = .hungry ∧ (r.state t).mutex = 0) ∨
      ∀ᶠ t in atTop, (r.state t).pc i = .waitFull ∧ (r.state t).full = 0 := by
  obtain ⟨c, hc⟩ := Run.stays (v := fun s : State n => s.pc i) (fun s a s' ha hst => pc_step_ne ha hst) hidle
  have hblocked : ∀ᶠ t in atTop, (r.state t).pc i = c ∧ Blocked (r.state t) i := by
    filter_upwards [hc, h.disabled hidle] with t hpc hdis
    exact ⟨hpc, by_contra fun hb => hdis (enabled_of_not_blocked hb)⟩
  obtain ⟨t, rfl, ⟨hpc, -⟩ | ⟨hpc, -⟩⟩ := hblocked.exists
  · refine Or.inl (hblocked.mono fun u hu => ?_)
    rcases hu.2 with hb | hb
    · exact hb
    · have := hu.1.symm.trans hb.1
      rw [hpc] at this
      cases this
  · refine Or.inr (hblocked.mono fun u hu => ?_)
    rcases hu.2 with hb | hb
    · have := hu.1.symm.trans hb.1
      rw [hpc] at this
      cases this
    · exact hb

theorem full_postFull (h : step M s .cook s') (hc : s.cook = .postFull) : s'.full = s.full + 1 := by
  cases h with
  | waitEmpty hc' _ | cooking hc' => rw [hc] at hc'; cases hc'
  | postFull _ => rfl

theorem mutex_leave (h : step M s (.savage i) s') (hpc : s.pc i = .leave) : s'.mutex = s.mutex + 1 := by
  cases h with
  | leave _ _ => rfl
  | hungry _ hpc' _ | test _ hpc' | call _ hpc' | waitFull _ hpc' _ | load _ hpc' | store _ _ hpc' | digest _ hpc' =>
    rw [hpc] at hpc'
    cases hpc'

/-- A savage comes out by `sem_post(mutex)`. -/
theorem leave_of_out (h : step M s (.savage i) s') (hin : (s.pc i).inside = true) (hout : (s'.pc i).inside ≠ true) :
    s.pc i = .leave := by
  cases h with
  | leave _ hpc => exact hpc
  | hungry _ hpc _ | digest _ hpc => rw [hpc] at hin; cases hin
  | test => exact absurd (by by_cases h0 : s.meals = 0 <;> simp [State.goto, h0, Place.inside]) hout
  | call | waitFull | load | store => exact absurd (by simp [State.goto, Place.inside]) hout

/-- Nobody waits for `full` for ever: the cook is awake as long as one waits, goes on, and posts it. -/
theorem not_waits_full (hM : 1 ≤ M) (h : r.WeaklyFair) :
    ¬ ∀ᶠ t in atTop, (r.state t).pc i = .waitFull ∧ (r.state t).full = 0 := by
  intro hwait
  have hawake : ∀ᶠ t in atTop, (tribe n M).Enabled .cook (r.state t) := by
    filter_upwards [hwait] with t ht
    refine cook_enabled fun hc => ?_
    have h1 := (inv_reach hM (r.reach t)).handshake
    have h2 := countAt_pos i ht.1
    rw [hc.1, hc.2, ht.2] at h1
    simp [CookPlace.busy] at h1
    omega
  obtain ⟨T, hT⟩ := eventually_atTop.mp hwait
  obtain ⟨t, hTt, hact, hpost⟩ := frequently_atTop.mp (posts (h .cook hawake)) T
  have hfull := full_postFull (hact ▸ r.next t) hpost
  have hzero := (hT (t + 1) (by omega)).2
  omega

/-- Nobody waits for `mutex` for ever: one that is inside goes on, and posts it. -/
theorem not_waits_mutex (hM : 1 ≤ M) (h : r.StronglyFair) :
    ¬ ∀ᶠ t in atTop, (r.state t).pc i = .hungry ∧ (r.state t).mutex = 0 := by
  intro hwait
  obtain ⟨T, hT⟩ := eventually_atTop.mp hwait
  -- as long as `mutex` is zero the same savage is inside
  have hcount := (inv_reach hM (r.reach T)).inside
  rw [(hT T (Nat.le_refl T)).2] at hcount
  obtain ⟨j, hj⟩ := count_pos_iff.mp (show 0 < count Place.inside (r.state T).pc by omega)
  have hin : ∀ t, T ≤ t → ((r.state t).pc j).inside = true := by
    intro t ht
    induction t, ht using Nat.le_induction with
    | base => exact hj
    | succ t ht ih =>
      by_contra hout
      by_cases hact : r.act t = .savage j
      · have hst : step M (r.state t) (.savage j) (r.state (t + 1)) := hact ▸ r.next t
        have hmutex := mutex_leave hst (leave_of_out hst ih hout)
        have hzero := (hT (t + 1) (by omega)).2
        omega
      · rw [pc_step_ne hact (r.next t)] at hout
        exact hout ih
  by_cases hidle : ∃ᶠ t in atTop, r.act t = .savage j
  · obtain ⟨t, hTt, hact, hleave⟩ := frequently_atTop.mp (leaves hidle) T
    have hmutex := mutex_leave (hact ▸ r.next t) hleave
    have hzero := (hT (t + 1) (by omega)).2
    omega
  · rcases blocked_of_idle h hidle with hb | hb
    · obtain ⟨t, ⟨hpc, -⟩, ht⟩ := (hb.and (eventually_ge_atTop T)).exists
      have := hin t ht
      rw [hpc] at this
      cases this
    · exact not_waits_full hM h.weaklyFair hb

/-- In a strongly fair run every savage takes steps again and again. -/
theorem goes_on (hM : 1 ≤ M) (h : r.StronglyFair) (i : Fin n) : ∃ᶠ t in atTop, r.act t = .savage i := by
  by_contra hidle
  rcases blocked_of_idle h hidle with hb | hb
  · exact not_waits_mutex hM h hb
  · exact not_waits_full hM h.weaklyFair hb

/-- A meal is taken off the counter. -/
theorem meals_store {v : Int} (hI : Inv M s) (h : step M s (.savage i) s') (hpc : s.pc i = .store v) :
    s'.meals.toNat < s.meals.toNat := by
  have hm := hI.pot i
  rw [hpc] at hm
  cases h with
  | store _ v' hpc' =>
    obtain rfl : v = v' := by simpa [hpc] using hpc'
    obtain ⟨rfl, hpos⟩ := hm
    simp only
    omega
  | hungry _ hpc' _ | test _ hpc' | call _ hpc' | waitFull _ hpc' _ | load _ hpc' | leave _ hpc' | digest _ hpc' =>
    rw [hpc] at hpc'
    cases hpc'

/-- Only the cook puts meals into the pot. -/
theorem meals_le (hI : Inv M s) (h : step M s a s') (hc : ¬ (a = .cook ∧ s.cook = .cooking)) : s'.meals.toNat ≤ s.meals.toNat := by
  cases h with
  | store i v hpc => exact Nat.le_of_lt (meals_store hI (.store s i v hpc) hpc)
  | cooking hcook => exact absurd ⟨rfl, hcook⟩ hc
  | hungry | test | call | waitFull | load | leave | digest | waitEmpty | postFull => exact Nat.le_refl _

/-- The cook takes steps again and again, where there is a savage: it would eat what is there. -/
theorem cook_goes_on (hM : 1 ≤ M) (h : r.StronglyFair) (i : Fin n) : ∃ᶠ t in atTop, r.act t = .cook := by
  by_contra hidle
  refine not_frequently_down (μ := fun t => (r.state t).meals.toNat) ?_ ?_
  · refine (not_frequently.mp hidle).mono fun t ht => meals_le (inv_reach hM (r.reach t)) (r.next t) fun hc => ht hc.1
  · refine (eats (goes_on hM h i)).mono fun t ht => ?_
    obtain ⟨hact, v, hv⟩ := ht
    exact meals_store (inv_reach hM (r.reach t)) (hact ▸ r.next t) hv

/-- Somebody can always take a step, where there is a savage. -/
theorem exists_enabled (hn : 1 ≤ n) (hM : 1 ≤ M) (h : (tribe n M).Reach s) : ∃ a, (tribe n M).Enabled a s := by
  by_contra hno
  refine not_all_blocked (inv_reach hM h) hn ⟨fun i => ?_, ?_⟩
  · by_contra hb
    exact hno ⟨.savage i, enabled_of_not_blocked hb⟩
  · by_contra hb
    exact hno ⟨.cook, cook_enabled hb⟩

/-! ## A savage that starves -/

/-- Everybody is hungry and nobody is inside. -/
def rest (n : Nat) (m : Int) (e p : Nat) : State n := ⟨m, 1, 0, 0, fun _ => .hungry, .waitEmpty, e, p⟩

/-- Savage `j` is at `c`, and all others are hungry. -/
def alone (j : Fin n) (c : Place) : Fin n → Place := Function.update (fun _ => .hungry) j c

theorem alone_self (j : Fin n) (c : Place) : alone j c j = c := Function.update_self ..

theorem update_alone (j : Fin n) (c d : Place) : Function.update (alone j c) j d = alone j d := Function.update_idem ..

/-- A savage enters and finds a meal, if need be one that the cook has made for it. -/
theorem walk_in (M m : Int) (e p : Nat) (j : Fin n) :
    ∃ l m' p', (tribe n M).Walk (rest n m e p) l ⟨m', 0, 0, 0, alone j .load, .waitEmpty, e, p'⟩ ∧
      (∀ x ∈ l, x.2 = .savage j ∨ x.2 = .cook) ∧ (rest n m e p, .savage j) ∈ l ∧
      (⟨m, 0, 0, 0, alone j .test, .waitEmpty, e, p⟩, .savage j) ∈ l := by
  have here := alone_self j
  have goto := update_alone j
  have h1 : (tribe n M).step (rest n m e p) (.savage j) ⟨m, 0, 0, 0, alone j .test, .waitEmpty, e, p⟩ :=
    .hungry (rest n m e p) j rfl Nat.one_pos
  have h2 := step.test (M := M) (⟨m, 0, 0, 0, alone j .test, .waitEmpty, e, p⟩ : State n) j (here .test)
  by_cases h0 : m = 0
  · simp only [h0, if_true, State.goto, goto] at h2
    subst h0
    have h3 : (tribe n M).step ⟨0, 0, 0, 0, alone j .call, .waitEmpty, e, p⟩ (.savage j)
        ⟨0, 0, 1, 0, alone j .waitFull, .waitEmpty, e, p⟩ := goto .call .waitFull ▸ .call _ j (here .call)
    have h4 : (tribe n M).step ⟨0, 0, 1, 0, alone j .waitFull, .waitEmpty, e, p⟩ .cook
        ⟨0, 0, 0, 0, alone j .waitFull, .cooking, e, p⟩ := .waitEmpty _ rfl Nat.one_pos
    have h5 : (tribe n M).step ⟨0, 0, 0, 0, alone j .waitFull, .cooking, e, p⟩ .cook
        ⟨M, 0, 0, 0, alone j .waitFull, .postFull, e, p + 1⟩ := .cooking _ rfl
    have h6 : (tribe n M).step ⟨M, 0, 0, 0, alone j .waitFull, .postFull, e, p + 1⟩ .cook
        ⟨M, 0, 0, 1, alone j .waitFull, .waitEmpty, e, p + 1⟩ := .postFull _ rfl
    have h7 : (tribe n M).step ⟨M, 0, 0, 1, alone j .waitFull, .waitEmpty, e, p + 1⟩ (.savage j)
        ⟨M, 0, 0, 0, alone j .load, .waitEmpty, e, p + 1⟩ := goto .waitFull .load ▸ .waitFull _ j (here .waitFull) Nat.one_pos
    exact ⟨_, M, p + 1, .cons _ h1 (.cons _ h2 (.cons _ h3 (.cons _ h4 (.cons _ h5 (.cons _ h6 (.single _ h7)))))), by simp, by simp,
      by simp⟩
  · simp only [h0, if_false, State.goto, goto] at h2
    exact ⟨_, m, p, .cons _ h1 (.single _ h2), by simp, by simp, by simp⟩

/-- A savage with a meal eats and goes out. -/
theorem walk_out (M m : Int) (e p : Nat) (j : Fin n) :
    ∃ l, (tribe n M).Walk ⟨m, 0, 0, 0, alone j .load, .waitEmpty, e, p⟩ l (rest n (m - 1) (e + 1) p) ∧
      ∀ x ∈ l, x.2 = .savage j := by
  have here := alone_self j
  have goto := update_alone j
  have h1 : (tribe n M).step ⟨m, 0, 0, 0, alone j .load, .waitEmpty, e, p⟩ (.savage j)
      ⟨m, 0, 0, 0, alone j (.store m), .waitEmpty, e, p⟩ := goto .load (.store m) ▸ .load _ j (here .load)
  have h2 : (tribe n M).step ⟨m, 0, 0, 0, alone j (.store m), .waitEmpty, e, p⟩ (.savage j)
      ⟨m - 1, 0, 0, 0, alone j .leave, .waitEmpty, e + 1, p⟩ := goto (.store m) .leave ▸ .store _ j m (here (.store m))
  have h3 : (tribe n M).step ⟨m - 1, 0, 0, 0, alone j .leave, .waitEmpty, e + 1, p⟩ (.savage j)
      ⟨m - 1, 1, 0, 0, alone j .digest, .waitEmpty, e + 1, p⟩ := goto .leave .digest ▸ .leave _ j (here .leave)
  have h4 : (tribe n M).step ⟨m - 1, 1, 0, 0, alone j .digest, .waitEmpty, e + 1, p⟩ (.savage j)
      ⟨m - 1, 1, 0, 0, alone j .hungry, .waitEmpty, e + 1, p⟩ := goto .digest .hungry ▸ .digest _ j (here .digest)
  have hrest : (⟨m - 1, 1, 0, 0, alone j .hungry, .waitEmpty, e + 1, p⟩ : State n) = rest n (m - 1) (e + 1) p := by
    rw [alone, Function.update_eq_self_iff.mpr rfl, rest]
  exact ⟨_, .cons _ h1 (.cons _ h2 (.cons _ h3 (.single _ (hrest ▸ h4)))), by simp⟩

/-- What a part of a run shows of the savages `js`: only they and the cook move, and each of them does, and is inside at some time. -/
structure Visits (js : List (Fin n)) (l : List (State n × Act n)) : Prop where
  only : ∀ x ∈ l, x.2 = .cook ∨ ∃ j ∈ js, x.2 = .savage j
  acts : ∀ j ∈ js, ∃ x ∈ l, x.2 = .savage j
  inside : ∀ j ∈ js, ∃ x ∈ l, x.1.mutex = 0

/-- Some savages eat, one after the other. -/
theorem walk_meals (M m : Int) (e p : Nat) (js : List (Fin n)) :
    ∃ l m' e' p', (tribe n M).Walk (rest n m e p) l (rest n m' e' p') ∧ Visits js l := by
  induction js generalizing m e p with
  | nil => exact ⟨[], m, e, p, Walk.nil _, by simp, by simp, by simp⟩
  | cons j js ih =>
    obtain ⟨l₁, m₁, p₁, hl₁, hlabel₁, hmem, hin⟩ := walk_in M m e p j
    obtain ⟨l₂, hl₂, hlabel₂⟩ := walk_out M m₁ e p₁ j
    obtain ⟨l₃, m₃, e₃, p₃, hl₃, honly, hacts, hinside⟩ := ih (m₁ - 1) (e + 1) p₁
    refine ⟨l₁ ++ (l₂ ++ l₃), m₃, e₃, p₃, hl₁.append (hl₂.append hl₃), fun x hx => ?_, fun k hk => ?_, fun k hk => ?_⟩
    · rcases List.mem_append.mp hx with hx | hx
      · exact (hlabel₁ x hx).symm.imp id fun h => ⟨j, List.mem_cons_self .., h⟩
      · rcases List.mem_append.mp hx with hx | hx
        · exact Or.inr ⟨j, List.mem_cons_self .., hlabel₂ x hx⟩
        · rcases honly x hx with h | ⟨k, hk, h⟩
          · exact Or.inl h
          · exact Or.inr ⟨k, List.mem_cons_of_mem _ hk, h⟩
    · rcases List.mem_cons.mp hk with rfl | hk
      · exact ⟨_, List.mem_append_left _ hmem, rfl⟩
      · obtain ⟨x, hx, h⟩ := hacts k hk
        exact ⟨x, List.mem_append_right _ (List.mem_append_right _ hx), h⟩
    · exact ⟨_, List.mem_append_left _ hin, rfl⟩

/-- A round: everybody but `z` moves, at some time `z` is blocked, at some time the cook is, and `z` is hungry all the time. -/
structure Round (z : Fin n) (l : List (State n × Act n)) : Prop where
  others : ∀ j, j ≠ z → ∃ x ∈ l, x.2 = .savage j
  blocked : ∃ x ∈ l, Blocked x.1 z
  cook : ∃ x ∈ l, CookBlocked x.1
  hungry : ∀ x ∈ l, x.1.pc z = .hungry

/-- All savages but `z` eat. -/
theorem exists_round (hn : 2 ≤ n) (M m : Int) (e p : Nat) (z : Fin n) :
    ∃ l m' e' p', (tribe n M).Walk (rest n m e p) l (rest n m' e' p') ∧ l ≠ [] ∧ Round z l := by
  let js := (Finset.univ.erase z).toList
  have hmem : ∀ j, j ∈ js ↔ j ≠ z := fun j => by simp [js]
  obtain ⟨l, m', e', p', hl, honly, hacts, hinside⟩ := walk_meals M m e p js
  have hstay := hl.keeps (v := fun s : State n => s.pc z) (q := fun a => a ≠ .savage z) (fun s a s' ha hst => pc_step_ne ha hst) (by
    rintro x hx hz
    rcases honly x hx with hx | ⟨j, hj, hx⟩
    · rw [hx] at hz
      cases hz
    · rw [hx] at hz
      cases hz
      exact (hmem z).mp hj rfl)
  obtain ⟨j, hj⟩ : ∃ j, j ≠ z := by
    have : Nontrivial (Fin n) := Fin.nontrivial_iff_two_le.mpr hn
    exact exists_ne z
  obtain ⟨x, hx, hmutex⟩ := hinside j ((hmem j).mpr hj)
  have hne : l ≠ [] := List.ne_nil_of_mem hx
  obtain ⟨y, hy, hstart⟩ := hl.start_mem hne
  exact ⟨l, m', e', p', hl, hne, fun j hj => hacts j ((hmem j).mpr hj), ⟨x, hx, Or.inl ⟨hstay x hx, hmutex⟩⟩,
    ⟨y, hy, hstart ▸ ⟨rfl, rfl⟩⟩, hstay⟩

theorem not_enabled_of_blocked (h : Blocked s i) : ¬ (tribe n M).Enabled (.savage i) s := by
  rintro ⟨s', hst⟩
  rcases h with ⟨hpc, h0⟩ | ⟨hpc, h0⟩
  all_goals cases hst <;> simp_all

theorem not_cook_enabled (h : CookBlocked s) : ¬ (tribe n M).Enabled .cook s := by
  rintro ⟨s', hst⟩
  obtain ⟨hc, h0⟩ := h
  cases hst <;> simp_all

/-- With pots of at least one meal, and at least one savage: there are strongly fair runs, and in all of them every savage eats again
and again and the cook cooks again and again; but of two savages or more, each is hungry for ever in some weakly fair run. -/
theorem every_savage_eats (n : Nat) (M : Int) (hn : 1 ≤ n) (hM : 1 ≤ M) :
    (∃ r : (tribe n M).Run, r.StronglyFair) ∧
    (∀ r : (tribe n M).Run, r.StronglyFair →
      (∀ i, ∃ᶠ t in atTop, r.act t = .savage i ∧ ∃ v, (r.state t).pc i = .store v) ∧
      ∃ᶠ t in atTop, r.act t = .cook ∧ (r.state t).cook = .cooking) ∧
    (2 ≤ n → ∀ i, ∃ r : (tribe n M).Run, r.WeaklyFair ∧ ∀ t, (r.state t).pc i = .hungry) := by
  refine ⟨exists_stronglyFair rfl fun s => exists_enabled hn hM, fun r h => ⟨fun i => eats (goes_on hM h i), ?_⟩, fun hn z => ?_⟩
  · exact cooks (cook_goes_on hM h ⟨0, hn⟩)
  · have hround : ∀ s : State n, (∃ m e p, s = rest n m e p) →
        ∃ l s', (tribe n M).Walk s l s' ∧ l ≠ [] ∧ Round z l ∧ ∃ m e p, s' = rest n m e p := by
      rintro _ ⟨m, e, p, rfl⟩
      obtain ⟨l, m', e', p', hl, hne, hround⟩ := exists_round hn M m e p z
      exact ⟨l, _, hl, hne, hround, m', e', p', rfl⟩
    obtain ⟨r, hoften, halways⟩ := exists_run_of_walks rfl ⟨0, 0, 0, rfl⟩ hround
    refine ⟨r, fun a ha => ?_, halways _ fun l hl => hl.hungry⟩
    cases a with
    | cook =>
      obtain ⟨t, hb, hen⟩ := ((hoften (fun x => CookBlocked x.1) fun l hl => hl.cook).and_eventually ha).exists
      exact absurd hen (not_cook_enabled hb)
    | savage j =>
      by_cases hjz : j = z
      · subst hjz
        obtain ⟨t, hb, hen⟩ := ((hoften (fun x => Blocked x.1 j) fun l hl => hl.blocked).and_eventually ha).exists
        exact absurd hen (not_enabled_of_blocked hb)
      · exact hoften (fun x => x.2 = .savage j) fun l hl => hl.others j hjz

/-- The witness: the first of two savages starves. -/
theorem every_savage_eats_two : ∃ r : (tribe 2 1).Run, r.WeaklyFair ∧ ∀ t, (r.state t).pc 0 = .hungry :=
  (every_savage_eats 2 1 (by decide) (by decide)).2.2 (by decide) 0

end OsLabs.Savages
