import OsLabs.Lib.Fair
import OsLabs.Monitor.Philosophers

/-!
# Hungry philosophers (`philosophers.c`)

What the philosophers come to in runs that go on for ever. A philosopher that takes no more steps is blocked from some time on
(`blocked_of_idle`), and then the fork that it waits for is held for ever by its neighbour, which takes no more steps either. So around
the ring all would wait for their left forks, and there are not enough tokens for that. Hence everybody eats again and again, provided
that a philosopher gets a semaphore that is free again and again while it waits (`no_starvation`). It is not enough that it gets one
that stays free: then the others can take turns, all of them holding tokens at some time in each round, and leave one hungry.
-/

namespace OsLabs.Philosophers

open Filter Sys

variable {n : Nat} {s s' : State n} {i j : Fin n} {r : (table n).Run}

/-- The next place. -/
def Place.next : Place → Place
  | .think => .waitFootman
  | .waitFootman => .waitRight
  | .waitRight => .waitLeft
  | .waitLeft => .eat
  | .eat => .postFootman
  | .postFootman => .postRight
  | .postRight => .postLeft
  | .postLeft => .think

/-- The places in their order. -/
def Place.turns : Place → Nat
  | .think => 0
  | .waitFootman => 1
  | .waitRight => 2
  | .waitLeft => 3
  | .eat => 4
  | .postFootman => 5
  | .postRight => 6
  | .postLeft => 7

/-- The steps from the place `d` to the place `c`. -/
def Place.stepsTo (c d : Place) : Nat := (c.turns + 8 - d.turns) % 8

theorem stepsTo_next {c d : Place} (h : d ≠ c) : c.stepsTo d.next < c.stepsTo d := by
  cases c <;> cases d <;> first | exact absurd rfl h | decide

/-- A step takes its philosopher to the next place, and no other. -/
theorem pc_step (h : philosopher s i s') : s'.pc = Function.update s.pc i (s.pc i).next := by
  cases h with
  | think h | waitFootman h _ | waitRight h _ | waitLeft h _ | eat h | postFootman h | postRight h | postLeft h =>
    rw [h]
    rfl

theorem pc_step_self (h : philosopher s i s') : s'.pc i = (s.pc i).next := by
  rw [pc_step h, Function.update_self]

theorem pc_step_ne (hj : j ≠ i) (h : philosopher s j s') : s'.pc i = s.pc i := by
  rw [pc_step h, Function.update_of_ne hj.symm]

/-- A philosopher that is not blocked can take a step. -/
theorem enabled_of_not_blocked (h : ¬ Blocked s i) : (table n).Enabled i s := by
  cases hpc : s.pc i with
  | think => exact ⟨_, .think s i hpc⟩
  | waitFootman => exact ⟨_, .waitFootman s i hpc (Nat.pos_of_ne_zero fun h0 => h (Or.inl ⟨hpc, h0⟩))⟩
  | waitRight => exact ⟨_, .waitRight s i hpc (Nat.pos_of_ne_zero fun h0 => h (Or.inr (Or.inl ⟨hpc, h0⟩)))⟩
  | waitLeft => exact ⟨_, .waitLeft s i hpc (Nat.pos_of_ne_zero fun h0 => h (Or.inr (Or.inr ⟨hpc, h0⟩)))⟩
  | eat => exact ⟨_, .eat s i hpc⟩
  | postFootman => exact ⟨_, .postFootman s i hpc⟩
  | postRight => exact ⟨_, .postRight s i hpc⟩
  | postLeft => exact ⟨_, .postLeft s i hpc⟩

/-! ## Philosophers that go on -/

/-- A philosopher that takes steps again and again takes steps from every place again and again. -/
theorem reaches_all (hinf : ∃ᶠ t in atTop, r.act t = i) (c : Place) : ∃ᶠ t in atTop, r.act t = i ∧ (r.state t).pc i = c := by
  refine Run.again (P := fun s => s.pc i = c) (v := fun s => c.stepsTo (s.pc i)) hinf (fun s s' hne hst => ?_) fun s j s' hj hst => ?_
  · rw [pc_step_self hst]
    exact stepsTo_next hne
  · rw [pc_step_ne hj hst]

/-! ## Philosophers that do not go on -/

/-- In a strongly fair run, a philosopher that takes no more steps waits at one place, blocked, from some time on. -/
theorem blocked_of_idle (h : r.StronglyFair) (hidle : ¬ ∃ᶠ t in atTop, r.act t = i) :
    ∃ c, ∀ᶠ t in atTop, (r.state t).pc i = c ∧ Blocked (r.state t) i := by
  obtain ⟨c, hc⟩ := Run.stays (v := fun s : State n => s.pc i) (fun s j s' hj hst => pc_step_ne hj hst) hidle
  refine ⟨c, ?_⟩
  filter_upwards [hc, h.disabled hidle] with t hpc hdis
  refine ⟨hpc, ?_⟩
  by_contra hb
  exact hdis (enabled_of_not_blocked hb)

/-- A philosopher that is never seen to think again takes no more steps. -/
theorem idle_of_no_thought {p : Place → Bool} (hp : p .think = false) (h : ∀ᶠ t in atTop, p ((r.state t).pc i) = true) :
    ¬ ∃ᶠ t in atTop, r.act t = i := by
  intro hinf
  obtain ⟨t, ⟨-, hthink⟩, ht⟩ := ((reaches_all hinf .think).and_eventually h).exists
  rw [hthink, hp] at ht
  cases ht

/-- Nobody waits for its right fork for ever: the neighbour that holds it eats and puts it back. -/
theorem not_waits_right (hn : 2 ≤ n) (h : r.StronglyFair) :
    ¬ ∀ᶠ t in atTop, (r.state t).pc i = .waitRight ∧ Blocked (r.state t) i := by
  intro hwait
  obtain ⟨j, rfl⟩ := exists_leftOf i
  have hleft : ∀ᶠ t in atTop, ((r.state t).pc j).holdsLeft = true := by
    filter_upwards [hwait] with t ht
    obtain ⟨hpc, hb⟩ := ht
    have h0 : (r.state t).forks (leftOf j) = 0 := by simpa [Blocked, hpc] using hb
    have hfork := (inv_reach hn (r.reach t)).forks j
    rw [h0, hpc] at hfork
    cases hh : ((r.state t).pc j).holdsLeft with
    | true => rfl
    | false => rw [hh] at hfork; simp [Place.holdsRight] at hfork
  -- then the neighbour stops, and with a left fork in its hand it is not blocked
  obtain ⟨c, hc⟩ := blocked_of_idle h (idle_of_no_thought rfl hleft)
  obtain ⟨t, ⟨-, hb⟩, hl⟩ := (hc.and hleft).exists
  rw [hb.place.1] at hl
  cases hl

/-- A philosopher that waits for its left fork for ever waits for one that does the same. -/
theorem waits_left (hn : 2 ≤ n) (h : r.StronglyFair) (hwait : ∀ᶠ t in atTop, (r.state t).pc i = .waitLeft ∧ Blocked (r.state t) i) :
    ∀ᶠ t in atTop, (r.state t).pc (leftOf i) = .waitLeft ∧ Blocked (r.state t) (leftOf i) := by
  have hright : ∀ᶠ t in atTop, ((r.state t).pc (leftOf i)).holdsRight = true := by
    filter_upwards [hwait] with t ht
    obtain ⟨hpc, hb⟩ := ht
    have h0 : (r.state t).forks (leftOf i) = 0 := by simpa [Blocked, hpc] using hb
    have hfork := (inv_reach hn (r.reach t)).forks i
    rw [h0, hpc] at hfork
    cases hh : ((r.state t).pc (leftOf i)).holdsRight with
    | true => rfl
    | false => rw [hh] at hfork; simp [Place.holdsLeft] at hfork
  obtain ⟨c, hc⟩ := blocked_of_idle h (idle_of_no_thought rfl hright)
  filter_upwards [hc, hright] with t ht hr
  refine ⟨?_, ht.2⟩
  rcases ht.2 with ⟨hpc, -⟩ | ⟨hpc, -⟩ | ⟨hpc, -⟩
  · rw [hpc] at hr; cases hr
  · rw [hpc] at hr; cases hr
  · exact hpc

/-- What is passed on to the left goes around the ring. -/
theorem ring_induction {P : Fin n → Prop} (hstep : ∀ i, P i → P (leftOf i)) (h : P i) (j : Fin n) : P j := by
  have down : ∀ (k : Nat) (i : Fin n), P i → P ⟨i.val - k, Nat.lt_of_le_of_lt (Nat.sub_le _ _) i.isLt⟩ := by
    intro k
    induction k with
    | zero => exact fun i hi => hi
    | succ k ih =>
      intro i hi
      by_cases h0 : i.val - k = 0
      · have he : i.val - (k + 1) = i.val - k := by omega
        simpa only [he] using ih i hi
      · have hl := hstep _ (ih i hi)
        simp only [leftOf, if_neg h0] at hl
        exact hl
  have hzero := down i.val i h
  have hlast := hstep _ hzero
  simp only [leftOf, Nat.sub_self, if_true] at hlast
  have hj := down (n - 1 - j.val) _ hlast
  have he : n - 1 - (n - 1 - j.val) = j.val := by omega
  simpa only [he] using hj

/-- Nobody waits for its left fork for ever: all would. -/
theorem not_waits_left (hn : 2 ≤ n) (h : r.StronglyFair) :
    ¬ ∀ᶠ t in atTop, (r.state t).pc i = .waitLeft ∧ Blocked (r.state t) i := by
  intro hwait
  have hall := eventually_all.mpr (ring_induction
    (P := fun j => ∀ᶠ t in atTop, (r.state t).pc j = .waitLeft ∧ Blocked (r.state t) j) (fun _ => waits_left hn h) hwait)
  obtain ⟨t, ht⟩ := hall.exists
  exact not_all_blocked hn (inv_reach hn (r.reach t)) fun j => (ht j).2

/-- When one philosopher waits for a token and there is none, all others have one. -/
theorem token_of_waitFootman (hI : Inv s) (hpc : s.pc i = .waitFootman) (h0 : s.footman = 0) (hj : j ≠ i) :
    (s.pc j).token = true := by
  by_contra hno
  have hsub : (Finset.univ.filter fun k => (s.pc k).token = true) ⊆ (Finset.univ.erase i).erase j := by
    intro k hk
    have hk' := (Finset.mem_filter.mp hk).2
    refine Finset.mem_erase.mpr ⟨?_, Finset.mem_erase.mpr ⟨?_, Finset.mem_univ k⟩⟩
    · rintro rfl
      exact hno hk'
    · rintro rfl
      rw [hpc] at hk'
      cases hk'
  have h1 := Finset.card_le_card hsub
  rw [Finset.card_erase_of_mem (Finset.mem_erase.mpr ⟨hj, Finset.mem_univ j⟩),
    Finset.card_erase_of_mem (Finset.mem_univ i), Finset.card_univ, Fintype.card_fin] at h1
  have h2 : count Place.token s.pc ≤ n - 1 - 1 := h1
  have h3 := hI.tokens
  have h4 := i.isLt
  have h5 := j.isLt
  have h6 : j.val ≠ i.val := fun e => hj (Fin.ext e)
  omega

/-- Nobody waits for a token for ever: all others would keep theirs, and nobody keeps one for ever. -/
theorem not_waits_footman (hn : 2 ≤ n) (h : r.StronglyFair) :
    ¬ ∀ᶠ t in atTop, (r.state t).pc i = .waitFootman ∧ Blocked (r.state t) i := by
  intro hwait
  have htoken : ∀ᶠ t in atTop, ((r.state t).pc (leftOf i)).token = true := by
    filter_upwards [hwait] with t ht
    obtain ⟨hpc, hb⟩ := ht
    have h0 : (r.state t).footman = 0 := by simpa [Blocked, hpc] using hb
    exact token_of_waitFootman (inv_reach hn (r.reach t)) hpc h0 (leftOf_ne hn i)
  obtain ⟨c, hc⟩ := blocked_of_idle h (idle_of_no_thought rfl htoken)
  obtain ⟨t, ⟨hpc, hb⟩, ht⟩ := (hc.and htoken).exists
  rw [hpc] at ht
  rcases hb with ⟨hw, -⟩ | ⟨hw, -⟩ | ⟨hw, -⟩ <;> obtain rfl := hpc.symm.trans hw
  · cases ht
  · exact not_waits_right hn h hc
  · exact not_waits_left hn h hc

/-- In a strongly fair run everybody takes steps again and again. -/
theorem goes_on (hn : 2 ≤ n) (h : r.StronglyFair) (i : Fin n) : ∃ᶠ t in atTop, r.act t = i := by
  by_contra hidle
  obtain ⟨c, hc⟩ := blocked_of_idle h hidle
  obtain ⟨t, hpc, hb⟩ := hc.exists
  rcases hb with ⟨hw, -⟩ | ⟨hw, -⟩ | ⟨hw, -⟩ <;> obtain rfl := hpc.symm.trans hw
  · exact not_waits_footman hn h hc
  · exact not_waits_right hn h hc
  · exact not_waits_left hn h hc

/-- Somebody can always take a step. -/
theorem exists_enabled (hn : 2 ≤ n) (h : (table n).Reach s) : ∃ i, (table n).Enabled i s := by
  by_contra hno
  refine not_all_blocked hn (inv_reach hn h) fun i => ?_
  by_contra hb
  exact hno ⟨i, enabled_of_not_blocked hb⟩

/-! ## A philosopher that starves -/

theorem not_enabled_of_blocked (h : Blocked s i) : ¬ (table n).Enabled i s := by
  rintro ⟨s', hst⟩
  rcases h with ⟨hpc, h0⟩ | ⟨hpc, h0⟩ | ⟨hpc, h0⟩
  all_goals cases hst <;> simp_all

/-- A philosopher that thinks takes a token. -/
theorem walk_queue (hpc : s.pc i = .think) (hf : 0 < s.footman) :
    ∃ l, (table n).Walk s l { s with footman := s.footman - 1, pc := Function.update s.pc i .waitRight } ∧ l ≠ [] ∧
      ∀ x ∈ l, x.2 = i := by
  have h1 : (table n).step s i _ := .think s i hpc
  have h2 : (table n).step _ i _ := .waitFootman (s.goto i .waitFootman) i (by simp [State.goto]) hf
  have h := (Walk.single i h1).append (Walk.single i h2)
  simp only [State.goto, Function.update_idem] at h
  exact ⟨_, h, by simp, by simp⟩

/-- A philosopher that has a token and finds its forks on the table eats, and gives everything back. -/
theorem walk_meal (hn : 2 ≤ n) (hpc : s.pc i = .waitRight) (hr : 0 < s.forks i) (hl : 0 < s.forks (leftOf i)) :
    ∃ l, (table n).Walk s l { s with footman := s.footman + 1, pc := Function.update s.pc i .think } ∧ l ≠ [] ∧
      ∀ x ∈ l, x.2 = i := by
  obtain ⟨footman, forks, pc⟩ := s
  have hne := leftOf_ne hn i
  -- both forks are taken and put back
  let forks₁ := Function.update forks i (forks i - 1)
  let forks₂ := Function.update forks₁ (leftOf i) (forks₁ (leftOf i) - 1)
  let forks₃ := Function.update forks₂ i (forks₂ i + 1)
  let forks₄ := Function.update forks₃ (leftOf i) (forks₃ (leftOf i) + 1)
  have hback : forks₄ = forks := by
    funext f
    have hr : 0 < forks i := hr
    have hl : 0 < forks (leftOf i) := hl
    by_cases hf : f = leftOf i
    · subst hf
      simp [forks₄, forks₃, forks₂, forks₁, hne]
      omega
    · by_cases hf' : f = i
      · subst hf'
        simp [forks₄, forks₃, forks₂, forks₁, hne.symm]
        omega
      · simp [forks₄, forks₃, forks₂, forks₁, hf, hf']
  let pc' := fun c => Function.update pc i c
  have goto : ∀ c c', Function.update (pc' c) i c' = pc' c' := fun c c' => Function.update_idem ..
  have here : ∀ c, pc' c i = c := fun c => Function.update_self ..
  have h1 : (table n).step ⟨footman, forks, pc⟩ i ⟨footman, forks₁, pc' .waitLeft⟩ := .waitRight _ i hpc hr
  have h2 : (table n).step ⟨footman, forks₁, pc' .waitLeft⟩ i ⟨footman, forks₂, pc' .eat⟩ :=
    goto .waitLeft .eat ▸ .waitLeft ⟨footman, forks₁, pc' .waitLeft⟩ i (here _) (by simpa [forks₁, hne] using hl)
  have h3 : (table n).step ⟨footman, forks₂, pc' .eat⟩ i ⟨footman, forks₂, pc' .postFootman⟩ :=
    goto .eat .postFootman ▸ .eat ⟨footman, forks₂, pc' .eat⟩ i (here _)
  have h4 : (table n).step ⟨footman, forks₂, pc' .postFootman⟩ i ⟨footman + 1, forks₂, pc' .postRight⟩ :=
    goto .postFootman .postRight ▸ .postFootman ⟨footman, forks₂, pc' .postFootman⟩ i (here _)
  have h5 : (table n).step ⟨footman + 1, forks₂, pc' .postRight⟩ i ⟨footman + 1, forks₃, pc' .postLeft⟩ :=
    goto .postRight .postLeft ▸ .postRight ⟨footman + 1, forks₂, pc' .postRight⟩ i (here _)
  have h6 : (table n).step ⟨footman + 1, forks₃, pc' .postLeft⟩ i ⟨footman + 1, forks₄, pc' .think⟩ :=
    goto .postLeft .think ▸ .postLeft ⟨footman + 1, forks₃, pc' .postLeft⟩ i (here _)
  rw [hback] at h6
  exact ⟨_, .cons i h1 (.cons i h2 (.cons i h3 (.cons i h4 (.cons i h5 (.single i h6))))), by simp, by simp⟩

/-- Some philosophers take a token each. -/
theorem walk_queues (js : List (Fin n)) (hnd : js.Nodup) (hpc : ∀ j ∈ js, s.pc j = .think) (hf : js.length ≤ s.footman) :
    ∃ l, (table n).Walk s l
        { s with footman := s.footman - js.length, pc := fun j => if j ∈ js then .waitRight else s.pc j } ∧
      ∀ x ∈ l, x.2 ∈ js := by
  induction js generalizing s with
  | nil => exact ⟨[], by simpa using Walk.nil s, by simp⟩
  | cons j js ih =>
    obtain ⟨hj, hnd⟩ := List.nodup_cons.mp hnd
    have hf' : js.length + 1 ≤ s.footman := hf
    obtain ⟨l, hl, -, hlabel⟩ := walk_queue (hpc j (List.mem_cons_self ..)) (by omega)
    obtain ⟨l', hl', hlabel'⟩ := ih (s := { s with footman := s.footman - 1, pc := Function.update s.pc j .waitRight }) hnd
      (fun k hk => by
        have hkj : k ≠ j := fun e => hj (e ▸ hk)
        simpa [hkj] using hpc k (List.mem_cons_of_mem _ hk)) (by simp only; omega)
    refine ⟨l ++ l', ?_, fun x hx => ?_⟩
    · have h := hl.append hl'
      have hpc' : (fun k => if k ∈ js then Place.waitRight else Function.update s.pc j .waitRight k) =
          fun k => if k ∈ j :: js then Place.waitRight else s.pc k := by
        funext k
        by_cases hk : k = j
        · simp [hk]
        · simp [hk]
      simp only [hpc', Nat.sub_sub, Nat.add_comm 1] at h
      exact h
    · rcases List.mem_append.mp hx with hx | hx
      · exact hlabel x hx ▸ List.mem_cons_self ..
      · exact List.mem_cons_of_mem _ (hlabel' x hx)

/-- They eat one after the other. -/
theorem walk_meals (hn : 2 ≤ n) (js : List (Fin n)) (hnd : js.Nodup) (hpc : ∀ j ∈ js, s.pc j = .waitRight)
    (hforks : ∀ f, s.forks f = 1) :
    ∃ l, (table n).Walk s l { s with footman := s.footman + js.length, pc := fun j => if j ∈ js then .think else s.pc j } ∧
      (∀ x ∈ l, x.2 ∈ js) ∧ ∀ j ∈ js, ∃ x ∈ l, x.2 = j := by
  induction js generalizing s with
  | nil => exact ⟨[], by simpa using Walk.nil s, by simp, by simp⟩
  | cons j js ih =>
    obtain ⟨hj, hnd⟩ := List.nodup_cons.mp hnd
    obtain ⟨l, hl, hne, hlabel⟩ := walk_meal hn (hpc j (List.mem_cons_self ..)) (by simp [hforks]) (by simp [hforks])
    obtain ⟨l', hl', hlabel', hall⟩ := ih (s := { s with footman := s.footman + 1, pc := Function.update s.pc j .think }) hnd
      (fun k hk => by
        have hkj : k ≠ j := fun e => hj (e ▸ hk)
        simpa [hkj] using hpc k (List.mem_cons_of_mem _ hk)) hforks
    refine ⟨l ++ l', ?_, fun x hx => ?_, fun k hk => ?_⟩
    · have h := hl.append hl'
      have hpc' : (fun k => if k ∈ js then Place.think else Function.update s.pc j .think k) =
          fun k => if k ∈ j :: js then Place.think else s.pc k := by
        funext k
        by_cases hk : k = j
        · simp [hk]
        · simp [hk]
      simp only [hpc', Nat.add_assoc, Nat.add_comm 1] at h
      exact h
    · rcases List.mem_append.mp hx with hx | hx
      · exact hlabel x hx ▸ List.mem_cons_self ..
      · exact List.mem_cons_of_mem _ (hlabel' x hx)
    · rcases List.mem_cons.mp hk with rfl | hk
      · obtain ⟨x, hx⟩ := List.exists_mem_of_ne_nil l hne
        exact ⟨x, List.mem_append_left _ hx, hlabel x hx⟩
      · obtain ⟨x, hx, he⟩ := hall k hk
        exact ⟨x, List.mem_append_right _ hx, he⟩

/-- Everything is on the table, all others think, and `z` thinks or waits for a token. -/
structure Hungry (z : Fin n) (s : State n) : Prop where
  footman : s.footman = n - 1
  forks : ∀ f, s.forks f = 1
  others : ∀ j, j ≠ z → s.pc j = .think
  hungry : s.pc z = .think ∨ s.pc z = .waitFootman

/-- A round: everybody but `z` moves, at some time there is no token for `z`, and `z` does not eat. -/
structure Round (z : Fin n) (l : List (State n × Fin n)) : Prop where
  others : ∀ j, j ≠ z → ∃ x ∈ l, x.2 = j
  blocked : ∃ x ∈ l, Blocked x.1 z
  noMeal : ∀ x ∈ l, x.1.pc z ≠ .eat

/-- All others take a token, and then all of them eat. -/
theorem exists_round (hn : 2 ≤ n) {z : Fin n} (h : Hungry z s) :
    ∃ l s', (table n).Walk s l s' ∧ l ≠ [] ∧ Round z l ∧ Hungry z s' := by
  let js := (Finset.univ.erase z).toList
  have hmem : ∀ j, j ∈ js ↔ j ≠ z := fun j => by simp [js]
  have hnd : js.Nodup := Finset.nodup_toList _
  have hlen : js.length = n - 1 := by
    rw [Finset.length_toList, Finset.card_erase_of_mem (Finset.mem_univ z), Finset.card_univ, Fintype.card_fin]
  have hz : z ∉ js := fun hz => (hmem z).mp hz rfl
  have hwaits : ∀ {s s' : State n} {l : List (State n × Fin n)}, (table n).Walk s l s' → s.pc z = .waitFootman →
      (∀ x ∈ l, x.2 ∈ js) → ∀ x ∈ l, x.1.pc z ≠ .eat := by
    intro s s' l hl hpc hlabel x hx
    have hkeep := hl.keeps (v := fun s : State n => s.pc z) (q := fun j => j ∈ js)
      (fun s j s' hj hst => pc_step_ne ((hmem j).mp hj) hst) hlabel x hx
    rw [hkeep, hpc]
    simp
  -- first `z` gets hungry, if it is not
  have hstem : ∃ l, (table n).Walk s l (s.goto z .waitFootman) ∧ ∀ x ∈ l, x.1.pc z ≠ .eat := by
    rcases h.hungry with hpc | hpc
    · exact ⟨_, .single z (.think s z hpc), by simp [hpc]⟩
    · have he : s.goto z .waitFootman = s := by rw [State.goto, ← hpc, Function.update_eq_self]
      exact ⟨[], he.symm ▸ Walk.nil s, by simp⟩
  obtain ⟨l₀, hl₀, hmeal₀⟩ := hstem
  obtain ⟨l₁, hl₁, hlabel₁⟩ := walk_queues (s := s.goto z .waitFootman) js hnd
    (fun j hj => by simpa [State.goto, (hmem j).mp hj] using h.others j ((hmem j).mp hj)) (by
      show js.length ≤ s.footman
      rw [hlen, h.footman])
  obtain ⟨l₂, hl₂, hlabel₂, hall⟩ := walk_meals hn js hnd
    (s := ⟨s.footman - js.length, s.forks, fun j => if j ∈ js then .waitRight else (s.goto z .waitFootman).pc j⟩)
    (fun j hj => if_pos hj) h.forks
  have hmeal₁ := hwaits hl₁ (by simp [State.goto]) hlabel₁
  have hmeal₂ := hwaits hl₂ (by simp [State.goto, hz]) hlabel₂
  obtain ⟨x, hx, -⟩ := hall (leftOf z) ((hmem _).mpr (leftOf_ne hn z))
  obtain ⟨y, hy, hstart⟩ := hl₂.start_mem (List.ne_nil_of_mem hx)
  refine ⟨l₀ ++ (l₁ ++ l₂), _, hl₀.append (hl₁.append hl₂), ?_, ⟨fun j hj => ?_, ⟨y, ?_, ?_⟩, ?_⟩,
    ⟨?_, h.forks, fun j hj => ?_, Or.inr ?_⟩⟩
  · exact List.ne_nil_of_mem (List.mem_append_right _ (List.mem_append_right _ hy))
  · obtain ⟨x, hx, he⟩ := hall j ((hmem j).mpr hj)
    exact ⟨x, List.mem_append_right _ (List.mem_append_right _ hx), he⟩
  · exact List.mem_append_right _ (List.mem_append_right _ hy)
  · rw [hstart]
    refine Or.inl ⟨by simp [State.goto, hz], ?_⟩
    show s.footman - js.length = 0
    rw [hlen, h.footman, Nat.sub_self]
  · intro x hx
    rcases List.mem_append.mp hx with hx | hx
    · exact hmeal₀ x hx
    · rcases List.mem_append.mp hx with hx | hx
      · exact hmeal₁ x hx
      · exact hmeal₂ x hx
  · show s.footman - js.length + js.length = n - 1
    rw [hlen, h.footman]
    omega
  · simp [(hmem j).mpr hj]
  · simp [State.goto, hz]

/-- With `n` philosophers, at least two: there are strongly fair runs, and in all of them everybody eats again and again; but for
everybody there is a weakly fair run in which it never eats. -/
theorem no_starvation (n : Nat) (hn : 2 ≤ n) :
    (∃ r : (table n).Run, r.StronglyFair) ∧
    (∀ r : (table n).Run, r.StronglyFair → ∀ i, ∃ᶠ t in atTop, r.act t = i ∧ (r.state t).pc i = .eat) ∧
    ∀ i, ∃ r : (table n).Run, r.WeaklyFair ∧ ∀ t, (r.state t).pc i ≠ .eat := by
  refine ⟨exists_stronglyFair rfl fun s => exists_enabled hn, fun r h i => reaches_all (goes_on hn h i) .eat, fun z => ?_⟩
  have hstart : Hungry z (main n) := ⟨rfl, fun _ => rfl, fun _ _ => rfl, Or.inl rfl⟩
  obtain ⟨r, hoften, halways⟩ := exists_run_of_walks (S := table n) rfl hstart fun s => exists_round hn
  refine ⟨r, fun j hj => ?_, halways _ fun l hl => hl.noMeal⟩
  by_cases hjz : j = z
  · subst hjz
    have hblocked := hoften (fun x => Blocked x.1 j) fun l hl => hl.blocked
    obtain ⟨t, hb, hen⟩ := (hblocked.and_eventually hj).exists
    exact absurd hen (not_enabled_of_blocked hb)
  · exact hoften (fun x => x.2 = j) fun l hl => hl.others j hjz

/-- The witness: the first of two philosophers starves. -/
theorem no_starvation_two : ∃ r : (table 2).Run, r.WeaklyFair ∧ ∀ t, (r.state t).pc 0 ≠ .eat :=
  (no_starvation 2 (by decide)).2.2 0

end OsLabs.Philosophers
