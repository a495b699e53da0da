import OsLabs.Lib.Sys
import Mathlib.Data.Set.Finite.Lemmas
import Mathlib.Order.Filter.AtTopBot.Basic
import Mathlib.Order.Filter.Finite

/-!
# Runs that go on for ever

An infinite run is weakly fair when a step that is possible from some time on is taken again and again, and strongly fair when it is
enough that the step is possible again and again. What such runs come to follows from what one step does (`WeaklyFair.reaches`,
`Run.stays`, `Run.again`). A system with finitely many labels that is never stuck has a strongly fair run (`exists_stronglyFair`), and
a run that is not fair can be put together from finite pieces (`exists_run_of_walks`).
-/

namespace OsLabs.Sys

open Filter

variable {σ α : Type} {S : Sys σ α}

/-- One of finitely many values comes again and again. -/
theorem exists_frequently {β : Type} [Finite β] {p : Nat → Prop} (v : Nat → β) (h : ∃ᶠ t in atTop, p t) :
    ∃ b, ∃ᶠ t in atTop, p t ∧ v t = b := by
  by_contra hno
  have hall : ∀ᶠ t in atTop, ∀ b, ¬ (p t ∧ v t = b) := eventually_all.mpr fun b => not_frequently.mp fun hb => hno ⟨b, hb⟩
  exact h (hall.mono fun t ht hp => ht (v t) ⟨hp, rfl⟩)

/-- A number that does not go up does not go down again and again. -/
theorem not_frequently_down {μ : Nat → Nat} (h : ∀ᶠ t in atTop, μ (t + 1) ≤ μ t) : ¬ ∃ᶠ t in atTop, μ (t + 1) < μ t := by
  intro hdown
  obtain ⟨T, hT⟩ := eventually_atTop.mp h
  have hanti : ∀ t u, T ≤ t → t ≤ u → μ u ≤ μ t := by
    intro t u ht htu
    induction u, htu using Nat.le_induction with
    | base => exact Nat.le_refl _
    | succ u hu ih => exact Nat.le_trans (hT u (Nat.le_trans ht hu)) ih
  have hm : ∀ m, ∃ t, T ≤ t ∧ μ t + m ≤ μ T := by
    intro m
    induction m with
    | zero => exact ⟨T, Nat.le_refl T, Nat.le_refl _⟩
    | succ m ih =>
      obtain ⟨t, ht, hle⟩ := ih
      obtain ⟨u, hu, hlt⟩ := frequently_atTop.mp hdown t
      have := hanti t u ht hu
      exact ⟨u + 1, by omega, by omega⟩
  obtain ⟨t, -, hle⟩ := hm (μ T + 1)
  omega

/-- An infinite run. -/
structure Run (S : Sys σ α) where
  state : Nat → σ
  act : Nat → α
  start : S.init (state 0)
  next : ∀ t, S.step (state t) (act t) (state (t + 1))

/-- A step with this label is possible. -/
def Enabled (S : Sys σ α) (a : α) (s : σ) : Prop := ∃ s', S.step s a s'

namespace Run

variable {r : S.Run} {a : α} {P : σ → Prop}

theorem reach (r : S.Run) (t : Nat) : S.Reach (r.state t) := by
  induction t with
  | zero => exact Reach.init r.start
  | succ t ih => exact Reach.step _ ih (r.next t)

/-- What is possible from some time on is done again and again. -/
def WeaklyFair (r : S.Run) : Prop :=
  ∀ a, (∀ᶠ t in atTop, S.Enabled a (r.state t)) → ∃ᶠ t in atTop, r.act t = a

/-- What is possible again and again is done again and again. -/
def StronglyFair (r : S.Run) : Prop :=
  ∀ a, (∃ᶠ t in atTop, S.Enabled a (r.state t)) → ∃ᶠ t in atTop, r.act t = a

theorem StronglyFair.weaklyFair (h : r.StronglyFair) : r.WeaklyFair := fun a ha => h a ha.frequently

/-- What is not done from some time on is not possible from some time on. -/
theorem StronglyFair.disabled (h : r.StronglyFair) (ha : ¬ ∃ᶠ t in atTop, r.act t = a) :
    ∀ᶠ t in atTop, ¬ S.Enabled a (r.state t) :=
  not_frequently.mp (mt (h a) ha)

/-- Progress in a weakly fair run: as long as `G` is not reached, some step that helps is possible and stays so, and it takes a number
down that no step takes up. -/
theorem WeaklyFair.reaches (h : r.WeaklyFair) {I G : σ → Prop} (v : σ → Nat) (help : σ → α)
    (hen : ∀ s, I s → S.Enabled (help s) s)
    (hstep : ∀ s b s', I s → S.step s b s' →
      G s' ∨ I s' ∧ (v s' < v s ∨ b ≠ help s ∧ v s' = v s ∧ help s' = help s)) {t : Nat} (ht : I (r.state t)) :
    ∃ u, t ≤ u ∧ G (r.state u) := by
  induction hv : v (r.state t) using Nat.strong_induction_on generalizing t with
  | _ m ih =>
    by_contra hno
    have hG : ∀ u, t ≤ u → ¬ G (r.state u) := fun u hu hG => hno ⟨u, hu, hG⟩
    have hless : ∀ u, t ≤ u → I (r.state u) → ¬ v (r.state u) < m := by
      intro u hu hI hlt
      obtain ⟨w, hw, hG⟩ := ih _ hlt hI rfl
      exact hno ⟨w, Nat.le_trans hu hw, hG⟩
    have hsame : ∀ u, t ≤ u → I (r.state u) ∧ v (r.state u) = m ∧ help (r.state u) = help (r.state t) := by
      intro u hu
      induction u, hu using Nat.le_induction with
      | base => exact ⟨ht, hv, rfl⟩
      | succ u hu ihu =>
        obtain ⟨hI, hm, hhelp⟩ := ihu
        rcases hstep _ _ _ hI (r.next u) with hG' | ⟨hI', hlt | ⟨-, hm', hhelp'⟩⟩
        · exact absurd hG' (hG (u + 1) (Nat.le_succ_of_le hu))
        · exact absurd (hm ▸ hlt) (hless (u + 1) (Nat.le_succ_of_le hu) hI')
        · exact ⟨hI', hm'.trans hm, hhelp'.trans hhelp⟩
    have hev : ∀ᶠ u in atTop, S.Enabled (help (r.state t)) (r.state u) := by
      refine eventually_atTop.mpr ⟨t, fun u hu => ?_⟩
      obtain ⟨hI, -, hhelp⟩ := hsame u hu
      exact hhelp ▸ hen _ hI
    obtain ⟨u, hu, hact⟩ := frequently_atTop.mp (h _ hev) t
    obtain ⟨hI, hm, hhelp⟩ := hsame u hu
    rcases hstep _ _ _ hI (r.next u) with hG' | ⟨hI', hlt | ⟨hne, -⟩⟩
    · exact hG (u + 1) (Nat.le_succ_of_le hu) hG'
    · exact hless (u + 1) (Nat.le_succ_of_le hu) hI' (hm ▸ hlt)
    · exact hne (hact.trans hhelp.symm)

/-- A value that only steps with the label `a` change stays the same once there are no more of them. -/
theorem stays {β : Type} {v : σ → β} (hv : ∀ s b s', b ≠ a → S.step s b s' → v s' = v s)
    (h : ¬ ∃ᶠ t in atTop, r.act t = a) : ∃ c, ∀ᶠ t in atTop, v (r.state t) = c := by
  obtain ⟨t, ht⟩ := eventually_atTop.mp (not_frequently.mp h)
  refine ⟨v (r.state t), eventually_atTop.mpr ⟨t, fun u hu => ?_⟩⟩
  induction u, hu using Nat.le_induction with
  | base => rfl
  | succ u hu ih => rw [hv _ _ _ (ht u hu) (r.next u), ih]

/-- Steps with the label `a` that are taken again and again are taken again and again where `P` holds, when elsewhere each of them
takes down a number that the other steps leave alone. -/
theorem again {v : σ → Nat} (hinf : ∃ᶠ t in atTop, r.act t = a) (hdown : ∀ s s', ¬ P s → S.step s a s' → v s' < v s)
    (hkeep : ∀ s b s', b ≠ a → S.step s b s' → v s' = v s) : ∃ᶠ t in atTop, r.act t = a ∧ P (r.state t) := by
  by_contra hno
  have hno' := not_frequently.mp hno
  refine not_frequently_down (μ := fun t => v (r.state t)) ?_ ((hinf.and_eventually hno').mono fun t ht => ?_)
  · refine hno'.mono fun t ht => ?_
    by_cases hact : r.act t = a
    · exact Nat.le_of_lt (hdown _ _ (fun hP => ht ⟨hact, hP⟩) (hact ▸ r.next t))
    · exact Nat.le_of_eq (hkeep _ _ _ hact (r.next t))
  · exact hdown _ _ (fun hP => ht.2 ⟨ht.1, hP⟩) (ht.1 ▸ r.next t)

end Run

/-! ## A fair scheduler -/

/-- The scheduler at time `t`: among the labels that are possible it takes one that was taken last the longest time ago; `last` has the
times. -/
def Turn (S : Sys σ α) [DecidableEq α] (t : Nat) (x y : σ × (α → Nat)) : Prop :=
  ∃ a, S.step x.1 a y.1 ∧ (∀ b, S.Enabled b x.1 → x.2 a ≤ x.2 b) ∧ y.2 = Function.update x.2 a (t + 1)

theorem exists_turn [Finite α] [DecidableEq α] {s : σ} (h : ∃ a, S.Enabled a s) (last : α → Nat) (t : Nat) :
    ∃ y, S.Turn t (s, last) y := by
  obtain ⟨a, ⟨s', hst⟩, hmin⟩ := Set.exists_min_image {a | S.Enabled a s} last (Set.toFinite _) h
  exact ⟨(s', Function.update last a (t + 1)), a, hst, hmin, rfl⟩

/-- A system with finitely many labels that is never stuck has a strongly fair run. -/
theorem exists_stronglyFair [Finite α] {s₀ : σ} (h₀ : S.init s₀) (hlive : ∀ s, S.Reach s → ∃ a, S.Enabled a s) :
    ∃ r : S.Run, r.StronglyFair := by
  classical
  choose! next hnext using fun (t : Nat) (x : σ × (α → Nat)) (hx : S.Reach x.1) => exists_turn (hlive x.1 hx) x.2 t
  let f : Nat → σ × (α → Nat) := fun t => Nat.rec (s₀, fun _ => 0) (fun t x => next t x) t
  have hreach : ∀ t, S.Reach (f t).1 := by
    intro t
    induction t with
    | zero => exact Reach.init h₀
    | succ t ih =>
      obtain ⟨a, hst, -⟩ := hnext t (f t) ih
      exact Reach.step a ih hst
  choose act hst hmin hlast using fun t => hnext t (f t) (hreach t)
  have hlast : ∀ t, (f (t + 1)).2 = Function.update (f t).2 (act t) (t + 1) := hlast
  refine ⟨⟨fun t => (f t).1, act, h₀, hst⟩, fun a hen => ?_⟩
  by_contra hno
  obtain ⟨T, hT⟩ := eventually_atTop.mp (not_frequently.mp hno)
  -- no time is in the future, and they only go up
  have hle : ∀ t b, (f t).2 b ≤ t := by
    intro t
    induction t with
    | zero => exact fun b => Nat.le_refl 0
    | succ t ih =>
      intro b
      rw [hlast]
      by_cases hb : b = act t
      · rw [hb, Function.update_self]
      · rw [Function.update_of_ne hb]
        exact Nat.le_succ_of_le (ih b)
  have hmono : ∀ t u b, t ≤ u → (f t).2 b ≤ (f u).2 b := by
    intro t u b htu
    induction u, htu using Nat.le_induction with
    | base => exact Nat.le_refl _
    | succ u _ ih =>
      rw [hlast]
      by_cases hb : b = act u
      · rw [hb, Function.update_self]
        exact Nat.le_succ_of_le (Nat.le_trans (hb ▸ ih) (hle u _))
      · rwa [Function.update_of_ne hb]
  have hfixed : ∀ t, T ≤ t → (f t).2 a = (f T).2 a := by
    intro t ht
    induction t, ht using Nat.le_induction with
    | base => rfl
    | succ t ht ih => rw [hlast, Function.update_of_ne fun e => hT t ht e.symm, ih]
  -- some label is taken twice where `a` is possible, the second time out of turn
  obtain ⟨b, hb⟩ := exists_frequently act hen
  obtain ⟨t, ht, -, hactt⟩ := frequently_atTop.mp hb T
  obtain ⟨u, hu, hena, hactu⟩ := frequently_atTop.mp hb (t + 1)
  have h1 : t + 1 ≤ (f u).2 b := by
    have h := hmono (t + 1) u b hu
    rwa [hlast, ← hactt, Function.update_self, hactt] at h
  have h2 : (f u).2 b ≤ (f u).2 a := by
    rw [← hactu]
    exact hmin u a hena
  rw [hfixed u (by omega)] at h2
  have h3 := hle T a
  omega

/-! ## Runs put together from pieces -/

/-- A finite part of a run: the states that are left, each with the label of the step. -/
inductive Walk (S : Sys σ α) : σ → List (σ × α) → σ → Prop where
  | nil (s : σ) : Walk S s [] s
  | cons {s s' s'' : σ} {l : List (σ × α)} (a : α) (h : S.step s a s') (hl : Walk S s' l s'') : Walk S s ((s, a) :: l) s''

namespace Walk

variable {s s' s'' : σ} {l l' : List (σ × α)}

theorem single (a : α) (h : S.step s a s') : S.Walk s [(s, a)] s' := cons a h (nil s')

theorem append (h : S.Walk s l s') (h' : S.Walk s' l' s'') : S.Walk s (l ++ l') s'' := by
  induction h with
  | nil => exact h'
  | cons a hst _ ih => exact cons a hst (ih h')

theorem head_get (h : S.Walk s l s') (hl : 0 < l.length) : (l.get ⟨0, hl⟩).1 = s := by
  cases h with
  | nil => exact absurd hl (Nat.lt_irrefl 0)
  | cons a hst _ => rfl

theorem start_mem (h : S.Walk s l s') (hne : l ≠ []) : ∃ x ∈ l, x.1 = s := by
  cases h with
  | nil => exact absurd rfl hne
  | cons a hst _ => exact ⟨_, List.mem_cons_self .., rfl⟩

/-- What none of its steps changes stays the same. -/
theorem keeps {β : Type} {v : σ → β} {q : α → Prop} (hv : ∀ s a s', q a → S.step s a s' → v s' = v s) (h : S.Walk s l s')
    (hq : ∀ x ∈ l, q x.2) : ∀ x ∈ l, v x.1 = v s := by
  induction h with
  | nil => exact fun x hx => absurd hx List.not_mem_nil
  | @cons s s' s'' l a hst hl ih =>
    intro x hx
    rcases List.mem_cons.mp hx with rfl | hx
    · rfl
    · rw [ih (fun y hy => hq y (List.mem_cons_of_mem _ hy)) x hx]
      exact hv _ _ _ (hq (s, a) (List.mem_cons_self ..)) hst

/-- Its steps are steps. -/
theorem step_get (h : S.Walk s l s') {i : Nat} (hi : i + 1 < l.length) :
    S.step (l.get ⟨i, Nat.lt_of_succ_lt hi⟩).1 (l.get ⟨i, Nat.lt_of_succ_lt hi⟩).2 (l.get ⟨i + 1, hi⟩).1 := by
  induction h generalizing i with
  | nil => exact absurd hi (Nat.not_lt_zero _)
  | @cons s s' s'' l a hst hl ih =>
    cases i with
    | zero =>
      cases hl with
      | nil => exact absurd hi (Nat.lt_irrefl 1)
      | cons b hst' _ => exact hst
    | succ i => exact ih (Nat.lt_of_succ_lt_succ hi)

end Walk

section Pieces

variable {β : Type} {piece : Nat → List β} {x : β} {i k m t : Nat}

/-- The first `k` pieces, one behind the other. -/
def pieces (piece : Nat → List β) (k : Nat) : List β := (List.range k).flatMap piece

theorem pieces_succ (piece : Nat → List β) (k : Nat) : pieces piece (k + 1) = pieces piece k ++ piece k := by
  rw [pieces, List.range_succ, List.flatMap_append, List.flatMap_singleton, pieces]

theorem begins_pieces (h : k ≤ m) : pieces piece k <+: pieces piece m := by
  induction m, h using Nat.le_induction with
  | base => exact List.prefix_rfl
  | succ m _ ih => exact ih.trans (pieces_succ piece m ▸ List.prefix_append _ _)

theorem le_length_pieces (hne : ∀ k, piece k ≠ []) (k : Nat) : k ≤ (pieces piece k).length := by
  induction k with
  | zero => exact Nat.zero_le _
  | succ k ih =>
    have := List.length_pos_of_ne_nil (hne k)
    rw [pieces_succ, List.length_append]
    omega

/-- Element `t` of all pieces, one behind the other. -/
def elementAt (hne : ∀ k, piece k ≠ []) (t : Nat) : β := (pieces piece (t + 1)).get ⟨t, le_length_pieces hne (t + 1)⟩

theorem pieces_get (hne : ∀ k, piece k ≠ []) (h : t < (pieces piece k).length) :
    (pieces piece k).get ⟨t, h⟩ = elementAt hne t := by
  rcases Nat.le_total k (t + 1) with hle | hle
  · exact (begins_pieces hle).getElem h
  · exact ((begins_pieces hle).getElem (le_length_pieces hne (t + 1))).symm

/-- Every element is in a piece. -/
theorem elementAt_mem (hne : ∀ k, piece k ≠ []) (t : Nat) : ∃ k, elementAt hne t ∈ piece k := by
  obtain ⟨k, -, hk⟩ := List.mem_flatMap.mp (List.get_mem (pieces piece (t + 1)) ⟨t, le_length_pieces hne (t + 1)⟩)
  exact ⟨k, hk⟩

/-- What is in a piece comes, and not before its turn. -/
theorem exists_elementAt (hne : ∀ k, piece k ≠ []) (h : x ∈ piece k) : ∃ t, k ≤ t ∧ elementAt hne t = x := by
  obtain ⟨i, hi, rfl⟩ := List.getElem_of_mem h
  have hlt : (pieces piece k).length + i < (pieces piece (k + 1)).length := by
    rw [pieces_succ, List.length_append]
    omega
  refine ⟨(pieces piece k).length + i, Nat.le_trans (le_length_pieces hne k) (Nat.le_add_right _ _), ?_⟩
  rw [← pieces_get hne hlt]
  simp [pieces_succ]

end Pieces

/-- Pieces that can follow each other make a run: what is in every piece comes again and again, and what holds all through every piece
holds always. -/
theorem exists_run_of_walks {I : σ → Prop} {P : List (σ × α) → Prop} {s₀ : σ} (h₀ : S.init s₀) (hI : I s₀)
    (h : ∀ s, I s → ∃ l s', S.Walk s l s' ∧ l ≠ [] ∧ P l ∧ I s') :
    ∃ r : S.Run, (∀ q : σ × α → Prop, (∀ l, P l → ∃ x ∈ l, q x) → ∃ᶠ t in atTop, q (r.state t, r.act t)) ∧
      ∀ q : σ × α → Prop, (∀ l, P l → ∀ x ∈ l, q x) → ∀ t, q (r.state t, r.act t) := by
  choose walk after hwalk hne hP hafter using h
  let st : Nat → {s // I s} := fun k => Nat.rec ⟨s₀, hI⟩ (fun _ x => ⟨after x.1 x.2, hafter x.1 x.2⟩) k
  let piece : Nat → List (σ × α) := fun k => walk (st k).1 (st k).2
  have hne' : ∀ k, piece k ≠ [] := fun k => hne _ _
  have hpieces : ∀ k, S.Walk s₀ (pieces piece k) (st k).1 := by
    intro k
    induction k with
    | zero => exact Walk.nil s₀
    | succ k ih => exact pieces_succ piece k ▸ ih.append (hwalk (st k).1 (st k).2)
  have hstart : (elementAt hne' 0).1 = s₀ := by
    rw [← pieces_get hne' (le_length_pieces hne' 1)]
    exact (hpieces 1).head_get _
  have hnext : ∀ t, S.step (elementAt hne' t).1 (elementAt hne' t).2 (elementAt hne' (t + 1)).1 := by
    intro t
    have hl := le_length_pieces hne' (t + 2)
    rw [← pieces_get hne' (Nat.lt_of_succ_lt hl), ← pieces_get hne' hl]
    exact (hpieces (t + 2)).step_get hl
  refine ⟨⟨fun t => (elementAt hne' t).1, fun t => (elementAt hne' t).2, hstart ▸ h₀, hnext⟩, fun q hq => ?_, fun q hq t => ?_⟩
  · refine frequently_atTop.mpr fun k => ?_
    obtain ⟨x, hx, hqx⟩ := hq (piece k) (hP _ _)
    obtain ⟨t, hkt, rfl⟩ := exists_elementAt hne' hx
    exact ⟨t, hkt, hqx⟩
  · obtain ⟨k, hk⟩ := elementAt_mem hne' t
    exact hq (piece k) (hP _ _) _ hk

end OsLabs.Sys
