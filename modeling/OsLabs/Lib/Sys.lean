import Mathlib.Logic.Relation

/-!
# Transition systems, runs and invariants

A program is modelled here as a transition system: its initial states and its labelled steps. The property of every run is
proved once, by `Sys.Inductive.reach`, from what one step keeps. `Sys.guard` restricts the runs of a system to those whose
steps all meet a condition on the state before the step.
-/

namespace OsLabs

/-- A transition system: the initial states and the steps, each with the label of what is done. -/
structure Sys (σ α : Type) where
  init : σ → Prop
  step : σ → α → σ → Prop

namespace Sys

variable {σ α : Type} {S : Sys σ α}

/-- The states that a run reaches. -/
inductive Reach (S : Sys σ α) : σ → Prop where
  | init {s : σ} (h : S.init s) : Reach S s
  | step {s s' : σ} (a : α) (h : Reach S s) (hs : S.step s a s') : Reach S s'

/-- The system whose steps are the steps of `S` that meet `G` in the state they start from. -/
def guard (S : Sys σ α) (G : σ → α → Prop) : Sys σ α where
  init := S.init
  step s a s' := G s a ∧ S.step s a s'

/-- An inductive invariant: it holds initially and every step keeps it. -/
structure Inductive (S : Sys σ α) (I : σ → Prop) : Prop where
  start : ∀ s, S.init s → I s
  keep : ∀ s a s', I s → S.step s a s' → I s'

/-- An inductive invariant holds in every reachable state, by induction on the run. -/
theorem Inductive.reach {I : σ → Prop} (h : S.Inductive I) {s : σ} (hs : S.Reach s) : I s := by
  induction hs with
  | init h0 => exact h.start _ h0
  | step a _ hst ih => exact h.keep _ a _ ih hst

/-- A guarded run is a run. -/
theorem Reach.of_guard {G : σ → α → Prop} {s : σ} (h : (S.guard G).Reach s) : S.Reach s := by
  induction h with
  | init h0 => exact Reach.init h0
  | step a _ hst ih => exact Reach.step a ih hst.2

/-- A guarded run is one for any weaker guard. -/
theorem Reach.guard_mono {G G' : σ → α → Prop} {s : σ} (h : (S.guard G).Reach s) (hG : ∀ s a, G s a → G' s a) :
    (S.guard G').Reach s := by
  induction h with
  | init h0 => exact Reach.init h0
  | step a _ hst ih => exact Reach.step a ih ⟨hG _ _ hst.1, hst.2⟩

/-- `s'` is reached from `s` by some steps. -/
def Path (S : Sys σ α) : σ → σ → Prop := Relation.ReflTransGen (fun s s' => ∃ a, S.step s a s')

/-- No step. -/
theorem Path.refl (S : Sys σ α) (s : σ) : S.Path s s := Relation.ReflTransGen.refl

/-- One step and then a path. -/
theorem Path.head {s s' s'' : σ} (a : α) (h : S.step s a s') (h' : S.Path s' s'') : S.Path s s'' :=
  Relation.ReflTransGen.head ⟨a, h⟩ h'

/-- Paths compose. -/
theorem Path.trans {s s' s'' : σ} (h : S.Path s s') (h' : S.Path s' s'') : S.Path s s'' :=
  Relation.ReflTransGen.trans h h'

/-- A path of guarded steps is a path. -/
theorem Path.of_guard {G : σ → α → Prop} {s s' : σ} (h : (S.guard G).Path s s') : S.Path s s' := by
  induction h with
  | refl => exact Path.refl S s
  | tail _ hst ih =>
    obtain ⟨a, ha⟩ := hst
    exact ih.tail ⟨a, ha.2⟩

/-- A path from a reachable state ends in a reachable state. -/
theorem Reach.path {s s' : σ} (h : S.Reach s) (hp : S.Path s s') : S.Reach s' := by
  induction hp with
  | refl => exact h
  | tail _ hst ih =>
    obtain ⟨a, ha⟩ := hst
    exact Reach.step a ih ha

/-- A loop of `k` rounds: a path from each state of a family to the next gives a path from the first to the last. -/
theorem Path.rounds (f : Nat → σ) (k : Nat) (h : ∀ j, j < k → S.Path (f j) (f (j + 1))) : S.Path (f 0) (f k) := by
  induction k with
  | zero => exact Path.refl S _
  | succ k ih => exact (ih fun j hj => h j (by omega)).trans (h k (by omega))

/-! ## Runs that end -/

section Ends

variable {I : σ → Prop} {μ : σ → Nat} {B : Nat}

/-- A system has no infinite run if each step raises a number that is bounded. -/
theorem Inductive.no_infinite_run (hI : S.Inductive I) (hμ : ∀ s a s', I s → S.step s a s' → μ s < μ s')
    (hB : ∀ s, I s → μ s ≤ B) : ¬ ∃ f : Nat → σ, S.init (f 0) ∧ ∀ i, ∃ a, S.step (f i) a (f (i + 1)) := by
  rintro ⟨f, h0, hstep⟩
  have run : ∀ i, I (f i) ∧ i ≤ μ (f i) := by
    intro i
    induction i with
    | zero => exact ⟨hI.start _ h0, Nat.zero_le _⟩
    | succ i ih =>
      obtain ⟨a, ha⟩ := hstep i
      have := hμ _ a _ ih.1 ha
      exact ⟨hI.keep _ a _ ih.1 ha, by omega⟩
  have h1 := hB _ (run (B + 1)).1
  have h2 := (run (B + 1)).2
  omega

/-- Every state that satisfies the invariant has a path to one without a step. -/
theorem Inductive.exists_end (hI : S.Inductive I) (hμ : ∀ s a s', I s → S.step s a s' → μ s < μ s') (hB : ∀ s, I s → μ s ≤ B)
    {s : σ} (hs : I s) : ∃ s', S.Path s s' ∧ ∀ a s'', ¬ S.step s' a s'' := by
  induction hn : B - μ s using Nat.strongRecOn generalizing s with
  | ind n ih =>
    by_cases hstuck : ∃ a s', S.step s a s'
    · obtain ⟨a, s', hst⟩ := hstuck
      have h1 := hμ s a s' hs hst
      have hs' := hI.keep s a s' hs hst
      have h2 := hB s' hs'
      obtain ⟨s'', hpath, hend⟩ := ih (B - μ s') (by omega) hs' rfl
      exact ⟨s'', Path.head a hst hpath, hend⟩
    · exact ⟨s, Path.refl S s, fun a s'' hst => hstuck ⟨a, s'', hst⟩⟩

end Ends

/-- A system has no infinite run if each step goes down in a well-founded relation. -/
theorem no_infinite_run_of_wellFounded {β : Type*} {r : β → β → Prop} (hr : WellFounded r) (μ : σ → β)
    (hμ : ∀ s a s', S.step s a s' → r (μ s') (μ s)) : ¬ ∃ f : Nat → σ, ∀ i, ∃ a, S.step (f i) a (f (i + 1)) := by
  rintro ⟨f, hf⟩
  have down : ∀ b, ∀ i, μ (f i) ≠ b := by
    intro b
    induction b using hr.induction with
    | h b ih =>
      rintro i rfl
      obtain ⟨a, ha⟩ := hf i
      exact ih _ (hμ _ a _ ha) (i + 1) rfl
  exact down _ 0 rfl

/-- Then every state has a path to one without a step. -/
theorem exists_end_of_wellFounded {β : Type*} {r : β → β → Prop} (hr : WellFounded r) (μ : σ → β)
    (hμ : ∀ s a s', S.step s a s' → r (μ s') (μ s)) (s : σ) : ∃ s', S.Path s s' ∧ ∀ a s'', ¬ S.step s' a s'' := by
  induction hb : μ s using hr.induction generalizing s with
  | h b ih =>
    by_cases hstuck : ∃ a s', S.step s a s'
    · obtain ⟨a, s', hst⟩ := hstuck
      obtain ⟨s'', hpath, hend⟩ := ih _ (hb ▸ hμ s a s' hst) s' rfl
      exact ⟨s'', Path.head a hst hpath, hend⟩
    · exact ⟨s, Path.refl S s, fun a s' hst => hstuck ⟨a, s', hst⟩⟩

end Sys

end OsLabs
