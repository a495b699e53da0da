import OsLabs.Lib.Sys

/-!
# Simulations

A program that does more steps than its abstraction is compared with it by a relation: each of its steps is a step of the abstraction,
or one that only the program has and that raises a rank. What is reached by the program is then related to something that the
abstraction reaches, and if the runs of the abstraction end, so do those of the program.
-/

namespace OsLabs.Sys

variable {σ τ α β : Type} {S : Sys σ α} {T : Sys τ β} {R : σ → τ → Prop} {ν : σ → Nat}

/-- `T` simulates `S`: the initial states are related, and a step of `S` is related to one of `T`, or to none and raises `ν`. -/
structure Simulates (S : Sys σ α) (T : Sys τ β) (R : σ → τ → Prop) (ν : σ → Nat) : Prop where
  init : ∀ s, S.init s → ∃ t, T.init t ∧ R s t
  step : ∀ s a s' t, T.Reach t → R s t → S.step s a s' → ∃ t', R s' t' ∧ ((∃ b, T.step t b t') ∨ t' = t ∧ ν s < ν s')

/-- What `S` reaches is related to something that `T` reaches. -/
theorem Simulates.reach (h : S.Simulates T R ν) {s : σ} (hs : S.Reach s) : ∃ t, T.Reach t ∧ R s t := by
  induction hs with
  | init h0 =>
    obtain ⟨t, ht, hR⟩ := h.init _ h0
    exact ⟨t, Reach.init ht, hR⟩
  | step a _ hst ih =>
    obtain ⟨t, ht, hR⟩ := ih
    obtain ⟨t', hR', hstep⟩ := h.step _ a _ t ht hR hst
    rcases hstep with ⟨b, hb⟩ | ⟨rfl, -⟩
    · exact ⟨t', Reach.step b ht hb, hR'⟩
    · exact ⟨t', ht, hR'⟩

/-- If each step of `T` raises a bounded number, and `ν` is bounded too, some run of `S` comes to a state without a step. The induction
is on the two numbers together: a step of `T` makes up for what `ν` may lose. -/
theorem Simulates.exists_end (h : S.Simulates T R ν) {μ : τ → Nat} {B C : Nat}
    (hμ : ∀ t b t', T.Reach t → T.step t b t' → μ t < μ t') (hB : ∀ t, T.Reach t → μ t ≤ B) (hC : ∀ s, ν s ≤ C) {s : σ} {t : τ}
    (hs : S.Reach s) (ht : T.Reach t) (hR : R s t) : ∃ s', S.Reach s' ∧ ∀ a s'', ¬ S.step s' a s'' := by
  induction hn : (C + 1) * (B - μ t) + (C - ν s) using Nat.strongRecOn generalizing s t with
  | ind n ih =>
    by_cases hstuck : ∃ a s', S.step s a s'
    · obtain ⟨a, s', hst⟩ := hstuck
      obtain ⟨t', hR', hstep⟩ := h.step s a s' t ht hR hst
      have hs' := Reach.step a hs hst
      rcases hstep with ⟨b, hb⟩ | ⟨rfl, hν⟩
      · have hlt := hμ t b t' ht hb
        have ht' := Reach.step b ht hb
        have hle := hB t' ht'
        have hmul : (C + 1) * (B - μ t') + (C + 1) ≤ (C + 1) * (B - μ t) := by
          rw [← Nat.mul_succ]
          exact Nat.mul_le_mul_left (C + 1) (by omega)
        exact ih _ (by omega) hs' ht' hR' rfl
      · have hle := hC s'
        exact ih _ (by omega) hs' ht hR' rfl
    · exact ⟨s, hs, fun a s' hst => hstuck ⟨a, s', hst⟩⟩

end OsLabs.Sys
