import Mathlib.Logic.Basic

/-!
# Two programs with the same outcome

Two programs that may stop with an error run side by side: `SameOutcome E R` says that both stop, with the same error of `E`, or that
both return, with results related by `R`. Sequencing keeps agreement, so two interpreters of one list of operations agree on the list
when they agree on every operation.
-/

namespace OsLabs

/-- Both programs stop with the same error, one of `E`, or both return and the results are related. -/
inductive SameOutcome {ε α β : Type} (E : ε → Prop) (R : α → β → Prop) : Except ε α → Except ε β → Prop where
  | ok {a : α} {b : β} (h : R a b) : SameOutcome E R (.ok a) (.ok b)
  | error {e : ε} (h : E e) : SameOutcome E R (.error e) (.error e)

namespace SameOutcome

variable {ε α β α' β' : Type} {E : ε → Prop} {R : α → β → Prop} {S : α' → β' → Prop}

theorem mono {R' : α → β → Prop} {x : Except ε α} {y : Except ε β} (h : SameOutcome E R x y) (hR : ∀ a b, R a b → R' a b) :
    SameOutcome E R' x y := by
  cases h with
  | ok h => exact .ok (hR _ _ h)
  | error h => exact .error h

/-- Programs that agree step by step agree as a whole. -/
theorem bind {x : Except ε α} {y : Except ε β} {f : α → Except ε α'} {g : β → Except ε β'} (h : SameOutcome E R x y)
    (hfg : ∀ a b, x = .ok a → y = .ok b → R a b → SameOutcome E S (f a) (g b)) : SameOutcome E S (x >>= f) (y >>= g) := by
  cases h with
  | ok h => exact hfg _ _ rfl rfl h
  | error h => exact .error h

end SameOutcome

/-- A check of every element of a list succeeds when it does on each of them. -/
theorem forM_ok {ε α : Type} {f : α → Except ε Unit} {l : List α} (h : ∀ x ∈ l, f x = .ok ()) : l.forM f = .ok () := by
  induction l with
  | nil => rfl
  | cons x l ih =>
    rw [List.forM_eq_forM, List.forM_cons, h x List.mem_cons_self]
    exact ih fun y hy => h y (List.mem_cons_of_mem x hy)

/-- The results of a list of operations, one after the other. -/
def runOps {ε σ ι ρ : Type} (step : ι → σ → Except ε (σ × ρ)) : List ι → σ → Except ε (σ × List ρ)
  | [], s => .ok (s, [])
  | op :: ops, s => do
    let (s, r) ← step op s
    let (s, rs) ← runOps step ops s
    pure (s, r :: rs)

/-- The operations are each allowed in the state in which it is called. -/
def Allowed {ε σ ι ρ : Type} (legal : ι → σ → Prop) (step : ι → σ → Except ε (σ × ρ)) : List ι → σ → Prop
  | [], _ => True
  | op :: ops, s => legal op s ∧ ∀ s' r, step op s = .ok (s', r) → Allowed legal step ops s'

/-- Two interpreters that agree on every allowed operation, in related states, agree on lists of operations. -/
theorem SameOutcome.runOps {ε σ τ ι ρ : Type} {E : ε → Prop} {legal : ι → σ → Prop} {step : ι → σ → Except ε (σ × ρ)}
    {step' : ι → τ → Except ε (τ × ρ)} {Rel : σ → τ → Prop}
    (hstep : ∀ op s t, Rel s t → legal op s → SameOutcome E (fun a b => a.2 = b.2 ∧ Rel a.1 b.1) (step op s) (step' op t)) :
    ∀ (ops : List ι) (s : σ) (t : τ), Rel s t → Allowed legal step ops s →
      SameOutcome E (fun a b => a.2 = b.2 ∧ Rel a.1 b.1) (runOps step ops s) (runOps step' ops t)
  | [], _, _, h, _ => .ok ⟨rfl, h⟩
  | op :: ops, s, t, h, hallowed => by
    refine (hstep op s t h hallowed.1).bind fun a b ha hb hab => ?_
    refine (SameOutcome.runOps hstep ops a.1 b.1 hab.2 (hallowed.2 a.1 a.2 ha)).bind fun a' b' _ _ hab' => ?_
    exact .ok ⟨by rw [hab.1, hab'.1], hab'.2⟩

end OsLabs
