import Mathlib.Data.Set.Basic
import Mathlib.Order.Interval.Set.Basic

/-!
# Programs that fork and share an array

A program reads and writes cells of an array that it shares with its children, draws random numbers, forks, waits for any one
child and exits. `wp` is its weakest precondition in an ownership logic: a process owns a set of cells and touches no other; a
fork hands a range to the child, which must end with the whole range and the child's postcondition; a wait gives the range of some
child back. Nothing is assumed about which child ends first.

`wp` says nothing of a fork that fails. What it says of `noFork`, the program that is stuck where it would fork, it says of all runs.
-/

namespace OsLabs

/-- A program with a result. `fork lo hi` delegates the cells from `lo` to `hi` to the child; its continuation gets what `fork`
returns, 0 in the child. -/
inductive Prog (α : Type) : Type where
  | ret (a : α)
  | read (i : Nat) (k : Int → Prog α)
  | write (i : Nat) (v : Int) (k : Prog α)
  | random (k : Nat → Prog α)
  | fork (lo hi : Nat) (k : Int → Prog α)
  | wait (k : Prog α)
  | exit
  | stuck

namespace Prog

variable {α β : Type}

/-- One program after another. -/
def bind : Prog α → (α → Prog β) → Prog β
  | .ret a, f => f a
  | .read i k, f => .read i fun v => (k v).bind f
  | .write i v k, f => .write i v (k.bind f)
  | .random k, f => .random fun n => (k n).bind f
  | .fork lo hi k, f => .fork lo hi fun pid => (k pid).bind f
  | .wait k, f => .wait (k.bind f)
  | .exit, _ => .exit
  | .stuck, _ => .stuck

instance : Monad Prog where
  pure := .ret
  bind := .bind

/-- The program that is stuck where it would fork. -/
def noFork : Prog α → Prog α
  | .ret a => .ret a
  | .read i k => .read i fun v => (k v).noFork
  | .write i v k => .write i v k.noFork
  | .random k => .random fun n => (k n).noFork
  | .fork _ _ _ => .stuck
  | .wait k => .wait k.noFork
  | .exit => .exit
  | .stuck => .stuck

@[simp] theorem noFork_pure (a : α) : (pure a : Prog α).noFork = pure a := rfl

@[simp] theorem noFork_bind (p : Prog α) (f : α → Prog β) : (p >>= f).noFork = p.noFork >>= fun a => (f a).noFork := by
  change (p.bind f).noFork = p.noFork.bind fun a => (f a).noFork
  induction p with
  | ret a => rfl
  | read i k ih => simp only [bind, noFork, ih]
  | write i v k ih => simp only [bind, noFork, ih]
  | random k ih => simp only [bind, noFork, ih]
  | fork lo hi k ih => rfl
  | wait k ih => simp only [bind, noFork, ih]
  | exit => rfl
  | stuck => rfl

end Prog

/-- What a child was forked for: the range it was given and what holds of the array when it has ended. -/
structure Kid where
  lo : Nat
  hi : Nat
  post : (Nat → Int) → Prop

/-- The range of a child. -/
def Kid.set (K : Kid) : Set Nat := Set.Icc K.lo K.hi

/-- Two arrays agree on a set of cells. -/
def Agree (own : Set Nat) (h h' : Nat → Int) : Prop := ∀ i ∈ own, h' i = h i

theorem Agree.refl (own : Set Nat) (h : Nat → Int) : Agree own h h := fun _ _ => rfl

theorem Agree.trans {own : Set Nat} {h h' h'' : Nat → Int} (h1 : Agree own h h') (h2 : Agree own h' h'') : Agree own h h'' :=
  fun i hi => (h2 i hi).trans (h1 i hi)

theorem Agree.mono {own own' : Set Nat} {h h' : Nat → Int} (ha : Agree own h h') (hs : own' ⊆ own) : Agree own' h h' :=
  fun i hi => ha i (hs hi)

/-- The child's postcondition holds whatever the cells outside its range hold. -/
def Kid.Holds (K : Kid) (h : Nat → Int) : Prop := ∀ h', Agree K.set h h' → K.post h'

/-- A postcondition: of the result, or of the exit when there is none, the cells owned, the array, and the children not waited
for. -/
abbrev Post (α : Type) : Type := Option α → Set Nat → (Nat → Int) → List Kid → Prop

/-- A child is done: it exits, with all its children waited for, its range, and its postcondition. -/
def Kid.done {α : Type} (K : Kid) : Post α := fun r own h kids => r = none ∧ kids = [] ∧ own = K.set ∧ K.Holds h

/-- The weakest precondition of a program. -/
def wp {α : Type} : Prog α → Set Nat → (Nat → Int) → List Kid → Post α → Prop
  | .ret a, own, h, kids, Q => Q (some a) own h kids
  | .read i k, own, h, kids, Q => i ∈ own ∧ wp (k (h i)) own h kids Q
  | .write i v k, own, h, kids, Q => i ∈ own ∧ wp k own (Function.update h i v) kids Q
  | .random k, own, h, kids, Q => ∀ n, wp (k n) own h kids Q
  | .fork lo hi k, own, h, kids, Q =>
    ∃ post, Set.Icc lo hi ⊆ own ∧ wp (k 0) (Set.Icc lo hi) h [] (Kid.done ⟨lo, hi, post⟩) ∧
      ∀ pid, 0 < pid → wp (k pid) (own \ Set.Icc lo hi) h (⟨lo, hi, post⟩ :: kids) Q
  | .wait k, own, h, kids, Q =>
    kids ≠ [] ∧ ∀ l K r, kids = l ++ K :: r → ∀ h', Agree own h h' → K.post h' → wp k (own ∪ K.set) h' (l ++ r) Q
  | .exit, own, h, kids, Q => Q none own h kids
  | .stuck, _, _, _, _ => False

section Rules

variable {α β : Type} {own : Set Nat} {h : Nat → Int} {kids : List Kid}

theorem wp_mono {p : Prog α} {Q Q' : Post α} (hQ : ∀ r own h kids, Q r own h kids → Q' r own h kids)
    (hp : wp p own h kids Q) : wp p own h kids Q' := by
  induction p generalizing own h kids with
  | ret a => exact hQ _ _ _ _ hp
  | read i k ih => exact ⟨hp.1, ih _ hp.2⟩
  | write i v k ih => exact ⟨hp.1, ih hp.2⟩
  | random k ih => exact fun n => ih n (hp n)
  | fork lo hi k ih =>
    obtain ⟨post, hsub, hchild, hparent⟩ := hp
    exact ⟨post, hsub, hchild, fun pid hpid => ih pid (hparent pid hpid)⟩
  | wait k ih =>
    exact ⟨hp.1, fun l K r e h' ha hpost => ih (hp.2 l K r e h' ha hpost)⟩
  | exit => exact hQ _ _ _ _ hp
  | stuck => exact hp

/-- The postcondition of the first of two programs: an exit is the exit of both. -/
def Post.bind (f : α → Prog β) (Q : Post β) : Post α
  | some a, own, h, kids => wp (f a) own h kids Q
  | none, own, h, kids => Q none own h kids

/-- The rule of sequence. -/
theorem wp_bind {p : Prog α} {f : α → Prog β} {Q : Post β} (hp : wp p own h kids (Post.bind f Q)) :
    wp (p >>= f) own h kids Q := by
  change wp (p.bind f) own h kids Q
  induction p generalizing own h kids Q with
  | ret a => exact hp
  | read i k ih => exact ⟨hp.1, ih _ hp.2⟩
  | write i v k ih => exact ⟨hp.1, ih hp.2⟩
  | random k ih => exact fun n => ih n (hp n)
  | fork lo hi k ih =>
    obtain ⟨post, hsub, hchild, hparent⟩ := hp
    refine ⟨post, hsub, ih 0 (wp_mono (fun r own h kids hd => ?_) hchild), fun pid hpid => ih pid (hparent pid hpid)⟩
    -- the child exits in the first program
    obtain ⟨rfl, hd⟩ := hd
    exact ⟨rfl, hd⟩
  | wait k ih => exact ⟨hp.1, fun l K r e h' ha hpost => ih (hp.2 l K r e h' ha hpost)⟩
  | exit => exact hp
  | stuck => exact hp

/-- A postcondition that only sees the array on the cells owned. -/
def Stable (Q : Post α) : Prop := ∀ r own h h' kids, Agree own h h' → Q r own h kids → Q r own h' kids

theorem Kid.Holds.congr {K : Kid} {h h' : Nat → Int} (hK : K.Holds h) (ha : Agree K.set h h') : K.Holds h' :=
  fun h'' ha' => hK h'' (ha.trans ha')

theorem Kid.done_stable (K : Kid) : Stable (K.done : Post α) := by
  rintro r own h h' kids ha ⟨hr, hk, rfl, hK⟩
  exact ⟨hr, hk, rfl, hK.congr ha⟩

/-- A program only sees the array on the cells it owns. -/
theorem wp_congr {p : Prog α} {Q : Post α} (hQ : Stable Q) {h' : Nat → Int} (ha : Agree own h h')
    (hp : wp p own h kids Q) : wp p own h' kids Q := by
  induction p generalizing own h h' kids Q with
  | ret a => exact hQ _ _ _ _ _ ha hp
  | read i k ih =>
    refine ⟨hp.1, ?_⟩
    rw [ha i hp.1]
    exact ih _ hQ ha hp.2
  | write i v k ih =>
    refine ⟨hp.1, ih hQ (fun j hj => ?_) hp.2⟩
    by_cases e : j = i
    · rw [e, Function.update_self, Function.update_self]
    · rw [Function.update_of_ne e, Function.update_of_ne e]
      exact ha j hj
  | random k ih => exact fun n => ih n hQ ha (hp n)
  | fork lo hi k ih =>
    obtain ⟨post, hsub, hchild, hparent⟩ := hp
    exact ⟨post, hsub, ih 0 (Kid.done_stable _) (ha.mono hsub) hchild,
      fun pid hpid => ih pid hQ (ha.mono Set.sdiff_subset) (hparent pid hpid)⟩
  | wait k ih => exact ⟨hp.1, fun l K r e h'' ha' hpost => hp.2 l K r e h'' (ha.trans ha') hpost⟩
  | exit => exact hQ _ _ _ _ _ ha hp
  | stuck => exact hp

end Rules

end OsLabs
