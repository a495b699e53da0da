import OsLabs.Lib.Prog

/-!
# Programs that run alone

A program that neither forks nor waits, that draws no random number and does not exit, is a function of the array: `run` gives its
result, the array at its end and its writes, in order. A program that runs out of fuel has no run. What the weakest precondition says
of a program it says of its run (`wp_run`).
-/

namespace OsLabs

namespace Prog

variable {α β : Type}

/-- The program runs alone, and writes only cells of `W`. -/
def Alone (W : Set Nat) : Prog α → Prop
  | .ret _ => True
  | .read _ k => ∀ v, (k v).Alone W
  | .write i _ k => i ∈ W ∧ k.Alone W
  | .random _ => False
  | .fork _ _ _ => False
  | .wait _ => False
  | .exit => False
  | .stuck => True

/-- The run of a program: its result, the array at its end, and the cells and values that it wrote. -/
def run : Prog α → (Nat → Int) → Option (α × (Nat → Int) × List (Nat × Int))
  | .ret a, h => some (a, h, [])
  | .read i k, h => (k (h i)).run h
  | .write i v k, h => (k.run (Function.update h i v)).map fun (a, h', ws) => (a, h', (i, v) :: ws)
  | .random _, _ => none
  | .fork _ _ _, _ => none
  | .wait _, _ => none
  | .exit, _ => none
  | .stuck, _ => none

variable {W W' : Set Nat} {h : Nat → Int}

theorem Alone.mono {p : Prog α} (hp : p.Alone W) (hW : W ⊆ W') : p.Alone W' := by
  induction p with
  | ret a => exact hp
  | read i k ih => exact fun v => ih v (hp v)
  | write i v k ih => exact ⟨hW hp.1, ih hp.2⟩
  | random k ih => exact hp
  | fork lo hi k ih => exact hp
  | wait k ih => exact hp
  | exit => exact hp
  | stuck => exact hp

theorem Alone.bind {p : Prog α} {f : α → Prog β} (hp : p.Alone W) (hf : ∀ a, (f a).Alone W) : (p >>= f).Alone W := by
  change (Prog.bind p f).Alone W
  induction p with
  | ret a => exact hf a
  | read i k ih => exact fun v => ih v (hp v)
  | write i v k ih => exact ⟨hp.1, ih hp.2⟩
  | random k ih => exact hp
  | fork lo hi k ih => exact hp
  | wait k ih => exact hp
  | exit => exact hp
  | stuck => exact hp

/-- The run of one program after another. -/
theorem run_bind {p : Prog α} {f : α → Prog β} {b : β} {h'' : Nat → Int} {ws : List (Nat × Int)}
    (hrun : (p >>= f).run h = some (b, h'', ws)) :
    ∃ a h' ws₁ ws₂, p.run h = some (a, h', ws₁) ∧ (f a).run h' = some (b, h'', ws₂) ∧ ws = ws₁ ++ ws₂ := by
  change (Prog.bind p f).run h = some (b, h'', ws) at hrun
  induction p generalizing h ws with
  | ret a => exact ⟨a, h, [], ws, rfl, hrun, rfl⟩
  | read i k ih => exact ih (h i) hrun
  | write i v k ih =>
    obtain ⟨⟨_, _, rest⟩, hrest, hout⟩ := Option.map_eq_some_iff.mp hrun
    obtain ⟨rfl, rfl, rfl⟩ : _ = b ∧ _ = h'' ∧ (i, v) :: rest = ws := by simpa using hout
    obtain ⟨a, h', ws₁, ws₂, h₁, h₂, rfl⟩ := ih hrest
    exact ⟨a, h', (i, v) :: ws₁, ws₂, by rw [run, h₁]; rfl, h₂, rfl⟩
  | random k ih => cases hrun
  | fork lo hi k ih => cases hrun
  | wait k ih => cases hrun
  | exit => cases hrun
  | stuck => cases hrun

/-- A program writes the cells that it may write. -/
theorem Alone.writes {p : Prog α} (hp : p.Alone W) {a : α} {h' : Nat → Int} {ws : List (Nat × Int)}
    (hrun : p.run h = some (a, h', ws)) : ∀ w ∈ ws, w.1 ∈ W := by
  induction p generalizing h ws with
  | ret b =>
    cases hrun
    exact fun w hw => absurd hw List.not_mem_nil
  | read i k ih => exact ih (h i) (hp _) hrun
  | write i v k ih =>
    obtain ⟨⟨_, _, rest⟩, hrest, hout⟩ := Option.map_eq_some_iff.mp hrun
    obtain ⟨rfl, rfl, rfl⟩ : _ = a ∧ _ = h' ∧ (i, v) :: rest = ws := by simpa using hout
    intro w hw
    rcases List.mem_cons.mp hw with rfl | hw
    · exact hp.1
    · exact ih hp.2 hrest w hw
  | random k ih => cases hrun
  | fork lo hi k ih => cases hrun
  | wait k ih => cases hrun
  | exit => cases hrun
  | stuck => cases hrun

/-- A program that may write no cell writes nothing. -/
theorem Alone.readOnly {p : Prog α} (hp : p.Alone ∅) {a : α} {h' : Nat → Int} {ws : List (Nat × Int)}
    (hrun : p.run h = some (a, h', ws)) : ws = [] := by
  cases ws with
  | nil => rfl
  | cons w ws => exact absurd (hp.writes hrun w List.mem_cons_self) (Set.notMem_empty _)

end Prog

section Rules

variable {α : Type} {W own : Set Nat} {h : Nat → Int} {kids : List Kid} {p : Prog α} {Q : Post α}

/-- A program that runs alone and satisfies its weakest precondition ends, and its run meets the postcondition. -/
theorem wp_run (hp : p.Alone W) (hwp : wp p own h kids Q) :
    ∃ a h' ws, p.run h = some (a, h', ws) ∧ Q (some a) own h' kids := by
  induction p generalizing h with
  | ret a => exact ⟨a, h, [], rfl, hwp⟩
  | read i k ih => exact ih (h i) (hp _) hwp.2
  | write i v k ih =>
    obtain ⟨a, h', ws, hrun, hQ⟩ := ih hp.2 hwp.2
    exact ⟨a, h', (i, v) :: ws, by rw [Prog.run, hrun]; rfl, hQ⟩
  | random k ih => exact hp.elim
  | fork lo hi k ih => exact hp.elim
  | wait k ih => exact hp.elim
  | exit => exact hp.elim
  | stuck => exact hwp.elim

/-- The postcondition of the run. -/
theorem wp_post (hp : p.Alone W) (hwp : wp p own h kids Q) {a : α} {h' : Nat → Int} {ws : List (Nat × Int)}
    (hrun : p.run h = some (a, h', ws)) : Q (some a) own h' kids := by
  obtain ⟨a', h'', ws', hrun', hQ⟩ := wp_run hp hwp
  obtain ⟨rfl, rfl, -⟩ : a = a' ∧ h' = h'' ∧ ws = ws' := by simpa [hrun] using hrun'
  exact hQ

end Rules

end OsLabs
