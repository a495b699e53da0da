import OsLabs.Lib.Sys

/-!
# The reaper (`reaper.c`)

The program adopts the orphans below it. Its child forks a grandchild, which pauses, and ends; the program runs `ps`, kills the group of
the child, waits for one more process, and ends. `ps` forks a process of its own, and goes on in it with the rest of `main` when
`execve` fails.

However these processes are scheduled, none is left when the program ends (`reaper_ends`). It does not end in two cases. When `fork` fails
in `ps`, its -1 is an argument of `waitpid`, which then waits for any child, and the grandchild is not killed yet; and when the program was
started with `SIGINT` ignored, the grandchild is not killed at all.
-/

namespace OsLabs.Reaper

/-- `main`: in its first `Fork`, in `waitpid` for the child, in `fork` for `ps` and in `waitpid` for it, for its process or, after a
failure, for -1; before `kill`, in `wait`, and ended. -/
inductive Main where
  | fork | waitChild | forkPs
  | waitPs (forked : Bool)
  | kill | wait | ended
  deriving DecidableEq

/-- The child: not forked, before `setpgid`, in `Fork`, before its end, dead, and waited for. -/
inductive Child where
  | none | setpgid | fork | running | zombie | gone
  deriving DecidableEq

/-- The grandchild: not forked, before or in `pause`, killed by `SIGINT` but not dead yet, dead, and waited for. -/
inductive Grandchild where
  | none | paused | killed | zombie | gone
  deriving DecidableEq

/-- The process of `ps`: not forked, before `execve`, running the program, or, after a failure, before the `kill` of `main` and in its
`wait`; dead, and waited for. -/
inductive Ps where
  | none | execve | running | kill | wait | zombie | gone
  deriving DecidableEq

/-- The processes, and whether the child and the grandchild are in the group of the child. -/
structure State where
  main : Main
  child : Child
  grandchild : Grandchild
  ps : Ps
  childGroup : Bool
  grandchildGroup : Bool
  deriving DecidableEq

/-- `kill(-child_pid, SIGINT)`. -/
def State.killGroup (ignored : Bool) (s : State) : State :=
  if s.grandchild = .paused ∧ s.grandchildGroup = true ∧ ignored = false then { s with grandchild := .killed } else s

/-- The program has no child that it did not wait for, besides the process of `ps`: an orphaned grandchild is one. -/
def State.NoChild (s : State) : Prop :=
  (s.child = .none ∨ s.child = .gone) ∧ (s.grandchild = .none ∨ s.grandchild = .gone)

instance (s : State) : Decidable s.NoChild := inferInstanceAs (Decidable (_ ∧ _))

/-- The steps, where `SIGINT` is `ignored` or not. The process of `ps` has no children, so its calls of `waitpid` and `wait` fail. -/
inductive Step (ignored : Bool) : State → State → Prop where
  | fork {s : State} (h : s.main = .fork) : Step ignored s { s with main := .waitChild, child := .setpgid }
  | forkFails {s : State} (h : s.main = .fork) : Step ignored s { s with main := .ended }
  | waitChild {s : State} (h : s.main = .waitChild) (hc : s.child = .zombie) :
      Step ignored s { s with main := .forkPs, child := .gone }
  | forkPs {s : State} (h : s.main = .forkPs) : Step ignored s { s with main := .waitPs true, ps := .execve }
  | forkPsFails {s : State} (h : s.main = .forkPs) : Step ignored s { s with main := .waitPs false }
  | waitPs {s : State} (h : s.main = .waitPs true) (hp : s.ps = .zombie) : Step ignored s { s with main := .kill, ps := .gone }
  | waitAny {s : State} (h : s.main = .waitPs false) (hg : s.grandchild = .zombie) :
      Step ignored s { s with main := .kill, grandchild := .gone }
  | waitNone {s : State} (h : s.main = .waitPs false) (hn : s.NoChild) : Step ignored s { s with main := .kill }
  | kill {s : State} (h : s.main = .kill) : Step ignored s { s.killGroup ignored with main := .wait }
  | wait {s : State} (h : s.main = .wait) (hg : s.grandchild = .zombie) :
      Step ignored s { s with main := .ended, grandchild := .gone }
  | waitFails {s : State} (h : s.main = .wait) (hn : s.NoChild) : Step ignored s { s with main := .ended }
  | setpgid {s : State} (h : s.child = .setpgid) : Step ignored s { s with child := .fork, childGroup := true }
  | spawn {s : State} (h : s.child = .fork) :
      Step ignored s { s with child := .running, grandchild := .paused, grandchildGroup := s.childGroup }
  | spawnFails {s : State} (h : s.child = .fork) : Step ignored s { s with child := .zombie }
  | childEnds {s : State} (h : s.child = .running) : Step ignored s { s with child := .zombie }
  | grandchildDies {s : State} (h : s.grandchild = .killed) : Step ignored s { s with grandchild := .zombie }
  | exec {s : State} (h : s.ps = .execve) : Step ignored s { s with ps := .running }
  | execFails {s : State} (h : s.ps = .execve) : Step ignored s { s with ps := .kill }
  | psEnds {s : State} (h : s.ps = .running) : Step ignored s { s with ps := .zombie }
  | psKill {s : State} (h : s.ps = .kill) : Step ignored s { s.killGroup ignored with ps := .wait }
  | psWait {s : State} (h : s.ps = .wait) : Step ignored s { s with ps := .zombie }

/-- Before the first `Fork`. -/
def start : State := ⟨.fork, .none, .none, .none, false, false⟩

/-- The program. -/
def reaper (ignored : Bool) : Sys State Unit where
  init s := s = start
  step s _ s' := Step ignored s s'

variable {ignored : Bool} {s s' : State}

/-- What `kill` does: a grandchild in the group is killed, unless it ignores the signal. -/
theorem killGroup_cases (ignored : Bool) (s : State) :
    (s.killGroup ignored = { s with grandchild := .killed } ∧ s.grandchild = .paused ∧ ignored = false) ∨
      (s.killGroup ignored = s ∧ (s.grandchild = .paused → s.grandchildGroup = true → ignored = true)) := by
  unfold State.killGroup
  split
  · next h => exact Or.inl ⟨rfl, h.1, h.2.2⟩
  · next h => exact Or.inr ⟨rfl, fun h1 h2 => by simpa [h1, h2] using h⟩

/-! ## Where the processes are -/

/-- Where the other processes are, by what `main` is at. -/
def Others (ignored : Bool) (s : State) : Main → Prop
  | .fork => s.child = .none ∧ s.grandchild = .none ∧ s.ps = .none
  | .waitChild => s.child ≠ .none ∧ s.child ≠ .gone ∧ (s.grandchild = .none ∨ s.grandchild = .paused) ∧ s.ps = .none
  | .forkPs | .waitPs false => s.child = .gone ∧ (s.grandchild = .none ∨ s.grandchild = .paused) ∧ s.ps = .none
  | .waitPs true => s.child = .gone ∧ s.grandchild ≠ .gone ∧ s.ps ≠ .none ∧ s.ps ≠ .gone
  | .kill => s.child = .gone ∧ s.grandchild ≠ .gone ∧ (s.ps = .none ∨ s.ps = .gone)
  | .wait => s.child = .gone ∧ s.grandchild ≠ .gone ∧ (s.grandchild = .paused → ignored = true) ∧ (s.ps = .none ∨ s.ps = .gone)
  | .ended => s.NoChild ∧ (s.ps = .none ∨ s.ps = .gone)

/-- The other processes go with `main`, and the grandchild is in the group of the child, which is made before it is forked. -/
structure Inv (ignored : Bool) (s : State) : Prop where
  others : Others ignored s s.main
  group : s.childGroup = true ∨ s.child = .none ∨ s.child = .setpgid
  member : s.grandchild = .none ∨ s.grandchildGroup = true ∧ s.child ≠ .none ∧ s.child ≠ .setpgid ∧ s.child ≠ .fork

/-- While there is a child, `main` waits for it. -/
theorem main_of_child (ho : Others ignored s s.main) (h1 : s.child ≠ .none) (h2 : s.child ≠ .gone) : s.main = .waitChild := by
  cases hm : s.main with
  | waitPs forked => cases forked <;> simp_all [Others]
  | _ => simp_all [Others, State.NoChild]

/-- While there is a process of `ps`, `main` waits for it. -/
theorem main_of_ps (ho : Others ignored s s.main) (h1 : s.ps ≠ .none) (h2 : s.ps ≠ .gone) : s.main = .waitPs true := by
  cases hm : s.main with
  | waitPs forked => cases forked <;> simp_all [Others]
  | _ => simp_all [Others, State.NoChild]

/-- A killed grandchild is one that `main` has not waited for. -/
theorem main_of_killed (ho : Others ignored s s.main) (h : s.grandchild = .killed) :
    s.main = .waitPs true ∨ s.main = .kill ∨ s.main = .wait := by
  cases hm : s.main with
  | waitPs forked => cases forked <;> simp_all [Others]
  | _ => simp_all [Others, State.NoChild]

/-- Every step keeps where the others are. -/
theorem others_step (hI : Inv ignored s) (h : Step ignored s s') : Others ignored s' s'.main := by
  obtain ⟨ho, hgroup, hmember⟩ := hI
  cases h with
  | fork h => simp_all [Others]
  | forkFails h => simp_all [Others, State.NoChild]
  | waitChild h hc => simp_all [Others]
  | forkPs h =>
    rw [h] at ho
    obtain ⟨hc, hg, -⟩ := ho
    refine ⟨hc, ?_, by simp, by simp⟩
    rcases hg with hg | hg <;> simp [hg]
  | forkPsFails h => simp_all [Others]
  | waitPs h hp => simp_all [Others]
  | waitAny h hg => simp_all [Others]
  | waitNone h hn =>
    rw [h] at ho
    obtain ⟨hc, hg, hp⟩ := ho
    refine ⟨hc, ?_, Or.inl hp⟩
    rcases hg with hg | hg <;> simp [hg]
  | kill h =>
    rw [h] at ho
    obtain ⟨hc, hg, hp⟩ := ho
    rcases killGroup_cases ignored s with ⟨he, -, -⟩ | ⟨he, hi⟩
    · rw [he]
      exact ⟨hc, by simp, by simp, hp⟩
    · rw [he]
      refine ⟨hc, hg, fun hpaused => ?_, hp⟩
      have hgrand : s.grandchild = .paused := hpaused
      exact hi hgrand (hmember.resolve_left (by simp [hgrand])).1
  | wait h hg => simp_all [Others, State.NoChild]
  | waitFails h hn => simp_all [Others, State.NoChild]
  | setpgid h =>
    have hm := main_of_child ho (by simp [h]) (by simp [h])
    simp_all [Others]
  | spawn h =>
    have hm := main_of_child ho (by simp [h]) (by simp [h])
    simp_all [Others]
  | spawnFails h =>
    have hm := main_of_child ho (by simp [h]) (by simp [h])
    simp_all [Others]
  | childEnds h =>
    have hm := main_of_child ho (by simp [h]) (by simp [h])
    simp_all [Others]
  | grandchildDies h => rcases main_of_killed ho h with hm | hm | hm <;> simp_all [Others]
  | exec h =>
    have hm := main_of_ps ho (by simp [h]) (by simp [h])
    simp_all [Others]
  | execFails h =>
    have hm := main_of_ps ho (by simp [h]) (by simp [h])
    simp_all [Others]
  | psEnds h =>
    have hm := main_of_ps ho (by simp [h]) (by simp [h])
    simp_all [Others]
  | psKill h =>
    have hm := main_of_ps ho (by simp [h]) (by simp [h])
    rcases killGroup_cases ignored s with ⟨he, -, -⟩ | ⟨he, -⟩ <;> simp_all [Others]
  | psWait h =>
    have hm := main_of_ps ho (by simp [h]) (by simp [h])
    simp_all [Others]

theorem inv_step (hI : Inv ignored s) (h : Step ignored s s') : Inv ignored s' := by
  refine ⟨others_step hI h, ?_, ?_⟩
  · obtain ⟨-, hgroup, -⟩ := hI
    cases h with
    | kill h | psKill h => rcases killGroup_cases ignored s with ⟨he, -, -⟩ | ⟨he, -⟩ <;> simp_all
    | _ => simp_all
  · obtain ⟨ho, hgroup, hmember⟩ := hI
    cases h with
    | fork h =>
      rw [h] at ho
      exact Or.inl ho.2.1
    | kill h | psKill h => rcases killGroup_cases ignored s with ⟨he, hpaused, -⟩ | ⟨he, -⟩ <;> simp_all
    | _ => simp_all

theorem inv_reach (h : (reaper ignored).Reach s) : Inv ignored s := by
  refine Sys.Inductive.reach (I := Inv ignored) ⟨?_, fun s _ s' hI hst => inv_step hI hst⟩ h
  rintro s rfl
  exact ⟨⟨rfl, rfl, rfl⟩, Or.inr (Or.inl rfl), Or.inl rfl⟩

/-! ## The end -/

/-- The steps that are left for each process. -/
def Main.left : Main → Nat
  | .fork => 6
  | .waitChild => 5
  | .forkPs => 4
  | .waitPs _ => 3
  | .kill => 2
  | .wait => 1
  | .ended => 0

def Child.left : Child → Nat
  | .none => 5
  | .setpgid => 4
  | .fork => 3
  | .running => 2
  | .zombie => 1
  | .gone => 0

def Grandchild.left : Grandchild → Nat
  | .none => 4
  | .paused => 3
  | .killed => 2
  | .zombie => 1
  | .gone => 0

def Ps.left : Ps → Nat
  | .none => 6
  | .execve => 5
  | .running => 2
  | .kill => 4
  | .wait => 3
  | .zombie => 1
  | .gone => 0

/-- The steps that are left; a process that is not forked counts for more than one that is. -/
def left (s : State) : Nat := s.main.left + s.child.left + s.grandchild.left + s.ps.left

/-- `kill` takes no more than it does. -/
theorem left_killGroup (ignored : Bool) (s : State) : (s.killGroup ignored).grandchild.left ≤ s.grandchild.left := by
  rcases killGroup_cases ignored s with ⟨he, hpaused, -⟩ | ⟨he, -⟩
  · rw [he, hpaused]
    exact Nat.le_succ 2
  · exact Nat.le_of_eq (by rw [he])

theorem killGroup_rest (ignored : Bool) (s : State) : (s.killGroup ignored).child = s.child ∧ (s.killGroup ignored).ps = s.ps ∧
    (s.killGroup ignored).main = s.main := by
  rcases killGroup_cases ignored s with ⟨he, -, -⟩ | ⟨he, -⟩ <;> rw [he] <;> exact ⟨rfl, rfl, rfl⟩

/-- Every step leaves less to do. -/
theorem left_lt (hI : Inv ignored s) (h : Step ignored s s') : left s' < left s := by
  obtain ⟨ho, -, hmember⟩ := hI
  obtain ⟨hchild, hps, hmain⟩ := killGroup_rest ignored s
  have hkill := left_killGroup ignored s
  cases h with
  | fork h =>
    rw [h] at ho
    simp only [left, h, ho.1, Main.left, Child.left]
    omega
  | forkPs h =>
    rw [h] at ho
    simp only [left, h, ho.2.2, Main.left, Ps.left]
    omega
  | kill h =>
    simp only [left, hchild, hps, h, Main.left]
    omega
  | psKill h =>
    simp only [left, hchild, hmain, h, Ps.left]
    omega
  | spawn h =>
    have hnone : s.grandchild = .none := hmember.resolve_right fun hm => hm.2.2.2 h
    simp only [left, h, hnone, Child.left, Grandchild.left]
    omega
  | forkFails h | forkPsFails h | waitNone h hn | waitFails h hn =>
    simp only [left, h, Main.left]
    omega
  | waitChild h hc =>
    simp only [left, h, hc, Main.left, Child.left]
    omega
  | waitPs h hp =>
    simp only [left, h, hp, Main.left, Ps.left]
    omega
  | waitAny h hg | wait h hg =>
    simp only [left, h, hg, Main.left, Grandchild.left]
    omega
  | setpgid h | spawnFails h | childEnds h =>
    simp only [left, h, Child.left]
    omega
  | grandchildDies h =>
    simp only [left, h, Grandchild.left]
    omega
  | exec h | execFails h | psEnds h | psWait h =>
    simp only [left, h, Ps.left]
    omega

/-- A process that has not been waited for can go on, if it is the child. -/
theorem exists_step_child (ignored : Bool) (h1 : s.main = .waitChild) (h2 : s.child ≠ .none) (h3 : s.child ≠ .gone) :
    ∃ s', Step ignored s s' := by
  cases hc : s.child with
  | none => exact absurd hc h2
  | setpgid => exact ⟨_, .setpgid hc⟩
  | fork => exact ⟨_, .spawn hc⟩
  | running => exact ⟨_, .childEnds hc⟩
  | zombie => exact ⟨_, .waitChild h1 hc⟩
  | gone => exact absurd hc h3

/-- And likewise the process of `ps`. -/
theorem exists_step_ps (ignored : Bool) (h1 : s.main = .waitPs true) (h2 : s.ps ≠ .none) (h3 : s.ps ≠ .gone) : ∃ s', Step ignored s s' := by
  cases hp : s.ps with
  | none => exact absurd hp h2
  | execve => exact ⟨_, .exec hp⟩
  | running => exact ⟨_, .psEnds hp⟩
  | kill => exact ⟨_, .psKill hp⟩
  | wait => exact ⟨_, .psWait hp⟩
  | zombie => exact ⟨_, .waitPs h1 hp⟩
  | gone => exact absurd hp h3

/-- A state without a step: the program has ended, or it waits for a grandchild that nobody kills. -/
theorem stuck_cases (hI : Inv ignored s) (h : ∀ s', ¬ Step ignored s s') : s.main = .ended ∨
    s.grandchild = .paused ∧ (s.main = .waitPs false ∨ s.main = .wait ∧ ignored = true) := by
  have ho := hI.others
  cases hm : s.main with
  | fork => exact absurd (.fork hm) (h _)
  | waitChild =>
    rw [hm] at ho
    obtain ⟨s', hs⟩ := exists_step_child ignored hm ho.1 ho.2.1
    exact absurd hs (h s')
  | forkPs => exact absurd (.forkPs hm) (h _)
  | waitPs forked =>
    rw [hm] at ho
    cases forked with
    | true =>
      obtain ⟨s', hs⟩ := exists_step_ps ignored hm ho.2.2.1 ho.2.2.2
      exact absurd hs (h s')
    | false =>
      rcases ho.2.1 with hg | hg
      · exact absurd (.waitNone hm ⟨Or.inr ho.1, Or.inl hg⟩) (h _)
      · exact Or.inr ⟨hg, Or.inl rfl⟩
  | kill => exact absurd (.kill hm) (h _)
  | wait =>
    rw [hm] at ho
    cases hg : s.grandchild with
    | none => exact absurd (.waitFails hm ⟨Or.inr ho.1, Or.inl hg⟩) (h _)
    | paused => exact Or.inr ⟨rfl, Or.inr ⟨rfl, ho.2.2.1 hg⟩⟩
    | killed => exact absurd (.grandchildDies hg) (h _)
    | zombie => exact absurd (.wait hm hg) (h _)
    | gone => exact absurd hg ho.2.1
  | ended => exact Or.inl rfl

/-- And these have no step. -/
theorem stuck_of_cases (hI : Inv ignored s) (h : s.main = .ended ∨
    s.grandchild = .paused ∧ (s.main = .waitPs false ∨ s.main = .wait ∧ ignored = true)) (s' : State) : ¬ Step ignored s s' := by
  have ho := hI.others
  intro hst
  rcases h with hm | ⟨hg, hm | ⟨hm, -⟩⟩
  · rw [hm] at ho
    cases hst <;> simp_all [Others, State.NoChild]
  · rw [hm] at ho
    cases hst <;> simp_all [Others, State.NoChild]
  · rw [hm] at ho
    cases hst <;> simp_all [Others, State.NoChild]

/-- The run where `fork` fails in `ps`. -/
theorem exists_hang (ignored : Bool) : (reaper ignored).Reach ⟨.waitPs false, .gone, .paused, .none, true, true⟩ := by
  have h1 := Sys.Reach.step (S := reaper ignored) () (.init rfl) (.fork rfl)
  have h2 := Sys.Reach.step (S := reaper ignored) () h1 (.setpgid rfl)
  have h3 := Sys.Reach.step (S := reaper ignored) () h2 (.spawn rfl)
  have h4 := Sys.Reach.step (S := reaper ignored) () h3 (.childEnds rfl)
  have h5 := Sys.Reach.step (S := reaper ignored) () h4 (.waitChild rfl rfl)
  exact .step () h5 (.forkPsFails rfl)

/-- However the processes are scheduled and whatever fails: no run is infinite; when the program ends there is no other process left; and
nothing can go on exactly when it has ended, or waits for the paused grandchild because `fork` failed in `ps` or `SIGINT` is ignored.
The first of these waits is reached by some run. -/
theorem reaper_ends (ignored : Bool) :
    (¬ ∃ f : Nat → State, f 0 = start ∧ ∀ i, Step ignored (f i) (f (i + 1))) ∧
    (∃ s, (reaper ignored).Reach s ∧ s.main = .waitPs false ∧ ∀ s', ¬ Step ignored s s') ∧
    ∀ s, (reaper ignored).Reach s →
      (s.main = .ended → s.NoChild ∧ (s.ps = .none ∨ s.ps = .gone)) ∧
      ((∀ s', ¬ Step ignored s s') ↔ s.main = .ended ∨
        s.grandchild = .paused ∧ (s.main = .waitPs false ∨ s.main = .wait ∧ ignored = true)) := by
  refine ⟨?_, ?_, ?_⟩
  · rintro ⟨f, h0, hf⟩
    have hreach : ∀ i, (reaper ignored).Reach (f i) := by
      intro i
      induction i with
      | zero => exact .init h0
      | succ i ih => exact .step () ih (hf i)
    have hdown : ∀ i, left (f i) + i ≤ left (f 0) := by
      intro i
      induction i with
      | zero => exact Nat.le_refl _
      | succ i ih =>
        have := left_lt (inv_reach (hreach i)) (hf i)
        omega
    have := hdown (left (f 0) + 1)
    omega
  · have hr := exists_hang ignored
    exact ⟨_, hr, rfl, stuck_of_cases (inv_reach hr) (Or.inr ⟨rfl, Or.inl rfl⟩)⟩
  · intro s hr
    have hI := inv_reach hr
    refine ⟨fun hm => ?_, stuck_cases hI, fun h => stuck_of_cases hI h⟩
    have ho := hI.others
    rwa [hm] at ho

end OsLabs.Reaper
