import OsLabs.Lib.Sys
import Mathlib.Data.Finset.Card
import Mathlib.Data.Finset.Filter

/-!
# The first process (`sinit.c`)

`sinit` blocks all signals and takes them one at a time with `sigwait`. A signal that is sent while it is pending is lost, so there may
be fewer signals than reasons for them: `sigreap` waits for children until there are no more zombies, and a power-off is one whatever the
number of its signals. Meanwhile children die, orphans are adopted, signals come in and the alarm goes off, in any order.

A zombie is there only while `SIGCHLD` is pending or `sigreap` is about to look (`Inv`). The exception are the zombies that were there
before the signals were blocked; for them there is the alarm. So once `sinit` sleeps with nothing pending, no zombie is left and every
command that was asked for has been started since (`asleep`), and it always gets there (`settles`).

A signal is pending or not, also a real-time signal, of which the kernel would keep every one: none of them is in `sigmap`, so it makes
no difference but to the number of rounds. A signal that is pending at the start may ask for a command too; it is counted in `asked`, but
`owed` starts empty, so `asleep` speaks of what is asked for from then on.
-/

namespace OsLabs.Sinit

/-- The signals. -/
inductive Sig where
  | sigusr1 | sigchld | sigalrm | sigint
  | other (n : Nat)
  deriving DecidableEq

/-- The commands of `config.h`. -/
inductive Cmd where
  | rcinitcmd | rcpoweroffcmd | rcrebootcmd
  deriving DecidableEq

/-- The handlers. -/
inductive Handler where
  | sigpoweroff | sigreap | sigreboot
  deriving DecidableEq

/-- `sigmap`. -/
def sigmap : List (Sig × Handler) :=
  [(.sigusr1, .sigpoweroff), (.sigchld, .sigreap), (.sigalrm, .sigreap), (.sigint, .sigreboot)]

/-- Where the process is: in `fork` for a command, before `alarm` at the head of the loop, in `sigwait`, at an entry of `sigmap` with a
signal, in the loop of `sigreap`, or before its `alarm`. -/
inductive Pc where
  | fork (cmd : Cmd)
  | alarm | sigwait
  | lookup (sig : Sig) (i : Nat)
  | waitpid | rearm
  deriving DecidableEq

/-- Where a handler starts. -/
def Handler.start : Handler → Pc
  | .sigpoweroff => .fork .rcpoweroffcmd
  | .sigreap => .waitpid
  | .sigreboot => .fork .rcrebootcmd

/-- What a handler starts. -/
def Handler.cmd : Handler → Option Cmd
  | .sigpoweroff => some .rcpoweroffcmd
  | .sigreap => none
  | .sigreboot => some .rcrebootcmd

/-- What a signal asks for. -/
def Sig.cmd : Sig → Option Cmd
  | .sigusr1 => some .rcpoweroffcmd
  | .sigint => some .rcrebootcmd
  | _ => none

/-- The process, its pending signals and alarm, and its children, alive and dead. The rest is bookkeeping: whether a `sigreap` has come to
its end, the commands that were asked for since they were last started, and how often each was asked for and started. -/
structure State where
  pc : Pc
  pending : Finset Sig
  timer : Bool
  alive : Finset Nat
  zombies : Finset Nat
  swept : Bool
  owed : Finset Cmd
  asked : Cmd → Nat
  started : Cmd → Nat

/-- The command is started; `fork` may fail. -/
def State.start (s : State) (cmd : Cmd) : State :=
  { s with
    pc := .alarm, owed := s.owed.erase cmd, started := Function.update s.started cmd (s.started cmd + 1) }

/-- The signal is sent. -/
def State.send (s : State) (sig : Sig) : State :=
  match sig.cmd with
  | none => { s with pending := insert sig s.pending }
  | some cmd =>
    { s with
      pending := insert sig s.pending, owed := insert cmd s.owed, asked := Function.update s.asked cmd (s.asked cmd + 1) }

/-- Who takes a step: the process, or everybody else. -/
inductive Act where
  | own | env
  deriving DecidableEq

/-- The steps. `waitpid` may return any zombie, and `sigwait` any pending signal. -/
inductive Step : State → Act → State → Prop where
  | fork {s : State} {cmd : Cmd} (p : Nat) (h : s.pc = .fork cmd) (hp : p ∉ s.alive ∪ s.zombies) :
      Step s .own { s.start cmd with alive := insert p s.alive }
  | forkFails {s : State} {cmd : Cmd} (h : s.pc = .fork cmd) : Step s .own (s.start cmd)
  | alarm {s : State} (h : s.pc = .alarm) : Step s .own { s with pc := .sigwait, timer := true }
  | sigwait {s : State} {sig : Sig} (h : s.pc = .sigwait) (hsig : sig ∈ s.pending) :
      Step s .own { s with pc := .lookup sig 0, pending := s.pending.erase sig }
  | next {s : State} {sig sig' : Sig} {i : Nat} {f : Handler} (h : s.pc = .lookup sig i) (hi : sigmap[i]? = some (sig', f))
      (hne : sig' ≠ sig) : Step s .own { s with pc := .lookup sig (i + 1) }
  | handler {s : State} {sig : Sig} {i : Nat} {f : Handler} (h : s.pc = .lookup sig i) (hi : sigmap[i]? = some (sig, f)) :
      Step s .own { s with pc := f.start }
  | unknown {s : State} {sig : Sig} {i : Nat} (h : s.pc = .lookup sig i) (hi : sigmap[i]? = none) :
      Step s .own { s with pc := .alarm }
  | collect {s : State} {p : Nat} (h : s.pc = .waitpid) (hp : p ∈ s.zombies) :
      Step s .own { s with zombies := s.zombies.erase p }
  | collected {s : State} (h : s.pc = .waitpid) (hz : s.zombies = ∅) : Step s .own { s with pc := .rearm, swept := true }
  | rearm {s : State} (h : s.pc = .rearm) : Step s .own { s with pc := .alarm, timer := true }
  | adopt {s : State} {p : Nat} (hp : p ∉ s.alive ∪ s.zombies) : Step s .env { s with alive := insert p s.alive }
  | die {s : State} {p : Nat} (hp : p ∈ s.alive) :
      Step s .env { s.send .sigchld with alive := s.alive.erase p, zombies := insert p s.zombies }
  | send {s : State} (sig : Sig) : Step s .env (s.send sig)
  | fire {s : State} (ht : s.timer = true) : Step s .env { s.send .sigalrm with timer := false }

/-- The signals that ask for a command. -/
def askers (cmd : Cmd) (pending : Finset Sig) : Finset Sig := pending.filter fun sig => sig.cmd = some cmd

/-- The signals are blocked and `spawn(rcinitcmd)` is next. Signals may be pending, the alarm may be set, and children may be there
from before, the dead ones among them being `zombies`. -/
def sinit (zombies : Finset Nat) : Sys State Act where
  init s :=
    s.pc = .fork .rcinitcmd ∧ s.zombies = zombies ∧ s.swept = false ∧ s.owed = ∅ ∧ (∀ cmd, s.started cmd = 0) ∧
      ∀ cmd, s.asked cmd = (askers cmd s.pending).card + if cmd = .rcinitcmd then 1 else 0
  step := Step

/-! ## What a signal leads to -/

/-- The handler that the loop over `sigmap` calls from entry `i` on. -/
def found (sig : Sig) (i : Nat) : Option Handler := ((sigmap.drop i).find? fun entry => entry.1 = sig).map Prod.snd

variable {sig sig' : Sig} {i : Nat} {f : Handler} {cmd : Cmd} {s s' : State} {zombies : Finset Nat} {a : Act}

theorem found_next (hi : sigmap[i]? = some (sig', f)) (hne : sig' ≠ sig) : found sig i = found sig (i + 1) := by
  obtain ⟨hlt, hget⟩ := List.getElem?_eq_some_iff.mp hi
  rw [found, List.drop_eq_getElem_cons hlt, hget, List.find?_cons_of_neg (by simpa using hne), found]

theorem found_handler (hi : sigmap[i]? = some (sig, f)) : found sig i = some f := by
  obtain ⟨hlt, hget⟩ := List.getElem?_eq_some_iff.mp hi
  rw [found, List.drop_eq_getElem_cons hlt, hget, List.find?_cons_of_pos (by simp)]
  rfl

theorem found_unknown (hi : sigmap[i]? = none) : found sig i = none := by
  rw [found, List.drop_eq_nil_of_le (List.getElem?_eq_none_iff.mp hi)]
  rfl

/-- The loop finds a handler for what a signal asks for. -/
theorem found_cmd (h : sig.cmd = some cmd) : (found sig 0).bind Handler.cmd = some cmd := by
  cases sig with
  | sigusr1 | sigint =>
    cases h
    rfl
  | sigchld | sigalrm | other n => cases h

/-- A handler that is found starts what the signal asks for. -/
theorem cmd_of_found (h : (found sig 0).bind Handler.cmd = some cmd) : sig.cmd = some cmd := by
  cases sig with
  | sigusr1 | sigint | sigchld | sigalrm => exact h
  | other n => exact absurd h (by simp [found, sigmap])

/-- `sigreap` will look for zombies. -/
def Pc.reaps : Pc → Bool
  | .waitpid => true
  | .lookup sig i => found sig i == some .sigreap
  | _ => false

/-- The command will be started. -/
def Pc.starts (cmd : Cmd) : Pc → Bool
  | .fork c => c == cmd
  | .lookup sig i => (found sig i).bind Handler.cmd == some cmd
  | _ => false

theorem starts_start (f : Handler) (cmd : Cmd) : f.start.starts cmd = (f.cmd == some cmd) := by
  cases f <;> cases cmd <;> rfl

theorem reaps_start (f : Handler) : f.start.reaps = (some f == some .sigreap) := by
  cases f <;> rfl

/-! ## Signals that are sent and taken -/

@[simp] theorem send_pc : (s.send sig).pc = s.pc := by cases h : sig.cmd <;> simp [State.send, h]

@[simp] theorem send_pending : (s.send sig).pending = insert sig s.pending := by cases h : sig.cmd <;> simp [State.send, h]

@[simp] theorem send_timer : (s.send sig).timer = s.timer := by cases h : sig.cmd <;> simp [State.send, h]

@[simp] theorem send_zombies : (s.send sig).zombies = s.zombies := by cases h : sig.cmd <;> simp [State.send, h]

@[simp] theorem send_swept : (s.send sig).swept = s.swept := by cases h : sig.cmd <;> simp [State.send, h]

@[simp] theorem send_started : (s.send sig).started = s.started := by cases h : sig.cmd <;> simp [State.send, h]

theorem send_asked (cmd : Cmd) : (s.send sig).asked cmd = s.asked cmd + if sig.cmd = some cmd then 1 else 0 := by
  cases h : sig.cmd with
  | none => simp [State.send, h]
  | some c =>
    by_cases hc : c = cmd
    · simp [State.send, h, hc]
    · simp [State.send, h, hc, Function.update_of_ne (Ne.symm hc)]

theorem mem_owed_send : cmd ∈ (s.send sig).owed ↔ sig.cmd = some cmd ∨ cmd ∈ s.owed := by
  cases h : sig.cmd with
  | none => simp [State.send, h]
  | some c => simp [State.send, h, eq_comm]

variable {pending : Finset Sig}

/-- One more signal, if it was not pending already. -/
theorem card_askers_insert (sig : Sig) (cmd : Cmd) (pending : Finset Sig) :
    (askers cmd (insert sig pending)).card ≤ (askers cmd pending).card + if sig.cmd = some cmd then 1 else 0 := by
  unfold askers
  rw [Finset.filter_insert]
  split
  · exact Finset.card_insert_le _ _
  · exact Nat.le_refl _

/-- One signal less. -/
theorem card_askers_erase (h : sig ∈ pending) (cmd : Cmd) :
    (askers cmd (pending.erase sig)).card + (if sig.cmd = some cmd then 1 else 0) = (askers cmd pending).card := by
  unfold askers
  rw [Finset.filter_erase]
  split
  · next hc => exact Finset.card_erase_add_one (Finset.mem_filter.mpr ⟨h, hc⟩)
  · next hc =>
    have hnot : sig ∉ pending.filter fun sig => sig.cmd = some cmd := fun hm => hc (Finset.mem_filter.mp hm).2
    rw [Finset.erase_eq_of_notMem hnot, Nat.add_zero]

/-! ## What always holds -/

/-- The zombies are those from before, or `sigreap` will look for them. In `sigwait` the alarm is set or has gone off. A command that was
asked for since it was last started will be started, and none is started more often than asked for. -/
structure Inv (before : Finset Nat) (s : State) : Prop where
  zombies : s.zombies = ∅ ∨ .sigchld ∈ s.pending ∨ s.pc.reaps = true ∨ s.swept = false ∧ s.zombies ⊆ before
  timer : s.pc = .sigwait → s.timer = true ∨ .sigalrm ∈ s.pending
  owed : ∀ cmd ∈ s.owed, (∃ sig ∈ s.pending, sig.cmd = some cmd) ∨ s.pc.starts cmd = true
  count : ∀ cmd, s.started cmd + (askers cmd s.pending).card + (if s.pc.starts cmd = true then 1 else 0) ≤ s.asked cmd

variable {before : Finset Nat}

/-- The zombies after a step. -/
theorem zombies_step (hI : Inv before s) (h : Step s a s') :
    s'.zombies = ∅ ∨ .sigchld ∈ s'.pending ∨ s'.pc.reaps = true ∨ s'.swept = false ∧ s'.zombies ⊆ before := by
  have hz := hI.zombies
  cases h with
  | fork p hpc hp => simpa [State.start, hpc, Pc.reaps] using hz
  | forkFails hpc => simpa [State.start, hpc, Pc.reaps] using hz
  | alarm hpc => simpa [hpc, Pc.reaps] using hz
  | @sigwait sig hpc hsig =>
    by_cases hc : sig = .sigchld
    · subst hc
      exact Or.inr (Or.inr (Or.inl rfl))
    · rw [hpc] at hz
      rcases hz with hz | hz | hz | hz
      · exact Or.inl hz
      · exact Or.inr (Or.inl (Finset.mem_erase.mpr ⟨Ne.symm hc, hz⟩))
      · cases hz
      · exact Or.inr (Or.inr (Or.inr hz))
  | next hpc hi hne => simpa [hpc, Pc.reaps, found_next hi hne] using hz
  | handler hpc hi =>
    rw [hpc] at hz
    simp only [reaps_start]
    simpa [Pc.reaps, found_handler hi] using hz
  | unknown hpc hi => simpa [hpc, Pc.reaps, found_unknown hi] using hz
  | collect hpc hp => exact Or.inr (Or.inr (Or.inl (by rw [hpc]; rfl)))
  | collected hpc hempty => exact Or.inl hempty
  | rearm hpc => simpa [hpc, Pc.reaps] using hz
  | adopt hp => exact hz
  | die hp => exact Or.inr (Or.inl (by simp))
  | send sig =>
    simp only [send_zombies, send_pending, send_pc, send_swept, Finset.mem_insert]
    tauto
  | fire ht =>
    simp only [send_zombies, send_pending, send_pc, send_swept, Finset.mem_insert]
    tauto

/-- The alarm after a step. -/
theorem timer_step (hI : Inv before s) (h : Step s a s') (hw : s'.pc = .sigwait) : s'.timer = true ∨ .sigalrm ∈ s'.pending := by
  have ht := hI.timer
  cases h with
  | fork p hpc hp => cases hw
  | forkFails hpc => cases hw
  | alarm hpc => exact Or.inl rfl
  | sigwait hpc hsig => cases hw
  | next hpc hi hne => cases hw
  | @handler _ _ f hpc hi => cases f <;> cases hw
  | unknown hpc hi => cases hw
  | collect hpc hp => exact ht hw
  | collected hpc hempty => cases hw
  | rearm hpc => cases hw
  | adopt hp => exact ht hw
  | die hp => simpa using ht (by simpa using hw)
  | send sig =>
    rcases ht (by simpa using hw) with h | h
    · exact Or.inl (by simpa using h)
    · exact Or.inr (by simpa using Or.inr h)
  | fire h => exact Or.inr (by simp)

/-- The commands that are owed after a step. -/
theorem owed_step (hI : Inv before s) (h : Step s a s') (cmd : Cmd) (ho : cmd ∈ s'.owed) :
    (∃ sig ∈ s'.pending, sig.cmd = some cmd) ∨ s'.pc.starts cmd = true := by
  have hown := hI.owed cmd
  have hsend : ∀ sig, cmd ∈ (s.send sig).owed →
      (∃ sig' ∈ (s.send sig).pending, sig'.cmd = some cmd) ∨ (s.send sig).pc.starts cmd = true := by
    intro sig hs
    rw [send_pending, send_pc]
    rcases mem_owed_send.mp hs with hc | hc
    · exact Or.inl ⟨sig, Finset.mem_insert_self _ _, hc⟩
    · rcases hown hc with ⟨sig', h1, h2⟩ | h1
      · exact Or.inl ⟨sig', Finset.mem_insert_of_mem h1, h2⟩
      · exact Or.inr h1
  have hstart : ∀ c, s.pc = .fork c → cmd ∈ s.owed.erase c → ∃ sig ∈ s.pending, sig.cmd = some cmd := by
    intro c hpc hc
    obtain ⟨hne, hmem⟩ := Finset.mem_erase.mp hc
    refine (hown hmem).resolve_right fun hst => ?_
    rw [hpc] at hst
    exact hne (eq_of_beq hst).symm
  cases h with
  | fork p hpc hp => exact Or.inl (hstart _ hpc ho)
  | forkFails hpc => exact Or.inl (hstart _ hpc ho)
  | alarm hpc => simpa [hpc, Pc.starts] using hown ho
  | @sigwait sig hpc hsig =>
    rcases hown ho with ⟨sig', h1, h2⟩ | h1
    · by_cases he : sig' = sig
      · subst he
        exact Or.inr (beq_iff_eq.mpr (found_cmd h2))
      · exact Or.inl ⟨sig', Finset.mem_erase.mpr ⟨he, h1⟩, h2⟩
    · rw [hpc] at h1
      cases h1
  | next hpc hi hne => simpa [hpc, Pc.starts, found_next hi hne] using hown ho
  | handler hpc hi =>
    have hx := hown ho
    rw [hpc] at hx
    simp only [starts_start]
    simpa [Pc.starts, found_handler hi] using hx
  | unknown hpc hi => simpa [hpc, Pc.starts, found_unknown hi] using hown ho
  | collect hpc hp => exact hown ho
  | collected hpc hempty => simpa [hpc, Pc.starts] using hown ho
  | rearm hpc => simpa [hpc, Pc.starts] using hown ho
  | adopt hp => exact hown ho
  | die hp => exact hsend .sigchld ho
  | send sig => exact hsend sig ho
  | fire ht => exact hsend .sigalrm ho

/-- How often a command was started after a step. -/
theorem count_step (hI : Inv before s) (h : Step s a s') (cmd : Cmd) :
    s'.started cmd + (askers cmd s'.pending).card + (if s'.pc.starts cmd = true then 1 else 0) ≤ s'.asked cmd := by
  have hc := hI.count cmd
  have hsend : ∀ sig, s.started cmd + (askers cmd (insert sig s.pending)).card + (if s.pc.starts cmd = true then 1 else 0) ≤
      (s.send sig).asked cmd := by
    intro sig
    have h1 := card_askers_insert sig cmd s.pending
    rw [send_asked]
    omega
  have hstart : ∀ c, s.pc = .fork c →
      Function.update s.started c (s.started c + 1) cmd + (askers cmd s.pending).card ≤ s.asked cmd := by
    intro c hpc
    rw [hpc] at hc
    by_cases he : c = cmd
    · subst he
      rw [Function.update_self]
      simp [Pc.starts] at hc
      omega
    · rw [Function.update_of_ne (Ne.symm he)]
      omega
  cases h with
  | fork p hpc hp => simpa [State.start, Pc.starts] using hstart _ hpc
  | forkFails hpc => simpa [State.start, Pc.starts] using hstart _ hpc
  | alarm hpc => simpa [hpc, Pc.starts] using hc
  | @sigwait sig hpc hsig =>
    have h1 := card_askers_erase hsig cmd
    have h2 : (if (Pc.lookup sig 0).starts cmd = true then 1 else 0) ≤ if sig.cmd = some cmd then 1 else 0 := by
      split
      · next hst => rw [if_pos (cmd_of_found (eq_of_beq hst))]
      · exact Nat.zero_le _
    simp only
    omega
  | next hpc hi hne => simpa [hpc, Pc.starts, found_next hi hne] using hc
  | handler hpc hi =>
    rw [hpc] at hc
    simp only [starts_start]
    simpa [Pc.starts, found_handler hi] using hc
  | unknown hpc hi => simpa [hpc, Pc.starts, found_unknown hi] using hc
  | collect hpc hp => exact hc
  | collected hpc hempty => simpa [hpc, Pc.starts] using hc
  | rearm hpc => simpa [hpc, Pc.starts] using hc
  | adopt hp => exact hc
  | die hp => simpa using hsend .sigchld
  | send sig => simpa using hsend sig
  | fire ht => simpa using hsend .sigalrm

theorem inv_step (hI : Inv before s) (h : Step s a s') : Inv before s' :=
  ⟨zombies_step hI h, timer_step hI h, owed_step hI h, count_step hI h⟩

/-- All this holds in every run. -/
theorem inv_reach (h : (sinit before).Reach s) : Inv before s := by
  refine Sys.Inductive.reach (I := Inv before) ⟨?_, fun s a s' hI hst => inv_step hI hst⟩ h
  rintro s ⟨hpc, hz, hswept, howed, hstarted, hasked⟩
  refine ⟨Or.inr (Or.inr (Or.inr ⟨hswept, hz.le⟩)), fun hw => ?_, fun cmd hc => ?_, fun cmd => ?_⟩
  · rw [hpc] at hw
    cases hw
  · rw [howed] at hc
    exact absurd hc (Finset.notMem_empty cmd)
  · have h1 := hstarted cmd
    have h2 := hasked cmd
    rw [hpc, h1, h2]
    cases cmd <;> simp [Pc.starts]

/-- In every run, whenever the process sleeps with nothing pending: the alarm is set; no child is a zombie, or those that are were so
before the signals were blocked, and no `sigreap` has been through yet; every command that was asked for has been started since, and none
more often than asked for. -/
theorem asleep (h : (sinit before).Reach s) (hpc : s.pc = .sigwait) (hp : s.pending = ∅) :
    s.timer = true ∧ (s.zombies = ∅ ∨ s.swept = false ∧ s.zombies ⊆ before) ∧ s.owed = ∅ ∧
      ∀ cmd, s.started cmd ≤ s.asked cmd := by
  have hI := inv_reach h
  refine ⟨?_, ?_, ?_, fun cmd => ?_⟩
  · simpa [hp] using hI.timer hpc
  · simpa [hp, hpc, Pc.reaps] using hI.zombies
  · refine Finset.eq_empty_of_forall_notMem fun cmd hc => ?_
    simpa [hp, hpc, Pc.starts] using hI.owed cmd hc
  · have := hI.count cmd
    omega

/-! ## It always falls asleep -/

/-- How much the process has still to do: its pending signals, the zombies, and what is left of the pass. -/
def work (s : State) : Nat :=
  10 * s.pending.card + s.zombies.card +
    match s.pc with
    | .sigwait => 0
    | .alarm => 1
    | .fork _ | .rearm => 2
    | .waitpid => 3
    | .lookup _ i => 4 + (4 - i)

/-- Each step of its own does some of it. -/
theorem work_lt (h : Step s .own s') : work s' < work s := by
  cases h with
  | fork p hpc hp => simp [work, State.start, hpc]
  | forkFails hpc => simp [work, State.start, hpc]
  | alarm hpc => simp [work, hpc]
  | sigwait hpc hsig =>
    have := Finset.card_erase_add_one hsig
    simp only [work, hpc]
    omega
  | next hpc hi hne =>
    have hlt := (List.getElem?_eq_some_iff.mp hi).1
    simp only [sigmap, List.length_cons, List.length_nil] at hlt
    simp only [work, hpc]
    omega
  | @handler _ _ f hpc hi => cases f <;> simp only [work, hpc, Handler.start] <;> omega
  | unknown hpc hi =>
    simp only [work, hpc]
    omega
  | collect hpc hp =>
    have := Finset.card_erase_add_one hp
    simp only [work]
    omega
  | collected hpc hempty => simp [work, hpc]
  | rearm hpc => simp [work, hpc]

/-- A process without a step is asleep. -/
theorem asleep_of_stuck (h : ∀ s', ¬ Step s .own s') : s.pc = .sigwait ∧ s.pending = ∅ := by
  cases hpc : s.pc with
  | fork cmd => exact absurd (.forkFails hpc) (h _)
  | alarm => exact absurd (.alarm hpc) (h _)
  | sigwait => exact ⟨rfl, Finset.eq_empty_of_forall_notMem fun sig hsig => h _ (.sigwait hpc hsig)⟩
  | lookup sig i =>
    exfalso
    cases hi : sigmap[i]? with
    | none => exact h _ (.unknown hpc hi)
    | some entry =>
      obtain ⟨sig', f⟩ := entry
      by_cases he : sig' = sig
      · subst he
        exact h _ (.handler hpc hi)
      · exact h _ (.next hpc hi he)
  | waitpid =>
    exfalso
    rcases s.zombies.eq_empty_or_nonempty with hz | ⟨p, hp⟩
    · exact h _ (.collected hpc hz)
    · exact h _ (.collect hpc hp)
  | rearm => exact absurd (.rearm hpc) (h _)

/-- `sigreap` has looked or will look. -/
def Due (s : State) : Prop := s.zombies = ∅ ∨ .sigchld ∈ s.pending ∨ .sigalrm ∈ s.pending ∨ s.pc.reaps = true

/-- What is due stays due until it is done. -/
theorem due_step (hd : Due s) (h : Step s .own s') : Due s' := by
  unfold Due at *
  cases h with
  | fork p hpc hp => simpa [State.start, hpc, Pc.reaps] using hd
  | forkFails hpc => simpa [State.start, hpc, Pc.reaps] using hd
  | alarm hpc => simpa [hpc, Pc.reaps] using hd
  | @sigwait sig hpc hsig =>
    by_cases hr : found sig 0 = some .sigreap
    · exact Or.inr (Or.inr (Or.inr (beq_iff_eq.mpr hr)))
    · have h1 : sig ≠ .sigchld := fun e => hr (e ▸ rfl)
      have h2 : sig ≠ .sigalrm := fun e => hr (e ▸ rfl)
      simpa [hpc, Pc.reaps, hr, Ne.symm h1, Ne.symm h2] using hd
  | next hpc hi hne => simpa [hpc, Pc.reaps, found_next hi hne] using hd
  | handler hpc hi =>
    rw [hpc] at hd
    simp only [reaps_start]
    simpa [Pc.reaps, found_handler hi] using hd
  | unknown hpc hi => simpa [hpc, Pc.reaps, found_unknown hi] using hd
  | collect hpc hp => exact Or.inr (Or.inr (Or.inr (by rw [hpc]; rfl)))
  | collected hpc hempty => exact Or.inl hempty
  | rearm hpc => simpa [hpc, Pc.reaps] using hd

/-- The steps of the process while nobody else takes any. -/
def alone (before : Finset Nat) : Sys State Act := (sinit before).guard fun _ a => a = .own

theorem due_path (hd : Due s) (h : (alone before).Path s s') : Due s' := by
  induction h with
  | refl => exact hd
  | tail _ hst ih =>
    obtain ⟨a, rfl, hst⟩ := hst
    exact due_step ih hst

/-- From every state of every run, the process falls asleep again while nobody else takes a step: it cannot go on for ever, it has a way
to the end, and at each end it sleeps with nothing pending, the alarm set and no command owed. When it was to look for zombies, because
of a child or because the alarm had gone off, then there is none. -/
theorem settles (h : (sinit before).Reach s) :
    (¬ ∃ f : Nat → State, f 0 = s ∧ ∀ i, Step (f i) .own (f (i + 1))) ∧
    (∃ s', (alone before).Path s s' ∧ ∀ s'', ¬ Step s' .own s'') ∧
    ∀ s', (alone before).Path s s' → (∀ s'', ¬ Step s' .own s'') →
      s'.pc = .sigwait ∧ s'.pending = ∅ ∧ s'.timer = true ∧ s'.owed = ∅ ∧
        (.sigchld ∈ s.pending ∨ .sigalrm ∈ s.pending → s'.zombies = ∅) := by
  have hwork : ∀ t a t', (alone before).step t a t' → work t' < work t := by
    rintro t a t' ⟨rfl, hst⟩
    exact work_lt hst
  refine ⟨?_, ?_, fun s' hpath hstuck => ?_⟩
  · rintro ⟨f, -, hf⟩
    exact Sys.no_infinite_run_of_wellFounded wellFounded_lt work hwork ⟨f, fun i => ⟨.own, rfl, hf i⟩⟩
  · obtain ⟨s', hpath, hend⟩ := Sys.exists_end_of_wellFounded wellFounded_lt work hwork s
    exact ⟨s', hpath, fun s'' hst => hend .own s'' ⟨rfl, hst⟩⟩
  · obtain ⟨hpc, hp⟩ := asleep_of_stuck hstuck
    obtain ⟨htimer, -, howed, -⟩ := asleep (h.path (Sys.Path.of_guard hpath)) hpc hp
    refine ⟨hpc, hp, htimer, howed, fun hdue => ?_⟩
    have hd : Due s := hdue.elim (fun hc => Or.inr (Or.inl hc)) (fun hc => Or.inr (Or.inr (Or.inl hc)))
    simpa [Due, hp, hpc, Pc.reaps] using due_path hd hpath

/-- A start with the alarm off and one child from before. -/
def oneChild : State where
  pc := .fork .rcinitcmd
  pending := ∅
  timer := false
  alive := {5}
  zombies := ∅
  swept := false
  owed := ∅
  asked cmd := if cmd = .rcinitcmd then 1 else 0
  started _ := 0

theorem oneChild_init : (sinit ∅).init oneChild :=
  ⟨rfl, rfl, rfl, rfl, fun _ => rfl, fun cmd => by simp [oneChild, askers]⟩

/-- The first command is started, and the process sleeps. -/
theorem asleep_one : ∃ s, (sinit ∅).Reach s ∧ s.pc = .sigwait ∧ s.timer = true := by
  have hfork : Step oneChild .own _ := .fork 7 rfl (by decide)
  have h1 := Sys.Reach.step (S := sinit ∅) .own (.init oneChild_init) hfork
  have h2 := Sys.Reach.step (S := sinit ∅) .own h1 (.alarm rfl)
  exact ⟨_, h2, rfl, (asleep h2 rfl rfl).1⟩

/-- The child dies: the process has a way to fall asleep, and then the child is not a zombie. -/
theorem settles_one : ∃ s s' : State, .sigchld ∈ s.pending ∧ 5 ∈ s.zombies ∧ (alone ∅).Path s s' ∧
    (∀ s'', ¬ Step s' .own s'') ∧ s'.zombies = ∅ := by
  have hdie : Step oneChild .env _ := .die (p := 5) (by decide)
  have h1 := Sys.Reach.step (S := sinit ∅) .env (.init oneChild_init) hdie
  obtain ⟨s', hpath, hstuck⟩ := (settles h1).2.1
  exact ⟨_, s', by simp, by simp, hpath, hstuck, ((settles h1).2.2 s' hpath hstuck).2.2.2.2 (Or.inl (by simp))⟩

end OsLabs.Sinit
