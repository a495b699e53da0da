import OsLabs.Sieve.Model

/-!
# The invariant of the pipeline

Every process has exactly the ends open that its place needs, so pipe `j + 1` loses its last writer when filter `j` ends; and a filter
ends only at the end of its own pipe. What was written to pipe `k` is therefore always a beginning of `stage N k`, and all of it once
nobody can write there any more (`Inv.written_final`); the reader of a pipe is there as long as something is to be written
(`Inv.reader`).
-/

namespace OsLabs.Sieve

/-! ## The ends that are open -/

/-- The ends that `main` has open. -/
def MainPc.fds : MainPc → Finset End
  | .forkGen | .closeWrite => {.rd 0, .wr 0}
  | .forkChain | .closeRead => {.rd 0}
  | _ => ∅

/-- The ends that the generator has open. -/
def GenPc.fds : GenPc → Finset End
  | .closeRead => {.rd 0, .wr 0}
  | .loop _ | .exit => {.wr 0}
  | _ => ∅

/-- The ends that `filter_chain` has open. -/
def ChainPc.fds : ChainPc → Finset End
  | .read j | .print j _ | .makePipe j _ | .exit j => {.rd j}
  | .fork j _ | .closeWrite j => {.rd j, .rd (j + 1), .wr (j + 1)}
  | .closeRead j => {.rd j, .rd (j + 1)}
  | _ => ∅

/-- The ends that filter `k` has open; after `CloseWriteEnd(in)` perhaps fewer. -/
def FilterPc.fds (k : Nat) : FilterPc → Finset End
  | .closeRead _ => {.rd k, .rd (k + 1), .wr (k + 1)}
  | .read _ | .write _ _ | .closeIn | .exit => {.rd k, .wr (k + 1)}
  | _ => ∅

/-- The generator still has its end of the pipe. -/
def GenPc.writes : GenPc → Bool
  | .closeRead | .loop _ | .exit => true
  | _ => false

/-- A filter may still write, and still reads. -/
def FilterPc.runs : FilterPc → Bool
  | .closeRead _ | .read _ | .write _ _ | .closeIn => true
  | _ => false

/-- The filters that `filter_chain` has forked are those below this number. -/
def ChainPc.forks : ChainPc → Nat
  | .unborn => 0
  | .read j | .print j _ | .makePipe j _ | .fork j _ | .exit j | .zombie j | .reaped j => j
  | .closeWrite j | .closeRead j => j + 1

/-- The children that `main` has waited for. -/
def State.reaped (s : State) : Nat :=
  (match s.gen.pc with | .reaped => 1 | _ => 0) + match s.chain.pc with | .reaped _ => 1 | _ => 0

/-- Every process has the ends open that its place says. -/
structure Ends (s : State) : Prop where
  main : s.main.fds = s.main.pc.fds
  gen : s.gen.fds = s.gen.pc.fds
  chain : s.chain.fds = s.chain.pc.fds
  sub : ∀ k, (s.filter k).fds ⊆ (s.filter k).pc.fds k
  filter : ∀ k, (s.filter k).pc.runs = true → (s.filter k).fds = (s.filter k).pc.fds k

/-! ## What was written and read -/

/-- What has been written to a pipe. -/
def State.written (s : State) (j : Nat) : List Nat := s.input j ++ s.pipe j

/-- How far the generator is. -/
def GenOk (N : Nat) (pc : GenPc) (out : List Nat) : Prop :=
  match pc with
  | .unborn | .closeRead => out = []
  | .loop n => 2 ≤ n ∧ (n ≤ N + 1 ∨ n = 2) ∧ out = List.range' 2 (n - 2)
  | .exit | .zombie | .reaped => out = stage N 0

/-- How far filter `k` is: what it has read, and what it has written. -/
def FilterOk (N k : Nat) (pc : FilterPc) (inp out : List Nat) : Prop :=
  match pc with
  | .unborn => out = []
  | .closeRead prime | .read prime => ∃ xs, inp = prime :: xs ∧ out = sift prime xs
  | .write prime num => ∃ xs, inp = prime :: (xs ++ [num]) ∧ num % prime ≠ 0 ∧ out = sift prime xs
  | .closeIn | .exit | .zombie => stage N k ≠ [] ∧ inp = stage N k ∧ out = stage N (k + 1)

/-- How far `filter_chain` is. -/
def ChainOk (N : Nat) (pc : ChainPc) (input : Nat → List Nat) (printed : List Nat) : Prop :=
  match pc with
  | .unborn => input 0 = [] ∧ printed = []
  | .read j => input j = [] ∧ printed = firstPrimes j
  | .print j prime => input j = [prime] ∧ printed = firstPrimes j
  | .makePipe j prime | .fork j prime => input j = [prime] ∧ printed = firstPrimes (j + 1)
  | .closeWrite j | .closeRead j => input (j + 1) = [] ∧ printed = firstPrimes (j + 1)
  | .exit j | .zombie j | .reaped j => stage N j = [] ∧ input j = [] ∧ printed = firstPrimes j

/-- How far `main` is, as to what it has forked and waited for. -/
def MainOk (pc : MainPc) (gen : GenPc) (chain : ChainPc) (reaped : Nat) : Prop :=
  match pc with
  | .makePipe | .forkGen => gen = .unborn ∧ chain = .unborn
  | .closeWrite | .forkChain => gen ≠ .unborn ∧ chain = .unborn ∧ reaped = 0
  | .closeRead => gen ≠ .unborn ∧ chain ≠ .unborn ∧ reaped = 0
  | .wait n => gen ≠ .unborn ∧ chain ≠ .unborn ∧ n + reaped = 2
  | .ended => gen ≠ .unborn ∧ chain ≠ .unborn ∧ reaped = 2

/-- The invariant. -/
structure Inv (N : Nat) (s : State) : Prop where
  ends : Ends s
  main : MainOk s.main.pc s.gen.pc s.chain.pc s.reaped
  gen : GenOk N s.gen.pc (s.written 0)
  chain : ChainOk N s.chain.pc s.input s.printed
  born : ∀ k, (s.filter k).pc = .unborn ↔ s.chain.pc.forks ≤ k
  filter : ∀ k, FilterOk N k (s.filter k).pc (s.input k) (s.written (k + 1))

variable {N : Nat} {s : State}

/-- What was written to a pipe is a beginning of its stage. -/
theorem Inv.written_prefix (hI : Inv N s) (k : Nat) : s.written k <+: stage N k := by
  induction k with
  | zero =>
    have h := hI.gen
    unfold GenOk at h
    split at h
    · rw [h]
      exact List.nil_prefix
    · rw [h]
      exact List.nil_prefix
    · obtain ⟨h2, hn, h⟩ := h
      rw [h, stage_zero]
      exact range'_prefix (by omega)
    · rw [h]
    · rw [h]
    · rw [h]
  | succ k ih =>
    have h := hI.filter k
    have hin : s.input k <+: stage N k := (List.prefix_append _ _).trans ih
    unfold FilterOk at h
    split at h
    · rw [h]
      exact List.nil_prefix
    · obtain ⟨xs, h1, h2⟩ := h
      rw [h1] at hin
      rw [h2]
      exact (sift_prefix_stage hin).2
    · obtain ⟨xs, h1, h2⟩ := h
      rw [h1] at hin
      rw [h2]
      exact (sift_prefix_stage hin).2
    · obtain ⟨xs, h1, hnum, h2⟩ := h
      rw [h1] at hin
      rw [h2]
      exact (sift_mono (List.prefix_append _ _)).trans (sift_prefix_stage hin).2
    · rw [h.2.2]
    · rw [h.2.2]
    · rw [h.2.2]

/-- And so is what was read from it. -/
theorem Inv.input_stage (hI : Inv N s) (k : Nat) : s.input k <+: stage N k := (List.prefix_append _ _).trans (hI.written_prefix k)

/-! ## Writers and readers -/

/-- A generator that writes has its end of the pipe open. -/
theorem Ends.gen_writes (hE : Ends s) (h : s.gen.pc.writes = true) : s.Open (.wr 0) := by
  refine Or.inr (Or.inl ?_)
  rw [hE.gen]
  cases hg : s.gen.pc with
  | closeRead | loop _ | exit => simp [GenPc.fds]
  | unborn | zombie | reaped =>
    rw [hg] at h
    cases h

/-- A filter that runs has its two pipes open. -/
theorem Ends.filter_runs (hE : Ends s) {k : Nat} (h : (s.filter k).pc.runs = true) : s.Open (.rd k) ∧ s.Open (.wr (k + 1)) := by
  have hfds := hE.filter k h
  have hmem : .rd k ∈ (s.filter k).fds ∧ .wr (k + 1) ∈ (s.filter k).fds := by
    rw [hfds]
    cases hf : (s.filter k).pc with
    | closeRead _ | read _ | write _ _ | closeIn => simp [FilterPc.fds]
    | unborn | exit | zombie =>
      rw [hf] at h
      cases h
  exact ⟨Or.inr (Or.inr (Or.inr ⟨k, hmem.1⟩)), Or.inr (Or.inr (Or.inr ⟨k, hmem.2⟩))⟩

/-- A filter that was forked and does not run has read its whole stage and written the next one. -/
theorem FilterOk.ended {k : Nat} {pc : FilterPc} {inp out : List Nat} (h : FilterOk N k pc inp out) (hu : pc ≠ .unborn)
    (hr : pc.runs = false) : inp = stage N k ∧ out = stage N (k + 1) := by
  cases pc with
  | unborn => exact absurd rfl hu
  | closeRead _ | read _ | write _ _ | closeIn => cases hr
  | exit | zombie => exact h.2

/-- A filter that was forked has read a number, or `filter_chain` has for it. -/
theorem FilterOk.input_ne_nil {k : Nat} {pc : FilterPc} {inp out : List Nat} (h : FilterOk N k pc inp out) (hu : pc ≠ .unborn) :
    inp ≠ [] := by
  cases pc with
  | unborn => exact absurd rfl hu
  | closeRead _ | read _ | write _ _ =>
    obtain ⟨xs, rfl, -⟩ := h
    exact List.cons_ne_nil _ _
  | closeIn | exit | zombie =>
    obtain ⟨hne, rfl, -⟩ := h
    exact hne

/-- The generator is there before `filter_chain`. -/
theorem Inv.gen_born (hI : Inv N s) (hc : s.chain.pc ≠ .unborn) : s.gen.pc ≠ .unborn := by
  have h := hI.main
  unfold MainOk at h
  split at h
  · exact absurd h.2 hc
  · exact absurd h.2 hc
  · exact h.1
  · exact h.1
  · exact h.1
  · exact h.1
  · exact h.1

/-- When nobody can write to a pipe any more, its whole stage has been written. -/
theorem Inv.written_final (hI : Inv N s) {j : Nat} (hc : s.chain.pc ≠ .unborn) (hj : j ≤ s.chain.pc.forks)
    (hw : ¬ s.Open (.wr j)) : s.written j = stage N j := by
  cases j with
  | zero =>
    have hg := hI.gen
    have hborn := hI.gen_born hc
    have hwr : s.gen.pc.writes = false := by
      by_contra h
      exact hw (hI.ends.gen_writes (by simpa using h))
    cases hp : s.gen.pc with
    | unborn => exact absurd hp hborn
    | closeRead | loop _ | exit =>
      rw [hp] at hwr
      cases hwr
    | zombie | reaped =>
      rw [hp] at hg
      exact hg
  | succ k =>
    have hu : (s.filter k).pc ≠ .unborn := by
      intro h
      have := (hI.born k).mp h
      omega
    have hr : (s.filter k).pc.runs = false := by
      by_contra h
      exact hw (hI.ends.filter_runs (by simpa using h)).2
    exact ((hI.filter k).ended hu hr).2

/-- A pipe has a reader, unless its whole stage has been read. -/
theorem Inv.reader (hI : Inv N s) {j : Nat} (hg : s.gen.pc ≠ .unborn) (hj : j ≤ s.chain.pc.forks) :
    s.Open (.rd j) ∨ s.input j = stage N j := by
  by_cases hlt : j < s.chain.pc.forks
  · have hu : (s.filter j).pc ≠ .unborn := by
      intro h
      have := (hI.born j).mp h
      omega
    by_cases hr : (s.filter j).pc.runs = true
    · exact Or.inl (hI.ends.filter_runs hr).1
    · exact Or.inr ((hI.filter j).ended hu (by simpa using hr)).1
  · have hje : j = s.chain.pc.forks := by omega
    have hchain := hI.chain
    have hfds := hI.ends.chain
    have inChain : .rd j ∈ s.chain.pc.fds → s.Open (.rd j) := by
      intro h
      exact Or.inr (Or.inr (Or.inl (hfds ▸ h)))
    cases hp : s.chain.pc with
    | unborn =>
      rw [hp] at hje
      have hj0 : j = 0 := hje
      have hm := hI.main
      rw [hp] at hm
      refine Or.inl (Or.inl ?_)
      rw [hI.ends.main, hj0]
      cases hmain : s.main.pc with
      | makePipe | forkGen =>
        rw [hmain] at hm
        exact absurd hm.1 hg
      | closeWrite | forkChain => simp [MainPc.fds]
      | closeRead | wait _ | ended =>
        rw [hmain] at hm
        exact absurd rfl hm.2.1
    | read i | print i _ | makePipe i _ | fork i _ | closeWrite i | closeRead i =>
      rw [hp] at hje inChain
      refine Or.inl (inChain ?_)
      subst hje
      simp [ChainPc.fds, ChainPc.forks]
    | exit i | zombie i | reaped i =>
      rw [hp] at hje hchain
      subst hje
      obtain ⟨h1, h2, -⟩ := hchain
      exact Or.inr (h2.trans h1.symm)

/-- A number that is still to be written finds a reader. -/
theorem Inv.reader_of_lt (hI : Inv N s) {j : Nat} (hg : s.gen.pc ≠ .unborn) (hj : j ≤ s.chain.pc.forks)
    (hlt : (s.written j).length < (stage N j).length) : s.Open (.rd j) := by
  rcases hI.reader hg hj with h | h
  · exact h
  · have hlen : (s.written j).length = (s.input j).length + (s.pipe j).length := List.length_append
    rw [h] at hlen
    omega

/-! ## What a step keeps -/

/-- `main` cares only about which children there are and which it has waited for. -/
theorem MainOk.congr {pc : MainPc} {g g' : GenPc} {c c' : ChainPc} {r : Nat} (h : MainOk pc g c r)
    (hg : g = .unborn ↔ g' = .unborn) (hc : c = .unborn ↔ c' = .unborn) : MainOk pc g' c' r := by
  unfold MainOk at h ⊢
  simp only [ne_eq, hg, hc] at h ⊢
  exact h

/-- `filter_chain` cares only about the pipe it has come to. -/
theorem ChainOk.congr {pc : ChainPc} {input input' : Nat → List Nat} {printed : List Nat} (h : ChainOk N pc input printed)
    (he : input' pc.forks = input pc.forks) : ChainOk N pc input' printed := by
  cases pc with
  | unborn => exact ⟨he.trans h.1, h.2⟩
  | read j | print j p | makePipe j p | fork j p | closeWrite j | closeRead j => exact ⟨he.trans h.1, h.2⟩
  | exit j | zombie j | reaped j => exact ⟨h.1, he.trans h.2.1, h.2.2⟩

/-- Reading from a pipe does not change what was written. -/
theorem written_read {j n : Nat} {rest : List Nat} (hp : s.pipe j = n :: rest) (i : Nat) :
    Function.update s.input j (s.input j ++ [n]) i ++ Function.update s.pipe j rest i = s.written i := by
  unfold State.written
  by_cases h : i = j
  · subst h
    rw [Function.update_self, Function.update_self, hp, List.append_assoc]
    rfl
  · rw [Function.update_of_ne h, Function.update_of_ne h]

/-- Writing to a pipe. -/
theorem written_write {j n : Nat} (i : Nat) :
    s.input i ++ Function.update s.pipe j (s.pipe j ++ [n]) i = if i = j then s.written i ++ [n] else s.written i := by
  unfold State.written
  by_cases h : i = j
  · subst h
    rw [Function.update_self, if_pos rfl, List.append_assoc]
  · rw [Function.update_of_ne h, if_neg h]

/-- What holds of the filters holds after one of them moved, if it holds of that one. -/
theorem forall_update {P : Nat → Proc FilterPc → Prop} {k : Nat} {p : Proc FilterPc} (h : ∀ j, P j (s.filter j)) (hp : P k p) :
    ∀ j, P j (Function.update s.filter k p j) := by
  intro j
  by_cases hj : j = k
  · subst hj
    rwa [Function.update_self]
  · rw [Function.update_of_ne hj]
    exact h j

/-- The ends when only a filter moved. -/
theorem Ends.setFilter (hE : Ends s) {k : Nat} {p : Proc FilterPc} (hsub : p.fds ⊆ p.pc.fds k)
    (hr : p.pc.runs = true → p.fds = p.pc.fds k) : Ends { s with filter := Function.update s.filter k p } :=
  ⟨hE.main, hE.gen, hE.chain, forall_update (P := fun j p => p.fds ⊆ p.pc.fds j) hE.sub hsub,
    forall_update (P := fun j p => p.pc.runs = true → p.fds = p.pc.fds j) hE.filter hr⟩

/-- A step of `main` keeps the invariant. -/
theorem inv_main {s' : State} {maxprime : Int} {mode : Mode} (hI : Inv N s) (hs : Step maxprime mode s s')
    (hm : s.main.pc ≠ s'.main.pc) : Inv N s' := by
  obtain ⟨hE, hmain, hgen, hchain, hborn, hfilter⟩ := hI
  have hmf := hE.main
  cases hs with
  | mainPipe h =>
    rw [h] at hmain
    exact ⟨⟨rfl, hE.gen, hE.chain, hE.sub, hE.filter⟩, hmain, hgen, hchain, hborn, hfilter⟩
  | forkGen h =>
    rw [h] at hmain hmf
    obtain ⟨hg, hc⟩ := hmain
    rw [hg] at hgen
    refine ⟨⟨hmf, hmf, hE.chain, hE.sub, hE.filter⟩, ⟨by simp, hc, ?_⟩, hgen, hchain, hborn, hfilter⟩
    simp [State.reaped, hc]
  | mainCloseWrite h =>
    rw [h] at hmain hmf
    refine ⟨⟨?_, hE.gen, hE.chain, hE.sub, hE.filter⟩, hmain, hgen, hchain, hborn, hfilter⟩
    simp only [Proc.close, hmf]
    decide
  | forkChain h =>
    rw [h] at hmain hmf
    obtain ⟨hg, hc, hr⟩ := hmain
    rw [hc] at hchain hborn
    refine ⟨⟨hmf, hE.gen, hmf, hE.sub, hE.filter⟩, ⟨hg, by simp, ?_⟩, hgen, ?_, hborn, hfilter⟩
    · simpa [State.reaped, hc] using hr
    · exact hchain
  | mainCloseRead h =>
    rw [h] at hmain hmf
    obtain ⟨hg, hc, hr⟩ := hmain
    refine ⟨⟨?_, hE.gen, hE.chain, hE.sub, hE.filter⟩, ⟨hg, hc, ?_⟩, hgen, hchain, hborn, hfilter⟩
    · simp only [Proc.close, hmf]
      decide
    · change 2 + s.reaped = 2
      omega
  | waitGen h hz =>
    rw [h] at hmain hmf
    obtain ⟨-, hc, hr⟩ := hmain
    have hgf := hE.gen
    rw [hz] at hgf hgen
    refine ⟨⟨hmf, hgf, hE.chain, hE.sub, hE.filter⟩, ⟨by simp, hc, ?_⟩, hgen, hchain, hborn, hfilter⟩
    simp [State.reaped, hz] at hr ⊢
    omega
  | waitChain h hz =>
    rw [h] at hmain hmf
    obtain ⟨hg, -, hr⟩ := hmain
    have hcf := hE.chain
    rw [hz] at hcf hchain hborn
    refine ⟨⟨hmf, hE.gen, hcf, hE.sub, hE.filter⟩, ⟨hg, by simp, ?_⟩, hgen, hchain, hborn, hfilter⟩
    simp [State.reaped, hz] at hr ⊢
    omega
  | mainExit h =>
    rw [h] at hmain
    obtain ⟨hg, hc, hr⟩ := hmain
    refine ⟨⟨rfl, hE.gen, hE.chain, hE.sub, hE.filter⟩, ⟨hg, hc, ?_⟩, hgen, hchain, hborn, hfilter⟩
    change s.reaped = 2
    omega
  | _ => exact absurd rfl hm

/-- A child of `main` that has been forked and not waited for. -/
def GenPc.live : GenPc → Bool
  | .unborn | .reaped => false
  | _ => true

@[inherit_doc GenPc.live]
def ChainPc.live : ChainPc → Bool
  | .unborn | .reaped _ => false
  | _ => true

/-- To `main` the generator only starts and is waited for. -/
theorem Inv.main_gen (hI : Inv N s) {p : Proc GenPc} (h : s.gen.pc.live = true) (hp : p.pc.live = true) :
    MainOk s.main.pc p.pc s.chain.pc (State.reaped { s with gen := p }) := by
  have hr : s.reaped = State.reaped { s with gen := p } := by
    unfold State.reaped
    congr 1
    cases hg : s.gen.pc <;> cases hg' : p.pc <;> simp_all [GenPc.live]
  have hmain := hI.main
  rw [hr] at hmain
  refine hmain.congr ?_ Iff.rfl
  constructor
  · intro e
    rw [e] at h
    cases h
  · intro e
    rw [e] at hp
    cases hp

/-- And so does `filter_chain`. -/
theorem Inv.main_chain (hI : Inv N s) {p : Proc ChainPc} (h : s.chain.pc.live = true) (hp : p.pc.live = true) :
    MainOk s.main.pc s.gen.pc p.pc (State.reaped { s with chain := p }) := by
  have hr : s.reaped = State.reaped { s with chain := p } := by
    unfold State.reaped
    congr 1
    cases hg : s.chain.pc <;> cases hg' : p.pc <;> simp_all [ChainPc.live]
  have hmain := hI.main
  rw [hr] at hmain
  refine hmain.congr Iff.rfl ?_
  constructor
  · intro e
    rw [e] at h
    cases h
  · intro e
    rw [e] at hp
    cases hp

/-- A step of the generator keeps the invariant. -/
theorem inv_gen {s' : State} {maxprime : Int} {mode : Mode} (hI : Inv maxprime.toNat s) (hs : Step maxprime mode s s')
    (hm : s.main.pc = s'.main.pc) (hg : s.gen.pc ≠ s'.gen.pc) : Inv maxprime.toNat s' := by
  have hI' := hI
  obtain ⟨hE, hmain, hgen, hchain, hborn, hfilter⟩ := hI
  have hgf := hE.gen
  cases hs with
  | forkGen h | waitGen h hz =>
    rw [h] at hm
    cases hm
  | genCloseRead h =>
    rw [h] at hgf hgen
    refine ⟨⟨hE.main, ?_, hE.chain, hE.sub, hE.filter⟩, hI'.main_gen (by rw [h]; rfl) rfl,
      ⟨Nat.le_refl 2, Or.inr rfl, hgen⟩, hchain, hborn, hfilter⟩
    simp only [Proc.close, hgf]
    decide
  | @genWrite n h hn hr =>
    rw [h] at hgf hgen
    obtain ⟨h2, hle, hout⟩ := hgen
    have hw := written_write (s := s) (j := 0) (n := n)
    refine ⟨⟨hE.main, hgf, hE.chain, hE.sub, hE.filter⟩, hI'.main_gen (by rw [h]; rfl) rfl,
      ⟨by omega, Or.inl (by omega), ?_⟩, hchain, hborn, fun k => ?_⟩
    · change s.input 0 ++ _ = _
      rw [hw, if_pos rfl, hout, show n + 1 - 2 = n - 2 + 1 by omega, List.range'_1_concat, show 2 + (n - 2) = n by omega]
    · change FilterOk _ k (s.filter k).pc (s.input k) (s.input (k + 1) ++ _)
      rw [hw, if_neg (by omega)]
      exact hfilter k
  | @genKilled n h hn hr =>
    rw [h] at hgen
    obtain ⟨h2, hle, hout⟩ := hgen
    refine absurd (hI'.reader_of_lt (by simp [h]) (Nat.zero_le _) ?_) hr
    rw [hout, stage_zero, List.length_range', List.length_range']
    omega
  | @genDone n h hn =>
    rw [h] at hgf hgen
    obtain ⟨h2, hle, hout⟩ := hgen
    refine ⟨⟨hE.main, hgf, hE.chain, hE.sub, hE.filter⟩, hI'.main_gen (by rw [h]; rfl) rfl, ?_, hchain, hborn, hfilter⟩
    change s.written 0 = stage _ 0
    rw [hout, stage_zero]
    congr 1
    omega
  | genExit h =>
    rw [h] at hgen
    exact ⟨⟨hE.main, rfl, hE.chain, hE.sub, hE.filter⟩, hI'.main_gen (by rw [h]; rfl) rfl, hgen, hchain, hborn, hfilter⟩
  | _ => exact absurd rfl hg

/-- A step of `filter_chain` keeps the invariant. -/
theorem inv_chain {s' : State} {maxprime : Int} {mode : Mode} (hI : Inv N s) (hs : Step maxprime mode s s')
    (hm : s.main.pc = s'.main.pc) (hc : s.chain.pc ≠ s'.chain.pc) : Inv N s' := by
  have hI' := hI
  obtain ⟨hE, hmain, hgen, hchain, hborn, hfilter⟩ := hI
  have hcf := hE.chain
  cases hs with
  | forkChain h | waitChain h hz =>
    rw [h] at hm
    cases hm
  | @chainRead j n rest h hp =>
    rw [h] at hcf hchain hborn
    have hw := written_read hp
    refine ⟨⟨hE.main, hE.gen, hcf, hE.sub, hE.filter⟩, hI'.main_chain (by rw [h]; rfl) rfl, ?_, ?_, hborn, fun k => ?_⟩
    · change GenOk _ s.gen.pc (_ ++ _)
      rw [hw]
      exact hgen
    · refine ⟨?_, hchain.2⟩
      change Function.update s.input j (s.input j ++ [n]) j = [n]
      rw [Function.update_self, hchain.1]
      rfl
    · change FilterOk _ k (s.filter k).pc (Function.update s.input j (s.input j ++ [n]) k) (_ ++ _)
      rw [hw]
      by_cases hkj : k = j
      · subst hkj
        have hu := (hborn k).mpr (Nat.le_refl k)
        have hk := hfilter k
        rw [hu] at hk ⊢
        exact hk
      · rw [Function.update_of_ne hkj]
        exact hfilter k
  | @chainEof j h hp hw =>
    have hfinal := hI'.written_final (by simp [h]) (by rw [h]; exact Nat.le_refl j) hw
    rw [h] at hcf hchain hborn
    refine ⟨⟨hE.main, hE.gen, hcf, hE.sub, hE.filter⟩, hI'.main_chain (by rw [h]; rfl) rfl, hgen, ⟨?_, hchain⟩, hborn, hfilter⟩
    rw [← hfinal]
    unfold State.written
    rw [hchain.1, hp]
    rfl
  | @chainPrint j prime h =>
    rw [h] at hcf hchain hborn
    refine ⟨⟨hE.main, hE.gen, hcf, hE.sub, hE.filter⟩, hI'.main_chain (by rw [h]; rfl) rfl, hgen, ⟨hchain.1, ?_⟩, hborn, hfilter⟩
    have hin : s.input j <+: stage N j := (List.prefix_append _ _).trans (hI'.written_prefix j)
    rw [hchain.1] at hin
    rw [hchain.2, (sift_prefix_stage hin).1]
    simp [firstPrimes, List.range_succ]
  | @chainPipe j prime h =>
    rw [h] at hcf hchain hborn
    refine ⟨⟨hE.main, hE.gen, ?_, hE.sub, hE.filter⟩, hI'.main_chain (by rw [h]; rfl) rfl, hgen, hchain, hborn, hfilter⟩
    simp only [hcf]
    rfl
  | @chainFork j prime h =>
    rw [h] at hcf hchain hborn
    have hj : FilterOk N j .unborn (s.input j) (s.written (j + 1)) := by
      have := hfilter j
      rwa [(hborn j).mpr (Nat.le_refl j)] at this
    have hj : s.written (j + 1) = [] := hj
    refine ⟨⟨hE.main, hE.gen, hcf, ?_, ?_⟩, hI'.main_chain (by rw [h]; rfl) rfl, hgen, ⟨?_, hchain.2⟩, fun k => ?_, fun k => ?_⟩
    · exact forall_update (P := fun j p => p.fds ⊆ p.pc.fds j) hE.sub hcf.subset
    · exact forall_update (P := fun j p => p.pc.runs = true → p.fds = p.pc.fds j) hE.filter fun _ => hcf
    · exact (List.append_eq_nil_iff.mp hj).1
    · change (Function.update s.filter j _ k).pc = _ ↔ j + 1 ≤ k
      by_cases hkj : k = j
      · subst hkj
        rw [Function.update_self]
        simp
      · rw [Function.update_of_ne hkj, hborn k]
        change j ≤ k ↔ _
        omega
    · change FilterOk N k (Function.update s.filter j _ k).pc (s.input k) (s.written (k + 1))
      by_cases hkj : k = j
      · subst hkj
        rw [Function.update_self]
        exact ⟨[], hchain.1, hj⟩
      · rw [Function.update_of_ne hkj]
        exact hfilter k
  | @chainCloseWrite j h =>
    rw [h] at hcf hchain hborn
    refine ⟨⟨hE.main, hE.gen, ?_, hE.sub, hE.filter⟩, hI'.main_chain (by rw [h]; rfl) rfl, hgen, hchain, hborn, hfilter⟩
    simp only [Proc.close, hcf]
    ext e
    cases e with
    | rd i => simp [ChainPc.fds]
    | wr i => simp [ChainPc.fds]
  | @chainCloseRead j h =>
    rw [h] at hcf hchain hborn
    refine ⟨⟨hE.main, hE.gen, ?_, hE.sub, hE.filter⟩, hI'.main_chain (by rw [h]; rfl) rfl, hgen, hchain, hborn, hfilter⟩
    simp only [Proc.close, hcf]
    ext e
    simp [ChainPc.fds]
  | @chainExit j h =>
    rw [h] at hcf hchain hborn
    exact ⟨⟨hE.main, hE.gen, rfl, hE.sub, hE.filter⟩, hI'.main_chain (by rw [h]; rfl) rfl, hgen, hchain, hborn, hfilter⟩
  | _ => exact absurd rfl hc

/-- Filter `k` moves, having read and written what its place says: the invariant is kept. -/
theorem Inv.setFilter (hI : Inv N s) {k : Nat} (hb : k < s.chain.pc.forks) {p : Proc FilterPc} (hu : p.pc ≠ .unborn)
    (hsub : p.fds ⊆ p.pc.fds k) (hr : p.pc.runs = true → p.fds = p.pc.fds k) {pipe input : Nat → List Nat}
    {stdout : List (List Char)} (hin : ∀ i, i ≠ k → input i = s.input i)
    (hout : ∀ i, i ≠ k + 1 → input i ++ pipe i = s.written i) (hp : FilterOk N k p.pc (input k) (input (k + 1) ++ pipe (k + 1))) :
    Inv N { s with filter := Function.update s.filter k p, pipe := pipe, input := input, stdout := stdout } := by
  obtain ⟨hE, hmain, hgen, hchain, hborn, hfilter⟩ := hI
  have hE' := hE.setFilter hsub hr
  refine ⟨⟨hE'.main, hE'.gen, hE'.chain, hE'.sub, hE'.filter⟩, hmain, ?_, hchain.congr (hin _ (by omega)), fun j => ?_, fun j => ?_⟩
  · change GenOk N s.gen.pc (input 0 ++ pipe 0)
    rw [hout 0 (by omega)]
    exact hgen
  · change (Function.update s.filter k p j).pc = _ ↔ _
    by_cases hjk : j = k
    · subst hjk
      rw [Function.update_self]
      constructor
      · intro e
        exact absurd e hu
      · intro h
        change s.chain.pc.forks ≤ j at h
        omega
    · rw [Function.update_of_ne hjk]
      exact hborn j
  · change FilterOk N j (Function.update s.filter k p j).pc (input j) (input (j + 1) ++ pipe (j + 1))
    by_cases hjk : j = k
    · subst hjk
      rw [Function.update_self]
      exact hp
    · rw [Function.update_of_ne hjk, hin j hjk, hout (j + 1) (by omega)]
      exact hfilter j

/-- A filter that is not unborn was forked. -/
theorem Inv.lt_forks (hI : Inv N s) {k : Nat} (h : (s.filter k).pc ≠ .unborn) : k < s.chain.pc.forks := by
  by_contra hk
  exact h ((hI.born k).mpr (by omega))

/-- A filter was forked by `filter_chain`. -/
theorem Inv.chain_born (hI : Inv N s) {k : Nat} (h : (s.filter k).pc ≠ .unborn) : s.chain.pc ≠ .unborn := by
  intro hc
  have := hI.lt_forks h
  rw [hc] at this
  exact Nat.not_lt_zero _ this

/-- A filter that is to write has a reader: what it has not written yet is missing from the next stage. -/
theorem Inv.filter_reader (hI : Inv N s) {k prime num : Nat} (h : (s.filter k).pc = .write prime num) : s.Open (.rd (k + 1)) := by
  have hk := hI.filter k
  have hb := hI.lt_forks (k := k) (by simp [h])
  rw [h] at hk
  obtain ⟨xs, hinp, hnum, hout⟩ := hk
  have hin := hI.input_stage k
  rw [hinp] at hin
  have hpre := (sift_prefix_stage hin).2
  rw [sift_snoc_of_ne xs hnum, ← hout] at hpre
  have hlen := hpre.length_le
  rw [List.length_append] at hlen
  exact hI.reader_of_lt (hI.gen_born (hI.chain_born (k := k) (by simp [h]))) hb hlen

/-- A step of a filter keeps the invariant. -/
theorem inv_filter {s' : State} {maxprime : Int} {mode : Mode} (hI : Inv N s) (hs : Step maxprime mode s s')
    (hm : s.main.pc = s'.main.pc) (hg : s.gen.pc = s'.gen.pc) (hc : s.chain.pc = s'.chain.pc) : Inv N s' := by
  have hsub := hI.ends.sub
  have hfds := hI.ends.filter
  cases hs with
  | mainPipe h | forkGen h | mainCloseWrite h | forkChain h | mainCloseRead h | mainExit h | waitGen h _ | waitChain h _ =>
    rw [h] at hm
    cases hm
  | genCloseRead h | genDone h _ | genExit h | genKilled h _ _ =>
    rw [h] at hg
    cases hg
  | genWrite h _ _ => exact absurd hg (by simp [h])
  | chainRead h _ | chainEof h _ _ | chainPrint h | chainPipe h | chainFork h | chainCloseWrite h | chainCloseRead h | chainExit h =>
    rw [h] at hc
    cases hc
  | @filterCloseRead k prime h =>
    have hk := hI.filter k
    have hf := hfds k (by rw [h]; rfl)
    rw [h] at hk hf
    have hnew : ((s.filter k).close (.rd (k + 1)) (.read prime)).fds = (FilterPc.read prime).fds k := by
      simp only [Proc.close, hf]
      ext e
      cases e with
      | rd i => simp [FilterPc.fds]; omega
      | wr i => simp [FilterPc.fds]
    exact hI.setFilter (hI.lt_forks (by simp [h])) (by simp [Proc.close]) hnew.subset (fun _ => hnew) (fun _ _ => rfl) (fun _ _ => rfl) hk
  | @filterRead k prime n rest h hp =>
    have hk := hI.filter k
    have hf := hfds k (by rw [h]; rfl)
    have hb := hI.lt_forks (k := k) (by simp [h])
    have hw := written_read hp
    rw [h] at hk hf
    obtain ⟨xs, hinp, hout⟩ := hk
    have hin : ∀ i, i ≠ k → Function.update s.input k (s.input k ++ [n]) i = s.input i := fun i hi => Function.update_of_ne hi _ _
    by_cases hn : n % prime = 0
    · rw [if_neg (by simp [hn])]
      refine hI.setFilter hb (by simp) hf.subset (fun _ => hf) hin (fun i _ => hw i) ⟨xs ++ [n], ?_, ?_⟩
      · rw [Function.update_self, hinp]
        rfl
      · rw [hw, hout, sift_snoc_of_eq xs hn]
    · rw [if_pos hn]
      refine hI.setFilter hb (by simp) hf.subset (fun _ => hf) hin (fun i _ => hw i) ⟨xs, ?_, hn, ?_⟩
      · rw [Function.update_self, hinp]
        rfl
      · rw [hw, hout]
  | @filterEof k prime h hp hw =>
    have hk := hI.filter k
    have hf := hfds k (by rw [h]; rfl)
    have hb := hI.lt_forks (k := k) (by simp [h])
    have hfinal := hI.written_final (hI.chain_born (k := k) (by simp [h])) (Nat.le_of_lt hb) hw
    rw [h] at hk hf
    obtain ⟨xs, hinp, hout⟩ := hk
    unfold State.written at hfinal
    rw [hp, List.append_nil] at hfinal
    have hstage : stage N k = prime :: xs := hfinal.symm.trans hinp
    refine hI.setFilter hb (by simp) hf.subset (fun _ => hf) (fun _ _ => rfl) (fun _ _ => rfl) ⟨?_, hfinal, ?_⟩
    · rw [hstage]
      simp
    · rw [stage_succ hstage]
      exact hout
  | @filterWrite k prime num h hr =>
    have hk := hI.filter k
    have hf := hfds k (by rw [h]; rfl)
    have hw := written_write (s := s) (j := k + 1) (n := num)
    rw [h] at hk hf
    obtain ⟨xs, hinp, hnum, hout⟩ := hk
    refine hI.setFilter (hI.lt_forks (by simp [h])) (by simp) hf.subset (fun _ => hf) (fun _ _ => rfl) (fun i hi => ?_)
      ⟨xs ++ [num], hinp, ?_⟩
    · rw [hw, if_neg hi]
    · rw [hw, if_pos rfl, hout, sift_snoc_of_ne xs hnum]
  | filterKilled h hr => exact absurd (hI.filter_reader h) hr
  | @filterCloseIn k fds h hcl =>
    have hk := hI.filter k
    have hf := hfds k (by rw [h]; rfl)
    rw [h] at hk hf
    have hsub' : fds ⊆ FilterPc.exit.fds k := by
      rcases hcl with rfl | ⟨e, rfl⟩
      · exact hf.subset
      · exact (Finset.erase_subset _ _).trans hf.subset
    exact hI.setFilter (hI.lt_forks (by simp [h])) (by simp) hsub' (fun e => by cases e) (fun _ _ => rfl) (fun _ _ => rfl) hk
  | @filterExit k h =>
    have hk := hI.filter k
    rw [h] at hk
    exact hI.setFilter (hI.lt_forks (by simp [h])) (by simp [unborn]) (Finset.empty_subset _) (fun e => by cases e)
      (fun _ _ => rfl) (fun _ _ => rfl) hk

/-- Every step keeps the invariant. -/
theorem inv_step {s' : State} {maxprime : Int} {mode : Mode} (hI : Inv maxprime.toNat s) (hs : Step maxprime mode s s') :
    Inv maxprime.toNat s' := by
  by_cases hm : s.main.pc = s'.main.pc
  · by_cases hg : s.gen.pc = s'.gen.pc
    · by_cases hc : s.chain.pc = s'.chain.pc
      · exact inv_filter hI hs hm hg hc
      · exact inv_chain hI hs hm hc
    · exact inv_gen hI hs hm hg
  · exact inv_main hI hs hm

/-- The invariant holds when `main` starts. -/
theorem inv_start (N : Nat) : Inv N start := by
  refine ⟨⟨rfl, rfl, rfl, fun _ => Finset.empty_subset _, fun _ e => by cases e⟩, ⟨rfl, rfl⟩, rfl, ⟨rfl, rfl⟩, fun k => ?_, fun _ => rfl⟩
  exact iff_of_true rfl (Nat.zero_le k)

/-- The invariant is inductive. -/
theorem inv_inductive (maxprime : Int) (mode : Mode) : (sieve maxprime mode).Inductive (Inv maxprime.toNat) := by
  refine ⟨?_, fun _ _ _ hI hs => inv_step hI hs⟩
  intro s hs
  rw [hs]
  exact inv_start _

/-- The invariant holds in every reachable state. -/
theorem inv_reach {maxprime : Int} {mode : Mode} (h : (sieve maxprime mode).Reach s) : Inv maxprime.toNat s :=
  (inv_inductive maxprime mode).reach h

end OsLabs.Sieve
