import OsLabs.Sieve.Runs
import OsLabs.Sieve.Text

/-!
# What the pipeline writes to `stdout`

Where `stdout` is a terminal each `printf` writes its line at once and every buffer stays empty. Where it is a file the lines stay in
the buffer of `filter_chain`, since `fflush` is commented out, and each filter is forked with a copy of them, which its `exit` writes.
So filter `k` writes the first `k + 1` primes, and the process that printed them writes them once more.
-/

namespace OsLabs.Sieve

variable {N : Nat} {s s' : State} {maxprime : Int} {mode : Mode}

/-! ## Line buffered -/

/-- Nothing is in a buffer, and the lines that were printed have been written. -/
structure AllWritten (s : State) : Prop where
  main : s.main.buf = []
  gen : s.gen.buf = []
  chain : s.chain.buf = []
  filter : ∀ k, (s.filter k).buf = []
  out : s.stdout = s.printed.map line

/-- Of an empty buffer nothing is written. -/
theorem flush_nil : flush [] = [] := rfl

/-- Another buffer is one write. -/
theorem flush_of_ne {buf : List Char} (h : buf ≠ []) : flush buf = [buf] := if_neg h

theorem eq_of_mem_flush {buf c : List Char} (h : c ∈ flush buf) : c = buf := by
  unfold flush at h
  split at h
  · cases h
  · exact List.mem_singleton.mp h

/-- The buffers of the filters stay empty when that of one of them does. -/
theorem AllWritten.setFilter (h : AllWritten s) {k : Nat} {p : Proc FilterPc} (hp : p.buf = []) (i : Nat) :
    (Function.update s.filter k p i).buf = [] :=
  forall_update (P := fun _ q => q.buf = []) h.filter hp i

/-- A step writes what it prints. -/
theorem allWritten_step (hA : AllWritten s) (hs : Step maxprime .line s s') : AllWritten s' := by
  have hwrite : ∀ {buf : List Char}, buf = [] → s.stdout ++ flush buf = s.printed.map line := by
    intro buf hb
    rw [hb, flush_nil, List.append_nil, hA.out]
  cases hs with
  | mainPipe | mainCloseWrite | mainCloseRead | waitGen | waitChain | genCloseRead | genWrite | genDone | chainRead | chainEof
    | chainPipe | chainCloseWrite | chainCloseRead => exact ⟨hA.main, hA.gen, hA.chain, hA.filter, hA.out⟩
  | forkGen => exact ⟨hA.main, hA.main, hA.chain, hA.filter, hA.out⟩
  | forkChain => exact ⟨hA.main, hA.gen, hA.main, hA.filter, hA.out⟩
  | mainExit => exact ⟨rfl, hA.gen, hA.chain, hA.filter, hwrite hA.main⟩
  | genKilled => exact ⟨hA.main, rfl, hA.chain, hA.filter, hA.out⟩
  | genExit => exact ⟨hA.main, rfl, hA.chain, hA.filter, hwrite hA.gen⟩
  | @chainPrint j prime h =>
    refine ⟨hA.main, hA.gen, rfl, hA.filter, ?_⟩
    change s.stdout ++ [s.chain.buf ++ line prime] = (s.printed ++ [prime]).map line
    rw [hA.out, hA.chain, List.map_append]
    rfl
  | chainFork => exact ⟨hA.main, hA.gen, hA.chain, hA.setFilter hA.chain, hA.out⟩
  | chainExit => exact ⟨hA.main, hA.gen, rfl, hA.filter, hwrite hA.chain⟩
  | @filterCloseRead k | @filterRead k | @filterEof k | @filterWrite k | @filterCloseIn k =>
    exact ⟨hA.main, hA.gen, hA.chain, hA.setFilter (hA.filter k), hA.out⟩
  | filterKilled => exact ⟨hA.main, hA.gen, hA.chain, hA.setFilter rfl, hA.out⟩
  | @filterExit k => exact ⟨hA.main, hA.gen, hA.chain, hA.setFilter rfl, hwrite (hA.filter k)⟩

/-- Every run with a terminal writes what it prints. -/
theorem allWritten_reach (h : (sieve maxprime .line).Reach s) : AllWritten s := by
  have hind : (sieve maxprime .line).Inductive AllWritten := by
    refine ⟨?_, fun _ _ _ hA hs => allWritten_step hA hs⟩
    intro s hs
    rw [hs]
    exact ⟨rfl, rfl, rfl, fun _ => rfl, rfl⟩
  exact hind.reach h

/-! ## Fully buffered -/

/-- `filter_chain` has ended. -/
def ChainPc.ended : ChainPc → Bool
  | .zombie _ | .reaped _ => true
  | _ => false

/-- A filter has ended. -/
def FilterPc.ended : FilterPc → Bool
  | .zombie => true
  | _ => false

/-- A filter is there. -/
def FilterPc.alive : FilterPc → Bool
  | .unborn | .zombie => false
  | _ => true

/-- What is in the buffer of filter `k`: the lines printed before it was forked. -/
noncomputable def copy (k : Nat) : List Char := text (firstPrimes (k + 1))

/-- The buffer of `filter_chain` has been written once, because it was full or by `exit`. -/
def State.emptied (s : State) : Bool := s.chain.pc.ended || decide (bufsiz < (text s.printed).length)

/-- The processes that have written the first `k + 1` primes from their buffers, among filter `k` and `filter_chain`. -/
def State.copies (s : State) (k : Nat) : Nat :=
  (s.filter k).pc.ended.toNat + (decide (k < s.printed.length) && s.emptied).toNat

/-- What is in the buffers and has been written from them. -/
structure Buffered (s : State) : Prop where
  main : s.main.buf = []
  gen : s.gen.buf = []
  chain : s.chain.pc.ended = false → (text s.printed).length ≤ bufsiz → s.chain.buf = text s.printed
  filter : ∀ k, (s.filter k).pc.alive = true → (copy k).length ≤ bufsiz → (s.filter k).buf = copy k
  texts : (text s.printed).length ≤ bufsiz → ∀ c ∈ s.stdout, ∃ xs, c = text xs
  copies : ∀ k, (copy k).length ≤ bufsiz → s.copies k ≤ s.stdout.countP fun c => decide (copy k <+: c)

/-- Two places of a filter that do not differ as to its buffer. -/
def Alike (p q : Proc FilterPc) : Prop := q.pc.alive = p.pc.alive ∧ q.pc.ended = p.pc.ended ∧ q.buf = p.buf

/-- A step that neither prints nor ends a process nor forks a filter. -/
theorem Buffered.quiet (hB : Buffered s) (hm : s'.main.buf = []) (hg : s'.gen.buf = [])
    (hce : s'.chain.pc.ended = s.chain.pc.ended) (hcb : s'.chain.buf = s.chain.buf) (hf : ∀ k, Alike (s.filter k) (s'.filter k))
    (ho : s'.stdout = s.stdout) (hp : s'.printed = s.printed) : Buffered s' := by
  refine ⟨hm, hg, ?_, fun k hk => ?_, ?_, fun k hk => ?_⟩
  · rw [hce, hcb, hp]
    exact hB.chain
  · obtain ⟨ha, -, hb⟩ := hf k
    rw [hb]
    exact hB.filter k (ha ▸ hk)
  · rw [hp, ho]
    exact hB.texts
  · have he : s'.copies k = s.copies k := by
      unfold State.copies State.emptied
      rw [(hf k).2.1, hp, hce]
    rw [he, ho]
    exact hB.copies k hk

/-- A step of a filter that does not end it. -/
theorem alike_update {k : Nat} {p : Proc FilterPc} (h : Alike (s.filter k) p) (i : Nat) :
    Alike (s.filter i) (Function.update s.filter k p i) :=
  forall_update (P := fun i q => Alike (s.filter i) q) (fun _ => ⟨rfl, rfl, rfl⟩) h i

/-- The numbers printed are some first primes, at least one for each filter. -/
theorem Inv.printed_eq (hI : Inv N s) : ∃ m, s.printed = firstPrimes m ∧ s.chain.pc.forks ≤ m := by
  have h := hI.chain
  cases hc : s.chain.pc with
  | unborn =>
    rw [hc] at h
    exact ⟨0, h.2, le_rfl⟩
  | read j | print j _ | closeWrite j | closeRead j =>
    rw [hc] at h
    exact ⟨_, h.2, le_rfl⟩
  | makePipe j _ | fork j _ =>
    rw [hc] at h
    exact ⟨_, h.2, Nat.le_succ j⟩
  | exit j | zombie j | reaped j =>
    rw [hc] at h
    exact ⟨_, h.2.2, le_rfl⟩

/-- The copy that a filter has is a beginning of what was printed. -/
theorem Inv.copy_prefix (hI : Inv N s) {k : Nat} (hk : k < s.printed.length) : copy k <+: text s.printed := by
  obtain ⟨m, hm, -⟩ := hI.printed_eq
  rw [hm, length_firstPrimes] at hk
  rw [hm]
  exact text_mono (firstPrimes_mono hk)

/-- A filter was forked after its prime was printed. -/
theorem Inv.lt_printed (hI : Inv N s) {k : Nat} (h : (s.filter k).pc ≠ .unborn) : k < s.printed.length := by
  obtain ⟨m, hm, hle⟩ := hI.printed_eq
  have := hI.lt_forks h
  rw [hm, length_firstPrimes]
  omega

/-- The processes are counted when the step makes none of them one that has written its buffer. -/
theorem Buffered.counted (hB : Buffered s) {k : Nat} {cs : List (List Char)} (hk : (copy k).length ≤ bufsiz)
    (ho : s'.stdout = s.stdout ++ cs) (hf : (s'.filter k).pc.ended = (s.filter k).pc.ended)
    (h : k < s'.printed.length → s'.emptied = true → k < s.printed.length ∧ s.emptied = true) :
    s'.copies k ≤ s'.stdout.countP fun c => decide (copy k <+: c) := by
  have hle : s'.copies k ≤ s.copies k := by
    unfold State.copies
    rw [hf]
    refine Nat.add_le_add_left ?_ _
    by_cases h' : k < s'.printed.length ∧ s'.emptied = true
    · simp [h', h h'.1 h'.2]
    · have hzero : (decide (k < s'.printed.length) && s'.emptied) = false := by simpa using h'
      rw [hzero]
      exact Nat.zero_le _
  have := hB.copies k hk
  rw [ho, List.countP_append]
  omega

/-- They are counted when the step writes a buffer that begins with the copy. -/
theorem Buffered.counted_write (hB : Buffered s) {k : Nat} {c : List Char} (hk : (copy k).length ≤ bufsiz)
    (ho : s'.stdout = s.stdout ++ [c]) (hc : copy k <+: c) (h : s'.copies k ≤ s.copies k + 1) :
    s'.copies k ≤ s'.stdout.countP fun c => decide (copy k <+: c) := by
  have := hB.copies k hk
  rw [ho, List.countP_append, List.countP_singleton, if_pos (by simpa using hc)]
  omega

/-- `filter_chain` is one process. -/
theorem copies_le_succ {k : Nat} (hf : (s'.filter k).pc.ended = (s.filter k).pc.ended) : s'.copies k ≤ s.copies k + 1 := by
  have h := Bool.toNat_le (decide (k < s'.printed.length) && s'.emptied)
  unfold State.copies
  rw [hf]
  omega

/-- `printf` in `filter_chain`. -/
theorem buffered_print (hB : Buffered s) {j prime m : Nat} (h : s.chain.pc = .print j prime) (hm : s.printed ++ [prime] = firstPrimes m) :
    Buffered
      { s with
        chain := { s.chain with pc := .makePipe j prime, buf := (printf .full s.chain.buf (line prime)).2 }
        stdout := s.stdout ++ (printf .full s.chain.buf (line prime)).1
        printed := s.printed ++ [prime] } := by
  have hlen : s.printed.length + 1 = m := by
    rw [← length_firstPrimes m, ← hm, List.length_append]
    rfl
  have hmono : (text s.printed).length ≤ (text (s.printed ++ [prime])).length := by
    rw [text_snoc, List.length_append]
    exact Nat.le_add_right _ _
  have hce : s.chain.pc.ended = false := by
    rw [h]
    rfl
  by_cases hfit' : (text (s.printed ++ [prime])).length ≤ bufsiz
  · -- the line fits into the buffer
    have hfit := hmono.trans hfit'
    have hpr : printf .full s.chain.buf (line prime) = ([], text (s.printed ++ [prime])) := by
      unfold printf
      rw [hB.chain hce hfit, ← text_snoc, if_pos hfit']
    rw [hpr]
    refine ⟨hB.main, hB.gen, fun _ _ => rfl, hB.filter, fun _ => ?_, fun k hk => ?_⟩
    · intro c hc
      rw [List.append_nil] at hc
      exact hB.texts hfit c hc
    · refine hB.counted hk rfl rfl ?_
      intro _ he
      simp [State.emptied, ChainPc.ended] at he
      omega
  · refine ⟨hB.main, hB.gen, fun _ hf => absurd hf hfit', hB.filter, fun hf => absurd hf hfit', fun k hk => ?_⟩
    by_cases hfit : (text s.printed).length ≤ bufsiz
    · -- it does not, and the buffer is written for the first time
      have hpr : printf .full s.chain.buf (line prime) =
          ([(text (s.printed ++ [prime])).take bufsiz], (text (s.printed ++ [prime])).drop bufsiz) := by
        unfold printf
        rw [hB.chain hce hfit, ← text_snoc, if_neg hfit']
      rw [hpr]
      by_cases hkm : k < m
      · have hpre : copy k <+: (text (s.printed ++ [prime])).take bufsiz := by
          rw [List.prefix_take_iff, hm]
          exact ⟨text_mono (firstPrimes_mono hkm), hk⟩
        exact hB.counted_write hk rfl hpre (copies_le_succ rfl)
      · refine hB.counted hk rfl rfl ?_
        intro hk' _
        simp at hk'
        omega
    · -- it was written before
      refine hB.counted hk rfl rfl ?_
      intro hk' _
      have hk' : k < s.printed.length + 1 := by simpa using hk'
      refine ⟨?_, by simp [State.emptied]; omega⟩
      by_contra hlt
      have hkm : k + 1 = m := by omega
      unfold copy at hk
      rw [hkm, ← hm] at hk
      exact hfit' hk

/-- `Fork` in `filter_chain`. -/
theorem buffered_fork (hI : Inv N s) (hB : Buffered s) {j prime : Nat} (h : s.chain.pc = .fork j prime) :
    Buffered
      { s with
        chain := { s.chain with pc := .closeWrite j }
        filter := Function.update s.filter j ⟨.closeRead prime, s.chain.fds, s.chain.buf⟩ } := by
  have hprinted : s.printed = firstPrimes (j + 1) := by
    have hc := hI.chain
    rw [h] at hc
    exact hc.2
  have hce : s.chain.pc.ended = false := by
    rw [h]
    rfl
  have hu : (s.filter j).pc = .unborn := (hI.born j).mpr (by rw [h]; exact le_rfl)
  refine ⟨hB.main, hB.gen, fun _ => hB.chain hce, ?_, hB.texts, fun k hk => ?_⟩
  · refine forall_update (P := fun i q => q.pc.alive = true → (copy i).length ≤ bufsiz → q.buf = copy i) hB.filter ?_
    intro _ hfit
    unfold copy at hfit ⊢
    rw [← hprinted] at hfit ⊢
    exact hB.chain hce hfit
  · have he : (Function.update s.filter j ⟨.closeRead prime, s.chain.fds, s.chain.buf⟩ k).pc.ended = (s.filter k).pc.ended :=
      forall_update (P := fun i q => q.pc.ended = (s.filter i).pc.ended) (fun _ => rfl) (by rw [hu]; rfl) k
    refine le_trans (Nat.le_of_eq ?_) (hB.copies k hk)
    unfold State.copies State.emptied
    rw [he, hce]
    rfl

/-- `exit` of `filter_chain`. -/
theorem buffered_exit (hI : Inv N s) (hB : Buffered s) {j : Nat} (h : s.chain.pc = .exit j) :
    Buffered { s with chain := unborn (.zombie j), stdout := s.stdout ++ flush s.chain.buf } := by
  have hce : s.chain.pc.ended = false := by
    rw [h]
    rfl
  refine ⟨hB.main, hB.gen, fun e => (by cases e), hB.filter, fun hfit c hc => ?_, fun k hk => ?_⟩
  · rcases List.mem_append.mp hc with hc | hc
    · exact hB.texts hfit c hc
    · rw [hB.chain hce hfit] at hc
      exact ⟨s.printed, eq_of_mem_flush hc⟩
  · by_cases hfit : (text s.printed).length ≤ bufsiz
    · by_cases hkp : k < s.printed.length
      · have hne : text s.printed ≠ [] := text_ne_nil (List.ne_nil_of_length_pos (by omega))
        rw [hB.chain hce hfit, flush_of_ne hne]
        exact hB.counted_write hk rfl (hI.copy_prefix hkp) (copies_le_succ rfl)
      · exact hB.counted hk rfl rfl fun hk' _ => absurd hk' hkp
    · refine hB.counted hk rfl rfl fun hk' _ => ⟨hk', ?_⟩
      simp [State.emptied]
      omega

/-- `exit` of a filter. -/
theorem buffered_filterExit (hI : Inv N s) (hB : Buffered s) {k : Nat} (h : (s.filter k).pc = .exit) :
    Buffered
      { s with
        filter := Function.update s.filter k (unborn .zombie)
        stdout := s.stdout ++ flush (s.filter k).buf } := by
  have hbuf := hB.filter k (by rw [h]; rfl)
  refine ⟨hB.main, hB.gen, hB.chain, ?_, fun hfit c hc => ?_, fun i hi => ?_⟩
  · exact forall_update (P := fun i q => q.pc.alive = true → (copy i).length ≤ bufsiz → q.buf = copy i) hB.filter (fun e => by cases e)
  · rcases List.mem_append.mp hc with hc | hc
    · exact hB.texts hfit c hc
    · have hpre := hI.copy_prefix (hI.lt_printed (k := k) (by simp [h]))
      rw [hbuf (hpre.length_le.trans hfit)] at hc
      exact ⟨firstPrimes (k + 1), eq_of_mem_flush hc⟩
  · by_cases hik : i = k
    · subst hik
      have hne : copy i ≠ [] := text_ne_nil (List.ne_nil_of_length_pos (by rw [length_firstPrimes]; omega))
      rw [hbuf hi, flush_of_ne hne]
      refine hB.counted_write hi rfl List.prefix_rfl ?_
      simp [State.copies, State.emptied, h, unborn, FilterPc.ended]
      omega
    · refine hB.counted hi rfl ?_ fun h1 h2 => ⟨h1, h2⟩
      change (Function.update s.filter k (unborn .zombie) i).pc.ended = _
      rw [Function.update_of_ne hik]

/-- A step keeps it, where `stdout` is fully buffered. -/
theorem buffered_step (hI : Inv maxprime.toNat s) (hB : Buffered s) (hs : Step maxprime .full s s') : Buffered s' := by
  have hsame : ∀ k, Alike (s.filter k) (s.filter k) := fun _ => ⟨rfl, rfl, rfl⟩
  have hI' := inv_step hI hs
  cases hs with
  | mainPipe h | mainCloseWrite h | mainCloseRead h | waitGen h _ | genCloseRead h | genWrite h _ _ | genDone h _ =>
    exact hB.quiet hB.main hB.gen rfl rfl hsame rfl rfl
  | forkGen h => exact hB.quiet hB.main hB.main rfl rfl hsame rfl rfl
  | forkChain h =>
    have hc : s.chain.pc = .unborn := by
      have hm := hI.main
      rw [h] at hm
      exact hm.2.1
    have hchain := hI.chain
    rw [hc] at hchain
    have hbuf := hB.chain (by rw [hc]; rfl)
    rw [hchain.2] at hbuf
    exact hB.quiet hB.main hB.gen (by rw [hc]; rfl) (hB.main.trans (hbuf (Nat.zero_le _)).symm) hsame rfl rfl
  | waitChain h hz => exact hB.quiet hB.main hB.gen (by rw [hz]; rfl) rfl hsame rfl rfl
  | mainExit h => exact hB.quiet rfl hB.gen rfl rfl hsame (by rw [hB.main]; exact List.append_nil _) rfl
  | genKilled h _ _ => exact hB.quiet hB.main rfl rfl rfl hsame rfl rfl
  | genExit h => exact hB.quiet hB.main rfl rfl rfl hsame (by rw [hB.gen]; exact List.append_nil _) rfl
  | chainRead h _ | chainEof h _ _ | chainPipe h | chainCloseWrite h | chainCloseRead h =>
    exact hB.quiet hB.main hB.gen (by rw [h]; rfl) rfl hsame rfl rfl
  | chainPrint h => exact buffered_print hB h hI'.chain.2
  | chainFork h => exact buffered_fork hI hB h
  | chainExit h => exact buffered_exit hI hB h
  | filterCloseRead h | filterEof h _ _ | filterWrite h _ | filterCloseIn h _ =>
    exact hB.quiet hB.main hB.gen rfl rfl (alike_update ⟨by rw [h]; rfl, by rw [h]; rfl, rfl⟩) rfl rfl
  | @filterRead k prime n rest h hp =>
    refine hB.quiet hB.main hB.gen rfl rfl (alike_update ⟨?_, ?_, rfl⟩) rfl rfl
    · rw [h]
      change (if n % prime ≠ 0 then FilterPc.write prime n else .read prime).alive = true
      split <;> rfl
    · rw [h]
      change (if n % prime ≠ 0 then FilterPc.write prime n else .read prime).ended = false
      split <;> rfl
  | filterKilled h hr => exact absurd (hI.filter_reader h) hr
  | filterExit h => exact buffered_filterExit hI hB h

/-- Every run with a file. -/
theorem buffered_reach (h : (sieve maxprime .full).Reach s) : Buffered s := by
  have hind : (sieve maxprime .full).Inductive fun s => Inv maxprime.toNat s ∧ Buffered s := by
    refine ⟨?_, fun _ _ _ h hs => ⟨inv_step h.1 hs, buffered_step h.1 h.2 hs⟩⟩
    intro s hs
    rw [hs]
    refine ⟨inv_start _, rfl, rfl, fun _ _ => rfl, fun _ e => (by cases e), fun _ c hc => (by cases hc), fun k _ => ?_⟩
    simp [State.copies, start, unborn, FilterPc.ended]
  exact (hind.reach h).2

/-! ## The lines in the end -/

/-- When all processes have ended, filter `k` and `filter_chain` have both written the first `k + 1` primes. -/
theorem Buffered.two_copies (hB : Buffered s) (hI : Inv N s) (hf : s.Finished) {k : Nat} (hk : nthPrime k ≤ N)
    (hfit : (copy k).length ≤ bufsiz) : 2 ≤ s.stdout.countP fun c => decide (copy k <+: c) := by
  obtain ⟨-, -, ⟨j, hc⟩, hfilter⟩ := hf
  have hchain := hI.chain
  rw [hc] at hchain
  obtain ⟨hnil, -, hprinted⟩ := hchain
  have hkj : k < j := by
    by_contra hle
    have := stage_eq_nil_iff.mp (stage_nil_of_le hnil (show j ≤ k by omega))
    omega
  have hz : (s.filter k).pc = .zombie := by
    rcases hfilter k with h | h
    · have hle := (hI.born k).mp h
      rw [hc] at hle
      exact absurd hkj (Nat.not_lt.mpr hle)
    · exact h
  have htwo : s.copies k = 2 := by
    simp [State.copies, State.emptied, hz, hc, hprinted, length_firstPrimes, hkj, FilterPc.ended, ChainPc.ended]
  rw [← htwo]
  exact hB.copies k hfit

theorem copy_zero : copy 0 = text [2] := by
  simp [copy, firstPrimes, nthPrime_zero]

theorem copy_one : copy 1 = text [2, 3] := by
  simp [copy, firstPrimes, List.range_succ, nthPrime_zero, nthPrime_one]

/-- With a file some prime has two lines: 3, or 2 if that is the only one. -/
theorem Buffered.doubled (hB : Buffered s) (hI : Inv N s) (hf : s.Finished) (hN : 2 ≤ N) :
    ∃ p, p.Prime ∧ p ≤ N ∧ 2 ≤ onLines p s.stdout.flatten := by
  by_cases h3 : 3 ≤ N
  · have htwo := hB.two_copies hI hf (k := 1) (by rw [nthPrime_one]; exact h3) (by rw [copy_one]; decide)
    rw [copy_one] at htwo
    exact ⟨3, Nat.prime_three, h3, htwo.trans (countP_le_second 3 2 s.stdout [])⟩
  · have hN2 : N = 2 := by omega
    subst hN2
    have hprinted : s.printed = [2] := (hI.printed_finished hf).trans (by decide)
    have htwo := hB.two_copies hI hf (k := 0) (by rw [nthPrime_zero]) (by rw [copy_zero]; decide)
    rw [copy_zero] at htwo
    exact ⟨2, Nat.prime_two, le_rfl, htwo.trans (countP_le_first 2 (hB.texts (by rw [hprinted]; decide)))⟩

/-- With a terminal every prime has one. -/
theorem AllWritten.once (hA : AllWritten s) (hI : Inv N s) (hf : s.Finished) {p : Nat} (hp : p.Prime) (hN : p ≤ N) :
    onLines p s.stdout.flatten = 1 := by
  have hflat : s.stdout.flatten = text s.printed := by
    rw [hA.out]
    rfl
  have hcount := onLines_text p s.printed []
  rw [List.append_nil, onLines_nil, Nat.add_zero] at hcount
  rw [hflat, hcount, hI.printed_finished hf]
  have hnodup : ((List.range' 2 (N - 1)).filter fun n => decide n.Prime).Nodup := List.Nodup.filter _ List.nodup_range'
  refine List.count_eq_one_of_mem hnodup ?_
  have := hp.two_le
  rw [List.mem_filter, List.mem_range'_1]
  exact ⟨⟨this, by omega⟩, by simpa using hp⟩

/-- In the end of a run each prime up to `maxprime` is on exactly one line of what all processes have written to `stdout`, if and only
if `stdout` is line buffered or there is no prime up to `maxprime`. This is for `maxprime` below `LONG_MAX`, where a run ends. -/
theorem each_prime_once (hr : (sieve maxprime mode).Reach s) (hst : ∀ s', ¬ Step maxprime mode s s') :
    (∀ p : Nat, p.Prime → (p : Int) ≤ maxprime → onLines p s.stdout.flatten = 1) ↔ mode = .line ∨ maxprime < 2 := by
  have hI := inv_reach hr
  have hf := finished_of_stuck hI hst
  constructor
  · intro h
    by_contra hneg
    obtain ⟨hmode, h2⟩ := not_or.mp hneg
    cases mode with
    | line => exact hmode rfl
    | full =>
      obtain ⟨p, hp, hN, htwo⟩ := (buffered_reach hr).doubled hI hf (by omega)
      have := h p hp (by omega)
      omega
  · rintro (rfl | h2) p hp hle
    · exact (allWritten_reach hr).once hI hf hp (by omega)
    · have := hp.two_le
      omega

/-- A run for 5 with a terminal. -/
theorem each_prime_once_five : ∃ s, (sieve 5 .line).Reach s ∧ onLines 3 s.stdout.flatten = 1 := by
  obtain ⟨s, hr, hst⟩ := exists_stuck 5 .line
  exact ⟨s, hr, (each_prime_once hr hst).mpr (Or.inl rfl) 3 Nat.prime_three (by decide)⟩

/-- Not every run writes each prime on one line: `prime 2` with a file writes 2 twice. -/
theorem prime_twice :
    ¬ ∀ (maxprime : Int) (mode : Mode) (s : State), (sieve maxprime mode).Reach s → (∀ s', ¬ Step maxprime mode s s') →
      ∀ p : Nat, p.Prime → (p : Int) ≤ maxprime → onLines p s.stdout.flatten = 1 := by
  intro h
  obtain ⟨s, hr, hst⟩ := exists_stuck 2 .full
  have hI := inv_reach hr
  obtain ⟨p, hp, hN, htwo⟩ := (buffered_reach hr).doubled hI (finished_of_stuck hI hst) le_rfl
  have := h 2 .full s hr hst p hp (by exact_mod_cast hN)
  omega

end OsLabs.Sieve
