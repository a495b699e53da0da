import OsLabs.Echo.Invariant

/-!
# The shutdown of the server

`sigint_handler` waits for `nclients` to become 0. It waits for nothing when a client is counted that no process stands for: the
handler has interrupted `main` between `nclients++` and the fork, or `sigchld_handler` between `waitpid` and `nclients--`; and
when the last child is reaped between the test of `nclients` and `Sigsuspend`. A run without these three never hangs.
-/

namespace OsLabs.Echo

/-- The server is suspended in `sigint_handler` and has no child to wait for. -/
def Hung (s : State) : Prop :=
  s.status = .running ∧ (∃ old rest, s.stack = .sigint .suspended old :: rest) ∧ s.children = []

/-- A handler has a client in its hands that is still counted. -/
def Frame.Counts (f : Frame) : Prop := ∃ p i, f.held = some (p, some i)

/-- SIGINT is delivered while every client counted is a child, and `Sigsuspend` is called while some client is counted. -/
def Waits (s : State) : Act → Prop
  | .deliverInt => s.pc.pend = 0 ∧ ∀ f ∈ s.stack, ¬f.Counts
  | .run => ∀ old rest, s.stack = .sigint .suspend old :: rest → s.nclients ≠ 0
  | _ => True

/-- What `sigint_handler` has interrupted stands for no client. -/
def Settled (pc : MainPc) : List Frame → Prop
  | [] => True
  | .sigchld _ _ :: rest => Settled pc rest
  | .sigint _ _ :: rest => pc.pend = 0 ∧ ∀ f ∈ rest, ¬f.Counts

theorem settled_wake {pc : MainPc} {stack : List Frame} (h : Settled pc stack) : Settled pc (wake stack) := by
  unfold wake
  split <;> exact h

theorem counts_wake {stack : List Frame} (h : ∀ f ∈ stack, ¬f.Counts) : ∀ f ∈ wake stack, ¬f.Counts := by
  unfold wake
  split
  · refine List.forall_mem_cons.mpr ⟨?_, fun f hf => h f (List.mem_cons_of_mem _ hf)⟩
    rintro ⟨p, i, e⟩
    cases e
  · exact h

/-- The server is suspended only on top of the stack, and only while a client is counted. -/
structure Suspends (s : State) : Prop where
  settled : Settled s.pc s.stack
  below : ∀ f ∈ s.stack.tail, ∀ old, f ≠ .sigint .suspended old
  counted : ∀ old rest, s.stack = .sigint .suspended old :: rest → s.nclients ≠ 0

theorem wake_awake {stack : List Frame} (h : ∀ f ∈ stack.tail, ∀ old, f ≠ .sigint .suspended old) :
    ∀ f ∈ wake stack, ∀ old, f ≠ .sigint .suspended old := by
  unfold wake
  split
  · refine List.forall_mem_cons.mpr ⟨fun old e => ?_, h⟩
    cases e
  · rename_i hno
    intro f hf old e
    subst e
    cases stack with
    | nil => cases hf
    | cons g rest =>
      rcases List.mem_cons.mp hf with rfl | hf
      · exact hno old rest rfl
      · exact h _ hf old rfl

theorem suspends_step {s s' : State} {a : Act} (h : Suspends s) (hw : Waits s a) (hst : Step s a s') : Suspends s' := by
  cases hst with
  | main hr hs hm =>
    cases hm <;> exact ⟨by rw [hs]; trivial, by rw [hs]; exact nofun, fun old rest e => nomatch hs.symm.trans e⟩
  | chld hr hs hc =>
    have hset := h.settled
    have hbelow := h.below
    rw [hs] at hset hbelow
    cases hc with
    | «return» hz =>
      exact ⟨hset, fun f hf => hbelow f (List.mem_of_mem_tail hf), fun old rest e =>
        (hbelow _ (List.mem_of_mem_head? (congrArg List.head? e)) old rfl).elim⟩
    | assert hf => exact ⟨h.settled, h.below, h.counted⟩
    | reap | find | load | store | clear | loadN | storeN => exact ⟨hset, hbelow, nofun⟩
  | int hr hs hi =>
    have hset := h.settled
    have hbelow := h.below
    rw [hs] at hset hbelow
    cases hi with
    | suspend => exact ⟨hset, hbelow, fun _ _ _ => hw _ _ hs⟩
    | exit => exact ⟨h.settled, h.below, h.counted⟩
    | start | loop | done | restore | print => exact ⟨hset, hbelow, nofun⟩
  | sendInt => exact ⟨h.settled, h.below, h.counted⟩
  | deliverChld hr hp hm => exact ⟨settled_wake h.settled, wake_awake h.below, nofun⟩
  | deliverInt hr hp hm => exact ⟨⟨hw.1, counts_wake hw.2⟩, wake_awake h.below, nofun⟩
  | child hc h' => cases h' <;> exact ⟨h.settled, h.below, h.counted⟩

/-- A server that is suspended in such a state has a child. -/
theorem Suspends.not_hung {s : State} (h : Suspends s) (hbooks : Books s) : ¬Hung s := by
  rintro ⟨-, ⟨old, rest, hs⟩, hchildren⟩
  have hset := h.settled
  rw [hs] at hset
  have hcount := hbooks.count
  rw [held_skip hs rfl, hchildren, List.map_nil, List.append_nil, hset.1] at hcount
  -- no frame below has a client that is counted
  have hzero : (rest.filterMap Frame.held).countP (·.2.isSome) = 0 := by
    refine List.countP_eq_zero.mpr fun x hx hsome => ?_
    obtain ⟨f, hf, hheld⟩ := List.mem_filterMap.mp hx
    obtain ⟨i, hi⟩ := Option.isSome_iff_exists.mp hsome
    exact hset.2 f hf ⟨x.1, i, hheld.trans (congrArg some (Prod.ext rfl hi))⟩
  exact h.counted old rest hs (by rw [hcount, hzero]; rfl)

/-- In a run in which SIGINT is delivered only while every client counted is a child, and `Sigsuspend` is called only while a client
is counted, the server never hangs. -/
theorem shutdown_never_hangs (s : State) (hs : (server.guard Waits).Reach s) : ¬Hung s := by
  have hinv : (server.guard Waits).Inductive fun s => (s.Controlled ∧ Books s) ∧ Suspends s :=
    { start := by
        rintro s rfl
        exact ⟨server_books.start init rfl, trivial, nofun, nofun⟩
      keep := fun s a s' ⟨hb, h⟩ ⟨hw, hst⟩ => ⟨server_books.keep s a s' hb hst, suspends_step h hw hst⟩ }
  obtain ⟨⟨-, hbooks⟩, h⟩ := hinv.reach hs
  exact h.not_hung hbooks

/-! ## Runs -/

/-- `main` takes a connection, up to the fork. -/
def State.added (s : State) (i : Nat) : State :=
  { s with
    pc := .fork (some i)
    client := setNread (setPid s.client i (-1)) i 0
    nclients := s.nclients + 1
    oldMask := s.mask
    mask := { s.mask with chld := true } }

theorem path_added {G : State → Act → Prop}
    (hG : ∀ t : State, t.stack = [] → (t.pc = .find → findclient t.client 0 ≠ none) → G t .accept ∧ G t .run) {s : State} {i : Nat}
    (hr : s.status = .running) (hs : s.stack = []) (hp : s.pc = .accept) (hf : findclient s.client 0 = some i) :
    (server.guard G).Path s (s.added i) := by
  have hfree : findclient s.client 0 ≠ none := by
    rw [hf]
    nofun
  have hrun : ∀ t : State, t.stack = [] → (t.pc = .find → findclient t.client 0 ≠ none) → G t .run := fun t ht hfind =>
    (hG t ht hfind).2
  refine Sys.Path.head .accept ⟨(hG _ hs fun _ => hfree).1, .main hr hs (.accept hp)⟩ ?_
  refine Sys.Path.head .run ⟨hrun _ hs fun _ => hfree, .main hr hs (.block rfl)⟩ ?_
  refine Sys.Path.head .run ⟨hrun _ hs fun _ => hfree, .main hr hs (.find rfl hf)⟩ ?_
  refine Sys.Path.head .run ⟨hrun _ hs fun e => (by cases e), .main hr hs (.setPid rfl)⟩ ?_
  refine Sys.Path.head .run ⟨hrun _ hs fun e => (by cases e), .main hr hs (.setNread rfl)⟩ ?_
  refine Sys.Path.head .run ⟨hrun _ hs fun e => (by cases e), .main hr hs (.loadN rfl)⟩ ?_
  exact Sys.Path.head .run ⟨hrun _ hs fun e => (by cases e), .main hr hs (.storeN rfl)⟩ (Sys.Path.refl _ _)

/-- SIGINT arrives and `sigint_handler` runs into `Sigsuspend`. -/
def State.interrupted (s : State) : State :=
  { s with
    pendingInt := false
    mask := { chld := false, int := true }
    stack := .sigint .suspended { s.mask with int := true } :: wake s.stack }

theorem path_interrupted {G : State → Act → Prop} {s : State} (hr : s.status = .running) (hm : s.mask.int = false)
    (hn : s.nclients ≠ 0) (hsend : G s .sendInt) (hdeliver : G { s with pendingInt := true } .deliverInt)
    (hrun : ∀ t : State, t.nclients = s.nclients → G t .run) : (server.guard G).Path s s.interrupted := by
  refine Sys.Path.head .sendInt ⟨hsend, .sendInt⟩ ?_
  refine Sys.Path.head .deliverInt ⟨hdeliver, .deliverInt hr rfl hm⟩ ?_
  refine Sys.Path.head .run ⟨hrun _ rfl, .int hr rfl .start⟩ ?_
  refine Sys.Path.head .run ⟨hrun _ rfl, .int hr rfl (.loop hn)⟩ ?_
  exact Sys.Path.head .run ⟨hrun _ rfl, .int hr rfl .suspend⟩ (Sys.Path.refl _ _)

/-- The first connection, up to the fork. -/
theorem path_first {G : State → Act → Prop}
    (hG : ∀ t : State, t.stack = [] → (t.pc = .find → findclient t.client 0 ≠ none) → G t .accept ∧ G t .run) :
    (server.guard G).Path init (init.added 0) := path_added hG rfl rfl rfl (by decide +kernel)

/-- The first connection is forked, and SIGINT arrives. -/
def firstForked : State := { init.added 0 with pc := .print, children := [{ pid := 1, c := some 0, pc := .start }] }

theorem shutdown_never_hangs_one : ¬Hung firstForked.interrupted := by
  have h1 : (server.guard Waits).Reach (init.added 0) :=
    Sys.Reach.path (.init rfl) (path_first fun t ht _ => ⟨trivial, fun old rest e => nomatch ht.symm.trans e⟩)
  have h2 : (server.guard Waits).Reach firstForked :=
    .step (.fork 1) h1 ⟨trivial, .main rfl rfl (.fork rfl (by decide) nofun)⟩
  exact shutdown_never_hangs _ (h2.path (path_interrupted rfl rfl (by decide) trivial ⟨rfl, nofun⟩ fun t ht _ _ _ => ht ▸ by decide))

/-- SIGINT arrives between `nclients++` and the first fork: the server waits for ever. -/
theorem shutdown_hangs : ∃ s, server.Reach s ∧ Hung s := by
  have h1 : (server.guard fun _ _ => True).Reach (init.added 0) :=
    Sys.Reach.path (.init rfl) (path_first fun _ _ _ => ⟨trivial, trivial⟩)
  have h2 := h1.path (path_interrupted rfl rfl (by decide) trivial trivial fun _ _ => trivial)
  exact ⟨_, h2.of_guard, rfl, ⟨_, _, rfl⟩, rfl⟩

end OsLabs.Echo
