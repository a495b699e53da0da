import OsLabs.Echo.Table

/-!
# The books of the server

`Control` says how handlers and masks nest: no `sigchld_handler` is interrupted by SIGCHLD, none runs while `main` works on the table,
and `sigint_handler` is never interrupted by SIGINT. `Books` says what the table, the counter and the processes have to do with each
other: `nclients` counts the processes held, children or in the hands of `delclient`, and the slot that `main` has counted before
its fork. Both hold along every run, whatever is delivered when.
-/

namespace OsLabs.Echo

/-! ## Control -/

/-- `main` has SIGCHLD blocked. -/
def MainPc.critical : MainPc → Prop
  | .accept | .block => False
  | _ => True

/-- A frame of `sigint_handler`. -/
def Frame.IsInt : Frame → Prop
  | .sigint _ _ => True
  | .sigchld _ _ => False

/-- The handlers on a stack and the mask that holds over them. -/
def Control (pc : MainPc) : List Frame → Mask → Prop
  | [], m => pc.critical → m.chld = true
  | .sigchld _ old :: rest, m => m.chld = true ∧ old.chld = false ∧ old.int = m.int ∧ Control pc rest old
  | .sigint _ old :: rest, m => m.int = true ∧ old.int = true ∧ ∀ f ∈ rest, ¬f.IsInt

theorem control_wake {pc : MainPc} {stack : List Frame} {m : Mask} (h : Control pc stack m) : Control pc (wake stack) m := by
  unfold wake
  split
  · exact h
  · exact h

/-- Where SIGINT is not blocked no `sigint_handler` is on the stack. -/
theorem Control.no_int {pc : MainPc} {stack : List Frame} {m : Mask} (h : Control pc stack m) (hm : m.int = false) :
    ∀ f ∈ stack, ¬f.IsInt := by
  induction stack generalizing m with
  | nil => exact nofun
  | cons f rest ih =>
    cases f with
    | sigchld pc' old => exact List.forall_mem_cons.mpr ⟨not_false, ih h.2.2.2 (h.2.2.1.trans hm)⟩
    | sigint pc' old => exact absurd hm (by rw [h.1]; decide)

/-- The handlers of a state nest properly. -/
def State.Controlled (s : State) : Prop := Control s.pc s.stack s.mask

theorem controlled_step {s s' : State} {a : Act} (h : s.Controlled) (hst : Step s a s') : s'.Controlled := by
  unfold State.Controlled at h ⊢
  cases hst with
  | main hr hs hm =>
    rw [hs] at h
    cases hm with
    | accept hp => rw [hs]; exact nofun
    | block hp => rw [hs]; exact fun _ => rfl
    | find hp hf | full hp hf | setPid hp | setNread hp | loadN hp | storeN hp | fork hp h0 hpid | print hp =>
      rw [hs]
      exact fun _ => h (by rw [hp]; trivial)
    | forkFail hp => rw [hs]; exact h
    | unblock hp => rw [hs]; exact nofun
  | chld hr hs hc =>
    rw [hs] at h
    cases hc with
    | «return» hz => exact h.2.2.2
    | assert hf => rw [hs]; exact h
    | reap | find | load | store | clear | loadN | storeN => exact h
  | int hr hs hi =>
    rw [hs] at h
    cases hi with
    | start => exact ⟨rfl, h.1, h.2.2⟩
    | restore => exact ⟨h.2.1, h.2.1, h.2.2⟩
    | exit => rw [hs]; exact h
    | loop | done | suspend | print => exact h
  | sendInt => exact h
  | deliverChld hr hp hm => exact ⟨rfl, hm, rfl, control_wake h⟩
  | deliverInt hr hp hm => exact ⟨rfl, rfl, (Control.no_int (control_wake h) hm)⟩
  | child hc h' => cases h' <;> exact h

/-! ## Books -/

/-- The slot that `addclient` has taken. -/
def MainPc.taken : MainPc → Option Nat
  | .setPid i | .setNread i | .loadN i | .storeN i _ => some i
  | .fork c => c
  | _ => none

/-- The slot that `addclient` has taken and marked. -/
def MainPc.marked : MainPc → Option Nat
  | .setNread i | .loadN i | .storeN i _ => some i
  | .fork c => c
  | _ => none

/-- The clients that `main` has counted and not yet forked. -/
def MainPc.pend : MainPc → Nat
  | .fork (some _) => 1
  | _ => 0

/-- The process that a handler has reaped and not yet deleted. -/
def Frame.held : Frame → Option Held
  | .sigchld (.del pid slot _) _ => some (pid, slot)
  | _ => none

/-- A child as a process held. -/
def Child.held (c : Child) : Held := (c.pid, c.c)

/-- The processes held: in the hands of `delclient`, or not yet reaped. -/
def State.held (s : State) : List Held := s.stack.filterMap Frame.held ++ s.children.map Child.held

/-- `delclient` works on the slot of the process that was reaped, and counts it off once the slot is given back. -/
def Frame.Ok (client : Nat → Client) : Frame → Prop
  | .sigchld (.del _ slot (.load i)) _ | .sigchld (.del _ slot (.store i _)) _ | .sigchld (.del _ slot (.clear i)) _ => slot = some i
  | .sigchld (.del _ slot .loadN) _ | .sigchld (.del _ slot (.storeN _)) _ => ∃ i, slot = some i ∧ (client i).pid = 0
  | _ => True

/-- What `delclient` has loaded is still so. -/
def Frame.Fresh (s : State) : Frame → Prop
  | .sigchld (.del _ _ (.store i tmp)) _ => tmp = s.nread + (s.client i).nread
  | .sigchld (.del _ _ (.storeN tmp)) _ => tmp = s.nclients
  | _ => True

/-- The books. -/
structure Books (s : State) : Prop where
  table : Table s.client s.held s.pc.taken
  children : ∀ c ∈ s.children, ∀ i, c.c = some i → (s.client i).pid ≠ 0
  marked : ∀ i, s.pc.marked = some i → (s.client i).pid = -1
  count : s.nclients = s.held.countP (·.2.isSome) + s.pc.pend
  frames : ∀ f ∈ s.stack, f.Ok s.client
  head : ∀ f, s.stack.head? = some f → f.Fresh s
  main : s.stack = [] → ∀ i tmp, s.pc = .storeN i tmp → tmp = s.nclients

theorem books_init : Books init where
  table := {
    pids := List.nodup_nil
    slots := List.nodup_nil
    bound := nofun
    positive := nofun
    owned := fun _ _ => Or.inl rfl }
  children := nofun
  marked := nofun
  count := rfl
  frames := nofun
  head := nofun
  main _ _ _ := nofun

/-- The slot that was marked is the one that was taken. -/
theorem marked_taken {pc : MainPc} {i : Nat} (h : pc.marked = some i) : pc.taken = some i := by
  cases pc <;> first | exact h | cases h

/-- A handler does not mind a pid in another's slot. -/
theorem Frame.Ok.setPid {client : Nat → Client} {f : Frame} (h : f.Ok client) {i : Nat} {pid : Int}
    (hi : (∃ p, f.held = some (p, some i)) → pid = 0 ∨ (client i).pid ≠ 0) : f.Ok (Echo.setPid client i pid) := by
  cases f with
  | sigint => trivial
  | sigchld pc =>
    cases pc with
    | wait => trivial
    | del p slot at_ =>
      have hclear : (∃ j, slot = some j ∧ (client j).pid = 0) → ∃ j, slot = some j ∧ (Echo.setPid client i pid j).pid = 0 := by
        rintro ⟨j, rfl, hj⟩
        refine ⟨j, rfl, ?_⟩
        by_cases e : j = i
        · subst e
          rw [setPid_self]
          exact (hi ⟨p, rfl⟩).elim id fun hne => absurd hj hne
        · rw [setPid_ne _ _ e, hj]
      cases at_ with
      | find => trivial
      | load | store | clear => exact h
      | loadN | storeN => exact hclear h

theorem held_wake (stack : List Frame) : (wake stack).filterMap Frame.held = stack.filterMap Frame.held := by
  unfold wake
  split <;> rfl

theorem frames_wake {client : Nat → Client} {stack : List Frame} (h : ∀ f ∈ stack, f.Ok client) : ∀ f ∈ wake stack, f.Ok client := by
  unfold wake
  split
  · exact List.forall_mem_cons.mpr ⟨trivial, fun f hf => h f (List.mem_cons_of_mem _ hf)⟩
  · exact h

theorem held_setChild (children : List Child) (pid : Nat) (pc : ChildPc) :
    (setChild children pid pc).map Child.held = children.map Child.held := by
  unfold setChild
  rw [List.map_map]
  refine List.map_congr_left fun c _ => ?_
  rw [Function.comp_apply]
  split_ifs <;> rfl

theorem mem_setChild {children : List Child} {pid : Nat} {pc : ChildPc} {c : Child} (h : c ∈ setChild children pid pc) :
    ∃ d ∈ children, c.pid = d.pid ∧ c.c = d.c ∧ (c = d ∨ c.pid = pid ∧ c.pc = pc) := by
  obtain ⟨d, hd, rfl⟩ := List.mem_map.mp h
  refine ⟨d, hd, ?_⟩
  split_ifs with e
  · exact ⟨rfl, rfl, Or.inr ⟨e, rfl⟩⟩
  · exact ⟨rfl, rfl, Or.inl rfl⟩

/-- A child at another place has its pid and its slot. -/
theorem child_slot_setChild {s : State} {c : Child} (hc : c ∈ s.children) {i : Nat} (hi : c.c = some i) {pid : Nat} {pc : ChildPc} :
    (c.pid, some i) ∈ s.stack.filterMap Frame.held ++ (setChild s.children pid pc).map Child.held := by
  rw [held_setChild]
  exact List.mem_append_right _ (hi ▸ List.mem_map_of_mem (f := Child.held) hc)

/-- Reaping takes one child out. -/
theorem perm_reap {children : List Child} (hn : (children.map Child.pid).Nodup) {c : Child} (hc : c ∈ children) :
    children.Perm (c :: children.filter (·.pid ≠ c.pid)) := by
  obtain ⟨l, r, rfl⟩ := List.append_of_mem hc
  rw [List.map_append, List.map_cons, List.nodup_append] at hn
  obtain ⟨-, hr, hlr⟩ := hn
  have hl' : l.filter (·.pid ≠ c.pid) = l := List.filter_eq_self.mpr fun d hd =>
    decide_eq_true (hlr d.pid (List.mem_map_of_mem hd) c.pid List.mem_cons_self)
  have hr' : r.filter (·.pid ≠ c.pid) = r := List.filter_eq_self.mpr fun d hd => decide_eq_true fun e =>
    (List.nodup_cons.mp hr).1 (e ▸ List.mem_map_of_mem hd)
  rw [List.filter_append, hl', List.filter_cons_of_neg (by simp), hr']
  exact List.perm_middle

section Steps

variable {s s' : State} {a : Act}

theorem held_nil (hs : s.stack = []) : s.held = s.children.map Child.held := by
  rw [State.held, hs]
  rfl

theorem held_cons {f : Frame} {rest : List Frame} {x : Held} (hs : s.stack = f :: rest) (hf : f.held = some x) :
    s.held = x :: (rest.filterMap Frame.held ++ s.children.map Child.held) := by
  rw [State.held, hs, List.filterMap_cons_some hf, List.cons_append]

theorem held_skip {f : Frame} {rest : List Frame} (hs : s.stack = f :: rest) (hf : f.held = none) :
    s.held = rest.filterMap Frame.held ++ s.children.map Child.held := by
  rw [State.held, hs, List.filterMap_cons_none hf]

theorem child_slot {c : Child} (hc : c ∈ s.children) : (c.pid, c.c) ∈ s.held :=
  List.mem_append_right _ (List.mem_map_of_mem (f := Child.held) hc)

theorem child_mem_slots {c : Child} (hc : c ∈ s.children) {i : Nat} (hi : c.c = some i) : i ∈ slotsOf s.held :=
  mem_slotsOf.mpr ⟨c.pid, hi ▸ child_slot hc⟩

/-- A step that only moves `main` to a place with the same slot. -/
theorem Books.goto (h : Books s) (hs : s.stack = []) {pc : MainPc} {old m : Mask} (ht : pc.taken = s.pc.taken)
    (hm : ∀ i, pc.marked = some i → (s.client i).pid = -1) (hp : pc.pend = s.pc.pend)
    (htmp : ∀ i tmp, pc = .storeN i tmp → tmp = s.nclients) : Books { s with pc := pc, oldMask := old, mask := m } where
  table := ht ▸ h.table
  children := h.children
  marked := hm
  count := hp ▸ h.count
  frames := h.frames
  head f hf := absurd hf (by rw [hs]; nofun)
  main _ := htmp

theorem books_main (h : Books s) (hs : s.stack = []) (hst : MainStep s a s') : Books s' := by
  have htable := h.table
  have hheld := held_nil hs
  cases hst with
  | accept hp | block hp | print hp | unblock hp =>
    exact h.goto hs (by rw [hp]; rfl) nofun (by rw [hp]; rfl) nofun
  | full hp hf => exact h.goto hs (by rw [hp]; rfl) nofun (by rw [hp]; rfl) nofun
  | @find i hp hf =>
    obtain ⟨hi, hpid⟩ := findclient_some hf
    rw [hp] at htable
    refine ⟨htable.take hi fun hmem => ?_, h.children, nofun, ?_, h.frames, h.head, fun _ => nofun⟩
    · -- a slot of a child is not free
      rw [hheld] at hmem
      obtain ⟨p, hmem⟩ := mem_slotsOf.mp hmem
      obtain ⟨c, hc, e⟩ := List.mem_map.mp hmem
      exact h.children c hc i (congrArg Prod.snd e) hpid
    · have := h.count
      rw [hp] at this
      exact this
  | @setPid i hp =>
    have ht : s.pc.taken = some i := by rw [hp]; rfl
    have hcount := h.count
    rw [hp] at hcount
    rw [ht] at htable
    refine ⟨htable.setPid _ (Or.inr (Or.inl ⟨rfl, rfl⟩)), fun c hc j hj => ?_, fun j hj => ?_, hcount, ?_,
      fun f hf => absurd hf (by rw [hs]; nofun), fun _ => nofun⟩
    · have hne : j ≠ i := by
        rintro rfl
        exact htable.taken_free rfl (child_mem_slots hc hj)
      change (setPid s.client i (-1) j).pid ≠ 0
      rw [setPid_ne _ _ hne]
      exact h.children c hc j hj
    · obtain rfl : i = j := Option.some.inj hj
      exact setPid_self s.client i (-1)
    · rw [hs]
      exact nofun
  | @setNread i hp =>
    have ht : s.pc.taken = some i := by rw [hp]; rfl
    have hcount := h.count
    rw [hp] at hcount
    rw [ht] at htable
    refine ⟨htable.setNread i 0, fun c hc j hj => ?_, fun j hj => ?_, hcount, ?_,
      fun f hf => absurd hf (by rw [hs]; nofun), fun _ => nofun⟩
    · exact (setNread_pid s.client i j 0).trans_ne (h.children c hc j hj)
    · exact (setNread_pid s.client i j 0).trans (h.marked j (by rw [hp]; exact hj))
    · rw [hs]
      exact nofun
  | @loadN i hp =>
    refine h.goto hs (by rw [hp]; rfl) (fun j hj => h.marked j (by rw [hp]; exact hj)) (by rw [hp]; rfl) fun j tmp e => ?_
    cases e
    rfl
  | @storeN i tmp hp =>
    have ht : s.pc.taken = some i := by rw [hp]; rfl
    refine ⟨ht ▸ htable, h.children, fun j hj => h.marked j (by rw [hp]; exact hj), ?_, h.frames,
      fun f hf => absurd hf (by rw [hs]; nofun), fun _ => nofun⟩
    have hcount := h.count
    rw [hp] at hcount
    have htmp := h.main hs i tmp hp
    change tmp + 1 = (s.held.countP _ : Int) + (1 : Nat)
    rw [htmp, hcount]
    rfl
  | @fork c pid hp h0 hpid =>
    have ht : s.pc.taken = c := by rw [hp]; rfl
    have hmark : ∀ i, c = some i → (s.client i).pid = -1 := fun i hi => h.marked i (by rw [hp]; exact hi)
    -- the child comes behind the others
    have hperm : ((pid, c) :: s.held).Perm
        (s.stack.filterMap Frame.held ++ (s.children ++ [Child.mk pid c .start]).map Child.held) := by
      rw [hheld, hs, List.map_append]
      exact (List.perm_append_singleton _ _).symm
    have hfresh : pid ∉ s.held.map Prod.fst := by
      rw [hheld, List.map_map]
      intro hmem
      obtain ⟨d, hd, e⟩ := List.mem_map.mp hmem
      exact hpid d hd e
    rw [ht] at htable
    refine ⟨(htable.fork h0 hfresh hmark).perm hperm, fun d hd j hj => ?_, nofun, ?_, h.frames,
      fun f hf => absurd hf (by rw [hs]; nofun), fun _ => nofun⟩
    · rcases List.mem_append.mp hd with hd | hd
      · exact h.children d hd j hj
      · obtain rfl := List.mem_singleton.mp hd
        rw [hmark j hj]
        decide
    · have hcount := h.count
      rw [hp] at hcount
      change s.nclients =
        ((s.stack.filterMap Frame.held ++ (s.children ++ [Child.mk pid c .start]).map Child.held).countP _ : Int) + (0 : Nat)
      rw [← hperm.countP_eq, List.countP_cons, hcount]
      cases c <;> simp [MainPc.pend]
  | forkFail hp => exact ⟨h.table, h.children, h.marked, h.count, h.frames, h.head, h.main⟩

/-- Under a mask that lets SIGCHLD through there is no `sigchld_handler` on top, and `main` is not at work on the table. -/
theorem Control.below {pc : MainPc} {rest : List Frame} {m : Mask} (h : Control pc rest m) (hm : m.chld = false) :
    (∀ f, rest.head? = some f → ∀ t : State, f.Fresh t) ∧ (rest = [] → ¬pc.critical) := by
  cases rest with
  | nil => exact ⟨nofun, fun _ hc => absurd (h hc) (by rw [hm]; decide)⟩
  | cons f rest =>
    cases f with
    | sigchld pc' old => exact absurd h.1 (by rw [hm]; decide)
    | sigint pc' old =>
      refine ⟨fun f hf t => ?_, nofun⟩
      cases hf
      trivial

/-- A step that only moves the handler on top, with the same process in its hands. -/
theorem Books.move (h : Books s) {f g : Frame} {rest : List Frame} (hs : s.stack = f :: rest) (hheld : g.held = f.held)
    (hok : g.Ok s.client) (hfresh : g.Fresh s) {m : Mask} {pr : Option Nat} :
    Books { s with stack := g :: rest, mask := m, printed := pr } := by
  have hsame : s.held = (g :: rest).filterMap Frame.held ++ s.children.map Child.held := by
    rw [State.held, hs, List.filterMap_cons, List.filterMap_cons, hheld]
  have htable := h.table
  have hcount := h.count
  have hframes := h.frames
  rw [hsame] at htable hcount
  rw [hs] at hframes
  refine ⟨htable, h.children, h.marked, hcount, ?_, fun g' hg => ?_, nofun⟩
  · exact List.forall_mem_cons.mpr ⟨hok, (List.forall_mem_cons.mp hframes).2⟩
  · cases hg
    cases g with
    | sigint => trivial
    | sigchld pc =>
      cases pc with
      | wait => trivial
      | del pid slot at_ => cases at_ <;> exact hfresh

theorem books_chld (h : Books s) {pc : ChldPc} {old : Mask} {rest : List Frame} (hs : s.stack = .sigchld pc old :: rest)
    (hctl : s.Controlled) (hst : ChldStep s old rest pc a s') : Books s' := by
  have htable := h.table
  have hframes := h.frames
  rw [hs] at hframes
  obtain ⟨htop, hrest⟩ := List.forall_mem_cons.mp hframes
  have hhead := h.head _ (by rw [hs]; rfl)
  cases hst with
  | @reap c hc hz =>
    have hheld := held_skip hs rfl
    have hpids : (s.children.map Child.pid).Nodup := by
      have := htable.pids
      rw [State.held, List.map_append, List.map_map] at this
      exact this.of_append_right
    -- the child goes from one part of the list to the other
    have hperm : s.held.Perm (((Frame.sigchld (.del c.pid c.c .find) old) :: rest).filterMap Frame.held ++
        (s.children.filter (·.pid ≠ c.pid)).map Child.held) := by
      rw [hheld]
      exact (((perm_reap hpids hc).map Child.held).append_left _).trans List.perm_middle
    refine ⟨htable.perm hperm, fun d hd => h.children d (List.mem_of_mem_filter hd), h.marked, ?_, ?_, fun f hf => ?_, nofun⟩
    · exact (hperm.countP_eq _) ▸ h.count
    · exact List.forall_mem_cons.mpr ⟨trivial, hrest⟩
    · cases hf
      trivial
  | «return» hz =>
    have hheld := held_skip hs rfl
    have hcount := h.count
    rw [hheld] at htable hcount
    rw [State.Controlled, hs] at hctl
    obtain ⟨hfresh, hmain⟩ := hctl.2.2.2.below hctl.2.1
    refine ⟨htable, h.children, h.marked, hcount, hrest, fun f hf => hfresh f hf _, fun e i tmp hp => ?_⟩
    have hp' : s.pc = .storeN i tmp := hp
    exact absurd (by rw [hp']; trivial) (hmain e)
  | @find pid slot i hf =>
    have hmem : (pid, slot) ∈ s.held := by
      rw [held_cons hs rfl]
      exact List.mem_cons_self
    exact h.move (g := .sigchld (.del pid slot (.load i)) old) hs rfl (htable.find_slot hmem hf) trivial
  | assert hf => exact ⟨h.table, h.children, h.marked, h.count, h.frames, h.head, h.main⟩
  | @load pid slot i =>
    exact h.move (g := .sigchld (.del pid slot (.store i (s.nread + (s.client i).nread))) old) hs rfl htop rfl
  | @store pid slot i tmp =>
    have hmove : Books { s with stack := .sigchld (.del pid slot (.clear i)) old :: rest } :=
      h.move (g := .sigchld (.del pid slot (.clear i)) old) hs rfl htop trivial
    refine ⟨hmove.table, hmove.children, hmove.marked, hmove.count, hmove.frames, fun f hf => ?_, nofun⟩
    cases hf
    trivial
  | @clear pid slot i =>
    obtain rfl : slot = some i := htop
    have hheld := held_cons hs rfl
    have hfree : i ∉ slotsOf (rest.filterMap Frame.held ++ s.children.map Child.held) := by
      have := htable.slots_nodup
      rw [hheld] at this
      exact (List.nodup_cons.mp this).1
    have hmem : i ∈ slotsOf s.held := mem_slotsOf.mpr ⟨pid, by rw [hheld]; exact List.mem_cons_self⟩
    have hother : ∀ j, j ≠ i → (setPid s.client i 0 j).pid = (s.client j).pid := fun j hj => by rw [setPid_ne _ _ hj]
    have htable' := htable.setPid (i := i) _ (Or.inl rfl)
    have hcount := h.count
    rw [hheld] at htable' hcount
    refine ⟨htable', fun d hd j hj => ?_, fun j hj => ?_, ?_, ?_, fun f hf => ?_, nofun⟩
    · have hne : j ≠ i := by
        rintro rfl
        exact hfree (mem_slotsOf.mpr ⟨d.pid, List.mem_append_right _ (hj ▸ List.mem_map_of_mem (f := Child.held) hd)⟩)
      exact (hother j hne).trans_ne (h.children d hd j hj)
    · have hne : j ≠ i := by
        rintro rfl
        exact htable.taken_free (marked_taken hj) hmem
      exact (hother j hne).trans (h.marked j hj)
    · exact hcount
    · refine List.forall_mem_cons.mpr ⟨⟨i, rfl, setPid_self s.client i 0⟩, fun f hf => ?_⟩
      exact (hrest f hf).setPid fun _ => Or.inl rfl
    · cases hf
      trivial
  | @loadN pid slot =>
    exact h.move (g := .sigchld (.del pid slot (.storeN s.nclients)) old) hs rfl htop rfl
  | @storeN pid slot tmp =>
    obtain ⟨i, rfl, hi⟩ := htop
    have hheld := held_cons hs rfl
    rw [hheld] at htable
    refine ⟨htable.drop fun j hj => ?_, h.children, h.marked, ?_, List.forall_mem_cons.mpr ⟨trivial, hrest⟩, fun f hf => ?_, nofun⟩
    · obtain rfl : i = j := Option.some.inj hj
      exact hi
    · have hcount := h.count
      rw [hheld, List.countP_cons_of_pos rfl] at hcount
      obtain rfl : tmp = s.nclients := hhead
      change s.nclients - 1 = ((rest.filterMap Frame.held ++ s.children.map Child.held).countP _ : Int) + s.pc.pend
      omega
    · cases hf
      trivial

theorem Books.moveInt (h : Books s) {pc pc' : IntPc} {old old' : Mask} {rest : List Frame} (hs : s.stack = .sigint pc old :: rest)
    {m : Mask} {pr : Option Nat} : Books { s with stack := .sigint pc' old' :: rest, mask := m, printed := pr } :=
  h.move (g := .sigint pc' old') hs rfl trivial trivial

theorem books_int (h : Books s) {pc : IntPc} {old : Mask} {rest : List Frame} (hs : s.stack = .sigint pc old :: rest)
    (hst : IntStep s old rest pc s') : Books s' := by
  cases hst with
  | start | loop | done | suspend | restore | print => exact h.moveInt hs
  | exit => exact ⟨h.table, h.children, h.marked, h.count, h.frames, h.head, h.main⟩

/-- A handler is put on the stack. -/
theorem books_deliver (h : Books s) {f : Frame} (hheld : f.held = none) (hok : f.Ok s.client) (hfresh : ∀ t : State, f.Fresh t)
    {m : Mask} {pendingChld pendingInt : Bool} :
    Books { s with pendingChld := pendingChld, pendingInt := pendingInt, mask := m, stack := f :: wake s.stack } := by
  have hsame : s.held = (f :: wake s.stack).filterMap Frame.held ++ s.children.map Child.held := by
    rw [List.filterMap_cons_none hheld, held_wake]
    rfl
  have htable := h.table
  have hcount := h.count
  rw [hsame] at htable hcount
  refine ⟨htable, h.children, h.marked, hcount, List.forall_mem_cons.mpr ⟨hok, frames_wake h.frames⟩, fun g hg => ?_, nofun⟩
  cases hg
  exact hfresh _

/-- A child goes to another place, and nothing else happens that the books are about. -/
theorem books_setChild (h : Books s) (pid : Nat) (pc : ChildPc) (n : Nat) (pending : Bool) :
    Books { s with children := setChild s.children pid pc, echoed := n, pendingChld := pending } := by
  have hsame : s.held = s.stack.filterMap Frame.held ++ (setChild s.children pid pc).map Child.held := by
    rw [held_setChild]
    rfl
  have htable := h.table
  have hcount := h.count
  rw [hsame] at htable hcount
  refine ⟨htable, fun c hc i hi => ?_, h.marked, hcount, h.frames, fun f hf => ?_, h.main⟩
  · obtain ⟨d, hd, -, hslot, -⟩ := mem_setChild hc
    exact h.children d hd i (hslot ▸ hi)
  · have := h.head f hf
    cases f with
    | sigint => trivial
    | sigchld pc =>
      cases pc with
      | wait => trivial
      | del pid slot at_ => cases at_ <;> exact this

/-- The slot of a child is not the one in the hands of `delclient`. -/
theorem Books.child_slot_ne (h : Books s) {c : Child} (hc : c ∈ s.children) {i : Nat} (hi : c.c = some i) {f : Frame}
    (hf : f ∈ s.stack) {p : Nat} : f.held ≠ some (p, some i) := by
  intro hheld
  have hn := h.table.slots_nodup
  rw [State.held, slotsOf, List.filterMap_append] at hn
  have hleft : i ∈ slotsOf (s.stack.filterMap Frame.held) := mem_slotsOf.mpr ⟨p, List.mem_filterMap.mpr ⟨f, hf, hheld⟩⟩
  have hright : i ∈ slotsOf (s.children.map Child.held) :=
    mem_slotsOf.mpr ⟨c.pid, hi ▸ List.mem_map_of_mem (f := Child.held) hc⟩
  exact (List.nodup_append.mp hn).2.2 i hleft i hright rfl

theorem books_child (h : Books s) {c : Child} {b : ChildAct} (hc : c ∈ s.children) (hst : ChildStep s c b s') : Books s' := by
  cases hst with
  | @setPid i hp hi =>
    have hb := books_setChild h c.pid .echo s.echoed s.pendingChld
    have hmem : (c.pid, some i) ∈ s.held := hi ▸ child_slot hc
    have hpos := h.table.positive _ hmem
    have hother : ∀ j, j ≠ i → (setPid s.client i c.pid j).pid = (s.client j).pid := fun j hj => by rw [setPid_ne _ _ hj]
    have htable := hb.table.setPid (i := i) c.pid (Or.inr (Or.inr ⟨c.pid, child_slot_setChild hc hi, Or.inr rfl⟩))
    refine ⟨htable, fun d hd j hj => ?_, fun j hj => ?_, hb.count, fun f hf => ?_, fun f hf => ?_, hb.main⟩
    · by_cases e : j = i
      · subst e
        change (setPid s.client j c.pid j).pid ≠ 0
        rw [setPid_self]
        omega
      · exact (hother j e).trans_ne (hb.children d hd j hj)
    · have hne : j ≠ i := by
        rintro rfl
        exact h.table.taken_free (marked_taken hj) (child_mem_slots hc hi)
      exact (hother j hne).trans (h.marked j hj)
    · exact (h.frames f hf).setPid fun ⟨p, hheld⟩ => absurd hheld (h.child_slot_ne hc hi hf)
    · have hfresh := h.head f hf
      cases f with
      | sigint => trivial
      | sigchld pc =>
        cases pc with
        | wait => trivial
        | del pid slot at_ =>
          cases at_ with
          | store k tmp => exact hfresh.trans (congrArg (s.nread + ·) (setPid_nread s.client i k c.pid).symm)
          | find | load | clear | loadN | storeN => exact hfresh
  | write | eof | crash | kill => exact books_setChild h c.pid _ _ _
  | @account i n hp hi =>
    have hb := books_setChild h c.pid .echo s.echoed s.pendingChld
    refine ⟨hb.table.setNread i _, fun d hd j hj => ?_, fun j hj => ?_, hb.count, fun f hf => ?_, fun f hf => ?_, hb.main⟩
    · exact (setNread_pid s.client i j _).trans_ne (hb.children d hd j hj)
    · exact (setNread_pid s.client i j _).trans (h.marked j hj)
    · have hok := h.frames f hf
      cases f with
      | sigint => trivial
      | sigchld pc =>
        cases pc with
        | wait => trivial
        | del pid slot at_ =>
          cases at_ with
          | find | load | store | clear => exact hok
          | loadN | storeN =>
            obtain ⟨j, e, hj⟩ := hok
            exact ⟨j, e, (setNread_pid s.client i j _).trans hj⟩
    · have hfresh := h.head f hf
      have hmem : f ∈ s.stack := List.mem_of_mem_head? hf
      cases f with
      | sigint => trivial
      | sigchld pc =>
        cases pc with
        | wait => trivial
        | del pid slot at_ =>
          cases at_ with
          | store k tmp =>
            obtain rfl : slot = some k := h.frames _ hmem
            have hne : k ≠ i := by
              rintro rfl
              exact h.child_slot_ne hc hi hmem (p := pid) rfl
            exact hfresh.trans (congrArg (fun x : Client => s.nread + x.nread) (setNread_ne s.client _ hne).symm)
          | find | load | clear | loadN | storeN => exact hfresh

theorem books_step (h : Books s) (hctl : s.Controlled) (hst : Step s a s') : Books s' := by
  cases hst with
  | main hr hs hm => exact books_main h hs hm
  | chld hr hs hc => exact books_chld h hs hctl hc
  | int hr hs hi => exact books_int h hs hi
  | sendInt => exact ⟨h.table, h.children, h.marked, h.count, h.frames, h.head, h.main⟩
  | deliverChld hr hp hm => exact books_deliver h (f := .sigchld .wait s.mask) rfl trivial fun _ => trivial
  | deliverInt hr hp hm => exact books_deliver h (f := .sigint .start { s.mask with int := true }) rfl trivial fun _ => trivial
  | child hc h' => exact books_child h hc h'

end Steps

/-- Handlers nest properly and the books are right, along every run. -/
theorem server_books : server.Inductive fun s => s.Controlled ∧ Books s where
  start := by
    rintro s rfl
    exact ⟨nofun, books_init⟩
  keep := fun _ _ _ ⟨hctl, h⟩ hst => ⟨controlled_step hctl hst, books_step h hctl hst⟩

end OsLabs.Echo
