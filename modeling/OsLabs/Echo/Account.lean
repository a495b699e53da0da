import OsLabs.Echo.Shutdown
import Mathlib.Algebra.BigOperators.Group.List.Basic
import Mathlib.Algebra.Order.Ring.Nat

/-!
# The byte count of the server

The bytes echoed are those in `nread`, those in the slots of clients that `delclient` has not added yet, and those that a child has
written and not yet counted. When `sigint_handler` leaves its loop no client is left, so `nread` is all of them.
-/

namespace OsLabs.Echo

/-- The children end only at the end of their connection. -/
def EndsAtEof (_ : State) : Act → Prop
  | .child _ .kill | .child _ .crash => False
  | _ => True

/-- The bytes in the slot of a process, if it has one. -/
def slotBytes (client : Nat → Client) : Option Nat → Nat
  | some i => (client i).nread
  | none => 0

/-- The bytes in the hands of a handler: those of the slot that are not in `nread` yet. -/
def Frame.owed (client : Nat → Client) : Frame → Nat
  | .sigchld (.del _ slot .find) _ | .sigchld (.del _ slot (.load _)) _ | .sigchld (.del _ slot (.store _ _)) _ =>
    slotBytes client slot
  | _ => 0

/-- The bytes that a child has written and not yet counted. -/
def ChildPc.pending : ChildPc → Nat
  | .wrote n => n
  | _ => 0

/-- The bytes of a child. -/
def Child.owed (client : Nat → Client) (c : Child) : Nat := slotBytes client c.c + c.pc.pending

/-- The bytes echoed that are not in `nread`. -/
def owed (client : Nat → Client) (stack : List Frame) (children : List Child) : Nat :=
  (stack.map (Frame.owed client)).sum + (children.map (Child.owed client)).sum

/-- The slot in which `addclient` has set the byte count to 0. -/
def MainPc.zeroed : MainPc → Option Nat
  | .loadN i | .storeN i _ => some i
  | .fork c => c
  | _ => none

/-- `sigint_handler` has left its loop. -/
def Frame.Done : Frame → Prop
  | .sigint .restore _ | .sigint .print _ | .sigint .exit _ => True
  | _ => False

/-- The accounts of the server. -/
structure Account (s : State) : Prop where
  sum : s.echoed = s.nread + owed s.client s.stack s.children
  idle : ∀ c ∈ s.children, c.c = none → c.pc = .start
  zeroed : ∀ i, s.pc.zeroed = some i → (s.client i).nread = 0
  done : (∃ f ∈ s.stack, f.Done) → s.nclients = 0
  printed : ∀ n, s.printed = some n → n = s.echoed ∧ ∃ f ∈ s.stack, f.Done

/-! ## Sums -/

theorem owed_wake (client : Nat → Client) (stack : List Frame) :
    ((wake stack).map (Frame.owed client)).sum = (stack.map (Frame.owed client)).sum := by
  unfold wake
  split <;> rfl

theorem Frame.owed_eq {f : Frame} {client client' : Nat → Client}
    (h : ∀ p i, f.held = some (p, some i) → (client' i).nread = (client i).nread) : f.owed client' = f.owed client := by
  cases f with
  | sigint => rfl
  | sigchld pc =>
    cases pc with
    | wait => rfl
    | del p slot at_ =>
      cases slot with
      | none => cases at_ <;> rfl
      | some i =>
        have hi := h p i rfl
        cases at_ <;> first | rfl | exact hi

/-- The bytes owed do not change with a slot that nobody holds. -/
theorem owed_congr {client client' : Nat → Client} {stack : List Frame} {children : List Child}
    (h : ∀ i ∈ slotsOf (stack.filterMap Frame.held ++ children.map Child.held), (client' i).nread = (client i).nread) :
    owed client' stack children = owed client stack children := by
  have hstack : stack.map (Frame.owed client') = stack.map (Frame.owed client) :=
    List.map_congr_left fun f hf => Frame.owed_eq fun p i hheld =>
      h i (mem_slotsOf.mpr ⟨p, List.mem_append_left _ (List.mem_filterMap.mpr ⟨f, hf, hheld⟩)⟩)
  have hchildren : children.map (Child.owed client') = children.map (Child.owed client) := by
    refine List.map_congr_left fun c hc => ?_
    unfold Child.owed
    cases e : c.c with
    | none => rfl
    | some i =>
      have hi := h i (mem_slotsOf.mpr ⟨c.pid, List.mem_append_right _ (e ▸ List.mem_map_of_mem (f := Child.held) hc)⟩)
      rw [slotBytes, slotBytes, hi]
  rw [owed, owed, hstack, hchildren]

/-- Nothing is owed by processes without a slot. -/
theorem owed_zero {client : Nat → Client} {stack : List Frame} {children : List Child}
    (h : (stack.filterMap Frame.held ++ children.map Child.held).countP (·.2.isSome) = 0)
    (hidle : ∀ c ∈ children, c.c = none → c.pc = .start) : owed client stack children = 0 := by
  have hnone := List.countP_eq_zero.mp h
  have hslot : ∀ x ∈ stack.filterMap Frame.held ++ children.map Child.held, x.2 = none := fun x hx => by
    simpa using hnone x hx
  refine Nat.add_eq_zero_iff.mpr ⟨List.sum_eq_zero fun n hn => ?_, List.sum_eq_zero fun n hn => ?_⟩
  · obtain ⟨f, hf, rfl⟩ := List.mem_map.mp hn
    cases f with
    | sigint => rfl
    | sigchld pc old =>
      cases pc with
      | wait => rfl
      | del p slot at_ =>
        obtain rfl : slot = none := hslot (p, slot) (List.mem_append_left _ (List.mem_filterMap.mpr ⟨_, hf, rfl⟩))
        cases at_ <;> rfl
  · obtain ⟨c, hc, rfl⟩ := List.mem_map.mp hn
    have hcn : c.c = none := hslot c.held (List.mem_append_right _ (List.mem_map_of_mem hc))
    rw [Child.owed, hcn, hidle c hc hcn]
    rfl

/-- One child goes to another place. -/
theorem setChild_split {children : List Child} (hn : (children.map Child.pid).Nodup) {c : Child} (hc : c ∈ children) (pc : ChildPc) :
    ∃ l r, children = l ++ c :: r ∧ setChild children c.pid pc = l ++ { c with pc := pc } :: r := by
  obtain ⟨l, r, rfl⟩ := List.append_of_mem hc
  refine ⟨l, r, rfl, ?_⟩
  rw [List.map_append, List.map_cons, List.nodup_append] at hn
  obtain ⟨-, hr, hlr⟩ := hn
  have hl' : setChild l c.pid pc = l := (List.map_congr_left fun d hd =>
    if_neg (hlr d.pid (List.mem_map_of_mem hd) c.pid List.mem_cons_self)).trans (List.map_id l)
  have hr' : setChild r c.pid pc = r := (List.map_congr_left fun d hd =>
    if_neg fun (e : d.pid = c.pid) => (List.nodup_cons.mp hr).1 (e ▸ List.mem_map_of_mem hd)).trans (List.map_id r)
  have happ : setChild (l ++ c :: r) c.pid pc = setChild l c.pid pc ++ { c with pc := pc } :: setChild r c.pid pc := by
    unfold setChild
    rw [List.map_append, List.map_cons, if_pos rfl]
  rw [happ, hl', hr']

theorem owed_middle (client : Nat → Client) (stack : List Frame) (l r : List Child) (c : Child) :
    owed client stack (l ++ c :: r) = c.owed client + owed client stack (l ++ r) := by
  simp only [owed, List.map_append, List.map_cons, List.sum_append, List.sum_cons]
  omega

/-- What is owed before and after one child has moved. -/
theorem owed_setChild (client : Nat → Client) (stack : List Frame) {children : List Child} (hn : (children.map Child.pid).Nodup)
    {c : Child} (hc : c ∈ children) (pc : ChildPc) :
    owed client stack (setChild children c.pid pc) + c.pc.pending = owed client stack children + pc.pending := by
  obtain ⟨l, r, h1, h2⟩ := setChild_split hn hc pc
  rw [h2, h1, owed_middle, owed_middle]
  change slotBytes client c.c + pc.pending + owed client stack (l ++ r) + c.pc.pending =
    slotBytes client c.c + c.pc.pending + owed client stack (l ++ r) + pc.pending
  omega

/-- A child counts in its slot what it has written. -/
theorem owed_account {client : Nat → Client} {stack : List Frame} {children : List Child} (hn : (children.map Child.pid).Nodup)
    (hslots : (slotsOf (stack.filterMap Frame.held ++ children.map Child.held)).Nodup) {c : Child} (hc : c ∈ children) {i n : Nat}
    (hi : c.c = some i) (hp : c.pc = .wrote n) :
    owed (setNread client i ((client i).nread + n)) stack (setChild children c.pid .echo) = owed client stack children := by
  obtain ⟨l, r, h1, h2⟩ := setChild_split hn hc .echo
  have hperm : (stack.filterMap Frame.held ++ children.map Child.held).Perm
      (c.held :: (stack.filterMap Frame.held ++ (l ++ r).map Child.held)) := by
    rw [h1, List.map_append, List.map_cons, ← List.append_assoc, List.map_append, ← List.append_assoc]
    exact List.perm_middle
  have hcslot : c.held = (c.pid, some i) := Prod.ext rfl hi
  have hfree : i ∉ slotsOf (stack.filterMap Frame.held ++ (l ++ r).map Child.held) := by
    have := (hperm.filterMap Prod.snd).nodup_iff.mp hslots
    rw [hcslot] at this
    exact (List.nodup_cons.mp this).1
  rw [h2, h1, owed_middle, owed_middle,
    owed_congr fun j hj => congrArg Client.nread (setNread_ne client _ fun (e : j = i) => hfree (e ▸ hj)), Child.owed, Child.owed, hi, hp]
  change (setNread client i ((client i).nread + n) i).nread + 0 + _ = (client i).nread + n + _
  rw [setNread_self]
  rfl

/-! ## Steps -/

section Steps

variable {s s' : State} {a : Act}

theorem Books.children_nodup (h : Books s) : (s.children.map Child.pid).Nodup := by
  have := h.table.pids
  rw [State.held, List.map_append, List.map_map] at this
  exact this.of_append_right

theorem zeroed_taken {pc : MainPc} {i : Nat} (h : pc.zeroed = some i) : pc.taken = some i := by
  cases pc <;> first | exact h | cases h

theorem account_main (h : Account s) (hb : Books s) (hs : s.stack = []) (hst : MainStep s a s') : Account s' := by
  have hnodone : ¬∃ f ∈ s.stack, f.Done := by
    rw [hs]
    rintro ⟨f, hf, -⟩
    cases hf
  have hsum := h.sum
  cases hst with
  | accept hp | block hp | find hp hf | full hp hf | print hp | unblock hp => exact ⟨hsum, h.idle, nofun, h.done, h.printed⟩
  | @setPid i hp =>
    refine ⟨?_, h.idle, nofun, h.done, h.printed⟩
    change s.echoed = s.nread + owed (setPid s.client i (-1)) s.stack s.children
    rw [owed_congr fun j _ => setPid_nread s.client i j (-1)]
    exact hsum
  | @setNread i hp =>
    have hfree := hb.table.taken_free (i := i) (by rw [hp]; rfl)
    refine ⟨?_, h.idle, fun j hj => ?_, h.done, h.printed⟩
    · change s.echoed = s.nread + owed (setNread s.client i 0) s.stack s.children
      rw [owed_congr fun j hj => congrArg Client.nread (setNread_ne s.client 0 fun (e : j = i) => hfree (e ▸ hj))]
      exact hsum
    · obtain rfl : i = j := Option.some.inj hj
      exact setNread_self s.client i 0
  | @loadN i hp => exact ⟨hsum, h.idle, fun j hj => h.zeroed j (by rw [hp]; exact hj), h.done, h.printed⟩
  | @storeN i tmp hp =>
    exact ⟨hsum, h.idle, fun j hj => h.zeroed j (by rw [hp]; exact hj), fun hd => absurd hd hnodone,
      h.printed⟩
  | @fork c pid hp h0 hpid =>
    refine ⟨?_, fun d hd hc => ?_, nofun, h.done, h.printed⟩
    · have hzero : slotBytes s.client c = 0 := by
        cases c with
        | none => rfl
        | some i => exact h.zeroed i (by rw [hp]; rfl)
      change s.echoed = s.nread + owed s.client s.stack (s.children ++ [{ pid := pid, c := c, pc := .start }])
      simp only [owed, List.map_append, List.sum_append, List.map_cons, List.map_nil, List.sum_cons, List.sum_nil, Child.owed,
        hzero, ChildPc.pending] at hsum ⊢
      omega
    · rcases List.mem_append.mp hd with hd | hd
      · exact h.idle d hd hc
      · obtain rfl := List.mem_singleton.mp hd
        rfl
  | forkFail hp => exact ⟨hsum, h.idle, h.zeroed, h.done, h.printed⟩

/-- What is owed behind the frame on top. -/
theorem owed_cons (client : Nat → Client) (f : Frame) (rest : List Frame) (children : List Child) :
    owed client (f :: rest) children = f.owed client + owed client rest children := by
  rw [owed, owed, List.map_cons, List.sum_cons, Nat.add_assoc]

/-- The frames that have left the loop of `sigint_handler` are below a `sigchld_handler`. -/
theorem done_below {pc pc' : ChldPc} {old old' : Mask} {rest : List Frame}
    (h : ∃ f ∈ Frame.sigchld pc old :: rest, f.Done) : ∃ f ∈ Frame.sigchld pc' old' :: rest, f.Done := by
  obtain ⟨f, hf, hd⟩ := h
  rcases List.mem_cons.mp hf with rfl | hf
  · exact hd.elim
  · exact ⟨f, List.mem_cons_of_mem _ hf, hd⟩

/-- A step of `sigchld_handler` that only moves it, with as many bytes in its hands. -/
theorem Account.move (h : Account s) {pc g : ChldPc} {old : Mask} {rest : List Frame} (hs : s.stack = .sigchld pc old :: rest)
    (howed : (Frame.sigchld g old).owed s.client = (Frame.sigchld pc old).owed s.client) :
    Account { s with stack := .sigchld g old :: rest } := by
  have hsum := h.sum
  have hdone := h.done
  have hprinted := h.printed
  rw [hs] at hdone hprinted
  rw [hs, owed_cons, ← howed, ← owed_cons] at hsum
  exact ⟨hsum, h.idle, h.zeroed, fun hd => hdone (done_below hd), fun n hn => ⟨(hprinted n hn).1, done_below (hprinted n hn).2⟩⟩

theorem account_chld (h : Account s) (hb : Books s) {pc : ChldPc} {old : Mask} {rest : List Frame}
    (hs : s.stack = .sigchld pc old :: rest) (hst : ChldStep s old rest pc a s') : Account s' := by
  have hsum := h.sum
  have hdone := h.done
  have hprinted := h.printed
  have htop := hb.frames _ (by rw [hs]; exact List.mem_cons_self)
  have hhead := hb.head _ (by rw [hs]; rfl)
  rw [hs] at hdone hprinted
  cases hst with
  | @reap c hc hz =>
    refine ⟨?_, fun d hd => h.idle d (List.mem_of_mem_filter hd), h.zeroed, fun hd => hdone (done_below hd),
      fun n hn => ⟨(hprinted n hn).1, done_below (hprinted n hn).2⟩⟩
    have hperm := ((perm_reap hb.children_nodup hc).map (Child.owed s.client)).sum_eq
    rw [List.map_cons, List.sum_cons, Child.owed, hz] at hperm
    rw [hs] at hsum
    change s.echoed = s.nread + owed s.client (.sigchld (.del c.pid c.c .find) old :: rest) (s.children.filter (·.pid ≠ c.pid))
    simp only [owed, List.map_cons, List.sum_cons, Frame.owed, hperm, ChildPc.pending] at hsum ⊢
    omega
  | «return» hz =>
    rw [hs, owed_cons] at hsum
    have hbelow : ∀ {P : Prop}, ((∃ f ∈ Frame.sigchld .wait old :: rest, f.Done) → P) → (∃ f ∈ rest, f.Done) → P :=
      fun hP ⟨f, hf, hd⟩ => hP ⟨f, List.mem_cons_of_mem _ hf, hd⟩
    have hzero : (Frame.sigchld .wait old).owed s.client = 0 := rfl
    rw [hzero, Nat.zero_add] at hsum
    refine ⟨hsum, h.idle, h.zeroed, hbelow hdone, fun n hn => ?_⟩
    obtain ⟨hn, f, hf, hd⟩ := hprinted n hn
    rcases List.mem_cons.mp hf with rfl | hf
    · exact hd.elim
    · exact ⟨hn, f, hf, hd⟩
  | find hf => exact h.move hs rfl
  | assert hf => exact ⟨h.sum, h.idle, h.zeroed, h.done, h.printed⟩
  | load => exact h.move hs rfl
  | @store pid slot i tmp =>
    obtain rfl : slot = some i := htop
    obtain rfl : tmp = s.nread + (s.client i).nread := hhead
    refine ⟨?_, h.idle, h.zeroed, fun hd => hdone (done_below hd),
      fun n hn => ⟨(hprinted n hn).1, done_below (hprinted n hn).2⟩⟩
    change s.echoed = s.nread + (s.client i).nread + owed s.client (.sigchld (.del pid (some i) (.clear i)) old :: rest) s.children
    rw [hs] at hsum
    simp only [owed_cons, Frame.owed, slotBytes] at hsum ⊢
    omega
  | @clear pid slot i =>
    have hmove : Account { s with stack := .sigchld (.del pid slot .loadN) old :: rest } := h.move hs rfl
    refine ⟨?_, h.idle, fun j hj => (setPid_nread s.client i j 0).trans (h.zeroed j hj), hmove.done, hmove.printed⟩
    change s.echoed = s.nread + owed (setPid s.client i 0) (.sigchld (.del pid slot .loadN) old :: rest) s.children
    rw [owed_congr fun j _ => setPid_nread s.client i j 0]
    exact hmove.sum
  | loadN => exact h.move hs rfl
  | @storeN pid slot tmp =>
    have hmove : Account { s with stack := .sigchld .wait old :: rest } := h.move hs rfl
    refine ⟨hmove.sum, h.idle, h.zeroed, fun hd => ?_, hmove.printed⟩
    -- the handler has a client in its hands, so `nclients` is not 0
    obtain ⟨i, rfl, -⟩ := htop
    have hcount := hb.count
    rw [held_cons hs rfl, List.countP_cons_of_pos rfl, hmove.done hd] at hcount
    omega

/-- A step of `sigint_handler` that only moves it. -/
theorem Account.moveInt (h : Account s) {pc g : IntPc} {old old' : Mask} {rest : List Frame} (hs : s.stack = .sigint pc old :: rest)
    (hdone : (Frame.sigint g old').Done → s.nclients = 0) (hstays : (Frame.sigint pc old).Done → (Frame.sigint g old').Done)
    {m : Mask} : Account { s with stack := .sigint g old' :: rest, mask := m } := by
  have hsum := h.sum
  have hdone' := h.done
  have hprinted := h.printed
  rw [hs] at hsum hdone' hprinted
  refine ⟨hsum, h.idle, h.zeroed, ?_, fun n hn => ?_⟩
  · rintro ⟨f, hf, hd⟩
    rcases List.mem_cons.mp hf with rfl | hf
    · exact hdone hd
    · exact hdone' ⟨f, List.mem_cons_of_mem _ hf, hd⟩
  · obtain ⟨hn, f, hf, hd⟩ := hprinted n hn
    refine ⟨hn, ?_⟩
    rcases List.mem_cons.mp hf with rfl | hf
    · exact ⟨_, List.mem_cons_self, hstays hd⟩
    · exact ⟨f, List.mem_cons_of_mem _ hf, hd⟩

/-- Where `sigint_handler` has left its loop, all bytes are in `nread`. -/
theorem Account.total (h : Account s) (hb : Books s) (hd : ∃ f ∈ s.stack, f.Done) : s.nread = s.echoed := by
  have hcount := hb.count
  rw [h.done hd] at hcount
  rw [h.sum, owed_zero (by rw [← State.held]; omega) h.idle, Nat.add_zero]

theorem account_int (h : Account s) (hb : Books s) {pc : IntPc} {old : Mask} {rest : List Frame}
    (hs : s.stack = .sigint pc old :: rest) (hst : IntStep s old rest pc s') : Account s' := by
  have hin : ∀ f, f = Frame.sigint pc old → f.Done → ∃ f ∈ s.stack, f.Done := fun f e hd =>
    ⟨f, by rw [hs, e]; exact List.mem_cons_self, hd⟩
  cases hst with
  | start => exact h.moveInt (g := .test) hs False.elim False.elim
  | loop hn => exact h.moveInt (g := .suspend) hs False.elim False.elim
  | done hn => exact h.moveInt (g := .restore) hs (fun _ => hn) False.elim
  | suspend => exact h.moveInt (g := .suspended) hs False.elim False.elim
  | restore => exact h.moveInt (g := .print) hs (fun _ => h.done (hin _ rfl trivial)) fun _ => trivial
  | print =>
    have hd := hin _ rfl trivial
    have hmove : Account { s with stack := .sigint .exit old :: rest, mask := s.mask } :=
      h.moveInt (g := .exit) hs (fun _ => h.done hd) fun _ => trivial
    refine ⟨hmove.sum, h.idle, h.zeroed, hmove.done, fun n hn => ⟨?_, _, List.mem_cons_self, trivial⟩⟩
    exact (Option.some.inj hn).symm.trans (h.total hb hd)
  | exit => exact ⟨h.sum, h.idle, h.zeroed, h.done, h.printed⟩

/-- A handler is put on the stack. -/
theorem account_deliver (h : Account s) {f : Frame} (howed : f.owed s.client = 0) (hnot : ¬f.Done) {m : Mask}
    {pendingChld pendingInt : Bool} :
    Account { s with pendingChld := pendingChld, pendingInt := pendingInt, mask := m, stack := f :: wake s.stack } := by
  have hwake : (∃ g ∈ wake s.stack, g.Done) ↔ ∃ g ∈ s.stack, g.Done := by
    unfold wake
    split
    · rename_i old rest e
      rw [List.exists_mem_cons_iff, e, List.exists_mem_cons_iff]
      exact Iff.rfl
    · exact Iff.rfl
  have htop : (∃ g ∈ f :: wake s.stack, g.Done) ↔ ∃ g ∈ s.stack, g.Done := by
    rw [List.exists_mem_cons_iff, hwake, or_iff_right hnot]
  refine ⟨?_, h.idle, h.zeroed, fun hd => h.done (htop.mp hd), fun n hn => ⟨(h.printed n hn).1, htop.mpr (h.printed n hn).2⟩⟩
  change s.echoed = s.nread + owed s.client (f :: wake s.stack) s.children
  rw [owed_cons, howed, owed, owed_wake, h.sum, owed, Nat.zero_add]

theorem account_child (h : Account s) (hb : Books s) {c : Child} {b : ChildAct} (hc : c ∈ s.children)
    (hends : EndsAtEof s (.child c.pid b)) (hst : ChildStep s c b s') : Account s' := by
  have hsum := h.sum
  have hn := hb.children_nodup
  -- a child that is not at its start has a slot
  have hslot : c.pc ≠ .start → ∃ i, c.c = some i := fun hp => by
    cases e : c.c with
    | none => exact absurd (h.idle c hc e) hp
    | some i => exact ⟨i, rfl⟩
  have hidle : (∃ i, c.c = some i) → ∀ pc, ∀ d ∈ setChild s.children c.pid pc, d.c = none → d.pc = .start := by
    rintro ⟨i, hi⟩ pc d hd hdc
    obtain ⟨d', hd', hpid, hc', rfl | ⟨hp, -⟩⟩ := mem_setChild hd
    · exact h.idle _ hd' hdc
    · have := List.inj_on_of_nodup_map hn hd' hc (hpid.symm.trans hp)
      rw [hc', this, hi] at hdc
      cases hdc
  have hmove := fun pc => owed_setChild s.client s.stack hn hc pc
  cases hst with
  | @setPid i hp hi =>
    refine ⟨?_, hidle ⟨i, hi⟩ _, fun j hj => (setPid_nread s.client i j _).trans (h.zeroed j hj), h.done, h.printed⟩
    change s.echoed = s.nread + owed (setPid s.client i c.pid) s.stack (setChild s.children c.pid .echo)
    rw [owed_congr fun j _ => setPid_nread s.client i j _]
    have := hmove .echo
    rw [hp] at this
    simp only [ChildPc.pending] at this
    omega
  | @write n hp h0 =>
    obtain ⟨i, hi⟩ := hslot (by rw [hp]; nofun)
    refine ⟨?_, hidle ⟨i, hi⟩ _, h.zeroed, h.done, fun m hm => ?_⟩
    · have := hmove (.wrote n)
      rw [hp] at this
      simp only [ChildPc.pending] at this
      change s.echoed + n = s.nread + owed s.client s.stack (setChild s.children c.pid (.wrote n))
      omega
    · -- after the print no child has a slot
      obtain ⟨-, hd⟩ := h.printed m hm
      have hcount := hb.count
      rw [h.done hd] at hcount
      have hzero : s.held.countP (·.2.isSome) = 0 := by omega
      have hnone := List.countP_eq_zero.mp hzero _ (child_slot hc)
      exact absurd (by rw [hi]; rfl) hnone
  | @account i n hp hi =>
    refine ⟨?_, hidle ⟨i, hi⟩ _, fun j hj => ?_, h.done, h.printed⟩
    · change s.echoed = s.nread + owed (setNread s.client i ((s.client i).nread + n)) s.stack (setChild s.children c.pid .echo)
      rw [owed_account hn hb.table.slots_nodup hc hi hp]
      exact hsum
    · have hne : j ≠ i := by
        rintro rfl
        exact hb.table.taken_free (zeroed_taken hj) (child_mem_slots hc hi)
      exact (congrArg Client.nread (setNread_ne s.client _ hne)).trans (h.zeroed j hj)
  | eof hp =>
    refine ⟨?_, hidle (hslot (by rw [hp]; nofun)) _, h.zeroed, h.done, h.printed⟩
    have := hmove .zombie
    rw [hp] at this
    simp only [ChildPc.pending] at this
    change s.echoed = s.nread + owed s.client s.stack (setChild s.children c.pid .zombie)
    omega
  | crash hp hc => exact hends.elim
  | kill hp => exact hends.elim

theorem account_step (h : Account s) (hb : Books s) (hends : EndsAtEof s a) (hst : Step s a s') : Account s' := by
  cases hst with
  | main hr hs hm => exact account_main h hb hs hm
  | chld hr hs hc => exact account_chld h hb hs hc
  | int hr hs hi => exact account_int h hb hs hi
  | sendInt => exact ⟨h.sum, h.idle, h.zeroed, h.done, h.printed⟩
  | deliverChld hr hp hm => exact account_deliver h (f := .sigchld .wait s.mask) rfl not_false
  | deliverInt hr hp hm => exact account_deliver h (f := .sigint .start { s.mask with int := true }) rfl not_false
  | child hc h' => exact account_child h hb hc hends h'

end Steps

theorem account_init : Account init where
  sum := rfl
  idle := nofun
  zeroed := nofun
  done := fun ⟨_, hf, _⟩ => nomatch hf
  printed := nofun

/-- In a run in which the children end only at the end of their connections, the total that `sigint_handler` prints is the number of
bytes echoed. This is for fewer than `2^63` bytes, up to where a `size_t` and `%ld` show the count. -/
theorem printed_echoed (s : State) (hs : (server.guard EndsAtEof).Reach s) (n : Nat) (hn : s.printed = some n) : n = s.echoed := by
  have hinv : (server.guard EndsAtEof).Inductive fun s => (s.Controlled ∧ Books s) ∧ Account s :=
    { start := by
        rintro s rfl
        exact ⟨server_books.start init rfl, account_init⟩
      keep := fun s a s' ⟨hb, h⟩ ⟨hends, hst⟩ => ⟨server_books.keep s a s' hb hst, account_step h hb.2 hends hst⟩ }
  exact ((hinv.reach hs).2.printed n hn).1

theorem reach_child {G : State → Act → Prop} {s s' : State} (h : (server.guard G).Reach s) {c : Child} {b : ChildAct}
    (hc : c ∈ s.children) (hst : ChildStep s c b s') (hG : G s (.child c.pid b)) : (server.guard G).Reach s' :=
  .step (.child c.pid b) h ⟨hG, .child hc hst⟩

theorem reach_chld {G : State → Act → Prop} {s s' : State} (h : (server.guard G).Reach s) {a : Act} {pc : ChldPc} {old : Mask}
    {rest : List Frame} (hr : s.status = .running) (hs : s.stack = .sigchld pc old :: rest) (hst : ChldStep s old rest pc a s')
    (hG : G s a) : (server.guard G).Reach s' :=
  .step a h ⟨hG, .chld hr hs hst⟩

theorem reach_int {G : State → Act → Prop} {s s' : State} (h : (server.guard G).Reach s) {pc : IntPc} {old : Mask}
    {rest : List Frame} (hr : s.status = .running) (hs : s.stack = .sigint pc old :: rest) (hst : IntStep s old rest pc s')
    (hG : G s .run) : (server.guard G).Reach s' :=
  .step .run h ⟨hG, .int hr hs hst⟩

/-- One client echoes five bytes and ends; then SIGINT arrives. -/
theorem printed_echoed_one : ∃ s, (server.guard EndsAtEof).Reach s ∧ s.printed = some 5 ∧ 5 = s.echoed := by
  have h1 : (server.guard EndsAtEof).Reach (init.added 0) :=
    Sys.Reach.path (.init rfl) (path_first fun _ _ _ => ⟨trivial, trivial⟩)
  have h2 : (server.guard EndsAtEof).Reach firstForked :=
    .step (.fork 1) h1 ⟨trivial, .main rfl rfl (.fork rfl (by decide) nofun)⟩
  have h3 := reach_child h2 (c := ⟨1, some 0, .start⟩) List.mem_cons_self (.setPid rfl rfl) trivial
  have h4 := reach_child h3 (c := ⟨1, some 0, .echo⟩) List.mem_cons_self (.write (n := 5) rfl (by decide)) trivial
  have h5 := reach_child h4 (c := ⟨1, some 0, .wrote 5⟩) List.mem_cons_self (.account rfl rfl) trivial
  have h6 := reach_child h5 (c := ⟨1, some 0, .echo⟩) List.mem_cons_self (.eof rfl) trivial
  have h7 := h6.path (path_interrupted rfl rfl (by decide) trivial trivial fun _ _ => trivial)
  have h8 := Sys.Reach.step Act.deliverChld h7 ⟨trivial, .deliverChld rfl rfl rfl⟩
  have h9 := reach_chld h8 rfl rfl (.reap (c := ⟨1, some 0, .zombie⟩) List.mem_cons_self rfl) trivial
  have h10 := reach_chld h9 rfl rfl (.find (i := 0) (by decide +kernel)) trivial
  have h11 := reach_chld h10 rfl rfl .load trivial
  have h12 := reach_chld h11 rfl rfl .store trivial
  have h13 := reach_chld h12 rfl rfl .clear trivial
  have h14 := reach_chld h13 rfl rfl .loadN trivial
  have h15 := reach_chld h14 rfl rfl .storeN trivial
  have h16 := reach_chld h15 rfl rfl (.return nofun) trivial
  have h17 := reach_int h16 rfl rfl (.done rfl) trivial
  have h18 := reach_int h17 rfl rfl .restore trivial
  have h19 := reach_int h18 rfl rfl .print trivial
  exact ⟨_, h19, rfl, printed_echoed _ h19 5 rfl⟩

end OsLabs.Echo
