import OsLabs.Echo.Account

/-!
# The table of the server and its capacity

While `addclient` finds a free slot for every connection, each child has a slot in which it writes its pid before it ends, so
`delclient` finds it; and in `Accept` the counter, the slots in use and the children are as many. The connection after
`MAXCLIENTS` open ones has no slot: its child crashes, and the assertion of `delclient` fails.
-/

namespace OsLabs.Echo

/-- A child ends only by returning from `echo` or by a crash of the program. -/
def OwnEnd (_ : State) : Act → Prop
  | .child _ .kill => False
  | _ => True

/-- A child ends by itself, and `addclient` is called only while a slot is free. -/
def Fits (s : State) (a : Act) : Prop := OwnEnd s a ∧ (a = .run → s.stack = [] → s.pc = .find → findclient s.client 0 ≠ none)

/-- The slots in use. -/
def usedSlots (client : Nat → Client) : Nat := (List.range maxClients).countP fun i => (client i).pid ≠ 0

/-- Every child has a slot, with its pid once it has started; so has the process that `delclient` looks for. -/
structure Filled (s : State) : Prop where
  children : ∀ c ∈ s.children, ∃ i, c.c = some i ∧ (c.pc ≠ .start → (s.client i).pid = c.pid)
  main : s.pc ≠ .fork none
  found : ∀ (pid : Nat) slot old, .sigchld (.del pid slot .find) old ∈ s.stack → ∃ i, slot = some i ∧ (s.client i).pid = (pid : Int)
  running : s.status ≠ .aborted

section Steps

variable {s s' : State} {a : Act}

theorem filled_main (h : Filled s) (hb : Books s) (hs : s.stack = []) (hfits : Fits s a) (hst : MainStep s a s') : Filled s' := by
  have hfound : ∀ {client : Nat → Client} (pid : Nat) slot old, .sigchld (.del pid slot .find) old ∈ s.stack →
      ∃ i, slot = some i ∧ (client i).pid = (pid : Int) := by
    rw [hs]
    exact nofun
  cases hst with
  | accept hp | block hp | find hp hf | print hp | unblock hp | loadN hp | storeN hp =>
    exact ⟨h.children, nofun, hfound, h.running⟩
  | full hp hf => exact absurd hf (hfits.2 rfl hs hp)
  | @setPid i hp =>
    refine ⟨fun c hc => ?_, nofun, hfound, h.running⟩
    obtain ⟨j, hj, hpid⟩ := h.children c hc
    have hne : j ≠ i := by
      rintro rfl
      exact hb.table.taken_free (i := j) (by rw [hp]; rfl) (child_mem_slots hc hj)
    exact ⟨j, hj, fun hpc => (congrArg Client.pid (setPid_ne s.client _ hne)).trans (hpid hpc)⟩
  | @setNread i hp =>
    refine ⟨fun c hc => ?_, nofun, hfound, h.running⟩
    obtain ⟨j, hj, hpid⟩ := h.children c hc
    exact ⟨j, hj, fun hpc => (setNread_pid s.client i j 0).trans (hpid hpc)⟩
  | @fork c pid hp h0 hpid =>
    refine ⟨fun d hd => ?_, nofun, hfound, h.running⟩
    rcases List.mem_append.mp hd with hd | hd
    · exact h.children d hd
    · obtain rfl := List.mem_singleton.mp hd
      cases c with
      | none => exact absurd hp h.main
      | some i => exact ⟨i, rfl, fun hpc => absurd rfl hpc⟩
  | forkFail hp => exact ⟨h.children, h.main, h.found, nofun⟩

theorem filled_chld (h : Filled s) (hb : Books s) {pc : ChldPc} {old : Mask} {rest : List Frame}
    (hs : s.stack = .sigchld pc old :: rest) (hst : ChldStep s old rest pc a s') : Filled s' := by
  have hfound := h.found
  rw [hs] at hfound
  -- the frames below the one on top
  have hbelow : ∀ {f : Frame}, (∀ (pid : Nat) slot old, f ≠ .sigchld (.del pid slot .find) old) → ∀ (pid : Nat) slot old,
      .sigchld (.del pid slot .find) old ∈ f :: rest → ∃ i, slot = some i ∧ (s.client i).pid = (pid : Int) := by
    intro f hf pid slot old hmem
    rcases List.mem_cons.mp hmem with e | hmem
    · exact absurd e.symm (hf pid slot old)
    · exact hfound pid slot old (List.mem_cons_of_mem _ hmem)
  cases hst with
  | @reap c hc hz =>
    refine ⟨fun d hd => h.children d (List.mem_of_mem_filter hd), h.main, fun pid slot old' hmem => ?_, h.running⟩
    rcases List.mem_cons.mp hmem with e | hmem
    · cases e
      obtain ⟨i, hi, hpid⟩ := h.children c hc
      exact ⟨i, hi, hpid (by rw [hz]; nofun)⟩
    · exact hfound pid slot old' (List.mem_cons_of_mem _ hmem)
  | «return» hz => exact ⟨h.children, h.main, fun pid slot old' hmem => hfound pid slot old' (List.mem_cons_of_mem _ hmem), h.running⟩
  | find hf => exact ⟨h.children, h.main, hbelow nofun, h.running⟩
  | @assert pid slot hf =>
    obtain ⟨i, rfl, hpid⟩ := hfound pid slot old List.mem_cons_self
    have hi : i < maxClients := hb.table.bound i (List.mem_append_right _ (mem_slotsOf.mpr ⟨pid, by
      rw [held_cons hs rfl]
      exact List.mem_cons_self⟩))
    exact absurd hf (findclient_ne_none hi hpid)
  | load => exact ⟨h.children, h.main, hbelow nofun, h.running⟩
  | store => exact ⟨h.children, h.main, hbelow nofun, h.running⟩
  | @clear pid slot i =>
    obtain rfl : slot = some i := hb.frames (.sigchld (.del pid slot (.clear i)) old) (by rw [hs]; exact List.mem_cons_self)
    have hfree : i ∉ slotsOf (rest.filterMap Frame.held ++ s.children.map Child.held) := by
      have := hb.table.slots_nodup
      rw [held_cons hs rfl] at this
      exact (List.nodup_cons.mp this).1
    have hother : ∀ j, j ≠ i → (setPid s.client i 0 j).pid = (s.client j).pid := fun j hj => by rw [setPid_ne _ _ hj]
    refine ⟨fun c hc => ?_, h.main, fun p slot old' hmem => ?_, h.running⟩
    · obtain ⟨j, hj, hpid⟩ := h.children c hc
      have hne : j ≠ i := by
        rintro rfl
        exact hfree (mem_slotsOf.mpr ⟨c.pid, List.mem_append_right _ (hj ▸ List.mem_map_of_mem (f := Child.held) hc)⟩)
      exact ⟨j, hj, fun hpc => (hother j hne).trans (hpid hpc)⟩
    · rcases List.mem_cons.mp hmem with e | hrest
      · cases e
      · obtain ⟨j, rfl, hpid⟩ := hfound p slot old' (List.mem_cons_of_mem _ hrest)
        have hne : j ≠ i := by
          rintro rfl
          have hframe : (p, some j) ∈ rest.filterMap Frame.held :=
            List.mem_filterMap.mpr ⟨.sigchld (.del p (some j) .find) old', hrest, rfl⟩
          exact hfree (mem_slotsOf.mpr ⟨p, List.mem_append_left _ hframe⟩)
        exact ⟨j, rfl, (hother j hne).trans hpid⟩
  | loadN => exact ⟨h.children, h.main, hbelow nofun, h.running⟩
  | storeN => exact ⟨h.children, h.main, hbelow nofun, h.running⟩

theorem filled_int (h : Filled s) {pc : IntPc} {old : Mask} {rest : List Frame} (hs : s.stack = .sigint pc old :: rest)
    (hst : IntStep s old rest pc s') : Filled s' := by
  have hfound := h.found
  rw [hs] at hfound
  have hbelow : ∀ {pc' : IntPc} {old' : Mask} (pid : Nat) slot old, .sigchld (.del pid slot .find) old ∈ Frame.sigint pc' old' :: rest →
      ∃ i, slot = some i ∧ (s.client i).pid = (pid : Int) := by
    intro pc' old' pid slot old hmem
    rcases List.mem_cons.mp hmem with e | hmem
    · cases e
    · exact hfound pid slot old (List.mem_cons_of_mem _ hmem)
  cases hst with
  | exit => exact ⟨h.children, h.main, h.found, nofun⟩
  | start | loop | done | suspend | restore | print => exact ⟨h.children, h.main, hbelow, h.running⟩

theorem filled_deliver (h : Filled s) {f : Frame} (hf : ∀ (pid : Nat) slot old, f ≠ .sigchld (.del pid slot .find) old) {m : Mask}
    {pendingChld pendingInt : Bool} :
    Filled { s with pendingChld := pendingChld, pendingInt := pendingInt, mask := m, stack := f :: wake s.stack } := by
  refine ⟨h.children, h.main, fun pid slot old hmem => ?_, h.running⟩
  rcases List.mem_cons.mp hmem with e | hmem
  · exact absurd e.symm (hf pid slot old)
  · refine h.found pid slot old ?_
    unfold wake at hmem
    split at hmem
    · rename_i e
      rcases List.mem_cons.mp hmem with e' | hmem
      · cases e'
      · rw [e]
        exact List.mem_cons_of_mem _ hmem
    · exact hmem

theorem filled_child (h : Filled s) (hb : Books s) {c : Child} {b : ChildAct} (hc : c ∈ s.children)
    (hown : OwnEnd s (.child c.pid b)) (hst : ChildStep s c b s') : Filled s' := by
  have hn := hb.children_nodup
  -- the child that moves is not at its start behind its step, and keeps its slot
  have hmove : ∀ pc, c.pc ≠ .start → ∀ d ∈ setChild s.children c.pid pc,
      ∃ i, d.c = some i ∧ (d.pc ≠ .start → (s.client i).pid = d.pid) := by
    intro pc hpc d hd
    obtain ⟨d', hd', hpid, hslot, rfl | ⟨hp, -⟩⟩ := mem_setChild hd
    · exact h.children _ hd'
    · obtain rfl : d' = c := List.inj_on_of_nodup_map hn hd' hc (hpid.symm.trans hp)
      obtain ⟨i, hi, hpid'⟩ := h.children d' hc
      exact ⟨i, hslot.trans hi, fun _ => (hpid' hpc).trans (by rw [hpid])⟩
  cases hst with
  | @setPid i hp hi =>
    have hother : ∀ j, j ≠ i → (setPid s.client i c.pid j).pid = (s.client j).pid := fun j hj => by rw [setPid_ne _ _ hj]
    refine ⟨fun d hd => ?_, h.main, fun p slot old hmem => ?_, h.running⟩
    · obtain ⟨d', hd', hpid, hslot, hcase⟩ := mem_setChild hd
      by_cases e : d' = c
      · subst e
        exact ⟨i, hslot.trans hi, fun _ => by rw [hpid]; exact setPid_self s.client i d'.pid⟩
      · obtain ⟨j, hj, hpid'⟩ := h.children d' hd'
        have hne : j ≠ i := by
          rintro rfl
          have hpids := hb.table.slot_unique (hi ▸ child_slot hc) (hj ▸ child_slot hd')
          exact e (List.inj_on_of_nodup_map hn hd' hc hpids)
        rcases hcase with rfl | ⟨hp', -⟩
        · exact ⟨j, hj, fun hpc => (hother j hne).trans (hpid' hpc)⟩
        · exact absurd (List.inj_on_of_nodup_map hn hd' hc (hpid.symm.trans hp')) e
    · obtain ⟨j, rfl, hpid⟩ := h.found p slot old hmem
      have hne : j ≠ i := by
        rintro rfl
        exact hb.child_slot_ne hc hi hmem (p := p) rfl
      exact ⟨j, rfl, (hother j hne).trans hpid⟩
  | write hp | eof hp => exact ⟨hmove _ (by rw [hp]; nofun), h.main, h.found, h.running⟩
  | @account i n hp hi =>
    refine ⟨fun d hd => ?_, h.main, fun p slot old hmem => ?_, h.running⟩
    · obtain ⟨j, hj, hpid⟩ := hmove _ (by rw [hp]; nofun) d hd
      exact ⟨j, hj, fun hpc => (setNread_pid s.client i j _).trans (hpid hpc)⟩
    · obtain ⟨j, hj, hpid⟩ := h.found p slot old hmem
      exact ⟨j, hj, (setNread_pid s.client i j _).trans hpid⟩
  | crash hp hnone =>
    obtain ⟨i, hi, -⟩ := h.children c hc
    rw [hnone] at hi
    cases hi
  | kill hp => exact hown.elim

theorem filled_step (h : Filled s) (hb : Books s) (hfits : Fits s a) (hst : Step s a s') : Filled s' := by
  cases hst with
  | main hr hs hm => exact filled_main h hb hs hfits hm
  | chld hr hs hc => exact filled_chld h hb hs hc
  | int hr hs hi => exact filled_int h hs hi
  | sendInt => exact ⟨h.children, h.main, h.found, h.running⟩
  | deliverChld hr hp hm => exact filled_deliver h (f := .sigchld .wait s.mask) nofun
  | deliverInt hr hp hm => exact filled_deliver h (f := .sigint .start { s.mask with int := true }) nofun
  | child hc h' => exact filled_child h hb hc hfits.1 h'

end Steps

theorem filled_init : Filled init where
  children := nofun
  main := nofun
  found := nofun
  running := nofun

/-- Every child has a slot. -/
theorem filled_all {s : State} (h : Filled s) : (s.children.map Child.held).countP (·.2.isSome) = s.children.length := by
  rw [List.countP_eq_length.mpr, List.length_map]
  intro x hx
  obtain ⟨c, hc, rfl⟩ := List.mem_map.mp hx
  obtain ⟨i, hi, -⟩ := h.children c hc
  exact Option.isSome_iff_exists.mpr ⟨i, hi⟩

/-- In `Accept` the slots in use are those of the children. -/
theorem usedSlots_eq {s : State} (h : Filled s) (hb : Books s) (hs : s.stack = []) (hp : s.pc = .accept) :
    usedSlots s.client = s.children.length := by
  have htable := hb.table
  rw [held_nil hs, hp] at htable
  have hlen : (slotsOf (s.children.map Child.held)).length = s.children.length := by
    rw [slotsOf, List.length_filterMap_eq_countP]
    exact filled_all h
  have hperm : ((List.range maxClients).filter fun i => (s.client i).pid ≠ 0).Perm (slotsOf (s.children.map Child.held)) := by
    refine (List.perm_ext_iff_of_nodup (List.nodup_range.filter _) htable.slots_nodup).mpr fun i => ?_
    rw [List.mem_filter, List.mem_range, decide_eq_true_eq]
    constructor
    · rintro ⟨hi, hpid⟩
      rcases htable.owned i hi with h1 | ⟨h1, -⟩ | ⟨p, hmem, -⟩
      · exact absurd h1 hpid
      · cases h1
      · exact mem_slotsOf.mpr ⟨p, hmem⟩
    · intro hi
      obtain ⟨p, hmem⟩ := mem_slotsOf.mp hi
      obtain ⟨c, hc, e⟩ := List.mem_map.mp hmem
      exact ⟨htable.bound i hi, hb.children c hc i (congrArg Prod.snd e)⟩
  rw [usedSlots, List.countP_eq_length_filter, hperm.length_eq, hlen]

theorem filled_count {s : State} (h : Filled s) (hb : Books s) (hs : s.stack = []) (hp : s.pc = .accept) :
    s.nclients = s.children.length := by
  have hcount := hb.count
  rw [held_nil hs, hp, filled_all h] at hcount
  exact hcount

/-- In a run in which `addclient` always finds a free slot and children end only by themselves, the assertion of `delclient` does not
fail, and whenever `main` waits in `Accept` with no handler running, `nclients` is the number of slots in use and of children. -/
theorem clients_consistent (s : State) (hs : (server.guard Fits).Reach s) :
    s.status ≠ .aborted ∧
      (s.pc = .accept → s.stack = [] → s.nclients = usedSlots s.client ∧ s.nclients = s.children.length) := by
  have hinv : (server.guard Fits).Inductive fun s => (s.Controlled ∧ Books s) ∧ Filled s :=
    { start := by
        rintro s rfl
        exact ⟨server_books.start init rfl, filled_init⟩
      keep := fun s a s' ⟨hb, h⟩ ⟨hfits, hst⟩ => ⟨server_books.keep s a s' hb hst, filled_step h hb.2 hfits hst⟩ }
  obtain ⟨⟨-, hb⟩, h⟩ := hinv.reach hs
  refine ⟨h.running, fun hp hstack => ?_⟩
  rw [usedSlots_eq h hb hstack hp]
  exact ⟨filled_count h hb hstack hp, filled_count h hb hstack hp⟩

/-! ## One connection after the other -/

/-- `main` forks a child for the connection and goes back to `Accept`. -/
def State.connected (s : State) (c : Option Nat) (pid : Nat) : State :=
  { s with
    pc := .accept
    mask := s.oldMask
    children := s.children ++ [{ pid := pid, c := c, pc := .start }] }

theorem path_connected {G : State → Act → Prop} (hG : ∀ (t : State) pid, t.pc ≠ .find → G t (.fork pid) ∧ G t .run) {s : State}
    {c : Option Nat} (pid : Nat) (hr : s.status = .running) (hs : s.stack = []) (hp : s.pc = .fork c) (h0 : 0 < pid)
    (hpid : ∀ d ∈ s.children, d.pid ≠ pid) : (server.guard G).Path s (s.connected c pid) := by
  refine Sys.Path.head (.fork pid) ⟨(hG _ pid (by rw [hp]; nofun)).1, .main hr hs (.fork hp h0 hpid)⟩ ?_
  refine Sys.Path.head .run ⟨(hG _ pid fun e => (by cases e)).2, .main hr hs (.print rfl)⟩ ?_
  exact Sys.Path.head .run ⟨(hG _ pid fun e => (by cases e)).2, .main hr hs (.unblock rfl)⟩ (Sys.Path.refl _ _)

/-- `k` clients are connected, and none of the children has started. -/
def crowded (k : Nat) : State :=
  { init with
    client := fun i => if i < k then { pid := -1, nread := 0 } else { pid := 0, nread := 0 }
    nclients := k
    children := (List.range k).map fun i => { pid := i + 1, c := some i, pc := .start } }

theorem path_crowded {G : State → Act → Prop}
    (hfree : ∀ t : State, t.stack = [] → (t.pc = .find → findclient t.client 0 ≠ none) → G t .accept ∧ G t .run)
    (hfork : ∀ (t : State) pid, t.pc ≠ .find → G t (.fork pid) ∧ G t .run) {k : Nat} (hk : k < maxClients) :
    (server.guard G).Path (crowded k) (crowded (k + 1)) := by
  have hfind : findclient (crowded k).client 0 = some k := by
    refine List.find?_range_eq_some.mpr ⟨?_, List.mem_range.mpr hk, fun j hj => ?_⟩
    · change (if k < k then Client.mk (-1) 0 else ⟨0, 0⟩).pid == 0
      rw [if_neg (by omega)]
      rfl
    · change !((if j < k then Client.mk (-1) 0 else ⟨0, 0⟩).pid == 0)
      rw [if_pos hj]
      rfl
  have hlast : ((crowded k).added k).connected (some k) (k + 1) = crowded (k + 1) := by
    have hclient : setNread (setPid (crowded k).client k (-1)) k 0 = (crowded (k + 1)).client := by
      funext j
      change _ = if j < k + 1 then Client.mk (-1) 0 else ⟨0, 0⟩
      rcases Nat.lt_trichotomy j k with hj | rfl | hj
      · rw [setNread_ne _ _ (by omega), setPid_ne _ _ (by omega), if_pos (by omega)]
        exact if_pos hj
      · rw [if_pos (by omega), setNread, Function.update_self, setPid, Function.update_self]
      · rw [setNread_ne _ _ (by omega), setPid_ne _ _ (by omega), if_neg (by omega)]
        exact if_neg (by omega)
    have hchildren : (crowded k).children ++ [{ pid := k + 1, c := some k, pc := .start }] = (crowded (k + 1)).children := by
      change _ = (List.range (k + 1)).map _
      rw [List.range_succ, List.map_append]
      rfl
    unfold State.connected State.added
    simp only [hclient, hchildren]
    rfl
  have h1 : (server.guard G).Path (crowded k) ((crowded k).added k) := path_added hfree rfl rfl rfl hfind
  have h2 : (server.guard G).Path ((crowded k).added k) (((crowded k).added k).connected (some k) (k + 1)) := by
    refine path_connected hfork _ rfl rfl rfl (by omega) fun d hd => ?_
    obtain ⟨i, hi, rfl⟩ := List.mem_map.mp hd
    have := List.mem_range.mp hi
    change i + 1 ≠ k + 1
    omega
  exact hlast ▸ h1.trans h2

/-- Two clients are connected; the child of the first starts, ends, and is reaped. -/
theorem clients_consistent_reaped : ∃ s, (server.guard Fits).Reach s ∧ s.nclients = 1 ∧ s.nclients = usedSlots s.client ∧
    s.nclients = s.children.length := by
  have hfits : ∀ (t : State) pid b, b ≠ .kill → Fits t (.child pid b) := by
    intro t pid b hb
    cases b with
    | kill => exact absurd rfl hb
    | _ => exact ⟨trivial, nofun⟩
  have hrun : ∀ t : State, t.stack ≠ [] → Fits t .run := fun t ht => ⟨trivial, fun _ he => absurd he ht⟩
  have hcrowded : (server.guard Fits).Path (crowded 0) (crowded 2) := Sys.Path.rounds crowded 2 fun j hj =>
    path_crowded (fun t _ hfind => ⟨⟨trivial, nofun⟩, trivial, fun _ _ => hfind⟩)
      (fun t pid hp => ⟨⟨trivial, nofun⟩, trivial, fun _ _ e => absurd e hp⟩) (hj.trans (by decide))
  have hstart : init = crowded 0 := rfl
  have h1 : (server.guard Fits).Reach (crowded 2) := Sys.Reach.path (.init hstart.symm) hcrowded
  have h2 := reach_child h1 (c := ⟨1, some 0, .start⟩) List.mem_cons_self (.setPid rfl rfl) (hfits _ _ _ nofun)
  have h3 := reach_child h2 (c := ⟨1, some 0, .echo⟩) List.mem_cons_self (.eof rfl) (hfits _ _ _ nofun)
  have h4 := Sys.Reach.step Act.deliverChld h3 ⟨⟨trivial, nofun⟩, .deliverChld rfl rfl rfl⟩
  have h5 := reach_chld h4 rfl rfl (.reap (c := ⟨1, some 0, .zombie⟩) List.mem_cons_self rfl) ⟨trivial, nofun⟩
  have h6 := reach_chld h5 rfl rfl (.find (i := 0) (by decide +kernel)) (hrun _ nofun)
  have h7 := reach_chld h6 rfl rfl .load (hrun _ nofun)
  have h8 := reach_chld h7 rfl rfl .store (hrun _ nofun)
  have h9 := reach_chld h8 rfl rfl .clear (hrun _ nofun)
  have h10 := reach_chld h9 rfl rfl .loadN (hrun _ nofun)
  have h11 := reach_chld h10 rfl rfl .storeN (hrun _ nofun)
  have h12 := reach_chld h11 rfl rfl (.return (by decide)) (hrun _ nofun)
  exact ⟨_, h12, rfl, (clients_consistent _ h12).2 rfl rfl⟩

/-- One connection more than the table has slots: its child crashes, and the assertion fails. -/
theorem assertion_fails : ∃ s, (server.guard OwnEnd).Reach s ∧ s.status = .aborted := by
  have hstart : init = crowded 0 := rfl
  have h0 : (server.guard OwnEnd).Path (crowded 0) (crowded maxClients) := Sys.Path.rounds crowded maxClients fun j hj =>
    path_crowded (fun _ _ _ => ⟨trivial, trivial⟩) (fun _ _ _ => ⟨trivial, trivial⟩) hj
  have h1 : (server.guard OwnEnd).Reach (crowded maxClients) := Sys.Reach.path (.init hstart.symm) h0
  have hslot : ∀ i, i < maxClients → ((crowded maxClients).client i).pid = -1 := fun i hi => congrArg Client.pid (if_pos hi)
  have hnone : ∀ pid : Int, pid ≠ -1 → findclient (crowded maxClients).client pid = none := fun pid hpid =>
    List.find?_eq_none.mpr fun i hi => by
      rw [hslot i (List.mem_range.mp hi), beq_iff_eq]
      exact Ne.symm hpid
  have hpids : ∀ d ∈ (crowded maxClients).children, d.pid ≠ maxClients + 1 := fun d hd => by
    obtain ⟨i, hi, rfl⟩ := List.mem_map.mp hd
    have := List.mem_range.mp hi
    change i + 1 ≠ maxClients + 1
    omega
  -- the connection is accepted, and its child gets no slot
  have h2 := Sys.Reach.step Act.accept h1 ⟨trivial, .main rfl rfl (.accept rfl)⟩
  have h3 := Sys.Reach.step Act.run h2 ⟨trivial, .main rfl rfl (.block rfl)⟩
  have h4 := Sys.Reach.step Act.run h3 ⟨trivial, .main rfl rfl (.full rfl (hnone 0 (by decide)))⟩
  have h5 := h4.path (path_connected (fun _ _ _ => ⟨trivial, trivial⟩) (maxClients + 1) rfl rfl rfl (Nat.succ_pos _) hpids)
  -- the child crashes and is reaped
  have hmem : Child.mk (maxClients + 1) none .start ∈ (crowded maxClients).children ++ [⟨maxClients + 1, none, .start⟩] :=
    List.mem_append_right _ List.mem_cons_self
  have h6 := reach_child h5 hmem (.crash rfl rfl) trivial
  have hzombie : Child.mk (maxClients + 1) none .zombie ∈
      setChild ((crowded maxClients).children ++ [⟨maxClients + 1, none, .start⟩]) (maxClients + 1) .zombie :=
    List.mem_map.mpr ⟨_, hmem, if_pos rfl⟩
  have h7 := Sys.Reach.step Act.deliverChld h6 ⟨trivial, .deliverChld rfl rfl rfl⟩
  have h8 := reach_chld h7 rfl rfl (.reap hzombie rfl) trivial
  have h9 := reach_chld h8 rfl rfl (.assert (hnone _ (by omega))) trivial
  exact ⟨_, h9, rfl⟩

end OsLabs.Echo
