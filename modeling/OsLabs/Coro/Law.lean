import OsLabs.Coro.Sched
import Mathlib.Data.List.Nodup

/-!
# What the scheduler is for (`coro.c`)

The comment on `coro_switch` says that the next coroutine is fed with what the previous one yielded, and that a coroutine which
returned leaves the run queue. `Ring` is that scheduler: the live coroutines in queue order from the one that runs, wrapping round to
the first. A yield moves the running coroutine to the end and hands its value to the next one, a return removes it and hands `EOF` on.

The machine of `coro.c` follows the ring, with one exception: the value travels through `Longjmp`, which turns 0 into 1. So it follows
the ring for ever exactly if no coroutine ever yields 0 (`follows_iff`).
-/

namespace OsLabs.Coro

variable {κ W : Type}

/-- The live coroutines with their contexts, in queue order from the one that is entered, the value it is entered with, and the rest of
the process. -/
structure Ring (κ W : Type) where
  live : List (Nat × κ)
  value : Int
  world : W

/-- The first coroutine of the ring to its next yield, or to its return. -/
def Ring.step (body : κ → Int → W → Outcome κ × W) (r : Ring κ W) : Ring κ W :=
  match r.live with
  | [] => r
  | (co, k) :: rest =>
    match body k r.value r.world with
    | (.yield u k', w) => { live := rest ++ [(co, k')], value := u, world := w }
    | (.done, w) => { live := rest, value := eof, world := w }

/-- Coroutines to run: at least one, and none twice. -/
structure Coros (κ : Type) where
  list : List (Nat × κ)
  ne_nil : list ≠ []
  nodup : (list.map Prod.fst).Nodup

/-- Some calls of `coro_add`. -/
def addAll (m : Machine κ W) (cos : List (Nat × κ)) : Machine κ W := cos.foldl (fun m c => coroAdd m c.1 c.2) m

/-- The machine when `coro_run(v)` enters the first of the coroutines that were added. -/
def start [Inhabited κ] (cos : Coros κ) (v : Int) (w : W) : Machine κ W := coroRun (addAll (.init w) cos.list) v

/-- The ring at the same time. -/
def Ring.start (cos : Coros κ) (v : Int) (w : W) : Ring κ W := { live := cos.list, value := v, world := w }

/-- The machine is where the ring is: the run queue has the live coroutines, in the order in which they were added; the first of the ring
runs, and it was entered with the value of the ring; control is back in the caller of `coro_run`, with `NOTHING`, when none is left. -/
structure Follows (order : List Nat) (m : Machine κ W) (r : Ring κ W) : Prop where
  world : m.world = r.world
  contexts : ∀ c ∈ r.live, m.coCtx c.1 = c.2
  sublist : m.runqueue.Sublist order
  ring : ∃ pre post, m.runqueue = pre ++ post ∧ r.live.map Prod.fst = post ++ pre
  entered : ∀ c rest, r.live = c :: rest → m.running = c.1 ∧ m.control = .enter r.value
  returned : r.live = [] → m.control = .dispatcher nothing

/-- The running coroutine goes on to yield `u`. -/
def Yields (body : κ → Int → W → Outcome κ × W) (m : Machine κ W) (u : Int) : Prop :=
  ∃ v k w, m.control = .enter v ∧ body (m.coCtx m.running) v m.world = (.yield u k, w)

/-! ## The run queue -/

/-- The next coroutine after `co`. -/
theorem tailqNext_append {co : Nat} {pre : List Nat} (post : List Nat) (h : co ∉ pre) :
    tailqNext co (pre ++ co :: post) = post.head? := by
  induction pre with
  | nil => rw [List.nil_append, tailqNext, if_pos rfl]
  | cons c pre ih =>
    rw [List.mem_cons, not_or] at h
    rw [List.cons_append, tailqNext, if_neg (Ne.symm h.1), ih h.2]

/-- The successor of a coroutine is the first of those behind it and then before it, if it stays in the queue. -/
theorem successor_yield (co : Nat) (pre post : List Nat) :
    post.head?.getD ((pre ++ co :: post).headD co) = (post ++ pre ++ [co]).headD co := by
  cases post with
  | nil => cases pre <;> rfl
  | cons p post => rfl

/-- So it is if it is removed. -/
theorem successor_done (co : Nat) (pre post : List Nat) : post.head?.getD ((pre ++ post).headD co) = (post ++ pre).headD co := by
  cases post with
  | nil => rw [List.append_nil]; rfl
  | cons p post => rfl

/-- Turning a ring by one. -/
theorem exists_turn (co : Nat) (pre post : List Nat) :
    ∃ pre' post', pre ++ co :: post = pre' ++ post' ∧ post ++ pre ++ [co] = post' ++ pre' :=
  ⟨pre ++ [co], post, by simp, by simp⟩

/-! ## One step -/

section Step

variable {body : κ → Int → W → Outcome κ × W} {order : List Nat} {m : Machine κ W} {r : Ring κ W} {co : Nat} {k : κ}
  {rest : List (Nat × κ)}

/-- The coroutine that runs, and where it is in the queue. -/
theorem Follows.split (h : Follows order m r) (hn : order.Nodup) (hlive : r.live = (co, k) :: rest) :
    m.running = co ∧ m.control = .enter r.value ∧ m.coCtx co = k ∧ (∀ c ∈ rest, c.1 ≠ co ∧ m.coCtx c.1 = c.2) ∧
      ∃ pre post, m.runqueue = pre ++ co :: post ∧ rest.map Prod.fst = post ++ pre ∧ co ∉ pre := by
  obtain ⟨hrun, hctrl⟩ := h.entered _ _ hlive
  have hplace : ∃ pre post, m.runqueue = pre ++ co :: post ∧ rest.map Prod.fst = post ++ pre := by
    obtain ⟨pre, post, hq, hl⟩ := h.ring
    rw [hlive, List.map_cons] at hl
    cases post with
    | nil =>
      rw [List.append_nil] at hq
      rw [List.nil_append] at hl
      exact ⟨[], rest.map Prod.fst, by rw [hq, ← hl]; rfl, (List.append_nil _).symm⟩
    | cons p post =>
      rw [List.cons_append] at hl
      obtain ⟨rfl, hrest⟩ := List.cons.inj hl
      exact ⟨pre, post, hq, hrest⟩
  obtain ⟨pre, post, hq, hrest⟩ := hplace
  have hnd := hn.sublist h.sublist
  rw [hq, List.nodup_middle, List.nodup_cons, List.mem_append, not_or] at hnd
  refine ⟨hrun, hctrl, h.contexts (co, k) (hlive ▸ List.mem_cons_self), fun c hc => ⟨?_, ?_⟩, pre, post, hq, hrest, hnd.1.1⟩
  · rintro rfl
    have hmem : c.1 ∈ post ++ pre := hrest ▸ List.mem_map_of_mem hc
    exact (List.mem_append.mp hmem).elim hnd.1.2 hnd.1.1
  · exact h.contexts c (hlive ▸ List.mem_cons_of_mem _ hc)

/-- A yield of something else than `EOF` and 0. -/
theorem Follows.yield (h : Follows order m r) (hn : order.Nodup) (hlive : r.live = (co, k) :: rest) {u : Int} {k' : κ} {w : W}
    (hbody : body k r.value r.world = (.yield u k', w)) (heof : u ≠ eof) (h0 : u ≠ 0) : Follows order (step body m) (r.step body) := by
  obtain ⟨hrun, hctrl, hctx, hothers, pre, post, hq, hrest, hpre⟩ := h.split hn hlive
  have hring : r.step body = { live := rest ++ [(co, k')], value := u, world := w } := by
    rw [Ring.step, hlive]
    simp only [hbody]
  have hnames : (rest ++ [(co, k')]).map Prod.fst = post ++ pre ++ [co] := by
    rw [List.map_append, hrest]
    rfl
  rw [step_yield hctrl (by rw [hrun, hctx, h.world]; exact hbody), hring, coroSwitch, if_neg heof, if_neg fun e => heof e.1]
  refine ⟨rfl, fun c hc => ?_, h.sublist, ?_, fun c more hc => ⟨?_, ?_⟩, fun hnil => ?_⟩
  · show Function.update m.coCtx m.running k' c.1 = c.2
    rw [hrun]
    rcases List.mem_append.mp hc with hc | hc
    · rw [Function.update_of_ne (hothers c hc).1]
      exact (hothers c hc).2
    · rw [List.mem_singleton.mp hc, Function.update_self]
  · obtain ⟨pre', post', h1, h2⟩ := exists_turn co pre post
    exact ⟨pre', post', hq.trans h1, hnames.trans h2⟩
  · have hhead : (post ++ pre ++ [co]).headD co = c.1 := by
      rw [← hnames, show rest ++ [(co, k')] = c :: more from hc]
      rfl
    show (tailqNext m.running m.runqueue).getD (m.runqueue.headD m.running) = c.1
    rw [hrun, hq, tailqNext_append post hpre, successor_yield, hhead]
  · show Control.enter (longjmp u) = .enter u
    rw [longjmp, if_neg h0]
  · exact absurd hnil (by simp)

/-- A return. -/
theorem Follows.done (h : Follows order m r) (hn : order.Nodup) (hlive : r.live = (co, k) :: rest) {w : W}
    (hbody : body k r.value r.world = (.done, w)) : Follows order (step body m) (r.step body) := by
  obtain ⟨hrun, hctrl, hctx, hothers, pre, post, hq, hrest, hpre⟩ := h.split hn hlive
  have hring : r.step body = { live := rest, value := eof, world := w } := by
    rw [Ring.step, hlive]
    simp only [hbody]
  have herase : m.runqueue.erase m.running = pre ++ post := by
    rw [hrun, hq, List.erase_append_right _ hpre, List.erase_cons_head]
  have hsub : (m.runqueue.erase m.running).Sublist order := List.erase_sublist.trans h.sublist
  have hcontexts : ∀ c ∈ rest, m.coCtx c.1 = c.2 := fun c hc => (hothers c hc).2
  rw [step_done hctrl (by rw [hrun, hctx, h.world]; exact hbody), hring, coroSwitch, if_pos rfl]
  dsimp only
  by_cases hempty : m.runqueue.erase m.running = []
  · -- the last one has returned
    have hrest' : rest = [] := by
      rw [herase, List.append_eq_nil_iff] at hempty
      rw [hempty.1, hempty.2] at hrest
      exact List.map_eq_nil_iff.mp hrest
    rw [if_pos ⟨rfl, hempty⟩]
    refine ⟨rfl, hcontexts, hsub, ⟨pre, post, herase, hrest⟩, fun c more hc => ?_, fun _ => rfl⟩
    exact absurd (hrest'.symm.trans hc) (List.cons_ne_nil _ _).symm
  · rw [if_neg fun e => hempty e.2]
    refine ⟨rfl, hcontexts, hsub, ⟨pre, post, herase, hrest⟩, fun c more hc => ⟨?_, rfl⟩, fun hnil => ?_⟩
    · have hhead : (post ++ pre).headD co = c.1 := by
        rw [← hrest, show rest = c :: more from hc]
        rfl
      show (tailqNext m.running m.runqueue).getD ((m.runqueue.erase m.running).headD m.running) = c.1
      rw [herase, hrun, hq, tailqNext_append post hpre, successor_done, hhead]
    · change rest = [] at hnil
      rw [hnil, List.map_nil] at hrest
      obtain ⟨rfl, rfl⟩ := List.append_eq_nil_iff.mp hrest.symm
      exact absurd herase hempty

/-- A step of the machine in which no 0 is yielded follows the ring. -/
theorem Follows.step (hbody : ∀ k v w u k' w', body k v w = (.yield u k', w') → u ≠ eof) (h : Follows order m r) (hn : order.Nodup)
    (h0 : ¬ Yields body m 0) : Follows order (Coro.step body m) (r.step body) := by
  cases hlive : r.live with
  | nil =>
    have hring : r.step body = r := by rw [Ring.step, hlive]
    rw [step_dispatcher (h.returned hlive), hring]
    exact h
  | cons c rest =>
    obtain ⟨co, k⟩ := c
    obtain ⟨hrun, hctrl, hctx, -, -⟩ := h.split hn hlive
    cases hout : body k r.value r.world with
    | mk o w =>
      cases o with
      | yield u k' =>
        refine h.yield hn hlive hout (hbody _ _ _ _ _ _ hout) ?_
        rintro rfl
        exact h0 ⟨r.value, k', w, hctrl, by rw [hrun, hctx, h.world]; exact hout⟩
      | done => exact h.done hn hlive hout

/-- A yield of 0 is received as 1. -/
theorem Follows.not_zero (h : Follows order m r) (hn : order.Nodup) (h0 : Yields body m 0) :
    ¬ Follows order (Coro.step body m) (r.step body) := by
  obtain ⟨v, k', w, hctrl, hout⟩ := h0
  intro hnext
  cases hlive : r.live with
  | nil =>
    rw [h.returned hlive] at hctrl
    cases hctrl
  | cons c rest =>
    obtain ⟨co, k⟩ := c
    obtain ⟨hrun, hctrl', hctx, -, -⟩ := h.split hn hlive
    obtain rfl : r.value = v := by
      rw [hctrl'] at hctrl
      exact Control.enter.inj hctrl
    rw [hrun, hctx] at hout
    have hring : r.step body = { live := rest ++ [(co, k')], value := 0, world := w } := by
      rw [Ring.step, hlive]
      simp only [← h.world, hout]
    have hmachine : (Coro.step body m).control = .enter 1 := by
      rw [step_yield hctrl (by rw [hrun, hctx]; exact hout)]
      rfl
    obtain ⟨c, more, hc⟩ := List.exists_cons_of_ne_nil (show rest ++ [(co, k')] ≠ [] by simp)
    rw [hring] at hnext
    have hreceived : Control.enter 1 = .enter 0 := hmachine.symm.trans (hnext.entered c more hc).2
    exact absurd (Control.enter.inj hreceived) (by decide)

end Step

/-! ## The start -/

/-- The machine after some calls of `coro_add`. -/
theorem addAll_spec (m : Machine κ W) (cos : List (Nat × κ)) (hn : (cos.map Prod.fst).Nodup) :
    (addAll m cos).runqueue = m.runqueue ++ cos.map Prod.fst ∧ (addAll m cos).world = m.world ∧
      (∀ c ∈ cos, (addAll m cos).coCtx c.1 = c.2) ∧ ∀ i, i ∉ cos.map Prod.fst → (addAll m cos).coCtx i = m.coCtx i := by
  induction cos generalizing m with
  | nil => exact ⟨(List.append_nil _).symm, rfl, fun c hc => absurd hc List.not_mem_nil, fun _ _ => rfl⟩
  | cons c cos ih =>
    rw [List.map_cons, List.nodup_cons] at hn
    obtain ⟨h1, h2, h3, h4⟩ := ih (coroAdd m c.1 c.2) hn.2
    refine ⟨?_, h2, fun d hd => ?_, fun i hi => ?_⟩
    · show (addAll (coroAdd m c.1 c.2) cos).runqueue = _
      rw [h1, List.map_cons]
      simp [coroAdd]
    · rcases List.mem_cons.mp hd with rfl | hd
      · exact (h4 d.1 hn.1).trans (Function.update_self _ _ _)
      · exact h3 d hd
    · rw [List.map_cons, List.mem_cons, not_or] at hi
      exact (h4 i hi.2).trans (Function.update_of_ne hi.1 _ _)

/-- `coro_run` with something else than 0 enters the first coroutine with it. -/
theorem follows_start [Inhabited κ] (cos : Coros κ) {v : Int} (w : W) (hv : v ≠ 0) :
    Follows (cos.list.map Prod.fst) (start cos v w) (Ring.start cos v w) := by
  obtain ⟨h1, h2, h3, -⟩ := addAll_spec (Machine.init w : Machine κ W) cos.list cos.nodup
  have hq : (start cos v w).runqueue = cos.list.map Prod.fst := h1.trans (List.nil_append _)
  refine ⟨h2, h3, hq ▸ List.Sublist.refl _, ⟨[], cos.list.map Prod.fst, hq, (List.append_nil _).symm⟩, fun c rest hc => ⟨?_, ?_⟩,
    fun hnil => absurd hnil cos.ne_nil⟩
  · show (addAll (Machine.init w : Machine κ W) cos.list).runqueue.headD 0 = c.1
    rw [show (addAll (Machine.init w : Machine κ W) cos.list).runqueue = cos.list.map Prod.fst from hq,
      show cos.list = c :: rest from hc]
    rfl
  · show Control.enter (longjmp v) = .enter v
    rw [longjmp, if_neg hv]

/-! ## The law -/

/-- At every time the machine is where the ring is. -/
def Law [Inhabited κ] (body : κ → Int → W → Outcome κ × W) (cos : Coros κ) (v : Int) (w : W) : Prop :=
  ∀ n, Follows (cos.list.map Prod.fst) ((step body)^[n] (start cos v w)) ((Ring.step body)^[n] (Ring.start cos v w))

/-- For any coroutines that yield no `EOF`: the scheduler keeps its law exactly if none of them ever yields 0. -/
theorem follows_iff [Inhabited κ] (body : κ → Int → W → Outcome κ × W) (cos : Coros κ) (v : Int) (w : W)
    (hbody : ∀ k v w u k' w', body k v w = (.yield u k', w') → u ≠ eof) (hv : v ≠ 0) :
    Law body cos v w ↔ ∀ n, ¬ Yields body ((step body)^[n] (start cos v w)) 0 := by
  constructor
  · intro h n h0
    have hnext := h (n + 1)
    rw [Function.iterate_succ_apply', Function.iterate_succ_apply'] at hnext
    exact (h n).not_zero cos.nodup h0 hnext
  · intro h0 n
    induction n with
    | zero => exact follows_start cos w hv
    | succ n ih =>
      rw [Function.iterate_succ_apply', Function.iterate_succ_apply']
      exact ih.step hbody cos.nodup (h0 n)

/-- Two coroutines without a context of their own. -/
def twoCoros : Coros Unit := ⟨[(0, ()), (1, ())], by decide, by decide⟩

/-- The witness: coroutines that yield 5. -/
theorem follows_iff_five : Law (fun _ _ _ => (.yield 5 (), ())) twoCoros 1 () ↔
    ∀ n, ¬ Yields (fun _ _ _ => (.yield 5 (), ())) ((step fun _ _ _ => (.yield 5 (), ()))^[n] (start twoCoros 1 ())) 0 :=
  follows_iff _ twoCoros 1 () (fun _ _ _ _ _ _ h => by cases h; decide) (by decide)

/-- Coroutines that yield 0: the second one receives 1. -/
theorem zero_received : ¬ ∀ (body : Unit → Int → Unit → Outcome Unit × Unit) (cos : Coros Unit) (v : Int),
    (∀ k v w u k' w', body k v w = (.yield u k', w') → u ≠ eof) → v ≠ 0 → v ≠ eof → Law body cos v () := by
  intro h
  have hlaw := h (fun _ _ _ => (.yield 0 (), ())) twoCoros 1 (fun _ _ _ _ _ _ h => by cases h; decide) (by decide) (by decide) 1
  have hreceived : Control.enter 1 = .enter 0 := (hlaw.entered (1, ()) [(0, ())] rfl).2
  exact absurd (Control.enter.inj hreceived) (by decide)

end OsLabs.Coro
