import Mathlib.Logic.Function.Iterate
import Mathlib.Logic.Function.Basic

/-!
# The coroutines of `coro.c`

A coroutine is what it does between two calls of `coro_yield`: from its saved context, the value it is entered with and the world,
the value it yields with its next context, or its return. `step` is one such stretch with the `coro_switch` behind it. The run
queue is a list of the coroutines' numbers.
-/

namespace OsLabs.Coro

def eof : Int := -1

def nothing : Int := -2

/-- What `Setjmp` returns after `Longjmp(ctx, v)`: 0 is turned into 1. -/
def longjmp (v : Int) : Int := if v = 0 then 1 else v

/-- How a stretch of a coroutine ends: in `coro_yield(v)`, to go on from `k`, or in a return. -/
inductive Outcome (κ : Type) where
  | yield (v : Int) (k : κ)
  | done

/-- What runs next: the running coroutine, entered with a value, or the caller of `coro_run`, with its result. -/
inductive Control where
  | enter (v : Int)
  | dispatcher (nv : Int)
  deriving DecidableEq

/-- The state of the coroutines: their contexts are of type `κ`, the rest of the process is of type `W`. -/
structure Machine (κ W : Type) where
  runqueue : List Nat
  running : Nat
  coCtx : Nat → κ
  control : Control
  world : W

variable {κ W : Type}

/-- The machine before any `coro_add`. -/
def Machine.init [Inhabited κ] (w : W) : Machine κ W where
  runqueue := []
  running := 0
  coCtx _ := default
  control := .dispatcher 0
  world := w

/-- `TAILQ_NEXT`. -/
def tailqNext (co : Nat) : List Nat → Option Nat
  | [] => none
  | c :: q => if c = co then q.head? else tailqNext co q

/-- `coro_switch`. -/
def coroSwitch (m : Machine κ W) (v : Int) : Machine κ W :=
  let curr := m.running
  -- `TAILQ_REMOVE` leaves the link of the removed coroutine to the next one as it is
  let next := tailqNext curr m.runqueue
  let runqueue := if v = eof then m.runqueue.erase curr else m.runqueue
  if v = eof ∧ runqueue = [] then { m with runqueue := runqueue, control := .dispatcher (longjmp nothing) }
  else { m with runqueue := runqueue, running := next.getD (runqueue.headD curr), control := .enter (longjmp v) }

/-- `coro_add` of the coroutine `co`, which is entered at the start of `fn`. -/
def coroAdd (m : Machine κ W) (co : Nat) (fn : κ) : Machine κ W :=
  { m with runqueue := m.runqueue ++ [co], coCtx := Function.update m.coCtx co fn }

/-- `coro_run`, to the entry of the first coroutine. -/
def coroRun (m : Machine κ W) (v : Int) : Machine κ W :=
  { m with running := m.runqueue.headD 0, control := .enter (longjmp v) }

/-- The running coroutine to its next `coro_switch`, and the switch; the dispatcher stays where it is. -/
def step (body : κ → Int → W → Outcome κ × W) (m : Machine κ W) : Machine κ W :=
  match m.control with
  | .dispatcher _ => m
  | .enter v =>
    match body (m.coCtx m.running) v m.world with
    | (.yield u k, w) => coroSwitch { m with coCtx := Function.update m.coCtx m.running k, world := w } u
    | (.done, w) => coroSwitch { m with world := w } eof

theorem step_dispatcher {body : κ → Int → W → Outcome κ × W} {m : Machine κ W} {nv : Int} (h : m.control = .dispatcher nv) :
    step body m = m := by
  rw [step, h]

/-- The running coroutine yields. -/
theorem step_yield {body : κ → Int → W → Outcome κ × W} {m : Machine κ W} {v u : Int} {k : κ} {w : W}
    (hm : m.control = .enter v) (hbody : body (m.coCtx m.running) v m.world = (.yield u k, w)) :
    step body m = coroSwitch { m with coCtx := Function.update m.coCtx m.running k, world := w } u := by
  rw [step, hm]
  simp only [hbody]

/-- The running coroutine returns. -/
theorem step_done {body : κ → Int → W → Outcome κ × W} {m : Machine κ W} {v : Int} {w : W} (hm : m.control = .enter v)
    (hbody : body (m.coCtx m.running) v m.world = (.done, w)) : step body m = coroSwitch { m with world := w } eof := by
  rw [step, hm]
  simp only [hbody]

/-- A run ends in one state only. -/
theorem dispatcher_unique {body : κ → Int → W → Outcome κ × W} {m : Machine κ W} {j k : Nat} {nv nv' : Int}
    (hj : ((step body)^[j] m).control = .dispatcher nv) (hk : ((step body)^[k] m).control = .dispatcher nv') :
    (step body)^[j] m = (step body)^[k] m := by
  rcases Nat.le_total j k with hle | hle
  · obtain ⟨d, rfl⟩ := Nat.exists_eq_add_of_le' hle
    rw [Function.iterate_add_apply, Function.iterate_fixed (step_dispatcher hj)]
  · obtain ⟨d, rfl⟩ := Nat.exists_eq_add_of_le' hle
    rw [Function.iterate_add_apply, Function.iterate_fixed (step_dispatcher hk)]

end OsLabs.Coro
