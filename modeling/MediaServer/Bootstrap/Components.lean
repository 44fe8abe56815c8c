import Mathlib.Data.Finset.Basic
import Mathlib.Data.Finset.Lattice.Lemmas
import Mathlib.Data.Finset.SDiff
import MediaServer.Foundation.Program

/-!
# The components around the server

The media scheduler, the task scheduler, the UDP manager, the heartbeat task
and the managers are external. Of each the server needs what its calls do:

- `start` and `stop` of a component set and clear its started mark;
- `submitHeatbeat` marks the heartbeat task active and queues one entry;
- the media scheduler's `stop` also discards the queued entries;
- `cancel` clears the active mark and leaves the queue alone;
- a manager is active while its last lifecycle call was `activate`.
-/

namespace MediaServer

open Foundation

/-- The calls the server makes on its components, its heartbeat task, its
managers and the logging system. -/
inductive Call (M : Type) where
  | submitHeatbeat
  | cancel
  | mediaSchedulerStart
  | mediaSchedulerStop
  | taskSchedulerStart
  | taskSchedulerStop
  | udpManagerStart
  | udpManagerStop
  | activate (m : M)
  | deactivate (m : M)
  | configuratorShutdown
deriving DecidableEq

structure Components (M : Type) where
  mediaScheduler : Bool
  taskScheduler : Bool
  udpManager : Bool
  logging : Bool
  -- the active mark of the heartbeat task
  heartbeat : Bool
  -- entries of the heartbeat queue, and executions begun on a worker
  queued : ℕ
  inFlight : ℕ
  active : Finset M

namespace Components

variable {M : Type}

/-- The components as the server is handed them: nothing runs yet. -/
def initial : Components M where
  mediaScheduler := false
  taskScheduler := false
  udpManager := false
  logging := true
  heartbeat := false
  queued := 0
  inFlight := 0
  active := ∅

/-- The three core services are started. -/
def servicesUp (e : Components M) : Prop :=
  e.mediaScheduler = true ∧ e.taskScheduler = true ∧ e.udpManager = true

/-- Entries and executions of the heartbeat that are still to come. -/
def beats (e : Components M) : ℕ := e.queued + e.inFlight

/-- A started scheduler takes out one queued entry; the execution begins only
if the task is active at that moment. -/
def takeOut (e : Components M) : Components M :=
  if e.mediaScheduler && decide (0 < e.queued) then
    { e with
      queued := e.queued - 1
      inFlight := if e.heartbeat then e.inFlight + 1 else e.inFlight }
  else e

end Components

variable {M : Type} [DecidableEq M]

/-- What a call does when it does not throw. -/
def Call.effect : Call M → Components M → Components M
  | .submitHeatbeat, e => { e with heartbeat := true, queued := e.queued + 1 }
  | .cancel, e => { e with heartbeat := false }
  | .mediaSchedulerStart, e => { e with mediaScheduler := true }
  | .mediaSchedulerStop, e => { e with mediaScheduler := false, queued := 0 }
  | .taskSchedulerStart, e => { e with taskScheduler := true }
  | .taskSchedulerStop, e => { e with taskScheduler := false }
  | .udpManagerStart, e => { e with udpManager := true }
  | .udpManagerStop, e => { e with udpManager := false }
  | .activate m, e => { e with active := insert m e.active }
  | .deactivate m, e => { e with active := e.active.erase m }
  | .configuratorShutdown, e => { e with logging := false }

/-- Which component calls throw. The heartbeat's own two calls set a mark and
queue an entry; they do not throw. -/
structure Faults (M : Type) where
  throws : Call M → Bool
  submitHeatbeat_ok : throws .submitHeatbeat = false
  cancel_ok : throws .cancel = false

/-- No component call throws. -/
def Faults.none : Faults M := ⟨fun _ => false, rfl, rfl⟩

omit [DecidableEq M] in
@[simp] theorem Faults.none_throws (c : Call M) :
    (Faults.none : Faults M).throws c = false := rfl

/-- Exactly one call throws. -/
def Faults.only (c : Call M) (hsubmit : c ≠ .submitHeatbeat)
    (hcancel : c ≠ .cancel) : Faults M where
  throws d := decide (d = c)
  submitHeatbeat_ok := decide_eq_false hsubmit.symm
  cancel_ok := decide_eq_false hcancel.symm

/-- Activating a list of managers adds them to the active ones and touches
nothing else. -/
theorem applyAll_activate (ms : List M) (e : Components M) :
    Prog.applyAll Call.effect (ms.map .activate) e =
      { e with active := e.active ∪ ms.toFinset } := by
  induction ms generalizing e with
  | nil => simp
  | cons m ms ih =>
      rw [List.map_cons, Prog.applyAll_cons, ih, List.toFinset_cons,
        Finset.union_insert]
      simp only [Call.effect, Finset.insert_union]

theorem applyAll_deactivate (ms : List M) (e : Components M) :
    Prog.applyAll Call.effect (ms.map .deactivate) e =
      { e with active := e.active \ ms.toFinset } := by
  induction ms generalizing e with
  | nil => simp
  | cons m ms ih =>
      rw [List.map_cons, Prog.applyAll_cons, ih, List.toFinset_cons,
        Finset.sdiff_insert]
      simp only [Call.effect, Finset.erase_sdiff_comm]

end MediaServer
