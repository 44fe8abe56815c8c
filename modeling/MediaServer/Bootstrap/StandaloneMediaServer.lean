import MediaServer.Bootstrap.Components
import MediaServer.Bootstrap.Controllers

/-!
# `StandaloneMediaServer`

The server and its heartbeat as programs over the private fields, and one
specification lemma for each operation. `start` and `stop` come down to their
guard and a straight line of component calls (`startCalls`, `stopCalls`);
everything later is proved about those two lists.
-/

namespace MediaServer

open Foundation

inductive JavaException where
  | illegalState (message : String)
  | illegalArgument (message : String)
deriving DecidableEq

/-- The fields of the server that change or steer a branch. The components
and the heartbeat task are reached through calls. -/
structure Fields (M : Type) {P : Type} [ServerManager M P] where
  started : Bool
  controllers : Controllers M
  heartbeatTime : ℤ
  ttl : ℤ

/-- Methods of the server. -/
abbrev ServerM (M : Type) {P : Type} [ServerManager M P] : Type → Type :=
  Prog (Call M) (Fields M) JavaException

/-- The server together with its components. -/
abbrev Server (M : Type) {P : Type} [ServerManager M P] : Type :=
  World (Fields M) (Components M)

variable {M P : Type} [ServerManager M P]

/-! ## `HeartBeat` -/

namespace HeartBeat

def restart : ServerM M Unit := do
  Prog.modify fun this => { this with ttl := this.heartbeatTime * 600 }
  Prog.invoke .submitHeatbeat

def perform : ServerM M ℤ := do
  Prog.modify fun this => { this with ttl := this.ttl - 1 }
  let this ← Prog.fields
  if this.ttl = 0 then
    restart
  else
    Prog.invoke .submitHeatbeat
  return 0

end HeartBeat

/-! ## The operations -/

namespace StandaloneMediaServer

def isRunning (w : Server M) : Bool := w.fields.started

def start (it : IterationOrder M) : ServerM M Unit := do
  let this ← Prog.fields
  if this.started then
    Prog.raise (.illegalState "Media Server already started.")
  Prog.modify fun this => { this with started := true }
  HeartBeat.restart
  Prog.invoke .mediaSchedulerStart
  Prog.invoke .taskSchedulerStart
  Prog.invoke .udpManagerStart
  let this ← Prog.fields
  (it.arrange this.controllers.values).forM fun controller =>
    Prog.invoke (.activate controller)

def stop (it : IterationOrder M) : ServerM M Unit := do
  let this ← Prog.fields
  if !this.started then
    Prog.raise (.illegalState "Media Server already stopped.")
  Prog.modify fun this => { this with started := false }
  Prog.invoke .udpManagerStop
  Prog.invoke .taskSchedulerStop
  Prog.invoke .mediaSchedulerStop
  Prog.invoke .cancel
  let this ← Prog.fields
  (it.arrange this.controllers.values).forM fun controller =>
    Prog.invoke (.deactivate controller)

section Managers

variable [DecidableEq P] [ToString P]

def addManager : Option M → ServerM M Unit
  | none => pure ()
  | some manager => do
      let protocol := getControlProtocol manager
      let this ← Prog.fields
      if this.controllers.containsKey protocol then
        Prog.raise (.illegalArgument
          (toString protocol ++ " controller is already registered"))
      else
        Prog.modify fun this =>
          { this with controllers := this.controllers.put manager }

def removeManager : Option M → ServerM M Unit
  | none => pure ()
  | some manager =>
      Prog.modify fun this =>
        { this with
          controllers := this.controllers.remove (getControlProtocol manager) }

/-- The constructor's body. -/
def construct (controller : Option M) : ServerM M Unit := do
  Prog.modify fun this =>
    { this with started := false, controllers := Controllers.empty }
  addManager controller
  Prog.modify fun this => { this with heartbeatTime := 1 }

end Managers

end StandaloneMediaServer

/-! ## `SpringMediaServer` -/

namespace SpringMediaServer

/-- After the server is up only the garbage collector is called. -/
def start (it : IterationOrder M) : ServerM M Unit := do
  StandaloneMediaServer.start it
  pure ()

def stop (it : IterationOrder M) : ServerM M Unit := do
  StandaloneMediaServer.stop it
  Prog.invoke .configuratorShutdown

end SpringMediaServer

/-! ## Calling the server -/

/-- The operations of the `MediaServer` interface that change its state. A
manager argument may be `null`. -/
inductive Operation (M : Type) where
  | start (it : IterationOrder M)
  | stop (it : IterationOrder M)
  | addManager (manager : Option M)
  | removeManager (manager : Option M)

variable [DecidableEq M]

section Calling

variable [DecidableEq P] [ToString P]

def Operation.body : Operation M → ServerM M Unit
  | .start it => StandaloneMediaServer.start it
  | .stop it => StandaloneMediaServer.stop it
  | .addManager manager => StandaloneMediaServer.addManager manager
  | .removeManager manager => StandaloneMediaServer.removeManager manager

/-- One call from outside, under the given faults. -/
def call (faults : Faults M) (op : Operation M) (w : Server M) :
    Ending (Call M) JavaException Unit × Server M :=
  op.body.exec Call.effect faults.throws w

/-- `new StandaloneMediaServer(…, controller)`. -/
def Server.new (controller : Option M) : Server M :=
  ((StandaloneMediaServer.construct controller).exec Call.effect
    (fun _ => false) ⟨⟨false, Controllers.empty, 0, 0⟩, .initial⟩).2

/-- The state after a sequence of calls in which no component call throws. -/
def Server.run (w : Server M) (ops : List (Operation M)) : Server M :=
  ops.foldl (fun w op => (call .none op w).2) w

end Calling

/-! ## The heartbeat on a worker -/

/-- The media scheduler takes out one queued heartbeat entry. -/
def Server.takeOut (w : Server M) : Server M := ⟨w.fields, w.env.takeOut⟩

/-- An execution in flight runs the body of `perform()` and ends. -/
def Server.perform (w : Server M) : Server M :=
  if 0 < w.env.inFlight then
    (HeartBeat.perform.exec Call.effect (fun _ => false)
      ⟨w.fields, { w.env with inFlight := w.env.inFlight - 1 }⟩).2
  else w

/-! ## What each operation does -/

/-- The component calls of `start()`, in order. -/
def startCalls (it : IterationOrder M) (c : Controllers M) : List (Call M) :=
  [.submitHeatbeat, .mediaSchedulerStart, .taskSchedulerStart,
    .udpManagerStart] ++ (it.arrange c.values).map .activate

/-- The component calls of `stop()`, in order. -/
def stopCalls (it : IterationOrder M) (c : Controllers M) : List (Call M) :=
  [.udpManagerStop, .taskSchedulerStop, .mediaSchedulerStop, .cancel] ++
    (it.arrange c.values).map .deactivate

/-- The fields `start()` leaves behind, however it ends. -/
def Fields.startedUp (this : Fields M) : Fields M :=
  { this with started := true, ttl := this.heartbeatTime * 600 }

def Fields.shutDown (this : Fields M) : Fields M :=
  { this with started := false }

section Specs

variable {fails : Call M → Bool} {w : Server M}

theorem exec_start_of_running (it : IterationOrder M)
    (h : w.fields.started = true) :
    (StandaloneMediaServer.start it).exec Call.effect fails w =
      (.raised (.illegalState "Media Server already started."), w) := by
  simp [StandaloneMediaServer.start, h]

theorem exec_stop_of_stopped (it : IterationOrder M)
    (h : w.fields.started = false) :
    (StandaloneMediaServer.stop it).exec Call.effect fails w =
      (.raised (.illegalState "Media Server already stopped."), w) := by
  simp [StandaloneMediaServer.stop, h]

theorem exec_start (it : IterationOrder M) (h : w.fields.started = false) :
    (StandaloneMediaServer.start it).exec Call.effect fails w =
      (Prog.callAll (startCalls it w.fields.controllers) : ServerM M Unit).exec
        Call.effect fails ⟨w.fields.startedUp, w.env⟩ := by
  simp [StandaloneMediaServer.start, HeartBeat.restart, h, startCalls,
    Fields.startedUp, Prog.callAll, Prog.exec_call, Prog.forM_invoke]

theorem exec_stop (it : IterationOrder M) (h : w.fields.started = true) :
    (StandaloneMediaServer.stop it).exec Call.effect fails w =
      (Prog.callAll (stopCalls it w.fields.controllers) : ServerM M Unit).exec
        Call.effect fails ⟨w.fields.shutDown, w.env⟩ := by
  simp [StandaloneMediaServer.stop, h, stopCalls, Fields.shutDown,
    Prog.callAll, Prog.exec_call, Prog.forM_invoke]

theorem trace_start_of_running (it : IterationOrder M)
    (h : w.fields.started = true) :
    (StandaloneMediaServer.start it).trace Call.effect fails w = [] := by
  simp [StandaloneMediaServer.start, h]

theorem trace_stop_of_stopped (it : IterationOrder M)
    (h : w.fields.started = false) :
    (StandaloneMediaServer.stop it).trace Call.effect fails w = [] := by
  simp [StandaloneMediaServer.stop, h]

theorem trace_start (it : IterationOrder M) (h : w.fields.started = false) :
    (StandaloneMediaServer.start it).trace Call.effect fails w =
      (Prog.callAll (startCalls it w.fields.controllers) : ServerM M Unit).trace
        Call.effect fails ⟨w.fields.startedUp, w.env⟩ := by
  simp [StandaloneMediaServer.start, HeartBeat.restart, h, startCalls,
    Fields.startedUp, Prog.callAll, Prog.trace_call, Prog.forM_invoke]

theorem trace_stop (it : IterationOrder M) (h : w.fields.started = true) :
    (StandaloneMediaServer.stop it).trace Call.effect fails w =
      (Prog.callAll (stopCalls it w.fields.controllers) : ServerM M Unit).trace
        Call.effect fails ⟨w.fields.shutDown, w.env⟩ := by
  simp [StandaloneMediaServer.stop, h, stopCalls, Fields.shutDown,
    Prog.callAll, Prog.trace_call, Prog.forM_invoke]

end Specs

/-! The two lists of calls, as one effect on the components. -/

theorem applyAll_startCalls (it : IterationOrder M) (c : Controllers M)
    (e : Components M) :
    Prog.applyAll Call.effect (startCalls it c) e =
      { e with
        mediaScheduler := true
        taskScheduler := true
        udpManager := true
        heartbeat := true
        queued := e.queued + 1
        active := e.active ∪ c.values.toFinset } := by
  unfold startCalls
  rw [Prog.applyAll_append, applyAll_activate,
    List.toFinset_eq_of_perm _ _ (it.perm c.values)]
  rfl

theorem applyAll_stopCalls (it : IterationOrder M) (c : Controllers M)
    (e : Components M) :
    Prog.applyAll Call.effect (stopCalls it c) e =
      { e with
        mediaScheduler := false
        taskScheduler := false
        udpManager := false
        heartbeat := false
        queued := 0
        active := e.active \ c.values.toFinset } := by
  unfold stopCalls
  rw [Prog.applyAll_append, applyAll_deactivate,
    List.toFinset_eq_of_perm _ _ (it.perm c.values)]
  rfl

/-- What `perform()` does to the components; of the fields it writes only the
time to live. -/
theorem Server.perform_of_inFlight {w : Server M} (h : 0 < w.env.inFlight) :
    ∃ ttl, w.perform =
      ⟨{ w.fields with ttl := ttl },
        { w.env with
          heartbeat := true
          queued := w.env.queued + 1
          inFlight := w.env.inFlight - 1 }⟩ := by
  unfold Server.perform HeartBeat.perform HeartBeat.restart
  rw [if_pos h]
  by_cases httl : w.fields.ttl - 1 = 0
  · exact ⟨w.fields.heartbeatTime * 600, by simp [httl, Prog.exec_call, Call.effect]⟩
  · exact ⟨w.fields.ttl - 1, by simp [httl, Prog.exec_call, Call.effect]⟩

/-- An execution trades its own beat for a queued one and marks the task
active, whether or not the server still runs. -/
theorem Server.perform_cases (w : Server M) :
    (w.env.inFlight = 0 ∧ w.perform = w) ∨
      (0 < w.env.inFlight ∧ w.perform.fields.started = w.fields.started ∧
        w.perform.env.heartbeat = true ∧
        w.perform.env.mediaScheduler = w.env.mediaScheduler ∧
        w.perform.env.beats = w.env.beats) := by
  rcases Nat.eq_zero_or_pos w.env.inFlight with hnone | hsome
  · refine Or.inl ⟨hnone, ?_⟩
    unfold Server.perform
    rw [if_neg (by omega)]
  · obtain ⟨ttl, hperform⟩ := Server.perform_of_inFlight hsome
    rw [hperform]
    refine Or.inr ⟨hsome, rfl, rfl, rfl, ?_⟩
    show w.env.queued + 1 + (w.env.inFlight - 1) =
      w.env.queued + w.env.inFlight
    omega

theorem Server.perform_started (w : Server M) :
    w.perform.fields.started = w.fields.started := by
  rcases w.perform_cases with ⟨-, hsame⟩ | ⟨-, hstarted, -⟩
  · rw [hsame]
  · exact hstarted

section Managers

variable [DecidableEq P] [ToString P] {faults : Faults M} {w : Server M}

theorem call_addManager_of_free {m : M}
    (h : w.fields.controllers.containsKey (getControlProtocol m) = false) :
    call faults (.addManager (some m)) w =
      (.returned (),
        ⟨{ w.fields with controllers := w.fields.controllers.put m },
          w.env⟩) := by
  simp [call, Operation.body, StandaloneMediaServer.addManager, h,
    Prog.modify]

theorem call_addManager_of_occupied {m : M}
    (h : w.fields.controllers.containsKey (getControlProtocol m) = true) :
    call faults (.addManager (some m)) w =
      (.raised (.illegalArgument (toString (getControlProtocol m) ++
        " controller is already registered")), w) := by
  simp [call, Operation.body, StandaloneMediaServer.addManager, h]

theorem call_removeManager {m : M} :
    call faults (.removeManager (some m)) w =
      (.returned (),
        ⟨{ w.fields with
            controllers :=
              w.fields.controllers.remove (getControlProtocol m) },
          w.env⟩) := rfl

/-- Registration moves neither the running flag nor a component. -/
theorem call_addManager_frame (manager : Option M) :
    (call faults (.addManager manager) w).2.fields.started =
        w.fields.started ∧
      (call faults (.addManager manager) w).2.env = w.env := by
  cases manager with
  | none => exact ⟨rfl, rfl⟩
  | some m =>
      cases hkey : w.fields.controllers.containsKey (getControlProtocol m) with
      | true => rw [call_addManager_of_occupied hkey]; exact ⟨rfl, rfl⟩
      | false => rw [call_addManager_of_free hkey]; exact ⟨rfl, rfl⟩

theorem call_removeManager_frame (manager : Option M) :
    (call faults (.removeManager manager) w).2.fields.started =
        w.fields.started ∧
      (call faults (.removeManager manager) w).2.env = w.env := by
  cases manager with
  | none => exact ⟨rfl, rfl⟩
  | some m => rw [call_removeManager]; exact ⟨rfl, rfl⟩

/-! Without faults every outcome of an operation is known. -/

theorem call_start_of_stopped (it : IterationOrder M)
    (h : w.fields.started = false) :
    call .none (.start it) w =
      (.returned (),
        ⟨w.fields.startedUp,
          Prog.applyAll Call.effect (startCalls it w.fields.controllers)
            w.env⟩) := by
  unfold call Operation.body
  rw [exec_start it h, Prog.exec_callAll_ok fun c _ => Faults.none_throws c]

theorem call_stop_of_running (it : IterationOrder M)
    (h : w.fields.started = true) :
    call .none (.stop it) w =
      (.returned (),
        ⟨w.fields.shutDown,
          Prog.applyAll Call.effect (stopCalls it w.fields.controllers)
            w.env⟩) := by
  unfold call Operation.body
  rw [exec_stop it h, Prog.exec_callAll_ok fun c _ => Faults.none_throws c]

theorem call_start_of_running (it : IterationOrder M)
    (h : w.fields.started = true) :
    call faults (.start it) w =
      (.raised (.illegalState "Media Server already started."), w) :=
  exec_start_of_running it h

theorem call_stop_of_stopped (it : IterationOrder M)
    (h : w.fields.started = false) :
    call faults (.stop it) w =
      (.raised (.illegalState "Media Server already stopped."), w) :=
  exec_stop_of_stopped it h

/-- **A rejected call changes nothing.** Without faults an operation throws
only from its own guard, and then neither field nor component has moved. -/
theorem call_rejected {op : Operation M}
    (h : (call .none op w).1.threw = true) : (call .none op w).2 = w := by
  cases op with
  | start it =>
      cases hrun : w.fields.started with
      | true => rw [call_start_of_running it hrun]
      | false =>
          rw [call_start_of_stopped it hrun] at h
          simp [Ending.threw] at h
  | stop it =>
      cases hrun : w.fields.started with
      | false => rw [call_stop_of_stopped it hrun]
      | true =>
          rw [call_stop_of_running it hrun] at h
          simp [Ending.threw] at h
  | addManager manager =>
      cases manager with
      | none => rfl
      | some m =>
          cases hkey : w.fields.controllers.containsKey
              (getControlProtocol m) with
          | true => rw [call_addManager_of_occupied hkey]
          | false =>
              rw [call_addManager_of_free hkey] at h
              simp [Ending.threw] at h
  | removeManager manager =>
      cases manager with
      | none => rfl
      | some m =>
          rw [call_removeManager] at h
          simp [Ending.threw] at h

/-- A new server is stopped, its components are untouched, and its registry
holds the constructor's manager. -/
theorem Server.new_eq (controller : Option M) :
    (Server.new controller : Server M) =
      ⟨⟨false, controller.elim Controllers.empty Controllers.empty.put, 1, 0⟩,
        .initial⟩ := by
  cases controller with
  | none => rfl
  | some m => rfl

end Managers

end MediaServer
