import MediaServer.Bootstrap.WorkerPool

/-!
# The heartbeat cannot be seen

The executions of the heartbeat share the fields of the server and the
heartbeat task with the control thread. Leaving out every step of theirs
leaves the control thread where it was: at the same point of the same method,
about to make the same call, with the same flag and registry, and with the
same services, managers and logging (`invisible_run`). This is shown for
executions at one go and carried over to primitive steps.
-/

namespace MediaServer

open Foundation

variable {M P : Type} [ServerManager M P]

/-- The components agree but for the heartbeat task and its queue. -/
structure SameButHeartbeat (e e' : Components M) : Prop where
  mediaScheduler : e.mediaScheduler = e'.mediaScheduler
  taskScheduler : e.taskScheduler = e'.taskScheduler
  udpManager : e.udpManager = e'.udpManager
  logging : e.logging = e'.logging
  active : e.active = e'.active

theorem SameButHeartbeat.refl (e : Components M) : SameButHeartbeat e e :=
  ⟨rfl, rfl, rfl, rfl, rfl⟩

theorem SameButHeartbeat.symm {e e' : Components M}
    (h : SameButHeartbeat e e') : SameButHeartbeat e' e :=
  ⟨h.mediaScheduler.symm, h.taskScheduler.symm, h.udpManager.symm,
    h.logging.symm, h.active.symm⟩

theorem SameButHeartbeat.trans {e e' e'' : Components M}
    (h : SameButHeartbeat e e') (h' : SameButHeartbeat e' e'') :
    SameButHeartbeat e e'' :=
  ⟨h.mediaScheduler.trans h'.mediaScheduler,
    h.taskScheduler.trans h'.taskScheduler,
    h.udpManager.trans h'.udpManager, h.logging.trans h'.logging,
    h.active.trans h'.active⟩

/-- The pool's components differ from those it shows in the heartbeat only. -/
theorem Pool.Shows.sameButHeartbeat {pool : Pool M}
    {s : Threads.State (Call M) (Fields M) JavaException (Components M) Unit}
    (h : pool.Shows s) : SameButHeartbeat pool.server.env s.2.env := by
  rw [h.env]
  exact ⟨rfl, rfl, rfl, rfl, rfl⟩

variable [DecidableEq M]

/-- No call makes anything else of the heartbeat task. -/
theorem SameButHeartbeat.effect {e e' : Components M}
    (h : SameButHeartbeat e e') (c : Call M) :
    SameButHeartbeat (c.effect e) (c.effect e') := by
  cases c with
  | submitHeatbeat => exact { h with }
  | cancel => exact { h with }
  | mediaSchedulerStart => exact { h with mediaScheduler := rfl }
  | mediaSchedulerStop => exact { h with mediaScheduler := rfl }
  | taskSchedulerStart => exact { h with taskScheduler := rfl }
  | taskSchedulerStop => exact { h with taskScheduler := rfl }
  | udpManagerStart => exact { h with udpManager := rfl }
  | udpManagerStop => exact { h with udpManager := rfl }
  | activate m => exact { h with active := congrArg (insert m) h.active }
  | deactivate m =>
      exact { h with active := congrArg (Finset.erase · m) h.active }
  | configuratorShutdown => exact { h with logging := rfl }

/-- The worker changes nothing that can be seen. -/
theorem Work.invisible (a : Work) {w w' : Server M}
    (hfields : SameButTtl w.fields w'.fields)
    (henv : SameButHeartbeat w.env w'.env) :
    SameButTtl (a.apply w).fields w'.fields ∧
      SameButHeartbeat (a.apply w).env w'.env := by
  obtain ⟨ttl, heartbeat, queued, inFlight, heq, -⟩ := a.apply_cases w
  rw [heq]
  exact ⟨{ hfields with }, { henv with }⟩

variable [DecidableEq P] [ToString P]

/-- Without the worker the control thread stands where it stands with it. -/
theorem alike_ofThread (mayThrow : Call M → Bool) (controller : Option M)
    (actions : List (Action (Method M) Work)) :
    Threads.Alike SameButTtl SameButHeartbeat
      (interleaved mayThrow controller actions)
      (interleaved mayThrow controller
        (actions.filter Action.ofThread)) := by
  let idle : Threads.State (Call M) (Fields M) JavaException (Components M)
    Unit := (none, Server.new controller)
  have hidle : ∀ p, idle.1 = some p → p.Blind SameButTtl := nofun
  have hstart : Threads.Alike SameButTtl SameButHeartbeat idle idle :=
    ⟨rfl, SameButTtl.refl _, SameButHeartbeat.refl _⟩
  exact Threads.Alike.run_ofThread (t := threads mayThrow)
    (fun c _ _ h => h.effect c) blind_body hidle
    (fun a _ _ hfields henv => a.invisible hfields henv) hstart actions

namespace Pool

/-- A pool stands where the steps of its control thread alone lead. -/
theorem alike_onControl (mayThrow : Call M → Bool) (controller : Option M)
    (actions : List (PoolAction M)) :
    let pool := run mayThrow controller actions
    Threads.Alike SameButTtl SameButHeartbeat (pool.control, pool.server)
      (interleaved mayThrow controller
        (actions.flatMap PoolAction.onControl)) := by
  intro pool
  obtain ⟨actions', ⟨hshows, -⟩, hcontrol⟩ :=
    exists_shows_and_tame mayThrow controller actions
  have halike := alike_ofThread mayThrow controller actions'
  rw [hcontrol] at halike
  exact ⟨hshows.control.symm.trans halike.control,
    hshows.fields.trans halike.fields,
    hshows.sameButHeartbeat.trans halike.env⟩

omit [DecidableEq M] [DecidableEq P] [ToString P] in
theorem flatMap_onControl_filter (actions : List (PoolAction M)) :
    (actions.filter PoolAction.ofThread).flatMap PoolAction.onControl =
      actions.flatMap PoolAction.onControl := by
  induction actions with
  | nil => rfl
  | cons action actions ih =>
      cases action with
      | invoke method => exact congrArg (_ :: ·) ih
      | advance => exact congrArg (_ :: ·) ih
      | throw => exact congrArg (_ :: ·) ih
      | takeOut => exact ih
      | small i => exact ih

/-- **The heartbeat cannot be seen.** Whichever methods are called, whichever
of their calls throw and whatever the executions of the heartbeat do in between, in
primitive steps: the control thread stands where it stands when no execution
ever begins, and makes the same call next. The flag, the registry, the
services, the active managers and the logging are the same too. -/
theorem invisible_run (mayThrow : Call M → Bool) (controller : Option M)
    (actions : List (PoolAction M)) :
    let pool := run mayThrow controller actions
    let alone := run mayThrow controller (actions.filter PoolAction.ofThread)
    Threads.Alike SameButTtl SameButHeartbeat (pool.control, pool.server)
        (alone.control, alone.server) ∧
      pool.nextCall = alone.nextCall := by
  intro pool alone
  have hpool := alike_onControl mayThrow controller actions
  have halone := alike_onControl mayThrow controller
    (actions.filter PoolAction.ofThread)
  rw [flatMap_onControl_filter] at halone
  have halike : Threads.Alike SameButTtl SameButHeartbeat
      (pool.control, pool.server) (alone.control, alone.server) :=
    ⟨hpool.control.trans halone.control.symm,
      hpool.fields.trans halone.fields.symm, hpool.env.trans halone.env.symm⟩
  obtain ⟨-, ⟨-, htame⟩, -⟩ :=
    exists_shows_and_tame mayThrow controller actions
  exact ⟨halike, halike.nextCall htame.control⟩

end Pool

end MediaServer
