import MediaServer.Bootstrap.StandaloneMediaServer
import MediaServer.Foundation.Lists

/-!
# Component failures in `start` and `stop`

Any component call may throw, and neither method handles it: the exception
leaves with the calls before it done and the calls after it not made. `start`
has marked the server running by then, `stop` has marked it stopped. This
file says for each which failures its caller can live with.

The results about `stop` are for servers that calls and heartbeat executions
can reach, with failures anywhere on the way (`Reachable`).
-/

namespace MediaServer

open Foundation

variable {M P : Type} [ServerManager M P]

variable [DecidableEq M] [DecidableEq P] [ToString P]

/-! ## `start` -/

/-- The state a failed `start` should leave: stopped, with everything down,
and ready for the complete start sequence. -/
structure RolledBack (w : Server M) : Prop where
  stopped : StandaloneMediaServer.isRunning w = false
  mediaScheduler : w.env.mediaScheduler = false
  taskScheduler : w.env.taskScheduler = false
  udpManager : w.env.udpManager = false
  controllers : ∀ m ∈ w.fields.controllers.values, m ∉ w.env.active
  heartbeat : ¬ (w.env.heartbeat = true ∧ 0 < w.env.queued)
  restartable : ∀ it, (call .none (.start it) w).2.env =
    Prog.applyAll Call.effect (startCalls it w.fields.controllers) w.env

/-- A stopped server's `start` marks it running and makes the calls before
the first failing one. -/
theorem call_start_state {w : Server M} (h : w.fields.started = false)
    (it : IterationOrder M) (faults : Faults M) :
    (call faults (.start it) w).2 =
      ⟨w.fields.startedUp,
        Prog.applyAll Call.effect
          ((startCalls it w.fields.controllers).takeWhile
            fun c => !faults.throws c) w.env⟩ := by
  unfold call Operation.body
  rw [exec_start it h, Prog.exec_callAll]

theorem call_start_threw_iff {w : Server M} (h : w.fields.started = false)
    (it : IterationOrder M) (faults : Faults M) :
    (call faults (.start it) w).1.threw = true ↔
      ∃ c ∈ startCalls it w.fields.controllers, faults.throws c = true := by
  unfold call Operation.body
  rw [exec_start it h, Prog.exec_callAll_threw_iff]

/-- A stopped server whose `start` failed reports itself as running, and the
next `start` refuses to run. -/
theorem call_start_after_start {w : Server M} (h : w.fields.started = false)
    (it it' : IterationOrder M) (faults faults' : Faults M) :
    call faults' (.start it') (call faults (.start it) w).2 =
      (.raised (.illegalState "Media Server already started."),
        (call faults (.start it) w).2) := by
  apply call_start_of_running
  rw [call_start_state h]
  rfl

omit [DecidableEq M] [DecidableEq P] [ToString P] in
/-- The calls of `start` that can throw: the three services and the managers
of the registry, in whatever order they come. -/
theorem forall_startCalls_iff (faults : Faults M) (it : IterationOrder M)
    (c : Controllers M) :
    (∀ d ∈ startCalls it c, faults.throws d = false) ↔
      faults.throws .mediaSchedulerStart = false ∧
      faults.throws .taskSchedulerStart = false ∧
      faults.throws .udpManagerStart = false ∧
      ∀ m ∈ c.values, faults.throws (.activate m) = false := by
  simp [startCalls, faults.submitHeatbeat_ok, it.mem_arrange, or_imp,
    forall_and]

theorem call_start_threw_eq_false_iff {w : Server M}
    (h : w.fields.started = false) (it : IterationOrder M)
    (faults : Faults M) :
    (call faults (.start it) w).1.threw = false ↔
      faults.throws .mediaSchedulerStart = false ∧
      faults.throws .taskSchedulerStart = false ∧
      faults.throws .udpManagerStart = false ∧
      ∀ m ∈ w.fields.controllers.values,
        faults.throws (.activate m) = false := by
  rw [← forall_startCalls_iff faults it, ← Bool.not_eq_true,
    call_start_threw_iff h]
  simp only [not_exists, not_and, Bool.not_eq_true]

/-- No state that `start` leaves is the rolled-back one. -/
theorem not_rolledBack_start {w : Server M} (h : w.fields.started = false)
    (it : IterationOrder M) (faults : Faults M) :
    ¬ RolledBack (call faults (.start it) w).2 := by
  intro hback
  have hstarted : (call faults (.start it) w).2.fields.started = true := by
    rw [call_start_state h]
    rfl
  exact Bool.noConfusion (hstarted.symm.trans hback.stopped)

/-- **A failed start is never rolled back.** From any stopped state, in any
iteration order and under any faults, a throwing `start` leaves the
rolled-back state only where `start` does not throw at all. -/
theorem start_rolledBack_iff {w : Server M}
    (h : StandaloneMediaServer.isRunning w = false) (it : IterationOrder M)
    (faults : Faults M) :
    ((call faults (.start it) w).1.threw = true →
        RolledBack (call faults (.start it) w).2) ↔
      faults.throws .mediaSchedulerStart = false ∧
      faults.throws .taskSchedulerStart = false ∧
      faults.throws .udpManagerStart = false ∧
      ∀ m ∈ w.fields.controllers.values,
        faults.throws (.activate m) = false := by
  rw [← call_start_threw_eq_false_iff h it faults, ← Bool.not_eq_true]
  exact imp_iff_not (not_rolledBack_start h it faults)

/-- The media scheduler's `start` throws on a new server with one manager:
the server reports itself running. -/
theorem start_not_rolledBack :
    ¬ ((call (.only .mediaSchedulerStart (by decide) (by decide))
          (.start (.listed _))
          (.new (some (⟨0, 0⟩ : PlainManager)))).1.threw = true →
        RolledBack
          (call (.only .mediaSchedulerStart (by decide) (by decide))
            (.start (.listed _))
            (.new (some (⟨0, 0⟩ : PlainManager)))).2) := by
  intro hback
  exact absurd (hback (by decide)).stopped (by decide)

/-- The one manager cannot be activated. -/
theorem start_rolledBack_iff_new :
    let w := Server.new (some (⟨0, 0⟩ : PlainManager))
    let faults := Faults.only (.activate ⟨0, 0⟩) (by decide) (by decide)
    ((call faults (.start (.listed _)) w).1.threw = true →
        RolledBack (call faults (.start (.listed _)) w).2) ↔
      faults.throws .mediaSchedulerStart = false ∧
      faults.throws .taskSchedulerStart = false ∧
      faults.throws .udpManagerStart = false ∧
      ∀ m ∈ w.fields.controllers.values,
        faults.throws (.activate m) = false :=
  start_rolledBack_iff (by decide) _ _

/-- A `stop` in which nothing throws leaves the rolled-back state, wherever
the running server stood. -/
theorem rolledBack_stop {w : Server M} (h : w.fields.started = true)
    (it : IterationOrder M) : RolledBack (call .none (.stop it) w).2 := by
  rw [call_stop_of_running it h, applyAll_stopCalls]
  refine ⟨rfl, rfl, rfl, rfl, fun m hm hactive => ?_, ?_, fun it' => ?_⟩
  · exact (Finset.mem_sdiff.mp hactive).2 (List.mem_toFinset.mpr hm)
  · rintro ⟨hbeat, -⟩
    exact Bool.false_ne_true hbeat
  · rw [call_start_of_stopped it' rfl]

/-- What `start` does not undo, the next `stop` does. -/
theorem rolledBack_stop_of_start {w : Server M}
    (h : w.fields.started = false) (it it' : IterationOrder M)
    (faults : Faults M) :
    RolledBack (call .none (.stop it') (call faults (.start it) w).2).2 := by
  apply rolledBack_stop
  rw [call_start_state h]
  rfl

/-! ## `stop` -/

/-- The states calls and heartbeat executions lead to, whatever fails. -/
inductive Reachable : Server M → Prop
  | new (controller : Option M) : Reachable (.new controller)
  | call {w : Server M} (faults : Faults M) (op : Operation M) :
      Reachable w → Reachable (MediaServer.call faults op w).2
  | takeOut {w : Server M} : Reachable w → Reachable w.takeOut
  | perform {w : Server M} : Reachable w → Reachable w.perform

/-- No call but `cancel` clears the heartbeat's active mark. -/
theorem Call.effect_heartbeat {c : Call M} (hc : c ≠ .cancel)
    {e : Components M} (he : e.heartbeat = true) :
    (c.effect e).heartbeat = true := by
  cases c with
  | cancel => exact absurd rfl hc
  | submitHeatbeat => rfl
  | _ => exact he

/-- However `start` ends, it has marked the heartbeat active. -/
theorem call_start_heartbeat {w : Server M} (h : w.fields.started = false)
    (it : IterationOrder M) (faults : Faults M) :
    (call faults (.start it) w).2.env.heartbeat = true := by
  rw [call_start_state h]
  unfold startCalls
  rw [List.cons_append, List.takeWhile_cons_of_pos
    (by simp [faults.submitHeatbeat_ok]), Prog.applyAll_cons]
  refine Prog.applyAll_invariant
    (I := fun e : Components M => e.heartbeat = true) ?_ rfl
  intro c hc e he
  refine Call.effect_heartbeat ?_ he
  rintro rfl
  simpa using (List.takeWhile_sublist _).subset hc

/-- A running server's `stop` marks it stopped and makes the calls before
the first failing one. -/
theorem call_stop_state {w : Server M} (h : w.fields.started = true)
    (it : IterationOrder M) (faults : Faults M) :
    (call faults (.stop it) w).2 =
      ⟨w.fields.shutDown,
        Prog.applyAll Call.effect
          ((stopCalls it w.fields.controllers).takeWhile
            fun c => !faults.throws c) w.env⟩ := by
  unfold call Operation.body
  rw [exec_stop it h, Prog.exec_callAll]

theorem call_stop_started {w : Server M} (it : IterationOrder M)
    (faults : Faults M) :
    (call faults (.stop it) w).2.fields.started = false := by
  cases hrun : w.fields.started with
  | false => rw [call_stop_of_stopped it hrun, hrun]
  | true =>
      rw [call_stop_state hrun]
      rfl

/-- The heartbeat of a running server is active. -/
theorem Reachable.heartbeat {w : Server M} (h : Reachable w) :
    w.fields.started = true → w.env.heartbeat = true := by
  induction h with
  | new controller =>
      rw [Server.new_eq]
      intro hrun
      exact absurd hrun Bool.false_ne_true
  | @call w faults op _ ih =>
      cases op with
      | start it =>
          cases hrun : w.fields.started with
          | true =>
              rw [call_start_of_running it hrun]
              exact ih
          | false => exact fun _ => call_start_heartbeat hrun it faults
      | stop it =>
          intro hrun
          rw [call_stop_started it faults] at hrun
          exact absurd hrun Bool.false_ne_true
      | addManager manager =>
          rw [(call_addManager_frame manager).1, (call_addManager_frame manager).2]
          exact ih
      | removeManager manager =>
          rw [(call_removeManager_frame manager).1, (call_removeManager_frame manager).2]
          exact ih
  | @takeOut w _ ih =>
      intro hrun
      unfold Server.takeOut Components.takeOut
      split
      · exact ih hrun
      · exact ih hrun
  | @perform w _ ih =>
      rcases w.perform_cases with ⟨-, hsame⟩ | ⟨-, -, hactive, -⟩
      · rw [hsame]
        exact ih
      · exact fun _ => hactive

/-- Everything whose own stop call goes through is down. -/
structure ShutDown (faults : Faults M) (w w' : Server M) : Prop where
  udpManager : faults.throws .udpManagerStop = false →
    w'.env.udpManager = false
  taskScheduler : faults.throws .taskSchedulerStop = false →
    w'.env.taskScheduler = false
  mediaScheduler : faults.throws .mediaSchedulerStop = false →
    w'.env.mediaScheduler = false
  heartbeat : w'.env.heartbeat = false
  controllers : ∀ m ∈ w.fields.controllers.values,
    faults.throws (.deactivate m) = false → m ∉ w'.env.active

/-- The managers a `stop` reaches, when the services go down: those before
the first one whose `deactivate` throws. -/
def deactivated (faults : Faults M) (ms : List M) : List M :=
  ms.takeWhile fun m => !faults.throws (.deactivate m)

theorem call_stop_env {w : Server M} (h : w.fields.started = true)
    (it : IterationOrder M) (faults : Faults M)
    (hudp : faults.throws .udpManagerStop = false)
    (htask : faults.throws .taskSchedulerStop = false)
    (hmedia : faults.throws .mediaSchedulerStop = false) :
    (call faults (.stop it) w).2.env =
      { w.env with
        mediaScheduler := false
        taskScheduler := false
        udpManager := false
        heartbeat := false
        queued := 0
        active := w.env.active \ (deactivated faults
          (it.arrange w.fields.controllers.values)).toFinset } := by
  have htake : ((stopCalls it w.fields.controllers).takeWhile
        fun c => !faults.throws c) =
      [.udpManagerStop, .taskSchedulerStop, .mediaSchedulerStop, .cancel] ++
        (deactivated faults
          (it.arrange w.fields.controllers.values)).map .deactivate := by
    simp [stopCalls, deactivated, hudp, htask, hmedia, faults.cancel_ok,
      List.takeWhile_map, Function.comp_def]
  rw [call_stop_state h, htake, Prog.applyAll_append, applyAll_deactivate]
  rfl

/-- A service whose `stop` throws keeps `stop` from cancelling the
heartbeat. -/
theorem call_stop_heartbeat {w : Server M} (h : w.fields.started = true)
    (hbeat : w.env.heartbeat = true) (it : IterationOrder M)
    (faults : Faults M)
    (hfail : faults.throws .udpManagerStop = true ∨
      faults.throws .taskSchedulerStop = true ∨
      faults.throws .mediaSchedulerStop = true) :
    (call faults (.stop it) w).2.env.heartbeat = true := by
  -- the scan stops before it comes to `cancel`
  have hcut : .cancel ∉ (stopCalls it w.fields.controllers).takeWhile
      fun c => !faults.throws c := by
    unfold stopCalls
    rcases hfail with hfail | hfail | hfail
    · simp [hfail]
    · cases hudp : faults.throws .udpManagerStop <;> simp [hudp, hfail]
    · cases hudp : faults.throws .udpManagerStop <;>
        cases htask : faults.throws .taskSchedulerStop <;>
          simp [hudp, htask, hfail]
  rw [call_stop_state h]
  refine Prog.applyAll_invariant
    (I := fun e : Components M => e.heartbeat = true) ?_ hbeat
  intro c hc e he
  refine Call.effect_heartbeat ?_ he
  rintro rfl
  exact hcut hc

/-- When the services go down, `stop` reaches every manager it is to
deactivate exactly if none of them stands behind a failing one. -/
theorem shutDown_iff_pairwise {w : Server M} (h : w.fields.started = true)
    (it : IterationOrder M) (faults : Faults M)
    (hudp : faults.throws .udpManagerStop = false)
    (htask : faults.throws .taskSchedulerStop = false)
    (hmedia : faults.throws .mediaSchedulerStop = false) :
    ShutDown faults w (call faults (.stop it) w).2 ↔
      (it.arrange w.fields.controllers.values).Pairwise fun m m' =>
        faults.throws (.deactivate m) = true →
          faults.throws (.deactivate m') = false → m' ∉ w.env.active := by
  have henv := call_stop_env h it faults hudp htask hmedia
  have hnd : (it.arrange w.fields.controllers.values).Nodup :=
    (it.perm _).nodup_iff.mpr w.fields.controllers.values_nodup
  have hscan := forall_mem_takeWhile_iff hnd
    (p := fun m => !faults.throws (.deactivate m))
    (Q := (· ∈ w.env.active))
  simp only [Bool.not_eq_false', Bool.not_eq_true'] at hscan
  rw [← hscan]
  constructor
  · intro hdown m hm hok hactive
    by_contra hskipped
    refine hdown.controllers m (it.mem_arrange.mp hm) hok ?_
    rw [henv]
    exact Finset.mem_sdiff.mpr
      ⟨hactive, fun hmem => hskipped (List.mem_toFinset.mp hmem)⟩
  · intro hreached
    refine ⟨?_, ?_, ?_, ?_, fun m hm hok hactive => ?_⟩
    · exact fun _ => by rw [henv]
    · exact fun _ => by rw [henv]
    · exact fun _ => by rw [henv]
    · rw [henv]
    · rw [henv] at hactive
      obtain ⟨hactive, hskipped⟩ := Finset.mem_sdiff.mp hactive
      exact hskipped (List.mem_toFinset.mpr
        (hreached m (it.mem_arrange.mpr hm) hok hactive))

/-- A `stop` over an active heartbeat shuts everything down that it can
exactly if no service fails and no active manager stands behind a failing
one. -/
theorem shutDown_iff {w : Server M} (h : w.fields.started = true)
    (hbeat : w.env.heartbeat = true) (it : IterationOrder M)
    (faults : Faults M) :
    ShutDown faults w (call faults (.stop it) w).2 ↔
      faults.throws .udpManagerStop = false ∧
      faults.throws .taskSchedulerStop = false ∧
      faults.throws .mediaSchedulerStop = false ∧
      (it.arrange w.fields.controllers.values).Pairwise fun m m' =>
        faults.throws (.deactivate m) = true →
          faults.throws (.deactivate m') = false → m' ∉ w.env.active := by
  by_cases hfail : faults.throws .udpManagerStop = true ∨
      faults.throws .taskSchedulerStop = true ∨
      faults.throws .mediaSchedulerStop = true
  · have hleft := call_stop_heartbeat h hbeat it faults hfail
    -- `stop` did not come to cancel the heartbeat
    constructor
    · intro hdown
      exact Bool.noConfusion (hleft.symm.trans hdown.heartbeat)
    · rintro ⟨hudp, htask, hmedia, -⟩
      simp [hudp, htask, hmedia] at hfail
  · simp only [not_or, Bool.not_eq_true] at hfail
    obtain ⟨hudp, htask, hmedia⟩ := hfail
    rw [shutDown_iff_pairwise h it faults hudp htask hmedia]
    simp only [hudp, htask, hmedia, true_and]

/-- **Which failures `stop` survives.** For a reachable running server, in
any iteration order: after `stop` either the server still runs, or everything
whose own stop call goes through is down, if and only if no service's `stop`
throws and, behind a manager whose `deactivate` throws, the iteration order
has no active manager whose `deactivate` would have gone through. -/
theorem stop_shutDown_iff {w : Server M} (hreach : Reachable w)
    (h : StandaloneMediaServer.isRunning w = true) (it : IterationOrder M)
    (faults : Faults M) :
    (StandaloneMediaServer.isRunning (call faults (.stop it) w).2 = true ∨
        ShutDown faults w (call faults (.stop it) w).2) ↔
      faults.throws .udpManagerStop = false ∧
      faults.throws .taskSchedulerStop = false ∧
      faults.throws .mediaSchedulerStop = false ∧
      (it.arrange w.fields.controllers.values).Pairwise fun m m' =>
        faults.throws (.deactivate m) = true →
          faults.throws (.deactivate m') = false → m' ∉ w.env.active := by
  have hstopped :
      ¬ StandaloneMediaServer.isRunning (call faults (.stop it) w).2 = true := by
    show ¬ (call faults (.stop it) w).2.fields.started = true
    rw [call_stop_started it faults]
    exact Bool.false_ne_true
  rw [or_iff_right hstopped]
  exact shutDown_iff h (hreach.heartbeat h) it faults

/-- The UDP manager's `stop` throws on a running server with one manager: the
server reports itself stopped, and nothing was stopped. -/
theorem stop_not_shutDown :
    ¬ (StandaloneMediaServer.isRunning
          (call (.only .udpManagerStop (by decide) (by decide))
            (.stop (.listed _))
            (Server.new (some (⟨0, 0⟩ : PlainManager)) |>.run
              [.start (.listed _)])).2 = true ∨
        ShutDown (.only .udpManagerStop (by decide) (by decide))
          (Server.new (some (⟨0, 0⟩ : PlainManager)) |>.run
            [.start (.listed _)])
          (call (.only .udpManagerStop (by decide) (by decide))
            (.stop (.listed _))
            (Server.new (some (⟨0, 0⟩ : PlainManager)) |>.run
              [.start (.listed _)])).2) := by
  rintro (hrun | hdown)
  · exact absurd hrun (by decide)
  · exact absurd hdown.heartbeat (by decide)

/-- Of two managers the one that comes last in the loop cannot be deactivated. -/
theorem stop_shutDown_iff_started :
    let faults := Faults.only (.deactivate (⟨0, 0⟩ : PlainManager)) (by decide)
      (by decide)
    let w := (Server.new (some (⟨0, 0⟩ : PlainManager))).run
      [.addManager (some ⟨1, 1⟩), .start (.listed _)]
    StandaloneMediaServer.isRunning (call faults (.stop (.listed _)) w).2 =
        true ∨
      ShutDown faults w (call faults (.stop (.listed _)) w).2 :=
  (stop_shutDown_iff (.call .none _ (.call .none _ (.new _))) (by decide) _
    _).mpr (by decide)

/-! ## The Spring component

`SpringMediaServer` wraps the two methods. Its `start` adds nothing that can
be seen here; its `stop` shuts the logging system down, but only after the
server's own `stop` has returned. What failures leave behind is the same. -/

theorem exec_springStart (it : IterationOrder M) (faults : Faults M)
    (w : Server M) :
    (SpringMediaServer.start it).exec Call.effect faults.throws w =
      call faults (.start it) w := by
  unfold SpringMediaServer.start call Operation.body
  rw [Prog.exec_bind]
  split
  · next hend => rw [hend]; rfl
  · next hend => rw [hend]
  · next hend => rw [hend]

theorem springStart_rolledBack_iff {w : Server M}
    (h : StandaloneMediaServer.isRunning w = false) (it : IterationOrder M)
    (faults : Faults M) :
    let r := (SpringMediaServer.start it).exec Call.effect faults.throws w
    (r.1.threw = true → RolledBack r.2) ↔
      faults.throws .mediaSchedulerStart = false ∧
      faults.throws .taskSchedulerStart = false ∧
      faults.throws .udpManagerStart = false ∧
      ∀ m ∈ w.fields.controllers.values,
        faults.throws (.activate m) = false := by
  rw [exec_springStart, ← call_start_threw_eq_false_iff h it faults,
    ← Bool.not_eq_true]
  exact imp_iff_not (not_rolledBack_start h it faults)

/-- A `stop` that throws keeps the logging system up. -/
theorem exec_springStop_of_threw {it : IterationOrder M} {faults : Faults M}
    {w : Server M} (h : (call faults (.stop it) w).1.threw = true) :
    (SpringMediaServer.stop it).exec Call.effect faults.throws w =
      call faults (.stop it) w := by
  unfold call Operation.body at h
  unfold SpringMediaServer.stop call Operation.body
  rw [Prog.exec_bind]
  split
  · next hend =>
      rw [hend] at h
      exact absurd h Bool.false_ne_true
  · next hend => rw [hend]
  · next hend => rw [hend]

/-- One that returns shuts it down, if that call goes through. -/
theorem exec_springStop_of_not_threw {it : IterationOrder M}
    {faults : Faults M} {w : Server M}
    (h : (call faults (.stop it) w).1.threw = false) :
    ((SpringMediaServer.stop it).exec Call.effect faults.throws w).2 =
      ⟨(call faults (.stop it) w).2.fields,
        if faults.throws .configuratorShutdown then
          (call faults (.stop it) w).2.env
        else
          { (call faults (.stop it) w).2.env with logging := false }⟩ := by
  unfold call Operation.body at h ⊢
  unfold SpringMediaServer.stop
  rw [Prog.exec_bind]
  split
  · next hend =>
      rw [hend, Prog.invoke, Prog.exec_call]
      split
      · rfl
      · rfl
  · next hend =>
      rw [hend] at h
      exact absurd h Bool.true_eq_false.mp
  · next hend =>
      rw [hend] at h
      exact absurd h Bool.true_eq_false.mp

/-- The logging aside, the components end up the same. -/
theorem exists_springStop (it : IterationOrder M) (faults : Faults M)
    (w : Server M) : ∃ logging,
      ((SpringMediaServer.stop it).exec Call.effect faults.throws w).2 =
        ⟨(call faults (.stop it) w).2.fields,
          { (call faults (.stop it) w).2.env with logging := logging }⟩ := by
  cases hthrew : (call faults (.stop it) w).1.threw with
  | true =>
      refine ⟨(call faults (.stop it) w).2.env.logging, ?_⟩
      rw [exec_springStop_of_threw hthrew]
  | false =>
      rw [exec_springStop_of_not_threw hthrew]
      split
      · exact ⟨(call faults (.stop it) w).2.env.logging, rfl⟩
      · exact ⟨false, rfl⟩

/-- For a running server with an active heartbeat, as every reachable one
has. -/
theorem springStop_shutDown_iff {w : Server M}
    (h : StandaloneMediaServer.isRunning w = true)
    (hbeat : w.env.heartbeat = true) (it : IterationOrder M)
    (faults : Faults M) :
    let w' := ((SpringMediaServer.stop it).exec Call.effect faults.throws w).2
    (StandaloneMediaServer.isRunning w' = true ∨ ShutDown faults w w') ↔
      faults.throws .udpManagerStop = false ∧
      faults.throws .taskSchedulerStop = false ∧
      faults.throws .mediaSchedulerStop = false ∧
      (it.arrange w.fields.controllers.values).Pairwise fun m m' =>
        faults.throws (.deactivate m) = true →
          faults.throws (.deactivate m') = false → m' ∉ w.env.active := by
  obtain ⟨logging, hstate⟩ := exists_springStop it faults w
  show (StandaloneMediaServer.isRunning
      ((SpringMediaServer.stop it).exec Call.effect faults.throws w).2 = true ∨
    ShutDown faults w
      ((SpringMediaServer.stop it).exec Call.effect faults.throws w).2) ↔ _
  rw [hstate]
  have hstopped : ¬ StandaloneMediaServer.isRunning
      ⟨(call faults (.stop it) w).2.fields,
        { (call faults (.stop it) w).2.env with logging := logging }⟩ =
          true := by
    show ¬ (call faults (.stop it) w).2.fields.started = true
    rw [call_stop_started it faults]
    exact Bool.false_ne_true
  rw [or_iff_right hstopped, ← shutDown_iff h hbeat it faults]
  exact ⟨fun hdown => { hdown with }, fun hdown => { hdown with }⟩

end MediaServer
