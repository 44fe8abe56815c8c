import MediaServer.Bootstrap.StandaloneMediaServer
import MediaServer.Foundation.Run

/-!
# Core services around the controllers

An active controller may be handed requests at any moment, so the media
scheduler, the task scheduler and the UDP manager should be up whenever a
controller is active. That is a property of every state between two component
calls, also inside `start` and `stop`. `start` brings the services up before
the first controller; `stop` takes the services down first.
-/

namespace MediaServer

open Foundation

variable {M P : Type} [ServerManager M P]

/-- An active controller has its core services. -/
def Components.guarded (e : Components M) : Prop :=
  e.active.Nonempty → e.servicesUp

/-- A `stop` that is accepted comes while no controller is active. -/
def QuietStop (w : Server M) : Operation M → Prop
  | .stop _ => StandaloneMediaServer.isRunning w = true → w.env.active = ∅
  | _ => True

/-- Between calls, a running server has its services and a stopped one no
active controller. -/
structure Balanced (w : Server M) : Prop where
  services : w.fields.started = true → w.env.servicesUp
  quiet : w.fields.started = false → w.env.active = ∅

theorem guarded_of_active_eq_empty {e : Components M} (h : e.active = ∅) :
    e.guarded := by
  intro hactive
  rw [h] at hactive
  exact absurd hactive Finset.not_nonempty_empty

theorem Balanced.of_frame {w w' : Server M} (h : Balanced w)
    (hframe : w'.fields.started = w.fields.started ∧ w'.env = w.env) :
    Balanced w' := by
  obtain ⟨hstarted, henv⟩ := hframe
  constructor
  · rw [hstarted, henv]
    exact h.services
  · rw [hstarted, henv]
    exact h.quiet

variable [DecidableEq M] [DecidableEq P] [ToString P]

/-- The states one call of an operation passes through, without faults. -/
def callTrace (op : Operation M) (w : Server M) : List (Server M) :=
  op.body.trace Call.effect (fun _ => false) w

/-- A call leaves the components in the last state it passed through. -/
theorem env_call_eq (op : Operation M) (w : Server M) :
    (call .none op w).2.env = ((callTrace op w).getLastD w).env :=
  Prog.env_exec Call.effect (fun _ => false) op.body w

theorem run_concat (w : Server M) (ops : List (Operation M))
    (op : Operation M) :
    w.run (ops ++ [op]) = (call .none op (w.run ops)).2 := by
  simp [Server.run, List.foldl_append]

theorem balanced_new (controller : Option M) :
    Balanced (Server.new controller : Server M) := by
  rw [Server.new_eq]
  exact ⟨fun hrun => absurd hrun Bool.false_ne_true, fun _ => rfl⟩

/-! ## One call -/

omit [DecidableEq P] [ToString P] in
/-- The calls before the controller loop activate nobody. -/
theorem effect_active_of_mem_services {c : Call M}
    (hc : c ∈ [.submitHeatbeat, .mediaSchedulerStart, .taskSchedulerStart,
      .udpManagerStart]) (e : Components M) :
    (c.effect e).active = e.active := by
  simp only [List.mem_cons, List.not_mem_nil, or_false] at hc
  rcases hc with rfl | rfl | rfl | rfl <;> rfl

omit [DecidableEq P] [ToString P] in
/-- No call of `stop` activates anybody. -/
theorem effect_active_eq_empty_of_mem_stopCalls {it : IterationOrder M}
    {cs : Controllers M} {c : Call M} (hc : c ∈ stopCalls it cs)
    {e : Components M} (he : e.active = ∅) : (c.effect e).active = ∅ := by
  unfold stopCalls at hc
  simp only [List.mem_append, List.mem_cons, List.not_mem_nil, or_false,
    List.mem_map] at hc
  rcases hc with (rfl | rfl | rfl | rfl) | ⟨m, -, rfl⟩
  · exact he
  · exact he
  · exact he
  · exact he
  · show e.active.erase m = ∅
    rw [he, Finset.erase_empty]

/-- `start` activates its first controller after the last service is up. -/
theorem guarded_of_mem_start {w : Server M} (h : Balanced w)
    (it : IterationOrder M) :
    ∀ w' ∈ callTrace (.start it) w, w'.env.guarded := by
  unfold callTrace Operation.body
  cases hrun : w.fields.started with
  | true =>
      rw [trace_start_of_running it hrun]
      intro w' hw'
      exact absurd hw' List.not_mem_nil
  | false =>
      rw [trace_start it hrun]
      unfold startCalls
      rw [Prog.trace_callAll_append fun _ _ => rfl]
      intro w' hw'
      rcases List.mem_append.mp hw' with hservices | hloop
      · apply guarded_of_active_eq_empty
        refine Prog.forall_mem_trace_callAll
          (I := fun e : Components M => e.active = ∅) ?_
          (w := ⟨w.fields.startedUp, w.env⟩) (h.quiet hrun) w' hservices
        intro c hc e he
        rw [effect_active_of_mem_services hc, he]
      · intro _
        refine Prog.forall_mem_trace_callAll
          (I := Components.servicesUp) ?_ ⟨rfl, rfl, rfl⟩ w' hloop
        intro c hc e he
        obtain ⟨m, -, rfl⟩ := List.mem_map.mp hc
        exact he

/-- `stop` passes through guarded states only when nobody is active: its very
first call takes the UDP manager away from an active controller. -/
theorem guarded_of_mem_stop_iff {w : Server M} (it : IterationOrder M) :
    (∀ w' ∈ callTrace (.stop it) w, w'.env.guarded) ↔
      QuietStop w (.stop it) := by
  unfold callTrace Operation.body
  constructor
  · intro hguarded hrun
    rw [trace_stop it hrun] at hguarded
    have hfirst := hguarded _ List.mem_cons_self
    by_contra hactive
    have hup := hfirst (Finset.nonempty_iff_ne_empty.mpr hactive)
    exact Bool.false_ne_true hup.2.2
  · intro hquiet
    cases hrun : w.fields.started with
    | false =>
        rw [trace_stop_of_stopped it hrun]
        intro w' hw'
        exact absurd hw' List.not_mem_nil
    | true =>
        rw [trace_stop it hrun]
        intro w' hw'
        apply guarded_of_active_eq_empty
        exact Prog.forall_mem_trace_callAll
          (I := fun e : Components M => e.active = ∅)
          (fun c hc e he => effect_active_eq_empty_of_mem_stopCalls hc he)
          (w := ⟨w.fields.shutDown, w.env⟩) (hquiet hrun) w' hw'

/-- `addManager` and `removeManager` make no component call. -/
theorem callTrace_addManager (manager : Option M) (w : Server M) :
    callTrace (.addManager manager) w = [] := by
  cases manager with
  | none => rfl
  | some m =>
      cases hkey : w.fields.controllers.containsKey (getControlProtocol m) with
      | true =>
          simp [callTrace, Operation.body, StandaloneMediaServer.addManager, hkey]
      | false =>
          simp [callTrace, Operation.body, StandaloneMediaServer.addManager, hkey,
            Prog.modify]

theorem callTrace_removeManager (manager : Option M) (w : Server M) :
    callTrace (.removeManager manager) w = [] := by
  cases manager with
  | none => rfl
  | some m => rfl

theorem guarded_of_mem_callTrace_iff {w : Server M} (h : Balanced w)
    (op : Operation M) :
    (∀ w' ∈ callTrace op w, w'.env.guarded) ↔ QuietStop w op := by
  cases op with
  | start it => exact iff_of_true (guarded_of_mem_start h it) trivial
  | stop it => exact guarded_of_mem_stop_iff it
  | addManager manager =>
      rw [callTrace_addManager]
      exact iff_of_true (List.forall_mem_nil _) trivial
  | removeManager manager =>
      rw [callTrace_removeManager]
      exact iff_of_true (List.forall_mem_nil _) trivial

/-- A call keeps the balance, provided it is no `stop` over active
controllers: such a `stop` may leave behind a controller it does not know. -/
theorem balanced_call {w : Server M} (h : Balanced w) {op : Operation M}
    (hop : QuietStop w op) : Balanced (call .none op w).2 := by
  cases op with
  | start it =>
      cases hrun : w.fields.started with
      | true =>
          rw [call_start_of_running it hrun]
          exact h
      | false =>
          rw [call_start_of_stopped it hrun, applyAll_startCalls]
          constructor
          · intro _
            exact ⟨rfl, rfl, rfl⟩
          · intro hstop
            exact absurd hstop Bool.true_eq_false.mp
  | stop it =>
      cases hrun : w.fields.started with
      | false =>
          rw [call_stop_of_stopped it hrun]
          exact h
      | true =>
          rw [call_stop_of_running it hrun, applyAll_stopCalls]
          constructor
          · intro hup
            exact absurd hup Bool.false_ne_true
          · intro _
            have hquiet : w.env.active = ∅ := hop hrun
            simp [hquiet]
  | addManager manager => exact h.of_frame (call_addManager_frame manager)
  | removeManager manager =>
      exact h.of_frame (call_removeManager_frame manager)

/-! ## Whole runs -/

/-- **Controllers keep their services exactly while `stop` finds none.** In
every state a run passes through an active controller has its core services,
if and only if every accepted `stop` of the run comes while no controller is
active. -/
theorem guarded_along_run_iff (controller : Option M)
    (ops : List (Operation M)) :
    (∀ pre op, pre ++ [op] <+: ops →
        ∀ w ∈ callTrace op ((Server.new controller).run pre), w.env.guarded) ↔
      ∀ pre op, pre ++ [op] <+: ops →
        QuietStop ((Server.new controller).run pre) op := by
  refine always_iff_of_invariant
    (I := fun pre => Balanced ((Server.new controller : Server M).run pre))
    (H := fun pre op => ∀ w ∈ callTrace op ((Server.new controller).run pre),
      w.env.guarded)
    (G := fun pre op => QuietStop ((Server.new controller).run pre) op)
    (balanced_new controller) ?_ ?_ ops
  · intro pre op hbalanced hquiet
    rw [run_concat]
    exact balanced_call hbalanced hquiet
  · intro pre op hbalanced
    exact guarded_of_mem_callTrace_iff hbalanced op

/-! ### The condition on the calls alone -/

/-- A `start` that is accepted and finds a manager registered. -/
def PopulatedStart (w : Server M) : Operation M → Prop
  | .start _ => StandaloneMediaServer.isRunning w = false ∧
      w.fields.controllers.values ≠ []
  | _ => False

/-- Such a call has been made. -/
def Populated (controller : Option M) (ops : List (Operation M)) : Prop :=
  Occurred (fun pre op => PopulatedStart ((Server.new controller).run pre) op)
    ops

/-- While every `stop` is quiet, the first active controller comes with a
`start` that finds one registered, and stays. -/
theorem active_eq_empty_concat_iff {controller : Option M}
    {pre : List (Operation M)} {op : Operation M}
    (h : ((Server.new controller).run pre).env.active = ∅ ↔
      ¬ Populated controller pre)
    (hquiet : QuietStop ((Server.new controller).run pre) op) :
    ((Server.new controller).run (pre ++ [op])).env.active = ∅ ↔
      ¬ Populated controller (pre ++ [op]) := by
  unfold Populated at h ⊢
  rw [run_concat, occurred_concat, not_or, ← h]
  cases op with
  | start it =>
      cases hrun : ((Server.new controller).run pre).fields.started with
      | true =>
          rw [call_start_of_running it hrun]
          simp [PopulatedStart, StandaloneMediaServer.isRunning, hrun]
      | false =>
          rw [call_start_of_stopped it hrun, applyAll_startCalls]
          simp [PopulatedStart, StandaloneMediaServer.isRunning, hrun,
            Finset.union_eq_empty]
  | stop it =>
      cases hrun : ((Server.new controller).run pre).fields.started with
      | false =>
          rw [call_stop_of_stopped it hrun]
          simp [PopulatedStart]
      | true =>
          -- a quiet `stop` finds nobody to deactivate
          have hidle : ((Server.new controller).run pre).env.active = ∅ :=
            hquiet hrun
          rw [call_stop_of_running it hrun, applyAll_stopCalls]
          simp [PopulatedStart, hidle]
  | addManager manager =>
      rw [(call_addManager_frame manager).2]
      simp [PopulatedStart]
  | removeManager manager =>
      rw [(call_removeManager_frame manager).2]
      simp [PopulatedStart]

/-- Every accepted `stop` of a run comes while no controller is active exactly
if none follows an accepted `start` that found a manager registered. -/
theorem quietStop_along_run_iff (controller : Option M)
    (ops : List (Operation M)) :
    (∀ pre op, pre ++ [op] <+: ops →
        QuietStop ((Server.new controller).run pre) op) ↔
      ∀ pre it, pre ++ [.stop it] <+: ops →
        StandaloneMediaServer.isRunning ((Server.new controller).run pre) =
          true → ¬ Populated controller pre := by
  have hexact := always_iff_of_invariant
    (I := fun pre => ((Server.new controller).run pre).env.active = ∅ ↔
      ¬ Populated controller pre)
    (H := fun pre op => ∀ it, op = .stop it →
      StandaloneMediaServer.isRunning ((Server.new controller).run pre) =
        true → ¬ Populated controller pre)
    (G := fun pre op => QuietStop ((Server.new controller).run pre) op)
    ?_ (fun pre op hidle hquiet => active_eq_empty_concat_iff hidle hquiet) ?_
    ops
  · refine hexact.symm.trans ⟨fun h pre it hpre => h pre _ hpre it rfl, ?_⟩
    rintro h pre _ hpre it rfl
    exact h pre it hpre
  · refine iff_of_true ?_ (not_occurred_nil _)
    show (Server.new controller : Server M).env.active = ∅
    rw [Server.new_eq]
    rfl
  · intro pre op hidle
    cases op with
    | stop it =>
        simp only [QuietStop, Operation.stop.injEq, hidle]
        exact ⟨fun h => h it rfl, fun h it' _ => h⟩
    | _ => simp [QuietStop]

/-- One controller, started and stopped: after the first call of `stop` the
controller is active and the UDP manager is down. -/
theorem active_without_udpManager :
    ∃ w ∈ callTrace (.stop (.listed _))
        ((Server.new (some (⟨0, 0⟩ : PlainManager))).run [.start (.listed _)]),
      w.env.active = {⟨0, 0⟩} ∧ w.env.udpManager = false ∧ ¬ w.env.guarded := by
  refine ⟨_, List.mem_cons_self, by decide, by decide, fun hguarded => ?_⟩
  have hup := hguarded (by decide)
  exact absurd hup.2.2 (by decide)

end MediaServer
