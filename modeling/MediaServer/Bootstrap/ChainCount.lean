import MediaServer.Bootstrap.DependencyOrder
import MediaServer.Bootstrap.HeartbeatChain

/-!
# How many heartbeats

No field of the server counts its heartbeats. `start` submits one, every
execution submits its successor, and `stop` discards what is queued but not
what is in flight. The history of a run determines their number: it is the
number of executions that were in flight when the media scheduler was last
stopped, and the submissions of `start` since. This holds as long as the
submission of an execution goes through, whatever the methods' calls do.
-/

namespace MediaServer

open Foundation

variable {M P : Type} [ServerManager M P]

/-- What the history of a run says about the heartbeat. -/
structure Tally where
  -- executions in flight when the media scheduler was last stopped
  carried : ℕ
  -- submissions by `start` since then
  submitted : ℕ

def Tally.total (t : Tally) : ℕ := t.carried + t.submitted

/-- The history after a call that goes through. -/
def Tally.after (t : Tally) : Option (Call M × Server M) → Tally
  | some (.mediaSchedulerStop, w) => ⟨w.env.inFlight, 0⟩
  | some (.submitHeatbeat, _) => { t with submitted := t.submitted + 1 }
  | _ => t

/-- The history after a step of the run that stands at `s`. -/
def Tally.next (t : Tally)
    (s : Threads.State (Call M) (Fields M) JavaException (Components M) Unit) :
    Action (Method M) Work → Tally
  | .advance => t.after (Threads.nextCall s)
  | _ => t

variable [DecidableEq M] [DecidableEq P] [ToString P]

section Law

variable (mayThrow : Call M → Bool) (controller : Option M)

/-- The history of a run. -/
def tally (actions : List (Action (Method M) Work)) : Tally :=
  history (threads mayThrow).next Tally.next (none, Server.new controller)
    ⟨0, 0⟩ actions

theorem tally_concat (actions : List (Action (Method M) Work))
    (action : Action (Method M) Work) :
    tally mayThrow controller (actions ++ [action]) =
      (tally mayThrow controller actions).next
        (interleaved mayThrow controller actions) action :=
  Foundation.history_concat _ _ _ _ _ _

theorem interleaved_concat (actions : List (Action (Method M) Work))
    (action : Action (Method M) Work) :
    interleaved mayThrow controller (actions ++ [action]) =
      (threads mayThrow).next (interleaved mayThrow controller actions)
        action :=
  Threads.run_concat _ _ _ _

end Law

omit [DecidableEq P] [ToString P] in
/-- A call changes the number of beats as the history says. -/
theorem total_after (t : Tally) (c : Call M) {w : Server M}
    (h : w.env.beats = t.total) :
    (c.effect w.env).beats = (t.after (some (c, w))).total := by
  unfold Components.beats Tally.total at h
  cases c with
  | submitHeatbeat =>
      show w.env.queued + 1 + w.env.inFlight = t.carried + (t.submitted + 1)
      omega
  | mediaSchedulerStop =>
      show 0 + w.env.inFlight = w.env.inFlight + 0
      omega
  | _ => exact h

omit [DecidableEq P] [ToString P] in
/-- The worker drops no beat while the services are stacked: what it takes
out belongs to an active heartbeat. -/
theorem Components.Stacked.work_beats {w : Server M} (h : w.env.Stacked)
    (a : Work) : (a.apply w).env.beats = w.env.beats := by
  cases a with
  | takeOut =>
      show w.env.takeOut.beats = w.env.beats
      cases hmedia : w.env.mediaScheduler with
      | true => exact Components.takeOut_beats (h.mediaScheduler hmedia).1
      | false =>
          unfold Components.takeOut
          rw [hmedia]
          rfl
  | perform =>
      show w.perform.env.beats = w.env.beats
      rcases w.perform_cases with ⟨-, hsame⟩ | ⟨-, -, -, -, hbeats⟩
      · rw [hsame]
      · exact hbeats

theorem total_next {mayThrow : Call M → Bool} {t : Tally}
    {s : Threads.State (Call M) (Fields M) JavaException (Components M) Unit}
    (stacked : s.2.env.Stacked) (h : s.2.env.beats = t.total)
    (action : Action (Method M) Work) :
    ((threads mayThrow).next s action).2.env.beats =
      (t.next s action).total := by
  cases action with
  | invoke method => exact h
  | throw =>
      show (Prog.throwStep mayThrow s).2.env.beats = t.total
      rw [Threads.env_throwStep, h]
  | work a =>
      show (a.apply s.2).env.beats = t.total
      rw [stacked.work_beats a, h]
  | advance =>
      show (Prog.step Call.effect s).2.env.beats =
        (t.after (Threads.nextCall s)).total
      rw [Threads.env_step]
      cases hcall : Threads.nextCall s with
      | none => exact h
      | some call =>
          obtain ⟨c, w⟩ := call
          rw [← Threads.env_of_nextCall hcall] at h ⊢
          exact total_after t c h

/-- From any state between two methods, the history keeps the count. -/
theorem total_run {mayThrow : Call M → Bool} {w : Server M}
    (hresting : Resting mayThrow w) {t : Tally} (h : w.env.beats = t.total)
    (actions : List (Action (Method M) Work)) :
    ((threads mayThrow).run (none, w) actions).2.env.beats =
      (Foundation.history (threads mayThrow).next Tally.next (none, w) t
        actions).total := by
  induction actions using List.reverseRecOn with
  | nil => exact h
  | append_singleton actions action ih =>
      rw [Threads.run_concat, Foundation.history_concat]
      exact total_next (stacked_of_resting hresting actions) ih action

theorem beats_new (controller : Option M) :
    (Server.new controller).env.beats = Tally.total ⟨0, 0⟩ := by
  rw [Server.new_eq]
  rfl

/-- **The number of heartbeats.** In every run, whatever is interleaved and
whichever calls of the methods throw, the beats to come are the executions
that were in flight when the media scheduler was last stopped and the
submissions of `start` since. The submissions of the executions go through:
one that threw would lose its beat. -/
theorem beats_interleaved (mayThrow : Call M → Bool) (controller : Option M)
    (actions : List (Action (Method M) Work)) :
    (interleaved mayThrow controller actions).2.env.beats =
      (tally mayThrow controller actions).total :=
  total_run (resting_new controller) (beats_new controller) actions

/-! ## Without failures

A running server that is left alone has had one submission since its scheduler
was last stopped, a stopped one none. -/

/-- A step of the control thread or the worker, as a step of the threads. -/
def Event.toAction : Event M → Action (Method M) Work
  | .invoke op => .invoke (.standalone op)
  | .advance => .advance
  | .takeOut => .work .takeOut
  | .perform => .work .perform

namespace System

def toState (s : System M) :
    Threads.State (Call M) (Fields M) JavaException (Components M) Unit :=
  (s.control, s.server)

theorem toState_next (s : System M) (event : Event M) :
    (s.next event).toState =
      (threads fun _ => false).next s.toState event.toAction := by
  obtain ⟨control, server⟩ := s
  cases event with
  | invoke op =>
      cases control with
      | none => rfl
      | some p => rfl
  | advance => rfl
  | takeOut => rfl
  | perform => rfl

theorem toState_run (controller : Option M) (events : List (Event M)) :
    (run controller events).toState =
      interleaved (fun _ => false) controller
        (events.map Event.toAction) := by
  induction events using List.reverseRecOn with
  | nil => rfl
  | append_singleton events event ih =>
      rw [run_concat, toState_next, ih, List.map_append, List.map_singleton,
        interleaved_concat]

omit [DecidableEq M] [DecidableEq P] [ToString P] in
theorem nextCall_toState (s : System M) :
    s.nextCall = (Threads.nextCall s.toState).map Prod.fst := by
  obtain ⟨control, server⟩ := s
  cases control with
  | none => rfl
  | some p =>
      rcases hadv : p.advance server.fields with ⟨this, _ | ⟨c, k⟩⟩
      · simp [nextCall, Threads.nextCall, toState, hadv]
      · simp [nextCall, Threads.nextCall, toState, hadv]

/-- The history of a run without failures. -/
def history (controller : Option M) (events : List (Event M)) : Tally :=
  tally (fun _ => false) controller (events.map Event.toAction)

theorem history_concat (controller : Option M) (events : List (Event M))
    (event : Event M) :
    history controller (events ++ [event]) =
      (history controller events).next (run controller events).toState
        event.toAction := by
  unfold history
  rw [List.map_append, List.map_singleton, tally_concat, toState_run]

/-- The calls of `stop` after the media scheduler is stopped. -/
def windsUp (c : Call M) : Prop := c = .cancel ∨ takesDown c

/-- Where the thread is, and how often it has submitted the heartbeat since
the media scheduler was last stopped. -/
inductive Submitted (n : ℕ) (s : System M) : Prop
  | up (control : Control bringsUp s.control)
      (started : s.server.fields.started = true) (one : n = 1)
  | stopping (p : ServerM M Unit) (tail : p.CallsOnly takesDown)
      (control : s.control = some (.call .taskSchedulerStop
          (.call .mediaSchedulerStop (.call .cancel p))) ∨
        s.control = some (.call .mediaSchedulerStop (.call .cancel p)))
      (started : s.server.fields.started = false) (one : n = 1)
  | down (control : Control windsUp s.control)
      (started : s.server.fields.started = false) (none : n = 0)

omit [DecidableEq P] [ToString P] in
/-- Only two calls count. -/
theorem submitted_next (t : Tally) (s : System M) :
    (t.next s.toState .advance).submitted =
      if s.nextCall = some .mediaSchedulerStop then 0
      else if s.nextCall = some .submitHeatbeat then t.submitted + 1
      else t.submitted := by
  rw [nextCall_toState]
  show (t.after (Threads.nextCall s.toState)).submitted = _
  cases Threads.nextCall s.toState with
  | none => simp [Tally.after]
  | some call =>
      obtain ⟨c, w⟩ := call
      cases c <;> simp [Tally.after]

omit [DecidableEq P] [ToString P] in
theorem submitted_of_other {t : Tally} {s : System M} {call : Option (Call M)}
    (h : s.nextCall = call) (hstop : call ≠ some .mediaSchedulerStop)
    (hsubmit : call ≠ some .submitHeatbeat) :
    (t.next s.toState .advance).submitted = t.submitted := by
  rw [submitted_next, h, if_neg hstop, if_neg hsubmit]

omit [DecidableEq P] [ToString P] in
theorem submitted_of_submit {t : Tally} {s : System M}
    (h : s.nextCall = some .submitHeatbeat) :
    (t.next s.toState .advance).submitted = t.submitted + 1 := by
  rw [submitted_next, h, if_neg (by simp), if_pos rfl]

omit [DecidableEq P] [ToString P] in
theorem submitted_of_stop {t : Tally} {s : System M}
    (h : s.nextCall = some .mediaSchedulerStop) :
    (t.next s.toState .advance).submitted = 0 := by
  rw [submitted_next, h, if_pos rfl]

theorem submitted_advance {t : Tally} {s : System M}
    (h : Submitted t.submitted s) :
    Submitted (t.next s.toState .advance).submitted (s.next .advance) := by
  cases h with
  | up control started one =>
      cases control.advance with
      | ended this same step call =>
          rw [submitted_of_other call nofun nofun, step]
          exact .up .idle (same.trans started) one
      | called c p kind tail step call =>
          rw [submitted_of_other call (by rintro ⟨⟩; exact kind)
            (by rintro ⟨⟩; exact kind), step]
          exact .up (.within tail) started one
      | starts p stopped tail step call =>
          exact absurd (started.symm.trans stopped) Bool.true_eq_false.mp
      | stops p running tail step call =>
          rw [submitted_of_other call nofun nofun, step]
          exact .stopping p tail (Or.inl rfl) rfl one
  | stopping p tail control started one =>
      rcases control with control | control
      · obtain ⟨step, call⟩ := advance_of_called control rfl
        rw [submitted_of_other call nofun nofun, step]
        exact .stopping p tail (Or.inr rfl) started one
      · obtain ⟨step, call⟩ := advance_of_called control rfl
        rw [submitted_of_stop call, step]
        refine .down (.within ⟨Or.inl rfl, ?_⟩) started rfl
        exact tail.mono fun c hc => Or.inr hc
  | down control started none =>
      cases control.advance with
      | ended this same step call =>
          rw [submitted_of_other call nofun nofun, step]
          exact .down .idle (same.trans started) none
      | called c p kind tail step call =>
          rw [submitted_of_other call (by rintro ⟨⟩; simp [windsUp, takesDown] at kind)
            (by rintro ⟨⟩; simp [windsUp, takesDown] at kind), step]
          exact .down (.within tail) started none
      | starts p stopped tail step call =>
          rw [submitted_of_submit call, step, none]
          exact .up (.within tail) rfl rfl
      | stops p running tail step call =>
          exact absurd (started.symm.trans running) Bool.false_ne_true

theorem submitted_run (controller : Option M) (events : List (Event M)) :
    Submitted (history controller events).submitted (run controller events) := by
  induction events using List.reverseRecOn with
  | nil =>
      refine .down .idle ?_ rfl
      show (Server.new controller).fields.started = false
      rw [Server.new_eq]
  | append_singleton events event ih =>
      rw [run_concat, history_concat]
      revert ih
      generalize run controller events = s
      generalize history controller events = t
      intro h
      cases event with
      | advance => exact submitted_advance h
      | takeOut =>
          cases h with
          | up control started one => exact .up control started one
          | stopping p tail control started one =>
              exact .stopping p tail control started one
          | down control started none => exact .down control started none
      | perform =>
          have hstarted := s.server.perform_started
          cases h with
          | up control started one =>
              exact .up control (hstarted.trans started) one
          | stopping p tail control started one =>
              exact .stopping p tail control (hstarted.trans started) one
          | down control started none =>
              exact .down control (hstarted.trans started) none
      | invoke op =>
          obtain ⟨control, server⟩ := s
          cases control with
          | some p => exact h
          | none =>
              cases h with
              | up _ started one => exact .up (.begun op) started one
              | stopping p tail control => simp at control
              | down _ started none => exact .down (.begun op) started none

/-- How many beats a server has that is left alone, given how many executions
were in flight when its scheduler was last stopped. -/
structure Beats (s : System M) (carried : ℕ) : Prop where
  running : s.idle → StandaloneMediaServer.isRunning s.server = true →
    s.server.env.heartbeat = true ∧ s.server.env.beats = carried + 1
  stopped : s.idle → StandaloneMediaServer.isRunning s.server = false →
    s.server.env.beats = carried

/-- **Exactly how many chains.** Without failures, in every interleaving, a
running server that is left alone has one beat of its own and one more for
each execution that its last `stop` overtook; a stopped one has only those. -/
theorem beats_run (controller : Option M) (events : List (Event M)) :
    Beats (run controller events) (history controller events).carried := by
  have hbeats : (run controller events).toState.2.env.beats =
      (history controller events).carried +
        (history controller events).submitted := by
    rw [toState_run]
    exact total_run (resting_new controller) (beats_new controller)
      (events.map Event.toAction)
  have hsafe := safe_interleaved (fun _ => false) controller
    (events.map Event.toAction)
  rw [← toState_run] at hsafe
  have hsubmitted := submitted_run controller events
  constructor
  · intro hidle hrun
    have hresting : Resting (fun _ => false) (run controller events).server := by
      unfold toState at hsafe
      rw [show (run controller events).control = none from hidle] at hsafe
      exact hsafe
    have hmedia : (run controller events).server.env.mediaScheduler = true := by
      have hservices := hresting.2 fun _ => rfl
      exact (congrArg Prod.fst hservices).trans hrun
    refine ⟨(hresting.1.mediaScheduler hmedia).1, ?_⟩
    cases hsubmitted with
    | up control started one => exact hbeats.trans (by rw [one])
    | stopping p tail control started one =>
        exact absurd (started.symm.trans hrun) Bool.false_ne_true
    | down control started none =>
        exact absurd (started.symm.trans hrun) Bool.false_ne_true
  · intro hidle hstop
    have hidle : (run controller events).control = Option.none := hidle
    cases hsubmitted with
    | up control started one =>
        exact absurd (started.symm.trans hstop) Bool.true_eq_false.mp
    | stopping p tail control started one => simp [hidle] at control
    | down control started none => exact hbeats.trans (by rw [none]; rfl)

end System

end MediaServer
