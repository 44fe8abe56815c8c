import MediaServer.Bootstrap.StandaloneMediaServer
import MediaServer.Foundation.Run

/-!
# One heartbeat chain

The heartbeat keeps itself alive: `perform` submits the task again. `start`
begins such a chain and `stop` is to end it, while executions run on a worker
of the media scheduler. Here one control thread calls the server, one
operation after the other and one component call a step, interleaved with the
worker in any way.

`stop` discards the queue and clears the active mark, but an execution that is
in flight at that moment submits the task once more. The next `start` then
begins a second chain.
-/

namespace MediaServer

open Foundation

variable {M P : Type} [ServerManager M P]

/-- The control thread, with what remains of its present call, and the
server. -/
structure System (M : Type) {P : Type} [ServerManager M P] where
  control : Option (ServerM M Unit)
  server : Server M

/-- The steps of the control thread and of the worker. -/
inductive Event (M : Type) where
  | invoke (op : Operation M)
  | advance
  | takeOut
  | perform

namespace System

/-- No call of the control thread is in progress. -/
def idle (s : System M) : Prop := s.control = none

/-- The component call the control thread makes when it advances. -/
def nextCall (s : System M) : Option (Call M) := do
  let p ← s.control
  let (c, _) ← (p.advance s.server.fields).2
  pure c

/-- A chain that is marked active beats at most once at a time, and a running
server that is left alone has exactly one. -/
structure OneChain (s : System M) : Prop where
  atMostOne : s.server.env.heartbeat = true → s.server.env.beats ≤ 1
  exactlyOne : s.idle → StandaloneMediaServer.isRunning s.server = true →
    s.server.env.heartbeat = true ∧ s.server.env.beats = 1

/-- The step is `stop` taking the scheduler away under an execution. -/
def overtakes (s : System M) : Event M → Prop
  | .advance => s.nextCall = some .mediaSchedulerStop ∧
      0 < s.server.env.inFlight
  | _ => False

/-- The step is `start` submitting the heartbeat. -/
def restarts (s : System M) : Event M → Prop
  | .advance => s.nextCall = some .submitHeatbeat
  | _ => False

/-! ## What is left of a call after its first step -/

/-- The calls of `start` after the heartbeat is submitted. -/
def bringsUp : Call M → Prop
  | .mediaSchedulerStart => True
  | .taskSchedulerStart => True
  | .udpManagerStart => True
  | .activate _ => True
  | _ => False

/-- The calls of `stop` after the heartbeat is cancelled. -/
def takesDown : Call M → Prop
  | .deactivate _ => True
  | _ => False

theorem advance_start_of_running (it : IterationOrder M) {this : Fields M}
    (h : this.started = true) :
    (StandaloneMediaServer.start it).advance this = (this, none) := by
  simp [StandaloneMediaServer.start, h]

theorem advance_stop_of_stopped (it : IterationOrder M) {this : Fields M}
    (h : this.started = false) :
    (StandaloneMediaServer.stop it).advance this = (this, none) := by
  simp [StandaloneMediaServer.stop, h]

theorem advance_start (it : IterationOrder M) {this : Fields M}
    (h : this.started = false) :
    ∃ p, p.CallsOnly bringsUp ∧
      (StandaloneMediaServer.start it).advance this =
        (this.startedUp, some (.submitHeatbeat, p)) := by
  refine ⟨?tail, ?only, ?first⟩
  case first =>
    simp only [StandaloneMediaServer.start, Prog.fields_bind,
      Prog.advance_read, h, Bool.false_eq_true, if_false]
    rfl
  case only =>
    refine ⟨trivial, trivial, trivial, fun this => ?_⟩
    show Prog.CallsOnly _ (List.forM (it.arrange this.controllers.values) _)
    rw [Prog.forM_invoke]
    apply Prog.callsOnly_callAll
    intro c hc
    obtain ⟨m, -, rfl⟩ := List.mem_map.mp hc
    trivial

theorem advance_stop (it : IterationOrder M) {this : Fields M}
    (h : this.started = true) :
    ∃ p, p.CallsOnly takesDown ∧
      (StandaloneMediaServer.stop it).advance this =
        (this.shutDown, some (.udpManagerStop,
          .call .taskSchedulerStop (.call .mediaSchedulerStop
            (.call .cancel p)))) := by
  refine ⟨?tail, ?only, ?first⟩
  case first =>
    simp only [StandaloneMediaServer.stop, Prog.fields_bind,
      Prog.advance_read, h, Bool.not_true, Bool.false_eq_true, if_false]
    rfl
  case only =>
    intro this
    show Prog.CallsOnly _ (List.forM (it.arrange this.controllers.values) _)
    rw [Prog.forM_invoke]
    apply Prog.callsOnly_callAll
    intro c hc
    obtain ⟨m, -, rfl⟩ := List.mem_map.mp hc
    trivial

/-! ## Steps and runs -/

variable [DecidableEq M] [DecidableEq P] [ToString P]

/-- A step that is not enabled changes nothing. -/
def next (s : System M) : Event M → System M
  | .invoke op =>
      match s.control with
      | none => { s with control := some op.body }
      | some _ => s
  | .advance =>
      let (control, server) := Prog.step Call.effect (s.control, s.server)
      ⟨control, server⟩
  | .takeOut => { s with server := s.server.takeOut }
  | .perform => { s with server := s.server.perform }

def new (controller : Option M) : System M := ⟨none, .new controller⟩

def run (controller : Option M) (events : List (Event M)) : System M :=
  events.foldl next (new controller)

theorem run_concat (controller : Option M) (events : List (Event M))
    (event : Event M) :
    run controller (events ++ [event]) = (run controller events).next event := by
  simp [run, List.foldl_append]

/-- Left alone, the control thread ends its call in the state in which the
call ends that is made at one go. -/
theorem advance_alone (op : Operation M) (w : Server M) :
    ∃ n, (fun s : System M => s.next .advance)^[n] ⟨some op.body, w⟩ =
      ⟨none, (call .none op w).2⟩ := by
  obtain ⟨n, hend⟩ :=
    Prog.exec_iterate_step Call.effect (fun _ => false) op.body w
  have hn : (Prog.step Call.effect)^[n] (some op.body, w) =
      (none, (call .none op w).2) := by
    rcases hend with hn | ⟨_, _, _, c, _, -, -, hfails, -⟩
    · exact hn
    · exact absurd hfails Bool.false_ne_true
  refine ⟨n, ?_⟩
  have hstep : Function.Semiconj
      (fun t : Option (ServerM M Unit) × Server M => (⟨t.1, t.2⟩ : System M))
      (Prog.step Call.effect) (fun s : System M => s.next .advance) := by
    intro t
    rfl
  have hrun := hstep.iterate_right n (some op.body, w)
  rw [hn] at hrun
  exact hrun.symm

/-! A step of the control thread, by what the thread has left to do. -/

theorem advance_of_none {s : System M} (h : s.control = none) :
    s.next .advance = s ∧ s.nextCall = none := by
  obtain ⟨control, server⟩ := s
  cases h
  exact ⟨rfl, rfl⟩

theorem advance_of_ended {s : System M} {p : ServerM M Unit}
    {this : Fields M} (h : s.control = some p)
    (hp : p.advance s.server.fields = (this, none)) :
    s.next .advance = ⟨none, this, s.server.env⟩ ∧ s.nextCall = none := by
  obtain ⟨control, server⟩ := s
  cases h
  simp [next, nextCall, Prog.step, hp]

theorem advance_of_called {s : System M} {p k : ServerM M Unit}
    {this : Fields M} {c : Call M} (h : s.control = some p)
    (hp : p.advance s.server.fields = (this, some (c, k))) :
    s.next .advance = ⟨some k, this, c.effect s.server.env⟩ ∧
      s.nextCall = some c := by
  obtain ⟨control, server⟩ := s
  cases h
  simp [next, nextCall, Prog.step, hp]

/-- Between two chains, and within the last part of `start` and `stop`, the
thread is idle, about to begin an operation, or making calls of one kind. -/
inductive Control (C : Call M → Prop) : Option (ServerM M Unit) → Prop
  | idle : Control C none
  | begun (op : Operation M) : Control C (some op.body)
  | within {p : ServerM M Unit} (h : p.CallsOnly C) : Control C (some p)

/-- All that such a thread can do in one step. -/
inductive Advance (C : Call M → Prop) (s : System M) : Prop
  | ended (this : Fields M) (started : this.started = s.server.fields.started)
      (step : s.next .advance = ⟨none, this, s.server.env⟩)
      (call : s.nextCall = none)
  | called (c : Call M) (p : ServerM M Unit) (kind : C c)
      (tail : p.CallsOnly C)
      (step : s.next .advance =
        ⟨some p, s.server.fields, c.effect s.server.env⟩)
      (call : s.nextCall = some c)
  | starts (p : ServerM M Unit) (stopped : s.server.fields.started = false)
      (tail : p.CallsOnly bringsUp)
      (step : s.next .advance = ⟨some p, s.server.fields.startedUp,
        Call.submitHeatbeat.effect s.server.env⟩)
      (call : s.nextCall = some .submitHeatbeat)
  | stops (p : ServerM M Unit) (running : s.server.fields.started = true)
      (tail : p.CallsOnly takesDown)
      (step : s.next .advance = ⟨some (.call .taskSchedulerStop
          (.call .mediaSchedulerStop (.call .cancel p))),
        s.server.fields.shutDown, Call.udpManagerStop.effect s.server.env⟩)
      (call : s.nextCall = some .udpManagerStop)

omit [DecidableEq M] in
/-- Registration ends at once, whatever it does to the registry. -/
theorem advance_addManager (manager : Option M) (this : Fields M) :
    ∃ this', this'.started = this.started ∧
      (StandaloneMediaServer.addManager manager).advance this =
        (this', none) := by
  cases manager with
  | none => exact ⟨this, rfl, rfl⟩
  | some m =>
      cases hkey : this.controllers.containsKey (getControlProtocol m) with
      | true =>
          refine ⟨this, rfl, ?_⟩
          simp [StandaloneMediaServer.addManager, hkey]
      | false =>
          refine ⟨{ this with controllers := this.controllers.put m }, rfl, ?_⟩
          simp [StandaloneMediaServer.addManager, hkey, Prog.modify]

omit [DecidableEq M] [ToString P] in
theorem advance_removeManager (manager : Option M) (this : Fields M) :
    ∃ this', this'.started = this.started ∧
      (StandaloneMediaServer.removeManager manager).advance this =
        (this', none) := by
  cases manager with
  | none => exact ⟨this, rfl, rfl⟩
  | some m =>
      exact ⟨{ this with
        controllers := this.controllers.remove (getControlProtocol m) },
        rfl, rfl⟩

theorem Advance.of_ended {C : Call M → Prop} {s : System M}
    {p : ServerM M Unit} {this : Fields M} (h : s.control = some p)
    (hp : p.advance s.server.fields = (this, none))
    (hstarted : this.started = s.server.fields.started) : Advance C s := by
  obtain ⟨hstep, hcall⟩ := advance_of_ended h hp
  exact .ended this hstarted hstep hcall

theorem Control.advance {C : Call M → Prop} {s : System M}
    (h : Control C s.control) : Advance C s := by
  obtain ⟨control, server⟩ := s
  cases h with
  | idle =>
      obtain ⟨hstep, hcall⟩ := advance_of_none (s := ⟨none, server⟩) rfl
      exact .ended server.fields rfl hstep hcall
  | @within p hp =>
      rcases hp.advance server.fields with hend | ⟨c, k, hcall, hc, hk⟩
      · exact .of_ended rfl hend rfl
      · obtain ⟨hstep, hsome⟩ :=
          advance_of_called (s := ⟨some p, server⟩) rfl hcall
        exact .called c k hc hk hstep hsome
  | begun op =>
      -- the four operations, each behind its own guard
      cases op with
      | start it =>
          cases hrun : server.fields.started with
          | true => exact .of_ended rfl (advance_start_of_running it hrun) rfl
          | false =>
              obtain ⟨p, hp, hfirst⟩ := advance_start it hrun
              obtain ⟨hstep, hsome⟩ :=
                advance_of_called (s := ⟨some _, server⟩) rfl hfirst
              exact .starts p hrun hp hstep hsome
      | stop it =>
          cases hrun : server.fields.started with
          | false => exact .of_ended rfl (advance_stop_of_stopped it hrun) rfl
          | true =>
              obtain ⟨p, hp, hfirst⟩ := advance_stop it hrun
              obtain ⟨hstep, hsome⟩ :=
                advance_of_called (s := ⟨some _, server⟩) rfl hfirst
              exact .stops p hrun hp hstep hsome
      | addManager manager =>
          obtain ⟨this, hstarted, hend⟩ :=
            advance_addManager manager server.fields
          exact .of_ended rfl hend hstarted
      | removeManager manager =>
          obtain ⟨this, hstarted, hend⟩ :=
            advance_removeManager manager server.fields
          exact .of_ended rfl hend hstarted

/-! ## The life of a chain -/

/-- A chain that beats: the task is active and has one beat to come. -/
structure Beating (overtaken : Prop) (e : Components M) : Prop where
  heartbeat : e.heartbeat = true
  one : e.beats = 1
  clean : ¬ overtaken

/-- A chain that is cut: nothing is taken out any more, and a beat is left
over exactly when an execution was overtaken. -/
structure Cut (overtaken : Prop) (e : Components M) : Prop where
  scheduler : e.mediaScheduler = false
  left : overtaken → e.beats = 1
  clean : ¬ overtaken → e.beats = 0

/-- The phases of a chain, given whether an execution has been overtaken so
far. -/
inductive Chain (overtaken : Prop) (s : System M) : Prop
  | up (control : Control bringsUp s.control)
      (started : s.server.fields.started = true)
      (beating : Beating overtaken s.server.env)
  | stopping (p : ServerM M Unit) (tail : p.CallsOnly takesDown)
      (control : s.control = some (.call .taskSchedulerStop
          (.call .mediaSchedulerStop (.call .cancel p))) ∨
        s.control = some (.call .mediaSchedulerStop (.call .cancel p)))
      (started : s.server.fields.started = false)
      (beating : Beating overtaken s.server.env)
  | cancelling (p : ServerM M Unit) (tail : p.CallsOnly takesDown)
      (control : s.control = some (.call .cancel p))
      (started : s.server.fields.started = false)
      (cut : Cut overtaken s.server.env)
  | down (control : Control takesDown s.control)
      (started : s.server.fields.started = false)
      (cut : Cut overtaken s.server.env)
      (quiet : ¬ overtaken → s.server.env.heartbeat = false)

variable {o : Prop} {s : System M}

omit [DecidableEq M] [DecidableEq P] [ToString P] in
theorem Cut.beats_le {e : Components M} (h : Cut o e) : e.beats ≤ 1 := by
  by_cases ho : o
  · exact (h.left ho).le
  · exact (h.clean ho).le.trans (Nat.zero_le 1)

omit [DecidableEq M] in
theorem Chain.oneChain (h : Chain o s) : OneChain s := by
  cases h with
  | up control started beating =>
      exact ⟨fun _ => beating.one.le,
        fun _ _ => ⟨beating.heartbeat, beating.one⟩⟩
  | stopping p tail control started beating =>
      refine ⟨fun _ => beating.one.le, fun _ hrun => ?_⟩
      exact absurd (started.symm.trans hrun) Bool.false_ne_true
  | cancelling p tail control started cut =>
      refine ⟨fun _ => cut.beats_le, fun _ hrun => ?_⟩
      exact absurd (started.symm.trans hrun) Bool.false_ne_true
  | down control started cut quiet =>
      refine ⟨fun _ => cut.beats_le, fun _ hrun => ?_⟩
      exact absurd (started.symm.trans hrun) Bool.false_ne_true

theorem chain_new (controller : Option M) : Chain False (new controller) := by
  unfold new
  rw [Server.new_eq]
  exact .down .idle rfl ⟨rfl, False.elim, fun _ => rfl⟩ fun _ => rfl

/-! The worker keeps the number of beats in every phase. -/

omit [DecidableEq M] [DecidableEq P] [ToString P] in
theorem Beating.takeOut {e : Components M} (h : Beating o e) :
    Beating o e.takeOut := by
  unfold Components.takeOut
  by_cases hready : (e.mediaScheduler && decide (0 < e.queued)) = true
  · rw [if_pos hready]
    simp only [Bool.and_eq_true, decide_eq_true_eq] at hready
    refine ⟨h.heartbeat, ?_, h.clean⟩
    have hone : e.queued + e.inFlight = 1 := h.one
    show e.queued - 1 + (if e.heartbeat then e.inFlight + 1 else e.inFlight) = 1
    rw [if_pos h.heartbeat]
    omega
  · rw [if_neg hready]
    exact h

omit [DecidableEq M] [DecidableEq P] [ToString P] in
theorem Cut.takeOut {e : Components M} (h : Cut o e) : e.takeOut = e := by
  unfold Components.takeOut
  rw [h.scheduler]
  rfl

omit [DecidableEq P] [ToString P] in
theorem Beating.perform {w : Server M} (h : Beating o w.env) :
    Beating o w.perform.env := by
  rcases w.perform_cases with ⟨-, hsame⟩ | ⟨-, -, hactive, -, hbeats⟩
  · rw [hsame]
    exact h
  · exact ⟨hactive, hbeats.trans h.one, h.clean⟩

omit [DecidableEq P] [ToString P] in
theorem Cut.perform {w : Server M} (h : Cut o w.env) :
    Cut o w.perform.env := by
  rcases w.perform_cases with ⟨-, hsame⟩ | ⟨-, -, -, hscheduler, hbeats⟩
  · rw [hsame]
    exact h
  · refine ⟨hscheduler.trans h.scheduler, ?_, ?_⟩
    · exact fun ho => hbeats.trans (h.left ho)
    · exact fun ho => hbeats.trans (h.clean ho)

omit [DecidableEq P] [ToString P] in
/-- A clean cut has nothing in flight that could mark the task active. -/
theorem Cut.perform_heartbeat {w : Server M} (h : Cut o w.env) (ho : ¬ o) :
    w.perform.env.heartbeat = w.env.heartbeat := by
  rcases w.perform_cases with ⟨-, hsame⟩ | ⟨hflight, -⟩
  · rw [hsame]
  · have hzero : w.env.queued + w.env.inFlight = 0 := h.clean ho
    omega

theorem chain_takeOut (h : Chain o s) : Chain o (s.next .takeOut) := by
  cases h with
  | up control started beating =>
      exact .up control started beating.takeOut
  | stopping p tail control started beating =>
      exact .stopping p tail control started beating.takeOut
  | cancelling p tail control started cut =>
      refine .cancelling p tail control started ?_
      show Cut o s.server.env.takeOut
      rw [cut.takeOut]
      exact cut
  | down control started cut quiet =>
      refine .down control started ?_ ?_
      · show Cut o s.server.env.takeOut
        rw [cut.takeOut]
        exact cut
      · show ¬ o → s.server.env.takeOut.heartbeat = false
        rw [cut.takeOut]
        exact quiet

theorem chain_perform (h : Chain o s) : Chain o (s.next .perform) := by
  have hstarted := s.server.perform_started
  cases h with
  | up control started beating =>
      exact .up control (hstarted.trans started) beating.perform
  | stopping p tail control started beating =>
      exact .stopping p tail control (hstarted.trans started) beating.perform
  | cancelling p tail control started cut =>
      exact .cancelling p tail control (hstarted.trans started) cut.perform
  | down control started cut quiet =>
      refine .down control (hstarted.trans started) cut.perform ?_
      exact fun ho => (cut.perform_heartbeat ho).trans (quiet ho)

/-- A new call waits for the one in progress. -/
theorem chain_invoke (h : Chain o s) (op : Operation M) :
    Chain o (s.next (.invoke op)) := by
  obtain ⟨control, server⟩ := s
  cases control with
  | some p => exact h
  | none =>
      cases h with
      | up _ started beating => exact .up (.begun op) started beating
      | stopping p tail control => simp at control
      | cancelling p tail control => simp at control
      | down _ started cut quiet => exact .down (.begun op) started cut quiet

/-! A step of the control thread moves the chain from phase to phase. -/

omit [DecidableEq P] [ToString P] in
theorem Beating.bringsUp {e : Components M} (h : Beating o e) {c : Call M}
    (hc : bringsUp c) : Beating o (c.effect e) := by
  cases c <;> first | exact hc.elim | exact ⟨h.heartbeat, h.one, h.clean⟩

omit [DecidableEq P] [ToString P] in
theorem Cut.takesDown {e : Components M} (h : Cut o e) {c : Call M}
    (hc : takesDown c) : Cut o (c.effect e) ∧
      (c.effect e).heartbeat = e.heartbeat := by
  cases c <;>
    first | exact hc.elim | exact ⟨⟨h.scheduler, h.left, h.clean⟩, rfl⟩

omit [DecidableEq P] [ToString P] in
/-- Stopping the scheduler cuts the chain; the beat in flight is left over. -/
theorem Beating.mediaSchedulerStop {e : Components M} (h : Beating o e) :
    Cut (o ∨ 0 < e.inFlight) (Call.mediaSchedulerStop.effect e) := by
  have hone : e.queued + e.inFlight = 1 := h.one
  refine ⟨rfl, ?_, ?_⟩
  · rintro (ho | hflight)
    · exact absurd ho h.clean
    · show 0 + e.inFlight = 1
      omega
  · intro hclean
    have hnone : ¬ 0 < e.inFlight := fun hflight => hclean (Or.inr hflight)
    show 0 + e.inFlight = 0
    omega

omit [DecidableEq M] [DecidableEq P] [ToString P] in
/-- Only the scheduler's own `stop` overtakes an execution. -/
theorem or_overtakes_iff (h : s.nextCall ≠ some .mediaSchedulerStop) :
    (o ∨ s.overtakes .advance) = o := by
  apply propext
  exact or_iff_left fun hover => h hover.1

theorem chain_advance (h : Chain o s) (hr : ¬ s.restarts .advance) :
    Chain (o ∨ s.overtakes .advance) (s.next .advance) := by
  cases h with
  | up control started beating =>
      cases control.advance with
      | ended this same step call =>
          rw [or_overtakes_iff (by simp [call]), step]
          exact .up .idle (same.trans started) beating
      | called c p kind tail step call =>
          have hc : c ≠ .mediaSchedulerStop := by
            rintro rfl
            exact kind
          rw [or_overtakes_iff (by simp [call, hc]), step]
          exact .up (.within tail) started (beating.bringsUp kind)
      | starts p stopped tail step call =>
          exact absurd call hr
      | stops p running tail step call =>
          rw [or_overtakes_iff (by simp [call]), step]
          exact .stopping p tail (Or.inl rfl) rfl
            ⟨beating.heartbeat, beating.one, beating.clean⟩
  | stopping p tail control started beating =>
      rcases control with control | control
      · obtain ⟨step, call⟩ := advance_of_called control rfl
        rw [or_overtakes_iff (by simp [call]), step]
        exact .stopping p tail (Or.inr rfl) started
          ⟨beating.heartbeat, beating.one, beating.clean⟩
      · obtain ⟨step, call⟩ := advance_of_called control rfl
        -- what is in flight when the scheduler stops is overtaken
        have hover : s.overtakes .advance ↔ 0 < s.server.env.inFlight :=
          and_iff_right call
        rw [step, hover]
        exact .cancelling p tail rfl started beating.mediaSchedulerStop
  | cancelling p tail control started cut =>
      obtain ⟨step, call⟩ := advance_of_called control rfl
      rw [or_overtakes_iff (by simp [call]), step]
      exact .down (.within tail) started
        ⟨cut.scheduler, cut.left, cut.clean⟩ fun _ => rfl
  | down control started cut quiet =>
      cases control.advance with
      | ended this same step call =>
          rw [or_overtakes_iff (by simp [call]), step]
          exact .down .idle (same.trans started) cut quiet
      | called c p kind tail step call =>
          have hc : c ≠ .mediaSchedulerStop := by
            rintro rfl
            exact kind
          rw [or_overtakes_iff (by simp [call, hc]), step]
          obtain ⟨hcut, hsame⟩ := cut.takesDown kind
          exact .down (.within tail) started hcut
            fun ho => hsame.trans (quiet ho)
      | starts p stopped tail step call =>
          exact absurd call hr
      | stops p running tail step call =>
          exact absurd (started.symm.trans running) Bool.false_ne_true

/-- A new chain begins only where the last one is cut. -/
theorem Chain.restart (h : Chain o s) (hr : s.restarts .advance) :
    Cut o s.server.env ∧ ∃ p : ServerM M Unit, p.CallsOnly bringsUp ∧
      s.next .advance = ⟨some p, s.server.fields.startedUp,
        Call.submitHeatbeat.effect s.server.env⟩ := by
  have hr : s.nextCall = some .submitHeatbeat := hr
  cases h with
  | up control started beating =>
      cases control.advance with
      | ended this same step call => simp [call] at hr
      | called c p kind tail step call =>
          obtain rfl : c = .submitHeatbeat := by simpa [call] using hr
          exact kind.elim
      | starts p stopped tail step call =>
          exact absurd (stopped.symm.trans started) Bool.false_ne_true
      | stops p running tail step call => simp [call] at hr
  | stopping p tail control started beating =>
      rcases control with control | control
      · obtain ⟨-, call⟩ := advance_of_called control rfl
        simp [call] at hr
      · obtain ⟨-, call⟩ := advance_of_called control rfl
        simp [call] at hr
  | cancelling p tail control started cut =>
      obtain ⟨-, call⟩ := advance_of_called control rfl
      simp [call] at hr
  | down control started cut quiet =>
      cases control.advance with
      | ended this same step call => simp [call] at hr
      | called c p kind tail step call =>
          obtain rfl : c = .submitHeatbeat := by simpa [call] using hr
          exact kind.elim
      | starts p stopped tail step call => exact ⟨cut, p, tail, step⟩
      | stops p running tail step call => simp [call] at hr

/-- A beat left over is a second one as soon as the next chain begins. -/
theorem Chain.restart_oneChain_iff (h : Chain o s)
    (hr : s.restarts .advance) : OneChain (s.next .advance) ↔ ¬ o := by
  obtain ⟨cut, p, -, step⟩ := h.restart hr
  rw [step]
  constructor
  · intro hone ho
    have hbeats : s.server.env.queued + s.server.env.inFlight = 1 :=
      cut.left ho
    have hmost : s.server.env.queued + 1 + s.server.env.inFlight ≤ 1 :=
      hone.atMostOne rfl
    omega
  · intro ho
    have hbeats : s.server.env.queued + s.server.env.inFlight = 0 :=
      cut.clean ho
    refine ⟨fun _ => ?_, fun hidle => by simp [idle] at hidle⟩
    show s.server.env.queued + 1 + s.server.env.inFlight ≤ 1
    omega

theorem Chain.restart_chain (h : Chain o s) (hr : s.restarts .advance)
    (ho : ¬ o) : Chain o (s.next .advance) := by
  obtain ⟨cut, p, tail, step⟩ := h.restart hr
  rw [step]
  refine .up (.within tail) rfl ⟨rfl, ?_, ho⟩
  have hbeats : s.server.env.queued + s.server.env.inFlight = 0 :=
    cut.clean ho
  show s.server.env.queued + 1 + s.server.env.inFlight = 1
  omega

/-- **The chain in one step.** Only a restart after an overtaking ends it. -/
theorem chain_next (h : Chain o s) {event : Event M}
    (hr : s.restarts event → ¬ o) :
    Chain (o ∨ s.overtakes event) (s.next event) := by
  cases event with
  | invoke op =>
      rw [show (o ∨ s.overtakes (.invoke op)) = o from or_false o]
      exact chain_invoke h op
  | takeOut =>
      rw [show (o ∨ s.overtakes .takeOut) = o from or_false o]
      exact chain_takeOut h
  | perform =>
      rw [show (o ∨ s.overtakes .perform) = o from or_false o]
      exact chain_perform h
  | advance =>
      by_cases hrestart : s.restarts .advance
      · have hcall : s.nextCall = some .submitHeatbeat := hrestart
        rw [or_overtakes_iff (by simp [hcall])]
        exact h.restart_chain hrestart (hr hrestart)
      · exact chain_advance h hrestart

theorem oneChain_next_iff (h : Chain o s) (event : Event M) :
    OneChain (s.next event) ↔ (s.restarts event → ¬ o) := by
  constructor
  · intro hone hrestart
    cases event with
    | advance => exact (h.restart_oneChain_iff hrestart).mp hone
    | invoke op => exact hrestart.elim
    | takeOut => exact hrestart.elim
    | perform => exact hrestart.elim
  · intro hr
    exact (chain_next h hr).oneChain

/-! ## Whole runs -/

/-- A `stop` of the run has overtaken an execution of the heartbeat. -/
def Overtaken (controller : Option M) (events : List (Event M)) : Prop :=
  Occurred (fun pre event => (run controller pre).overtakes event) events

theorem overtaken_concat (controller : Option M) (events : List (Event M))
    (event : Event M) :
    Overtaken controller (events ++ [event]) =
      (Overtaken controller events ∨
        (run controller events).overtakes event) := by
  apply propext
  exact occurred_concat

theorem chain_run_nil (controller : Option M) :
    Chain (Overtaken controller []) (run controller []) := by
  have hclean : Overtaken controller ([] : List (Event M)) = False :=
    eq_false (not_occurred_nil _)
  rw [hclean]
  exact chain_new controller

theorem chain_run_concat {controller : Option M} {pre : List (Event M)}
    {event : Event M}
    (h : Chain (Overtaken controller pre) (run controller pre))
    (hr : (run controller pre).restarts event → ¬ Overtaken controller pre) :
    Chain (Overtaken controller (pre ++ [event]))
      (run controller (pre ++ [event])) := by
  rw [run_concat, overtaken_concat]
  exact chain_next h hr

/-- **One chain exactly without a restart after an overtaking.** In every
state of a run an active heartbeat has at most one entry or execution, and
exactly one while the server is left running, if and only if no `start` of
the run submits the heartbeat after a `stop` overtook an execution. -/
theorem one_chain_iff (controller : Option M) (events : List (Event M)) :
    (∀ pre, pre <+: events → OneChain (run controller pre)) ↔
      ∀ pre event, pre ++ [event] <+: events →
        (run controller pre).restarts event →
        ¬ Overtaken controller pre := by
  rw [forall_prefix_iff_always (P := fun pre => OneChain (run controller pre))
    (chain_new controller).oneChain]
  refine always_iff_of_invariant
    (I := fun pre => Chain (Overtaken controller pre) (run controller pre))
    (G := fun pre event => (run controller pre).restarts event →
      ¬ Overtaken controller pre) (chain_run_nil controller) ?_ ?_ events
  · exact fun pre event hchain hr => chain_run_concat hchain hr
  · intro pre event hchain
    rw [run_concat]
    exact oneChain_next_iff hchain event

/-- While no execution has been overtaken, `stop` leaves nothing of the
heartbeat: a stopped server that is left alone has it inactive, with no entry
and no execution to come. -/
theorem stopped_quiet {controller : Option M} {events : List (Event M)}
    (hclean : ¬ Overtaken controller events)
    (hidle : (run controller events).idle)
    (hstop : StandaloneMediaServer.isRunning (run controller events).server =
      false) :
    (run controller events).server.env.heartbeat = false ∧
      (run controller events).server.env.beats = 0 := by
  have hchain : Chain (Overtaken controller events) (run controller events) := by
    refine Always.invariant
      (I := fun pre => Chain (Overtaken controller pre) (run controller pre))
      (G := fun pre event => (run controller pre).restarts event →
        ¬ Overtaken controller pre) (chain_run_nil controller)
      (fun pre event hchain hr => chain_run_concat hchain hr) ?_
    intro pre event hpre _ hover
    exact hclean (hover.mono ((List.prefix_append _ _).trans hpre))
  have hidle : (run controller events).control = none := hidle
  cases hchain with
  | up control started beating =>
      exact absurd (started.symm.trans hstop) Bool.true_eq_false.mp
  | stopping p tail control started beating => simp [hidle] at control
  | cancelling p tail control started cut => simp [hidle] at control
  | down control started cut quiet =>
      exact ⟨quiet hclean, cut.clean hclean⟩

/-- An execution begins before `stop` and ends after it; the next `start`
submits a second beat for the active task. -/
theorem second_chain :
    let events : List (Event PlainManager) :=
      [.invoke (.start (.listed _)), .advance, .advance, .advance, .advance,
        .advance, .takeOut,
        .invoke (.stop (.listed _)), .advance, .advance, .advance, .advance,
        .advance, .perform,
        .invoke (.start (.listed _)), .advance]
    (run none events).server.env.heartbeat = true ∧
      (run none events).server.env.beats = 2 ∧
      ¬ OneChain (run none events) := by
  refine ⟨by decide, by decide, fun hone => ?_⟩
  have hmost := hone.atMostOne (by decide)
  exact absurd hmost (by decide)

end System

end MediaServer
