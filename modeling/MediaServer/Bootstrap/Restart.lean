import MediaServer.Bootstrap.Histories
import MediaServer.Bootstrap.Invisibility

/-!
# A clean stop makes the components as good as new

Failures may leave the components in any state. A `stop` in which nothing
throws clears it all away, except for leaked managers and executions in
flight: after it every history, failing or not, leads to the components it
leads to from untouched ones (`asNew_after_of_stop`). The worker may go on
beside the `stop`; if nothing of the heartbeat is left at its end, the server
also goes side by side with an untouched one between any two calls and with
the worker at work (`asNew_interleaved_of_stop`).
-/

namespace MediaServer

open Foundation

variable {M P : Type} [ServerManager M P] [DecidableEq M]

/-- The components differ from new ones at most in managers of `L` that are
still active, and in a number of executions in flight. -/
structure AsNew (L : Finset M) (late : ℕ) (e new : Components M) : Prop where
  mediaScheduler : e.mediaScheduler = new.mediaScheduler
  taskScheduler : e.taskScheduler = new.taskScheduler
  udpManager : e.udpManager = new.udpManager
  logging : e.logging = new.logging
  heartbeat : e.heartbeat = new.heartbeat
  queued : e.queued = new.queued
  inFlight : e.inFlight = new.inFlight + late
  lower : new.active ⊆ e.active
  upper : e.active ⊆ new.active ∪ L

variable {L : Finset M} {late : ℕ} {e new : Components M}

/-- No call tells the two apart. -/
theorem AsNew.effect (h : AsNew L late e new) (c : Call M) :
    AsNew L late (c.effect e) (c.effect new) := by
  cases c with
  | submitHeatbeat =>
      exact { h with heartbeat := rfl, queued := congrArg (· + 1) h.queued }
  | cancel => exact { h with heartbeat := rfl }
  | mediaSchedulerStart => exact { h with mediaScheduler := rfl }
  | mediaSchedulerStop => exact { h with mediaScheduler := rfl, queued := rfl }
  | taskSchedulerStart => exact { h with taskScheduler := rfl }
  | taskSchedulerStop => exact { h with taskScheduler := rfl }
  | udpManagerStart => exact { h with udpManager := rfl }
  | udpManagerStop => exact { h with udpManager := rfl }
  | activate m =>
      refine { h with lower := ?_, upper := ?_ }
      · exact Finset.insert_subset_insert m h.lower
      · show insert m e.active ⊆ insert m new.active ∪ L
        rw [Finset.insert_union]
        exact Finset.insert_subset_insert m h.upper
  | deactivate m =>
      refine { h with lower := ?_, upper := ?_ }
      · exact Finset.erase_subset_erase m h.lower
      · show e.active.erase m ⊆ new.active.erase m ∪ L
        intro m' hm'
        obtain ⟨hne, hactive⟩ := Finset.mem_erase.mp hm'
        rcases Finset.mem_union.mp (h.upper hactive) with hnew | hL
        · exact Finset.mem_union_left _ (Finset.mem_erase.mpr ⟨hne, hnew⟩)
        · exact Finset.mem_union_right _ hL
  | configuratorShutdown => exact { h with logging := rfl }

variable [DecidableEq P] [ToString P]

/-- What is active with a running server and not in its registry. -/
def Server.leaked (w : Server M) : Finset M :=
  w.env.active \ w.fields.controllers.values.toFinset

/-- The components as the server is handed them, under the given logging. -/
def Components.untouched (logging : Bool) : Components M :=
  { initial with logging := logging }

/-- A clean stop leaves components as good as new. -/
theorem asNew_stop {w : Server M}
    (h : StandaloneMediaServer.isRunning w = true) (it : IterationOrder M) :
    (call .none (.stop it) w).2.fields = w.fields.shutDown ∧
      AsNew w.leaked w.env.inFlight (call .none (.stop it) w).2.env
        (.untouched w.env.logging) := by
  rw [call_stop_of_running it h, applyAll_stopCalls]
  refine ⟨rfl, rfl, rfl, rfl, rfl, rfl, rfl, ?_, Finset.empty_subset _,
    Finset.subset_union_right⟩
  exact (Nat.zero_add _).symm

theorem AsNew.serve {w w' : Server M} (hfields : w.fields = w'.fields)
    (h : AsNew L late w.env w'.env) (i : Faults M × Operation M) :
    (w.serve i).2.fields = (w'.serve i).2.fields ∧
      AsNew L late (w.serve i).2.env (w'.serve i).2.env := by
  obtain ⟨this, e⟩ := w
  obtain ⟨this', e'⟩ := w'
  obtain rfl : this = this' := hfields
  exact (Prog.exec_related Call.effect i.1.throws
    (fun c _ _ hc => hc.effect c) i.2.body this h).2

/-- **A clean stop makes the components as good as new.** Whatever led to the
state of a running server: after a `stop` in which nothing throws, every
history of requests, faults and iteration orders leads to the components it
leads to from untouched ones, with the logging as it was, but for managers
leaked before the `stop` and executions that were in flight. -/
theorem asNew_after_of_stop {w : Server M}
    (h : StandaloneMediaServer.isRunning w = true) (it : IterationOrder M)
    (is : List (Faults M × Operation M)) :
    let stopped := (call .none (.stop it) w).2
    let new : Server M := ⟨w.fields.shutDown, .untouched w.env.logging⟩
    AsNew w.leaked w.env.inFlight (stopped.after is).env
      (new.after is).env := by
  intro stopped new
  exact (Behaviour.final_of_related
    (R := fun w' new : Server M => w'.fields = new.fields ∧
      AsNew w.leaked w.env.inFlight w'.env new.env)
    (fun _ _ i hrel => hrel.2.serve hrel.1 i) (asNew_stop h it) is).2

/-- The UDP manager did not come up, and the next `start` fails too. -/
theorem asNew_after_of_stop_failed :
    let faults := Faults.only (M := PlainManager) .udpManagerStart (by decide)
      (by decide)
    let w := (call faults (.start (.listed _))
      (.new (some (⟨0, 0⟩ : PlainManager)))).2
    let stopped := (call .none (.stop (.listed _)) w).2
    let new : Server PlainManager :=
      ⟨w.fields.shutDown, .untouched w.env.logging⟩
    let is := [(faults, .start (.listed PlainManager))]
    AsNew w.leaked w.env.inFlight (stopped.after is).env (new.after is).env :=
  asNew_after_of_stop (by decide) _ _

/-! ## Between the calls -/

omit [DecidableEq P] [ToString P] in
/-- While nothing is in flight of which the new server knows nothing, the
worker does not tell the two apart either. -/
theorem AsNew.work (h : AsNew L 0 e new) (a : Work) (this : Fields M) :
    (a.apply ⟨this, e⟩).fields = (a.apply ⟨this, new⟩).fields ∧
      AsNew L 0 (a.apply ⟨this, e⟩).env (a.apply ⟨this, new⟩).env := by
  have hinFlight : e.inFlight = new.inFlight := h.inFlight
  cases a with
  | takeOut =>
      refine ⟨rfl, ?_⟩
      show AsNew L 0 e.takeOut new.takeOut
      unfold Components.takeOut
      by_cases hqueue : (new.mediaScheduler && decide (0 < new.queued)) = true
      · have hqueue' : (e.mediaScheduler && decide (0 < e.queued)) = true := by
          rw [h.mediaScheduler, h.queued]
          exact hqueue
        rw [if_pos hqueue, if_pos hqueue']
        exact { h with
          queued := congrArg (· - 1) h.queued
          inFlight := by
            show (if e.heartbeat then e.inFlight + 1 else e.inFlight) =
              if new.heartbeat then new.inFlight + 1 else new.inFlight
            rw [h.heartbeat, hinFlight] }
      · have hqueue' : ¬ (e.mediaScheduler && decide (0 < e.queued)) = true := by
          rw [h.mediaScheduler, h.queued]
          exact hqueue
        rw [if_neg hqueue, if_neg hqueue']
        exact h
  | perform =>
      show (Server.perform ⟨this, e⟩).fields =
          (Server.perform ⟨this, new⟩).fields ∧
        AsNew L 0 (Server.perform ⟨this, e⟩).env
          (Server.perform ⟨this, new⟩).env
      unfold Server.perform
      by_cases hflight : 0 < new.inFlight
      · have hflight' : 0 < e.inFlight := by omega
        rw [if_pos hflight, if_pos hflight']
        refine (Prog.exec_related Call.effect (fun _ => false)
          (R := AsNew L 0) (fun c _ _ hc => hc.effect c) HeartBeat.perform this
          ?_).2
        exact { h with inFlight := congrArg (· - 1) hinFlight }
      · have hflight' : ¬ 0 < e.inFlight := by omega
        rw [if_neg hflight, if_neg hflight']
        exact ⟨rfl, h⟩

/-! ### A stop beside the worker -/

omit [DecidableEq M] [DecidableEq P] [ToString P] in
/-- Fields and components as the calls alone would have left them, but for
what the worker may have done. -/
structure Beside (this : Fields M) (e : Components M) (w : Server M) :
    Prop where
  fields : SameButTtl this w.fields
  env : SameButHeartbeat e w.env

omit [DecidableEq P] [ToString P] in
theorem Beside.work {this : Fields M} {w : Server M} (h : Beside this e w)
    (a : Work) : Beside this e (a.apply w) := by
  have halone : SameButTtl (a.apply w).fields (⟨this, e⟩ : Server M).fields ∧
      SameButHeartbeat (a.apply w).env (⟨this, e⟩ : Server M).env :=
    a.invisible h.fields.symm h.env.symm
  exact ⟨halone.1.symm, halone.2.symm⟩

omit [DecidableEq M] [DecidableEq P] [ToString P] in
/-- The media scheduler is down, and a heartbeat that is active all the same
has an entry queued: an execution that `stop` has overtaken submitted it. -/
structure Cancelled (w : Server M) : Prop where
  mediaScheduler : w.env.mediaScheduler = false
  heartbeat : w.env.heartbeat = true → 0 < w.env.queued

omit [DecidableEq P] [ToString P] in
theorem Cancelled.work {w : Server M} (h : Cancelled w) (a : Work) :
    Cancelled (a.apply w) := by
  cases a with
  | takeOut =>
      have hidle : w.takeOut = w := by
        simp [Server.takeOut, Components.takeOut, h.mediaScheduler]
      show Cancelled w.takeOut
      rw [hidle]
      exact h
  | perform =>
      show Cancelled w.perform
      rcases Nat.eq_zero_or_pos w.env.inFlight with hnone | hsome
      · rw [Server.perform, if_neg (by omega)]
        exact h
      · obtain ⟨ttl, hperform⟩ := Server.perform_of_inFlight hsome
        rw [hperform]
        exact ⟨h.mediaScheduler, fun _ => Nat.succ_pos _⟩

/-- What a `stop` of `w` in which nothing throws has come to. -/
def StoppedFrom (it : IterationOrder M) (w w' : Server M) : Prop :=
  Beside w.fields.shutDown
    (Prog.applyAll Call.effect (stopCalls it w.fields.controllers) w.env) w' ∧
    Cancelled w'

/-- Outlines of programs none of whose calls throws. -/
def OutlinedSteady (K : Server M → Prop) (p : ServerM M Unit) (w : Server M) :
    Prop :=
  (threads fun _ => false).Outline (fun _ _ => True) (fun _ => True) K p
    (fun _ => K) w

variable {K : Server M → Prop}

theorem outlinedSteady_call {this : Fields M} {c : Call M} {k : ServerM M Unit}
    {w : Server M} (h : Beside this e w)
    (rest : ∀ w, Beside this (c.effect e) w → OutlinedSteady K k w) :
    OutlinedSteady K (.call c k) w :=
  Threads.outline_call (A := Beside this (c.effect e))
    (fun a _ hA => hA.work a) (fun _ _ => trivial) trivial
    (fun hthrows => absurd hthrows Bool.false_ne_true)
    ⟨h.fields, h.env.effect c⟩ rest

/-- The loop of `stop`. -/
theorem outlinedSteady_deactivating {this : Fields M} {ms : List M}
    {w : Server M} (h : Beside this e w) (hcancel : Cancelled w)
    (hK : ∀ w, Beside this
      (Prog.applyAll Call.effect (ms.map .deactivate) e) w → Cancelled w → K w) :
    OutlinedSteady K (Prog.callAll (ms.map .deactivate)) w := by
  induction ms generalizing e w with
  | nil => exact hK w h hcancel
  | cons m ms ih =>
      refine Threads.outline_call
        (A := fun w => Beside this (Call.effect (.deactivate m) e) w ∧
          Cancelled w)
        (fun a _ hA => ⟨hA.1.work a, hA.2.work a⟩) (fun _ _ => trivial) trivial
        (fun hthrows => absurd hthrows Bool.false_ne_true) ?_ ?_
      · exact ⟨⟨h.fields, h.env.effect _⟩, hcancel.mediaScheduler,
          hcancel.heartbeat⟩
      · exact fun w hA => ih hA.1 hA.2 hK

theorem outlinedSteady_stop (it : IterationOrder M) {w w' : Server M}
    (hrun : w.fields.started = true) (h : Beside w.fields w.env w') :
    OutlinedSteady (StoppedFrom it w) (StandaloneMediaServer.stop it) w' := by
  unfold OutlinedSteady StandaloneMediaServer.stop
  rw [Prog.fields_bind, Threads.outline_read, ← h.fields.started, hrun]
  have entered : Beside w.fields.shutDown w.env
      (⟨w'.fields.shutDown, w'.env⟩ : Server M) :=
    ⟨⟨rfl, h.fields.controllers, h.fields.heartbeatTime⟩, h.env⟩
  refine outlinedSteady_call entered fun w₁ h₁ => ?_
  refine outlinedSteady_call h₁ fun w₂ h₂ => ?_
  refine outlinedSteady_call h₂ fun w₃ h₃ => ?_
  -- from `cancel` on only an overtaken execution makes the heartbeat active
  refine Threads.outline_call
    (A := fun w₄ => Beside w.fields.shutDown (Call.effect .cancel _) w₄ ∧
      Cancelled w₄)
    (fun a _ hA => ⟨hA.1.work a, hA.2.work a⟩) (fun _ _ => trivial) trivial
    (fun hthrows => absurd hthrows Bool.false_ne_true)
    ⟨⟨h₃.fields, h₃.env.effect _⟩, h₃.env.mediaScheduler.symm, nofun⟩
    fun w₄ h₄ => ?_
  show OutlinedSteady (StoppedFrom it w)
    (List.forM (it.arrange w₄.fields.controllers.values) _) w₄
  rw [Prog.forM_invoke, ← h₄.1.fields.controllers]
  refine outlinedSteady_deactivating h₄.1 h₄.2 fun w₅ h₅ hcancel => ?_
  exact ⟨⟨h₅.fields, h₅.env⟩, hcancel⟩

/-- A `stop` in which nothing throws, with the worker beside it. -/
theorem stoppedFrom_run (it : IterationOrder M) {w : Server M}
    (h : StandaloneMediaServer.isRunning w = true)
    {during : List (Action (Method M) Work)}
    (alone : ∀ method, .invoke method ∉ during)
    (ended : ((threads fun _ => false).run
      (some (StandaloneMediaServer.stop it), w) during).1 = none) :
    StoppedFrom it w ((threads fun _ => false).run
      (some (StandaloneMediaServer.stop it), w) during).2 := by
  have stable : (threads fun _ => false).Stable (StoppedFrom it w) :=
    fun a _ hw => ⟨hw.1.work a, hw.2.work a⟩
  have still : (threads fun _ => false).Stable (Beside w.fields w.env) :=
    fun a _ hw => hw.work a
  have hsafe := Threads.safe_run_of_outline stable
    (C := fun _ _ => True) (J := fun _ => True)
    (p := StandaloneMediaServer.stop it) (w := w) (fun w' hreach => ?_) alone
  · rcases hend : (threads fun _ => false).run
      (some (StandaloneMediaServer.stop it), w) during with ⟨control, world⟩
    rw [hend] at ended hsafe
    obtain rfl : control = none := ended
    exact hsafe
  · exact ⟨trivial, outlinedSteady_stop it h
      (still.of_reaches ⟨SameButTtl.refl _, SameButHeartbeat.refl _⟩ hreach)⟩

omit [DecidableEq P] [ToString P] in
/-- If nothing of the heartbeat is left, the components are as good as new. -/
theorem StoppedFrom.asNew {it : IterationOrder M} {w w' : Server M}
    (h : StoppedFrom it w w') (quiet : w'.env.beats = 0) :
    AsNew w.leaked 0 w'.env (.untouched w'.env.logging) := by
  obtain ⟨⟨-, henv⟩, hcancel⟩ := h
  rw [applyAll_stopCalls] at henv
  have hbeats : w'.env.queued + w'.env.inFlight = 0 := quiet
  have hqueued : w'.env.queued = 0 := by omega
  have hinFlight : w'.env.inFlight = 0 := by omega
  -- an active heartbeat would have an entry queued
  have hbeat : w'.env.heartbeat = false := by
    cases hbeat : w'.env.heartbeat with
    | false => rfl
    | true => exact absurd hqueued (hcancel.heartbeat hbeat).ne'
  refine ⟨hcancel.mediaScheduler, henv.taskScheduler.symm,
    henv.udpManager.symm, rfl, hbeat, hqueued, hinFlight,
    Finset.empty_subset _, ?_⟩
  rw [← henv.active]
  exact Finset.subset_union_right

/-- **As good as new between the calls.** A running server is stopped, no call
of the `stop` throws, and the worker goes on beside it. If at the end of the
`stop` nothing of the heartbeat is queued or in flight, the server and one
with the same fields and untouched components go side by side from there:
whatever methods are called, whichever of their calls throw and whatever the
worker does in between, they are at the same point of the same method, with
the same fields, and with components that differ at most in managers leaked
before the `stop`. -/
theorem asNew_interleaved_of_stop (mayThrow : Call M → Bool) {w : Server M}
    (h : StandaloneMediaServer.isRunning w = true) (it : IterationOrder M)
    {during : List (Action (Method M) Work)}
    (alone : ∀ method, .invoke method ∉ during)
    (actions : List (Action (Method M) Work)) :
    let s := (threads fun _ => false).run
      (some (StandaloneMediaServer.stop it), w) during
    s.1 = none → s.2.env.beats = 0 →
      Threads.Alike Eq (AsNew w.leaked 0)
        ((threads mayThrow).run s actions)
        ((threads mayThrow).run
          (none, ⟨s.2.fields, .untouched s.2.env.logging⟩) actions) := by
  intro s ended quiet
  have hstart : Threads.Alike Eq (AsNew w.leaked 0) s
      (none, ⟨s.2.fields, .untouched s.2.env.logging⟩) :=
    ⟨ended, rfl, (stoppedFrom_run it h alone ended).asNew quiet⟩
  refine Threads.Alike.run (t := threads mayThrow)
    (fun c _ _ hc => hc.effect c) (fun _ => Prog.blind_eq _)
    (fun _ _ => Prog.blind_eq _) ?_ hstart actions
  rintro a ⟨this, e⟩ ⟨_, new⟩ rfl hw
  exact AsNew.work hw a this

/-- The UDP manager did not come up; an execution ends within the `stop`, and
in the next `start` the worker takes out the heartbeat and the UDP manager
fails again. -/
theorem asNew_interleaved_of_stop_failed :
    let mayThrow := fun c : Call PlainManager => decide (c = .udpManagerStart)
    let w := (call (.only .udpManagerStart (by decide) (by decide))
      (.start (.listed _)) (.new (some (⟨0, 0⟩ : PlainManager)))).2
    let during := [.work .takeOut, .advance, .work .perform, .advance,
      .advance, .advance, .advance, .advance]
    let actions := [.invoke (.standalone (.start (.listed _))), .advance,
      .advance, .work .takeOut, .advance, .throw]
    let s := (threads fun _ => false).run
      (some (StandaloneMediaServer.stop (.listed _)), w) during
    s.1 = none ∧ s.2.env.beats = 0 ∧
      Threads.Alike Eq (AsNew w.leaked 0)
        ((threads mayThrow).run s actions)
        ((threads mayThrow).run
          (none, ⟨s.2.fields, .untouched s.2.env.logging⟩) actions) := by
  intro mayThrow w during actions s
  have ended : s.1 = none := rfl
  have quiet : s.2.env.beats = 0 := rfl
  exact ⟨ended, quiet,
    asNew_interleaved_of_stop mayThrow rfl _ (by simp [during]) actions ended
      quiet⟩

end MediaServer
