import MediaServer.Bootstrap.StandaloneMediaServer
import MediaServer.Foundation.Threads

/-!
# Dependency order under interleaving and failures

The services stand on one another: the UDP manager on the task scheduler, the
task scheduler on the media scheduler, and the media scheduler has a heartbeat
to run. A thread calls the server, any call its methods make may throw at any
time, and the heartbeat's worker goes on between any two calls; what throws in
an execution of the worker is left out. The order of the calls in `start` and
`stop` keeps every service above the ones it stands on in all the states in
between, and what is started or activated finds in place what it relies on.
-/

namespace MediaServer

open Foundation

variable {M P : Type} [ServerManager M P]

/-- The methods of a server, with the two that `SpringMediaServer` overrides. -/
inductive Method (M : Type) where
  | standalone (op : Operation M)
  | springStart (it : IterationOrder M)
  | springStop (it : IterationOrder M)

/-- What the worker of the media scheduler does. -/
inductive Work where
  | takeOut
  | perform

/-! ## What is required -/

/-- The heartbeat has something to do and is active. -/
def Components.alive (e : Components M) : Prop :=
  e.heartbeat = true ∧ 0 < e.beats

/-- The three services, from the lowest to the highest. -/
def Components.services (e : Components M) : Bool × Bool × Bool :=
  (e.mediaScheduler, e.taskScheduler, e.udpManager)

/-- Every started service has the ones below it. -/
structure Components.Stacked (e : Components M) : Prop where
  udpManager : e.udpManager = true → e.taskScheduler = true
  taskScheduler : e.taskScheduler = true → e.mediaScheduler = true
  mediaScheduler : e.mediaScheduler = true → e.alive

/-- The services are down. -/
def Components.servicesDown (e : Components M) : Prop :=
  e.services = (false, false, false)

/-- What a call relies on when it is made: one that starts something, on what
it stands on; one to a manager, on the registry. A call that stops a service
relies on nothing: `stop` takes the services down under active managers. -/
def Call.contract : Call M → Server M → Prop
  | .mediaSchedulerStart, w => w.env.alive
  | .taskSchedulerStart, w => w.env.alive ∧ w.env.mediaScheduler = true
  | .udpManagerStart, w =>
      w.env.alive ∧ w.env.mediaScheduler = true ∧ w.env.taskScheduler = true
  | .activate m, w =>
      w.env.alive ∧ w.env.servicesUp ∧ m ∈ w.fields.controllers.values
  | .deactivate m, w => m ∈ w.fields.controllers.values
  | .configuratorShutdown, w =>
      w.env.servicesDown ∧ ∀ m ∈ w.fields.controllers.values, m ∉ w.env.active
  | _, _ => True

/-- The state in which the methods come to the call. -/
def Call.turn : Call M → Server M → Prop
  | .submitHeatbeat, w => w.fields.started = true
  | .mediaSchedulerStart, w => w.fields.started = true ∧ w.env.alive
  | .taskSchedulerStart, w =>
      w.fields.started = true ∧ w.env.alive ∧ w.env.mediaScheduler = true
  | .udpManagerStart, w =>
      w.fields.started = true ∧ w.env.alive ∧ w.env.mediaScheduler = true ∧
        w.env.taskScheduler = true
  | .activate m, w =>
      w.fields.started = true ∧ w.env.alive ∧ w.env.servicesUp ∧
        m ∈ w.fields.controllers.values
  | .udpManagerStop, w => w.fields.started = false
  | .taskSchedulerStop, w =>
      w.fields.started = false ∧ w.env.udpManager = false
  | .mediaSchedulerStop, w =>
      w.fields.started = false ∧ w.env.udpManager = false ∧
        w.env.taskScheduler = false
  | .cancel, w => w.fields.started = false ∧ w.env.servicesDown
  | .deactivate m, w =>
      w.fields.started = false ∧ w.env.servicesDown ∧
        m ∈ w.fields.controllers.values
  | .configuratorShutdown, w =>
      w.fields.started = false ∧ w.env.servicesDown ∧
        ∀ m ∈ w.fields.controllers.values, m ∉ w.env.active

/-- Which services are up when a call is made and nothing has failed. -/
def Call.stage : Call M → Bool × Bool × Bool
  | .submitHeatbeat => (false, false, false)
  | .mediaSchedulerStart => (false, false, false)
  | .taskSchedulerStart => (true, false, false)
  | .udpManagerStart => (true, true, false)
  | .activate _ => (true, true, true)
  | .udpManagerStop => (true, true, true)
  | .taskSchedulerStop => (true, true, false)
  | .mediaSchedulerStop => (true, false, false)
  | .cancel => (false, false, false)
  | .deactivate _ => (false, false, false)
  | .configuratorShutdown => (false, false, false)

/-- When its turn comes a call finds in place what it relies on. -/
theorem Call.contract_of_turn {c : Call M} {w : Server M} (h : c.turn w) :
    c.contract w := by
  cases c with
  | mediaSchedulerStart => exact h.2
  | taskSchedulerStart => exact h.2
  | udpManagerStart => exact h.2
  | activate m => exact h.2
  | deactivate m => exact h.2.2
  | configuratorShutdown => exact h.2
  | _ => trivial

section Conditions

variable (mayThrow : Call M → Bool)

/-- No call throws. -/
def Steady : Prop := ∀ c, mayThrow c = false

/-- It is the call's turn and, while nothing can fail, its stage. -/
def OnTime (c : Call M) (w : Server M) : Prop :=
  c.turn w ∧ (Steady mayThrow → w.env.services = c.stage)

/-- Between methods: the services are stacked and, while nothing can fail,
all up or all down as the running flag says. -/
def Resting (w : Server M) : Prop :=
  w.env.Stacked ∧ (Steady mayThrow → w.env.services =
    (w.fields.started, w.fields.started, w.fields.started))

/-- At least the services of the level are up and, while nothing can fail, no
others. -/
def Risen (level services : Bool × Bool × Bool) : Prop :=
  (level.1 = true → services.1 = true) ∧
    (level.2.1 = true → services.2.1 = true) ∧
    (level.2.2 = true → services.2.2 = true) ∧
    (Steady mayThrow → services = level)

/-- At most the services of the level are up and, while nothing can fail, no
fewer. -/
def Fallen (level services : Bool × Bool × Bool) : Prop :=
  (level.1 = false → services.1 = false) ∧
    (level.2.1 = false → services.2.1 = false) ∧
    (level.2.2 = false → services.2.2 = false) ∧
    (Steady mayThrow → services = level)

variable {mayThrow} {a b c x y z : Bool}

theorem Risen.media (h : Risen mayThrow (false, b, c) (x, y, z)) :
    Risen mayThrow (true, b, c) (true, y, z) := by
  refine ⟨fun _ => rfl, h.2.1, h.2.2.1, fun steady => ?_⟩
  rw [(Prod.mk.inj (h.2.2.2 steady)).2]

theorem Risen.task (h : Risen mayThrow (a, false, c) (x, y, z)) :
    Risen mayThrow (a, true, c) (x, true, z) := by
  refine ⟨h.1, fun _ => rfl, h.2.2.1, fun steady => ?_⟩
  cases h.2.2.2 steady
  rfl

theorem Risen.udp (h : Risen mayThrow (a, b, false) (x, y, z)) :
    Risen mayThrow (a, b, true) (x, y, true) := by
  refine ⟨h.1, h.2.1, fun _ => rfl, fun steady => ?_⟩
  cases h.2.2.2 steady
  rfl

theorem Risen.up {e : Components M}
    (h : Risen mayThrow (true, true, true) e.services) : e.servicesUp :=
  ⟨h.1 rfl, h.2.1 rfl, h.2.2.1 rfl⟩

theorem Fallen.down {e : Components M}
    (h : Fallen mayThrow (false, false, false) e.services) : e.servicesDown :=
  Prod.ext (h.1 rfl) (Prod.ext (h.2.1 rfl) (h.2.2.1 rfl))

theorem Fallen.udp (h : Fallen mayThrow (a, b, true) (x, y, z)) :
    Fallen mayThrow (a, b, false) (x, y, false) := by
  refine ⟨h.1, h.2.1, fun _ => rfl, fun steady => ?_⟩
  cases h.2.2.2 steady
  rfl

theorem Fallen.task (h : Fallen mayThrow (a, true, c) (x, y, z)) :
    Fallen mayThrow (a, false, c) (x, false, z) := by
  refine ⟨h.1, fun _ => rfl, h.2.2.1, fun steady => ?_⟩
  cases h.2.2.2 steady
  rfl

theorem Fallen.media (h : Fallen mayThrow (true, b, c) (x, y, z)) :
    Fallen mayThrow (false, b, c) (false, y, z) := by
  refine ⟨fun _ => rfl, h.2.1, h.2.2.1, fun steady => ?_⟩
  cases h.2.2.2 steady
  rfl

variable (mayThrow)

/-- Within a method: the flag and the registry as the method goes on, and
what it has achieved so far. -/
structure Within (running : Bool) (c : Controllers M)
    (achieved : Components M → Prop) (w : Server M) : Prop where
  started : w.fields.started = running
  controllers : w.fields.controllers = c
  stacked : w.env.Stacked
  achieved : achieved w.env

end Conditions

/-! ## The control thread and the worker -/

variable [DecidableEq M]

def Work.apply : Work → Server M → Server M
  | .takeOut => Server.takeOut
  | .perform => Server.perform

section Threads

variable [DecidableEq P] [ToString P]

def Method.body : Method M → ServerM M Unit
  | .standalone op => op.body
  | .springStart it => SpringMediaServer.start it
  | .springStop it => SpringMediaServer.stop it

/-- The control thread and the worker. Of the calls of the control thread the
given ones may throw; the one call of an execution, the submission of its
successor, goes through. -/
def threads (mayThrow : Call M → Bool) :
    Threads (Call M) (Fields M) JavaException (Components M) Unit (Method M)
      Work :=
  ⟨Call.effect, mayThrow, Method.body, Work.apply⟩

/-- A call made at one go, whatever throws in it, is a run of the control
thread. -/
theorem exists_run_call (faults : Faults M) (op : Operation M) (w : Server M) :
    ∃ actions, (threads faults.throws).run (none, w) actions =
      (none, (call faults op w).2) :=
  (threads faults.throws).exists_run_exec (fun _ h => h) (.standalone op) w

end Threads

omit [DecidableEq M] in
theorem Components.takeOut_eq (e : Components M) :
    e.takeOut = { e with
      queued := e.takeOut.queued, inFlight := e.takeOut.inFlight } := by
  unfold takeOut
  split <;> rfl

omit [DecidableEq M] in
/-- Taking out an entry of an active heartbeat loses no beat. -/
theorem Components.takeOut_beats {e : Components M}
    (h : e.heartbeat = true) : e.takeOut.beats = e.beats := by
  unfold takeOut beats
  rw [h]
  split
  · next htake =>
      simp only [Bool.and_eq_true, decide_eq_true_eq] at htake
      show e.queued - 1 + (e.inFlight + 1) = _
      omega
  · rfl

/-- All the worker does: it changes the time to live and the heartbeat, and an
active heartbeat stays active and loses no beat. -/
theorem Work.apply_cases (a : Work) (w : Server M) :
    ∃ ttl heartbeat queued inFlight,
      a.apply w = ⟨{ w.fields with ttl := ttl },
        { w.env with
          heartbeat := heartbeat, queued := queued, inFlight := inFlight }⟩ ∧
      (w.env.heartbeat = true →
        heartbeat = true ∧ queued + inFlight = w.env.beats) := by
  cases a with
  | takeOut =>
      refine ⟨w.fields.ttl, w.env.heartbeat, w.env.takeOut.queued,
        w.env.takeOut.inFlight, ?_,
        fun hbeat => ⟨hbeat, Components.takeOut_beats hbeat⟩⟩
      show (⟨w.fields, w.env.takeOut⟩ : Server M) = _
      rw [Components.takeOut_eq]
  | perform =>
      rcases Nat.eq_zero_or_pos w.env.inFlight with hnone | hsome
      · refine ⟨w.fields.ttl, w.env.heartbeat, w.env.queued, w.env.inFlight,
          ?_, fun hbeat => ⟨hbeat, rfl⟩⟩
        show w.perform = _
        unfold Server.perform
        rw [if_neg (by omega)]
      · obtain ⟨ttl, hperform⟩ := Server.perform_of_inFlight hsome
        refine ⟨ttl, true, w.env.queued + 1, w.env.inFlight - 1, hperform,
          fun _ => ⟨rfl, ?_⟩⟩
        unfold Components.beats
        omega

/-- The worker disturbs no service and does not let the heartbeat die. -/
theorem Components.Stacked.work {w : Server M} (h : w.env.Stacked)
    (a : Work) : (a.apply w).env.Stacked := by
  obtain ⟨ttl, heartbeat, queued, inFlight, heq, hbeat⟩ := a.apply_cases w
  rw [heq]
  refine ⟨h.udpManager, h.taskScheduler, fun hmedia => ?_⟩
  obtain ⟨hactive, hsome⟩ := h.mediaScheduler hmedia
  obtain ⟨hactive', hbeats⟩ := hbeat hactive
  refine ⟨hactive', ?_⟩
  show 0 < queued + inFlight
  rw [hbeats]
  exact hsome

/-- A condition on the components that the worker leaves alone. -/
def Undisturbed (achieved : Components M → Prop) : Prop :=
  ∀ (a : Work) (w : Server M), achieved w.env → achieved (a.apply w).env

theorem undisturbed_alive : Undisturbed (Components.alive (M := M)) := by
  intro a w halive
  obtain ⟨ttl, heartbeat, queued, inFlight, heq, hbeat⟩ := a.apply_cases w
  obtain ⟨hactive, hbeats⟩ := hbeat halive.1
  rw [heq]
  refine ⟨hactive, ?_⟩
  show 0 < queued + inFlight
  rw [hbeats]
  exact halive.2

theorem undisturbed_services {p : Bool × Bool × Bool → Prop} :
    Undisturbed fun e : Components M => p e.services := by
  intro a w h
  obtain ⟨ttl, heartbeat, queued, inFlight, heq, -⟩ := a.apply_cases w
  rw [heq]
  exact h

theorem undisturbed_active {p : Finset M → Prop} :
    Undisturbed fun e : Components M => p e.active := by
  intro a w h
  obtain ⟨ttl, heartbeat, queued, inFlight, heq, -⟩ := a.apply_cases w
  rw [heq]
  exact h

theorem undisturbed_const (p : Prop) :
    Undisturbed fun _ : Components M => p :=
  fun _ _ h => h

theorem Undisturbed.and {p q : Components M → Prop} (hp : Undisturbed p)
    (hq : Undisturbed q) : Undisturbed fun e => p e ∧ q e :=
  fun a w h => ⟨hp a w h.1, hq a w h.2⟩

theorem Undisturbed.within {achieved : Components M → Prop}
    (h : Undisturbed achieved) {running : Bool} {c : Controllers M} (a : Work)
    {w : Server M} (hw : Within running c achieved w) :
    Within running c achieved (a.apply w) := by
  obtain ⟨ttl, heartbeat, queued, inFlight, heq, -⟩ := a.apply_cases w
  refine ⟨?_, ?_, hw.stacked.work a, h a w hw.achieved⟩
  · rw [heq]
    exact hw.started
  · rw [heq]
    exact hw.controllers

/-! ## One call -/

/-- **Turns keep the stack.** A call whose turn it is leaves every started
service above the ones it stands on. -/
theorem Components.Stacked.effect {w : Server M} (h : w.env.Stacked)
    {c : Call M} (hc : c.turn w) : (c.effect w.env).Stacked := by
  cases c with
  | submitHeatbeat =>
      refine ⟨h.udpManager, h.taskScheduler, fun _ => ⟨rfl, ?_⟩⟩
      show 0 < w.env.queued + 1 + w.env.inFlight
      omega
  | cancel =>
      obtain ⟨-, hdown⟩ := hc
      refine ⟨h.udpManager, h.taskScheduler, fun hmedia => ?_⟩
      have hstopped : w.env.mediaScheduler = false := congrArg Prod.fst hdown
      exact absurd (hmedia.symm.trans hstopped) Bool.true_eq_false.mp
  | mediaSchedulerStart => exact ⟨h.udpManager, fun _ => rfl, fun _ => hc.2⟩
  | mediaSchedulerStop =>
      obtain ⟨-, -, htask⟩ := hc
      refine ⟨h.udpManager, fun hup => ?_, fun hup => absurd hup (by simp [Call.effect])⟩
      exact absurd (hup.symm.trans htask) Bool.true_eq_false.mp
  | taskSchedulerStart =>
      exact ⟨fun _ => rfl, fun _ => hc.2.2, h.mediaScheduler⟩
  | taskSchedulerStop =>
      obtain ⟨-, hudp⟩ := hc
      refine ⟨fun hup => ?_, fun hup => absurd hup (by simp [Call.effect]), h.mediaScheduler⟩
      exact absurd (hup.symm.trans hudp) Bool.true_eq_false.mp
  | udpManagerStart =>
      exact ⟨fun _ => hc.2.2.2, h.taskScheduler, h.mediaScheduler⟩
  | udpManagerStop =>
      exact ⟨fun hup => absurd hup (by simp [Call.effect]), h.taskScheduler,
        h.mediaScheduler⟩
  | activate m => exact ⟨h.udpManager, h.taskScheduler, h.mediaScheduler⟩
  | deactivate m => exact ⟨h.udpManager, h.taskScheduler, h.mediaScheduler⟩
  | configuratorShutdown =>
      exact ⟨h.udpManager, h.taskScheduler, h.mediaScheduler⟩

section Outlines

variable [DecidableEq P] [ToString P]

/-- Outlines of the server's programs. -/
def Outlined (mayThrow : Call M → Bool) {α : Type} (p : ServerM M α)
    (Q : α → Server M → Prop) (w : Server M) : Prop :=
  (threads mayThrow).Outline (OnTime mayThrow) (fun w => w.env.Stacked)
    (Resting mayThrow) p Q w

variable {mayThrow : Call M → Bool}

/-- A method goes on after a call with what the call achieves. -/
theorem outlined_call {running : Bool} {cs : Controllers M}
    {before achieved : Components M → Prop} (undisturbed : Undisturbed achieved)
    {α : Type} {c : Call M} {k : ServerM M α} {Q : α → Server M → Prop}
    {w : Server M} (hw : Within running cs before w)
    (hcall : OnTime mayThrow c w) (establish : achieved (c.effect w.env))
    (rest : ∀ w, Within running cs achieved w → Outlined mayThrow k Q w) :
    Outlined mayThrow (.call c k) Q w := by
  refine Threads.outline_call (A := Within running cs achieved)
    (fun a w hA => undisturbed.within a hA) (fun w hA => hA.stacked) hcall ?_
    ⟨hw.started, hw.controllers, hw.stacked.effect hcall.1, establish⟩ rest
  intro hthrows
  refine ⟨hw.stacked, fun steady => ?_⟩
  exact absurd (hthrows.symm.trans (steady c)) Bool.true_eq_false.mp

/-- A method ends in a loop over its managers. -/
theorem outlined_loop {running : Bool} {cs : Controllers M}
    (achieved : List (Call M) → Components M → Prop)
    (undisturbed : ∀ calls, Undisturbed (achieved calls))
    (each : ∀ c calls w, Within running cs (achieved (c :: calls)) w →
      OnTime mayThrow c w ∧ achieved calls (c.effect w.env))
    (calls : List (Call M)) {w : Server M}
    (hw : Within running cs (achieved calls) w) :
    Outlined mayThrow (Prog.callAll calls)
      (fun _ => Within running cs (achieved [])) w := by
  refine Threads.outline_callAll
    (A := fun calls => Within running cs (achieved calls))
    (fun calls a w hA => (undisturbed calls).within a hA)
    (fun calls w hA => hA.stacked) ?_ calls hw
  intro c calls w hA
  obtain ⟨hcall, establish⟩ := each c calls w hA
  refine ⟨hcall, fun hthrows => ⟨hA.stacked, fun steady => ?_⟩, hA.started,
    hA.controllers, hA.stacked.effect hcall.1, establish⟩
  exact absurd (hthrows.symm.trans (steady c)) Bool.true_eq_false.mp

omit [DecidableEq P] [ToString P] in
theorem undisturbed_rising (mayThrow : Call M → Bool)
    (level : Bool × Bool × Bool) : Undisturbed fun e : Components M =>
      e.alive ∧ Risen mayThrow level e.services :=
  undisturbed_alive.and undisturbed_services

/-- The loop of `start`: every manager of the registry meets the services. -/
theorem outlined_activating (it : IterationOrder M) {cs : Controllers M}
    {w : Server M} (hw : Within true cs (fun e => e.alive ∧
      Risen mayThrow (true, true, true) e.services) w) :
    Outlined mayThrow (Prog.callAll ((it.arrange cs.values).map .activate))
      (fun _ => Within true cs fun e => e.alive ∧
        Risen mayThrow (true, true, true) e.services) w := by
  refine (outlined_loop (fun calls e => (e.alive ∧
      Risen mayThrow (true, true, true) e.services) ∧
        ∀ c ∈ calls, ∃ m ∈ cs.values, c = .activate m) ?_ ?_ _
      ⟨hw.started, hw.controllers, hw.stacked, hw.achieved, ?_⟩).mono ?_
  · intro calls
    exact (undisturbed_rising mayThrow (true, true, true)).and
      (undisturbed_const _)
  · rintro c calls w ⟨started, controllers, -, ⟨alive, risen⟩, known⟩
    obtain ⟨m, hm, rfl⟩ := known c List.mem_cons_self
    rw [← controllers] at hm
    refine ⟨⟨⟨started, alive, risen.up, hm⟩, risen.2.2.2⟩, ⟨alive, risen⟩, ?_⟩
    exact fun d hd => known d (List.mem_cons_of_mem _ hd)
  · intro c hc
    obtain ⟨m, hm, rfl⟩ := List.mem_map.mp hc
    exact ⟨m, it.mem_arrange.mp hm, rfl⟩
  · exact fun _ w hw =>
      ⟨hw.started, hw.controllers, hw.stacked, hw.achieved.1⟩

/-- The loop of `stop`: a manager of the registry that is still active has
its call to come. -/
theorem outlined_deactivating (it : IterationOrder M) {cs : Controllers M}
    {w : Server M} (hw : Within false cs (fun e =>
      Fallen mayThrow (false, false, false) e.services) w) :
    Outlined mayThrow (Prog.callAll ((it.arrange cs.values).map .deactivate))
      (fun _ => Within false cs fun e => e.servicesDown ∧
        ∀ m ∈ cs.values, m ∉ e.active) w := by
  refine (outlined_loop (fun calls e =>
      (e.servicesDown ∧ ∀ m ∈ cs.values, m ∈ e.active → .deactivate m ∈ calls) ∧
        ∀ c ∈ calls, ∃ m ∈ cs.values, c = .deactivate m) ?_ ?_ _
      ⟨hw.started, hw.controllers, hw.stacked, ⟨hw.achieved.down, ?_⟩, ?_⟩).mono
        ?_
  · intro calls
    have down : Undisturbed (Components.servicesDown (M := M)) :=
      undisturbed_services (p := fun services => services = (false, false, false))
    have active : Undisturbed fun e : Components M =>
        ∀ m ∈ cs.values, m ∈ e.active → Call.deactivate m ∈ calls :=
      undisturbed_active (p := fun active =>
        ∀ m ∈ cs.values, m ∈ active → Call.deactivate m ∈ calls)
    exact (down.and active).and (undisturbed_const _)
  · rintro c calls w ⟨started, controllers, -, ⟨down, active⟩, known⟩
    obtain ⟨m, hm, rfl⟩ := known c List.mem_cons_self
    have registered : m ∈ w.fields.controllers.values := controllers ▸ hm
    refine ⟨⟨⟨started, down, registered⟩, fun _ => down⟩, ⟨down, ?_⟩, ?_⟩
    · intro m' hm' hactive
      obtain ⟨hne, hactive⟩ := Finset.mem_erase.mp hactive
      rcases List.mem_cons.mp (active m' hm' hactive) with hsame | hlater
      · exact absurd (Call.deactivate.inj hsame) hne
      · exact hlater
    · exact fun d hd => known d (List.mem_cons_of_mem _ hd)
  · exact fun m hm _ => List.mem_map_of_mem (it.mem_arrange.mpr hm)
  · intro c hc
    obtain ⟨m, hm, rfl⟩ := List.mem_map.mp hc
    exact ⟨m, it.mem_arrange.mp hm, rfl⟩
  · refine fun _ w hw => ⟨hw.started, hw.controllers, hw.stacked,
      hw.achieved.1.1, fun m hm hactive => ?_⟩
    exact List.not_mem_nil (hw.achieved.1.2 m hm hactive)

/-- `start` climbs from service to service and then goes round the managers. -/
theorem outlined_start (it : IterationOrder M) {w : Server M}
    (h : Resting mayThrow w) :
    Outlined mayThrow (StandaloneMediaServer.start it)
      (fun _ => Resting mayThrow) w := by
  obtain ⟨stacked, resting⟩ := h
  unfold Outlined StandaloneMediaServer.start HeartBeat.restart
  rw [Prog.fields_bind, Threads.outline_read]
  cases hrun : w.fields.started with
  | true => exact ⟨stacked, resting⟩
  | false =>
      rw [hrun] at resting
      have entered : Within true w.fields.controllers
          (fun e => Risen mayThrow (false, false, false) e.services)
          (⟨w.fields.startedUp, w.env⟩ : Server M) :=
        ⟨rfl, rfl, stacked, nofun, nofun, nofun, resting⟩
      refine outlined_call (undisturbed_rising mayThrow (false, false, false))
        entered ⟨rfl, resting⟩ ⟨⟨rfl, ?_⟩, entered.achieved⟩ fun w hw => ?_
      · show 0 < w.env.queued + 1 + w.env.inFlight
        omega
      obtain ⟨alive, risen⟩ := hw.achieved
      refine outlined_call (undisturbed_rising mayThrow (true, false, false))
        hw ⟨⟨hw.started, alive⟩, risen.2.2.2⟩ ⟨alive, risen.media⟩
        fun w hw => ?_
      obtain ⟨alive, risen⟩ := hw.achieved
      refine outlined_call (undisturbed_rising mayThrow (true, true, false))
        hw ⟨⟨hw.started, alive, risen.1 rfl⟩, risen.2.2.2⟩
        ⟨alive, risen.task⟩ fun w hw => ?_
      obtain ⟨alive, risen⟩ := hw.achieved
      refine outlined_call (undisturbed_rising mayThrow (true, true, true))
        hw ⟨⟨hw.started, alive, risen.1 rfl, risen.2.1 rfl⟩, risen.2.2.2⟩
        ⟨alive, risen.udp⟩ fun w hw => ?_
      -- the registry is read after the last service is up
      show Outlined mayThrow
        (List.forM (it.arrange w.fields.controllers.values) _) _ w
      rw [Prog.forM_invoke, hw.controllers]
      refine (outlined_activating it hw).mono fun _ w hw => ?_
      refine ⟨hw.stacked, fun steady => ?_⟩
      rw [hw.started, hw.achieved.2.2.2.2 steady]

/-- `stop` climbs down, cancels the heartbeat and goes round the managers. -/
theorem outlined_stop (it : IterationOrder M) {w : Server M}
    (h : Resting mayThrow w) :
    Outlined mayThrow (StandaloneMediaServer.stop it)
      (fun _ => Within false w.fields.controllers fun e =>
        e.servicesDown ∧ ∀ m ∈ w.fields.controllers.values, m ∉ e.active) w := by
  obtain ⟨stacked, resting⟩ := h
  unfold Outlined StandaloneMediaServer.stop
  rw [Prog.fields_bind, Threads.outline_read]
  cases hrun : w.fields.started with
  | false => exact ⟨stacked, resting⟩
  | true =>
      rw [hrun] at resting
      have entered : Within false w.fields.controllers
          (fun e => Fallen mayThrow (true, true, true) e.services)
          (⟨w.fields.shutDown, w.env⟩ : Server M) :=
        ⟨rfl, rfl, stacked, nofun, nofun, nofun, resting⟩
      refine outlined_call undisturbed_services entered ⟨rfl, resting⟩
        entered.achieved.udp fun w hw => ?_
      have fallen := hw.achieved
      refine outlined_call undisturbed_services hw
        ⟨⟨hw.started, fallen.2.2.1 rfl⟩, fallen.2.2.2⟩ fallen.task
        fun w hw => ?_
      have fallen := hw.achieved
      refine outlined_call undisturbed_services hw
        ⟨⟨hw.started, fallen.2.2.1 rfl, fallen.2.1 rfl⟩, fallen.2.2.2⟩
        fallen.media fun w hw => ?_
      have fallen := hw.achieved
      refine outlined_call undisturbed_services hw
        ⟨⟨hw.started, fallen.down⟩, fallen.2.2.2⟩ fallen fun w hw => ?_
      show Outlined mayThrow
        (List.forM (it.arrange w.fields.controllers.values) _) _ w
      rw [Prog.forM_invoke, hw.controllers]
      exact outlined_deactivating it hw

/-! ## Methods and runs -/

omit [DecidableEq M] [DecidableEq P] [ToString P] in
theorem Within.resting {cs : Controllers M} {w : Server M}
    {achieved : Components M → Prop}
    (h : Within false cs (fun e => e.servicesDown ∧ achieved e) w) :
    Resting mayThrow w := by
  refine ⟨h.stacked, fun _ => ?_⟩
  rw [h.started]
  exact h.achieved.1

theorem outlined_addManager (manager : Option M) {w : Server M}
    (h : Resting mayThrow w) :
    Outlined mayThrow (StandaloneMediaServer.addManager manager)
      (fun _ => Resting mayThrow) w := by
  cases manager with
  | none => exact h
  | some m =>
      show Outlined mayThrow (if w.fields.controllers.containsKey
        (getControlProtocol m) then _ else _) _ w
      split
      · exact h
      · exact h

theorem outlined_removeManager (manager : Option M) {w : Server M}
    (h : Resting mayThrow w) :
    Outlined mayThrow (StandaloneMediaServer.removeManager manager)
      (fun _ => Resting mayThrow) w := by
  cases manager with
  | none => exact h
  | some m => exact h

/-- `SpringMediaServer.stop` shuts the logging system down at the very end. -/
theorem outlined_springStop (it : IterationOrder M) {w : Server M}
    (h : Resting mayThrow w) :
    Outlined mayThrow (SpringMediaServer.stop it) (fun _ => Resting mayThrow)
      w := by
  refine Threads.outline_bind (outlined_stop it h) fun _ w hw => ?_
  have down : Undisturbed fun e : Components M => e.servicesDown ∧ True :=
    (undisturbed_services (p := fun services =>
      services = (false, false, false))).and (undisturbed_const True)
  refine outlined_call down hw ⟨⟨hw.started, hw.achieved.1, ?_⟩, ?_⟩
    ⟨hw.achieved.1, trivial⟩ fun w hw => hw.resting
  · rw [hw.controllers]
    exact hw.achieved.2
  · exact fun _ => hw.achieved.1

theorem outlined_body (method : Method M) {w : Server M}
    (h : Resting mayThrow w) :
    Outlined mayThrow method.body (fun _ => Resting mayThrow) w := by
  cases method with
  | springStart it =>
      exact Threads.outline_bind (outlined_start it h) fun _ w hw => hw
  | springStop it => exact outlined_springStop it h
  | standalone op =>
      cases op with
      | start it => exact outlined_start it h
      | stop it => exact (outlined_stop it h).mono fun _ w hw => hw.resting
      | addManager manager => exact outlined_addManager manager h
      | removeManager manager => exact outlined_removeManager manager h

theorem stable_resting : (threads mayThrow).Stable (Resting (M := M) mayThrow) := by
  intro a w h
  obtain ⟨ttl, heartbeat, queued, inFlight, heq, -⟩ := a.apply_cases w
  refine ⟨h.1.work a, fun steady => ?_⟩
  have hresting := h.2 steady
  show (a.apply w).env.services = _
  rw [show (threads mayThrow).work a w = a.apply w from rfl, heq]
  exact hresting

theorem resting_new (controller : Option M) :
    Resting mayThrow (Server.new controller : Server M) := by
  rw [Server.new_eq]
  exact ⟨⟨nofun, nofun, nofun⟩, fun _ => rfl⟩

theorem safe_of_resting {w : Server M} (h : Resting mayThrow w)
    (actions : List (Action (Method M) Work)) :
    (threads mayThrow).Safe (OnTime mayThrow) (fun w => w.env.Stacked)
      (Resting mayThrow) ((threads mayThrow).run (none, w) actions) :=
  Threads.safe_run stable_resting (fun _ h => h.1)
    (fun method _ h => outlined_body method h) h actions

theorem stacked_of_resting {w : Server M} (h : Resting mayThrow w)
    (actions : List (Action (Method M) Work)) :
    ((threads mayThrow).run (none, w) actions).2.env.Stacked :=
  (safe_of_resting h actions).observed fun _ h => h.1

/-- A run of a new server: its thread and its worker, from the constructor
on. -/
def interleaved (mayThrow : Call M → Bool) (controller : Option M)
    (actions : List (Action (Method M) Work)) :
    Threads.State (Call M) (Fields M) JavaException (Components M) Unit :=
  (threads mayThrow).run (none, Server.new controller) actions

theorem safe_interleaved (mayThrow : Call M → Bool) (controller : Option M)
    (actions : List (Action (Method M) Work)) :
    (threads mayThrow).Safe (OnTime mayThrow) (fun w => w.env.Stacked)
      (Resting mayThrow) (interleaved mayThrow controller actions) :=
  safe_of_resting (resting_new controller) actions

/-- In every state of every run, whatever is interleaved and whichever calls
of the methods throw, the services are stacked. -/
theorem stacked_interleaved (mayThrow : Call M → Bool) (controller : Option M)
    (actions : List (Action (Method M) Work)) :
    (interleaved mayThrow controller actions).2.env.Stacked :=
  stacked_of_resting (resting_new controller) actions

/-- **Every call meets its contract.** In every interleaving of the methods
with the worker, and whichever calls of the methods throw, the call a method
makes next finds in place what it relies on. -/
theorem contract_interleaved {mayThrow : Call M → Bool}
    {controller : Option M} {actions : List (Action (Method M) Work)}
    {c : Call M} {w : Server M}
    (h : Threads.nextCall (interleaved mayThrow controller actions) =
      some (c, w)) : c.contract w :=
  Call.contract_of_turn
    ((safe_interleaved mayThrow controller actions).contract h).1

/-- The first manager of a server is about to be activated, the scheduler
having taken the heartbeat out already. -/
theorem contract_interleaved_activate :
    let actions : List (Action (Method PlainManager) Work) :=
      [.invoke (.springStart (.listed _)), .advance, .advance, .work .takeOut,
        .advance, .advance]
    ∃ w, Threads.nextCall (interleaved (fun _ => true) (some ⟨0, 0⟩) actions) =
        some (.activate ⟨0, 0⟩, w) ∧
      (Call.activate (⟨0, 0⟩ : PlainManager)).contract w := by
  intro actions
  have hcall : Threads.nextCall
      (interleaved (fun _ => true) (some ⟨0, 0⟩) actions) =
        some (.activate ⟨0, 0⟩,
          (interleaved (fun _ => true) (some ⟨0, 0⟩) actions).2) := rfl
  exact ⟨_, hcall, contract_interleaved hcall⟩

/-- **No service is started or stopped twice.** While nothing fails, a call
comes when exactly the services of its stage are up, in every interleaving. -/
theorem stage_interleaved {controller : Option M}
    {actions : List (Action (Method M) Work)} {c : Call M} {w : Server M}
    (h : Threads.nextCall (interleaved (fun _ => false) controller actions) =
      some (c, w)) : w.env.services = c.stage :=
  ((safe_interleaved (fun _ => false) controller actions).contract h).2
    fun _ => rfl

theorem stage_interleaved_taskScheduler :
    let actions : List (Action (Method PlainManager) Work) :=
      [.invoke (.standalone (.start (.listed _))), .advance, .advance,
        .work .takeOut, .work .perform]
    ∃ w, Threads.nextCall (interleaved (fun _ => false) none actions) =
        some (.taskSchedulerStart, w) ∧
      w.env.services = (Call.taskSchedulerStart : Call PlainManager).stage := by
  intro actions
  have hcall : Threads.nextCall (interleaved (fun _ => false) none actions) =
      some (.taskSchedulerStart,
        (interleaved (fun _ => false) none actions).2) := rfl
  exact ⟨_, hcall, stage_interleaved hcall⟩

end Outlines

end MediaServer
