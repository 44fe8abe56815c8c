import MediaServer.Bootstrap.DependencyOrder
import MediaServer.Foundation.SmallStep

/-!
# Executions of the heartbeat in primitive steps

The worker may be several threads, and `ttl--` on a volatile field is a read
and a write. Here every execution of `perform()` is a thread of its own that
takes one read, write or call at a time, interleaved with all the others and
with the control thread. What such a pool of threads does can be done by
executions that run at one go, except for the time to live (`shows_run`).
-/

namespace MediaServer

open Foundation

variable {M P : Type} [ServerManager M P]

/-- `perform()` with the decrement as its read and its write. -/
def HeartBeat.performSteps : ServerM M ℤ := do
  let this ← Prog.fields
  Prog.modify fun that => { that with ttl := this.ttl - 1 }
  let this ← Prog.fields
  if this.ttl = 0 then
    HeartBeat.restart
  else
    Prog.invoke .submitHeatbeat
  return 0

/-- The control thread, the server, and the executions begun, each with what
is left of it; `none` is an execution that has ended. -/
structure Pool (M : Type) {P : Type} [ServerManager M P] where
  control : Option (ServerM M Unit)
  server : Server M
  executions : List (Option (ServerM M ℤ))

inductive PoolAction (M : Type) where
  | invoke (method : Method M)
  | advance
  | throw
  | takeOut
  | small (i : ℕ)

/-- The step is one of the control thread. -/
def PoolAction.ofThread : PoolAction M → Bool
  | .takeOut => false
  | .small _ => false
  | _ => true

/-- The step of the control thread that the step is, if it is one. -/
def PoolAction.onControl : PoolAction M → List (Action (Method M) Work)
  | .invoke method => [.invoke method]
  | .advance => [.advance]
  | .throw => [.throw]
  | .takeOut => []
  | .small _ => []

/-- The execution has not submitted its successor yet. -/
def unsubmitted : Option (ServerM M ℤ) → Bool
  | some (.ret _) => false
  | some _ => true
  | none => false

/-- The fields agree but for the time to live. -/
structure SameButTtl (this that : Fields M) : Prop where
  started : this.started = that.started
  controllers : this.controllers = that.controllers
  heartbeatTime : this.heartbeatTime = that.heartbeatTime

theorem SameButTtl.refl (this : Fields M) : SameButTtl this this :=
  ⟨rfl, rfl, rfl⟩

theorem SameButTtl.trans {this that other : Fields M}
    (h : SameButTtl this that) (h' : SameButTtl that other) :
    SameButTtl this other :=
  ⟨h.started.trans h'.started, h.controllers.trans h'.controllers,
    h.heartbeatTime.trans h'.heartbeatTime⟩

theorem SameButTtl.symm {this that : Fields M} (h : SameButTtl this that) :
    SameButTtl that this :=
  ⟨h.started.symm, h.controllers.symm, h.heartbeatTime.symm⟩

namespace Pool

/-- Executions that have not submitted their successor. -/
def pending (pool : Pool M) : ℕ := pool.executions.countP unsubmitted

variable [DecidableEq M]

/-- The scheduler takes out one entry; if the task is active an execution of
it begins. -/
def takeOut (pool : Pool M) : Pool M :=
  if pool.server.env.mediaScheduler && decide (0 < pool.server.env.queued) then
    { pool with
      server := ⟨pool.server.fields,
        { pool.server.env with queued := pool.server.env.queued - 1 }⟩
      executions :=
        if pool.server.env.heartbeat then
          pool.executions ++ [some HeartBeat.performSteps]
        else pool.executions }
  else pool

/-- One primitive step of one execution. -/
def small (pool : Pool M) (i : ℕ) : Pool M :=
  match pool.executions[i]? with
  | none => pool
  | some execution =>
      let (rest, server) := Prog.small Call.effect (execution, pool.server)
      { pool with
        server := server
        executions := pool.executions.set i rest }

theorem small_of_none {pool : Pool M} {i : ℕ}
    (h : pool.executions[i]? = none) : pool.small i = pool := by
  unfold small
  rw [h]

theorem small_of_some {pool : Pool M} {i : ℕ}
    {execution : Option (ServerM M ℤ)} (h : pool.executions[i]? = some execution) :
    pool.small i =
      { pool with
        server := (Prog.small Call.effect (execution, pool.server)).2
        executions := pool.executions.set i
          (Prog.small Call.effect (execution, pool.server)).1 } := by
  unfold small
  rw [h]

variable [DecidableEq P] [ToString P]

/-- A step of the control thread. -/
def onControl (mayThrow : Call M → Bool) (pool : Pool M)
    (action : Action (Method M) Work) : Pool M :=
  let (control, server) :=
    (threads mayThrow).next (pool.control, pool.server) action
  { pool with control := control, server := server }

/-- A step of the pool. Only calls of the control thread may throw; it goes
from one call to the next in one step, with all it reads and writes on the
way. An execution takes one read, write or call a step, and its submission
goes through. -/
def next (mayThrow : Call M → Bool) (pool : Pool M) :
    PoolAction M → Pool M
  | .invoke method => pool.onControl mayThrow (.invoke method)
  | .advance => pool.onControl mayThrow .advance
  | .throw => pool.onControl mayThrow .throw
  | .takeOut => pool.takeOut
  | .small i => pool.small i

def new (controller : Option M) : Pool M := ⟨none, .new controller, []⟩

/-- The call the control thread makes when it advances. -/
def nextCall (pool : Pool M) : Option (Call M) :=
  (Threads.nextCall (pool.control, pool.server)).map Prod.fst

def run (mayThrow : Call M → Bool) (controller : Option M)
    (actions : List (PoolAction M)) : Pool M :=
  actions.foldl (next mayThrow) (new controller)

theorem run_concat (mayThrow : Call M → Bool) (controller : Option M)
    (actions : List (PoolAction M)) (action : PoolAction M) :
    run mayThrow controller (actions ++ [action]) =
      (run mayThrow controller actions).next mayThrow action := by
  simp [run, List.foldl_append]

end Pool

/-! ## What executions and operations look at -/

section Programs

/-- On every path the program changes no field but the time to live, submits
the heartbeat once and returns. -/
def Submits : ServerM M ℤ → Prop
  | .ret _ => False
  | .raise _ => False
  | .read k => ∀ this, Submits (k this)
  | .write f k => (∀ this, SameButTtl this (f this)) ∧ Submits k
  | .call c k => c = .submitHeatbeat ∧ ∃ a, k = .ret a

theorem submits_performSteps :
    Submits (HeartBeat.performSteps : ServerM M ℤ) := by
  intro this
  refine ⟨fun that => ⟨rfl, rfl, rfl⟩, fun that => ?_⟩
  show Submits (if that.ttl = 0 then _ else _)
  split
  · exact ⟨fun other => ⟨rfl, rfl, rfl⟩, rfl, 0, rfl⟩
  · exact ⟨rfl, 0, rfl⟩

/-- Run alone, the primitive steps are `perform()`. -/
theorem exec_performSteps [DecidableEq M] (fails : Call M → Bool)
    (w : Server M) :
    HeartBeat.performSteps.exec Call.effect fails w =
      HeartBeat.perform.exec Call.effect fails w := by
  simp [HeartBeat.performSteps, HeartBeat.perform]

/-- A loop over the registry is blind to the rest of the fields. -/
theorem blind_forM (it : IterationOrder M) (f : M → Call M) :
    Prog.Blind SameButTtl (do
      let this ← Prog.fields
      (it.arrange this.controllers.values).forM fun controller =>
        Prog.invoke (f controller) : ServerM M Unit) := by
  intro this
  refine ⟨?_, fun that h => ?_⟩
  · show Prog.Blind SameButTtl
      (List.forM (it.arrange this.controllers.values) _)
    rw [Prog.forM_invoke]
    exact Prog.blind_callAll _
  · show List.forM (it.arrange this.controllers.values) _ =
      List.forM (it.arrange that.controllers.values) _
    rw [h.controllers]

theorem blind_start (it : IterationOrder M) :
    (StandaloneMediaServer.start it).Blind SameButTtl := by
  intro this
  refine ⟨?_, fun that h => ?_⟩
  · show Prog.Blind SameButTtl (if this.started = true then _ else _)
    split
    · trivial
    · exact ⟨fun this that h => ⟨rfl, h.controllers, h.heartbeatTime⟩,
        fun this that h => ⟨h.started, h.controllers, h.heartbeatTime⟩,
        blind_forM it .activate⟩
  · show (if this.started = true then _ else _) =
      (if that.started = true then _ else _)
    rw [h.started]

theorem blind_stop (it : IterationOrder M) :
    (StandaloneMediaServer.stop it).Blind SameButTtl := by
  intro this
  refine ⟨?_, fun that h => ?_⟩
  · show Prog.Blind SameButTtl (if (!this.started) = true then _ else _)
    split
    · trivial
    · exact ⟨fun this that h => ⟨rfl, h.controllers, h.heartbeatTime⟩,
        blind_forM it .deactivate⟩
  · show (if (!this.started) = true then _ else _) =
      (if (!that.started) = true then _ else _)
    rw [h.started]

theorem blind_addManager [DecidableEq P] [ToString P] (manager : Option M) :
    (StandaloneMediaServer.addManager manager).Blind SameButTtl := by
  cases manager with
  | none => trivial
  | some m =>
      intro this
      refine ⟨?_, fun that h => ?_⟩
      · show Prog.Blind SameButTtl (if this.controllers.containsKey
          (getControlProtocol m) = true then _ else _)
        split
        · trivial
        · refine ⟨fun this that h => ⟨h.started, ?_, h.heartbeatTime⟩, trivial⟩
          exact congrArg (·.put m) h.controllers
      · show (if this.controllers.containsKey (getControlProtocol m) = true
            then _ else _) =
          (if that.controllers.containsKey (getControlProtocol m) = true
            then _ else _)
        rw [h.controllers]

theorem blind_removeManager [DecidableEq P] (manager : Option M) :
    (StandaloneMediaServer.removeManager manager).Blind SameButTtl := by
  cases manager with
  | none => trivial
  | some m =>
      refine ⟨fun this that h => ⟨h.started, ?_, h.heartbeatTime⟩, trivial⟩
      exact congrArg (·.remove (getControlProtocol m)) h.controllers

/-- No method looks at the time to live. -/
theorem blind_body [DecidableEq M] [DecidableEq P] [ToString P]
    (method : Method M) : method.body.Blind SameButTtl := by
  cases method with
  | springStart it => exact (blind_start it).bind fun _ => trivial
  | springStop it => exact (blind_stop it).bind fun _ => trivial
  | standalone op =>
      cases op with
      | start it => exact blind_start it
      | stop it => exact blind_stop it
      | addManager manager => exact blind_addManager manager
      | removeManager manager => exact blind_removeManager manager

end Programs

/-! ## Matching the pool with executions at one go -/

/-- The pool shows what the state shows: they agree on the thread, on every
field but the time to live, and on the components, where the executions in
flight are those that have not submitted their successor yet. -/
structure Pool.Shows (pool : Pool M)
    (s : Threads.State (Call M) (Fields M) JavaException (Components M) Unit) :
    Prop where
  control : s.1 = pool.control
  fields : SameButTtl pool.server.fields s.2.fields
  env : s.2.env = { pool.server.env with inFlight := pool.pending }

/-- What the threads of a pool may still do. -/
structure Pool.Tame (pool : Pool M) : Prop where
  control : ∀ p, pool.control = some p → p.Blind SameButTtl
  executions : ∀ p, some p ∈ pool.executions → Submits p ∨ ∃ a, p = .ret a

theorem Submits.unsubmitted {p : ServerM M ℤ} (h : Submits p) :
    unsubmitted (some p) = true := by
  cases p with
  | ret a => exact h.elim
  | raise e => exact h.elim
  | read k => rfl
  | write f k => rfl
  | call c k => rfl

/-- A step of an execution leads on to its submission or is the submission. -/
theorem Submits.small [DecidableEq M] {p : ServerM M ℤ} (h : Submits p)
    (w : Server M) :
    ∃ q w', Prog.small Call.effect (some p, w) = (some q, w') ∧
      SameButTtl w.fields w'.fields ∧ (Submits q ∨ ∃ a, q = .ret a) := by
  cases p with
  | ret a => exact h.elim
  | raise e => exact h.elim
  | read k => exact ⟨_, _, rfl, SameButTtl.refl _, Or.inl (h w.fields)⟩
  | write f k => exact ⟨_, _, rfl, h.1 w.fields, Or.inl h.2⟩
  | call c k => exact ⟨_, _, rfl, SameButTtl.refl _, Or.inr h.2⟩

namespace Pool

section Matching

variable [DecidableEq M]

/-- The effect of a call does not depend on the executions in flight. -/
theorem effect_inFlight (c : Call M) (e : Components M) (n : ℕ) :
    c.effect { e with inFlight := n } =
      { c.effect e with inFlight := n } := by
  cases c <;> rfl

omit [DecidableEq M] in
theorem Shows.takeOut {pool : Pool M}
    {s : Threads.State (Call M) (Fields M) JavaException (Components M) Unit}
    (h : pool.Shows s) : pool.takeOut.Shows (s.1, Server.takeOut s.2) := by
  obtain ⟨control, w⟩ := s
  obtain ⟨hcontrol, hfields, henv⟩ := h
  have henv : w.env = { pool.server.env with inFlight := pool.pending } := henv
  unfold Pool.takeOut Server.takeOut Components.takeOut
  rw [henv]
  dsimp only
  by_cases htake : (pool.server.env.mediaScheduler &&
      decide (0 < pool.server.env.queued)) = true
  · rw [if_pos htake, if_pos htake]
    refine ⟨hcontrol, hfields, ?_⟩
    cases pool.server.env.heartbeat with
    | true => simp [Pool.pending, submits_performSteps.unsubmitted]
    | false => simp [Pool.pending]
  · rw [if_neg htake, if_neg htake]
    exact ⟨hcontrol, hfields, rfl⟩

omit [DecidableEq M] in
theorem Tame.takeOut {pool : Pool M} (h : pool.Tame) : pool.takeOut.Tame := by
  unfold Pool.takeOut
  split
  · refine ⟨h.control, fun p hp => ?_⟩
    dsimp only at hp
    split at hp
    · rcases List.mem_append.mp hp with hold | hnew
      · exact h.executions p hold
      · obtain rfl : p = HeartBeat.performSteps := by simpa using hnew
        exact Or.inl submits_performSteps
    · exact h.executions p hp
  · exact h

omit [DecidableEq M] in
/-- An execution that moves on counts as before, unless it submits. -/
theorem countP_set_add {executions : List (Option (ServerM M ℤ))} {i : ℕ}
    {old : Option (ServerM M ℤ)} (h : executions[i]? = some old)
    (new : Option (ServerM M ℤ)) :
    (executions.set i new).countP unsubmitted + (unsubmitted old).toNat =
      executions.countP unsubmitted + (unsubmitted new).toNat := by
  obtain ⟨hi, rfl⟩ := List.getElem?_eq_some_iff.mp h
  have hpos : (unsubmitted executions[i]).toNat ≤
      executions.countP unsubmitted := by
    cases hold : unsubmitted executions[i] with
    | false => exact Nat.zero_le _
    | true =>
        exact List.countP_pos_iff.mpr ⟨_, List.getElem_mem hi, hold⟩
  have htoNat : ∀ b : Bool, (if b = true then 1 else 0) = b.toNat := by decide
  rw [List.countP_set hi, htoNat, htoNat]
  omega

omit [DecidableEq M] in
/-- Where at most one execution has still to submit, an execution that moves
on is the one. -/
theorem eq_of_mem_set {executions : List (Option (ServerM M ℤ))} {i : ℕ}
    {old : Option (ServerM M ℤ)} (h : executions[i]? = some old)
    (hold : unsubmitted old = true)
    (hone : executions.countP unsubmitted ≤ 1)
    {new execution : Option (ServerM M ℤ)}
    (hmem : execution ∈ executions.set i new)
    (hpending : unsubmitted execution = true) : execution = new := by
  have hcount := countP_set_add h none
  rw [hold] at hcount
  -- without the one that moves on none is left
  have hnone : (executions.set i none).countP unsubmitted = 0 := by
    have hsum : (executions.set i none).countP unsubmitted + 1 =
        executions.countP unsubmitted + 0 := hcount
    omega
  obtain ⟨j, hj⟩ := List.mem_iff_getElem?.mp hmem
  by_cases hij : i = j
  · subst hij
    obtain ⟨hi, -⟩ := List.getElem?_eq_some_iff.mp h
    rw [List.getElem?_set_self hi] at hj
    exact (Option.some.inj hj).symm
  · rw [List.getElem?_set_ne hij, ← List.getElem?_set_ne hij] at hj
    have hother : execution ∈ executions.set i none := List.mem_of_getElem? hj
    exact absurd hpending (List.countP_eq_zero.mp hnone _ hother)

omit [DecidableEq M] in
/-- A step that submits nothing shows nothing. -/
theorem Shows.keep {pool : Pool M}
    {s : Threads.State (Call M) (Fields M) JavaException (Components M) Unit}
    (h : pool.Shows s) {i : ℕ} {old new : Option (ServerM M ℤ)}
    (hexecution : pool.executions[i]? = some old)
    (hsame : unsubmitted new = unsubmitted old) {fields : Fields M}
    (hfields : SameButTtl pool.server.fields fields) :
    Shows { pool with
        server := ⟨fields, pool.server.env⟩
        executions := pool.executions.set i new } s := by
  refine ⟨h.control, hfields.symm.trans h.fields, ?_⟩
  have hcount := countP_set_add hexecution new
  rw [hsame] at hcount
  rw [h.env]
  show ({ pool.server.env with inFlight := pool.pending } : Components M) =
    { pool.server.env with
      inFlight := (pool.executions.set i new).countP unsubmitted }
  rw [Nat.add_right_cancel hcount]
  rfl

/-- The submission is the moment at which the whole execution takes place. -/
theorem Shows.submit {pool : Pool M}
    {s : Threads.State (Call M) (Fields M) JavaException (Components M) Unit}
    (h : pool.Shows s) {i : ℕ} {a : ℤ}
    (hexecution : pool.executions[i]? =
      some (some (.call .submitHeatbeat (.ret a)))) :
    Shows { pool with
        server := ⟨pool.server.fields,
          Call.submitHeatbeat.effect pool.server.env⟩
        executions := pool.executions.set i (some (.ret a)) }
      (s.1, Server.perform s.2) := by
  have hcount := countP_set_add hexecution (some (.ret a))
  have hcount : (pool.executions.set i (some (.ret a))).countP unsubmitted + 1 =
      pool.pending := hcount
  have hflight : s.2.env.inFlight = pool.pending := by rw [h.env]
  obtain ⟨ttl, hperform⟩ := Server.perform_of_inFlight
    (w := s.2) (by omega)
  rw [hperform]
  refine ⟨h.control, ⟨h.fields.started, h.fields.controllers,
    h.fields.heartbeatTime⟩, ?_⟩
  show _ = ({ Call.submitHeatbeat.effect pool.server.env with
    inFlight := (pool.executions.set i (some (.ret a))).countP unsubmitted } :
      Components M)
  rw [h.env, ← hcount]
  rfl

/-- A primitive step of an execution is nothing, or the whole `perform()`. -/
theorem Shows.small {pool : Pool M}
    {s : Threads.State (Call M) (Fields M) JavaException (Components M) Unit}
    (h : pool.Shows s) (tame : pool.Tame) (i : ℕ) :
    (pool.small i).Shows s ∨ (pool.small i).Shows (s.1, Server.perform s.2) := by
  unfold Pool.small
  cases hexecution : pool.executions[i]? with
  | none => exact Or.inl h
  | some execution =>
      have hmem := List.mem_of_getElem? hexecution
      cases execution with
      | none => exact Or.inl (h.keep hexecution rfl (SameButTtl.refl _))
      | some p =>
          rcases tame.executions p hmem with hsubmits | ⟨a, rfl⟩
          · cases p with
            | ret a => exact hsubmits.elim
            | raise e => exact hsubmits.elim
            | read k =>
                have hrest := (hsubmits pool.server.fields).unsubmitted
                exact Or.inl (h.keep hexecution hrest (SameButTtl.refl _))
            | write f k =>
                have hrest := hsubmits.2.unsubmitted
                exact Or.inl (h.keep hexecution hrest (hsubmits.1 _))
            | call c k =>
                -- the only call of an execution is its submission
                obtain ⟨rfl, a, rfl⟩ := hsubmits
                exact Or.inr (h.submit hexecution)
          · have hended : unsubmitted (M := M) none =
                unsubmitted (M := M) (some (.ret a)) := rfl
            exact Or.inl (h.keep hexecution hended (SameButTtl.refl _))

theorem Tame.small {pool : Pool M} (h : pool.Tame) (i : ℕ) :
    (pool.small i).Tame := by
  unfold Pool.small
  cases hexecution : pool.executions[i]? with
  | none => exact h
  | some execution =>
      refine ⟨h.control, fun q hq => ?_⟩
      rcases List.mem_or_eq_of_mem_set hq with hold | hnew
      · exact h.executions q hold
      · cases execution with
        | none => exact absurd hnew nofun
        | some p =>
            have hmem := List.mem_of_getElem? hexecution
            rcases h.executions p hmem with hsubmits | ⟨a, rfl⟩
            · obtain ⟨q', w', hstep, -, hrest⟩ := hsubmits.small pool.server
              simp only [hstep] at hnew
              cases Option.some.inj hnew
              exact hrest
            · exact absurd hnew nofun

end Matching

section Control

variable [DecidableEq M] [DecidableEq P] [ToString P]
  {mayThrow : Call M → Bool}

omit [DecidableEq M] [DecidableEq P] [ToString P] in
theorem Shows.alike {pool : Pool M}
    {s : Threads.State (Call M) (Fields M) JavaException (Components M) Unit}
    (h : pool.Shows s) :
    Threads.Alike SameButTtl
      (fun e e' => e' = { e with inFlight := pool.pending })
      (pool.control, pool.server) s :=
  ⟨h.control.symm, h.fields, h.env⟩

omit [DecidableEq P] [ToString P] in
/-- The control thread makes the same step from the pool and from what the
pool shows. -/
theorem Shows.advance {pool : Pool M}
    {s : Threads.State (Call M) (Fields M) JavaException (Components M) Unit}
    (h : pool.Shows s) (tame : pool.Tame) :
    let s' := Prog.step Call.effect (pool.control, pool.server)
    Shows { pool with control := s'.1, server := s'.2 }
      (Prog.step Call.effect s) := by
  have keep : ∀ (c : Call M) (e e' : Components M),
      e' = { e with inFlight := pool.pending } →
      c.effect e' = { c.effect e with inFlight := pool.pending } := by
    rintro c e _ rfl
    exact effect_inFlight c e pool.pending
  have halike := h.alike.step keep tame.control
  exact ⟨halike.control.symm, halike.fields, halike.env⟩

omit [DecidableEq M] [DecidableEq P] [ToString P] in
theorem Shows.throw {pool : Pool M}
    {s : Threads.State (Call M) (Fields M) JavaException (Components M) Unit}
    (h : pool.Shows s) (tame : pool.Tame) :
    let s' := Prog.throwStep mayThrow (pool.control, pool.server)
    Shows { pool with control := s'.1, server := s'.2 }
      (Prog.throwStep mayThrow s) := by
  have halike := h.alike.throwStep mayThrow tame.control
  exact ⟨halike.control.symm, halike.fields, halike.env⟩

/-- A step of the control thread leaves it blind to the time to live. -/
theorem Tame.onControl {pool : Pool M} (h : pool.Tame)
    (action : Action (Method M) Work) :
    (pool.onControl mayThrow action).Tame :=
  ⟨Threads.run_blind (t := threads mayThrow) blind_body h.control [action],
    h.executions⟩

theorem Tame.next {pool : Pool M} (h : pool.Tame) (action : PoolAction M) :
    (pool.next mayThrow action).Tame := by
  cases action with
  | invoke method => exact h.onControl (.invoke method)
  | advance => exact h.onControl .advance
  | throw => exact h.onControl .throw
  | takeOut => exact h.takeOut
  | small i => exact h.small i

/-- What a step of the pool shows, the coarser threads do in one step or
none, and the control thread makes the same step. -/
theorem Shows.next {pool : Pool M}
    {s : Threads.State (Call M) (Fields M) JavaException (Components M) Unit}
    (h : pool.Shows s) (tame : pool.Tame) (action : PoolAction M) :
    ∃ actions, (pool.next mayThrow action).Shows
        ((threads mayThrow).run s actions) ∧
      actions.filter Action.ofThread = action.onControl := by
  cases action with
  | invoke method =>
      refine ⟨[.invoke method], ⟨?_, h.fields, h.env⟩, rfl⟩
      exact congrArg (fun control => some (control.getD method.body)) h.control
  | advance => exact ⟨[.advance], h.advance tame, rfl⟩
  | throw => exact ⟨[.throw], h.throw tame, rfl⟩
  | takeOut => exact ⟨[.work .takeOut], h.takeOut, rfl⟩
  | small i =>
      rcases h.small tame i with hnone | hperform
      · exact ⟨[], hnone, rfl⟩
      · exact ⟨[.work .perform], hperform, rfl⟩

theorem shows_new (controller : Option M) :
    (new controller).Shows (none, Server.new controller) := by
  refine ⟨rfl, SameButTtl.refl _, ?_⟩
  show (Server.new controller).env = _
  rw [show (new controller).server = Server.new controller from rfl,
    Server.new_eq]
  rfl

theorem tame_new (controller : Option M) : (new controller).Tame :=
  ⟨nofun, fun _ hp => absurd hp List.not_mem_nil⟩

/-- Along a run of the pool its threads stay tame, and a run at one go with
the same steps of the control thread shows the same. -/
theorem exists_shows_and_tame (mayThrow : Call M → Bool)
    (controller : Option M) (actions : List (PoolAction M)) :
    ∃ actions', ((run mayThrow controller actions).Shows
        (interleaved mayThrow controller actions') ∧
      (run mayThrow controller actions).Tame) ∧
      actions'.filter Action.ofThread =
        actions.flatMap PoolAction.onControl := by
  refine exists_run_of_step (Pool.next mayThrow) (threads mayThrow).next
    PoolAction.onControl Action.ofThread
    (fun pool s => pool.Shows s ∧ pool.Tame) (fun pool s action h => ?_)
    ⟨shows_new controller, tame_new controller⟩ actions
  obtain ⟨actions', hshows, hcontrol⟩ := h.1.next h.2 action
  exact ⟨actions', ⟨hshows, h.2.next action⟩, hcontrol⟩

/-- **Executions may run at one go.** Whatever a pool of executions does in
primitive steps, interleaved with one another and with the control thread, and
whichever calls of the methods throw, the same thread, fields and components
are reached by executions that each run at one go, between the same steps of
the control thread, but for the time to live. -/
theorem shows_run (mayThrow : Call M → Bool) (controller : Option M)
    (actions : List (PoolAction M)) :
    ∃ actions', (run mayThrow controller actions).Shows
        (interleaved mayThrow controller actions') ∧
      actions'.filter Action.ofThread =
        actions.flatMap PoolAction.onControl := by
  obtain ⟨actions', ⟨hshows, -⟩, hcontrol⟩ :=
    exists_shows_and_tame mayThrow controller actions
  exact ⟨actions', hshows, hcontrol⟩

/-- **Services stay stacked.** In every state of every run, with executions
in primitive steps and whichever calls of the methods throw: a started UDP
manager has the task scheduler, a started task scheduler the media scheduler,
and a started media scheduler an active heartbeat with an entry or an
execution that has still to submit one. -/
theorem stacked_run (mayThrow : Call M → Bool) (controller : Option M)
    (actions : List (PoolAction M)) :
    let pool := run mayThrow controller actions
    Components.Stacked { pool.server.env with inFlight := pool.pending } := by
  obtain ⟨actions', ⟨hshows, -⟩, -⟩ :=
    exists_shows_and_tame mayThrow controller actions
  intro pool
  rw [← hshows.env]
  exact stacked_interleaved mayThrow controller actions'

end Control

end Pool

end MediaServer
