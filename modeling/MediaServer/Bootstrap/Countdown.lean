import MediaServer.Bootstrap.WorkerPool
import MediaServer.Foundation.Run

/-!
# The countdown of the heartbeat

`perform()` counts the time to live down, and at zero reports that the
heartbeat is alive and sets it to 600 again. The field is shared: several
executions may count it down, and `start` sets it. As long as the executions
stay apart, one beginning only after the last one has submitted its
successor, and `start` submits the heartbeat only between them, the count is
exact, in primitive steps of the executions: every 600th of them reports.
Executions that overlap may count past zero, and then none reports.
-/

namespace MediaServer

open Foundation

variable {M P : Type} [ServerManager M P]

/-- The time to live after a number of executions since `start`; zero before
the first `start`. -/
def clock : Option ℕ → ℤ
  | none => 0
  | some n => 600 - (n : ℤ) % 600

theorem clock_some (n : ℕ) : clock (some n) = 600 - (n : ℤ) % 600 := rfl

/-- What an execution makes of the time to live. -/
def turned (ttl : ℤ) : ℤ := if ttl - 1 = 0 then 600 else ttl - 1

/-- One execution turns the clock by one. -/
theorem turned_clock (n : ℕ) : turned (clock (some n)) = clock (some (n + 1)) := by
  unfold turned
  rw [clock_some, clock_some]
  push_cast
  split <;> omega

theorem one_le_clock (n : ℕ) : 1 ≤ clock (some n) := by
  rw [clock_some]
  omega

/-- The clock is at its last beat before every 600th execution. -/
theorem clock_eq_one_iff (n : ℕ) : clock (some n) = 1 ↔ 600 ∣ n + 1 := by
  rw [clock_some]
  omega

/-! ## Who reads and who sets the clock -/

/-- The fields agree on the clock. -/
structure SameClock (this that : Fields M) : Prop where
  ttl : this.ttl = that.ttl
  heartbeatTime : this.heartbeatTime = that.heartbeatTime

/-- The clock is set only on the way to the submission of the heartbeat;
`set` says whether it has been set since the last call. -/
def KeepsClock {α : Type} : Bool → ServerM M α → Prop
  | set, .ret _ => set = false
  | set, .raise _ => set = false
  | set, .read k => ∀ this, KeepsClock set (k this)
  | set, .write f k =>
      (∀ this, SameClock (f this) this) ∧ KeepsClock set k ∨
        (∀ this, (f this).heartbeatTime = this.heartbeatTime ∧
          (f this).ttl = this.heartbeatTime * 600) ∧ KeepsClock true k
  | set, .call c k =>
      (c = .submitHeatbeat ↔ set = true) ∧ KeepsClock false k

theorem KeepsClock.bind {α β : Type} {set : Bool} {p : ServerM M α}
    (hp : KeepsClock set p) {f : α → ServerM M β}
    (hf : ∀ a, KeepsClock false (f a)) : KeepsClock set (p >>= f) := by
  induction p generalizing set with
  | ret a =>
      obtain rfl : set = false := hp
      exact hf a
  | raise e => exact hp
  | read k ih => exact fun this => ih this (hp this)
  | write g k ih =>
      rcases hp with ⟨hsame, hk⟩ | ⟨hset, hk⟩
      · exact Or.inl ⟨hsame, ih hk⟩
      · exact Or.inr ⟨hset, ih hk⟩
  | call c k ih => exact ⟨hp.1, ih hp.2⟩

theorem keepsClock_callAll {cs : List (Call M)}
    (h : .submitHeatbeat ∉ cs) :
    KeepsClock false (Prog.callAll cs : ServerM M Unit) := by
  induction cs with
  | nil => rfl
  | cons c cs ih =>
      rw [List.mem_cons, not_or] at h
      exact ⟨iff_of_false (Ne.symm h.1) Bool.false_ne_true, ih h.2⟩

/-- A loop over the registry that submits nothing. -/
theorem keepsClock_forM (it : IterationOrder M) {f : M → Call M}
    (h : ∀ m, f m ≠ .submitHeatbeat) (this : Fields M) :
    KeepsClock false ((it.arrange this.controllers.values).forM
      fun controller => Prog.invoke (f controller) : ServerM M Unit) := by
  rw [Prog.forM_invoke]
  apply keepsClock_callAll
  intro hmem
  obtain ⟨m, -, hm⟩ := List.mem_map.mp hmem
  exact h m hm

theorem keepsClock_start (it : IterationOrder M) :
    KeepsClock false (StandaloneMediaServer.start it) := by
  intro this
  show KeepsClock false (if this.started = true then _ else _)
  split
  · rfl
  · refine Or.inl ⟨fun this => ⟨rfl, rfl⟩, Or.inr ⟨fun this => ⟨rfl, rfl⟩, ?_⟩⟩
    refine ⟨by simp, by simp, by simp, by simp, ?_⟩
    exact keepsClock_forM it (f := .activate) nofun

theorem keepsClock_stop (it : IterationOrder M) :
    KeepsClock false (StandaloneMediaServer.stop it) := by
  intro this
  show KeepsClock false (if (!this.started) = true then _ else _)
  split
  · rfl
  · refine Or.inl ⟨fun this => ⟨rfl, rfl⟩, ?_⟩
    refine ⟨by simp, by simp, by simp, by simp, ?_⟩
    exact keepsClock_forM it (f := .deactivate) nofun

theorem keepsClock_body [DecidableEq M] [DecidableEq P] [ToString P]
    (method : Method M) : KeepsClock false method.body := by
  cases method with
  | springStart it => exact (keepsClock_start it).bind fun _ => rfl
  | springStop it =>
      exact (keepsClock_stop it).bind fun _ => ⟨by simp, rfl⟩
  | standalone op =>
      cases op with
      | start it => exact keepsClock_start it
      | stop it => exact keepsClock_stop it
      | addManager manager =>
          cases manager with
          | none => rfl
          | some m =>
              intro this
              show KeepsClock false (if this.controllers.containsKey
                (getControlProtocol m) = true then _ else _)
              split
              · rfl
              · exact Or.inl ⟨fun this => ⟨rfl, rfl⟩, rfl⟩
      | removeManager manager =>
          cases manager with
          | none => rfl
          | some m => exact Or.inl ⟨fun this => ⟨rfl, rfl⟩, rfl⟩

/-- A step of the control thread leaves the clock alone, or sets it and submits
the heartbeat. -/
theorem KeepsClock.advance {α : Type} {set : Bool} {p : ServerM M α}
    (h : KeepsClock set p) (this : Fields M)
    (hset : set = true → this.ttl = this.heartbeatTime * 600) :
    (p.advance this).1.heartbeatTime = this.heartbeatTime ∧
      ((∃ k, (p.advance this).2 = some (.submitHeatbeat, k)) ∧
          (p.advance this).1.ttl = this.heartbeatTime * 600 ∨
        set = false ∧ (∀ k, (p.advance this).2 ≠ some (.submitHeatbeat, k)) ∧
          (p.advance this).1.ttl = this.ttl) := by
  induction p generalizing set this with
  | ret a => exact ⟨rfl, Or.inr ⟨h, nofun, rfl⟩⟩
  | raise e => exact ⟨rfl, Or.inr ⟨h, nofun, rfl⟩⟩
  | read k ih => exact ih this (h this) this hset
  | write f k ih =>
      rcases h with ⟨hsame, hk⟩ | ⟨hsets, hk⟩
      · obtain ⟨httl, htime⟩ := hsame this
        have hrest := ih hk (f this) (by rw [httl, htime]; exact hset)
        rw [httl, htime] at hrest
        exact hrest
      · obtain ⟨htime, httl⟩ := hsets this
        obtain ⟨htime', hrest⟩ := ih hk (f this)
          (by rw [httl, htime]; exact fun _ => rfl)
        refine ⟨htime'.trans htime, Or.inl ?_⟩
        rcases hrest with ⟨hsubmit, httl'⟩ | ⟨hfalse, -, -⟩
        · exact ⟨hsubmit, httl'.trans (by rw [htime])⟩
        · exact absurd hfalse Bool.true_eq_false.mp
  | call c k ih =>
      cases set with
      | true =>
          obtain rfl := h.1.mpr rfl
          exact ⟨rfl, Or.inl ⟨⟨k, rfl⟩, hset rfl⟩⟩
      | false =>
          refine ⟨rfl, Or.inr ⟨rfl, fun k' hk' => ?_, rfl⟩⟩
          obtain rfl : c = .submitHeatbeat :=
            congrArg Prod.fst (Option.some.inj hk')
          exact Bool.false_ne_true (h.1.mp rfl)

/-- A whole step, from one call to the next. -/
theorem KeepsClock.step {α : Type} {p : ServerM M α} (h : KeepsClock false p)
    (this : Fields M) :
    (p.advance this).1.heartbeatTime = this.heartbeatTime ∧
      ((∃ k, (p.advance this).2 = some (.submitHeatbeat, k)) ∧
          (p.advance this).1.ttl = this.heartbeatTime * 600 ∨
        (∀ k, (p.advance this).2 ≠ some (.submitHeatbeat, k)) ∧
          (p.advance this).1.ttl = this.ttl) := by
  obtain ⟨htime, hset | ⟨-, hkept⟩⟩ := h.advance this (by simp)
  · exact ⟨htime, Or.inl hset⟩
  · exact ⟨htime, Or.inr hkept⟩

theorem KeepsClock.rest {α : Type} {set : Bool} {p k : ServerM M α}
    (h : KeepsClock set p) {this this' : Fields M} {c : Call M}
    (hadv : p.advance this = (this', some (c, k))) : KeepsClock false k := by
  induction p generalizing set this with
  | ret a => simp at hadv
  | raise e => simp at hadv
  | read l ih => exact ih this (h this) hadv
  | write f l ih =>
      rcases h with ⟨-, hl⟩ | ⟨-, hl⟩
      · exact ih hl hadv
      · exact ih hl hadv
  | call d l =>
      cases hadv
      exact h.2

/-! ## Where an execution stands -/

namespace HeartBeat

/-- What `perform()` does after the decrement. -/
def test : ServerM M ℤ := do
  let this ← Prog.fields
  if this.ttl = 0 then
    restart
  else
    Prog.invoke .submitHeatbeat
  return 0

/-- What is left of an execution that began at `begun` and that nobody
disturbs, with the time to live. -/
inductive Stage (begun : ℤ) : ServerM M ℤ → ℤ → Prop
  | toRead : Stage begun performSteps begun
  | toWrite :
      Stage begun (.write (fun that => { that with ttl := begun - 1 }) test)
        begun
  | toTest : Stage begun test (begun - 1)
  | toRestart (zero : begun - 1 = 0) :
      Stage begun (restart >>= fun _ => pure 0) 0
  | toSubmit : Stage begun (.call .submitHeatbeat (.ret 0)) (turned begun)

variable {begun ttl : ℤ} {p : ServerM M ℤ}

theorem Stage.unsubmitted (h : Stage begun p ttl) :
    unsubmitted (some p) = true := by
  cases h <;> rfl

/-- A step of an undisturbed execution leads to the next stage, until only the
submission is left. -/
theorem Stage.small [DecidableEq M] {w : Server M}
    (h : Stage begun p w.fields.ttl) (htime : w.fields.heartbeatTime = 1) :
    (∃ q ttl, Prog.small Call.effect (some p, w) =
        (some q, ⟨{ w.fields with ttl := ttl }, w.env⟩) ∧
        Stage begun q ttl) ∨
      p = .call .submitHeatbeat (.ret 0) ∧ w.fields.ttl = turned begun := by
  obtain ⟨⟨started, controllers, time, ttl⟩, e⟩ := w
  obtain rfl : time = 1 := htime
  replace h : Stage begun p ttl := h
  cases h with
  | toRead => exact Or.inl ⟨_, _, rfl, .toWrite⟩
  | toWrite => exact Or.inl ⟨_, _, rfl, .toTest⟩
  | toTest =>
      -- the branch `ttl == 0` of `perform()`
      by_cases hzero : begun - 1 = 0
      · refine Or.inl ⟨_, 0, ?_, .toRestart hzero⟩
        simp [Prog.small, test, Prog.fields, hzero]
      · refine Or.inl ⟨_, turned begun, ?_, .toSubmit⟩
        simp [Prog.small, test, Prog.fields, turned, hzero]
  | toRestart zero =>
      refine Or.inl ⟨_, turned begun, ?_, .toSubmit⟩
      simp [Prog.small, restart, Prog.modify, turned, zero]
  | toSubmit => exact Or.inr ⟨rfl, rfl⟩

theorem performSteps_ne_test :
    (performSteps : ServerM M ℤ) ≠ test := by
  intro heq
  have hrest := congrFun (Prog.read.inj heq)
    ⟨false, Controllers.empty, 0, 1⟩
  exact absurd hrest nofun

/-- At the test the time to live is one less than it was. -/
theorem Stage.ttl_of_test (h : Stage begun (test : ServerM M ℤ) ttl) :
    ttl = begun - 1 := by
  generalize hp : (test : ServerM M ℤ) = p at h
  cases h with
  | toRead => exact absurd hp.symm performSteps_ne_test
  | toWrite => exact absurd hp nofun
  | toTest => rfl
  | toRestart zero => exact absurd hp nofun
  | toSubmit => exact absurd hp nofun

end HeartBeat

/-! ## The count -/

namespace Pool

variable [DecidableEq M]

/-- The executions since `start` last set the clock, after one more step. -/
def counted (n : Option ℕ) (pool : Pool M) : PoolAction M → Option ℕ
  | .advance => if pool.nextCall = some .submitHeatbeat then some 0 else n
  | .small i => if (pool.small i).pending < pool.pending then n.map (· + 1) else n
  | _ => n

/-- The step keeps executions apart: an execution begins, and `start` submits
the heartbeat, only while no other execution has still to submit. The step in
which `start` submits is the one in which it sets the time to live. -/
def Apart (pool : Pool M) : PoolAction M → Prop
  | .takeOut => pool.takeOut.pending ≤ 1
  | .advance => pool.nextCall = some .submitHeatbeat → pool.pending = 0
  | _ => True

instance (pool : Pool M) (action : PoolAction M) :
    Decidable (pool.Apart action) :=
  match action with
  | .takeOut => inferInstanceAs (Decidable (_ ≤ _))
  | .advance => inferInstanceAs (Decidable (_ → _))
  | .invoke _ => .isTrue trivial
  | .throw => .isTrue trivial
  | .small _ => .isTrue trivial

/-- What the clock shows, or will show when the execution that has still to
submit has done so. -/
structure Counting (pool : Pool M) (n : Option ℕ) : Prop where
  heartbeatTime : pool.server.fields.heartbeatTime = 1
  control : ∀ p, pool.control = some p → KeepsClock false p
  one : pool.pending ≤ 1
  shown : pool.pending = 0 → pool.server.fields.ttl = clock n
  settles : ∀ p, some p ∈ pool.executions → unsubmitted (some p) = true →
    ∃ m, n = some m ∧
      HeartBeat.Stage (clock (some m)) p pool.server.fields.ttl
  fresh : n = none → pool.server.env.queued = 0

omit [DecidableEq M] in
/-- A thread that has ended does nothing to the clock. -/
theorem keepsClock_none :
    ∀ p : ServerM M Unit, none = some p → KeepsClock false p := by
  simp

omit [DecidableEq M] in
theorem unsubmitted_eq_false {pool : Pool M} (h : pool.pending = 0)
    {execution : Option (ServerM M ℤ)} (hmem : execution ∈ pool.executions) :
    unsubmitted execution = false := by
  have hnone := List.countP_eq_zero.mp h execution hmem
  simpa using hnone

omit [DecidableEq M] in
theorem exists_of_unsubmitted {execution : Option (ServerM M ℤ)}
    (h : unsubmitted execution = true) : ∃ p, execution = some p := by
  cases execution with
  | none => exact absurd h Bool.false_ne_true
  | some p => exact ⟨p, rfl⟩

/-- An execution that has submitted has nothing more to do. -/
theorem small_of_unsubmitted {execution : Option (ServerM M ℤ)}
    (h : unsubmitted execution = false) (w : Server M) :
    Prog.small Call.effect (execution, w) = (none, w) := by
  cases execution with
  | none => rfl
  | some p =>
      cases p with
      | ret a => rfl
      | _ => exact absurd h Bool.true_eq_false.mp

omit [DecidableEq M] in
/-- A step of the control thread that does not touch the clock. -/
theorem Counting.sameClock {pool : Pool M} {n : Option ℕ}
    (h : pool.Counting n) {control : Option (ServerM M Unit)}
    {server : Server M} (hcontrol : ∀ p, control = some p → KeepsClock false p)
    (hclock : SameClock pool.server.fields server.fields)
    (hqueued : pool.server.env.queued = 0 → server.env.queued = 0) :
    Counting { pool with control := control, server := server } n := by
  refine ⟨hclock.heartbeatTime.symm.trans h.heartbeatTime, hcontrol, h.one,
    fun hnone => hclock.ttl.symm.trans (h.shown hnone), fun p hp hpending => ?_,
    fun hn => hqueued (h.fresh hn)⟩
  have hsettles := h.settles p hp hpending
  rw [hclock.ttl] at hsettles
  exact hsettles

omit [DecidableEq M] in
/-- An execution begins on a clock that shows the count. -/
theorem Counting.begin {pool : Pool M} {n : Option ℕ} (h : pool.Counting n)
    (hnone : pool.pending = 0) (hqueued : 0 < pool.server.env.queued) :
    Counting { pool with
      server := ⟨pool.server.fields,
        { pool.server.env with queued := pool.server.env.queued - 1 }⟩
      executions := pool.executions ++ [some HeartBeat.performSteps] } n := by
  -- an entry is queued, so `start` has set the clock
  obtain ⟨m, hm⟩ : ∃ m, n = some m := by
    refine Option.ne_none_iff_exists'.mp fun hn => ?_
    have hempty := h.fresh hn
    omega
  have hcount : (pool.executions ++ [some HeartBeat.performSteps]).countP
      unsubmitted = 1 := by
    rw [List.countP_append, show pool.executions.countP unsubmitted = 0 from
      hnone]
    simp [submits_performSteps.unsubmitted]
  refine ⟨h.heartbeatTime, h.control, hcount.le, fun hzero => ?_,
    fun p hp hpending => ?_, fun hn => ?_⟩
  · exact absurd (hcount.symm.trans hzero) Nat.one_ne_zero
  · rcases List.mem_append.mp hp with hold | hnew
    · exact absurd hpending (by simp [unsubmitted_eq_false hnone hold])
    · obtain rfl : p = HeartBeat.performSteps := by simpa using hnew
      refine ⟨m, hm, ?_⟩
      have hshown : pool.server.fields.ttl = clock (some m) :=
        (h.shown hnone).trans (by rw [hm])
      rw [show pool.server.fields.ttl = clock (some m) from hshown]
      exact .toRead
  · rw [hm] at hn
    exact absurd hn nofun

omit [DecidableEq M] in
theorem Counting.takeOut {pool : Pool M} {n : Option ℕ} (h : pool.Counting n)
    (apart : pool.takeOut.pending ≤ 1) : pool.takeOut.Counting n := by
  unfold Pool.takeOut at *
  by_cases htake : (pool.server.env.mediaScheduler &&
      decide (0 < pool.server.env.queued)) = true
  · rw [if_pos htake] at apart ⊢
    cases hbeat : pool.server.env.heartbeat with
    | true =>
        rw [hbeat] at apart
        have hcount : (pool.executions ++
            [some HeartBeat.performSteps]).countP unsubmitted ≤ 1 := apart
        rw [List.countP_append, List.countP_singleton,
          if_pos submits_performSteps.unsubmitted] at hcount
        simp only [Bool.and_eq_true, decide_eq_true_eq] at htake
        exact h.begin (Nat.le_zero.mp (Nat.le_of_succ_le_succ hcount)) htake.2
    | false =>
        -- the entry of an inactive task is dropped
        refine h.sameClock h.control ⟨rfl, rfl⟩ fun hqueued => ?_
        show pool.server.env.queued - 1 = 0
        omega
  · rw [if_neg htake]
    exact h

omit [DecidableEq M] in
/-- A step of an execution that has submitted already, or has ended. -/
theorem Counting.ended {pool : Pool M} {n : Option ℕ} (h : pool.Counting n)
    {i : ℕ} {old : Option (ServerM M ℤ)}
    (hexecution : pool.executions[i]? = some old)
    (hold : unsubmitted old = false) :
    Counting { pool with executions := pool.executions.set i none } n ∧
      Pool.pending { pool with executions := pool.executions.set i none } =
        pool.pending := by
  have hcount := countP_set_add hexecution none
  rw [hold] at hcount
  have hsame : (pool.executions.set i none).countP unsubmitted =
      pool.pending := hcount
  refine ⟨⟨h.heartbeatTime, h.control, hsame.le.trans h.one,
    fun hnone => h.shown (hsame.symm.trans hnone), fun p hp hpending => ?_,
    h.fresh⟩, hsame⟩
  rcases List.mem_or_eq_of_mem_set hp with hmem | hnew
  · exact h.settles p hmem hpending
  · exact absurd hnew nofun

omit [DecidableEq M] in
/-- The one execution that has still to submit goes on to its next stage. -/
theorem Counting.move {pool : Pool M} {m i : ℕ}
    (h : pool.Counting (some m)) {p q : ServerM M ℤ} {ttl : ℤ}
    (hexecution : pool.executions[i]? = some (some p))
    (hpending : unsubmitted (some p) = true)
    (hstage : HeartBeat.Stage (clock (some m)) q ttl) :
    let moved : Pool M := { pool with
      server := ⟨{ pool.server.fields with ttl := ttl }, pool.server.env⟩
      executions := pool.executions.set i (some q) }
    moved.Counting (some m) ∧ moved.pending = pool.pending := by
  intro moved
  have hcount := countP_set_add hexecution (some q)
  rw [hpending, hstage.unsubmitted] at hcount
  have hsame : moved.pending = pool.pending := Nat.add_right_cancel hcount
  refine ⟨⟨h.heartbeatTime, h.control, hsame.le.trans h.one, fun hnone => ?_,
    fun p' hp' hpending' => ?_, nofun⟩, hsame⟩
  · have hzero := unsubmitted_eq_false (hsame.symm.trans hnone)
      (List.mem_of_getElem? hexecution)
    exact absurd (hpending.symm.trans hzero) Bool.true_eq_false.mp
  · obtain rfl : p' = q := Option.some.inj
      (eq_of_mem_set hexecution hpending h.one hp' hpending')
    exact ⟨m, rfl, hstage⟩

/-- It submits its successor, and has counted. -/
theorem Counting.submit {pool : Pool M} {m i : ℕ} (h : pool.Counting (some m))
    (hexecution : pool.executions[i]? =
      some (some (.call .submitHeatbeat (.ret 0))))
    (httl : pool.server.fields.ttl = turned (clock (some m))) :
    let settled : Pool M := { pool with
      server := ⟨pool.server.fields,
        Call.submitHeatbeat.effect pool.server.env⟩
      executions := pool.executions.set i (some (.ret 0)) }
    settled.Counting (some (m + 1)) ∧ settled.pending < pool.pending := by
  intro settled
  have hcount := countP_set_add hexecution (some (.ret 0))
  have hless : settled.pending + 1 = pool.pending := hcount
  have hone := h.one
  refine ⟨⟨h.heartbeatTime, h.control, by omega, fun _ => ?_,
    fun p' hp' hpending' => ?_, nofun⟩, by omega⟩
  · exact httl.trans (turned_clock m)
  · have hnone : settled.pending = 0 := by omega
    have hzero := unsubmitted_eq_false hnone hp'
    exact absurd (hpending'.symm.trans hzero) Bool.true_eq_false.mp

theorem Counting.small {pool : Pool M} {n : Option ℕ} (h : pool.Counting n)
    (i : ℕ) : (pool.small i).Counting (pool.counted n (.small i)) := by
  show (pool.small i).Counting
    (if (pool.small i).pending < pool.pending then n.map (· + 1) else n)
  cases hexecution : pool.executions[i]? with
  | none =>
      rw [small_of_none hexecution, if_neg (Nat.lt_irrefl _)]
      exact h
  | some execution =>
      rw [small_of_some hexecution]
      cases hpending : unsubmitted execution with
      | false =>
          obtain ⟨hcounting, hsame⟩ := h.ended hexecution hpending
          have hended : Prog.small Call.effect (execution, pool.server) =
              (none, pool.server) := small_of_unsubmitted hpending pool.server
          rw [hended, if_neg hsame.not_lt]
          exact hcounting
      | true =>
          obtain ⟨p, rfl⟩ := exists_of_unsubmitted hpending
          obtain ⟨m, rfl, hstage⟩ :=
            h.settles p (List.mem_of_getElem? hexecution) hpending
          -- it comes to its next stage, or submits, and only that counts
          rcases hstage.small h.heartbeatTime with
            ⟨q, ttl, hstep, hstage'⟩ | ⟨rfl, httl⟩
          · obtain ⟨hcounting, hsame⟩ := h.move hexecution hpending hstage'
            rw [hstep, if_neg hsame.not_lt]
            exact hcounting
          · obtain ⟨hcounting, hless⟩ := h.submit hexecution httl
            exact (if_pos hless).symm ▸ hcounting

variable [DecidableEq P] [ToString P] {mayThrow : Call M → Bool}

/-- The control thread counts nothing; where it sets the clock, the count
begins anew. -/
theorem Counting.advance {pool : Pool M} {n : Option ℕ} (h : pool.Counting n)
    (apart : pool.Apart .advance) :
    (pool.next mayThrow .advance).Counting (pool.counted n .advance) := by
  have hcontrol := Prog.step_control Call.effect
    (fun p this this' c k hp hadv => KeepsClock.rest hp hadv)
    (s := (pool.control, pool.server)) h.control
  show Counting { pool with
    control := (Prog.step Call.effect (pool.control, pool.server)).1
    server := (Prog.step Call.effect (pool.control, pool.server)).2 }
      (if pool.nextCall = some .submitHeatbeat then some 0 else n)
  cases hp : pool.control with
  | none =>
      have hcall : pool.nextCall = none := by simp [Pool.nextCall, Threads.nextCall, hp]
      rw [hcall, if_neg (by simp)]
      exact h.sameClock keepsClock_none ⟨rfl, rfl⟩ id
  | some p =>
      rw [hp] at hcontrol
      rcases hadv : p.advance pool.server.fields with ⟨this, call⟩
      have hclock := (h.control p hp).step pool.server.fields
      rw [hadv] at hclock
      obtain ⟨htime, hclock⟩ := hclock
      cases call with
      | none =>
          have hcall : pool.nextCall = none := by
            simp [Pool.nextCall, Threads.nextCall, hp, hadv]
          rw [hcall, if_neg (by simp)]
          rcases hclock with ⟨⟨k, hk⟩, -⟩ | ⟨-, httl⟩
          · simp at hk
          · simp only [Prog.step, hadv]
            exact h.sameClock keepsClock_none ⟨httl.symm, htime.symm⟩ id
      | some call =>
          obtain ⟨c, k⟩ := call
          have hcall : pool.nextCall = some c := by
            simp [Pool.nextCall, Threads.nextCall, hp, hadv]
          simp only [Prog.step, hadv] at hcontrol ⊢
          rcases hclock with ⟨⟨k', hk⟩, httl⟩ | ⟨hother, httl⟩
          · obtain rfl : c = .submitHeatbeat :=
              congrArg Prod.fst (Option.some.inj hk)
            -- `start` has set the clock on the way, and no execution is at it
            have hnone : pool.pending = 0 := apart hcall
            rw [hcall, if_pos rfl]
            refine ⟨htime.trans h.heartbeatTime, hcontrol, h.one, fun _ => ?_,
              fun q hq hpending => ?_, by simp⟩
            · show this.ttl = clock (some 0)
              rw [httl, h.heartbeatTime]
              rfl
            · have hzero := unsubmitted_eq_false hnone hq
              exact absurd (hpending.symm.trans hzero) Bool.true_eq_false.mp
          · have hne : c ≠ .submitHeatbeat := by
              rintro rfl
              exact hother k rfl
            rw [hcall, if_neg fun hc => hne (Option.some.inj hc)]
            refine h.sameClock hcontrol ⟨httl.symm, htime.symm⟩ fun hqueued => ?_
            cases c with
            | submitHeatbeat => exact absurd rfl hne
            | mediaSchedulerStop => rfl
            | _ => exact hqueued

/-- A throw away from the submission leaves the clock alone. -/
theorem Counting.throw {pool : Pool M} {n : Option ℕ} (h : pool.Counting n)
    (hsubmit : mayThrow .submitHeatbeat = false) :
    (pool.next mayThrow .throw).Counting n := by
  show Counting { pool with
    control := (Prog.throwStep mayThrow (pool.control, pool.server)).1
    server := (Prog.throwStep mayThrow (pool.control, pool.server)).2 } n
  cases hp : pool.control with
  | none => exact h.sameClock keepsClock_none ⟨rfl, rfl⟩ id
  | some p =>
      have hkeep := h.control
      rw [hp] at hkeep
      rcases hadv : p.advance pool.server.fields with ⟨this, _ | ⟨c, k⟩⟩
      · simp only [Prog.throwStep, hadv]
        exact h.sameClock hkeep ⟨rfl, rfl⟩ id
      · simp only [Prog.throwStep, hadv]
        by_cases hc : mayThrow c = true
        · rw [if_pos hc]
          have hclock := (h.control p hp).step pool.server.fields
          rw [hadv] at hclock
          obtain ⟨htime, ⟨⟨k', hk⟩, -⟩ | ⟨-, httl⟩⟩ := hclock
          · obtain rfl : c = .submitHeatbeat :=
              congrArg Prod.fst (Option.some.inj hk)
            exact absurd (hc.symm.trans hsubmit) Bool.true_eq_false.mp
          · exact h.sameClock keepsClock_none ⟨httl.symm, htime.symm⟩ id
        · rw [if_neg hc]
          exact h.sameClock hkeep ⟨rfl, rfl⟩ id

theorem Counting.invoke {pool : Pool M} {n : Option ℕ} (h : pool.Counting n)
    (method : Method M) : (pool.next mayThrow (.invoke method)).Counting n := by
  have hcontrol := (threads mayThrow).next_control
    (s := (pool.control, pool.server)) keepsClock_body
    (fun p this this' c k hp hadv => KeepsClock.rest hp hadv) h.control
    (.invoke method)
  exact h.sameClock hcontrol ⟨rfl, rfl⟩ id

theorem Counting.next {pool : Pool M} {n : Option ℕ} (h : pool.Counting n)
    (hsubmit : mayThrow .submitHeatbeat = false)
    {action : PoolAction M} (apart : pool.Apart action) :
    (pool.next mayThrow action).Counting (pool.counted n action) := by
  cases action with
  | invoke method => exact h.invoke method
  | advance => exact h.advance apart
  | throw => exact h.throw hsubmit
  | takeOut => exact h.takeOut apart
  | small i => exact h.small i

/-- The executions that have submitted their successor since `start` last set
the clock, in a run. -/
def executed (mayThrow : Call M → Bool) (controller : Option M)
    (actions : List (PoolAction M)) : Option ℕ :=
  history (Pool.next mayThrow) (fun n pool => counted n pool)
    (new controller) none actions

theorem counting_new (controller : Option M) :
    (new controller).Counting none := by
  refine ⟨?_, nofun, Nat.zero_le 1, fun _ => ?_,
    fun p hp => absurd hp List.not_mem_nil, fun _ => ?_⟩
  · show (Server.new controller).fields.heartbeatTime = 1
    rw [Server.new_eq]
  · show (Server.new controller).fields.ttl = 0
    rw [Server.new_eq]
  · show (Server.new controller).env.queued = 0
    rw [Server.new_eq]
    rfl

theorem counting_run {controller : Option M}
    (hsubmit : mayThrow .submitHeatbeat = false) {actions : List (PoolAction M)}
    (apart : Always (fun pre => Apart (run mayThrow controller pre)) actions) :
    (run mayThrow controller actions).Counting
      (executed mayThrow controller actions) := by
  refine Always.invariant
    (I := fun pre => (run mayThrow controller pre).Counting
      (executed mayThrow controller pre))
    (G := fun pre => Apart (run mayThrow controller pre))
    (counting_new controller) ?_ apart
  intro pre action hcounting hapart
  rw [run_concat, executed, history_concat]
  exact hcounting.next hsubmit hapart

omit [DecidableEq M] [DecidableEq P] [ToString P] in
/-- The execution is about to find the time to live used up, and to report. -/
def Reports (pool : Pool M) (i : ℕ) : Prop :=
  pool.executions[i]? = some (some HeartBeat.test) ∧
    pool.server.fields.ttl = 0

/-- **The countdown is exact.** In every run in which executions stay apart
from each other and from the submission of `start`, and whichever calls of the
methods but that submission throw: the time to live between executions is 600
less the number of executions since `start`, modulo 600, and an execution at
its test reports exactly if it is a 600th one. -/
theorem ttl_run {controller : Option M}
    (hsubmit : mayThrow .submitHeatbeat = false) {actions : List (PoolAction M)}
    (apart : Always (fun pre => Apart (run mayThrow controller pre)) actions) :
    let pool := run mayThrow controller actions
    let n := executed mayThrow controller actions
    (pool.pending = 0 → pool.server.fields.ttl = clock n) ∧
      ∀ i, pool.executions[i]? = some (some HeartBeat.test) →
        (pool.Reports i ↔ ∃ m, n = some m ∧ 600 ∣ m + 1) := by
  intro pool n
  have hcounting : pool.Counting n := counting_run hsubmit apart
  refine ⟨hcounting.shown, fun i hi => ?_⟩
  obtain ⟨m, hm, hstage⟩ :=
    hcounting.settles _ (List.mem_of_getElem? hi) rfl
  have httl := hstage.ttl_of_test
  have hzero : pool.server.fields.ttl = 0 ↔ 600 ∣ m + 1 := by
    rw [← clock_eq_one_iff, httl]
    omega
  constructor
  · rintro ⟨-, hused⟩
    exact ⟨m, hm, hzero.mp hused⟩
  · rintro ⟨m', hm', hdvd⟩
    rw [hm, Option.some.injEq] at hm'
    exact ⟨hi, hzero.mpr (hm' ▸ hdvd)⟩

/-- One execution, in primitive steps between those of `start`. -/
theorem ttl_run_once :
    let actions : List (PoolAction PlainManager) :=
      [.invoke (.standalone (.start (.listed _))), .advance, .advance,
        .takeOut, .small 0, .small 0, .advance, .small 0, .small 0]
    let pool := run (fun _ => false) none actions
    let n := executed (fun _ => false) none actions
    (pool.pending = 0 → pool.server.fields.ttl = clock n) ∧
      ∀ i, pool.executions[i]? = some (some HeartBeat.test) →
        (pool.Reports i ↔ ∃ m, n = some m ∧ 600 ∣ m + 1) :=
  ttl_run rfl (always_iff_forall_lt.mpr (by decide))

end Pool

end MediaServer
