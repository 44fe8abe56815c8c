import Mathlib.Order.Filter.AtTopBot.Basic
import MediaServer.Bootstrap.Countdown
import MediaServer.Bootstrap.Invisibility
import MediaServer.Foundation.Fairness

/-!
# The heartbeat keeps reporting

An infinite run of a server that is left up: its executions, in primitive
steps, stay apart, entries are taken out and executions go on. Then the
countdown comes to its end again and again, and each time an execution
reports. The executions have to stay apart: two that overlap may count from
one past zero, and no execution reports after that.
-/

namespace MediaServer

open Foundation Filter

variable {M P : Type} [ServerManager M P]

theorem HeartBeat.submits_test : Submits (HeartBeat.test : ServerM M ℤ) :=
  (submits_performSteps ⟨false, .empty, 0, 1⟩).2

namespace Pool

/-! ## One step of a pool -/

/-- Where at most one execution has still to submit, no other one has. -/
theorem unsubmitted_of_ne {executions : List (Option (ServerM M ℤ))} {i j : ℕ}
    {execution other : Option (ServerM M ℤ)}
    (hone : executions.countP unsubmitted ≤ 1)
    (hi : executions[i]? = some execution)
    (hpending : unsubmitted execution = true) (hij : i ≠ j)
    (hj : executions[j]? = some other) : unsubmitted other = false := by
  have hcount := countP_set_add hi none
  have hnone : (executions.set i none).countP unsubmitted = 0 := by
    rw [hpending] at hcount
    have hsum : (executions.set i none).countP unsubmitted + 1 =
        executions.countP unsubmitted + 0 := hcount
    omega
  have hmem : other ∈ executions.set i none := by
    refine List.mem_of_getElem? (i := j) ?_
    rw [List.getElem?_set_ne hij, hj]
  simpa using List.countP_eq_zero.mp hnone other hmem

variable [DecidableEq M]

/-- The step of an execution that has submitted changes no count. -/
theorem pending_small_of_unsubmitted {pool : Pool M} {i : ℕ}
    {execution : Option (ServerM M ℤ)}
    (h : pool.executions[i]? = some execution)
    (hended : unsubmitted execution = false) :
    (pool.small i).pending = pool.pending := by
  rw [small_of_some h, small_of_unsubmitted hended]
  have hcount := countP_set_add h none
  rw [hended] at hcount
  exact hcount

/-- A step of an execution is a step of its program. -/
theorem small_program {pool : Pool M} {i : ℕ} {p q : ServerM M ℤ}
    {server : Server M} (h : pool.executions[i]? = some (some p))
    (hstep : Prog.small Call.effect (some p, pool.server) = (some q, server)) :
    (pool.small i).executions[i]? = some (some q) ∧
      (pool.small i).pending + (unsubmitted (some p)).toNat =
        pool.pending + (unsubmitted (some q)).toNat := by
  rw [small_of_some h, hstep]
  obtain ⟨hi, -⟩ := List.getElem?_eq_some_iff.mp h
  exact ⟨List.getElem?_set_self hi, countP_set_add h (some q)⟩

variable [DecidableEq P] [ToString P]

/-- An execution stands still while the others go on. -/
theorem executions_next {mayThrow : Call M → Bool} {pool : Pool M}
    {action : PoolAction M} {i : ℕ} {execution : Option (ServerM M ℤ)}
    (h : pool.executions[i]? = some execution) (hne : action ≠ .small i) :
    (pool.next mayThrow action).executions[i]? = some execution := by
  cases action with
  | invoke method => exact h
  | advance => exact h
  | throw => exact h
  | takeOut =>
      show pool.takeOut.executions[i]? = _
      unfold Pool.takeOut
      split
      · obtain ⟨hi, -⟩ := List.getElem?_eq_some_iff.mp h
        dsimp only
        split
        · rw [List.getElem?_append_left hi, h]
        · exact h
      · exact h
  | small j =>
      show (pool.small j).executions[i]? = _
      have hij : j ≠ i := by
        rintro rfl
        exact hne rfl
      cases hj : pool.executions[j]? with
      | none =>
          rw [small_of_none hj]
          exact h
      | some other =>
          rw [small_of_some hj]
          exact (List.getElem?_set_ne hij).trans h

/-- A started scheduler has an active heartbeat with a beat to come. -/
theorem alive_run {mayThrow : Call M → Bool} {controller : Option M}
    {actions : List (PoolAction M)}
    (hup : (run mayThrow controller actions).server.env.mediaScheduler = true) :
    (run mayThrow controller actions).server.env.heartbeat = true ∧
      0 < (run mayThrow controller actions).server.env.queued +
        (run mayThrow controller actions).pending := by
  obtain ⟨actions', ⟨hshows, -⟩, -⟩ :=
    exists_shows_and_tame mayThrow controller actions
  have hstacked := stacked_interleaved mayThrow controller actions'
  rw [hshows.env] at hstacked
  exact hstacked.mediaScheduler hup

/-! ## Infinite runs -/

section Infinite

variable (mayThrow : Call M → Bool) (controller : Option M)
  (acts : ℕ → PoolAction M)

/-- The state of an infinite run of a new server after its first actions. -/
def reached (n : ℕ) : Pool M := run mayThrow controller (firstActions acts n)

theorem reached_succ (n : ℕ) :
    reached mayThrow controller acts (n + 1) =
      (reached mayThrow controller acts n).next mayThrow (acts n) := by
  unfold reached
  rw [firstActions_succ, run_concat]

/-- The executions counted so far. -/
def executedBy (n : ℕ) : Option ℕ :=
  executed mayThrow controller (firstActions acts n)

theorem executedBy_succ (n : ℕ) :
    executedBy mayThrow controller acts (n + 1) =
      counted (executedBy mayThrow controller acts n)
        (reached mayThrow controller acts n) (acts n) := by
  unfold executedBy executed
  rw [firstActions_succ, history_concat]
  rfl

/-- Executions stay apart, and from some time on the media scheduler stays up
and no `start` submits the heartbeat. -/
structure LeftUp (N : ℕ) : Prop where
  apart : ∀ n, (reached mayThrow controller acts n).Apart (acts n)
  up : ∀ n, N ≤ n →
    (reached mayThrow controller acts n).server.env.mediaScheduler = true
  unstarted : ∀ n, N ≤ n → acts n = .advance →
    (reached mayThrow controller acts n).nextCall ≠ some .submitHeatbeat

/-- An entry is taken out while no execution is under way, and an execution
that has still to submit goes on. -/
structure Fair : Prop where
  takes : ∀ n, (reached mayThrow controller acts n).pending = 0 →
    0 < (reached mayThrow controller acts n).server.env.queued →
    ∃ m, n ≤ m ∧ acts m = .takeOut
  goesOn : ∀ n i p,
    (reached mayThrow controller acts n).executions[i]? = some (some p) →
    unsubmitted (some p) = true → ∃ m, n ≤ m ∧ acts m = .small i

end Infinite

section Live

variable {mayThrow : Call M → Bool} {controller : Option M}
  {acts : ℕ → PoolAction M} {N n : ℕ}

theorem LeftUp.counting (h : LeftUp mayThrow controller acts N)
    (hsubmit : mayThrow .submitHeatbeat = false) (n : ℕ) :
    (reached mayThrow controller acts n).Counting
      (executedBy mayThrow controller acts n) :=
  counting_run hsubmit (always_firstActions h.apart n)

/-- Nothing but the submission of an execution is counted. -/
theorem LeftUp.executedBy_succ_of_pending
    (h : LeftUp mayThrow controller acts N) (hn : N ≤ n)
    (hsmall : ∀ i, acts n = .small i →
      ¬ ((reached mayThrow controller acts n).small i).pending <
        (reached mayThrow controller acts n).pending) :
    executedBy mayThrow controller acts (n + 1) =
      executedBy mayThrow controller acts n := by
  rw [executedBy_succ]
  cases hact : acts n with
  | advance => exact if_neg (h.unstarted n hn hact)
  | small i => exact if_neg (hsmall i hact)
  | _ => rfl

/-- After the first `start`, between executions, an entry waits. -/
theorem LeftUp.exists_executed (h : LeftUp mayThrow controller acts N)
    (hsubmit : mayThrow .submitHeatbeat = false) (hn : N ≤ n)
    (hnone : (reached mayThrow controller acts n).pending = 0) :
    0 < (reached mayThrow controller acts n).server.env.queued ∧
      ∃ c, executedBy mayThrow controller acts n = some c := by
  -- what is alive and not under way is queued
  have halive : 0 < (reached mayThrow controller acts n).server.env.queued +
      (reached mayThrow controller acts n).pending :=
    (alive_run (h.up n hn)).2
  have hqueued : 0 < (reached mayThrow controller acts n).server.env.queued := by
    omega
  refine ⟨hqueued, Option.ne_none_iff_exists'.mp fun hfresh => ?_⟩
  have hempty := (h.counting hsubmit n).fresh hfresh
  omega

/-! ### Between executions -/

/-- No execution is under way, and so many have been counted. -/
structure Between (mayThrow : Call M → Bool) (controller : Option M)
    (acts : ℕ → PoolAction M) (c n : ℕ) : Prop where
  pending : (reached mayThrow controller acts n).pending = 0
  executed : executedBy mayThrow controller acts n = some c

theorem LeftUp.between_succ (h : LeftUp mayThrow controller acts N)
    (hn : N ≤ n) {c : ℕ} (hbetween : Between mayThrow controller acts c n)
    (hact : acts n ≠ .takeOut) :
    Between mayThrow controller acts c (n + 1) := by
  have hsmall : ∀ i, ((reached mayThrow controller acts n).small i).pending =
      (reached mayThrow controller acts n).pending := by
    intro i
    cases hi : (reached mayThrow controller acts n).executions[i]? with
    | none => rw [small_of_none hi]
    | some execution =>
        exact pending_small_of_unsubmitted hi
          (unsubmitted_eq_false hbetween.pending (List.mem_of_getElem? hi))
  constructor
  · rw [reached_succ]
    cases hcase : acts n with
    | takeOut => exact absurd hcase hact
    | small i => exact (hsmall i).trans hbetween.pending
    | _ => exact hbetween.pending
  · rw [h.executedBy_succ_of_pending hn fun i _ => (hsmall i).not_lt]
    exact hbetween.executed

/-! ### Within an execution -/

/-- An execution that has still to submit, with what is left of it. -/
structure Standing (mayThrow : Call M → Bool) (controller : Option M)
    (acts : ℕ → PoolAction M) (c i : ℕ) (p : ServerM M ℤ) (n : ℕ) : Prop where
  execution :
    (reached mayThrow controller acts n).executions[i]? = some (some p)
  pending : unsubmitted (some p) = true
  executed : executedBy mayThrow controller acts n = some c

variable {c i : ℕ} {p q : ServerM M ℤ}

/-- It stands where it stands until it goes on itself. -/
theorem Standing.succ_of_ne (h : Standing mayThrow controller acts c i p n)
    (left : LeftUp mayThrow controller acts N)
    (hsubmit : mayThrow .submitHeatbeat = false) (hn : N ≤ n)
    (hact : acts n ≠ .small i) :
    Standing mayThrow controller acts c i p (n + 1) := by
  refine ⟨?_, h.pending, ?_⟩
  · rw [reached_succ]
    exact executions_next h.execution hact
  · rw [left.executedBy_succ_of_pending hn fun j hj => ?_]
    · exact h.executed
    · have hij : i ≠ j := by
        rintro rfl
        exact hact hj
      cases hother : (reached mayThrow controller acts n).executions[j]? with
      | none =>
          rw [small_of_none hother]
          exact Nat.lt_irrefl _
      | some other =>
          have hended := unsubmitted_of_ne (left.counting hsubmit n).one
            h.execution h.pending hij hother
          exact (pending_small_of_unsubmitted hother hended).not_lt

theorem Standing.exists_small (h : Standing mayThrow controller acts c i p n)
    (left : LeftUp mayThrow controller acts N)
    (fair : Fair mayThrow controller acts)
    (hsubmit : mayThrow .submitHeatbeat = false) (hn : N ≤ n) :
    ∃ m, n ≤ m ∧ Standing mayThrow controller acts c i p m ∧
      acts m = .small i :=
  exists_of_next (fair.goesOn n i p h.execution h.pending)
    (fun _ hm hP hact => hP.succ_of_ne left hsubmit (hn.trans hm) hact) h

/-- Its own step, short of the submission. -/
theorem Standing.succ_small (h : Standing mayThrow controller acts c i p n)
    (left : LeftUp mayThrow controller acts N) (hn : N ≤ n)
    (hact : acts n = .small i) {server : Server M}
    (hstep : Prog.small Call.effect
      (some p, (reached mayThrow controller acts n).server) =
        (some q, server))
    (hq : unsubmitted (some q) = true) :
    Standing mayThrow controller acts c i q (n + 1) := by
  obtain ⟨hexecution, hpending⟩ := small_program h.execution hstep
  rw [h.pending, hq] at hpending
  refine ⟨?_, hq, ?_⟩
  · rw [reached_succ, hact]
    exact hexecution
  · rw [left.executedBy_succ_of_pending hn fun j hj => ?_]
    · exact h.executed
    · obtain rfl : i = j := PoolAction.small.inj (hact.symm.trans hj)
      exact (Nat.add_right_cancel hpending).not_lt

/-- It goes on by a step that does not depend on what the others do. -/
theorem Standing.exists_next (h : Standing mayThrow controller acts c i p n)
    (left : LeftUp mayThrow controller acts N)
    (fair : Fair mayThrow controller acts)
    (hsubmit : mayThrow .submitHeatbeat = false) (hn : N ≤ n)
    {Q : ServerM M ℤ → Prop}
    (step : ∀ w, ∃ q w', Prog.small Call.effect (some p, w) = (some q, w') ∧
      unsubmitted (some q) = true ∧ Q q) :
    ∃ m q, n ≤ m ∧ Standing mayThrow controller acts c i q m ∧ Q q := by
  obtain ⟨m, hm, hstanding, hact⟩ := h.exists_small left fair hsubmit hn
  obtain ⟨q, w', hstep, hq, hQ⟩ :=
    step (reached mayThrow controller acts m).server
  exact ⟨m + 1, q, hm.trans (Nat.le_succ m),
    hstanding.succ_small left (hn.trans hm) hact hstep hq, hQ⟩

/-- An execution that begins comes to its test. -/
theorem Standing.exists_test
    (h : Standing mayThrow controller acts c i HeartBeat.performSteps n)
    (left : LeftUp mayThrow controller acts N)
    (fair : Fair mayThrow controller acts)
    (hsubmit : mayThrow .submitHeatbeat = false) (hn : N ≤ n) :
    ∃ m, n ≤ m ∧ Standing mayThrow controller acts c i HeartBeat.test m ∧
      acts m = .small i := by
  obtain ⟨k, _, hk, hwrite, f, rfl⟩ := h.exists_next left fair hsubmit hn
    (Q := fun q => ∃ f, q = .write f HeartBeat.test)
    (fun w => ⟨_, _, rfl, rfl, _, rfl⟩)
  obtain ⟨l, _, hl, htest, rfl⟩ :=
    hwrite.exists_next left fair hsubmit (hn.trans hk)
      (Q := fun q => q = HeartBeat.test) (fun w => ⟨_, _, rfl, rfl, rfl⟩)
  obtain ⟨m, hm, hstanding, hact⟩ :=
    htest.exists_small left fair hsubmit (hn.trans (hk.trans hl))
  exact ⟨m, hk.trans (hl.trans hm), hstanding, hact⟩

/-- Its submission ends it, and is counted. -/
theorem Standing.between_succ {a : ℤ}
    (h : Standing mayThrow controller acts c i
      (.call .submitHeatbeat (.ret a)) n)
    (left : LeftUp mayThrow controller acts N)
    (hsubmit : mayThrow .submitHeatbeat = false) (hact : acts n = .small i) :
    Between mayThrow controller acts (c + 1) (n + 1) := by
  obtain ⟨-, hpending⟩ := small_program h.execution rfl
  have hless : ((reached mayThrow controller acts n).small i).pending + 1 =
      (reached mayThrow controller acts n).pending := hpending
  have hone := (left.counting hsubmit n).one
  constructor
  · rw [reached_succ, hact]
    show ((reached mayThrow controller acts n).small i).pending = 0
    omega
  · rw [executedBy_succ, hact, h.executed]
    exact if_pos (by omega)

/-- An execution goes on until it has submitted. -/
theorem Standing.exists_between (h : Standing mayThrow controller acts c i p n)
    (left : LeftUp mayThrow controller acts N)
    (fair : Fair mayThrow controller acts)
    (hsubmit : mayThrow .submitHeatbeat = false) (hn : N ≤ n)
    (hp : Submits p) :
    ∃ m, n ≤ m ∧ Between mayThrow controller acts (c + 1) m := by
  -- the induction is on what is left of the execution
  induction p generalizing n with
  | ret a => exact hp.elim
  | raise e => exact hp.elim
  | read k ih =>
      obtain ⟨l, _, hl, hrest, this, rfl⟩ := h.exists_next left fair hsubmit hn
        (Q := fun q => ∃ this, q = k this)
        (fun w => ⟨_, _, rfl, (hp w.fields).unsubmitted, _, rfl⟩)
      obtain ⟨m, hm, hbetween⟩ := ih this hrest (hn.trans hl) (hp this)
      exact ⟨m, hl.trans hm, hbetween⟩
  | write f k ih =>
      obtain ⟨l, _, hl, hrest, rfl⟩ := h.exists_next left fair hsubmit hn
        (Q := fun q => q = k) (fun w => ⟨_, _, rfl, hp.2.unsubmitted, rfl⟩)
      obtain ⟨m, hm, hbetween⟩ := ih hrest (hn.trans hl) hp.2
      exact ⟨m, hl.trans hm, hbetween⟩
  | call d k =>
      obtain ⟨rfl, a, rfl⟩ := hp
      obtain ⟨m, hm, hstanding, hact⟩ := h.exists_small left fair hsubmit hn
      exact ⟨m + 1, hm.trans (Nat.le_succ m),
        hstanding.between_succ left hsubmit hact⟩

/-! ### From one report to the next -/

/-- Between executions the next one begins. -/
theorem Between.exists_standing (h : Between mayThrow controller acts c n)
    (left : LeftUp mayThrow controller acts N)
    (fair : Fair mayThrow controller acts)
    (hsubmit : mayThrow .submitHeatbeat = false) (hn : N ≤ n) :
    ∃ m i, n ≤ m ∧
      Standing mayThrow controller acts c i HeartBeat.performSteps m := by
  obtain ⟨hqueued, -⟩ := left.exists_executed hsubmit hn h.pending
  obtain ⟨m, hm, hbetween, hact⟩ := exists_of_next (fair.takes n h.pending hqueued)
    (fun _ hm hP => left.between_succ (hn.trans hm) hP) h
  have hup := left.up m (hn.trans hm)
  have hbeat : (reached mayThrow controller acts m).server.env.heartbeat =
    true := (alive_run hup).1
  obtain ⟨hqueued, -⟩ :=
    left.exists_executed hsubmit (hn.trans hm) hbetween.pending
  refine ⟨m + 1, (reached mayThrow controller acts m).executions.length,
    hm.trans (Nat.le_succ m), ⟨?_, submits_performSteps.unsubmitted, ?_⟩⟩
  · rw [reached_succ, hact]
    show (Pool.takeOut _).executions[_]? = _
    simp [Pool.takeOut, hup, hqueued, hbeat]
  · rw [executedBy_succ, hact]
    exact hbetween.executed

/-- After any time there is one at which no execution is under way. -/
theorem LeftUp.exists_between (left : LeftUp mayThrow controller acts N)
    (fair : Fair mayThrow controller acts)
    (hsubmit : mayThrow .submitHeatbeat = false) (hn : N ≤ n) :
    ∃ m c, n ≤ m ∧ Between mayThrow controller acts c m := by
  cases hpending : (reached mayThrow controller acts n).pending with
  | zero =>
      obtain ⟨-, c, hc⟩ := left.exists_executed hsubmit hn hpending
      exact ⟨n, c, Nat.le_refl n, hpending, hc⟩
  | succ k =>
      have hpos : 0 < (reached mayThrow controller acts n).pending := by omega
      obtain ⟨execution, hmem, hunsubmitted⟩ := List.countP_pos_iff.mp hpos
      obtain ⟨p, rfl⟩ := exists_of_unsubmitted hunsubmitted
      obtain ⟨i, hi⟩ := List.mem_iff_getElem?.mp hmem
      obtain ⟨c, hc, -⟩ :=
        (left.counting hsubmit n).settles p hmem hunsubmitted
      have hstanding : Standing mayThrow controller acts c i p n :=
        ⟨hi, hunsubmitted, hc⟩
      obtain ⟨_, ⟨-, htame⟩, -⟩ :=
        exists_shows_and_tame mayThrow controller (firstActions acts n)
      rcases htame.executions p hmem with hsubmits | ⟨a, rfl⟩
      · obtain ⟨m, hm, hbetween⟩ :=
          hstanding.exists_between left fair hsubmit hn hsubmits
        exact ⟨m, c + 1, hm, hbetween⟩
      · exact absurd hunsubmitted Bool.false_ne_true

/-- From between two executions the next one leads to a report, or to between
two executions with the clock closer to its end. -/
theorem Between.exists_report_or_next
    (h : Between mayThrow controller acts c n)
    (left : LeftUp mayThrow controller acts N)
    (fair : Fair mayThrow controller acts)
    (hsubmit : mayThrow .submitHeatbeat = false) (hn : N ≤ n) :
    ∃ m, n ≤ m ∧
      ((∃ i, acts m = .small i ∧
          (reached mayThrow controller acts m).Reports i) ∨
        Between mayThrow controller acts (c + 1) m ∧
          clock (some (c + 1)) < clock (some c)) := by
  obtain ⟨k, i, hk, hbegun⟩ := h.exists_standing left fair hsubmit hn
  obtain ⟨l, hl, htest, hact⟩ :=
    hbegun.exists_test left fair hsubmit (hn.trans hk)
  obtain ⟨_, hc, hstage⟩ := (left.counting hsubmit l).settles _
    (List.mem_of_getElem? htest.execution) htest.pending
  obtain rfl := Option.some.inj (htest.executed.symm.trans hc)
  -- at the test the clock is used up, or lower for the next execution
  by_cases hlast : clock (some c) - 1 = 0
  · exact ⟨l, hk.trans hl, Or.inl ⟨i, hact, htest.execution,
      hstage.ttl_of_test.trans hlast⟩⟩
  · obtain ⟨m, hm, hbetween⟩ := htest.exists_between left fair hsubmit
      (hn.trans (hk.trans hl)) HeartBeat.submits_test
    refine ⟨m, hk.trans (hl.trans hm), Or.inr ⟨hbetween, ?_⟩⟩
    rw [← turned_clock, turned, if_neg hlast]
    omega

/-- **The heartbeat keeps reporting.** In every infinite run in which the
server is left up, executions stay apart and go on and entries are taken out,
in primitive steps and whatever else is called, an execution reports again
and again. -/
theorem reports_again (left : LeftUp mayThrow controller acts N)
    (fair : Fair mayThrow controller acts)
    (hsubmit : mayThrow .submitHeatbeat = false) :
    ∃ᶠ n in atTop, ∃ i, acts n = .small i ∧
      (reached mayThrow controller acts n).Reports i := by
  rw [frequently_atTop]
  intro n
  obtain ⟨k, c, hk, hbetween⟩ :=
    left.exists_between fair hsubmit (Nat.le_max_right n N)
  have hkn : n ≤ k := (Nat.le_max_left n N).trans hk
  have hkN : N ≤ k := (Nat.le_max_right n N).trans hk
  suffices hgoal : ∃ m, k ≤ m ∧ ∃ i, acts m = .small i ∧
      (reached mayThrow controller acts m).Reports i by
    obtain ⟨m, hm, hreports⟩ := hgoal
    exact ⟨m, hkn.trans hm, hreports⟩
  -- the clock is the variant: each execution that does not report turns it
  refine exists_of_variant
    (I := fun m => N ≤ m ∧ ∃ c, Between mayThrow controller acts c m)
    (fun m => (clock (executedBy mayThrow controller acts m)).toNat) ?_
    ⟨hkN, c, hbetween⟩
  rintro m ⟨hmN, c, hbetween⟩
  obtain ⟨l, hl, hreports | ⟨hnext, hless⟩⟩ :=
    hbetween.exists_report_or_next left fair hsubmit hmN
  · exact ⟨l, hl, Or.inl hreports⟩
  · refine ⟨l, hl, Or.inr ⟨⟨hmN.trans hl, c + 1, hnext⟩, ?_⟩⟩
    show (clock _).toNat < (clock _).toNat
    rw [hbetween.executed, hnext.executed]
    have hpos := one_le_clock c
    omega

end Live

/-! ## A server that is started and left alone -/

section LeftAlone

omit [DecidableEq P] [ToString P]

/-- An execution that has still to submit goes on; without one the next entry
is taken out. -/
def goOn (pool : Pool M) : PoolAction M :=
  match pool.executions.findIdx? unsubmitted with
  | some i => .small i
  | none => .takeOut

omit [DecidableEq M] in
theorem goOn_of_pending_eq_zero {pool : Pool M} (h : pool.pending = 0) :
    pool.goOn = .takeOut := by
  have hnone : pool.executions.findIdx? unsubmitted = none :=
    List.findIdx?_eq_none_iff.mpr fun _ hmem => unsubmitted_eq_false h hmem
  rw [goOn, hnone]

omit [DecidableEq M] in
/-- Where one execution is under way, it is the one that goes on. -/
theorem goOn_of_unsubmitted {pool : Pool M} {i : ℕ}
    {execution : Option (ServerM M ℤ)} (hone : pool.pending ≤ 1)
    (hi : pool.executions[i]? = some execution)
    (hpending : unsubmitted execution = true) : pool.goOn = .small i := by
  cases hj : pool.executions.findIdx? unsubmitted with
  | none =>
      have hended := List.findIdx?_eq_none_iff.mp hj execution
        (List.mem_of_getElem? hi)
      exact absurd (hpending.symm.trans hended) Bool.true_eq_false.mp
  | some j =>
      rw [goOn, hj]
      obtain ⟨hlt, hfirst, -⟩ := List.findIdx?_eq_some_iff_getElem.mp hj
      by_contra hne
      have hij : i ≠ j := by
        rintro rfl
        exact hne rfl
      have hended := unsubmitted_of_ne hone hi hpending hij
        (List.getElem?_eq_getElem hlt)
      exact absurd (hfirst.symm.trans hended) Bool.true_eq_false.mp

omit [DecidableEq M] in
theorem apart_goOn (pool : Pool M) : pool.Apart pool.goOn := by
  cases hnext : pool.executions.findIdx? unsubmitted with
  | some i =>
      rw [goOn, hnext]
      trivial
  | none =>
      have hnone : pool.pending = 0 :=
        List.countP_eq_zero.mpr fun execution hmem => by
          simp [List.findIdx?_eq_none_iff.mp hnext execution hmem]
      rw [goOn_of_pending_eq_zero hnone]
      show pool.takeOut.pending ≤ 1
      have hzero : pool.executions.countP unsubmitted = 0 := hnone
      unfold Pool.takeOut
      split
      · show List.countP unsubmitted (ite _ _ _) ≤ 1
        split
        · rw [List.countP_append, hzero, List.countP_singleton]
          split <;> omega
        · omega
      · exact hnone.le.trans (Nat.zero_le 1)

/-- The first steps start the server. -/
def startThenGoOn (n : ℕ) (pool : Pool PlainManager) : PoolAction PlainManager :=
  if n = 0 then .invoke (.standalone (.start (.listed _)))
  else if n < 6 then .advance
  else pool.goOn

/-- The states of a server that is started and then left alone. -/
def leftAlone : ℕ → Pool PlainManager
  | 0 => new none
  | n + 1 =>
      (leftAlone n).next (fun _ => false) (startThenGoOn n (leftAlone n))

/-- Its actions. -/
def leftAloneActs (n : ℕ) : PoolAction PlainManager :=
  startThenGoOn n (leftAlone n)

theorem reached_leftAlone (n : ℕ) :
    reached (fun _ => false) none leftAloneActs n = leftAlone n := by
  induction n with
  | zero => rfl
  | succ n ih =>
      rw [reached_succ, ih]
      rfl

theorem leftAloneActs_of_le {n : ℕ} (hn : 6 ≤ n) :
    leftAloneActs n = (leftAlone n).goOn := by
  unfold leftAloneActs startThenGoOn
  rw [if_neg (by omega), if_neg (by omega)]

/-- No execution has begun before the server is started. -/
theorem executions_leftAlone {n : ℕ} (hn : n ≤ 6) :
    (leftAlone n).executions = [] := by
  have hnone : ∀ n < 7, (leftAlone n).executions.length = 0 := by decide
  exact List.eq_nil_of_length_eq_zero (hnone n (Nat.lt_succ_of_le hn))

/-- Once started, only executions take steps. -/
theorem onControl_leftAlone {n : ℕ} (hn : 6 ≤ n) :
    (firstActions leftAloneActs n).flatMap PoolAction.onControl =
      (firstActions leftAloneActs 6).flatMap PoolAction.onControl := by
  induction n, hn using Nat.le_induction with
  | base => rfl
  | succ n hn ih =>
      rw [firstActions_succ, List.flatMap_append, ih, leftAloneActs_of_le hn,
        goOn]
      split
      · exact List.append_nil _
      · exact List.append_nil _

/-- The executions cannot be seen, so the services stay started. -/
theorem mediaScheduler_leftAlone {n : ℕ} (hn : 6 ≤ n) :
    (leftAlone n).server.env.mediaScheduler = true := by
  have hnow := (alike_onControl (fun _ => false) none
    (firstActions leftAloneActs n)).env.mediaScheduler
  have hstarted := (alike_onControl (fun _ => false) none
    (firstActions leftAloneActs 6)).env.mediaScheduler
  rw [onControl_leftAlone hn, ← hstarted] at hnow
  rw [← reached_leftAlone]
  exact hnow

theorem leftUp_leftAlone :
    LeftUp (fun _ => false) none leftAloneActs 6 := by
  refine ⟨fun n => ?_, fun n hn => ?_, fun n hn hact => ?_⟩
  · rw [reached_leftAlone]
    rcases Nat.lt_or_ge n 6 with hn | hn
    · have hstart : ∀ n < 6, (leftAlone n).Apart (leftAloneActs n) := by decide
      exact hstart n hn
    · rw [leftAloneActs_of_le hn]
      exact apart_goOn _
  · rw [reached_leftAlone]
    exact mediaScheduler_leftAlone hn
  · rw [leftAloneActs_of_le hn, goOn] at hact
    split at hact <;> exact absurd hact nofun

theorem fair_leftAlone : Fair (fun _ => false) none leftAloneActs := by
  refine ⟨fun n hpending _ => ?_, fun n i p hi hpending => ?_⟩
  · rw [reached_leftAlone] at hpending
    rcases Nat.lt_or_ge n 6 with hn | hn
    · refine ⟨6, hn.le, ?_⟩
      rw [leftAloneActs_of_le (Nat.le_refl 6)]
      apply goOn_of_pending_eq_zero
      rw [Pool.pending, executions_leftAlone (Nat.le_refl 6)]
      rfl
    · refine ⟨n, Nat.le_refl n, ?_⟩
      rw [leftAloneActs_of_le hn]
      exact goOn_of_pending_eq_zero hpending
  · have hone := (leftUp_leftAlone.counting rfl n).one
    rw [reached_leftAlone] at hi hone
    rcases Nat.lt_or_ge n 6 with hn | hn
    · rw [executions_leftAlone hn.le] at hi
      simp at hi
    · refine ⟨n, Nat.le_refl n, ?_⟩
      rw [leftAloneActs_of_le hn]
      exact goOn_of_unsubmitted hone hi hpending

/-- A server that is started and left alone keeps reporting. -/
theorem reports_again_leftAlone :
    ∃ᶠ n in atTop, ∃ i, leftAloneActs n = .small i ∧
      (reached (fun _ => false) none leftAloneActs n).Reports i :=
  reports_again leftUp_leftAlone fair_leftAlone rfl

end LeftAlone

end Pool

end MediaServer
