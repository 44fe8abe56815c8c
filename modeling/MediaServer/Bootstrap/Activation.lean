import Mathlib.Data.Finset.Option
import MediaServer.Bootstrap.StandaloneMediaServer
import MediaServer.Foundation.Run

/-!
# Activation follows registration

The registry is there so that, between calls, exactly the registered managers
are active while the server runs and none while it is stopped. `start` and
`stop` keep to that; `addManager` and `removeManager` touch only the map.

A *ledger* runs the server and writes down, beside it, who has been
registered: a manager enters with an accepted `addManager` and leaves with a
`removeManager` of that same manager. `Follows` compares the two, and
`Settled` singles out the calls that keep them equal.
-/

namespace MediaServer

open Foundation

variable {M P : Type} [ServerManager M P]

/-- The server, and the managers that have been registered with it. -/
structure Ledger (M : Type) {P : Type} [ServerManager M P] where
  server : Server M
  registered : Finset M

namespace Ledger

section Run

variable [DecidableEq M] [DecidableEq P] [ToString P]

def new (controller : Option M) : Ledger M :=
  ⟨.new controller, controller.toFinset⟩

/-- Who is registered after a call, given whether it threw. -/
def register (registered : Finset M) (threw : Bool) :
    Operation M → Finset M
  | .addManager (some m) => if threw then registered else insert m registered
  | .removeManager (some m) => registered.erase m
  | _ => registered

def call (t : Ledger M) (op : Operation M) : Ledger M :=
  let result := MediaServer.call .none op t.server
  ⟨result.2, register t.registered result.1.threw op⟩

def run (controller : Option M) (ops : List (Operation M)) : Ledger M :=
  ops.foldl call (new controller)

theorem run_concat (controller : Option M) (ops : List (Operation M))
    (op : Operation M) :
    run controller (ops ++ [op]) = (run controller ops).call op := by
  simp [run, List.foldl_append]

end Run

/-- Active means running and registered, and the registry of the server holds
the registered managers: nobody was dropped in another's place. -/
structure Follows (t : Ledger M) : Prop where
  active_iff : ∀ m, m ∈ t.server.env.active ↔
    StandaloneMediaServer.isRunning t.server = true ∧ m ∈ t.registered
  registry : ∀ m, m ∈ t.server.fields.controllers.values ↔ m ∈ t.registered

/-- The call leaves registration alone while the server runs, and removes no
manager in place of another: an accepted `addManager` comes while the server
is stopped, and a `removeManager` finds nobody under the protocol, or finds
its own manager while the server is stopped. -/
def Settled [DecidableEq P] (t : Ledger M) : Operation M → Prop
  | .addManager (some m) =>
      StandaloneMediaServer.isRunning t.server = false ∨
        t.server.fields.controllers.containsKey (getControlProtocol m) = true
  | .removeManager (some m) =>
      ∀ m', t.server.fields.controllers.get? (getControlProtocol m) = some m' →
        m' = m ∧ StandaloneMediaServer.isRunning t.server = false
  | _ => True

/-! ## One call -/

/-- While it follows registration, a stopped server has no active manager. -/
theorem Follows.active_eq_empty {t : Ledger M} (h : Follows t)
    (hstop : t.server.fields.started = false) : t.server.env.active = ∅ := by
  ext m
  rw [h.active_iff m]
  simp [StandaloneMediaServer.isRunning, hstop]

/-- While it follows registration, a running server has exactly the managers
of its registry active. -/
theorem Follows.active_eq_values [DecidableEq M] {t : Ledger M} (h : Follows t)
    (hrun : t.server.fields.started = true) :
    t.server.env.active = t.server.fields.controllers.values.toFinset := by
  ext m
  rw [h.active_iff m, List.mem_toFinset, h.registry m]
  simp [StandaloneMediaServer.isRunning, hrun]

variable [DecidableEq M] [DecidableEq P] [ToString P]

theorem follows_new (controller : Option M) :
    Follows (new controller : Ledger M) := by
  unfold new
  rw [Server.new_eq]
  constructor
  · intro m
    simp [Components.initial, StandaloneMediaServer.isRunning]
  · intro m
    cases controller with
    | none => simp
    | some m' =>
        show m ∈ (Controllers.empty.put m').values ↔ _
        rw [Controllers.mem_values_put (by rfl)]
        simp

theorem follows_start {t : Ledger M} (h : Follows t)
    (it : IterationOrder M) : Follows (t.call (.start it)) := by
  unfold call
  cases hrun : t.server.fields.started with
  | true =>
      rw [call_start_of_running it hrun]
      exact h
  | false =>
      rw [call_start_of_stopped it hrun, applyAll_startCalls]
      constructor
      · intro m
        show m ∈ t.server.env.active ∪ _ ↔ _
        rw [h.active_eq_empty hrun, Finset.empty_union, List.mem_toFinset,
          h.registry m]
        simp [StandaloneMediaServer.isRunning, Fields.startedUp, register]
      · exact h.registry

theorem follows_stop {t : Ledger M} (h : Follows t)
    (it : IterationOrder M) : Follows (t.call (.stop it)) := by
  unfold call
  cases hrun : t.server.fields.started with
  | false =>
      rw [call_stop_of_stopped it hrun]
      exact h
  | true =>
      rw [call_stop_of_running it hrun, applyAll_stopCalls]
      constructor
      · intro m
        show m ∈ t.server.env.active \ _ ↔ _
        rw [h.active_eq_values hrun, Finset.sdiff_self]
        simp [StandaloneMediaServer.isRunning, Fields.shutDown]
      · exact h.registry

/-- An accepted `addManager` keeps up only on a stopped server: on a running
one the new manager is registered and stays inactive. -/
theorem follows_addManager_iff {t : Ledger M} (h : Follows t) (m : M) :
    Follows (t.call (.addManager (some m))) ↔
      Settled t (.addManager (some m)) := by
  unfold call Settled
  cases hkey : t.server.fields.controllers.containsKey
      (getControlProtocol m) with
  | true =>
      rw [call_addManager_of_occupied hkey]
      exact ⟨fun _ => Or.inr hkey, fun _ => h⟩
  | false =>
      rw [call_addManager_of_free hkey]
      show _ ↔ StandaloneMediaServer.isRunning t.server = false ∨
        t.server.fields.controllers.containsKey (getControlProtocol m) = true
      rw [hkey, or_iff_left Bool.false_ne_true]
      have hnew : m ∉ t.registered := by
        rw [← h.registry m, Controllers.mem_values_iff]
        intro hm
        simp [Controllers.containsKey, hm] at hkey
      constructor
      · intro hafter
        by_contra hrun
        have hrun : t.server.fields.started = true :=
          Bool.eq_true_of_not_eq_false hrun
        have hactive := (hafter.active_iff m).mpr
          ⟨hrun, by simp [register, Ending.threw]⟩
        exact hnew ((h.active_iff m).mp hactive).2
      · intro hstop
        constructor
        · intro m'
          show m' ∈ t.server.env.active ↔ t.server.fields.started = true ∧ _
          have hstop : t.server.fields.started = false := hstop
          rw [h.active_eq_empty hstop, hstop]
          simp
        · intro m'
          show m' ∈ (t.server.fields.controllers.put m).values ↔ _
          rw [Controllers.mem_values_put hkey, h.registry m']
          simp [register, Ending.threw, or_comm]

/-- A `removeManager` keeps up only if it finds nobody, or its own manager on
a stopped server: otherwise a manager stays active, or another is dropped. -/
theorem follows_removeManager_iff {t : Ledger M} (h : Follows t) (m : M) :
    Follows (t.call (.removeManager (some m))) ↔
      Settled t (.removeManager (some m)) := by
  unfold call Settled
  rw [call_removeManager]
  constructor
  · intro hafter m' hfound
    have hproto := Controllers.getControlProtocol_of_get? hfound
    have hm' : m' ∈ t.server.fields.controllers.values := by
      rw [Controllers.mem_values_iff, hproto]
      exact hfound
    have hreg : m' ∈ t.registered := (h.registry m').mp hm'
    -- the registry has lost `m'`, so the ledger must have lost it too
    have hdropped : m' ∉ t.registered.erase m := by
      intro hkept
      have hvalue := (hafter.registry m').mpr hkept
      exact (Controllers.mem_values_remove.mp hvalue).2 hproto
    have hsame : m' = m := by
      by_contra hne
      exact hdropped (Finset.mem_erase.mpr ⟨hne, hreg⟩)
    refine ⟨hsame, ?_⟩
    by_contra hrun
    have hactive := (h.active_iff m').mpr ⟨by simpa using hrun, hreg⟩
    exact hdropped ((hafter.active_iff m').mp hactive).2
  · intro hsettled
    have hregistry : ∀ m', m' ∈ (t.server.fields.controllers.remove
        (getControlProtocol m)).values ↔ m' ∈ t.registered.erase m := by
      intro m'
      rw [Controllers.mem_values_remove, Finset.mem_erase, h.registry m',
        and_comm]
      refine and_congr_left fun hreg => not_congr ⟨fun hproto => ?_, ?_⟩
      · have hfound := Controllers.mem_values_iff.mp ((h.registry m').mpr hreg)
        exact (hsettled m' (hproto ▸ hfound)).1
      · rintro rfl
        rfl
    refine ⟨fun m' => ?_, hregistry⟩
    show m' ∈ t.server.env.active ↔
      t.server.fields.started = true ∧ m' ∈ t.registered.erase m
    cases hrun : t.server.fields.started with
    | false =>
        rw [h.active_eq_empty hrun]
        simp
    | true =>
        have habsent : m ∉ t.registered := by
          intro hreg
          have hfound :=
            Controllers.mem_values_iff.mp ((h.registry m).mpr hreg)
          have hstop := (hsettled m hfound).2
          simp [StandaloneMediaServer.isRunning, hrun] at hstop
        rw [Finset.erase_eq_of_notMem habsent, h.active_iff m']
        simp [StandaloneMediaServer.isRunning, hrun]

theorem follows_call_iff {t : Ledger M} (h : Follows t) (op : Operation M) :
    Follows (t.call op) ↔ Settled t op := by
  cases op with
  | start it => exact iff_of_true (follows_start h it) trivial
  | stop it => exact iff_of_true (follows_stop h it) trivial
  | addManager manager =>
      cases manager with
      | none => exact iff_of_true h trivial
      | some m => exact follows_addManager_iff h m
  | removeManager manager =>
      cases manager with
      | none => exact iff_of_true h trivial
      | some m => exact follows_removeManager_iff h m

/-! ## Whole runs -/

/-- **Activation follows registration exactly along settled runs.** After
every call of a run the active managers are those registered with the running
server, and the registry holds the registered managers, if and only if every
`addManager` and `removeManager` of the run was settled. -/
theorem activation_follows_iff (controller : Option M)
    (ops : List (Operation M)) :
    (∀ pre, pre <+: ops → Follows (run controller pre)) ↔
      ∀ pre op, pre ++ [op] <+: ops → Settled (run controller pre) op := by
  rw [forall_prefix_iff_always (P := fun pre => Follows (run controller pre))
    (follows_new controller)]
  refine always_iff_of_invariant
    (I := fun pre => Follows (run controller pre))
    (G := fun pre op => Settled (run controller pre) op)
    (follows_new controller) ?_ ?_ ops
  · intro pre op hfollows hsettled
    rw [run_concat]
    exact (follows_call_iff hfollows op).mpr hsettled
  · intro pre op hfollows
    rw [run_concat]
    exact follows_call_iff hfollows op

/-- Three runs that leave registration behind: a manager removed from the
running server stays active, even after the next `stop`; one added to the
running server stays inactive; and removing a manager that was never
registered drops the registered one of the same protocol. -/
theorem registration_left_behind :
    ¬ Follows (run (some (⟨0, 0⟩ : PlainManager))
      [.start (.listed _), .removeManager (some ⟨0, 0⟩),
        .stop (.listed _)]) ∧
    ¬ Follows (run none
      [.start (.listed _), .addManager (some (⟨0, 0⟩ : PlainManager))]) ∧
    ¬ Follows (run (some (⟨0, 0⟩ : PlainManager))
      [.removeManager (some ⟨1, 0⟩)]) := by
  refine ⟨fun h => ?_, fun h => ?_, fun h => ?_⟩
  · have hactive := (h.active_iff ⟨0, 0⟩).mp (by decide)
    exact absurd hactive (by decide)
  · have hinactive := (h.active_iff ⟨0, 0⟩).mpr (by decide)
    exact absurd hinactive (by decide)
  · have hdropped := (h.registry ⟨0, 0⟩).mpr (by decide)
    exact absurd hdropped (by decide)

end Ledger

end MediaServer
