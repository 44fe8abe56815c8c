import MediaServer.Bootstrap.Directory
import MediaServer.Foundation.Run

/-!
# What failures cannot change, and what nothing mends

Which requests are refused is settled by the requests alone: the part of the
directory that decides it, the *desk*, goes its way whatever breaks
(`refusals_eq`). A manager taken out of the registry while it is active stays
active through every later `start` and `stop`, however they end, until it is
registered again (`leaked_iff`).
-/

namespace MediaServer

open Foundation

variable {M P : Type} [ServerManager M P]

/-! ## The desk -/

/-- The running flag and the registry. -/
@[ext]
structure Desk (M : Type) {P : Type} [ServerManager M P] where
  running : Bool
  registry : P → Option M

def Directory.desk (d : Directory M) : Desk M := ⟨d.running, d.registry⟩

def Answer.refusal : Answer → Option JavaException
  | .done => none
  | .refused e => some e
  | .broken => none

namespace Desk

variable [DecidableEq P] [ToString P]

def refusal (k : Desk M) : Request M → Option JavaException
  | .start =>
      if k.running then
        some (.illegalState "Media Server already started.")
      else none
  | .stop =>
      if k.running then none
      else some (.illegalState "Media Server already stopped.")
  | .addManager none => none
  | .addManager (some m) =>
      if (k.registry (getControlProtocol m)).isSome then
        some (.illegalArgument (toString (getControlProtocol m) ++
          " controller is already registered"))
      else none
  | .removeManager _ => none

def next (k : Desk M) : Request M → Desk M
  | .start => { k with running := true }
  | .stop => { k with running := false }
  | .addManager none => k
  | .addManager (some m) =>
      if (k.registry (getControlProtocol m)).isSome then k
      else { k with
        registry := Function.update k.registry (getControlProtocol m) (some m) }
  | .removeManager none => k
  | .removeManager (some m) =>
      { k with
        registry := Function.update k.registry (getControlProtocol m) none }

def refusals (k : Desk M) : List (Request M) → List (Option JavaException)
  | [] => []
  | a :: as => k.refusal a :: (k.next a).refusals as

end Desk

section Directory

variable [DecidableEq P] [ToString P] {d d' : Directory M} {a : Request M}
  {o : Answer}

theorem Directory.Step.desk (h : d.Step a o d') :
    o.refusal = d.desk.refusal a ∧ d'.desk = d.desk.next a := by
  cases h with
  | start idle => simp [Answer.refusal, Directory.desk, Desk.refusal, Desk.next, idle]
  | startBroken idle cut =>
      simp [Answer.refusal, Directory.desk, Desk.refusal, Desk.next, idle]
  | startRefused busy =>
      simp [Answer.refusal, Directory.desk, Desk.refusal, Desk.next, busy]
  | stop busy => simp [Answer.refusal, Directory.desk, Desk.refusal, Desk.next, busy]
  | stopBroken busy cut =>
      simp [Answer.refusal, Directory.desk, Desk.refusal, Desk.next, busy]
  | stopRefused idle =>
      simp [Answer.refusal, Directory.desk, Desk.refusal, Desk.next, idle]
  | addNull => exact ⟨rfl, rfl⟩
  | add free =>
      simp [Answer.refusal, Directory.desk, Directory.file, Desk.refusal,
        Desk.next, free]
  | addRefused occupied =>
      simp [Answer.refusal, Directory.desk, Desk.refusal, Desk.next, occupied]
  | removeNull => exact ⟨rfl, rfl⟩
  | remove m => exact ⟨rfl, rfl⟩

theorem Directory.runs_desk {l : List (Request M × Answer)}
    (h : Directory.behaviour.Runs d l d') :
    l.map (fun x => x.2.refusal) = d.desk.refusals (l.map Prod.fst) ∧
      d'.desk = (l.map Prod.fst).foldl Desk.next d.desk := by
  induction h with
  | nil d => exact ⟨rfl, rfl⟩
  | cons step rest ih =>
      obtain ⟨hrefusal, hdesk⟩ := Directory.Step.desk step
      rw [List.map_cons, List.map_cons, Desk.refusals, List.foldl_cons, hrefusal,
        ← hdesk]
      exact ⟨congrArg _ ih.1, ih.2⟩

/-! ## Leaked managers -/

namespace Directory

/-- Active, and no longer in the registry. -/
def Leaked (d : Directory M) (m : M) : Prop :=
  m ∈ d.active ∧ m ∉ d.managers

/-- The request takes the manager's protocol, and with it the active manager,
out of the registry. -/
def Loses (d : Directory M) (m : M) (a : Request M) : Prop :=
  m ∈ d.active ∧ m ∈ d.managers ∧
    ∃ m', a = .removeManager (some m') ∧
      getControlProtocol m' = getControlProtocol m

/-- The request is an `addManager` of the manager that is accepted. -/
def Regains (d : Directory M) (m : M) (a : Request M) : Prop :=
  a = .addManager (some m) ∧ d.registry (getControlProtocol m) = none

omit [ToString P] in
theorem mem_managers_file {d : Directory M} {m m' : M}
    (free : d.registry (getControlProtocol m) = none) :
    m' ∈ (d.file m).managers ↔ m' ∈ d.managers ∨ m' = m := by
  show Function.update d.registry (getControlProtocol m) (some m)
    (getControlProtocol m') = some m' ↔
      d.registry (getControlProtocol m') = some m' ∨ m' = m
  by_cases hp : getControlProtocol m' = getControlProtocol m
  · rw [hp, Function.update_self, free]
    simp [eq_comm]
  · rw [Function.update_of_ne hp]
    refine (or_iff_left ?_).symm
    rintro rfl
    exact hp rfl

omit [ToString P] in
theorem mem_managers_drop {d : Directory M} {protocol : P} {m : M} :
    m ∈ (d.drop protocol).managers ↔
      m ∈ d.managers ∧ getControlProtocol m ≠ protocol := by
  show Function.update d.registry protocol none (getControlProtocol m) =
    some m ↔ d.registry (getControlProtocol m) = some m ∧ _
  by_cases hp : getControlProtocol m = protocol
  · rw [hp, Function.update_self]
    simp
  · rw [Function.update_of_ne hp]
    exact (and_iff_left hp).symm

omit [DecidableEq P] [ToString P] in
/-- What happens to the managers of the registry leaks nobody. -/
theorem leaked_congr {running : Bool} {active : Set M} {m : M}
    (h : m ∉ d.managers → (m ∈ active ↔ m ∈ d.active)) :
    Leaked { d with running := running, active := active } m ↔ d.Leaked m :=
  and_congr_left h

/-- One request leaks a manager only by taking it out of the registry, and
takes back a leaked one only by registering it. -/
theorem Step.leaked_next_iff (h : d.Step a o d') (m : M) :
    d'.Leaked m ↔ d.Loses m a ∨ (d.Leaked m ∧ ¬ d.Regains m a) := by
  cases h with
  | start idle =>
      have hsame : m ∉ d.managers →
          (m ∈ d.active ∪ d.managers ↔ m ∈ d.active) :=
        fun hm => or_iff_left hm
      rw [leaked_congr hsame]
      simp [Loses, Regains]
  | @startBroken idle A cut =>
      have hsame : m ∉ d.managers → (m ∈ d.active ∪ A ↔ m ∈ d.active) :=
        fun hm => or_iff_left fun hA => hm (cut.1 hA)
      rw [leaked_congr hsame]
      simp [Loses, Regains]
  | startRefused busy => simp [Loses, Regains]
  | stop busy =>
      have hsame : m ∉ d.managers →
          (m ∈ d.active \ d.managers ↔ m ∈ d.active) :=
        fun hm => and_iff_left hm
      rw [leaked_congr hsame]
      simp [Loses, Regains]
  | @stopBroken busy A cut =>
      have hsame : m ∉ d.managers → (m ∈ d.active \ A ↔ m ∈ d.active) :=
        fun hm => and_iff_left fun hA => hm (cut.1 hA)
      rw [leaked_congr hsame]
      simp [Loses, Regains]
  | stopRefused idle => simp [Loses, Regains]
  | addNull => simp [Loses, Regains]
  | @add m' free =>
      have hloses : ¬ d.Loses m (.addManager (some m')) := by simp [Loses]
      have hregains : d.Regains m (.addManager (some m')) ↔ m = m' := by
        constructor
        · rintro ⟨heq, -⟩
          cases heq
          rfl
        · rintro rfl
          exact ⟨rfl, free⟩
      rw [or_iff_right hloses, hregains]
      show m ∈ d.active ∧ m ∉ (d.file m').managers ↔ _
      rw [mem_managers_file free, not_or]
      exact and_assoc.symm
  | @addRefused m' _ occupied =>
      have hregains : ¬ d.Regains m (.addManager (some m')) := by
        rintro ⟨heq, hfree⟩
        cases heq
        simp [hfree] at occupied
      simp [Loses, hregains]
  | removeNull => simp [Loses, Regains]
  | remove m' =>
      have hregains : ¬ d.Regains m (.removeManager (some m')) := by
        simp [Regains]
      have hloses : d.Loses m (.removeManager (some m')) ↔
          m ∈ d.active ∧ m ∈ d.managers ∧
            getControlProtocol m' = getControlProtocol m := by
        simp [Loses]
      rw [hloses, and_iff_left hregains]
      show m ∈ d.active ∧ m ∉ (d.drop (getControlProtocol m')).managers ↔
        _ ∨ (m ∈ d.active ∧ m ∉ d.managers)
      rw [mem_managers_drop, eq_comm]
      tauto

end Directory

end Directory

/-! ## Histories of the server -/

variable [DecidableEq M] [DecidableEq P] [ToString P]

/-- The server after a history, with the faults and iteration orders it
met. -/
def Server.after (w : Server M) (is : List (Faults M × Operation M)) :
    Server M :=
  Behaviour.final Server.serve w is

theorem Server.runs_after (w : Server M) (is : List (Faults M × Operation M)) :
    Directory.behaviour.Runs w.directory
      (Behaviour.observed Server.serve (fun i => i.2.request) w is)
      (w.after is).directory :=
  Behaviour.runs_of_allowed step_serve is w

/-- **Failures do not change who is refused.** Along every history, with
whatever faults and iteration orders, the refusals and their messages, the
running flag and the registry are those the desk computes from the requests
alone. -/
theorem refusals_eq (w : Server M) (is : List (Faults M × Operation M)) :
    (Behaviour.observed Server.serve (fun i => i.2.request) w is).map
        (fun x => x.2.refusal) =
      w.directory.desk.refusals (is.map fun i => i.2.request) ∧
    (w.after is).directory.desk =
      (is.map fun i => i.2.request).foldl Desk.next w.directory.desk := by
  have hdesk := Directory.runs_desk (w.runs_after is)
  rwa [Behaviour.map_fst_observed] at hdesk

/-- **Who is leaked.** Along every history of a new server, with whatever
faults and iteration orders, a manager is active without being registered
exactly since a request took it out of the registry while it was active and
none has registered it again: no `start` or `stop` in between, failing or
not, makes a difference. -/
theorem leaked_iff (controller : Option M) (m : M)
    (is : List (Faults M × Operation M)) :
    ((Server.new controller).after is).directory.Leaked m ↔
      Since
        (fun pre i => ((Server.new controller).after pre).directory.Loses m
          i.2.request)
        (fun pre i => ¬ ((Server.new controller).after pre).directory.Regains m
          i.2.request) is := by
  refine iff_since (P := fun is =>
    ((Server.new controller).after is).directory.Leaked m) ?_ ?_ is
  · rintro ⟨hactive, -⟩
    have hidle : (Server.new controller : Server M).env.active = ∅ := by
      rw [Server.new_eq]
      rfl
    have hm : m ∈ (Server.new controller : Server M).env.active := hactive
    rw [hidle] at hm
    exact absurd hm (Finset.notMem_empty m)
  · intro pre i
    have hstep := step_serve ((Server.new controller).after pre) i
    unfold Server.after at hstep ⊢
    rw [Behaviour.final_concat]
    exact hstep.leaked_next_iff m

end MediaServer
