import Mathlib.Data.Set.Basic
import Mathlib.Logic.Function.Basic
import MediaServer.Bootstrap.Failure
import MediaServer.Foundation.Behaviour

/-!
# The server as its callers see it

A caller sees a directory: managers filed by protocol, a running flag, and
which managers are active. It sees neither the iteration order nor which
component call failed, so a request that makes such calls has several answers
and several ways to go on.

The directory is exact (`runs_directory_iff`): with arbitrary faults and
iteration orders the server shows the histories it allows, and shows all of
them.
-/

namespace MediaServer

open Foundation

variable {M P : Type} [ServerManager M P]

inductive Request (M : Type) where
  | start
  | stop
  | addManager (manager : Option M)
  | removeManager (manager : Option M)

/-- `broken` is the exception of a component, whichever it was. -/
inductive Answer where
  | done
  | refused (e : JavaException)
  | broken

@[ext]
structure Directory (M : Type) {P : Type} [ServerManager M P] where
  running : Bool
  registry : P → Option M
  keyed : ∀ p m, registry p = some m → getControlProtocol m = p
  active : Set M

namespace Directory

def managers (d : Directory M) : Set M :=
  {m | d.registry (getControlProtocol m) = some m}

/-- What a loop over the managers may have visited when a component call
throws: nobody, if the loop never began, or not everybody. -/
def CutShort (d : Directory M) (A : Set M) : Prop :=
  A ⊆ d.managers ∧ (A = ∅ ∨ A ≠ d.managers)

section Step

variable [DecidableEq P]

def file (d : Directory M) (m : M) : Directory M where
  running := d.running
  registry := Function.update d.registry (getControlProtocol m) (some m)
  keyed := by
    intro p m' hfound
    by_cases hp : p = getControlProtocol m
    · subst hp
      rw [Function.update_self, Option.some.injEq] at hfound
      rw [hfound]
    · rw [Function.update_of_ne hp] at hfound
      exact d.keyed p m' hfound
  active := d.active

def drop (d : Directory M) (protocol : P) : Directory M where
  running := d.running
  registry := Function.update d.registry protocol none
  keyed := by
    intro p m hfound
    by_cases hp : p = protocol
    · subst hp
      rw [Function.update_self] at hfound
      exact absurd hfound (by simp)
    · rw [Function.update_of_ne hp] at hfound
      exact d.keyed p m hfound
  active := d.active

variable [ToString P]

inductive Step (d : Directory M) :
    Request M → Answer → Directory M → Prop
  | start (idle : d.running = false) :
      Step d .start .done
        { d with running := true, active := d.active ∪ d.managers }
  | startBroken (idle : d.running = false) {A : Set M} (cut : d.CutShort A) :
      Step d .start .broken
        { d with running := true, active := d.active ∪ A }
  | startRefused (busy : d.running = true) :
      Step d .start
        (.refused (.illegalState "Media Server already started.")) d
  | stop (busy : d.running = true) :
      Step d .stop .done
        { d with running := false, active := d.active \ d.managers }
  | stopBroken (busy : d.running = true) {A : Set M} (cut : d.CutShort A) :
      Step d .stop .broken
        { d with running := false, active := d.active \ A }
  | stopRefused (idle : d.running = false) :
      Step d .stop
        (.refused (.illegalState "Media Server already stopped.")) d
  | addNull : Step d (.addManager none) .done d
  | add {m : M} (free : d.registry (getControlProtocol m) = none) :
      Step d (.addManager (some m)) .done (d.file m)
  | addRefused {m m' : M}
      (occupied : d.registry (getControlProtocol m) = some m') :
      Step d (.addManager (some m))
        (.refused (.illegalArgument (toString (getControlProtocol m) ++
          " controller is already registered"))) d
  | removeNull : Step d (.removeManager none) .done d
  | remove (m : M) :
      Step d (.removeManager (some m)) .done (d.drop (getControlProtocol m))

def behaviour : Behaviour (Directory M) (Request M) Answer := ⟨Step⟩

end Step

end Directory

/-! ## The server as a directory -/

def Operation.request : Operation M → Request M
  | .start _ => .start
  | .stop _ => .stop
  | .addManager manager => .addManager manager
  | .removeManager manager => .removeManager manager

def answer : Ending (Call M) JavaException Unit → Answer
  | .returned _ => .done
  | .raised e => .refused e
  | .failed _ => .broken

section Serving

variable [DecidableEq P]

def Server.directory (w : Server M) : Directory M where
  running := w.fields.started
  registry := w.fields.controllers.get?
  keyed := fun _ _ => Controllers.getControlProtocol_of_get?
  active := {m | m ∈ w.env.active}

theorem Server.mem_managers_directory {w : Server M} {m : M} :
    m ∈ w.directory.managers ↔ m ∈ w.fields.controllers.values :=
  Controllers.mem_values_iff.symm

theorem Controllers.get?_put (c : Controllers M) (m : M) :
    (c.put m).get? =
      Function.update c.get? (getControlProtocol m) (some m) := by
  funext p
  unfold Controllers.get? Controllers.put
  by_cases hp : p = getControlProtocol m
  · rw [hp, Function.update_self, AList.lookup_insert]
  · rw [Function.update_of_ne hp, AList.lookup_insert_ne hp]

theorem Controllers.get?_remove (c : Controllers M) (protocol : P) :
    (c.remove protocol).get? = Function.update c.get? protocol none := by
  funext p
  unfold Controllers.get? Controllers.remove
  by_cases hp : p = protocol
  · rw [hp, Function.update_self, AList.lookup_erase]
  · rw [Function.update_of_ne hp, AList.lookup_erase_ne hp]

variable [DecidableEq M] [ToString P]

/-- One request, under the faults and the iteration order that come with
it. -/
def Server.serve (w : Server M) (i : Faults M × Operation M) :
    Answer × Server M :=
  (answer (call i.1 i.2 w).1, (call i.1 i.2 w).2)

end Serving

/-! ## Straight lines cut short -/

section Lines

variable [DecidableEq M]

theorem Call.mem_active_effect (c : Call M) (e : Components M) (m : M) :
    m ∈ (c.effect e).active ↔
      (m ∈ e.active ∧ c ≠ .deactivate m) ∨ c = .activate m := by
  cases c with
  | activate m' => simp [Call.effect, eq_comm, or_comm]
  | deactivate m' => simp [Call.effect, eq_comm, and_comm]
  | _ => simp [Call.effect]

theorem mem_active_applyAll_of_activate {cs : List (Call M)}
    (h : ∀ m, .deactivate m ∉ cs) (e : Components M) (m : M) :
    m ∈ (Prog.applyAll Call.effect cs e).active ↔
      m ∈ e.active ∨ .activate m ∈ cs := by
  induction cs generalizing e with
  | nil => simp
  | cons c cs ih =>
      have hc : c ≠ .deactivate m := by
        rintro rfl
        exact h m List.mem_cons_self
      rw [Prog.applyAll_cons,
        ih fun m' hm' => h m' (List.mem_cons_of_mem _ hm'),
        Call.mem_active_effect, List.mem_cons]
      simp only [hc, ne_eq, not_false_eq_true, and_true, or_assoc, eq_comm]

theorem mem_active_applyAll_of_deactivate {cs : List (Call M)}
    (h : ∀ m, .activate m ∉ cs) (e : Components M) (m : M) :
    m ∈ (Prog.applyAll Call.effect cs e).active ↔
      m ∈ e.active ∧ .deactivate m ∉ cs := by
  induction cs generalizing e with
  | nil => simp
  | cons c cs ih =>
      have hc : c ≠ .activate m := by
        rintro rfl
        exact h m List.mem_cons_self
      rw [Prog.applyAll_cons,
        ih fun m' hm' => h m' (List.mem_cons_of_mem _ hm'),
        Call.mem_active_effect, List.mem_cons]
      simp only [hc, or_false, not_or, and_assoc, ne_eq, eq_comm]

end Lines

section Cut

variable [DecidableEq P] {services : List (Call M)} {f : M → Call M}
  {w : Server M}

/-- The managers a failing line has visited are the loop's, and not all of
them if the loop began. -/
theorem cutShort_of_fails (hservices : ∀ m, f m ∉ services)
    (hf : Function.Injective f) (it : IterationOrder M) {fails : Call M → Bool}
    (h : ∃ c ∈ services ++ (it.arrange w.fields.controllers.values).map f,
      fails c = true) :
    w.directory.CutShort {m | f m ∈
      (services ++ (it.arrange w.fields.controllers.values).map f).takeWhile
        fun c => !fails c} := by
  constructor
  · intro m hm
    rw [Server.mem_managers_directory]
    rcases List.mem_append.mp ((List.takeWhile_sublist _).subset hm) with
      hm | hm
    · exact absurd hm (hservices m)
    · obtain ⟨m', hm', heq⟩ := List.mem_map.mp hm
      rw [← hf heq]
      exact it.mem_arrange.mp hm'
  · obtain ⟨c, hc, hfails⟩ := h
    rcases List.mem_append.mp hc with hservice | hloop
    · -- the line does not come to the loop
      left
      ext m
      have hstop : ∃ c ∈ services, (!fails c) = false :=
        ⟨c, hservice, by simp [hfails]⟩
      rw [takeWhile_append_of_exists hstop]
      simp only [Set.mem_ofPred_eq, Set.mem_empty_iff_false, iff_false]
      intro hm
      exact hservices m ((List.takeWhile_sublist _).subset hm)
    · right
      obtain ⟨m, hm, rfl⟩ := List.mem_map.mp hloop
      intro heq
      have hvisited : m ∈ w.directory.managers :=
        Server.mem_managers_directory.mpr (it.mem_arrange.mp hm)
      rw [← heq] at hvisited
      have hok := List.mem_takeWhile_imp hvisited
      simp [hfails] at hok

/-- A line without failures visits every manager. -/
theorem visited_of_ok (hservices : ∀ m, f m ∉ services)
    (hf : Function.Injective f) (it : IterationOrder M) {fails : Call M → Bool}
    (h : ∀ c ∈ services ++ (it.arrange w.fields.controllers.values).map f,
      fails c = false) :
    {m | f m ∈
      (services ++ (it.arrange w.fields.controllers.values).map f).takeWhile
        fun c => !fails c} = w.directory.managers := by
  have hpass : ∀ c ∈ services ++
      (it.arrange w.fields.controllers.values).map f, (!fails c) = true := by
    intro c hc
    simp [h c hc]
  ext m
  rw [List.takeWhile_eq_self_iff.mpr hpass, Server.mem_managers_directory, Set.mem_ofPred_eq,
    List.mem_append, or_iff_right (hservices m), List.mem_map_of_injective hf,
    it.mem_arrange]

/-- An order that visits the managers of a set first. -/
noncomputable def IterationOrder.before (A : Set M) : IterationOrder M where
  arrange l :=
    have := Classical.decPred (· ∈ A)
    l.filter (fun m => decide (m ∈ A)) ++ l.filter (fun m => !decide (m ∈ A))
  perm := fun l => List.filter_append_perm _ l

/-- The call `f` throws for the managers outside a set, and no other call
does. -/
noncomputable def Faults.outside (f : M → Call M)
    (hsubmit : ∀ m, f m ≠ .submitHeatbeat) (hcancel : ∀ m, f m ≠ .cancel)
    (A : Set M) : Faults M where
  throws c :=
    have := Classical.propDecidable
    decide (∃ m, m ∉ A ∧ f m = c)
  submitHeatbeat_ok := by simp [hsubmit]
  cancel_ok := by simp [hcancel]

/-- Every way to be cut short comes up: a service throws, or the first
manager outside the set does. -/
theorem exists_faults_of_cutShort [DecidableEq M] (services : List (Call M))
    (f : M → Call M) {A : Set M}
    (hcut : w.directory.CutShort A) (hservices : ∀ m, f m ∉ services)
    (hf : Function.Injective f) (hsubmit : ∀ m, f m ≠ .submitHeatbeat)
    (hcancel : ∀ m, f m ≠ .cancel)
    (hservice : ∃ c ∈ services, c ≠ .submitHeatbeat ∧ c ≠ .cancel) :
    ∃ (faults : Faults M) (it : IterationOrder M),
      (∃ c ∈ services ++ (it.arrange w.fields.controllers.values).map f,
        faults.throws c = true) ∧
      ∀ m, f m ∈ (services ++
          (it.arrange w.fields.controllers.values).map f).takeWhile
        (fun c => !faults.throws c) ↔ m ∈ A := by
  obtain ⟨hsub, hempty | hproper⟩ := hcut
  · obtain ⟨c, hc, hcsubmit, hccancel⟩ := hservice
    have hthrows : (Faults.only c hcsubmit hccancel).throws c = true := by
      simp [Faults.only]
    refine ⟨.only c hcsubmit hccancel, .listed M,
      ⟨c, List.mem_append_left _ hc, hthrows⟩, fun m => ?_⟩
    rw [takeWhile_append_of_exists ⟨c, hc, by simp [hthrows]⟩, hempty]
    refine iff_of_false (fun hm => hservices m ?_) (Set.notMem_empty m)
    exact (List.takeWhile_sublist _).subset hm
  · obtain ⟨m₀, hm₀, hout⟩ := Set.exists_of_ssubset (hsub.ssubset_of_ne hproper)
    have hfails : ∀ m, (Faults.outside f hsubmit hcancel A).throws (f m) = true ↔
        m ∉ A := by
      intro m
      simp only [Faults.outside, decide_eq_true_eq]
      constructor
      · rintro ⟨m', hm', heq⟩
        rwa [← hf heq]
      · exact fun hm => ⟨m, hm, rfl⟩
    have hpass : ∀ c ∈ services,
        (!(Faults.outside f hsubmit hcancel A).throws c) = true := by
      intro c hc
      simp only [Faults.outside, Bool.not_eq_true', decide_eq_false_iff_not]
      rintro ⟨m, -, rfl⟩
      exact hservices m hc
    -- the loop takes the managers of `A` first and breaks off after them
    refine ⟨.outside f hsubmit hcancel A, .before A,
      ⟨f m₀, List.mem_append_right _ (List.mem_map_of_mem ?_),
        (hfails m₀).mpr hout⟩, fun m => ⟨fun hm => ?_, fun hm => ?_⟩⟩
    · exact (IterationOrder.mem_arrange _).mpr
        (Server.mem_managers_directory.mp hm₀)
    · have hok := List.mem_takeWhile_imp hm
      by_contra hm'
      rw [(hfails m).mpr hm'] at hok
      exact Bool.false_ne_true hok
    · have hvalue : m ∈ w.fields.controllers.values :=
        Server.mem_managers_directory.mp (hsub hm)
      simp only [IterationOrder.before, List.map_append]
      rw [List.takeWhile_append_of_pos hpass,
        List.takeWhile_append_of_pos]
      · refine List.mem_append_right _ (List.mem_append_left _ ?_)
        exact List.mem_map_of_mem (List.mem_filter.mpr ⟨hvalue, by simpa using hm⟩)
      · intro c hc
        obtain ⟨m', hm', rfl⟩ := List.mem_map.mp hc
        have hmem := (List.mem_filter.mp hm').2
        simp only [decide_eq_true_eq] at hmem
        rw [Bool.not_eq_true', ← Bool.not_eq_true, hfails m']
        exact not_not_intro hmem

end Cut

/-! ## One request -/

variable [DecidableEq M] [DecidableEq P] [ToString P] {w : Server M}

omit [DecidableEq P] [ToString P] in
theorem answer_callAll_of_fails {cs : List (Call M)} {fails : Call M → Bool}
    (h : ∃ c ∈ cs, fails c = true) (w : Server M) :
    answer ((Prog.callAll cs : ServerM M Unit).exec Call.effect fails w).1 =
      .broken := by
  obtain ⟨c, hc⟩ : ∃ c, cs.find? fails = some c := by
    rw [← Option.isSome_iff_exists, List.find?_isSome]
    exact h
  rw [Prog.exec_callAll, hc]
  rfl

theorem serve_start_of_running (h : w.fields.started = true)
    (faults : Faults M) (it : IterationOrder M) :
    w.serve (faults, .start it) =
      (.refused (.illegalState "Media Server already started."), w) := by
  unfold Server.serve
  rw [call_start_of_running it h]
  rfl

theorem serve_stop_of_stopped (h : w.fields.started = false)
    (faults : Faults M) (it : IterationOrder M) :
    w.serve (faults, .stop it) =
      (.refused (.illegalState "Media Server already stopped."), w) := by
  unfold Server.serve
  rw [call_stop_of_stopped it h]
  rfl

theorem directory_start_of_stopped (h : w.fields.started = false)
    (faults : Faults M) (it : IterationOrder M) :
    (w.serve (faults, .start it)).2.directory =
      { w.directory with
        running := true
        active := w.directory.active ∪ {m | .activate m ∈
          (startCalls it w.fields.controllers).takeWhile
            fun c => !faults.throws c} } := by
  unfold Server.serve
  rw [call_start_state h]
  ext m
  · rfl
  · rfl
  · refine mem_active_applyAll_of_activate (fun m' hm' => ?_) w.env m
    simpa [startCalls] using (List.takeWhile_sublist _).subset hm'

theorem directory_stop_of_running (h : w.fields.started = true)
    (faults : Faults M) (it : IterationOrder M) :
    (w.serve (faults, .stop it)).2.directory =
      { w.directory with
        running := false
        active := w.directory.active \ {m | .deactivate m ∈
          (stopCalls it w.fields.controllers).takeWhile
            fun c => !faults.throws c} } := by
  unfold Server.serve
  rw [call_stop_state h]
  ext m
  · rfl
  · rfl
  · refine mem_active_applyAll_of_deactivate (fun m' hm' => ?_) w.env m
    simpa [stopCalls] using (List.takeWhile_sublist _).subset hm'

theorem answer_start_of_fails (h : w.fields.started = false)
    {faults : Faults M} {it : IterationOrder M}
    (hfail : ∃ c ∈ startCalls it w.fields.controllers,
      faults.throws c = true) :
    (w.serve (faults, .start it)).1 = .broken := by
  unfold Server.serve call Operation.body
  rw [exec_start it h]
  exact answer_callAll_of_fails hfail _

theorem answer_start_of_ok (h : w.fields.started = false)
    {faults : Faults M} {it : IterationOrder M}
    (hok : ∀ c ∈ startCalls it w.fields.controllers,
      faults.throws c = false) :
    (w.serve (faults, .start it)).1 = .done := by
  unfold Server.serve call Operation.body
  rw [exec_start it h, Prog.exec_callAll_ok hok]
  rfl

theorem answer_stop_of_fails (h : w.fields.started = true)
    {faults : Faults M} {it : IterationOrder M}
    (hfail : ∃ c ∈ stopCalls it w.fields.controllers,
      faults.throws c = true) :
    (w.serve (faults, .stop it)).1 = .broken := by
  unfold Server.serve call Operation.body
  rw [exec_stop it h]
  exact answer_callAll_of_fails hfail _

theorem answer_stop_of_ok (h : w.fields.started = true)
    {faults : Faults M} {it : IterationOrder M}
    (hok : ∀ c ∈ stopCalls it w.fields.controllers,
      faults.throws c = false) :
    (w.serve (faults, .stop it)).1 = .done := by
  unfold Server.serve call Operation.body
  rw [exec_stop it h, Prog.exec_callAll_ok hok]
  rfl

theorem step_start (w : Server M) (faults : Faults M) (it : IterationOrder M) :
    w.directory.Step .start (w.serve (faults, .start it)).1
      (w.serve (faults, .start it)).2.directory := by
  have hactivate : Function.Injective (Call.activate : M → Call M) :=
    fun m m' heq => Call.activate.inj heq
  cases hrun : w.fields.started with
  | true =>
      rw [serve_start_of_running hrun]
      exact .startRefused hrun
  | false =>
      rw [directory_start_of_stopped hrun]
      by_cases hfail : ∃ c ∈ startCalls it w.fields.controllers,
          faults.throws c = true
      · rw [answer_start_of_fails hrun hfail]
        exact .startBroken hrun (cutShort_of_fails (by simp) hactivate it hfail)
      · have hok : ∀ c ∈ startCalls it w.fields.controllers,
            faults.throws c = false := by simpa using hfail
        rw [answer_start_of_ok hrun hok]
        unfold startCalls at hok ⊢
        rw [visited_of_ok (by simp) hactivate it hok]
        exact .start hrun

theorem step_stop (w : Server M) (faults : Faults M) (it : IterationOrder M) :
    w.directory.Step .stop (w.serve (faults, .stop it)).1
      (w.serve (faults, .stop it)).2.directory := by
  have hdeactivate : Function.Injective (Call.deactivate : M → Call M) :=
    fun m m' heq => Call.deactivate.inj heq
  cases hrun : w.fields.started with
  | false =>
      rw [serve_stop_of_stopped hrun]
      exact .stopRefused hrun
  | true =>
      rw [directory_stop_of_running hrun]
      by_cases hfail : ∃ c ∈ stopCalls it w.fields.controllers,
          faults.throws c = true
      · rw [answer_stop_of_fails hrun hfail]
        exact .stopBroken hrun (cutShort_of_fails (by simp) hdeactivate it hfail)
      · have hok : ∀ c ∈ stopCalls it w.fields.controllers,
            faults.throws c = false := by simpa using hfail
        rw [answer_stop_of_ok hrun hok]
        unfold stopCalls at hok ⊢
        rw [visited_of_ok (by simp) hdeactivate it hok]
        exact .stop hrun

theorem step_addManager (w : Server M) (faults : Faults M)
    (manager : Option M) :
    w.directory.Step (.addManager manager)
      (w.serve (faults, .addManager manager)).1
      (w.serve (faults, .addManager manager)).2.directory := by
  cases manager with
  | none => exact .addNull
  | some m =>
      unfold Server.serve
      cases hfound : w.fields.controllers.get? (getControlProtocol m) with
      | none =>
          rw [call_addManager_of_free (by simp [Controllers.containsKey, hfound])]
          have hfile : Server.directory ⟨{ w.fields with
              controllers := w.fields.controllers.put m }, w.env⟩ =
              w.directory.file m :=
            Directory.ext rfl (Controllers.get?_put _ m) rfl
          rw [hfile]
          exact .add hfound
      | some m' =>
          rw [call_addManager_of_occupied
            (by simp [Controllers.containsKey, hfound])]
          exact .addRefused hfound

theorem step_removeManager (w : Server M) (faults : Faults M)
    (manager : Option M) :
    w.directory.Step (.removeManager manager)
      (w.serve (faults, .removeManager manager)).1
      (w.serve (faults, .removeManager manager)).2.directory := by
  cases manager with
  | none => exact .removeNull
  | some m =>
      unfold Server.serve
      rw [call_removeManager]
      have hdrop : Server.directory ⟨{ w.fields with
          controllers :=
            w.fields.controllers.remove (getControlProtocol m) }, w.env⟩ =
          w.directory.drop (getControlProtocol m) :=
        Directory.ext rfl (Controllers.get?_remove _ _) rfl
      rw [hdrop]
      exact .remove m

/-- The server gives no answer and goes nowhere but as the directory
allows. -/
theorem step_serve (w : Server M) (i : Faults M × Operation M) :
    w.directory.Step i.2.request (w.serve i).1 (w.serve i).2.directory := by
  obtain ⟨faults, op⟩ := i
  cases op with
  | start it => exact step_start w faults it
  | stop it => exact step_stop w faults it
  | addManager manager => exact step_addManager w faults manager
  | removeManager manager => exact step_removeManager w faults manager

omit [DecidableEq M] in
/-- Only a broken request leaves a choice. -/
theorem Directory.Step.unique {d d₁ d₂ : Directory M} {a : Request M}
    {o o' : Answer} (h : d.Step a o d₁) (h' : d.Step a o' d₂)
    (ho : o ≠ .broken) (ho' : o' ≠ .broken) : o = o' ∧ d₁ = d₂ := by
  cases h with
  | startBroken _ _ => exact absurd rfl ho
  | stopBroken _ _ => exact absurd rfl ho
  | start idle =>
      cases h' with
      | start _ => exact ⟨rfl, rfl⟩
      | startBroken _ _ => exact absurd rfl ho'
      | startRefused busy => simp [idle] at busy
  | startRefused busy =>
      cases h' with
      | start idle => simp [idle] at busy
      | startBroken _ _ => exact absurd rfl ho'
      | startRefused _ => exact ⟨rfl, rfl⟩
  | stop busy =>
      cases h' with
      | stop _ => exact ⟨rfl, rfl⟩
      | stopBroken _ _ => exact absurd rfl ho'
      | stopRefused idle => simp [idle] at busy
  | stopRefused idle =>
      cases h' with
      | stop busy => simp [idle] at busy
      | stopBroken _ _ => exact absurd rfl ho'
      | stopRefused _ => exact ⟨rfl, rfl⟩
  | addNull => cases h'; exact ⟨rfl, rfl⟩
  | add free =>
      cases h' with
      | add _ => exact ⟨rfl, rfl⟩
      | addRefused occupied => simp [free] at occupied
  | addRefused occupied =>
      cases h' with
      | add free => simp [free] at occupied
      | addRefused _ => exact ⟨rfl, rfl⟩
  | removeNull => cases h'; exact ⟨rfl, rfl⟩
  | remove m => cases h'; exact ⟨rfl, rfl⟩

theorem serve_none_ne_broken (w : Server M) (op : Operation M) :
    (w.serve (.none, op)).1 ≠ .broken := by
  intro hbroken
  unfold Server.serve at hbroken
  cases hend : (call .none op w).1 with
  | returned _ => simp [hend, answer] at hbroken
  | raised e => simp [hend, answer] at hbroken
  | failed c =>
      have hthrows := Prog.fails_of_exec Call.effect _ hend
      simp at hthrows

/-- An operation that makes the request. -/
def Request.operation : Request M → Operation M
  | .start => .start (.listed M)
  | .stop => .stop (.listed M)
  | .addManager manager => .addManager manager
  | .removeManager manager => .removeManager manager

omit [DecidableEq M] [DecidableEq P] [ToString P] in
theorem Request.request_operation (a : Request M) : a.operation.request = a := by
  cases a <;> rfl

/-- Whatever the directory allows, the server does under some faults and in
some iteration order. -/
theorem exists_serve_of_step {a : Request M} {o : Answer} {d : Directory M}
    (h : w.directory.Step a o d) :
    ∃ i : Faults M × Operation M, i.2.request = a ∧ (w.serve i).1 = o ∧
      (w.serve i).2.directory = d := by
  by_cases ho : o = .broken
  · subst ho
    cases h with
    | startBroken idle cut =>
        obtain ⟨faults, it, hfail, hvisited⟩ :=
          exists_faults_of_cutShort
            [.submitHeatbeat, .mediaSchedulerStart, .taskSchedulerStart,
              .udpManagerStart] .activate
            cut (by simp) (fun m m' heq => Call.activate.inj heq) (by simp)
            (by simp) (by simp)
        refine ⟨(faults, .start it), rfl, answer_start_of_fails idle hfail, ?_⟩
        rw [directory_start_of_stopped idle]
        exact congrArg (fun A => { w.directory with
          running := true, active := w.directory.active ∪ A }) (Set.ext hvisited)
    | stopBroken busy cut =>
        obtain ⟨faults, it, hfail, hvisited⟩ :=
          exists_faults_of_cutShort
            [.udpManagerStop, .taskSchedulerStop, .mediaSchedulerStop, .cancel]
            .deactivate cut (by simp) (fun m m' heq => Call.deactivate.inj heq)
            (by simp) (by simp) (by simp)
        refine ⟨(faults, .stop it), rfl, answer_stop_of_fails busy hfail, ?_⟩
        rw [directory_stop_of_running busy]
        exact congrArg (fun A => { w.directory with
          running := false, active := w.directory.active \ A }) (Set.ext hvisited)
  · refine ⟨(.none, a.operation), a.request_operation, ?_⟩
    have hstep := step_serve w (.none, a.operation)
    rw [a.request_operation] at hstep
    exact hstep.unique h (serve_none_ne_broken w _) ho

/-! ## Whole histories -/

/-- **The directory is exact.** The histories of requests and answers that a
server shows, over all faults and iteration orders, and the directories it
ends in, are those the directory allows. -/
theorem runs_directory_iff (w : Server M) (l : List (Request M × Answer))
    (d : Directory M) :
    Directory.behaviour.Runs w.directory l d ↔
      ∃ is : List (Faults M × Operation M),
        Behaviour.observed Server.serve (fun i => i.2.request) w is = l ∧
        (Behaviour.final Server.serve w is).directory = d := by
  constructor
  · intro h
    exact Behaviour.exists_run_of_realized
      (fun _ _ _ _ hstep => exists_serve_of_step hstep) h
  · rintro ⟨is, rfl, rfl⟩
    exact Behaviour.runs_of_allowed step_serve is w

end MediaServer
