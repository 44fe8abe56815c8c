import Mathlib.Data.List.Induction
import Mathlib.Logic.Relation
import MediaServer.Foundation.SmallStep

/-!
# A thread beside other activity

One thread runs a program at a time, one call a step, while other activity
works on the same fields and components at any moment. A call of the thread
may throw instead of taking effect, and ends its program there. Left alone the
thread does what `Prog.exec` does (`exists_run_exec`).

`Outline` is the proof outline of a program under such interference, computed
along its text: every call meets its contract whatever the other activity has
done before it, and the program may end or be cut off only where the resting
condition holds. `safe_run` turns outlines of all programs into facts about
every reachable state and every call.
-/

namespace Foundation

universe u v v'

/-- The programs a thread can be asked to run and the activity beside it. -/
structure Threads (κ σ ε ω : Type u) (α : Type v) (τ ν : Type*) where
  effect : κ → ω → ω
  mayThrow : κ → Bool
  body : τ → Prog κ σ ε α
  work : ν → World σ ω → World σ ω

/-- The steps of the thread and of the other activity. -/
inductive Action (τ ν : Type*) where
  | invoke (op : τ)
  | advance
  | throw
  | work (a : ν)

/-- The step is one of the thread. -/
def Action.ofThread {τ ν : Type*} : Action τ ν → Bool
  | .work _ => false
  | _ => true

namespace Prog

variable {κ σ ε ω : Type u} {α : Type v}

/-- The next call of the thread throws: the fields are as they stand at that
call, the components are untouched, and the program is over. -/
def throwStep (mayThrow : κ → Bool) :
    Option (Prog κ σ ε α) × World σ ω → Option (Prog κ σ ε α) × World σ ω
  | (none, w) => (none, w)
  | (some p, w) =>
      match p.advance w.fields with
      | (_, none) => (some p, w)
      | (s, some (c, _)) =>
          if mayThrow c then (none, ⟨s, w.env⟩) else (some p, w)

theorem step_control {B : Prog κ σ ε α → Prop} (effect : κ → ω → ω)
    (rest : ∀ p s s' c k, B p → p.advance s = (s', some (c, k)) → B k)
    {s : Option (Prog κ σ ε α) × World σ ω} (h : ∀ p, s.1 = some p → B p) :
    ∀ p, (step effect s).1 = some p → B p := by
  obtain ⟨control, w⟩ := s
  cases control with
  | none => exact nofun
  | some p =>
      intro q hq
      rcases hadv : p.advance w.fields with ⟨this, _ | ⟨c, k⟩⟩
      · simp [step, hadv] at hq
      · simp only [step, hadv] at hq
        rw [← Option.some.inj hq]
        exact rest p w.fields this c k (h p rfl) hadv

theorem throwStep_control {B : Prog κ σ ε α → Prop} (mayThrow : κ → Bool)
    {s : Option (Prog κ σ ε α) × World σ ω} (h : ∀ p, s.1 = some p → B p) :
    ∀ p, (throwStep mayThrow s).1 = some p → B p := by
  obtain ⟨control, w⟩ := s
  cases control with
  | none => exact nofun
  | some p =>
      intro q hq
      rcases hadv : p.advance w.fields with ⟨this, _ | ⟨c, k⟩⟩
      · simp only [throwStep, hadv] at hq
        exact h q hq
      · simp only [throwStep, hadv] at hq
        by_cases hc : mayThrow c = true
        · simp [hc] at hq
        · rw [if_neg hc] at hq
          exact h q hq

end Prog

namespace Threads

variable {κ σ ε ω : Type u} {α : Type v} {τ ν : Type*}

/-- What is left of the thread's program, and the world it runs in. -/
abbrev State (κ σ ε ω : Type u) (α : Type v) : Type (max u v) :=
  Option (Prog κ σ ε α) × World σ ω

/-- The call the thread makes when it advances, and the world it makes it
in. -/
def nextCall (s : State κ σ ε ω α) : Option (κ × World σ ω) :=
  s.1.bind fun p =>
    match p.advance s.2.fields with
    | (_, none) => none
    | (this, some (c, _)) => some (c, ⟨this, s.2.env⟩)

/-- A step of the thread has the effect of its next call and no other. -/
theorem env_step (effect : κ → ω → ω) (s : State κ σ ε ω α) :
    (Prog.step effect s).2.env =
      (nextCall s).elim s.2.env fun call => effect call.1 s.2.env := by
  obtain ⟨control, w⟩ := s
  cases control with
  | none => rfl
  | some p =>
      rcases hadv : p.advance w.fields with ⟨this, _ | ⟨c, k⟩⟩
      · simp [Prog.step, nextCall, hadv]
      · simp [Prog.step, nextCall, hadv]

theorem env_of_nextCall {s : State κ σ ε ω α} {c : κ} {w : World σ ω}
    (h : nextCall s = some (c, w)) : w.env = s.2.env := by
  obtain ⟨control, w₀⟩ := s
  cases control with
  | none => simp [nextCall] at h
  | some p =>
      rcases hadv : p.advance w₀.fields with ⟨this, _ | ⟨d, k⟩⟩
      · simp [nextCall, hadv] at h
      · simp only [nextCall, hadv, Option.bind_some, Option.some.injEq,
          Prod.mk.injEq] at h
        rw [← h.2]

/-- A throw has no effect. -/
theorem env_throwStep (mayThrow : κ → Bool) (s : State κ σ ε ω α) :
    (Prog.throwStep mayThrow s).2.env = s.2.env := by
  obtain ⟨control, w⟩ := s
  cases control with
  | none => rfl
  | some p =>
      unfold Prog.throwStep
      dsimp only
      split
      · rfl
      · split <;> rfl

variable (t : Threads κ σ ε ω α τ ν)

/-- A step that is not enabled changes nothing. -/
def next (s : State κ σ ε ω α) : Action τ ν → State κ σ ε ω α
  | .invoke op => (some (s.1.getD (t.body op)), s.2)
  | .advance => Prog.step t.effect s
  | .throw => Prog.throwStep t.mayThrow s
  | .work a => (s.1, t.work a s.2)

def run (s : State κ σ ε ω α) (actions : List (Action τ ν)) :
    State κ σ ε ω α :=
  actions.foldl t.next s

@[simp] theorem run_nil (s : State κ σ ε ω α) : t.run s [] = s := rfl

theorem run_concat (s : State κ σ ε ω α) (actions : List (Action τ ν))
    (action : Action τ ν) :
    t.run s (actions ++ [action]) = t.next (t.run s actions) action := by
  simp [run, List.foldl_append]

theorem run_replicate_advance (n : Nat) (s : State κ σ ε ω α) :
    t.run s (List.replicate n .advance) = (Prog.step t.effect)^[n] s := by
  induction n generalizing s with
  | zero => rfl
  | succ n ih => exact ih (Prog.step t.effect s)

/-- **Calls at one go.** The thread, left alone, can run a program as at one
go, with the same calls throwing. -/
theorem exists_run_exec {fails : κ → Bool}
    (hmay : ∀ c, fails c = true → t.mayThrow c = true) (op : τ)
    (w : World σ ω) :
    ∃ actions, t.run (none, w) actions =
      (none, ((t.body op).exec t.effect fails w).2) := by
  obtain ⟨n, hn | ⟨q, w', s, c, k, hn, hadv, hfails, hend⟩⟩ :=
    Prog.exec_iterate_step t.effect fails (t.body op) w
  · refine ⟨.invoke op :: List.replicate n .advance, ?_⟩
    rw [← hn]
    exact t.run_replicate_advance n _
  · refine ⟨.invoke op :: List.replicate n .advance ++ [.throw], ?_⟩
    have hbefore : t.run (none, w) (.invoke op :: List.replicate n .advance) =
        (some q, w') :=
      (t.run_replicate_advance n _).trans hn
    rw [run_concat, hbefore, hend]
    simp [next, Prog.throwStep, hadv, hmay c hfails]

section Control

variable {B : Prog κ σ ε α → Prop} (body : ∀ op, B (t.body op))
  (rest : ∀ p s s' c k, B p → p.advance s = (s', some (c, k)) → B k)
  {s : State κ σ ε ω α} (h : ∀ p, s.1 = some p → B p)

include body rest h

theorem next_control (action : Action τ ν) :
    ∀ p, (t.next s action).1 = some p → B p := by
  cases action with
  | invoke op =>
      intro p hp
      cases hcontrol : s.1 with
      | none =>
          simp only [next, hcontrol, Option.getD_none] at hp
          rw [← Option.some.inj hp]
          exact body op
      | some q =>
          simp only [next, hcontrol, Option.getD_some] at hp
          rw [← Option.some.inj hp]
          exact h q hcontrol
  | advance => exact Prog.step_control t.effect rest h
  | throw => exact Prog.throwStep_control t.mayThrow h
  | work a => exact h

/-- The thread only ever runs what the programs leave to their rest. -/
theorem run_control (actions : List (Action τ ν)) :
    ∀ p, (t.run s actions).1 = some p → B p := by
  induction actions using List.reverseRecOn with
  | nil => exact h
  | append_singleton actions action ih =>
      rw [run_concat]
      exact t.next_control body rest ih action

end Control

/-! ## Two runs side by side -/

/-- The threads stand alike, in worlds with related fields and components. -/
structure Alike (r : σ → σ → Prop) (R : ω → ω → Prop)
    (s s' : State κ σ ε ω α) : Prop where
  control : s.1 = s'.1
  fields : r s.2.fields s'.2.fields
  env : R s.2.env s'.2.env

section Alike

variable {r : σ → σ → Prop} {R : ω → ω → Prop} {s s' : State κ σ ε ω α}

theorem Alike.step {effect : κ → ω → ω}
    (keep : ∀ c e e', R e e' → R (effect c e) (effect c e'))
    (blind : ∀ p, s.1 = some p → p.Blind r) (h : Alike r R s s') :
    Alike r R (Prog.step effect s) (Prog.step effect s') := by
  obtain ⟨control, this, e⟩ := s
  obtain ⟨control', that, e'⟩ := s'
  obtain rfl : control = control' := h.control
  have hrel : r this that := h.fields
  have henv : R e e' := h.env
  cases control with
  | none => exact h
  | some p =>
      obtain ⟨this', that', rest, hadv, hadv', hfields⟩ :=
        (blind p rfl).exists_advance hrel
      rcases rest with _ | ⟨c, k⟩
      · simp only [Prog.step, hadv, hadv']
        exact ⟨rfl, hfields, henv⟩
      · simp only [Prog.step, hadv, hadv']
        exact ⟨rfl, hfields, keep c e e' henv⟩

theorem Alike.throwStep (mayThrow : κ → Bool)
    (blind : ∀ p, s.1 = some p → p.Blind r) (h : Alike r R s s') :
    Alike r R (Prog.throwStep mayThrow s) (Prog.throwStep mayThrow s') := by
  obtain ⟨control, this, e⟩ := s
  obtain ⟨control', that, e'⟩ := s'
  obtain rfl : control = control' := h.control
  have hrel : r this that := h.fields
  cases control with
  | none => exact h
  | some p =>
      obtain ⟨this', that', rest, hadv, hadv', hfields⟩ :=
        (blind p rfl).exists_advance hrel
      rcases rest with _ | ⟨c, k⟩
      · simp only [Prog.throwStep, hadv, hadv']
        exact ⟨rfl, hrel, h.env⟩
      · simp only [Prog.throwStep, hadv, hadv']
        by_cases hc : mayThrow c = true
        · rw [if_pos hc, if_pos hc]
          exact ⟨rfl, hfields, h.env⟩
        · rw [if_neg hc, if_neg hc]
          exact ⟨rfl, hrel, h.env⟩

/-- Threads that stand alike make the same call next. -/
theorem Alike.nextCall (blind : ∀ p, s.1 = some p → p.Blind r)
    (h : Alike r R s s') :
    (nextCall s).map Prod.fst = (nextCall s').map Prod.fst := by
  obtain ⟨control, this, e⟩ := s
  obtain ⟨control', that, e'⟩ := s'
  obtain rfl : control = control' := h.control
  have hrel : r this that := h.fields
  cases control with
  | none => rfl
  | some p =>
      obtain ⟨this', that', rest, hadv, hadv', -⟩ :=
        (blind p rfl).exists_advance hrel
      simp only [Threads.nextCall, Option.bind_some, hadv, hadv']
      rcases rest with _ | ⟨c, k⟩ <;> rfl

variable {t} (keep : ∀ c e e', R e e' → R (t.effect c e) (t.effect c e'))
  (body : ∀ op, (t.body op).Blind r)
  (blind : ∀ p, s.1 = some p → p.Blind r)

include body blind in
theorem run_blind (actions : List (Action τ ν)) :
    ∀ p, (t.run s actions).1 = some p → p.Blind r :=
  t.run_control body (fun _ _ _ _ _ hp hadv => hp.rest hadv) blind actions

include keep body blind in
/-- What a step of the thread keeps between two states. -/
theorem Alike.next {actions actions' : List (Action τ ν)}
    (h : Alike r R (t.run s actions) (t.run s' actions'))
    {action : Action τ ν} (hthread : action.ofThread = true) :
    Alike r R (t.run s (actions ++ [action]))
      (t.run s' (actions' ++ [action])) := by
  have hblind := run_blind body blind actions
  rw [run_concat, run_concat]
  cases action with
  | invoke op =>
      refine ⟨?_, h.fields, h.env⟩
      show some ((t.run s actions).1.getD (t.body op)) =
        some ((t.run s' actions').1.getD (t.body op))
      rw [h.control]
  | advance => exact h.step keep hblind
  | throw => exact h.throwStep t.mayThrow hblind
  | work a => cases hthread

include keep body blind in
/-- **Side by side.** What the calls and the other activity keep between the
fields and the components of two states is kept by every run, and the threads
stay alike. -/
theorem Alike.run
    (work : ∀ a (w w' : World σ ω), r w.fields w'.fields → R w.env w'.env →
      r (t.work a w).fields (t.work a w').fields ∧
        R (t.work a w).env (t.work a w').env)
    (h : Alike r R s s') (actions : List (Action τ ν)) :
    Alike r R (t.run s actions) (t.run s' actions) := by
  induction actions using List.reverseRecOn with
  | nil => exact h
  | append_singleton actions action ih =>
      by_cases hthread : action.ofThread = true
      · exact ih.next keep body blind hthread
      · cases action with
        | work a =>
            rw [run_concat, run_concat]
            obtain ⟨hfields, henv⟩ := work a _ _ ih.fields ih.env
            exact ⟨ih.control, hfields, henv⟩
        | _ => exact absurd rfl hthread

include keep body blind in
/-- **With and without.** If the programs are blind to what the other activity
does, the thread is at the same point without it. -/
theorem Alike.run_ofThread
    (work : ∀ a (w w' : World σ ω), r w.fields w'.fields → R w.env w'.env →
      r (t.work a w).fields w'.fields ∧ R (t.work a w).env w'.env)
    (h : Alike r R s s') (actions : List (Action τ ν)) :
    Alike r R (t.run s actions)
      (t.run s' (actions.filter Action.ofThread)) := by
  induction actions using List.reverseRecOn with
  | nil => exact h
  | append_singleton actions action ih =>
      by_cases hthread : action.ofThread = true
      · rw [List.filter_append, List.filter_cons_of_pos hthread,
          List.filter_nil]
        exact ih.next keep body blind hthread
      · cases action with
        | work a =>
            rw [List.filter_append, List.filter_cons_of_neg hthread,
              List.filter_nil, List.append_nil, run_concat]
            obtain ⟨hfields, henv⟩ := work a _ _ ih.fields ih.env
            exact ⟨ih.control, hfields, henv⟩
        | _ => exact absurd rfl hthread

end Alike

/-! ## Interference -/

/-- What the other activity can make of a world. -/
def Reaches : World σ ω → World σ ω → Prop :=
  Relation.ReflTransGen fun w w' => ∃ a, w' = t.work a w

/-- The other activity keeps the condition. -/
def Stable (A : World σ ω → Prop) : Prop := ∀ a w, A w → A (t.work a w)

variable {t}

theorem Stable.of_reaches {A : World σ ω → Prop} (h : t.Stable A)
    {w w' : World σ ω} (hw : A w) (hreach : t.Reaches w w') : A w' := by
  induction hreach with
  | refl => exact hw
  | tail _ hstep ih =>
      obtain ⟨a, rfl⟩ := hstep
      exact h a _ ih

/-! ## Proof outlines -/

section Outline

variable (t) (C : κ → World σ ω → Prop) (J K : World σ ω → Prop)

/-- From `w` on, every call of the program meets its contract `C`, every state
after a call meets `J`, a value is returned only in `Q`, and an exception, the
program's own or that of a call, leaves it only in `K`. -/
def Outline {β : Type v'} :
    Prog κ σ ε β → (β → World σ ω → Prop) → World σ ω → Prop
  | .ret a, Q, w => Q a w
  | .raise _, _, w => K w
  | .read k, Q, w => Outline (k w.fields) Q w
  | .write f k, Q, w => Outline k Q ⟨f w.fields, w.env⟩
  | .call c k, Q, w =>
      C c w ∧ (t.mayThrow c = true → K w) ∧
        ∀ w', t.Reaches ⟨w.fields, t.effect c w.env⟩ w' →
          J w' ∧ Outline k Q w'

variable {t C J K} {β γ : Type v'} {Q : β → World σ ω → Prop}

@[simp] theorem outline_ret {a : β} {w : World σ ω} :
    t.Outline C J K (.ret a : Prog κ σ ε β) Q w ↔ Q a w := Iff.rfl

@[simp] theorem outline_raise {e : ε} {w : World σ ω} :
    t.Outline C J K (.raise e : Prog κ σ ε β) Q w ↔ K w := Iff.rfl

@[simp] theorem outline_read {k : σ → Prog κ σ ε β} {w : World σ ω} :
    t.Outline C J K (.read k) Q w ↔ t.Outline C J K (k w.fields) Q w := Iff.rfl

@[simp] theorem outline_write {f : σ → σ} {k : Prog κ σ ε β}
    {w : World σ ω} :
    t.Outline C J K (.write f k) Q w ↔
      t.Outline C J K k Q ⟨f w.fields, w.env⟩ := Iff.rfl

/-- **Sequence rule.** The second program runs from where the first returns. -/
theorem outline_bind {p : Prog κ σ ε β} {f : β → Prog κ σ ε γ}
    {R : γ → World σ ω → Prop} {w : World σ ω} (h : t.Outline C J K p Q w)
    (rest : ∀ a w, Q a w → t.Outline C J K (f a) R w) :
    t.Outline C J K (p >>= f) R w := by
  induction p generalizing w with
  | ret a => exact rest a w h
  | raise e => exact h
  | read k ih => exact ih w.fields h
  | write g k ih => exact ih (w := ⟨g w.fields, w.env⟩) h
  | call c k ih =>
      obtain ⟨contract, cut, after⟩ := h
      refine ⟨contract, cut, fun w' hreach => ?_⟩
      exact ⟨(after w' hreach).1, ih (after w' hreach).2⟩

theorem Outline.mono {p : Prog κ σ ε β} {R : β → World σ ω → Prop}
    {w : World σ ω} (h : t.Outline C J K p Q w)
    (hQR : ∀ a w, Q a w → R a w) : t.Outline C J K p R w := by
  induction p generalizing w with
  | ret a => exact hQR a w h
  | raise e => exact h
  | read k ih => exact ih w.fields h
  | write g k ih => exact ih (w := ⟨g w.fields, w.env⟩) h
  | call c k ih =>
      obtain ⟨contract, cut, after⟩ := h
      refine ⟨contract, cut, fun w' hreach => ?_⟩
      exact ⟨(after w' hreach).1, ih (after w' hreach).2⟩

/-- **Call rule.** The effect of the call brings about a condition that the
other activity keeps, and the rest runs from any world that meets it. -/
theorem outline_call {A : World σ ω → Prop} (stable : t.Stable A)
    (observed : ∀ w, A w → J w) {c : κ} {k : Prog κ σ ε β} {w : World σ ω}
    (contract : C c w) (cut : t.mayThrow c = true → K w)
    (establish : A ⟨w.fields, t.effect c w.env⟩)
    (rest : ∀ w, A w → t.Outline C J K k Q w) :
    t.Outline C J K (.call c k) Q w := by
  refine ⟨contract, cut, fun w' hreach => ?_⟩
  have hA : A w' := stable.of_reaches establish hreach
  exact ⟨observed w' hA, rest w' hA⟩

/-- **Loop rule.** A straight line of calls, under a condition on the calls
that are still to come. -/
theorem outline_callAll {A : List κ → World σ ω → Prop}
    (stable : ∀ cs, t.Stable (A cs)) (observed : ∀ cs w, A cs w → J w)
    (each : ∀ c cs w, A (c :: cs) w → C c w ∧
      (t.mayThrow c = true → K w) ∧ A cs ⟨w.fields, t.effect c w.env⟩)
    (cs : List κ) {w : World σ ω} (h : A cs w) :
    t.Outline C J K (Prog.callAll cs : Prog κ σ ε Unit) (fun _ => A []) w := by
  induction cs generalizing w with
  | nil => exact h
  | cons c cs ih =>
      obtain ⟨contract, cut, establish⟩ := each c cs w h
      exact outline_call (stable cs) (observed cs) contract cut establish
        fun w hA => ih hA

end Outline

/-! ## Whole runs -/

section Run

variable {C : κ → World σ ω → Prop} {J K : World σ ω → Prop}

/-- Between programs the resting condition holds; within one, the rest of it
has an outline from wherever the other activity may lead. -/
def Safe (t : Threads κ σ ε ω α τ ν) (C : κ → World σ ω → Prop)
    (J K : World σ ω → Prop) : State κ σ ε ω α → Prop
  | (none, w) => K w
  | (some p, w) => ∀ w', t.Reaches w w' → J w' ∧ t.Outline C J K p (fun _ => K) w'

theorem Safe.of_reaches {control : Option (Prog κ σ ε α)} {w w' : World σ ω}
    (rest : t.Stable K) (h : t.Safe C J K (control, w))
    (hreach : t.Reaches w w') : t.Safe C J K (control, w') := by
  cases control with
  | none => exact rest.of_reaches h hreach
  | some p => exact fun w'' hreach' => h w'' (hreach.trans hreach')

/-- An outline says all there is to say about one step of the thread. -/
theorem Outline.advance {p : Prog κ σ ε α} {w : World σ ω}
    (h : t.Outline C J K p (fun _ => K) w) :
    (∃ s, p.advance w.fields = (s, none) ∧ K ⟨s, w.env⟩) ∨
      ∃ s c k, p.advance w.fields = (s, some (c, k)) ∧
        t.Outline C J K (.call c k) (fun _ => K) ⟨s, w.env⟩ := by
  induction p generalizing w with
  | ret a => exact Or.inl ⟨w.fields, rfl, h⟩
  | raise e => exact Or.inl ⟨w.fields, rfl, h⟩
  | read k ih => exact ih w.fields h
  | write f k ih => exact ih (w := ⟨f w.fields, w.env⟩) h
  | call c k ih => exact Or.inr ⟨w.fields, c, k, rfl, h⟩

theorem Safe.outline {p : Prog κ σ ε α} {w : World σ ω}
    (h : t.Safe C J K (some p, w)) :
    t.Outline C J K p (fun _ => K) w :=
  (h w .refl).2

theorem safe_advance {s : State κ σ ε ω α} (h : t.Safe C J K s) :
    t.Safe C J K (Prog.step t.effect s) := by
  obtain ⟨control, w⟩ := s
  cases control with
  | none => exact h
  | some p =>
      rcases h.outline.advance with ⟨s, hend, hK⟩ | ⟨s, c, k, hcall, hout⟩
      · simp only [Prog.step, hend]
        exact hK
      · simp only [Prog.step, hcall]
        exact hout.2.2

theorem safe_throw {s : State κ σ ε ω α} (h : t.Safe C J K s) :
    t.Safe C J K (Prog.throwStep t.mayThrow s) := by
  obtain ⟨control, w⟩ := s
  cases control with
  | none => exact h
  | some p =>
      rcases h.outline.advance with ⟨s, hend, -⟩ | ⟨s, c, k, hcall, hout⟩
      · simp only [Prog.throwStep, hend]
        exact h
      · simp only [Prog.throwStep, hcall]
        by_cases hc : t.mayThrow c = true
        · rw [if_pos hc]
          exact hout.2.1 hc
        · rw [if_neg hc]
          exact h

/-- **The outline of one program carries over to its run.** -/
theorem safe_run_of_outline (rest : t.Stable K) {p : Prog κ σ ε α}
    {w : World σ ω}
    (outline : ∀ w', t.Reaches w w' → J w' ∧ t.Outline C J K p (fun _ => K) w')
    {actions : List (Action τ ν)} (alone : ∀ op, .invoke op ∉ actions) :
    t.Safe C J K (t.run (some p, w) actions) := by
  induction actions using List.reverseRecOn with
  | nil => exact outline
  | append_singleton actions action ih =>
      have hsafe := ih fun op hop => alone op (List.mem_append_left _ hop)
      rw [run_concat]
      cases action with
      | invoke op => exact absurd List.mem_concat_self (alone op)
      | advance => exact safe_advance hsafe
      | throw => exact safe_throw hsafe
      | work a => exact hsafe.of_reaches rest (.single ⟨a, rfl⟩)

variable (rest : t.Stable K) (observed : ∀ w, K w → J w)
  (outlines : ∀ op w, K w → t.Outline C J K (t.body op) (fun _ => K) w)

include rest observed outlines in
theorem safe_next {s : State κ σ ε ω α} (h : t.Safe C J K s)
    (action : Action τ ν) : t.Safe C J K (t.next s action) := by
  obtain ⟨control, w⟩ := s
  cases action with
  | invoke op =>
      cases control with
      | some p => exact h
      | none =>
          intro w' hreach
          have hK : K w' := rest.of_reaches h hreach
          exact ⟨observed w' hK, outlines op w' hK⟩
  | advance => exact safe_advance h
  | throw => exact safe_throw h
  | work a =>
      have hreach : t.Reaches w (t.work a w) := .single ⟨a, rfl⟩
      exact h.of_reaches rest hreach

include rest observed outlines in
/-- **Outlines carry over to runs.** If every program has an outline from the
resting condition, every run from there is safe, whatever is interleaved with
it and whichever calls throw. -/
theorem safe_run {w : World σ ω} (h : K w) (actions : List (Action τ ν)) :
    t.Safe C J K (t.run (none, w) actions) := by
  induction actions using List.reverseRecOn with
  | nil => exact h
  | append_singleton actions action ih =>
      rw [run_concat]
      exact safe_next rest observed outlines ih action

end Run

/-! What a safe state promises. -/

section Promise

variable {C : κ → World σ ω → Prop} {J K : World σ ω → Prop}

theorem Safe.observed {s : State κ σ ε ω α} (h : t.Safe C J K s)
    (observed : ∀ w, K w → J w) : J s.2 := by
  obtain ⟨control, w⟩ := s
  cases control with
  | none => exact observed w h
  | some p => exact (h w .refl).1

/-- The call a safe thread is about to make meets its contract. -/
theorem Safe.contract {s : State κ σ ε ω α} (h : t.Safe C J K s) {c : κ}
    {w : World σ ω} (hcall : nextCall s = some (c, w)) : C c w := by
  obtain ⟨control, w₀⟩ := s
  cases control with
  | none => simp [nextCall] at hcall
  | some p =>
      rcases h.outline.advance with ⟨s, hend, -⟩ | ⟨s, d, k, hd, hout⟩
      · simp [nextCall, hend] at hcall
      · simp only [nextCall, hd, Option.bind_some, Option.some.injEq,
          Prod.mk.injEq] at hcall
        obtain ⟨rfl, rfl⟩ := hcall
        exact hout.1

end Promise

end Threads

end Foundation
