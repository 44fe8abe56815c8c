import Mathlib.Data.List.TakeWhile
import Mathlib.Logic.Function.Iterate

/-!
# Programs over private fields and component calls

A program reads and writes the fields of the object it belongs to and calls
components that live outside it. The same program text has three readings:

- `exec`: one run to the end, where any set of calls may fail. A failing call
  changes nothing and ends the run; there is no handler.
- `trace`: the states such a run passes through, one after each call.
- `advance`: one step up to and including the next call, for interleaving a
  program with other activity.

`exec_iterate_step` connects the first and the last.
-/

namespace Foundation

universe u v

/-- A program with calls `κ`, fields `σ` and exceptions `ε`. -/
inductive Prog (κ σ ε : Type u) (α : Type v) : Type (max u v) where
  | ret (a : α)
  | raise (e : ε)
  | read (k : σ → Prog κ σ ε α)
  | write (f : σ → σ) (k : Prog κ σ ε α)
  | call (c : κ) (k : Prog κ σ ε α)

/-- The object's fields and the state of the components around it. -/
structure World (σ ω : Type u) where
  fields : σ
  env : ω

/-- How a run ends: with a value, with an exception of the program's own, or
with the exception of a failing call. -/
inductive Ending (κ ε : Type u) (α : Type v) : Type (max u v) where
  | returned (a : α)
  | raised (e : ε)
  | failed (c : κ)

/-- The run ended with an exception, its own or that of a call. -/
def Ending.threw {κ ε : Type u} {α : Type v} : Ending κ ε α → Bool
  | .returned _ => false
  | .raised _ => true
  | .failed _ => true

namespace Prog

variable {κ σ ε ω : Type u} {α β : Type v}

protected def bind : Prog κ σ ε α → (α → Prog κ σ ε β) → Prog κ σ ε β
  | .ret a, f => f a
  | .raise e, _ => .raise e
  | .read k, f => .read fun s => (k s).bind f
  | .write g k, f => .write g (k.bind f)
  | .call c k, f => .call c (k.bind f)

instance : Monad (Prog κ σ ε) where
  pure := .ret
  bind := Prog.bind

def fields : Prog κ σ ε σ := .read .ret

def modify (f : σ → σ) : Prog κ σ ε Unit := .write f (.ret ⟨⟩)

def invoke (c : κ) : Prog κ σ ε Unit := .call c (.ret ⟨⟩)

@[simp] theorem pure_eq (a : α) : (pure a : Prog κ σ ε α) = .ret a := rfl

@[simp] theorem ret_bind (a : α) (f : α → Prog κ σ ε β) :
    (Prog.ret a >>= f) = f a := rfl

@[simp] theorem raise_bind (e : ε) (f : α → Prog κ σ ε β) :
    ((Prog.raise e : Prog κ σ ε α) >>= f) = .raise e := rfl

@[simp] theorem read_bind (k : σ → Prog κ σ ε α) (f : α → Prog κ σ ε β) :
    (Prog.read k >>= f) = .read fun s => k s >>= f := rfl

@[simp] theorem write_bind (g : σ → σ) (k : Prog κ σ ε α)
    (f : α → Prog κ σ ε β) :
    (Prog.write g k >>= f) = .write g (k >>= f) := rfl

@[simp] theorem call_bind (c : κ) (k : Prog κ σ ε α) (f : α → Prog κ σ ε β) :
    (Prog.call c k >>= f) = .call c (k >>= f) := rfl

@[simp] theorem fields_bind {β : Type u} (f : σ → Prog κ σ ε β) :
    ((fields : Prog κ σ ε σ) >>= f) = .read f := rfl

@[simp] theorem modify_bind {β : Type} (g : σ → σ) (f : Unit → Prog κ σ ε β) :
    (modify g >>= f) = .write g (f ⟨⟩) := rfl

@[simp] theorem invoke_bind {β : Type} (c : κ) (f : Unit → Prog κ σ ε β) :
    (invoke c >>= f) = .call c (f ⟨⟩) := rfl

/-! ## Running to the end -/

section Exec

variable (effect : κ → ω → ω) (fails : κ → Bool)

def exec : Prog κ σ ε α → World σ ω → Ending κ ε α × World σ ω
  | .ret a, w => (.returned a, w)
  | .raise e, w => (.raised e, w)
  | .read k, w => exec (k w.fields) w
  | .write f k, w => exec k ⟨f w.fields, w.env⟩
  | .call c k, w =>
      if fails c then (.failed c, w) else exec k ⟨w.fields, effect c w.env⟩

/-- The state after each call that goes through. -/
def trace : Prog κ σ ε α → World σ ω → List (World σ ω)
  | .ret _, _ => []
  | .raise _, _ => []
  | .read k, w => trace (k w.fields) w
  | .write f k, w => trace k ⟨f w.fields, w.env⟩
  | .call c k, w =>
      if fails c then []
      else ⟨w.fields, effect c w.env⟩ :: trace k ⟨w.fields, effect c w.env⟩

@[simp] theorem exec_ret (a : α) (w : World σ ω) :
    (Prog.ret a : Prog κ σ ε α).exec effect fails w = (.returned a, w) := rfl

@[simp] theorem exec_raise (e : ε) (w : World σ ω) :
    (Prog.raise e : Prog κ σ ε α).exec effect fails w = (.raised e, w) := rfl

@[simp] theorem exec_read (k : σ → Prog κ σ ε α) (w : World σ ω) :
    (Prog.read k).exec effect fails w =
      (k w.fields).exec effect fails w := rfl

@[simp] theorem exec_write (f : σ → σ) (k : Prog κ σ ε α) (w : World σ ω) :
    (Prog.write f k).exec effect fails w =
      k.exec effect fails ⟨f w.fields, w.env⟩ := rfl

theorem exec_call (c : κ) (k : Prog κ σ ε α) (w : World σ ω) :
    (Prog.call c k).exec effect fails w =
      if fails c then (.failed c, w)
      else k.exec effect fails ⟨w.fields, effect c w.env⟩ := rfl

@[simp] theorem trace_ret (a : α) (w : World σ ω) :
    (Prog.ret a : Prog κ σ ε α).trace effect fails w = [] := rfl

@[simp] theorem trace_raise (e : ε) (w : World σ ω) :
    (Prog.raise e : Prog κ σ ε α).trace effect fails w = [] := rfl

@[simp] theorem trace_read (k : σ → Prog κ σ ε α) (w : World σ ω) :
    (Prog.read k).trace effect fails w =
      (k w.fields).trace effect fails w := rfl

@[simp] theorem trace_write (f : σ → σ) (k : Prog κ σ ε α) (w : World σ ω) :
    (Prog.write f k).trace effect fails w =
      k.trace effect fails ⟨f w.fields, w.env⟩ := rfl

theorem trace_call (c : κ) (k : Prog κ σ ε α) (w : World σ ω) :
    (Prog.call c k).trace effect fails w =
      if fails c then []
      else ⟨w.fields, effect c w.env⟩ ::
        k.trace effect fails ⟨w.fields, effect c w.env⟩ := rfl

/-- A sequence runs its second half from where the first half returned, and
not at all when the first half threw. -/
theorem exec_bind (p : Prog κ σ ε α) (f : α → Prog κ σ ε β)
    (w : World σ ω) :
    (p >>= f).exec effect fails w =
      match p.exec effect fails w with
      | (.returned a, w') => (f a).exec effect fails w'
      | (.raised e, w') => (.raised e, w')
      | (.failed c, w') => (.failed c, w') := by
  induction p generalizing w with
  | ret a => rfl
  | raise e => rfl
  | read k ih => exact ih w.fields w
  | write g k ih => exact ih ⟨g w.fields, w.env⟩
  | call c k ih =>
      rw [call_bind, exec_call, exec_call]
      by_cases hc : fails c = true
      · simp only [if_pos hc]
      · simp only [if_neg hc]
        exact ih ⟨w.fields, effect c w.env⟩

/-- A run fails only with a call that fails. -/
theorem fails_of_exec {p : Prog κ σ ε α} {w : World σ ω} {c : κ}
    (h : (p.exec effect fails w).1 = .failed c) : fails c = true := by
  induction p generalizing w with
  | ret a => simp at h
  | raise e => simp at h
  | read k ih => exact ih w.fields h
  | write f k ih => exact ih h
  | call d k ih =>
      rw [exec_call] at h
      by_cases hd : fails d = true
      · rw [if_pos hd] at h
        cases h
        exact hd
      · rw [if_neg hd] at h
        exact ih h

/-- **Side by side.** A relation between components that every call keeps is
kept by every run, and the two runs end alike. -/
theorem exec_related {R : ω → ω → Prop}
    (keep : ∀ c e e', R e e' → R (effect c e) (effect c e'))
    (p : Prog κ σ ε α) (s : σ) {e e' : ω} (h : R e e') :
    (p.exec effect fails ⟨s, e⟩).1 = (p.exec effect fails ⟨s, e'⟩).1 ∧
      (p.exec effect fails ⟨s, e⟩).2.fields =
        (p.exec effect fails ⟨s, e'⟩).2.fields ∧
      R (p.exec effect fails ⟨s, e⟩).2.env
        (p.exec effect fails ⟨s, e'⟩).2.env := by
  induction p generalizing s e e' with
  | ret a => exact ⟨rfl, rfl, h⟩
  | raise x => exact ⟨rfl, rfl, h⟩
  | read k ih => exact ih s s h
  | write f k ih => exact ih (f s) h
  | call c k ih =>
      rw [exec_call, exec_call]
      by_cases hc : fails c = true
      · rw [if_pos hc, if_pos hc]
        exact ⟨rfl, rfl, h⟩
      · rw [if_neg hc, if_neg hc]
        exact ih s (keep c e e' h)

/-- A run leaves the components in the state after its last call. -/
theorem env_exec (p : Prog κ σ ε α) (w : World σ ω) :
    (p.exec effect fails w).2.env =
      ((p.trace effect fails w).getLastD w).env := by
  induction p generalizing w with
  | ret a => rfl
  | raise e => rfl
  | read k ih => exact ih w.fields w
  | write g k ih =>
      rw [exec_write, trace_write, ih]
      -- the two defaults differ in the fields only
      cases k.trace effect fails ⟨g w.fields, w.env⟩ with
      | nil => rfl
      | cons w' l => rfl
  | call c k ih =>
      rw [exec_call, trace_call]
      by_cases hc : fails c = true
      · rw [if_pos hc, if_pos hc]
        rfl
      · rw [if_neg hc, if_neg hc, ih, List.getLastD_cons]

end Exec

/-! ## Straight-line call sequences -/

/-- The program that makes the calls of a list one after the other. -/
def callAll : List κ → Prog κ σ ε Unit
  | [] => .ret ⟨⟩
  | c :: cs => .call c (callAll cs)

/-- The effect of a list of calls on the components. -/
def applyAll (effect : κ → ω → ω) (cs : List κ) (e : ω) : ω :=
  cs.foldl (fun e c => effect c e) e

@[simp] theorem applyAll_nil (effect : κ → ω → ω) (e : ω) :
    applyAll effect [] e = e := rfl

@[simp] theorem applyAll_cons (effect : κ → ω → ω) (c : κ) (cs : List κ)
    (e : ω) : applyAll effect (c :: cs) e = applyAll effect cs (effect c e) := rfl

theorem applyAll_append (effect : κ → ω → ω) (cs ds : List κ) (e : ω) :
    applyAll effect (cs ++ ds) e =
      applyAll effect ds (applyAll effect cs e) := by
  simp [applyAll, List.foldl_append]

/-- An invariant of every call of a list survives the list. -/
theorem applyAll_invariant {effect : κ → ω → ω} {I : ω → Prop} {cs : List κ}
    (keep : ∀ c ∈ cs, ∀ e, I e → I (effect c e)) {e : ω} (he : I e) :
    I (applyAll effect cs e) := by
  induction cs generalizing e with
  | nil => exact he
  | cons c cs ih =>
      exact ih (fun d hd => keep d (List.mem_cons_of_mem _ hd))
        (keep c List.mem_cons_self e he)

/-- A loop whose body is one call is a straight line of calls. -/
theorem forM_invoke {τ : Type*} (f : τ → κ) (l : List τ) :
    (l.forM fun a => (invoke (f a) : Prog κ σ ε Unit)) =
      callAll (l.map f) := by
  induction l with
  | nil => rfl
  | cons a l ih =>
      show (invoke (f a) >>= fun _ => l.forM fun a => invoke (f a)) = _
      rw [invoke_bind, ih]
      rfl

section CallAll

variable {effect : κ → ω → ω} {fails : κ → Bool}

/-- A straight line stops at its first failing call and keeps the effect of
the calls before it. -/
theorem exec_callAll (cs : List κ) (w : World σ ω) :
    (callAll cs : Prog κ σ ε Unit).exec effect fails w =
      ((match cs.find? fails with
        | none => .returned ⟨⟩
        | some c => .failed c),
        ⟨w.fields,
          applyAll effect (cs.takeWhile fun c => !fails c) w.env⟩) := by
  induction cs generalizing w with
  | nil => rfl
  | cons c cs ih =>
      rw [callAll, exec_call]
      by_cases hc : fails c = true
      · simp [hc]
      · rw [if_neg hc, ih]
        simp [hc]

theorem exec_callAll_ok {cs : List κ} (h : ∀ c ∈ cs, fails c = false)
    (w : World σ ω) :
    (callAll cs : Prog κ σ ε Unit).exec effect fails w =
      (.returned ⟨⟩, ⟨w.fields, applyAll effect cs w.env⟩) := by
  have hfind : cs.find? fails = none := by
    rw [List.find?_eq_none]
    intro c hc
    simp [h c hc]
  have htake : (cs.takeWhile fun c => !fails c) = cs := by
    rw [List.takeWhile_eq_self_iff]
    intro c hc
    simp [h c hc]
  rw [exec_callAll, hfind, htake]

theorem exec_callAll_threw_iff {cs : List κ} {w : World σ ω} :
    ((callAll cs : Prog κ σ ε Unit).exec effect fails w).1.threw = true ↔
      ∃ c ∈ cs, fails c = true := by
  rw [exec_callAll]
  cases hfind : cs.find? fails with
  | none =>
      rw [List.find?_eq_none] at hfind
      simpa [Ending.threw] using hfind
  | some c =>
      have hc : fails c = true := List.find?_some hfind
      simp only [Ending.threw, true_iff]
      exact ⟨c, List.mem_of_find?_eq_some hfind, hc⟩

/-- A straight line without failures passes through the states of its first
part and then through those of its second part. -/
theorem trace_callAll_append {cs : List κ} (h : ∀ c ∈ cs, fails c = false)
    (ds : List κ) (w : World σ ω) :
    (callAll (cs ++ ds) : Prog κ σ ε Unit).trace effect fails w =
      (callAll cs : Prog κ σ ε Unit).trace effect fails w ++
        (callAll ds : Prog κ σ ε Unit).trace effect fails
          ⟨w.fields, applyAll effect cs w.env⟩ := by
  induction cs generalizing w with
  | nil =>
      rw [List.nil_append, callAll, trace_ret, List.nil_append]
      rfl
  | cons c cs ih =>
      have hc : ¬ fails c = true := by simp [h c List.mem_cons_self]
      rw [List.cons_append, callAll, trace_call, if_neg hc, callAll,
        trace_call, if_neg hc, ih fun d hd => h d (List.mem_cons_of_mem _ hd)]
      rfl

/-- An invariant of every call of a straight line holds in every state the
line passes through. -/
theorem forall_mem_trace_callAll {I : ω → Prop} {cs : List κ}
    (keep : ∀ c ∈ cs, ∀ e, I e → I (effect c e)) {w : World σ ω}
    (hw : I w.env) :
    ∀ w' ∈ (callAll cs : Prog κ σ ε Unit).trace effect fails w,
      I w'.env := by
  induction cs generalizing w with
  | nil => simp [callAll]
  | cons c cs ih =>
      rw [callAll, trace_call]
      have hnext := keep c List.mem_cons_self w.env hw
      by_cases hc : fails c = true
      · simp [hc]
      · rw [if_neg hc, List.forall_mem_cons]
        exact ⟨hnext, ih (fun d hd => keep d (List.mem_cons_of_mem _ hd))
          (w := ⟨w.fields, effect c w.env⟩) hnext⟩

end CallAll

/-! ## One step at a time -/

/-- Run up to and including the next call: the fields at that point, and the
call with what remains after it; nothing remains when the program ends. -/
def advance : Prog κ σ ε α → σ → σ × Option (κ × Prog κ σ ε α)
  | .ret _, s => (s, none)
  | .raise _, s => (s, none)
  | .read k, s => advance (k s) s
  | .write f k, s => advance k (f s)
  | .call c k, s => (s, some (c, k))

@[simp] theorem advance_ret (a : α) (s : σ) :
    (Prog.ret a : Prog κ σ ε α).advance s = (s, none) := rfl

@[simp] theorem advance_raise (e : ε) (s : σ) :
    (Prog.raise e : Prog κ σ ε α).advance s = (s, none) := rfl

@[simp] theorem advance_read (k : σ → Prog κ σ ε α) (s : σ) :
    (Prog.read k).advance s = (k s).advance s := rfl

@[simp] theorem advance_write (f : σ → σ) (k : Prog κ σ ε α) (s : σ) :
    (Prog.write f k).advance s = k.advance (f s) := rfl

@[simp] theorem advance_call (c : κ) (k : Prog κ σ ε α) (s : σ) :
    (Prog.call c k).advance s = (s, some (c, k)) := rfl

/-- One step of a thread that runs a program against the components; `none`
is an idle thread. -/
def step (effect : κ → ω → ω) :
    Option (Prog κ σ ε α) × World σ ω → Option (Prog κ σ ε α) × World σ ω
  | (none, w) => (none, w)
  | (some p, w) =>
      match p.advance w.fields with
      | (s, none) => (none, ⟨s, w.env⟩)
      | (s, some (c, k)) => (some k, ⟨s, effect c w.env⟩)

/-- **Steps add up to runs.** A thread left alone comes to where the run at one
go ends: it is idle there, or it is about to make the call that fails. -/
theorem exec_iterate_step (effect : κ → ω → ω) (fails : κ → Bool)
    (p : Prog κ σ ε α) (w : World σ ω) :
    ∃ n, (step effect)^[n] (some p, w) = (none, (p.exec effect fails w).2) ∨
      ∃ q w' s c k, (step effect)^[n] (some p, w) = (some q, w') ∧
        q.advance w'.fields = (s, some (c, k)) ∧ fails c = true ∧
        (p.exec effect fails w).2 = ⟨s, w'.env⟩ := by
  induction p generalizing w with
  | ret a => exact ⟨1, Or.inl rfl⟩
  | raise e => exact ⟨1, Or.inl rfl⟩
  | read k ih =>
      obtain ⟨n, hn⟩ := ih w.fields w
      -- a read is part of the step that ends at the next call
      cases n with
      | zero =>
          rcases hn with hn | ⟨_, _, s, c, l, ⟨⟩, hadv, hfails, hend⟩
          · simp at hn
          · exact ⟨0, Or.inr ⟨_, _, s, c, l, rfl, hadv, hfails, hend⟩⟩
      | succ n => exact ⟨n + 1, hn⟩
  | write f k ih =>
      obtain ⟨n, hn⟩ := ih ⟨f w.fields, w.env⟩
      cases n with
      | zero =>
          rcases hn with hn | ⟨_, _, s, c, l, ⟨⟩, hadv, hfails, hend⟩
          · simp at hn
          · exact ⟨0, Or.inr ⟨_, _, s, c, l, rfl, hadv, hfails, hend⟩⟩
      | succ n => exact ⟨n + 1, hn⟩
  | call c k ih =>
      rw [exec_call]
      by_cases hc : fails c = true
      · rw [if_pos hc]
        exact ⟨0, Or.inr ⟨_, _, w.fields, c, k, rfl, rfl, hc, rfl⟩⟩
      · rw [if_neg hc]
        obtain ⟨n, hn⟩ := ih ⟨w.fields, effect c w.env⟩
        exact ⟨n + 1, hn⟩

/-- Every call of the program satisfies `C`, and it writes no field. -/
def CallsOnly (C : κ → Prop) : Prog κ σ ε α → Prop
  | .ret _ => True
  | .raise _ => True
  | .read k => ∀ s, CallsOnly C (k s)
  | .write _ _ => False
  | .call c k => C c ∧ CallsOnly C k

theorem callsOnly_callAll {C : κ → Prop} {cs : List κ}
    (h : ∀ c ∈ cs, C c) : CallsOnly C (callAll cs : Prog κ σ ε Unit) := by
  induction cs with
  | nil => trivial
  | cons c cs ih =>
      exact ⟨h c List.mem_cons_self,
        ih fun d hd => h d (List.mem_cons_of_mem _ hd)⟩

theorem CallsOnly.mono {C D : κ → Prop} {p : Prog κ σ ε α}
    (h : CallsOnly C p) (hCD : ∀ c, C c → D c) : CallsOnly D p := by
  induction p with
  | ret a => trivial
  | raise e => trivial
  | read k ih => exact fun s => ih s (h s)
  | write f k => exact h.elim
  | call c k ih => exact ⟨hCD c h.1, ih h.2⟩

/-- Advancing such a program leaves the fields alone; it either ends or makes
one of its calls and remains such a program. -/
theorem CallsOnly.advance {C : κ → Prop} {p : Prog κ σ ε α}
    (h : CallsOnly C p) (s : σ) :
    p.advance s = (s, none) ∨
      ∃ c k, p.advance s = (s, some (c, k)) ∧ C c ∧ CallsOnly C k := by
  induction p with
  | ret a => exact Or.inl rfl
  | raise e => exact Or.inl rfl
  | read k ih => exact ih s (h s)
  | write f k => exact h.elim
  | call c k => exact Or.inr ⟨c, k, rfl, h.1, h.2⟩

end Prog

end Foundation
