import Mathlib.Data.List.Basic
import Mathlib.Data.List.Induction

/-!
# Runs and exact step conditions

A run is the list of its events, oldest first. A requirement on a run speaks
about one step at a time: the event together with the events before it. The
two results below are what a development needs to turn a safety property of
every reached state into the exact condition on the steps: an invariant that
decides the requirement at each step and that the condition preserves.
-/

namespace Foundation

variable {α : Type*}

/-- `H` holds of every step of the run. -/
def Always (H : List α → α → Prop) (run : List α) : Prop :=
  ∀ pre a, pre ++ [a] <+: run → H pre a

/-- Some step of the run satisfies `O`. -/
def Occurred (O : List α → α → Prop) (run : List α) : Prop :=
  ∃ pre a, pre ++ [a] <+: run ∧ O pre a

/-- A prefix that ends in an event is either the whole run or a prefix of
the run without its last event. -/
theorem concat_prefix_concat {pre run : List α} {a b : α} :
    pre ++ [a] <+: run ++ [b] ↔
      (pre = run ∧ a = b) ∨ pre ++ [a] <+: run := by
  rw [List.prefix_concat_iff]
  constructor
  · rintro (heq | hpre)
    · obtain ⟨hpre, hlast⟩ := List.append_inj' heq rfl
      exact Or.inl ⟨hpre, by simpa using hlast⟩
    · exact Or.inr hpre
  · rintro (⟨rfl, rfl⟩ | hpre)
    · exact Or.inl rfl
    · exact Or.inr hpre

@[simp] theorem always_nil (H : List α → α → Prop) : Always H [] := by
  intro pre a hpre
  simp at hpre

theorem always_concat {H : List α → α → Prop} {run : List α} {a : α} :
    Always H (run ++ [a]) ↔ Always H run ∧ H run a := by
  constructor
  · intro h
    refine ⟨fun pre b hpre => ?_, ?_⟩
    · exact h pre b (concat_prefix_concat.mpr (Or.inr hpre))
    · exact h run a (List.prefix_refl _)
  · rintro ⟨hrun, hlast⟩ pre b hpre
    rcases concat_prefix_concat.mp hpre with ⟨rfl, rfl⟩ | hpre
    · exact hlast
    · exact hrun pre b hpre

/-- A requirement on a given run is one on each of its positions. -/
theorem always_iff_forall_lt {H : List α → α → Prop} {run : List α} :
    Always H run ↔ ∀ i, ∀ h : i < run.length, H (run.take i) (run.get ⟨i, h⟩) := by
  constructor
  · intro halways i h
    apply halways
    rw [List.get_eq_getElem, List.take_append_getElem h]
    exact List.take_prefix _ _
  · rintro h pre a ⟨rest, rfl⟩
    have hi : pre.length < (pre ++ [a] ++ rest).length := by simp
    have hat := h pre.length hi
    simpa using hat

@[simp] theorem not_occurred_nil (O : List α → α → Prop) :
    ¬ Occurred O [] := by
  rintro ⟨pre, a, hpre, -⟩
  simp at hpre

theorem occurred_concat {O : List α → α → Prop} {run : List α} {a : α} :
    Occurred O (run ++ [a]) ↔ Occurred O run ∨ O run a := by
  constructor
  · rintro ⟨pre, b, hpre, hO⟩
    rcases concat_prefix_concat.mp hpre with ⟨rfl, rfl⟩ | hpre
    · exact Or.inr hO
    · exact Or.inl ⟨pre, b, hpre, hO⟩
  · rintro (⟨pre, b, hpre, hO⟩ | hO)
    · exact ⟨pre, b, concat_prefix_concat.mpr (Or.inr hpre), hO⟩
    · exact ⟨run, a, List.prefix_refl _, hO⟩

theorem Occurred.mono {O : List α → α → Prop} {pre run : List α}
    (h : Occurred O pre) (hpre : pre <+: run) : Occurred O run := by
  obtain ⟨first, a, hfirst, hO⟩ := h
  exact ⟨first, a, hfirst.trans hpre, hO⟩

/-- A property of every prefix is a property of the empty run together with
a requirement on every step. -/
theorem forall_prefix_iff_always {P : List α → Prop} (hnil : P [])
    (run : List α) :
    (∀ pre, pre <+: run → P pre) ↔
      Always (fun pre a => P (pre ++ [a])) run := by
  constructor
  · intro h pre a hpre
    exact h _ hpre
  · intro h pre hpre
    induction pre using List.reverseRecOn with
    | nil => exact hnil
    | append_singleton pre a _ => exact h pre a hpre

/-! ## Since -/

/-- Some step of the run satisfies `O`, and every later one `H`. -/
def Since (O H : List α → α → Prop) (run : List α) : Prop :=
  ∃ pre a, pre ++ [a] <+: run ∧ O pre a ∧
    ∀ mid b, pre ++ [a] <+: mid → mid ++ [b] <+: run → H mid b

@[simp] theorem not_since_nil (O H : List α → α → Prop) : ¬ Since O H [] := by
  rintro ⟨pre, a, hpre, -⟩
  simp at hpre

theorem since_concat {O H : List α → α → Prop} {run : List α} {b : α} :
    Since O H (run ++ [b]) ↔ O run b ∨ (Since O H run ∧ H run b) := by
  constructor
  · rintro ⟨pre, a, hpre, hO, hH⟩
    rcases concat_prefix_concat.mp hpre with ⟨rfl, rfl⟩ | hpre
    · exact Or.inl hO
    · refine Or.inr ⟨⟨pre, a, hpre, hO, fun mid c hmid hc => ?_⟩, ?_⟩
      · exact hH mid c hmid (hc.trans (List.prefix_append _ _))
      · exact hH run b hpre (List.prefix_refl _)
  · rintro (hO | ⟨⟨pre, a, hpre, hO, hH⟩, hlast⟩)
    · refine ⟨run, b, List.prefix_refl _, hO, fun mid c hmid hc => ?_⟩
      -- no step comes after the last one
      have hlong := (hmid.trans (List.prefix_append mid [c])).length_le
      have hshort := hc.length_le
      have hmid := hmid.length_le
      simp only [List.length_append, List.length_singleton] at *
      omega
    · refine ⟨pre, a, hpre.trans (List.prefix_append _ _), hO,
        fun mid c hmid hc => ?_⟩
      rcases concat_prefix_concat.mp hc with ⟨rfl, rfl⟩ | hc
      · exact hlast
      · exact hH mid c hmid hc

/-- **Since rule.** What is false at first, and after a step holds if the step
brings it about or it held and the step keeps it, holds exactly since some
step brought it about. -/
theorem iff_since {P : List α → Prop} {O H : List α → α → Prop} (hnil : ¬ P [])
    (step : ∀ run a, P (run ++ [a]) ↔ O run a ∨ (P run ∧ H run a))
    (run : List α) : P run ↔ Since O H run := by
  induction run using List.reverseRecOn with
  | nil => exact iff_of_false hnil (not_since_nil O H)
  | append_singleton run a ih => rw [step, since_concat, ih]

/-! ## Histories -/

section History

variable {S H : Type*} (next : S → α → S) (record : H → S → α → H)

/-- What is written down beside a run, step by step. -/
def history (s : S) (h : H) (run : List α) : H :=
  (run.foldl (fun (s, h) a => (next s a, record h s a)) (s, h)).2

@[simp] theorem history_nil (s : S) (h : H) :
    history next record s h [] = h := rfl

theorem history_concat (s : S) (h : H) (run : List α) (a : α) :
    history next record s h (run ++ [a]) =
      record (history next record s h run) (run.foldl next s) a := by
  have hstate : (run.foldl (fun (s, h) a => (next s a, record h s a))
      (s, h)).1 = run.foldl next s := by
    induction run using List.reverseRecOn with
    | nil => rfl
    | append_singleton run a ih =>
        rw [List.foldl_append, List.foldl_append]
        exact congrArg (fun s => next s a) ih
  unfold history
  rw [List.foldl_append, List.foldl_cons, List.foldl_nil, ← hstate]

end History

section Exact

variable {I : List α → Prop} {H G : List α → α → Prop}

/-- **Invariant rule.** What every step under the condition preserves holds
at the end of the run. -/
theorem Always.invariant (init : I [])
    (keep : ∀ run a, I run → G run a → I (run ++ [a]))
    {run : List α} (h : Always G run) : I run := by
  induction run using List.reverseRecOn with
  | nil => exact init
  | append_singleton run a ih =>
      obtain ⟨hrun, hlast⟩ := always_concat.mp h
      exact keep run a (ih hrun) hlast

/-- **Exact condition rule.** If under the invariant the requirement of a
step is equivalent to its condition, and the condition keeps the invariant,
then a run meets the requirement at every step exactly when it meets the
condition at every step. Nothing is asked of the steps after the first
failing one. -/
theorem always_iff_of_invariant (init : I [])
    (keep : ∀ run a, I run → G run a → I (run ++ [a]))
    (exact_step : ∀ run a, I run → (H run a ↔ G run a))
    (run : List α) : Always H run ↔ Always G run := by
  induction run using List.reverseRecOn with
  | nil => simp
  | append_singleton run a ih =>
      rw [always_concat, always_concat, ih]
      refine and_congr_right fun hrun => ?_
      exact exact_step run a (hrun.invariant init keep)

end Exact

end Foundation
