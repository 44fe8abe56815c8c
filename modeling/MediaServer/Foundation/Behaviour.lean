import Mathlib.Tactic.TypeStar

/-!
# Behaviours and what implements them

A behaviour says which answers a request may get in a state and where it may
lead. A program implements it, seen through an abstraction of its states and
requests, if all it does is allowed (`runs_of_allowed`), and exactly if all
that is allowed is done for some choice of what the behaviour does not see
(`exists_run_of_realized`).
-/

namespace Foundation

/-- Which answer a request may get, and where it may lead. -/
structure Behaviour (D A O : Type*) where
  Step : D → A → O → D → Prop

namespace Behaviour

variable {D A O : Type*}

/-- A run of a behaviour, with the requests and their answers. -/
inductive Runs (b : Behaviour D A O) : D → List (A × O) → D → Prop
  | nil (d : D) : Runs b d [] d
  | cons {d d' d'' : D} {a : A} {o : O} {l : List (A × O)}
      (step : b.Step d a o d') (rest : Runs b d' l d'') :
      Runs b d ((a, o) :: l) d''

section Implementation

variable {S I : Type*} (next : S → I → O × S) (request : I → A)

/-- The requests of a run of the program and the answers they get. -/
def observed (next : S → I → O × S) (request : I → A) :
    S → List I → List (A × O)
  | _, [] => []
  | s, i :: is =>
      (request i, (next s i).1) :: observed next request (next s i).2 is

/-- Where a run of the program leads. -/
def final (s : S) (is : List I) : S := is.foldl (fun s i => (next s i).2) s

theorem final_concat (s : S) (is : List I) (i : I) :
    final next s (is ++ [i]) = (next (final next s is) i).2 := by
  simp [final, List.foldl_append]

variable {next request}

theorem map_fst_observed (s : S) (is : List I) :
    (observed next request s is).map Prod.fst = is.map request := by
  induction is generalizing s with
  | nil => rfl
  | cons i is ih => rw [observed, List.map_cons, List.map_cons, ih]

/-- Related states lead to related states. -/
theorem final_of_related {R : S → S → Prop}
    (step : ∀ s s' i, R s s' → R (next s i).2 (next s' i).2)
    {s s' : S} (h : R s s') (is : List I) :
    R (final next s is) (final next s' is) := by
  induction is generalizing s s' with
  | nil => exact h
  | cons i is ih => exact ih (step s s' i h)

variable {b : Behaviour D A O} {abs : S → D}

/-- **Only what is allowed.** Steps that the behaviour allows make runs that it
allows. -/
theorem runs_of_allowed
    (allowed : ∀ s i,
      b.Step (abs s) (request i) (next s i).1 (abs (next s i).2))
    (is : List I) (s : S) :
    b.Runs (abs s) (observed next request s is) (abs (final next s is)) := by
  induction is generalizing s with
  | nil => exact .nil (abs s)
  | cons i is ih => exact .cons (allowed s i) (ih (next s i).2)

/-- **All that is allowed.** Where every step the behaviour allows is taken
for some input, so is every run. -/
theorem exists_run_of_realized
    (realized : ∀ s a o d, b.Step (abs s) a o d →
      ∃ i, request i = a ∧ (next s i).1 = o ∧ abs (next s i).2 = d)
    {s : S} {l : List (A × O)} {d : D} (h : b.Runs (abs s) l d) :
    ∃ is, observed next request s is = l ∧ abs (final next s is) = d := by
  generalize hstart : abs s = start at h
  induction h generalizing s with
  | nil _ => exact ⟨[], rfl, hstart⟩
  | cons step rest ih =>
      rw [← hstart] at step
      obtain ⟨i, rfl, rfl, hnext⟩ := realized s _ _ _ step
      obtain ⟨is, hobserved, hfinal⟩ := ih hnext
      refine ⟨i :: is, ?_, hfinal⟩
      rw [← hobserved]
      rfl

end Implementation

end Behaviour

end Foundation
