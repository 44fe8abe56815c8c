import Mathlib.Data.List.Induction
import MediaServer.Foundation.Program

/-!
# Primitive steps and programs that do not look

`Prog.small` runs a program one read, write or call at a time, for programs
that share their fields with others. A program is *blind* to a part of the
fields if neither its calls nor what it writes elsewhere depends on that part;
`Blind.advance` turns blindness into equal steps from different fields.
`exists_run_of_step` is the rule by which a finer system is matched with a
coarser one run by run.
-/

namespace Foundation

universe u v

/-- **Matching runs.** If every step of the finer system is matched by some
steps of the coarser one, with the same visible ones among them, so is every
run. -/
theorem exists_run_of_step {S T A B : Type*} (next : S → A → S)
    (next' : T → B → T) (shown : A → List B) (visible : B → Bool)
    (R : S → T → Prop)
    (step : ∀ s t a, R s t → ∃ bs : List B, R (next s a) (bs.foldl next' t) ∧
      bs.filter visible = shown a)
    {s : S} {t : T} (h : R s t) (as : List A) :
    ∃ bs : List B, R (as.foldl next s) (bs.foldl next' t) ∧
      bs.filter visible = as.flatMap shown := by
  induction as using List.reverseRecOn with
  | nil => exact ⟨[], h, rfl⟩
  | append_singleton as a ih =>
      obtain ⟨bs, hbs, hvisible⟩ := ih
      obtain ⟨bs', hbs', hvisible'⟩ := step _ _ a hbs
      refine ⟨bs ++ bs', ?_, ?_⟩
      · rw [List.foldl_append, List.foldl_append]
        exact hbs'
      · rw [List.filter_append, hvisible, hvisible', List.flatMap_append,
          List.flatMap_singleton]

namespace Prog

variable {κ σ ε ω : Type u} {α β : Type v}

/-! ## Primitive steps -/

/-- One primitive step of a thread; `none` is a thread that has ended. -/
def small (effect : κ → ω → ω) :
    Option (Prog κ σ ε α) × World σ ω → Option (Prog κ σ ε α) × World σ ω
  | (none, w) => (none, w)
  | (some (.ret _), w) => (none, w)
  | (some (.raise _), w) => (none, w)
  | (some (.read k), w) => (some (k w.fields), w)
  | (some (.write f k), w) => (some k, ⟨f w.fields, w.env⟩)
  | (some (.call c k), w) => (some k, ⟨w.fields, effect c w.env⟩)

/-! ## Blind programs -/

/-- Fields that `r` relates look the same to the program. -/
def Blind (r : σ → σ → Prop) : Prog κ σ ε α → Prop
  | .ret _ => True
  | .raise _ => True
  | .read k => ∀ s, Blind r (k s) ∧ ∀ t, r s t → k s = k t
  | .write f k => (∀ s t, r s t → r (f s) (f t)) ∧ Blind r k
  | .call _ k => Blind r k

variable {r : σ → σ → Prop}

theorem Blind.bind {p : Prog κ σ ε α} (hp : Blind r p)
    {f : α → Prog κ σ ε β} (hf : ∀ a, Blind r (f a)) :
    Blind r (p >>= f) := by
  induction p with
  | ret a => exact hf a
  | raise e => trivial
  | read k ih =>
      intro s
      refine ⟨ih s (hp s).1, fun t hst => ?_⟩
      show (k s >>= f) = (k t >>= f)
      rw [(hp s).2 t hst]
  | write g k ih => exact ⟨hp.1, ih hp.2⟩
  | call c k ih => exact ih hp

/-- Equal fields look the same to every program. -/
theorem blind_eq (p : Prog κ σ ε α) : Blind Eq p := by
  induction p with
  | ret a => trivial
  | raise e => trivial
  | read k ih => exact fun s => ⟨ih s, fun t hst => congrArg k hst⟩
  | write f k ih => exact ⟨fun s t hst => congrArg f hst, ih⟩
  | call c k ih => exact ih

theorem blind_callAll (cs : List κ) :
    Blind r (callAll cs : Prog κ σ ε Unit) := by
  induction cs with
  | nil => trivial
  | cons c cs ih => exact ih

/-- A blind program makes the same call, with the same rest, from related
fields, and leaves related fields. -/
theorem Blind.advance {p : Prog κ σ ε α} (h : Blind r p) {s t : σ}
    (hst : r s t) :
    (p.advance s).2 = (p.advance t).2 ∧
      r (p.advance s).1 (p.advance t).1 := by
  induction p generalizing s t with
  | ret a => exact ⟨rfl, hst⟩
  | raise e => exact ⟨rfl, hst⟩
  | read k ih =>
      rw [advance_read, advance_read, ← (h s).2 t hst]
      exact ih s (h s).1 hst
  | write f k ih => exact ih h.2 (h.1 s t hst)
  | call c k => exact ⟨rfl, hst⟩

theorem Blind.exists_advance {p : Prog κ σ ε α} (h : Blind r p) {s t : σ}
    (hst : r s t) :
    ∃ s' t' rest, p.advance s = (s', rest) ∧ p.advance t = (t', rest) ∧
      r s' t' := by
  obtain ⟨hrest, hrel⟩ := h.advance hst
  exact ⟨_, _, _, rfl, Prod.ext rfl hrest.symm, hrel⟩

theorem Blind.rest {p k : Prog κ σ ε α} (h : Blind r p) {s s' : σ} {c : κ}
    (hadv : p.advance s = (s', some (c, k))) : Blind r k := by
  induction p generalizing s with
  | ret a => simp at hadv
  | raise e => simp at hadv
  | read l ih => exact ih s (h s).1 hadv
  | write f l ih => exact ih h.2 hadv
  | call d l =>
      cases hadv
      exact h

end Prog

end Foundation
