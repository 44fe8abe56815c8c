import Mathlib.Data.Nat.Find
import MediaServer.Foundation.Run

/-!
# Fair infinite runs

An infinite run is the sequence of its actions. The two rules below are what a
liveness argument is put together from: a condition that stays until an event
comes meets the event (`exists_of_next`), and steps that bring a measure down
come to an end (`exists_of_variant`).
-/

namespace Foundation

/-- The first actions of an infinite run. -/
def firstActions {α : Type*} (acts : ℕ → α) (n : ℕ) : List α :=
  (List.range n).map acts

theorem firstActions_succ {α : Type*} (acts : ℕ → α) (n : ℕ) :
    firstActions acts (n + 1) = firstActions acts n ++ [acts n] := by
  simp [firstActions, List.range_succ]

/-- A requirement on every step of an infinite run is one on the run up to any
time. -/
theorem always_firstActions {α : Type*} {acts : ℕ → α}
    {H : List α → α → Prop} (h : ∀ n, H (firstActions acts n) (acts n))
    (n : ℕ) : Always H (firstActions acts n) := by
  induction n with
  | zero => exact always_nil H
  | succ n ih =>
      rw [firstActions_succ]
      exact always_concat.mpr ⟨ih, h n⟩

/-- **Waiting rule.** What stays until an event happens is there when the
event comes next. -/
theorem exists_of_next {P E : ℕ → Prop} {n : ℕ} (next : ∃ m, n ≤ m ∧ E m)
    (keep : ∀ m, n ≤ m → P m → ¬ E m → P (m + 1)) (h : P n) :
    ∃ m, n ≤ m ∧ P m ∧ E m := by
  classical
  have hnext : ∃ k, E (n + k) := by
    obtain ⟨m, hm, hE⟩ := next
    refine ⟨m - n, ?_⟩
    rwa [Nat.add_sub_cancel' hm]
  have hP : ∀ k, k ≤ Nat.find hnext → P (n + k) := by
    intro k
    induction k with
    | zero => exact fun _ => h
    | succ k ih =>
        intro hk
        exact keep (n + k) (Nat.le_add_right n k) (ih (Nat.le_of_succ_le hk))
          (Nat.find_min hnext hk)
  exact ⟨n + Nat.find hnext, Nat.le_add_right n _, hP _ (Nat.le_refl _),
    Nat.find_spec hnext⟩

/-- **Variant rule.** If from every time of a kind the goal comes, or a later
time of the kind at which the measure is smaller, then the goal comes. -/
theorem exists_of_variant {I G : ℕ → Prop} (v : ℕ → ℕ)
    (step : ∀ n, I n → ∃ m, n ≤ m ∧ (G m ∨ I m ∧ v m < v n)) {n : ℕ}
    (h : I n) : ∃ m, n ≤ m ∧ G m := by
  induction hv : v n using Nat.strongRecOn generalizing n with
  | ind k ih =>
      obtain ⟨m, hm, hgoal | ⟨hI, hless⟩⟩ := step n h
      · exact ⟨m, hm, hgoal⟩
      · obtain ⟨l, hl, hgoal⟩ := ih (v m) (hv ▸ hless) hI rfl
        exact ⟨l, Nat.le_trans hm hl, hgoal⟩

end Foundation
