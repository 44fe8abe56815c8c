import Mathlib.Data.List.Nodup
import Mathlib.Data.List.TakeWhile

/-!
# Lists

What a scan that stops early has visited, what is left when each element is
kept only where it first occurs, and how texts are joined by a separator.
-/

namespace Foundation

variable {α : Type*}

/-! ## A scan that stops early -/

/-- A scan that stops at the first element outside `p` visits everything in
`p` and `Q` exactly when nothing of the kind stands behind an element
outside `p`. -/
theorem forall_mem_takeWhile_iff {l : List α} (hnd : l.Nodup)
    {p : α → Bool} {Q : α → Prop} :
    (∀ a ∈ l, p a = true → Q a → a ∈ l.takeWhile p) ↔
      l.Pairwise fun a b => p a = false → p b = true → ¬ Q b := by
  induction l with
  | nil => simp
  | cons a l ih =>
      obtain ⟨hal, hnd⟩ := List.nodup_cons.mp hnd
      rw [List.pairwise_cons, List.forall_mem_cons, ← ih hnd]
      cases hp : p a with
      | true =>
          rw [List.takeWhile_cons_of_pos hp]
          constructor
          · rintro ⟨-, hl⟩
            refine ⟨fun b _ hpa => by simp at hpa, fun b hb hpb hQ => ?_⟩
            rcases List.mem_cons.mp (hl b hb hpb hQ) with rfl | hmem
            · exact absurd hb hal
            · exact hmem
          · rintro ⟨-, hl⟩
            exact ⟨fun _ _ => List.mem_cons_self,
              fun b hb hpb hQ => List.mem_cons_of_mem _ (hl b hb hpb hQ)⟩
      | false =>
          rw [List.takeWhile_cons_of_neg (by simp [hp])]
          constructor
          · rintro ⟨-, hl⟩
            refine ⟨fun b hb _ hpb hQ => ?_, fun b hb hpb hQ => ?_⟩
            · exact absurd (hl b hb hpb hQ) List.not_mem_nil
            · exact absurd (hl b hb hpb hQ) List.not_mem_nil
          · rintro ⟨hl, -⟩
            exact ⟨fun h => by simp at h,
              fun b hb hpb hQ => absurd hQ (hl b hb rfl hpb)⟩

/-- A scan that stops inside the first of two lists does not come to the
second. -/
theorem takeWhile_append_of_exists {l₁ l₂ : List α} {p : α → Bool}
    (h : ∃ a ∈ l₁, p a = false) :
    (l₁ ++ l₂).takeWhile p = l₁.takeWhile p := by
  obtain ⟨a, ha, hpa⟩ := h
  have hshort : (l₁.takeWhile p).length ≠ l₁.length := by
    intro hlen
    have hall := (List.takeWhile_prefix p).eq_of_length hlen
    have hok := List.takeWhile_eq_self_iff.mp hall a ha
    simp [hpa] at hok
  rw [List.takeWhile_append, if_neg hshort]

/-! ## First occurrences -/

section FirstOccurrences

variable [DecidableEq α]

theorem nodup_eraseDups (l : List α) : l.eraseDups.Nodup := by
  induction hlen : l.length using Nat.strongRecOn generalizing l with
  | ind n ih =>
      cases l with
      | nil => simp
      | cons a l =>
          rw [List.eraseDups_cons, List.nodup_cons]
          refine ⟨by simp, ih _ ?_ _ rfl⟩
          rw [← hlen]
          exact Nat.lt_succ_of_le (List.length_filter_le _ _)

theorem eraseDups_sublist (l : List α) : l.eraseDups.Sublist l := by
  induction hlen : l.length using Nat.strongRecOn generalizing l with
  | ind n ih =>
      cases l with
      | nil => simp
      | cons a l =>
          rw [List.eraseDups_cons]
          apply List.Sublist.cons_cons
          refine (ih _ ?_ _ rfl).trans List.filter_sublist
          rw [← hlen]
          exact Nat.lt_succ_of_le (List.length_filter_le _ _)

/-- Keeping first occurrences loses none of a kind exactly if none of that
kind occurs twice. -/
theorem filter_eraseDups_eq_iff {p : α → Bool} {l : List α} :
    l.filter p = l.eraseDups.filter p ↔ (l.filter p).Nodup := by
  constructor
  · intro h
    rw [h]
    exact (nodup_eraseDups l).filter p
  · intro h
    have hsub := (eraseDups_sublist l).filter p
    have hperm : (l.eraseDups.filter p).Perm (l.filter p) := by
      rw [List.perm_ext_iff_of_nodup ((nodup_eraseDups l).filter p) h]
      intro a
      simp
    exact (hsub.eq_of_length hperm.length_eq).symm

/-- Two kinds together occur once each exactly if either does. -/
theorem nodup_filter_or_iff {p q : α → Bool} {l : List α} :
    (l.filter fun a => p a || q a).Nodup ↔
      (l.filter p).Nodup ∧ (l.filter q).Nodup := by
  constructor
  · intro h
    constructor
    · refine h.sublist (List.monotone_filter_right l fun a ha => ?_)
      simp [ha]
    · refine h.sublist (List.monotone_filter_right l fun a ha => ?_)
      simp [ha]
  · rintro ⟨hp, hq⟩
    rw [List.nodup_iff_count_le_one] at hp hq ⊢
    intro a
    by_cases hpa : p a = true
    · rw [List.count_filter (by simp [hpa]), ← List.count_filter hpa]
      exact hp a
    · by_cases hqa : q a = true
      · rw [List.count_filter (by simp [hqa]), ← List.count_filter hqa]
        exact hq a
      · rw [List.count_eq_zero.mpr (by simp [hpa, hqa])]
        exact Nat.zero_le 1

end FirstOccurrences

/-! ## Joined texts -/

/-- One more piece at the end of a joined text. -/
theorem intercalate_concat {b : α} {ls : List (List α)} (hls : ls ≠ [])
    (l : List α) :
    [b].intercalate (ls ++ [l]) = [b].intercalate ls ++ b :: l := by
  induction ls with
  | nil => exact absurd rfl hls
  | cons k ls ih =>
      cases ls with
      | nil => simp
      | cons k' ls =>
          have hrest := ih (List.cons_ne_nil k' ls)
          rw [List.cons_append] at hrest
          rw [List.cons_append, List.cons_append, List.intercalate_cons_cons,
            hrest]
          simp

theorem mem_intercalate {a b : α} {ls : List (List α)}
    (h : a ∈ [b].intercalate ls) : a = b ∨ ∃ l ∈ ls, a ∈ l := by
  induction ls with
  | nil => simp at h
  | cons l ls ih =>
      cases ls with
      | nil => exact Or.inr ⟨l, List.mem_cons_self, by simpa using h⟩
      | cons l' ls =>
          rw [List.intercalate_cons_cons, List.mem_append, List.mem_append,
            List.mem_singleton] at h
          rcases h with (hl | hb) | hrest
          · exact Or.inr ⟨l, List.mem_cons_self, hl⟩
          · exact Or.inl hb
          · rcases ih hrest with hb | ⟨k, hk, ha⟩
            · exact Or.inl hb
            · exact Or.inr ⟨k, List.mem_cons_of_mem _ hk, ha⟩

theorem map_intercalate {β : Type*} (f : α → β) (b : α) (ls : List (List α)) :
    ([b].intercalate ls).map f = [f b].intercalate (ls.map (List.map f)) := by
  induction ls with
  | nil => rfl
  | cons l ls ih =>
      cases ls with
      | nil => simp
      | cons l' ls =>
          rw [List.intercalate_cons_cons, List.map_append, List.map_append, ih]
          simp

theorem mem_intercalate_of_mem {a b : α} {ls : List (List α)} {l : List α}
    (hl : l ∈ ls) (ha : a ∈ l) : a ∈ [b].intercalate ls := by
  induction ls with
  | nil => simp at hl
  | cons k ls ih =>
      cases ls with
      | nil =>
          obtain rfl : l = k := by simpa using hl
          simpa using ha
      | cons k' ls =>
          rw [List.intercalate_cons_cons, List.mem_append, List.mem_append]
          rcases List.mem_cons.mp hl with rfl | hl
          · exact Or.inl (Or.inl ha)
          · exact Or.inr (ih hl)

/-- Elements other than the separator are counted piece by piece. -/
theorem countP_intercalate {p : α → Bool} {b : α} (hb : p b = false)
    (ls : List (List α)) :
    ([b].intercalate ls).countP p = ls.flatten.countP p := by
  induction ls with
  | nil => simp
  | cons l ls ih =>
      cases ls with
      | nil => simp
      | cons l' ls =>
          rw [List.intercalate_cons_cons, List.flatten_cons, List.countP_append,
            List.countP_append, List.countP_append, ih]
          simp [hb]

/-- The separators of a joined text of pieces without them. -/
theorem count_intercalate [BEq α] [LawfulBEq α] {b : α} {ls : List (List α)}
    (hls : ls ≠ []) (hb : ∀ l ∈ ls, b ∉ l) :
    ([b].intercalate ls).count b + 1 = ls.length := by
  induction ls with
  | nil => exact absurd rfl hls
  | cons l ls ih =>
      have hl : l.count b = 0 :=
        List.count_eq_zero.mpr (hb l List.mem_cons_self)
      cases ls with
      | nil => simp [hl]
      | cons l' ls =>
          have hrest := ih (List.cons_ne_nil l' ls)
            fun k hk => hb k (List.mem_cons_of_mem _ hk)
          rw [List.intercalate_cons_cons, List.count_append, List.count_append,
            hl, List.count_singleton_self, List.length_cons, ← hrest]
          omega

/-- A prefix without an element ends before it. -/
theorem prefix_of_not_mem {b : α} {l l₁ l₂ : List α} (h : l <+: l₁ ++ b :: l₂)
    (hb : b ∉ l) : l <+: l₁ := by
  have hb' : l₁ ++ [b] <+: l₁ ++ b :: l₂ :=
    (List.prefix_append_right_inj l₁).mpr (List.prefix_append [b] l₂)
  rcases List.prefix_or_prefix_of_prefix h hb' with hl | hl
  · rcases List.prefix_concat_iff.mp hl with rfl | hl
    · exact absurd (List.mem_append_right l₁ (List.mem_singleton_self b)) hb
    · exact hl
  · exact absurd (hl.subset (List.mem_append_right l₁ (List.mem_singleton_self b)))
      hb

/-- No piece of a split text contains the separator. -/
theorem not_mem_of_mem_splitOn [BEq α] [LawfulBEq α] {b : α} {xs l : List α}
    (h : l ∈ xs.splitOn b) : b ∉ l := by
  induction xs generalizing l with
  | nil =>
      obtain rfl : l = [] := by simpa using h
      exact List.not_mem_nil
  | cons a xs ih =>
      rw [List.splitOn_cons_eq_if_modifyHead] at h
      by_cases ha : (a == b) = true
      · rw [if_pos ha] at h
        rcases List.mem_cons.mp h with rfl | h
        · exact List.not_mem_nil
        · exact ih h
      · rw [if_neg ha] at h
        cases hsplit : xs.splitOn b with
        | nil => exact absurd hsplit (List.splitOn_ne_nil b xs)
        | cons k ks =>
            rw [hsplit, List.modifyHead_cons] at h
            rcases List.mem_cons.mp h with rfl | h
            · have hk : b ∉ k := ih (by simp [hsplit])
              rw [List.mem_cons, not_or]
              refine ⟨?_, hk⟩
              rintro rfl
              exact ha (beq_self_eq_true b)
            · exact ih (by simp [hsplit, h])

end Foundation
