import Mathlib.Data.List.Infix
import Mathlib.Data.List.Basic

/-!
# Global replacement of a fixed-length pattern

A pattern is a test for each of its positions, and has at least one. Global
replacement scans from the left, replaces a match wherever the scan stands at
one and goes on behind it; so the matches are the leftmost ones and do not
overlap.
-/

namespace Foundation

variable {α : Type*}

/-- The list begins with a match of the tests, one element each. -/
def matchesAt : List (α → Bool) → List α → Bool
  | [], _ => true
  | _ :: _, [] => false
  | p :: ps, a :: l => p a && matchesAt ps l

/-- The scan. The first `skip` elements are the rest of a match that has been
replaced already. -/
def replaceFrom (p : α → Bool) (ps : List (α → Bool)) (new : List α) :
    ℕ → List α → List α
  | _, [] => []
  | skip + 1, _ :: l => replaceFrom p ps new skip l
  | 0, a :: l =>
      if p a && matchesAt ps l then
        new ++ replaceFrom p ps new ps.length l
      else
        a :: replaceFrom p ps new 0 l

/-- Replace every match of the pattern `p :: ps` by `new`. -/
def replaceAll (p : α → Bool) (ps : List (α → Bool)) (new l : List α) :
    List α :=
  replaceFrom p ps new 0 l

/-- The tests that a text passes and no other. -/
def literal [BEq α] (w : List α) : List (α → Bool) := w.map fun a b => b == a

theorem matchesAt_literal_iff [BEq α] [LawfulBEq α] {w l : List α} :
    matchesAt (literal w) l = true ↔ w <+: l := by
  induction w generalizing l with
  | nil => simp [literal, matchesAt]
  | cons a w ih =>
      cases l with
      | nil => simp [literal, matchesAt]
      | cons b l =>
          rw [List.cons_prefix_cons, ← ih, literal, List.map_cons, matchesAt,
            Bool.and_eq_true, beq_iff_eq, eq_comm]
          rfl

theorem length_le_of_matchesAt {ps : List (α → Bool)} {l : List α}
    (h : matchesAt ps l = true) : ps.length ≤ l.length := by
  induction ps generalizing l with
  | nil => exact Nat.zero_le _
  | cons p ps ih =>
      cases l with
      | nil => simp [matchesAt] at h
      | cons a l =>
          simp only [matchesAt, Bool.and_eq_true] at h
          exact Nat.succ_le_succ (ih h.2)

/-- A match cannot run over an element that none of its tests accepts. -/
theorem matchesAt_append_cons {ps : List (α → Bool)} {b : α}
    (hb : ∀ p ∈ ps, p b = false) (l t : List α) :
    matchesAt ps (l ++ b :: t) = matchesAt ps l := by
  induction ps generalizing l with
  | nil => rfl
  | cons p ps ih =>
      cases l with
      | nil => simp [matchesAt, hb p List.mem_cons_self]
      | cons a l =>
          rw [List.cons_append, matchesAt, matchesAt,
            ih fun q hq => hb q (List.mem_cons_of_mem _ hq)]

section Replace

variable {p : α → Bool} {ps : List (α → Bool)} {new : List α}

@[simp] theorem replaceAll_nil : replaceAll p ps new [] = [] := rfl

theorem replaceAll_cons_of_match {a : α} {l : List α}
    (h : (p a && matchesAt ps l) = true) :
    replaceAll p ps new (a :: l) = new ++ replaceFrom p ps new ps.length l :=
  if_pos h

theorem replaceAll_cons_of_not_match {a : α} {l : List α}
    (h : (p a && matchesAt ps l) = false) :
    replaceAll p ps new (a :: l) = a :: replaceAll p ps new l :=
  if_neg (Bool.eq_false_iff.mp h)

theorem replaceFrom_append {b : α} (hb : ∀ q ∈ ps, q b = false) {skip : ℕ}
    {l : List α} (hskip : skip ≤ l.length) (t : List α) :
    replaceFrom p ps new skip (l ++ b :: t) =
      replaceFrom p ps new skip l ++ replaceAll p ps new (b :: t) := by
  induction l generalizing skip with
  | nil =>
      obtain rfl : skip = 0 := Nat.le_zero.mp hskip
      rfl
  | cons a l ih =>
      cases skip with
      | succ skip => exact ih (Nat.le_of_succ_le_succ hskip)
      | zero =>
          -- the tests of a match that begins at `a` end before `b`
          have hcut := matchesAt_append_cons hb l t
          cases hmatch : p a && matchesAt ps l with
          | true =>
              have hlen : ps.length ≤ l.length := by
                simp only [Bool.and_eq_true] at hmatch
                exact length_le_of_matchesAt hmatch.2
              rw [List.cons_append]
              simp only [replaceFrom, hcut, hmatch, if_true]
              rw [ih hlen, List.append_assoc]
          | false =>
              rw [List.cons_append]
              simp only [replaceFrom, hcut, hmatch, Bool.false_eq_true,
                if_false]
              rw [ih (Nat.zero_le _), List.cons_append]

/-- **Cutting rule.** Before an element that only the first test may accept
the text can be cut: both parts are replaced on their own. -/
theorem replaceAll_append {b : α} (hb : ∀ q ∈ ps, q b = false)
    (l t : List α) :
    replaceAll p ps new (l ++ b :: t) =
      replaceAll p ps new l ++ replaceAll p ps new (b :: t) :=
  replaceFrom_append hb (Nat.zero_le _) t

/-- Deleting never makes a text longer. -/
theorem length_replaceFrom_le (skip : ℕ) (l : List α) :
    (replaceFrom p ps [] skip l).length ≤ l.length := by
  induction l generalizing skip with
  | nil => simp [replaceFrom]
  | cons a l ih =>
      cases skip with
      | succ skip => exact (ih skip).trans (Nat.le_succ _)
      | zero =>
          cases hmatch : p a && matchesAt ps l with
          | true =>
              simp only [replaceFrom, hmatch, if_true, List.nil_append]
              exact (ih ps.length).trans (Nat.le_succ _)
          | false =>
              simp only [replaceFrom, hmatch, Bool.false_eq_true, if_false]
              exact Nat.succ_le_succ (ih 0)

/-- **Deletion changes exactly the texts that contain a match.** -/
theorem replaceAll_eq_self_iff {l : List α} :
    replaceAll p ps [] l = l ↔
      ∀ a t, a :: t <:+ l → (p a && matchesAt ps t) = false := by
  induction l with
  | nil => simp
  | cons a l ih =>
      cases hmatch : p a && matchesAt ps l with
      | true =>
          refine iff_of_false (fun hsame => ?_) fun h => ?_
          · rw [replaceAll_cons_of_match hmatch, List.nil_append] at hsame
            have hshort : (replaceFrom p ps [] ps.length l).length ≤ l.length :=
              length_replaceFrom_le ps.length l
            rw [hsame, List.length_cons] at hshort
            omega
          · exact absurd (h a l (List.suffix_refl _)) (by simp [hmatch])
      | false =>
          rw [replaceAll_cons_of_not_match hmatch, List.cons_inj_right, ih]
          constructor
          · intro h b t ht
            rcases List.suffix_cons_iff.mp ht with heq | ht
            · cases heq
              exact hmatch
            · exact h b t ht
          · intro h b t ht
            exact h b t (ht.trans (List.suffix_cons a l))

/-- Replacement invents nothing. -/
theorem mem_of_mem_replaceFrom {skip : ℕ} {l : List α} {a : α}
    (h : a ∈ replaceFrom p ps [] skip l) : a ∈ l := by
  induction l generalizing skip with
  | nil => simp [replaceFrom] at h
  | cons b l ih =>
      cases skip with
      | succ skip => exact List.mem_cons_of_mem _ (ih h)
      | zero =>
          cases hmatch : p b && matchesAt ps l with
          | true =>
              simp only [replaceFrom, hmatch, if_true, List.nil_append] at h
              exact List.mem_cons_of_mem _ (ih h)
          | false =>
              simp only [replaceFrom, hmatch, Bool.false_eq_true,
                if_false] at h
              rcases List.mem_cons.mp h with rfl | h
              · exact List.mem_cons_self
              · exact List.mem_cons_of_mem _ (ih h)

/-- Deletion keeps the rest in order. -/
theorem replaceFrom_sublist (skip : ℕ) (l : List α) :
    (replaceFrom p ps [] skip l).Sublist l := by
  induction l generalizing skip with
  | nil => simp [replaceFrom]
  | cons a l ih =>
      cases skip with
      | succ skip => exact (ih skip).cons a
      | zero =>
          cases hmatch : p a && matchesAt ps l with
          | true =>
              simp only [replaceFrom, hmatch, if_true, List.nil_append]
              exact (ih ps.length).cons a
          | false =>
              simp only [replaceFrom, hmatch, Bool.false_eq_true, if_false]
              exact (ih 0).cons_cons a

/-- **Joined texts.** Where no match can begin at the separator or run over
it, the pieces of a joined text are replaced on their own. -/
theorem replaceAll_intercalate {b : α} (hb : ∀ q ∈ ps, q b = false)
    {ls : List (List α)}
    (hls : ∀ l ∈ ls, ∀ t, (p b && matchesAt ps (l ++ t)) = false) :
    replaceAll p ps new ([b].intercalate ls) =
      [b].intercalate (ls.map (replaceAll p ps new)) := by
  induction ls with
  | nil => rfl
  | cons l ls ih =>
      cases ls with
      | nil => simp
      | cons l' ls =>
          have hrest := ih fun k hk => hls k (List.mem_cons_of_mem _ hk)
          have hstart : ∃ t, [b].intercalate (l' :: ls) = l' ++ t := by
            cases ls with
            | nil => exact ⟨[], by simp⟩
            | cons l'' ls =>
                exact ⟨[b] ++ [b].intercalate (l'' :: ls), by
                  rw [List.intercalate_cons_cons, List.append_assoc]⟩
          obtain ⟨t, ht⟩ := hstart
          have hsep : (p b && matchesAt ps ([b].intercalate (l' :: ls))) =
              false := by
            rw [ht]
            exact hls l' (List.mem_cons_of_mem _ List.mem_cons_self) t
          rw [List.intercalate_cons_cons, List.append_assoc,
            List.singleton_append, replaceAll_append hb,
            replaceAll_cons_of_not_match hsep, hrest]
          simp

end Replace

end Foundation
