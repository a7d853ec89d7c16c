/-
The words of a text.

`words sep l` are the longest pieces of `l` without a separator, from left to right.

* `words_eq_iff` — they are the words that the text is spaced into, however many
  separators there are between them, before them and behind them.
-/
import Mathlib.Tactic.Common

universe u

variable {α : Type u} {sep : α → Bool} {a : α} {w l : List α} {ws : List (List α)}

def words (sep : α → Bool) (l : List α) : List (List α) :=
  (l.splitOnP sep).filter fun w => !w.isEmpty

/-- The text is these words, with separators between and around them. -/
inductive Spaced (sep : α → Bool) : List (List α) → List α → Prop
  | nil : Spaced sep [] []
  | last {w : List α} (hw : w ≠ []) (hsep : ∀ a ∈ w, sep a = false) : Spaced sep [w] w
  | gap {ws : List (List α)} {l : List α} {a : α} (ha : sep a = true) (h : Spaced sep ws l) :
      Spaced sep ws (a :: l)
  | word {ws : List (List α)} {w l : List α} {a : α} (hw : w ≠ [])
      (hsep : ∀ a ∈ w, sep a = false) (ha : sep a = true) (h : Spaced sep ws l) :
      Spaced sep (w :: ws) (w ++ a :: l)

theorem words_of_forall (hw : w ≠ []) (hsep : ∀ a ∈ w, sep a = false) : words sep w = [w] := by
  rw [words, List.splitOnP_eq_singleton hsep]
  simp [hw]

theorem words_append_cons (hsep : ∀ a ∈ w, sep a = false) (ha : sep a = true) (l : List α) :
    words sep (w ++ a :: l) = (if w = [] then [] else [w]) ++ words sep l := by
  rw [words, List.splitOnP_append_cons_of_forall_mem hsep a ha, List.filter_cons]
  split <;> simp_all [words]

theorem Spaced.words (h : Spaced sep ws l) : words sep l = ws := by
  induction h with
  | nil => rfl
  | last hw hsep => exact words_of_forall hw hsep
  | @gap ws l a ha _ ih =>
    have := words_append_cons (w := []) (by simp) ha l
    rwa [if_pos rfl, List.nil_append, List.nil_append, ih] at this
  | word hw hsep ha _ ih => rw [words_append_cons hsep ha, if_neg hw, ih, List.singleton_append]

theorem spaced_words_append (w l : List α) (hsep : ∀ a ∈ w, sep a = false) :
    Spaced sep (words sep (w ++ l)) (w ++ l) := by
  -- what was read of a word moves over to `w`
  induction l generalizing w with
  | nil =>
    rw [List.append_nil]
    by_cases hw : w = []
    · rw [hw]
      exact .nil
    · rw [words_of_forall hw hsep]
      exact .last hw hsep
  | cons a l ih =>
    by_cases ha : sep a = true
    · have hl : Spaced sep (words sep l) l := ih [] (by simp)
      rw [words_append_cons hsep ha]
      by_cases hw : w = []
      · rw [if_pos hw, hw, List.nil_append, List.nil_append]
        exact .gap ha hl
      · rw [if_neg hw, List.singleton_append]
        exact .word hw hsep ha hl
    · rw [List.append_cons]
      refine ih (w ++ [a]) fun b hb => ?_
      rcases List.mem_append.mp hb with hb | hb
      · exact hsep b hb
      · rw [List.mem_singleton.mp hb]
        exact Bool.eq_false_iff.mpr ha

/-- **The words of a text** are those that it is spaced into. -/
theorem words_eq_iff : words sep l = ws ↔ Spaced sep ws l :=
  ⟨fun h => h ▸ spaced_words_append [] l (by simp), Spaced.words⟩
