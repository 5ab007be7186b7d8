/-
# Oxydllm.Lib.Extrema — the largest and the smallest value a loop keeps.
-/
import Mathlib.Order.MinMax
import Mathlib.Data.List.Basic

namespace Oxydllm.Extrema

variable {α : Type} [LinearOrder α]

theorem le_foldl_max (a : α) (l : List α) : a ≤ l.foldl max a ∧ ∀ x ∈ l, x ≤ l.foldl max a := by
  induction l generalizing a with
  | nil => exact ⟨le_refl a, fun x hx => absurd hx List.not_mem_nil⟩
  | cons y l ih =>
      obtain ⟨hstart, hall⟩ := ih (max a y)
      refine ⟨(le_max_left a y).trans hstart, fun x hx => ?_⟩
      rcases List.mem_cons.1 hx with rfl | hx
      · exact (le_max_right a x).trans hstart
      · exact hall x hx

theorem foldl_min_le (a : α) (l : List α) : l.foldl min a ≤ a ∧ ∀ x ∈ l, l.foldl min a ≤ x := by
  induction l generalizing a with
  | nil => exact ⟨le_refl a, fun x hx => absurd hx List.not_mem_nil⟩
  | cons y l ih =>
      obtain ⟨hstart, hall⟩ := ih (min a y)
      refine ⟨hstart.trans (min_le_left a y), fun x hx => ?_⟩
      rcases List.mem_cons.1 hx with rfl | hx
      · exact hstart.trans (min_le_right a x)
      · exact hall x hx

theorem foldl_max_mem (a : α) (l : List α) : l.foldl max a = a ∨ l.foldl max a ∈ l := by
  induction l generalizing a with
  | nil => exact .inl rfl
  | cons y l ih =>
      rw [List.foldl_cons]
      rcases ih (max a y) with h | h
      · rw [h]
        rcases max_choice a y with hmax | hmax
        · exact .inl hmax
        · rw [hmax]
          exact .inr List.mem_cons_self
      · exact .inr (List.mem_cons_of_mem _ h)

end Oxydllm.Extrema
