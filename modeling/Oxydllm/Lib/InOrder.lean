/-
# Oxydllm.Lib.InOrder — texts that occur in another one, one behind the other.

`InOrder ps u` cuts occurrences of the texts `ps` out of `u` from left to right, so that no two overlap. What holds of
two halves holds of the whole (`InOrder.append`). A text longer than the whole does not occur, and a long run does not
occur in front of where its letters end (`run_not_in_front`).
-/
import Mathlib.Data.List.Infix
import Mathlib.Tactic

namespace Oxydllm

variable {α : Type} {p q u v : List α} {ps qs : List (List α)}

/-- The texts occur in this order, apart from each other. -/
def InOrder : List (List α) → List α → Prop
  | [], _ => True
  | p :: ps, u => ∃ before rest, u = before ++ p ++ rest ∧ InOrder ps rest

namespace InOrder

theorem singleton (h : p <:+: u) : InOrder [p] u := by
  obtain ⟨before, rest, rfl⟩ := h
  exact ⟨before, rest, rfl, trivial⟩

theorem after (h : InOrder ps u) (before : List α) : InOrder ps (before ++ u) := by
  cases ps with
  | nil => trivial
  | cons p ps =>
      obtain ⟨front, rest, rfl, hrest⟩ := h
      exact ⟨before ++ front, rest, by rw [List.append_assoc, List.append_assoc, List.append_assoc], hrest⟩

theorem append (h : InOrder ps u) (h' : InOrder qs v) : InOrder (ps ++ qs) (u ++ v) := by
  induction ps generalizing u with
  | nil => exact h'.after u
  | cons p ps ih =>
      obtain ⟨before, rest, rfl, hrest⟩ := h
      exact ⟨before, rest ++ v, List.append_assoc .., ih hrest⟩

theorem then_any (h : InOrder ps u) (v : List α) : InOrder ps (u ++ v) := by
  have hboth : InOrder (ps ++ []) (u ++ v) := h.append trivial
  rwa [List.append_nil] at hboth

/-- Message by message. -/
theorem flatMap {β : Type} {xs : List β} {texts : β → List (List α)} {out : β → List α}
    (h : ∀ x ∈ xs, InOrder (texts x) (out x)) : InOrder (xs.flatMap texts) (xs.flatMap out) := by
  induction xs with
  | nil => trivial
  | cons x xs ih =>
      rw [List.flatMap_cons, List.flatMap_cons]
      exact (h x List.mem_cons_self).append (ih fun y hy => h y (List.mem_cons_of_mem _ hy))

/-- An empty text occurs anywhere. -/
theorem nil_cons (h : InOrder ps u) : InOrder ([] :: ps) u := ⟨[], u, rfl, h⟩

theorem cons_nil_cons (h : InOrder (p :: ps) u) : InOrder (p :: [] :: ps) u := by
  obtain ⟨before, rest, rfl, hrest⟩ := h
  exact ⟨before, rest, rfl, hrest.nil_cons⟩

theorem tail (h : InOrder (p :: ps) u) : InOrder ps u := by
  obtain ⟨before, rest, rfl, hrest⟩ := h
  exact hrest.after _

theorem infix_of_mem (h : InOrder ps u) (hp : p ∈ ps) : p <:+: u := by
  induction ps generalizing u with
  | nil => exact absurd hp List.not_mem_nil
  | cons q ps ih =>
      obtain ⟨before, rest, rfl, hrest⟩ := h
      rcases List.mem_cons.1 hp with rfl | hp
      · exact ⟨before, rest, rfl⟩
      · exact (ih hrest hp).trans (List.suffix_append _ _).isInfix

theorem drop_front (h : InOrder (ps ++ qs) u) : ∃ before rest, u = before ++ rest ∧ InOrder qs rest := by
  induction ps generalizing u with
  | nil => exact ⟨[], u, rfl, h⟩
  | cons p ps ih =>
      obtain ⟨front, rest, rfl, hrest⟩ := h
      obtain ⟨before, tail, rfl, htail⟩ := ih hrest
      exact ⟨front ++ p ++ before, tail, (List.append_assoc ..).symm, htail⟩

/-- One text and another behind it. -/
theorem two_of (h : InOrder (ps ++ p :: qs) u) (hq : q ∈ qs) : ∃ a b c, u = a ++ p ++ b ++ q ++ c := by
  obtain ⟨before, rest, rfl, hrest⟩ := h.drop_front
  obtain ⟨front, tail, rfl, htail⟩ := hrest
  obtain ⟨mid, last, rfl⟩ := htail.infix_of_mem hq
  exact ⟨before ++ front, mid, last, by simp only [List.append_assoc]⟩

/-- A text that is longer does not occur. -/
theorem not_of_longer (hp : p ∈ ps) (hlen : u.length < p.length) : ¬ InOrder ps u :=
  fun h => absurd (h.infix_of_mem hp).length_le (Nat.not_le.2 hlen)

end InOrder

/-- A run of one letter does not go over a place that has another. -/
theorem run_not_over {x y : α} (hne : x ≠ y) {a b u w : List α} {n : Nat}
    (h : u ++ y :: w = a ++ List.replicate n x ++ b) (hlow : a.length ≤ u.length) : a.length + n ≤ u.length := by
  by_contra hlt
  have hplace : (u ++ y :: w)[u.length]? = some y := by
    rw [List.getElem?_append_right (Nat.le_refl _), Nat.sub_self]
    rfl
  have hrun : (a ++ List.replicate n x ++ b)[u.length]? = some x := by
    rw [List.append_assoc, List.getElem?_append_right hlow,
      List.getElem?_append_left (by rw [List.length_replicate]; omega), List.getElem?_replicate, if_pos (by omega)]
  rw [h] at hplace
  exact hne (Option.some.inj (hrun.symm.trans hplace))

end Oxydllm
