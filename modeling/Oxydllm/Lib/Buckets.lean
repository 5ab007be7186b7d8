/-
# Oxydllm.Lib.Buckets — things dealt into numbered cells.

A loop that changes, for each thing, the cell its key names leaves in a cell what the things of that key
leave there (`getElem?_foldl_modify`), and a sum over all things is the sum of the cells' sums
(`sum_cells`).
-/
import Mathlib.Algebra.BigOperators.Group.Finset.Basic
import Mathlib.Tactic

namespace Oxydllm.Buckets

variable {α β M : Type}

/-- The things of a key. -/
def ofKey (key : α → Nat) (e : Nat) (xs : List α) : List α := xs.filter fun x => key x = e

@[simp] theorem ofKey_nil (key : α → Nat) (e : Nat) : ofKey key e [] = [] := rfl

theorem ofKey_cons_eq {key : α → Nat} {e : Nat} {x : α} (h : key x = e) (xs : List α) :
    ofKey key e (x :: xs) = x :: ofKey key e xs := List.filter_cons_of_pos (by simpa using h)

theorem ofKey_cons_ne {key : α → Nat} {e : Nat} {x : α} (h : key x ≠ e) (xs : List α) :
    ofKey key e (x :: xs) = ofKey key e xs := List.filter_cons_of_neg (by simpa using h)

theorem mem_ofKey {key : α → Nat} {e : Nat} {x : α} {xs : List α} : x ∈ ofKey key e xs ↔ x ∈ xs ∧ key x = e := by
  simp [ofKey]

/-- A cell after a loop of changes to cells. -/
theorem getElem?_foldl_modify (key : α → Nat) (put : α → β → β) (xs : List α) (cells : List β) (e : Nat) :
    (xs.foldl (fun c x => c.modify (key x) (put x)) cells)[e]? =
      cells[e]?.map fun b => (ofKey key e xs).foldl (fun b x => put x b) b := by
  induction xs generalizing cells with
  | nil => simp
  | cons x xs ih =>
      rw [List.foldl_cons, ih, List.getElem?_modify, Option.map_eq_map, Option.map_map]
      by_cases h : key x = e
      · simp only [ofKey_cons_eq h, if_pos h]
        rfl
      · simp only [ofKey_cons_ne h, if_neg h]
        rfl

theorem length_foldl_modify (key : α → Nat) (put : α → β → β) (xs : List α) (cells : List β) :
    (xs.foldl (fun c x => c.modify (key x) (put x)) cells).length = cells.length := by
  induction xs generalizing cells with
  | nil => rfl
  | cons x xs ih => rw [List.foldl_cons, ih, List.length_modify]

variable [AddCommMonoid M]

/-- What is added to one cell, thing by thing, is added as one sum. -/
theorem foldl_add (f : α → M) (xs : List α) (m : M) : xs.foldl (fun s x => s + f x) m = m + (xs.map f).sum := by
  induction xs generalizing m with
  | nil => simp
  | cons x xs ih => rw [List.foldl_cons, ih, List.map_cons, List.sum_cons, add_assoc]

theorem sum_map_range (g : Nat → M) (n : Nat) : ((List.range n).map g).sum = ∑ e ∈ Finset.range n, g e := rfl

/-- The cells' sums make the whole sum. -/
theorem sum_cells (key : α → Nat) (f : α → M) (xs : List α) (n : Nat) (h : ∀ x ∈ xs, key x < n) :
    (((List.range n).map fun e => ((ofKey key e xs).map f).sum)).sum = (xs.map f).sum := by
  rw [sum_map_range]
  induction xs with
  | nil => simp
  | cons x xs ih =>
      have hx : key x < n := h x List.mem_cons_self
      have hcell : ∀ e, ((ofKey key e (x :: xs)).map f).sum =
          (if key x = e then f x else 0) + ((ofKey key e xs).map f).sum := fun e => by
        by_cases he : key x = e
        · rw [ofKey_cons_eq he, if_pos he, List.map_cons, List.sum_cons]
        · rw [ofKey_cons_ne he, if_neg he, zero_add]
      simp only [hcell]
      rw [Finset.sum_add_distrib, ih fun y hy => h y (List.mem_cons_of_mem _ hy), Finset.sum_ite_eq,
        if_pos (Finset.mem_range.2 hx), List.map_cons, List.sum_cons]

/-- Cells without things add nothing. -/
theorem sum_filter_of_zero (p : Nat → Bool) (g : Nat → M) (ids : List Nat) (h : ∀ e ∈ ids, p e = false → g e = 0) :
    ((ids.filter p).map g).sum = (ids.map g).sum := by
  induction ids with
  | nil => rfl
  | cons e ids ih =>
      have ih := ih fun e' he' => h e' (List.mem_cons_of_mem _ he')
      cases hp : p e with
      | true => rw [List.filter_cons_of_pos hp, List.map_cons, List.sum_cons, ih, List.map_cons, List.sum_cons]
      | false =>
          rw [List.filter_cons_of_neg (by simp [hp]), ih, List.map_cons, List.sum_cons,
            h e List.mem_cons_self hp, zero_add]

end Oxydllm.Buckets
