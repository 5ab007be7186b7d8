/-
# Oxydllm.Lib.PathSteps — where a path leads, read as the operating system reads it without links.

A location is the list of names below the root. A path is a list of steps, up or down to a name; above the
root is the root. In its shortest form a path goes up some steps and then down some names (`form`), which says
whether it stays inside the place it starts from (`inside_follow_iff`).
-/
import Mathlib.Data.List.Basic
import Mathlib.Tactic

namespace Oxydllm.PathSteps

variable {α : Type}

inductive Step (α : Type) where
  | up
  | down (name : α)

/-- Where a step leads. -/
def Step.leads (loc : List α) : Step α → List α
  | .up => loc.dropLast
  | .down name => loc ++ [name]

def follow (loc : List α) (steps : List (Step α)) : List α := steps.foldl Step.leads loc

/-- Strictly inside a place. -/
def Inside (base loc : List α) : Prop := ∃ rest, rest ≠ [] ∧ loc = base ++ rest

/-- Some steps up, then some names down. -/
structure Form (α : Type) where
  up : Nat
  down : List α

def Form.step (f : Form α) : Step α → Form α
  | .up =>
      match f.down with
      | [] => { f with up := f.up + 1 }
      | name :: down => { f with down := (name :: down).dropLast }
  | .down name => { f with down := f.down ++ [name] }

/-- The shortest form of a path. -/
def form (steps : List (Step α)) : Form α := steps.foldl Form.step ⟨0, []⟩

def Form.leads (f : Form α) (loc : List α) : List α := loc.take (loc.length - f.up) ++ f.down

theorem Form.leads_step (f : Form α) (loc : List α) (s : Step α) : (f.step s).leads loc = s.leads (f.leads loc) := by
  unfold Form.leads
  obtain ⟨up, down⟩ := f
  cases s with
  | down name => exact (List.append_assoc _ _ _).symm
  | up =>
      cases down with
      | nil =>
          show loc.take (loc.length - (up + 1)) ++ [] = (loc.take (loc.length - up) ++ []).dropLast
          rw [List.append_nil, List.append_nil, List.dropLast_eq_take, List.take_take, List.length_take]
          congr 1
          omega
      | cons name down =>
          show _ ++ (name :: down).dropLast = (_ ++ name :: down).dropLast
          rw [List.dropLast_append_of_ne_nil (List.cons_ne_nil _ _)]
          rfl

/-- A path leads where its shortest form does. -/
theorem follow_eq (loc : List α) (steps : List (Step α)) : follow loc steps = (form steps).leads loc := by
  have hall : ∀ (steps : List (Step α)) (f : Form α),
      steps.foldl Step.leads (f.leads loc) = (steps.foldl Form.step f).leads loc := by
    intro steps
    induction steps with
    | nil => exact fun _ => rfl
    | cons s steps ih =>
        intro f
        rw [List.foldl_cons, List.foldl_cons, ← f.leads_step, ih]
  have hstart : (⟨0, []⟩ : Form α).leads loc = loc := by
    unfold Form.leads
    rw [Nat.sub_zero, List.take_length, List.append_nil]
  have := hall steps ⟨0, []⟩
  rwa [hstart] at this

/-- A path stays inside where it starts when in its shortest form it goes down again by the names it has gone
up, and then further down. -/
def Within (base : List α) (steps : List (Step α)) : Prop :=
  ∃ rest, rest ≠ [] ∧ (form steps).down = base.drop (base.length - (form steps).up) ++ rest

theorem inside_follow_iff (base : List α) (steps : List (Step α)) :
    Inside base (follow base steps) ↔ Within base steps := by
  rw [follow_eq]
  unfold Inside Within Form.leads
  refine exists_congr fun rest => and_congr_right fun _ => ?_
  constructor
  · intro h
    have hsplit := List.take_append_drop (base.length - (form steps).up) base
    rw [← List.append_cancel_left_eq (base.take (base.length - (form steps).up)), h, ← List.append_assoc, hsplit]
  · intro h
    rw [h, ← List.append_assoc, List.take_append_drop]

theorem Inside.down (base : List α) (name : α) : Inside base (follow base [.down name]) :=
  ⟨[name], List.cons_ne_nil _ _, rfl⟩

/-- A child of a place, and of one inside it, is inside. -/
theorem Inside.child {base loc : List α} (h : base <+: loc) (name : α) : Inside base (loc ++ [name]) := by
  obtain ⟨rest, rfl⟩ := h
  exact ⟨rest ++ [name], List.append_ne_nil_of_right_ne_nil _ (List.cons_ne_nil _ _), List.append_assoc _ _ _⟩

/-- What is beside a place is not inside it. -/
theorem not_inside_beside {base : List α} (h : base ≠ []) (name : α) : ¬ Inside base (base.dropLast ++ [name]) := by
  rintro ⟨rest, hrest, heq⟩
  have hlen := congrArg List.length heq
  have hbase := List.length_pos_iff.2 h
  have hpos := List.length_pos_iff.2 hrest
  rw [List.length_append, List.length_append, List.length_dropLast, List.length_singleton] at hlen
  omega

end Oxydllm.PathSteps
