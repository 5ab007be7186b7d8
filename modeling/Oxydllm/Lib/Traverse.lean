/-
# Oxydllm.Lib.Traverse — lists mapped through a function that may fail.

What a successful `mapM` says of its results, and when a check of every element succeeds.
-/
import Mathlib.Data.List.Basic
import Mathlib.Data.List.Forall2

namespace Oxydllm.Traverse

variable {α β : Type*} {f : α → Option β} {xs : List α} {ys : List β}

/-- Where the function fails nowhere, leaving out its failures changes nothing. -/
theorem filterMap_of_mapM (h : xs.mapM f = some ys) : xs.filterMap f = ys := by
  induction xs generalizing ys with
  | nil =>
      cases h
      rfl
  | cons x xs ih =>
      rw [List.mapM_cons] at h
      obtain ⟨y, hy, h⟩ := Option.bind_eq_some_iff.1 h
      obtain ⟨ys', hys', h⟩ := Option.bind_eq_some_iff.1 h
      cases h
      rw [List.filterMap_cons_some hy, ih hys']

theorem mem_of_mapM (h : xs.mapM f = some ys) {y : β} (hy : y ∈ ys) : ∃ x ∈ xs, f x = some y := by
  rw [← filterMap_of_mapM h] at hy
  exact List.mem_filterMap.1 hy

/-- What is known of each result is known of the list. -/
theorem map_of_mapM {γ : Type*} (h : xs.mapM f = some ys) {g : β → γ} {k : α → γ} (hg : ∀ x y, f x = some y → g y = k x) :
    ys.map g = xs.map k := by
  induction xs generalizing ys with
  | nil =>
      cases h
      rfl
  | cons x xs ih =>
      rw [List.mapM_cons] at h
      obtain ⟨y, hy, h⟩ := Option.bind_eq_some_iff.1 h
      obtain ⟨ys', hys', h⟩ := Option.bind_eq_some_iff.1 h
      cases h
      rw [List.map_cons, List.map_cons, hg x y hy, ih hys']

theorem mapM_eq_map {g : α → β} (h : ∀ x ∈ xs, f x = some (g x)) : xs.mapM f = some (xs.map g) := by
  induction xs with
  | nil => rfl
  | cons x xs ih =>
      rw [List.mapM_cons, h x List.mem_cons_self, ih fun y hy => h y (List.mem_cons_of_mem _ hy)]
      rfl

theorem isSome_mapM_iff : (xs.mapM f).isSome ↔ ∀ x ∈ xs, (f x).isSome := by
  induction xs with
  | nil => simp
  | cons x xs ih =>
      rw [List.mapM_cons, List.forall_mem_cons, ← ih]
      cases hx : f x with
      | none => simp
      | some y =>
          cases xs.mapM f with
          | none => simp
          | some ys => simp

/-! ## Failures with a message -/

section Except

variable {ε : Type} {α β : Type}

theorem bind_eq_ok {x : Except ε α} {f : α → Except ε β} {r : β} : (x >>= f) = .ok r ↔ ∃ a, x = .ok a ∧ f a = .ok r := by
  constructor
  · intro h
    cases x with
    | error e => cases h
    | ok a => exact ⟨a, rfl, h⟩
  · rintro ⟨a, rfl, h⟩
    exact h

theorem forall₂_of_mapM {f : α → Except ε β} {xs : List α} {ys : List β} (h : xs.mapM f = .ok ys) :
    List.Forall₂ (fun x y => f x = .ok y) xs ys := by
  induction xs generalizing ys with
  | nil =>
      cases h
      exact .nil
  | cons x xs ih =>
      rw [List.mapM_cons] at h
      obtain ⟨y, hy, h⟩ := bind_eq_ok.1 h
      obtain ⟨ys', hys', h⟩ := bind_eq_ok.1 h
      cases h
      exact .cons hy (ih hys')

theorem exists_of_forall₂ {r : α → β → Prop} {xs : List α} {ys : List β} (h : List.Forall₂ r xs ys) :
    ∀ x ∈ xs, ∃ y, r x y := by
  induction h with
  | nil => intro x hx; cases hx
  | cons hxy _ ih =>
      intro x hx
      rcases List.mem_cons.1 hx with rfl | hx
      · exact ⟨_, hxy⟩
      · exact ih x hx

theorem forall₂_imp_of_mem {r s : α → β → Prop} {xs : List α} {ys : List β} (himp : ∀ x ∈ xs, ∀ y, r x y → s x y)
    (h : List.Forall₂ r xs ys) : List.Forall₂ s xs ys := by
  induction h with
  | nil => exact .nil
  | cons hxy _ ih =>
      exact .cons (himp _ List.mem_cons_self _ hxy) (ih fun x hx => himp x (List.mem_cons_of_mem _ hx))

theorem exists_mapM_ok {f : α → Except ε β} {xs : List α} (h : ∀ x ∈ xs, ∃ y, f x = .ok y) : ∃ ys, xs.mapM f = .ok ys := by
  induction xs with
  | nil => exact ⟨[], rfl⟩
  | cons x xs ih =>
      obtain ⟨y, hy⟩ := h x List.mem_cons_self
      obtain ⟨ys, hys⟩ := ih fun z hz => h z (List.mem_cons_of_mem _ hz)
      refine ⟨y :: ys, ?_⟩
      rw [List.mapM_cons, hy, hys]
      rfl

theorem getElem?_of_mapM {f : α → Except ε β} {xs : List α} {ys : List β} (h : xs.mapM f = .ok ys) {n : Nat} {x : α}
    (hn : xs[n]? = some x) : ∃ y, ys[n]? = some y ∧ f x = .ok y := by
  have hall := forall₂_of_mapM h
  obtain ⟨hlt, rfl⟩ := List.getElem?_eq_some_iff.1 hn
  have hlt' : n < ys.length := hall.length_eq ▸ hlt
  exact ⟨ys[n], List.getElem?_eq_getElem hlt', (List.forall₂_iff_get.1 hall).2 n hlt hlt'⟩

theorem forM_ok {check : α → Except ε Unit} {xs : List α} (h : ∀ x ∈ xs, check x = .ok ()) : xs.forM check = .ok () := by
  induction xs with
  | nil => rfl
  | cons x xs ih => exact bind_eq_ok.2 ⟨(), h x List.mem_cons_self, ih fun y hy => h y (List.mem_cons_of_mem _ hy)⟩

theorem forM_error {check : α → Except ε Unit} {xs : List α} (h : ∃ x ∈ xs, check x ≠ .ok ()) :
    ∃ e, xs.forM check = .error e := by
  cases hall : xs.forM check with
  | error e => exact ⟨e, rfl⟩
  | ok u =>
      exfalso
      obtain ⟨x, hx, hbad⟩ := h
      induction xs with
      | nil => cases hx
      | cons y xs ih =>
          obtain ⟨_, hy, hrest⟩ := bind_eq_ok.1 hall
          rcases List.mem_cons.1 hx with rfl | hx
          · exact hbad hy
          · exact ih hrest hx

end Except

end Oxydllm.Traverse
