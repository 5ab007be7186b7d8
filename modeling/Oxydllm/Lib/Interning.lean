/-
# Oxydllm.Lib.Interning — a table of distinct values, and where each of a list of values is in it.

A value already there is pointed at, any other is put at the end. Whatever was pointed at before stays where it
was, so the points stay good while the table grows (`Interned.hit`, `Interned.miss`).
-/
import Mathlib.Data.List.Basic
import Mathlib.Data.List.Nodup
import Mathlib.Data.List.Forall2

namespace Oxydllm.Interning

variable {α : Type}

/-- `points` says of each of the values where the table has it, and the table has nothing else and nothing
twice. -/
structure Interned (table : List α) (points : List Nat) (values : List α) : Prop where
  nodup : table.Nodup
  points : List.Forall₂ (fun i a => table[i]? = some a) points values
  used : ∀ a ∈ table, a ∈ values

variable {table values : List α} {points : List Nat} {a : α}

theorem Interned.nil : Interned ([] : List α) [] [] :=
  ⟨List.nodup_nil, List.Forall₂.nil, fun _ h => absurd h List.not_mem_nil⟩

theorem forall₂_snoc {β : Type} {R : α → β → Prop} {as : List α} {bs : List β} {b : β}
    (h : List.Forall₂ R as bs) (hab : R a b) : List.Forall₂ R (as ++ [a]) (bs ++ [b]) :=
  List.rel_append h (List.Forall₂.cons hab List.Forall₂.nil)

theorem Interned.hit {i : Nat} (h : Interned table points values) (hi : table[i]? = some a) :
    Interned table (points ++ [i]) (values ++ [a]) where
  nodup := h.nodup
  points := forall₂_snoc h.points hi
  used b hb := List.mem_append_left _ (h.used b hb)

theorem Interned.miss (h : Interned table points values) (ha : a ∉ table) :
    Interned (table ++ [a]) (points ++ [table.length]) (values ++ [a]) where
  nodup := by
    refine List.nodup_append.2 ⟨h.nodup, List.nodup_singleton a, ?_⟩
    rintro b hb c hc rfl
    exact ha (List.mem_singleton.1 hc ▸ hb)
  points := by
    refine forall₂_snoc (h.points.imp fun i b hb => ?_) ?_
    · rw [List.getElem?_append_left (List.getElem?_eq_some_iff.1 hb).1]
      exact hb
    · rw [List.getElem?_append_right (Nat.le_refl _), Nat.sub_self]
      rfl
  used b hb := by
    rcases List.mem_append.1 hb with hb | hb
    · exact List.mem_append_left _ (h.used b hb)
    · exact List.mem_append_right _ hb

/-- The entry a value is pointed at. -/
theorem Interned.entry (h : Interned table points values) {n : Nat} (hn : values[n]? = some a) :
    ∃ i, points[n]? = some i ∧ table[i]? = some a := by
  obtain ⟨hlt, rfl⟩ := List.getElem?_eq_some_iff.1 hn
  have hlt' : n < points.length := h.points.length_eq ▸ hlt
  exact ⟨points[n], List.getElem?_eq_getElem hlt', (List.forall₂_iff_get.1 h.points).2 n hlt' hlt⟩

theorem Interned.in_range (h : Interned table points values) {i : Nat} (hi : i ∈ points) : i < table.length := by
  obtain ⟨n, hn, rfl⟩ := List.mem_iff_getElem.1 hi
  have hn' : n < values.length := h.points.length_eq ▸ hn
  have hentry := (List.forall₂_iff_get.1 h.points).2 n hn hn'
  exact (List.getElem?_eq_some_iff.1 hentry).1

/-- Two values are pointed at one entry exactly when they are the same. -/
theorem Interned.same_entry (h : Interned table points values) {m n i j : Nat} {b : α} (hm : values[m]? = some a)
    (hn : values[n]? = some b) (hi : points[m]? = some i) (hj : points[n]? = some j) : i = j ↔ a = b := by
  obtain ⟨i', hi', hia⟩ := h.entry hm
  obtain ⟨j', hj', hjb⟩ := h.entry hn
  cases hi.symm.trans hi'
  cases hj.symm.trans hj'
  constructor
  · rintro rfl
    exact Option.some.inj (hia.symm.trans hjb)
  · rintro rfl
    obtain ⟨hlt, hget⟩ := List.getElem?_eq_some_iff.1 hia
    obtain ⟨hlt', hget'⟩ := List.getElem?_eq_some_iff.1 hjb
    exact (h.nodup.getElem_inj_iff).1 (hget.trans hget'.symm)

end Oxydllm.Interning
