/-
# Oxydllm.Lib.Tally — a table of counts, and updates of a list at given indices.

A tally has an entry for each key that was counted, in some order; counting one more either raises an entry or
makes one (`Counts.addOne`). What a run over entries with distinct indices does to a list is, at each index,
what the entry of that index does (`foldl_modify_entries`), in whatever order they come.
-/
import Mathlib.Data.List.Basic
import Mathlib.Data.List.Nodup
import Mathlib.Data.List.Perm.Basic

namespace Oxydllm.Counting

variable {α β γ : Type} [DecidableEq α]

/-- The entry of a key raised by one, or made. -/
def increment (a : α) : List (α × Nat) → List (α × Nat)
  | [] => [(a, 1)]
  | (b, n) :: rest => if b = a then (b, n + 1) :: rest else (b, n) :: increment a rest

theorem increment_keys (a : α) (l : List (α × Nat)) :
    (increment a l).map Prod.fst = if a ∈ l.map Prod.fst then l.map Prod.fst else l.map Prod.fst ++ [a] := by
  induction l with
  | nil => rfl
  | cons entry rest ih =>
      obtain ⟨b, n⟩ := entry
      by_cases hb : b = a
      · simp [increment, hb]
      · have hne : a ≠ b := Ne.symm hb
        rw [increment, if_neg hb, List.map_cons, List.map_cons, ih]
        by_cases ha : a ∈ rest.map Prod.fst
        · rw [if_pos ha, if_pos (List.mem_cons_of_mem _ ha)]
        · rw [if_neg ha, if_neg (List.not_mem_cons_of_ne_of_not_mem hne ha)]
          rfl

theorem increment_nodup {a : α} {l : List (α × Nat)} (h : (l.map Prod.fst).Nodup) :
    ((increment a l).map Prod.fst).Nodup := by
  rw [increment_keys]
  split
  · exact h
  · rename_i ha
    refine List.nodup_append.2 ⟨h, List.nodup_singleton a, ?_⟩
    rintro b hb c hc rfl
    exact ha (List.mem_singleton.1 hc ▸ hb)

/-- Counts by key. -/
structure Tally (α : Type) where
  entries : List (α × Nat)
  nodup : (entries.map Prod.fst).Nodup

namespace Tally

def empty : Tally α := ⟨[], List.nodup_nil⟩

/-- `*counts.entry(a).or_insert(0) += 1`. -/
def addOne (t : Tally α) (a : α) : Tally α := ⟨increment a t.entries, increment_nodup t.nodup⟩

/-- The counts are those of a list. -/
def Counts (t : Tally α) (xs : List α) : Prop := ∀ a n, (a, n) ∈ t.entries ↔ n = xs.count a ∧ 0 < n

end Tally

/-! ## Counting -/

omit [DecidableEq α] in
theorem fst_mem {a : α} {n : Nat} {l : List (α × Nat)} (h : (a, n) ∈ l) : a ∈ l.map Prod.fst :=
  List.mem_map_of_mem (f := Prod.fst) h

/-- What one more of a key does to the entries. -/
theorem mem_increment {a b : α} {m : Nat} {l : List (α × Nat)} (h : (l.map Prod.fst).Nodup) :
    (b, m) ∈ increment a l ↔
      if b = a then (m = 1 ∧ a ∉ l.map Prod.fst) ∨ ∃ n, (a, n) ∈ l ∧ m = n + 1 else (b, m) ∈ l := by
  induction l with
  | nil => by_cases hb : b = a <;> simp [increment, hb]
  | cons entry rest ih =>
      obtain ⟨c, n⟩ := entry
      have hrest : c ∉ rest.map Prod.fst ∧ (rest.map Prod.fst).Nodup := List.nodup_cons.1 h
      by_cases hc : c = a
      · subst hc
        have hnone : ∀ k, (c, k) ∉ rest := fun k hk => hrest.1 (fst_mem hk)
        rw [increment, if_pos rfl]
        by_cases hb : b = c
        · subst hb
          simp [hnone, hrest.1]
        · simp [hb]
      · rw [increment, if_neg hc, List.mem_cons, ih hrest.2]
        by_cases hb : b = a
        · subst hb
          simp [Ne.symm hc]
        · simp [hb]

namespace Tally

variable {t : Tally α} {xs : List α}

theorem Counts.empty : (empty : Tally α).Counts [] := by
  intro a n
  simp [Tally.empty]

theorem Counts.key_mem (h : t.Counts xs) {a : α} : a ∈ t.entries.map Prod.fst ↔ a ∈ xs := by
  constructor
  · intro ha
    obtain ⟨⟨b, n⟩, hb, rfl⟩ := List.mem_map.1 ha
    obtain ⟨rfl, hpos⟩ := (h b n).1 hb
    exact List.count_pos_iff.1 hpos
  · intro ha
    exact fst_mem ((h a (xs.count a)).2 ⟨rfl, List.count_pos_iff.2 ha⟩)

/-- One more at the end. -/
theorem Counts.addOne (h : t.Counts xs) (a : α) : (t.addOne a).Counts (xs ++ [a]) := by
  intro b m
  change (b, m) ∈ increment a t.entries ↔ _
  rw [mem_increment t.nodup, h.key_mem, List.count_append]
  by_cases hb : b = a
  · subst hb
    simp only [if_true, List.count_singleton_self, h b]
    constructor
    · rintro (⟨rfl, hnot⟩ | ⟨n, ⟨rfl, hpos⟩, rfl⟩)
      · rw [List.count_eq_zero_of_not_mem hnot]
        exact ⟨rfl, Nat.one_pos⟩
      · exact ⟨rfl, Nat.succ_pos _⟩
    · rintro ⟨rfl, -⟩
      by_cases hmem : b ∈ xs
      · exact .inr ⟨xs.count b, ⟨rfl, List.count_pos_iff.2 hmem⟩, rfl⟩
      · exact .inl ⟨by rw [List.count_eq_zero_of_not_mem hmem], hmem⟩
  · rw [if_neg hb, h b, List.count_singleton, if_neg (by simpa using Ne.symm hb), Nat.add_zero]

end Tally

/-! ## Updates at indices -/

/-- What a run of updates does at one index. -/
theorem foldl_modify (key : β → Nat) (f : β → γ → γ) (bs : List β) (xs : List γ) (i : Nat) :
    (bs.foldl (fun xs b => xs.modify (key b) (f b)) xs)[i]? =
      xs[i]?.map fun x => (bs.filter fun b => key b = i).foldl (fun x b => f b x) x := by
  induction bs generalizing xs with
  | nil => simp
  | cons b rest ih =>
      rw [List.foldl_cons, ih, List.getElem?_modify]
      by_cases hb : key b = i
      · rw [List.filter_cons_of_pos (by simpa using hb)]
        cases xs[i]? <;> simp [hb]
      · rw [List.filter_cons_of_neg (by simpa using hb)]
        cases xs[i]? <;> simp [hb]

/-- Entries with distinct keys: one of them updates the index, or none. -/
theorem filter_key {l : List (Nat × β)} (h : (l.map Prod.fst).Nodup) {i : Nat} {b : β} (hb : (i, b) ∈ l) :
    l.filter (fun entry => entry.1 = i) = [(i, b)] := by
  induction l with
  | nil => cases hb
  | cons entry rest ih =>
      have hrest : entry.1 ∉ rest.map Prod.fst ∧ (rest.map Prod.fst).Nodup := List.nodup_cons.1 h
      rcases List.mem_cons.1 hb with rfl | hb
      · have hnone : rest.filter (fun entry => entry.1 = i) = [] := by
          rw [List.filter_eq_nil_iff]
          intro entry hentry hkey
          exact hrest.1 (List.mem_map.2 ⟨entry, hentry, of_decide_eq_true hkey⟩)
        rw [List.filter_cons_of_pos (by simp), hnone]
      · have hne : entry.1 ≠ i := fun hkey => hrest.1 (hkey ▸ List.mem_map_of_mem (f := Prod.fst) hb)
        rw [List.filter_cons_of_neg (by simpa using hne), ih hrest.2 hb]

theorem filter_no_key {l : List (Nat × β)} {i : Nat} (h : i ∉ l.map Prod.fst) :
    l.filter (fun entry => entry.1 = i) = [] := by
  rw [List.filter_eq_nil_iff]
  intro entry hentry hkey
  exact h (List.mem_map.2 ⟨entry, hentry, of_decide_eq_true hkey⟩)

end Oxydllm.Counting
