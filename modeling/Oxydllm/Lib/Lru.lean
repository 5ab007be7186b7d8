/-
# Oxydllm.Lib.Lru — a bounded map that drops its least recently used entry.

Entries are kept most recently used first; keys are distinct and the capacity is respected by
construction. Every operation is described by what it does to the entries up to their order
(`get_perm`, `push_perm`, `popLru_perm`), which is all that users of the map which do not look at
recency need.
-/
import Mathlib.Data.List.Nodup
import Mathlib.Data.List.Perm.Basic

/-- A map of at most `cap` entries, most recently used first. -/
structure Lru (κ ν : Type) where
  cap : Nat
  entries : List (κ × ν)
  keys_nodup : (entries.map Prod.fst).Nodup
  length_le : entries.length ≤ cap

namespace Lru

variable {κ ν : Type}

def empty (cap : Nat) : Lru κ ν := ⟨cap, [], List.nodup_nil, Nat.zero_le _⟩

/-- Fewer entries, in any order. -/
def restrict (c : Lru κ ν) (es : List (κ × ν)) (h : es.Subperm c.entries) : Lru κ ν where
  cap := c.cap
  entries := es
  keys_nodup := by
    obtain ⟨l, hperm, hsub⟩ := h
    exact (hperm.map Prod.fst).nodup_iff.1 ((hsub.map Prod.fst).nodup c.keys_nodup)
  length_le := Nat.le_trans h.length_le c.length_le

/-- The least recently used entry leaves. -/
def popLru (c : Lru κ ν) : Option (κ × ν) × Lru κ ν :=
  (c.entries.getLast?, c.restrict c.entries.dropLast (List.dropLast_sublist _).subperm)

variable [DecidableEq κ]

/-- The value of a key, recency untouched. -/
def peek (c : Lru κ ν) (k : κ) : Option ν := (c.entries.find? (·.1 = k)).map Prod.snd

def contains (c : Lru κ ν) (k : κ) : Bool := (c.peek k).isSome

/-- The entries with those of key `k` in front. -/
def front (es : List (κ × ν)) (k : κ) : List (κ × ν) := es.filter (·.1 = k) ++ es.filter (¬ ·.1 = k)

theorem front_perm (es : List (κ × ν)) (k : κ) : (front es k).Perm es := by
  have := List.filter_append_perm (fun e : κ × ν => decide (e.1 = k)) es
  simpa [front] using this

/-- The value of a key, which becomes the most recently used one. -/
def get (c : Lru κ ν) (k : κ) : Option ν × Lru κ ν :=
  (c.peek k, c.restrict (front c.entries k) (front_perm c.entries k).subperm)

theorem get_perm (c : Lru κ ν) (k : κ) : (c.get k).2.entries.Perm c.entries := front_perm c.entries k

@[simp] theorem get_fst (c : Lru κ ν) (k : κ) : (c.get k).1 = c.peek k := rfl

@[simp] theorem get_cap (c : Lru κ ν) (k : κ) : (c.get k).2.cap = c.cap := rfl

theorem peek_eq_some_iff {c : Lru κ ν} {k : κ} {v : ν} : c.peek k = some v ↔ (k, v) ∈ c.entries := by
  have hkeys := c.keys_nodup
  unfold peek
  generalize c.entries = es at hkeys
  induction es with
  | nil => simp
  | cons e es ih =>
      obtain ⟨k', v'⟩ := e
      rw [List.map_cons, List.nodup_cons] at hkeys
      obtain ⟨hnew, hkeys⟩ := hkeys
      by_cases hk : k' = k
      · subst hk
        have hmiss : (k', v) ∉ es := fun hmem => hnew (List.mem_map.2 ⟨(k', v), hmem, rfl⟩)
        simp [hmiss, eq_comm]
      · have hne : (k, v) ≠ (k', v') := fun h => hk (congrArg Prod.fst h).symm
        rw [List.find?_cons_of_neg (by simpa using hk)]
        exact (ih hkeys).trans (by simp [hne])

theorem contains_iff {c : Lru κ ν} {k : κ} : c.contains k = true ↔ ∃ v, (k, v) ∈ c.entries := by
  rw [contains, Option.isSome_iff_exists]
  simp only [peek_eq_some_iff]

/-- Reading a key changes no value. -/
theorem peek_get (c : Lru κ ν) (k k' : κ) : (c.get k).2.peek k' = c.peek k' := by
  ext v
  rw [peek_eq_some_iff, peek_eq_some_iff, (get_perm c k).mem_iff]

omit [DecidableEq κ] in
/-- What `popLru` removes, it returns. -/
theorem popLru_perm (c : Lru κ ν) :
    ((c.popLru).1.toList ++ (c.popLru).2.entries).Perm c.entries := by
  unfold popLru restrict
  cases hlast : c.entries.getLast? with
  | none => simp [List.getLast?_eq_none_iff.1 hlast]
  | some e =>
      have hsplit : c.entries.dropLast ++ [e] = c.entries := by
        have hne : c.entries ≠ [] := by
          intro h
          simp [h] at hlast
        rw [List.getLast?_eq_some_getLast hne, Option.some.injEq] at hlast
        rw [← hlast, List.dropLast_append_getLast]
      simp only [Option.toList_some, List.singleton_append]
      exact (List.perm_append_singleton e _).symm.trans (by rw [hsplit])

omit [DecidableEq κ] in
theorem popLru_eq_none_iff {c : Lru κ ν} : (c.popLru).1 = none ↔ c.entries = [] := by
  simp [popLru]

/-- A key that is not held may be added to fewer entries. -/
theorem keys_nodup_cons {c : Lru κ ν} {k : κ} (v : ν) (hnew : c.contains k = false) {es : List (κ × ν)}
    (hsub : es.Sublist c.entries) : (((k, v) :: es).map Prod.fst).Nodup := by
  rw [List.map_cons, List.nodup_cons]
  refine ⟨fun hmem => ?_, (hsub.map Prod.fst).nodup c.keys_nodup⟩
  obtain ⟨⟨k', v'⟩, hmem, hk⟩ := List.mem_map.1 hmem
  have hheld : c.contains k = true := contains_iff.2 ⟨v', by rw [← show k' = k from hk]; exact hsub.subset hmem⟩
  rw [hheld] at hnew
  cases hnew

/-- A new entry at the front; at capacity the least recently used entry leaves for it. -/
def push (c : Lru κ ν) (k : κ) (v : ν) (hnew : c.contains k = false) (hcap : 0 < c.cap) :
    Option (κ × ν) × Lru κ ν :=
  if h : c.entries.length < c.cap then
    (none, { cap := c.cap
             entries := (k, v) :: c.entries
             keys_nodup := keys_nodup_cons v hnew (List.Sublist.refl _)
             length_le := h })
  else
    (c.entries.getLast?,
      { cap := c.cap
        entries := (k, v) :: c.entries.dropLast
        keys_nodup := keys_nodup_cons v hnew (List.dropLast_sublist _)
        length_le := by
          have := c.length_le
          rw [List.length_cons, List.length_dropLast]
          omega })

/-- What `push` drops, it returns. -/
theorem push_perm (c : Lru κ ν) (k : κ) (v : ν) (hnew : c.contains k = false) (hcap : 0 < c.cap) :
    ((c.push k v hnew hcap).1.toList ++ (c.push k v hnew hcap).2.entries).Perm ((k, v) :: c.entries) := by
  unfold push
  split
  · simp
  · have hpop := popLru_perm c
    simp only [popLru, restrict] at hpop
    refine List.perm_middle.trans ?_
    exact hpop.cons (k, v)

@[simp] theorem push_cap (c : Lru κ ν) (k : κ) (v : ν) (hnew : c.contains k = false) (hcap : 0 < c.cap) :
    (c.push k v hnew hcap).2.cap = c.cap := by
  unfold push
  split <;> rfl

end Lru
