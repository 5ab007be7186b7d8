/-
# Oxydllm.Lib.Slice — views and writes of a stretch of a buffer.

`narrow` reads a stretch, `sliceSet` overwrites one, `indexSelect` reads scattered positions. Each fails
when it leaves the buffer. A buffer is described by its `window`s: what a write does to the window it
extends and what it leaves alone.
-/
import Mathlib.Data.List.Basic
import Mathlib.Tactic

namespace Slice

variable {α : Type}

/-- The `len` elements from `start` on. -/
def window (xs : List α) (start len : Nat) : List α := (xs.drop start).take len

def narrow (xs : List α) (start len : Nat) : Option (List α) :=
  if start + len ≤ xs.length then some (window xs start len) else none

/-- `dst` with `src` written from `start` on. -/
def sliceSet (dst src : List α) (start : Nat) : Option (List α) :=
  if start + src.length ≤ dst.length then
    some (dst.take start ++ src ++ dst.drop (start + src.length))
  else none

/-- The elements at the positions of `idx`. -/
def indexSelect (xs : List α) : List Nat → Option (List α)
  | [] => some []
  | i :: idx => xs[i]?.bind fun x => (indexSelect xs idx).map (x :: ·)

theorem window_length {xs : List α} {start len : Nat} (h : start + len ≤ xs.length) :
    (window xs start len).length = len := by
  rw [window, List.length_take, List.length_drop]
  omega

theorem getElem?_window (xs : List α) (start len i : Nat) :
    (window xs start len)[i]? = if i < len then xs[start + i]? else none := by
  rw [window, List.getElem?_take]
  split
  · rw [List.getElem?_drop]
  · rfl

theorem narrow_eq {xs : List α} {start len : Nat} (h : start + len ≤ xs.length) :
    narrow xs start len = some (window xs start len) := if_pos h

theorem narrow_self (xs : List α) {len : Nat} (h : len = xs.length) : narrow xs 0 len = some xs := by
  subst h
  rw [narrow_eq (by omega), window, List.drop_zero, List.take_length]

/-- A part of a window is a window. -/
theorem window_window {xs : List α} {start len a b : Nat} (h : a + b ≤ len) :
    window (window xs start len) a b = window xs (start + a) b := by
  apply List.ext_getElem?
  intro i
  rw [getElem?_window (window xs start len), getElem?_window xs (start + a)]
  by_cases hi : i < b
  · rw [if_pos hi, if_pos hi, getElem?_window, if_pos (by omega), Nat.add_assoc]
  · rw [if_neg hi, if_neg hi]

theorem sliceSet_eq_some {dst src : List α} {start : Nat} (h : start + src.length ≤ dst.length) :
    ∃ out, sliceSet dst src start = some out := ⟨_, if_pos h⟩

section

variable {dst src out : List α} {start : Nat}

theorem sliceSet_fits (h : sliceSet dst src start = some out) : start + src.length ≤ dst.length := by
  unfold sliceSet at h
  exact (Option.ite_none_right_eq_some.1 h).1

theorem getElem?_sliceSet (h : sliceSet dst src start = some out) (i : Nat) :
    out[i]? = if start ≤ i ∧ i < start + src.length then src[i - start]? else dst[i]? := by
  have hfit := sliceSet_fits h
  unfold sliceSet at h
  obtain ⟨-, h⟩ := Option.ite_none_right_eq_some.1 h
  cases h
  have htake : (dst.take start).length = start := by
    rw [List.length_take]
    omega
  rw [List.append_assoc, List.getElem?_append, htake]
  split
  next hi =>
    -- before the stretch
    rw [List.getElem?_take, if_pos hi, if_neg (by omega)]
  next hi =>
    rw [List.getElem?_append]
    split
    next hi' => rw [if_pos (by omega)]
    next hi' =>
      -- behind the stretch
      rw [List.getElem?_drop, if_neg (by omega)]
      congr 1
      omega

theorem sliceSet_length (h : sliceSet dst src start = some out) : out.length = dst.length := by
  have hfit := sliceSet_fits h
  unfold sliceSet at h
  obtain ⟨-, h⟩ := Option.ite_none_right_eq_some.1 h
  cases h
  simp only [List.length_append, List.length_take, List.length_drop]
  omega

/-- A write at the end of a window extends it. -/
theorem window_extend {s l : Nat} (h : sliceSet dst src (s + l) = some out) :
    window out s (l + src.length) = window dst s l ++ src := by
  have hfit := sliceSet_fits h
  have hlen : (window dst s l).length = l := window_length (by omega)
  apply List.ext_getElem?
  intro i
  rw [getElem?_window, getElem?_sliceSet h, List.getElem?_append, hlen, getElem?_window]
  by_cases hold : i < l
  · rw [if_pos (by omega), if_neg (by omega), if_pos hold, if_pos hold]
  · rw [if_neg hold]
    by_cases hnew : i < l + src.length
    · rw [if_pos hnew, if_pos (by omega)]
      congr 1
      omega
    · rw [if_neg hnew, List.getElem?_eq_none (by omega)]

/-- A write at the front. -/
theorem window_front (h : sliceSet dst src 0 = some out) : window out 0 src.length = src := by
  have := window_extend (s := 0) (l := 0) h
  rwa [Nat.zero_add, window, window, List.take_zero, List.nil_append] at this

end

/-- Two stretches written to the front, the first only when there is one. -/
theorem place_front {dst old new : List α} (hfit : old.length + new.length ≤ dst.length) :
    ∃ d out, (if old.length > 0 then sliceSet dst old 0 else some dst) = some d ∧
      sliceSet d new old.length = some out ∧ out.length = dst.length ∧
        window out 0 (old.length + new.length) = old ++ new := by
  by_cases hold : old.length > 0
  · obtain ⟨d, hd⟩ := @sliceSet_eq_some _ dst old 0 (by omega)
    have hlen := sliceSet_length hd
    obtain ⟨out, hout⟩ := @sliceSet_eq_some _ d new old.length (by omega)
    refine ⟨d, out, by rw [if_pos hold, hd], hout, by rw [sliceSet_length hout, hlen], ?_⟩
    have := window_extend (s := 0) (l := old.length) (by rwa [Nat.zero_add])
    rw [this, window_front hd]
  · have hnil : old = [] := List.length_eq_zero_iff.1 (by omega)
    subst hnil
    obtain ⟨out, hout⟩ := @sliceSet_eq_some _ dst new 0
      (by simpa using hfit)
    refine ⟨dst, out, if_neg hold, hout, sliceSet_length hout, ?_⟩
    have := window_front hout
    simpa using this

/-- What a suffix becomes when the list grows at its end. -/
theorem drop_append_suffix (xs ys : List α) {l : Nat} (h : l ≤ xs.length) :
    (xs ++ ys).drop ((xs ++ ys).length - (l + ys.length)) = xs.drop (xs.length - l) ++ ys := by
  rw [List.length_append, List.drop_append_of_le_length (by omega)]
  congr 2
  omega

/-- The end of a suffix is a shorter suffix. -/
theorem window_drop_suffix (xs : List α) {l k : Nat} (hl : l ≤ xs.length) (hk : k ≤ l) :
    window (xs.drop (xs.length - l)) (l - k) k = xs.drop (xs.length - k) := by
  rw [window, List.drop_drop, List.take_of_length_le (by rw [List.length_drop]; omega)]
  congr 1
  omega

/-! ## Scattered reads -/

theorem indexSelect_eq_some {xs ys : List α} {idx : List Nat} :
    indexSelect xs idx = some ys ↔ (idx.map fun i => xs[i]?) = ys.map some := by
  induction idx generalizing ys with
  | nil =>
      constructor
      · intro h
        cases h
        rfl
      · intro h
        rw [List.map_eq_nil_iff.1 h.symm]
        rfl
  | cons i idx ih =>
      rw [indexSelect, Option.bind_eq_some_iff]
      constructor
      · rintro ⟨x, hx, h⟩
        obtain ⟨zs, hzs, rfl⟩ := Option.map_eq_some_iff.1 h
        rw [List.map_cons, List.map_cons, hx, ih.1 hzs]
      · intro h
        cases ys with
        | nil => cases h
        | cons y ys =>
            rw [List.map_cons, List.map_cons, List.cons_eq_cons] at h
            exact ⟨y, h.1, by rw [ih.2 h.2]; rfl⟩

/-- A partial function defined on a whole list. -/
theorem exists_map_some {β : Type} {f : α → Option β} {xs : List α}
    (h : ∀ x ∈ xs, ∃ y, f x = some y) : ∃ ys : List β, xs.map f = ys.map some := by
  induction xs with
  | nil => exact ⟨[], rfl⟩
  | cons x xs ih =>
      obtain ⟨y, hy⟩ := h x List.mem_cons_self
      obtain ⟨ys, hys⟩ := ih fun x' hx' => h x' (List.mem_cons_of_mem _ hx')
      exact ⟨y :: ys, by rw [List.map_cons, List.map_cons, hy, hys]⟩

/-! ## Undoing a permutation -/

/-- `inverse[position] = j` for the `j`-th position of `order`. -/
def inversePositions (order : List Nat) : List Nat :=
  order.zipIdx.foldl (fun inverse o => inverse.set o.1 o.2) (List.replicate order.length 0)

theorem foldl_set_length (ps : List (Nat × Nat)) (init : List Nat) :
    (ps.foldl (fun inverse o => inverse.set o.1 o.2) init).length = init.length := by
  induction ps generalizing init with
  | nil => rfl
  | cons p ps ih => rw [List.foldl_cons, ih, List.length_set]

theorem foldl_set_of_notMem {ps : List (Nat × Nat)} {position : Nat}
    (h : position ∉ ps.map Prod.fst) (init : List Nat) :
    (ps.foldl (fun inverse o => inverse.set o.1 o.2) init)[position]? = init[position]? := by
  induction ps generalizing init with
  | nil => rfl
  | cons p ps ih =>
      rw [List.map_cons, List.mem_cons, not_or] at h
      rw [List.foldl_cons, ih h.2, List.getElem?_set_ne (Ne.symm h.1)]

/-- With distinct positions every entry survives. -/
theorem foldl_set_of_mem {ps : List (Nat × Nat)} (hnodup : (ps.map Prod.fst).Nodup)
    {position j : Nat} (hmem : (position, j) ∈ ps) {init : List Nat} (hlt : position < init.length) :
    (ps.foldl (fun inverse o => inverse.set o.1 o.2) init)[position]? = some j := by
  induction ps generalizing init with
  | nil => cases hmem
  | cons p ps ih =>
      rw [List.map_cons, List.nodup_cons] at hnodup
      rw [List.foldl_cons]
      rcases List.mem_cons.1 hmem with rfl | hmem
      · rw [foldl_set_of_notMem hnodup.1, List.getElem?_set_self hlt]
      · exact ih hnodup.2 hmem (by rwa [List.length_set])

/-- Reading `parts` through the inverse of `order` puts the `j`-th part at the position `order[j]`. -/
theorem indexSelect_inverse {order : List Nat} {parts rows : List α}
    (horder : order.Perm (List.range rows.length))
    (hparts : parts.map some = order.map fun position => rows[position]?) :
    indexSelect parts (inversePositions order) = some rows := by
  have hlen : order.length = rows.length := by
    rw [horder.length_eq, List.length_range]
  have hnodup : order.Nodup := horder.nodup_iff.2 List.nodup_range
  rw [indexSelect_eq_some]
  apply List.ext_getElem?
  intro position
  rw [List.getElem?_map, List.getElem?_map]
  by_cases hlt : position < rows.length
  · -- the position occurs in `order`, at some `j`
    have hmem : position ∈ order := horder.mem_iff.2 (List.mem_range.2 hlt)
    obtain ⟨j, hj, hget⟩ := List.mem_iff_getElem.1 hmem
    have hinv : (inversePositions order)[position]? = some j := by
      apply foldl_set_of_mem
      · rwa [List.zipIdx_map_fst]
      · rw [List.mk_mem_zipIdx_iff_getElem?, List.getElem?_eq_getElem hj, hget]
      · rwa [List.length_replicate, hlen]
    have hpart := congrArg (·[j]?) hparts
    simp only [List.getElem?_map, List.getElem?_eq_getElem hj, hget, Option.map_some] at hpart
    rw [hinv, Option.map_some, List.getElem?_eq_getElem hlt, Option.map_some]
    rw [List.getElem?_eq_getElem hlt] at hpart
    obtain ⟨x, hx, hxr⟩ := Option.map_eq_some_iff.1 hpart
    rw [hx, hxr]
  · have hinv : (inversePositions order).length = rows.length := by
      rw [inversePositions, foldl_set_length, List.length_replicate, hlen]
    rw [List.getElem?_eq_none (by omega), List.getElem?_eq_none (by omega)]
    rfl

end Slice
