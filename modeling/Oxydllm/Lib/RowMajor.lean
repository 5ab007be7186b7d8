/-
# Oxydllm.Lib.RowMajor — matrices laid out row after row.

Reading a list that was written row by row (`getElem?_flatMap_range`), reading a row that was put together
from pieces (`getElem?_flatMap_piece`), the rows of pieces put one after the other (`flatMap_range_sum`), a list
filled by stores to indices (`getElem?_foldl_set`), and one whose rows are written one at a time (`row_sliceSet_self`,
`row_sliceSet_ne`).
-/
import Oxydllm.Lib.Slice

namespace Oxydllm.RowMajor

variable {α β : Type}

/-- Row `r` of a matrix of rows of `width`. -/
def row (data : List α) (width r : Nat) : List α := (data.drop (r * width)).take width

theorem row_length {data : List α} {width rows r : Nat} (hlen : data.length = rows * width) (hr : r < rows) :
    (row data width r).length = width := by
  have hfit : (r + 1) * width ≤ rows * width := Nat.mul_le_mul_right width hr
  rw [Nat.succ_mul] at hfit
  rw [row, List.length_take, List.length_drop]
  omega

theorem row_getElem? (data : List α) {width r j : Nat} (hj : j < width) :
    (row data width r)[j]? = data[r * width + j]? := by
  rw [row, List.getElem?_take_of_lt hj, List.getElem?_drop]

theorem length_flatMap_range {f : Nat → List β} {n width : Nat} (h : ∀ r < n, (f r).length = width) :
    ((List.range n).flatMap f).length = n * width := by
  induction n with
  | zero => simp
  | succ n ih =>
      rw [List.range_succ, List.flatMap_append, List.length_append, ih fun r hr => h r (by omega),
        List.flatMap_singleton, h n (Nat.lt_succ_self n), Nat.succ_mul]

/-- An entry of a matrix written row by row. -/
theorem getElem?_flatMap_range {f : Nat → List β} {n width : Nat} (h : ∀ r < n, (f r).length = width) {r j : Nat}
    (hr : r < n) (hj : j < width) : ((List.range n).flatMap f)[r * width + j]? = (f r)[j]? := by
  induction n with
  | zero => exact absurd hr (Nat.not_lt_zero r)
  | succ n ih =>
      have hlen := length_flatMap_range (n := n) fun r hr => h r (Nat.lt_succ_of_lt hr)
      rw [List.range_succ, List.flatMap_append, List.flatMap_singleton]
      rcases Nat.lt_succ_iff_lt_or_eq.1 hr with hlt | rfl
      · have hfit : (r + 1) * width ≤ n * width := Nat.mul_le_mul_right width hlt
        rw [Nat.succ_mul] at hfit
        rw [List.getElem?_append_left (by omega), ih (fun r hr => h r (Nat.lt_succ_of_lt hr)) hlt]
      · rw [List.getElem?_append_right (by omega), hlen, Nat.add_sub_cancel_left]

/-- An entry of a row put together from pieces. -/
theorem getElem?_flatMap_piece (g : α → List β) (pre : List α) (p : α) (post : List α) {j : Nat}
    (hj : j < (g p).length) :
    ((pre ++ p :: post).flatMap g)[(pre.map fun x => (g x).length).sum + j]? = (g p)[j]? := by
  induction pre with
  | nil =>
      rw [List.nil_append, List.flatMap_cons, List.map_nil, List.sum_nil, Nat.zero_add, List.getElem?_append_left hj]
  | cons x pre ih =>
      rw [List.cons_append, List.flatMap_cons, List.map_cons, List.sum_cons, Nat.add_assoc,
        List.getElem?_append_right (by omega), Nat.add_sub_cancel_left, ih]

theorem flatMap_range_add (f : Nat → List β) (a b : Nat) :
    (List.range (a + b)).flatMap f = (List.range a).flatMap f ++ (List.range b).flatMap fun o => f (a + o) := by
  rw [List.range_add, List.flatMap_append, List.flatMap_map]

/-- The rows of pieces, one piece after the other. -/
theorem flatMap_range_sum (size : α → Nat) (g : α → Nat → List β) (f : Nat → List β) (parts : List α)
    (h : ∀ pre p post, parts = pre ++ p :: post → ∀ o < size p, f ((pre.map size).sum + o) = g p o) :
    (List.range (parts.map size).sum).flatMap f = parts.flatMap fun p => (List.range (size p)).flatMap (g p) := by
  induction parts generalizing f with
  | nil => rfl
  | cons p parts ih =>
      rw [List.map_cons, List.sum_cons, flatMap_range_add, List.flatMap_cons]
      have hhead : (List.range (size p)).flatMap f = (List.range (size p)).flatMap (g p) := by
        refine List.flatMap_congr fun o ho => ?_
        have := h [] p parts rfl o (List.mem_range.1 ho)
        rwa [List.map_nil, List.sum_nil, Nat.zero_add] at this
      rw [hhead, ih (fun o => f (size p + o)) fun pre q post heq o ho => ?_]
      have := h (p :: pre) q post (by rw [heq]; rfl) o ho
      rwa [List.map_cons, List.sum_cons, Nat.add_assoc] at this

/-! ## Stores -/

/-- A position that is stored to, always the same value, has that value. -/
theorem getElem?_foldl_set (stores : List (Nat × α)) (data : List α) {i : Nat} {v : α}
    (hsame : ∀ s ∈ stores, s.1 = i → s.2 = v) (hi : i < data.length)
    (h : (∃ s ∈ stores, s.1 = i) ∨ data[i]? = some v) :
    (stores.foldl (fun d s => d.set s.1 s.2) data)[i]? = some v := by
  induction stores generalizing data with
  | nil =>
      rcases h with ⟨s, hs, -⟩ | h
      · cases hs
      · exact h
  | cons s stores ih =>
      rw [List.foldl_cons]
      refine ih (data.set s.1 s.2) (fun s' hs' => hsame s' (List.mem_cons_of_mem _ hs'))
        (by rwa [List.length_set]) ?_
      by_cases hs : s.1 = i
      · right
        rw [← hs, List.getElem?_set_self (hs ▸ hi), hsame s List.mem_cons_self hs]
      · rcases h with ⟨s', hs', heq⟩ | h
        · rcases List.mem_cons.1 hs' with rfl | hs'
          · exact absurd heq hs
          · exact Or.inl ⟨s', hs', heq⟩
        · right
          rwa [List.getElem?_set_ne hs]

theorem length_foldl_set (stores : List (Nat × α)) (data : List α) :
    (stores.foldl (fun d s => d.set s.1 s.2) data).length = data.length := by
  induction stores generalizing data with
  | nil => rfl
  | cons s stores ih => rw [List.foldl_cons, ih, List.length_set]

theorem index_div {width r c : Nat} (hc : c < width) : (r * width + c) / width = r := by
  rw [Nat.mul_comm, Nat.mul_add_div (by omega), Nat.div_eq_of_lt hc, Nat.add_zero]

/-- Row and column of an index. -/
theorem index_inj {width r c r' c' : Nat} (hc : c < width) (hc' : c' < width)
    (h : r * width + c = r' * width + c') : r = r' ∧ c = c' := by
  have hr : r = r' := by
    have hdiv := index_div (r := r) hc
    rw [h, index_div hc'] at hdiv
    exact hdiv.symm
  subst hr
  exact ⟨rfl, by omega⟩

/-! ## Rows -/

theorem row_all {data : List α} {width : Nat} (h : data.length = width) : row data width 0 = data := by
  rw [row, Nat.zero_mul, List.drop_zero, ← h, List.take_length]

/-- A row of a stack of blocks of `m` rows. -/
theorem row_flatMap_range {f : Nat → List β} {n m width r q : Nat} (h : ∀ r < n, (f r).length = m * width) (hr : r < n)
    (hq : q < m) : row ((List.range n).flatMap f) width (r * m + q) = row (f r) width q := by
  apply List.ext_getElem?
  intro j
  rcases Nat.lt_or_ge j width with hj | hj
  · have hin : q * width + j < m * width := by
      have hfit : (q + 1) * width ≤ m * width := Nat.mul_le_mul_right width hq
      rw [Nat.succ_mul] at hfit
      omega
    rw [row_getElem? _ hj, row_getElem? _ hj, ← getElem?_flatMap_range h hr hin]
    congr 1
    ring
  · rw [row, row, List.getElem?_take_eq_none hj, List.getElem?_take_eq_none hj]

/-- A matrix is its rows. -/
theorem ext_rows {xs ys : List α} {rows width : Nat} (hx : xs.length = rows * width) (hy : ys.length = rows * width)
    (h : ∀ r < rows, row xs width r = row ys width r) : xs = ys := by
  apply List.ext_getElem?
  intro i
  rcases Nat.lt_or_ge i (rows * width) with hi | hi
  · have hw : 0 < width := Nat.pos_of_mul_pos_left (Nat.lt_of_le_of_lt (Nat.zero_le i) hi)
    have hr : i / width < rows := (Nat.div_lt_iff_lt_mul hw).2 hi
    have hj : i % width < width := Nat.mod_lt i hw
    have hentry := congrArg (·[i % width]?) (h (i / width) hr)
    simp only [row_getElem? _ hj] at hentry
    rwa [Nat.mul_comm, Nat.div_add_mod] at hentry
  · rw [List.getElem?_eq_none (hx.trans_le hi), List.getElem?_eq_none (hy.trans_le hi)]

section Written

variable {dst src out : List α} {width r s : Nat}

theorem row_sliceSet_self (h : Slice.sliceSet dst src (r * width) = some out) (hsrc : src.length = width) :
    row out width r = src := by
  apply List.ext_getElem?
  intro j
  rcases Nat.lt_or_ge j width with hj | hj
  · rw [row_getElem? _ hj, Slice.getElem?_sliceSet h, if_pos ⟨Nat.le_add_right _ _, by omega⟩, Nat.add_sub_cancel_left]
  · rw [row, List.getElem?_take_eq_none hj, List.getElem?_eq_none (hsrc.trans_le hj)]

theorem row_sliceSet_ne (h : Slice.sliceSet dst src (s * width) = some out) (hsrc : src.length = width) (hne : r ≠ s) :
    row out width r = row dst width r := by
  apply List.ext_getElem?
  intro j
  rcases Nat.lt_or_ge j width with hj | hj
  · rw [row_getElem? _ hj, row_getElem? _ hj, Slice.getElem?_sliceSet h, if_neg]
    rintro ⟨hge, hlt⟩
    -- the position is in row `r`, and the write in row `s`
    have heq : r * width + j = s * width + (r * width + j - s * width) := by omega
    exact hne (index_inj hj (by omega) heq).1
  · rw [row, row, List.getElem?_take_eq_none hj, List.getElem?_take_eq_none hj]

end Written

end Oxydllm.RowMajor
