/-
# Oxydllm.Lib.NdArray — arrays of several dimensions, by what they have at each index.

An array is its dimensions and its entries; what it has at an index outside them says nothing (`Same` compares
the others). `reshape` keeps the order of the entries in a row-major buffer, `broadcastMul` lines the dimensions
up at the last one and repeats what has length one.
-/
import Mathlib.Algebra.BigOperators.Group.List.Basic
import Mathlib.Algebra.BigOperators.Group.Finset.Basic
import Mathlib.Tactic

namespace Oxydllm

structure NdArray (K : Type) where
  dims : List Nat
  entry : List Nat → K

namespace NdArray

variable {K : Type}

/-- An index within the dimensions. -/
def InDims : List Nat → List Nat → Prop
  | [], [] => True
  | d :: ds, i :: is => i < d ∧ InDims ds is
  | _, _ => False

/-- Equal dimensions, and equal entries within them. -/
def Same (t u : NdArray K) : Prop := t.dims = u.dims ∧ ∀ idx, InDims t.dims idx → t.entry idx = u.entry idx

/-- The position of an index in a row-major buffer. -/
def ravel : List Nat → List Nat → Nat
  | _ :: ds, i :: is => i * ds.prod + ravel ds is
  | _, _ => 0

/-- The index of a position. -/
def unravel : List Nat → Nat → List Nat
  | [], _ => []
  | _ :: ds, p => p / ds.prod :: unravel ds (p % ds.prod)

def reshape (t : NdArray K) (dims : List Nat) : Option (NdArray K) :=
  if dims.prod = t.dims.prod then some ⟨dims, fun idx => t.entry (unravel t.dims (ravel dims idx))⟩ else none

/-- The length of two dimensions that are lined up. -/
def broadcastDim (l r : Nat) : Option Nat :=
  if l = r then some l else if l = 1 then some r else if r = 1 then some l else none

/-- The last dimensions first. -/
def broadcastRev : List Nat → List Nat → Option (List Nat)
  | [], rs => some rs
  | ls, [] => some ls
  | l :: ls, r :: rs => (broadcastDim l r).bind fun d => (broadcastRev ls rs).map (d :: ·)

def broadcastShape (ls rs : List Nat) : Option (List Nat) :=
  (broadcastRev ls.reverse rs.reverse).map List.reverse

/-- The index of an entry that is repeated to `idx`. -/
def repeated (dims idx : List Nat) : List Nat :=
  List.zipWith (fun d i => if d = 1 then 0 else i) dims (idx.drop (idx.length - dims.length))

def broadcastAs (t : NdArray K) (dims : List Nat) : NdArray K := ⟨dims, fun idx => t.entry (repeated t.dims idx)⟩

def broadcastOp (op : K → K → K) (t u : NdArray K) : Option (NdArray K) :=
  (broadcastShape t.dims u.dims).map fun dims =>
    ⟨dims, fun idx => op (t.entry (repeated t.dims idx)) (u.entry (repeated u.dims idx))⟩

def broadcastMul [Mul K] (t u : NdArray K) : Option (NdArray K) := broadcastOp (· * ·) t u

def broadcastAdd [Add K] (t u : NdArray K) : Option (NdArray K) := broadcastOp (· + ·) t u

/-- Two dimensions, exchanged. -/
def transpose (t : NdArray K) : Option (NdArray K) :=
  match t.dims with
  | [n, m] => some ⟨[m, n], fun idx => t.entry idx.reverse⟩
  | _ => none

def matmul [Semiring K] (t u : NdArray K) : Option (NdArray K) :=
  match t.dims, u.dims with
  | [n, k], [k', m] =>
      if k = k' then
        some ⟨[n, m], fun idx => ∑ l ∈ Finset.range k, t.entry [idx.headD 0, l] * u.entry [l, idx.getLastD 0]⟩
      else none
  | _, _ => none

/-- Arrays one below the other. -/
def stackEntry [Zero K] : List (NdArray K) → Nat → List Nat → K
  | [], _, _ => 0
  | t :: ts, i, is => if i < t.dims.headD 0 then t.entry (i :: is) else stackEntry ts (i - t.dims.headD 0) is

/-- `cat` along the first dimension. -/
def cat [Zero K] (ts : List (NdArray K)) : Option (NdArray K) :=
  match ts with
  | [] => none
  | t :: _ =>
      if t.dims ≠ [] ∧ ∀ u ∈ ts, u.dims.length = t.dims.length ∧ u.dims.tail = t.dims.tail then
        some ⟨(ts.map fun u => u.dims.headD 0).sum :: t.dims.tail, fun idx => stackEntry ts (idx.headD 0) idx.tail⟩
      else none

/-- `len` entries of the last dimension, from `start` on. -/
def narrowLast (t : NdArray K) (start len : Nat) : Option (NdArray K) :=
  match t.dims.getLast? with
  | some d =>
      if start + len ≤ d then
        some ⟨t.dims.dropLast ++ [len], fun idx => t.entry (idx.dropLast ++ [idx.getLastD 0 + start])⟩
      else none
  | none => none

/-! ## Indices -/

theorem Same.refl (t : NdArray K) : Same t t := ⟨rfl, fun _ _ => rfl⟩

theorem inDims_two {n m i j : Nat} : InDims [n, m] [i, j] ↔ i < n ∧ j < m := by simp [InDims]

theorem exists_of_inDims_two {n m : Nat} {idx : List Nat} (h : InDims [n, m] idx) :
    ∃ i j, idx = [i, j] ∧ i < n ∧ j < m := by
  match idx, h with
  | [i, j], h => exact ⟨i, j, rfl, inDims_two.1 h⟩

/-- A part of a position is the index of its block and of its place in the block. -/
theorem block_div {p k i : Nat} (hi : i < k) : (p * k + i) / k = p := by
  have hk : 0 < k := Nat.lt_of_le_of_lt (Nat.zero_le i) hi
  rw [Nat.mul_comm, Nat.mul_add_div hk, Nat.div_eq_of_lt hi, Nat.add_zero]

theorem block_mod {p k i : Nat} (hi : i < k) : (p * k + i) % k = i := by
  rw [Nat.mul_comm, Nat.mul_add_mod, Nat.mod_eq_of_lt hi]

theorem ravel_lt {dims idx : List Nat} (h : InDims dims idx) : ravel dims idx < dims.prod := by
  induction dims generalizing idx with
  | nil =>
      match idx, h with
      | [], _ => exact Nat.one_pos
  | cons d ds ih =>
      match idx, h with
      | i :: is, h =>
          rw [ravel, List.prod_cons]
          have hlt := ih h.2
          calc i * ds.prod + ravel ds is < i * ds.prod + ds.prod := Nat.add_lt_add_left hlt _
            _ = (i + 1) * ds.prod := (Nat.succ_mul i ds.prod).symm
            _ ≤ d * ds.prod := Nat.mul_le_mul_right _ h.1

theorem unravel_ravel {dims idx : List Nat} (h : InDims dims idx) : unravel dims (ravel dims idx) = idx := by
  induction dims generalizing idx with
  | nil =>
      match idx, h with
      | [], _ => rfl
  | cons d ds ih =>
      match idx, h with
      | i :: is, h =>
          have hlt := ravel_lt h.2
          rw [ravel, unravel, block_div hlt, block_mod hlt, ih h.2]

/-- An entry is reshaped to where its position is. -/
theorem reshape_at {t u : NdArray K} {dims : List Nat} (h : t.reshape dims = some u) {idx idx' : List Nat}
    (hidx : InDims t.dims idx) (hpos : ravel dims idx' = ravel t.dims idx) : u.entry idx' = t.entry idx := by
  unfold reshape at h
  split at h
  · cases h
    change t.entry (unravel t.dims (ravel dims idx')) = _
    rw [hpos, unravel_ravel hidx]
  · cases h

theorem exists_reshape {t : NdArray K} {dims : List Nat} (h : dims.prod = t.dims.prod) : ∃ u, t.reshape dims = some u :=
  ⟨_, if_pos h⟩

theorem reshape_dims {t u : NdArray K} {dims : List Nat} (h : t.reshape dims = some u) : u.dims = dims := by
  unfold reshape at h
  split at h
  · cases h
    rfl
  · cases h

theorem inDims_snoc {dims idx : List Nat} {n i : Nat} : InDims (dims ++ [n]) (idx ++ [i]) ↔ InDims dims idx ∧ i < n := by
  induction dims generalizing idx with
  | nil =>
      cases idx with
      | nil => simp [InDims]
      | cons j js => cases js <;> simp [InDims]
  | cons d ds ih =>
      cases idx with
      | nil => cases ds <;> simp [InDims]
      | cons j js =>
          change j < d ∧ InDims (ds ++ [n]) (js ++ [i]) ↔ (j < d ∧ InDims ds js) ∧ i < n
          rw [ih, and_assoc]

theorem exists_of_inDims_snoc {dims idx : List Nat} {n : Nat} (h : InDims (dims ++ [n]) idx) :
    ∃ is i, idx = is ++ [i] ∧ InDims dims is ∧ i < n := by
  rcases List.eq_nil_or_concat idx with rfl | ⟨is, i, rfl⟩
  · cases dims <;> exact absurd h (by simp [InDims])
  · rw [List.concat_eq_append] at h ⊢
    exact ⟨is, i, rfl, inDims_snoc.1 h⟩

theorem ravel_snoc {dims idx : List Nat} {n i : Nat} (h : InDims dims idx) :
    ravel (dims ++ [n]) (idx ++ [i]) = ravel dims idx * n + i := by
  induction dims generalizing idx with
  | nil =>
      match idx, h with
      | [], _ => simp [ravel]
  | cons d ds ih =>
      match idx, h with
      | j :: js, h =>
          rw [List.cons_append, List.cons_append, ravel, ravel, ih h.2, List.prod_append, List.prod_singleton]
          ring

/-! ## Broadcasting -/

theorem broadcastDim_some {l r d : Nat} (h : broadcastDim l r = some d) :
    (l = r ∧ d = l) ∨ (l = 1 ∧ d = r) ∨ (r = 1 ∧ d = l) := by
  unfold broadcastDim at h
  split at h
  · exact .inl ⟨‹_›, (Option.some.inj h).symm⟩
  · split at h
    · exact .inr (.inl ⟨‹_›, (Option.some.inj h).symm⟩)
    · split at h
      · exact .inr (.inr ⟨‹_›, (Option.some.inj h).symm⟩)
      · cases h

theorem broadcastDim_self (n : Nat) : broadcastDim n n = some n := if_pos rfl

theorem broadcastDim_one (n : Nat) : broadcastDim n 1 = some n := by
  unfold broadcastDim
  by_cases h : n = 1
  · rw [if_pos h]
  · rw [if_neg h, if_neg h, if_pos rfl]

theorem broadcastShape_two (n m a c : Nat) :
    broadcastShape [n, m] [a, c] = (broadcastDim m c).bind fun d => (broadcastDim n a).map fun e => [e, d] := by
  unfold broadcastShape
  change ((broadcastDim m c).bind fun d => ((broadcastDim n a).bind fun e => some [e]).map (d :: ·)).map _ = _
  cases broadcastDim m c with
  | none => rfl
  | some d => cases broadcastDim n a <;> rfl

theorem repeated_two (n m i j : Nat) : repeated [n, m] [i, j] = [if n = 1 then 0 else i, if m = 1 then 0 else j] := rfl

theorem repeated_inDims {dims idx : List Nat} (h : InDims dims idx) : repeated dims idx = idx := by
  have hzip : ∀ {dims idx : List Nat}, InDims dims idx →
      idx.length = dims.length ∧ List.zipWith (fun d i => if d = 1 then 0 else i) dims idx = idx := by
    intro dims
    induction dims with
    | nil =>
        intro idx h
        match idx, h with
        | [], _ => exact ⟨rfl, rfl⟩
    | cons d ds ih =>
        intro idx h
        match idx, h with
        | i :: is, h =>
            obtain ⟨hlen, htail⟩ := ih h.2
            refine ⟨congrArg (· + 1) hlen, ?_⟩
            rw [List.zipWith_cons_cons, htail]
            congr 1
            have hi := h.1
            split <;> omega
  obtain ⟨hlen, hself⟩ := hzip h
  unfold repeated
  rw [hlen, Nat.sub_self, List.drop_zero, hself]

/-- A list of entries is repeated along the last dimension. -/
theorem broadcastShape_last (dims : List Nat) (n : Nat) : broadcastShape (dims ++ [n]) [n] = some (dims ++ [n]) := by
  have hrev : broadcastRev (n :: dims.reverse) [n] = some (n :: dims.reverse) := by
    unfold broadcastRev
    rw [broadcastDim_self]
    cases dims.reverse <;> rfl
  unfold broadcastShape
  rw [List.reverse_append]
  change (broadcastRev (n :: dims.reverse) [n]).map _ = _
  rw [hrev, Option.map_some, List.reverse_cons, List.reverse_reverse]

theorem repeated_last {n i : Nat} (hi : i < n) (idx : List Nat) : repeated [n] (idx ++ [i]) = [i] := by
  unfold repeated
  rw [List.length_append, List.length_singleton, List.length_singleton, Nat.add_sub_cancel, List.drop_left]
  change [if n = 1 then 0 else i] = [i]
  congr 1
  split <;> omega

theorem repeated_four (n m k l i j p q : Nat) :
    repeated [n, m, k, l] [i, j, p, q] =
      [if n = 1 then 0 else i, if m = 1 then 0 else j, if k = 1 then 0 else p, if l = 1 then 0 else q] := rfl

theorem repeated_within {n i : Nat} (hi : i < n) : (if n = 1 then 0 else i) = i := by
  split <;> omega

/-- Within the dimensions nothing of an array itself is repeated. -/
theorem repeated_self {n m i j : Nat} (hi : i < n) (hj : j < m) : repeated [n, m] [i, j] = [i, j] := by
  rw [repeated_two, repeated_within hi, repeated_within hj]

/-! ## Arrays one below the other -/

section Stack

variable [Zero K] {front back : List (NdArray K)} {t : NdArray K}

/-- How many rows there are above. -/
def rows (ts : List (NdArray K)) : Nat := (ts.map fun u => u.dims.headD 0).sum

omit [Zero K] in
theorem rows_append (front back : List (NdArray K)) : rows (front ++ back) = rows front + rows back := by
  unfold rows
  rw [List.map_append, List.sum_append]

omit [Zero K] in
theorem rows_cons (t : NdArray K) (ts : List (NdArray K)) : rows (t :: ts) = t.dims.headD 0 + rows ts := rfl

/-- The entries of one of them are behind the rows above. -/
theorem stackEntry_append {i : Nat} (is : List Nat) (hi : i < t.dims.headD 0) :
    stackEntry (front ++ t :: back) (rows front + i) is = t.entry (i :: is) := by
  induction front with
  | nil =>
      change (if 0 + i < t.dims.headD 0 then t.entry ((0 + i) :: is) else _) = _
      rw [Nat.zero_add, if_pos hi]
  | cons u front ih =>
      rw [List.cons_append, stackEntry, rows_cons, if_neg (by omega)]
      have hsub : u.dims.headD 0 + rows front + i - u.dims.headD 0 = rows front + i := by omega
      rw [hsub, ih]

theorem cat_eq {ts : List (NdArray K)} (tail : List Nat) (hne : ts ≠ [])
    (h : ∀ u ∈ ts, ∃ n, u.dims = n :: tail) :
    cat ts = some ⟨rows ts :: tail, fun idx => stackEntry ts (idx.headD 0) idx.tail⟩ := by
  cases ts with
  | nil => exact absurd rfl hne
  | cons t ts =>
      obtain ⟨n, hn⟩ := h t List.mem_cons_self
      have hall : t.dims ≠ [] ∧ ∀ u ∈ t :: ts, u.dims.length = t.dims.length ∧ u.dims.tail = t.dims.tail := by
        rw [hn]
        refine ⟨List.cons_ne_nil _ _, fun u hu => ?_⟩
        obtain ⟨m, hm⟩ := h u hu
        rw [hm]
        exact ⟨rfl, rfl⟩
      have hcat : cat (t :: ts) = some ⟨rows (t :: ts) :: t.dims.tail,
          fun idx => stackEntry (t :: ts) (idx.headD 0) idx.tail⟩ := if_pos hall
      rw [hcat, hn]
      rfl

/-- What is joined has one rank, which is not zero, and one shape but for the first dimension. -/
theorem cat_some {ts : List (NdArray K)} {u : NdArray K} (h : cat ts = some u) :
    ∃ tail, ∀ t ∈ ts, ∃ n, t.dims = n :: tail := by
  unfold cat at h
  split at h
  · cases h
  · rename_i t ts
    split at h
    · rename_i hall
      obtain ⟨n, tail, hdims⟩ := List.exists_cons_of_ne_nil hall.1
      refine ⟨tail, fun v hv => ?_⟩
      obtain ⟨hlen, htail⟩ := hall.2 v hv
      rw [hdims] at hlen htail
      cases hv' : v.dims with
      | nil =>
          rw [hv'] at hlen
          cases hlen
      | cons m rest =>
          rw [hv'] at htail
          exact ⟨m, congrArg (m :: ·) htail⟩
    · cases h

theorem cat_entry {ts : List (NdArray K)} {u : NdArray K} (h : cat ts = some u) (i : Nat) (is : List Nat) :
    u.entry (i :: is) = stackEntry ts i is := by
  unfold cat at h
  split at h
  · cases h
  · split at h
    · cases h
      rfl
    · cases h

omit [Zero K] in
theorem rows_congr {α : Type} {f g : α → NdArray K} {as : List α}
    (h : ∀ a ∈ as, (f a).dims.headD 0 = (g a).dims.headD 0) : rows (as.map f) = rows (as.map g) := by
  unfold rows
  rw [List.map_map, List.map_map]
  exact congrArg List.sum (List.map_congr_left h)

end Stack

theorem narrowLast_eq {t : NdArray K} {lead : List Nat} {d : Nat} (start len : Nat) (ht : t.dims = lead ++ [d])
    (hfit : start + len ≤ d) :
    ∃ u, t.narrowLast start len = some u ∧ u.dims = lead ++ [len] ∧
      ∀ idx i, u.entry (idx ++ [i]) = t.entry (idx ++ [i + start]) := by
  unfold narrowLast
  rw [ht, List.getLast?_concat, List.dropLast_concat]
  refine ⟨_, if_pos hfit, rfl, fun idx i => ?_⟩
  change t.entry ((idx ++ [i]).dropLast ++ [(idx ++ [i]).getLastD 0 + start]) = _
  rw [List.dropLast_concat, List.getLastD_concat]

theorem narrowLast_entry {t u : NdArray K} {start len : Nat} (h : t.narrowLast start len = some u) (idx : List Nat)
    (i : Nat) : u.entry (idx ++ [i]) = t.entry (idx ++ [i + start]) := by
  unfold narrowLast at h
  split at h
  · split at h
    · cases h
      change t.entry ((idx ++ [i]).dropLast ++ [(idx ++ [i]).getLastD 0 + start]) = _
      rw [List.dropLast_concat, List.getLastD_concat]
    · cases h
  · cases h

end NdArray

end Oxydllm
