/-
# Oxydllm.Attn.Window — which rows a query reads on the generic path of attention.

A segment appends its rows, cuts the buffer to the window where it has a single query, and adds a mask that is chosen
from the number of queries and of rows. The masks count keys from the start of the buffer; the steep tanh in them is
a sharp step here, so an entry is zero or closed (`causalMaskPrefixed_entry`, `slidingWindowMaskPrefixed_entry`).
After every run of the cache each query has a zero bias on the rows of its window and on no other
(`segment_reads_window`).
-/
import Mathlib.Algebra.Order.Field.Rat
import Oxydllm.Kv.WindowKept

namespace Oxydllm.Attn

open Kv Kv.PagedKvCache Slice

/-! ## Masks -/

/-- `tanh` at the slopes of the masks. -/
def sharp (x : ℚ) : ℚ := if 0 < x then 1 else if x < 0 then -1 else 0

/-- `diff.affine(mul, add)?.tanh()?.affine(0.5, 0.5)?`. -/
def step (mul add diff : ℚ) : ℚ := sharp (mul * diff + add) * (1 / 2) + 1 / 2

/-- `-1e30`. -/
def closed : ℚ := -10 ^ 30

/-- A bias for each query and key. -/
structure Mask where
  queryLen : Nat
  kvLen : Nat
  entry : Nat → Nat → ℚ

/-- `causal_mask`. -/
def causalMask (seqLen : Nat) : Mask :=
  ⟨seqLen, seqLen, fun i j => closed * step 1000 (-500) ((j : ℚ) - (i : ℚ))⟩

/-- `causal_mask_prefixed`. -/
def causalMaskPrefixed (queryLen kvLen : Nat) : Mask :=
  let prefixLen := kvLen - queryLen
  ⟨queryLen, kvLen, fun i j => closed * step 1000 (-500) ((j : ℚ) - ((prefixLen + i : Nat) : ℚ))⟩

/-- `sliding_window_mask_prefixed`. -/
def slidingWindowMaskPrefixed (queryLen kvLen window : Nat) : Mask :=
  let prefixLen := kvLen - queryLen
  let diff : Nat → Nat → ℚ := fun i j => (j : ℚ) - ((prefixLen + i : Nat) : ℚ)
  let later := fun i j => step 1000 (-500) (diff i j)
  let older := fun i j => step (-1000) (-1000 * (window : ℚ) + 500) (diff i j)
  ⟨queryLen, kvLen, fun i j => closed * max (later i j) (older i j)⟩

/-! ## The generic path -/

variable {ρ : Type}

/-- `truncate_kv_window`. -/
def truncateKvWindow (k : List ρ) (kvLen : Nat) (window : Option Nat) (numTokens : Nat) : Option (List ρ × Nat) :=
  let rest := if kvLen < k.length then (narrow k 0 kvLen).map fun k => (k, kvLen) else some (k, kvLen)
  match window with
  | some w => if numTokens = 1 ∧ w < kvLen then (narrow k (kvLen - w) w).map fun k => (k, w) else rest
  | none => rest

/-- The mask of a segment without one of its own. -/
def genericMask (window : Option Nat) (numTokens kvLen : Nat) : Option Mask :=
  let rest := if numTokens < kvLen then causalMaskPrefixed numTokens kvLen else causalMask numTokens
  if 1 < numTokens then
    match window with
    | some w => if w < kvLen then some (slidingWindowMaskPrefixed numTokens kvLen w) else some rest
    | none => some rest
  else none

/-- The mask added to the scores of `numTokens` queries and `kvLen` keys. -/
def addedBias (mask : Option Mask) (numTokens kvLen : Nat) : Option (Nat → Nat → ℚ) :=
  match mask with
  | some m => if m.queryLen = numTokens ∧ m.kvLen = kvLen then some m.entry else none
  | none => some fun _ _ => 0

/-- What the queries of a segment read: the rows, and the bias of each query and row. -/
structure Reading (ρ : Type) where
  rows : List ρ
  bias : Nat → Nat → ℚ

/-- The generic path for one segment, from the rows the append returns. -/
def genericSegment (window : Option Nat) (numTokens : Nat) (full : List ρ) : Option (Reading ρ) :=
  (truncateKvWindow full full.length window numTokens).bind fun (k, kvLen) =>
    (addedBias (genericMask window numTokens kvLen) numTokens kvLen).map fun bias => ⟨k, bias⟩

/-! ## The entries of the masks -/

theorem step_integer (d : Int) : step 1000 (-500) d = if 0 < d then 1 else 0 := by
  unfold step sharp
  by_cases hd : 0 < d
  · have hge : (1 : ℚ) ≤ d := by exact_mod_cast hd
    rw [if_pos (by linarith), if_pos hd]
    norm_num
  · have hle : (d : ℚ) ≤ 0 := by exact_mod_cast not_lt.1 hd
    rw [if_neg (by linarith), if_pos (by linarith), if_neg hd]
    norm_num

theorem step_back (w : Nat) (d : Int) :
    step (-1000) (-1000 * (w : ℚ) + 500) d = if d + w ≤ 0 then 1 else 0 := by
  -- the older edge is the later one mirrored at the window
  have hmirror : step (-1000) (-1000 * (w : ℚ) + 500) d = step 1000 (-500) ((1 - d - w : Int) : ℚ) := by
    unfold step
    congr 3
    push_cast
    ring
  rw [hmirror, step_integer]
  exact if_congr (by omega) rfl rfl

/-- The distance of a key to a query. -/
theorem diff_cast (i j : Nat) : (j : ℚ) - (i : ℚ) = (((j : Int) - (i : Int) : Int) : ℚ) := by
  push_cast
  rfl

theorem causal_entry (i j : Nat) :
    closed * step 1000 (-500) ((j : ℚ) - (i : ℚ)) = if j ≤ i then 0 else closed := by
  rw [diff_cast, step_integer]
  by_cases h : j ≤ i
  · rw [if_neg (by omega), if_pos h, mul_zero]
  · rw [if_pos (by omega), if_neg h, mul_one]

theorem causalMaskPrefixed_entry (queryLen kvLen i j : Nat) :
    (causalMaskPrefixed queryLen kvLen).entry i j = if j ≤ kvLen - queryLen + i then 0 else closed :=
  causal_entry _ j

theorem slidingWindowMaskPrefixed_entry (queryLen kvLen window i j : Nat) :
    (slidingWindowMaskPrefixed queryLen kvLen window).entry i j =
      if j ≤ kvLen - queryLen + i ∧ kvLen - queryLen + i < j + window then 0 else closed := by
  change closed * max (step 1000 (-500) ((j : ℚ) - ((kvLen - queryLen + i : Nat) : ℚ)))
    (step (-1000) (-1000 * (window : ℚ) + 500) ((j : ℚ) - ((kvLen - queryLen + i : Nat) : ℚ))) = _
  rw [diff_cast, step_integer, step_back]
  by_cases hin : j ≤ kvLen - queryLen + i ∧ kvLen - queryLen + i < j + window
  · rw [if_neg (by omega), if_neg (by omega), if_pos hin, max_self, mul_zero]
  · rw [if_neg hin]
    by_cases hlater : j ≤ kvLen - queryLen + i
    · rw [if_neg (by omega), if_pos (by omega), max_eq_right zero_le_one, mul_one]
    · rw [if_pos (by omega)]
      split
      · rw [max_self, mul_one]
      · rw [max_eq_left zero_le_one, mul_one]

/-! ## The window of a query -/

/-- `max(0, p - w + 1)`. -/
def windowStart (window : Option Nat) (p : Nat) : Nat :=
  match window with
  | some w => p + 1 - w
  | none => 0

/-- The positions the query at `p` attends to. -/
def InWindow (window : Option Nat) (p q : Nat) : Prop := windowStart window p ≤ q ∧ q ≤ p

instance (window : Option Nat) (p q : Nat) : Decidable (InWindow window p q) := inferInstanceAs (Decidable (_ ∧ _))

/-- A reading of the rows from `first` on is that of the windows of the queries from `start` on. -/
structure ReadsWindow (window : Option Nat) (all : List ρ) (start numTokens first : Nat) (r : Reading ρ) : Prop where
  rows : r.rows = all.drop first
  whole : ∀ i < numTokens, first ≤ windowStart window (start + i)
  bias : ∀ i < numTokens, ∀ j < r.rows.length,
    r.bias i j = if InWindow window (start + i) (first + j) then 0 else closed

theorem addedBias_some (m : Mask) : addedBias (some m) m.queryLen m.kvLen = some m.entry := if_pos ⟨rfl, rfl⟩

theorem addedBias_prefixed (numTokens kvLen : Nat) :
    addedBias (some (causalMaskPrefixed numTokens kvLen)) numTokens kvLen =
      some (causalMaskPrefixed numTokens kvLen).entry := addedBias_some _

theorem addedBias_causal (n : Nat) : addedBias (some (causalMask n)) n n = some (causalMask n).entry := addedBias_some _

theorem addedBias_sliding (numTokens kvLen w : Nat) :
    addedBias (some (slidingWindowMaskPrefixed numTokens kvLen w)) numTokens kvLen =
      some (slidingWindowMaskPrefixed numTokens kvLen w).entry := addedBias_some _

section Segment

variable {all : List ρ} {start numTokens len : Nat}

theorem drop_length (hlen : len ≤ all.length) : (all.drop (all.length - len)).length = len := by
  rw [List.length_drop]
  omega

/-- Without a cut, all rows of the buffer are read under the mask. -/
theorem genericSegment_uncut {window : Option Nat} {full : List ρ}
    (h : ∀ w, window = some w → numTokens = 1 → full.length ≤ w) :
    genericSegment window numTokens full =
      (addedBias (genericMask window numTokens full.length) numTokens full.length).map fun bias => ⟨full, bias⟩ := by
  have htruncate : truncateKvWindow full full.length window numTokens = some (full, full.length) := by
    unfold truncateKvWindow
    rw [if_neg (lt_irrefl _)]
    cases window with
    | none => rfl
    | some w => exact if_neg fun hcut => absurd (h w rfl hcut.1) (not_le.2 hcut.2)
  rw [genericSegment, htruncate]
  rfl

/-- The causal masks, square or behind a prefix, where no row of the buffer is behind a window. -/
theorem reads_causal (window : Option Nat) (hall : all.length = start + numTokens) (hn : 0 < numTokens)
    (hnarrow : ∀ w, window = some w → all.length ≤ w) :
    ∃ r, genericSegment window numTokens all = some r ∧ ReadsWindow window all start numTokens 0 r := by
  have hstart : ∀ i < numTokens, windowStart window (start + i) = 0 := by
    intro i hi
    cases window with
    | none => rfl
    | some w =>
        have := hnarrow w rfl
        change start + i + 1 - w = 0
        omega
  have hin : ∀ i < numTokens, ∀ j, InWindow window (start + i) (0 + j) ↔ j ≤ start + i := by
    intro i hi j
    rw [InWindow, hstart i hi, Nat.zero_add]
    exact ⟨fun h => h.2, fun h => ⟨Nat.zero_le j, h⟩⟩
  have hmask : genericMask window numTokens all.length =
      if 1 < numTokens then
        some (if numTokens < all.length then causalMaskPrefixed numTokens all.length else causalMask numTokens)
      else none := by
    -- no window closes a row here, so the mask is a causal one
    unfold genericMask
    cases window with
    | none => rfl
    | some w => simp only [if_neg (not_lt.2 (hnarrow w rfl))]
  rw [genericSegment_uncut fun w hw _ => hnarrow w hw, hmask]
  rcases Nat.lt_or_ge 1 numTokens with hmany | hone
  · rw [if_pos hmany]
    by_cases hprefix : numTokens < all.length
    · rw [if_pos hprefix, addedBias_prefixed]
      refine ⟨⟨all, (causalMaskPrefixed numTokens all.length).entry⟩, rfl, rfl, fun i hi => Nat.zero_le _,
        fun i hi j _ => ?_⟩
      refine (causalMaskPrefixed_entry numTokens all.length i j).trans (if_congr ?_ rfl rfl)
      rw [hin i hi j, show all.length - numTokens = start by omega]
    · rw [if_neg hprefix, show all.length = numTokens by omega, addedBias_causal]
      refine ⟨⟨all, (causalMask numTokens).entry⟩, rfl, rfl, fun i hi => Nat.zero_le _, fun i hi j _ => ?_⟩
      refine (causal_entry i j).trans (if_congr ?_ rfl rfl)
      rw [hin i hi j, show start = 0 by omega, Nat.zero_add]
  · -- a single query reads everything there is
    rw [if_neg (by omega)]
    refine ⟨_, rfl, rfl, fun i hi => Nat.zero_le _, fun i hi j hj => (if_pos ?_).symm⟩
    change j < all.length at hj
    exact (hin i hi j).2 (by omega)

/-- A single query reads the last rows of the buffer, cut or not. -/
theorem reads_last {w : Nat} (hall : all.length = start + 1) (hlen : len ≤ all.length) (hcut : w ≤ len) :
    ∃ r, genericSegment (some w) 1 (all.drop (all.length - len)) = some r ∧
      ReadsWindow (some w) all start 1 (all.length - w) r := by
  have hfull := drop_length hlen
  have htruncate : truncateKvWindow (all.drop (all.length - len)) (all.drop (all.length - len)).length (some w) 1 =
      some (all.drop (all.length - w), w) := by
    unfold truncateKvWindow
    rw [hfull, if_neg (lt_irrefl len)]
    change (if 1 = 1 ∧ w < len then (narrow _ (len - w) w).map fun k => (k, w) else _) = _
    rcases Nat.lt_or_ge w len with hlt | hge
    · have hrows : Slice.window (all.drop (all.length - len)) (len - w) w = all.drop (all.length - w) := by
        rw [Slice.window, List.drop_drop, List.take_of_length_le (by rw [List.length_drop]; omega)]
        congr 1
        omega
      rw [if_pos ⟨rfl, hlt⟩, narrow_eq (by rw [hfull]; omega), hrows]
      rfl
    · rw [if_neg fun h => absurd h.2 (not_lt.2 hge), Nat.le_antisymm hge hcut]
  refine ⟨⟨all.drop (all.length - w), fun _ _ => 0⟩, by rw [genericSegment, htruncate]; rfl, rfl, fun i hi => ?_,
    fun i hi j hj => (if_pos ?_).symm⟩
  · change all.length - w ≤ start + i + 1 - w
    omega
  · change j < (all.drop (all.length - w)).length at hj
    rw [List.length_drop] at hj
    change start + i + 1 - w ≤ all.length - w + j ∧ all.length - w + j ≤ start + i
    omega

/-- Several queries under the sliding mask. -/
theorem reads_sliding {w : Nat} (hall : all.length = start + numTokens) (hmany : 1 < numTokens)
    (hlen : len ≤ all.length) (hwide : w < len) (hback : min all.length (w + numTokens - 1) ≤ len) (hn : numTokens ≤ len) :
    ∃ r, genericSegment (some w) numTokens (all.drop (all.length - len)) = some r ∧
      ReadsWindow (some w) all start numTokens (all.length - len) r := by
  have hfull := drop_length hlen
  have hmask : genericMask (some w) numTokens len = some (slidingWindowMaskPrefixed numTokens len w) := by
    unfold genericMask
    simp only [if_pos hmany, if_pos hwide]
  rw [genericSegment_uncut fun _ _ hone => absurd hone (by omega), hfull, hmask, addedBias_sliding]
  refine ⟨⟨all.drop (all.length - len), (slidingWindowMaskPrefixed numTokens len w).entry⟩, rfl, rfl,
    fun i hi => ?_, fun i hi j _ => ?_⟩
  · change all.length - len ≤ start + i + 1 - w
    omega
  · refine (slidingWindowMaskPrefixed_entry numTokens len w i j).trans (if_congr ?_ rfl rfl)
    change _ ↔ start + i + 1 - w ≤ all.length - len + j ∧ all.length - len + j ≤ start + i
    omega

end Segment

/-- In every run of a cache, whatever it shows: a forward of new rows gives each of its queries a zero bias on the
rows of its window, all of which are there, and closes every other row of the buffer. -/
theorem segment_reads_window [Inhabited ρ] {maxBlocks segmentBlocks blockSize : Nat} {window : Option Nat}
    {device : Nat → Bool} {a : BlockAllocator ρ} (hbs : 0 < blockSize)
    (ha : BlockAllocator.growing maxBlocks segmentBlocks blockSize window device = some a)
    (hwindow : ∀ w, window = some w → 0 < w) {s : WindowState ρ} (h : Moves a s) {device' : Nat → Bool}
    {spare : List (List ρ)} {new : List ρ} (hnew : new ≠ []) {c : PagedKvCache ρ} {pool : BlockAllocator ρ}
    {full : List ρ} (happend : s.cache.append device' spare s.pool new = some (c, pool, full)) :
    ∃ r first, genericSegment window new.length full = some r ∧
      ReadsWindow window (s.rows ++ new) s.rows.length new.length first r := by
  obtain ⟨hstanding, hwin⟩ := h.standing (BlockAllocator.growing_laid hbs ha)
  rw [(BlockAllocator.growing_geometry ha).2] at hwin
  obtain ⟨-, -, rfl, hlen, hn, hback⟩ := append_window hstanding hnew happend
  have hall : (s.rows ++ new).length = s.rows.length + new.length := List.length_append
  have hpos : 0 < new.length := List.length_pos_iff.2 hnew
  rw [hwin] at hback
  cases window with
  | none =>
      change c.contigLen = _ at hback
      obtain ⟨r, hr, hreads⟩ := reads_causal none hall hpos fun w hw => by cases hw
      refine ⟨r, 0, ?_, hreads⟩
      rw [hback, Nat.sub_self, List.drop_zero]
      exact hr
  | some w =>
      change min (s.rows ++ new).length (w + new.length - 1) ≤ c.contigLen at hback
      have hw := hwindow w rfl
      rcases Nat.lt_or_ge 1 new.length with hmany | hone
      -- several queries: the sliding mask, or a buffer the windows cover
      · rcases Nat.lt_or_ge w c.contigLen with hwide | hnarrow
        · obtain ⟨r, hr, hreads⟩ := reads_sliding hall hmany hlen hwide hback hn
          exact ⟨r, _, hr, hreads⟩
        · -- everything is within the window of the first query
          obtain hsame : c.contigLen = (s.rows ++ new).length := by omega
          obtain ⟨r, hr, hreads⟩ := reads_causal (some w) hall hpos fun w' hw' => by cases hw'; omega
          refine ⟨r, 0, ?_, hreads⟩
          rw [hsame, Nat.sub_self, List.drop_zero]
          exact hr
      · obtain hone : new.length = 1 := by omega
        rw [hone] at hall hback ⊢
        rcases Nat.lt_or_ge c.contigLen w with hshort | hlong
        · obtain hsame : c.contigLen = (s.rows ++ new).length := by omega
          obtain ⟨r, hr, hreads⟩ := reads_causal (some w) hall Nat.one_pos fun w' hw' => by cases hw'; omega
          refine ⟨r, 0, ?_, hreads⟩
          rw [hsame, Nat.sub_self, List.drop_zero]
          exact hr
        · obtain ⟨r, hr, hreads⟩ := reads_last hall hlen hlong
          exact ⟨r, _, hr, hreads⟩

/-! ## Two runs -/

/-- A window of two rows over two blocks of 64: three rows, one of them rolled back, and a fourth. -/
def oneRollback : Option (Nat × List Nat) :=
  (BlockAllocator.growing 2 2 64 (some 2) fun _ => true).bind fun a =>
    ((new a).append (fun _ => true) [] a [0, 1, 2]).bind fun (c₁, a₁, _) =>
      (c₁.truncateTo a₁ 2).bind fun (c₂, a₂) =>
        (c₂.append (fun _ => true) [] a₂ [3]).map fun (_, _, full) => (c₁.table.numTokens, full)

theorem oneRollback_eq : oneRollback = some (3, [0, 1, 3]) := by decide +kernel

theorem segment_reads_window_oneRollback :
    ∃ (a : BlockAllocator Nat) (s : WindowState Nat) (c : PagedKvCache Nat) (pool : BlockAllocator Nat)
      (full : List Nat), BlockAllocator.growing 2 2 64 (some 2) (fun _ => true) = some a ∧ Moves a s ∧
      s.cache.append (fun _ => true) [] s.pool [3] = some (c, pool, full) ∧
      ∃ r first, genericSegment (some 2) 1 full = some r ∧
        ReadsWindow (some 2) (s.rows ++ [3]) s.rows.length 1 first r := by
  obtain ⟨a, ha, h⟩ := Option.bind_eq_some_iff.1 oneRollback_eq
  obtain ⟨⟨c₁, a₁, out⟩, happend, h⟩ := Option.bind_eq_some_iff.1 h
  obtain ⟨⟨c₂, a₂⟩, htruncate, h⟩ := Option.bind_eq_some_iff.1 h
  obtain ⟨⟨c₃, a₃, full⟩, hlast, heq⟩ := Option.map_eq_some_iff.1 h
  have hnum : c₁.table.numTokens = 3 := congrArg Prod.fst heq
  have hmoves : Moves a ⟨c₂, a₂, [0, 1], 0⟩ := by
    refine (Relation.ReflTransGen.single (.append _ [] [0, 1, 2] (List.cons_ne_nil _ _) happend)).tail
      (.truncateTo 2 ⟨?_, near_zero _ 2⟩ htruncate)
    rw [hnum]
    decide
  exact ⟨a, _, c₃, a₃, full, ha, hmoves, hlast, segment_reads_window (by decide) ha
    (fun w hw => by cases hw; decide) hmoves (List.cons_ne_nil _ _) hlast⟩

/-- 65 rows, of which the buffer keeps 18, and two rollbacks of a margin each. -/
def twoRollbacks : Option (Nat × Nat × List Nat) :=
  (BlockAllocator.growing 2 2 64 (some 2) fun _ => true).bind fun a =>
    ((new a).append (fun _ => true) [] a (List.range 32)).bind fun (c₁, a₁, _) =>
      (c₁.append (fun _ => true) [] a₁ (List.range' 32 32)).bind fun (c₂, a₂, _) =>
        (c₂.append (fun _ => true) [] a₂ [64]).bind fun (c₃, a₃, _) =>
          (c₃.truncateTo a₃ 49).bind fun (c₄, a₄) =>
            (c₄.truncateTo a₄ 33).bind fun (c₅, a₅) =>
              (c₅.append (fun _ => true) [] a₅ [65]).map fun (_, _, full) =>
                (c₃.table.numTokens, c₄.table.numTokens, full)

theorem twoRollbacks_eq : twoRollbacks = some (65, 49, [65]) := by decide +kernel

/-- Rollbacks within the margin lose a row of the window where they follow one another. -/
theorem rollbacks_lose_window :
    ∃ (a : BlockAllocator Nat) (s : WindowState Nat) (c₄ c₅ c₆ : PagedKvCache Nat)
      (a₄ a₅ a₆ : BlockAllocator Nat) (full : List Nat),
      BlockAllocator.growing 2 2 64 (some 2) (fun _ => true) = some a ∧ Moves a s ∧
      s.cache.table.numTokens - 49 = windowKeepMargin ∧ s.cache.truncateTo s.pool 49 = some (c₄, a₄) ∧
      c₄.table.numTokens - 33 = windowKeepMargin ∧ c₄.truncateTo a₄ 33 = some (c₅, a₅) ∧
      c₅.append (fun _ => true) [] a₅ [65] = some (c₆, a₆, full) ∧
      ¬∃ r first, genericSegment (some 2) 1 full = some r ∧
        ReadsWindow (some 2) (s.rows.take 33 ++ [65]) 33 1 first r := by
  obtain ⟨a, ha, h⟩ := Option.bind_eq_some_iff.1 twoRollbacks_eq
  obtain ⟨⟨c₁, a₁, out₁⟩, happend₁, h⟩ := Option.bind_eq_some_iff.1 h
  obtain ⟨⟨c₂, a₂, out₂⟩, happend₂, h⟩ := Option.bind_eq_some_iff.1 h
  obtain ⟨⟨c₃, a₃, out₃⟩, happend₃, h⟩ := Option.bind_eq_some_iff.1 h
  obtain ⟨⟨c₄, a₄⟩, htruncate₄, h⟩ := Option.bind_eq_some_iff.1 h
  obtain ⟨⟨c₅, a₅⟩, htruncate₅, h⟩ := Option.bind_eq_some_iff.1 h
  obtain ⟨⟨c₆, a₆, full⟩, hlast, heq⟩ := Option.map_eq_some_iff.1 h
  have hnum₃ : c₃.table.numTokens = 65 := congrArg Prod.fst heq
  have hnum₄ : c₄.table.numTokens = 49 := congrArg (fun x => x.2.1) heq
  have hfull : full = [65] := congrArg (fun x => x.2.2) heq
  have hmoves := ((Relation.ReflTransGen.single (Move.append (s := ⟨new a, a, [], 0⟩) _ [] _
    (by decide) happend₁)).tail (.append _ [] _ (by decide) happend₂)).tail (.append _ [] [64] (by decide) happend₃)
  refine ⟨a, _, c₄, c₅, c₆, a₄, a₅, a₆, full, ha, hmoves, by rw [hnum₃]; rfl, htruncate₄, by rw [hnum₄]; rfl,
    htruncate₅, hlast, ?_⟩
  rintro ⟨r, first, hr, hreads⟩
  rw [hfull] at hr
  cases hr
  -- the only row there is is the new one, and the window starts a row before it
  have hrows := congrArg List.length hreads.rows
  have hfirst : first ≤ 32 := hreads.whole 0 Nat.one_pos
  rw [List.length_drop] at hrows
  change 1 = 34 - first at hrows
  omega

end Oxydllm.Attn
