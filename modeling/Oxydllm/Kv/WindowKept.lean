/-
# Oxydllm.Kv.WindowKept — how far back a windowed cache still reaches.

A windowed buffer loses rows only when an append folds it, and then it keeps the window, the new rows and the margin
behind where that append started. So what counts is `peak`, the latest start of an append so far: as long as no
rollback ends a margin or more before it, the next append finds a whole window (`append_window`), however many
rollbacks there were and however long each was.
-/
import Oxydllm.Kv.CacheRefines

namespace Oxydllm.Kv

namespace PagedKvCache

variable {ρ : Type}

/-! ## Runs -/

/-- A cache with its rows, and the latest start of an append since it was empty. -/
structure WindowState (ρ : Type) where
  cache : PagedKvCache ρ
  pool : BlockAllocator ρ
  rows : List ρ
  peak : Nat

/-- Under a window, `peak` is less than a margin behind `n`. -/
def Near (window : Option Nat) (peak n : Nat) : Prop := ∀ w, window = some w → peak < n + windowKeepMargin

theorem near_zero (window : Option Nat) (n : Nat) : Near window 0 n := fun _ _ => by
  rw [windowKeepMargin]
  omega

/-- Under a window, no append so far started a margin or more behind the target. -/
structure NearRollback (s : WindowState ρ) (n : Nat) : Prop where
  le : n ≤ s.cache.table.numTokens
  near : Near s.cache.window s.peak n

/-- One operation on the cache, and what others do to the pool meanwhile. -/
inductive Move [Inhabited ρ] (s : WindowState ρ) : WindowState ρ → Prop
  | append (device : Nat → Bool) (spare : List (List ρ)) (new : List ρ) (hnew : new ≠ [])
      {c : PagedKvCache ρ} {a : BlockAllocator ρ} {out : List ρ}
      (h : s.cache.append device spare s.pool new = some (c, a, out)) :
      Move s ⟨c, a, s.rows ++ new, max s.peak s.cache.table.numTokens⟩
  | setNumTokens (n : Nat) (hn : NearRollback s n) :
      Move s ⟨s.cache.setNumTokens n, s.pool, s.rows.take n, s.peak⟩
  | truncateTo (n : Nat) (hn : NearRollback s n) {c : PagedKvCache ρ} {a : BlockAllocator ρ}
      (h : s.cache.truncateTo s.pool n = some (c, a)) : Move s ⟨c, a, s.rows.take n, s.peak⟩
  | clear : Move s ⟨(s.cache.clear s.pool).1, (s.cache.clear s.pool).2, [], 0⟩
  | prepopulate (ids : List Nat) (hfresh : s.cache.table = .new) (hcontig : s.cache.contig = none)
      (rows : List ρ) (hrows : (s.cache.prepopulate s.pool ids).1.table.cachedSlots.map
        (s.cache.prepopulate s.pool ids).2.row = rows.map some) :
      Move s ⟨(s.cache.prepopulate s.pool ids).1, (s.cache.prepopulate s.pool ids).2, rows, 0⟩
  | flushPending {c : PagedKvCache ρ} {a : BlockAllocator ρ}
      (h : s.cache.flushPending s.pool = some (c, a)) : Move s ⟨c, a, s.rows, s.peak⟩
  | discardPending : Move s ⟨s.cache.discardPending, s.pool, s.rows, s.peak⟩
  | setPoolWrites (on : Bool) : Move s ⟨s.cache.setPoolWrites on, s.pool, s.rows, s.peak⟩
  | others (a : BlockAllocator ρ) (hlaid : a.Laid)
      (hrows : ∀ slot ∈ s.cache.table.cachedSlots, a.row slot = s.pool.row slot) :
      Move s ⟨s.cache, a, s.rows, s.peak⟩

/-- The states of a cache over a pool. -/
def Moves [Inhabited ρ] (a : BlockAllocator ρ) : WindowState ρ → Prop :=
  Relation.ReflTransGen Move ⟨new a, a, [], 0⟩

/-! ## The invariant -/

/-- The buffer has everything, or the window and the margin behind the latest start of an append. -/
def Reaches (c : PagedKvCache ρ) (peak : Nat) : Prop :=
  c.contig.isSome → match c.window with
    | none => c.contigLen = c.table.numTokens
    | some w => c.contigLen = c.table.numTokens ∨ c.table.numTokens + w + (windowKeepMargin - 1) ≤ c.contigLen + peak

/-- The state seen without its blocks, rolled back no further than it is. -/
def WindowState.asCache (s : WindowState ρ) : CacheState ρ := ⟨s.cache, s.pool, ⟨s.rows, s.rows.length, false⟩⟩

structure Standing (s : WindowState ρ) : Prop where
  refines : Refines s.asCache
  reaches : Reaches s.cache s.peak
  near : Near s.cache.window s.peak s.cache.table.numTokens

/-- A buffer that reaches so far has a whole window. -/
theorem Reaches.kept {c : PagedKvCache ρ} {peak : Nat} (h : Reaches c peak)
    (hnear : Near c.window peak c.table.numTokens) : Kept c c.table.numTokens := by
  intro hsome
  have h := h hsome
  cases hwin : c.window with
  | none =>
      simp only [hwin] at h ⊢
      exact h
  | some w =>
      have hnear := hnear w hwin
      simp only [hwin, windowKeepMargin] at h hnear ⊢
      omega

/-- Rows, slots and buffer are what the invariant reads of a state; its blocks are not looked at. -/
theorem refines_of {c : PagedKvCache ρ} {a : BlockAllocator ρ} {rows : List ρ} {peak : Nat} (hbs : 0 < c.blockSize)
    (ha : a.Laid) (hnum : c.table.numTokens = rows.length) (hslots : c.table.cachedSlots.length = rows.length)
    (hheld : Held c a rows) (hreaches : Reaches c peak) (hnear : Near c.window peak c.table.numTokens) :
    Standing ⟨c, a, rows, peak⟩ := by
  have hkept : Kept c rows.length := hnum ▸ hreaches.kept hnear
  exact ⟨⟨hbs, ha, hnum, hslots, hheld, hkept, le_refl _, fun h => by cases h⟩, hreaches, hnear⟩

theorem new_standing {a : BlockAllocator ρ} (h : a.Laid) : Standing ⟨new a, a, [], 0⟩ :=
  refines_of h.block_pos h rfl rfl ⟨rfl, rfl, rfl⟩ (fun hsome => by cases hsome) (near_zero _ _)

theorem Reaches.setNumTokens {c : PagedKvCache ρ} {peak n : Nat} (h : Reaches c peak) (hn : n ≤ c.table.numTokens) :
    Reaches (c.setNumTokens n) peak := by
  intro hsome
  have h := h hsome
  change match c.window with
    | none => c.contigLen - (c.table.numTokens - n) = n
    | some w => c.contigLen - (c.table.numTokens - n) = n ∨
        n + w + (windowKeepMargin - 1) ≤ c.contigLen - (c.table.numTokens - n) + peak
  cases hwin : c.window with
  | none =>
      simp only [hwin] at h ⊢
      omega
  | some w =>
      simp only [hwin, windowKeepMargin] at h ⊢
      omega

theorem setNumTokens_standing {s : WindowState ρ} (hs : Standing s) {n : Nat} (hn : NearRollback s n) :
    Standing ⟨s.cache.setNumTokens n, s.pool, s.rows.take n, s.peak⟩ := by
  have hnum : s.cache.table.numTokens = s.rows.length := hs.refines.num
  have hle : n ≤ s.rows.length := hnum ▸ hn.le
  have hlen : (s.rows.take n).length = n := by rw [List.length_take, Nat.min_eq_left hle]
  refine refines_of hs.refines.block_pos hs.refines.pool hlen.symm ?_ (held_setNumTokens hs.refines.held hnum hle)
    (hs.reaches.setNumTokens hn.le) hn.near
  have hslots : s.cache.table.cachedSlots.length = s.rows.length := hs.refines.slots
  change (s.cache.table.cachedSlots.take n).length = _
  rw [List.length_take, hslots, List.length_take]

theorem flushPending_standing {s : WindowState ρ} (hs : Standing s) {c : PagedKvCache ρ} {a : BlockAllocator ρ}
    (h : s.cache.flushPending s.pool = some (c, a)) :
    Standing ⟨c, a, s.rows, s.peak⟩ ∧ c = s.cache.discardPending := by
  obtain ⟨hrefines, rfl⟩ := flushPending_refines (s := s.asCache) hs.refines h
  exact ⟨⟨hrefines, hs.reaches, hs.near⟩, rfl⟩

theorem truncateTo_standing {s : WindowState ρ} (hs : Standing s) {n : Nat} (hn : NearRollback s n)
    {c : PagedKvCache ρ} {a : BlockAllocator ρ} (h : s.cache.truncateTo s.pool n = some (c, a)) :
    Standing ⟨c, a, s.rows.take n, s.peak⟩ := by
  have hnum : s.cache.table.numTokens = s.rows.length := hs.refines.num
  unfold truncateTo at h
  split at h
  next hge =>
    -- nothing to drop
    cases h
    rw [List.take_of_length_le (hnum ▸ hge)]
    exact hs
  next hlt =>
    obtain ⟨⟨c₁, a₁⟩, hflush, h⟩ := Option.map_eq_some_iff.1 h
    cases h
    obtain ⟨h₁, rfl⟩ := flushPending_standing hs hflush
    have h₂ := setNumTokens_standing h₁ (n := n) ⟨hn.le, hn.near⟩
    -- the blocks cut off and freed change neither the buffer nor a row of the pool
    by_cases hcut : blocksFor n s.cache.discardPending.blockSize < s.cache.discardPending.table.blockIds.length
    · simp only [hcut, if_true]
      generalize s.cache.discardPending.table.blockIds.drop (blocksFor n s.cache.discardPending.blockSize) = ids
      obtain ⟨hseg, hsb, hbs, hlaid⟩ := freeAll_segments a₁ ids
      have hrow : (freeAll a₁ ids).row = a₁.row := by
        funext slot
        simp only [BlockAllocator.row, BlockAllocator.segmentSlots, hseg, hsb, hbs]
      have hheld : Held (s.cache.discardPending.setNumTokens n) (freeAll a₁ ids) (s.rows.take n) :=
        held_frame h₂.refines.held rfl rfl rfl rfl fun _ hpending => ⟨hpending, fun _ _ => by rw [hrow]; rfl⟩
      exact refines_of h₂.refines.block_pos (hlaid h₁.refines.pool) h₂.refines.num h₂.refines.slots hheld h₂.reaches
        h₂.near
    · simp only [hcut, if_false]
      exact h₂

section Append

variable [Inhabited ρ] {s : WindowState ρ} {device : Nat → Bool} {spare : List (List ρ)} {new : List ρ}
  {c : PagedKvCache ρ} {a : BlockAllocator ρ} {out : List ρ}

omit [Inhabited ρ] in
/-- A fold keeps the window, the new rows and the margin behind the start of the append. -/
theorem Reaches.append {peak : Nat} (h : Reaches s.cache peak) {len : Nat}
    (hlen : len = s.cache.keepLen new.length ∨ s.cache.contig.isSome ∧ len = s.cache.contigLen + new.length) :
    match s.cache.window with
    | none => len = s.cache.table.numTokens + new.length
    | some w => len = s.cache.table.numTokens + new.length ∨
        s.cache.table.numTokens + new.length + w + (windowKeepMargin - 1) ≤ len + max peak s.cache.table.numTokens := by
  unfold Reaches at h
  unfold keepLen at hlen
  cases hwin : s.cache.window with
  | none =>
      simp only [hwin] at h hlen ⊢
      by_cases hsome : s.cache.contig.isSome
      · have h := h hsome
        simp only [hsome, if_true, true_and] at hlen
        omega
      · simpa [hsome] using hlen
  | some w =>
      simp only [hwin, span, windowKeepMargin] at h hlen ⊢
      by_cases hsome : s.cache.contig.isSome
      · have h := h hsome
        simp only [hsome, if_true, true_and] at hlen
        omega
      · simp only [hsome, Bool.false_eq_true, if_false, false_and, or_false] at hlen
        omega

/-- An append shows the end of the rows, as far back as the window of its first row, and what comes after it stands
again. -/
theorem append_window (hs : Standing s) (hnew : new ≠ [])
    (h : s.cache.append device spare s.pool new = some (c, a, out)) :
    Standing ⟨c, a, s.rows ++ new, max s.peak s.cache.table.numTokens⟩ ∧ c.window = s.cache.window ∧
      out = (s.rows ++ new).drop ((s.rows ++ new).length - c.contigLen) ∧ c.contigLen ≤ (s.rows ++ new).length ∧
      new.length ≤ c.contigLen ∧
      match s.cache.window with
      | none => c.contigLen = (s.rows ++ new).length
      | some w => min (s.rows ++ new).length (w + new.length - 1) ≤ c.contigLen := by
  have hrefines := append_refines (s := s.asCache) hs.refines hnew h
  have hnum : s.cache.table.numTokens = s.rows.length := hs.refines.num
  obtain ⟨l, hl, -⟩ := Option.bind_eq_some_iff.1 h
  -- the append is taken apart into its blocks and its place in the buffer
  obtain ⟨added, r, hadded, hwritten, hplaced, heq⟩ := @append_eq _ _ s.asCache hs.refines _ spare _ hnew _ hl
  have hkept := placed_kept (hs.reaches.kept hs.near) (le_refl _) hnew hplaced
  have hreaches := hs.reaches.append hplaced.len
  have hnear := hs.near
  have htable : l.table.numTokens = s.cache.table.numTokens + new.length := by
    rw [hadded.numTokens, hwritten]
    rfl
  change s.cache.append device spare s.pool new = _ at heq
  rw [heq] at h
  cases h
  have hheld := hrefines.held
  have hpos : 0 < new.length := List.length_pos_iff.2 hnew
  have hge : new.length ≤ r.2.2 := by
    have hkeep := le_keepLen (c := s.cache) new.length
    have hlen : r.2.2 = s.cache.keepLen new.length ∨ _ := hplaced.len
    omega
  refine ⟨refines_of hrefines.block_pos hrefines.pool hrefines.num hrefines.slots hheld (fun _ => ?_) ?_, rfl, rfl,
    hheld.2.1, hge, ?_⟩
  · change match s.cache.window with
      | none => r.2.2 = l.table.numTokens
      | some w => r.2.2 = l.table.numTokens ∨
          l.table.numTokens + w + (windowKeepMargin - 1) ≤ r.2.2 + max s.peak s.cache.table.numTokens
    rw [htable]
    exact hreaches
  · intro w hw
    have hnear := hnear w hw
    change max s.peak s.cache.table.numTokens < l.table.numTokens + windowKeepMargin
    rw [htable]
    simp only [windowKeepMargin] at hnear ⊢
    omega
  · rw [List.length_append, ← hnum]
    change match s.cache.window with
      | none => r.2.2 = s.cache.table.numTokens + new.length
      | some w => min (s.cache.table.numTokens + new.length) (w + new.length - 1) ≤ r.2.2
    change match s.cache.window with
      | none => r.2.2 = s.cache.table.numTokens + new.length
      | some w => _ ∧ min (s.cache.table.numTokens + new.length) (w + new.length - 1) ≤ r.2.2 at hkept
    cases hwin : s.cache.window with
    | none =>
        simp only [hwin] at hkept ⊢
        exact hkept
    | some w =>
        simp only [hwin] at hkept ⊢
        exact hkept.2

end Append

/-! ## Every run -/

theorem truncateTo_window {c c' : PagedKvCache ρ} {a a' : BlockAllocator ρ} {n : Nat}
    (h : c.truncateTo a n = some (c', a')) : c'.window = c.window := by
  unfold truncateTo at h
  split at h
  · cases h
    rfl
  · obtain ⟨⟨c₁, a₁⟩, hflush, h⟩ := Option.map_eq_some_iff.1 h
    obtain ⟨a₂, -, hflush⟩ := Option.map_eq_some_iff.1 hflush
    cases hflush
    cases h
    change (if _ then _ else _ : PagedKvCache ρ).window = _
    split <;> rfl

variable [Inhabited ρ]

theorem Move.standing {s s' : WindowState ρ} (hs : Standing s) (h : Move s s') : Standing s' := by
  cases h with
  | append device spare new hnew h => exact (append_window hs hnew h).1
  | setNumTokens n hn => exact setNumTokens_standing hs hn
  | truncateTo n hn h => exact truncateTo_standing hs hn h
  | clear =>
      -- nothing was ever started from an empty buffer
      have h := step_refines (s := s.asCache) hs.refines .clear
      exact refines_of h.block_pos h.pool h.num h.slots h.held (fun hsome => by cases hsome) (near_zero _ _)
  | prepopulate ids hfresh hcontig rows hrows =>
      have h := step_refines (s := s.asCache) hs.refines (.prepopulate ids hfresh hcontig rows hrows)
      obtain ⟨-, -, -, hc, -, -⟩ := prepopulate_fits hs.refines.block_pos s.pool ids hfresh
      have hnone : (s.cache.prepopulate s.pool ids).1.contig = none := (congrArg PagedKvCache.contig hc).trans hcontig
      refine refines_of h.block_pos h.pool h.num h.slots h.held (fun hsome => ?_) (near_zero _ _)
      rw [hnone] at hsome
      cases hsome
  | flushPending h => exact (flushPending_standing hs h).1
  | discardPending => exact ⟨step_refines (s := s.asCache) hs.refines .discardPending, hs.reaches, hs.near⟩
  | setPoolWrites on => exact ⟨step_refines (s := s.asCache) hs.refines (.setPoolWrites on), hs.reaches, hs.near⟩
  | others a hlaid hrows =>
      exact ⟨step_refines (s := s.asCache) hs.refines (.others a hlaid hrows), hs.reaches, hs.near⟩

theorem Move.window {s s' : WindowState ρ} (hs : Standing s) (h : Move s s') : s'.cache.window = s.cache.window := by
  cases h with
  | append device spare new hnew h => exact (append_window hs hnew h).2.1
  | truncateTo n hn h => exact truncateTo_window h
  | prepopulate ids hfresh hcontig rows hrows =>
      exact (step_geometry (s := s.asCache) (.prepopulate ids hfresh hcontig rows hrows)).2
  | flushPending h => exact (step_geometry (s := s.asCache) (.flushPending h)).2
  | _ => rfl

theorem Moves.standing {a : BlockAllocator ρ} (ha : a.Laid) {s : WindowState ρ} (h : Moves a s) :
    Standing s ∧ s.cache.window = a.slidingWindow := by
  induction h with
  | refl => exact ⟨new_standing ha, rfl⟩
  | tail _ hmove ih => exact ⟨hmove.standing ih.1, (hmove.window ih.1).trans ih.2⟩

end PagedKvCache

end Oxydllm.Kv
