/-
# Oxydllm.Kv.Ownership — the references a cache holds on the blocks of its pool.

`Owns env c a`: the count of every block is the number of references the cache `c` holds on it plus `env`,
what everybody else holds. Every operation of the cache keeps this for the same `env`; with all references
given back the pool is free as a whole.
-/
import Oxydllm.Kv.CacheRefines

namespace Oxydllm.Kv

namespace BlockAllocator

variable {ρ : Type}

/-- The counts and the free list; writes do not touch them. -/
theorem writeFrom_frame {a a' : BlockAllocator ρ} {fuel slot : Nat} {data : List ρ}
    (h : writeFrom a fuel slot data = some a') : a' = { a with segments := a'.segments } := by
  induction fuel generalizing a slot data with
  | zero =>
      obtain ⟨-, h⟩ := Option.ite_none_right_eq_some.1 h
      cases h
      rfl
  | succ fuel ih =>
      unfold writeFrom at h
      split at h
      · cases h
        rfl
      · obtain ⟨rows, -, h⟩ := Option.bind_eq_some_iff.1 h
        obtain ⟨out, -, h⟩ := Option.bind_eq_some_iff.1 h
        rw [ih h]

theorem Counts.refl {a : BlockAllocator ρ} (h : a.Wf) : Counts a a fun _ n => n :=
  ⟨h, fun _ => rfl, rfl, rfl, rfl, rfl⟩

theorem Counts.trans {a b c : BlockAllocator ρ} {f g : Nat → Nat → Nat} (h : Counts a b f)
    (h' : Counts b c g) : Counts a c fun id n => g id (f id n) :=
  ⟨h'.wf, fun id => by rw [h'.count, h.count], h'.maxBlocks.trans h.maxBlocks,
    h'.blockSize.trans h.blockSize, h'.window.trans h.window, h'.segmentBlocks.trans h.segmentBlocks⟩

theorem Counts.congr {a b : BlockAllocator ρ} {f g : Nat → Nat → Nat} (h : Counts a b f)
    (hfg : ∀ id, f id (a.refCount id) = g id (a.refCount id)) : Counts a b g :=
  { h with count := fun id => by rw [h.count, hfg] }

/-- A change of the rows alone. -/
theorem counts_of_frame {a a' : BlockAllocator ρ} (h : a.Wf)
    (hframe : a' = { a with segments := a'.segments }) : Counts a a' fun _ n => n := by
  rw [hframe]
  exact ⟨⟨h.counts_length, h.below, h.free_nodup, h.free_iff⟩, fun _ => rfl, rfl, rfl, rfl, rfl⟩

theorem freeAll_counts {a : BlockAllocator ρ} (h : a.Wf) {ids : List Nat}
    (hids : ∀ id, ids.count id ≤ a.refCount id) :
    Counts a (PagedKvCache.freeAll a ids) fun id n => n - ids.count id := by
  induction ids generalizing a with
  | nil => exact (Counts.refl h).congr fun id => (Nat.sub_zero _).symm
  | cons top ids ih =>
      have hpos : 0 < a.refCount top := by
        have := hids top
        rw [List.count_cons_self] at this
        omega
      have hc := free_counts h hpos
      have hrest : ∀ id, ids.count id ≤ (a.free top).refCount id := by
        intro id
        have := hids id
        rw [hc.count]
        by_cases hid : id = top
        · subst hid
          rw [List.count_cons_self] at this
          simp only [if_true]
          omega
        · rw [List.count_cons_of_ne (Ne.symm hid)] at this
          rwa [if_neg hid]
      refine (hc.trans (ih hc.wf hrest)).congr fun id => ?_
      by_cases hid : id = top
      · subst hid
        simp only [if_true, List.count_cons_self]
        omega
      · simp only [if_neg hid, List.count_cons_of_ne (Ne.symm hid)]

/-- The blocks somebody holds. -/
def heldBlocks (a : BlockAllocator ρ) : List Nat :=
  (List.range a.numBlocks).filter fun b => 0 < a.refCount b

/-- A block is free or held. -/
theorem numFree_add_held {a : BlockAllocator ρ} (h : a.Wf) :
    a.numFree + a.heldBlocks.length = a.maxBlocks := by
  have hfree : a.freeList.Perm ((List.range a.numBlocks).filter fun b => !decide (0 < a.refCount b)) := by
    rw [List.perm_ext_iff_of_nodup h.free_nodup (List.nodup_range.filter _)]
    intro b
    rw [h.free_iff, List.mem_filter, List.mem_range]
    simp
  have hsplit := (List.filter_append_perm (fun b => decide (0 < a.refCount b))
    (List.range a.numBlocks)).length_eq
  rw [List.length_append, List.length_range] at hsplit
  have hbelow := h.below
  have hlen := hfree.length_eq
  show a.freeList.length + (a.maxBlocks - a.numBlocks) + a.heldBlocks.length = a.maxBlocks
  unfold heldBlocks
  omega

theorem numFree_of_unheld {a : BlockAllocator ρ} (h : a.Wf) (hzero : ∀ b, a.refCount b = 0) :
    a.numFree = a.maxBlocks := by
  have hnone : a.heldBlocks = [] := by
    rw [heldBlocks, List.filter_eq_nil_iff]
    intro b _
    simp [hzero b]
  have := numFree_add_held h
  rwa [hnone, List.length_nil, Nat.add_zero] at this

end BlockAllocator

namespace PagedKvCache

open BlockAllocator

variable {ρ : Type}

/-- The cache's references and those of everybody else are all there are. -/
structure Owns (env : Nat → Nat) (c : PagedKvCache ρ) (a : BlockAllocator ρ) : Prop where
  wf : a.Wf
  count : ∀ b, a.refCount b = env b + c.table.blockIds.count b

/-- What an operation of the cache leaves of the pool's shape. -/
structure OwnStep (env : Nat → Nat) (c' : PagedKvCache ρ) (a a' : BlockAllocator ρ) : Prop where
  owns : Owns env c' a'
  maxBlocks : a'.maxBlocks = a.maxBlocks
  blockSize : a'.blockSize = a.blockSize

section

variable {env : Nat → Nat} {c c' : PagedKvCache ρ} {a a' : BlockAllocator ρ}

theorem Owns.refl_step (h : Owns env c a) : OwnStep env c a a := ⟨h, rfl, rfl⟩

/-- An operation that changes neither the block ids nor the counts. -/
theorem Owns.of_frame (h : Owns env c a) (hids : c'.table.blockIds = c.table.blockIds)
    (hframe : a' = { a with segments := a'.segments }) : OwnStep env c' a a' := by
  have hc := counts_of_frame h.wf hframe
  exact ⟨⟨hc.wf, fun b => by rw [hc.count, hids, h.count]⟩, hc.maxBlocks, hc.blockSize⟩

theorem setNumTokens_owns (h : Owns env c a) (n : Nat) : OwnStep env (c.setNumTokens n) a a :=
  h.of_frame rfl rfl

theorem clear_owns (h : Owns env c a) : OwnStep env (c.clear a).1 a (c.clear a).2 := by
  have hc := @freeAll_counts _ _ h.wf c.table.blockIds fun b => by rw [h.count]; omega
  refine ⟨⟨hc.wf, fun b => ?_⟩, hc.maxBlocks, hc.blockSize⟩
  show (freeAll a c.table.blockIds).refCount b = env b + 0
  rw [hc.count, h.count]
  omega

theorem prepopulateBlock_owns (h : Owns env c a) {id : Nat} (hid : 0 < a.refCount id) :
    OwnStep env (c.prepopulateBlock a id).1 a (c.prepopulateBlock a id).2 := by
  have hc := share_counts h.wf hid
  refine ⟨⟨hc.wf, fun b => ?_⟩, hc.maxBlocks, hc.blockSize⟩
  show (a.share id).refCount b = env b + (c.table.blockIds ++ [id]).count b
  rw [hc.count, h.count, List.count_append]
  by_cases hb : b = id
  · subst hb
    rw [if_pos rfl, List.count_singleton_self]
    omega
  · rw [if_neg hb, List.count_singleton, beq_eq_false_iff_ne.2 (Ne.symm hb)]
    rfl

theorem prepopulate_owns (h : Owns env c a) {ids : List Nat} (hids : ∀ id ∈ ids, 0 < a.refCount id) :
    OwnStep env (c.prepopulate a ids).1 a (c.prepopulate a ids).2 := by
  have hfold : ∀ {ids : List Nat} {c : PagedKvCache ρ} {a : BlockAllocator ρ}, Owns env c a →
      (∀ id ∈ ids, 0 < a.refCount id) →
        let r := ids.foldl (fun s id => prepopulateBlock s.1 s.2 id) (c, a)
        OwnStep env r.1 a r.2 := by
    intro ids
    induction ids with
    | nil => exact fun h _ => h.refl_step
    | cons id ids ih =>
        intro c a h hids
        have h₁ := prepopulateBlock_owns h (hids id List.mem_cons_self)
        -- sharing a block only raises counts
        have hshare : ∀ b, a.refCount b ≤ (a.share id).refCount b := by
          intro b
          rw [(share_counts h.wf (hids id List.mem_cons_self)).count]
          split <;> omega
        have h₂ := ih h₁.owns fun b hb => lt_of_lt_of_le (hids b (List.mem_cons_of_mem _ hb)) (hshare b)
        exact ⟨h₂.owns, h₂.maxBlocks.trans h₁.maxBlocks, h₂.blockSize.trans h₁.blockSize⟩
  have h₁ := hfold h hids
  exact ⟨⟨h₁.owns.wf, h₁.owns.count⟩, h₁.maxBlocks, h₁.blockSize⟩

theorem flushRuns_frame {bs : Nat} {src : List ρ} {runs : List PendingRun}
    (h : flushRuns bs src runs a = some a') : a' = { a with segments := a'.segments } := by
  induction runs generalizing a with
  | nil =>
      cases h
      rfl
  | cons run runs ih =>
      obtain ⟨rows, -, h⟩ := Option.bind_eq_some_iff.1 h
      obtain ⟨a₁, ha₁, h⟩ := Option.bind_eq_some_iff.1 h
      rw [ih h, writeFrom_frame ha₁]

theorem flushBatches_frame {bs : Nat} {batches : List (PendingBatch ρ)}
    (h : flushBatches bs batches a = some a') : a' = { a with segments := a'.segments } := by
  induction batches generalizing a with
  | nil =>
      cases h
      rfl
  | cons batch batches ih =>
      obtain ⟨a₁, ha₁, h⟩ := Option.bind_eq_some_iff.1 h
      rw [ih h, flushRuns_frame ha₁]

theorem flushPending_owns (h : Owns env c a) (hf : c.flushPending a = some (c', a')) :
    OwnStep env c' a a' ∧ c'.table = c.table := by
  obtain ⟨a₁, ha₁, hf⟩ := Option.map_eq_some_iff.1 hf
  cases hf
  exact ⟨h.of_frame rfl (flushBatches_frame ha₁), rfl⟩

theorem truncateTo_owns (h : Owns env c a) {n : Nat} (ht : c.truncateTo a n = some (c', a')) :
    OwnStep env c' a a' := by
  unfold truncateTo at ht
  split at ht
  · cases ht
    exact h.refl_step
  · obtain ⟨⟨c₁, a₁⟩, hflush, ht⟩ := Option.map_eq_some_iff.1 ht
    cases ht
    obtain ⟨h₁, -⟩ := flushPending_owns h hflush
    by_cases hcut : blocksFor n c₁.blockSize < c₁.table.blockIds.length
    · simp only [hcut, if_true]
      generalize hk : blocksFor n c₁.blockSize = k
      -- the ids kept and the ids dropped
      have hsplit : ∀ b, c₁.table.blockIds.count b =
          (c₁.table.blockIds.take k).count b + (c₁.table.blockIds.drop k).count b := by
        intro b
        rw [← List.count_append, List.take_append_drop]
      have hc := @freeAll_counts _ _ h₁.owns.wf (c₁.table.blockIds.drop k) fun b => by
        rw [h₁.owns.count, hsplit]
        omega
      refine ⟨⟨hc.wf, fun b => ?_⟩, hc.maxBlocks.trans h₁.maxBlocks, hc.blockSize.trans h₁.blockSize⟩
      show (freeAll a₁ (c₁.table.blockIds.drop k)).refCount b =
        env b + (c₁.table.blockIds.take k).count b
      rw [hc.count, h₁.owns.count, hsplit]
      omega
    · simp only [hcut, if_false]
      exact ⟨⟨h₁.owns.wf, h₁.owns.count⟩, h₁.maxBlocks, h₁.blockSize⟩

end

section

variable [Inhabited ρ] {env : Nat → Nat} {device : Nat → Bool}

theorem nextBlock_owns {a alloc : BlockAllocator ρ} {bs id : Nat} {t : BlockTable}
    {blockIds : List Nat} (hwf : a.Wf) (hcount : ∀ b, a.refCount b = env b + t.blockIds.count b)
    (h : nextBlock device bs a t = some (id, alloc, blockIds)) :
    alloc.Wf ∧ (∀ b, alloc.refCount b = env b + blockIds.count b) ∧ alloc.maxBlocks = a.maxBlocks ∧
      alloc.blockSize = a.blockSize := by
  unfold nextBlock at h
  split at h
  · obtain ⟨⟨top, a'⟩, ha', h⟩ := Option.map_eq_some_iff.1 h
    cases h
    obtain ⟨hc, hzero, -⟩ := allocate_counts hwf ha'
    show a'.Wf ∧ (∀ b, a'.refCount b = env b + (t.blockIds ++ [top]).count b) ∧ _
    refine ⟨hc.wf, fun b => ?_, hc.maxBlocks, hc.blockSize⟩
    rw [hc.count, List.count_append]
    by_cases hb : b = top
    · -- nobody held the block handed out
      subst hb
      rw [hcount] at hzero
      rw [if_pos rfl, List.count_singleton_self]
      omega
    · rw [if_neg hb, hcount, List.count_singleton, beq_eq_false_iff_ne.2 (Ne.symm hb)]
      rfl
  · obtain ⟨id', -, h⟩ := Option.map_eq_some_iff.1 h
    cases h
    exact ⟨hwf, hcount, rfl, rfl⟩

theorem append_owns {c c' : PagedKvCache ρ} {a a' : BlockAllocator ρ} {spare : List (List ρ)}
    {new out : List ρ} (h : Owns env c a)
    (happend : c.append device spare a new = some (c', a', out)) : OwnStep env c' a a' := by
  obtain ⟨s, hs, happend⟩ := Option.bind_eq_some_iff.1 happend
  obtain ⟨⟨buf, start, len⟩, -, happend⟩ := Option.bind_eq_some_iff.1 happend
  obtain ⟨rows, -, happend⟩ := Option.map_eq_some_iff.1 happend
  cases happend
  have hloop := (appendBlocks_induct
    (P := fun s : BlockLoop ρ => s.alloc.Wf ∧
      (∀ b, s.alloc.refCount b = env b + s.table.blockIds.count b) ∧
        s.alloc.maxBlocks = a.maxBlocks ∧ s.alloc.blockSize = a.blockSize)
    (fun s s' _ hs h => by
      obtain ⟨id, alloc, blockIds, hnext, offset, n, -, -, rfl⟩ := appendBlock_eq h
      obtain ⟨hwf, hcount, hmax, hbs⟩ := nextBlock_owns hs.1 hs.2.1 hnext
      exact ⟨hwf, hcount, hmax.trans hs.2.2.1, hbs.trans hs.2.2.2⟩)
    ⟨h.wf, h.count, rfl, rfl⟩ hs).1
  exact ⟨⟨hloop.1, hloop.2.1⟩, hloop.2.2.1, hloop.2.2.2⟩

end

end PagedKvCache

end Oxydllm.Kv
