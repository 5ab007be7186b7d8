/-
# Oxydllm.Kv.Room — when an append finds its blocks.

An append takes the blocks its tokens need beyond those of the table, and nothing else can make it fail:
it goes through exactly when the blocks of the table and the free ones of the pool together are enough.
-/
import Oxydllm.Kv.Ownership

namespace Oxydllm.Kv

variable {ρ : Type} [Inhabited ρ] {device : Nat → Bool}

/-- On a device that holds every segment, a block is handed out exactly when one is left. -/
theorem BlockAllocator.allocate_iff {a : BlockAllocator ρ} (h : a.Laid) (hdevice : ∀ n, device n = true) :
    (∃ r, a.allocate device = some r) ↔ 0 < a.numFree := by
  have hseg := h.segment_pos
  cases hfree : a.freeList with
  | cons id rest =>
      constructor
      · intro _
        rw [numFree, hfree, List.length_cons]
        omega
      · intro _
        refine ⟨(id, { a with freeList := rest, refCounts := a.refCounts.set id 1 }), ?_⟩
        simp [allocate, hfree]
  | nil =>
      have hnum : a.numFree = a.maxBlocks - a.numBlocks := by
        rw [numFree, hfree, List.length_nil, Nat.zero_add]
      rw [hnum]
      by_cases hleft : min a.segmentBlocks (a.maxBlocks - a.numBlocks) = 0
      · -- nothing below the ceiling is left
        have hzero : a.maxBlocks - a.numBlocks = 0 := by omega
        simp [allocate, grow, hfree, hzero]
      · obtain ⟨n, hn⟩ := Nat.exists_eq_succ_of_ne_zero hleft
        constructor
        · intro _
          omega
        · intro _
          simp [allocate, grow, hfree, hdevice, hn, List.range'_succ]

namespace PagedKvCache

open BlockAllocator

variable {env : Nat → Nat} {bs newSeq : Nat} {poolWrites : Bool}

/-! ## The block loop -/

/-- What holds of the pool and the table between two turns of the loop. -/
structure LoopStands (env : Nat → Nat) (bs : Nat) (s : BlockLoop ρ) : Prop where
  laid : s.alloc.Laid
  wf : s.alloc.Wf
  count : ∀ b, s.alloc.refCount b = env b + s.table.blockIds.count b
  blocks : s.table.blockIds.length = blocksFor s.table.numTokens bs
  addressable : s.alloc.maxBlocks * bs ≤ 2 ^ 32

theorem blocksFor_succ {bs n : Nat} (hbs : 0 < bs) (h : n % bs = 0) :
    blocksFor n bs = n / bs ∧ blocksFor (n + 1) bs = n / bs + 1 := by
  have hn : n = n / bs * bs := by
    rw [Nat.mul_comm]
    have := Nat.div_add_mod n bs
    omega
  constructor
  · conv_lhs => rw [hn]
    exact blocksFor_mul hbs _
  · conv_lhs => rw [hn]
    exact blocksFor_within hbs Nat.one_pos hbs

theorem nextBlock_room (hbs : 0 < bs) (hdevice : ∀ n, device n = true) {s : BlockLoop ρ}
    (hs : LoopStands env bs s) (hfree : s.table.numTokens % bs = 0 → 0 < s.alloc.numFree) :
    ∃ id alloc blockIds, nextBlock device bs s.alloc s.table = some (id, alloc, blockIds) ∧
      id ∈ blockIds ∧ blockIds.length = s.table.numTokens / bs + 1 ∧
        blockIds.length + alloc.numFree = s.table.blockIds.length + s.alloc.numFree := by
  by_cases hzero : s.table.numTokens % bs = 0
  · obtain ⟨⟨id, a'⟩, ha'⟩ := (allocate_iff hs.laid hdevice).2 (hfree hzero)
    obtain ⟨-, -, hnum⟩ := allocate_counts hs.wf ha'
    have hblocks := hs.blocks
    rw [(blocksFor_succ hbs hzero).1] at hblocks
    refine ⟨id, a', s.table.blockIds ++ [id], ?_, by simp, ?_, ?_⟩
    · rw [nextBlock, if_pos hzero, ha', Option.map_some]
    · rw [List.length_append, hblocks, List.length_singleton]
    · rw [List.length_append, List.length_singleton]
      omega
  · -- the last block of the table has room
    have hmod := Nat.mod_lt s.table.numTokens hbs
    have hlen : s.table.blockIds.length = s.table.numTokens / bs + 1 := by
      have hdm := Nat.div_add_mod s.table.numTokens bs
      rw [Nat.mul_comm] at hdm
      rw [hs.blocks]
      conv_lhs => rw [← hdm]
      exact blocksFor_within hbs (Nat.pos_of_ne_zero hzero) (le_of_lt hmod)
    have hne : s.table.blockIds ≠ [] := List.ne_nil_of_length_eq_add_one hlen
    refine ⟨s.table.blockIds.getLast hne, s.alloc, s.table.blockIds, ?_, List.getLast_mem hne, hlen, rfl⟩
    rw [nextBlock, if_neg hzero, List.getLast?_eq_some_getLast hne, Option.map_some]

/-- A turn that needs no block, or finds one. -/
theorem appendBlock_room (hbs : 0 < bs) (hdevice : ∀ n, device n = true) {s : BlockLoop ρ}
    (hs : LoopStands env bs s) (hlt : s.written < newSeq)
    (hfree : s.table.numTokens % bs = 0 → 0 < s.alloc.numFree) :
    ∃ s', appendBlock device bs poolWrites newSeq s = some s' ∧ LoopStands env bs s' ∧
      s'.table.blockIds.length + s'.alloc.numFree = s.table.blockIds.length + s.alloc.numFree ∧
        s'.table.numTokens + (newSeq - s'.written) = s.table.numTokens + (newSeq - s.written) ∧
          s.written < s'.written := by
  obtain ⟨id, alloc, blockIds, hnext, hmem, hlen, hroom⟩ := nextBlock_room hbs hdevice hs hfree
  obtain ⟨hwf, hcount, hmax, -⟩ := nextBlock_owns hs.wf hs.count hnext
  have hlaid := (nextBlock_extends hs.laid hnext).laid
  have hmod := Nat.mod_lt s.table.numTokens hbs
  -- the block is below the ceiling, so its slots have `u32` indices
  have hid : id < s.alloc.maxBlocks := by
    have hpos : 0 < alloc.refCount id := by
      rw [hcount]
      exact Nat.add_pos_right _ (List.count_pos_iff.2 hmem)
    rw [← hmax]
    exact lt_of_lt_of_le (lt_of_refCount hwf hpos) hwf.below
  have haddr : (id + 1) * bs ≤ 2 ^ 32 := (Nat.mul_le_mul_right bs hid).trans hs.addressable
  rw [Nat.succ_mul] at haddr
  generalize hn : min (newSeq - s.written) (bs - s.table.numTokens % bs) = n
  have hblock : blocksFor (s.table.numTokens + n) bs = s.table.numTokens / bs + 1 := by
    have hdm := Nat.div_add_mod s.table.numTokens bs
    rw [Nat.mul_comm] at hdm
    conv_lhs => rw [← hdm, Nat.add_assoc]
    exact blocksFor_within hbs (by omega) (by omega)
  refine ⟨⟨alloc, ⟨blockIds, s.table.numTokens + n,
      s.table.cachedSlots ++ List.range' (id * bs + s.table.numTokens % bs) n⟩,
      if poolWrites then pushRun s.runs ⟨id * bs + s.table.numTokens % bs, s.written, n⟩ else s.runs,
      s.written + n⟩, ?_, ⟨hlaid, hwf, hcount, ?_, ?_⟩, hroom, ?_, ?_⟩
  · simp only [appendBlock, hnext, Option.bind_some, hn]
    rw [if_pos (by omega)]
  · show blockIds.length = blocksFor (s.table.numTokens + n) bs
    rw [hlen, hblock]
  · show alloc.maxBlocks * bs ≤ 2 ^ 32
    rw [hmax]
    exact hs.addressable
  · show s.table.numTokens + n + (newSeq - (s.written + n)) = _
    omega
  · show s.written < s.written + n
    omega

theorem appendBlock_stuck (hdevice : ∀ n, device n = true) {s : BlockLoop ρ} (hs : s.alloc.Laid)
    (hzero : s.table.numTokens % bs = 0) (hfree : s.alloc.numFree = 0) :
    appendBlock device bs poolWrites newSeq s = none := by
  have hnone : s.alloc.allocate device = none := by
    rw [Option.eq_none_iff_forall_not_mem]
    intro r hr
    have := (allocate_iff hs hdevice).1 ⟨r, hr⟩
    omega
  simp only [appendBlock, nextBlock, if_pos hzero, hnone, Option.map_none, Option.bind_none]

/-- The loop ends exactly when the blocks are there. -/
theorem appendBlocks_iff (hbs : 0 < bs) (hdevice : ∀ n, device n = true) {fuel : Nat}
    {s : BlockLoop ρ} (hs : LoopStands env bs s) (hfuel : newSeq - s.written ≤ fuel) :
    (∃ s', appendBlocks device bs poolWrites newSeq fuel s = some s') ↔
      blocksFor (s.table.numTokens + (newSeq - s.written)) bs ≤
        s.table.blockIds.length + s.alloc.numFree := by
  induction fuel generalizing s with
  | zero =>
      have hdone : ¬ s.written < newSeq := by omega
      have hrest : newSeq - s.written = 0 := by omega
      rw [appendBlocks, if_neg hdone, hrest, Nat.add_zero, ← hs.blocks]
      exact ⟨fun _ => Nat.le_add_right _ _, fun _ => ⟨s, rfl⟩⟩
  | succ fuel ih =>
      by_cases hlt : s.written < newSeq
      · rw [appendBlocks, if_pos hlt]
        by_cases hstuck : s.table.numTokens % bs = 0 ∧ s.alloc.numFree = 0
        · -- a block is needed and none is left
          obtain ⟨hzero, hfree⟩ := hstuck
          rw [appendBlock_stuck hdevice hs.laid hzero hfree, Option.bind_none]
          obtain ⟨hq, hq'⟩ := blocksFor_succ hbs hzero
          have hmono := blocksFor_mono bs
            (show s.table.numTokens + 1 ≤ s.table.numTokens + (newSeq - s.written) by omega)
          have hblocks := hs.blocks
          constructor
          · rintro ⟨s', h⟩
            cases h
          · intro h
            omega
        · obtain ⟨s₁, hs₁, hstands, hroom, htokens, hwritten⟩ :=
            @appendBlock_room _ _ _ _ _ newSeq poolWrites hbs hdevice s hs hlt (by omega)
          rw [hs₁, Option.bind_some, ih hstands (by omega), hroom, htokens]
      · have hrest : newSeq - s.written = 0 := by omega
        rw [appendBlocks, if_neg hlt, hrest, Nat.add_zero, ← hs.blocks]
        exact ⟨fun _ => Nat.le_add_right _ _, fun _ => ⟨s, rfl⟩⟩

/-- The blocks the loop takes are those the table gains. -/
theorem appendBlocks_kept (hbs : 0 < bs) (hdevice : ∀ n, device n = true) {fuel : Nat}
    {s s' : BlockLoop ρ} (hs : LoopStands env bs s)
    (h : appendBlocks device bs poolWrites newSeq fuel s = some s') :
    LoopStands env bs s' ∧
      s'.table.blockIds.length + s'.alloc.numFree = s.table.blockIds.length + s.alloc.numFree := by
  refine (appendBlocks_induct
    (P := fun s' => LoopStands env bs s' ∧
      s'.table.blockIds.length + s'.alloc.numFree = s.table.blockIds.length + s.alloc.numFree)
    (fun s₁ s₂ hlt ⟨h₁, hroom₁⟩ hturn => ?_) ⟨hs, rfl⟩ h).1
  have hfree : s₁.table.numTokens % bs = 0 → 0 < s₁.alloc.numFree := by
    intro hzero
    by_contra hnone
    rw [appendBlock_stuck hdevice h₁.laid hzero (by omega)] at hturn
    cases hturn
  obtain ⟨s₃, hs₃, hstands, hroom, -, -⟩ :=
    @appendBlock_room _ _ _ _ _ newSeq poolWrites hbs hdevice s₁ h₁ hlt hfree
  rw [hturn] at hs₃
  cases hs₃
  exact ⟨hstands, hroom.trans hroom₁⟩

/-! ## The append -/

/-- A cache of `n` tokens over its pool, last rolled back to `floor` or before, with the slots of the pool
in `u32`. -/
structure Stands (floor n : Nat) (l : PagedKvCache ρ × BlockAllocator ρ) : Prop where
  refines : ∃ rows f, Refines ⟨l.1, l.2, ⟨rows, f, true⟩⟩ ∧ rows.length = n ∧ f ≤ floor
  owns : ∃ env, Owns env l.1 l.2
  size : l.2.blockSize = l.1.blockSize
  addressable : l.2.maxBlocks * l.2.blockSize ≤ 2 ^ 32

/-- The blocks a cache has and those it could still take. -/
def room (l : PagedKvCache ρ × BlockAllocator ρ) : Nat := l.1.table.blockIds.length + l.2.numFree

section

omit [Inhabited ρ]

variable {floor n : Nat} {l : PagedKvCache ρ × BlockAllocator ρ}

theorem Stands.block_pos (h : Stands floor n l) : 0 < l.1.blockSize := by
  obtain ⟨rows, f, hr, -, -⟩ := h.refines
  exact hr.block_pos

theorem Stands.blocks (h : Stands floor n l) :
    l.1.table.blockIds.length = blocksFor n l.1.blockSize := by
  obtain ⟨rows, f, hr, hlen, -⟩ := h.refines
  rw [(hr.fits rfl).blocks_length, hr.num, hlen]

theorem Stands.numTokens (h : Stands floor n l) : l.1.table.numTokens = n := by
  obtain ⟨rows, f, hr, hlen, -⟩ := h.refines
  rw [hr.num, hlen]

theorem Stands.le_room (h : Stands floor n l) : blocksFor n l.1.blockSize ≤ room l := by
  rw [room, h.blocks]
  exact Nat.le_add_right _ _

theorem Stands.loop (h : Stands floor n l) :
    ∃ env, LoopStands env l.1.blockSize (⟨l.2, l.1.table, [], 0⟩ : BlockLoop ρ) := by
  obtain ⟨rows, f, hr, -, -⟩ := h.refines
  obtain ⟨env, ho⟩ := h.owns
  exact ⟨env, hr.pool, ho.wf, ho.count, (hr.fits rfl).blocks_length, h.size ▸ h.addressable⟩

end

variable {floor n : Nat} {l : PagedKvCache ρ × BlockAllocator ρ}

theorem append_iff (hdevice : ∀ n, device n = true) (h : Stands floor n l) {new : List ρ}
    (hnew : new ≠ []) (spare : List (List ρ)) :
    (∃ r, l.1.append device spare l.2 new = some r) ↔
      blocksFor (n + new.length) l.1.blockSize ≤ room l := by
  obtain ⟨env, hloop⟩ := h.loop
  obtain ⟨rows, f, hr, -, -⟩ := h.refines
  have hiff := @appendBlocks_iff _ _ device _ _ new.length l.1.poolWrites h.block_pos hdevice
    new.length _ hloop (Nat.sub_le _ _)
  rw [h.numTokens, Nat.sub_zero] at hiff
  refine Iff.trans ⟨?_, ?_⟩ hiff
  · rintro ⟨r, happend⟩
    obtain ⟨s, hs, -⟩ := Option.bind_eq_some_iff.1 happend
    exact ⟨s, hs⟩
  · rintro ⟨s, hs⟩
    obtain ⟨_, _, -, -, -, happend⟩ := @append_eq _ _ _ hr _ spare _ hnew _ hs
    exact ⟨_, happend⟩

/-- What an append leaves: the blocks taken went from the pool to the table. -/
theorem append_stands (hdevice : ∀ n, device n = true) (h : Stands floor n l) {new : List ρ}
    (hnew : new ≠ []) {spare : List (List ρ)} {c : PagedKvCache ρ} {a : BlockAllocator ρ}
    {out : List ρ} (happend : l.1.append device spare l.2 new = some (c, a, out)) :
    Stands floor (n + new.length) (c, a) ∧ room (c, a) = room l ∧ c.blockSize = l.1.blockSize := by
  obtain ⟨env, hloop⟩ := h.loop
  obtain ⟨rows, f, hr, hlen, hf⟩ := h.refines
  obtain ⟨env', ho⟩ := h.owns
  have hrefines := append_refines hr hnew happend
  have hown := append_owns ho happend
  obtain ⟨s, hs, happend⟩ := Option.bind_eq_some_iff.1 happend
  obtain ⟨⟨buf, start, len⟩, -, happend⟩ := Option.bind_eq_some_iff.1 happend
  obtain ⟨current, -, happend⟩ := Option.map_eq_some_iff.1 happend
  cases happend
  obtain ⟨-, hroom⟩ := appendBlocks_kept h.block_pos hdevice hloop hs
  refine ⟨⟨⟨_, f, hrefines, by rw [List.length_append, hlen], hf⟩, ⟨env', hown.owns⟩, ?_, ?_⟩, hroom, rfl⟩
  · exact hown.blockSize.trans h.size
  · show s.alloc.maxBlocks * s.alloc.blockSize ≤ 2 ^ 32
    rw [hown.maxBlocks, hown.blockSize]
    exact h.addressable

end PagedKvCache

end Oxydllm.Kv
