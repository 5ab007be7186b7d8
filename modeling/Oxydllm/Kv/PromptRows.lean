/-
# Oxydllm.Kv.PromptRows — the rows of the registered prefix blocks.

One layer of the engine: the pool, every sequence's cache over it, and the blocks the prefix cache holds.
A sequence takes over a cached prefix, appends the rest of its prompt in chunks with the pool writes on,
each flushed, and then decodes with the pool writes off; full blocks of a finished prompt are registered.
Steps of different sequences come in any order, so every batching and chunking is a run.

Beside each cache stand the rows of its tokens by position, and beside each registered block the rows it
is registered for; no operation reads them.
-/
import Oxydllm.Kv.Landing
import Oxydllm.Kv.EngineRun

namespace Oxydllm.Kv

open PagedKvCache BlockAllocator

variable {ρ : Type}

/-- A sequence in one layer. -/
structure SeqLayer (ρ : Type) where
  cache : PagedKvCache ρ
  rows : List ρ
  /-- Blocks taken over from the prefix cache. -/
  hit : Nat
  /-- Tokens whose rows are in the pool; once the prefill has finished, the length of the prompt. -/
  synced : Nat
  prefilling : Bool

def SeqLayer.ids (q : SeqLayer ρ) : List Nat := q.cache.table.blockIds

/-- What is not in the pool yet, by slot. -/
def SeqLayer.unsynced (q : SeqLayer ρ) : List (Nat × Option ρ) :=
  (q.cache.table.cachedSlots.zip (q.rows.map some)).drop q.synced

structure LayerState (ρ : Type) where
  pool : BlockAllocator ρ
  seqs : List (SeqLayer ρ)
  entries : List (Nat × List ρ)

/-- The references to a block apart from those of one sequence. -/
def others (entries : List (Nat × List ρ)) (seqs : List (SeqLayer ρ)) (b : Nat) : Nat :=
  (entries.map Prod.fst).count b + (seqs.flatMap SeqLayer.ids).count b

/-! ## Steps -/

section

variable [Inhabited ρ]

inductive LayerStep (s : LayerState ρ) : LayerState ρ → Prop
  | start : LayerStep s { s with seqs := s.seqs ++ [⟨.new s.pool, [], 0, 0, true⟩] }
  /-- `plan_prefill_inputs` on a hit. -/
  | takeOver {pre post : List (SeqLayer ρ)} {q : SeqLayer ρ} (hq : s.seqs = pre ++ q :: post)
      (hpre : q.prefilling = true) (hfresh : q.cache.table = .new) (hits : List (Nat × List ρ))
      (hhits : ∀ e ∈ hits, e ∈ s.entries) :
      LayerStep s ⟨(q.cache.prepopulate s.pool (hits.map Prod.fst)).2,
        pre ++ ⟨(q.cache.prepopulate s.pool (hits.map Prod.fst)).1, hits.flatMap Prod.snd, hits.length,
          hits.length * s.pool.blockSize, true⟩ :: post, s.entries⟩
  /-- A chunk of the prefill. -/
  | chunk {pre post : List (SeqLayer ρ)} {q : SeqLayer ρ} (hq : s.seqs = pre ++ q :: post)
      (hpre : q.prefilling = true) (device : Nat → Bool) (spare : List (List ρ)) (new : List ρ)
      {c : PagedKvCache ρ} {a : BlockAllocator ρ} {out : List ρ}
      (h : (q.cache.setPoolWrites true).append device spare s.pool new = some (c, a, out)) :
      LayerStep s ⟨a, pre ++ { q with cache := c, rows := q.rows ++ new } :: post, s.entries⟩
  | flush {pre post : List (SeqLayer ρ)} {q : SeqLayer ρ} (hq : s.seqs = pre ++ q :: post)
      {c : PagedKvCache ρ} {a : BlockAllocator ρ} (h : q.cache.flushPending s.pool = some (c, a)) :
      LayerStep s ⟨a, pre ++ { q with
        cache := c, synced := if q.prefilling then q.rows.length else q.synced } :: post, s.entries⟩
  /-- Every chunk is flushed: the first token is sampled. -/
  | finish {pre post : List (SeqLayer ρ)} {q : SeqLayer ρ} (hq : s.seqs = pre ++ q :: post)
      (hpre : q.prefilling = true) (hflushed : q.cache.pendingWrites = []) :
      LayerStep s { s with
        seqs := pre ++ { q with synced := q.rows.length, prefilling := false } :: post }
  /-- Block `k` of a finished prompt is registered. -/
  | register {pre post : List (SeqLayer ρ)} {q : SeqLayer ρ} (hq : s.seqs = pre ++ q :: post)
      (hdone : q.prefilling = false) (k : Nat) (hk : (k + 1) * s.pool.blockSize ≤ q.synced) {id : Nat}
      (hid : q.ids[k]? = some id) :
      LayerStep s ⟨s.pool.share id, s.seqs,
        (id, Slice.window q.rows (k * s.pool.blockSize) s.pool.blockSize) :: s.entries⟩
  /-- A decode token, or the tokens of a speculative check. -/
  | decode {pre post : List (SeqLayer ρ)} {q : SeqLayer ρ} (hq : s.seqs = pre ++ q :: post)
      (hdone : q.prefilling = false) (device : Nat → Bool) (spare : List (List ρ)) (new : List ρ)
      {c : PagedKvCache ρ} {a : BlockAllocator ρ} {out : List ρ}
      (h : (q.cache.setPoolWrites false).append device spare s.pool new = some (c, a, out)) :
      LayerStep s ⟨a, pre ++ { q with cache := c, rows := q.rows ++ new } :: post, s.entries⟩
  | discard {pre post : List (SeqLayer ρ)} {q : SeqLayer ρ} (hq : s.seqs = pre ++ q :: post)
      (hdone : q.prefilling = false) :
      LayerStep s { s with seqs := pre ++ { q with cache := q.cache.discardPending } :: post }
  /-- The rollback of a speculative check, never into the prompt. -/
  | truncate {pre post : List (SeqLayer ρ)} {q : SeqLayer ρ} (hq : s.seqs = pre ++ q :: post)
      (hdone : q.prefilling = false) (n : Nat) (hn : q.synced ≤ n) {c : PagedKvCache ρ}
      {a : BlockAllocator ρ} (h : q.cache.truncateTo s.pool n = some (c, a)) :
      LayerStep s ⟨a, pre ++ { q with cache := c, rows := q.rows.take n } :: post, s.entries⟩
  /-- Preemption, retirement and abort. -/
  | clear {pre post : List (SeqLayer ρ)} {q : SeqLayer ρ} (hq : s.seqs = pre ++ q :: post) :
      LayerStep s ⟨(q.cache.clear s.pool).2,
        pre ++ ⟨(q.cache.clear s.pool).1, [], 0, 0, true⟩ :: post, s.entries⟩
  | leave {pre post : List (SeqLayer ρ)} {q : SeqLayer ρ} (hq : s.seqs = pre ++ q :: post)
      (hempty : q.cache.table = .new) : LayerStep s { s with seqs := pre ++ post }
  | evict {pre post : List (Nat × List ρ)} {e : Nat × List ρ} (he : s.entries = pre ++ e :: post) :
      LayerStep s ⟨s.pool.free e.1, s.seqs, pre ++ post⟩

/-- The states of a layer over a pool. -/
def LayerReach (a : BlockAllocator ρ) : LayerState ρ → Prop :=
  Relation.ReflTransGen LayerStep ⟨a, [], []⟩

end

/-! ## The invariant -/

/-- What holds of a sequence in a pool. -/
structure SeqInv (a : BlockAllocator ρ) (q : SeqLayer ρ) : Prop where
  size : q.cache.blockSize = a.blockSize
  fits : q.cache.table.Fits a.blockSize
  num : q.cache.table.numTokens = q.rows.length
  slots : q.cache.table.cachedSlots.length = q.rows.length
  synced_le : q.synced ≤ q.rows.length
  synced : ∀ p slot, p < q.synced → q.cache.table.cachedSlots[p]? = some slot → a.row slot = q.rows[p]?
  pending : q.cache.pendingPairs = if q.prefilling then q.unsynced else []
  /-- While it is being filled, the blocks it took itself are its own. -/
  alone : q.prefilling = true → q.hit * a.blockSize ≤ q.synced ∧
    ∀ k id, q.hit ≤ k → q.ids[k]? = some id → a.refCount id = 1

structure LayerInv (s : LayerState ρ) : Prop where
  laid : s.pool.Laid
  wf : s.pool.Wf
  count : ∀ b, s.pool.refCount b = others s.entries s.seqs b
  entries : ∀ e ∈ s.entries, e.2.length = s.pool.blockSize ∧
    ∀ j < s.pool.blockSize, s.pool.row (e.1 * s.pool.blockSize + j) = e.2[j]?
  seqs : ∀ q ∈ s.seqs, SeqInv s.pool q

theorem others_cons (entries : List (Nat × List ρ)) (pre post : List (SeqLayer ρ)) (q : SeqLayer ρ)
    (b : Nat) : others entries (pre ++ q :: post) b = others entries (pre ++ post) b + q.ids.count b := by
  simp only [others, List.flatMap_append, List.flatMap_cons, List.count_append]
  omega

theorem others_pos_entry {entries : List (Nat × List ρ)} {seqs : List (SeqLayer ρ)}
    {e : Nat × List ρ} (h : e ∈ entries) : 0 < others entries seqs e.1 :=
  Nat.add_pos_left (List.count_pos_iff.2 (List.mem_map.2 ⟨e, h, rfl⟩)) _

theorem others_pos_seq {entries : List (Nat × List ρ)} {seqs : List (SeqLayer ρ)} {q : SeqLayer ρ}
    (h : q ∈ seqs) {b : Nat} (hb : b ∈ q.ids) : 0 < others entries seqs b :=
  Nat.add_pos_right _ (List.count_pos_iff.2 (List.mem_flatMap.2 ⟨q, h, hb⟩))

theorem LayerInv.owns {s : LayerState ρ} (h : LayerInv s) {pre post : List (SeqLayer ρ)}
    {q : SeqLayer ρ} (hq : s.seqs = pre ++ q :: post) :
    Owns (others s.entries (pre ++ post)) q.cache s.pool :=
  ⟨h.wf, fun b => by rw [h.count, hq, others_cons]; rfl⟩

/-- The block of a token's slot. -/
theorem SeqInv.slot {a : BlockAllocator ρ} {q : SeqLayer ρ} (h : SeqInv a q) (hbs : 0 < a.blockSize)
    {p slot : Nat} (hp : q.cache.table.cachedSlots[p]? = some slot) :
    q.ids[p / a.blockSize]? = some (slot / a.blockSize) ∧ slot % a.blockSize = p % a.blockSize := by
  have hlt := (List.getElem?_eq_some_iff.1 hp).1
  have hnum := h.num
  have hslots := h.slots
  obtain ⟨id, hid, hslot⟩ := h.fits.slot p (by omega)
  rw [hp, Option.some.injEq] at hslot
  have hmod := Nat.mod_lt p hbs
  have hdiv : slot / a.blockSize = id := by
    rw [hslot, Nat.add_comm, Nat.add_mul_div_right _ _ hbs, Nat.div_eq_of_lt hmod, Nat.zero_add]
  refine ⟨by rw [hdiv]; exact hid, ?_⟩
  rw [hslot, Nat.add_comm, Nat.add_mul_mod_self_right, Nat.mod_mod]

/-- What the step of one sequence does to another. -/
theorem SeqInv.frame {a a' : BlockAllocator ρ} {q : SeqLayer ρ} (h : SeqInv a q)
    (hbs : 0 < a.blockSize) (hsize : a'.blockSize = a.blockSize)
    (hrows : ∀ slot r, slot / a.blockSize ∈ q.ids → a.row slot = some r → a'.row slot = some r)
    (halone : ∀ b ∈ q.ids, a.refCount b = 1 → q.prefilling = true → a'.refCount b = 1) :
    SeqInv a' q := by
  refine ⟨h.size.trans hsize.symm, by rw [hsize]; exact h.fits, h.num, h.slots, h.synced_le, ?_,
    h.pending, fun hpre => ?_⟩
  · intro p slot hp hslot
    obtain ⟨hid, -⟩ := h.slot hbs hslot
    have hrow := h.synced p slot hp hslot
    have hlt : p < q.rows.length := lt_of_lt_of_le hp h.synced_le
    rw [List.getElem?_eq_getElem hlt] at hrow ⊢
    exact hrows slot _ (List.mem_of_getElem? hid) hrow
  · obtain ⟨hhit, hown⟩ := h.alone hpre
    rw [hsize]
    exact ⟨hhit, fun k id hk hid => halone id (List.mem_of_getElem? hid) (hown k id hk hid) hpre⟩

/-- A step of one sequence: it keeps the rows of the blocks others hold, and takes blocks that nobody
holds or that the prefix cache gives it. -/
theorem LayerInv.cacheStep {s : LayerState ρ} (h : LayerInv s) {pre post : List (SeqLayer ρ)}
    {q q' : SeqLayer ρ} (hq : s.seqs = pre ++ q :: post) {a' : BlockAllocator ρ} (hlaid : a'.Laid)
    (hown : OwnStep (others s.entries (pre ++ post)) q'.cache s.pool a')
    (hrows : ∀ slot r, 0 < others s.entries (pre ++ post) (slot / s.pool.blockSize) →
      s.pool.row slot = some r → a'.row slot = some r)
    (hnew : ∀ b ∈ q'.ids, b ∈ q.ids ∨ s.pool.refCount b = 0 ∨ b ∈ s.entries.map Prod.fst)
    (hinv : SeqInv a' q') : LayerInv ⟨a', pre ++ q' :: post, s.entries⟩ := by
  have hbs := h.laid.block_pos
  have howns := h.owns hq
  refine ⟨hlaid, hown.owns.wf, fun b => ?_, fun e he => ?_, ?_⟩
  · rw [others_cons]
    exact hown.owns.count b
  · obtain ⟨hlen, hrow⟩ := h.entries e he
    show e.2.length = a'.blockSize ∧ ∀ j < a'.blockSize, a'.row (e.1 * a'.blockSize + j) = e.2[j]?
    rw [hown.blockSize]
    refine ⟨hlen, fun j hj => ?_⟩
    have hdiv : (e.1 * s.pool.blockSize + j) / s.pool.blockSize = e.1 := by
      rw [Nat.add_comm, Nat.add_mul_div_right _ _ hbs, Nat.div_eq_of_lt hj, Nat.zero_add]
    have hlt : j < e.2.length := by omega
    have hold := hrow j hj
    rw [List.getElem?_eq_getElem hlt] at hold ⊢
    exact hrows _ _ (by rw [hdiv]; exact others_pos_entry he) hold
  · have hrest : ∀ x ∈ pre ++ post, SeqInv a' x := by
      intro x hx
      have hmem : x ∈ s.seqs := by
        rw [hq]
        rcases List.mem_append.1 hx with hx | hx
        · exact List.mem_append_left _ hx
        · exact List.mem_append_right _ (List.mem_cons_of_mem _ hx)
      refine (h.seqs x hmem).frame hbs hown.blockSize
        (fun slot r hslot => hrows slot r (others_pos_seq hx hslot)) fun b hb hone _ => ?_
      -- the only reference to the block is that of `x`
      have hpos := @others_pos_seq _ s.entries _ _ hx _ hb
      have hcount := howns.count b
      have hzero : q.cache.table.blockIds.count b = 0 := by omega
      have hout : b ∉ q'.ids := by
        intro hb'
        rcases hnew b hb' with hq' | hfree | hentry
        · exact absurd (List.count_pos_iff.2 hq') (by rw [SeqLayer.ids]; omega)
        · omega
        · have he := List.count_pos_iff.2 hentry
          have hx' : 0 < ((pre ++ post).flatMap SeqLayer.ids).count b :=
            List.count_pos_iff.2 (List.mem_flatMap.2 ⟨x, hx, hb⟩)
          unfold others at hcount
          omega
      have hcount' := hown.owns.count b
      have : q'.cache.table.blockIds.count b = 0 := List.count_eq_zero.2 hout
      omega
    intro x hx
    rcases List.mem_append.1 hx with hx | hx
    · exact hrest x (List.mem_append_left _ hx)
    · rcases List.mem_cons.1 hx with rfl | hx
      · exact hinv
      · exact hrest x (List.mem_append_right _ hx)

/-! ## Appending -/

section

variable [Inhabited ρ]

/-- The blocks an append takes were held by nobody; the counts of the others stay. -/
theorem appendBlocks_fresh {device : Nat → Bool} {bs newSeq fuel : Nat} {poolWrites : Bool}
    {a : BlockAllocator ρ} {t : BlockTable} {l : BlockLoop ρ} (ha : a.Wf)
    (h : appendBlocks device bs poolWrites newSeq fuel ⟨a, t, [], 0⟩ = some l) :
    ∃ fresh, l.table.blockIds = t.blockIds ++ fresh ∧
      (∀ b ∈ fresh, a.refCount b = 0 ∧ l.alloc.refCount b = 1) ∧
        ∀ b, 0 < a.refCount b → l.alloc.refCount b = a.refCount b := by
  suffices hloop : l.alloc.Wf ∧ ∃ fresh, l.table.blockIds = t.blockIds ++ fresh ∧
      (∀ b ∈ fresh, a.refCount b = 0 ∧ l.alloc.refCount b = 1) ∧
        ∀ b, 0 < a.refCount b → l.alloc.refCount b = a.refCount b from hloop.2
  refine (appendBlocks_induct
    (P := fun l : BlockLoop ρ => l.alloc.Wf ∧ ∃ fresh, l.table.blockIds = t.blockIds ++ fresh ∧
      (∀ b ∈ fresh, a.refCount b = 0 ∧ l.alloc.refCount b = 1) ∧
        ∀ b, 0 < a.refCount b → l.alloc.refCount b = a.refCount b)
    (fun s s' _ hs hturn => ?_)
    ⟨ha, [], (List.append_nil _).symm, List.forall_mem_nil _, fun _ _ => rfl⟩ h).1
  obtain ⟨hwf, fresh, hids, hfresh, hkeep⟩ := hs
  obtain ⟨id, alloc, blockIds, hnext, offset, n, -, -, rfl⟩ := appendBlock_eq hturn
  unfold nextBlock at hnext
  split at hnext
  · obtain ⟨⟨top, a'⟩, ha', hnext⟩ := Option.map_eq_some_iff.1 hnext
    cases hnext
    obtain ⟨hc, hzero, -⟩ := allocate_counts hwf ha'
    -- the block handed out is neither held before nor handed out before
    have hnew : a.refCount top = 0 := by
      by_contra hne
      have := hkeep top (Nat.pos_of_ne_zero hne)
      omega
    refine ⟨hc.wf, fresh ++ [top], ?_, ?_, ?_⟩
    · show s.table.blockIds ++ [top] = _
      rw [hids, List.append_assoc]
    · intro b hb
      show a.refCount b = 0 ∧ a'.refCount b = 1
      rw [hc.count]
      rcases List.mem_append.1 hb with hb | hb
      · obtain ⟨h0, h1⟩ := hfresh b hb
        refine ⟨h0, ?_⟩
        split
        · rfl
        · exact h1
      · rw [List.mem_singleton.1 hb, if_pos rfl]
        exact ⟨hnew, rfl⟩
    · intro b hb
      show a'.refCount b = a.refCount b
      have hne : b ≠ top := by
        rintro rfl
        omega
      rw [hc.count, if_neg hne, hkeep b hb]
  · obtain ⟨id', -, hnext⟩ := Option.map_eq_some_iff.1 hnext
    cases hnext
    exact ⟨hwf, fresh, hids, hfresh, hkeep⟩

omit [Inhabited ρ] in
theorem zipIdx_rows {added : List Nat} {new : List ρ} (h : added.length = new.length) :
    (added.zipIdx.map fun p => (p.1, new[p.2]?)) = added.zip (new.map some) := by
  apply List.ext_getElem
  · simp [h]
  · intro i h1 h2
    simp only [List.length_map, List.length_zipIdx] at h1
    have hlt : i < new.length := by omega
    simp [hlt]

/-- What an append does to the cache and its pool. -/
structure AppendFacts (c c' : PagedKvCache ρ) (a a' : BlockAllocator ρ) (new : List ρ) : Prop where
  pool : BlockAllocator.Extends a a'
  size : c'.blockSize = c.blockSize
  num : c'.table.numTokens = c.table.numTokens + new.length
  fits : c.table.Fits c.blockSize → c'.table.Fits c.blockSize
  added : ∃ added, added.length = new.length ∧
    c'.table.cachedSlots = c.table.cachedSlots ++ added ∧
      c'.pendingPairs = c.pendingPairs ++ if c.poolWrites then added.zip (new.map some) else []
  fresh : ∃ fresh, c'.table.blockIds = c.table.blockIds ++ fresh ∧
    (∀ b ∈ fresh, a.refCount b = 0 ∧ a'.refCount b = 1) ∧
      ∀ b, 0 < a.refCount b → a'.refCount b = a.refCount b

theorem append_facts {device : Nat → Bool} {spare : List (List ρ)} {c c' : PagedKvCache ρ}
    {a a' : BlockAllocator ρ} {new out : List ρ} (hlaid : a.Laid) (hwf : a.Wf)
    (hbs : 0 < c.blockSize) (hslots : c.table.cachedSlots.length = c.table.numTokens)
    (h : c.append device spare a new = some (c', a', out)) : AppendFacts c c' a a' new := by
  obtain ⟨l, hl, h⟩ := Option.bind_eq_some_iff.1 h
  obtain ⟨⟨buf, start, len⟩, -, h⟩ := Option.bind_eq_some_iff.1 h
  obtain ⟨rows, -, h⟩ := Option.map_eq_some_iff.1 h
  cases h
  obtain ⟨added, hadded, hwritten⟩ := appendBlocks_appended hbs hlaid hl
  have hlen : added.length = new.length := hadded.added_length.trans hwritten
  refine ⟨hadded.alloc, rfl, hadded.numTokens.trans (by rw [hwritten]), hadded.fits hslots,
    ⟨added, hlen, hadded.slots, ?_⟩, appendBlocks_fresh hwf hl⟩
  have hpairs : PendingBatch.pairs ⟨new, l.runs.reverse⟩ =
      if c.poolWrites then added.zip (new.map some) else [] := by
    show ((l.runs.reverse.flatMap PendingRun.pairs).map fun p => (p.1, new[p.2]?)) = _
    rw [hadded.runs]
    cases c.poolWrites with
    | false => rfl
    | true => exact zipIdx_rows hlen
  rw [← hpairs]
  show (if l.runs.isEmpty then c.pendingWrites
    else c.pendingWrites ++ [PendingBatch.mk new l.runs.reverse]).flatMap PendingBatch.pairs = _
  by_cases hruns : l.runs = []
  · -- nothing was staged
    simp [hruns, PendingBatch.pairs, pendingPairs]
  · simp [hruns, pendingPairs]

omit [Inhabited ρ] in
theorem unsynced_append {q : SeqLayer ρ} {c : PagedKvCache ρ} {added : List Nat} {new : List ρ}
    (hslots : q.cache.table.cachedSlots.length = q.rows.length) (hle : q.synced ≤ q.rows.length)
    (hadded : c.table.cachedSlots = q.cache.table.cachedSlots ++ added) :
    SeqLayer.unsynced { q with cache := c, rows := q.rows ++ new } =
      q.unsynced ++ added.zip (new.map some) := by
  unfold SeqLayer.unsynced
  rw [hadded, List.map_append, List.zip_append (by rw [List.length_map, hslots]),
    List.drop_append_of_le_length]
  rw [List.length_zip, List.length_map, hslots, Nat.min_self]
  exact hle

/-- An append of a sequence: a chunk of its prefill with the pool writes on, or a decode step with them
off. -/
theorem LayerInv.append {s : LayerState ρ} (h : LayerInv s) {pre post : List (SeqLayer ρ)}
    {q : SeqLayer ρ} (hq : s.seqs = pre ++ q :: post) {device : Nat → Bool} {spare : List (List ρ)}
    {new : List ρ} {c : PagedKvCache ρ} {a : BlockAllocator ρ} {out : List ρ}
    (happend : (q.cache.setPoolWrites q.prefilling).append device spare s.pool new = some (c, a, out)) :
    LayerInv ⟨a, pre ++ { q with cache := c, rows := q.rows ++ new } :: post, s.entries⟩ := by
  have hinv := h.seqs q (by rw [hq]; exact List.mem_append_right _ List.mem_cons_self)
  have howns := h.owns hq
  have howns' : Owns (others s.entries (pre ++ post)) (q.cache.setPoolWrites q.prefilling) s.pool :=
    ⟨howns.wf, howns.count⟩
  have hsize := hinv.size
  have hbs : 0 < q.cache.blockSize := by
    rw [hsize]
    exact h.laid.block_pos
  have hfacts : AppendFacts (q.cache.setPoolWrites q.prefilling) c s.pool a new :=
    append_facts h.laid h.wf hbs (hinv.slots.trans hinv.num.symm) happend
  have hown := append_owns howns' happend
  obtain ⟨added, hlen, hadded, hpending⟩ := hfacts.added
  obtain ⟨fresh, hids, hfresh, hkeep⟩ := hfacts.fresh
  have hadded : c.table.cachedSlots = q.cache.table.cachedSlots ++ added := hadded
  have hids : c.table.blockIds = q.ids ++ fresh := hids
  refine h.cacheStep hq hfacts.pool.laid hown (fun slot r _ hr => hfacts.pool.row slot r hr) ?_ ?_
  · intro b hb
    have hb : b ∈ c.table.blockIds := hb
    rw [hids] at hb
    rcases List.mem_append.1 hb with hb | hb
    · exact .inl hb
    · exact .inr (.inl (hfresh b hb).1)
  · refine ⟨hfacts.size.trans (hsize.trans hown.blockSize.symm), ?_, ?_, ?_, ?_, ?_, ?_, ?_⟩
    · show c.table.Fits a.blockSize
      have hfits := hfacts.fits (show q.cache.table.Fits q.cache.blockSize by rw [hsize]; exact hinv.fits)
      have hfits : c.table.Fits q.cache.blockSize := hfits
      rwa [hown.blockSize, ← hsize]
    · show c.table.numTokens = (q.rows ++ new).length
      rw [hfacts.num, List.length_append, ← hinv.num]
      rfl
    · show c.table.cachedSlots.length = (q.rows ++ new).length
      rw [hadded, List.length_append, List.length_append, hinv.slots, hlen]
    · show q.synced ≤ (q.rows ++ new).length
      rw [List.length_append]
      exact hinv.synced_le.trans (Nat.le_add_right _ _)
    · intro p slot hp hslot
      have hp : p < q.synced := hp
      have hlt : p < q.rows.length := lt_of_lt_of_le hp hinv.synced_le
      have hslot : (c.table.cachedSlots)[p]? = some slot := hslot
      rw [hadded, List.getElem?_append_left (by rw [hinv.slots]; exact hlt)] at hslot
      have hrow := hinv.synced p slot hp hslot
      show a.row slot = (q.rows ++ new)[p]?
      rw [List.getElem?_append_left hlt]
      rw [List.getElem?_eq_getElem hlt] at hrow ⊢
      exact hfacts.pool.row slot _ hrow
    · show c.pendingPairs = if q.prefilling then _ else []
      rw [hpending, unsynced_append hinv.slots hinv.synced_le hadded]
      show q.cache.pendingPairs ++ (if q.prefilling then _ else _) = _
      rw [hinv.pending]
      cases q.prefilling <;> rfl
    · intro hpre
      obtain ⟨hhit, halone⟩ := hinv.alone hpre
      show q.hit * a.blockSize ≤ q.synced ∧ ∀ k id, q.hit ≤ k → c.table.blockIds[k]? = some id →
        a.refCount id = 1
      rw [hown.blockSize]
      refine ⟨hhit, fun k id hk hid => ?_⟩
      rw [hids] at hid
      by_cases hlt : k < q.ids.length
      · rw [List.getElem?_append_left hlt] at hid
        have hone := halone k id hk hid
        rw [hkeep id (by omega), hone]
      · rw [List.getElem?_append_right (by omega)] at hid
        exact (hfresh id (List.mem_of_getElem? hid)).2

end

/-! ## Flushing -/

theorem two_le_count {l : List Nat} {i j x : Nat} (hi : l[i]? = some x) (hj : l[j]? = some x)
    (hij : i < j) : 2 ≤ l.count x := by
  have hfront : x ∈ l.take j := List.mem_of_getElem? (by rw [List.getElem?_take, if_pos hij]; exact hi)
  have hback : x ∈ l.drop j := by
    refine List.mem_of_getElem? (i := 0) ?_
    rw [List.getElem?_drop]
    exact hj
  have h1 := List.count_pos_iff.2 hfront
  have h2 := List.count_pos_iff.2 hback
  rw [← List.take_append_drop j l, List.count_append]
  omega

/-- A token that is not in the pool yet has its slot to itself. -/
theorem SeqInv.slot_ne {a : BlockAllocator ρ} {q : SeqLayer ρ} (h : SeqInv a q) (hbs : 0 < a.blockSize)
    (hcount : ∀ b, q.ids.count b ≤ a.refCount b) (hpre : q.prefilling = true) {p p' slot : Nat}
    (hp : q.synced ≤ p) (hne : p ≠ p') (hslot : q.cache.table.cachedSlots[p]? = some slot)
    (hslot' : q.cache.table.cachedSlots[p']? = some slot) : False := by
  obtain ⟨hhit, halone⟩ := h.alone hpre
  obtain ⟨hid, hmod⟩ := h.slot hbs hslot
  obtain ⟨hid', hmod'⟩ := h.slot hbs hslot'
  have hk : q.hit ≤ p / a.blockSize := (Nat.le_div_iff_mul_le hbs).2 (hhit.trans hp)
  have hone := halone _ _ hk hid
  have hle := hcount (slot / a.blockSize)
  rcases Nat.lt_trichotomy (p / a.blockSize) (p' / a.blockSize) with hlt | heq | hgt
  · have := two_le_count hid hid' hlt
    omega
  · -- the same block and the same place in it
    refine hne ?_
    rw [← Nat.div_add_mod p a.blockSize, ← Nat.div_add_mod p' a.blockSize, heq, ← hmod, ← hmod']
  · have := two_le_count hid' hid hgt
    omega

theorem mem_unsynced {q : SeqLayer ρ} {x : Nat × Option ρ} (h : x ∈ q.unsynced) :
    ∃ p, q.synced ≤ p ∧ q.cache.table.cachedSlots[p]? = some x.1 ∧ x.2 = q.rows[p]? := by
  obtain ⟨i, hi⟩ := List.mem_iff_getElem?.1 h
  rw [SeqLayer.unsynced, List.getElem?_drop, List.getElem?_zip_eq_some] at hi
  obtain ⟨hslot, hrow⟩ := hi
  refine ⟨q.synced + i, Nat.le_add_right _ _, hslot, ?_⟩
  rw [List.getElem?_map] at hrow
  obtain ⟨r, hr, hx⟩ := Option.map_eq_some_iff.1 hrow
  rw [← hx, hr]

theorem unsynced_mem {q : SeqLayer ρ} (hslots : q.cache.table.cachedSlots.length = q.rows.length)
    {p slot : Nat} (hp : q.synced ≤ p) (hslot : q.cache.table.cachedSlots[p]? = some slot) :
    (slot, q.rows[p]?) ∈ q.unsynced := by
  have hlt : p < q.rows.length := hslots ▸ (List.getElem?_eq_some_iff.1 hslot).1
  refine List.mem_iff_getElem?.2 ⟨p - q.synced, ?_⟩
  rw [SeqLayer.unsynced, List.getElem?_drop, Nat.add_sub_cancel' hp, List.getElem?_zip_eq_some]
  refine ⟨hslot, ?_⟩
  rw [List.getElem?_map, List.getElem?_eq_getElem hlt, Option.map_some]

theorem unsynced_nodup {a : BlockAllocator ρ} {q : SeqLayer ρ} (h : SeqInv a q)
    (hbs : 0 < a.blockSize) (hcount : ∀ b, q.ids.count b ≤ a.refCount b)
    (hpre : q.prefilling = true) : (q.unsynced.map Prod.fst).Nodup := by
  have hkeys : q.unsynced.map Prod.fst = q.cache.table.cachedSlots.drop q.synced := by
    rw [SeqLayer.unsynced, List.map_drop, List.map_fst_zip]
    rw [List.length_map, h.slots]
  rw [hkeys, List.nodup_iff_getElem?_ne_getElem?]
  intro i j hij hj heq
  rw [List.getElem?_drop, List.getElem?_drop] at heq
  rw [List.length_drop] at hj
  have hslot := List.getElem?_eq_getElem (l := q.cache.table.cachedSlots) (i := q.synced + j) (by omega)
  exact h.slot_ne hbs hcount hpre (Nat.le_add_right _ _) (by omega) (heq.trans hslot) hslot

/-- What is staged lands in slots that no other sequence and no registered block has. -/
theorem LayerInv.flush {s : LayerState ρ} (h : LayerInv s) {pre post : List (SeqLayer ρ)}
    {q : SeqLayer ρ} (hq : s.seqs = pre ++ q :: post) {c : PagedKvCache ρ} {a : BlockAllocator ρ}
    (hflush : q.cache.flushPending s.pool = some (c, a)) :
    LayerInv ⟨a, pre ++ { q with
      cache := c, synced := if q.prefilling then q.rows.length else q.synced } :: post, s.entries⟩ := by
  have hbs := h.laid.block_pos
  have hinv := h.seqs q (by rw [hq]; exact List.mem_append_right _ List.mem_cons_self)
  have howns := h.owns hq
  have hcount : ∀ b, q.ids.count b ≤ s.pool.refCount b := by
    intro b
    rw [howns.count]
    exact Nat.le_add_left _ _
  have hkey : ∀ x ∈ q.cache.pendingPairs, q.prefilling = true ∧ x ∈ q.unsynced := by
    intro x hx
    rw [hinv.pending] at hx
    cases hpre : q.prefilling with
    | true =>
        rw [hpre] at hx
        exact ⟨rfl, hx⟩
    | false =>
        rw [hpre] at hx
        cases hx
  -- the block of a staged slot
  have hblock : ∀ x ∈ q.cache.pendingPairs, s.pool.refCount (x.1 / s.pool.blockSize) = 1 ∧
      x.1 / s.pool.blockSize ∈ q.ids := by
    intro x hx
    obtain ⟨hpre, hx⟩ := hkey x hx
    obtain ⟨p, hp, hslot, -⟩ := mem_unsynced hx
    obtain ⟨hid, -⟩ := hinv.slot hbs hslot
    obtain ⟨hhit, halone⟩ := hinv.alone hpre
    exact ⟨halone _ _ ((Nat.le_div_iff_mul_le hbs).2 (hhit.trans hp)) hid, List.mem_of_getElem? hid⟩
  obtain ⟨hlands, rfl⟩ := flushPending_lands h.laid hinv.size
    (fun x hx => (Nat.div_lt_iff_lt_mul hbs).1 (lt_of_refCount h.wf (by rw [(hblock x hx).1]; exact Nat.one_pos)))
    (by
      rw [hinv.pending]
      cases hpre : q.prefilling with
      | true => exact unsynced_nodup hinv hbs hcount hpre
      | false => exact List.nodup_nil)
    hflush
  have hown := (flushPending_owns howns hflush).1
  have href : ∀ b, a.refCount b = s.pool.refCount b := by
    intro b
    rw [hlands.frame]
    rfl
  refine h.cacheStep hq hlands.laid hown (fun slot r hothers hr => ?_) (fun b hb => .inl hb) ?_
  · rw [hlands.other slot fun hmem => ?_]
    · exact hr
    · obtain ⟨x, hx, rfl⟩ := List.mem_map.1 hmem
      obtain ⟨hone, hid⟩ := hblock x hx
      have hc := howns.count (x.1 / s.pool.blockSize)
      have hpos : 0 < q.cache.table.blockIds.count (x.1 / s.pool.blockSize) := List.count_pos_iff.2 hid
      omega
  · refine ⟨hinv.size.trans hown.blockSize.symm, by rw [hown.blockSize]; exact hinv.fits, hinv.num,
      hinv.slots, ?_, ?_, ?_, ?_⟩
    · show (if q.prefilling then q.rows.length else q.synced) ≤ q.rows.length
      split
      · exact le_rfl
      · exact hinv.synced_le
    · intro p slot hp hslot
      have hslot : q.cache.table.cachedSlots[p]? = some slot := hslot
      show a.row slot = q.rows[p]?
      by_cases hsynced : p < q.synced
      · -- what was in the pool is not written again
        rw [hlands.other slot fun hmem => ?_]
        · exact hinv.synced p slot hsynced hslot
        · obtain ⟨x, hx, rfl⟩ := List.mem_map.1 hmem
          obtain ⟨hpre, hx⟩ := hkey x hx
          obtain ⟨p', hp', hslot', -⟩ := mem_unsynced hx
          exact hinv.slot_ne hbs hcount hpre hp' (by omega) hslot' hslot
      · cases hpre : q.prefilling with
        | false =>
            simp only [hpre, Bool.false_eq_true, if_false] at hp
            exact absurd hp hsynced
        | true =>
            have hmem := unsynced_mem hinv.slots (Nat.le_of_not_lt hsynced) hslot
            refine hlands.lands (slot, q.rows[p]?) ?_
            rw [hinv.pending, hpre]
            exact hmem
    · show ([] : List (Nat × Option ρ)) = if q.prefilling then _ else []
      cases hpre : q.prefilling with
      | false => rfl
      | true =>
          symm
          refine List.drop_eq_nil_of_le ?_
          rw [List.length_zip, List.length_map]
          exact Nat.min_le_right _ _
    · intro hpre
      have hpre : q.prefilling = true := hpre
      obtain ⟨hhit, halone⟩ := hinv.alone hpre
      refine ⟨?_, fun k id hk hid => by rw [href]; exact halone k id hk hid⟩
      show q.hit * a.blockSize ≤ if q.prefilling then q.rows.length else q.synced
      rw [hpre, hown.blockSize]
      exact hhit.trans hinv.synced_le

/-! ## The other steps -/

theorem blank_inv {a : BlockAllocator ρ} (h : a.Laid) {c : PagedKvCache ρ} (hsize : c.blockSize = a.blockSize)
    (htable : c.table = .new) (hpending : c.pendingWrites = []) : SeqInv a ⟨c, [], 0, 0, true⟩ := by
  refine ⟨hsize, ?_, ?_, ?_, le_rfl, fun p _ hp => absurd hp (Nat.not_lt_zero p), ?_, fun _ => ?_⟩
  · show c.table.Fits a.blockSize
    rw [htable]
    exact ⟨(blocksFor_zero h.block_pos).symm, fun i hi => absurd hi (Nat.not_lt_zero i)⟩
  · show c.table.numTokens = 0
    rw [htable]
    rfl
  · show c.table.cachedSlots.length = 0
    rw [htable]
    rfl
  · show c.pendingWrites.flatMap PendingBatch.pairs = List.drop 0 (c.table.cachedSlots.zip _)
    rw [hpending, htable]
    rfl
  · refine ⟨(Nat.zero_mul _).le, fun k id _ hid => ?_⟩
    have hid : c.table.blockIds[k]? = some id := hid
    rw [htable] at hid
    cases hid

theorem LayerInv.mem {s : LayerState ρ} (h : LayerInv s) {pre post : List (SeqLayer ρ)}
    {q : SeqLayer ρ} (hq : s.seqs = pre ++ q :: post) : SeqInv s.pool q :=
  h.seqs q (by rw [hq]; exact List.mem_append_right _ List.mem_cons_self)

/-- A sequence replaced by one with the same blocks. -/
theorem LayerInv.replace {s : LayerState ρ} (h : LayerInv s) {pre post : List (SeqLayer ρ)}
    {q q' : SeqLayer ρ} (hq : s.seqs = pre ++ q :: post) (hids : q'.ids = q.ids)
    (hinv : SeqInv s.pool q') : LayerInv { s with seqs := pre ++ q' :: post } := by
  have howns := h.owns hq
  have howns' : Owns (others s.entries (pre ++ post)) q'.cache s.pool :=
    ⟨howns.wf, fun b => by rw [howns.count]; exact congrArg (_ + ·.count b) hids.symm⟩
  exact h.cacheStep hq h.laid howns'.refl_step (fun _ _ _ hr => hr) (fun b hb => .inl (hids ▸ hb)) hinv

theorem LayerInv.start {s : LayerState ρ} (h : LayerInv s) :
    LayerInv { s with seqs := s.seqs ++ [⟨.new s.pool, [], 0, 0, true⟩] } := by
  refine ⟨h.laid, h.wf, fun b => ?_, h.entries, fun x hx => ?_⟩
  · rw [h.count]
    simp [others, SeqLayer.ids, PagedKvCache.new, BlockTable.new]
  · rcases List.mem_append.1 hx with hx | hx
    · exact h.seqs x hx
    · rw [List.mem_singleton.1 hx]
      exact blank_inv h.laid rfl rfl rfl

theorem LayerInv.leave {s : LayerState ρ} (h : LayerInv s) {pre post : List (SeqLayer ρ)}
    {q : SeqLayer ρ} (hq : s.seqs = pre ++ q :: post) (hempty : q.cache.table = .new) :
    LayerInv { s with seqs := pre ++ post } := by
  have hids : q.ids = [] := by
    rw [SeqLayer.ids, hempty]
    rfl
  refine ⟨h.laid, h.wf, fun b => ?_, h.entries, fun x hx => h.seqs x ?_⟩
  · rw [h.count, hq, others_cons, hids, List.count_nil, Nat.add_zero]
  · rw [hq]
    rcases List.mem_append.1 hx with hx | hx
    · exact List.mem_append_left _ hx
    · exact List.mem_append_right _ (List.mem_cons_of_mem _ hx)

/-- With nothing staged, all rows are in the pool. -/
theorem SeqInv.finished {a : BlockAllocator ρ} {q : SeqLayer ρ} (h : SeqInv a q)
    (hpre : q.prefilling = true) (hflushed : q.cache.pendingWrites = []) :
    q.synced = q.rows.length := by
  have hpending := h.pending
  rw [pendingPairs, hflushed, hpre, if_pos rfl, List.flatMap_nil] at hpending
  have hlen := List.drop_eq_nil_iff.1 hpending.symm
  rw [List.length_zip, List.length_map, h.slots, Nat.min_self] at hlen
  exact le_antisymm h.synced_le hlen

theorem LayerInv.finish {s : LayerState ρ} (h : LayerInv s) {pre post : List (SeqLayer ρ)}
    {q : SeqLayer ρ} (hq : s.seqs = pre ++ q :: post) (hpre : q.prefilling = true)
    (hflushed : q.cache.pendingWrites = []) :
    LayerInv { s with seqs := pre ++ { q with synced := q.rows.length, prefilling := false } :: post } := by
  have hinv := h.mem hq
  have hsynced := hinv.finished hpre hflushed
  refine h.replace hq rfl ⟨hinv.size, hinv.fits, hinv.num, hinv.slots, le_rfl, ?_, ?_, fun hdone => ?_⟩
  · rw [← hsynced]
    exact hinv.synced
  · show q.cache.pendingWrites.flatMap PendingBatch.pairs = []
    rw [hflushed]
    rfl
  · cases hdone

theorem LayerInv.discard {s : LayerState ρ} (h : LayerInv s) {pre post : List (SeqLayer ρ)}
    {q : SeqLayer ρ} (hq : s.seqs = pre ++ q :: post) (hdone : q.prefilling = false) :
    LayerInv { s with seqs := pre ++ { q with cache := q.cache.discardPending } :: post } := by
  have hinv := h.mem hq
  refine h.replace hq rfl ⟨hinv.size, hinv.fits, hinv.num, hinv.slots, hinv.synced_le, hinv.synced, ?_,
    hinv.alone⟩
  show [] = if q.prefilling then _ else []
  rw [hdone]
  rfl

theorem row_of_segments {a a' : BlockAllocator ρ} (hseg : a'.segments = a.segments)
    (hblocks : a'.segmentBlocks = a.segmentBlocks) (hsize : a'.blockSize = a.blockSize) :
    a'.row = a.row := by
  funext slot
  simp only [BlockAllocator.row, BlockAllocator.segmentSlots, hseg, hblocks, hsize]

theorem freeAll_row (a : BlockAllocator ρ) (ids : List Nat) : (freeAll a ids).row = a.row := by
  obtain ⟨hseg, hblocks, hsize, -⟩ := freeAll_segments a ids
  exact row_of_segments hseg hblocks hsize

theorem LayerInv.clear {s : LayerState ρ} (h : LayerInv s) {pre post : List (SeqLayer ρ)}
    {q : SeqLayer ρ} (hq : s.seqs = pre ++ q :: post) :
    LayerInv ⟨(q.cache.clear s.pool).2, pre ++ ⟨(q.cache.clear s.pool).1, [], 0, 0, true⟩ :: post,
      s.entries⟩ := by
  have hown := clear_owns (h.owns hq)
  obtain ⟨-, -, -, hlaid⟩ := freeAll_segments s.pool q.cache.table.blockIds
  refine h.cacheStep hq (hlaid h.laid) hown (fun slot r _ hr => ?_) (fun b hb => ?_)
    (blank_inv (hlaid h.laid) ?_ rfl rfl)
  · show (freeAll s.pool q.cache.table.blockIds).row slot = some r
    rw [freeAll_row]
    exact hr
  · cases hb
  · exact (h.mem hq).size.trans hown.blockSize.symm

/-- A rollback with nothing staged. -/
theorem truncateTo_facts {c c' : PagedKvCache ρ} {a a' : BlockAllocator ρ} {n : Nat} {rows : List ρ}
    (hbs : 0 < c.blockSize) (hlaid : a.Laid) (hsize : c.blockSize = a.blockSize)
    (hpending : c.pendingPairs = []) (hfits : c.table.Fits c.blockSize)
    (hnum : c.table.numTokens = rows.length) (hslots : c.table.cachedSlots.length = rows.length)
    (h : c.truncateTo a n = some (c', a')) :
    c'.blockSize = c.blockSize ∧ c'.table.Fits c.blockSize ∧
      c'.table.numTokens = (rows.take n).length ∧ c'.table.cachedSlots = c.table.cachedSlots.take n ∧
        c'.pendingPairs = [] ∧ (∀ b ∈ c'.table.blockIds, b ∈ c.table.blockIds) ∧ a'.Laid ∧
          a'.row = a.row := by
  unfold truncateTo at h
  split at h
  next hge =>
    cases h
    refine ⟨rfl, hfits, ?_, ?_, hpending, fun _ hb => hb, hlaid, rfl⟩
    · rw [List.take_of_length_le (by omega), hnum]
    · rw [List.take_of_length_le (by omega)]
  next hlt =>
    obtain ⟨⟨c₁, a₁⟩, hflush, h⟩ := Option.map_eq_some_iff.1 h
    have hlands := flushPending_lands hlaid hsize (by rw [hpending]; exact List.forall_mem_nil _)
      (by rw [hpending]; exact List.nodup_nil) hflush
    obtain ⟨hlands, rfl⟩ := hlands
    have hrow : a₁.row = a.row := by
      funext slot
      refine hlands.other slot ?_
      rw [hpending]
      exact List.not_mem_nil
    cases h
    have hlen : n = (rows.take n).length := by
      rw [List.length_take]
      omega
    by_cases hcut : blocksFor n c.blockSize < c.table.blockIds.length
    · have hcut' : blocksFor n c.discardPending.blockSize < c.discardPending.table.blockIds.length := hcut
      simp only [hcut', if_true]
      refine ⟨rfl, fits_take hbs hfits (by omega) (Nat.min_eq_left hcut.le), hlen, rfl, rfl,
        fun b hb => List.mem_of_mem_take hb, (freeAll_segments _ _).2.2.2 hlands.laid, ?_⟩
      rw [freeAll_row]
      exact hrow
    · have hcut' : ¬ blocksFor n c.discardPending.blockSize < c.discardPending.table.blockIds.length := hcut
      simp only [hcut', if_false]
      refine ⟨rfl, ?_, hlen, rfl, rfl, fun b hb => hb, hlands.laid, hrow⟩
      have hmono : blocksFor n c.blockSize ≤ c.table.blockIds.length :=
        (blocksFor_mono c.blockSize (by omega)).trans hfits.blocks_length.ge
      have hall := fits_take hbs hfits (by omega) (k := c.table.blockIds.length)
        ((Nat.min_self _).trans (le_antisymm (Nat.le_of_not_lt hcut) hmono))
      rwa [List.take_length] at hall

theorem LayerInv.truncate {s : LayerState ρ} (h : LayerInv s) {pre post : List (SeqLayer ρ)}
    {q : SeqLayer ρ} (hq : s.seqs = pre ++ q :: post) (hdone : q.prefilling = false) {n : Nat}
    (hn : q.synced ≤ n) {c : PagedKvCache ρ} {a : BlockAllocator ρ}
    (htrunc : q.cache.truncateTo s.pool n = some (c, a)) :
    LayerInv ⟨a, pre ++ { q with cache := c, rows := q.rows.take n } :: post, s.entries⟩ := by
  have hinv := h.mem hq
  have hsize := hinv.size
  have hbs : 0 < q.cache.blockSize := by
    rw [hsize]
    exact h.laid.block_pos
  have hpending := hinv.pending
  rw [hdone] at hpending
  have hown := truncateTo_owns (h.owns hq) htrunc
  obtain ⟨hsize', hfits, hnum, hslots, hpending', hids, hlaid, hrow⟩ := truncateTo_facts hbs h.laid hsize
    hpending (by rw [hsize]; exact hinv.fits) hinv.num hinv.slots htrunc
  refine h.cacheStep hq hlaid hown (fun slot r _ hr => by rw [hrow]; exact hr)
    (fun b hb => .inl (hids b hb)) ⟨?_, ?_, hnum, ?_, ?_, ?_, ?_, fun hpre => ?_⟩
  · exact hsize'.trans (hsize.trans hown.blockSize.symm)
  · show c.table.Fits a.blockSize
    rwa [hown.blockSize, ← hsize]
  · show c.table.cachedSlots.length = (q.rows.take n).length
    rw [hslots, List.length_take, List.length_take, hinv.slots]
  · show q.synced ≤ (q.rows.take n).length
    rw [List.length_take]
    exact Nat.le_min.2 ⟨hn, hinv.synced_le⟩
  · intro p slot hp hslot
    have hp : p < q.synced := hp
    have hslot : c.table.cachedSlots[p]? = some slot := hslot
    rw [hslots, List.getElem?_take, if_pos (by omega)] at hslot
    show a.row slot = (q.rows.take n)[p]?
    rw [hrow, List.getElem?_take, if_pos (by omega)]
    exact hinv.synced p slot hp hslot
  · show c.pendingPairs = if q.prefilling then _ else []
    rw [hpending', hdone]
    rfl
  · exact absurd hpre (by rw [hdone]; exact Bool.false_ne_true)

/-! ## Taking over, registering, evicting -/

theorem foldl_prepopulate_ids (ids : List Nat) (c : PagedKvCache ρ) (a : BlockAllocator ρ) :
    let r := ids.foldl (fun s id => prepopulateBlock s.1 s.2 id) (c, a)
    r.1.table.blockIds = c.table.blockIds ++ ids ∧ r.2.row = a.row := by
  induction ids generalizing c a with
  | nil => exact ⟨(List.append_nil _).symm, rfl⟩
  | cons id ids ih =>
      obtain ⟨h1, h2⟩ := ih (c.prepopulateBlock a id).1 (c.prepopulateBlock a id).2
      refine ⟨?_, h2.trans rfl⟩
      rw [List.foldl_cons, h1]
      show (c.table.blockIds ++ [id]) ++ ids = _
      rw [List.append_assoc]
      rfl

/-- Rows of blocks of one size, one block after the other. -/
theorem blockRows_getElem? {es : List (Nat × List ρ)} {bs : Nat} (hbs : 0 < bs)
    (hlen : ∀ e ∈ es, e.2.length = bs) (p : Nat) :
    (es.flatMap Prod.snd)[p]? = es[p / bs]?.bind fun e => e.2[p % bs]? := by
  induction es generalizing p with
  | nil => rfl
  | cons e es ih =>
      obtain ⟨he, hes⟩ := List.forall_mem_cons.1 hlen
      rw [List.flatMap_cons]
      by_cases hp : p < bs
      · rw [List.getElem?_append_left (by omega), Nat.div_eq_of_lt hp, Nat.mod_eq_of_lt hp]
        rfl
      · obtain ⟨p, rfl⟩ := Nat.exists_eq_add_of_le (Nat.le_of_not_lt hp)
        rw [List.getElem?_append_right (by omega), he, Nat.add_sub_cancel_left, ih hes,
          Nat.add_div_left _ hbs, Nat.add_mod_left]
        rfl

theorem blockRows_length {es : List (Nat × List ρ)} {bs : Nat} (hlen : ∀ e ∈ es, e.2.length = bs) :
    (es.flatMap Prod.snd).length = es.length * bs := by
  induction es with
  | nil => exact (Nat.zero_mul bs).symm
  | cons e es ih =>
      obtain ⟨he, hes⟩ := List.forall_mem_cons.1 hlen
      rw [List.flatMap_cons, List.length_append, he, ih hes, List.length_cons, Nat.succ_mul, Nat.add_comm]

theorem LayerInv.takeOver {s : LayerState ρ} (h : LayerInv s) {pre post : List (SeqLayer ρ)}
    {q : SeqLayer ρ} (hq : s.seqs = pre ++ q :: post) (hpre : q.prefilling = true)
    (hfresh : q.cache.table = .new) {hits : List (Nat × List ρ)} (hhits : ∀ e ∈ hits, e ∈ s.entries) :
    LayerInv ⟨(q.cache.prepopulate s.pool (hits.map Prod.fst)).2,
      pre ++ ⟨(q.cache.prepopulate s.pool (hits.map Prod.fst)).1, hits.flatMap Prod.snd, hits.length,
        hits.length * s.pool.blockSize, true⟩ :: post, s.entries⟩ := by
  have hinv := h.mem hq
  have hbs := h.laid.block_pos
  have hsize := hinv.size
  have hlen : ∀ e ∈ hits, e.2.length = s.pool.blockSize := fun e he => (h.entries e (hhits e he)).1
  have hids : ∀ id ∈ hits.map Prod.fst, id ∈ s.entries.map Prod.fst := by
    intro id hid
    obtain ⟨e, he, rfl⟩ := List.mem_map.1 hid
    exact List.mem_map.2 ⟨e, hhits e he, rfl⟩
  have hown := @prepopulate_owns _ _ _ _ (h.owns hq) (hits.map Prod.fst) fun id hid => by
    rw [h.count]
    exact Nat.add_pos_left (List.count_pos_iff.2 (hids id hid)) _
  obtain ⟨hnum, hslots, hfits, hcache, -, hlaid⟩ := prepopulate_fits
    (show 0 < q.cache.blockSize by rw [hsize]; exact hbs) s.pool (hits.map Prod.fst) hfresh
  obtain ⟨hblocks, hrow⟩ := foldl_prepopulate_ids (hits.map Prod.fst) q.cache s.pool
  rw [hfresh] at hblocks
  have hblocks : (q.cache.prepopulate s.pool (hits.map Prod.fst)).1.table.blockIds = hits.map Prod.fst :=
    hblocks
  have hrow : (q.cache.prepopulate s.pool (hits.map Prod.fst)).2.row = s.pool.row := hrow
  generalize q.cache.prepopulate s.pool (hits.map Prod.fst) = r at *
  obtain ⟨c, a⟩ := r
  have hpending : c.pendingWrites = q.cache.pendingWrites := by
    have hcache : c = _ := hcache
    rw [hcache]
  have hcsize : c.blockSize = q.cache.blockSize := by
    have hcache : c = _ := hcache
    rw [hcache]
  have htotal : c.table.numTokens = hits.length * s.pool.blockSize := by
    rw [hnum, List.length_map, hsize]
  refine h.cacheStep hq (hlaid h.laid) hown (fun slot x _ hx => by rw [hrow]; exact hx)
    (fun b hb => .inr (.inr (hids b (hblocks ▸ hb)))) ⟨?_, ?_, ?_, ?_, ?_, ?_, ?_, fun _ => ?_⟩
  · exact hcsize.trans (hsize.trans hown.blockSize.symm)
  · show c.table.Fits a.blockSize
    rw [hown.blockSize, ← hsize]
    exact hfits
  · show c.table.numTokens = (hits.flatMap Prod.snd).length
    rw [htotal, blockRows_length hlen]
  · show c.table.cachedSlots.length = (hits.flatMap Prod.snd).length
    rw [hslots, htotal, blockRows_length hlen]
  · show hits.length * s.pool.blockSize ≤ (hits.flatMap Prod.snd).length
    rw [blockRows_length hlen]
  · -- the rows of a block taken over are those it was registered for
    intro p slot hp hslot
    have hp : p < c.table.numTokens := htotal ▸ hp
    obtain ⟨id, hid, hslot'⟩ := hfits.slot p hp
    have hslot : c.table.cachedSlots[p]? = some slot := hslot
    rw [hslot, Option.some.injEq] at hslot'
    have hid : c.table.blockIds[p / q.cache.blockSize]? = some id := hid
    rw [hblocks, List.getElem?_map, hsize] at hid
    obtain ⟨e, he, rfl⟩ := Option.map_eq_some_iff.1 hid
    show a.row slot = (hits.flatMap Prod.snd)[p]?
    rw [hrow, blockRows_getElem? hbs hlen, he, Option.bind_some, hslot', hsize]
    exact (h.entries e (hhits e (List.mem_of_getElem? he))).2 _ (Nat.mod_lt p hbs)
  · show c.pendingPairs = (c.table.cachedSlots.zip _).drop (hits.length * s.pool.blockSize)
    have hold := hinv.pending
    rw [hpre, if_pos rfl, SeqLayer.unsynced, hfresh] at hold
    rw [pendingPairs, hpending, List.drop_eq_nil_of_le]
    · exact hold.trans List.drop_nil
    · rw [List.length_zip, hslots, htotal]
      exact Nat.min_le_left _ _
  · show hits.length * a.blockSize ≤ hits.length * s.pool.blockSize ∧ ∀ k id, hits.length ≤ k →
      c.table.blockIds[k]? = some id → a.refCount id = 1
    rw [hown.blockSize]
    refine ⟨le_rfl, fun k id hk hid => ?_⟩
    rw [hblocks, List.getElem?_eq_none (by rw [List.length_map]; exact hk)] at hid
    cases hid

/-- A change of the counts alone. -/
theorem SeqInv.counts {a a' : BlockAllocator ρ} {q : SeqLayer ρ} (h : SeqInv a q) (hbs : 0 < a.blockSize)
    (hsize : a'.blockSize = a.blockSize) (hrow : a'.row = a.row)
    (halone : ∀ b ∈ q.ids, a.refCount b = 1 → q.prefilling = true → a'.refCount b = 1) : SeqInv a' q :=
  h.frame hbs hsize (fun slot r _ hr => by rw [hrow]; exact hr) halone

theorem LayerInv.register {s : LayerState ρ} (h : LayerInv s) {pre post : List (SeqLayer ρ)}
    {q : SeqLayer ρ} (hq : s.seqs = pre ++ q :: post) (hdone : q.prefilling = false) {k id : Nat}
    (hk : (k + 1) * s.pool.blockSize ≤ q.synced) (hid : q.ids[k]? = some id) :
    LayerInv ⟨s.pool.share id, s.seqs,
      (id, Slice.window q.rows (k * s.pool.blockSize) s.pool.blockSize) :: s.entries⟩ := by
  have hinv := h.mem hq
  have hbs := h.laid.block_pos
  have hmem := List.mem_of_getElem? hid
  have hpos : 0 < s.pool.refCount id := by
    rw [h.count, hq]
    exact others_pos_seq (List.mem_append_right _ List.mem_cons_self) hmem
  have hc := share_counts h.wf hpos
  rw [Nat.succ_mul] at hk
  have hfit : k * s.pool.blockSize + s.pool.blockSize ≤ q.rows.length := hk.trans hinv.synced_le
  refine ⟨h.laid.share id, hc.wf, fun b => ?_, ?_, fun x hx => ?_⟩
  · rw [hc.count, h.count]
    simp only [others, List.map_cons, List.count_cons]
    by_cases hb : b = id
    · subst hb
      simp
      omega
    · simp [hb, Ne.symm hb]
  · intro e he
    rcases List.mem_cons.1 he with rfl | he
    · refine ⟨Slice.window_length hfit, fun j hj => ?_⟩
      have hj : j < s.pool.blockSize := hj
      have hdiv : (k * s.pool.blockSize + j) / s.pool.blockSize = k := by
        rw [Nat.add_comm, Nat.add_mul_div_right _ _ hbs, Nat.div_eq_of_lt hj, Nat.zero_add]
      have hmod : (k * s.pool.blockSize + j) % s.pool.blockSize = j := by
        rw [Nat.add_comm, Nat.add_mul_mod_self_right, Nat.mod_eq_of_lt hj]
      obtain ⟨id', hid', hslot⟩ := hinv.fits.slot (k * s.pool.blockSize + j) (by rw [hinv.num]; omega)
      rw [hdiv] at hid'
      have hsame : id' = id := Option.some.inj (hid'.symm.trans hid)
      rw [hsame, hmod] at hslot
      show s.pool.row (id * s.pool.blockSize + j) =
        (Slice.window q.rows (k * s.pool.blockSize) s.pool.blockSize)[j]?
      rw [Slice.getElem?_window, if_pos hj]
      exact hinv.synced _ _ (by omega) hslot
    · exact h.entries e he
  · refine (h.seqs x hx).counts hbs rfl rfl fun b hb hone hprex => ?_
    -- a block of a sequence being filled is not the registered one
    have hne : b ≠ id := by
      rintro rfl
      have hx' : x ∈ pre ++ post := by
        have hx : x ∈ pre ++ q :: post := hq ▸ hx
        rcases List.mem_append.1 hx with hx | hx
        · exact List.mem_append_left _ hx
        · rcases List.mem_cons.1 hx with rfl | hx
          · rw [hdone] at hprex
            cases hprex
          · exact List.mem_append_right _ hx
      have hother := @others_pos_seq _ s.entries _ _ hx' _ hb
      have hown := List.count_pos_iff.2 hmem
      have hcount := (h.owns hq).count b
      have hown : 0 < q.cache.table.blockIds.count b := hown
      omega
    rw [hc.count, if_neg hne, hone]

theorem LayerInv.evict {s : LayerState ρ} (h : LayerInv s) {pre post : List (Nat × List ρ)}
    {e : Nat × List ρ} (he : s.entries = pre ++ e :: post) :
    LayerInv ⟨s.pool.free e.1, s.seqs, pre ++ post⟩ := by
  have hmem : e ∈ s.entries := by
    rw [he]
    exact List.mem_append_right _ List.mem_cons_self
  have hpos : 0 < s.pool.refCount e.1 := by
    rw [h.count]
    exact others_pos_entry hmem
  have hc := free_counts h.wf hpos
  refine ⟨h.laid.free e.1, hc.wf, fun b => ?_, fun x hx => h.entries x ?_, fun x hx => ?_⟩
  · rw [hc.count, h.count, he]
    simp only [others, List.map_append, List.map_cons, List.count_append, List.count_cons]
    by_cases hb : b = e.1
    · subst hb
      simp
      omega
    · simp [hb, Ne.symm hb]
  · rw [he]
    rcases List.mem_append.1 hx with hx | hx
    · exact List.mem_append_left _ hx
    · exact List.mem_append_right _ (List.mem_cons_of_mem _ hx)
  · refine (h.seqs x hx).counts h.laid.block_pos rfl rfl fun b hb hone _ => ?_
    have hne : b ≠ e.1 := by
      rintro rfl
      have hentry : 0 < (s.entries.map Prod.fst).count e.1 :=
        List.count_pos_iff.2 (List.mem_map.2 ⟨e, hmem, rfl⟩)
      have hseq : 0 < (s.seqs.flatMap SeqLayer.ids).count e.1 :=
        List.count_pos_iff.2 (List.mem_flatMap.2 ⟨x, hx, hb⟩)
      have hcount := h.count e.1
      unfold others at hcount
      omega
    rw [hc.count, if_neg hne, hone]

/-! ## Runs -/

section

variable [Inhabited ρ]

theorem LayerStep.inv {s s' : LayerState ρ} (h : LayerInv s) (hs : LayerStep s s') : LayerInv s' := by
  cases hs with
  | start => exact h.start
  | takeOver hq hpre hfresh hits hhits => exact h.takeOver hq hpre hfresh hhits
  | @chunk pre post q hq hpre device spare new c a out happend =>
      rw [← hpre] at happend
      exact h.append hq happend
  | flush hq hflush => exact h.flush hq hflush
  | finish hq hpre hflushed => exact h.finish hq hpre hflushed
  | register hq hdone k hk hid => exact h.register hq hdone hk hid
  | @decode pre post q hq hdone device spare new c a out happend =>
      rw [← hdone] at happend
      exact h.append hq happend
  | discard hq hdone => exact h.discard hq hdone
  | truncate hq hdone n hn htrunc => exact h.truncate hq hdone hn htrunc
  | clear hq => exact h.clear hq
  | leave hq hempty => exact h.leave hq hempty
  | evict he => exact h.evict he

theorem LayerReach.inv {a : BlockAllocator ρ} (ha : a.Laid) (hwf : a.Wf) (hfree : ∀ b, a.refCount b = 0)
    {s : LayerState ρ} (h : LayerReach a s) : LayerInv s := by
  induction h with
  | refl => exact ⟨ha, hwf, hfree, List.forall_mem_nil _, List.forall_mem_nil _⟩
  | tail _ hstep ih => exact hstep.inv ih

omit [Inhabited ρ] in
theorem gather_of_rows {a : BlockAllocator ρ} (h : a.Laid) {slots : List Nat} {rows : List ρ}
    (hpos : 0 < rows.length) (hlen : slots.length = rows.length)
    (hrows : ∀ i slot : Nat, slots[i]? = some slot → a.row slot = rows[i]?) : a.gather slots = some rows := by
  refine gather_rows h (List.ne_nil_of_length_pos (hlen ▸ hpos))
    (List.ext_getElem (by simp [hlen]) fun i h1 h2 => ?_)
  rw [List.length_map] at h1 h2
  rw [List.getElem_map, List.getElem_map, hrows i _ (List.getElem?_eq_getElem h1),
    List.getElem?_eq_getElem h2]

/-- In every state of every run, each registered block holds the rows it is registered for, and each full
block of a finished prompt holds the rows of its tokens. -/
theorem registered_rows {maxBlocks segmentBlocks blockSize : Nat} {window : Option Nat}
    {device : Nat → Bool} {a : BlockAllocator ρ} (hbs : 0 < blockSize)
    (ha : BlockAllocator.growing maxBlocks segmentBlocks blockSize window device = some a)
    {s : LayerState ρ} (h : LayerReach a s) :
    (∀ e ∈ s.entries, s.pool.gather (List.range' (e.1 * s.pool.blockSize) s.pool.blockSize) = some e.2) ∧
      ∀ q ∈ s.seqs, q.prefilling = false → ∀ k, (k + 1) * s.pool.blockSize ≤ q.synced →
        s.pool.gather (Slice.window q.cache.table.cachedSlots (k * s.pool.blockSize) s.pool.blockSize) =
          some (Slice.window q.rows (k * s.pool.blockSize) s.pool.blockSize) := by
  obtain ⟨hwf, hzero⟩ := growing_counts ha
  have hinv := LayerReach.inv (BlockAllocator.growing_laid hbs ha) hwf hzero h
  constructor
  · intro e he
    obtain ⟨hlen, hrows⟩ := hinv.entries e he
    refine gather_of_rows hinv.laid (hlen.symm ▸ hinv.laid.block_pos) (by rw [List.length_range', hlen])
      fun i slot hslot => ?_
    obtain ⟨hi, hslot⟩ := List.getElem?_eq_some_iff.1 hslot
    rw [List.length_range'] at hi
    rw [List.getElem_range', Nat.one_mul] at hslot
    rw [← hslot]
    exact hrows i hi
  · intro q hq _ k hk
    have hq := hinv.seqs q hq
    rw [Nat.succ_mul] at hk
    have hfit : k * s.pool.blockSize + s.pool.blockSize ≤ q.rows.length := hk.trans hq.synced_le
    refine gather_of_rows hinv.laid ?_ ?_ fun i slot hslot => ?_
    · rw [Slice.window_length hfit]
      exact hinv.laid.block_pos
    · rw [Slice.window_length hfit, Slice.window_length (by rw [hq.slots]; exact hfit)]
    · rw [Slice.getElem?_window] at hslot ⊢
      obtain ⟨hi, hslot⟩ := Option.ite_none_right_eq_some.1 hslot
      rw [if_pos hi]
      exact hq.synced _ slot (by omega) hslot

end

/-! ## A run -/

/-- A prompt of one block in two chunks, each flushed, and then registered. -/
theorem registeredSolo_reach :
    ∃ s : LayerState Nat, LayerReach soloPool s ∧ s.entries = [(0, [7, 8])] ∧ s.pool.blockSize = 2 := by
  have h1 : LayerReach soloPool ⟨soloPool, [⟨.new soloPool, [], 0, 0, true⟩], []⟩ :=
    Relation.ReflTransGen.tail .refl .start
  have h2 := h1.tail (.chunk (show [_] = [] ++ _ :: [] from rfl) rfl (fun _ => true) [] [7] rfl)
  have h3 := h2.tail (.flush (show [_] = [] ++ _ :: [] from rfl) rfl)
  have h4 := h3.tail (.chunk (show [_] = [] ++ _ :: [] from rfl) rfl (fun _ => true) [] [8] rfl)
  have h5 := h4.tail (.flush (show [_] = [] ++ _ :: [] from rfl) rfl)
  have h6 := h5.tail (.finish (show [_] = [] ++ _ :: [] from rfl) rfl rfl)
  have h7 := h6.tail (.register (show [_] = [] ++ _ :: [] from rfl) rfl 0 (by decide) rfl)
  exact ⟨_, h7, rfl, rfl⟩

theorem registered_rows_solo :
    ∃ s : LayerState Nat, LayerReach soloPool s ∧ s.entries = [(0, [7, 8])] ∧
      s.pool.gather [0, 1] = some [7, 8] := by
  obtain ⟨s, hs, hentries, hbs⟩ := registeredSolo_reach
  have hgrowing : BlockAllocator.growing 2 2 2 none (fun _ => true) = some soloPool := rfl
  have h := (registered_rows (by decide) hgrowing hs).1 (0, [7, 8]) (by rw [hentries]; exact List.mem_cons_self)
  rw [hbs] at h
  exact ⟨s, hs, hentries, h⟩

end Oxydllm.Kv
