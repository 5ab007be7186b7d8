/-
# Oxydllm.Kv.CacheCounts — counting cached blocks, looking them up and touching them.

Three walks over the same chain, written apart: `count_cached_blocks` peeks, `lookup` gets, and `touch` gets
over `chunks_exact`. They stop at the same block on every cache. The scheduler discounts what the first
finds, `plan_prefill_inputs` takes over what the second finds, and reads of the cache in between change
neither (`prefill_agrees`).
-/
import Oxydllm.Kv.EngineRun
import Oxydllm.Kv.PrefixSound
import Oxydllm.Kv.Promised

namespace Oxydllm.Kv

variable {ρ : Type}

namespace PrefixCache

/-! ## The walk of `touch` -/

/-- The first `n` chunks of `chunks_exact(block_size)`, which has `len / block_size`. -/
def chunksExact (blockSize : Nat) : Nat → List Token → List (List Token)
  | 0, _ => []
  | n + 1, tokens => tokens.take blockSize :: chunksExact blockSize n (tokens.drop blockSize)

variable (chainHash : List Token → UInt64 → UInt64)

/-- The loop of `touch`, with the number of blocks it refreshes. -/
def touchFrom (c : PrefixCache) : List (List Token) → UInt64 → Nat × PrefixCache
  | [], _ => (0, c)
  | block :: blocks, prev =>
      match get c (chainHash block prev) with
      | (some entry, c) =>
          if entry.blockTokens = block then
            let r := touchFrom c blocks (chainHash block prev)
            (r.1 + 1, r.2)
          else (0, c)
      | (none, c) => (0, c)

/-- `touch` and the number of blocks of the prompt that it refreshes. -/
def touchWalk (c : PrefixCache) (tokens : List Token) (blockSize : Nat) : Nat × PrefixCache :=
  if c.disabled then (0, c)
  else touchFrom chainHash c (chunksExact blockSize (tokens.length / blockSize) tokens) 0

/-- The chunks are the blocks that the other walks cut out. -/
theorem chunksExact_eq (tokens : List Token) (blockSize n i : Nat) :
    chunksExact blockSize n (tokens.drop (i * blockSize)) = blocksFrom tokens blockSize i n := by
  induction n generalizing i with
  | zero => rfl
  | succ n ih =>
      rw [chunksExact, List.drop_drop, ← Nat.succ_mul, ih (i + 1), blocksFrom, blocksFrom, List.range'_succ, List.map_cons,
        blockAt]

theorem touchFrom_eq (blocks : List (List Token)) (prev : UInt64) (c : PrefixCache) :
    touchFrom chainHash c blocks prev =
      ((lookupFrom chainHash c blocks prev).1.length, (lookupFrom chainHash c blocks prev).2) := by
  induction blocks generalizing prev c with
  | nil => rfl
  | cons block blocks ih =>
      unfold touchFrom lookupFrom
      cases get c (chainHash block prev) with
      | mk found c₁ =>
          cases found with
          | none => rfl
          | some entry =>
              dsimp only
              split
              · rw [ih]
                rfl
              · rfl

/-- `touch` refreshes the blocks that a lookup returns, and leaves the cache that the lookup leaves. -/
theorem touchWalk_eq (c : PrefixCache) (tokens : List Token) (blockSize : Nat) :
    touchWalk chainHash c tokens blockSize =
      ((c.lookup chainHash tokens blockSize).1.length, c.touch chainHash tokens blockSize) := by
  unfold touchWalk touch lookup
  split
  · rfl
  · have hchunks := chunksExact_eq tokens blockSize (tokens.length / blockSize) 0
    rw [Nat.zero_mul, List.drop_zero] at hchunks
    rw [hchunks, touchFrom_eq]

/-! ## Reads in between -/

/-- A call that only reads. -/
inductive ReadOp where
  | lookup (tokens : List Token)
  | touch (tokens : List Token)

def ReadOp.toOp : ReadOp → CacheOp
  | .lookup tokens => .lookup tokens
  | .touch tokens => .touch tokens

theorem exec_read (blockSize : Nat) (s : PrefixCache × List (BlockAllocator ρ)) (op : ReadOp) (tokens : List Token) :
    let s' := exec chainHash blockSize s op.toOp
    s'.2 = s.2 ∧ s'.1.entries.entries.Perm s.1.entries.entries ∧
      s'.1.countCachedBlocks chainHash tokens blockSize = s.1.countCachedBlocks chainHash tokens blockSize := by
  cases op with
  | lookup read =>
      exact ⟨rfl, (lookup_perm chainHash s.1 read blockSize).1, touch_count chainHash s.1 read tokens blockSize⟩
  | touch read =>
      exact ⟨rfl, (lookup_perm chainHash s.1 read blockSize).1, touch_count chainHash s.1 read tokens blockSize⟩

/-- Reads change neither what is held nor what is counted. -/
theorem execAll_reads (blockSize : Nat) (s : PrefixCache × List (BlockAllocator ρ)) (reads : List ReadOp)
    (tokens : List Token) :
    let s' := execAll chainHash blockSize s (reads.map ReadOp.toOp)
    s'.2 = s.2 ∧ s'.1.entries.entries.Perm s.1.entries.entries ∧
      s'.1.countCachedBlocks chainHash tokens blockSize = s.1.countCachedBlocks chainHash tokens blockSize := by
  induction reads generalizing s with
  | nil => exact ⟨rfl, .refl _, rfl⟩
  | cons op reads ih =>
      obtain ⟨h₁, h₂, h₃⟩ := exec_read chainHash blockSize s op tokens
      obtain ⟨g₁, g₂, g₃⟩ := ih (exec chainHash blockSize s op.toOp)
      exact ⟨g₁.trans h₁, g₂.trans h₂, g₃.trans h₃⟩

/-! ## An id for every layer -/

/-- The entries have one id for each of the layers. -/
def Full (layers : Nat) (c : PrefixCache) : Prop := ∀ h entry, c.Holds h entry → entry.blockIds.length = layers

theorem freeLayers_length (as : List (BlockAllocator ρ)) (ids : List Nat) : (freeLayers as ids).length = as.length := by
  induction as generalizing ids with
  | nil => cases ids <;> rfl
  | cons a as ih =>
      cases ids with
      | nil => rfl
      | cons id ids => exact congrArg (· + 1) (ih ids)

theorem shareLayers_length (as : List (BlockAllocator ρ)) (ids : List Nat) : (shareLayers as ids).length = as.length := by
  induction as generalizing ids with
  | nil => cases ids <;> rfl
  | cons a as ih =>
      cases ids with
      | nil => rfl
      | cons id ids => exact congrArg (· + 1) (ih ids)

variable {chainHash} in
theorem registerFrom_length (pairs : List (List Token × List Nat)) (prev : UInt64) (c : PrefixCache)
    (as : List (BlockAllocator ρ)) : (registerFrom chainHash pairs prev c as).2.length = as.length := by
  induction pairs generalizing prev c as with
  | nil => rfl
  | cons pair pairs ih =>
      obtain ⟨block, ids⟩ := pair
      unfold registerFrom
      dsimp only
      split
      · rw [ih]
        split
        · rw [freeLayers_length, shareLayers_length]
        · rw [shareLayers_length]
      · exact ih _ _ _

theorem exec_full (blockSize : Nat) {layers : Nat} {s : PrefixCache × List (BlockAllocator ρ)} (hl : s.2.length = layers)
    (hf : Full layers s.1) (op : CacheOp) :
    (exec chainHash blockSize s op).2.length = layers ∧ Full layers (exec chainHash blockSize s op).1 := by
  cases op with
  | register tokens startBlock newBlockIds =>
      simp only [exec, register]
      split
      · exact ⟨hl, hf⟩
      · split
        · exact ⟨hl, hf⟩
        · rename_i harity
          refine ⟨(registerFrom_length _ _ _ _).trans hl, fun h entry hh => ?_⟩
          rcases registerFrom_holds _ _ _ _ hh with hheld | ⟨j, hj, -⟩
          · exact hf h entry hheld
          · rw [List.getElem?_zip_eq_some] at hj
            have hmem := List.mem_of_getElem? hj.2
            rw [Bool.not_eq_true, List.any_eq_false] at harity
            rw [← hl]
            simpa using harity _ hmem
  | lookup tokens => exact ⟨hl, fun h entry hh => hf h entry ((lookup_holds _ _ _ _).1 hh)⟩
  | touch tokens => exact ⟨hl, fun h entry hh => hf h entry ((lookup_holds _ _ _ _).1 hh)⟩
  | evictLru =>
      simp only [exec]
      cases he : s.1.evictLru s.2 with
      | none => exact ⟨hl, hf⟩
      | some s' =>
          refine ⟨?_, fun h entry hh => hf h entry (evictLru_holds he hh)⟩
          unfold evictLru at he
          split at he
          · cases he
          · split at he
            · cases he
              exact (freeLayers_length _ _).trans hl
            · cases he

theorem execAll_full (blockSize : Nat) (ops : List CacheOp) {layers : Nat} {s : PrefixCache × List (BlockAllocator ρ)}
    (hl : s.2.length = layers) (hf : Full layers s.1) :
    (execAll chainHash blockSize s ops).2.length = layers ∧ Full layers (execAll chainHash blockSize s ops).1 := by
  induction ops generalizing s with
  | nil => exact ⟨hl, hf⟩
  | cons op ops ih =>
      obtain ⟨h₁, h₂⟩ := exec_full chainHash blockSize hl hf op
      exact ih h₁ h₂

/-- A lookup returns one id for each layer and block. -/
theorem lookup_full (blockSize : Nat) {layers : Nat} {c : PrefixCache} (hf : Full layers c) (tokens : List Token) :
    ∀ ids ∈ (c.lookup chainHash tokens blockSize).1, ids.length = layers := by
  intro ids hids
  unfold lookup at hids
  split at hids
  · cases hids
  · obtain ⟨i, hi⟩ := List.getElem?_of_mem hids
    obtain ⟨_, entry, -, -, rfl, hheld⟩ := lookupFrom_sound _ _ _ hi
    exact hf _ _ hheld

end PrefixCache

/-! ## The discount and what is taken over -/

section

variable (chainHash : List Token → UInt64 → UInt64)

/-- What `blocks_needed_for_prefill` takes off. -/
def cachedDiscount (blockSize : Nat) (cache : PrefixCache) (tokens : List Token) : Nat :=
  min (cache.countCachedBlocks chainHash tokens blockSize) ((tokens.length - 1) / blockSize)

theorem blocksNeededForPrefill_discount (blockSize : Nat) (seq : SequenceState ρ) (cache : PrefixCache) :
    Scheduler.blocksNeededForPrefill chainHash blockSize seq cache =
      PagedKvCache.blocksFor seq.allTokens.length blockSize - cachedDiscount chainHash blockSize cache seq.allTokens := rfl

/-- `PrefillInfo`, less the sequence's id. -/
structure PrefillInfo where
  numCachedTokens : Nat
  numCachedBlocks : Nat
  numFullBlocksTotal : Nat
  uncachedLen : Nat
  inputTokens : List Token

/-- The `PrefillInfo` that `plan_prefill_inputs` builds for a token list. -/
def prefillInfo (blockSize : Nat) (cache : PrefixCache) (tokens : List Token) : PrefillInfo :=
  let found := cache.lookup chainHash tokens blockSize
  let seqLen := tokens.length
  let maxCacheable := (seqLen - 1) / blockSize
  let numCachedBlocks := if found.1.length > maxCacheable then maxCacheable else found.1.length
  let numCachedTokens := numCachedBlocks * blockSize
  ⟨numCachedTokens, numCachedBlocks, seqLen / blockSize, seqLen - numCachedTokens, tokens.drop numCachedTokens⟩

theorem prefillInfo_blocks (blockSize : Nat) (cache : PrefixCache) (tokens : List Token) :
    (prefillInfo chainHash blockSize cache tokens).numCachedBlocks = cachedDiscount chainHash blockSize cache tokens := by
  simp only [prefillInfo, cachedDiscount, ← PrefixCache.lookup_length]
  split <;> omega

/-- Something of every prompt is left to feed. -/
theorem prefillInfo_input (blockSize : Nat) (cache : PrefixCache) (tokens : List Token) :
    (prefillInfo chainHash blockSize cache tokens).inputTokens = [] ↔ tokens = [] := by
  have hcap : cachedDiscount chainHash blockSize cache tokens * blockSize ≤ tokens.length - 1 :=
    calc cachedDiscount chainHash blockSize cache tokens * blockSize
        ≤ (tokens.length - 1) / blockSize * blockSize := Nat.mul_le_mul_right _ (Nat.min_le_right _ _)
      _ ≤ tokens.length - 1 := Nat.div_mul_le_self _ _
  have hinput : (prefillInfo chainHash blockSize cache tokens).inputTokens =
      tokens.drop (cachedDiscount chainHash blockSize cache tokens * blockSize) := by
    rw [← prefillInfo_blocks]
    rfl
  rw [hinput, List.drop_eq_nil_iff]
  constructor
  · intro hle
    exact List.length_eq_zero_iff.1 (by omega)
  · rintro rfl
    exact Nat.zero_le _

theorem takeOver_blocks (ids : List Nat) (n : Nat) (c : PagedKvCache ρ) (a : BlockAllocator ρ) :
    (takeOver ids n c a).1.table.blockIds = c.table.blockIds ++ ids ∧ (takeOver ids n c a).1.table.numTokens = n := by
  refine ⟨?_, rfl⟩
  have hfold : ∀ (ids : List Nat) (s : PagedKvCache ρ × BlockAllocator ρ),
      (ids.foldl (fun s id => PagedKvCache.prepopulateBlock s.1 s.2 id) s).1.table.blockIds = s.1.table.blockIds ++ ids := by
    intro ids
    induction ids with
    | nil => intro s; simp
    | cons id ids ih =>
        intro s
        rw [List.foldl_cons, ih]
        simp [PagedKvCache.prepopulateBlock]
  exact hfold ids (c, a)

theorem filterMap_layer {matched : List (List Nat)} {layers l : Nat} (h : ∀ ids ∈ matched, ids.length = layers)
    (hl : l < layers) : (matched.filterMap (·[l]?)).length = matched.length := by
  induction matched with
  | nil => rfl
  | cons ids matched ih =>
      have hlt : l < ids.length := by rw [h ids List.mem_cons_self]; exact hl
      rw [List.filterMap_cons, List.getElem?_eq_getElem hlt]
      exact congrArg (· + 1) (ih fun ids hids => h ids (List.mem_cons_of_mem _ hids))

/-- The plan of a prompt takes over, in every layer, as many blocks as its `PrefillInfo` says. -/
theorem planPrefill_blocks (blockSize : Nat) {cache : PrefixCache} {as : List (BlockAllocator ρ)}
    (hf : PrefixCache.Full as.length cache) (seq : SequenceState ρ) {l : Nat} {c : PagedKvCache ρ} (hl : l < as.length)
    (hc : seq.caches[l]? = some c) :
    ∃ c', (planPrefill chainHash blockSize cache as seq).2.2.caches[l]? = some c' ∧
      c'.table.blockIds.length = c.table.blockIds.length + cachedDiscount chainHash blockSize cache seq.allTokens := by
  have hn : min (cache.lookup chainHash seq.allTokens blockSize).1.length ((seq.allTokens.length - 1) / blockSize) =
      cachedDiscount chainHash blockSize cache seq.allTokens := by rw [PrefixCache.lookup_length]; rfl
  have hfull := PrefixCache.lookup_full chainHash blockSize hf seq.allTokens
  unfold planPrefill
  dsimp only
  rw [hn]
  split
  · obtain ⟨hget, -⟩ := prepopulateLayers_get ((cache.lookup chainHash seq.allTokens blockSize).1.take
      (cachedDiscount chainHash blockSize cache seq.allTokens))
      (cachedDiscount chainHash blockSize cache seq.allTokens * blockSize) 0 l seq.caches as
    rw [hc, List.getElem?_eq_getElem hl, Nat.zero_add] at hget
    refine ⟨_, hget, ?_⟩
    dsimp only [Option.elim]
    rw [(takeOver_blocks _ _ _ _).1, List.length_append,
      filterMap_layer (fun ids hids => hfull ids (List.mem_of_mem_take hids)) hl, List.length_take, ← hn]
    omega
  · rename_i hzero
    exact ⟨c, hc, by omega⟩

/-- Counting, looking up and touching find the same blocks on every reachable cache, and none of them changes
what is held. What the scheduler discounts is what the plan takes over in every layer, however many reads of
the cache and whatever turns of the pools lie between, and it leaves a token to feed unless there is none. -/
theorem prefill_agrees (blockSize capacity : Nat) (as : List (BlockAllocator ρ)) (ops : List CacheOp)
    (tokens : List Token) :
    let cache := (PrefixCache.execAll chainHash blockSize (PrefixCache.new capacity, as) ops).1
    (cache.lookup chainHash tokens blockSize).1.length = cache.countCachedBlocks chainHash tokens blockSize ∧
      (cache.touchWalk chainHash tokens blockSize).1 = cache.countCachedBlocks chainHash tokens blockSize ∧
      (cache.touchWalk chainHash tokens blockSize).2 = cache.touch chainHash tokens blockSize ∧
      (cache.lookup chainHash tokens blockSize).2.entries.entries.Perm cache.entries.entries ∧
      ∀ (reads : List PrefixCache.ReadOp) (seq : SequenceState ρ) (as' : List (BlockAllocator ρ)),
        let later := (PrefixCache.execAll chainHash blockSize (cache, as') (reads.map PrefixCache.ReadOp.toOp)).1
        let discount := cachedDiscount chainHash blockSize cache seq.allTokens
        let info := prefillInfo chainHash blockSize later seq.allTokens
        Scheduler.blocksNeededForPrefill chainHash blockSize seq cache =
            PagedKvCache.blocksFor seq.allTokens.length blockSize - discount ∧
          info.numCachedBlocks = discount ∧
          (∀ l c, as'.length = as.length → l < as.length → seq.caches[l]? = some c →
            ∃ c', (planPrefill chainHash blockSize later as' seq).2.2.caches[l]? = some c' ∧
              c'.table.blockIds.length = c.table.blockIds.length + discount) ∧
          discount ≤ (seq.allTokens.length - 1) / blockSize ∧ (info.inputTokens = [] ↔ seq.allTokens = []) := by
  intro cache
  have hfull : PrefixCache.Full as.length cache := (PrefixCache.execAll_full chainHash blockSize ops
    (s := (PrefixCache.new capacity, as)) rfl fun h entry hh => by cases hh).2
  have hwalk := PrefixCache.touchWalk_eq chainHash cache tokens blockSize
  have hcount := PrefixCache.lookup_length chainHash cache tokens blockSize
  refine ⟨hcount, by rw [hwalk]; exact hcount, by rw [hwalk], (PrefixCache.lookup_perm chainHash cache tokens blockSize).1,
    fun reads seq as' => ?_⟩
  intro later discount info
  obtain ⟨-, hperm, hlater⟩ := PrefixCache.execAll_reads chainHash blockSize (cache, as') reads seq.allTokens
  have hdiscount : cachedDiscount chainHash blockSize later seq.allTokens = discount :=
    congrArg (fun n => min n ((seq.allTokens.length - 1) / blockSize)) hlater
  refine ⟨blocksNeededForPrefill_discount chainHash blockSize seq cache,
    (prefillInfo_blocks chainHash blockSize later seq.allTokens).trans hdiscount, fun l c hlen hl hc => ?_,
    Nat.min_le_right _ _, prefillInfo_input chainHash blockSize later seq.allTokens⟩
  have hfull' : PrefixCache.Full as'.length later := fun h entry hh => by
    rw [hlen]
    exact hfull h entry (hperm.mem_iff.1 hh)
  have hblocks := planPrefill_blocks chainHash blockSize hfull' seq (hlen ▸ hl) hc
  rwa [hdiscount] at hblocks

/-- An empty prompt has no token to feed. -/
theorem prefillInfo_empty : ¬ 0 < (prefillInfo PrefixCache.lengthHash 1
    (PrefixCache.execAll PrefixCache.lengthHash 1 (PrefixCache.new 4, PrefixCache.onePool) []).1 []).inputTokens.length := by
  decide

end

end Oxydllm.Kv
