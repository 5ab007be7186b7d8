/-
# Oxydllm.Kv.PrefixSound — a lookup returns the blocks of the prefix it asked about.

An entry keeps the tokens of its own block only; what it means depends on the whole prefix it was
registered under. Over a run, every entry the cache holds goes back to one `register` call
(`Origin`), and a lookup returns the blocks of the very prefix it walked unless two prefixes in play
share both their chain hash and their last block.
-/
import Oxydllm.Kv.PrefixCache

namespace Oxydllm.Kv

/-- A call on the cache. -/
inductive CacheOp where
  | register (tokens : List Token) (startBlock : Nat) (newBlockIds : List (List Nat))
  | lookup (tokens : List Token)
  | touch (tokens : List Token)
  | evictLru

namespace PrefixCache

variable {ρ : Type} (chainHash : List Token → UInt64 → UInt64) (blockSize : Nat)

/-- One call. -/
def exec (s : PrefixCache × List (BlockAllocator ρ)) : CacheOp → PrefixCache × List (BlockAllocator ρ)
  | .register tokens startBlock ids => s.1.register chainHash tokens startBlock ids s.2 blockSize
  | .lookup tokens => ((s.1.lookup chainHash tokens blockSize).2, s.2)
  | .touch tokens => (s.1.touch chainHash tokens blockSize, s.2)
  | .evictLru => (s.1.evictLru s.2).getD s

/-- A sequence of calls. -/
def execAll (s : PrefixCache × List (BlockAllocator ρ)) (ops : List CacheOp) :
    PrefixCache × List (BlockAllocator ρ) := ops.foldl (exec chainHash blockSize) s

theorem execAll_snoc (s : PrefixCache × List (BlockAllocator ρ)) (ops : List CacheOp) (op : CacheOp) :
    execAll chainHash blockSize s (ops ++ [op]) =
      exec chainHash blockSize (execAll chainHash blockSize s ops) op := by
  simp [execAll]

/-- The entries held. -/
def Holds (c : PrefixCache) (h : UInt64) (entry : PrefixEntry) : Prop := (h, entry) ∈ c.entries.entries

variable {chainHash} {blockSize}

/-! ## What one call adds -/

theorem get_holds (c : PrefixCache) (k h : UInt64) (entry : PrefixEntry) :
    (c.get k).2.Holds h entry ↔ c.Holds h entry :=
  (Lru.get_perm c.entries k).mem_iff

theorem get_fst (c : PrefixCache) (k : UInt64) : (c.get k).1 = c.entries.peek k := rfl

/-- A lookup changes recency only. -/
theorem lookupFrom_holds (blocks : List (List Token)) (prev : UInt64) (c : PrefixCache) (h : UInt64)
    (entry : PrefixEntry) :
    (lookupFrom chainHash c blocks prev).2.Holds h entry ↔ c.Holds h entry := by
  induction blocks generalizing prev c with
  | nil => rfl
  | cons block blocks ih =>
      have hget := get_holds c (chainHash block prev) h entry
      rw [lookupFrom]
      split
      next found c' heq =>
        rw [heq] at hget
        split
        · rw [← hget]
          exact ih _ _
        · exact hget
      next c' heq =>
        rw [heq] at hget
        exact hget

theorem lookup_holds (c : PrefixCache) (tokens : List Token) (h : UInt64) (entry : PrefixEntry) :
    (c.lookup chainHash tokens blockSize).2.Holds h entry ↔ c.Holds h entry := by
  unfold lookup
  split
  · rfl
  · exact lookupFrom_holds _ _ _ _ _

/-- The blocks returned are held under the chain hashes walked. -/
theorem lookupFrom_sound (blocks : List (List Token)) (prev : UInt64) (c : PrefixCache) {i : Nat}
    {ids : List Nat} (hi : (lookupFrom chainHash c blocks prev).1[i]? = some ids) :
    ∃ block entry, blocks[i]? = some block ∧ entry.blockTokens = block ∧ entry.blockIds = ids ∧
      c.Holds ((blocks.take (i + 1)).foldl (fun prev block => chainHash block prev) prev) entry := by
  induction blocks generalizing prev c i with
  | nil => simp [lookupFrom] at hi
  | cons block blocks ih =>
      have hgets := get_holds c (chainHash block prev)
      rw [lookupFrom] at hi
      split at hi
      next found c' heq =>
        rw [heq] at hgets
        split at hi
        next htokens =>
          cases i with
          | zero =>
              simp only [List.getElem?_cons_zero, Option.some.injEq] at hi
              have hpeek : c.entries.peek (chainHash block prev) = some found := by
                rw [← get_fst, heq]
              exact ⟨block, found, rfl, htokens, hi, Lru.peek_eq_some_iff.1 hpeek⟩
          | succ i =>
              rw [List.getElem?_cons_succ] at hi
              obtain ⟨b, entry, hb, htok, hids, hheld⟩ := ih _ _ hi
              exact ⟨b, entry, hb, htok, hids, (hgets _ _).1 hheld⟩
        · simp at hi
      · simp at hi

theorem evictLru_holds {c c' : PrefixCache} {as as' : List (BlockAllocator ρ)}
    (he : c.evictLru as = some (c', as')) {h : UInt64} {entry : PrefixEntry} (hh : c'.Holds h entry) :
    c.Holds h entry := by
  unfold evictLru at he
  split at he
  · cases he
  · split at he
    · cases he
      exact (List.dropLast_sublist _).subset hh
    · cases he

/-- What the registration loop leaves in the cache was there or is one of its own blocks. -/
theorem registerFrom_holds (pairs : List (List Token × List Nat)) (prev : UInt64) (c : PrefixCache)
    (as : List (BlockAllocator ρ)) {h : UInt64} {entry : PrefixEntry}
    (hh : (registerFrom chainHash pairs prev c as).1.Holds h entry) :
    c.Holds h entry ∨ ∃ j : Nat, pairs[j]? = some (entry.blockTokens, entry.blockIds) ∧
      h = ((pairs.take (j + 1)).map Prod.fst).foldl (fun prev block => chainHash block prev) prev := by
  induction pairs generalizing prev c as with
  | nil => exact .inl hh
  | cons pair pairs ih =>
      obtain ⟨block, ids⟩ := pair
      have hlift : (∃ j : Nat, pairs[j]? = some (entry.blockTokens, entry.blockIds) ∧
          h = ((pairs.take (j + 1)).map Prod.fst).foldl (fun prev block => chainHash block prev)
            (chainHash block prev)) →
          ∃ j : Nat, ((block, ids) :: pairs)[j]? = some (entry.blockTokens, entry.blockIds) ∧
            h = ((((block, ids) :: pairs).take (j + 1)).map Prod.fst).foldl
              (fun prev block => chainHash block prev) prev := by
        rintro ⟨j, hj, hhash⟩
        exact ⟨j + 1, by rw [List.getElem?_cons_succ]; exact hj, hhash⟩
      rw [registerFrom] at hh
      split at hh
      next hnew =>
        rcases ih _ _ _ hh with hheld | hnext
        · have hmem : (h, entry) ∈ (chainHash block prev, (⟨ids, block⟩ : PrefixEntry)) :: c.entries.entries :=
            (Lru.push_perm c.entries _ _ hnew c.cap_pos).subset (List.mem_append_right _ hheld)
          rcases List.mem_cons.1 hmem with heq | hmem
          · cases heq
            exact .inr ⟨0, rfl, rfl⟩
          · exact .inl hmem
        · exact .inr (hlift hnext)
      · rcases ih _ _ _ hh with hheld | hnext
        · exact .inl hheld
        · exact .inr (hlift hnext)

/-! ## Where an entry comes from -/

/-- The first `n` blocks of a prompt, chained. -/
def prefixHash (chainHash : List Token → UInt64 → UInt64) (blockSize : Nat) (tokens : List Token) (n : Nat) :
    UInt64 := chain chainHash (blocksFrom tokens blockSize 0 n)

/-- The entry was filed by a `register` call of the run and has been held since. -/
def Origin (chainHash : List Token → UInt64 → UInt64) (blockSize : Nat)
    (s : PrefixCache × List (BlockAllocator ρ)) (ops : List CacheOp) (h : UInt64) (entry : PrefixEntry) : Prop :=
  ∃ (n : Nat) (tokens : List Token) (startBlock : Nat) (newBlockIds : List (List Nat)) (j : Nat),
    ops[n]? = some (.register tokens startBlock newBlockIds) ∧ newBlockIds[j]? = some entry.blockIds ∧
      entry.blockTokens = blockAt tokens blockSize (startBlock + j) ∧
      h = prefixHash chainHash blockSize tokens (startBlock + j + 1) ∧
      ∀ k, n < k → k ≤ ops.length → (execAll chainHash blockSize s (ops.take k)).1.Holds h entry

theorem blocksFrom_append (tokens : List Token) (i n m : Nat) :
    blocksFrom tokens blockSize i n ++ blocksFrom tokens blockSize (i + n) m =
      blocksFrom tokens blockSize i (n + m) := by
  simp [blocksFrom, ← List.range'_append_1]

theorem chain_append (bs₁ bs₂ : List (List Token)) :
    chain chainHash (bs₁ ++ bs₂) =
      bs₂.foldl (fun prev block => chainHash block prev) (chain chainHash bs₁) := by
  simp [chain]

theorem blocksFrom_getElem? (tokens : List Token) {i n j : Nat} (hj : j < n) :
    (blocksFrom tokens blockSize i n)[j]? = some (blockAt tokens blockSize (i + j)) := by
  simp [blocksFrom, hj]

theorem blocksFrom_take (tokens : List Token) {i n j : Nat} (hj : j ≤ n) :
    (blocksFrom tokens blockSize i n).take j = blocksFrom tokens blockSize i j := by
  have hsplit := @blocksFrom_append blockSize tokens i j (n - j)
  rw [Nat.add_sub_cancel' hj] at hsplit
  rw [← hsplit, List.take_left']
  simp [blocksFrom]

/-- A call adds only what it registers. -/
theorem register_holds {c : PrefixCache} {as : List (BlockAllocator ρ)} {tokens : List Token} {startBlock : Nat}
    {newBlockIds : List (List Nat)} {h : UInt64} {entry : PrefixEntry}
    (hh : (c.register chainHash tokens startBlock newBlockIds as blockSize).1.Holds h entry) :
    c.Holds h entry ∨ ∃ j : Nat, newBlockIds[j]? = some entry.blockIds ∧
      entry.blockTokens = blockAt tokens blockSize (startBlock + j) ∧
      h = prefixHash chainHash blockSize tokens (startBlock + j + 1) := by
  unfold register at hh
  split at hh
  · exact .inl hh
  · split at hh
    · exact .inl hh
    · rcases registerFrom_holds _ _ _ _ hh with hheld | ⟨j, hj, hhash⟩
      · exact .inl hheld
      · right
        rw [List.getElem?_zip_eq_some] at hj
        obtain ⟨hblock, hids⟩ := hj
        have hlt : j < newBlockIds.length := (List.getElem?_eq_some_iff.1 hids).1
        rw [blocksFrom_getElem? tokens hlt, Option.some.injEq] at hblock
        refine ⟨j, hids, hblock.symm, ?_⟩
        have htake : (((blocksFrom tokens blockSize startBlock newBlockIds.length).zip newBlockIds).take
            (j + 1)).map Prod.fst = blocksFrom tokens blockSize startBlock (j + 1) := by
          rw [List.map_take, List.map_fst_zip (by simp [blocksFrom]), blocksFrom_take tokens hlt]
        rw [hhash, htake, ← chain_append]
        have hall := @blocksFrom_append blockSize tokens 0 startBlock (j + 1)
        rw [Nat.zero_add] at hall
        rw [hall, prefixHash, Nat.add_assoc]

theorem Origin.snoc {s : PrefixCache × List (BlockAllocator ρ)} {ops : List CacheOp} {op : CacheOp}
    {h : UInt64} {entry : PrefixEntry} (ho : Origin chainHash blockSize s ops h entry)
    (hheld : (execAll chainHash blockSize s (ops ++ [op])).1.Holds h entry) :
    Origin chainHash blockSize s (ops ++ [op]) h entry := by
  obtain ⟨n, tokens, startBlock, newBlockIds, j, hcall, hids, htokens, hhash, hsince⟩ := ho
  have hn : n < ops.length := (List.getElem?_eq_some_iff.1 hcall).1
  refine ⟨n, tokens, startBlock, newBlockIds, j, ?_, hids, htokens, hhash, ?_⟩
  · rw [List.getElem?_append_left hn]
    exact hcall
  · intro k hk hle
    rw [List.length_append, List.length_singleton] at hle
    by_cases hlast : k ≤ ops.length
    · rw [List.take_append_of_le_length hlast]
      exact hsince k hk hlast
    · obtain rfl : k = ops.length + 1 := by omega
      rwa [List.take_of_length_le (by simp)]

/-- The calls other than `register` add nothing. -/
theorem exec_holds {s : PrefixCache × List (BlockAllocator ρ)} {op : CacheOp} {h : UInt64}
    {entry : PrefixEntry} (hh : (exec chainHash blockSize s op).1.Holds h entry) :
    s.1.Holds h entry ∨ ∃ tokens startBlock newBlockIds, op = .register tokens startBlock newBlockIds ∧
      ∃ j : Nat, newBlockIds[j]? = some entry.blockIds ∧
        entry.blockTokens = blockAt tokens blockSize (startBlock + j) ∧
        h = prefixHash chainHash blockSize tokens (startBlock + j + 1) := by
  cases op with
  | register tokens startBlock newBlockIds =>
      rcases register_holds hh with hheld | hnew
      · exact .inl hheld
      · exact .inr ⟨tokens, startBlock, newBlockIds, rfl, hnew⟩
  | lookup tokens => exact .inl ((lookup_holds _ _ _ _).1 hh)
  | touch tokens => exact .inl ((lookup_holds _ _ _ _).1 hh)
  | evictLru =>
      simp only [exec] at hh
      cases he : s.1.evictLru s.2 with
      | none => rw [he] at hh; exact .inl hh
      | some s' =>
          rw [he] at hh
          exact .inl (evictLru_holds he hh)

/-- Every entry a run leaves in an initially empty cache has an origin. -/
theorem holds_origin {s : PrefixCache × List (BlockAllocator ρ)} (hs : s.1.entries.entries = [])
    (ops : List CacheOp) {h : UInt64} {entry : PrefixEntry}
    (hh : (execAll chainHash blockSize s ops).1.Holds h entry) : Origin chainHash blockSize s ops h entry := by
  induction ops using List.reverseRecOn with
  | nil =>
      have hmem : (h, entry) ∈ s.1.entries.entries := hh
      rw [hs] at hmem
      cases hmem
  | append_singleton ops op ih =>
      have hstep := hh
      rw [execAll_snoc] at hstep
      rcases exec_holds hstep with hheld | ⟨tokens, startBlock, newBlockIds, rfl, j, hids, htokens, hhash⟩
      · exact (ih hheld).snoc hh
      · refine ⟨ops.length, tokens, startBlock, newBlockIds, j, by simp, hids, htokens, hhash, ?_⟩
        intro k hk hle
        rw [List.length_append, List.length_singleton] at hle
        rw [List.take_of_length_le (by simp; omega)]
        exact hh

/-! ## Lookups -/

/-- Two prefixes in play with the same chain hash and the same last block are the same prefix: `tokens`
is looked up, the others were registered. -/
def PrefixesApart (chainHash : List Token → UInt64 → UInt64) (blockSize : Nat) (ops : List CacheOp)
    (tokens : List Token) : Prop :=
  ∀ toks startBlock newBlockIds, .register toks startBlock newBlockIds ∈ ops → ∀ j < newBlockIds.length,
    ∀ i < tokens.length / blockSize,
      prefixHash chainHash blockSize toks (startBlock + j + 1) = prefixHash chainHash blockSize tokens (i + 1) →
      blockAt toks blockSize (startBlock + j) = blockAt tokens blockSize i →
      toks.take ((startBlock + j + 1) * blockSize) = tokens.take ((i + 1) * blockSize)

/-- Whatever the hash, a lookup over a run whose prefixes are kept apart returns, for each block, ids
that were registered for a token list that begins with the very tokens looked up, by a call whose entry
has been held since. -/
theorem lookup_sound (chainHash : List Token → UInt64 → UInt64) (blockSize capacity : Nat)
    (as : List (BlockAllocator ρ)) (ops : List CacheOp) (tokens : List Token)
    (hapart : PrefixesApart chainHash blockSize ops tokens) (i : Nat) (ids : List Nat)
    (hi : ((execAll chainHash blockSize (new capacity, as) ops).1.lookup chainHash tokens blockSize).1[i]? =
      some ids) :
    ∃ (n : Nat) (toks : List Token) (startBlock : Nat) (newBlockIds : List (List Nat)) (j : Nat),
      ops[n]? = some (.register toks startBlock newBlockIds) ∧ newBlockIds[j]? = some ids ∧
        toks.take ((i + 1) * blockSize) = tokens.take ((i + 1) * blockSize) ∧
        ∃ h entry, entry.blockIds = ids ∧ ∀ k, n < k → k ≤ ops.length →
          (execAll chainHash blockSize (new capacity, as) (ops.take k)).1.Holds h entry := by
  generalize hs : execAll chainHash blockSize (new capacity, as) ops = s at hi
  unfold lookup at hi
  split at hi
  · simp at hi
  · obtain ⟨block, entry, hblock, htokens, rfl, hheld⟩ := lookupFrom_sound _ _ _ hi
    have hlt : i < tokens.length / blockSize := by
      have := (List.getElem?_eq_some_iff.1 hblock).1
      simpa [blocksFrom] using this
    rw [blocksFrom_getElem? tokens hlt, Option.some.injEq, Nat.zero_add] at hblock
    rw [blocksFrom_take tokens hlt] at hheld
    rw [← hs] at hheld
    obtain ⟨n, toks, startBlock, newBlockIds, j, hcall, hids, hblk, hhash, hsince⟩ :=
      holds_origin (s := (new capacity, as)) rfl ops hheld
    have hj : j < newBlockIds.length := (List.getElem?_eq_some_iff.1 hids).1
    have hsame := hapart toks startBlock newBlockIds (List.mem_of_getElem? hcall) j hj i hlt hhash.symm
      (by rw [← hblk, htokens, hblock])
    refine ⟨n, toks, startBlock, newBlockIds, j, hcall, hids, ?_, _, entry, rfl, hsince⟩
    -- the prefix looked up is whole blocks, so the registered one is at least as long
    have hlen : (tokens.take ((i + 1) * blockSize)).length = (i + 1) * blockSize := by
      rw [List.length_take, Nat.min_eq_left]
      exact (Nat.mul_le_mul_right _ hlt).trans (Nat.div_mul_le_self _ _)
    have hle : (i + 1) * blockSize ≤ (startBlock + j + 1) * blockSize := by
      rw [← hsame, List.length_take] at hlen
      omega
    calc toks.take ((i + 1) * blockSize)
        = (toks.take ((startBlock + j + 1) * blockSize)).take ((i + 1) * blockSize) := by
          rw [List.take_take, Nat.min_eq_left hle]
      _ = (tokens.take ((i + 1) * blockSize)).take ((i + 1) * blockSize) := by rw [hsame]
      _ = tokens.take ((i + 1) * blockSize) := by rw [List.take_take, Nat.min_self]

/-- A hash that counts blocks: all prefixes of one length collide. -/
def lengthHash (_ : List Token) (prev : UInt64) : UInt64 := prev + 1

/-- `[1]` is registered with block 0, then `[2, 3]` with blocks 1 and 2. -/
def collidingOps : List CacheOp := [.register [1] 0 [[0]], .register [2, 3] 0 [[1], [2]]]

def onePool : List (BlockAllocator Unit) := [⟨[], [], [1, 1, 1], 3, 3, 3, 1, none⟩]

/-- Looking up `[1, 3]` finds block 2, which was registered behind `[2]` only. -/
theorem lookup_colliding :
    ((execAll lengthHash 1 (new 4, onePool) collidingOps).1.lookup lengthHash [1, 3] 1).1[1]? = some [2] ∧
      ∀ (n : Nat) (toks : List Token) (startBlock : Nat) (newBlockIds : List (List Nat)) (j : Nat),
        collidingOps[n]? = some (.register toks startBlock newBlockIds) → newBlockIds[j]? = some [2] →
        toks.take 2 ≠ [1, 3] := by
  refine ⟨by decide, fun n toks startBlock newBlockIds j hcall hids => ?_⟩
  rcases n with _ | _ | n
  · cases hcall
    rcases j with _ | j
    · exact absurd hids (by decide)
    · simp at hids
  · cases hcall
    decide
  · simp [collidingOps] at hcall

/-- A hash that keeps the prefixes of the run apart. -/
def sumHash (block : List Token) (prev : UInt64) : UInt64 := 10 * prev + UInt64.ofNat block.sum

/-- Under it the same run answers `[2, 3]` with its own blocks. -/
theorem lookup_sound_apart :
    ∃ (n : Nat) (toks : List Token) (startBlock : Nat) (newBlockIds : List (List Nat)) (j : Nat),
      collidingOps[n]? = some (.register toks startBlock newBlockIds) ∧ newBlockIds[j]? = some [2] ∧
        toks.take 2 = [2, 3] ∧
        ∃ h entry, entry.blockIds = [2] ∧ ∀ k, n < k → k ≤ collidingOps.length →
          (execAll sumHash 1 (new 4, onePool) (collidingOps.take k)).1.Holds h entry :=
  lookup_sound sumHash 1 4 onePool collidingOps [2, 3]
    (by
      intro toks startBlock newBlockIds hmem j hj i hi
      simp only [collidingOps, List.mem_cons, CacheOp.register.injEq, List.not_mem_nil, or_false] at hmem
      rcases hmem with ⟨rfl, rfl, rfl⟩ | ⟨rfl, rfl, rfl⟩
      · revert i
        revert j
        decide
      · revert i
        revert j
        decide)
    1 [2] (by decide)

end PrefixCache

end Oxydllm.Kv
