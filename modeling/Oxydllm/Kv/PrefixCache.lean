/-
# Oxydllm.Kv.PrefixCache — reusing the KV blocks of common prompt prefixes (`PrefixCache`).

A prompt is cut into blocks of `blockSize` tokens. Each block is filed under a chain hash over its
tokens and the previous block's hash, with the KV block id of every layer and the block's own tokens.
The hash function is a parameter. The allocators are the layers' pools, in order.
-/
import Oxydllm.Kv.Allocator
import Oxydllm.Lib.Lru

namespace Oxydllm.Kv

abbrev Token := Nat

/-- One cached prefix block: the KV block id per layer, plus the exact tokens it holds. -/
structure PrefixEntry where
  blockIds : List Nat
  blockTokens : List Token
deriving DecidableEq

structure PrefixCache where
  entries : Lru UInt64 PrefixEntry
  disabled : Bool
  cap_pos : 0 < entries.cap

/-- `tokens[i * block_size..(i + 1) * block_size]`. -/
def blockAt (tokens : List Token) (blockSize i : Nat) : List Token :=
  (tokens.drop (i * blockSize)).take blockSize

/-- The blocks `i..i + n`. -/
def blocksFrom (tokens : List Token) (blockSize i n : Nat) : List (List Token) :=
  (List.range' i n).map (blockAt tokens blockSize)

namespace PrefixCache

variable {ρ : Type}

def new (capacity : Nat) : PrefixCache := ⟨.empty (max capacity 1), false, Nat.le_max_right _ _⟩

def ofDisabled : PrefixCache := ⟨.empty 1, true, Nat.one_pos⟩

/-- One reference of each layer's block. -/
def shareLayers : List (BlockAllocator ρ) → List Nat → List (BlockAllocator ρ)
  | a :: as, id :: ids => a.share id :: shareLayers as ids
  | as, _ => as

/-- One reference of each layer's block is given back; ids beyond the layers are skipped. -/
def freeLayers : List (BlockAllocator ρ) → List Nat → List (BlockAllocator ρ)
  | a :: as, id :: ids => a.free id :: freeLayers as ids
  | as, _ => as

variable (chainHash : List Token → UInt64 → UInt64)

/-- The loop of `count_cached_blocks`. -/
def countFrom (c : PrefixCache) : List (List Token) → UInt64 → Nat
  | [], _ => 0
  | block :: blocks, prev =>
      match c.entries.peek (chainHash block prev) with
      | some entry => if entry.blockTokens = block then countFrom c blocks (chainHash block prev) + 1 else 0
      | none => 0

/-- How many leading blocks are cached, recency untouched. -/
def countCachedBlocks (c : PrefixCache) (tokens : List Token) (blockSize : Nat) : Nat :=
  if c.disabled then 0 else countFrom chainHash c (blocksFrom tokens blockSize 0 (tokens.length / blockSize)) 0

/-- `entries.get`. -/
def get (c : PrefixCache) (h : UInt64) : Option PrefixEntry × PrefixCache :=
  ((c.entries.get h).1, { c with entries := (c.entries.get h).2, cap_pos := c.cap_pos })

/-- The loop of `lookup`. -/
def lookupFrom (c : PrefixCache) : List (List Token) → UInt64 → List (List Nat) × PrefixCache
  | [], _ => ([], c)
  | block :: blocks, prev =>
      match get c (chainHash block prev) with
      | (some entry, c) =>
          if entry.blockTokens = block then
            let r := lookupFrom c blocks (chainHash block prev)
            (entry.blockIds :: r.1, r.2)
          else ([], c)
      | (none, c) => ([], c)

/-- The block ids of the longest cached prefix, one list for each block. -/
def lookup (c : PrefixCache) (tokens : List Token) (blockSize : Nat) : List (List Nat) × PrefixCache :=
  if c.disabled then ([], c)
  else lookupFrom chainHash c (blocksFrom tokens blockSize 0 (tokens.length / blockSize)) 0

/-- Marks the cached leading blocks as most recently used; the walk of `lookup` without its result. -/
def touch (c : PrefixCache) (tokens : List Token) (blockSize : Nat) : PrefixCache :=
  (lookup chainHash c tokens blockSize).2

/-- Drops the least recently used entry and its references. -/
def evictLru (c : PrefixCache) (as : List (BlockAllocator ρ)) :
    Option (PrefixCache × List (BlockAllocator ρ)) :=
  if c.disabled then none
  else match c.entries.popLru.1 with
    | some (_, entry) => some (⟨c.entries.popLru.2, c.disabled, c.cap_pos⟩, freeLayers as entry.blockIds)
    | none => none

/-- The loop of `register` over the new blocks. -/
def registerFrom : List (List Token × List Nat) → UInt64 → PrefixCache → List (BlockAllocator ρ) →
    PrefixCache × List (BlockAllocator ρ)
  | [], _, c, as => (c, as)
  | (block, ids) :: rest, prev, c, as =>
      let h := chainHash block prev
      if hnew : c.entries.contains h = false then
        let pushed := c.entries.push h ⟨ids, block⟩ hnew c.cap_pos
        let as := shareLayers as ids
        let as := match pushed.1 with
          | some (_, evicted) => freeLayers as evicted.blockIds
          | none => as
        registerFrom rest h ⟨pushed.2, c.disabled, by rw [Lru.push_cap]; exact c.cap_pos⟩ as
      else registerFrom rest h c as

/-- The chain hash of a list of blocks. -/
def chain (blocks : List (List Token)) : UInt64 := blocks.foldl (fun prev block => chainHash block prev) 0

/-- Records the blocks of a prompt from `startBlock` on. -/
def register (c : PrefixCache) (tokens : List Token) (startBlock : Nat) (newBlockIds : List (List Nat))
    (as : List (BlockAllocator ρ)) (blockSize : Nat) : PrefixCache × List (BlockAllocator ρ) :=
  if c.disabled then (c, as)
  else if newBlockIds.any fun ids => ids.length ≠ as.length then (c, as)
  else
    registerFrom chainHash ((blocksFrom tokens blockSize startBlock newBlockIds.length).zip newBlockIds)
      (chain chainHash (blocksFrom tokens blockSize 0 startBlock)) c as

end PrefixCache

end Oxydllm.Kv
