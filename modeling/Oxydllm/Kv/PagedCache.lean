/-
# Oxydllm.Kv.PagedCache — the KV cache of one sequence in one layer (`PagedKvCache`).

The cache keeps the sequence twice: in blocks of the shared pool, of which the table lists the ids and the
slot of every token, and in a contiguous buffer, which is what attention reads. Writes to the pool are
staged as runs over the appended rows and land at the flush.

A row stands for the K and V vectors of one token. The pool is unquantised. The pool's retired buffers
(`spare`) and the device are what the moment of the call gives.
-/
import Oxydllm.Kv.Pool

namespace Oxydllm.Kv

open Slice

/-- The block ids of a sequence and the slot of each of its tokens. -/
structure BlockTable where
  blockIds : List Nat
  numTokens : Nat
  cachedSlots : List Nat

def BlockTable.new : BlockTable := ⟨[], 0, []⟩

/-- `WINDOW_KEEP_MARGIN`. -/
def windowKeepMargin : Nat := 16

def contigBufCapacity (totalNeeded : Nat) : Nat :=
  max (if totalNeeded < 1024 then totalNeeded * 2 else totalNeeded + min (totalNeeded / 4) 4096) 64

theorem le_contigBufCapacity (n : Nat) : n ≤ contigBufCapacity n := by
  unfold contigBufCapacity
  split <;> omega

/-- One contiguous run of a staged append: the `nTokens` rows from `srcOffset` on belong at pool slot
`dstSlot`. -/
structure PendingRun where
  dstSlot : Nat
  srcOffset : Nat
  nTokens : Nat

/-- One append's deferred pool writes. -/
structure PendingBatch (ρ : Type) where
  src : List ρ
  runs : List PendingRun

structure PagedKvCache (ρ : Type) where
  table : BlockTable
  blockSize : Nat
  window : Option Nat
  contig : Option (List ρ)
  contigLen : Nat
  contigStart : Nat
  pendingWrites : List (PendingBatch ρ)
  poolWrites : Bool

namespace PagedKvCache

variable {ρ : Type}

/-- A cache over an allocator, with its window and block size. -/
def new (a : BlockAllocator ρ) : PagedKvCache ρ :=
  ⟨.new, a.blockSize, a.slidingWindow, none, 0, 0, [], true⟩

def setPoolWrites (c : PagedKvCache ρ) (on : Bool) : PagedKvCache ρ := { c with poolWrites := on }

/-! ## Appending: the blocks -/

/-- The state of the block loop of `append`. -/
structure BlockLoop (ρ : Type) where
  alloc : BlockAllocator ρ
  table : BlockTable
  /-- Newest first. -/
  runs : List PendingRun
  written : Nat

/-- A run joins the newest one where it continues it. -/
def pushRun (runs : List PendingRun) (run : PendingRun) : List PendingRun :=
  match runs with
  | prev :: rest =>
      if prev.dstSlot + prev.nTokens = run.dstSlot ∧ prev.srcOffset + prev.nTokens = run.srcOffset then
        { prev with nTokens := prev.nTokens + run.nTokens } :: rest
      else run :: prev :: rest
  | [] => [run]

section

variable [Inhabited ρ]

/-- The block the next token goes to: a fresh one at a block boundary, else the last of the table. -/
def nextBlock (device : Nat → Bool) (blockSize : Nat) (a : BlockAllocator ρ) (t : BlockTable) :
    Option (Nat × BlockAllocator ρ × List Nat) :=
  if t.numTokens % blockSize = 0 then
    (a.allocate device).map fun r => (r.1, r.2, t.blockIds ++ [r.1])
  else t.blockIds.getLast?.map fun id => (id, a, t.blockIds)

/-- One turn of the loop: the tokens that still fit the current block. A slot index that leaves `u32`
panics. -/
def appendBlock (device : Nat → Bool) (blockSize : Nat) (poolWrites : Bool) (newSeq : Nat)
    (s : BlockLoop ρ) : Option (BlockLoop ρ) :=
  let offset := s.table.numTokens % blockSize
  let n := min (newSeq - s.written) (blockSize - offset)
  (nextBlock device blockSize s.alloc s.table).bind fun (id, alloc, blockIds) =>
    let dst := id * blockSize + offset
    if dst + n ≤ 2 ^ 32 then
      some {
        alloc
        table := ⟨blockIds, s.table.numTokens + n, s.table.cachedSlots ++ List.range' dst n⟩
        runs := if poolWrites then pushRun s.runs ⟨dst, s.written, n⟩ else s.runs
        written := s.written + n }
    else none

/-- The loop; `fuel` bounds its turns, each of which writes a token. -/
def appendBlocks (device : Nat → Bool) (blockSize : Nat) (poolWrites : Bool) (newSeq : Nat) :
    Nat → BlockLoop ρ → Option (BlockLoop ρ)
  | 0, s => if s.written < newSeq then none else some s
  | fuel + 1, s =>
      if s.written < newSeq then
        (appendBlock device blockSize poolWrites newSeq s).bind
          (appendBlocks device blockSize poolWrites newSeq fuel)
      else some s

/-! ## Appending: the contiguous buffer -/

/-- A retired buffer that is large enough, else a fresh one. -/
def acquireContig (spare : List (List ρ)) (needed : Nat) : List ρ :=
  (spare.find? fun b => needed ≤ b.length).getD (List.replicate (contigBufCapacity needed) default)

/-- Most tokens a windowed layer keeps across an append of `newSeq`. -/
def span (newSeq w : Nat) : Nat := w + newSeq - 1 + windowKeepMargin

/-- What the buffer keeps of the sequence after the append. -/
def keepLen (c : PagedKvCache ρ) (newSeq : Nat) : Nat :=
  let livePrev :=
    if c.contig.isSome then c.contigLen
    else match c.window with
      | none => c.table.numTokens
      | some w => min c.table.numTokens (span newSeq w)
  match c.window with
  | none => livePrev + newSeq
  | some w => min (livePrev + newSeq) (span newSeq w)

/-- The buffer, its live region's start and length after the append of `new` to the state `c` before
it; `alloc` and `slots` are the pool and the slots after the block loop. -/
def appendContig (spare : List (List ρ)) (c : PagedKvCache ρ) (alloc : BlockAllocator ρ)
    (slots : List Nat) (new : List ρ) : Option (List ρ × Nat × Nat) :=
  let newSeq := new.length
  let keep := c.keepLen newSeq
  let fromNew := min newSeq keep
  let fromOld := keep - fromNew
  (narrow new (newSeq - fromNew) fromNew).bind fun newSrc =>
    match c.contig with
    | some buf =>
        if c.contigStart + c.contigLen + newSeq ≤ buf.length then
          (sliceSet buf new (c.contigStart + c.contigLen)).map fun buf =>
            (buf, c.contigStart, c.contigLen + newSeq)
        else
          -- the live tokens move to the front, of this buffer where they fit
          let start := c.contigStart + (c.contigLen - fromOld)
          let dst := if keep ≤ buf.length then buf else acquireContig spare keep
          (if fromOld > 0 then (narrow buf start fromOld).bind fun old => sliceSet dst old 0
            else some dst).bind fun dst =>
              (sliceSet dst newSrc fromOld).map fun dst => (dst, 0, keep)
    | none =>
        let dst := acquireContig spare keep
        (if fromOld > 0 then
            let old := min fromOld c.table.numTokens
            (narrow slots (c.table.numTokens - old) old).bind fun idx =>
              (alloc.gather idx).bind fun rows => sliceSet dst rows 0
          else some dst).bind fun dst =>
            (sliceSet dst newSrc fromOld).map fun dst => (dst, 0, keep)

/-- The rows the layer currently holds; `none` when the cache is empty. -/
def current (c : PagedKvCache ρ) : Option (List ρ) :=
  match c.contig with
  | some buf => if c.contigLen > 0 then narrow buf c.contigStart c.contigLen else none
  | none => none

/-- Appends rows; returns the cache, the pool and the rows the next forward reads. -/
def append (device : Nat → Bool) (spare : List (List ρ)) (c : PagedKvCache ρ)
    (a : BlockAllocator ρ) (new : List ρ) : Option (PagedKvCache ρ × BlockAllocator ρ × List ρ) :=
  (appendBlocks device c.blockSize c.poolWrites new.length new.length ⟨a, c.table, [], 0⟩).bind
    fun s =>
      (appendContig spare c s.alloc s.table.cachedSlots new).bind fun (buf, start, len) =>
        let c' := { c with
          table := s.table
          contig := some buf
          contigStart := start
          contigLen := len
          pendingWrites :=
            if s.runs.isEmpty then c.pendingWrites
            else c.pendingWrites ++ [PendingBatch.mk new s.runs.reverse] }
        c'.current.map fun rows => (c', s.alloc, rows)

end

/-! ## The other operations -/

/-- The writes of one batch. -/
def flushRuns (blockSize : Nat) (src : List ρ) :
    List PendingRun → BlockAllocator ρ → Option (BlockAllocator ρ)
  | [], a => some a
  | run :: runs, a =>
      (narrow src run.srcOffset run.nTokens).bind fun rows =>
        (a.write (run.dstSlot / blockSize) (run.dstSlot % blockSize) rows).bind
          (flushRuns blockSize src runs)

def flushBatches (blockSize : Nat) :
    List (PendingBatch ρ) → BlockAllocator ρ → Option (BlockAllocator ρ)
  | [], a => some a
  | batch :: batches, a =>
      (flushRuns blockSize batch.src batch.runs a).bind (flushBatches blockSize batches)

/-- Lands the staged writes in the pool. -/
def flushPending (c : PagedKvCache ρ) (a : BlockAllocator ρ) :
    Option (PagedKvCache ρ × BlockAllocator ρ) :=
  (flushBatches c.blockSize c.pendingWrites a).map fun a => ({ c with pendingWrites := [] }, a)

/-- Drops the staged writes. -/
def discardPending (c : PagedKvCache ρ) : PagedKvCache ρ := { c with pendingWrites := [] }

def freeAll (a : BlockAllocator ρ) (ids : List Nat) : BlockAllocator ρ := ids.foldl .free a

/-- Back to the empty cache; its blocks and its buffer go back to the pool. -/
def clear (c : PagedKvCache ρ) (a : BlockAllocator ρ) : PagedKvCache ρ × BlockAllocator ρ :=
  ({ c with
      pendingWrites := [], contig := none, table := ⟨[], 0, []⟩, contigLen := 0, contigStart := 0 },
    freeAll a c.table.blockIds)

/-- Takes a block of the prefix cache over, before any token is appended. Its slots fit `u32`, since it was
filled by an append. -/
def prepopulateBlock (c : PagedKvCache ρ) (a : BlockAllocator ρ) (id : Nat) :
    PagedKvCache ρ × BlockAllocator ρ :=
  ({ c with table := { c.table with
      blockIds := c.table.blockIds ++ [id]
      cachedSlots := c.table.cachedSlots ++ List.range' (id * c.blockSize) c.blockSize } },
    a.share id)

/-- Drops the sequence back to `n` tokens. -/
def setNumTokens (c : PagedKvCache ρ) (n : Nat) : PagedKvCache ρ :=
  { c with
    table := { c.table with cachedSlots := c.table.cachedSlots.take n, numTokens := n }
    contigLen := c.contigLen - (c.table.numTokens - n) }

/-- `n.div_ceil(block_size)`. -/
def blocksFor (n blockSize : Nat) : Nat := (n + blockSize - 1) / blockSize

/-- Rolls the cache back to `n` tokens, freeing blocks that now hold only dropped tokens. -/
def truncateTo (c : PagedKvCache ρ) (a : BlockAllocator ρ) (n : Nat) :
    Option (PagedKvCache ρ × BlockAllocator ρ) :=
  if n ≥ c.table.numTokens then some (c, a)
  else
    (c.flushPending a).map fun (c, a) =>
      let needed := blocksFor n c.blockSize
      let c' := if needed < c.table.blockIds.length then
          { c with table := { c.table with blockIds := c.table.blockIds.take needed } }
        else c
      let a' := if needed < c.table.blockIds.length then freeAll a (c.table.blockIds.drop needed) else a
      (c'.setNumTokens n, a')

end PagedKvCache

end Oxydllm.Kv
