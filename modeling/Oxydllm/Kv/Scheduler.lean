/-
# Oxydllm.Kv.Scheduler — which sequences run next (`Scheduler`).

Running decodes go first, those that need a block after those that do not; a block is taken from the prefix
cache if need be, and a sequence that gets none is preempted. Prompts are then admitted in order. The
allocators are the layers' pools; a sequence has one cache a layer. Every loop over the prefix cache is
bounded by its entries, every other by the queue it walks.

There is no draft model here.
-/
import Oxydllm.Kv.PagedCache
import Oxydllm.Kv.PrefixCache

namespace Oxydllm.Kv

abbrev SequenceId := Nat

inductive SequencePhase where
  | prefill
  | decode
deriving DecidableEq

inductive SequenceStatus where
  | waiting
  | running
  | finished
deriving DecidableEq

structure SequenceState (ρ : Type) where
  id : SequenceId
  numGenerated : Nat
  allTokens : List Token
  status : SequenceStatus
  phase : SequencePhase
  caches : List (PagedKvCache ρ)
  numProcessedTokens : Nat
  maxTokens : Nat

structure SchedulerConfig where
  maxNumSequences : Nat
  maxTokensPerStep : Nat

structure Scheduler (ρ : Type) where
  config : SchedulerConfig
  waiting : List (SequenceState ρ)
  running : List (SequenceState ρ)
  allocators : List (BlockAllocator ρ)
  nextId : SequenceId
  blockSize : Nat

/-- `Vec::swap_remove`: the last element takes the place of the one removed. -/
def swapRemove {α : Type} (xs : List α) (i : Nat) : List α :=
  match xs.getLast? with
  | some last => (xs.set i last).dropLast
  | none => []

namespace SequenceState

variable {ρ : Type}

/-- One layer's cache after the other gives its blocks back. -/
def clearLayers : List (PagedKvCache ρ) → List (BlockAllocator ρ) →
    List (PagedKvCache ρ) × List (BlockAllocator ρ)
  | c :: cs, a :: as =>
      let r := clearLayers cs as
      ((c.clear a).1 :: r.1, (c.clear a).2 :: r.2)
  | cs, as => (cs, as)

/-- Frees all KV blocks. -/
def clearCaches (seq : SequenceState ρ) (as : List (BlockAllocator ρ)) :
    SequenceState ρ × List (BlockAllocator ρ) :=
  ({ seq with caches := (clearLayers seq.caches as).1 }, (clearLayers seq.caches as).2)

def appendToken (seq : SequenceState ρ) (token : Token) : SequenceState ρ :=
  { seq with allTokens := seq.allTokens ++ [token] }

def applyToken (seq : SequenceState ρ) (isStop : Bool) : SequenceState ρ :=
  if isStop then { seq with status := .finished }
  else
    { seq with
      numGenerated := seq.numGenerated + 1
      status := if seq.numGenerated + 1 ≥ seq.maxTokens then .finished else seq.status }

end SequenceState

namespace Scheduler

variable {ρ : Type}

def new (config : SchedulerConfig) (as : List (BlockAllocator ρ)) : Scheduler ρ :=
  ⟨config, [], [], as, 0, match as with | [] => 16 | a :: _ => a.blockSize⟩

/-- Queues a prompt. -/
def addRequest (s : Scheduler ρ) (prompt : List Token) (maxTokens : Nat) : Scheduler ρ :=
  { s with
    nextId := s.nextId + 1
    waiting := s.waiting ++
      [⟨s.nextId, 0, prompt, .waiting, .prefill, s.allocators.map .new, 0, maxTokens⟩] }

/-- Free blocks of the first layer. -/
def numFreeBlocks (as : List (BlockAllocator ρ)) : Nat :=
  match as with
  | [] => 0
  | a :: _ => a.numFree

def runningIndex (s : Scheduler ρ) (id : SequenceId) : Option Nat :=
  s.running.findIdx? (·.id == id)

section

variable (chainHash : List Token → UInt64 → UInt64)

/-- KV blocks a waiting prompt still needs. -/
def blocksNeededForPrefill (blockSize : Nat) (seq : SequenceState ρ) (cache : PrefixCache) : Nat :=
  let totalTokens := seq.allTokens.length
  let maxCacheable := (totalTokens - 1) / blockSize
  PagedKvCache.blocksFor totalTokens blockSize -
    min (cache.countCachedBlocks chainHash seq.allTokens blockSize) maxCacheable

/-- The next decode token lands on a fresh block boundary. -/
def decodeNeedsNewBlock (blockSize : Nat) (seq : SequenceState ρ) : Bool :=
  seq.numProcessedTokens % blockSize == 0 && 0 < seq.numProcessedTokens

/-- The step being put together. -/
structure Turn (ρ : Type) where
  sched : Scheduler ρ
  cache : PrefixCache
  scheduled : List (SequenceId × SequencePhase)
  budget : Nat
  reserved : Nat

/-- The first loop: the decodes that need no block, and the ids of those that do. -/
def scanRunning (blockSize : Nat) :
    List (SequenceState ρ) → Nat → List (SequenceId × SequencePhase) × List SequenceId × Nat
  | [], budget => ([], [], budget)
  | seq :: rest, budget =>
      if decodeNeedsNewBlock blockSize seq then
        let r := scanRunning blockSize rest budget
        (r.1, seq.id :: r.2.1, r.2.2)
      else if 0 < budget then
        let r := scanRunning blockSize rest (budget - 1)
        ((seq.id, .decode) :: r.1, r.2.1, r.2.2)
      else scanRunning blockSize rest budget

/-- Evicts until a block beyond the reserved ones is free or the prefix cache has nothing left. -/
def evictUntil (reserved : Nat) :
    Nat → PrefixCache → List (BlockAllocator ρ) → PrefixCache × List (BlockAllocator ρ)
  | 0, cache, as => (cache, as)
  | fuel + 1, cache, as =>
      if numFreeBlocks as ≤ reserved then
        match cache.evictLru as with
        | some (cache, as) => evictUntil reserved fuel cache as
        | none => (cache, as)
      else (cache, as)

/-- A running sequence gives its blocks back and queues again, in front. -/
def preempt (s : Scheduler ρ) (i : Nat) : Scheduler ρ :=
  match s.running[i]? with
  | none => s
  | some seq =>
      let r := seq.clearCaches s.allocators
      { s with
        running := swapRemove s.running i
        allocators := r.2
        waiting :=
          { r.1 with numProcessedTokens := 0, phase := .prefill, status := .waiting } :: s.waiting }

/-- One turn of the second loop: a decode that needs a block. -/
def serveBlock (t : Turn ρ) (id : SequenceId) : Turn ρ :=
  let e := evictUntil t.reserved t.cache.entries.entries.length t.cache t.sched.allocators
  let sched := { t.sched with allocators := e.2 }
  if numFreeBlocks e.2 > t.reserved then
    if 0 < t.budget then
      { sched, cache := e.1, scheduled := t.scheduled ++ [(id, .decode)], budget := t.budget - 1,
        reserved := t.reserved + 1 }
    else { t with sched, cache := e.1 }
  else
    { t with
      sched := match sched.runningIndex id with
        | some i => sched.preempt i
        | none => sched
      cache := e.1 }

/-- The eviction loop of an admission: cache, pools, blocks needed and blocks free. -/
def evictFor (blockSize reserved : Nat) (seq : SequenceState ρ) :
    Nat → PrefixCache × List (BlockAllocator ρ) × Nat × Nat →
      PrefixCache × List (BlockAllocator ρ) × Nat × Nat
  | 0, r => r
  | fuel + 1, (cache, as, needed, free) =>
      if needed > free then
        match cache.evictLru as with
        | some (cache, as) =>
            evictFor blockSize reserved seq fuel
              (cache, as, blocksNeededForPrefill chainHash blockSize seq cache,
                numFreeBlocks as - reserved)
        | none => (cache, as, needed, free)
      else (cache, as, needed, free)

/-- The third loop: prompts in order, as long as they fit. -/
def admitWaiting : Nat → Turn ρ → Nat → Bool → Turn ρ
  | 0, t, _, _ => t
  | fuel + 1, t, free, prefillScheduled =>
      if t.sched.running.length < t.sched.config.maxNumSequences ∧ 0 < t.budget then
        match t.sched.waiting with
        | [] => t
        | seq :: waiting =>
            let bs := t.sched.blockSize
            let needed := blocksNeededForPrefill chainHash bs seq t.cache
            let e :=
              if needed > free then
                let cache := t.cache.touch chainHash seq.allTokens bs
                evictFor chainHash bs t.reserved seq cache.entries.entries.length
                  (cache, t.sched.allocators, needed, free)
              else (t.cache, t.sched.allocators, needed, free)
            let t := { t with cache := e.1, sched := { t.sched with allocators := e.2.1 } }
            if e.2.2.1 > e.2.2.2 then t
            else if seq.allTokens.length > t.budget ∧ prefillScheduled then t
            else
              admitWaiting fuel
                { t with
                  sched := { t.sched with
                    waiting
                    running := t.sched.running ++ [{ seq with status := .running, phase := .prefill }] }
                  scheduled := t.scheduled ++ [(seq.id, .prefill)]
                  budget := t.budget - seq.allTokens.length }
                (e.2.2.2 - e.2.2.1) true
      else t

/-- Selects the sequences to run this step. -/
def schedule (s : Scheduler ρ) (cache : PrefixCache) : Turn ρ :=
  let scan := scanRunning s.blockSize s.running s.config.maxTokensPerStep
  let t := scan.2.1.foldl serveBlock ⟨s, cache, scan.1, scan.2.2, 0⟩
  admitWaiting chainHash t.sched.waiting.length t (numFreeBlocks t.sched.allocators - t.reserved) false

end

/-! ## Leaving -/

/-- Removes the running sequence at an index and frees its blocks. -/
def dropRunning (s : Scheduler ρ) (i : Nat) : Scheduler ρ :=
  match s.running[i]? with
  | none => s
  | some seq =>
      { s with running := swapRemove s.running i, allocators := (seq.clearCaches s.allocators).2 }

/-- Removes every finished sequence; returns their ids. -/
def retireFinished (s : Scheduler ρ) : List SequenceId × Scheduler ρ :=
  let finished := (s.running.filter (·.status == .finished)).map (·.id)
  (finished, finished.foldl
    (fun s id => match s.runningIndex id with
      | some i => s.dropRunning i
      | none => s) s)

/-- The blocks of a list of sequences given back. -/
def clearAll (as : List (BlockAllocator ρ)) (seqs : List (SequenceState ρ)) : List (BlockAllocator ρ) :=
  seqs.foldl (fun as seq => (seq.clearCaches as).2) as

def abortAllRunning (s : Scheduler ρ) : List SequenceId × Scheduler ρ :=
  (s.running.map (·.id), { s with running := [], allocators := clearAll s.allocators s.running })

/-- Removes one sequence, running or waiting; returns whether it was found. -/
def abortSequence (s : Scheduler ρ) (id : SequenceId) : Bool × Scheduler ρ :=
  match s.runningIndex id with
  | some i => (true, s.dropRunning i)
  | none =>
      match s.waiting.findIdx? (·.id == id) with
      | some i =>
          match s.waiting[i]? with
          | some seq =>
              (true, { s with
                waiting := s.waiting.eraseIdx i, allocators := (seq.clearCaches s.allocators).2 })
          | none => (false, s)
      | none => (false, s)

def abortAll (s : Scheduler ρ) : List SequenceId × Scheduler ρ :=
  let r := s.abortAllRunning
  (r.1 ++ s.waiting.map (·.id),
    { r.2 with waiting := [], allocators := clearAll r.2.allocators s.waiting })

def hasPendingWork (s : Scheduler ρ) : Bool := !s.waiting.isEmpty || !s.running.isEmpty

end Scheduler

end Oxydllm.Kv
