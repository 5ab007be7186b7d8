/-
# Oxydllm.Serve.KvRetry — sizing a model's KV pool, and loading again with a smaller one.

A pool is sized by `compute_kv_blocks` from what the model could use, what the machine leaves beside its
weights, and what the budget grants. Weights that do not read back after the pool was allocated are loaded
again under half of the bytes the pool holds, so each attempt reserves at most half of what the one before it
did (`loadBatchModel_shrinks`). It may be less than half, since a pool starts with one segment of what is reserved
for it, and an attempt that is dropped keeps its grant (`loadBatchModel_halves_iff`).

The machine's memory, the weights and the device are parameters; bytes are not bounded.
-/
import Oxydllm.Kv.Pool
import Oxydllm.Lib.Traverse
import Oxydllm.Serve.Manager

namespace Oxydllm.Serve.KvRetry

open Kv (BlockAllocator)

/-! ## The bytes of a block -/

def defaultBlockSize : Nat := 16

def divCeil (a b : Nat) : Nat := (a + b - 1) / b

inductive KvQuantMode where
  | auto | off | lossless | balanced | aggressive
deriving DecidableEq

def KvQuantMode.bitWidth : KvQuantMode → Nat
  | .auto | .off => 0
  | .lossless => 4
  | .balanced => 3
  | .aggressive => 2

def quantizedValueBytesPerHead (headDim bitWidth : Nat) : Nat := divCeil (headDim * bitWidth) 8 + 4

def quantizedKeyBytesPerHeadWithQjl (headDim bitWidth : Nat) (qjlQuantization : Bool) : Nat :=
  if qjlQuantization then divCeil (headDim * (bitWidth - 1)) 8 + divCeil headDim 8 + 8
  else divCeil (headDim * bitWidth) 8 + 4

structure KvBlockParams where
  /-- heads and head width of each layer that keeps KV blocks -/
  layerKvSpecs : List (Nat × Nat)
  declaredContext : Nat
  pinnedContext : Option Nat
  maxNumSequences : Nat
  dtypeBytes : Nat
  kvQuant : KvQuantMode
  qjlQuantization : Bool
  weightsBytes : Nat
  retryCap : Option Nat
  memoryBudgetBytes : Option Nat

def resolveKvQuant (p : KvBlockParams) : KvQuantMode := if p.kvQuant = .auto then .off else p.kvQuant

def layerBytesPerBlock (p : KvBlockParams) (mode : KvQuantMode) (spec : Nat × Nat) : Nat :=
  match mode with
  | .auto | .off => defaultBlockSize * spec.1 * spec.2 * p.dtypeBytes * 2
  | mode => defaultBlockSize * spec.1 * (quantizedKeyBytesPerHeadWithQjl spec.2 mode.bitWidth p.qjlQuantization +
      quantizedValueBytesPerHead spec.2 mode.bitWidth)

def kvBytesPerBlock (p : KvBlockParams) (mode : KvQuantMode) : Nat :=
  (p.layerKvSpecs.map (layerBytesPerBlock p mode)).sum

/-! ## Sizing a pool -/

/-- What the machine says of itself. -/
structure Machine where
  safeModelKvCeiling : Nat → Nat
  forwardHeadroomBytes : Nat

def poolCeiling (besideWeights headroom : Nat) : Nat := (besideWeights - headroom) / 2

structure KvPlan where
  numBlocks : Nat
  acquiredBytes : Nat
  mode : KvQuantMode
  contextLen : Nat
deriving DecidableEq

inductive LoadError where
  -- a file, a tensor, a block allocator
  | load
  | kvBudgetExhausted (neededBytes availableBytes : Nat)
  | drain
  | notSurvived
deriving DecidableEq

def fitContextLen (totalSlots sequences declared : Nat) : Nat :=
  min (totalSlots / max sequences 1 / defaultBlockSize * defaultBlockSize) declared

def minBlocks : Nat := 256

def ceiling (machine : Machine) (p : KvBlockParams) : Nat :=
  let ceiling := poolCeiling (machine.safeModelKvCeiling p.weightsBytes) machine.forwardHeadroomBytes
  let ceiling := p.retryCap.elim ceiling (min ceiling)
  p.memoryBudgetBytes.elim ceiling fun budget => min ceiling (budget - p.weightsBytes)

def computeKvBlocks (machine : Machine) (p : KvBlockParams) (kvBudget : GlobalKvBudget) :
    Except LoadError KvPlan × GlobalKvBudget :=
  let targetContext := max (min (p.pinnedContext.getD p.declaredContext) p.declaredContext) 1
  let desiredBlocks := divCeil (p.maxNumSequences * targetContext) defaultBlockSize
  let mode := resolveKvQuant p
  let perBlockBytes := kvBytesPerBlock p mode
  -- no layer keeps KV blocks, so there is nothing to grant
  if perBlockBytes = 0 then (.ok ⟨desiredBlocks, 0, mode, targetContext⟩, kvBudget)
  else
    let cappedBytes := min (max desiredBlocks minBlocks * perBlockBytes) (ceiling machine p)
    let grantedBytes := (kvBudget.acquire cappedBytes).1
    let kvBudget := (kvBudget.acquire cappedBytes).2
    let grantedBlocks := grantedBytes / perBlockBytes
    -- what is granted below the floor is given back
    if grantedBlocks < minBlocks then
      (.error (.kvBudgetExhausted (minBlocks * perBlockBytes) (grantedBlocks * perBlockBytes)),
        kvBudget.release grantedBytes)
    else
      let contextLen := p.pinnedContext.elim
        (max (fitContextLen (grantedBlocks * defaultBlockSize) p.maxNumSequences p.declaredContext) defaultBlockSize)
        fun pinned => max (min pinned p.declaredContext) 1
      (.ok ⟨grantedBlocks, grantedBytes, mode, contextLen⟩, kvBudget)

/-! ## The pools of a model -/

/-- The pool of a layer, with what lays out its blocks. -/
structure LayerPool where
  allocator : BlockAllocator Unit
  nKvHeads : Nat
  headDim : Nat
  dtypeBytes : Nat
  /-- the quantizer's bits and whether it corrects its keys -/
  quantizer : Option (Nat × Bool)

namespace LayerPool

def packedBytesForBits (headDim bitWidth : Nat) : Nat := divCeil (headDim * bitWidth) 8

def keyPackedBytes (headDim bitWidth : Nat) (qjl : Bool) : Nat :=
  if qjl then packedBytesForBits headDim (bitWidth - 1) + packedBytesForBits headDim 1
  else packedBytesForBits headDim bitWidth

def bytesPerBlock (l : LayerPool) : Nat :=
  let heads := l.allocator.blockSize * l.nKvHeads
  match l.quantizer with
  | none => 2 * heads * l.headDim * l.dtypeBytes
  | some (bits, qjl) =>
      heads * (keyPackedBytes l.headDim bits qjl + packedBytesForBits l.headDim bits + (if qjl then 3 else 2) * 4)

def poolBytes (l : LayerPool) : Nat := l.allocator.numBlocks * l.bytesPerBlock

def reservedBytes (l : LayerPool) : Nat := l.allocator.maxBlocks * l.bytesPerBlock

/-- The first segment of a layer's pool; the device says whether it backs it. -/
def growing (p : KvBlockParams) (plan : KvPlan) (device : Bool) (spec : Nat × Nat) : Option LayerPool :=
  (BlockAllocator.growing plan.numBlocks (max (divCeil plan.contextLen defaultBlockSize) 1) defaultBlockSize none
    fun _ => device).map fun allocator =>
      ⟨allocator, spec.1, spec.2, p.dtypeBytes,
        if plan.mode = .auto ∨ plan.mode = .off then none else some (plan.mode.bitWidth, p.qjlQuantization)⟩

end LayerPool

structure LoadedModel where
  plan : KvPlan
  allocators : List LayerPool

/-- The bytes that the pools hold. -/
def kvPoolBytes (model : LoadedModel) : Nat := (model.allocators.map LayerPool.poolBytes).sum

/-- The bytes that were reserved for the pools. -/
def kvReservedBytes (model : LoadedModel) : Nat := (model.allocators.map LayerPool.reservedBytes).sum

/-! ## Loading -/

/-- What an attempt meets. -/
structure Attempt where
  /-- the files and the weights are read -/
  read : Bool
  /-- which layers' first segments the device backs -/
  device : Nat → Bool
  /-- the rest of the model is built -/
  built : Bool
  drained : Bool
  /-- the weights read back the same twice -/
  consistent : Bool

def Attempt.verified (a : Attempt) : Bool := a.drained && a.consistent

/-- The pools of the layers; there has to be one. -/
def pools (p : KvBlockParams) (plan : KvPlan) (device : Nat → Bool) : Option (List LayerPool) :=
  if p.layerKvSpecs.isEmpty then none
  else p.layerKvSpecs.zipIdx.mapM fun spec => LayerPool.growing p plan (device spec.2) spec.1

/-- One attempt: `load_standard_safetensors` and `load_batch_model_gguf`, which size the pool and release it
again when the model cannot be built. -/
def loadOnce (machine : Machine) (p : KvBlockParams) (a : Attempt) (kvBudget : GlobalKvBudget) :
    Except LoadError LoadedModel × GlobalKvBudget :=
  if !a.read then (.error .load, kvBudget)
  else
    match computeKvBlocks machine p kvBudget with
    | (.error e, kvBudget) => (.error e, kvBudget)
    | (.ok plan, kvBudget) =>
        match if a.built then pools p plan a.device else none with
        | some allocators => (.ok ⟨plan, allocators⟩, kvBudget)
        | none => (.error .load, kvBudget.release plan.acquiredBytes)

/-- A load: the plans of the attempts that came to size a pool, and what is returned. -/
structure Load where
  plans : List (Except LoadError KvPlan)
  result : Except LoadError LoadedModel
  kvBudget : GlobalKvBudget

def sized (machine : Machine) (p : KvBlockParams) (a : Attempt) (kvBudget : GlobalKvBudget) :
    List (Except LoadError KvPlan) :=
  if a.read then [(computeKvBlocks machine p kvBudget).1] else []

def kvRetryHalvings : Nat := 4

/-- The attempts from the one of number `attempt` on, with as many halvings left. -/
def loadFrom (machine : Machine) (p : KvBlockParams) (attempts : Nat → Attempt) :
    Nat → Nat → Option Nat → GlobalKvBudget → Load
  | halvings, attempt, cap, kvBudget =>
      let plans := sized machine { p with retryCap := cap } (attempts attempt) kvBudget
      match loadOnce machine { p with retryCap := cap } (attempts attempt) kvBudget with
      | (.error e, kvBudget) => ⟨plans, .error e, kvBudget⟩
      | (.ok model, kvBudget) =>
          if (attempts attempt).verified then ⟨plans, .ok model, kvBudget⟩
          else
            let failed := if (attempts attempt).drained then LoadError.notSurvived else .drain
            match halvings with
            | 0 => ⟨plans, .error failed, kvBudget⟩
            -- the model is dropped here; nothing releases what it was granted
            | halvings + 1 =>
                if kvPoolBytes model = 0 then ⟨plans, .error failed, kvBudget⟩
                else
                  let rest := loadFrom machine p attempts halvings (attempt + 1) (some (kvPoolBytes model / 2)) kvBudget
                  { rest with plans := plans ++ rest.plans }

def loadBatchModel (machine : Machine) (p : KvBlockParams) (attempts : Nat → Attempt) (kvBudget : GlobalKvBudget) : Load :=
  loadFrom machine p attempts kvRetryHalvings 0 none kvBudget

/-! ## What a retry should do -/

/-- Half of the bytes another plan reserves, in whole blocks, or the floor's error when that is below it. -/
def HalfOf (perBlock : Nat) (prev : KvPlan) : Except LoadError KvPlan → Prop
  | .ok next => next.numBlocks * perBlock = prev.numBlocks * perBlock / 2 / perBlock * perBlock
  | .error _ => prev.numBlocks * perBlock / 2 / perBlock < minBlocks

/-- The bytes that a result keeps of the budget. -/
def keptBytes : Except LoadError LoadedModel → Nat
  | .ok model => model.plan.acquiredBytes
  | .error _ => 0

/-- Every attempt after a failed one halves the pool, and the budget grows by what the result keeps. -/
structure Halves (perBlock : Nat) (kvBudget : GlobalKvBudget) (load : Load) : Prop where
  half : ∀ i prev next, load.plans[i]? = some (.ok prev) → load.plans[i + 1]? = some next → HalfOf perBlock prev next
  grown : load.kvBudget.allocatedBytes = kvBudget.allocatedBytes + keptBytes load.result

/-- The first attempt comes to a model with a KV pool, and drops it. -/
structure FirstDropped (machine : Machine) (p : KvBlockParams) (a : Attempt) (kvBudget : GlobalKvBudget) : Prop where
  read : a.read = true
  bytes : kvBytesPerBlock p (resolveKvQuant p) ≠ 0
  floor : minBlocks * kvBytesPerBlock p (resolveKvQuant p) ≤
    min (ceiling machine { p with retryCap := none }) kvBudget.availableBytes
  built : a.built = true
  device : ∀ i < p.layerKvSpecs.length, a.device i = true
  unverified : a.verified = false

/-! ## Bytes -/

section

variable {machine : Machine} {p : KvBlockParams} {kvBudget kvBudget' : GlobalKvBudget}

/-- A pool's block takes the bytes that it was sized with. -/
theorem growing_bytes {plan : KvPlan} {device : Bool} {spec : Nat × Nat} {l : LayerPool}
    (h : LayerPool.growing p plan device spec = some l) : l.bytesPerBlock = layerBytesPerBlock p plan.mode spec := by
  obtain ⟨a, ha, rfl⟩ := Option.map_eq_some_iff.1 h
  have hblock : a.blockSize = defaultBlockSize := (BlockAllocator.growing_geometry ha).1
  have hexact : 2 * (defaultBlockSize * spec.1) * spec.2 * p.dtypeBytes =
      defaultBlockSize * spec.1 * spec.2 * p.dtypeBytes * 2 := by ring
  have hpacked : ∀ bits : Nat, LayerPool.keyPackedBytes spec.2 bits p.qjlQuantization +
      LayerPool.packedBytesForBits spec.2 bits + (if p.qjlQuantization then 3 else 2) * 4 =
        quantizedKeyBytesPerHeadWithQjl spec.2 bits p.qjlQuantization + quantizedValueBytesPerHead spec.2 bits := by
    intro bits
    unfold LayerPool.keyPackedBytes LayerPool.packedBytesForBits quantizedKeyBytesPerHeadWithQjl
      quantizedValueBytesPerHead
    cases p.qjlQuantization with
    | true =>
        simp only [if_true, Nat.mul_one]
        omega
    | false =>
        simp only [Bool.false_eq_true, if_false]
        omega
  unfold LayerPool.bytesPerBlock layerBytesPerBlock
  dsimp only
  rw [hblock]
  cases plan.mode with
  | auto => exact hexact
  | off => exact hexact
  | lossless => exact congrArg (defaultBlockSize * spec.1 * ·) (hpacked _)
  | balanced => exact congrArg (defaultBlockSize * spec.1 * ·) (hpacked _)
  | aggressive => exact congrArg (defaultBlockSize * spec.1 * ·) (hpacked _)

theorem acquire_release (b : GlobalKvBudget) (desired : Nat) :
    ((b.acquire desired).2.release (b.acquire desired).1).allocatedBytes = b.allocatedBytes := by
  show b.allocatedBytes + (b.acquire desired).1 - (b.acquire desired).1 = b.allocatedBytes
  exact Nat.add_sub_cancel _ _

/-- What a plan takes of the budget; a pool that needs bytes gets some. -/
theorem computeKvBlocks_ok {plan : KvPlan} (h : computeKvBlocks machine p kvBudget = (.ok plan, kvBudget')) :
    plan.mode = resolveKvQuant p ∧ kvBudget'.allocatedBytes = kvBudget.allocatedBytes + plan.acquiredBytes ∧
      (0 < plan.acquiredBytes ↔ kvBytesPerBlock p (resolveKvQuant p) ≠ 0) := by
  unfold computeKvBlocks at h
  dsimp only at h
  split at h
  · rename_i hzero
    cases h
    exact ⟨rfl, rfl, by simp [hzero]⟩
  · rename_i hbytes
    split at h
    · cases h
    · rename_i hmin
      cases h
      refine ⟨rfl, rfl, fun _ => hbytes, fun _ => ?_⟩
      by_contra hzero
      dsimp only at hzero
      rw [Nat.eq_zero_of_not_pos hzero, Nat.zero_div] at hmin
      exact hmin (by decide)

/-- A pool that needs bytes has its floor, in bytes that were granted. -/
theorem computeKvBlocks_blocks {plan : KvPlan} (h : computeKvBlocks machine p kvBudget = (.ok plan, kvBudget'))
    (hbytes : kvBytesPerBlock p (resolveKvQuant p) ≠ 0) :
    minBlocks ≤ plan.numBlocks ∧ plan.numBlocks * kvBytesPerBlock p (resolveKvQuant p) ≤ ceiling machine p := by
  unfold computeKvBlocks at h
  dsimp only [GlobalKvBudget.acquire] at h
  rw [if_neg hbytes] at h
  split at h
  · cases h
  · rename_i hmin
    cases h
    refine ⟨Nat.le_of_not_lt hmin, ?_⟩
    calc _ ≤ min (min _ (ceiling machine p)) kvBudget.availableBytes := Nat.div_mul_le_self _ _
      _ ≤ min _ (ceiling machine p) := Nat.min_le_left _ _
      _ ≤ ceiling machine p := Nat.min_le_right _ _

theorem computeKvBlocks_error {e : LoadError} (h : computeKvBlocks machine p kvBudget = (.error e, kvBudget')) :
    kvBudget'.allocatedBytes = kvBudget.allocatedBytes := by
  unfold computeKvBlocks at h
  dsimp only at h
  split at h
  · cases h
  · split at h
    · cases h
      exact acquire_release kvBudget _
    · cases h

theorem loadOnce_ok {a : Attempt} {model : LoadedModel} (h : loadOnce machine p a kvBudget = (.ok model, kvBudget')) :
    computeKvBlocks machine p kvBudget = (.ok model.plan, kvBudget') ∧
      pools p model.plan a.device = some model.allocators := by
  unfold loadOnce at h
  split at h
  · cases h
  · split at h
    · cases h
    · rename_i plan b hplan
      split at h
      · rename_i allocators hpools
        cases h
        obtain ⟨-, hpools⟩ := Option.ite_none_right_eq_some.1 hpools
        exact ⟨hplan, hpools⟩
      · cases h

/-- A failed attempt gives back what it took. -/
theorem loadOnce_error {a : Attempt} {e : LoadError} (h : loadOnce machine p a kvBudget = (.error e, kvBudget')) :
    kvBudget'.allocatedBytes = kvBudget.allocatedBytes := by
  unfold loadOnce at h
  split at h
  · cases h
    rfl
  · split at h
    · rename_i e' b hplan
      cases h
      exact computeKvBlocks_error hplan
    · rename_i plan b hplan
      split at h
      · cases h
      · cases h
        show b.allocatedBytes - plan.acquiredBytes = _
        rw [(computeKvBlocks_ok hplan).2.1, Nat.add_sub_cancel]

/-- A plan is made where the ceiling and the budget leave room for the floor. -/
theorem computeKvBlocks_ok_iff (hbytes : kvBytesPerBlock p (resolveKvQuant p) ≠ 0) :
    (∃ plan kvBudget', computeKvBlocks machine p kvBudget = (.ok plan, kvBudget')) ↔
      minBlocks * kvBytesPerBlock p (resolveKvQuant p) ≤ min (ceiling machine p) kvBudget.availableBytes := by
  have hdesired : ∀ desired : Nat, minBlocks * kvBytesPerBlock p (resolveKvQuant p) ≤
      max desired minBlocks * kvBytesPerBlock p (resolveKvQuant p) := fun desired =>
    Nat.mul_le_mul_right _ (Nat.le_max_right _ _)
  unfold computeKvBlocks
  dsimp only [GlobalKvBudget.acquire]
  rw [if_neg hbytes]
  split
  next hlow =>
    rw [Nat.div_lt_iff_lt_mul (Nat.pos_of_ne_zero hbytes)] at hlow
    refine ⟨fun ⟨_, _, h⟩ => (by cases h), fun h => ?_⟩
    have := hdesired (divCeil (p.maxNumSequences * max (min (p.pinnedContext.getD p.declaredContext) p.declaredContext) 1)
      defaultBlockSize)
    omega
  next hlow =>
    rw [Nat.div_lt_iff_lt_mul (Nat.pos_of_ne_zero hbytes)] at hlow
    exact ⟨fun _ => by omega, fun _ => ⟨_, _, rfl⟩⟩

theorem growing_isSome {plan : KvPlan} (hblocks : 0 < plan.numBlocks) (device : Bool) (spec : Nat × Nat) :
    (LayerPool.growing p plan device spec).isSome = device := by
  unfold LayerPool.growing BlockAllocator.growing BlockAllocator.grow
  rw [Option.isSome_map, if_pos hblocks, if_neg (by dsimp only; omega)]
  cases device <;> rfl

/-- The pools of a model with layers are allocated where the device backs all of them. -/
theorem pools_isSome_iff {plan : KvPlan} (hblocks : 0 < plan.numBlocks) (hlayers : p.layerKvSpecs ≠ [])
    (device : Nat → Bool) : (pools p plan device).isSome ↔ ∀ i < p.layerKvSpecs.length, device i = true := by
  unfold pools
  rw [if_neg (by simpa using hlayers), Traverse.isSome_mapM_iff]
  simp only [growing_isSome hblocks]
  constructor
  · intro h i hi
    exact h (p.layerKvSpecs[i], i) (List.mk_mem_zipIdx_iff_getElem?.2 (List.getElem?_eq_getElem hi))
  · intro h spec hspec
    exact h spec.2 (List.getElem?_eq_some_iff.1 (List.mk_mem_zipIdx_iff_getElem?.1 hspec)).1

theorem loadOnce_ok_iff (hbytes : kvBytesPerBlock p (resolveKvQuant p) ≠ 0) (a : Attempt) :
    (∃ model kvBudget', loadOnce machine p a kvBudget = (.ok model, kvBudget')) ↔
      a.read = true ∧ minBlocks * kvBytesPerBlock p (resolveKvQuant p) ≤
        min (ceiling machine p) kvBudget.availableBytes ∧
      a.built = true ∧ ∀ i < p.layerKvSpecs.length, a.device i = true := by
  have hlayers : p.layerKvSpecs ≠ [] := fun h => hbytes (by rw [kvBytesPerBlock, h]; rfl)
  rw [← computeKvBlocks_ok_iff hbytes]
  unfold loadOnce
  cases a.read with
  | false => simp
  | true =>
      rw [if_neg (by decide)]
      cases hplan : computeKvBlocks machine p kvBudget with
      | mk plan b =>
          cases plan with
          | error e => simp
          | ok plan =>
              rw [← pools_isSome_iff (Nat.lt_of_lt_of_le (by decide) (computeKvBlocks_blocks hplan hbytes).1) hlayers]
              cases a.built with
              | false => simp
              | true => cases hpools : pools p plan a.device <;> simp [hpools]

/-- Without KV bytes the pools hold none. -/
theorem kvPoolBytes_zero {a : Attempt} {model : LoadedModel}
    (h : loadOnce machine p a kvBudget = (.ok model, kvBudget')) (hzero : kvBytesPerBlock p (resolveKvQuant p) = 0) :
    kvPoolBytes model = 0 := by
  obtain ⟨hplan, hpools⟩ := loadOnce_ok h
  have hmode := (computeKvBlocks_ok hplan).1
  unfold pools at hpools
  obtain ⟨-, hpools⟩ := Option.ite_none_left_eq_some.1 hpools
  unfold kvPoolBytes
  refine List.sum_eq_zero fun bytes hbytes => ?_
  obtain ⟨l, hl, rfl⟩ := List.mem_map.1 hbytes
  obtain ⟨⟨spec, i⟩, hspec, hgrow⟩ := Traverse.mem_of_mapM hpools hl
  have hlayer : layerBytesPerBlock p model.plan.mode spec = 0 := by
    rw [hmode]
    exact List.sum_eq_zero_iff.1 hzero _ (List.mem_map_of_mem (List.fst_mem_of_mem_zipIdx hspec))
  show l.allocator.numBlocks * l.bytesPerBlock = 0
  rw [growing_bytes hgrow, hlayer, Nat.mul_zero]

theorem growing_below {plan : KvPlan} {device : Bool} {spec : Nat × Nat} {l : LayerPool}
    (h : LayerPool.growing p plan device spec = some l) :
    l.allocator.maxBlocks = plan.numBlocks ∧ l.allocator.numBlocks ≤ l.allocator.maxBlocks := by
  obtain ⟨a, ha, rfl⟩ := Option.map_eq_some_iff.1 h
  dsimp only
  unfold BlockAllocator.growing at ha
  split at ha
  · unfold BlockAllocator.grow at ha
    obtain ⟨-, ha⟩ := Option.ite_none_left_eq_some.1 ha
    obtain ⟨-, ha⟩ := Option.ite_none_right_eq_some.1 ha
    cases ha
    refine ⟨rfl, ?_⟩
    dsimp only
    omega
  · cases ha
    exact ⟨rfl, Nat.zero_le _⟩

/-- What the pools of a model reserve are its plan's blocks. -/
theorem kvReservedBytes_eq {a : Attempt} {model : LoadedModel} (h : loadOnce machine p a kvBudget = (.ok model, kvBudget')) :
    kvReservedBytes model = model.plan.numBlocks * kvBytesPerBlock p (resolveKvQuant p) := by
  obtain ⟨hplan, hpools⟩ := loadOnce_ok h
  unfold pools at hpools
  obtain ⟨-, hpools⟩ := Option.ite_none_left_eq_some.1 hpools
  have hlayers : model.allocators.map LayerPool.reservedBytes =
      p.layerKvSpecs.zipIdx.map fun spec => model.plan.numBlocks * layerBytesPerBlock p model.plan.mode spec.1 :=
    Traverse.map_of_mapM hpools fun spec l hgrow => by
      rw [LayerPool.reservedBytes, growing_bytes hgrow, (growing_below hgrow).1]
  calc kvReservedBytes model
      = (p.layerKvSpecs.zipIdx.map fun spec => model.plan.numBlocks * layerBytesPerBlock p model.plan.mode spec.1).sum :=
        congrArg List.sum hlayers
    _ = model.plan.numBlocks * (p.layerKvSpecs.zipIdx.map fun spec => layerBytesPerBlock p model.plan.mode spec.1).sum :=
        List.sum_map_mul_left _ _ _
    _ = model.plan.numBlocks * kvBytesPerBlock p (resolveKvQuant p) := by
        rw [← (computeKvBlocks_ok hplan).1, kvBytesPerBlock]
        conv_rhs => rw [← List.zipIdx_map_fst 0 p.layerKvSpecs, List.map_map]
        rfl

/-- A pool holds no more than was reserved for it. -/
theorem kvPoolBytes_le {a : Attempt} {model : LoadedModel} (h : loadOnce machine p a kvBudget = (.ok model, kvBudget')) :
    kvPoolBytes model ≤ kvReservedBytes model := by
  obtain ⟨-, hpools⟩ := loadOnce_ok h
  unfold pools at hpools
  obtain ⟨-, hpools⟩ := Option.ite_none_left_eq_some.1 hpools
  refine List.sum_le_sum fun l hl => ?_
  obtain ⟨spec, -, hgrow⟩ := Traverse.mem_of_mapM hpools hl
  exact Nat.mul_le_mul_right _ (growing_below hgrow).2

/-! ## The run -/

theorem sized_length (machine : Machine) (p : KvBlockParams) (a : Attempt) (kvBudget : GlobalKvBudget) :
    (sized machine p a kvBudget).length ≤ 1 := by
  unfold sized
  split
  · exact le_rfl
  · exact Nat.zero_le _

theorem sized_of_ok {a : Attempt} {model : LoadedModel} (h : loadOnce machine p a kvBudget = (.ok model, kvBudget')) :
    sized machine p a kvBudget = [.ok model.plan] := by
  have hread : a.read = true := by
    by_contra hread
    unfold loadOnce at h
    rw [Bool.not_eq_true] at hread
    rw [hread] at h
    cases h
  rw [sized, if_pos hread, (loadOnce_ok h).1]

/-- What an attempt comes to: an error, a model whose weights survive, a last one whose weights do not, or a
model that is dropped for the next attempt. -/
theorem loadFrom_cases (machine : Machine) (p : KvBlockParams) (attempts : Nat → Attempt) (halvings attempt : Nat)
    (cap : Option Nat) (kvBudget : GlobalKvBudget) :
    let load := loadFrom machine p attempts halvings attempt cap kvBudget
    let plans := sized machine { p with retryCap := cap } (attempts attempt) kvBudget
    (∃ e, loadOnce machine { p with retryCap := cap } (attempts attempt) kvBudget = (.error e, load.kvBudget) ∧
        load.result = .error e ∧ load.plans = plans) ∨
      ∃ model kvBudget', loadOnce machine { p with retryCap := cap } (attempts attempt) kvBudget = (.ok model, kvBudget') ∧
        (((attempts attempt).verified = true ∧ load.result = .ok model ∧ load.kvBudget = kvBudget' ∧
            load.plans = plans) ∨
          ((attempts attempt).verified = false ∧ (∃ e, load.result = .error e) ∧ load.kvBudget = kvBudget' ∧
            load.plans = plans) ∨
          ((attempts attempt).verified = false ∧ kvPoolBytes model ≠ 0 ∧ ∃ left, halvings = left + 1 ∧
            let rest := loadFrom machine p attempts left (attempt + 1) (some (kvPoolBytes model / 2)) kvBudget'
            load.result = rest.result ∧ load.kvBudget = rest.kvBudget ∧ load.plans = plans ++ rest.plans)) := by
  intro load plans
  have hload : load = loadFrom machine p attempts halvings attempt cap kvBudget := rfl
  clear_value load
  unfold loadFrom at hload
  dsimp only at hload
  split at hload
  next e kvBudget' honce =>
    rw [hload]
    exact .inl ⟨e, honce, rfl, rfl⟩
  next model kvBudget' honce =>
    refine .inr ⟨model, kvBudget', honce, ?_⟩
    split at hload
    next hverified =>
      rw [hload]
      exact .inl ⟨hverified, rfl, rfl, rfl⟩
    next hverified =>
      have hfalse : (attempts attempt).verified = false := Bool.eq_false_iff.2 hverified
      cases halvings with
      | zero =>
          rw [hload]
          exact .inr (.inl ⟨hfalse, ⟨_, rfl⟩, rfl, rfl⟩)
      | succ left =>
          dsimp only at hload
          split at hload
          · rw [hload]
            exact .inr (.inl ⟨hfalse, ⟨_, rfl⟩, rfl, rfl⟩)
          next hbytes =>
            rw [hload]
            exact .inr (.inr ⟨hfalse, hbytes, left, rfl, rfl, rfl, rfl⟩)

/-- Whatever comes before it, the budget holds what the result keeps. -/
theorem loadFrom_grows (machine : Machine) (p : KvBlockParams) (attempts : Nat → Attempt) (halvings attempt : Nat)
    (cap : Option Nat) (kvBudget : GlobalKvBudget) :
    kvBudget.allocatedBytes + keptBytes (loadFrom machine p attempts halvings attempt cap kvBudget).result ≤
      (loadFrom machine p attempts halvings attempt cap kvBudget).kvBudget.allocatedBytes := by
  induction halvings using Nat.strong_induction_on generalizing attempt cap kvBudget with
  | _ halvings ih =>
      rcases loadFrom_cases machine p attempts halvings attempt cap kvBudget with
        ⟨e, honce, hresult, -⟩ | ⟨model, kvBudget', honce, ⟨-, hresult, hbudget, -⟩ | ⟨-, ⟨e, hresult⟩, hbudget, -⟩ |
          ⟨-, -, left, hleft, hresult, hbudget, -⟩⟩
      · rw [hresult, loadOnce_error honce]
        exact le_rfl
      · rw [hresult, hbudget, (computeKvBlocks_ok (loadOnce_ok honce).1).2.1]
        exact le_rfl
      · rw [hresult, hbudget, (computeKvBlocks_ok (loadOnce_ok honce).1).2.1]
        exact Nat.le_add_right _ _
      · -- the grant of the dropped attempt stays below what the rest takes
        have hrest := ih left (by omega) (attempt + 1) (some (kvPoolBytes model / 2)) kvBudget'
        rw [(computeKvBlocks_ok (loadOnce_ok honce).1).2.1] at hrest
        rw [hresult, hbudget]
        omega

/-- What is planned under a cap keeps to it. -/
theorem sized_le {a : Attempt} {cap : Nat} {plan : KvPlan}
    (h : .ok plan ∈ sized machine { p with retryCap := some cap } a kvBudget) :
    plan.numBlocks * kvBytesPerBlock p (resolveKvQuant p) ≤ cap := by
  by_cases hbytes : kvBytesPerBlock p (resolveKvQuant p) = 0
  · rw [hbytes]
    exact Nat.zero_le _
  · unfold sized at h
    split at h
    · have hplan := List.mem_singleton.1 h
      have hceiling : ceiling machine { p with retryCap := some cap } ≤ cap := by
        unfold ceiling
        dsimp only [Option.elim]
        split
        · exact (Nat.min_le_left _ _).trans (Nat.min_le_right _ _)
        · exact Nat.min_le_right _ _
      exact (computeKvBlocks_blocks (Prod.ext hplan.symm rfl) hbytes).2.trans hceiling
    · cases h

/-- The first plan keeps to a cap, and each later one to half of what the one before it reserves. -/
structure Shrinks (perBlock : Nat) (cap : Option Nat) (plans : List (Except LoadError KvPlan)) : Prop where
  first : ∀ (plan : KvPlan) (c : Nat), plans[0]? = some (.ok plan) → cap = some c → plan.numBlocks * perBlock ≤ c
  later : ∀ (i : Nat) (prev next : KvPlan), plans[i]? = some (.ok prev) → plans[i + 1]? = some (.ok next) →
    next.numBlocks * perBlock ≤ prev.numBlocks * perBlock / 2

theorem Shrinks.of_sized {cap : Option Nat} {a : Attempt} :
    Shrinks (kvBytesPerBlock p (resolveKvQuant p)) cap (sized machine { p with retryCap := cap } a kvBudget) := by
  refine ⟨fun plan c hplan hcap => ?_, fun i prev next _ hnext => ?_⟩
  · subst hcap
    exact sized_le (List.mem_of_getElem? hplan)
  · have hlt := (List.getElem?_eq_some_iff.1 hnext).1
    have hlen := sized_length machine { p with retryCap := cap } a kvBudget
    omega

theorem loadFrom_shrinks (machine : Machine) (p : KvBlockParams) (attempts : Nat → Attempt) (halvings attempt : Nat)
    (cap : Option Nat) (kvBudget : GlobalKvBudget) :
    Shrinks (kvBytesPerBlock p (resolveKvQuant p)) cap
      (loadFrom machine p attempts halvings attempt cap kvBudget).plans := by
  induction halvings using Nat.strong_induction_on generalizing attempt cap kvBudget with
  | _ halvings ih =>
      rcases loadFrom_cases machine p attempts halvings attempt cap kvBudget with
        ⟨e, -, -, hplans⟩ | ⟨model, kvBudget', honce, ⟨-, -, -, hplans⟩ | ⟨-, -, -, hplans⟩ |
          ⟨-, -, left, hleft, -, -, hplans⟩⟩
      · rw [hplans]
        exact .of_sized
      · rw [hplans]
        exact .of_sized
      · rw [hplans]
        exact .of_sized
      · have hrest := ih left (by omega) (attempt + 1) (some (kvPoolBytes model / 2)) kvBudget'
        have hthis : Shrinks (kvBytesPerBlock p (resolveKvQuant p)) cap [.ok model.plan] := by
          rw [← sized_of_ok honce]
          exact .of_sized
        rw [hplans, sized_of_ok honce, List.singleton_append]
        refine ⟨fun plan c hplan hcap => hthis.first plan c hplan hcap, fun i prev next hprev hnext => ?_⟩
        cases i with
        | zero =>
            cases hprev
            calc next.numBlocks * kvBytesPerBlock p (resolveKvQuant p)
                ≤ kvPoolBytes model / 2 := hrest.first next _ hnext rfl
              _ ≤ kvReservedBytes model / 2 := Nat.div_le_div_right (kvPoolBytes_le honce)
              _ = model.plan.numBlocks * kvBytesPerBlock p (resolveKvQuant p) / 2 := by
                  rw [kvReservedBytes_eq honce]
                  rfl
        | succ i => exact hrest.later i prev next hprev hnext

/-- Each attempt after a dropped one reserves at most half of what that one reserved. -/
theorem loadBatchModel_shrinks (machine : Machine) (p : KvBlockParams) (attempts : Nat → Attempt)
    (kvBudget : GlobalKvBudget) (i : Nat) {prev next : KvPlan}
    (hprev : (loadBatchModel machine p attempts kvBudget).plans[i]? = some (.ok prev))
    (hnext : (loadBatchModel machine p attempts kvBudget).plans[i + 1]? = some (.ok next)) :
    next.numBlocks * kvBytesPerBlock p (resolveKvQuant p) ≤
      prev.numBlocks * kvBytesPerBlock p (resolveKvQuant p) / 2 :=
  (loadFrom_shrinks machine p attempts kvRetryHalvings 0 none kvBudget).later i prev next hprev hnext

theorem firstDropped_iff (a : Attempt) : FirstDropped machine p a kvBudget ↔
    kvBytesPerBlock p (resolveKvQuant p) ≠ 0 ∧ a.verified = false ∧
      ∃ model kvBudget', loadOnce machine { p with retryCap := none } a kvBudget = (.ok model, kvBudget') := by
  constructor
  · rintro ⟨hread, hbytes, hfloor, hbuilt, hdevice, hverified⟩
    have hbytes' : kvBytesPerBlock { p with retryCap := none } (resolveKvQuant { p with retryCap := none }) ≠ 0 := hbytes
    exact ⟨hbytes, hverified, (loadOnce_ok_iff hbytes' a).2 ⟨hread, hfloor, hbuilt, hdevice⟩⟩
  · rintro ⟨hbytes, hverified, hmodel⟩
    have hbytes' : kvBytesPerBlock { p with retryCap := none } (resolveKvQuant { p with retryCap := none }) ≠ 0 := hbytes
    obtain ⟨hread, hfloor, hbuilt, hdevice⟩ := (loadOnce_ok_iff hbytes' a).1 hmodel
    exact ⟨hread, hbytes, hfloor, hbuilt, hdevice, hverified⟩

/-- A load of one attempt halves nothing. -/
theorem Halves.of_single {perBlock : Nat} {load : Load} {a : Attempt} (hplans : load.plans = sized machine p a kvBudget)
    (hgrown : load.kvBudget.allocatedBytes = kvBudget.allocatedBytes + keptBytes load.result) :
    Halves perBlock kvBudget load := by
  refine ⟨fun i prev next _ hnext => ?_, hgrown⟩
  have hlt := (List.getElem?_eq_some_iff.1 hnext).1
  have hlen := sized_length machine p a kvBudget
  rw [hplans] at hlt
  omega

/-- A load does what a retry should exactly when its first attempt drops no pool. -/
theorem loadBatchModel_halves_iff (machine : Machine) (p : KvBlockParams) (attempts : Nat → Attempt)
    (kvBudget : GlobalKvBudget) :
    Halves (kvBytesPerBlock p (resolveKvQuant p)) kvBudget (loadBatchModel machine p attempts kvBudget) ↔
      ¬ FirstDropped machine p (attempts 0) kvBudget := by
  rw [firstDropped_iff]
  unfold loadBatchModel
  rcases loadFrom_cases machine p attempts kvRetryHalvings 0 none kvBudget with
    ⟨e, honce, hresult, hplans⟩ | ⟨model, kvBudget', honce, hmodel⟩
  · refine ⟨fun _ => ?_, fun _ => .of_single hplans ?_⟩
    · rintro ⟨-, -, model, kvBudget', hok⟩
      rw [honce] at hok
      cases hok
    · rw [hresult, loadOnce_error honce]
      rfl
  · obtain ⟨-, hacquired, hpos⟩ := computeKvBlocks_ok (loadOnce_ok honce).1
    rcases hmodel with ⟨hverified, hresult, hbudget, hplans⟩ | ⟨hverified, ⟨e, hresult⟩, hbudget, hplans⟩ |
      ⟨hverified, hbytes, left, -, hresult, hbudget, -⟩
    · refine ⟨fun _ => ?_, fun _ => .of_single hplans ?_⟩
      · rintro ⟨-, hfalse, -⟩
        rw [hverified] at hfalse
        cases hfalse
      · rw [hresult, hbudget, hacquired]
        rfl
    · constructor
      · rintro h ⟨hbytes, -, -⟩
        have hgrown := h.grown
        rw [hresult, hbudget, hacquired] at hgrown
        have hsome := hpos.2 hbytes
        simp only [keptBytes] at hgrown
        omega
      · intro hkept
        have hzero : kvBytesPerBlock p (resolveKvQuant p) = 0 :=
          by_contra fun hbytes => hkept ⟨hbytes, hverified, model, kvBudget', honce⟩
        have hnone : model.plan.acquiredBytes = 0 := by
          by_contra hne
          exact hpos.1 (Nat.pos_of_ne_zero hne) hzero
        refine .of_single hplans ?_
        rw [hresult, hbudget, hacquired, hnone]
        rfl
    · constructor
      · rintro h ⟨hbytes, -, -⟩
        have hgrown := h.grown
        have hrest := loadFrom_grows machine p attempts left (0 + 1) (some (kvPoolBytes model / 2)) kvBudget'
        rw [hresult, hbudget] at hgrown
        have hsome := hpos.2 hbytes
        omega
      · intro hkept
        refine absurd ⟨fun hzero => hbytes (kvPoolBytes_zero honce hzero), hverified, model, kvBudget', honce⟩ hkept

/-! ## A model loaded twice -/

/-- A machine with a gigabyte beside the weights. -/
def roomyMachine : Machine := ⟨fun _ => 2 ^ 30, 0⟩

/-- One layer of 64 bytes a block, for two sequences of 4096 tokens. -/
def smallModel : KvBlockParams := ⟨[(1, 1)], 4096, none, 2, 2, .off, false, 0, none, none⟩

/-- Everything works, but the weights of the first attempt do not survive. -/
def firstCrowded (i : Nat) : Attempt := ⟨true, fun _ => true, true, true, i ≠ 0⟩

/-- The first attempt reserves 512 blocks and holds 256 of them; the second may have 128, which is below the floor
though half would not be. The load fails and what the first was granted stays allocated. -/
theorem loadBatchModel_quarters :
    ¬ Halves (kvBytesPerBlock smallModel (resolveKvQuant smallModel)) (GlobalKvBudget.new (2 ^ 20))
        (loadBatchModel roomyMachine smallModel firstCrowded (GlobalKvBudget.new (2 ^ 20))) ∧
      keptBytes (loadBatchModel roomyMachine smallModel firstCrowded (GlobalKvBudget.new (2 ^ 20))).result = 0 ∧
      (loadBatchModel roomyMachine smallModel firstCrowded (GlobalKvBudget.new (2 ^ 20))).kvBudget.allocatedBytes =
        512 * 64 := by
  refine ⟨fun h => ?_, by decide +kernel, by decide +kernel⟩
  have hhalf : HalfOf 64 ⟨512, 512 * 64, .off, 4096⟩ (.error (.kvBudgetExhausted (256 * 64) (128 * 64))) :=
    h.half 0 _ _ rfl rfl
  exact absurd (show 512 * 64 / 2 / 64 < 256 from hhalf) (by decide)

end

end Oxydllm.Serve.KvRetry
