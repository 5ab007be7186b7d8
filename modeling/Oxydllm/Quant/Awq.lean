/-
# Oxydllm.Quant.Awq — packed four-bit weights and what they stand for.

`dequantizeAwq` reads a weight in the AWQ layout: eight nibbles to a word along the output dimension,
interleaved, with a zero point and a scale for each group of inputs. What it accepts is `Readable`, and then
each entry is its nibble less the zero point, times the scale (`dequantizeAwq_ok_iff`). Scales are taken in
any ring, so no rounding is modelled.
-/
import Oxydllm.Lib.RowMajor
import Oxydllm.Lib.Traverse
import Mathlib.Data.BitVec

namespace Oxydllm.Quant

open RowMajor Traverse

/-! ## Tensors -/

/-- How a call fails: with a message, inside the tensor library, or by a panic. -/
inductive Failure
  | bail (msg : String)
  | candle
  | panic
  deriving DecidableEq, Repr

abbrev Result := Except Failure

/-- `if !holds { bail!(..) }`. -/
def ensure (holds : Prop) [Decidable holds] (failure : Failure) : Result Unit := if holds then .ok () else .error failure

/-- `ok_or_else(..)?`. -/
def required {α : Type} (o : Option α) (failure : Failure) : Result α :=
  match o with
  | some a => .ok a
  | none => .error failure

inductive DType
  | u8
  | u32
  | i32
  | i64
  | f16
  | bf16
  | f32
  | f64
  deriving DecidableEq, Repr

def DType.debug : DType → String
  | .u8 => "U8"
  | .u32 => "U32"
  | .i32 => "I32"
  | .i64 => "I64"
  | .f16 => "F16"
  | .bf16 => "BF16"
  | .f32 => "F32"
  | .f64 => "F64"

/-- A tensor on the CPU, row-major. -/
structure Tensor (α : Type) where
  dtype : DType
  dims : List Nat
  data : List α
  filled : data.length = dims.prod

/-- `dim(d)`; the failure is the context the caller gives it. -/
def Tensor.dim {α : Type} (t : Tensor α) (d : Nat) (failure : Failure) : Result Nat := required t.dims[d]? failure

/-- `dims2()`. -/
def Tensor.dims2 {α : Type} (t : Tensor α) (failure : Failure) : Result (Nat × Nat) :=
  match t.dims with
  | [n, m] => .ok (n, m)
  | _ => .error failure

/-! ## Weights -/

/-- `AWQ_PACK_ORDER`. -/
def awqPackOrder : List Nat := [0, 2, 4, 6, 1, 3, 5, 7]

/-- `AWQ_PACK_FACTOR`. -/
def awqPackFactor : Nat := 8

inductive PackDim
  | out
  | in
  deriving DecidableEq, Repr

inductive PackOrder
  | awqInterleaved
  | sequential
  deriving DecidableEq, Repr

inductive ZeroPointMode
  | signed
  | plusOne
  | symmetric
  deriving DecidableEq, Repr

/-- Packed integers are kept as the values of their dtype, scales as elements of `R`. -/
structure QuantWeight (R : Type) where
  bits : Nat
  packDim : PackDim
  packOrder : PackOrder
  zeroPoint : ZeroPointMode
  qweight : Tensor Int
  qzeros : Option (Tensor Int)
  scales : Tensor R

variable {R : Type}

namespace QuantWeight

def newAwq (bits : Nat) (qweight qzeros : Tensor Int) (scales : Tensor R) : QuantWeight R :=
  ⟨bits, .out, .awqInterleaved, .signed, qweight, some qzeros, scales⟩

/-- `32 / bits`. -/
def packFactor (q : QuantWeight R) : Result Nat := if q.bits = 0 then .error .panic else .ok (32 / q.bits)

def inFeatures (q : QuantWeight R) : Result Nat := do
  let d0 ← q.qweight.dim 0 (.bail "qweight must be 2D")
  match q.packDim with
  | .out => return d0
  | .in => return d0 * (← q.packFactor)

def outFeatures (q : QuantWeight R) : Result Nat := q.scales.dim 1 (.bail "scales must be 2D")

def groupSize (q : QuantWeight R) : Result Nat := do
  let inFeatures ← q.inFeatures
  let groups ← q.scales.dim 0 (.bail "scales must be 2D")
  ensure (groups ≠ 0) (.bail "quant scales has zero groups")
  ensure (inFeatures % groups = 0)
    (.bail s!"quant in_features ({inFeatures}) not divisible by scales groups ({groups})")
  return inFeatures / groups

end QuantWeight

/-- `read_packed_to_u32`: `x as u32` of every word. -/
def readPackedToU32 (t : Tensor Int) : Result (List (BitVec 32)) :=
  match t.dtype with
  | .i32 | .u32 | .i64 => .ok (t.data.map (BitVec.ofInt 32))
  | other =>
    let dtype := other.debug
    .error (.bail s!"Unsupported AWQ packed tensor dtype {dtype} (expected I32/U32/I64)")

/-! ## Dequantisation -/

/-- `(packed >> shift) & 0xF`. -/
def nibble (packed : BitVec 32) (shift : Nat) : Nat := ((packed >>> shift) &&& 0xF#32).toNat

/-- The stores that fill `zeros`. -/
def zeroStores (outFeatures packedOut groups : Nat) (qzeros : List (BitVec 32)) : List (Nat × Nat) :=
  (List.range groups).flatMap fun g => (List.range packedOut).flatMap fun j =>
    awqPackOrder.zipIdx.map fun p =>
      (g * outFeatures + (j * awqPackFactor + p.1), nibble (qzeros.getD (g * packedOut + j) 0) (4 * p.2))

def zerosOf (outFeatures packedOut groups : Nat) (qzeros : List (BitVec 32)) : List Nat :=
  (zeroStores outFeatures packedOut groups qzeros).foldl (fun d s => d.set s.1 s.2)
    (List.replicate (groups * outFeatures) 0)

/-- `inv_pack_order`. -/
def invPackOrder : List Nat :=
  awqPackOrder.zipIdx.foldl (fun inv p => inv.set p.1 p.2) (List.replicate awqPackFactor 0)

/-- `AwqDequantPlan`. -/
structure DequantPlan (R : Type) where
  inFeatures : Nat
  outFeatures : Nat
  packedOut : Nat
  groupSize : Nat
  qweight : List (BitVec 32)
  zeros : List Nat
  scales : List R

/-- One entry of `fill_awq_weight`. -/
def fillEntry [Ring R] (plan : DequantPlan R) (outIdx i : Nat) : R :=
  let j := outIdx / awqPackFactor
  let offset := outIdx % awqPackFactor
  let shift := 4 * invPackOrder.getD offset 0
  let g := i / plan.groupSize
  let packed := plan.qweight.getD (i * plan.packedOut + j) 0
  let zeroPoint := plan.zeros.getD (g * plan.outFeatures + outIdx) 0
  let scale := plan.scales.getD (g * plan.outFeatures + outIdx) 0
  ((nibble packed shift : Int) - zeroPoint : Int) * scale

/-- `fill_awq_weight`. -/
def fillAwqWeight [Ring R] (plan : DequantPlan R) : List R :=
  (List.range plan.outFeatures).flatMap fun outIdx => (List.range plan.inFeatures).map (fillEntry plan outIdx)

theorem fillAwqWeight_length [Ring R] (plan : DequantPlan R) :
    (fillAwqWeight plan).length = [plan.outFeatures, plan.inFeatures].prod := by
  rw [fillAwqWeight, length_flatMap_range fun r _ => by rw [List.length_map, List.length_range]]
  simp

/-- `dequantize_awq` to the CPU. -/
def dequantizeAwq [Ring R] (raw : QuantWeight R) (outDtype : DType) : Result (Tensor R) := do
  let inFeatures ← raw.inFeatures
  let outFeatures ← raw.outFeatures
  let groupSize ← raw.groupSize
  ensure (groupSize ≠ 0) .panic
  let groups := inFeatures / groupSize
  let packedOut := outFeatures / awqPackFactor
  ensure (outFeatures % awqPackFactor = 0)
    (.bail s!"AWQ out_features ({outFeatures}) not divisible by pack factor {awqPackFactor}")
  let qdim ← raw.qweight.dim 1 .candle
  ensure (qdim = packedOut) (.bail s!"AWQ qweight dim1 ({qdim}) != out_features/8 ({packedOut})")
  let qzerosTensor ← required raw.qzeros (.bail "AWQ dequantize: qzeros tensor missing")
  let qzerosDims := qzerosTensor.dims
  ensure (qzerosDims = [groups, packedOut])
    (.bail s!"AWQ qzeros shape {qzerosDims} != [{groups}, {packedOut}]")
  let scalesDims := raw.scales.dims
  ensure (scalesDims = [groups, outFeatures])
    (.bail s!"AWQ scales shape {scalesDims} != [{groups}, {outFeatures}]")
  let qweightVec ← readPackedToU32 raw.qweight
  let qzerosVec ← readPackedToU32 qzerosTensor
  let scalesVec := raw.scales.data
  let qweightLen := qweightVec.length
  let qzerosLen := qzerosVec.length
  let scalesLen := scalesVec.length
  let inPacked := inFeatures * packedOut
  let groupsPacked := groups * packedOut
  let groupsOut := groups * outFeatures
  ensure (qweightLen = inPacked) (.bail s!"qweight numel {qweightLen} != in*packed_out {inPacked}")
  ensure (qzerosLen = groupsPacked) (.bail s!"qzeros numel {qzerosLen} != groups*packed_out {groupsPacked}")
  ensure (scalesLen = groupsOut) (.bail s!"scales numel {scalesLen} != groups*out_features {groupsOut}")
  let plan : DequantPlan R :=
    ⟨inFeatures, outFeatures, packedOut, groupSize, qweightVec, zerosOf outFeatures packedOut groups qzerosVec, scalesVec⟩
  let dtypeName := outDtype.debug
  ensure (outDtype = .f32 ∨ outDtype = .bf16 ∨ outDtype = .f16)
    (.bail s!"AWQ dequantize: unsupported out_dtype {dtypeName}")
  return ⟨outDtype, [outFeatures, inFeatures], fillAwqWeight plan, fillAwqWeight_length plan⟩

/-! ## What is accepted -/

theorem ensure_eq_ok {holds : Prop} [Decidable holds] {failure : Failure} {u : Unit} :
    ensure holds failure = .ok u ↔ holds := by
  unfold ensure
  split
  · rename_i h
    exact ⟨fun _ => h, fun _ => rfl⟩
  · rename_i h
    exact ⟨fun he => (by cases he), fun hh => absurd hh h⟩

theorem required_eq_ok {α : Type} {o : Option α} {failure : Failure} {a : α} :
    required o failure = .ok a ↔ o = some a := by
  unfold required
  cases o with
  | none => exact ⟨fun h => (by cases h), fun h => (by cases h)⟩
  | some b => exact ⟨fun h => (by cases h; rfl), fun h => (by cases h; rfl)⟩

theorem dim_eq_ok {α : Type} {t : Tensor α} {d n : Nat} {failure : Failure} :
    t.dim d failure = .ok n ↔ t.dims[d]? = some n := required_eq_ok

theorem readPackedToU32_eq {t : Tensor Int} {v : List (BitVec 32)} (h : readPackedToU32 t = .ok v) :
    v = t.data.map (BitVec.ofInt 32) := by
  unfold readPackedToU32 at h
  split at h
  · cases h; rfl
  · cases h; rfl
  · cases h; rfl
  · cases h

/-- A word of a packed tensor. -/
def word (t : Tensor Int) (i : Nat) : BitVec 32 := BitVec.ofInt 32 (t.data.getD i 0)

theorem getD_words (t : Tensor Int) (i : Nat) : (t.data.map (BitVec.ofInt 32)).getD i 0 = word t i := by
  rw [word, List.getD_eq_getElem?_getD, List.getElem?_map, List.getD_eq_getElem?_getD]
  cases t.data[i]? with
  | none => rfl
  | some x => rfl

/-- A weight that dequantises: `inFeatures` inputs in `groups` groups, `outFeatures` outputs, zero points `z`. -/
structure Readable (q : QuantWeight R) (inFeatures outFeatures groups : Nat) (z : Tensor Int) : Prop where
  inputs : q.inFeatures = .ok inFeatures
  pos : 0 < inFeatures
  divides : groups ∣ inFeatures
  scales : q.scales.dims = [groups, outFeatures]
  packed : outFeatures % awqPackFactor = 0
  qdim : q.qweight.dims[1]? = some (outFeatures / awqPackFactor)
  qlen : q.qweight.data.length = inFeatures * (outFeatures / awqPackFactor)
  qread : readPackedToU32 q.qweight = .ok (q.qweight.data.map (BitVec.ofInt 32))
  qzeros : q.qzeros = some z
  zdims : z.dims = [groups, outFeatures / awqPackFactor]
  zread : readPackedToU32 z = .ok (z.data.map (BitVec.ofInt 32))

theorem div_div_of_dvd {n g : Nat} (hn : 0 < n) (h : g ∣ n) : n / (n / g) = g := Nat.div_div_self h (by omega)

/-- The dtypes `dequantize_awq` can write. -/
def OutDtype (outDtype : DType) : Prop := outDtype = .f32 ∨ outDtype = .bf16 ∨ outDtype = .f16

instance (outDtype : DType) : Decidable (OutDtype outDtype) := inferInstanceAs (Decidable (_ ∨ _))

namespace Readable

variable {q : QuantWeight R} {inFeatures outFeatures groups : Nat} {z : Tensor Int}

theorem groups_pos (h : Readable q inFeatures outFeatures groups z) : 0 < groups :=
  Nat.pos_of_dvd_of_pos h.divides h.pos

/-- The plan made for it. -/
def plan (_ : Readable q inFeatures outFeatures groups z) : DequantPlan R where
  inFeatures := inFeatures
  outFeatures := outFeatures
  packedOut := outFeatures / awqPackFactor
  groupSize := inFeatures / groups
  qweight := q.qweight.data.map (BitVec.ofInt 32)
  zeros := zerosOf outFeatures (outFeatures / awqPackFactor) groups (z.data.map (BitVec.ofInt 32))
  scales := q.scales.data

theorem groupSize (h : Readable q inFeatures outFeatures groups z) : q.groupSize = .ok (inFeatures / groups) := by
  have hdim : q.scales.dim 0 (.bail "scales must be 2D") = .ok groups := dim_eq_ok.2 (by rw [h.scales]; rfl)
  have hmod : inFeatures % groups = 0 := Nat.mod_eq_zero_of_dvd h.divides
  simp only [QuantWeight.groupSize, h.inputs, hdim, bind_eq_ok]
  exact ⟨_, rfl, _, rfl, (), ensure_eq_ok.2 (Nat.ne_of_gt h.groups_pos), (), ensure_eq_ok.2 hmod, rfl⟩

theorem dequantize [Ring R] (h : Readable q inFeatures outFeatures groups z) {outDtype : DType}
    (hout : OutDtype outDtype) : dequantizeAwq q outDtype =
      .ok ⟨outDtype, [outFeatures, inFeatures], fillAwqWeight h.plan, fillAwqWeight_length h.plan⟩ := by
  have houtF : q.outFeatures = .ok outFeatures := dim_eq_ok.2 (by rw [h.scales]; rfl)
  have hgs : inFeatures / groups ≠ 0 := Nat.ne_of_gt (Nat.div_pos (Nat.le_of_dvd h.pos h.divides) h.groups_pos)
  have hgroups := div_div_of_dvd h.pos h.divides
  unfold dequantizeAwq
  refine bind_eq_ok.2 ⟨_, h.inputs, bind_eq_ok.2 ⟨_, houtF, bind_eq_ok.2 ⟨_, h.groupSize, bind_eq_ok.2
    ⟨(), ensure_eq_ok.2 hgs, ?_⟩⟩⟩⟩
  dsimp only
  rw [hgroups]
  have hzlen : z.data.length = groups * (outFeatures / awqPackFactor) := by
    rw [z.filled, h.zdims]; simp
  have hslen : q.scales.data.length = groups * outFeatures := by
    rw [q.scales.filled, h.scales]; simp
  refine bind_eq_ok.2 ⟨(), ensure_eq_ok.2 h.packed, bind_eq_ok.2 ⟨_, dim_eq_ok.2 h.qdim, bind_eq_ok.2
    ⟨(), ensure_eq_ok.2 rfl, bind_eq_ok.2 ⟨z, required_eq_ok.2 h.qzeros, bind_eq_ok.2 ⟨(), ensure_eq_ok.2 h.zdims, bind_eq_ok.2
    ⟨(), ensure_eq_ok.2 h.scales, bind_eq_ok.2 ⟨_, h.qread, bind_eq_ok.2 ⟨_, h.zread, bind_eq_ok.2
    ⟨(), ensure_eq_ok.2 ?_, bind_eq_ok.2 ⟨(), ensure_eq_ok.2 ?_, bind_eq_ok.2 ⟨(), ensure_eq_ok.2 hslen, bind_eq_ok.2
    ⟨(), ensure_eq_ok.2 hout, rfl⟩⟩⟩⟩⟩⟩⟩⟩⟩⟩⟩⟩
  · rw [List.length_map, h.qlen]
  · rw [List.length_map, hzlen]

end Readable

/-- Only such weights dequantise. -/
theorem readable_of_dequantizeAwq [Ring R] {q : QuantWeight R} {outDtype : DType} {w : Tensor R}
    (h : dequantizeAwq q outDtype = .ok w) :
    OutDtype outDtype ∧ ∃ inFeatures outFeatures groups z, Readable q inFeatures outFeatures groups z := by
  unfold dequantizeAwq at h
  obtain ⟨inF, hin, h⟩ := bind_eq_ok.1 h
  obtain ⟨outF, hout, h⟩ := bind_eq_ok.1 h
  obtain ⟨gs, hgs, h⟩ := bind_eq_ok.1 h
  obtain ⟨_, hgs0, h⟩ := bind_eq_ok.1 h
  have hgs0 := ensure_eq_ok.1 hgs0
  dsimp only at h
  unfold QuantWeight.groupSize at hgs
  obtain ⟨inF', hin', hgs⟩ := bind_eq_ok.1 hgs
  rw [hin] at hin'
  cases hin'
  obtain ⟨groups, hgroups, hgs⟩ := bind_eq_ok.1 hgs
  obtain ⟨_, hne, hgs⟩ := bind_eq_ok.1 hgs
  obtain ⟨_, hmod, hgs⟩ := bind_eq_ok.1 hgs
  cases hgs
  have hdvd : groups ∣ inF := Nat.dvd_of_mod_eq_zero (ensure_eq_ok.1 hmod)
  have hpos : 0 < inF := Nat.pos_of_ne_zero fun h0 => hgs0 (by rw [h0, Nat.zero_div])
  rw [div_div_of_dvd hpos hdvd] at h
  obtain ⟨_, hpacked, h⟩ := bind_eq_ok.1 h
  obtain ⟨qd, hqd, h⟩ := bind_eq_ok.1 h
  obtain ⟨_, hqdim, h⟩ := bind_eq_ok.1 h
  obtain ⟨z, hz, h⟩ := bind_eq_ok.1 h
  obtain ⟨_, hzd, h⟩ := bind_eq_ok.1 h
  obtain ⟨_, hsd, h⟩ := bind_eq_ok.1 h
  obtain ⟨qv, hqv, h⟩ := bind_eq_ok.1 h
  obtain ⟨zv, hzv, h⟩ := bind_eq_ok.1 h
  obtain ⟨_, hqlen, h⟩ := bind_eq_ok.1 h
  obtain ⟨_, _, h⟩ := bind_eq_ok.1 h
  obtain ⟨_, _, h⟩ := bind_eq_ok.1 h
  obtain ⟨_, hdtype, h⟩ := bind_eq_ok.1 h
  cases ensure_eq_ok.1 hqdim
  have hqv' := readPackedToU32_eq hqv
  have hzv' := readPackedToU32_eq hzv
  subst hqv' hzv'
  refine ⟨ensure_eq_ok.1 hdtype, inF, outF, groups, z, ?_⟩
  have hlen := ensure_eq_ok.1 hqlen
  rw [List.length_map] at hlen
  exact ⟨hin, hpos, hdvd, ensure_eq_ok.1 hsd, ensure_eq_ok.1 hpacked, dim_eq_ok.1 hqd, hlen, hqv,
    required_eq_ok.1 hz, ensure_eq_ok.1 hzd, hzv⟩

/-! ## An entry -/

theorem packOrder_inv : ∀ p ∈ awqPackOrder.zipIdx, p.1 < 8 ∧ invPackOrder.getD p.1 0 = p.2 := by decide

theorem packOrder_mem : ∀ r < 8, (r, invPackOrder.getD r 0) ∈ awqPackOrder.zipIdx := by decide

/-- The zero point of a group and an output. -/
theorem zerosOf_getD {outFeatures groups : Nat} (hpacked : outFeatures % awqPackFactor = 0) (qzeros : List (BitVec 32))
    {g o : Nat} (hg : g < groups) (ho : o < outFeatures) :
    (zerosOf outFeatures (outFeatures / awqPackFactor) groups qzeros).getD (g * outFeatures + o) 0 =
      nibble (qzeros.getD (g * (outFeatures / awqPackFactor) + o / awqPackFactor) 0)
        (4 * invPackOrder.getD (o % awqPackFactor) 0) := by
  have hrows : (g + 1) * outFeatures ≤ groups * outFeatures := Nat.mul_le_mul_right outFeatures hg
  rw [Nat.succ_mul] at hrows
  simp only [awqPackFactor] at *
  rw [List.getD_eq_getElem?_getD, zerosOf, getElem?_foldl_set (v := nibble (qzeros.getD (g * (outFeatures / 8) + o / 8) 0)
    (4 * invPackOrder.getD (o % 8) 0)) _ _ ?_ ?_ ?_, Option.getD_some]
  · intro s hs heq
    obtain ⟨g', hg', hs⟩ := List.mem_flatMap.1 hs
    obtain ⟨j', hj', hs⟩ := List.mem_flatMap.1 hs
    obtain ⟨p, hp, rfl⟩ := List.mem_map.1 hs
    obtain ⟨hlt, hinv⟩ := packOrder_inv p hp
    have hj' := List.mem_range.1 hj'
    simp only [awqPackFactor] at heq
    obtain ⟨rfl, hcol⟩ := index_inj (by omega) ho heq
    have hj : j' = o / 8 := by omega
    have hr : p.1 = o % 8 := by omega
    rw [hj, ← hinv, hr]
  · rw [List.length_replicate]
    omega
  · left
    refine ⟨_, List.mem_flatMap.2 ⟨g, List.mem_range.2 hg, List.mem_flatMap.2 ⟨o / 8, List.mem_range.2 (by omega),
      List.mem_map.2 ⟨_, packOrder_mem (o % 8) (Nat.mod_lt o (by omega)), rfl⟩⟩⟩, ?_⟩
    simp only [awqPackFactor]
    omega

/-- The nibble of a row and an output in the AWQ layout. -/
def awqNibble (t : Tensor Int) (packedOut r o : Nat) : Nat :=
  nibble (word t (r * packedOut + o / awqPackFactor)) (4 * invPackOrder.getD (o % awqPackFactor) 0)

/-- What a weight in the AWQ layout has at output `o` and input `i`. -/
def awqEntry [Ring R] (q : QuantWeight R) (z : Tensor Int) (inFeatures outFeatures groups o i : Nat) : R :=
  let g := i / (inFeatures / groups)
  ((awqNibble q.qweight (outFeatures / awqPackFactor) i o : Int) - awqNibble z (outFeatures / awqPackFactor) g o : Int) *
    q.scales.data.getD (g * outFeatures + o) 0

theorem group_lt {inFeatures groups i : Nat} (hdvd : groups ∣ inFeatures) (hi : i < inFeatures) :
    i / (inFeatures / groups) < groups := by
  have hgs : 0 < inFeatures / groups :=
    Nat.div_pos (Nat.le_of_dvd (by omega) hdvd) (Nat.pos_of_dvd_of_pos hdvd (by omega))
  rw [Nat.div_lt_iff_lt_mul hgs, Nat.mul_div_cancel' hdvd]
  exact hi

namespace Readable

variable {q : QuantWeight R} {inFeatures outFeatures groups : Nat} {z : Tensor Int}

theorem fillEntry_plan [Ring R] (h : Readable q inFeatures outFeatures groups z) {o i : Nat} (ho : o < outFeatures)
    (hi : i < inFeatures) : fillEntry h.plan o i = awqEntry q z inFeatures outFeatures groups o i := by
  simp only [fillEntry, plan, zerosOf_getD h.packed _ (group_lt h.divides hi) ho, getD_words, awqEntry, awqNibble]

theorem fill_eq [Ring R] (h : Readable q inFeatures outFeatures groups z) :
    fillAwqWeight h.plan = (List.range outFeatures).flatMap fun o =>
      (List.range inFeatures).map (awqEntry q z inFeatures outFeatures groups o) := by
  rw [fillAwqWeight]
  refine List.flatMap_congr fun o ho => List.map_congr_left fun i hi => ?_
  exact h.fillEntry_plan (List.mem_range.1 ho) (List.mem_range.1 hi)

/-- The dequantised weight, entry by entry. -/
theorem dequantize_entry [Ring R] (h : Readable q inFeatures outFeatures groups z) {outDtype : DType}
    (hout : OutDtype outDtype) : ∃ w, dequantizeAwq q outDtype = .ok w ∧ w.dims = [outFeatures, inFeatures] ∧
      ∀ o < outFeatures, ∀ i < inFeatures,
        w.data[o * inFeatures + i]? = some (awqEntry q z inFeatures outFeatures groups o i) := by
  refine ⟨_, h.dequantize hout, rfl, fun o ho i hi => ?_⟩
  dsimp only
  rw [h.fill_eq, getElem?_flatMap_range (fun r _ => by rw [List.length_map, List.length_range]) ho hi,
    List.getElem?_map, List.getElem?_range hi, Option.map_some]

end Readable

end Oxydllm.Quant
