/-
# Oxydllm.Quant.Gptq — packed weights in the GPTQ layout.

The codes of four or eight bits lie along the input dimension, one word for as many inputs as fit, the zero points
along the output dimension and less one, and without zero points the codes are centred. `dequantizeGptq` accepts
the weights that are `GptqReadable`, and each entry is its code less the zero point, times the scale.
-/
import Oxydllm.Quant.Awq

namespace Oxydllm.Quant

open RowMajor Traverse

variable {R : Type}

/-! ## Weights -/

def PackDim.debug : PackDim → String
  | .out => "Out"
  | .in => "In"

def PackOrder.debug : PackOrder → String
  | .awqInterleaved => "AwqInterleaved"
  | .sequential => "Sequential"

def QuantWeight.newGptq (bits : Nat) (sym : Bool) (qweight : Tensor Int) (qzeros : Option (Tensor Int))
    (scales : Tensor R) : QuantWeight R :=
  ⟨bits, .in, .sequential, if sym then .symmetric else .plusOne, qweight, qzeros, scales⟩

/-- Slot `k` of a word, `(word >> (BITS * k)) & MASK`. -/
def unpack (bits : Nat) (word : BitVec 32) (k : Nat) : Nat :=
  ((word >>> (bits * k)) &&& BitVec.ofNat 32 (2 ^ bits - 1)).toNat

/-! ## Dequantisation -/

/-- `GptqDequantPlan`. -/
structure GptqDequantPlan (R : Type) where
  inFeatures : Nat
  outFeatures : Nat
  groupSize : Nat
  packedOut : Nat
  packFactor : Nat
  bits : Nat
  sym : Bool
  qweight : List (BitVec 32)
  qzeros : List (BitVec 32)
  scales : List R

/-- One entry of `fill_gptq_weight`. -/
def gptqFillEntry [Ring R] (plan : GptqDequantPlan R) (outIdx i : Nat) : R :=
  let symZero := 2 ^ (plan.bits - 1) - 1
  let oWord := outIdx / plan.packFactor
  let oSlot := outIdx % plan.packFactor
  let g := i / plan.groupSize
  let iWord := i / plan.packFactor
  let iSlot := i % plan.packFactor
  let q := unpack plan.bits (plan.qweight.getD (iWord * plan.outFeatures + outIdx) 0) iSlot
  let z := if plan.sym then symZero
    else unpack plan.bits (plan.qzeros.getD (g * plan.packedOut + oWord) 0) oSlot
  ((q : Int) - (z + 1) : Int) * plan.scales.getD (g * plan.outFeatures + outIdx) 0

/-- `fill_gptq_weight`. -/
def fillGptqWeight [Ring R] (plan : GptqDequantPlan R) : List R :=
  (List.range plan.outFeatures).flatMap fun outIdx => (List.range plan.inFeatures).map (gptqFillEntry plan outIdx)

theorem fillGptqWeight_length [Ring R] (plan : GptqDequantPlan R) :
    (fillGptqWeight plan).length = [plan.outFeatures, plan.inFeatures].prod := by
  rw [fillGptqWeight, length_flatMap_range fun r _ => by rw [List.length_map, List.length_range]]
  simp

/-- The zero points of a weight that has them. -/
def gptqZeros (qzeros : Option (Tensor Int)) (groups packedOut : Nat) : Result (List (BitVec 32)) :=
  match qzeros with
  | some t => do
      let dims := t.dims
      ensure (dims = [groups, packedOut]) (.bail s!"GPTQ qzeros shape {dims} != [{groups}, {packedOut}]")
      readPackedToU32 t
  | none => .ok []

/-- `dequantize_gptq` to the CPU. -/
def dequantizeGptq [Ring R] (raw : QuantWeight R) (outDtype : DType) : Result (Tensor R) := do
  let dimName := raw.packDim.debug
  let orderName := raw.packOrder.debug
  ensure (raw.packDim = .in ∧ raw.packOrder = .sequential)
    (.bail s!"dequantize_gptq: expected PackDim::In + Sequential, got {dimName}/{orderName}")
  let bits := raw.bits
  ensure (bits = 4 ∨ bits = 8) (.bail s!"dequantize_gptq: only 4/8-bit supported, got {bits}")
  let packFactor := 32 / bits
  let inFeatures ← raw.inFeatures
  let outFeatures ← raw.outFeatures
  let groupSize ← raw.groupSize
  ensure (groupSize ≠ 0) .panic
  let groups := inFeatures / groupSize
  let packedIn := inFeatures / packFactor
  let packedOut := outFeatures / packFactor
  let qweightDims := raw.qweight.dims
  ensure (qweightDims = [packedIn, outFeatures])
    (.bail s!"GPTQ qweight shape {qweightDims} != [{packedIn}, {outFeatures}]")
  let scalesDims := raw.scales.dims
  ensure (scalesDims = [groups, outFeatures])
    (.bail s!"GPTQ scales shape {scalesDims} != [{groups}, {outFeatures}]")
  ensure (outFeatures % packFactor = 0)
    (.bail s!"GPTQ out_features {outFeatures} not divisible by pack_factor {packFactor}")
  let qweightVec ← readPackedToU32 raw.qweight
  let qweightLen := qweightVec.length
  ensure (qweightLen = packedIn * outFeatures)
    (.bail s!"GPTQ qweight numel {qweightLen} != {packedIn}*{outFeatures}")
  let qzerosVec ← gptqZeros raw.qzeros groups packedOut
  let plan : GptqDequantPlan R :=
    ⟨inFeatures, outFeatures, groupSize, packedOut, packFactor, bits,
      raw.qzeros.isNone || raw.zeroPoint == .symmetric, qweightVec, qzerosVec, raw.scales.data⟩
  let dtypeName := outDtype.debug
  ensure (OutDtype outDtype) (.bail s!"GPTQ dequantize: unsupported out_dtype {dtypeName}")
  return ⟨outDtype, [outFeatures, inFeatures], fillGptqWeight plan, fillGptqWeight_length plan⟩

/-- `dequantize_quant`. -/
def dequantizeQuant [Ring R] (raw : QuantWeight R) (outDtype : DType) : Result (Tensor R) :=
  match raw.packDim with
  | .out => dequantizeAwq raw outDtype
  | .in => dequantizeGptq raw outDtype

/-! ## What is accepted -/

/-- A GPTQ weight that dequantises. -/
structure GptqReadable (q : QuantWeight R) (inFeatures outFeatures groups : Nat) : Prop where
  dim : q.packDim = .in
  order : q.packOrder = .sequential
  bits : q.bits = 4 ∨ q.bits = 8
  pos : 0 < inFeatures
  divides : groups ∣ inFeatures
  whole : 32 / q.bits ∣ inFeatures
  qdims : q.qweight.dims = [inFeatures / (32 / q.bits), outFeatures]
  qread : readPackedToU32 q.qweight = .ok (q.qweight.data.map (BitVec.ofInt 32))
  scales : q.scales.dims = [groups, outFeatures]
  packed : outFeatures % (32 / q.bits) = 0
  zeros : ∀ z, q.qzeros = some z → z.dims = [groups, outFeatures / (32 / q.bits)] ∧
    readPackedToU32 z = .ok (z.data.map (BitVec.ofInt 32))

/-- The words of the zero points, none where there are none. -/
def QuantWeight.zeroWords (q : QuantWeight R) : List (BitVec 32) :=
  match q.qzeros with
  | some z => z.data.map (BitVec.ofInt 32)
  | none => []

/-- The zero point of a group and an output, less one. -/
def gptqZero (q : QuantWeight R) (outFeatures g o : Nat) : Nat :=
  if q.qzeros.isNone || q.zeroPoint == .symmetric then 2 ^ (q.bits - 1) - 1
  else unpack q.bits (q.zeroWords.getD (g * (outFeatures / (32 / q.bits)) + o / (32 / q.bits)) 0) (o % (32 / q.bits))

/-- What a weight in the GPTQ layout has at output `o` and input `i`. -/
def gptqEntry [Ring R] (q : QuantWeight R) (inFeatures outFeatures groups o i : Nat) : R :=
  let g := i / (inFeatures / groups)
  ((unpack q.bits (word q.qweight (i / (32 / q.bits) * outFeatures + o)) (i % (32 / q.bits)) : Int) -
    (gptqZero q outFeatures g o + 1) : Int) * q.scales.data.getD (g * outFeatures + o) 0

namespace GptqReadable

variable {q : QuantWeight R} {inFeatures outFeatures groups : Nat}

theorem groups_pos (h : GptqReadable q inFeatures outFeatures groups) : 0 < groups :=
  Nat.pos_of_dvd_of_pos h.divides h.pos

theorem packFactor (h : GptqReadable q inFeatures outFeatures groups) : q.packFactor = .ok (32 / q.bits) := by
  have hne : q.bits ≠ 0 := by rcases h.bits with hb | hb <;> rw [hb] <;> decide
  unfold QuantWeight.packFactor
  rw [if_neg hne]

theorem inputs (h : GptqReadable q inFeatures outFeatures groups) : q.inFeatures = .ok inFeatures := by
  have hdim : q.qweight.dim 0 (.bail "qweight must be 2D") = .ok (inFeatures / (32 / q.bits)) :=
    dim_eq_ok.2 (by rw [h.qdims]; rfl)
  unfold QuantWeight.inFeatures
  refine bind_eq_ok.2 ⟨_, hdim, ?_⟩
  rw [h.dim]
  refine bind_eq_ok.2 ⟨_, h.packFactor, ?_⟩
  rw [Nat.div_mul_cancel h.whole]
  rfl

theorem groupSize (h : GptqReadable q inFeatures outFeatures groups) : q.groupSize = .ok (inFeatures / groups) := by
  have hdim : q.scales.dim 0 (.bail "scales must be 2D") = .ok groups := dim_eq_ok.2 (by rw [h.scales]; rfl)
  have hmod : inFeatures % groups = 0 := Nat.mod_eq_zero_of_dvd h.divides
  simp only [QuantWeight.groupSize, h.inputs, hdim, bind_eq_ok]
  exact ⟨_, rfl, _, rfl, (), ensure_eq_ok.2 (Nat.ne_of_gt h.groups_pos), (), ensure_eq_ok.2 hmod, rfl⟩

theorem zeroWords (h : GptqReadable q inFeatures outFeatures groups) :
    gptqZeros q.qzeros groups (outFeatures / (32 / q.bits)) = .ok q.zeroWords := by
  unfold gptqZeros QuantWeight.zeroWords
  rcases hz : q.qzeros with - | z
  · rfl
  · obtain ⟨hdims, hread⟩ := h.zeros z hz
    exact bind_eq_ok.2 ⟨(), ensure_eq_ok.2 hdims, hread⟩

/-- The plan made for it. -/
def plan (_ : GptqReadable q inFeatures outFeatures groups) : GptqDequantPlan R where
  inFeatures := inFeatures
  outFeatures := outFeatures
  groupSize := inFeatures / groups
  packedOut := outFeatures / (32 / q.bits)
  packFactor := 32 / q.bits
  bits := q.bits
  sym := q.qzeros.isNone || q.zeroPoint == .symmetric
  qweight := q.qweight.data.map (BitVec.ofInt 32)
  qzeros := q.zeroWords
  scales := q.scales.data

theorem fillEntry_plan [Ring R] (h : GptqReadable q inFeatures outFeatures groups) (o i : Nat) :
    gptqFillEntry h.plan o i = gptqEntry q inFeatures outFeatures groups o i := by
  simp only [gptqFillEntry, plan, getD_words, gptqEntry, gptqZero]
  rfl

theorem dequantize [Ring R] (h : GptqReadable q inFeatures outFeatures groups) {outDtype : DType}
    (hout : OutDtype outDtype) : dequantizeGptq q outDtype =
      .ok ⟨outDtype, [outFeatures, inFeatures], fillGptqWeight h.plan, fillGptqWeight_length h.plan⟩ := by
  have houtF : q.outFeatures = .ok outFeatures := dim_eq_ok.2 (by rw [h.scales]; rfl)
  have hgs : inFeatures / groups ≠ 0 := Nat.ne_of_gt (Nat.div_pos (Nat.le_of_dvd h.pos h.divides) h.groups_pos)
  have hgroups := div_div_of_dvd h.pos h.divides
  unfold dequantizeGptq
  refine bind_eq_ok.2 ⟨(), ensure_eq_ok.2 ⟨h.dim, h.order⟩, bind_eq_ok.2 ⟨(), ensure_eq_ok.2 h.bits, bind_eq_ok.2
    ⟨_, h.inputs, bind_eq_ok.2 ⟨_, houtF, bind_eq_ok.2 ⟨_, h.groupSize, bind_eq_ok.2 ⟨(), ensure_eq_ok.2 hgs, ?_⟩⟩⟩⟩⟩⟩
  dsimp only
  rw [hgroups]
  refine bind_eq_ok.2 ⟨(), ensure_eq_ok.2 h.qdims, bind_eq_ok.2 ⟨(), ensure_eq_ok.2 h.scales, bind_eq_ok.2
    ⟨(), ensure_eq_ok.2 h.packed, bind_eq_ok.2 ⟨_, h.qread, bind_eq_ok.2 ⟨(), ensure_eq_ok.2 ?_, bind_eq_ok.2
    ⟨_, h.zeroWords, bind_eq_ok.2 ⟨(), ensure_eq_ok.2 hout, rfl⟩⟩⟩⟩⟩⟩⟩
  rw [List.length_map, q.qweight.filled, h.qdims]
  simp

/-- The dequantised weight, entry by entry. -/
theorem dequantize_entry [Ring R] (h : GptqReadable q inFeatures outFeatures groups) {outDtype : DType}
    (hout : OutDtype outDtype) : ∃ w, dequantizeGptq q outDtype = .ok w ∧ w.dims = [outFeatures, inFeatures] ∧
      ∀ o < outFeatures, ∀ i < inFeatures,
        w.data[o * inFeatures + i]? = some (gptqEntry q inFeatures outFeatures groups o i) := by
  refine ⟨_, h.dequantize hout, rfl, fun o ho i hi => ?_⟩
  show ((List.range outFeatures).flatMap fun outIdx =>
    (List.range inFeatures).map (gptqFillEntry h.plan outIdx))[o * inFeatures + i]? = _
  rw [getElem?_flatMap_range (fun r _ => by rw [List.length_map, List.length_range]) ho hi,
    List.getElem?_map, List.getElem?_range hi, Option.map_some, h.fillEntry_plan]

end GptqReadable

/-- Only such weights dequantise. -/
theorem readable_of_dequantizeGptq [Ring R] {q : QuantWeight R} {outDtype : DType} {w : Tensor R}
    (h : dequantizeGptq q outDtype = .ok w) :
    OutDtype outDtype ∧ ∃ inFeatures outFeatures groups, GptqReadable q inFeatures outFeatures groups := by
  unfold dequantizeGptq at h
  obtain ⟨_, hkind, h⟩ := bind_eq_ok.1 h
  obtain ⟨_, hbits, h⟩ := bind_eq_ok.1 h
  obtain ⟨inF, hin, h⟩ := bind_eq_ok.1 h
  obtain ⟨outF, hout, h⟩ := bind_eq_ok.1 h
  obtain ⟨gs, hgs, h⟩ := bind_eq_ok.1 h
  obtain ⟨_, hgs0, h⟩ := bind_eq_ok.1 h
  have hgs0 := ensure_eq_ok.1 hgs0
  obtain ⟨hdim, horder⟩ := ensure_eq_ok.1 hkind
  have hbits := ensure_eq_ok.1 hbits
  dsimp only at h
  unfold QuantWeight.groupSize at hgs
  obtain ⟨inF', hin', hgs⟩ := bind_eq_ok.1 hgs
  obtain rfl : inF = inF' := Except.ok.inj (hin.symm.trans hin')
  obtain ⟨groups, hgroups, hgs⟩ := bind_eq_ok.1 hgs
  obtain ⟨_, hne, hgs⟩ := bind_eq_ok.1 hgs
  obtain ⟨_, hmod, hgs⟩ := bind_eq_ok.1 hgs
  obtain rfl := Except.ok.inj hgs
  have hdvd : groups ∣ inF := Nat.dvd_of_mod_eq_zero (ensure_eq_ok.1 hmod)
  have hpos : 0 < inF := Nat.pos_of_ne_zero fun h0 => hgs0 (by rw [h0, Nat.zero_div])
  rw [div_div_of_dvd hpos hdvd] at h
  obtain ⟨_, hqd, h⟩ := bind_eq_ok.1 h
  obtain ⟨_, hsd, h⟩ := bind_eq_ok.1 h
  obtain ⟨_, hpacked, h⟩ := bind_eq_ok.1 h
  obtain ⟨qv, hqv, h⟩ := bind_eq_ok.1 h
  obtain ⟨_, -, h⟩ := bind_eq_ok.1 h
  obtain ⟨zv, hzv, h⟩ := bind_eq_ok.1 h
  obtain ⟨_, hdtype, -⟩ := bind_eq_ok.1 h
  obtain rfl := readPackedToU32_eq hqv
  have hwhole : 32 / q.bits ∣ inF := by
    unfold QuantWeight.inFeatures at hin
    obtain ⟨d0, -, hin⟩ := bind_eq_ok.1 hin
    rw [hdim] at hin
    obtain ⟨pf, hpf, hin⟩ := bind_eq_ok.1 hin
    have hne : q.bits ≠ 0 := by rcases hbits with hb | hb <;> rw [hb] <;> decide
    unfold QuantWeight.packFactor at hpf
    rw [if_neg hne] at hpf
    obtain rfl := Except.ok.inj hpf
    obtain rfl : d0 * (32 / q.bits) = inF := Except.ok.inj hin
    exact Dvd.intro_left d0 rfl
  refine ⟨ensure_eq_ok.1 hdtype, inF, outF, groups, hdim, horder, hbits, hpos, hdvd, hwhole, ensure_eq_ok.1 hqd, hqv,
    ensure_eq_ok.1 hsd, ensure_eq_ok.1 hpacked, fun z hz => ?_⟩
  rw [hz] at hzv
  obtain ⟨_, hzd, hzr⟩ := bind_eq_ok.1 hzv
  exact ⟨ensure_eq_ok.1 hzd, hzr.trans (congrArg _ (readPackedToU32_eq hzr))⟩

end Oxydllm.Quant
