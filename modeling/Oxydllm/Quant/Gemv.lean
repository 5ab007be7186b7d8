/-
# Oxydllm.Quant.Gemv — the launches of the packed products.

The host checks the shapes, chooses a kernel by the width of the output and by whether there is one row or several, and
launches as many groups as cover the output. How the inputs are split depends on the weight alone, and so a row has
the same output, bit by bit, in whatever batch it is (`W4A16Matmul.answers_row`, `GptqMatmul.answers_row`).
-/
import Oxydllm.Quant.Kernels

namespace Oxydllm.Quant

open Barrier RowMajor

variable {F O : Type}

/-! ## Numbers -/

/-- `trailing_zeros`; a number has at most as many of them as it is large. -/
def trailingZeros : Nat → Nat → Nat
  | 0, _ => 0
  | fuel + 1, n => if n % 2 = 0 then trailingZeros fuel (n / 2) + 1 else 0

theorem trailingZeros_two_pow {fuel k : Nat} (h : k < fuel) : trailingZeros fuel (2 ^ k) = k := by
  induction k generalizing fuel with
  | zero =>
      obtain ⟨fuel, rfl⟩ : ∃ f, fuel = f + 1 := ⟨fuel - 1, by omega⟩
      rfl
  | succ k ih =>
      obtain ⟨fuel, rfl⟩ : ∃ f, fuel = f + 1 := ⟨fuel - 1, by omega⟩
      have heven : 2 ^ (k + 1) % 2 = 0 := by rw [Nat.pow_succ]; exact Nat.mul_mod_left _ _
      have hhalf : 2 ^ (k + 1) / 2 = 2 ^ k := by rw [Nat.pow_succ]; exact Nat.mul_div_cancel _ Nat.two_pos
      rw [trailingZeros, if_pos heven, hhalf, ih (by omega)]

def divCeil (n d : Nat) : Nat := (n + d - 1) / d

theorem le_divCeil_mul {n d : Nat} (hd : 0 < d) : n ≤ divCeil n d * d := by
  have hmod : (n + d - 1) % d < d := Nat.mod_lt _ hd
  have hdm : d * ((n + d - 1) / d) + (n + d - 1) % d = n + d - 1 := Nat.div_add_mod _ _
  rw [divCeil, Nat.mul_comm]
  omega

/-- A tensor as a kernel reads it. -/
def Tensor.buffer (fl : Floats F) (t : Tensor F) (i : Nat) : F := t.data.getD i fl.zero

/-- Row `r` of an input of `width`. -/
def inputRow (fl : Floats F) (x : Tensor F) (width r i : Nat) : F := x.buffer fl (r * width + i)

/-! ## The AWQ layout -/

@[ext]
structure AwqShape where
  inFeatures : Nat
  outFeatures : Nat
  groupSize : Nat
  packedOut : Nat

def AwqShape.newBits (inFeatures packedOut groups outFeatures bits : Nat) : Result AwqShape := do
  let packFactor := 32 / bits
  ensure (packedOut * packFactor = outFeatures)
    (.bail s!"W{bits}A16: qweight packed_out {packedOut} (×{packFactor}) != scales out {outFeatures}")
  ensure (groups ≠ 0 ∧ inFeatures % groups = 0)
    (.bail s!"W{bits}A16: in_features {inFeatures} not divisible by groups {groups}")
  return ⟨inFeatures, outFeatures, inFeatures / groups, packedOut⟩

structure W4A16Matmul (F : Type) where
  qweight : Tensor Int
  qzeros : Tensor Int
  scales : Tensor F
  bits : Nat

namespace W4A16Matmul

variable (fl : Floats F) (op : W4A16Matmul F) (x : Tensor F)

/-- The checks in front of a launch; the rows and the shape. -/
def shape : Result (Nat × AwqShape) := do
  let xDims := x.dims
  let (m, inFeatures) ← x.dims2
    (.bail s!"W4A16Matmul: x must be [m, in] with m in 1..=8 (decode GEMV path), got {xDims}")
  ensure (1 ≤ m ∧ m ≤ 8)
    (.bail s!"W4A16Matmul: x must be [m, in] with m in 1..=8 (decode GEMV path), got {xDims}")
  let (qwIn, packedOut) ← op.qweight.dims2 .candle
  let (groups, outFeatures) ← op.scales.dims2 .candle
  let qzerosDims := op.qzeros.dims
  ensure (qzerosDims = [groups, packedOut])
    (.bail s!"W4A16Matmul: qzeros shape {qzerosDims} != [{groups}, {packedOut}]")
  let shape ← AwqShape.newBits qwIn packedOut groups outFeatures op.bits
  let bits := op.bits
  ensure (inFeatures = shape.inFeatures)
    (.bail s!"W{bits}A16Matmul: x in_features {inFeatures} != weight in_features {qwIn}")
  let scalesName := op.scales.dtype.debug
  let xName := x.dtype.debug
  ensure (op.scales.dtype = x.dtype)
    (.bail s!"W{bits}A16Matmul: scales dtype {scalesName} must match x dtype {xName}")
  let groupSize := shape.groupSize
  ensure groupSize.isPowerOfTwo (.bail s!"W{bits}A16Matmul: group_size {groupSize} must be a power of two")
  ensure ((bits = 4 ∨ bits = 8) ∧ (x.dtype = .f16 ∨ x.dtype = .bf16))
    (.bail s!"W{bits}A16Matmul: unsupported (bits, dtype) combo ({bits}, {xName})")
  return (m, shape)

def weights : Packed F := ⟨word op.qweight, word op.qzeros, op.scales.buffer fl⟩

end W4A16Matmul

namespace AwqShape

variable (s : AwqShape)

/-- `s_rows`. -/
def sRows : Nat := if 1024 ≤ s.packedOut then qdetS else qdetAS

/-- `det_tgw`. -/
def detTgw (m : Nat) : Nat := if 1 < m ∨ (512 ≤ s.packedOut ∧ s.packedOut < 1024) then qdetAbTgw else qdetATgw

def params (m : Nat) (outF32 : Bool) : W4A16Params where
  inFeatures := s.inFeatures
  outFeatures := s.outFeatures
  packedOut := s.packedOut
  groupSize := s.groupSize
  groupShift := trailingZeros s.groupSize s.groupSize
  kSplits := divCeil s.inFeatures (divCeil s.inFeatures s.sRows)
  chunk := divCeil s.inFeatures s.sRows
  m := m
  outF32 := outF32

/-- The class of geometry that names the kernel. -/
def geometry (m : Nat) : Nat :=
  let wide := 1024 ≤ s.packedOut
  if 1 < m then if wide then 4 else 2
  else if s.packedOut < 512 then 0
  else if ¬ wide then 1
  else 3

end AwqShape

/-- Width and splits of the kernel of a class. -/
def awqKernel : Nat → Nat × Nat
  | 0 => (32, 32)
  | 1 => (16, 32)
  | 3 => (32, qdetS)
  | 4 => (qdetAbTgw, qdetS)
  | _ => (qdetAbTgw, qdetAS)

/-- The dispatch is the geometry of the kernel it dispatches. -/
theorem awqKernel_geometry (s : AwqShape) (m : Nat) : awqKernel (s.geometry m) = (s.detTgw m, s.sRows) := by
  unfold AwqShape.geometry AwqShape.detTgw AwqShape.sRows
  by_cases hm : 1 < m
  · by_cases hw : 1024 ≤ s.packedOut
    · rw [if_pos hm, if_pos hw, if_pos (.inl hm), if_pos hw]; rfl
    · rw [if_pos hm, if_neg hw, if_pos (.inl hm), if_neg hw]; rfl
  · by_cases hn : s.packedOut < 512
    · rw [if_neg hm, if_pos hn, if_neg (by omega), if_neg (by omega)]; rfl
    · by_cases hw : 1024 ≤ s.packedOut
      · rw [if_neg hm, if_neg hn, if_neg (not_not.2 hw), if_neg (by omega), if_pos hw]; rfl
      · rw [if_neg hm, if_neg hn, if_pos hw, if_pos (.inr ⟨by omega, by omega⟩), if_neg hw]; rfl

section Launch

variable (fl : Floats F) (store : F → O)

/-- `metal_fwd`: what a launch of the product may leave in its output. -/
def W4A16Matmul.Answers (op : W4A16Matmul F) (outF32 : Bool) (x : Tensor F) (after : Nat → O) : Prop :=
  ∃ m s, op.shape x = .ok (m, s) ∧
    Launched (List.range (divCeil s.packedOut (s.detTgw m))) (grid (s.detTgw m) s.sRows)
      (if 1 < m then
        awqGemvBatchDet fl op.bits (op.weights fl) (s.params m outF32) store (awqKernel (s.geometry m)).1
          (awqKernel (s.geometry m)).2 (x.buffer fl)
      else
        awqGemvDet fl op.bits (op.weights fl) (s.params m outF32) store (awqKernel (s.geometry m)).1
          (awqKernel (s.geometry m)).2 (x.buffer fl)) after

/-- The slot of a column in its word. -/
def packSlot (bits o : Nat) : Nat := if bits = 4 then invPackOrder.getD (o % 8) 0 else o % (32 / bits)

theorem packSlot_spec {bits : Nat} (hbits : bits = 4 ∨ bits = 8) (o : Nat) :
    packSlot bits o < 32 / bits ∧ packPosition bits (packSlot bits o) = o % (32 / bits) := by
  have h4 : ∀ r < 8, invPackOrder.getD r 0 < 8 ∧ awqPackOrder.getD (invPackOrder.getD r 0) 0 = r := by decide
  rcases hbits with rfl | rfl
  · exact h4 (o % 8) (Nat.mod_lt _ (by decide))
  · exact ⟨Nat.mod_lt _ (by decide), rfl⟩

/-- What a row has in column `o`. -/
def AwqShape.column (s : AwqShape) (bits : Nat) (w : Packed F) (row : Nat → F) (o : Nat) : F :=
  sumSplits fl s.sRows (awqShare fl bits w (s.params 1 false) row (o / (32 / bits)) (packSlot bits o))

end Launch

namespace W4A16Matmul

variable {fl : Floats F} {store : F → O} {op : W4A16Matmul F} {x : Tensor F} {outF32 : Bool} {after : Nat → O}

/-- What the checks let through. -/
structure Fits (op : W4A16Matmul F) (x : Tensor F) (m : Nat) (s : AwqShape) : Prop where
  bits : op.bits = 4 ∨ op.bits = 8
  rows : 1 ≤ m ∧ m ≤ 8
  dims : x.dims = [m, s.inFeatures]
  qweight : op.qweight.dims = [s.inFeatures, s.packedOut]
  out : s.outFeatures = s.packedOut * (32 / op.bits)
  power : s.groupSize.isPowerOfTwo
  groups : ∃ groups, 0 < groups ∧ groups ∣ s.inFeatures ∧ s.groupSize = s.inFeatures / groups ∧
    op.scales.dims = [groups, s.outFeatures] ∧ op.qzeros.dims = [groups, s.packedOut]

theorem dims2_eq_ok {α : Type} {t : Tensor α} {a b : Nat} {failure : Failure} :
    t.dims2 failure = .ok (a, b) ↔ t.dims = [a, b] := by
  unfold Tensor.dims2
  rcases ht : t.dims with - | ⟨n, - | ⟨m, - | ⟨k, rest⟩⟩⟩
  · exact ⟨fun h => (nomatch h), fun h => (nomatch h)⟩
  · exact ⟨fun h => (nomatch h), fun h => (nomatch h)⟩
  · constructor
    · intro h
      obtain ⟨rfl, rfl⟩ := Prod.mk.inj (Except.ok.inj h)
      rfl
    · intro h
      obtain ⟨rfl, hrest⟩ := List.cons.inj h
      obtain ⟨rfl, -⟩ := List.cons.inj hrest
      rfl
  · exact ⟨fun h => (nomatch h), fun h => (nomatch h)⟩

theorem fits_of_shape {m : Nat} {s : AwqShape} (h : op.shape x = .ok (m, s)) : Fits op x m s := by
  unfold shape at h
  obtain ⟨⟨m', inF⟩, hx, h⟩ := Traverse.bind_eq_ok.1 h
  obtain ⟨_, hm, h⟩ := Traverse.bind_eq_ok.1 h
  obtain ⟨⟨qwIn, packedOut⟩, hq, h⟩ := Traverse.bind_eq_ok.1 h
  obtain ⟨⟨groups, outF⟩, hs, h⟩ := Traverse.bind_eq_ok.1 h
  obtain ⟨_, hz, h⟩ := Traverse.bind_eq_ok.1 h
  obtain ⟨s', hs', h⟩ := Traverse.bind_eq_ok.1 h
  obtain ⟨_, hin, h⟩ := Traverse.bind_eq_ok.1 h
  obtain ⟨_, -, h⟩ := Traverse.bind_eq_ok.1 h
  obtain ⟨_, hpow, h⟩ := Traverse.bind_eq_ok.1 h
  obtain ⟨_, hbits, h⟩ := Traverse.bind_eq_ok.1 h
  obtain ⟨rfl, rfl⟩ := Prod.mk.inj (Except.ok.inj h)
  unfold AwqShape.newBits at hs'
  obtain ⟨_, hpacked, hs'⟩ := Traverse.bind_eq_ok.1 hs'
  obtain ⟨_, hgroups, hs'⟩ := Traverse.bind_eq_ok.1 hs'
  obtain rfl := Except.ok.inj hs'
  obtain rfl := ensure_eq_ok.1 hin
  obtain ⟨hne, hmod⟩ := ensure_eq_ok.1 hgroups
  exact ⟨(ensure_eq_ok.1 hbits).1, ensure_eq_ok.1 hm, dims2_eq_ok.1 hx, dims2_eq_ok.1 hq, (ensure_eq_ok.1 hpacked).symm,
    ensure_eq_ok.1 hpow, groups, Nat.pos_of_ne_zero hne, Nat.dvd_of_mod_eq_zero hmod, rfl, dims2_eq_ok.1 hs,
    ensure_eq_ok.1 hz⟩

theorem sRows_pos (s : AwqShape) : 8 ≤ s.sRows := by
  unfold AwqShape.sRows
  by_cases h : 1024 ≤ s.packedOut
  · rw [if_pos h]; decide
  · rw [if_neg h]; decide

theorem detTgw_pos (s : AwqShape) (m : Nat) : 0 < s.detTgw m := by
  unfold AwqShape.detTgw
  by_cases h : 1 < m ∨ (512 ≤ s.packedOut ∧ s.packedOut < 1024)
  · rw [if_pos h]; decide
  · rw [if_neg h]; decide

/-- Whatever the batch and the schedule, a row has the output of that row. -/
theorem answers_row (h : op.Answers fl store outF32 x after) :
    ∃ m s, Fits op x m s ∧ ∀ r < m, ∀ o < s.outFeatures, after (r * s.outFeatures + o) =
      store (s.column fl op.bits (op.weights fl) (inputRow fl x s.inFeatures r) o) := by
  obtain ⟨m, s, hshape, hlaunch⟩ := h
  have hfits := fits_of_shape hshape
  refine ⟨m, s, hfits, fun r hr o ho => ?_⟩
  rw [awqKernel_geometry] at hlaunch
  obtain ⟨hk, hpos⟩ := packSlot_spec hfits.bits o
  have hword : 0 < 32 / op.bits := by rcases hfits.bits with hb | hb <;> rw [hb] <;> decide
  have hj : o / (32 / op.bits) < s.packedOut := by
    rw [hfits.out] at ho
    exact Nat.div_lt_of_lt_mul (Nat.mul_comm s.packedOut _ ▸ ho)
  have hS : 32 / op.bits ≤ s.sRows := by
    have hle := sRows_pos s
    rcases hfits.bits with hb | hb <;> rw [hb] <;> omega
  have hcover : s.packedOut ≤ divCeil s.packedOut (s.detTgw m) * s.detTgw m := le_divCeil_mul (detTgw_pos s m)
  have hcol : o / (32 / op.bits) * (32 / op.bits) + packPosition op.bits (packSlot op.bits o) = o := by
    rw [hpos, Nat.mul_comm]
    exact Nat.div_add_mod _ _
  by_cases hm : 1 < m
  · rw [if_pos hm] at hlaunch
    have hrow : r < min (s.params m outF32).m awqBatchMax := Nat.lt_min.2 ⟨hr, Nat.lt_of_lt_of_le hr hfits.rows.2⟩
    have hout := awqGemvBatchDet_launched hfits.bits hS hfits.out hlaunch hcover hrow hj hk
    rw [Nat.add_assoc, hcol] at hout
    exact hout
  · rw [if_neg hm] at hlaunch
    obtain rfl : m = 1 := by have := hfits.rows.1; omega
    obtain rfl : r = 0 := by omega
    have hout := awqGemvDet_launched hfits.bits hS hlaunch hcover hj hk
    have hfirst : x.buffer fl = inputRow fl x s.inFeatures 0 := by
      funext i
      rw [inputRow, Nat.zero_mul, Nat.zero_add]
    rw [hcol, hfirst] at hout
    rw [Nat.zero_mul, Nat.zero_add]
    exact hout

end W4A16Matmul

/-! ## The GPTQ layout -/

@[ext]
structure GptqShape where
  inFeatures : Nat
  outFeatures : Nat
  groupSize : Nat
  packedIn : Nat

def GptqShape.newBits (packedIn outFeatures groups bits : Nat) : Result GptqShape := do
  let packFactor := 32 / bits
  let inFeatures := packedIn * packFactor
  ensure (groups ≠ 0 ∧ inFeatures % groups = 0)
    (.bail s!"GPTQ-W{bits}A16: in_features {inFeatures} not divisible by groups {groups}")
  ensure (outFeatures % packFactor = 0)
    (.bail s!"GPTQ-W{bits}A16: out_features {outFeatures} not divisible by pack_factor {packFactor}")
  return ⟨inFeatures, outFeatures, inFeatures / groups, packedIn⟩

structure GptqMatmul (F : Type) where
  qweight : Tensor Int
  qzeros : Tensor Int
  scales : Tensor F
  bits : Nat

namespace GptqMatmul

variable (fl : Floats F) (op : GptqMatmul F) (x : Tensor F)

/-- The checks in front of a launch; the rows and the shape. -/
def shape : Result (Nat × GptqShape) := do
  let packFactor := 32 / op.bits
  let xDims := x.dims
  let (m, inFeatures) ← x.dims2
    (.bail s!"GptqMatmul: x must be [m, in] with m in 1..=8 (decode GEMV path), got {xDims}")
  ensure (1 ≤ m ∧ m ≤ 8) (.bail s!"GptqMatmul: x must be [m, in] with m in 1..=8 (decode GEMV path), got {xDims}")
  let (packedIn, qwOut) ← op.qweight.dims2 .candle
  let (groups, outFeatures) ← op.scales.dims2 .candle
  ensure (qwOut = outFeatures) (.bail s!"GptqMatmul: qweight dim1 {qwOut} != scales out_features {outFeatures}")
  let qzDims := op.qzeros.dims
  let qzWant := outFeatures / packFactor
  let (qzGroups, qzOut) ← op.qzeros.dims2 (.bail s!"GptqMatmul: qzeros shape {qzDims} != [{groups}, {qzWant}]")
  ensure (qzGroups = groups ∧ qzOut * packFactor = outFeatures)
    (.bail s!"GptqMatmul: qzeros shape {qzDims} != [{groups}, {qzWant}]")
  let shape ← GptqShape.newBits packedIn outFeatures groups op.bits
  let weightIn := shape.inFeatures
  ensure (inFeatures = shape.inFeatures)
    (.bail s!"GptqMatmul: x in_features {inFeatures} != weight in_features {weightIn}")
  let scalesName := op.scales.dtype.debug
  let xName := x.dtype.debug
  ensure (op.scales.dtype = x.dtype) (.bail s!"GptqMatmul: scales dtype {scalesName} must match x dtype {xName}")
  let groupSize := shape.groupSize
  ensure groupSize.isPowerOfTwo (.bail s!"GptqMatmul: group_size {groupSize} must be a power of two")
  let bits := op.bits
  ensure ((bits = 4 ∨ bits = 8) ∧ (x.dtype = .f16 ∨ x.dtype = .bf16))
    (.bail s!"GptqMatmul: unsupported (bits, dtype) combo ({bits}, {xName})")
  return (m, shape)

def weights : Packed F := ⟨word op.qweight, word op.qzeros, op.scales.buffer fl⟩

end GptqMatmul

def GptqShape.params (s : GptqShape) (bits m : Nat) (outF32 : Bool) : GptqParams :=
  let sRows := if m = 1 then qdetS else qdetSBatch
  let rawChunk := divCeil s.inFeatures sRows
  let chunk := divCeil rawChunk (32 / bits) * (32 / bits)
  { inFeatures := s.inFeatures
    outFeatures := s.outFeatures
    groupSize := s.groupSize
    groupShift := trailingZeros s.groupSize s.groupSize
    kSplits := divCeil s.inFeatures chunk
    chunk := chunk
    m := m
    outF32 := outF32 }

/-- `metal_fwd`: what a launch of the product may leave in its output. -/
def GptqMatmul.Answers (fl : Floats F) (store : F → O) (op : GptqMatmul F) (outF32 : Bool) (x : Tensor F)
    (after : Nat → O) : Prop :=
  ∃ m s, op.shape x = .ok (m, s) ∧
    Launched (List.range (divCeil s.outFeatures qdetTgw)) (grid qdetTgw (if m = 1 then qdetS else qdetSBatch))
      (gptqGemvBatchDet fl op.bits (op.weights fl) (s.params op.bits m outF32) store (x.buffer fl)) after

/-- What a row has in column `o`. -/
def GptqShape.column (fl : Floats F) (s : GptqShape) (bits : Nat) (w : Packed F) (row : Nat → F) (o : Nat) : F :=
  sumSplits fl qdetSBatch (gptqShare fl bits w (s.params bits 1 false) row o 0)

namespace GptqMatmul

variable {fl : Floats F} {store : F → O} {op : GptqMatmul F} {x : Tensor F} {outF32 : Bool} {after : Nat → O}

/-- What the checks let through. -/
structure Fits (op : GptqMatmul F) (x : Tensor F) (m : Nat) (s : GptqShape) : Prop where
  bits : op.bits = 4 ∨ op.bits = 8
  rows : 1 ≤ m ∧ m ≤ 8
  dims : x.dims = [m, s.inFeatures]
  qweight : op.qweight.dims = [s.packedIn, s.outFeatures]
  packed : s.inFeatures = s.packedIn * (32 / op.bits)
  out : s.outFeatures % (32 / op.bits) = 0
  power : s.groupSize.isPowerOfTwo
  groups : ∃ groups, 0 < groups ∧ groups ∣ s.inFeatures ∧ s.groupSize = s.inFeatures / groups ∧
    op.scales.dims = [groups, s.outFeatures] ∧ op.qzeros.dims = [groups, s.outFeatures / (32 / op.bits)]

theorem fits_of_shape {m : Nat} {s : GptqShape} (h : op.shape x = .ok (m, s)) : Fits op x m s := by
  unfold shape at h
  obtain ⟨⟨m', inF⟩, hx, h⟩ := Traverse.bind_eq_ok.1 h
  obtain ⟨_, hm, h⟩ := Traverse.bind_eq_ok.1 h
  obtain ⟨⟨packedIn, qwOut⟩, hq, h⟩ := Traverse.bind_eq_ok.1 h
  obtain ⟨⟨groups, outF⟩, hs, h⟩ := Traverse.bind_eq_ok.1 h
  obtain ⟨_, hout, h⟩ := Traverse.bind_eq_ok.1 h
  obtain ⟨⟨qzGroups, qzOut⟩, hz, h⟩ := Traverse.bind_eq_ok.1 h
  obtain ⟨_, hzeros, h⟩ := Traverse.bind_eq_ok.1 h
  obtain ⟨s', hs', h⟩ := Traverse.bind_eq_ok.1 h
  obtain ⟨_, hin, h⟩ := Traverse.bind_eq_ok.1 h
  obtain ⟨_, -, h⟩ := Traverse.bind_eq_ok.1 h
  obtain ⟨_, hpow, h⟩ := Traverse.bind_eq_ok.1 h
  obtain ⟨_, hbits, h⟩ := Traverse.bind_eq_ok.1 h
  obtain ⟨rfl, rfl⟩ := Prod.mk.inj (Except.ok.inj h)
  unfold GptqShape.newBits at hs'
  obtain ⟨_, hgroups, hs'⟩ := Traverse.bind_eq_ok.1 hs'
  obtain ⟨_, hwhole, hs'⟩ := Traverse.bind_eq_ok.1 hs'
  obtain rfl := Except.ok.inj hs'
  obtain rfl := ensure_eq_ok.1 hin
  obtain rfl := ensure_eq_ok.1 hout
  obtain ⟨rfl, hqz⟩ := ensure_eq_ok.1 hzeros
  obtain ⟨hne, hmod⟩ := ensure_eq_ok.1 hgroups
  have hbits := (ensure_eq_ok.1 hbits).1
  have hword : 0 < 32 / op.bits := by rcases hbits with hb | hb <;> rw [hb] <;> decide
  have hzdims : op.qzeros.dims = [qzGroups, qwOut / (32 / op.bits)] := by
    rw [W4A16Matmul.dims2_eq_ok.1 hz, ← hqz, Nat.mul_div_cancel _ hword]
  exact ⟨hbits, ensure_eq_ok.1 hm, W4A16Matmul.dims2_eq_ok.1 hx, W4A16Matmul.dims2_eq_ok.1 hq, rfl,
    ensure_eq_ok.1 hwhole, ensure_eq_ok.1 hpow, qzGroups, Nat.pos_of_ne_zero hne, Nat.dvd_of_mod_eq_zero hmod, rfl,
    W4A16Matmul.dims2_eq_ok.1 hs, hzdims⟩

/-- A row of a batch is summed as it is alone. -/
theorem gptqShare_row (bits : Nat) (w : Packed F) (s : GptqShape) (m : Nat) (x : Nat → F) (o r ks : Nat) :
    gptqShare fl bits w (s.params bits m outF32) x o r ks =
      gptqShare fl bits w (s.params bits 1 false) (fun i => x (r * s.inFeatures + i)) o 0 ks := by
  have hparams : s.params bits m outF32 = { s.params bits 1 false with m := m, outF32 := outF32 } := by
    unfold GptqShape.params
    by_cases hm : m = 1
    · rw [if_pos hm]; rfl
    · rw [if_neg hm]; rfl
  rw [hparams]
  have hin : ∀ iw k, r * s.inFeatures + iw * (32 / bits) + k = r * s.inFeatures + (0 * s.inFeatures + iw * (32 / bits) + k) := by
    intro iw k
    rw [Nat.zero_mul, Nat.zero_add, Nat.add_assoc]
  unfold gptqShare gptqWord
  show (if o < s.outFeatures ∧ _ then List.foldl (fun a iw => fl.add a (List.foldl (fun a k =>
    fl.add a (fl.mul (x (r * s.inFeatures + iw * (32 / bits) + k)) _)) _ _)) _ _ else _) = _
  simp only [hin]
  rfl

/-- Whatever the batch and the schedule, a row has the output of that row. -/
theorem answers_row (h : op.Answers fl store outF32 x after) :
    ∃ m s, Fits op x m s ∧ ∀ r < m, ∀ o < s.outFeatures, after (r * s.outFeatures + o) =
      store (s.column fl op.bits (op.weights fl) (inputRow fl x s.inFeatures r) o) := by
  obtain ⟨m, s, hshape, hlaunch⟩ := h
  have hfits := fits_of_shape hshape
  refine ⟨m, s, hfits, fun r hr o ho => ?_⟩
  have hsplits : (if m = 1 then qdetS else qdetSBatch) = qdetSBatch := by
    by_cases hm : m = 1
    · rw [if_pos hm]; rfl
    · rw [if_neg hm]
  rw [hsplits] at hlaunch
  have hcover : s.outFeatures ≤ divCeil s.outFeatures qdetTgw * qdetTgw := le_divCeil_mul (by decide)
  have hrow : r < min (s.params op.bits m outF32).m awqBatchMax :=
    Nat.lt_min.2 ⟨hr, Nat.lt_of_lt_of_le hr hfits.rows.2⟩
  refine (gptqGemvBatchDet_launched hlaunch hcover hrow ho).trans (congrArg store ?_)
  exact sumSplits_congr fun ks _ => gptqShare_row op.bits _ s m _ o r ks

end GptqMatmul

end Oxydllm.Quant
