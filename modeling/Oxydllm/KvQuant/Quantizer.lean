/-
# Oxydllm.KvQuant.Quantizer — keys and values in two to four bits an entry.

A head's vector is scaled to length one, rotated by signs and a Walsh-Hadamard transform, and every entry of it replaced
by the index of the nearest of a few centroids; a key may carry one sign bit an entry of what that left over. The
arithmetic is whatever `K` computes, rounded or not: nothing here needs a law of it. `none` is a panic, `u8` is eight
bits, an index or a length is a natural number.
-/
import Mathlib.Data.Rat.Defs
import Mathlib.Tactic
import Oxydllm.Lib.Bisect
import Oxydllm.Lib.Loop

namespace Oxydllm.KvQuant

open Loop

/-- `u8`. -/
abbrev U8 := BitVec 8

/-! ## Centroids -/

/-- Lloyd-Max optimal centroids for N(0,1). -/
def centroids1bit : List ℚ := [-0.7979, 0.7979]

def centroids2bit : List ℚ := [-1.5104, -0.4528, 0.4528, 1.5104]

def centroids3bit : List ℚ := [-2.1520, -1.3439, -0.7560, -0.2451, 0.2451, 0.7560, 1.3439, 2.1520]

def centroids4bit : List ℚ := [-2.7326, -2.0691, -1.6180, -1.2562, -0.9423, -0.6568, -0.3881, -0.1284, 0.1284, 0.3881,
  0.6568, 0.9423, 1.2562, 1.6180, 2.0691, 2.7326]

/-- The table of a bit width. -/
def centroidsOf : Nat → Option (List ℚ)
  | 1 => some centroids1bit
  | 2 => some centroids2bit
  | 3 => some centroids3bit
  | 4 => some centroids4bit
  | _ => none

section Search

variable {K : Type} [Zero K]

def computeBoundaries [NatCast K] [Add K] [Div K] (centroids : List K) : List K :=
  (List.range (centroids.length - 1)).map fun i => (centroids.getD i 0 + centroids.getD (i + 1) 0) / ((2 : Nat) : K)

/-- `KvQuantizer::find_nearest`. -/
def findNearest [LE K] [DecidableLE K] (boundaries : List K) (val : K) : U8 :=
  BitVec.ofNat 8 (bisect (fun mid => decide (val ≤ boundaries.getD mid 0)) 0 boundaries.length)

end Search

/-! ## Signs -/

def xorshift64 (state : UInt64) : UInt64 :=
  let x := state
  let x := x ^^^ (x <<< 13)
  let x := x ^^^ (x >>> 7)
  x ^^^ (x <<< 17)

/-- The signs of the next `n` states. -/
def signsFrom {K : Type} [One K] [Neg K] : Nat → UInt64 → List K
  | 0, _ => []
  | n + 1, state =>
      let state := xorshift64 state
      (if state &&& 1 = 0 then -1 else 1) :: signsFrom n state

def generateSignsWithSeed {K : Type} [One K] [Neg K] (headDim : Nat) (seed : UInt64) : List K :=
  let state := seed ^^^ (UInt64.ofNat headDim * 2654435761)
  signsFrom headDim (if state = 0 then 1 else state)

def generateSigns {K : Type} [One K] [Neg K] (headDim : Nat) : List K := generateSignsWithSeed headDim 0x5DEECE66D

def generateQjlSigns {K : Type} [One K] [Neg K] (headDim : Nat) : List K :=
  generateSignsWithSeed headDim 0x9E3779B97F4A7C15

/-! ## The transform -/

section Transform

variable {K : Type}

/-- One turn of the innermost loop. -/
def butterfly [Add K] [Sub K] (half : Nat) (x : List K) (j : Nat) : Option (List K) := do
  let a ← x[j]?
  let b ← x[j + half]?
  let x ← setAt x j (a + b)
  setAt x (j + half) (a - b)

/-- The two inner loops. -/
def whtStage [Add K] [Sub K] (half : Nat) (x : List K) : Option (List K) :=
  stepBy x.length (half * 2) (fun x i => times half (fun x o => butterfly half x (i + o)) x) x

/-- `while half < d`; it does not turn as often as `fuel`. -/
def whtLoop [Add K] [Sub K] (d : Nat) : Nat → Nat → List K → Option (List K)
  | 0, half, x => if half < d then none else some x
  | fuel + 1, half, x => if half < d then (whtStage half x).bind (whtLoop d fuel (half * 2)) else some x

/-- Unnormalized, requires power-of-2 length. -/
def whtInplace [Add K] [Sub K] (x : List K) : Option (List K) := whtLoop x.length x.length 1 x

/-- `*y *= s` over the entries both have. -/
def scaleBy [Mul K] : List K → List K → List K
  | y :: ys, s :: ss => y * s :: scaleBy ys ss
  | ys, _ => ys

end Transform

/-! ## Packing -/

/-- `xs[i] |= v`. -/
def orAt (xs : List U8) (i : Nat) (v : U8) : Option (List U8) := xs[i]?.bind fun x => setAt xs i (x ||| v)

/-- `xs` cut or filled with `v` to `n` entries. -/
def resize {α : Type} (n : Nat) (v : α) (xs : List α) : List α := xs.take n ++ List.replicate (n - xs.length) v

def divCeil (n k : Nat) : Nat := (n + k - 1) / k

section Pack

variable (headDim : Nat)

def pack1bit (indices : List U8) : Option (List U8) :=
  (indices.take headDim).zipIdx.foldlM (fun packed (idx, i) =>
    if idx &&& 1 ≠ 0 then orAt packed (i / 8) ((1 : U8) <<< (i % 8)) else some packed)
    (List.replicate (divCeil headDim 8) 0)

def unpack1bit (packed : List U8) : Option (List U8) :=
  (List.range headDim).mapM fun i => packed[i / 8]?.map fun byte : U8 => (byte >>> (i % 8)) &&& 1

def pack4bit (indices : List U8) : Option (List U8) :=
  stepBy headDim 2 (fun packed i => do
    let lo ← indices[i]?
    let hi ← (if i + 1 < headDim then indices[i + 1]?.map (· &&& 0x0F) else some 0 : Option U8)
    setAt packed (i / 2) ((lo &&& (0x0F : U8)) ||| (hi <<< 4))) (List.replicate (divCeil headDim 2) 0)

def unpack4bit (packed : List U8) : Option (List U8) :=
  stepBy headDim 2 (fun indices i => do
    let byte ← packed[i / 2]?
    let indices ← setAt indices i (byte &&& 0x0F)
    if i + 1 < headDim then setAt indices (i + 1) ((byte >>> 4) &&& 0x0F) else some indices)
    (List.replicate headDim 0)

def pack3bit (indices : List U8) : Option (List U8) :=
  let totalBytes := divCeil (headDim * 3) 8
  (indices.take headDim).zipIdx.foldlM (fun packed (idx, i) => do
    let val := idx &&& 0x07
    let bitOffset := i * 3
    let byteIdx := bitOffset / 8
    let bitIdx := bitOffset % 8
    let packed ← orAt packed byteIdx (val <<< bitIdx)
    if bitIdx > 5 ∧ byteIdx + 1 < totalBytes then orAt packed (byteIdx + 1) (val >>> (8 - bitIdx)) else some packed)
    (List.replicate totalBytes 0)

def unpack3bit (packed : List U8) : Option (List U8) :=
  (List.range headDim).mapM fun i => do
    let bitOffset := i * 3
    let byteIdx := bitOffset / 8
    let bitIdx := bitOffset % 8
    let byte ← packed[byteIdx]?
    let val := (byte >>> bitIdx) &&& 0x07
    if bitIdx > 5 ∧ byteIdx + 1 < packed.length then
      packed[byteIdx + 1]?.map fun next : U8 => val ||| ((next <<< (8 - bitIdx)) &&& 0x07)
    else some val

def pack2bit (indices : List U8) : Option (List U8) :=
  stepBy headDim 4 (fun packed i => do
    let byte ← times 4 (fun byte j =>
      if i + j < headDim then indices[i + j]?.map fun idx : U8 => byte ||| ((idx &&& 0x03) <<< (j * 2)) else some byte)
      (0 : U8)
    setAt packed (i / 4) byte) (List.replicate (divCeil headDim 4) 0)

def unpack2bit (packed : List U8) : Option (List U8) :=
  stepBy headDim 4 (fun indices i => do
    let byte ← packed[i / 4]?
    times 4 (fun indices j =>
      if i + j < headDim then setAt indices (i + j) ((byte >>> (j * 2)) &&& 0x03) else some indices) indices)
    (List.replicate headDim 0)

def packIndicesBits (bitWidth : Nat) (indices : List U8) : Option (List U8) :=
  match bitWidth with
  | 1 => pack1bit headDim indices
  | 4 => pack4bit headDim indices
  | 3 => pack3bit headDim indices
  | 2 => pack2bit headDim indices
  | _ => none

def unpackIndicesBits (bitWidth : Nat) (packed : List U8) : Option (List U8) :=
  match bitWidth with
  | 1 => unpack1bit headDim packed
  | 4 => unpack4bit headDim packed
  | 3 => unpack3bit headDim packed
  | 2 => unpack2bit headDim packed
  | _ => none

end Pack

/-! ## The quantizer -/

/-- What the quantizer calls of arithmetic beyond its operations: the reading of a literal, roots and π. -/
structure Numerics (K : Type) where
  lit : ℚ → K
  sqrt : K → K
  pi : K

structure KvQuantizer (K : Type) where
  bitWidth : Nat
  keyMseBitWidth : Nat
  qjlQuantization : Bool
  useHadamard : Bool
  headDim : Nat
  mseSigns : List K
  qjlSigns : List K
  valueScaledCentroids : List K
  valueScaledBoundaries : List K
  keyScaledCentroids : List K
  keyScaledBoundaries : List K
  invSqrtD : K
  qjlScale : K

variable {K : Type} [Zero K] [One K] [NatCast K] [Add K] [Sub K] [Mul K] [Neg K] [Div K]

/-- `KvQuantizer::new_with_qjl`. -/
def newWithQjl (ν : Numerics K) (bitWidth headDim : Nat) (qjlQuantization : Bool) : Option (KvQuantizer K) :=
  if 2 ≤ bitWidth ∧ bitWidth ≤ 4 then do
    let keyMseBitWidth := if qjlQuantization then bitWidth - 1 else bitWidth
    let valueTable ← centroidsOf bitWidth
    let keyTable ← centroidsOf keyMseBitWidth
    let valueCentroids := valueTable.map ν.lit
    let keyCentroids := keyTable.map ν.lit
    let invSqrtD := 1 / ν.sqrt (headDim : K)
    some {
      bitWidth, keyMseBitWidth, qjlQuantization, headDim, invSqrtD
      useHadamard := headDim ≠ 0 ∧ 2 ^ headDim.log2 = headDim
      mseSigns := generateSigns headDim
      qjlSigns := generateQjlSigns headDim
      valueScaledCentroids := valueCentroids.map (· * invSqrtD)
      valueScaledBoundaries := (computeBoundaries valueCentroids).map (· * invSqrtD)
      keyScaledCentroids := keyCentroids.map (· * invSqrtD)
      keyScaledBoundaries := (computeBoundaries keyCentroids).map (· * invSqrtD)
      qjlScale := ν.sqrt (ν.pi / ((2 : Nat) : K)) / (headDim : K) }
  else none

/-- What a new quantizer is. -/
structure Built (bitWidth headDim : Nat) (qjlQuantization : Bool) (q : KvQuantizer K) : Prop where
  two_le : 2 ≤ bitWidth
  le_four : bitWidth ≤ 4
  bitWidth_eq : q.bitWidth = bitWidth
  keyMseBitWidth_eq : q.keyMseBitWidth = if qjlQuantization then bitWidth - 1 else bitWidth
  qjlQuantization_eq : q.qjlQuantization = qjlQuantization
  headDim_eq : q.headDim = headDim
  useHadamard_eq : q.useHadamard = decide (headDim ≠ 0 ∧ 2 ^ headDim.log2 = headDim)
  mseSigns_eq : q.mseSigns = generateSigns headDim
  qjlSigns_eq : q.qjlSigns = generateQjlSigns headDim
  valueBoundaries_length : q.valueScaledBoundaries.length + 1 = 2 ^ q.bitWidth
  valueCentroids_length : q.valueScaledCentroids.length = 2 ^ q.bitWidth
  keyBoundaries_length : q.keyScaledBoundaries.length + 1 = 2 ^ q.keyMseBitWidth
  keyCentroids_length : q.keyScaledCentroids.length = 2 ^ q.keyMseBitWidth

theorem centroidsOf_length {bits : Nat} {table : List ℚ} (h : centroidsOf bits = some table) :
    table.length = 2 ^ bits := by
  rcases bits with - | - | - | - | - | bits <;> cases h <;> rfl

omit [Sub K] in
theorem newWithQjl_built {ν : Numerics K} {bitWidth headDim : Nat} {qjlQuantization : Bool} {q : KvQuantizer K}
    (h : newWithQjl ν bitWidth headDim qjlQuantization = some q) : Built bitWidth headDim qjlQuantization q := by
  rw [newWithQjl] at h
  obtain ⟨⟨htwo, hfour⟩, h⟩ := Option.ite_none_right_eq_some.1 h
  obtain ⟨valueTable, hvalue, h⟩ := Option.bind_eq_some_iff.1 h
  obtain ⟨keyTable, hkey, h⟩ := Option.bind_eq_some_iff.1 h
  obtain rfl := Option.some.inj h
  have hboundaries : ∀ table : List ℚ, 0 < table.length → ∀ c : K,
      ((computeBoundaries (table.map ν.lit)).map (· * c)).length + 1 = table.length := by
    intro table hpos c
    rw [List.length_map, computeBoundaries, List.length_map, List.length_range, List.length_map, Nat.sub_add_cancel hpos]
  have hvalueLen := centroidsOf_length hvalue
  have hkeyLen := centroidsOf_length hkey
  exact {
    two_le := htwo
    le_four := hfour
    bitWidth_eq := rfl
    keyMseBitWidth_eq := rfl
    qjlQuantization_eq := rfl
    headDim_eq := rfl
    useHadamard_eq := rfl
    mseSigns_eq := rfl
    qjlSigns_eq := rfl
    valueBoundaries_length := (hboundaries valueTable (hvalueLen ▸ Nat.two_pow_pos _) _).trans hvalueLen
    valueCentroids_length := by rw [List.length_map, List.length_map, hvalueLen]
    keyBoundaries_length := (hboundaries keyTable (hkeyLen ▸ Nat.two_pow_pos _) _).trans hkeyLen
    keyCentroids_length := by rw [List.length_map, List.length_map, hkeyLen] }

namespace KvQuantizer

section Rotation

variable (q : KvQuantizer K)

/-- `y = (1/sqrt(d)) * H * D * x_hat`, of a vector times `invNorm`. -/
def rotate (invNorm : K) (x : List K) : Option (List K) :=
  let y := scaleBy (x.map (· * invNorm)) q.mseSigns
  if q.useHadamard then (whtInplace y).map fun y => y.map (· * q.invSqrtD) else some y

/-- The way back from the entries `y`. -/
def unrotate (norm : K) (y : List K) : Option (List K) :=
  if q.useHadamard then
    (whtInplace y).map fun y => scaleBy y (q.mseSigns.map fun sign => q.invSqrtD * sign * norm)
  else some (scaleBy y (q.mseSigns.map fun sign => sign * norm))

end Rotation

variable [LE K] [LT K] [DecidableLE K] [DecidableLT K]

section Mse

variable (ν : Numerics K) (q : KvQuantizer K)

/-- `norm < 1e-10`. -/
def vanishes (norm : K) : Prop := norm < ν.lit 1e-10

instance (norm : K) : Decidable (vanishes ν norm) := inferInstanceAs (Decidable (_ < _))

/-- The length of a vector. -/
def normOf (x : List K) : K := ν.sqrt (x.foldl (fun s v => s + v * v) 0)

def packedBytesForBits (bitWidth : Nat) : Nat := divCeil (q.headDim * bitWidth) 8

def keyPackedBytes : Nat :=
  if q.qjlQuantization then q.packedBytesForBits q.keyMseBitWidth + q.packedBytesForBits 1
  else q.packedBytesForBits q.bitWidth

def valuePackedBytes : Nat := q.packedBytesForBits q.bitWidth

/-- The indices `quantize_mse` packs, where the vector has a length. -/
def indicesOf (boundaries : List K) (norm : K) (x : List K) : Option (List U8) :=
  (q.rotate (1 / norm) x).map fun y => resize q.headDim 0 (y.map (findNearest boundaries))

def quantizeMse (x : List K) (bitWidth : Nat) (boundaries : List K) (packedBytes : Nat) : Option (List U8 × K) :=
  let norm := normOf ν x
  if vanishes ν norm then some (List.replicate packedBytes 0, 0)
  else do
    let indices ← q.indicesOf boundaries norm x
    let packed ← packIndicesBits q.headDim bitWidth indices
    some (packed, norm)

/-- What `dequantize_mse` makes of the indices. -/
def fromIndices (norm : K) (centroids : List K) (indices : List U8) : Option (List K) := do
  let y ← (List.range q.headDim).mapM fun j => indices[j]?.bind fun idx => centroids[idx.toNat]?
  q.unrotate norm y

def dequantizeMse (packed : List U8) (norm : K) (bitWidth : Nat) (centroids : List K) (packedBytes : Nat) :
    Option (List K) :=
  if vanishes ν norm then some (List.replicate q.headDim 0)
  else if packed.length < packedBytes then some (List.replicate q.headDim 0)
  else (unpackIndicesBits q.headDim bitWidth (packed.take packedBytes)).bind (q.fromIndices norm centroids)

def quantize (x : List K) : Option (List U8 × K) :=
  q.quantizeMse ν x q.bitWidth q.valueScaledBoundaries q.valuePackedBytes

def dequantize (packed : List U8) (norm : K) : Option (List K) :=
  q.dequantizeMse ν packed norm q.bitWidth q.valueScaledCentroids q.valuePackedBytes

/-! ## Keys -/

/-- What the first stage leaves of a key, and its length. -/
def residualOf (x xMse : List K) : List K × K :=
  let differences := (List.zipWith (· - ·) x xMse).take q.headDim
  (resize q.headDim 0 differences, normOf ν differences)

/-- `sign(S r)`, S approximated via randomized Hadamard. -/
def signBits (residual : List K) : Option (List U8) := do
  let residual := scaleBy residual q.qjlSigns
  let residual ← (if q.useHadamard then whtInplace residual else some residual : Option (List K))
  some (resize q.headDim 0 (residual.map fun res => if 0 ≤ res then 1 else 0))

/-- The packed key is `[mse_indices | qjl_sign_bits]`. -/
def quantizeKey (x : List K) : Option (List U8 × K × K) :=
  if ¬ q.qjlQuantization then do
    let (packed, norm) ← q.quantize ν x
    some (packed, norm, 0)
  else do
    let mseBytes := q.packedBytesForBits q.keyMseBitWidth
    let (msePacked, mseNorm) ← q.quantizeMse ν x q.keyMseBitWidth q.keyScaledBoundaries mseBytes
    if vanishes ν mseNorm then some (resize q.keyPackedBytes 0 msePacked, 0, 0)
    else do
      let xMse ← q.dequantizeMse ν msePacked mseNorm q.keyMseBitWidth q.keyScaledCentroids mseBytes
      let (residual, residualNorm) := q.residualOf ν x xMse
      if vanishes ν residualNorm then some (resize q.keyPackedBytes 0 msePacked, mseNorm, 0)
      else do
        let qjlBits ← q.signBits residual
        let qjlPacked ← packIndicesBits q.headDim 1 qjlBits
        some (msePacked ++ qjlPacked, mseNorm, residualNorm)

/-- `x_qjl = gamma * sqrt(pi/2) / d * S^T sign(Sr)` on top of the first stage. -/
def addResidual (residualNorm : K) (out : List K) (qjlIndices : List U8) : Option (List K) := do
  let qjl := resize q.headDim 0 (qjlIndices.map fun idx => if idx = 0 then (-1 : K) else 1)
  let qjl ← (if q.useHadamard then whtInplace qjl else some qjl : Option (List K))
  let scale := residualNorm * q.qjlScale
  let added := List.zipWith (fun qv sign => scale * qv * sign) qjl q.qjlSigns
  some (List.zipWith (· + ·) out added ++ out.drop added.length)

def dequantizeKey (packed : List U8) (mseNorm residualNorm : K) : Option (List K) :=
  if ¬ q.qjlQuantization then q.dequantize ν packed mseNorm
  else
    let mseBytes := q.packedBytesForBits q.keyMseBitWidth
    let qjlBytes := q.packedBytesForBits 1
    if packed.length < mseBytes + qjlBytes then some (List.replicate q.headDim 0)
    else do
      let out ← q.dequantizeMse ν (packed.take mseBytes) mseNorm q.keyMseBitWidth q.keyScaledCentroids mseBytes
      if vanishes ν residualNorm then some out
      else do
        let qjlIndices ← unpackIndicesBits q.headDim 1 ((packed.drop mseBytes).take qjlBytes)
        q.addResidual residualNorm out qjlIndices

end Mse

end KvQuantizer

/-- Bytes of the pool for a key of a head, its two scalars included. -/
def quantizedKeyBytesPerHeadWithQjl (headDim bitWidth : Nat) (qjlQuantization : Bool) : Nat :=
  if qjlQuantization then divCeil (headDim * (bitWidth - 1)) 8 + divCeil headDim 8 + 8
  else divCeil (headDim * bitWidth) 8 + 4

def quantizedValueBytesPerHead (headDim bitWidth : Nat) : Nat := divCeil (headDim * bitWidth) 8 + 4

end Oxydllm.KvQuant
