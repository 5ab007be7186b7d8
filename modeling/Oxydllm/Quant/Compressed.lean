/-
# Oxydllm.Quant.Compressed — compressed-tensors weights in the AWQ layout.

`compressedToAwq` takes nibbles that lie one after the other along the input dimension and puts them where
AWQ looks for them, transposes the scales and makes every zero point 8. What it accepts dequantises to
`(nibble - 8) * scale`, the nibble and the scale being those of the compressed-tensors layout
(`compressedToAwq_dequantize`).
-/
import Oxydllm.Quant.Awq

namespace Oxydllm.Quant

open RowMajor Traverse

variable {R : Type}

/-! ## The conversion -/

/-- A word of eight outputs from jw * 8 on, made of the nibbles of one input. -/
def packNibbles (nib : Nat → BitVec 32) : BitVec 32 :=
  awqPackOrder.zipIdx.foldl (fun w p => w ||| (nib p.1 <<< (4 * p.2))) 0#32

/-- `qweight[i][jw]`. -/
def awqWord (ct : List (BitVec 32)) (packedIn i jw : Nat) : BitVec 32 :=
  let c := i / awqPackFactor
  -- the lanes of compressed-tensors are in order
  let sh := 4 * (i % awqPackFactor)
  packNibbles fun offset => (ct.getD ((jw * awqPackFactor + offset) * packedIn + c) 0 >>> sh) &&& 0xF#32

/-- The stores that transpose the scales. -/
def scaleStores [Zero R] (outF groups : Nat) (scalesCt : List R) : List (Nat × R) :=
  (List.range outF).flatMap fun o => (List.range groups).map fun g => (g * outF + o, scalesCt.getD (o * groups + g) 0)

def transposeScales [Zero R] (outF groups : Nat) (scalesCt : List R) : List R :=
  (scaleStores outF groups scalesCt).foldl (fun d s => d.set s.1 s.2) (List.replicate (groups * outF) 0)

/-- The tensor of the converted words. -/
def convertedWeight (ct : List (BitVec 32)) (packedIn inF packedOut : Nat) : Tensor Int where
  dtype := .u32
  dims := [inF, packedOut]
  data := (List.range inF).flatMap fun i => (List.range packedOut).map fun jw => ((awqWord ct packedIn i jw).toNat : Int)
  filled := by
    rw [length_flatMap_range fun r _ => by rw [List.length_map, List.length_range]]
    simp

/-- The synthesised zero points: eight times 8 to a word. -/
def convertedZeros (groups packedOut : Nat) : Tensor Int where
  dtype := .u32
  dims := [groups, packedOut]
  data := List.replicate (groups * packedOut) 0x88888888
  filled := by simp

def convertedScales [Zero R] (dtype : DType) (outF groups : Nat) (scalesCt : List R) : Tensor R where
  dtype := dtype
  dims := [groups, outF]
  data := transposeScales outF groups scalesCt
  filled := by
    rw [transposeScales, length_foldl_set]
    simp

/-- `compressed_to_awq`. Without outputs the chunks to fill would have no length, which panics. -/
def compressedToAwq [Zero R] (weightPacked : Tensor Int) (weightScale : Tensor R) : Result (QuantWeight R) := do
  let shape ← weightPacked.dims2 (.bail "weight_packed must be 2-D [out, in/8]")
  let outF := shape.1
  let packedIn := shape.2
  let inF := packedIn * awqPackFactor
  let scaleShape ← weightScale.dims2 (.bail "weight_scale must be 2-D [out, groups]")
  let scaleOut := scaleShape.1
  let groups := scaleShape.2
  ensure (scaleOut = outF) (.bail s!"weight_scale dim0 {scaleOut} != weight_packed out_features {outF}")
  ensure (groups ≠ 0 ∧ inF % groups = 0) (.bail s!"in_features {inF} not divisible by scale groups {groups}")
  ensure (outF % awqPackFactor = 0) (.bail s!"out_features {outF} not divisible by pack factor {awqPackFactor}")
  let packedOut := outF / awqPackFactor
  let ct ← readPackedToU32 weightPacked
  let scalesCt := weightScale.data
  ensure (packedOut ≠ 0) .panic
  return .newAwq 4 (convertedWeight ct packedIn inF packedOut) (convertedZeros groups packedOut)
    (convertedScales weightScale.dtype outF groups scalesCt)

/-! ## Lanes -/

theorem getLsbD_foldl_or (f : Nat × Nat → BitVec 32) (l : List (Nat × Nat)) (m : BitVec 32) (j : Nat) :
    (l.foldl (fun w p => w ||| f p) m).getLsbD j = (m.getLsbD j || l.any fun p => (f p).getLsbD j) := by
  induction l generalizing m with
  | nil => simp
  | cons p l ih => rw [List.foldl_cons, ih, BitVec.getLsbD_or, List.any_cons, Bool.or_assoc]

theorem packOrder_snd_lt : ∀ p ∈ awqPackOrder.zipIdx, p.2 < 8 := by decide

theorem packOrder_snd_inj : ∀ p ∈ awqPackOrder.zipIdx, ∀ p' ∈ awqPackOrder.zipIdx, p.2 = p'.2 → p = p' := by decide

theorem getLsbD_fifteen_low {b : Nat} (hb : b < 4) : (0xF#32).getLsbD b = true := by
  interval_cases b <;> rfl

theorem getLsbD_fifteen_high {b : Nat} (hb : 4 ≤ b) : (0xF#32).getLsbD b = false := by
  have hlt : 15 < 2 ^ b := calc
    15 < 2 ^ 4 := by decide
    _ ≤ 2 ^ b := Nat.pow_le_pow_right (by decide) hb
  rw [BitVec.getLsbD_ofNat, Nat.testBit_lt_two_pow hlt, Bool.and_false]

/-- A nibble has no bits above the fourth. -/
def IsNibble (x : BitVec 32) : Prop := ∀ b, 4 ≤ b → x.getLsbD b = false

theorem isNibble_and (x : BitVec 32) : IsNibble (x &&& 0xF#32) := fun b hb => by
  rw [BitVec.getLsbD_and, getLsbD_fifteen_high hb, Bool.and_false]

/-- The lane of an output has its nibble. -/
theorem nibble_packNibbles {nib : Nat → BitVec 32} (hnib : ∀ x, IsNibble (nib x)) {p : Nat × Nat}
    (hp : p ∈ awqPackOrder.zipIdx) : nibble (packNibbles nib) (4 * p.2) = (nib p.1).toNat := by
  refine congrArg BitVec.toNat (BitVec.eq_of_getLsbD_eq fun b hb => ?_)
  rw [BitVec.getLsbD_and]
  rcases Nat.lt_or_ge b 4 with h4 | h4
  · have hk := packOrder_snd_lt p hp
    rw [getLsbD_fifteen_low h4, Bool.and_true, BitVec.getLsbD_ushiftRight, packNibbles,
      getLsbD_foldl_or (fun p => nib p.1 <<< (4 * p.2)), BitVec.getLsbD_zero, Bool.false_or]
    rw [Bool.eq_iff_iff, List.any_eq_true]
    constructor
    · rintro ⟨p', hp', hbit⟩
      rw [BitVec.getLsbD_shiftLeft] at hbit
      simp only [Bool.and_eq_true, decide_eq_true_eq, Bool.not_eq_true', decide_eq_false_iff_not, not_lt] at hbit
      obtain ⟨⟨-, hge⟩, hbit⟩ := hbit
      have hlt : 4 * p.2 + b - 4 * p'.2 < 4 := Nat.lt_of_not_le fun hle => by
        rw [hnib p'.1 _ hle] at hbit
        cases hbit
      have heq := packOrder_snd_inj p' hp' p hp (by omega)
      subst heq
      rwa [Nat.add_sub_cancel_left] at hbit
    · intro hbit
      refine ⟨p, hp, ?_⟩
      rw [BitVec.getLsbD_shiftLeft, Nat.add_sub_cancel_left, hbit]
      simp only [Bool.and_true, Bool.and_eq_true, decide_eq_true_eq, Bool.not_eq_true', decide_eq_false_iff_not]
      omega
  · rw [hnib p.1 b h4, getLsbD_fifteen_high h4, Bool.and_false]

/-! ## What is stored where -/

/-- The nibble of the compressed-tensors layout at output `o` and input `i`. -/
def ctNibble (weightPacked : Tensor Int) (packedIn o i : Nat) : Nat :=
  nibble (word weightPacked (o * packedIn + i / awqPackFactor)) (4 * (i % awqPackFactor))

/-- The scale of the compressed-tensors layout at output `o` and input `i`, of the group of `i`. -/
def ctScale [Zero R] (weightScale : Tensor R) (inF groups o i : Nat) : R :=
  weightScale.data.getD (o * groups + i / (inF / groups)) 0

theorem word_ofNat {t : Tensor Int} {i : Nat} {w : BitVec 32} (h : t.data[i]? = some (w.toNat : Int)) : word t i = w := by
  rw [word, List.getD_eq_getElem?_getD, h, Option.getD_some, BitVec.ofInt_natCast, BitVec.ofNat_toNat,
    BitVec.setWidth_eq]

/-- The nibbles transfer. -/
theorem awqNibble_converted (weightPacked : Tensor Int) {packedIn inF outF : Nat} {o i : Nat}
    (hpacked : outF % awqPackFactor = 0) (ho : o < outF) (hi : i < inF) :
    awqNibble (convertedWeight (weightPacked.data.map (BitVec.ofInt 32)) packedIn inF (outF / awqPackFactor))
      (outF / awqPackFactor) i o = ctNibble weightPacked packedIn o i := by
  have hcol : o / awqPackFactor < outF / awqPackFactor := by
    simp only [awqPackFactor] at *
    omega
  have hlane : o / awqPackFactor * awqPackFactor + o % awqPackFactor = o := Nat.div_add_mod' o awqPackFactor
  have hword := word_ofNat (t := convertedWeight (weightPacked.data.map (BitVec.ofInt 32)) packedIn inF (outF / awqPackFactor))
    (i := i * (outF / awqPackFactor) + o / awqPackFactor)
    (w := awqWord (weightPacked.data.map (BitVec.ofInt 32)) packedIn i (o / awqPackFactor)) (by
      rw [convertedWeight, getElem?_flatMap_range (fun r _ => by rw [List.length_map, List.length_range]) hi hcol,
        List.getElem?_map, List.getElem?_range hcol, Option.map_some])
  have hlt : o % awqPackFactor < 8 := Nat.mod_lt o (by decide)
  rw [awqNibble, hword, awqWord, nibble_packNibbles (fun _ => isNibble_and _) (packOrder_mem _ hlt), getD_words, hlane]
  rfl

theorem nibble_eights : ∀ k < 8, nibble (0x88888888#32) (4 * k) = 8 := by decide

theorem invPackOrder_lt : ∀ r < 8, invPackOrder.getD r 0 < 8 := by decide

/-- Every zero point is 8. -/
theorem awqNibble_zeros {groups outF g o : Nat} (hpacked : outF % awqPackFactor = 0) (hg : g < groups) (ho : o < outF) :
    awqNibble (convertedZeros groups (outF / awqPackFactor)) (outF / awqPackFactor) g o = 8 := by
  have hcol : o / awqPackFactor < outF / awqPackFactor := by
    simp only [awqPackFactor] at *
    omega
  have hin : g * (outF / awqPackFactor) + o / awqPackFactor < groups * (outF / awqPackFactor) := by
    have := Nat.mul_le_mul_right (outF / awqPackFactor) hg
    rw [Nat.succ_mul] at this
    omega
  have hword : word (convertedZeros groups (outF / awqPackFactor)) (g * (outF / awqPackFactor) + o / awqPackFactor) =
      0x88888888#32 := word_ofNat (by
    rw [convertedZeros, List.getElem?_replicate, if_pos hin]
    rfl)
  rw [awqNibble, hword]
  exact nibble_eights _ (invPackOrder_lt _ (Nat.mod_lt o (by decide)))

/-- The scales are transposed. -/
theorem transposeScales_getD [Zero R] (outF groups : Nat) (scalesCt : List R) {g o : Nat} (hg : g < groups) (ho : o < outF) :
    (transposeScales outF groups scalesCt).getD (g * outF + o) 0 = scalesCt.getD (o * groups + g) 0 := by
  rw [List.getD_eq_getElem?_getD, transposeScales,
    getElem?_foldl_set (v := scalesCt.getD (o * groups + g) 0) _ _ ?_ ?_ ?_, Option.getD_some]
  · intro s hs heq
    obtain ⟨o', ho', hs⟩ := List.mem_flatMap.1 hs
    obtain ⟨g', hg', rfl⟩ := List.mem_map.1 hs
    obtain ⟨rfl, rfl⟩ := index_inj (List.mem_range.1 ho') ho heq
    rfl
  · have := Nat.mul_le_mul_right outF hg
    rw [Nat.succ_mul] at this
    rw [List.length_replicate]
    omega
  · exact Or.inl ⟨_, List.mem_flatMap.2 ⟨o, List.mem_range.2 ho, List.mem_map.2 ⟨g, List.mem_range.2 hg, rfl⟩⟩, rfl⟩

/-! ## The round trip -/

theorem dims2_eq_ok {α : Type} {t : Tensor α} {failure : Failure} {shape : Nat × Nat}
    (h : t.dims2 failure = .ok shape) : t.dims = [shape.1, shape.2] := by
  unfold Tensor.dims2 at h
  split at h
  · rename_i n m hd
    cases h
    exact hd
  · cases h

/-- What is accepted, and what it is converted to. -/
theorem compressedToAwq_ok [Zero R] {weightPacked : Tensor Int} {weightScale : Tensor R} {q : QuantWeight R}
    (h : compressedToAwq weightPacked weightScale = .ok q) :
    ∃ outF packedIn groups, weightPacked.dims = [outF, packedIn] ∧ weightScale.dims = [outF, groups] ∧ 0 < groups ∧
      groups ∣ packedIn * awqPackFactor ∧ outF % awqPackFactor = 0 ∧
      q = .newAwq 4
        (convertedWeight (weightPacked.data.map (BitVec.ofInt 32)) packedIn (packedIn * awqPackFactor) (outF / awqPackFactor))
        (convertedZeros groups (outF / awqPackFactor))
        (convertedScales weightScale.dtype outF groups weightScale.data) := by
  unfold compressedToAwq at h
  obtain ⟨shape, hshape, h⟩ := bind_eq_ok.1 h
  obtain ⟨scaleShape, hscale, h⟩ := bind_eq_ok.1 h
  obtain ⟨_, hout, h⟩ := bind_eq_ok.1 h
  obtain ⟨_, hgroups, h⟩ := bind_eq_ok.1 h
  obtain ⟨_, hpacked, h⟩ := bind_eq_ok.1 h
  obtain ⟨ct, hct, h⟩ := bind_eq_ok.1 h
  obtain ⟨_, _, h⟩ := bind_eq_ok.1 h
  cases h
  have hscale := dims2_eq_ok hscale
  rw [ensure_eq_ok.1 hout] at hscale
  obtain ⟨hne, hmod⟩ := ensure_eq_ok.1 hgroups
  rw [readPackedToU32_eq hct]
  exact ⟨shape.1, shape.2, scaleShape.2, dims2_eq_ok hshape, hscale, Nat.pos_of_ne_zero hne,
    Nat.dvd_of_mod_eq_zero hmod, ensure_eq_ok.1 hpacked, rfl⟩

theorem readable_converted [Zero R] (ct : List (BitVec 32)) (packedIn : Nat) (dtype : DType) (scalesCt : List R)
    {inF outF groups : Nat} (hpos : 0 < inF) (hdvd : groups ∣ inF) (hpacked : outF % awqPackFactor = 0) :
    Readable (.newAwq 4 (convertedWeight ct packedIn inF (outF / awqPackFactor))
      (convertedZeros groups (outF / awqPackFactor)) (convertedScales dtype outF groups scalesCt))
      inF outF groups (convertedZeros groups (outF / awqPackFactor)) where
  inputs := rfl
  pos := hpos
  divides := hdvd
  scales := rfl
  packed := hpacked
  qdim := rfl
  qlen := (convertedWeight ct packedIn inF (outF / awqPackFactor)).filled.trans (by simp [convertedWeight])
  qread := rfl
  qzeros := rfl
  zdims := rfl
  zread := rfl

/-- A converted weight dequantises, at every output and input, to the nibble that the compressed-tensors layout
has there, less 8, times the scale of its row and group. -/
theorem compressedToAwq_dequantize [Ring R] {weightPacked : Tensor Int} {weightScale : Tensor R} {q : QuantWeight R}
    (h : compressedToAwq weightPacked weightScale = .ok q) {outDtype : DType} (hout : OutDtype outDtype) :
    ∃ outF packedIn groups, weightPacked.dims = [outF, packedIn] ∧ weightScale.dims = [outF, groups] ∧
      ∀ o < outF, ∀ i < packedIn * awqPackFactor, ∃ w, dequantizeAwq q outDtype = .ok w ∧
        w.dims = [outF, packedIn * awqPackFactor] ∧
        w.data[o * (packedIn * awqPackFactor) + i]? =
          some (((ctNibble weightPacked packedIn o i : Int) - 8 : Int) *
            ctScale weightScale (packedIn * awqPackFactor) groups o i) := by
  obtain ⟨outF, packedIn, groups, hdims, hsdims, hgroups, hdvd, hpacked, rfl⟩ := compressedToAwq_ok h
  refine ⟨outF, packedIn, groups, hdims, hsdims, fun o ho i hi => ?_⟩
  have hread := readable_converted (weightPacked.data.map (BitVec.ofInt 32)) packedIn weightScale.dtype
    weightScale.data (by omega) hdvd hpacked
  obtain ⟨w, hw, hwdims, hentry⟩ := hread.dequantize_entry hout
  refine ⟨w, hw, hwdims, ?_⟩
  rw [hentry o ho i hi]
  have hg := group_lt hdvd hi
  simp only [awqEntry, QuantWeight.newAwq, awqNibble_converted weightPacked hpacked ho hi,
    awqNibble_zeros hpacked hg ho, convertedScales, transposeScales_getD outF groups _ hg ho, ctScale]
  rfl

/-- Eight outputs of eight inputs, all nibbles of output `o` being `o`, in two groups. -/
def smallPacked : Tensor Int where
  dtype := .i32
  dims := [8, 1]
  data := [0, 0x11111111, 0x22222222, 0x33333333, 0x44444444, 0x55555555, 0x66666666, 0x77777777]
  filled := rfl

def smallScale : Tensor Int where
  dtype := .f32
  dims := [8, 2]
  data := [1, 2, 3, 4, 5, 6, 7, 8, 9, 10, 11, 12, 13, 14, 15, 16]
  filled := rfl

theorem compressedToAwq_dequantize_small : ∃ q w, compressedToAwq smallPacked smallScale = .ok q ∧
    dequantizeAwq q .f32 = .ok w := by
  obtain ⟨q, hq⟩ : ∃ q, compressedToAwq smallPacked smallScale = .ok q := ⟨_, rfl⟩
  have hout : OutDtype .f32 := by decide
  obtain ⟨outF, packedIn, groups, hdims, -, hall⟩ := compressedToAwq_dequantize hq hout
  cases hdims
  obtain ⟨w, hw, -⟩ := hall 0 (by decide) 0 (by decide)
  exact ⟨q, w, hq, hw⟩

end Oxydllm.Quant
