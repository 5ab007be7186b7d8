/-
# Oxydllm.KvQuant.KeyLayout — a key is split where it was put together.

A packed key is the bytes of its indices and, with a residual, the bytes of its sign bits behind them. `keyIndices` are
the two lists the quantizer made of a key; the bytes are those of the lists (`quantizeKey_layout`), and what the
dequantizer makes of the bytes is what it would make of the lists (`KeyLayout.dequantizeKey_eq`). No law of the
arithmetic is used.
-/
import Oxydllm.KvQuant.Packing
import Oxydllm.KvQuant.Rotation

namespace Oxydllm.KvQuant

-- a lemma here uses some of the operations, and no law of any
set_option linter.unusedSectionVars false

open Loop BitStream

/-! ## Packed lists -/

section Lists

variable {b n : Nat} {mse xs ys : List U8}

/-- A list of indices of `b` bits. -/
structure Indices (b n : Nat) (mse : List U8) : Prop where
  length : mse.length = n
  fits : ∀ idx ∈ mse, idx.toNat < 2 ^ b

theorem indices_zeros : Indices b n (List.replicate n 0) where
  length := List.length_replicate
  fits idx hidx := by
    rw [List.eq_of_mem_replicate hidx]
    exact Nat.two_pow_pos b

theorem resize_length {α : Type} (v : α) (xs : List α) : (resize n v xs).length = n := by
  rw [resize, List.length_append, List.length_take, List.length_replicate]
  omega

theorem indices_resize (h : ∀ idx ∈ xs, idx.toNat < 2 ^ b) : Indices b n (resize n 0 xs) where
  length := resize_length 0 xs
  fits idx hidx := by
    rcases List.mem_append.1 hidx with htake | hzero
    · exact h idx (List.mem_of_mem_take htake)
    · exact indices_zeros.fits idx hzero

theorem packed_zeros : Packed b n (List.replicate n 0) (List.replicate ((n * b + 7) / 8) 0) where
  length := List.length_replicate
  filled p := by rw [bitAt_zeros, byteAt_zeros, getLsbD_zero_eq, Bool.and_false]

/-- The bytes of a list are the only ones. -/
theorem packed_unique (hx : Packed b n mse xs) (hy : Packed b n mse ys) : xs = ys := by
  refine ext_byteAt (hx.length.trans hy.length.symm) fun i _ => BitVec.eq_of_getLsbD_eq fun q hq => ?_
  rw [getLsbD_byteAt hq, getLsbD_byteAt hq, hx.filled, hy.filled]

theorem unpack_packed (hb : Width b) (hmse : Indices b n mse) (h : Packed b n mse xs) :
    unpackIndicesBits n b xs = some mse := by
  obtain ⟨out, hout, hread⟩ := unpackIndicesBits_unpacked hb h.length
  exact hout.trans (congrArg some (hread.eq_of_packed h hmse.length hmse.fits))

theorem pack_packed (hb : Width b) (hmse : Indices b n mse) (h : Packed b n mse xs) :
    packIndicesBits n b mse = some xs := by
  obtain ⟨packed, hpacked, hall⟩ := packIndicesBits_packed hb hmse.length
  exact hpacked.trans (congrArg some (packed_unique hall h))

end Lists

variable {K : Type}

section Search

variable [Zero K] [LE K] [DecidableLE K]

/-- The index of a search is one of a centroid. -/
theorem findNearest_lt {b : Nat} {boundaries : List K} (hb : Width b) (h : boundaries.length + 1 = 2 ^ b) (v : K) :
    (findNearest boundaries v).toNat < 2 ^ b := by
  have hle := (bisect_mem (fun mid => decide (v ≤ boundaries.getD mid 0)) (Nat.zero_le boundaries.length)).2
  have hbyte : 2 ^ b ≤ 2 ^ 8 := Nat.pow_le_pow_right (by decide) (hb.2.trans (by decide))
  rw [findNearest, BitVec.toNat_ofNat]
  exact (Nat.mod_le ..).trans_lt (by omega)

end Search

namespace KvQuantizer

section Layout

variable {q : KvQuantizer K} {mse sgn packed : List U8} {bitWidth n : Nat} {qjl : Bool}

/-- The bytes of the indices and behind them those of the sign bits. -/
structure KeyLayout (q : KvQuantizer K) (mse sgn packed : List U8) : Prop where
  mseFits : Indices q.keyMseBitWidth q.headDim mse
  mseBytes : Packed q.keyMseBitWidth q.headDim mse (packed.take (q.packedBytesForBits q.keyMseBitWidth))
  sgnFits : q.qjlQuantization = true → Indices 1 q.headDim sgn
  sgnBytes : q.qjlQuantization = true → Packed 1 q.headDim sgn (packed.drop (q.packedBytesForBits q.keyMseBitWidth))
  noSgn : q.qjlQuantization = false → sgn = [] ∧ packed.drop (q.packedBytesForBits q.keyMseBitWidth) = []

/-- With a residual, one part behind the other. -/
theorem keyLayout_append {bytes sgnBytes : List U8} (h : q.qjlQuantization = true)
    (hfits : Indices q.keyMseBitWidth q.headDim mse) (hpacked : Packed q.keyMseBitWidth q.headDim mse bytes)
    (hsgn : Indices 1 q.headDim sgn) (hsgnPacked : Packed 1 q.headDim sgn sgnBytes) :
    KeyLayout q mse sgn (bytes ++ sgnBytes) := by
  have hlen : bytes.length = q.packedBytesForBits q.keyMseBitWidth := hpacked.length
  refine ⟨hfits, ?_, fun _ => hsgn, fun _ => ?_, fun hno => absurd (h.symm.trans hno) (by decide)⟩
  · rw [← hlen, List.take_left]
    exact hpacked
  · rw [← hlen, List.drop_left]
    exact hsgnPacked

/-- Without one, the first part alone. -/
theorem keyLayout_alone (h : q.qjlQuantization = false) (hfits : Indices q.keyMseBitWidth q.headDim mse)
    (hpacked : Packed q.keyMseBitWidth q.headDim mse packed) : KeyLayout q mse [] packed := by
  have hlen : packed.length = q.packedBytesForBits q.keyMseBitWidth := hpacked.length
  have hno : q.qjlQuantization ≠ true := fun hyes => Bool.false_ne_true (h.symm.trans hyes)
  refine ⟨hfits, ?_, fun hyes => absurd hyes hno, fun hyes => absurd hyes hno, fun _ => ⟨rfl, ?_⟩⟩
  · rw [← hlen, List.take_length]
    exact hpacked
  · rw [← hlen, List.drop_length]

/-- The first part and zeros behind it. -/
theorem keyLayout_resize (h : q.qjlQuantization = true) (hfits : Indices q.keyMseBitWidth q.headDim mse)
    (hpacked : Packed q.keyMseBitWidth q.headDim mse packed) :
    KeyLayout q mse (List.replicate q.headDim 0) (resize q.keyPackedBytes 0 packed) := by
  have hlen : packed.length = q.packedBytesForBits q.keyMseBitWidth := hpacked.length
  have hresize : resize q.keyPackedBytes 0 packed = packed ++ List.replicate (q.packedBytesForBits 1) 0 := by
    rw [resize, keyPackedBytes, if_pos h, ← hlen, List.take_of_length_le (Nat.le_add_right ..), Nat.add_sub_cancel_left]
  rw [hresize]
  exact keyLayout_append h hfits hpacked indices_zeros packed_zeros

/-- The second part is cut to its length, which it has. -/
theorem KeyLayout.take_sgn (h : KeyLayout q mse sgn packed) (hqjl : q.qjlQuantization = true) :
    (packed.drop (q.packedBytesForBits q.keyMseBitWidth)).take (q.packedBytesForBits 1) =
      packed.drop (q.packedBytesForBits q.keyMseBitWidth) :=
  List.take_of_length_le (h.sgnBytes hqjl).length.le

section Widths

variable [One K] [Neg K]

theorem width_key (hq : Built bitWidth n qjl q) : Width q.keyMseBitWidth := by
  rw [hq.keyMseBitWidth_eq]
  have htwo := hq.two_le
  have hfour := hq.le_four
  split
  · exact ⟨by omega, by omega⟩
  · exact ⟨by omega, hfour⟩

theorem key_of_no_qjl (hq : Built bitWidth n qjl q) (h : q.qjlQuantization = false) :
    q.keyMseBitWidth = q.bitWidth := by
  rw [hq.keyMseBitWidth_eq, hq.bitWidth_eq, ← hq.qjlQuantization_eq, h]
  rfl

theorem KeyLayout.packed_length (hq : Built bitWidth n qjl q) (h : KeyLayout q mse sgn packed) :
    packed.length = q.keyPackedBytes := by
  have hsplit : packed.length = (packed.take (q.packedBytesForBits q.keyMseBitWidth)).length +
      (packed.drop (q.packedBytesForBits q.keyMseBitWidth)).length := by
    rw [← List.length_append, List.take_append_drop]
  have hmse : (packed.take (q.packedBytesForBits q.keyMseBitWidth)).length = q.packedBytesForBits q.keyMseBitWidth :=
    h.mseBytes.length
  rw [hsplit, hmse, keyPackedBytes]
  cases hqjl : q.qjlQuantization with
  | false =>
      rw [(h.noSgn hqjl).2, key_of_no_qjl hq hqjl]
      rfl
  | true =>
      have hsgn : (packed.drop (q.packedBytesForBits q.keyMseBitWidth)).length = q.packedBytesForBits 1 :=
        (h.sgnBytes hqjl).length
      rw [hsgn]
      rfl

end Widths

end Layout

variable [Zero K] [One K] [Add K] [Sub K] [Mul K] [Neg K] [Div K] [LE K] [LT K] [DecidableLE K] [DecidableLT K]
variable (ν : Numerics K) (q : KvQuantizer K)

/-! ## The lists of a key -/

/-- The indices of a vector, and the length they go with. -/
def mseIndices (boundaries : List K) (x : List K) : Option (List U8 × K) :=
  if vanishes ν (normOf ν x) then some (List.replicate q.headDim 0, 0)
  else (q.indicesOf boundaries (normOf ν x) x).map (·, normOf ν x)

/-- What the indices and their length give. -/
def fromMse (norm : K) (centroids : List K) (mse : List U8) : Option (List K) :=
  if vanishes ν norm then some (List.replicate q.headDim 0) else q.fromIndices norm centroids mse

/-- The sign bits of what the first stage leaves. -/
def keySigns (x : List K) (mse : List U8) (mseNorm : K) : Option (List U8) :=
  if vanishes ν mseNorm then some (List.replicate q.headDim 0)
  else (q.fromIndices mseNorm q.keyScaledCentroids mse).bind fun xMse =>
    if vanishes ν (q.residualOf ν x xMse).2 then some (List.replicate q.headDim 0)
    else q.signBits (q.residualOf ν x xMse).1

/-- The indices of a key and its sign bits; of these there are none without a residual to quantize. -/
def keyIndices (x : List K) : Option (List U8 × List U8) :=
  if ¬ q.qjlQuantization then (q.mseIndices ν q.valueScaledBoundaries x).map fun p => (p.1, [])
  else (q.mseIndices ν q.keyScaledBoundaries x).bind fun p => (q.keySigns ν x p.1 p.2).map (p.1, ·)

/-- The key that two lists and two lengths stand for. -/
def fromKeyIndices (mseNorm residualNorm : K) (mse sgn : List U8) : Option (List K) :=
  if ¬ q.qjlQuantization then q.fromMse ν mseNorm q.valueScaledCentroids mse
  else do
    let out ← q.fromMse ν mseNorm q.keyScaledCentroids mse
    if vanishes ν residualNorm then some out else q.addResidual residualNorm out sgn

section Bytes

variable {ν} {q} {b : Nat} {mse sgn packed boundaries : List U8}

/-! ## The bytes of the lists -/

theorem indicesOf_indices {boundaries : List K} {x : List K} {norm : K} {mse : List U8} (hb : Width b)
    (hlen : boundaries.length + 1 = 2 ^ b) (h : q.indicesOf boundaries norm x = some mse) : Indices b q.headDim mse := by
  obtain ⟨y, -, rfl⟩ := Option.map_eq_some_iff.1 h
  refine indices_resize fun idx hidx => ?_
  obtain ⟨v, -, rfl⟩ := List.mem_map.1 hidx
  exact findNearest_lt hb hlen v

/-- What the first stage packs. -/
theorem quantizeMse_packed {boundaries : List K} {x : List K} {a : K} (hb : Width b)
    (hlen : boundaries.length + 1 = 2 ^ b)
    (h : q.quantizeMse ν x b boundaries (q.packedBytesForBits b) = some (packed, a)) :
    ∃ mse, q.mseIndices ν boundaries x = some (mse, a) ∧ Indices b q.headDim mse ∧ Packed b q.headDim mse packed := by
  rw [quantizeMse] at h
  by_cases hnorm : vanishes ν (normOf ν x)
  · rw [if_pos hnorm] at h
    obtain ⟨rfl, rfl⟩ := Prod.mk.inj (Option.some.inj h)
    exact ⟨_, if_pos hnorm, indices_zeros, packed_zeros⟩
  · rw [if_neg hnorm] at h
    obtain ⟨mse, hmse, h⟩ := Option.bind_eq_some_iff.1 h
    obtain ⟨bytes, hbytes, h⟩ := Option.bind_eq_some_iff.1 h
    obtain ⟨rfl, rfl⟩ := Prod.mk.inj (Option.some.inj h)
    have hfits := indicesOf_indices hb hlen hmse
    obtain ⟨packed, hpacked, hall⟩ := packIndicesBits_packed hb hfits.length
    obtain rfl := Option.some.inj (hbytes.symm.trans hpacked)
    refine ⟨mse, ?_, hfits, hall⟩
    rw [mseIndices, if_neg hnorm, hmse, Option.map_some]

/-- The first stage back reads its list. -/
theorem dequantizeMse_eq {centroids : List K} (hb : Width b) (hmse : Indices b q.headDim mse)
    (h : Packed b q.headDim mse packed) (norm : K) :
    q.dequantizeMse ν packed norm b centroids (q.packedBytesForBits b) = q.fromMse ν norm centroids mse := by
  have hlen : packed.length = q.packedBytesForBits b := h.length
  rw [dequantizeMse, fromMse, if_neg (Nat.not_lt.2 hlen.ge), ← hlen, List.take_length, unpack_packed hb hmse h,
    Option.bind_some]

theorem signBits_indices {residual : List K} (h : q.signBits residual = some sgn) : Indices 1 q.headDim sgn := by
  rw [signBits] at h
  obtain ⟨rotated, -, h⟩ := Option.bind_eq_some_iff.1 h
  obtain rfl := Option.some.inj h
  refine indices_resize fun idx hidx => ?_
  obtain ⟨v, -, rfl⟩ := List.mem_map.1 hidx
  split <;> decide

/-! ## The bytes of a key -/

/-- A key is packed as its lists are. -/
theorem quantizeKey_layout {bitWidth n : Nat} {qjl : Bool} (hq : Built bitWidth n qjl q) {x : List K} {packed : List U8}
    {a c : K} (h : q.quantizeKey ν x = some (packed, a, c)) :
    ∃ mse sgn, q.keyIndices ν x = some (mse, sgn) ∧ KeyLayout q mse sgn packed := by
  rw [quantizeKey] at h
  rw [keyIndices]
  cases hqjl : q.qjlQuantization with
  | false =>
      rw [hqjl, if_pos Bool.false_ne_true] at h
      obtain ⟨⟨bytes, norm⟩, hbytes, h⟩ := Option.bind_eq_some_iff.1 h
      obtain ⟨rfl, -⟩ := Prod.mk.inj (Option.some.inj h)
      have hwidth := key_of_no_qjl hq hqjl
      obtain ⟨mse, hmse, hfits, hpacked⟩ :=
        quantizeMse_packed (hwidth ▸ width_key hq) hq.valueBoundaries_length hbytes
      rw [← hwidth] at hfits hpacked
      refine ⟨mse, [], ?_, keyLayout_alone hqjl hfits hpacked⟩
      rw [if_pos Bool.false_ne_true, hmse, Option.map_some]
  | true =>
      have hyes : ¬ ¬ (true = true) := not_not.2 rfl
      rw [hqjl, if_neg hyes] at h
      rw [if_neg hyes]
      obtain ⟨⟨bytes, norm⟩, hbytes, h⟩ := Option.bind_eq_some_iff.1 h
      obtain ⟨mse, hmse, hfits, hpacked⟩ := quantizeMse_packed (width_key hq) hq.keyBoundaries_length hbytes
      rw [hmse, Option.bind_some]
      -- the sign bits, and the bytes of them
      suffices hsigns : ∃ sgn, q.keySigns ν x mse norm = some sgn ∧ KeyLayout q mse sgn packed by
        obtain ⟨sgn, hsgn, hlayout⟩ := hsigns
        exact ⟨mse, sgn, by rw [hsgn, Option.map_some], hlayout⟩
      rw [keySigns]
      by_cases hnorm : vanishes ν norm
      · obtain ⟨rfl, -⟩ := Prod.mk.inj (Option.some.inj ((if_pos hnorm).symm.trans h))
        exact ⟨_, if_pos hnorm, keyLayout_resize hqjl hfits hpacked⟩
      obtain ⟨xMse, hxMse, h⟩ := Option.bind_eq_some_iff.1 ((if_neg hnorm).symm.trans h)
      rw [dequantizeMse_eq (width_key hq) hfits hpacked, fromMse, if_neg hnorm] at hxMse
      rw [if_neg hnorm, hxMse, Option.bind_some]
      by_cases hresidual : vanishes ν (q.residualOf ν x xMse).2
      · obtain ⟨rfl, -⟩ := Prod.mk.inj (Option.some.inj ((if_pos hresidual).symm.trans h))
        exact ⟨_, if_pos hresidual, keyLayout_resize hqjl hfits hpacked⟩
      obtain ⟨sgn, hsgn, h⟩ := Option.bind_eq_some_iff.1 ((if_neg hresidual).symm.trans h)
      obtain ⟨sgnBytes, hsgnBytes, h⟩ := Option.bind_eq_some_iff.1 h
      obtain ⟨rfl, -⟩ := Prod.mk.inj (Option.some.inj h)
      have hsgnFits := signBits_indices hsgn
      obtain ⟨sgnPacked, hsgnPacked, hall⟩ := packIndicesBits_packed (b := 1) ⟨by decide, by decide⟩ hsgnFits.length
      obtain rfl := Option.some.inj (hsgnBytes.symm.trans hsgnPacked)
      exact ⟨sgn, (if_neg hresidual).trans hsgn, keyLayout_append hqjl hfits hpacked hsgnFits hall⟩

/-! ## The bytes taken apart -/

namespace KeyLayout

variable {bitWidth n : Nat} {qjl : Bool}

/-- The key that the bytes give is the one of the two lists, whatever lengths go with them. -/
theorem dequantizeKey_eq (hq : Built bitWidth n qjl q) (h : KeyLayout q mse sgn packed) (a c : K) :
    q.dequantizeKey ν packed a c = q.fromKeyIndices ν a c mse sgn := by
  have hlen := h.packed_length hq
  rw [dequantizeKey, fromKeyIndices]
  rw [keyPackedBytes] at hlen
  cases hqjl : q.qjlQuantization with
  | false =>
      have hwidth := key_of_no_qjl hq hqjl
      have hall : packed.take (q.packedBytesForBits q.keyMseBitWidth) = packed := by
        rw [hqjl, if_neg Bool.false_ne_true, ← hwidth] at hlen
        exact List.take_of_length_le hlen.le
      have hbytes := h.mseBytes
      have hfits := h.mseFits
      rw [hall, hwidth] at hbytes
      rw [hwidth] at hfits
      rw [if_pos Bool.false_ne_true, if_pos Bool.false_ne_true]
      exact dequantizeMse_eq (hwidth ▸ width_key hq) hfits hbytes a
  | true =>
      rw [hqjl, if_pos rfl] at hlen
      have hunpack := unpack_packed (b := 1) ⟨by decide, by decide⟩ (h.sgnFits hqjl) (h.sgnBytes hqjl)
      rw [if_neg (not_not.2 rfl), if_neg (not_not.2 rfl)]
      simp only [hlen, lt_irrefl, if_false]
      rw [dequantizeMse_eq (width_key hq) h.mseFits h.mseBytes, h.take_sgn hqjl, hunpack]
      rfl

end KeyLayout

end Bytes

/-! ## No panic -/

section Progress

variable {ν} {q} {bitWidth n : Nat} {qjl : Bool}

theorem scaleBy_length : ∀ x s : List K, (scaleBy x s).length = x.length
  | [], _ => rfl
  | _ :: _, [] => rfl
  | _ :: x, _ :: s => congrArg (· + 1) (scaleBy_length x s)

theorem length_of_useHadamard (hq : Built bitWidth n qjl q) (h : q.useHadamard = true) : ∃ m, n = 2 ^ m := by
  rw [hq.useHadamard_eq] at h
  exact ⟨n.log2, (of_decide_eq_true h).2.symm⟩

theorem hadamard_some (hq : Built bitWidth n qjl q) {x : List K} (hx : x.length = n) (h : q.useHadamard = true) :
    ∃ y, whtInplace x = some y ∧ y.length = n := by
  obtain ⟨m, rfl⟩ := length_of_useHadamard hq h
  exact whtInplace_length hx

theorem rotate_some (hq : Built bitWidth n qjl q) {x : List K} (hx : x.length = n) (c : K) :
    ∃ y, q.rotate c x = some y := by
  have hlen : (scaleBy (x.map (· * c)) q.mseSigns).length = n := by rw [scaleBy_length, List.length_map, hx]
  rw [rotate]
  by_cases h : q.useHadamard = true
  · obtain ⟨y, hy, -⟩ := hadamard_some hq hlen h
    exact ⟨_, by rw [if_pos h, hy, Option.map_some]⟩
  · exact ⟨_, if_neg h⟩

theorem unrotate_some (hq : Built bitWidth n qjl q) {y : List K} (hy : y.length = n) (c : K) :
    ∃ x, q.unrotate c y = some x := by
  rw [unrotate]
  by_cases h : q.useHadamard = true
  · obtain ⟨z, hz, -⟩ := hadamard_some hq hy h
    exact ⟨_, by rw [if_pos h, hz, Option.map_some]⟩
  · exact ⟨_, if_neg h⟩

theorem fromIndices_some (hq : Built bitWidth n qjl q) {b : Nat} {centroids : List K} {mse : List U8}
    (hcentroids : centroids.length = 2 ^ b) (hmse : Indices b n mse) (norm : K) :
    ∃ x, q.fromIndices norm centroids mse = some x := by
  have hlookup : ∀ j ∈ List.range n, (mse[j]?.bind fun idx => centroids[idx.toNat]?) =
      some (centroids.getD (byteAt mse j).toNat 0) := by
    intro j hj
    have hread := getElem?_byteAt (hmse.length ▸ List.mem_range.1 hj)
    have hin : (byteAt mse j).toNat < centroids.length := hcentroids ▸ hmse.fits _ (List.mem_of_getElem? hread)
    rw [hread, Option.bind_some, List.getElem?_eq_getElem hin, List.getD_eq_getElem?_getD, List.getElem?_eq_getElem hin]
    rfl
  rw [fromIndices, hq.headDim_eq, Traverse.mapM_eq_map hlookup]
  exact unrotate_some hq (by rw [List.length_map, List.length_range]) norm

theorem quantizeMse_some (hq : Built bitWidth n qjl q) {b : Nat} (hb : Width b) (boundaries : List K) {x : List K}
    (hx : x.length = n) (bytes : Nat) : ∃ r, q.quantizeMse ν x b boundaries bytes = some r := by
  rw [quantizeMse]
  by_cases hnorm : vanishes ν (normOf ν x)
  · exact ⟨_, if_pos hnorm⟩
  · obtain ⟨y, hy⟩ := rotate_some hq hx (1 / normOf ν x)
    obtain ⟨packed, hpacked, -⟩ := packIndicesBits_packed hb (resize_length (n := q.headDim) 0 (y.map (findNearest boundaries)))
    exact ⟨_, (if_neg hnorm).trans (by rw [indicesOf, hy, Option.map_some, Option.bind_eq_bind, Option.bind_some, hpacked]; rfl)⟩

theorem signBits_some (hq : Built bitWidth n qjl q) {residual : List K} (hlen : residual.length = n) :
    ∃ sgn, q.signBits residual = some sgn := by
  rw [signBits]
  by_cases h : q.useHadamard = true
  · have hscaled : (scaleBy residual q.qjlSigns).length = n := (scaleBy_length ..).trans hlen
    obtain ⟨y, hy, -⟩ := hadamard_some hq hscaled h
    exact ⟨_, by rw [if_pos h, hy]; rfl⟩
  · exact ⟨_, by rw [if_neg h]; rfl⟩

theorem quantizeKey_some (hq : Built bitWidth n qjl q) {x : List K} (hx : x.length = n) :
    ∃ r, q.quantizeKey ν x = some r := by
  rw [quantizeKey]
  cases hqjl : q.qjlQuantization with
  | false =>
      have hwidth : Width q.bitWidth := key_of_no_qjl hq hqjl ▸ width_key hq
      obtain ⟨r, hr⟩ := quantizeMse_some (ν := ν) hq hwidth q.valueScaledBoundaries hx q.valuePackedBytes
      exact ⟨_, by rw [if_pos Bool.false_ne_true, quantize, hr]; rfl⟩
  | true =>
      have hb := width_key hq
      obtain ⟨⟨bytes, norm⟩, hbytes⟩ := quantizeMse_some (ν := ν) hq hb q.keyScaledBoundaries hx
        (q.packedBytesForBits q.keyMseBitWidth)
      obtain ⟨mse, -, hfits, hpacked⟩ := quantizeMse_packed hb hq.keyBoundaries_length hbytes
      simp only [not_true_eq_false, if_false, hbytes, Option.bind_eq_bind, Option.bind_some]
      by_cases hnorm : vanishes ν norm
      · exact ⟨_, if_pos hnorm⟩
      rw [hq.headDim_eq] at hfits
      obtain ⟨xMse, hxMse⟩ := fromIndices_some hq hq.keyCentroids_length hfits norm
      rw [← hq.headDim_eq] at hfits
      rw [if_neg hnorm, dequantizeMse_eq hb hfits hpacked, fromMse, if_neg hnorm, hxMse, Option.bind_some]
      by_cases hresidual : vanishes ν (q.residualOf ν x xMse).2
      · exact ⟨_, if_pos hresidual⟩
      have hlen : (q.residualOf ν x xMse).1.length = n := (resize_length 0 _).trans hq.headDim_eq
      obtain ⟨sgn, hsgn⟩ := signBits_some hq hlen
      obtain ⟨packed, hsgnPacked, -⟩ :=
        packIndicesBits_packed (b := 1) ⟨by decide, by decide⟩ (signBits_indices hsgn).length
      refine ⟨(bytes ++ packed, norm, (q.residualOf ν x xMse).2), (if_neg hresidual).trans ?_⟩
      rw [hsgn, Option.bind_some, hsgnPacked, Option.bind_some]

end Progress

end KvQuantizer

/-- The pool keeps as many bytes of a head as there are, and the lengths. -/
theorem pool_bytes [One K] [Neg K] {q : KvQuantizer K} {bitWidth n : Nat} {qjl : Bool} (hq : Built bitWidth n qjl q) :
    quantizedKeyBytesPerHeadWithQjl n bitWidth qjl = q.keyPackedBytes + (if qjl then 8 else 4) ∧
      quantizedValueBytesPerHead n bitWidth = q.valuePackedBytes + 4 := by
  rw [KvQuantizer.keyPackedBytes, KvQuantizer.valuePackedBytes, quantizedKeyBytesPerHeadWithQjl, hq.qjlQuantization_eq]
  simp only [KvQuantizer.packedBytesForBits, hq.headDim_eq, hq.bitWidth_eq, hq.keyMseBitWidth_eq,
    quantizedValueBytesPerHead, and_true]
  cases qjl with
  | false => rfl
  | true => rw [Nat.mul_one]; rfl

/-! ## The round trips -/

section RoundTrip

variable [Zero K] [One K] [NatCast K] [Add K] [Sub K] [Mul K] [Neg K] [Div K] [LE K] [LT K] [DecidableLE K]
  [DecidableLT K]

open KvQuantizer

/-- Packed indices come back from as few bytes as hold them, and a packed key is split into the very lists it was put
together from. -/
theorem packing_roundtrip :
    (∀ (n b : Nat) (indices : List U8), 1 ≤ b ∧ b ≤ 4 → indices.length = n → (∀ idx ∈ indices, idx.toNat < 2 ^ b) →
      ∃ packed, packIndicesBits n b indices = some packed ∧ packed.length = divCeil (n * b) 8 ∧
        unpackIndicesBits n b packed = some indices) ∧
    ∀ (ν : Numerics K) (bitWidth n : Nat) (qjl : Bool) (q : KvQuantizer K), newWithQjl ν bitWidth n qjl = some q →
      ∀ x : List K, (x.length = n → (q.quantizeKey ν x).isSome) ∧
        ∀ (packed : List U8) (mseNorm residualNorm : K), q.quantizeKey ν x = some (packed, mseNorm, residualNorm) →
          ∃ mse sgn, q.keyIndices ν x = some (mse, sgn) ∧ packed.length = q.keyPackedBytes ∧
            packIndicesBits n q.keyMseBitWidth mse = some (packed.take (q.packedBytesForBits q.keyMseBitWidth)) ∧
            unpackIndicesBits n q.keyMseBitWidth (packed.take (q.packedBytesForBits q.keyMseBitWidth)) = some mse ∧
            (qjl = true →
              packIndicesBits n 1 sgn = some (packed.drop (q.packedBytesForBits q.keyMseBitWidth)) ∧
              unpackIndicesBits n 1 ((packed.drop (q.packedBytesForBits q.keyMseBitWidth)).take
                (q.packedBytesForBits 1)) = some sgn) ∧
            ∀ a c, q.dequantizeKey ν packed a c = q.fromKeyIndices ν a c mse sgn := by
  refine ⟨fun n b indices hb hlen hfits => unpack_pack hb hlen hfits, fun ν bitWidth n qjl q hnew x => ?_⟩
  have hq := newWithQjl_built hnew
  refine ⟨fun hx => Option.isSome_iff_exists.2 (quantizeKey_some hq hx), fun packed mseNorm residualNorm h => ?_⟩
  obtain ⟨mse, sgn, hlists, hlayout⟩ := quantizeKey_layout hq h
  have hb := width_key hq
  have hone : Width 1 := ⟨by decide, by decide⟩
  rw [← hq.headDim_eq]
  refine ⟨mse, sgn, hlists, hlayout.packed_length hq, pack_packed hb hlayout.mseFits hlayout.mseBytes,
    unpack_packed hb hlayout.mseFits hlayout.mseBytes, fun hqjl => ?_, hlayout.dequantizeKey_eq hq⟩
  rw [← hq.qjlQuantization_eq] at hqjl
  rw [hlayout.take_sgn hqjl]
  exact ⟨pack_packed hone (hlayout.sgnFits hqjl) (hlayout.sgnBytes hqjl),
    unpack_packed hone (hlayout.sgnFits hqjl) (hlayout.sgnBytes hqjl)⟩

/-- Five indices of three bits, and a key with a residual. -/
theorem packing_roundtrip_five :
    (∃ packed, packIndicesBits 5 3 [7, 0, 5, 2, 6] = some packed ∧ packed.length = 2 ∧
      unpackIndicesBits 5 3 packed = some [7, 0, 5, 2, 6]) ∧
    ∃ q, ∃ packed mse sgn : List U8, newWithQjl ratNumerics 4 4 true = some q ∧
      q.keyIndices ratNumerics [3, 0, -4, 0] = some (mse, sgn) ∧ packed.length = 3 ∧
        unpackIndicesBits 4 3 (packed.take 2) = some mse ∧ unpackIndicesBits 4 1 ((packed.drop 2).take 1) = some sgn := by
  obtain ⟨hlists, hkeys⟩ := packing_roundtrip (K := ℚ)
  refine ⟨hlists 5 3 [7, 0, 5, 2, 6] (by decide) rfl (by decide), ?_⟩
  obtain ⟨q, hq⟩ : ∃ q, newWithQjl ratNumerics 4 4 true = some q := ⟨_, rfl⟩
  obtain ⟨hsome, hkey⟩ := hkeys ratNumerics 4 4 true q hq [3, 0, -4, 0]
  obtain ⟨⟨packed, mseNorm, residualNorm⟩, hpacked⟩ := Option.isSome_iff_exists.1 (hsome rfl)
  obtain ⟨mse, sgn, hmse, hlen, -, hunpack, hsgn, -⟩ := hkey packed mseNorm residualNorm hpacked
  obtain ⟨-, hunpackSgn⟩ := hsgn rfl
  obtain rfl := Option.some.inj hq
  exact ⟨_, packed, mse, sgn, rfl, hmse, hlen, hunpack, hunpackSgn⟩

end RoundTrip

end Oxydllm.KvQuant
