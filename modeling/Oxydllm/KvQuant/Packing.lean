/-
# Oxydllm.KvQuant.Packing — what is packed is unpacked.

Each width has loops of its own, and all of them put index `i` at bits `i * b` on (`packIndicesBits_packed`) and read it
from there (`unpackIndicesBits_unpacked`), the three bits that straddle two bytes as the others. So a list of indices
that fit comes back from its bytes (`unpack_pack`).
-/
import Oxydllm.KvQuant.Quantizer
import Oxydllm.Lib.BitStream
import Oxydllm.Lib.Traverse

namespace Oxydllm.KvQuant

open Loop BitStream

variable {n : Nat} {indices packed : List U8}

/-! ## Bytes -/

theorem orAt_eq {xs : List U8} {i : Nat} (hi : i < xs.length) (v : U8) :
    orAt xs i v = some (xs.set i (byteAt xs i ||| v)) := by
  rw [orAt, getElem?_byteAt hi, Option.bind_some, setAt_eq hi]

theorem byteAt_map_range (f : Nat → U8) {i : Nat} (hi : i < n) : byteAt ((List.range n).map f) i = f i := by
  rw [byteAt, List.getD_eq_getElem?_getD, List.getElem?_map, List.getElem?_range hi]
  rfl

theorem getLsbD_zero_eq (t : Nat) : (0 : U8).getLsbD t = false := BitVec.getLsbD_zero

theorem getLsbD_and_one (v : U8) (t : Nat) : (v &&& 1).getLsbD t = (decide (t < 1) && v.getLsbD t) :=
  getLsbD_mask (b := 1) (by decide) v t

theorem getLsbD_and_three (v : U8) (t : Nat) : (v &&& 0x03).getLsbD t = (decide (t < 2) && v.getLsbD t) :=
  getLsbD_mask (b := 2) (by decide) v t

theorem getLsbD_and_seven (v : U8) (t : Nat) : (v &&& 0x07).getLsbD t = (decide (t < 3) && v.getLsbD t) :=
  getLsbD_mask (b := 3) (by decide) v t

theorem getLsbD_and_fifteen (v : U8) (t : Nat) : (v &&& 0x0F).getLsbD t = (decide (t < 4) && v.getLsbD t) :=
  getLsbD_mask (b := 4) (by decide) v t

/-- A field shifted to bit `s` of the bytes, as far as its first byte goes. -/
theorem bitAt_orLow {xs : List U8} {s : Nat} (hs : s / 8 < xs.length) (v : U8) (p : Nat) :
    bitAt (xs.set (s / 8) (byteAt xs (s / 8) ||| v <<< (s % 8))) p =
      (bitAt xs p || (decide (p / 8 = s / 8 ∧ s ≤ p) && v.getLsbD (p - s))) := by
  rw [bitAt_or hs, BitVec.getLsbD_shiftLeft, decide_eq_true (Nat.mod_lt p (by decide)), Bool.true_and]
  by_cases hp : p / 8 = s / 8
  · have hle : (¬ p % 8 < s % 8) ↔ s ≤ p := by omega
    have hsub : p % 8 - s % 8 = p - s := by omega
    rw [hsub, ← decide_not]
    simp only [hp, hle, true_and, decide_true, Bool.true_and]
  · simp only [hp, false_and, decide_false, Bool.false_and]

/-- What of it is left for the next byte. -/
theorem bitAt_orHigh {xs : List U8} {s : Nat} (hs : s / 8 + 1 < xs.length) (v : U8) (p : Nat) :
    bitAt (xs.set (s / 8 + 1) (byteAt xs (s / 8 + 1) ||| v >>> (8 - s % 8))) p =
      (bitAt xs p || (decide (p / 8 = s / 8 + 1) && v.getLsbD (p - s))) := by
  rw [bitAt_or hs, BitVec.getLsbD_ushiftRight]
  by_cases hp : p / 8 = s / 8 + 1
  · have hsub : 8 - s % 8 + p % 8 = p - s := by omega
    rw [hsub]
  · simp only [hp, decide_false, Bool.false_and]

/-! ## One bit -/

theorem and_one_cases (v : U8) : v &&& 1 = 0 ∨ v &&& 1 = 1 := by
  have hmod : (v &&& 1).toNat = v.toNat % 2 := by
    rw [BitVec.toNat_and]
    exact Nat.and_one_is_mod _
  rcases Nat.mod_two_eq_zero_or_one v.toNat with hzero | hone
  · exact .inl (BitVec.eq_of_toNat_eq (hmod.trans hzero))
  · exact .inr (BitVec.eq_of_toNat_eq (hmod.trans hone))

theorem pack1bit_packed (hlen : indices.length = n) :
    ∃ packed, pack1bit n indices = some packed ∧ Packed 1 n indices packed := by
  subst hlen
  have hturn : ∀ (i : Nat) (idx : U8), indices[i]? = some idx → ∀ packed : List U8,
      packed.length = divCeil indices.length 8 ∧ Filled 1 indices (i * 1) packed →
        ∃ packed', (if idx &&& 1 ≠ 0 then orAt packed (i / 8) ((1 : U8) <<< (i % 8)) else some packed) = some packed' ∧
          packed'.length = divCeil indices.length 8 ∧ Filled 1 indices ((i + 1) * 1) packed' := by
    rintro i idx hidx packed ⟨hsize, hfilled⟩
    obtain ⟨hi, rfl⟩ := List.getElem?_eq_some_iff.1 hidx
    have hfield : byteAt indices i = indices[i] := Option.some.inj ((getElem?_byteAt hi).symm.trans hidx)
    have hbit : ∀ t, (indices[i] &&& 1).getLsbD t = (decide (t < 1) && (byteAt indices i).getLsbD t) := by
      rw [hfield]
      exact getLsbD_and_one _
    have hs : i / 8 < packed.length := by rw [hsize, divCeil]; omega
    rcases and_one_cases indices[i] with hv | hv
    · refine ⟨packed, if_neg (not_not.2 hv), hsize, hfilled.write hbit fun p => ?_⟩
      rw [hv, getLsbD_zero_eq, Bool.and_false, Bool.or_false]
    · rw [hv] at hbit
      refine ⟨_, (if_pos (by rw [hv]; decide)).trans (orAt_eq hs _), by rw [List.length_set, hsize],
        hfilled.write_at (P := fun p => p / 8 = i / 8 ∧ i ≤ p) hbit (fun p => ?_) fun p hp => ?_⟩
      · rw [Nat.mul_one]
        exact bitAt_orLow hs 1 p
      · omega
  obtain ⟨packed, hpacked, hsize, hfilled⟩ := enumerate_keeps (P := fun i packed => packed.length =
    divCeil indices.length 8 ∧ Filled 1 indices (i * 1) packed) hturn ⟨List.length_replicate, filled_zeros⟩
  rw [pack1bit, List.take_length]
  exact ⟨packed, hpacked, by rw [hsize, divCeil, Nat.mul_one]; rfl, hfilled⟩

theorem unpack1bit_unpacked (hlen : packed.length = (n * 1 + 7) / 8) :
    ∃ indices, unpack1bit n packed = some indices ∧ Unpacked 1 n packed indices := by
  have hread : ∀ i ∈ List.range n, (packed[i / 8]?.map fun byte : U8 => (byte >>> (i % 8)) &&& 1) =
      some ((byteAt packed (i / 8) >>> (i % 8)) &&& 1) := by
    intro i hi
    have hlt := List.mem_range.1 hi
    rw [getElem?_byteAt (by omega), Option.map_some]
  refine ⟨_, Traverse.mapM_eq_map hread, by rw [List.length_map, List.length_range], fun i hi t => ?_⟩
  rw [byteAt_map_range _ hi, Nat.mul_one]
  exact getLsbD_field (b := 1) (by decide) (Nat.div_add_mod i 8) (by omega) t

/-! ## Three bits -/

theorem pack3bit_packed (hlen : indices.length = n) :
    ∃ packed, pack3bit n indices = some packed ∧ Packed 3 n indices packed := by
  subst hlen
  have hturn : ∀ (i : Nat) (idx : U8), indices[i]? = some idx → ∀ packed : List U8,
      packed.length = divCeil (indices.length * 3) 8 ∧ Filled 3 indices (i * 3) packed →
        ∃ packed', ((orAt packed (i * 3 / 8) ((idx &&& 0x07) <<< (i * 3 % 8))).bind fun packed =>
          if i * 3 % 8 > 5 ∧ i * 3 / 8 + 1 < divCeil (indices.length * 3) 8 then
            orAt packed (i * 3 / 8 + 1) ((idx &&& 0x07) >>> (8 - i * 3 % 8)) else some packed) = some packed' ∧
          packed'.length = divCeil (indices.length * 3) 8 ∧ Filled 3 indices ((i + 1) * 3) packed' := by
    rintro i idx hidx packed ⟨hsize, hfilled⟩
    obtain ⟨hi, rfl⟩ := List.getElem?_eq_some_iff.1 hidx
    have hfield : byteAt indices i = indices[i] := Option.some.inj ((getElem?_byteAt hi).symm.trans hidx)
    have hbit : ∀ t, (indices[i] &&& 0x07).getLsbD t = (decide (t < 3) && (byteAt indices i).getLsbD t) := by
      rw [hfield]
      exact getLsbD_and_seven _
    have hs : i * 3 / 8 < packed.length := by rw [hsize, divCeil]; omega
    generalize indices[i] &&& 0x07 = v at hbit
    rw [orAt_eq hs, Option.bind_some]
    by_cases htwo : i * 3 % 8 > 5 ∧ i * 3 / 8 + 1 < divCeil (indices.length * 3) 8
    · have hnext : i * 3 / 8 + 1 < (packed.set (i * 3 / 8) (byteAt packed (i * 3 / 8) ||| v <<< (i * 3 % 8))).length := by
        rw [List.length_set, hsize]
        exact htwo.2
      refine ⟨_, (if_pos htwo).trans (orAt_eq hnext _), by rw [List.length_set, List.length_set, hsize],
        hfilled.write_at (P := fun p => (p / 8 = i * 3 / 8 ∧ i * 3 ≤ p) ∨ p / 8 = i * 3 / 8 + 1) hbit (fun p => ?_)
          fun p hp => ?_⟩
      · rw [bitAt_orHigh hnext, bitAt_orLow hs, Bool.or_assoc, ← Bool.and_or_distrib_right, ← Bool.decide_or]
      · omega
    · -- all of the field is in one byte
      refine ⟨_, if_neg htwo, by rw [List.length_set, hsize], hfilled.write_at hbit (bitAt_orLow hs v) fun p hp => ?_⟩
      rw [divCeil] at htwo
      omega
  obtain ⟨packed, hpacked, hsize, hfilled⟩ := enumerate_keeps (P := fun i packed => packed.length =
    divCeil (indices.length * 3) 8 ∧ Filled 3 indices (i * 3) packed) hturn ⟨List.length_replicate, filled_zeros⟩
  rw [pack3bit, List.take_length]
  exact ⟨packed, hpacked, hsize, hfilled⟩

theorem unpack3bit_unpacked (hlen : packed.length = (n * 3 + 7) / 8) :
    ∃ indices, unpack3bit n packed = some indices ∧ Unpacked 3 n packed indices := by
  have hread : ∀ i ∈ List.range n, ((packed[i * 3 / 8]?).bind fun byte : U8 =>
      if i * 3 % 8 > 5 ∧ i * 3 / 8 + 1 < packed.length then
        packed[i * 3 / 8 + 1]?.map fun next : U8 =>
          ((byte >>> (i * 3 % 8)) &&& 0x07) ||| ((next <<< (8 - i * 3 % 8)) &&& 0x07)
      else some ((byte >>> (i * 3 % 8)) &&& 0x07)) =
        some (if i * 3 % 8 > 5 then
          ((byteAt packed (i * 3 / 8) >>> (i * 3 % 8)) &&& 0x07) |||
            ((byteAt packed (i * 3 / 8 + 1) <<< (8 - i * 3 % 8)) &&& 0x07)
          else (byteAt packed (i * 3 / 8) >>> (i * 3 % 8)) &&& 0x07) := by
    intro i hi
    have hlt := List.mem_range.1 hi
    rw [getElem?_byteAt (by omega), Option.bind_some]
    by_cases htwo : i * 3 % 8 > 5
    · have hnext : i * 3 / 8 + 1 < packed.length := by omega
      rw [if_pos ⟨htwo, hnext⟩, if_pos htwo, getElem?_byteAt hnext, Option.map_some]
    · rw [if_neg fun h => htwo h.1, if_neg htwo]
  refine ⟨_, Traverse.mapM_eq_map hread, by rw [List.length_map, List.length_range], fun i hi t => ?_⟩
  rw [byteAt_map_range _ hi]
  by_cases htwo : i * 3 % 8 > 5
  · rw [if_pos htwo, BitVec.getLsbD_or, getLsbD_and_seven, getLsbD_and_seven, ← Bool.and_or_distrib_left]
    by_cases ht : t < 3
    · rw [BitVec.getLsbD_shiftLeft]
      by_cases hfirst : i * 3 % 8 + t < 8
      · rw [getLsbD_byteAt_shift hfirst, decide_eq_true (show t < 8 - i * 3 % 8 by omega), Bool.not_true, Bool.and_false,
          Bool.false_and, Bool.or_false]
      · have hnext : 8 * (i * 3 / 8 + 1) + (t - (8 - i * 3 % 8)) = i * 3 + t := by omega
        rw [BitVec.getLsbD_ushiftRight, BitVec.getLsbD_of_ge _ _ (Nat.le_of_not_lt hfirst), Bool.false_or,
          getLsbD_byteAt (by omega), hnext, decide_eq_true (show t < 8 by omega),
          decide_eq_false (show ¬ t < 8 - i * 3 % 8 by omega), Bool.not_false, Bool.true_and, Bool.true_and]
    · rw [decide_eq_false ht, Bool.false_and, Bool.false_and]
  · rw [if_neg htwo]
    exact getLsbD_field (b := 3) (by decide) (Nat.div_add_mod (i * 3) 8) (by omega) t

/-! ## Four bits -/

theorem pack4bit_packed (hlen : indices.length = n) :
    ∃ packed, pack4bit n indices = some packed ∧ Packed 4 n indices packed := by
  subst hlen
  have hturn : ∀ t < (indices.length + 2 - 1) / 2, ∀ packed : List U8,
      packed.length = divCeil indices.length 2 ∧ Filled 4 indices (min (8 * t) (indices.length * 4)) packed →
        ∃ packed', ((indices[t * 2]?).bind fun lo : U8 =>
          (if t * 2 + 1 < indices.length then indices[t * 2 + 1]?.map (· &&& 0x0F) else some 0).bind fun hi =>
            setAt packed (t * 2 / 2) ((lo &&& (0x0F : U8)) ||| (hi <<< 4))) = some packed' ∧
          packed'.length = divCeil indices.length 2 ∧
            Filled 4 indices (min (8 * (t + 1)) (indices.length * 4)) packed' := by
    rintro t ht packed ⟨hsize, hfilled⟩
    have hin : t * 2 < indices.length := stepBy_lt ht
    have hplace : t < packed.length := by rw [hsize]; exact ht
    -- the upper half of the byte, where there is an index for it
    obtain ⟨hi, hhi, hhibit⟩ : ∃ hi : U8,
        (if t * 2 + 1 < indices.length then indices[t * 2 + 1]?.map (· &&& 0x0F) else some 0) = some hi ∧
          ∀ q < 4, hi.getLsbD q = (decide (t * 2 + 1 < indices.length) && (byteAt indices (t * 2 + 1)).getLsbD q) := by
      by_cases hmore : t * 2 + 1 < indices.length
      · refine ⟨byteAt indices (t * 2 + 1) &&& 0x0F, ?_, fun q hq => ?_⟩
        · rw [if_pos hmore, getElem?_byteAt hmore, Option.map_some]
        · rw [getLsbD_and_fifteen, decide_eq_true hq, decide_eq_true hmore]
      · exact ⟨0, if_neg hmore, fun q _ => by rw [decide_eq_false hmore, getLsbD_zero_eq, Bool.false_and]⟩
    rw [getElem?_byteAt hin, Option.bind_some, hhi, Option.bind_some, Nat.mul_div_cancel t (by decide), setAt_eq hplace]
    refine ⟨_, rfl, by rw [List.length_set, hsize], hfilled.set hplace fun q hq => ?_⟩
    rw [BitVec.getLsbD_or, getLsbD_and_fifteen, BitVec.getLsbD_shiftLeft, decide_eq_true hq, Bool.true_and]
    by_cases hlow : q < 4
    · rw [decide_eq_true hlow, decide_eq_true (show 8 * t + q < indices.length * 4 by omega),
        show (8 * t + q) / 4 = t * 2 by omega, show (8 * t + q) % 4 = q by omega, Bool.not_true, Bool.false_and,
        Bool.or_false]
    · have hmore : 8 * t + q < indices.length * 4 ↔ t * 2 + 1 < indices.length := by omega
      rw [decide_eq_false hlow, hhibit _ (by omega), show (8 * t + q) / 4 = t * 2 + 1 by omega,
        show (8 * t + q) % 4 = q - 4 by omega, Bool.false_and, Bool.false_or, Bool.not_false, Bool.true_and]
      simp only [hmore]
  obtain ⟨packed, hpacked, hsize, hfilled⟩ := times_keeps (P := fun t packed => packed.length =
    divCeil indices.length 2 ∧ Filled 4 indices (min (8 * t) (indices.length * 4)) packed) hturn
    ⟨List.length_replicate, by rw [Nat.mul_zero, Nat.zero_min]; exact filled_zeros⟩
  refine ⟨packed, hpacked, by rw [hsize, divCeil]; omega, ?_⟩
  rwa [Nat.min_eq_right (by omega)] at hfilled

theorem unpack4bit_unpacked (hlen : packed.length = (n * 4 + 7) / 8) :
    ∃ indices, unpack4bit n packed = some indices ∧ Unpacked 4 n packed indices := by
  have hturn : ∀ t < (n + 2 - 1) / 2, ∀ indices : List U8,
      indices.length = n ∧ Read 4 packed (min (t * 2) n) indices →
        ∃ indices', ((packed[t * 2 / 2]?).bind fun byte : U8 => (setAt indices (t * 2) (byte &&& 0x0F)).bind fun indices =>
          if t * 2 + 1 < n then setAt indices (t * 2 + 1) ((byte >>> 4) &&& 0x0F) else some indices) = some indices' ∧
          indices'.length = n ∧ Read 4 packed (min ((t + 1) * 2) n) indices' := by
    rintro t ht indices ⟨hsize, hread⟩
    have hin : t * 2 < n := stepBy_lt ht
    rw [Nat.min_eq_left hin.le] at hread
    have hlow : ∀ q, (byteAt packed t &&& 0x0F).getLsbD q = (decide (q < 4) && bitAt packed (t * 2 * 4 + q)) :=
      getLsbD_field (b := 4) (k := 0) (by decide) (show 8 * t + 0 = t * 2 * 4 by omega) (by decide)
    have hfirst := hread.set (by rw [hsize]; exact hin) hlow
    rw [Nat.mul_div_cancel t (by decide), getElem?_byteAt (by omega), Option.bind_some, setAt_eq (by rw [hsize]; exact hin),
      Option.bind_some]
    by_cases hmore : t * 2 + 1 < n
    · have hplace : t * 2 + 1 < (indices.set (t * 2) (byteAt packed t &&& 0x0F)).length := by
        rw [List.length_set, hsize]
        exact hmore
      have hsecond := hfirst.set (v := (byteAt packed t >>> 4) &&& 0x0F) hplace
        (getLsbD_field (b := 4) (by decide) (show 8 * t + 4 = (t * 2 + 1) * 4 by omega) (by decide))
      rw [if_pos hmore, setAt_eq hplace]
      refine ⟨_, rfl, by rw [List.length_set, List.length_set, hsize], ?_⟩
      rw [show min ((t + 1) * 2) n = t * 2 + 1 + 1 by omega]
      exact hsecond
    · rw [if_neg hmore]
      refine ⟨_, rfl, by rw [List.length_set, hsize], ?_⟩
      rw [show min ((t + 1) * 2) n = t * 2 + 1 by omega]
      exact hfirst
  obtain ⟨indices, hindices, hsize, hread⟩ := times_keeps (P := fun t indices => indices.length = n ∧
    Read 4 packed (min (t * 2) n) indices) hturn
    ⟨List.length_replicate, by rw [Nat.zero_mul, Nat.zero_min]; exact read_zero⟩
  refine ⟨indices, hindices, hsize, ?_⟩
  rwa [Nat.min_eq_right (by omega)] at hread

/-! ## Two bits -/

/-- Of the four indices from `t * 4` on the first `j` are in the byte, as far as there are. -/
def Begun (indices : List U8) (t j : Nat) (byte : U8) : Prop :=
  ∀ q < 8, byte.getLsbD q = (decide (q < j * 2 ∧ 8 * t + q < indices.length * 2) &&
    (byteAt indices ((8 * t + q) / 2)).getLsbD ((8 * t + q) % 2))

theorem begun_zero (t : Nat) : Begun indices t 0 0 := by
  intro q _
  rw [getLsbD_zero_eq, decide_eq_false (by omega), Bool.false_and]

theorem Begun.or {t j : Nat} {byte : U8} (h : Begun indices t j byte) (hmore : t * 4 + j < indices.length) :
    Begun indices t (j + 1) (byte ||| ((byteAt indices (t * 4 + j) &&& 0x03) <<< (j * 2))) := by
  intro q hq
  rw [BitVec.getLsbD_or, h q hq, BitVec.getLsbD_shiftLeft, getLsbD_and_three, decide_eq_true hq, Bool.true_and]
  rcases Nat.lt_trichotomy (q / 2) j with hlow | hhere | hhigh
  · -- an index packed before
    have hupto : (q < (j + 1) * 2 ∧ 8 * t + q < indices.length * 2) ↔ q < j * 2 ∧ 8 * t + q < indices.length * 2 := by
      omega
    rw [decide_eq_true (show q < j * 2 by omega), Bool.not_true, Bool.false_and, Bool.or_false]
    simp only [hupto]
  · rw [decide_eq_false (show ¬ (q < j * 2 ∧ 8 * t + q < indices.length * 2) by omega),
      decide_eq_true (show q < (j + 1) * 2 ∧ 8 * t + q < indices.length * 2 by omega),
      decide_eq_false (show ¬ q < j * 2 by omega), decide_eq_true (show q - j * 2 < 2 by omega),
      show (8 * t + q) / 2 = t * 4 + j by omega, show (8 * t + q) % 2 = q - j * 2 by omega, Bool.false_and,
      Bool.false_or, Bool.not_false, Bool.true_and]
  · rw [decide_eq_false (show ¬ (q < j * 2 ∧ 8 * t + q < indices.length * 2) by omega),
      decide_eq_false (show ¬ (q < (j + 1) * 2 ∧ 8 * t + q < indices.length * 2) by omega),
      decide_eq_false (show ¬ q - j * 2 < 2 by omega), Bool.false_and, Bool.false_and, Bool.and_false, Bool.or_false]

/-- Behind the last index there is nothing more. -/
theorem Begun.skip {t j : Nat} {byte : U8} (h : Begun indices t j byte) (hend : ¬ t * 4 + j < indices.length) :
    Begun indices t (j + 1) byte := by
  intro q hq
  have hupto : (q < (j + 1) * 2 ∧ 8 * t + q < indices.length * 2) ↔ q < j * 2 ∧ 8 * t + q < indices.length * 2 := by
    omega
  rw [h q hq]
  simp only [hupto]

/-- The inner loop makes the byte of up to four indices. -/
theorem pack2bit_byte (indices : List U8) (t : Nat) :
    ∃ byte : U8, times 4 (fun byte j =>
        if t * 4 + j < indices.length then
          indices[t * 4 + j]?.map fun idx : U8 => byte ||| ((idx &&& 0x03) <<< (j * 2))
        else some byte) (0 : U8) = some byte ∧ Begun indices t 4 byte := by
  refine times_keeps (P := Begun indices t) (fun j hj byte hbyte => ?_) (begun_zero t)
  by_cases hmore : t * 4 + j < indices.length
  · rw [if_pos hmore, getElem?_byteAt hmore, Option.map_some]
    exact ⟨_, rfl, hbyte.or hmore⟩
  · exact ⟨byte, if_neg hmore, hbyte.skip hmore⟩

theorem pack2bit_packed (hlen : indices.length = n) :
    ∃ packed, pack2bit n indices = some packed ∧ Packed 2 n indices packed := by
  subst hlen
  have hturn : ∀ t < (indices.length + 4 - 1) / 4, ∀ packed : List U8,
      packed.length = divCeil indices.length 4 ∧ Filled 2 indices (min (8 * t) (indices.length * 2)) packed →
        ∃ packed', ((times 4 (fun byte j =>
            if t * 4 + j < indices.length then
              indices[t * 4 + j]?.map fun idx : U8 => byte ||| ((idx &&& 0x03) <<< (j * 2))
            else some byte) (0 : U8)).bind fun byte => setAt packed (t * 4 / 4) byte) = some packed' ∧
          packed'.length = divCeil indices.length 4 ∧
            Filled 2 indices (min (8 * (t + 1)) (indices.length * 2)) packed' := by
    rintro t ht packed ⟨hsize, hfilled⟩
    have hplace : t < packed.length := by rw [hsize]; exact ht
    obtain ⟨byte, hbyte, hbits⟩ := pack2bit_byte indices t
    rw [hbyte, Option.bind_some, Nat.mul_div_cancel t (by decide), setAt_eq hplace]
    refine ⟨_, rfl, by rw [List.length_set, hsize], hfilled.set hplace fun q hq => ?_⟩
    have hall : (q < 4 * 2 ∧ 8 * t + q < indices.length * 2) ↔ 8 * t + q < indices.length * 2 := by omega
    rw [hbits q hq]
    simp only [hall]
  obtain ⟨packed, hpacked, hsize, hfilled⟩ := times_keeps (P := fun t packed => packed.length =
    divCeil indices.length 4 ∧ Filled 2 indices (min (8 * t) (indices.length * 2)) packed) hturn
    ⟨List.length_replicate, by rw [Nat.mul_zero, Nat.zero_min]; exact filled_zeros⟩
  refine ⟨packed, hpacked, by rw [hsize, divCeil]; omega, ?_⟩
  rwa [Nat.min_eq_right (by omega)] at hfilled

theorem unpack2bit_unpacked (hlen : packed.length = (n * 2 + 7) / 8) :
    ∃ indices, unpack2bit n packed = some indices ∧ Unpacked 2 n packed indices := by
  have hturn : ∀ t < (n + 4 - 1) / 4, ∀ indices : List U8,
      indices.length = n ∧ Read 2 packed (min (t * 4) n) indices →
        ∃ indices', ((packed[t * 4 / 4]?).bind fun byte : U8 => times 4 (fun indices j =>
            if t * 4 + j < n then setAt indices (t * 4 + j) ((byte >>> (j * 2)) &&& 0x03) else some indices) indices) =
              some indices' ∧
          indices'.length = n ∧ Read 2 packed (min ((t + 1) * 4) n) indices' := by
    rintro t ht indices ⟨hsize, hread⟩
    have hin : t * 4 < n := stepBy_lt ht
    rw [Nat.mul_div_cancel t (by decide), getElem?_byteAt (by omega), Option.bind_some, Nat.succ_mul]
    -- the four indices of the byte, as far as there are
    refine times_keeps (P := fun j indices => indices.length = n ∧ Read 2 packed (min (t * 4 + j) n) indices)
      (fun j hj indices ⟨hsize, hread⟩ => ?_) ⟨hsize, hread⟩
    by_cases hmore : t * 4 + j < n
    · have hplace : t * 4 + j < indices.length := by rw [hsize]; exact hmore
      rw [Nat.min_eq_left hmore.le] at hread
      have hnext := hread.set (v := (byteAt packed t >>> (j * 2)) &&& 0x03) hplace
        (getLsbD_field (b := 2) (by decide) (show 8 * t + j * 2 = (t * 4 + j) * 2 by omega) (by omega))
      rw [if_pos hmore, setAt_eq hplace]
      refine ⟨_, rfl, by rw [List.length_set, hsize], ?_⟩
      rwa [← Nat.add_assoc, Nat.min_eq_left hmore]
    · refine ⟨indices, if_neg hmore, hsize, ?_⟩
      rwa [show min (t * 4 + (j + 1)) n = min (t * 4 + j) n by omega]
  obtain ⟨indices, hindices, hsize, hread⟩ := times_keeps (P := fun t indices => indices.length = n ∧
    Read 2 packed (min (t * 4) n) indices) hturn
    ⟨List.length_replicate, by rw [Nat.zero_mul, Nat.zero_min]; exact read_zero⟩
  refine ⟨indices, hindices, hsize, ?_⟩
  rwa [Nat.min_eq_right (by omega)] at hread

/-! ## Any width -/

/-- A width the quantizer packs. -/
def Width (b : Nat) : Prop := 1 ≤ b ∧ b ≤ 4

theorem packIndicesBits_packed {b : Nat} (hb : Width b) (hlen : indices.length = n) :
    ∃ packed, packIndicesBits n b indices = some packed ∧ Packed b n indices packed := by
  obtain ⟨hlow, hhigh⟩ := hb
  interval_cases b
  · exact pack1bit_packed hlen
  · exact pack2bit_packed hlen
  · exact pack3bit_packed hlen
  · exact pack4bit_packed hlen

theorem unpackIndicesBits_unpacked {b : Nat} (hb : Width b) (hlen : packed.length = (n * b + 7) / 8) :
    ∃ indices, unpackIndicesBits n b packed = some indices ∧ Unpacked b n packed indices := by
  obtain ⟨hlow, hhigh⟩ := hb
  interval_cases b
  · exact unpack1bit_unpacked hlen
  · exact unpack2bit_unpacked hlen
  · exact unpack3bit_unpacked hlen
  · exact unpack4bit_unpacked hlen

/-- Indices that fit come back from their bytes, and there are no more of these than needed. -/
theorem unpack_pack {b : Nat} (hb : Width b) (hlen : indices.length = n) (hfits : ∀ idx ∈ indices, idx.toNat < 2 ^ b) :
    ∃ packed, packIndicesBits n b indices = some packed ∧ packed.length = divCeil (n * b) 8 ∧
      unpackIndicesBits n b packed = some indices := by
  obtain ⟨packed, hpacked, hall⟩ := packIndicesBits_packed hb hlen
  obtain ⟨out, hout, hread⟩ := unpackIndicesBits_unpacked hb hall.length
  exact ⟨packed, hpacked, hall.length, hout.trans (congrArg some (hread.eq_of_packed hall hlen hfits))⟩

end Oxydllm.KvQuant
