/-
# Oxydllm.Quant.ExactProduct — the packed product is the product with the dequantised weight.

Over a ring, where a sum does not depend on its order, the splits of a column add up to the whole column
(`flatMap_splitInputs`), and what the kernels compute for a row is its product with the weight that the CPU would have
dequantised (`forward_exact`). In the GPTQ layout the kernels look the group up once a word, so a group must hold
whole words, and they read the stored zero points even of a symmetric weight, where the CPU takes the centre.
-/
import Oxydllm.Quant.PackedLinear
import Mathlib.Algebra.BigOperators.Group.List.Basic
import Mathlib.Algebra.BigOperators.Ring.List

namespace Oxydllm.Quant

open Barrier RowMajor Traverse

variable {R : Type} [CommRing R]

/-- Arithmetic without rounding. -/
def exactFloats (R : Type) [CommRing R] : Floats R := ⟨0, (· + ·), (· - ·), (· * ·), Nat.cast⟩

/-! ## Splits -/

theorem range_append_range' (a n : Nat) : List.range a ++ List.range' a n = List.range (a + n) := by
  have happend : List.range' 0 a ++ List.range' (0 + a) n = List.range' 0 (a + n) := List.range'_append_1
  rwa [Nat.zero_add, ← List.range_eq_range', ← List.range_eq_range'] at happend

theorem flatMap_splitInputs (n chunk k : Nat) :
    (List.range k).flatMap (splitInputs n chunk) = List.range (min (k * chunk) n) := by
  induction k with
  | zero => rw [Nat.zero_mul, Nat.zero_min]; rfl
  | succ k ih =>
      rw [List.range_succ, List.flatMap_append, List.flatMap_singleton, ih, splitInputs, Nat.succ_mul]
      rcases Nat.le_total (k * chunk) n with hle | hle
      · rw [Nat.min_eq_left hle, range_append_range']
        congr 1
        omega
      · have hnone : min (k * chunk + chunk) n - k * chunk = 0 := by omega
        rw [Nat.min_eq_right hle, hnone, Nat.min_eq_right (by omega)]
        exact List.append_nil _

theorem foldl_add_eq_sum {α : Type} (f : α → R) (xs : List α) :
    xs.foldl (fun a x => a + f x) 0 = (xs.map f).sum := by
  rw [List.sum_eq_foldl, List.foldl_map]

/-- The shares of all splits, those of no inputs among them. -/
theorem sumSplits_exact {α : Type} {S kSplits : Nat} (hS : kSplits ≤ S) (parts : Nat → List α) (f : α → R) (guard : Prop)
    [Decidable guard] (hguard : guard) :
    sumSplits (exactFloats R) S (fun s => if guard ∧ s < kSplits then ((parts s).map f).sum else 0) =
      (((List.range kSplits).flatMap parts).map f).sum := by
  have hfold : sumSplits (exactFloats R) S (fun s => if guard ∧ s < kSplits then ((parts s).map f).sum else 0) =
      ((List.range S).map fun s => if guard ∧ s < kSplits then ((parts s).map f).sum else 0).sum :=
    foldl_add_eq_sum _ _
  obtain ⟨extra, rfl⟩ := Nat.exists_eq_add_of_le hS
  have hhead : (List.range kSplits).map (fun s => if guard ∧ s < kSplits then ((parts s).map f).sum else 0) =
      (List.range kSplits).map fun s => ((parts s).map f).sum :=
    List.map_congr_left fun s hs => if_pos ⟨hguard, List.mem_range.1 hs⟩
  have htail : (List.range extra).map ((fun s => if guard ∧ s < kSplits then ((parts s).map f).sum else 0) ∘
      fun s => kSplits + s) = (List.range extra).map fun _ => (0 : R) :=
    List.map_congr_left fun s _ => if_neg fun h => absurd h.2 (Nat.not_lt.2 (Nat.le_add_right kSplits s))
  rw [hfold, List.range_add, List.map_append, List.sum_append, hhead, List.map_map, htail]
  simp only [List.map_const', List.sum_replicate, smul_zero, add_zero]
  generalize List.range kSplits = ks
  induction ks with
  | nil => rfl
  | cons s ks ih => rw [List.map_cons, List.sum_cons, ih, List.flatMap_cons, List.map_append, List.sum_append]

theorem divCeil_le {n d S : Nat} (hd : 0 < d) (h : n ≤ S * d) : divCeil n d ≤ S := by
  refine Nat.le_of_lt_succ (Nat.div_lt_of_lt_mul ?_)
  rw [Nat.mul_succ, Nat.mul_comm d]
  omega

theorem divCeil_pos {n d : Nat} (hn : 0 < n) (hd : 0 < d) : 0 < divCeil n d :=
  Nat.div_pos (by omega) hd

/-! ## Columns -/

theorem shift_group {groupSize : Nat} (h : groupSize.isPowerOfTwo) (i : Nat) :
    i >>> trailingZeros groupSize groupSize = i / groupSize := by
  obtain ⟨k, rfl⟩ := h
  rw [trailingZeros_two_pow Nat.lt_two_pow_self, Nat.shiftRight_eq_div_pow]

theorem unpack_four (word : BitVec 32) (k : Nat) : unpack 4 word k = nibble word (4 * k) := rfl

theorem AwqShape.column_exact {s : AwqShape} {bits : Nat} (w : Packed R) (row : Nat → R) {o : Nat}
    (hin : 0 < s.inFeatures) (hj : o / (32 / bits) < s.packedOut) :
    s.column (exactFloats R) bits w row o = ((List.range s.inFeatures).map fun i =>
      row i * awqWeight (exactFloats R) bits w (s.params 1 false) (o / (32 / bits)) (packSlot bits o) i).sum := by
  have hrows : 0 < s.sRows := Nat.lt_of_lt_of_le (by decide) (W4A16Matmul.sRows_pos s)
  have hchunk : 0 < divCeil s.inFeatures s.sRows := divCeil_pos hin hrows
  have hsplits : divCeil s.inFeatures (divCeil s.inFeatures s.sRows) ≤ s.sRows :=
    divCeil_le hchunk (Nat.mul_comm s.sRows _ ▸ le_divCeil_mul hrows)
  have hall : min (divCeil s.inFeatures (divCeil s.inFeatures s.sRows) * divCeil s.inFeatures s.sRows) s.inFeatures =
      s.inFeatures := Nat.min_eq_right (le_divCeil_mul hchunk)
  have hsum := sumSplits_exact hsplits (splitInputs s.inFeatures (divCeil s.inFeatures s.sRows))
    (fun i => row i * awqWeight (exactFloats R) bits w (s.params 1 false) (o / (32 / bits)) (packSlot bits o) i) _ hj
  rw [flatMap_splitInputs, hall] at hsum
  rw [← hsum]
  unfold AwqShape.column
  refine sumSplits_congr fun ks _ => ?_
  unfold awqShare
  by_cases hguard : o / (32 / bits) < s.packedOut ∧ ks < divCeil s.inFeatures (divCeil s.inFeatures s.sRows)
  · rw [if_pos hguard]
    exact (if_pos hguard).trans (foldl_add_eq_sum _ _)
  · rw [if_neg hguard]
    exact if_neg hguard

/-- The words of a split are those of its inputs. -/
theorem splitWords_eq {s : GptqShape} {bits : Nat} (hbits : bits = 4 ∨ bits = 8)
    (hpacked : s.inFeatures = s.packedIn * (32 / bits)) (ks : Nat) :
    splitWords bits (s.params bits 1 false) ks =
      splitInputs s.packedIn (divCeil (divCeil s.inFeatures qdetS) (32 / bits)) ks := by
  have hword : 0 < 32 / bits := by rcases hbits with rfl | rfl <;> decide
  unfold splitWords splitInputs
  show List.range' (ks * (divCeil (divCeil s.inFeatures qdetS) (32 / bits) * (32 / bits)) / (32 / bits))
    ((min (ks * (divCeil (divCeil s.inFeatures qdetS) (32 / bits) * (32 / bits)) +
      divCeil (divCeil s.inFeatures qdetS) (32 / bits) * (32 / bits)) s.inFeatures + 32 / bits - 1) / (32 / bits) -
        ks * (divCeil (divCeil s.inFeatures qdetS) (32 / bits) * (32 / bits)) / (32 / bits)) = _
  generalize divCeil (divCeil s.inFeatures qdetS) (32 / bits) = c
  generalize 32 / bits = pf at hword hpacked ⊢
  have hstart : ks * (c * pf) / pf = ks * c := by rw [← Nat.mul_assoc, Nat.mul_div_cancel _ hword]
  have hend : (min (ks * (c * pf) + c * pf) s.inFeatures + pf - 1) / pf = min (ks * c + c) s.packedIn := by
    have hmin : min (ks * (c * pf) + c * pf) s.inFeatures = min (ks * c + c) s.packedIn * pf := by
      rw [hpacked, ← Nat.mul_assoc, ← Nat.add_mul, Nat.mul_min_mul_right]
    rw [hmin, Nat.add_sub_assoc hword, Nat.mul_comm, Nat.mul_add_div hword, Nat.div_eq_of_lt (by omega), Nat.add_zero]
  rw [hstart, hend]

/-- The weight of input `i` in column `o`, with the group of its word. -/
def gptqWeight (fl : Floats R) (bits : Nat) (w : Packed R) (p : GptqParams) (o i : Nat) : R :=
  gptqSlot fl bits w p o (gptqRead fl bits w p o ((i / (32 / bits) * (32 / bits)) >>> p.groupShift)) (i / (32 / bits))
    (i % (32 / bits))

theorem range_mul_eq (n p : Nat) :
    List.range (n * p) = (List.range n).flatMap fun a => (List.range p).map fun k => a * p + k := by
  induction n with
  | zero => rw [Nat.zero_mul]; rfl
  | succ n ih => rw [Nat.succ_mul, List.range_add, ih, List.range_succ, List.flatMap_append, List.flatMap_singleton]

theorem sum_words (n p : Nat) (f : Nat → R) :
    ((List.range n).map fun a => ((List.range p).map fun k => f (a * p + k)).sum).sum = ((List.range (n * p)).map f).sum := by
  rw [range_mul_eq]
  generalize List.range n = words
  induction words with
  | nil => rfl
  | cons a words ih =>
      rw [List.map_cons, List.sum_cons, ih, List.flatMap_cons, List.map_append, List.sum_append, List.map_map]
      rfl

/-- A word adds its inputs. -/
theorem gptqWord_exact {s : GptqShape} {bits : Nat} (hbits : bits = 4 ∨ bits = 8) (w : Packed R) (row : Nat → R)
    (o iw : Nat) :
    gptqWord (exactFloats R) bits w (s.params bits 1 false) row o
        (gptqRead (exactFloats R) bits w (s.params bits 1 false) o
          ((iw * (32 / bits)) >>> (s.params bits 1 false).groupShift)) iw 0 =
      ((List.range (32 / bits)).map fun k => row (iw * (32 / bits) + k) *
        gptqWeight (exactFloats R) bits w (s.params bits 1 false) o (iw * (32 / bits) + k)).sum := by
  have hword : 0 < 32 / bits := by rcases hbits with rfl | rfl <;> decide
  refine (foldl_add_eq_sum _ _).trans (congrArg List.sum (List.map_congr_left fun k hk => ?_))
  have hk := List.mem_range.1 hk
  have hdiv : (iw * (32 / bits) + k) / (32 / bits) = iw := index_div hk
  have hmod : (iw * (32 / bits) + k) % (32 / bits) = k := by
    rw [Nat.mul_comm, Nat.mul_add_mod, Nat.mod_eq_of_lt hk]
  unfold gptqWeight
  rw [hdiv, hmod, Nat.zero_mul, Nat.zero_add]
  rfl

theorem GptqShape.column_exact {s : GptqShape} {bits : Nat} (hbits : bits = 4 ∨ bits = 8)
    (hpacked : s.inFeatures = s.packedIn * (32 / bits)) (w : Packed R) (row : Nat → R) {o : Nat} (hin : 0 < s.inFeatures)
    (ho : o < s.outFeatures) :
    s.column (exactFloats R) bits w row o = ((List.range s.inFeatures).map fun i =>
      row i * gptqWeight (exactFloats R) bits w (s.params bits 1 false) o i).sum := by
  have hword : 0 < 32 / bits := by rcases hbits with rfl | rfl <;> decide
  have hraw : 0 < divCeil s.inFeatures qdetS := divCeil_pos hin (by decide)
  have hc : 0 < divCeil (divCeil s.inFeatures qdetS) (32 / bits) := divCeil_pos hraw hword
  have hround : divCeil s.inFeatures qdetS ≤ divCeil (divCeil s.inFeatures qdetS) (32 / bits) * (32 / bits) :=
    le_divCeil_mul hword
  have hchunk : 0 < divCeil (divCeil s.inFeatures qdetS) (32 / bits) * (32 / bits) := Nat.mul_pos hc hword
  have hsplits : divCeil s.inFeatures (divCeil (divCeil s.inFeatures qdetS) (32 / bits) * (32 / bits)) ≤ qdetSBatch := by
    refine divCeil_le hchunk ((le_divCeil_mul (by decide : 0 < qdetS)).trans ?_)
    rw [Nat.mul_comm]
    exact Nat.mul_le_mul_left qdetS hround
  have hall : min (divCeil s.inFeatures (divCeil (divCeil s.inFeatures qdetS) (32 / bits) * (32 / bits)) *
      divCeil (divCeil s.inFeatures qdetS) (32 / bits)) s.packedIn = s.packedIn := by
    refine Nat.min_eq_right (Nat.le_of_mul_le_mul_right ?_ hword)
    rw [← hpacked, Nat.mul_assoc]
    exact le_divCeil_mul hchunk
  have hsum := sumSplits_exact hsplits (splitInputs s.packedIn (divCeil (divCeil s.inFeatures qdetS) (32 / bits)))
    (fun iw => ((List.range (32 / bits)).map fun k => row (iw * (32 / bits) + k) *
      gptqWeight (exactFloats R) bits w (s.params bits 1 false) o (iw * (32 / bits) + k)).sum) _ ho
  rw [flatMap_splitInputs, hall] at hsum
  have hwords := sum_words s.packedIn (32 / bits) fun i =>
    row i * gptqWeight (exactFloats R) bits w (s.params bits 1 false) o i
  rw [← hpacked] at hwords
  rw [← hwords]
  refine Eq.trans ?_ hsum
  unfold GptqShape.column
  refine sumSplits_congr fun ks _ => ?_
  unfold gptqShare
  by_cases hguard : o < s.outFeatures ∧
      ks < divCeil s.inFeatures (divCeil (divCeil s.inFeatures qdetS) (32 / bits) * (32 / bits))
  · rw [if_pos hguard, splitWords_eq hbits hpacked]
    refine (if_pos hguard).trans ((foldl_add_eq_sum _ _).trans (congrArg List.sum (List.map_congr_left fun iw _ => ?_)))
    exact gptqWord_exact hbits w row o iw
  · rw [if_neg hguard]
    exact if_neg hguard

/-! ## The dequantised weight -/

/-- `Linear::forward` for a row, with the weight and the bias. -/
def linear (w : Tensor R) (bias : Option (Tensor R)) (inFeatures : Nat) (row : Nat → R) (o : Nat) : R :=
  ((List.range inFeatures).map fun i => row i * w.data.getD (o * inFeatures + i) 0).sum +
    (bias.map fun b => b.data.getD o 0).getD 0

namespace PackedQuantLinear

variable {raw : QuantWeight R} {bias : Option (Tensor R)} {layer : PackedQuantLinear R R}

theorem awqWeight_exact (hof : Of id raw bias layer) (hdim : layer.packDim = .out) {inFeatures outFeatures groups : Nat}
    {z : Tensor Int} (h : Readable raw inFeatures outFeatures groups z) (hbits : layer.bits = 4)
    (hpower : layer.awqShape.groupSize.isPowerOfTwo) (hin : layer.inFeatures = inFeatures)
    (hout : layer.outFeatures = outFeatures) (o i : Nat) :
    awqWeight (exactFloats R) layer.bits (layer.weights (exactFloats R)) (layer.awqShape.params 1 false)
        (o / (32 / layer.bits)) (packSlot layer.bits o) i =
      awqEntry raw z inFeatures outFeatures groups o i := by
  have hz : layer.qzeros = z := Option.some.inj (hof.qzeros.symm.trans h.qzeros)
  have hgroups : layer.awqShape.groupSize = inFeatures / groups := by
    show layer.inFeatures / layer.scales.dims.headD 0 = _
    rw [hof.scales.1, h.scales, hin]
    rfl
  obtain ⟨p, hp, hq⟩ := hof.features hdim
  have hpacked : layer.awqShape.packedOut = outFeatures / awqPackFactor := by
    show layer.qweight.dims.getD 1 0 = _
    rw [hq, ← hout, hp, hbits]
    exact (Nat.mul_div_cancel p (by decide)).symm
  have hshift : i >>> (layer.awqShape.params 1 false).groupShift = i / (inFeatures / groups) := by
    rw [← hgroups]
    exact shift_group hpower i
  have hcol : o / 8 * 8 + packPosition 4 (packSlot 4 o) = o := by
    rw [(packSlot_spec (.inl rfl) o).2, Nat.mul_comm]
    exact Nat.div_add_mod o 8
  have hscale : ∀ g, layer.scales.buffer (exactFloats R) (g * layer.outFeatures + o / 8 * 8 + packPosition 4 (packSlot 4 o)) =
      raw.scales.data.getD (g * outFeatures + o) 0 := by
    intro g
    rw [Nat.add_assoc, hcol, Tensor.buffer, hof.scales.2, List.map_id, hout]
    rfl
  unfold awqWeight awqSlot awqRead awqEntry awqNibble
  rw [hshift, hbits]
  show ((unpack 4 (word layer.qweight (i * layer.awqShape.packedOut + o / 8)) (packSlot 4 o) : R) -
      (unpack 4 (word layer.qzeros (i / (inFeatures / groups) * layer.awqShape.packedOut + o / 8)) (packSlot 4 o) : R)) *
    layer.scales.buffer (exactFloats R) (i / (inFeatures / groups) * layer.outFeatures + o / 8 * 8 +
      packPosition 4 (packSlot 4 o)) = _
  rw [hscale, hpacked, hz, hof.qweight, unpack_four, unpack_four]
  dsimp only
  rw [Int.cast_sub, Int.cast_natCast, Int.cast_natCast]
  rfl

theorem word_group {pf gs i : Nat} (hpf : 0 < pf) (h : pf ∣ gs) :
    i / pf * pf / gs = i / gs := by
  obtain ⟨c, rfl⟩ := h
  rw [← Nat.div_div_eq_div_mul, Nat.mul_div_cancel _ hpf, Nat.div_div_eq_div_mul]

theorem packFactor_dvd {bits gs : Nat} (hbits : bits = 4 ∨ bits = 8) (hpower : gs.isPowerOfTwo) (hle : 32 / bits ≤ gs) :
    32 / bits ∣ gs := by
  obtain ⟨k, rfl⟩ := hpower
  obtain ⟨a, ha⟩ : ∃ a, 32 / bits = 2 ^ a := by
    rcases hbits with rfl | rfl
    · exact ⟨3, rfl⟩
    · exact ⟨2, rfl⟩
  rw [ha] at hle ⊢
  exact Nat.pow_dvd_pow 2 ((Nat.pow_le_pow_iff_right (by decide)).1 hle)

/-- The stored zero points of a symmetric weight are the centre. -/
def Centred (raw : QuantWeight R) (z : Tensor Int) : Prop :=
  raw.zeroPoint = .symmetric → ∀ i < z.data.length, ∀ k < 32 / raw.bits,
    unpack raw.bits (word z i) k = 2 ^ (raw.bits - 1) - 1

omit [CommRing R] in
theorem gptqZero_eq {inFeatures outFeatures groups : Nat} (h : GptqReadable raw inFeatures outFeatures groups)
    {z : Tensor Int} (hz : raw.qzeros = some z) (hcentred : Centred raw z) {g o : Nat} (hg : g < groups)
    (ho : o < outFeatures) : gptqZero raw outFeatures g o =
      unpack raw.bits (word z (g * (outFeatures / (32 / raw.bits)) + o / (32 / raw.bits))) (o % (32 / raw.bits)) := by
  have hword : 0 < 32 / raw.bits := by rcases h.bits with hb | hb <;> rw [hb] <;> decide
  have hlt : g * (outFeatures / (32 / raw.bits)) + o / (32 / raw.bits) < z.data.length := by
    have hcol : o / (32 / raw.bits) < outFeatures / (32 / raw.bits) :=
      Nat.div_lt_div_of_lt_of_dvd (Nat.dvd_of_mod_eq_zero h.packed) ho
    have hrow : (g + 1) * (outFeatures / (32 / raw.bits)) ≤ groups * (outFeatures / (32 / raw.bits)) :=
      Nat.mul_le_mul_right _ hg
    have hlen : z.data.length = groups * (outFeatures / (32 / raw.bits)) := by
      rw [z.filled, (h.zeros z hz).1]
      simp
    rw [Nat.succ_mul] at hrow
    omega
  unfold gptqZero QuantWeight.zeroWords
  rw [hz]
  by_cases hsym : raw.zeroPoint = .symmetric
  · rw [hsym, hcentred hsym _ hlt _ (Nat.mod_lt _ hword)]
    rfl
  · have hneg : ¬((some z).isNone || raw.zeroPoint == .symmetric) = true := by
      rw [Option.isNone_some, Bool.false_or, beq_iff_eq]
      exact hsym
    rw [if_neg hneg]
    dsimp only
    rw [getD_words]

theorem gptqWeight_exact (hof : Of id raw bias layer) {inFeatures outFeatures groups : Nat}
    (h : GptqReadable raw inFeatures outFeatures groups) (hcentred : Centred raw layer.qzeros)
    (hpower : layer.gptqShape.groupSize.isPowerOfTwo) (hwide : 32 / raw.bits ≤ inFeatures / groups)
    (hin : layer.inFeatures = inFeatures) (hout : layer.outFeatures = outFeatures) {o i : Nat} (ho : o < outFeatures)
    (hi : i < inFeatures) :
    gptqWeight (exactFloats R) layer.bits (layer.weights (exactFloats R)) (layer.gptqShape.params layer.bits 1 false) o i =
      gptqEntry raw inFeatures outFeatures groups o i := by
  have hword : 0 < 32 / raw.bits := by rcases h.bits with hb | hb <;> rw [hb] <;> decide
  have hgroups : layer.gptqShape.groupSize = inFeatures / groups := by
    show layer.inFeatures / layer.scales.dims.headD 0 = _
    rw [hof.scales.1, h.scales, hin]
    rfl
  have hdvd : 32 / raw.bits ∣ inFeatures / groups := packFactor_dvd h.bits (hgroups ▸ hpower) hwide
  have hshift : (i / (32 / raw.bits) * (32 / raw.bits)) >>> (layer.gptqShape.params raw.bits 1 false).groupShift =
      i / (inFeatures / groups) := by
    rw [← word_group hword hdvd, ← hgroups]
    exact shift_group hpower _
  have hscale : ∀ g, layer.scales.buffer (exactFloats R) (g * layer.outFeatures + o) =
      raw.scales.data.getD (g * outFeatures + o) 0 := by
    intro g
    rw [Tensor.buffer, hof.scales.2, List.map_id, hout]
    rfl
  unfold gptqWeight gptqSlot gptqRead gptqEntry
  rw [hof.bits, hshift]
  show layer.scales.buffer (exactFloats R) (i / (inFeatures / groups) * layer.outFeatures + o) *
    ((unpack raw.bits (word layer.qweight (i / (32 / raw.bits) * layer.outFeatures + o)) (i % (32 / raw.bits)) : R) -
      ((unpack raw.bits (word layer.qzeros (i / (inFeatures / groups) * (layer.outFeatures / (32 / raw.bits)) +
        o / (32 / raw.bits))) (o % (32 / raw.bits)) : R) + ((1 : Nat) : R))) = _
  rw [hscale, hof.qweight, hout,
    ← gptqZero_eq h hof.qzeros hcentred (group_lt h.divides hi) ho]
  dsimp only
  rw [Int.cast_sub, Int.cast_add, Int.cast_natCast, Int.cast_natCast, Int.cast_one, Nat.cast_one, mul_comm]

/-! ## A forward -/

/-- A group holds whole words. -/
def WholeWords (raw : QuantWeight R) : Prop := ∀ groupSize, raw.groupSize = .ok groupSize → 32 / raw.bits ≤ groupSize

omit [CommRing R] in
/-- A chunk has been launched. -/
theorem exists_gemv {O : Type} {fl : Floats R} {store : R → O} {layer : PackedQuantLinear R O} {x : Tensor R} {m : Nat}
    {y : List O} (h : layer.ChunkedBatchGemv fl store x m y) (hm : 0 < m) : ∃ xc after, layer.Gemv fl store xc after := by
  obtain ⟨parts, hparts, -⟩ := h
  obtain ⟨chunk, rest, hchunks⟩ : ∃ chunk rest, (if m ≤ 8 then [(0, m)] else chunkRows m m 0) = chunk :: rest := by
    by_cases h8 : m ≤ 8
    · exact ⟨_, _, if_pos h8⟩
    · obtain ⟨k, rfl⟩ : ∃ k, m = k + 1 := ⟨m - 1, by omega⟩
      exact ⟨_, _, (if_neg h8).trans (if_pos hm)⟩
  rw [hchunks] at hparts
  rcases hparts with - | ⟨⟨xc, after, -, hgemv, -⟩, -⟩
  exact ⟨xc, after, hgemv⟩

omit [CommRing R] in
theorem power_of_awq {O : Type} {fl : Floats R} {store : R → O} {layer : PackedQuantLinear R O} {x : Tensor R}
    {after : Nat → O} (hwf : WellFormed layer) (hdim : layer.packDim = .out) (h : layer.Gemv fl store x after) :
    layer.awqShape.groupSize.isPowerOfTwo := by
  unfold Gemv at h
  rw [hdim] at h
  obtain ⟨m, s, hfits, -⟩ := W4A16Matmul.answers_row h
  rw [awqShape_of_fits hwf hdim hfits]
  exact hfits.power

omit [CommRing R] in
theorem power_of_gptq {O : Type} {fl : Floats R} {store : R → O} {layer : PackedQuantLinear R O} {x : Tensor R}
    {after : Nat → O} (hwf : WellFormed layer) (hdim : layer.packDim = .in) (h : layer.Gemv fl store x after) :
    layer.gptqShape.groupSize.isPowerOfTwo := by
  unfold Gemv at h
  rw [hdim] at h
  obtain ⟨m, s, hfits, -⟩ := GptqMatmul.answers_row h
  rw [gptqShape_of_fits hwf hdim hfits]
  exact hfits.power

/-- In the AWQ layout a column is the one of the dequantised weight. -/
theorem column_awq (hof : Of id raw bias layer) (hwf : WellFormed layer) (hdim : layer.packDim = .out)
    (hpower : layer.awqShape.groupSize.isPowerOfTwo) {wDtype : DType} {w : Tensor R} (hw : dequantizeAwq raw wDtype = .ok w)
    (row : Nat → R) {o : Nat} (ho : o < layer.outFeatures) :
    layer.column (exactFloats R) row o =
      ((List.range layer.inFeatures).map fun i => row i * w.data.getD (o * layer.inFeatures + i) 0).sum := by
  obtain ⟨hdtype, inF, outF, groups, z, hread⟩ := readable_of_dequantizeAwq hw
  obtain ⟨w', hw', -, hentry⟩ := hread.dequantize_entry hdtype
  obtain rfl : w = w' := Except.ok.inj (hw.symm.trans hw')
  obtain ⟨p, hp, hq⟩ := hof.features hdim
  have hout : layer.outFeatures = outF := by
    obtain ⟨groups', hscales⟩ := hwf.scales
    have hdims := (hscales.symm.trans hof.scales.1).trans hread.scales
    exact (List.cons.inj (List.cons.inj hdims).2).1
  have hpacked : p = outF / awqPackFactor := by
    have hqdim := hread.qdim
    rw [← hof.qweight, hq] at hqdim
    exact Option.some.inj hqdim
  have hbits : layer.bits = 4 := by
    rcases hwf.bits with hb | hb
    · exact hb
    · -- eight bits leave no outputs, for the CPU reads eight codes from a word
      rw [hb] at hp
      have hfour : p = p * 4 / 8 := by rw [show p * 4 = outF from hp.symm.trans hout]; exact hpacked
      omega
  have hin : layer.inFeatures = inF := by
    have hinputs := hread.inputs
    unfold QuantWeight.inFeatures at hinputs
    rw [← hof.packDim, hdim] at hinputs
    obtain ⟨d0, hd0, hinputs⟩ := bind_eq_ok.1 hinputs
    obtain rfl : d0 = inF := Except.ok.inj hinputs
    have hfirst := dim_eq_ok.1 hd0
    rw [← hof.qweight, hq] at hfirst
    exact Option.some.inj hfirst
  have hj : o / (32 / layer.bits) < layer.awqShape.packedOut := by
    have hpo : layer.awqShape.packedOut = p := by
      show layer.qweight.dims.getD 1 0 = p
      rw [hq]
      rfl
    rw [hpo]
    exact Nat.div_lt_of_lt_mul (by rwa [Nat.mul_comm, ← hp])
  unfold column
  rw [hdim]
  refine (AwqShape.column_exact _ row (hin ▸ hread.pos : 0 < layer.inFeatures) hj).trans
    (congrArg List.sum (List.map_congr_left fun i hi => ?_))
  have hi : i < layer.inFeatures := List.mem_range.1 hi
  rw [awqWeight_exact hof hdim hread hbits hpower hin hout, List.getD_eq_getElem?_getD, hin,
    hentry o (hout ▸ ho) i (hin ▸ hi), Option.getD_some]

/-- In the GPTQ layout too. -/
theorem column_gptq (hof : Of id raw bias layer) (hwf : WellFormed layer) (hdim : layer.packDim = .in)
    (hpower : layer.gptqShape.groupSize.isPowerOfTwo) (hwide : WholeWords raw) (hcentred : Centred raw layer.qzeros)
    {wDtype : DType} {w : Tensor R} (hw : dequantizeGptq raw wDtype = .ok w) (row : Nat → R) {o : Nat}
    (ho : o < layer.outFeatures) :
    layer.column (exactFloats R) row o =
      ((List.range layer.inFeatures).map fun i => row i * w.data.getD (o * layer.inFeatures + i) 0).sum := by
  obtain ⟨hdtype, inF, outF, groups, hread⟩ := readable_of_dequantizeGptq hw
  obtain ⟨w', hw', -, hentry⟩ := hread.dequantize_entry hdtype
  obtain rfl : w = w' := Except.ok.inj (hw.symm.trans hw')
  obtain ⟨p, hq, hpin⟩ := hwf.gptq hdim
  have hdims : p = inF / (32 / raw.bits) ∧ layer.outFeatures = outF := by
    have hqq := hq.symm.trans (hof.qweight ▸ hread.qdims)
    simp only [List.cons.injEq, and_true] at hqq
    exact hqq
  have hin : layer.inFeatures = inF := by
    rw [hpin, hdims.1, hof.bits]
    exact Nat.div_mul_cancel hread.whole
  have hpacked : layer.gptqShape.inFeatures = layer.gptqShape.packedIn * (32 / layer.bits) := by
    have hpi : layer.gptqShape.packedIn = p := by
      show layer.qweight.dims.headD 0 = p
      rw [hq]
      rfl
    rw [hpi]
    exact hpin
  unfold column
  rw [hdim]
  refine (GptqShape.column_exact hwf.bits hpacked _ row (hin ▸ hread.pos : 0 < layer.inFeatures) ho).trans
    (congrArg List.sum (List.map_congr_left fun i hi => ?_))
  have hi : i < layer.inFeatures := List.mem_range.1 hi
  rw [gptqWeight_exact hof hread hcentred hpower (hwide _ hread.groupSize) hin hdims.2 (hdims.2 ▸ ho) (hin ▸ hi),
    List.getD_eq_getElem?_getD, hin, hentry o (hdims.2 ▸ ho) i (hin ▸ hi), Option.getD_some]

/-- Eight symmetric columns of four bits over a word of inputs. -/
def symmetricWord : QuantWeight Int :=
  .newGptq 4 true ⟨.i32, [1, 8], [0x76543210, 0x01234567, 0, 1, 2, 3, 4, 5], rfl⟩ (some ⟨.i32, [1, 1], [0x77777777], rfl⟩)
    ⟨.f16, [1, 8], [8, 7, 6, 5, 4, 3, 2, 1], rfl⟩

def symmetricWordLayer : PackedQuantLinear Int Int :=
  ⟨⟨.i32, [1, 8], [0x76543210, 0x01234567, 0, 1, 2, 3, 4, 5], rfl⟩, ⟨.i32, [1, 1], [0x77777777], rfl⟩,
    ⟨.f16, [1, 8], [8, 7, 6, 5, 4, 3, 2, 1], rfl⟩, none, 8, 8, 4, .in, .f16⟩

theorem new_symmetricWord : new id symmetricWord none .f16 = .ok symmetricWordLayer := rfl

theorem exists_forwards_symmetricWord {x : Tensor Int} {m : Nat} (hdims : x.dims = [m, 8]) (hm : 1 ≤ m ∧ m ≤ 8)
    (hdtype : x.dtype = .f16) :
    ∃ out, (symmetricWordLayer.withOutDtype .f16).Forwards (exactFloats Int) id (· + ·) (some .decode) x out := by
  have hshape : GptqMatmul.shape ⟨symmetricWordLayer.qweight, symmetricWordLayer.qzeros, symmetricWordLayer.scales, 4⟩ x =
      .ok (m, ⟨8, 8, 8, 1⟩) := by
    unfold GptqMatmul.shape
    refine bind_eq_ok.2 ⟨(m, 8), W4A16Matmul.dims2_eq_ok.2 hdims, bind_eq_ok.2 ⟨(), ensure_eq_ok.2 hm, ?_⟩⟩
    dsimp only
    rw [hdtype]
    rfl
  obtain ⟨after, hafter⟩ := exists_answers_gptq (exactFloats Int) (id : Int → Int) _ false hshape
  have htakes : (symmetricWordLayer.withOutDtype .f16).takesGemv (some .decode) m := by
    show (if (some Phase.decode : Option Phase) = some .prefill then _ else m ≤ 32)
    rw [if_neg (by decide)]
    omega
  exact ⟨_, forwards_of_gemv hdims hm.2 htakes rfl hafter⟩

end PackedQuantLinear

end Oxydllm.Quant
