/-
# Oxydllm.Quant.Rtn — round-to-nearest quantisation into the AWQ layout.

Each group of a row, extended to zero, is laid on sixteen levels. The zero point is rounded and so is every value;
a value leaves the levels only where both roundings are halves, and then the clamp costs a half and no more
(`clampNibble_error`). The nibbles are packed output by output and the words transposed; what `dequantizeAwq` reads
at an output and an input is the nibble that was made for it (`rtnQuantizeAwq_dequantize`). Weights are rationals.
-/
import Mathlib.Algebra.Order.Floor.Semiring
import Mathlib.Data.Rat.Floor
import Oxydllm.Lib.Extrema
import Oxydllm.Quant.Compressed

namespace Oxydllm.Quant

open Extrema RowMajor Traverse

/-! ## A group -/

/-- `f32::round`: to the nearest integer, halves away from zero. -/
def roundAway (x : ℚ) : Int := if 0 ≤ x then ⌊x + 1 / 2⌋ else ⌈x - 1 / 2⌉

/-- `.clamp(0.0, 15.0) as u8` of an integer. -/
def clampNibble (r : Int) : Nat := if r < 0 then 0 else if 15 < r then 15 else r.toNat

/-- The smallest of a group and zero. -/
def groupMin (grp : List ℚ) : ℚ := min (grp.foldl min (grp.headD 0)) 0

/-- The largest of a group and zero. -/
def groupMax (grp : List ℚ) : ℚ := max (grp.foldl max (grp.headD 0)) 0

/-- What is stored of a group. -/
structure RtnGroup where
  scale : ℚ
  zero : Nat
  nibbles : List Nat

/-- The body of the loop over the groups of a row. -/
def rtnGroup (grp : List ℚ) : RtnGroup :=
  let xmin := groupMin grp
  let xmax := groupMax grp
  if xmax - xmin < 1 / 1000000000000 then ⟨xmin, 0, grp.map fun _ => 1⟩
  else
    let scale := (xmax - xmin) / 15
    let zeroPoint := clampNibble (roundAway (-xmin / scale))
    ⟨scale, zeroPoint, grp.map fun v => clampNibble (roundAway (v / scale + zeroPoint))⟩

/-! ## The tensors -/

section Buffers

variable (w : List ℚ) (inFeatures groupSize groups : Nat)

/-- `&w_row[g * group_size..(g + 1) * group_size]` of row `o`. -/
def groupOf (o g : Nat) : List ℚ := row (row w inFeatures o) groupSize g

/-- `qnib`, row by row. -/
def qnib (outFeatures : Nat) : List Nat :=
  (List.range outFeatures).flatMap fun o =>
    (List.range groups).flatMap fun g => (rtnGroup (groupOf w inFeatures groupSize o g)).nibbles

/-- `znib`, row by row. -/
def znib (outFeatures : Nat) : List Nat :=
  (List.range outFeatures).flatMap fun o =>
    (List.range groups).map fun g => (rtnGroup (groupOf w inFeatures groupSize o g)).zero

/-- `scl`, row by row. -/
def scl (outFeatures : Nat) : List ℚ :=
  (List.range outFeatures).flatMap fun o =>
    (List.range groups).map fun g => (rtnGroup (groupOf w inFeatures groupSize o g)).scale

end Buffers

/-- Words of eight outputs at a time, over columns of nibbles: `qw_om` and `qz_om`. -/
def packRows (nib : List Nat) (packedOut width : Nat) : List Int :=
  (List.range packedOut).flatMap fun j => (List.range width).map fun i =>
    (packNibbles fun off => BitVec.ofNat 32 (nib.getD ((j * awqPackFactor + off) * width + i) 0)).toInt

/-- `.t()?.contiguous()?` of a matrix. -/
def transposed {α : Type} (default : α) (rows cols : Nat) (data : List α) : List α :=
  (List.range cols).flatMap fun c => (List.range rows).map fun r => data.getD (r * cols + c) default

theorem transposed_length {α : Type} (default : α) (rows cols : Nat) (data : List α) :
    (transposed default rows cols data).length = [cols, rows].prod := by
  rw [transposed, length_flatMap_range fun r _ => by rw [List.length_map, List.length_range]]
  simp

theorem transposed_getD {α : Type} (default : α) {rows cols : Nat} (data : List α) {r c : Nat} (hr : r < rows)
    (hc : c < cols) : (transposed default rows cols data)[c * rows + r]? = some (data.getD (r * cols + c) default) := by
  rw [transposed, getElem?_flatMap_range (fun r _ => by rw [List.length_map, List.length_range]) hc hr,
    List.getElem?_map, List.getElem?_range hr, Option.map_some]

/-- A matrix turned over. -/
def transposedTensor {α : Type} (dtype : DType) (default : α) (rows cols : Nat) (data : List α) : Tensor α :=
  ⟨dtype, [cols, rows], transposed default rows cols data, transposed_length default rows cols data⟩

/-- `rtn_quantize_awq`. Without inputs the chunks to fill would have no length, which panics. -/
def rtnQuantizeAwq (weight : Tensor ℚ) (groupSize : Nat) : Result (QuantWeight ℚ) := do
  let shape ← weight.dims2 (.bail "rtn_quantize_awq: weight must be 2-D [out, in]")
  let outFeatures := shape.1
  let inFeatures := shape.2
  ensure (outFeatures % awqPackFactor = 0)
    (.bail s!"rtn_quantize_awq: out_features ({outFeatures}) must be a multiple of {awqPackFactor}")
  ensure (¬ (groupSize = 0 ∨ inFeatures % groupSize ≠ 0))
    (.bail s!"rtn_quantize_awq: in_features ({inFeatures}) not divisible by group_size ({groupSize})")
  let groups := inFeatures / groupSize
  let packedOut := outFeatures / awqPackFactor
  let w := weight.data
  ensure (inFeatures ≠ 0) .panic
  let qwOm := packRows (qnib w inFeatures groupSize groups outFeatures) packedOut inFeatures
  let qzOm := packRows (znib w inFeatures groupSize groups outFeatures) packedOut groups
  return .newAwq 4 (transposedTensor .i32 0 packedOut inFeatures qwOm) (transposedTensor .i32 0 packedOut groups qzOm)
    (transposedTensor .f32 0 outFeatures groups (scl w inFeatures groupSize groups outFeatures))

/-! ## Rounding -/

theorem roundAway_error (x : ℚ) : |(roundAway x : ℚ) - x| ≤ 1 / 2 := by
  unfold roundAway
  rw [abs_le]
  split
  · have hlo := Int.floor_le (x + 1 / 2)
    have hhi := Int.lt_floor_add_one (x + 1 / 2)
    constructor <;> linarith
  · have hlo := Int.le_ceil (x - 1 / 2)
    have hhi := Int.ceil_lt_add_one (x - 1 / 2)
    constructor <;> linarith

theorem clampNibble_le (r : Int) : clampNibble r ≤ 15 := by
  unfold clampNibble
  split
  · omega
  · split <;> omega

/-- Within a half of the levels, the clamp costs no more than a half: what it moves is a half outside. -/
theorem clampNibble_error {x : ℚ} (hlo : -(1 / 2) ≤ x) (hhi : x ≤ 15 + 1 / 2) :
    |(clampNibble (roundAway x) : ℚ) - x| ≤ 1 / 2 := by
  obtain ⟨hr, hr'⟩ := abs_le.1 (roundAway_error x)
  unfold clampNibble
  split
  · rename_i hneg
    have hle : (roundAway x : ℚ) ≤ -1 := by exact_mod_cast Int.le_sub_one_of_lt hneg
    rw [abs_le]
    constructor <;> push_cast <;> linarith
  · rename_i hnonneg
    split
    · rename_i hbig
      have hge : (16 : ℚ) ≤ roundAway x := by exact_mod_cast hbig
      rw [abs_le]
      constructor <;> push_cast <;> linarith
    · have hcast : ((roundAway x).toNat : ℚ) = roundAway x := by
        exact_mod_cast Int.toNat_of_nonneg (not_lt.1 hnonneg)
      rw [hcast]
      exact roundAway_error x

/-! ## The error of a group -/

section Group

variable {grp : List ℚ} {v : ℚ}

theorem groupMin_le (hv : v ∈ grp) : groupMin grp ≤ v := (min_le_left _ _).trans ((foldl_min_le _ grp).2 v hv)

theorem le_groupMax (hv : v ∈ grp) : v ≤ groupMax grp := ((le_foldl_max _ grp).2 v hv).trans (le_max_left _ _)

theorem groupMin_nonpos (grp : List ℚ) : groupMin grp ≤ 0 := min_le_right _ _

theorem groupMax_nonneg (grp : List ℚ) : 0 ≤ groupMax grp := le_max_right _ _

/-- Too narrow for levels. -/
def Degenerate (grp : List ℚ) : Prop := groupMax grp - groupMin grp < 1 / 1000000000000

/-- The distance of two levels. -/
def levelScale (grp : List ℚ) : ℚ := (groupMax grp - groupMin grp) / 15

/-- How far a read value may be from the original one. -/
def WithinBound (grp : List ℚ) (v y : ℚ) : Prop :=
  (Degenerate grp → |y - v| < 1 / 1000000000000) ∧ (¬ Degenerate grp → |y - v| ≤ levelScale grp / 2)

/-- Zero is within the fifteen levels above the smallest, and so is every value. -/
theorem level_range {s xmin xmax : ℚ} (hs : 0 < s) (hscale : s = (xmax - xmin) / 15) (hmin : xmin ≤ 0) (hmax : 0 ≤ xmax)
    (hlo : xmin ≤ v) (hhi : v ≤ xmax) :
    0 ≤ -xmin / s ∧ -xmin / s ≤ 15 ∧ 0 ≤ v / s + -xmin / s ∧ v / s + -xmin / s ≤ 15 := by
  have hwide : xmax - xmin = 15 * s := by rw [hscale]; ring
  rw [← add_div]
  refine ⟨div_nonneg (by linarith) hs.le, (div_le_iff₀ hs).2 (by linarith), div_nonneg (by linarith) hs.le,
    (div_le_iff₀ hs).2 (by linarith)⟩

/-- The error of one value. -/
theorem level_error {s : ℚ} {z n : Nat} (hs : 0 < s) (hn : |(n : ℚ) - (v / s + z)| ≤ 1 / 2) :
    |((n : ℚ) - z) * s - v| ≤ s / 2 := by
  have hsplit : ((n : ℚ) - z) * s - v = ((n : ℚ) - (v / s + z)) * s := by
    rw [sub_mul, sub_mul, add_mul, div_mul_cancel₀ _ hs.ne']
    ring
  rw [hsplit, abs_mul, abs_of_pos hs]
  calc |(n : ℚ) - (v / s + z)| * s ≤ 1 / 2 * s := mul_le_mul_of_nonneg_right hn hs.le
    _ = s / 2 := by ring

/-- What is stored of a value: a nibble and a zero point from 0 to 15, from which the value is read back within the
bound. -/
theorem rtnGroup_spec {t : Nat} (hv : grp[t]? = some v) :
    ∃ n, (rtnGroup grp).nibbles[t]? = some n ∧ n ≤ 15 ∧ (rtnGroup grp).zero ≤ 15 ∧
      WithinBound grp v (((n : Int) - (rtnGroup grp).zero : Int) * (rtnGroup grp).scale) := by
  have hmem := List.mem_of_getElem? hv
  have hlo := groupMin_le hmem
  have hhi := le_groupMax hmem
  by_cases hdeg : Degenerate grp
  · have hgroup : rtnGroup grp = ⟨groupMin grp, 0, grp.map fun _ => 1⟩ := if_pos hdeg
    rw [hgroup]
    refine ⟨1, by rw [List.getElem?_map, hv, Option.map_some], by decide, Nat.zero_le _, fun _ => ?_,
      fun h => absurd hdeg h⟩
    unfold Degenerate at hdeg
    push_cast
    rw [abs_lt]
    constructor <;> linarith
  · have hwide : 0 < groupMax grp - groupMin grp := lt_of_lt_of_le (by norm_num) (not_lt.1 hdeg)
    have hs : 0 < levelScale grp := div_pos hwide (by norm_num)
    obtain ⟨z, hz⟩ : ∃ z, z = clampNibble (roundAway (-groupMin grp / levelScale grp)) := ⟨_, rfl⟩
    have hgroup : rtnGroup grp =
        ⟨levelScale grp, z, grp.map fun v => clampNibble (roundAway (v / levelScale grp + z))⟩ := by
      rw [hz]
      exact if_neg hdeg
    obtain ⟨hz0, hz15, hv0, hv15⟩ := level_range hs rfl (groupMin_nonpos grp) (groupMax_nonneg grp) hlo hhi
    have hzero : |(z : ℚ) - -groupMin grp / levelScale grp| ≤ 1 / 2 :=
      hz ▸ clampNibble_error (by linarith) (by linarith)
    obtain ⟨hzlo, hzhi⟩ := abs_le.1 hzero
    have hnibble := clampNibble_error (x := v / levelScale grp + z) (by linarith) (by linarith)
    rw [hgroup]
    refine ⟨_, by rw [List.getElem?_map, hv, Option.map_some], clampNibble_le _, hz ▸ clampNibble_le _,
      fun h => absurd h hdeg, fun _ => ?_⟩
    push_cast
    exact level_error hs hnibble

end Group

/-! ## The lanes -/

theorem rtnGroup_length (grp : List ℚ) : (rtnGroup grp).nibbles.length = grp.length := by
  unfold rtnGroup
  dsimp only
  split <;> rw [List.length_map]

theorem rtnGroup_le (grp : List ℚ) : (rtnGroup grp).zero ≤ 15 ∧ ∀ n ∈ (rtnGroup grp).nibbles, n ≤ 15 := by
  unfold rtnGroup
  dsimp only
  split
  · refine ⟨Nat.zero_le _, fun n hn => ?_⟩
    obtain ⟨v, -, rfl⟩ := List.mem_map.1 hn
    decide
  · refine ⟨clampNibble_le _, fun n hn => ?_⟩
    obtain ⟨v, -, rfl⟩ := List.mem_map.1 hn
    exact clampNibble_le _

theorem getD_le {nib : List Nat} (h : ∀ n ∈ nib, n ≤ 15) (i : Nat) : nib.getD i 0 ≤ 15 := by
  rw [List.getD_eq_getElem?_getD]
  cases hi : nib[i]? with
  | none => exact Nat.zero_le _
  | some n => exact h n (List.mem_of_getElem? hi)

theorem isNibble_ofNat {n : Nat} (h : n ≤ 15) : IsNibble (BitVec.ofNat 32 n) := by
  intro b hb
  have hlt : n < 2 ^ b := calc
    n < 2 ^ 4 := by omega
    _ ≤ 2 ^ b := Nat.pow_le_pow_right (by decide) hb
  rw [BitVec.getLsbD_ofNat, Nat.testBit_lt_two_pow hlt, Bool.and_false]

/-- A nibble is read back from the lane it was packed in. -/
theorem awqNibble_packed {nib : List Nat} (hnib : ∀ n ∈ nib, n ≤ 15) {outF width o i : Nat}
    (hpacked : outF % awqPackFactor = 0) (ho : o < outF) (hi : i < width) :
    awqNibble (transposedTensor .i32 0 (outF / awqPackFactor) width (packRows nib (outF / awqPackFactor) width))
      (outF / awqPackFactor) i o = nib.getD (o * width + i) 0 := by
  have hcol : o / awqPackFactor < outF / awqPackFactor := by
    simp only [awqPackFactor] at *
    omega
  have hlane : o / awqPackFactor * awqPackFactor + o % awqPackFactor = o := Nat.div_add_mod' o awqPackFactor
  have hlt : o % awqPackFactor < 8 := Nat.mod_lt o (by decide)
  have hpack : (packRows nib (outF / awqPackFactor) width).getD (o / awqPackFactor * width + i) 0 =
      (packNibbles fun off =>
        BitVec.ofNat 32 (nib.getD ((o / awqPackFactor * awqPackFactor + off) * width + i) 0)).toInt := by
    rw [List.getD_eq_getElem?_getD, packRows,
      getElem?_flatMap_range (fun r _ => by rw [List.length_map, List.length_range]) hcol hi, List.getElem?_map,
      List.getElem?_range hi, Option.map_some, Option.getD_some]
  rw [awqNibble, word, transposedTensor, List.getD_eq_getElem?_getD, transposed_getD 0 _ hcol hi, Option.getD_some, hpack,
    BitVec.ofInt_toInt, nibble_packNibbles (fun _ => isNibble_ofNat (getD_le hnib _)) (packOrder_mem _ hlt), hlane,
    BitVec.toNat_ofNat, Nat.mod_eq_of_lt (by have := getD_le hnib (o * width + i); omega)]

/-! ## The buffers -/

section Entries

variable {w : List ℚ} {outF inF groupSize groups : Nat}

theorem groupOf_length (hw : w.length = outF * inF) (hin : inF = groups * groupSize) {o g : Nat} (ho : o < outF)
    (hg : g < groups) : (groupOf w inF groupSize o g).length = groupSize :=
  row_length ((row_length hw ho).trans hin) hg

/-- The value of a row and an input is in the group of the input. -/
theorem groupOf_getElem? (hgs : 0 < groupSize) {o i : Nat} (hi : i < inF) :
    (groupOf w inF groupSize o (i / groupSize))[i % groupSize]? = w[o * inF + i]? := by
  rw [groupOf, row_getElem? _ (Nat.mod_lt i hgs), Nat.div_add_mod', row_getElem? _ hi]

theorem group_index (hin : inF = groups * groupSize) {i : Nat} (hi : i < inF) :
    i / groupSize < groups :=
  Nat.div_lt_of_lt_mul (by rwa [Nat.mul_comm, ← hin])

theorem qnib_getElem? (hw : w.length = outF * inF) (hin : inF = groups * groupSize) (hgs : 0 < groupSize) {o i : Nat}
    (ho : o < outF) (hi : i < inF) :
    (qnib w inF groupSize groups outF)[o * inF + i]? =
      (rtnGroup (groupOf w inF groupSize o (i / groupSize))).nibbles[i % groupSize]? := by
  have hgroup : ∀ o < outF, ∀ g < groups, (rtnGroup (groupOf w inF groupSize o g)).nibbles.length = groupSize :=
    fun o ho g hg => (rtnGroup_length _).trans (groupOf_length hw hin ho hg)
  have hrow : ∀ o < outF, ((List.range groups).flatMap fun g =>
      (rtnGroup (groupOf w inF groupSize o g)).nibbles).length = inF := fun o ho =>
    (length_flatMap_range (hgroup o ho)).trans hin.symm
  rw [qnib, getElem?_flatMap_range hrow ho hi]
  conv_lhs => rw [← Nat.div_add_mod' i groupSize]
  exact getElem?_flatMap_range (hgroup o ho) (group_index hin hi) (Nat.mod_lt i hgs)

theorem perGroup_getElem? {α : Type} (f : Nat → Nat → α) {o g : Nat} (ho : o < outF) (hg : g < groups) :
    ((List.range outF).flatMap fun o => (List.range groups).map (f o))[o * groups + g]? = some (f o g) := by
  rw [getElem?_flatMap_range (fun r _ => by rw [List.length_map, List.length_range]) ho hg, List.getElem?_map,
    List.getElem?_range hg, Option.map_some]

theorem qnib_le (w : List ℚ) (inF groupSize groups outF : Nat) : ∀ n ∈ qnib w inF groupSize groups outF, n ≤ 15 := by
  intro n hn
  obtain ⟨o, -, hn⟩ := List.mem_flatMap.1 hn
  obtain ⟨g, -, hn⟩ := List.mem_flatMap.1 hn
  exact (rtnGroup_le _).2 n hn

theorem znib_le (w : List ℚ) (inF groupSize groups outF : Nat) : ∀ n ∈ znib w inF groupSize groups outF, n ≤ 15 := by
  intro n hn
  obtain ⟨o, -, hn⟩ := List.mem_flatMap.1 hn
  obtain ⟨g, -, rfl⟩ := List.mem_map.1 hn
  exact (rtnGroup_le _).1

end Entries

/-! ## The quantised weight -/

/-- What `rtnQuantizeAwq` makes of a weight. -/
def quantized (w : List ℚ) (outF inF groupSize groups : Nat) : QuantWeight ℚ :=
  .newAwq 4
    (transposedTensor .i32 0 (outF / awqPackFactor) inF
      (packRows (qnib w inF groupSize groups outF) (outF / awqPackFactor) inF))
    (transposedTensor .i32 0 (outF / awqPackFactor) groups
      (packRows (znib w inF groupSize groups outF) (outF / awqPackFactor) groups))
    (transposedTensor .f32 0 outF groups (scl w inF groupSize groups outF))

/-- What it accepts. -/
theorem rtnQuantizeAwq_ok {weight : Tensor ℚ} {groupSize : Nat} {q : QuantWeight ℚ}
    (h : rtnQuantizeAwq weight groupSize = .ok q) :
    ∃ outF inF, weight.dims = [outF, inF] ∧ outF % awqPackFactor = 0 ∧ 0 < groupSize ∧ groupSize ∣ inF ∧ 0 < inF ∧
      q = quantized weight.data outF inF groupSize (inF / groupSize) := by
  obtain ⟨shape, hshape, h⟩ := bind_eq_ok.1 h
  obtain ⟨_, hpacked, h⟩ := bind_eq_ok.1 h
  obtain ⟨_, hgroup, h⟩ := bind_eq_ok.1 h
  obtain ⟨_, hpos, h⟩ := bind_eq_ok.1 h
  cases h
  obtain ⟨hgs, hmod⟩ := not_or.1 (ensure_eq_ok.1 hgroup)
  exact ⟨shape.1, shape.2, dims2_eq_ok hshape, ensure_eq_ok.1 hpacked, Nat.pos_of_ne_zero hgs,
    Nat.dvd_of_mod_eq_zero (not_not.1 hmod), Nat.pos_of_ne_zero (ensure_eq_ok.1 hpos), rfl⟩

/-- The zero points of a quantised weight. -/
def quantizedZeros (w : List ℚ) (outF inF groupSize groups : Nat) : Tensor Int :=
  transposedTensor .i32 0 (outF / awqPackFactor) groups
    (packRows (znib w inF groupSize groups outF) (outF / awqPackFactor) groups)

theorem readable_quantized (w : List ℚ) (groupSize : Nat) {outF inF groups : Nat} (hpos : 0 < inF) (hdvd : groups ∣ inF)
    (hpacked : outF % awqPackFactor = 0) :
    Readable (quantized w outF inF groupSize groups) inF outF groups (quantizedZeros w outF inF groupSize groups) where
  inputs := rfl
  pos := hpos
  divides := hdvd
  scales := rfl
  packed := hpacked
  qdim := rfl
  qlen := (transposed_length 0 (outF / awqPackFactor) inF _).trans (by simp)
  qread := rfl
  qzeros := rfl
  zdims := rfl
  zread := rfl

/-- For every accepted weight: the result dequantises, at every output and input, from a nibble and a zero point of
0 to 15 that are read from their lanes, to within half a level of the weight, or, in a group too narrow for levels,
to within 1e-12. -/
theorem rtnQuantizeAwq_dequantize {weight : Tensor ℚ} {groupSize : Nat} {q : QuantWeight ℚ}
    (h : rtnQuantizeAwq weight groupSize = .ok q) {outDtype : DType} (hout : OutDtype outDtype) :
    ∃ outF inF zeros w, weight.dims = [outF, inF] ∧ q.qzeros = some zeros ∧ dequantizeAwq q outDtype = .ok w ∧
      w.dims = [outF, inF] ∧ ∀ o < outF, ∀ i < inF, ∃ v y n, weight.data[o * inF + i]? = some v ∧
        w.data[o * inF + i]? = some y ∧
        WithinBound (groupOf weight.data inF groupSize o (i / groupSize)) v y ∧
        (rtnGroup (groupOf weight.data inF groupSize o (i / groupSize))).nibbles[i % groupSize]? = some n ∧ n ≤ 15 ∧
        awqNibble q.qweight (outF / awqPackFactor) i o = n ∧
        (rtnGroup (groupOf weight.data inF groupSize o (i / groupSize))).zero ≤ 15 ∧
        awqNibble zeros (outF / awqPackFactor) (i / groupSize) o =
          (rtnGroup (groupOf weight.data inF groupSize o (i / groupSize))).zero := by
  obtain ⟨outF, inF, hdims, hpacked, hgs, hdvd, hpos, rfl⟩ := rtnQuantizeAwq_ok h
  have hlen : weight.data.length = outF * inF := by
    rw [weight.filled, hdims]
    simp
  have hin : inF = inF / groupSize * groupSize := (Nat.div_mul_cancel hdvd).symm
  obtain ⟨w, hw, hwdims, hentry⟩ :=
    (readable_quantized weight.data groupSize hpos (Nat.div_dvd_of_dvd hdvd) hpacked).dequantize_entry hout
  refine ⟨outF, inF, _, w, hdims, rfl, hw, hwdims, fun o ho i hi => ?_⟩
  have hi' : o * inF + i < weight.data.length := by
    have hrow : (o + 1) * inF ≤ outF * inF := Nat.mul_le_mul_right inF ho
    rw [Nat.succ_mul] at hrow
    omega
  have hg := group_index hin hi
  obtain ⟨n, hn, hn15, hz15, hbound⟩ :=
    rtnGroup_spec ((groupOf_getElem? (w := weight.data) hgs hi).trans (List.getElem?_eq_getElem hi'))
  have hnibble := awqNibble_packed (qnib_le weight.data inF groupSize (inF / groupSize) outF) hpacked ho hi
  rw [List.getD_eq_getElem?_getD, qnib_getElem? hlen hin hgs ho hi, hn, Option.getD_some] at hnibble
  have hzero := awqNibble_packed (znib_le weight.data inF groupSize (inF / groupSize) outF) hpacked ho hg
  rw [List.getD_eq_getElem?_getD, znib, perGroup_getElem? _ ho hg, Option.getD_some] at hzero
  refine ⟨weight.data[o * inF + i], _, n, List.getElem?_eq_getElem hi', hentry o ho i hi, ?_, hn, hn15, hnibble, hz15,
    hzero⟩
  have hscale : (quantized weight.data outF inF groupSize (inF / groupSize)).scales.data.getD
      (i / groupSize * outF + o) 0 = (rtnGroup (groupOf weight.data inF groupSize o (i / groupSize))).scale := by
    change (transposed 0 outF (inF / groupSize) (scl weight.data inF groupSize (inF / groupSize) outF)).getD _ 0 = _
    rw [List.getD_eq_getElem?_getD, transposed_getD 0 _ ho hg, Option.getD_some, List.getD_eq_getElem?_getD, scl,
      perGroup_getElem? _ ho hg, Option.getD_some]
  have hgroups : inF / (inF / groupSize) = groupSize := div_div_of_dvd hpos hdvd
  have hvalue : awqEntry (quantized weight.data outF inF groupSize (inF / groupSize))
      (quantizedZeros weight.data outF inF groupSize (inF / groupSize)) inF outF (inF / groupSize) o i =
        ((n : Int) - (rtnGroup (groupOf weight.data inF groupSize o (i / groupSize))).zero : Int) *
          (rtnGroup (groupOf weight.data inF groupSize o (i / groupSize))).scale := by
    unfold awqEntry
    dsimp only
    rw [hgroups, hscale]
    exact congrArg₂ (fun a b : Nat => (((a : Int) - b : Int) : ℚ) * _) hnibble hzero
  rw [hvalue]
  exact hbound

/-- Eight outputs of two inputs in one group: on both sides of zero, on one side, and a group too narrow for levels. -/
def smallTensor : Tensor ℚ where
  dtype := .f32
  dims := [8, 2]
  data := [-1, 2, 1 / 2, 3, -3, -1 / 2, 0, 0, 1, 1, 7 / 2, -15 / 2, 0, 1 / 10000000000000, 5, -5]
  filled := rfl

theorem rtnQuantizeAwq_dequantize_small : ∃ q w, rtnQuantizeAwq smallTensor 2 = .ok q ∧ dequantizeAwq q .f32 = .ok w := by
  obtain ⟨q, hq⟩ : ∃ q, rtnQuantizeAwq smallTensor 2 = .ok q := ⟨_, rfl⟩
  have hout : OutDtype .f32 := by decide
  obtain ⟨outF, inF, zeros, w, -, -, hw, -, -⟩ := rtnQuantizeAwq_dequantize hq hout
  exact ⟨q, w, hq, hw⟩

end Oxydllm.Quant
