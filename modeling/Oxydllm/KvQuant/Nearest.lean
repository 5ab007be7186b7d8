/-
# Oxydllm.KvQuant.Nearest — the search over the boundaries finds the nearest centroid.

The boundary between two neighbours is their middle, and of two centroids the lower is at least as near exactly up to
their middle (`nearer_iff`). The boundaries rise with the centroids, so the search ends at the first one the value does
not pass, and the centroid there is nearest, the lower of two that are equally near (`search_nearest`). The index is
eight bits, which is all of it for up to 256 centroids (`findNearest_nearest`).
-/
import Mathlib.Algebra.Order.Field.Basic
import Mathlib.Data.Rat.Cast.Order
import Oxydllm.KvQuant.Quantizer

namespace Oxydllm.KvQuant

/-! ## Two centroids -/

/-- Up to the middle the lower of two points is at least as near. -/
theorem nearer_iff {a b v : ℚ} (h : a < b) : |v - a| ≤ |v - b| ↔ v ≤ (a + b) / 2 := by
  rw [← sq_le_sq]
  have hdiff : (v - b) ^ 2 - (v - a) ^ 2 = (b - a) * ((a + b) / 2 - v) * 2 := by ring
  have hpos : 0 < b - a := sub_pos.2 h
  constructor
  · intro hle
    by_contra hgt
    have hneg : (b - a) * ((a + b) / 2 - v) < 0 := mul_neg_of_pos_of_neg hpos (by linarith)
    linarith
  · intro hv
    have hnonneg : 0 ≤ (b - a) * ((a + b) / 2 - v) := mul_nonneg hpos.le (by linarith)
    linarith

/-! ## The boundaries -/

section Boundaries

variable {centroids : List ℚ}

theorem boundaries_length (centroids : List ℚ) : (computeBoundaries centroids).length = centroids.length - 1 := by
  rw [computeBoundaries, List.length_map, List.length_range]

theorem boundary_eq {i : Nat} (hi : i + 1 < centroids.length) :
    (computeBoundaries centroids).getD i 0 = (centroids.getD i 0 + centroids.getD (i + 1) 0) / 2 := by
  have hlt : i < centroids.length - 1 := by omega
  rw [computeBoundaries, List.getD_eq_getElem?_getD, List.getElem?_map, List.getElem?_range hlt]
  rfl

theorem getD_of_lt {i : Nat} (hi : i < centroids.length) : centroids.getD i 0 = centroids[i] := by
  rw [List.getD_eq_getElem?_getD, List.getElem?_eq_getElem hi, Option.getD_some]

theorem getD_lt (h : centroids.Pairwise (· < ·)) {i j : Nat} (hij : i < j) (hj : j < centroids.length) :
    centroids.getD i 0 < centroids.getD j 0 := by
  rw [getD_of_lt (hij.trans hj), getD_of_lt hj]
  exact List.pairwise_iff_getElem.1 h i j (hij.trans hj) hj hij

theorem getD_le (h : centroids.Pairwise (· < ·)) {i j : Nat} (hij : i ≤ j) (hj : j < centroids.length) :
    centroids.getD i 0 ≤ centroids.getD j 0 := by
  rcases Nat.lt_or_eq_of_le hij with hlt | rfl
  · exact (getD_lt h hlt hj).le
  · exact le_rfl

theorem boundary_le (h : centroids.Pairwise (· < ·)) {i j : Nat} (hij : i ≤ j) (hj : j + 1 < centroids.length) :
    (computeBoundaries centroids).getD i 0 ≤ (computeBoundaries centroids).getD j 0 := by
  rw [boundary_eq (Nat.lt_of_le_of_lt (Nat.succ_le_succ hij) hj), boundary_eq hj]
  have hlow := getD_le h hij (Nat.lt_of_succ_lt hj)
  have hhigh := getD_le h (Nat.succ_le_succ hij) hj
  linarith

/-! ## The search -/

/-- The search before its result is a byte. -/
def search (centroids : List ℚ) (v : ℚ) : Nat :=
  bisect (fun mid => decide (v ≤ (computeBoundaries centroids).getD mid 0)) 0 (computeBoundaries centroids).length

theorem findNearest_eq (centroids : List ℚ) (v : ℚ) :
    findNearest (computeBoundaries centroids) v = BitVec.ofNat 8 (search centroids v) := rfl

/-- The value is above every boundary before the result, and on or below the others. -/
theorem search_spec (h : centroids.Pairwise (· < ·)) (v : ℚ) :
    search centroids v ≤ centroids.length - 1 ∧
      (∀ i < search centroids v, (computeBoundaries centroids).getD i 0 < v) ∧
        ∀ i, search centroids v ≤ i → i < centroids.length - 1 → v ≤ (computeBoundaries centroids).getD i 0 := by
  have hmono : ∀ i j, i ≤ j → j < (computeBoundaries centroids).length →
      decide (v ≤ (computeBoundaries centroids).getD i 0) = true →
        decide (v ≤ (computeBoundaries centroids).getD j 0) = true := by
    intro i j hij hj hi
    rw [boundaries_length] at hj
    exact decide_eq_true ((of_decide_eq_true hi).trans (boundary_le h hij (by omega)))
  obtain ⟨hbelow, habove⟩ := bisect_spec hmono le_rfl (fun i hi => absurd hi (Nat.not_lt_zero i))
    (fun i hi hin => absurd hin (not_lt.2 hi)) (Nat.zero_le _)
  have hmem : search centroids v ≤ (computeBoundaries centroids).length := (bisect_mem _ (Nat.zero_le _)).2
  refine ⟨hmem.trans_eq (boundaries_length centroids), fun i hi => not_le.1 (of_decide_eq_false (hbelow i hi)),
    fun i hi hin => of_decide_eq_true (habove i hi ?_)⟩
  rwa [boundaries_length]

/-- Centroid `i` is nearest to `v`, and no lower one is as near. -/
def Nearest (centroids : List ℚ) (v : ℚ) (i : Nat) : Prop :=
  ∃ c, centroids[i]? = some c ∧
    ∀ (j : Nat) (d : ℚ), centroids[j]? = some d → |v - c| ≤ |v - d| ∧ (|v - d| = |v - c| → i ≤ j)

theorem search_nearest (h : centroids.Pairwise (· < ·)) (hne : centroids ≠ []) (v : ℚ) :
    Nearest centroids v (search centroids v) := by
  obtain ⟨hle, hbelow, habove⟩ := search_spec h v
  generalize search centroids v = r at hle hbelow habove
  have hpos : 0 < centroids.length := List.length_pos_iff.2 hne
  have hr : r < centroids.length := by omega
  refine ⟨centroids.getD r 0, ?_, fun j d hd => ?_⟩
  · rw [getD_of_lt hr, List.getElem?_eq_getElem hr]
  obtain ⟨hj, rfl⟩ := List.getElem?_eq_some_iff.1 hd
  rw [← getD_of_lt hj]
  rcases Nat.lt_trichotomy j r with hlt | rfl | hgt
  · -- below the result: the value is above the last boundary before it, and so above the middle
    have hlast := hbelow (r - 1) (by omega)
    rw [boundary_eq (by omega), Nat.sub_add_cancel (by omega)] at hlast
    have hmiddle := getD_le h (show j ≤ r - 1 by omega) (by omega)
    have hfar : ¬ |v - centroids.getD j 0| ≤ |v - centroids.getD r 0| := by
      rw [nearer_iff (getD_lt h hlt hr)]
      linarith
    exact ⟨(not_le.1 hfar).le, fun heq => absurd heq.le hfar⟩
  · exact ⟨le_rfl, fun _ => le_rfl⟩
  · -- above it: the value is not above the boundary at the result
    have hfirst := habove r le_rfl (by omega)
    rw [boundary_eq (by omega)] at hfirst
    have hmiddle := getD_le h (show r + 1 ≤ j by omega) hj
    refine ⟨(nearer_iff (getD_lt h hgt hj)).2 ?_, fun _ => hgt.le⟩
    linarith

/-- Of at most 256 centroids, the byte names the nearest. -/
theorem findNearest_nearest (centroids : List ℚ) (h : centroids.Pairwise (· < ·)) (htwo : 2 ≤ centroids.length)
    (hbyte : centroids.length ≤ 256) (v : ℚ) :
    (findNearest (computeBoundaries centroids) v).toNat < centroids.length ∧
      Nearest centroids v (findNearest (computeBoundaries centroids) v).toNat := by
  have hne : centroids ≠ [] := List.ne_nil_of_length_pos (by omega)
  have hle := (search_spec h v).1
  have hfits : (findNearest (computeBoundaries centroids) v).toNat = search centroids v := by
    rw [findNearest_eq, BitVec.toNat_ofNat, Nat.mod_eq_of_lt (by omega)]
  rw [hfits]
  exact ⟨by omega, search_nearest h hne v⟩

/-- In the middle of two. -/
theorem findNearest_nearest_middle :
    (findNearest (computeBoundaries ([-1, 1, 4] : List ℚ)) 0).toNat < 3 ∧
      Nearest [-1, 1, 4] 0 (findNearest (computeBoundaries ([-1, 1, 4] : List ℚ)) 0).toNat :=
  findNearest_nearest [-1, 1, 4] (by decide) (by decide) (by decide) 0

/-- More centroids than a byte counts: 0, 1, and so on to 256. -/
def tooMany : List ℚ := (List.range 257).map Nat.cast

theorem tooMany_length : tooMany.length = 257 := by rw [tooMany, List.length_map, List.length_range]

theorem tooMany_getElem? {i : Nat} (hi : i < 257) : tooMany[i]? = some (i : ℚ) := by
  rw [tooMany, List.getElem?_map, List.getElem?_range hi]
  rfl

theorem tooMany_pairwise : tooMany.Pairwise (· < ·) := List.pairwise_lt_range.map _ fun _ _ hab => Nat.cast_lt.2 hab

theorem search_tooMany : search tooMany 256 = 256 := by
  have hle := (search_spec tooMany_pairwise 256).1
  rw [tooMany_length] at hle
  obtain ⟨c, hc, hnear⟩ :=
    search_nearest tooMany_pairwise (List.ne_nil_of_length_pos (by rw [tooMany_length]; decide)) 256
  have hlast := (hnear 256 256 (tooMany_getElem? (by decide))).1
  rw [sub_self, abs_zero] at hlast
  rw [tooMany_getElem? (Nat.lt_succ_of_le hle)] at hc
  have hzero : (256 : ℚ) - c = 0 := abs_eq_zero.1 (le_antisymm hlast (abs_nonneg _))
  refine Nat.cast_injective (R := ℚ) ?_
  rw [Option.some.inj hc, ← sub_eq_zero.1 hzero]
  rfl

/-- The index of the last of them is no byte. -/
theorem last_of_many_missed :
    tooMany.Pairwise (· < ·) ∧ 2 ≤ tooMany.length ∧
      ¬ Nearest tooMany 256 (findNearest (computeBoundaries tooMany) 256).toNat := by
  refine ⟨tooMany_pairwise, by rw [tooMany_length]; decide, ?_⟩
  rw [findNearest_eq, search_tooMany]
  rintro ⟨d, hd, hall⟩
  have hfirst : (BitVec.ofNat 8 256).toNat = 0 := rfl
  rw [hfirst, tooMany_getElem? (by decide), Nat.cast_zero] at hd
  obtain rfl := Option.some.inj hd
  have hfar := (hall 256 256 (tooMany_getElem? (by decide))).1
  rw [sub_self, abs_zero, sub_zero] at hfar
  exact absurd hfar (by norm_num)

end Boundaries

end Oxydllm.KvQuant
