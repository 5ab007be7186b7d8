/-
# Oxydllm.Lib.UnitLower — inverses of unit lower-triangular matrices, by doubling and by blocks.

Over any ring the product of the factors `1 + a ^ 2 ^ j` is a left inverse of `1 - a` once a power of `a` that it covers
vanishes (`doubling_mul`), and the powers of a strictly lower-triangular matrix do (`StrictLower.pow_eq_zero`). The left
inverses of two diagonal blocks make one of the pair (`joinLower_mul`).
-/
import Mathlib.Data.Matrix.Block
import Mathlib.Logic.Equiv.Fin.Basic

namespace Oxydllm

open Matrix

variable {R : Type} [Ring R]

/-! ## Doubling -/

/-- `inv` times the factors `1 + p ^ 2`, `1 + p ^ 4`, … until the power covered reaches `n`. -/
def doubling (n : Nat) : Nat → R → R → Nat → R
  | 0, _, inv, _ => inv
  | fuel + 1, p, inv, covered =>
      if covered < n then doubling n fuel (p * p) (inv + p * p * inv) (covered * 2) else inv

theorem doubling_mul {a : R} {n : Nat} (ha : a ^ n = 0) : ∀ (fuel : Nat) {p inv : R} {covered : Nat}, 0 < covered →
    p * p = a ^ covered → inv * (1 - a) = 1 - a ^ covered → n ≤ covered + fuel →
      doubling n fuel p inv covered * (1 - a) = 1 := by
  -- a covered power from `n` on is zero
  have hdone {inv : R} {covered : Nat} (hinv : inv * (1 - a) = 1 - a ^ covered) (hn : n ≤ covered) :
      inv * (1 - a) = 1 := by
    rw [hinv, pow_eq_zero_of_le hn ha, sub_zero]
  intro fuel
  induction fuel with
  | zero =>
      intro p inv covered _ _ hinv hfuel
      exact hdone hinv hfuel
  | succ fuel ih =>
      intro p inv covered hpos hp hinv hfuel
      unfold doubling
      split
      next hlt =>
        have hsquare : a ^ covered * a ^ covered = a ^ (covered * 2) := by rw [← pow_add, Nat.mul_two]
        refine ih (by omega) (by rw [hp, hsquare]) ?_ (by omega)
        calc (inv + p * p * inv) * (1 - a)
            = inv * (1 - a) + a ^ covered * (inv * (1 - a)) := by rw [hp, add_mul, mul_assoc]
          _ = 1 - a ^ covered * a ^ covered := by rw [hinv, mul_sub, mul_one, sub_add_sub_cancel]
          _ = 1 - a ^ (covered * 2) := by rw [hsquare]
      next hge => exact hdone hinv (not_lt.1 hge)

/-! ## Strictly lower-triangular matrices -/

/-- No entry on or above the diagonal. -/
def StrictLower {n : Nat} (a : Matrix (Fin n) (Fin n) R) : Prop := ∀ i j, i ≤ j → a i j = 0

theorem StrictLower.pow_entry {n : Nat} {a : Matrix (Fin n) (Fin n) R} (ha : StrictLower a) (k : Nat) :
    ∀ i j : Fin n, i.1 < j.1 + k → (a ^ k) i j = 0 := by
  induction k with
  | zero =>
      intro i j hij
      rw [pow_zero, one_apply_ne (fun h => by omega)]
  | succ k ih =>
      intro i j hij
      rw [pow_succ, mul_apply]
      refine Finset.sum_eq_zero fun l _ => ?_
      -- below the diagonal of one factor or on that of the other
      rcases Nat.lt_or_ge i.1 (l.1 + k) with hlt | hge
      · rw [ih i l hlt, zero_mul]
      · rw [ha l j (Fin.le_def.2 (by omega)), mul_zero]

theorem StrictLower.pow_eq_zero {n : Nat} {a : Matrix (Fin n) (Fin n) R} (ha : StrictLower a) : a ^ n = 0 := by
  ext i j
  exact ha.pow_entry n i j (by omega)

/-! ## Blocks -/

/-- The square block at row `r` and column `c`, zero where it leaves the matrix. -/
def block {n : Nat} (a : Matrix (Fin n) (Fin n) R) (r c s : Nat) : Matrix (Fin s) (Fin s) R :=
  of fun i j => if h : r + i.1 < n ∧ c + j.1 < n then a ⟨r + i.1, h.1⟩ ⟨c + j.1, h.2⟩ else 0

theorem block_self {n : Nat} (a : Matrix (Fin n) (Fin n) R) : block a 0 0 n = a := by
  ext i j
  have hin : 0 + i.1 < n ∧ 0 + j.1 < n := by omega
  change (if h : _ then _ else _) = _
  rw [dif_pos hin]
  exact congrArg₂ a (Fin.ext (Nat.zero_add i.1)) (Fin.ext (Nat.zero_add j.1))

theorem block_strictLower {n : Nat} {a : Matrix (Fin n) (Fin n) R} (ha : StrictLower a) (r s : Nat) :
    StrictLower (block a r r s) := by
  intro i j hij
  change (if h : _ then _ else _) = _
  split
  · exact ha _ _ (Fin.le_def.2 (Nat.add_le_add_left (Fin.le_def.1 hij) r))
  · rfl

variable {α : Type} {s : Nat}

/-- Four square blocks as one. -/
def join (b₁₁ b₁₂ b₂₁ b₂₂ : Matrix (Fin s) (Fin s) α) : Matrix (Fin (s + s)) (Fin (s + s)) α :=
  (fromBlocks b₁₁ b₁₂ b₂₁ b₂₂).submatrix finSumFinEquiv.symm finSumFinEquiv.symm

section Join

variable (b₁₁ b₁₂ b₂₁ b₂₂ : Matrix (Fin s) (Fin s) α) (i j : Fin s)

theorem join_top_left : join b₁₁ b₁₂ b₂₁ b₂₂ (Fin.castAdd s i) (Fin.castAdd s j) = b₁₁ i j := by
  rw [join, submatrix_apply, finSumFinEquiv_symm_apply_castAdd, finSumFinEquiv_symm_apply_castAdd, fromBlocks_apply₁₁]

theorem join_top_right : join b₁₁ b₁₂ b₂₁ b₂₂ (Fin.castAdd s i) (Fin.natAdd s j) = b₁₂ i j := by
  rw [join, submatrix_apply, finSumFinEquiv_symm_apply_castAdd, finSumFinEquiv_symm_apply_natAdd, fromBlocks_apply₁₂]

theorem join_bottom_left : join b₁₁ b₁₂ b₂₁ b₂₂ (Fin.natAdd s i) (Fin.castAdd s j) = b₂₁ i j := by
  rw [join, submatrix_apply, finSumFinEquiv_symm_apply_natAdd, finSumFinEquiv_symm_apply_castAdd, fromBlocks_apply₂₁]

theorem join_bottom_right : join b₁₁ b₁₂ b₂₁ b₂₂ (Fin.natAdd s i) (Fin.natAdd s j) = b₂₂ i j := by
  rw [join, submatrix_apply, finSumFinEquiv_symm_apply_natAdd, finSumFinEquiv_symm_apply_natAdd, fromBlocks_apply₂₂]

end Join

/-- A matrix is the join of its quarters. -/
theorem eq_join {m : Matrix (Fin (s + s)) (Fin (s + s)) α} {b₁₁ b₁₂ b₂₁ b₂₂ : Matrix (Fin s) (Fin s) α}
    (h₁₁ : ∀ i j, m (Fin.castAdd s i) (Fin.castAdd s j) = b₁₁ i j)
    (h₁₂ : ∀ i j, m (Fin.castAdd s i) (Fin.natAdd s j) = b₁₂ i j)
    (h₂₁ : ∀ i j, m (Fin.natAdd s i) (Fin.castAdd s j) = b₂₁ i j)
    (h₂₂ : ∀ i j, m (Fin.natAdd s i) (Fin.natAdd s j) = b₂₂ i j) : m = join b₁₁ b₁₂ b₂₁ b₂₂ := by
  ext i j
  induction i using Fin.addCases with
  | left i =>
      induction j using Fin.addCases with
      | left j => rw [h₁₁, join_top_left]
      | right j => rw [h₁₂, join_top_right]
  | right i =>
      induction j using Fin.addCases with
      | left j => rw [h₂₁, join_bottom_left]
      | right j => rw [h₂₂, join_bottom_right]

theorem block_join {n : Nat} {a : Matrix (Fin n) (Fin n) R} (ha : StrictLower a) (r : Nat) :
    block a r r (s + s) = join (block a r r s) 0 (block a (r + s) r s) (block a (r + s) (r + s) s) := by
  refine eq_join (fun i j => rfl) (fun i j => ?_) (fun i j => ?_) fun i j => ?_
  · refine block_strictLower ha r (s + s) _ _ (Fin.le_def.2 ?_)
    simp only [Fin.val_castAdd, Fin.val_natAdd]
    omega
  · simp only [block, of_apply, Fin.val_castAdd, Fin.val_natAdd, Nat.add_assoc]
  · simp only [block, of_apply, Fin.val_natAdd, Nat.add_assoc]

theorem join_one : join 1 0 0 1 = (1 : Matrix (Fin (s + s)) (Fin (s + s)) R) := by
  rw [join, fromBlocks_one, submatrix_one_equiv]

theorem joinLower_mul {a₁₁ a₂₁ a₂₂ m₁₁ m₂₂ : Matrix (Fin s) (Fin s) R} (h₁ : m₁₁ * (1 - a₁₁) = 1)
    (h₂ : m₂₂ * (1 - a₂₂) = 1) : join m₁₁ 0 (m₂₂ * (a₂₁ * m₁₁)) m₂₂ * (1 - join a₁₁ 0 a₂₁ a₂₂) = 1 := by
  have hsub : 1 - join a₁₁ 0 a₂₁ a₂₂ = join (1 - a₁₁) 0 (-a₂₁) (1 - a₂₂) := by
    rw [← join_one]
    refine eq_join (fun i j => ?_) (fun i j => ?_) (fun i j => ?_) fun i j => ?_
    · rw [Matrix.sub_apply, join_top_left, join_top_left, Matrix.sub_apply]
    · rw [Matrix.sub_apply, join_top_right, join_top_right, Matrix.zero_apply, sub_zero]
    · rw [Matrix.sub_apply, join_bottom_left, join_bottom_left, Matrix.zero_apply, zero_sub, Matrix.neg_apply]
    · rw [Matrix.sub_apply, join_bottom_right, join_bottom_right, Matrix.sub_apply]
  -- only the lower left corner mixes the two inverses
  have hcorner : m₂₂ * (a₂₁ * m₁₁) * (1 - a₁₁) + m₂₂ * -a₂₁ = 0 := by
    rw [Matrix.mul_assoc, Matrix.mul_assoc, h₁, Matrix.mul_one, Matrix.mul_neg, add_neg_cancel]
  rw [hsub, join, join, submatrix_mul_equiv, fromBlocks_multiply, h₁, h₂, hcorner]
  simp only [Matrix.zero_mul, Matrix.mul_zero, add_zero, zero_add]
  exact join_one

end Oxydllm
