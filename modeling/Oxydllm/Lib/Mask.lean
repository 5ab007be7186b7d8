/-
# Oxydllm.Lib.Mask — index sets in a machine word.

A 64-bit word used as a set of indices below 64: `Mask.collect` walks a list and sets the bit of every
element that passes a test, as the loops `for (i, x) in xs.iter().enumerate() { if .. { m |= 1 << i } }`
do. Everything is read off through `getLsbD`.
-/
import Mathlib.Data.BitVec
import Mathlib.Data.List.Basic

namespace Mask

variable {α : Type}

/-- The bits of the elements of `xs` that pass `p`, which also sees the index. -/
def collect (xs : List α) (p : Nat → α → Bool) : BitVec 64 :=
  (xs.zipIdx).foldl (fun m x => if p x.2 x.1 then m ||| (1#64 <<< x.2) else m) 0#64

theorem getLsbD_one_shift {i j : Nat} (hj : j < 64) : (1#64 <<< i).getLsbD j = decide (i = j) := by
  simp only [BitVec.getLsbD_shiftLeft, BitVec.getLsbD_one, hj]
  by_cases h : i = j
  · simp [h]
  · simp [h]
    omega

theorem getLsbD_foldl (p : Nat → α → Bool) {j : Nat} (hj : j < 64) (xs : List α) (k : Nat)
    (m : BitVec 64) :
    ((xs.zipIdx k).foldl (fun m x => if p x.2 x.1 then m ||| (1#64 <<< x.2) else m) m).getLsbD j =
      (m.getLsbD j || (decide (k ≤ j) && (xs[j - k]?).any (p j))) := by
  induction xs generalizing k m with
  | nil => simp
  | cons x xs ih =>
      rw [List.zipIdx_cons, List.foldl_cons, ih (k + 1)]
      rcases Nat.lt_trichotomy j k with hlt | rfl | hgt
      · have h1 : ¬ k ≤ j := by omega
        have h2 : ¬ k + 1 ≤ j := by omega
        have h3 : k ≠ j := by omega
        by_cases hp : p k x <;> simp [hp, h1, h2, h3, getLsbD_one_shift hj]
      · have h2 : ¬ j + 1 ≤ j := by omega
        by_cases hp : p j x <;> simp [hp, h2, getLsbD_one_shift hj]
      · have h3 : k ≠ j := by omega
        obtain ⟨d, rfl⟩ : ∃ d, j = k + 1 + d := ⟨j - (k + 1), by omega⟩
        have h4 : k + 1 + d - (k + 1) = d := by omega
        have h5 : k + 1 + d - k = d + 1 := by omega
        have h6 : k ≤ k + 1 + d := by omega
        by_cases hp : p k x <;> simp [hp, h3, h4, h5, h6, getLsbD_one_shift hj]

/-- The bit of an index is set when the element there passes the test. -/
theorem getLsbD_collect (xs : List α) (p : Nat → α → Bool) {j : Nat} (hj : j < 64) :
    (collect xs p).getLsbD j = (xs[j]?).any (p j) := by
  simp [collect, getLsbD_foldl p hj]

theorem getLsbD_collect_iff {xs : List α} {p : Nat → α → Bool} {j : Nat} (hj : j < 64) :
    (collect xs p).getLsbD j = true ↔ ∃ x, xs[j]? = some x ∧ p j x = true := by
  rw [getLsbD_collect xs p hj, Option.any_eq_true]

/-- A word with no bit set is zero. -/
theorem eq_zero_iff {m : BitVec 64} : m = 0#64 ↔ ∀ j < 64, m.getLsbD j = false := by
  constructor
  · rintro rfl j -
    simp
  · intro h
    exact BitVec.eq_of_getLsbD_eq fun j hj => by simp [h j hj]

theorem ne_zero_iff {m : BitVec 64} : m ≠ 0#64 ↔ ∃ j < 64, m.getLsbD j = true := by
  rw [ne_eq, eq_zero_iff]
  simp

/-- `m & n == n`: every bit of `n` is in `m`. -/
theorem and_eq_right_iff {m n : BitVec 64} :
    m &&& n = n ↔ ∀ j < 64, n.getLsbD j = true → m.getLsbD j = true := by
  constructor
  · intro h j _ hn
    have := congrArg (·.getLsbD j) h
    simp only [BitVec.getLsbD_and, hn, Bool.and_true] at this
    exact this
  · intro h
    refine BitVec.eq_of_getLsbD_eq fun j hj => ?_
    cases hn : n.getLsbD j with
    | false => simp [hn]
    | true => simp [hn, h j hj hn]

theorem getLsbD_insert {m : BitVec 64} {i j : Nat} (hj : j < 64) :
    (m ||| (1#64 <<< i)).getLsbD j = (m.getLsbD j || decide (i = j)) := by
  rw [BitVec.getLsbD_or, getLsbD_one_shift hj]

end Mask
