/-
# Oxydllm.Lib.Butterfly — sums and differences along the bits of an index.

An index has bits that can be flipped one by one. The stage of a bit puts at every index the sum, or where the bit is
set the difference, of the two entries that differ in it. A stage doubles what it is done twice to, two stages commute,
and so the stages of `n` bits, done twice, multiply every entry by `2 ^ n` (`transform_transform`).
-/
import Mathlib.Algebra.Ring.Basic
import Mathlib.Data.Nat.Bitwise
import Mathlib.Tactic

namespace Oxydllm.Butterfly

/-- Indices with bits `κ`. -/
structure Bits (ι κ : Type) where
  bit : κ → ι → Bool
  flip : κ → ι → ι
  flip_flip : ∀ k p, flip k (flip k p) = p
  flip_comm : ∀ k l p, flip k (flip l p) = flip l (flip k p)
  bit_flip : ∀ k p, bit k (flip k p) = !bit k p
  bit_flip_of_ne : ∀ k l p, k ≠ l → bit k (flip l p) = bit k p

section Stages

variable {ι κ K : Type} [CommRing K] (B : Bits ι κ)

/-! ## One stage -/

/-- Sum where bit `k` is clear, difference where it is set. -/
def stage (k : κ) (f : ι → K) : ι → K := fun p => if B.bit k p then f (B.flip k p) - f p else f p + f (B.flip k p)

variable {B} {k l : κ} {f g : ι → K}

theorem stage_set {p : ι} (hp : B.bit k p = true) : stage B k f p = f (B.flip k p) - f p := if_pos hp

theorem stage_clear {p : ι} (hp : B.bit k p = false) : stage B k f p = f p + f (B.flip k p) :=
  if_neg (Bool.eq_false_iff.1 hp)

theorem stage_stage : stage B k (stage B k f) = fun p => 2 * f p := by
  funext p
  have hflip := B.bit_flip k p
  cases hp : B.bit k p with
  | true =>
      rw [hp] at hflip
      rw [stage_set hp, stage_clear hflip, stage_set hp, B.flip_flip]
      ring
  | false =>
      rw [hp] at hflip
      rw [stage_clear hp, stage_clear hp, stage_set hflip, B.flip_flip]
      ring

theorem stage_comm (h : k ≠ l) : stage B k (stage B l f) = stage B l (stage B k f) := by
  funext p
  have hk : B.bit k (B.flip l p) = B.bit k p := B.bit_flip_of_ne k l p h
  have hl : B.bit l (B.flip k p) = B.bit l p := B.bit_flip_of_ne l k p h.symm
  simp only [stage, hk, hl, B.flip_comm l k]
  split <;> split <;> ring

theorem stage_add : stage B k (fun p => f p + g p) = fun p => stage B k f p + stage B k g p := by
  funext p
  simp only [stage]
  split <;> ring

theorem stage_mul (c : K) : stage B k (fun p => c * f p) = fun p => c * stage B k f p := by
  funext p
  simp only [stage]
  split <;> ring

/-! ## All of them -/

variable (B) in
/-- The stages of the bits, one after the other. -/
def transform (ks : List κ) (f : ι → K) : ι → K := ks.foldl (fun f k => stage B k f) f

variable {ks : List κ}

theorem transform_cons : transform B (k :: ks) f = transform B ks (stage B k f) := rfl

theorem transform_concat : transform B (ks ++ [k]) f = stage B k (transform B ks f) := List.foldl_append ..

theorem transform_stage (h : k ∉ ks) : transform B ks (stage B k f) = stage B k (transform B ks f) := by
  induction ks generalizing f with
  | nil => rfl
  | cons l ks ih =>
      obtain ⟨hne, hks⟩ := List.ne_and_not_mem_of_not_mem_cons h
      rw [transform_cons, transform_cons, ← stage_comm hne, ih hks]

theorem transform_add : transform B ks (fun p => f p + g p) = fun p => transform B ks f p + transform B ks g p := by
  induction ks generalizing f g with
  | nil => rfl
  | cons k ks ih => rw [transform_cons, stage_add, ih, transform_cons, transform_cons]

theorem transform_mul (c : K) : transform B ks (fun p => c * f p) = fun p => c * transform B ks f p := by
  induction ks generalizing f with
  | nil => rfl
  | cons k ks ih => rw [transform_cons, stage_mul, ih, transform_cons]

theorem transform_transform (h : ks.Nodup) : transform B ks (transform B ks f) = fun p => 2 ^ ks.length * f p := by
  induction ks generalizing f with
  | nil =>
      funext p
      rw [List.length_nil, pow_zero, one_mul]
      rfl
  | cons k ks ih =>
      obtain ⟨hk, hks⟩ := List.nodup_cons.1 h
      -- the second stage of `k` moves behind the others, which are twice done on the first
      rw [transform_cons, transform_cons, transform_stage hk, ih hks, stage_mul, stage_stage]
      funext p
      rw [List.length_cons, pow_succ]
      ring

end Stages

/-! ## Numbers -/

/-- The bits of a number. -/
def natBits : Bits Nat Nat where
  bit k p := p.testBit k
  flip k p := p ^^^ 2 ^ k
  flip_flip k p := by rw [Nat.xor_assoc, Nat.xor_self, Nat.xor_zero]
  flip_comm k l p := by rw [Nat.xor_assoc, Nat.xor_assoc, Nat.xor_comm (2 ^ l)]
  bit_flip k p := by rw [Nat.testBit_xor, Nat.testBit_two_pow_self, Bool.xor_true]
  bit_flip_of_ne k l p h := by rw [Nat.testBit_xor, Nat.testBit_two_pow_of_ne h.symm, Bool.xor_false]

/-- Number `o` of the first half of block `t`. -/
theorem bit_first {k t o : Nat} (ho : o < 2 ^ k) : natBits.bit k (2 ^ (k + 1) * t + o) = false := by
  show (2 ^ (k + 1) * t + o).testBit k = false
  have hblock : o < 2 ^ (k + 1) := ho.trans (Nat.pow_lt_pow_succ (by decide))
  rw [Nat.testBit_two_pow_mul_add t hblock, if_pos (Nat.lt_succ_self k), Nat.testBit_lt_two_pow ho]

/-- Its partner in the second. -/
theorem flip_first {k t o : Nat} (ho : o < 2 ^ k) :
    natBits.flip k (2 ^ (k + 1) * t + o) = 2 ^ (k + 1) * t + o + 2 ^ k := by
  show (2 ^ (k + 1) * t + o) ^^^ 2 ^ k = _
  have hpow : 2 ^ (k + 1) = 2 ^ k + 2 ^ k := by rw [pow_succ]; omega
  have hfirst : o < 2 ^ (k + 1) := by omega
  have hsecond : 2 ^ k + o < 2 ^ (k + 1) := by omega
  refine Nat.eq_of_testBit_eq fun i => ?_
  rw [Nat.add_assoc, Nat.add_comm o, Nat.testBit_xor, Nat.testBit_two_pow_mul_add t hfirst,
    Nat.testBit_two_pow_mul_add t hsecond]
  rcases Nat.lt_trichotomy i k with hlt | rfl | hgt
  · rw [if_pos (hlt.trans (Nat.lt_succ_self k)), if_pos (hlt.trans (Nat.lt_succ_self k)),
      Nat.testBit_two_pow_of_ne hlt.ne', Nat.testBit_two_pow_add_gt hlt, Bool.xor_false]
  · rw [if_pos (Nat.lt_succ_self i), if_pos (Nat.lt_succ_self i), Nat.testBit_two_pow_self,
      Nat.testBit_two_pow_add_eq, Bool.xor_true]
  · rw [if_neg (Nat.not_lt.2 hgt), if_neg (Nat.not_lt.2 hgt), Nat.testBit_two_pow_of_ne hgt.ne, Bool.xor_false]

theorem bit_second {k t o : Nat} (ho : o < 2 ^ k) : natBits.bit k (2 ^ (k + 1) * t + o + 2 ^ k) = true := by
  rw [← flip_first ho, natBits.bit_flip, bit_first ho, Bool.not_false]

theorem flip_second {k t o : Nat} (ho : o < 2 ^ k) :
    natBits.flip k (2 ^ (k + 1) * t + o + 2 ^ k) = 2 ^ (k + 1) * t + o := by
  rw [← flip_first ho, natBits.flip_flip]

end Oxydllm.Butterfly
