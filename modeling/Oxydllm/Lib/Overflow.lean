/-
# Oxydllm.Lib.Overflow — arithmetic on words of 64 bits, in a build that checks it and in one that does not.

An operation whose result has no word panics in a checked build, and is the result modulo the words in a wrapping
one. A product over a list does so at each of its factors, so the checked one panics where any of its beginnings
is too large, whatever comes after it (`product_checked`).
-/
import Oxydllm.Lib.Traverse
import Mathlib.Algebra.BigOperators.Group.List.Basic
import Mathlib.Tactic

namespace Oxydllm.Overflow

/-- How a computation ends early. -/
inductive Stop where
  | panic
  | error (msg : String)
  deriving DecidableEq, Repr

abbrev Run := Except Stop

inductive Build where
  | checked
  | wrapping
  deriving DecidableEq, Repr

def words : Nat := 2 ^ 64

variable (b : Build)

/-- A result as a word. -/
def word (n : Nat) : Run Nat :=
  if n < words then .ok n
  else match b with
    | .checked => .error .panic
    | .wrapping => .ok (n % words)

def product (dims : List Nat) : Run Nat := dims.foldlM (fun n d => word b (n * d)) 1

/-- Every beginning of the list has a product that is a word. -/
def Climbs (dims : List Nat) : Prop := ∀ k, (dims.take k).prod < words

variable {b}

theorem word_fits {n : Nat} (h : n < words) : word b n = .ok n := if_pos h

theorem word_wrapping (n : Nat) : word .wrapping n = .ok (n % words) := by
  by_cases h : n < words
  · rw [word_fits h, Nat.mod_eq_of_lt h]
  · exact if_neg h

theorem word_checked {n : Nat} (h : ¬ n < words) : word .checked n = .error .panic := if_neg h

theorem words_pos : 0 < words := Nat.two_pow_pos 64

theorem foldlM_wrapping (dims : List Nat) (n : Nat) :
    dims.foldlM (fun n d => word .wrapping (n * d)) (n % words) = .ok (n * dims.prod % words) := by
  induction dims generalizing n with
  | nil => rw [List.foldlM_nil, List.prod_nil, Nat.mul_one]; rfl
  | cons d dims ih =>
      have hstep : word .wrapping (n % words * d) = .ok (n * d % words) := by
        rw [word_wrapping, Nat.mod_mul_mod]
      rw [List.foldlM_cons, hstep, List.prod_cons, ← Nat.mul_assoc]
      exact ih (n * d)

theorem product_wrapping (dims : List Nat) : product .wrapping dims = .ok (dims.prod % words) := by
  have hall := foldlM_wrapping dims 1
  rw [Nat.one_mul] at hall
  exact hall

theorem foldlM_climbs {dims : List Nat} {n : Nat} (h : ∀ k, n * (dims.take k).prod < words) :
    dims.foldlM (fun n d => word b (n * d)) n = .ok (n * dims.prod) := by
  induction dims generalizing n with
  | nil => rw [List.foldlM_nil, List.prod_nil, Nat.mul_one]; rfl
  | cons d dims ih =>
      have hd : n * d < words := by
        have := h 1
        simpa using this
      rw [List.foldlM_cons, word_fits hd, List.prod_cons, ← Nat.mul_assoc]
      refine ih fun k => ?_
      have := h (k + 1)
      rwa [List.take_succ_cons, List.prod_cons, ← Nat.mul_assoc] at this

theorem product_climbs {dims : List Nat} (h : Climbs dims) : product b dims = .ok dims.prod := by
  have hone : ∀ k, 1 * (dims.take k).prod < words := by
    intro k
    rw [Nat.one_mul]
    exact h k
  have hall := foldlM_climbs (b := b) hone
  rwa [Nat.one_mul] at hall

theorem foldlM_checked {dims : List Nat} {n k : Nat} (hk : ¬ n * (dims.take k).prod < words) (hn : n < words) :
    dims.foldlM (fun n d => word .checked (n * d)) n = .error .panic := by
  induction dims generalizing n k with
  | nil =>
      rw [List.take_nil, List.prod_nil, Nat.mul_one] at hk
      exact absurd hn hk
  | cons d dims ih =>
      rw [List.foldlM_cons]
      by_cases hd : n * d < words
      · rw [word_fits hd]
        cases k with
        | zero =>
            rw [List.take_zero, List.prod_nil, Nat.mul_one] at hk
            exact absurd hn hk
        | succ k =>
            rw [List.take_succ_cons, List.prod_cons, ← Nat.mul_assoc] at hk
            exact ih hk hd
      · rw [word_checked hd]
        rfl

/-- A product that does not climb panics in a checked build, also where it comes down again. -/
theorem product_checked {dims : List Nat} (h : ¬ Climbs dims) : product .checked dims = .error .panic := by
  unfold Climbs at h
  push Not at h
  obtain ⟨k, hk⟩ := h
  refine foldlM_checked (k := k) ?_ (by decide)
  rw [Nat.one_mul]
  exact Nat.not_lt.2 hk

theorem Climbs.prod_lt {dims : List Nat} (h : Climbs dims) : dims.prod < words := by
  have := h dims.length
  rwa [List.take_length] at this

end Oxydllm.Overflow
