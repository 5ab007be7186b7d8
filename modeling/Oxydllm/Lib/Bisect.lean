/-
# Oxydllm.Lib.Bisect — binary search for where a predicate begins to hold.

`bisect` halves a stretch of indices. On a predicate that stays true once it is, it ends at the first index that has it,
or behind the stretch (`bisect_spec`).
-/
import Mathlib.Tactic

namespace Oxydllm

/-- `while lo < hi`, with `hi` moved to the middle where the predicate holds there, else `lo` behind it. -/
def bisect (p : Nat → Bool) (lo hi : Nat) : Nat :=
  if lo < hi then
    let mid := (lo + hi) / 2
    if p mid then bisect p lo mid else bisect p (mid + 1) hi
  else lo
termination_by hi - lo

theorem bisect_mem (p : Nat → Bool) {lo hi : Nat} (h : lo ≤ hi) : lo ≤ bisect p lo hi ∧ bisect p lo hi ≤ hi := by
  induction lo, hi using bisect.induct p with
  | case1 lo hi hlt mid hp ih =>
      have hmid : mid < hi := by omega
      obtain ⟨hge, hle⟩ := ih (by omega)
      rw [bisect, if_pos hlt, if_pos hp]
      exact ⟨hge, hle.trans hmid.le⟩
  | case2 lo hi hlt mid hp ih =>
      have hmid : lo ≤ mid := by omega
      obtain ⟨hge, hle⟩ := ih (by omega)
      rw [bisect, if_pos hlt, if_neg hp]
      exact ⟨hmid.trans ((Nat.le_succ mid).trans hge), hle⟩
  | case3 lo hi hge =>
      rw [bisect, if_neg hge]
      omega

/-- Nothing before the result has the predicate, and all of the stretch from it on. -/
theorem bisect_spec {p : Nat → Bool} {n : Nat} (hmono : ∀ i j, i ≤ j → j < n → p i = true → p j = true) {lo hi : Nat}
    (hn : hi ≤ n) (hlow : ∀ i < lo, p i = false) (hhigh : ∀ i, hi ≤ i → i < n → p i = true) (h : lo ≤ hi) :
    (∀ i < bisect p lo hi, p i = false) ∧ ∀ i, bisect p lo hi ≤ i → i < n → p i = true := by
  induction lo, hi using bisect.induct p with
  | case1 lo hi hlt mid hp ih =>
      rw [bisect, if_pos hlt, if_pos hp]
      exact ih (by omega) hlow (fun i hi hin => hmono mid i hi hin hp) (by omega)
  | case2 lo hi hlt mid hp ih =>
      rw [bisect, if_pos hlt, if_neg hp]
      refine ih hn (fun i hi => ?_) hhigh (by omega)
      -- an index before the middle with the predicate would give it to the middle
      by_contra hne
      exact hp (hmono i mid (by omega) (by omega) (Bool.eq_true_of_not_eq_false hne))
  | case3 lo hi hge =>
      rw [bisect, if_neg hge]
      exact ⟨hlow, fun i hi => hhigh i (by omega)⟩

end Oxydllm
