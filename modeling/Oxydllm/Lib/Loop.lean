/-
# Oxydllm.Lib.Loop — `for` loops over a state that may stop, and what they keep.

A body that panics is `none`. What holds before a loop and is carried over each of its turns holds after it, and the
loop does not stop (`foldlM_keeps`); `times` and `stepBy` are the loops over `0..n` and over every `k`-th index of it.
-/
import Mathlib.Data.List.Basic
import Mathlib.Tactic

namespace Oxydllm.Loop

variable {α σ : Type}

/-! ## Buffers -/

/-- `xs[i] = v`. -/
def setAt (xs : List α) (i : Nat) (v : α) : Option (List α) := if i < xs.length then some (xs.set i v) else none

theorem setAt_eq {xs : List α} {i : Nat} (hi : i < xs.length) (v : α) : setAt xs i v = some (xs.set i v) := if_pos hi

/-! ## Loops -/

/-- The rule of a loop over a list, with the turns already taken in the invariant. -/
theorem foldlM_keeps {xs : List α} {body : σ → α → Option σ} {P : List α → σ → Prop}
    (hstep : ∀ front x back, xs = front ++ x :: back → ∀ s, P front s → ∃ s', body s x = some s' ∧ P (front ++ [x]) s')
    {s : σ} (h : P [] s) : ∃ s', xs.foldlM body s = some s' ∧ P xs s' := by
  -- from any point of the list on
  have hrest : ∀ (back front : List α) (s : σ), xs = front ++ back → P front s →
      ∃ s', back.foldlM body s = some s' ∧ P xs s' := by
    intro back
    induction back with
    | nil =>
        intro front s hxs hs
        rw [List.append_nil] at hxs
        exact ⟨s, rfl, hxs ▸ hs⟩
    | cons x back ih =>
        intro front s hxs hs
        obtain ⟨s', hbody, hs'⟩ := hstep front x back hxs s hs
        obtain ⟨t, ht, hP⟩ := ih (front ++ [x]) s' (by rw [hxs, List.append_assoc, List.singleton_append]) hs'
        refine ⟨t, ?_, hP⟩
        rw [List.foldlM_cons, hbody]
        exact ht
  exact hrest xs [] s rfl h

/-- The rule of a loop over a list with the places counted. -/
theorem enumerate_keeps {xs : List α} {body : σ → α → Nat → Option σ} {P : Nat → σ → Prop}
    (hstep : ∀ i x, xs[i]? = some x → ∀ s, P i s → ∃ s', body s x i = some s' ∧ P (i + 1) s') {s : σ} (h : P 0 s) :
    ∃ s', xs.zipIdx.foldlM (fun s p => body s p.1 p.2) s = some s' ∧ P xs.length s' := by
  have hturn : ∀ front x back, xs.zipIdx = front ++ x :: back → ∀ s, P front.length s →
      ∃ s', body s x.1 x.2 = some s' ∧ P (front ++ [x]).length s' := by
    rintro front ⟨x, i⟩ back hxs s hs
    have hplace : xs.zipIdx[front.length]? = some (x, i) := by
      rw [hxs, List.getElem?_append_right (Nat.le_refl _), Nat.sub_self]
      rfl
    rw [List.getElem?_zipIdx, Nat.zero_add] at hplace
    obtain ⟨y, hy, heq⟩ := Option.map_eq_some_iff.1 hplace
    obtain ⟨rfl, rfl⟩ := Prod.mk.inj heq
    obtain ⟨s', hbody, hP⟩ := hstep _ _ hy s hs
    exact ⟨s', hbody, by rwa [List.length_append]⟩
  obtain ⟨s', hs', hP⟩ := foldlM_keeps (P := fun front s => P front.length s) hturn h
  rw [List.length_zipIdx] at hP
  exact ⟨s', hs', hP⟩

/-- `for i in 0..n`. -/
def times (n : Nat) (body : σ → Nat → Option σ) (s : σ) : Option σ := (List.range n).foldlM body s

theorem times_keeps {n : Nat} {body : σ → Nat → Option σ} {P : Nat → σ → Prop}
    (hstep : ∀ i < n, ∀ s, P i s → ∃ s', body s i = some s' ∧ P (i + 1) s') {s : σ} (h : P 0 s) :
    ∃ s', times n body s = some s' ∧ P n s' := by
  -- a turn is as far as the list in front of it
  have hturn : ∀ front i back, List.range n = front ++ i :: back → ∀ s, P front.length s →
      ∃ s', body s i = some s' ∧ P (front ++ [i]).length s' := by
    intro front i back hxs s hs
    have hi : (List.range n)[front.length]? = some i := by
      rw [hxs, List.getElem?_append_right (Nat.le_refl _), Nat.sub_self]
      rfl
    obtain ⟨hlt, heq⟩ := List.getElem?_eq_some_iff.1 hi
    rw [List.length_range] at hlt
    rw [List.getElem_range] at heq
    obtain ⟨s', hbody, hP⟩ := hstep front.length hlt s hs
    refine ⟨s', heq ▸ hbody, ?_⟩
    rw [List.length_append]
    exact hP
  obtain ⟨s', hs', hP⟩ := foldlM_keeps (P := fun front s => P front.length s) hturn h
  rw [List.length_range] at hP
  exact ⟨s', hs', hP⟩

/-- `for i in (0..n).step_by(k)`. -/
def stepBy (n k : Nat) (body : σ → Nat → Option σ) (s : σ) : Option σ :=
  times ((n + k - 1) / k) (fun s i => body s (i * k)) s

/-- An index that a loop in steps visits is in its range. -/
theorem stepBy_lt {n k i : Nat} (hi : i < (n + k - 1) / k) : i * k < n := by
  rcases Nat.eq_zero_or_pos k with rfl | hk
  · rw [Nat.div_zero] at hi
    exact absurd hi (Nat.not_lt_zero i)
  · have hmul : (i + 1) * k ≤ n + k - 1 := (Nat.le_div_iff_mul_le hk).1 hi
    rw [Nat.succ_mul] at hmul
    omega

end Oxydllm.Loop
