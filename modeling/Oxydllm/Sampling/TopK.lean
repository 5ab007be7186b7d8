/-
# Oxydllm.Sampling.TopK — the top-k filter over exact rationals.

`applyTopK` keeps what is above the threshold and as many of what ties with it as are missing to `k`, chosen
by a hash of the seed. Every branch leaves the probabilities of a set of indices and divides them by their
sum (`renormalizeInPlace_kept`), and that set has `k` indices with a positive probability, or all of them
(`applyTopK_exact`).
-/
import Mathlib.Algebra.Order.BigOperators.Group.List
import Mathlib.Data.Rat.Defs
import Mathlib.Tactic

namespace Oxydllm.Sampling

/-! ## The filter -/

/-- `renormalize_in_place`. -/
def renormalizeInPlace (probs : List ℚ) (sum : ℚ) : List ℚ := if 0 < sum then probs.map fun p => p / sum else probs

/-- `splitmix64_u64`. -/
def splitmix64 (x : UInt64) : UInt64 :=
  let z := x + 0x9e3779b97f4a7c15
  let z := (z ^^^ (z >>> 30)) * 0xbf58476d1ce4e5b9
  let z := (z ^^^ (z >>> 27)) * 0x94d049bb133111eb
  z ^^^ (z >>> 31)

/-- `TIE_BREAK_NAMESPACE`. -/
def tieBreakNamespace : UInt64 := 0xa55aa55a12345678

/-- `tie_break_seed`; `threadRand` is what `thread_rand_u64` returns. -/
def tieBreakSeed (threadRand : UInt64) (seed : Option UInt64) (step : UInt64) : UInt64 :=
  (seed.getD threadRand + step) ^^^ tieBreakNamespace

/-- `if keep(*p) { sum += *p } else { *p = 0.0 }` over the probabilities: what is left, and the sum. -/
def keepWhere (keep : ℚ → Bool) (sum : ℚ) : List ℚ → List ℚ × ℚ
  | [] => ([], sum)
  | p :: rest =>
    if keep p then
      let r := keepWhere keep (sum + p) rest
      (p :: r.1, r.2)
    else
      let r := keepWhere keep sum rest
      (0 :: r.1, r.2)

/-- The last loop: what is above the threshold stays, and so does an index the cursor is at. -/
def keepTies (threshold : ℚ) (tied : List Nat) (i tieCursor : Nat) (sum : ℚ) : List ℚ → List ℚ × ℚ
  | [] => ([], sum)
  | p :: rest =>
    if threshold < p then
      let r := keepTies threshold tied (i + 1) tieCursor (sum + p) rest
      (p :: r.1, r.2)
    -- `tied` ascends, so the next tie is the one under the cursor
    else if tied[tieCursor]? = some i then
      let r := keepTies threshold tied (i + 1) (tieCursor + 1) (sum + p) rest
      (p :: r.1, r.2)
    else
      let r := keepTies threshold tied (i + 1) tieCursor sum rest
      (0 :: r.1, r.2)

/-- `scratch[k]` after `select_nth_unstable_by`: the value at index `k` in descending order. -/
def nthLargest (probs : List ℚ) (k : Nat) : ℚ := (probs.mergeSort fun a b => b ≤ a).getD k 0

/-- The indices that tie at the threshold. -/
def tiedIndices (probs : List ℚ) (threshold : ℚ) : List Nat :=
  (probs.zipIdx.filter fun p => p.1 = threshold ∧ 0 < p.1).map (·.2)

/-- The ties that stay: the `needTies` with the largest hashes, in index order. -/
def chosenTies (base : UInt64) (needTies : Nat) (tied : List Nat) : List Nat :=
  ((tied.mergeSort fun i j =>
    splitmix64 (base + UInt64.ofNat j) ≤ splitmix64 (base + UInt64.ofNat i)).take needTies).mergeSort fun i j => i ≤ j

/-- `apply_top_k`. -/
def applyTopK (probs : List ℚ) (k : Nat) (threadRand : UInt64) (seed : Option UInt64) (step : UInt64) : List ℚ :=
  if probs.length ≤ k then probs
  else
    let threshold := nthLargest probs k
    let countStrict := probs.countP fun p => threshold < p
    let needTies := k - countStrict
    -- ties at zero are dropped already
    if needTies = 0 ∨ threshold = 0 then
      let r := keepWhere (fun p => threshold < p) 0 probs
      renormalizeInPlace r.1 r.2
    else
      let tied := tiedIndices probs threshold
      if tied.length ≤ needTies then
        let r := keepWhere (fun p => threshold ≤ p ∧ 0 < p) 0 probs
        renormalizeInPlace r.1 r.2
      else
        let r := keepTies threshold (chosenTies (tieBreakSeed threadRand seed step) needTies tied) 0 0 0 probs
        renormalizeInPlace r.1 r.2

/-! ## A kept set of indices -/

/-- The probabilities of a set of indices, zero elsewhere; `i` is the index of the first. -/
def kept (keep : Nat → ℚ → Bool) (i : Nat) : List ℚ → List ℚ
  | [] => []
  | p :: rest => (if keep i p then p else 0) :: kept keep (i + 1) rest

theorem kept_getElem? (keep : Nat → ℚ → Bool) (i : Nat) (probs : List ℚ) (j : Nat) :
    (kept keep i probs)[j]? = probs[j]?.map fun p => if keep (i + j) p then p else 0 := by
  induction probs generalizing i j with
  | nil => rfl
  | cons p rest ih =>
      cases j with
      | zero => rfl
      | succ j => rw [kept, List.getElem?_cons_succ, ih, List.getElem?_cons_succ, Nat.add_right_comm, Nat.add_assoc]

theorem kept_length (keep : Nat → ℚ → Bool) (i : Nat) (probs : List ℚ) : (kept keep i probs).length = probs.length := by
  induction probs generalizing i with
  | nil => rfl
  | cons p rest ih => rw [kept, List.length_cons, ih, List.length_cons]

theorem kept_nonneg {keep : Nat → ℚ → Bool} {i : Nat} {probs : List ℚ} (h : ∀ p ∈ probs, 0 ≤ p) :
    ∀ p ∈ kept keep i probs, 0 ≤ p := by
  induction probs generalizing i with
  | nil => intro p hp; cases hp
  | cons q rest ih =>
      intro p hp
      rcases List.mem_cons.1 hp with rfl | hp
      · split
        · exact h q List.mem_cons_self
        · exact le_refl 0
      · exact ih (fun r hr => h r (List.mem_cons_of_mem _ hr)) p hp

/-- Nothing is lost by dividing by a sum of zero: there is nothing to divide. -/
theorem renormalizeInPlace_sum {probs : List ℚ} (h : ∀ p ∈ probs, 0 ≤ p) :
    renormalizeInPlace probs probs.sum = probs.map fun p => p / probs.sum := by
  unfold renormalizeInPlace
  split
  · rfl
  · rename_i hsum
    refine (List.map_id' probs).symm.trans (List.map_congr_left fun p hp => ?_)
    have hle : p ≤ probs.sum := List.single_le_sum h p hp
    have hzero : p = 0 := le_antisymm (hle.trans (not_lt.1 hsum)) (h p hp)
    rw [hzero, zero_div]

theorem keepWhere_eq (keep : ℚ → Bool) (sum : ℚ) (i : Nat) (probs : List ℚ) :
    keepWhere keep sum probs = (kept (fun _ => keep) i probs, sum + (kept (fun _ => keep) i probs).sum) := by
  induction probs generalizing sum i with
  | nil => simp [keepWhere, kept]
  | cons p rest ih =>
      rw [keepWhere, kept]
      cases hp : keep p with
      | true => simp [ih _ (i + 1), add_assoc]
      | false => simp [ih _ (i + 1)]

/-- The set the last loop keeps. -/
def tieKeep (threshold : ℚ) (tied : List Nat) (j : Nat) (p : ℚ) : Bool := threshold < p ∨ j ∈ tied

/-- The cursor is at the first chosen tie that is not behind `i`. -/
def CursorAt (tied : List Nat) (i tieCursor : Nat) : Prop := ∀ j ∈ tied, i ≤ j ↔ j ∈ tied.drop tieCursor

theorem CursorAt.skip {tied : List Nat} {i tieCursor : Nat} (h : CursorAt tied i tieCursor) (hi : i ∉ tied) :
    CursorAt tied (i + 1) tieCursor := by
  intro j hj
  have hne : j ≠ i := fun h => hi (h ▸ hj)
  rw [← h j hj]
  omega

theorem drop_of_getElem? {tied : List Nat} {i tieCursor : Nat} (hat : tied[tieCursor]? = some i) :
    tied.drop tieCursor = i :: tied.drop (tieCursor + 1) := by
  obtain ⟨hlt, rfl⟩ := List.getElem?_eq_some_iff.1 hat
  exact List.drop_eq_getElem_cons hlt

theorem CursorAt.next {tied : List Nat} (hasc : tied.Pairwise (· < ·)) {i tieCursor : Nat}
    (h : CursorAt tied i tieCursor) (hat : tied[tieCursor]? = some i) : CursorAt tied (i + 1) (tieCursor + 1) := by
  have hdrop := drop_of_getElem? hat
  have hrest : ∀ j ∈ tied.drop (tieCursor + 1), i < j := by
    have := (hasc.sublist (List.drop_sublist tieCursor tied))
    rw [hdrop] at this
    exact (List.pairwise_cons.1 this).1
  intro j hj
  constructor
  · intro hlt
    have hmem := (h j hj).1 (by omega)
    rw [hdrop] at hmem
    rcases List.mem_cons.1 hmem with rfl | hmem
    · omega
    · exact hmem
  · exact fun hmem => hrest j hmem

theorem CursorAt.not_mem {tied : List Nat} (hasc : tied.Pairwise (· < ·)) {i tieCursor : Nat}
    (h : CursorAt tied i tieCursor) (hat : tied[tieCursor]? ≠ some i) : i ∉ tied := by
  intro hi
  have hmem := (h i hi).1 (le_refl i)
  cases hhead : tied[tieCursor]? with
  | none =>
      rw [List.drop_eq_nil_of_le (List.getElem?_eq_none_iff.1 hhead)] at hmem
      cases hmem
  | some j =>
      have hdrop := drop_of_getElem? hhead
      have hj : j ∈ tied.drop tieCursor := hdrop ▸ List.mem_cons_self
      have hle : i ≤ j := (h j (List.mem_of_mem_drop hj)).2 hj
      have hasc := hasc.sublist (List.drop_sublist tieCursor tied)
      rw [hdrop] at hasc hmem
      rcases List.mem_cons.1 hmem with rfl | hmem
      · exact hat hhead
      · have := (List.pairwise_cons.1 hasc).1 i hmem
        omega

/-- The cursor finds every chosen tie, since they are in order and none is above the threshold. -/
theorem keepTies_eq {threshold : ℚ} {tied : List Nat} (hasc : tied.Pairwise (· < ·)) (probs : List ℚ)
    (i tieCursor : Nat) (sum : ℚ) (hcursor : CursorAt tied i tieCursor)
    (htied : ∀ j p, i + j ∈ tied → probs[j]? = some p → ¬ threshold < p) :
    keepTies threshold tied i tieCursor sum probs =
      (kept (tieKeep threshold tied) i probs, sum + (kept (tieKeep threshold tied) i probs).sum) := by
  induction probs generalizing i tieCursor sum with
  | nil => simp [keepTies, kept]
  | cons p rest ih =>
      have hrest : ∀ j q, i + 1 + j ∈ tied → rest[j]? = some q → ¬ threshold < q := fun j q hj hq =>
        htied (j + 1) q (by rwa [Nat.add_comm j, ← Nat.add_assoc]) hq
      rw [keepTies, kept]
      by_cases hp : threshold < p
      · have hi : i ∉ tied := fun hi => htied 0 p hi rfl hp
        have hkeep : tieKeep threshold tied i p = true := by simp [tieKeep, hp]
        rw [if_pos hp, if_pos hkeep, ih _ _ _ (hcursor.skip hi) hrest, List.sum_cons, add_assoc]
      · rw [if_neg hp]
        by_cases hat : tied[tieCursor]? = some i
        · have hkeep : tieKeep threshold tied i p = true := by
            simp [tieKeep, List.mem_of_getElem? hat]
          rw [if_pos hat, if_pos hkeep, ih _ _ _ (hcursor.next hasc hat) hrest, List.sum_cons, add_assoc]
        · have hi := hcursor.not_mem hasc hat
          have hkeep : ¬ tieKeep threshold tied i p = true := by simp [tieKeep, hp, hi]
          rw [if_neg hat, if_neg hkeep, ih _ _ _ (hcursor.skip hi) hrest, List.sum_cons, zero_add]

/-! ## The threshold -/

theorem mergeSort_desc {α : Type} (key : α → ℚ) (l : List α) :
    (l.mergeSort fun a b => key b ≤ key a).Pairwise fun a b => key b ≤ key a := by
  have htrans : ∀ a b c : α, decide (key b ≤ key a) = true → decide (key c ≤ key b) = true →
      decide (key c ≤ key a) = true := by
    intro a b c hab hbc
    exact decide_eq_true ((of_decide_eq_true hbc).trans (of_decide_eq_true hab))
  have htotal : ∀ a b : α, (decide (key b ≤ key a) || decide (key a ≤ key b)) = true := by
    intro a b
    simpa using le_total (key b) (key a)
  exact (List.pairwise_mergeSort htrans htotal l).imp of_decide_eq_true

theorem countP_gt_le {s : List ℚ} (hdesc : s.Pairwise fun a b => b ≤ a) {k : Nat} (hk : k < s.length) :
    (s.countP fun p => s[k] < p) ≤ k := by
  have hback : (s.drop k).countP (fun p => s[k] < p) = 0 := by
    have hdesc := hdesc.sublist (List.drop_sublist k s)
    rw [List.drop_eq_getElem_cons hk] at hdesc ⊢
    rw [List.countP_eq_zero]
    intro p hp
    simp only [decide_eq_true_eq, not_lt]
    rcases List.mem_cons.1 hp with rfl | hp
    · exact le_refl _
    · exact (List.pairwise_cons.1 hdesc).1 p hp
  calc (s.countP fun p => s[k] < p)
      = (s.take k).countP (fun p => s[k] < p) + (s.drop k).countP (fun p => s[k] < p) := by
        rw [← List.countP_append, List.take_append_drop]
    _ = (s.take k).countP (fun p => s[k] < p) := by rw [hback, Nat.add_zero]
    _ ≤ (s.take k).length := List.countP_le_length
    _ ≤ k := List.length_take_le k s

theorem lt_countP_ge {s : List ℚ} (hdesc : s.Pairwise fun a b => b ≤ a) {k : Nat} (hk : k < s.length) :
    k < s.countP fun p => s[k] ≤ p := by
  have hall : ∀ p ∈ s.take (k + 1), decide (s[k] ≤ p) = true := by
    intro p hp
    have hdesc := hdesc.sublist (List.take_sublist (k + 1) s)
    rw [List.take_succ_eq_append_getElem hk] at hdesc hp
    rw [decide_eq_true_eq]
    rcases List.mem_append.1 hp with hp | hp
    · exact (List.pairwise_append.1 hdesc).2.2 p hp _ (List.mem_singleton_self _)
    · exact (List.mem_singleton.1 hp) ▸ le_refl _
  calc k < (s.take (k + 1)).length := by rw [List.length_take]; omega
    _ = (s.take (k + 1)).countP fun p => s[k] ≤ p := (List.countP_eq_length.2 hall).symm
    _ ≤ s.countP fun p => s[k] ≤ p := (List.take_sublist (k + 1) s).countP_le

/-- At most `k` probabilities are above the threshold, and more than `k` reach it. -/
theorem nthLargest_counts (probs : List ℚ) {k : Nat} (hk : k < probs.length) :
    (probs.countP fun p => nthLargest probs k < p) ≤ k ∧ k < probs.countP fun p => nthLargest probs k ≤ p := by
  have hperm := List.mergeSort_perm probs fun a b => decide (b ≤ a)
  have hlen : k < (probs.mergeSort fun a b => b ≤ a).length := by rwa [hperm.length_eq]
  have hthr : nthLargest probs k = (probs.mergeSort fun a b => b ≤ a)[k] := by
    rw [nthLargest, List.getD_eq_getElem?_getD, List.getElem?_eq_getElem hlen, Option.getD_some]
  rw [← hperm.countP_eq, ← hperm.countP_eq, hthr]
  exact ⟨countP_gt_le (mergeSort_desc id probs) hlen, lt_countP_ge (mergeSort_desc id probs) hlen⟩

theorem nthLargest_nonneg {probs : List ℚ} (h : ∀ p ∈ probs, 0 ≤ p) (k : Nat) : 0 ≤ nthLargest probs k := by
  rw [nthLargest, List.getD_eq_getElem?_getD]
  cases hp : (probs.mergeSort fun a b => b ≤ a)[k]? with
  | none => exact le_refl _
  | some p => exact h p ((List.mergeSort_perm probs _).mem_iff.1 (List.mem_of_getElem? hp))

/-! ## The chosen ties -/

theorem mem_tiedIndices {probs : List ℚ} {threshold : ℚ} {i : Nat} :
    i ∈ tiedIndices probs threshold ↔ probs[i]? = some threshold ∧ 0 < threshold := by
  simp only [tiedIndices, List.mem_map, List.mem_filter, decide_eq_true_eq]
  constructor
  · rintro ⟨⟨p, j⟩, ⟨hmem, rfl, hpos⟩, rfl⟩
    exact ⟨List.mem_zipIdx_iff_getElem?.1 hmem, hpos⟩
  · rintro ⟨hget, hpos⟩
    exact ⟨(threshold, i), ⟨List.mem_zipIdx_iff_getElem?.2 hget, rfl, hpos⟩, rfl⟩

theorem tiedIndices_nodup (probs : List ℚ) (threshold : ℚ) : (tiedIndices probs threshold).Nodup := by
  have hsub : (tiedIndices probs threshold).Sublist (probs.zipIdx.map (·.2)) := List.filter_sublist.map _
  rw [List.zipIdx_map_snd] at hsub
  exact hsub.nodup (List.nodup_range' ..)

theorem tiedIndices_length {probs : List ℚ} {threshold : ℚ} (hpos : 0 < threshold) :
    (tiedIndices probs threshold).length = probs.countP fun p => p = threshold := by
  have hsame : (probs.zipIdx.filter fun p => p.1 = threshold ∧ 0 < p.1) =
      probs.zipIdx.filter ((fun p => decide (p = threshold)) ∘ Prod.fst) := by
    refine List.filter_congr fun p _ => ?_
    by_cases hp : p.1 = threshold
    · simp [hp, hpos]
    · simp [hp]
  rw [tiedIndices, List.length_map, hsame, ← List.countP_eq_length_filter, ← List.countP_map, List.zipIdx_map_fst]

theorem chosenTies_length (base : UInt64) {needTies : Nat} {tied : List Nat} (h : needTies ≤ tied.length) :
    (chosenTies base needTies tied).length = needTies := by
  rw [chosenTies, List.length_mergeSort, List.length_take, List.length_mergeSort]
  omega

theorem mem_of_mem_chosenTies {base : UInt64} {needTies : Nat} {tied : List Nat} {i : Nat}
    (h : i ∈ chosenTies base needTies tied) : i ∈ tied :=
  List.mem_mergeSort.1 (List.mem_of_mem_take (List.mem_mergeSort.1 h))

theorem chosenTies_asc {base : UInt64} {needTies : Nat} {tied : List Nat} (hnodup : tied.Nodup) :
    (chosenTies base needTies tied).Pairwise (· < ·) := by
  have hdistinct : (chosenTies base needTies tied).Nodup := by
    rw [chosenTies, (List.mergeSort_perm _ _).nodup_iff]
    exact ((List.mergeSort_perm tied _).nodup_iff.2 hnodup).sublist (List.take_sublist _ _)
  have hle : (chosenTies base needTies tied).Pairwise (· ≤ ·) := List.pairwise_mergeSort' (· ≤ ·) _
  exact hle.imp₂ (fun i j hle hne => Nat.lt_of_le_of_ne hle hne) hdistinct

theorem countP_le_split (tied : List Nat) (i : Nat) :
    (tied.countP fun j => i ≤ j) = (tied.countP fun j => i + 1 ≤ j) + tied.count i := by
  induction tied with
  | nil => rfl
  | cons j tied ih =>
      rw [List.countP_cons, List.countP_cons, List.count_cons, ih]
      simp only [decide_eq_true_eq, beq_iff_eq]
      rcases Nat.lt_trichotomy i j with h | h | h
      · rw [if_pos (by omega), if_pos (by omega), if_neg (by omega)]; omega
      · rw [if_pos (by omega), if_neg (by omega), if_pos h.symm]; omega
      · rw [if_neg (by omega), if_neg (by omega), if_neg (by omega)]; omega

/-- What is kept with ties: everything above the threshold, and the ties. -/
theorem countP_kept_ties {threshold : ℚ} (hpos : 0 < threshold) {tied : List Nat} (hnodup : tied.Nodup)
    (probs : List ℚ) (i : Nat) (htied : ∀ j ∈ tied, i ≤ j → probs[j - i]? = some threshold) :
    (kept (tieKeep threshold tied) i probs).countP (fun p => 0 < p) =
      (probs.countP fun p => threshold < p) + tied.countP fun j => i ≤ j := by
  induction probs generalizing i with
  | nil =>
      rw [show (tied.countP fun j => i ≤ j) = 0 from List.countP_eq_zero.2 fun j hj hle => by
        simpa using htied j hj (by simpa using hle)]
      rfl
  | cons p rest ih =>
      have hrest : ∀ j ∈ tied, i + 1 ≤ j → rest[j - (i + 1)]? = some threshold := fun j hj hle => by
        have h := htied j hj (by omega)
        rwa [show j - i = j - (i + 1) + 1 by omega, List.getElem?_cons_succ] at h
      have hhead : i ∈ tied → p = threshold := fun hi => by simpa using htied i hi (le_refl i)
      rw [kept, List.countP_cons, ih (i + 1) hrest, List.countP_cons, countP_le_split tied i, hnodup.count]
      simp only [decide_eq_true_eq, tieKeep, Bool.decide_or, Bool.or_eq_true]
      by_cases hp : threshold < p
      · have hi : i ∉ tied := fun hi => absurd (hhead hi) (ne_of_gt hp)
        rw [if_pos (Or.inl hp), if_pos (hpos.trans hp), if_pos hp, if_neg hi]
        omega
      · by_cases hi : i ∈ tied
        · have hp0 : 0 < p := hhead hi ▸ hpos
          rw [if_pos (Or.inr hi), if_pos hp0, if_neg hp, if_pos hi]
          omega
        · rw [if_neg (by simp [hp, hi]), if_neg hp, if_neg hi]
          simp

theorem countP_kept_above {threshold : ℚ} (h : 0 ≤ threshold) (i : Nat) (probs : List ℚ) :
    (kept (fun _ p => threshold < p) i probs).countP (fun p => 0 < p) = probs.countP fun p => threshold < p := by
  induction probs generalizing i with
  | nil => rfl
  | cons p rest ih =>
      rw [kept, List.countP_cons, ih, List.countP_cons]
      by_cases hp : threshold < p
      · simp [hp, h.trans_lt hp]
      · simp [hp]

/-! ## What is kept -/

/-- A set of indices that holds everything above the threshold, nothing below it, and `k` positive
probabilities or all there are. -/
structure KeepsTop (probs : List ℚ) (k : Nat) (keep : Nat → ℚ → Bool) : Prop where
  above : ∀ i p, nthLargest probs k < p → keep i p = true
  reaches : ∀ i p, probs[i]? = some p → keep i p = true → nthLargest probs k ≤ p
  count : (kept keep 0 probs).countP (fun p => 0 < p) = min k (probs.countP fun p => 0 < p)

/-- Below a positive threshold more than `k` probabilities are positive. -/
theorem lt_countP_pos {probs : List ℚ} {k : Nat} (hk : k < probs.length) (hpos : 0 < nthLargest probs k) :
    k < probs.countP fun p => 0 < p := by
  refine (nthLargest_counts probs hk).2.trans_le (List.countP_mono_left fun p _ hp => ?_)
  simp only [decide_eq_true_eq] at hp ⊢
  exact hpos.trans_le hp

theorem keepsTop_above {probs : List ℚ} (hnn : ∀ p ∈ probs, 0 ≤ p) {k : Nat} (hk : k < probs.length)
    (h : k - (probs.countP fun p => nthLargest probs k < p) = 0 ∨ nthLargest probs k = 0) :
    KeepsTop probs k fun _ p => nthLargest probs k < p := by
  have hthr := nthLargest_nonneg hnn k
  have hle := (nthLargest_counts probs hk).1
  refine ⟨fun _ p hp => by simpa using hp, fun _ p _ hp => le_of_lt (by simpa using hp), ?_⟩
  rw [countP_kept_above hthr]
  rcases eq_or_lt_of_le hthr with hzero | hpos
  · rw [← hzero] at hle ⊢
    exact (Nat.min_eq_right hle).symm
  · have hall := lt_countP_pos hk hpos
    rcases h with h | h
    · omega
    · exact absurd h (ne_of_gt hpos)

theorem countP_split (probs : List ℚ) (threshold : ℚ) :
    (probs.countP fun p => threshold ≤ p) =
      (probs.countP fun p => threshold < p) + probs.countP fun p => p = threshold := by
  induction probs with
  | nil => rfl
  | cons p rest ih =>
      rw [List.countP_cons, List.countP_cons, List.countP_cons, ih]
      simp only [decide_eq_true_eq]
      rcases lt_trichotomy threshold p with h | rfl | h
      · rw [if_pos h.le, if_pos h, if_neg (ne_of_gt h)]; omega
      · rw [if_pos (le_refl _), if_neg (lt_irrefl _), if_pos rfl]; omega
      · rw [if_neg (not_le.2 h), if_neg (not_lt.2 h.le), if_neg (ne_of_lt h)]; omega

theorem keepsTop_ties {probs : List ℚ} (hnn : ∀ p ∈ probs, 0 ≤ p) {k : Nat} (hk : k < probs.length)
    (hzero : nthLargest probs k ≠ 0) (base : UInt64) :
    let tied := chosenTies base (k - (probs.countP fun p => nthLargest probs k < p))
      (tiedIndices probs (nthLargest probs k))
    KeepsTop probs k (tieKeep (nthLargest probs k) tied) := by
  intro tied
  have hpos : 0 < nthLargest probs k := lt_of_le_of_ne (nthLargest_nonneg hnn k) hzero.symm
  obtain ⟨hle, hlt⟩ := nthLargest_counts probs hk
  have htied : ∀ j ∈ tied, probs[j]? = some (nthLargest probs k) := fun j hj =>
    (mem_tiedIndices.1 (mem_of_mem_chosenTies hj)).1
  refine ⟨fun i p hp => by simp [tieKeep, hp], fun i p hi hp => ?_, ?_⟩
  · simp only [tieKeep, decide_eq_true_eq] at hp
    rcases hp with hp | hp
    · exact hp.le
    · rw [htied i hp, Option.some.injEq] at hi
      exact hi.le
  · have henough : k - (probs.countP fun p => nthLargest probs k < p) ≤ (tiedIndices probs (nthLargest probs k)).length := by
      rw [tiedIndices_length hpos]
      have := countP_split probs (nthLargest probs k)
      omega
    have hall := lt_countP_pos hk hpos
    have hnodup : tied.Nodup := (chosenTies_asc (tiedIndices_nodup _ _)).imp fun h => Nat.ne_of_lt h
    have hfrom : (tied.countP fun j => 0 ≤ j) = tied.length := List.countP_eq_length.2 fun j _ => by simp
    rw [countP_kept_ties hpos hnodup probs 0 fun j hj _ => htied j hj, hfrom, chosenTies_length base henough]
    omega

/-- Whatever branch is taken, the probabilities of such a set are left, divided by their sum. -/
theorem applyTopK_kept {probs : List ℚ} (hnn : ∀ p ∈ probs, 0 ≤ p) {k : Nat} (hk : k < probs.length)
    (threadRand : UInt64) (seed : Option UInt64) (step : UInt64) :
    ∃ keep, KeepsTop probs k keep ∧
      applyTopK probs k threadRand seed step = (kept keep 0 probs).map fun p => p / (kept keep 0 probs).sum := by
  unfold applyTopK
  rw [if_neg (Nat.not_le.2 hk)]
  dsimp only
  split
  · rename_i h
    refine ⟨_, keepsTop_above hnn hk h, ?_⟩
    rw [keepWhere_eq _ _ 0, zero_add]
    exact renormalizeInPlace_sum (kept_nonneg hnn)
  · rename_i h
    obtain ⟨hneed, hzero⟩ := not_or.1 h
    have hpos : 0 < nthLargest probs k := lt_of_le_of_ne (nthLargest_nonneg hnn k) (Ne.symm hzero)
    split
    · -- there are always more ties than are missing
      rename_i hfew
      rw [tiedIndices_length hpos] at hfew
      have := countP_split probs (nthLargest probs k)
      obtain ⟨hle, hlt⟩ := nthLargest_counts probs hk
      omega
    · have hties := keepsTop_ties hnn hk hzero (tieBreakSeed threadRand seed step)
      refine ⟨_, hties, ?_⟩
      rw [keepTies_eq (chosenTies_asc (tiedIndices_nodup _ _)) probs 0 0 0 (fun j hj => by simpa using hj) ?_, zero_add]
      · exact renormalizeInPlace_sum (kept_nonneg hnn)
      · intro j p hj hp
        have hget := (mem_tiedIndices.1 (mem_of_mem_chosenTies hj)).1
        rw [Nat.zero_add, hp, Option.some.injEq] at hget
        exact not_lt.2 hget.le

/-- The original probabilities of the entries that are positive after a filter, added up. -/
def keptMass (probs out : List ℚ) : ℚ := (((probs.zip out).filter fun x => 0 < x.2).map (·.1)).sum

theorem keptMass_kept (keep : Nat → ℚ → Bool) {c : ℚ} (hc : 0 < c) (i : Nat) {probs : List ℚ}
    (hnn : ∀ p ∈ probs, 0 ≤ p) :
    keptMass probs ((kept keep i probs).map fun p => p / c) = (kept keep i probs).sum := by
  unfold keptMass
  induction probs generalizing i with
  | nil => rfl
  | cons p rest ih =>
      have ih := ih (i + 1) fun q hq => hnn q (List.mem_cons_of_mem _ hq)
      rw [kept, List.map_cons, List.zip_cons_cons, List.sum_cons, ← ih]
      by_cases hkeep : keep i p = true
      · rw [if_pos hkeep]
        rcases eq_or_lt_of_le (hnn p List.mem_cons_self) with hzero | hpos
        · rw [← hzero, List.filter_cons_of_neg (by simp), zero_add]
        · rw [List.filter_cons_of_pos (by simpa using div_pos hpos hc), List.map_cons, List.sum_cons]
      · rw [if_neg hkeep, List.filter_cons_of_neg (by simp), zero_add]

/-- What is positive after a filter was kept, and was positive. -/
theorem kept_stays {keep : Nat → ℚ → Bool} {probs : List ℚ} (hnn : ∀ p ∈ probs, 0 ≤ p) {i : Nat} {p : ℚ}
    (hpos : 0 < (if keep i p then p else 0) / (kept keep 0 probs).sum) :
    keep i p = true ∧ 0 < p ∧ 0 < (kept keep 0 probs).sum := by
  have hkeep : keep i p = true := by
    by_contra hno
    rw [if_neg hno, zero_div] at hpos
    exact lt_irrefl 0 hpos
  rw [if_pos hkeep] at hpos
  have hsum : 0 < (kept keep 0 probs).sum := by
    refine lt_of_le_of_ne (List.sum_nonneg (kept_nonneg hnn)) fun h => ?_
    rw [← h, div_zero] at hpos
    exact lt_irrefl 0 hpos
  exact ⟨hkeep, (div_pos_iff_of_pos_right hsum).1 hpos, hsum⟩

/-- Dividing by the sum leaves as many positive. -/
theorem countP_div_sum {l : List ℚ} (hnn : ∀ p ∈ l, 0 ≤ p) :
    ((l.map fun p => p / l.sum).countP fun a => 0 < a) = l.countP fun p => 0 < p := by
  rw [List.countP_map]
  rcases eq_or_lt_of_le (List.sum_nonneg hnn) with hzero | hpos
  · rw [← hzero]
    have hnone : ∀ p ∈ l, p = 0 := fun p hp => le_antisymm (hzero ▸ List.single_le_sum hnn p hp) (hnn p hp)
    rw [List.countP_eq_zero.2 fun p _ => by simp, List.countP_eq_zero.2 fun p hp => by simp [hnone p hp]]
  · refine List.countP_congr fun p _ => ?_
    simp [div_pos_iff_of_pos_right hpos]

/-- With fewer positions than probabilities, exactly `min k` of the positive ones stay positive; none that
is dropped was larger than one that stays; and what stays is divided by what stays in all. -/
theorem applyTopK_exact (probs : List ℚ) (hnn : ∀ p ∈ probs, 0 ≤ p) (k : Nat) (hk : k < probs.length)
    (threadRand : UInt64) (seed : Option UInt64) (step : UInt64) :
    let out := applyTopK probs k threadRand seed step
    out.length = probs.length ∧
    (out.countP fun a => 0 < a) = min k (probs.countP fun p => 0 < p) ∧
    (∀ (i j : Nat) (p a q b : ℚ), probs[i]? = some p → out[i]? = some a → 0 < a →
      probs[j]? = some q → out[j]? = some b → ¬ 0 < b → b = 0 ∧ q ≤ p) ∧
    (∀ (i : Nat) (p a : ℚ), probs[i]? = some p → out[i]? = some a → 0 < a → a = p / keptMass probs out) := by
  intro out
  obtain ⟨keep, htop, hout⟩ := applyTopK_kept hnn hk threadRand seed step
  have hout : out = (kept keep 0 probs).map fun p => p / (kept keep 0 probs).sum := hout
  -- an entry of the result
  have hentry : ∀ i p a, probs[i]? = some p → out[i]? = some a →
      a = (if keep i p then p else 0) / (kept keep 0 probs).sum := by
    intro i p a hp ha
    rw [hout, List.getElem?_map, kept_getElem?, hp, Nat.zero_add] at ha
    exact (Option.some.injEq _ _ ▸ ha).symm
  have hstays : ∀ i p a, probs[i]? = some p → out[i]? = some a → 0 < a →
      keep i p = true ∧ 0 < p ∧ 0 < (kept keep 0 probs).sum := fun i p a hp ha hpos =>
    kept_stays hnn (hentry i p a hp ha ▸ hpos)
  refine ⟨by rw [hout, List.length_map, kept_length], ?_, ?_, ?_⟩
  · rw [← htop.count, hout, countP_div_sum (kept_nonneg hnn)]
  · intro i j p a q b hp ha hpos hq hb hdropped
    obtain ⟨hkeep, hp0, hsum⟩ := hstays i p a hp ha hpos
    have hb := hentry j q b hq hb
    rcases Decidable.em (keep j q = true) with hkj | hkj
    · rw [if_pos hkj] at hb
      have hq0 : q = 0 := by
        refine le_antisymm (not_lt.1 fun hq0 => hdropped ?_) (hnn q (List.mem_of_getElem? hq))
        rw [hb]
        exact div_pos hq0 hsum
      exact ⟨by rw [hb, hq0, zero_div], hq0 ▸ hp0.le⟩
    · rw [if_neg hkj, zero_div] at hb
      exact ⟨hb, (not_lt.1 fun h => hkj (htop.above j q h)).trans (htop.reaches i p hp hkeep)⟩
  · intro i p a hp ha hpos
    obtain ⟨hkeep, -, hsum⟩ := hstays i p a hp ha hpos
    rw [hentry i p a hp ha, if_pos hkeep, hout, keptMass_kept keep hsum 0 hnn]

/-- Four ties for two places. -/
theorem applyTopK_exact_ties : (applyTopK [1/4, 1/4, 1/4, 1/4] 2 0 (some 7) 0).length = 4 ∧
    (applyTopK [1/4, 1/4, 1/4, 1/4] 2 0 (some 7) 0).countP (fun a => 0 < a) =
      min 2 ([1/4, 1/4, 1/4, 1/4].countP fun p : ℚ => 0 < p) := by
  have h := applyTopK_exact [1/4, 1/4, 1/4, 1/4] (by simp) 2 (by decide) 0 (some 7) 0
  exact ⟨h.1, h.2.1⟩

end Oxydllm.Sampling
