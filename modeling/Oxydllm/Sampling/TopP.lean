/-
# Oxydllm.Sampling.TopP — nucleus filtering and its shortcut, over exact rationals.

`applyTopP` sorts only the probabilities that reach a fraction of the largest when these have enough mass.
Its result is that of `keepTopPPrefix` on an order of all indices in either case, the candidates first
(`applyTopP_order`), and what that keeps is the shortest prefix with the mass, or everything
(`applyTopP_nucleus`). The sort is unstable: `SortDesc` is any sort that returns its argument in descending
order.
-/
import Oxydllm.Sampling.TopK

namespace Oxydllm.Sampling

/-! ## The filter -/

/-- `sort_unstable_by` on the probabilities, descending: what ties comes in any order. -/
structure SortDesc where
  sort : List (Nat × ℚ) → List (Nat × ℚ)
  perm : ∀ l, (sort l).Perm l
  desc : ∀ l, (sort l).Pairwise fun a b => b.2 ≤ a.2

/-- The counting loop of `keep_top_p_prefix`. -/
def keepCount (topP cumulative : ℚ) : List (Nat × ℚ) → Nat
  | [] => 0
  -- tested before the entry is added: the one that reaches `top_p` stays
  | x :: rest => if topP ≤ cumulative ∧ 0 < cumulative then 0 else keepCount topP (cumulative + x.2) rest + 1

/-- `keep_top_p_prefix`. -/
def keepTopPPrefix (probs : List ℚ) (sorted : List (Nat × ℚ)) (topP : ℚ) : List ℚ :=
  let front := sorted.take (keepCount topP 0 sorted)
  let r := front.foldl (fun (r : List ℚ × ℚ) x => (r.1.set x.1 x.2, r.2 + x.2)) (probs.map fun _ => 0, 0)
  renormalizeInPlace r.1 r.2

/-- `probs.iter().enumerate()`. -/
def indexed (probs : List ℚ) : List (Nat × ℚ) := probs.zipIdx.map fun p => (p.2, p.1)

/-- `max_prob * 1e-4`. -/
def topPThreshold (probs : List ℚ) : ℚ := probs.foldl max 0 * (1 / 10000)

/-- The probabilities that reach the threshold, with their indices. -/
def candidates (probs : List ℚ) : List (Nat × ℚ) := (indexed probs).filter fun x => topPThreshold probs ≤ x.2

/-- `apply_top_p`. -/
def applyTopP (s : SortDesc) (probs : List ℚ) (topP : ℚ) : List ℚ :=
  let candidateMass := ((candidates probs).map (·.2)).sum
  -- a prefix with this mass ends among the candidates
  let fastHit := topP ≤ candidateMass
  let chosen := if fastHit then candidates probs else indexed probs
  keepTopPPrefix probs (s.sort chosen) topP

/-! ## The shortest prefix -/

/-- The mass of a list of entries. -/
def mass (l : List (Nat × ℚ)) : ℚ := (l.map (·.2)).sum

theorem mass_cons (x : Nat × ℚ) (l : List (Nat × ℚ)) : mass (x :: l) = x.2 + mass l := by
  rw [mass, List.map_cons, List.sum_cons]
  rfl

theorem keepCount_le (topP cumulative : ℚ) (l : List (Nat × ℚ)) : keepCount topP cumulative l ≤ l.length := by
  induction l generalizing cumulative with
  | nil => exact Nat.le_refl 0
  | cons x l ih =>
      rw [keepCount]
      split
      · exact Nat.zero_le _
      · exact Nat.succ_le_succ (ih _)

/-- No shorter prefix has the mass. -/
theorem keepCount_short {topP : ℚ} (htop : 0 < topP) (cumulative : ℚ) (l : List (Nat × ℚ)) :
    ∀ m < keepCount topP cumulative l, cumulative + mass (l.take m) < topP := by
  induction l generalizing cumulative with
  | nil => intro m hm; exact absurd hm (Nat.not_lt_zero m)
  | cons x l ih =>
      intro m hm
      rw [keepCount] at hm
      split at hm
      · exact absurd hm (Nat.not_lt_zero m)
      · rename_i hgo
        cases m with
        | zero =>
            rw [List.take_zero, show mass [] = 0 from rfl, add_zero]
            exact not_le.1 fun h => hgo ⟨h, htop.trans_le h⟩
        | succ m =>
            rw [List.take_succ_cons, mass_cons, ← add_assoc]
            exact ih _ m (Nat.lt_of_succ_lt_succ hm)

/-- The prefix has the mass, unless it is everything. -/
theorem keepCount_reach (topP cumulative : ℚ) (l : List (Nat × ℚ)) :
    topP ≤ cumulative + mass (l.take (keepCount topP cumulative l)) ∨ keepCount topP cumulative l = l.length := by
  induction l generalizing cumulative with
  | nil => exact Or.inr rfl
  | cons x l ih =>
      rw [keepCount]
      split
      · rename_i hstop
        exact Or.inl (by simpa [mass] using hstop.1)
      · rcases ih (cumulative + x.2) with h | h
        · exact Or.inl (by rwa [List.take_succ_cons, mass_cons, ← add_assoc])
        · exact Or.inr (by rw [h, List.length_cons])

/-- Entries after those that have the mass are never reached. -/
theorem keepCount_append {topP : ℚ} (htop : 0 < topP) (cumulative : ℚ) (l rest : List (Nat × ℚ))
    (h : topP ≤ cumulative + mass l) : keepCount topP cumulative (l ++ rest) = keepCount topP cumulative l := by
  induction l generalizing cumulative with
  | nil =>
      rw [show mass [] = 0 from rfl, add_zero] at h
      cases rest with
      | nil => rfl
      | cons x rest => exact if_pos ⟨h, htop.trans_le h⟩
  | cons x l ih =>
      rw [List.cons_append, keepCount, keepCount, ih _ (by rwa [mass_cons, ← add_assoc] at h)]

/-! ## The order -/

theorem candidates_ge_rest {probs : List ℚ} {a b : Nat × ℚ} (ha : a ∈ candidates probs)
    (hb : b ∈ (indexed probs).filter fun x => ! decide (topPThreshold probs ≤ x.2)) : b.2 ≤ a.2 := by
  have ha := (List.mem_filter.1 ha).2
  have hb := (List.mem_filter.1 hb).2
  simp only [Bool.not_eq_true', decide_eq_false_iff_not, not_le, decide_eq_true_eq] at ha hb
  exact (hb.trans_le ha).le

/-- The result is that of a descending order of all indices: the sorted ones first, and after candidates with
enough mass the others. -/
theorem applyTopP_order (s : SortDesc) (probs : List ℚ) {topP : ℚ} (htop : 0 < topP) :
    ∃ order, order.Perm (indexed probs) ∧ order.Pairwise (fun a b => b.2 ≤ a.2) ∧
      applyTopP s probs topP = keepTopPPrefix probs order topP := by
  unfold applyTopP
  dsimp only
  split
  · rename_i hmass
    let rest := (indexed probs).filter fun x => ! decide (topPThreshold probs ≤ x.2)
    refine ⟨s.sort (candidates probs) ++ s.sort rest, ?_, ?_, ?_⟩
    · exact ((s.perm _).append (s.perm _)).trans (List.filter_append_perm _ _)
    · refine List.pairwise_append.2 ⟨s.desc _, s.desc _, fun a ha b hb => ?_⟩
      exact candidates_ge_rest ((s.perm _).mem_iff.1 ha) ((s.perm rest).mem_iff.1 hb)
    · have hsame : mass (s.sort (candidates probs)) = ((candidates probs).map (·.2)).sum :=
        ((s.perm _).map _).sum_eq
      have hcount := keepCount_append htop 0 (s.sort (candidates probs)) (s.sort rest) (by rwa [zero_add, hsame])
      rw [keepTopPPrefix, keepTopPPrefix, hcount, List.take_append_of_le_length (keepCount_le _ _ _)]
  · exact ⟨s.sort (indexed probs), s.perm _, s.desc _, rfl⟩

/-! ## What is kept -/

theorem mem_indexed {probs : List ℚ} {i : Nat} {p : ℚ} : (i, p) ∈ indexed probs ↔ probs[i]? = some p := by
  unfold indexed
  rw [List.mem_map]
  constructor
  · rintro ⟨⟨q, j⟩, hmem, heq⟩
    cases heq
    exact List.mem_zipIdx_iff_getElem?.1 hmem
  · intro hget
    exact ⟨(p, i), List.mem_zipIdx_iff_getElem?.2 hget, rfl⟩

theorem indexed_keys_nodup (probs : List ℚ) : ((indexed probs).map (·.1)).Nodup := by
  have hkeys : (indexed probs).map (·.1) = probs.zipIdx.map (·.2) := by
    rw [indexed, List.map_map]
    rfl
  rw [hkeys, List.zipIdx_map_snd]
  exact List.nodup_range' ..

/-- Entries written into a list at distinct indices. -/
theorem foldl_set_getElem? (l : List (Nat × ℚ)) (hnodup : (l.map (·.1)).Nodup) (out : List ℚ) (sum : ℚ)
    (hin : ∀ x ∈ l, x.1 < out.length) :
    (l.foldl (fun (r : List ℚ × ℚ) x => (r.1.set x.1 x.2, r.2 + x.2)) (out, sum)).2 = sum + mass l ∧
      (l.foldl (fun (r : List ℚ × ℚ) x => (r.1.set x.1 x.2, r.2 + x.2)) (out, sum)).1.length = out.length ∧
      (∀ x ∈ l, (l.foldl (fun (r : List ℚ × ℚ) x => (r.1.set x.1 x.2, r.2 + x.2)) (out, sum)).1[x.1]? = some x.2) ∧
      ∀ i, (∀ x ∈ l, x.1 ≠ i) →
        (l.foldl (fun (r : List ℚ × ℚ) x => (r.1.set x.1 x.2, r.2 + x.2)) (out, sum)).1[i]? = out[i]? := by
  induction l generalizing out sum with
  | nil => exact ⟨by simp [mass], rfl, fun x hx => absurd hx List.not_mem_nil, fun _ _ => rfl⟩
  | cons y l ih =>
      obtain ⟨hy, hnodup⟩ := List.nodup_cons.1 hnodup
      have hin' : ∀ x ∈ l, x.1 < (out.set y.1 y.2).length := fun x hx => by
        rw [List.length_set]
        exact hin x (List.mem_cons_of_mem _ hx)
      obtain ⟨hsum, hlen, hset, hrest⟩ := ih hnodup (out.set y.1 y.2) (sum + y.2) hin'
      rw [List.foldl_cons]
      refine ⟨by rw [hsum, mass_cons, add_assoc], by rw [hlen, List.length_set], fun x hx => ?_, fun i hi => ?_⟩
      · rcases List.mem_cons.1 hx with rfl | hx
        · have hfresh : ∀ z ∈ l, z.1 ≠ x.1 := fun z hz heq => hy (List.mem_map.2 ⟨z, hz, heq⟩)
          rw [hrest x.1 hfresh,
            List.getElem?_set_self (hin x List.mem_cons_self)]
        · exact hset x hx
      · rw [hrest i fun z hz => hi z (List.mem_cons_of_mem _ hz),
          List.getElem?_set_ne (hi y List.mem_cons_self)]

/-- The entries of a prefix, written over zeros and divided by their mass. -/
theorem renormalize_front {probs : List ℚ} {front : List (Nat × ℚ)} (hsub : ∀ x ∈ front, x ∈ indexed probs)
    (hnodup : (front.map (·.1)).Nodup) (hnn : ∀ p ∈ probs, 0 ≤ p) :
    let r := front.foldl (fun (r : List ℚ × ℚ) x => (r.1.set x.1 x.2, r.2 + x.2)) (probs.map fun _ => 0, 0)
    (renormalizeInPlace r.1 r.2).length = probs.length ∧ ∀ i p, probs[i]? = some p →
      (renormalizeInPlace r.1 r.2)[i]? = some (if (i, p) ∈ front then p / mass front else 0) := by
  intro r
  have hin : ∀ x ∈ front, x.1 < (probs.map fun _ => (0 : ℚ)).length := fun x hx => by
    rw [List.length_map]
    exact (List.getElem?_eq_some_iff.1 (mem_indexed.1 (hsub x hx))).1
  obtain ⟨hsum, hlen, hset, hrest⟩ := foldl_set_getElem? front hnodup (probs.map fun _ => 0) 0 hin
  rw [zero_add] at hsum
  rw [List.length_map] at hlen
  have hentry : ∀ i p, probs[i]? = some p → r.1[i]? = some (if (i, p) ∈ front then p else 0) := by
    intro i p hp
    split
    · rename_i hmem
      exact hset (i, p) hmem
    · rename_i hmem
      have hno : ∀ x ∈ front, x.1 ≠ i := by
        rintro ⟨j, q⟩ hx rfl
        have hq : probs[j]? = some q := mem_indexed.1 (hsub (j, q) hx)
        rw [hp, Option.some.injEq] at hq
        exact hmem (hq ▸ hx)
      rw [hrest i hno, List.getElem?_map, hp, Option.map_some]
  have hfront : ∀ x ∈ front, 0 ≤ x.2 := fun x hx => hnn x.2 (List.mem_of_getElem? (mem_indexed.1 (hsub x hx)))
  have hsum : r.2 = mass front := hsum
  unfold renormalizeInPlace
  split
  · refine ⟨by rw [List.length_map]; exact hlen, fun i p hp => ?_⟩
    rw [List.getElem?_map, hentry i p hp, Option.map_some, hsum]
    split
    · rfl
    · rw [zero_div]
  · -- without mass every kept probability is zero already
    rename_i hzero
    refine ⟨hlen, fun i p hp => ?_⟩
    rw [hentry i p hp]
    split
    · rename_i hmem
      have hle : p ≤ mass front := List.single_le_sum (fun q hq => by
        obtain ⟨x, hx, rfl⟩ := List.mem_map.1 hq
        exact hfront x hx) p (List.mem_map.2 ⟨(i, p), hmem, rfl⟩)
      have hp0 : p = 0 := le_antisymm (hle.trans (hsum ▸ not_lt.1 hzero)) (hfront (i, p) hmem)
      rw [hp0, zero_div]
    · rfl

/-- Whether or not the shortcut is taken, the filter keeps a prefix of a descending order of all indices,
divided by its mass: the shortest with the mass asked for, or everything when that has less. -/
theorem applyTopP_nucleus (s : SortDesc) (probs : List ℚ) (hnn : ∀ p ∈ probs, 0 ≤ p) (topP : ℚ) (htop : 0 < topP) :
    ∃ order m, order.Perm (indexed probs) ∧ order.Pairwise (fun a b => b.2 ≤ a.2) ∧
      applyTopP s probs topP = keepTopPPrefix probs order topP ∧
      ((topP ≤ mass (order.take m) ∧ ∀ m' < m, mass (order.take m') < topP) ∨
        (mass order < topP ∧ m = order.length)) ∧
      (applyTopP s probs topP).length = probs.length ∧
      ∀ i p, probs[i]? = some p →
        (applyTopP s probs topP)[i]? = some (if (i, p) ∈ order.take m then p / mass (order.take m) else 0) := by
  obtain ⟨order, hperm, hdesc, hout⟩ := applyTopP_order s probs htop
  have hsub : ∀ x ∈ order.take (keepCount topP 0 order), x ∈ indexed probs := fun x hx =>
    hperm.mem_iff.1 (List.mem_of_mem_take hx)
  have hnodup : ((order.take (keepCount topP 0 order)).map (·.1)).Nodup :=
    ((hperm.map _).nodup_iff.2 (indexed_keys_nodup probs)).sublist ((List.take_sublist _ _).map _)
  obtain ⟨hlen, hentry⟩ := renormalize_front hsub hnodup hnn
  have hshort : ∀ m' < keepCount topP 0 order, mass (order.take m') < topP := fun m' hm' => by
    have h := keepCount_short htop 0 order m' hm'
    rwa [zero_add] at h
  refine ⟨order, keepCount topP 0 order, hperm, hdesc, hout, ?_, hout ▸ hlen, hout ▸ hentry⟩
  rcases keepCount_reach topP 0 order with hreach | hall
  · exact Or.inl ⟨by rwa [zero_add] at hreach, hshort⟩
  · rcases le_or_gt topP (mass order) with h | h
    · exact Or.inl ⟨by rw [hall, List.take_length]; exact h, hshort⟩
    · exact Or.inr ⟨h, hall⟩

/-- The stable sort is such a sort. -/
def stableSort : SortDesc where
  sort l := l.mergeSort fun a b => b.2 ≤ a.2
  perm l := List.mergeSort_perm l _
  desc l := mergeSort_desc Prod.snd l

theorem applyTopP_nucleus_half : ∃ order : List (Nat × ℚ), order.Perm (indexed [1/8, 5/8, 1/4]) ∧
    applyTopP stableSort [1/8, 5/8, 1/4] (1/2) = keepTopPPrefix [1/8, 5/8, 1/4] order (1/2) := by
  obtain ⟨order, _, hperm, -, hout, -⟩ :=
    applyTopP_nucleus stableSort [1/8, 5/8, 1/4] (by simp; norm_num) (1/2) (by norm_num)
  exact ⟨order, hperm, hout⟩

end Oxydllm.Sampling
