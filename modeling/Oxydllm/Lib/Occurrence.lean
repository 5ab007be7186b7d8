/-
# Oxydllm.Lib.Occurrence — where patterns occur in a text that grows.

`find` is the first place a pattern occurs, `earliest` the first of any of a list of patterns. A text is
`Closed` up to `n` when no pattern that has begun before `n` can still be completed by what follows; what is
in front of `n` then never takes part in an occurrence again (`occursAt_append`).
-/
import Mathlib.Data.List.Basic
import Mathlib.Data.List.Infix
import Mathlib.Data.List.Range

namespace Oxydllm.Occurrence

variable {α : Type}

/-- The pattern `p` occurs in `u` at `i`. -/
def OccursAt (p u : List α) (i : Nat) : Prop := p <+: u.drop i

/-- None of the patterns occurs. -/
def Free (ps : List (List α)) (u : List α) : Prop := ∀ p ∈ ps, ∀ i, ¬ OccursAt p u i

/-- No pattern begun before `n` is still open at the end of the text. -/
def Closed (ps : List (List α)) (u : List α) (n : Nat) : Prop := ∀ p ∈ ps, ∀ i < n, ¬ u.drop i <+: p

/-! ## Occurrences -/

theorem OccursAt.end_le {p u : List α} {i : Nat} (hp : p ≠ []) (h : OccursAt p u i) :
    i + p.length ≤ u.length := by
  have hle := List.IsPrefix.length_le h
  have hpos := List.length_pos_iff.2 hp
  rw [List.length_drop] at hle
  omega

theorem OccursAt.append {p u : List α} {i : Nat} (h : OccursAt p u i) (v : List α) (hi : i ≤ u.length) :
    OccursAt p (u ++ v) i := by
  unfold OccursAt
  rw [List.drop_append_of_le_length hi]
  exact h.trans (List.prefix_append _ _)

/-- An occurrence that ends within the first `n` elements is one in them. -/
theorem OccursAt.take {p u : List α} {i n : Nat} (h : OccursAt p u i) (hn : i + p.length ≤ n) :
    OccursAt p (u.take n) i := by
  unfold OccursAt at h ⊢
  rw [List.drop_take, List.prefix_take_iff]
  exact ⟨h, by omega⟩

theorem OccursAt.of_take {p u : List α} {i n : Nat} (h : OccursAt p (u.take n) i) : OccursAt p u i := by
  unfold OccursAt at h ⊢
  rw [List.drop_take] at h
  exact h.trans (List.take_prefix _ _)

theorem occursAt_drop {p u : List α} {n i : Nat} : OccursAt p (u.drop n) i ↔ OccursAt p u (n + i) := by
  unfold OccursAt
  rw [List.drop_drop]

/-- What occurs in no part of a text occurs in none of its stretches. -/
theorem Free.stretch {ps : List (List α)} {u v w : List α} (h : Free ps (u ++ v ++ w)) : Free ps v := by
  intro p hp i hocc
  rcases Nat.lt_or_ge v.length i with hlt | hle
  · -- only the empty pattern occurs behind the end, and it occurs everywhere
    unfold OccursAt at hocc
    rw [List.drop_eq_nil_of_le hlt.le, List.prefix_nil] at hocc
    exact h p hp 0 (hocc ▸ List.nil_prefix)
  · refine h p hp (u.length + i) ?_
    rw [List.append_assoc, ← occursAt_drop, List.drop_left]
    exact hocc.append w hle

/-- Behind a closed stretch without occurrences, a new one starts after the stretch. -/
theorem occursAt_append {ps : List (List α)} {u d : List α} {n : Nat} (hfree : Free ps u)
    (hclosed : Closed ps u n) (hn : n ≤ u.length) {p : List α} (hp : p ∈ ps) {i : Nat}
    (h : OccursAt p (u ++ d) i) : n ≤ i := by
  by_contra hlt
  have hi : i ≤ u.length := by omega
  unfold OccursAt at h
  rw [List.drop_append_of_le_length hi] at h
  -- the pattern and what is left of the old text are both prefixes of what is there now
  rcases List.prefix_or_prefix_of_prefix h (List.prefix_append (u.drop i) d) with hin | hopen
  · exact hfree p hp i hin
  · exact hclosed p hp i (by omega) hopen

/-- A pattern does not occur in a text between two others, of which the first lacks its first element and
the second all of them, when it does not in the text alone. -/
theorem not_occursAt_between {c : α} {p a t b : List α} (hp : p = c :: p.tail) (ha : c ∉ a)
    (hb : ∀ x ∈ b, x ∉ p) (ht : ∀ i, ¬ OccursAt p t i) (i : Nat) : ¬ OccursAt p (a ++ (t ++ b)) i := by
  obtain ⟨q, rfl⟩ : ∃ q, p = c :: q := ⟨_, hp⟩
  intro hocc
  rcases Nat.lt_or_ge i a.length with hlt | hle
  · unfold OccursAt at hocc
    rw [List.drop_append_of_le_length hlt.le, List.drop_eq_getElem_cons hlt, List.cons_append,
      List.cons_prefix_cons] at hocc
    exact ha (hocc.1 ▸ List.getElem_mem hlt)
  · obtain ⟨j, rfl⟩ := Nat.exists_eq_add_of_le hle
    rw [← occursAt_drop, List.drop_left] at hocc
    unfold OccursAt at hocc
    rcases Nat.lt_or_ge t.length j with hlt | hle
    · rw [List.drop_append, List.drop_eq_nil_of_le hlt.le, List.nil_append] at hocc
      exact hb c (List.mem_of_mem_drop (hocc.subset List.mem_cons_self)) List.mem_cons_self
    · rw [List.drop_append_of_le_length hle] at hocc
      rcases List.prefix_or_prefix_of_prefix hocc (List.prefix_append (t.drop j) b) with hin | ⟨r, hr⟩
      · exact ht j hin
      · rw [← hr, List.prefix_append_right_inj] at hocc
        cases r with
        | nil =>
            rw [List.append_nil] at hr
            exact ht j (hr ▸ List.prefix_rfl)
        | cons d r =>
            refine hb d (hocc.subset List.mem_cons_self) ?_
            rw [← hr]
            exact List.mem_append_right _ List.mem_cons_self

/-! ## The first occurrence -/

variable [DecidableEq α]

/-- `str::find`. -/
def find (p : List α) : List α → Option Nat
  | [] => if p = [] then some 0 else none
  | c :: u => if p.isPrefixOf (c :: u) then some 0 else (find p u).map (· + 1)

theorem find_none {p u : List α} (h : find p u = none) (i : Nat) : ¬ OccursAt p u i := by
  induction u generalizing i with
  | nil =>
      unfold find at h
      intro hocc
      unfold OccursAt at hocc
      rw [List.drop_nil, List.prefix_nil] at hocc
      rw [if_pos hocc] at h
      cases h
  | cons c u ih =>
      unfold find at h
      by_cases hhead : p.isPrefixOf (c :: u) = true
      · rw [if_pos hhead] at h
        cases h
      · rw [if_neg hhead] at h
        cases i with
        | zero => exact fun hocc => hhead (List.isPrefixOf_iff_prefix.2 hocc)
        | succ i => exact ih (Option.map_eq_none_iff.1 h) i

theorem find_some {p u : List α} {i : Nat} (h : find p u = some i) :
    OccursAt p u i ∧ ∀ j, OccursAt p u j → i ≤ j := by
  induction u generalizing i with
  | nil =>
      unfold find at h
      obtain ⟨rfl, hi⟩ := Option.ite_none_right_eq_some.1 h
      cases hi
      exact ⟨List.nil_prefix, fun _ _ => Nat.zero_le _⟩
  | cons c u ih =>
      unfold find at h
      by_cases hp : p.isPrefixOf (c :: u) = true
      · rw [if_pos hp] at h
        cases h
        exact ⟨List.isPrefixOf_iff_prefix.1 hp, fun _ _ => Nat.zero_le _⟩
      · rw [if_neg hp] at h
        obtain ⟨k, hk, rfl⟩ := Option.map_eq_some_iff.1 h
        obtain ⟨hocc, hfirst⟩ := ih hk
        refine ⟨hocc, fun j hj => ?_⟩
        cases j with
        | zero => exact absurd (List.isPrefixOf_iff_prefix.2 hj) hp
        | succ j => exact Nat.succ_le_succ (hfirst j hj)

theorem find_eq_none {p u : List α} (h : ∀ i, ¬ OccursAt p u i) : find p u = none := by
  cases hf : find p u with
  | none => rfl
  | some i => exact absurd (find_some hf).1 (h i)

theorem find_eq_some {p u : List α} {i : Nat} (h : OccursAt p u i) (hmin : ∀ j, OccursAt p u j → i ≤ j) :
    find p u = some i := by
  cases hf : find p u with
  | none => exact absurd h (find_none hf i)
  | some j =>
      obtain ⟨hocc, hfirst⟩ := find_some hf
      rw [Nat.le_antisymm (hfirst i h) (hmin j hocc)]

/-- A pattern whose first element does not come back in it is found where it stands, behind a text it does
not occur in. -/
theorem find_behind {c : α} {p u : List α} (w : List α) (hp : p = c :: p.tail) (hq : c ∉ p.tail)
    (hfree : ∀ i, ¬ OccursAt p u i) : find p (u ++ (p ++ w)) = some u.length := by
  obtain ⟨q, rfl⟩ : ∃ q, p = c :: q := ⟨_, hp⟩
  rw [List.tail_cons] at hq
  apply find_eq_some
  · unfold OccursAt
    rw [List.drop_left]
    exact List.prefix_append _ _
  · intro j hocc
    by_contra hlt
    have hj : j < u.length := not_le.1 hlt
    unfold OccursAt at hocc
    rw [List.drop_append_of_le_length hj.le] at hocc
    rcases List.prefix_or_prefix_of_prefix hocc (List.prefix_append (u.drop j) _) with hin | ⟨r, hr⟩
    · exact hfree j hin
    · -- what is left of the text begins the pattern, so that its first element comes back behind
      have hrest : r <+: c :: q ++ w := by
        rw [← List.prefix_append_right_inj (u.drop j), hr]
        exact hocc
      cases r with
      | nil =>
          rw [List.append_nil] at hr
          exact hfree j (hr ▸ List.prefix_rfl)
      | cons d r =>
          rw [List.cons_append, List.cons_prefix_cons] at hrest
          rw [List.drop_eq_getElem_cons hj, List.cons_append] at hr
          refine hq ?_
          rw [← (List.cons.inj hr).2, ← hrest.1]
          exact List.mem_append_right _ List.mem_cons_self

/-- The first place where one of the patterns occurs. -/
def earliest (ps : List (List α)) (u : List α) : Option Nat := (ps.filterMap (find · u)).min?

theorem earliest_none_iff {ps : List (List α)} {u : List α} : earliest ps u = none ↔ Free ps u := by
  unfold earliest
  rw [List.min?_eq_none_iff, List.filterMap_eq_nil_iff]
  constructor
  · exact fun h p hp => find_none (h p hp)
  · intro h p hp
    cases hf : find p u with
    | none => rfl
    | some i => exact absurd (find_some hf).1 (h p hp i)

theorem earliest_some_iff {ps : List (List α)} {u : List α} {i : Nat} :
    earliest ps u = some i ↔
      (∃ p ∈ ps, OccursAt p u i) ∧ ∀ p ∈ ps, ∀ j, OccursAt p u j → i ≤ j := by
  unfold earliest
  rw [List.min?_eq_some_iff]
  constructor
  · rintro ⟨hmem, hmin⟩
    obtain ⟨p, hp, hf⟩ := List.mem_filterMap.1 hmem
    refine ⟨⟨p, hp, (find_some hf).1⟩, fun q hq j hj => ?_⟩
    cases hfq : find q u with
    | none => exact absurd hj (find_none hfq j)
    | some k =>
        exact (hmin k (List.mem_filterMap.2 ⟨q, hq, hfq⟩)).trans ((find_some hfq).2 j hj)
  · rintro ⟨⟨p, hp, hocc⟩, hmin⟩
    cases hf : find p u with
    | none => exact absurd hocc (find_none hf i)
    | some k =>
        obtain ⟨hk, hfirst⟩ := find_some hf
        have heq : k = i := Nat.le_antisymm (hfirst i hocc) (hmin p hp k hk)
        refine ⟨List.mem_filterMap.2 ⟨p, hp, heq ▸ hf⟩, fun j hj => ?_⟩
        obtain ⟨q, hq, hfq⟩ := List.mem_filterMap.1 hj
        exact hmin q hq j (find_some hfq).1

/-! ## The suffix that may open a pattern -/

/-- Length of the longest suffix of `u` that is a proper prefix of `p`. -/
def longestOpening (u p : List α) : Nat :=
  ((List.range' 1 (p.length - 1)).reverse.find? fun n => (p.take n).isSuffixOf u).getD 0

theorem longestOpening_le (u p : List α) : longestOpening u p ≤ u.length := by
  unfold longestOpening
  cases hf : (List.range' 1 (p.length - 1)).reverse.find? fun n => (p.take n).isSuffixOf u with
  | none => exact Nat.zero_le _
  | some n =>
      have hsuf := List.find?_some hf
      have hmem := List.mem_of_find?_eq_some hf
      rw [List.mem_reverse, List.mem_range'_1] at hmem
      have hle := (List.isSuffixOf_iff_suffix.1 hsuf).length_le
      rw [List.length_take] at hle
      show n ≤ u.length
      omega

/-- Every suffix that opens the pattern is at most that long. -/
theorem le_longestOpening {u p w : List α} (hw : w ≠ []) (hsuf : w <:+ u) (hpre : w <+: p)
    (hproper : w.length < p.length) : w.length ≤ longestOpening u p := by
  have hpos := List.length_pos_iff.2 hw
  have htake : p.take w.length = w := (List.prefix_iff_eq_take.1 hpre).symm
  unfold longestOpening
  cases hf : (List.range' 1 (p.length - 1)).reverse.find? fun n => (p.take n).isSuffixOf u with
  | none =>
      have hmem : w.length ∈ (List.range' 1 (p.length - 1)).reverse := by
        rw [List.mem_reverse, List.mem_range'_1]
        omega
      have hnot := List.find?_eq_none.1 hf _ hmem
      rw [htake] at hnot
      exact absurd (List.isSuffixOf_iff_suffix.2 hsuf) hnot
  | some n =>
      obtain ⟨-, before, after, heq, hnot⟩ := List.find?_eq_some_iff_append.1 hf
      show w.length ≤ n
      by_contra hgt
      -- a longer suffix would have been tried before
      have hsorted : (List.range' 1 (p.length - 1)).reverse.Pairwise (· > ·) :=
        List.pairwise_reverse.2 List.pairwise_lt_range'
      have hmem : w.length ∈ before ++ n :: after := by
        rw [← heq, List.mem_reverse, List.mem_range'_1]
        omega
      rw [heq, List.pairwise_append] at hsorted
      rcases List.mem_append.1 hmem with hb | hb
      · have := hnot _ hb
        rw [htake, List.isSuffixOf_iff_suffix.2 hsuf] at this
        cases this
      · rcases List.mem_cons.1 hb with rfl | ha
        · omega
        · have := List.rel_of_pairwise_cons hsorted.2.1 ha
          omega

/-- What is in front of every suffix that may open a pattern is closed. -/
theorem Closed.step {ps : List (List α)} {u d : List α} {n keep : Nat} (hclosed : Closed ps u n)
    (hn : n ≤ u.length) (hfree : Free ps (u ++ d))
    (hkeep : ∀ p ∈ ps, longestOpening ((u ++ d).drop n) p ≤ keep) :
    Closed ps (u ++ d) ((u ++ d).length - keep) := by
  intro p hp i hi hopen
  by_cases hin : i < n
  · refine hclosed p hp i hin ((?_ : _ <+: _).trans hopen)
    rw [List.drop_append_of_le_length (by omega)]
    exact List.prefix_append _ _
  · have hsuf : (u ++ d).drop i <:+ (u ++ d).drop n := by
      have : i = n + (i - n) := by omega
      rw [this, ← List.drop_drop]
      exact List.drop_suffix _ _
    have hlen : ((u ++ d).drop i).length = (u ++ d).length - i := List.length_drop
    have hne : (u ++ d).drop i ≠ [] := List.ne_nil_of_length_pos (by omega)
    have hproper : ((u ++ d).drop i).length < p.length := by
      refine lt_of_le_of_ne hopen.length_le fun heq => ?_
      exact hfree p hp i (by
        unfold OccursAt
        rw [hopen.eq_of_length heq])
    have := (le_longestOpening hne hsuf hopen hproper).trans (hkeep p hp)
    omega

end Oxydllm.Occurrence
