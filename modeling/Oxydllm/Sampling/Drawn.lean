/-
# Oxydllm.Sampling.Drawn — what `sample` returns is allowed and has a positive probability.

The adjustments move finite logits and leave minus infinity alone (`adjusted_finite`), softmax is positive exactly
on the finite ones (`softmaxProbs_positive`), and each filter keeps a positive probability and makes none
(`Narrows`). Only `min_p` above one leaves nothing to draw (`sample_empty`).
-/
import Oxydllm.Lib.Extrema
import Oxydllm.Sampling.Sample

namespace Oxydllm.Sampling

open Extrema
open Kv (Token)

/-! ## Finite logits -/

/-- Where a row is finite. -/
def finite (row : List Logit) : List Bool := row.map fun l => decide (l ≠ ⊥)

theorem finite_getElem? {row : List Logit} {i : Nat} :
    (finite row)[i]? = some true ↔ ∃ q : ℚ, row[i]? = some (q : Logit) := by
  unfold finite
  rw [List.getElem?_map, Option.map_eq_some_iff]
  constructor
  · rintro ⟨l, hl, hne⟩
    obtain ⟨q, rfl⟩ := WithBot.ne_bot_iff_exists.1 (of_decide_eq_true hne)
    exact ⟨q, hl⟩
  · rintro ⟨q, hq⟩
    exact ⟨q, hq, decide_eq_true WithBot.coe_ne_bot⟩

/-- The tokens a mask allows. -/
def Permitted (allowed : Option (List Bool)) (i : Nat) : Prop := ∀ mask, allowed = some mask → mask[i]? = some true

/-- What is finite under a mask is allowed, and was finite. -/
theorem finite_maskLogits {logits : List Logit} {mask : List Bool} (h : mask.length = logits.length) {i : Nat} :
    (finite (maskLogits logits mask))[i]? = some true ↔ mask[i]? = some true ∧ (finite logits)[i]? = some true := by
  induction logits generalizing mask i with
  | nil =>
      obtain rfl := List.length_eq_zero_iff.1 h
      simp [maskLogits, finite]
  | cons l logits ih =>
      obtain ⟨ok, mask, rfl⟩ := List.exists_cons_of_length_eq_add_one h
      have hrest : mask.length = logits.length := Nat.succ.inj h
      rw [maskLogits]
      cases i with
      | zero => cases ok <;> simp [finite]
      | succ i => exact ih hrest

theorem finite_modify {f : Logit → Logit} (hf : ∀ l, f l = ⊥ ↔ l = ⊥) (row : List Logit) (i : Nat) :
    finite (row.modify i f) = finite row := by
  unfold finite
  refine List.ext_getElem? fun j => ?_
  rw [List.getElem?_map, List.getElem?_map, List.getElem?_modify]
  cases row[j]? with
  | none => rfl
  | some l =>
      by_cases hij : i = j
      · simp [hij, hf]
      · simp [hij]

theorem finite_foldl_modify {β : Type} (key : β → Nat) {f : β → Logit → Logit} (hf : ∀ b l, f b l = ⊥ ↔ l = ⊥)
    (bs : List β) (row : List Logit) :
    finite (bs.foldl (fun row b => row.modify (key b) (f b)) row) = finite row := by
  induction bs generalizing row with
  | nil => rfl
  | cons b rest ih => rw [List.foldl_cons, ih, finite_modify (hf b)]

theorem penalized_eq_bot (factor : ℚ) (l : Logit) : penalized factor l = ⊥ ↔ l = ⊥ := by
  unfold penalized
  split <;> exact WithBot.map_eq_bot_iff

/-- No penalty and no bias makes a logit infinite, or one finite. -/
theorem adjusted_finite (params : SamplingParams) (prevTokens : List Token)
    (tokenCounts : Option (List (Token × Nat))) (logits : List Logit) :
    finite (adjusted params prevTokens tokenCounts logits) = finite logits := by
  have hcpu : ∀ (logits : List Logit) (tokens : List Token) (penalty : ℚ),
      finite (applyRepetitionPenaltyCpu logits tokens penalty) = finite logits := fun logits tokens penalty =>
    finite_foldl_modify (fun tok => tok) (fun _ => penalized_eq_bot penalty) tokens logits
  have hcounts : ∀ (logits : List Logit) (counts : List (Token × Nat)) (penalty : ℚ),
      finite (applyRepetitionPenaltyWithCounts logits counts penalty) = finite logits := fun logits counts penalty =>
    finite_foldl_modify (fun entry : Token × Nat => entry.1) (fun entry => penalized_eq_bot (penalty ^ entry.2)) counts
      logits
  have hrepetition : ∀ logits : List Logit, finite (repetitionPenalty logits params.repetitionPenalty
      params.repetitionWindow prevTokens tokenCounts) = finite logits := by
    intro logits
    unfold repetitionPenalty
    dsimp only
    split
    · split
      · cases tokenCounts with
        | none => exact hcpu _ _ _
        | some counts => exact hcounts _ _ _
      · exact hcpu _ _ _
    · rfl
  have hfrequency : ∀ logits : List Logit, finite (frequencyPresencePenalty logits params.frequencyPenalty
      params.presencePenalty prevTokens tokenCounts) = finite logits := by
    intro logits
    unfold frequencyPresencePenalty
    split
    · exact finite_foldl_modify (fun entry : Token × Nat => entry.1) (fun _ _ => WithBot.map_eq_bot_iff) _ logits
    · rfl
  unfold adjusted
  dsimp only
  cases params.logitBias with
  | none => rw [hfrequency, hrepetition]
  | some bias =>
      have hbias := finite_foldl_modify (fun entry : Token × ℚ => entry.1) (f := fun entry => WithBot.map fun l => l + entry.2)
        (fun _ _ => WithBot.map_eq_bot_iff) bias
      exact (hbias _).trans ((hfrequency _).trans (hrepetition _))

/-! ## Maxima -/

theorem foldl_laterMax (l : List (Logit × Nat)) (hne : l ≠ []) :
    ∃ b, l.foldl laterMax none = some b ∧ b ∈ l ∧ ∀ x ∈ l, x.1 ≤ b.1 := by
  induction l using List.reverseRecOn with
  | nil => exact absurd rfl hne
  | append_singleton l x ih =>
      rw [List.foldl_append, List.foldl_cons, List.foldl_nil]
      rcases List.eq_nil_or_concat' l with rfl | ⟨l', y, hl⟩
      · exact ⟨x, rfl, by simp, by simp⟩
      · obtain ⟨b, hb, hmem, hall⟩ := ih (by rw [hl]; simp)
        rw [hb, laterMax]
        by_cases hlt : x.1 < b.1
        · refine ⟨b, if_pos hlt, List.mem_append_left _ hmem, fun z hz => ?_⟩
          rcases List.mem_append.1 hz with hz | hz
          · exact hall z hz
          · exact (List.mem_singleton.1 hz) ▸ hlt.le
        · refine ⟨x, if_neg hlt, List.mem_append_right _ (List.mem_singleton_self x), fun z hz => ?_⟩
          rcases List.mem_append.1 hz with hz | hz
          · exact (hall z hz).trans (not_lt.1 hlt)
          · exact (List.mem_singleton.1 hz) ▸ le_refl _

theorem lastMax_spec {row : List Logit} (hne : row ≠ []) :
    ∃ l, row[lastMax row]? = some l ∧ ∀ l' ∈ row, l' ≤ l := by
  obtain ⟨⟨l, i⟩, hb, hmem, hall⟩ := foldl_laterMax row.zipIdx (by simpa using hne)
  refine ⟨l, ?_, fun l' hl' => ?_⟩
  · rw [lastMax, hb]
    exact List.mem_zipIdx_iff_getElem?.1 hmem
  · obtain ⟨j, hj⟩ := List.getElem?_of_mem hl'
    exact hall (l', j) (List.mem_zipIdx_iff_getElem?.2 hj)

/-- A maximum of a row with a finite logit is finite. -/
theorem finite_of_max {row : List Logit} (h : true ∈ finite row) {i : Nat} {l : Logit} (hi : row[i]? = some l)
    (hall : ∀ l' ∈ row, l' ≤ l) : (finite row)[i]? = some true := by
  obtain ⟨j, hj⟩ := List.getElem?_of_mem h
  obtain ⟨q, hq⟩ := finite_getElem?.1 hj
  have hle := hall _ (List.mem_of_getElem? hq)
  obtain ⟨m, rfl⟩ := WithBot.ne_bot_iff_exists.1 (ne_of_gt (lt_of_lt_of_le (WithBot.bot_lt_coe q) hle))
  exact finite_getElem?.2 ⟨m, hi⟩

/-! ## Softmax -/

theorem expLogit_pos (env : Sampler) (l : Logit) : 0 < env.expLogit l ↔ l ≠ ⊥ := by
  induction l using WithBot.recBotCoe with
  | bot => exact ⟨fun h => absurd h (lt_irrefl 0), fun h => absurd rfl h⟩
  | coe x => exact ⟨fun _ => WithBot.coe_ne_bot, fun _ => env.exp_pos x⟩

theorem expLogit_nonneg (env : Sampler) (l : Logit) : 0 ≤ env.expLogit l := by
  induction l using WithBot.recBotCoe with
  | bot => exact le_refl 0
  | coe x => exact (env.exp_pos x).le

theorem softmaxProbs_nonneg (env : Sampler) (logits : List Logit) (temperature : ℚ) :
    ∀ p ∈ softmaxProbs env logits temperature, 0 ≤ p := by
  intro p hp
  obtain ⟨e, he, rfl⟩ := List.mem_map.1 hp
  obtain ⟨l, -, rfl⟩ := List.mem_map.1 he
  exact mul_nonneg (expLogit_nonneg env _) (one_div_nonneg.2 (le_max_of_le_right (by norm_num)))

/-- Softmax is positive on the finite logits, and there only. -/
theorem softmaxProbs_positive (env : Sampler) {logits : List Logit} (h : true ∈ finite logits) (temperature : ℚ) :
    (softmaxProbs env logits temperature).map (fun p => decide (0 < p)) = finite logits := by
  obtain ⟨j, hj⟩ := List.getElem?_of_mem h
  obtain ⟨q, hq⟩ := finite_getElem?.1 hj
  have hle : (q : Logit) ≤ logits.foldl max ⊥ := (le_foldl_max ⊥ logits).2 _ (List.mem_of_getElem? hq)
  obtain ⟨m, hm⟩ := WithBot.ne_bot_iff_exists.1 (ne_of_gt (lt_of_lt_of_le (WithBot.bot_lt_coe q) hle))
  unfold softmaxProbs finite
  dsimp only
  rw [List.map_map, List.map_map, ← hm]
  refine List.map_congr_left fun l _ => ?_
  have hscale : ∀ s : ℚ, 0 < 1 / max s (1 / 10000000000) := fun s =>
    one_div_pos.2 (lt_max_of_lt_right (by norm_num))
  refine decide_eq_decide.2 ?_
  rw [mul_pos_iff_of_pos_right (hscale _), expLogit_pos]
  exact not_congr WithBot.map_eq_bot_iff

/-! ## The filters -/

/-- What a filter leaves: nothing that was not positive becomes so, and something stays. -/
structure Narrows (probs out : List ℚ) : Prop where
  nonneg : ∀ p ∈ out, 0 ≤ p
  was : ∀ {i : Nat} {q : ℚ}, out[i]? = some q → 0 < q → ∃ p, probs[i]? = some p ∧ 0 < p
  left : ∃ q ∈ out, 0 < q

theorem Narrows.trans {probs mid out : List ℚ} (h : Narrows probs mid) (h' : Narrows mid out) : Narrows probs out where
  nonneg := h'.nonneg
  was hq hpos := by
    obtain ⟨p, hp, hpos'⟩ := h'.was hq hpos
    exact h.was hp hpos'
  left := h'.left

theorem narrows_refl {probs : List ℚ} (hnn : ∀ p ∈ probs, 0 ≤ p) (hpos : ∃ p ∈ probs, 0 < p) : Narrows probs probs :=
  ⟨hnn, fun hq hpos => ⟨_, hq, hpos⟩, hpos⟩

/-- A kept set with something positive in it. -/
theorem narrows_kept {keep : Nat → ℚ → Bool} {probs : List ℚ} (hnn : ∀ p ∈ probs, 0 ≤ p)
    (hpos : ∃ p ∈ kept keep 0 probs, 0 < p) :
    Narrows probs ((kept keep 0 probs).map fun p => p / (kept keep 0 probs).sum) := by
  have hkept : ∀ p ∈ kept keep 0 probs, 0 ≤ p := kept_nonneg hnn
  have hsum : 0 < (kept keep 0 probs).sum := by
    obtain ⟨p, hp, hp0⟩ := hpos
    exact hp0.trans_le (List.single_le_sum hkept p hp)
  refine ⟨fun p hp => ?_, fun {i q} hq hq0 => ?_, ?_⟩
  · obtain ⟨r, hr, rfl⟩ := List.mem_map.1 hp
    exact div_nonneg (hkept r hr) hsum.le
  · rw [List.getElem?_map, kept_getElem?, Option.map_map, Option.map_eq_some_iff] at hq
    obtain ⟨p, hp, rfl⟩ := hq
    exact ⟨p, hp, (kept_stays hnn hq0).2.1⟩
  · obtain ⟨p, hp, hp0⟩ := hpos
    exact ⟨_, List.mem_map_of_mem hp, div_pos hp0 hsum⟩

/-- The largest of probabilities of which one is positive is one of them. -/
theorem foldl_max_pos {probs : List ℚ} (hpos : ∃ p ∈ probs, 0 < p) :
    0 < probs.foldl max 0 ∧ probs.foldl max 0 ∈ probs := by
  obtain ⟨p, hp, hp0⟩ := hpos
  have hmax : 0 < probs.foldl max 0 := hp0.trans_le ((le_foldl_max 0 probs).2 p hp)
  exact ⟨hmax, (foldl_max_mem 0 probs).resolve_left (ne_of_gt hmax)⟩

theorem applyMinP_narrows {probs : List ℚ} (hnn : ∀ p ∈ probs, 0 ≤ p) (hpos : ∃ p ∈ probs, 0 < p) {minP : ℚ}
    (hminP : minP ≤ 1) : Narrows probs (applyMinP probs minP) := by
  obtain ⟨hmax, hmem⟩ := foldl_max_pos hpos
  obtain ⟨i, hi⟩ := List.getElem?_of_mem hmem
  unfold applyMinP
  dsimp only
  rw [keepWhere_eq _ 0 0, zero_add, renormalizeInPlace_sum (kept_nonneg hnn)]
  refine narrows_kept hnn ⟨probs.foldl max 0, List.mem_of_getElem? (i := i) ?_, hmax⟩
  rw [kept_getElem?, hi, Option.map_some, if_pos]
  exact decide_eq_true (mul_le_of_le_one_left hmax.le hminP)

theorem applyTopK_narrows {probs : List ℚ} (hnn : ∀ p ∈ probs, 0 ≤ p) (hpos : ∃ p ∈ probs, 0 < p) {k : Nat}
    (hk : 0 < k) (threadRand : UInt64) (seed : Option UInt64) (step : UInt64) :
    Narrows probs (applyTopK probs k threadRand seed step) := by
  rcases Nat.lt_or_ge k probs.length with hlt | hge
  · obtain ⟨keep, htop, hout⟩ := applyTopK_kept hnn hlt threadRand seed step
    rw [hout]
    refine narrows_kept hnn ?_
    have hcount : 0 < (kept keep 0 probs).countP fun p => 0 < p := by
      rw [htop.count]
      refine Nat.lt_min.2 ⟨hk, List.countP_pos_iff.2 ?_⟩
      simpa using hpos
    simpa using List.countP_pos_iff.1 hcount
  · rw [applyTopK, if_pos hge]
    exact narrows_refl hnn hpos

/-- Entries written over zeros and divided by their mass. -/
theorem narrows_front {probs out : List ℚ} (hnn : ∀ p ∈ probs, 0 ≤ p) {front : List (Nat × ℚ)}
    (hsub : ∀ y ∈ front, y ∈ indexed probs) (hpos : ∃ y ∈ front, 0 < y.2) (hlen : out.length = probs.length)
    (hentry : ∀ i p, probs[i]? = some p → out[i]? = some (if (i, p) ∈ front then p / mass front else 0)) :
    Narrows probs out := by
  have hfront : ∀ y ∈ front, 0 ≤ y.2 := fun y hy => hnn y.2 (List.mem_of_getElem? (mem_indexed.1 (hsub y hy)))
  obtain ⟨x, hx, hx0⟩ := hpos
  have hmass : 0 < mass front := hx0.trans_le (List.single_le_sum (fun q hq => by
    obtain ⟨y, hy, rfl⟩ := List.mem_map.1 hq
    exact hfront y hy) x.2 (List.mem_map_of_mem hx))
  have hat : ∀ {i : Nat} {q : ℚ}, out[i]? = some q → ∃ p, probs[i]? = some p ∧
      q = if (i, p) ∈ front then p / mass front else 0 := by
    intro i q hq
    have hi : i < probs.length := hlen ▸ (List.getElem?_eq_some_iff.1 hq).1
    have hp := List.getElem?_eq_getElem hi
    exact ⟨probs[i], hp, Option.some.inj (hq.symm.trans (hentry i probs[i] hp))⟩
  refine ⟨fun q hq => ?_, fun {i q} hq hq0 => ?_, ?_⟩
  · obtain ⟨i, hi⟩ := List.getElem?_of_mem hq
    obtain ⟨p, hp, rfl⟩ := hat hi
    split
    · exact div_nonneg (hnn p (List.mem_of_getElem? hp)) hmass.le
    · exact le_refl 0
  · obtain ⟨p, hp, rfl⟩ := hat hq
    refine ⟨p, hp, ?_⟩
    split at hq0
    · exact (div_pos_iff_of_pos_right hmass).1 hq0
    · exact absurd hq0 (lt_irrefl 0)
  · have hxp := hentry x.1 x.2 (mem_indexed.1 (hsub x hx))
    rw [if_pos hx] at hxp
    exact ⟨_, List.mem_of_getElem? hxp, div_pos hx0 hmass⟩

/-- A descending list starts with its largest entry, which is taken before the mass is asked for. -/
theorem keepCount_head (topP : ℚ) {l : List (Nat × ℚ)} (hdesc : l.Pairwise fun a b => b.2 ≤ a.2) {y : Nat × ℚ}
    (hy : y ∈ l) (hy0 : 0 < y.2) : ∃ x ∈ l.take (keepCount topP 0 l), 0 < x.2 := by
  obtain ⟨x, rest, rfl⟩ := List.exists_cons_of_ne_nil (List.ne_nil_of_mem hy)
  refine ⟨x, ?_, ?_⟩
  · rw [keepCount, if_neg (by simp), List.take_succ_cons]
    exact List.mem_cons_self
  · rcases List.mem_cons.1 hy with rfl | hy
    · exact hy0
    · exact hy0.trans_le ((List.pairwise_cons.1 hdesc).1 y hy)

/-- What is sorted: the candidates, or everything. -/
theorem applyTopP_chosen (s : SortDesc) (probs : List ℚ) (topP : ℚ) :
    ∃ chosen : List (Nat × ℚ), (∀ x ∈ chosen, x ∈ indexed probs) ∧ (chosen.map (·.1)).Nodup ∧
      (∀ x ∈ candidates probs, x ∈ chosen) ∧
        applyTopP s probs topP = keepTopPPrefix probs (s.sort chosen) topP := by
  have hcandidate : ∀ x ∈ candidates probs, x ∈ indexed probs := fun x hx => (List.mem_filter.1 hx).1
  unfold applyTopP
  dsimp only
  split
  · exact ⟨candidates probs, hcandidate, (indexed_keys_nodup probs).sublist (List.filter_sublist.map _),
      fun x hx => hx, rfl⟩
  · exact ⟨indexed probs, fun x hx => hx, indexed_keys_nodup probs, hcandidate, rfl⟩

/-- The entries of a prefix of what is sorted, divided by its mass. -/
theorem keepTopPPrefix_entries {probs : List ℚ} (hnn : ∀ p ∈ probs, 0 ≤ p) {chosen sorted : List (Nat × ℚ)}
    (hsub : ∀ x ∈ chosen, x ∈ indexed probs) (hnodup : (chosen.map (·.1)).Nodup) (hperm : sorted.Perm chosen)
    (topP : ℚ) :
    (∀ x ∈ sorted.take (keepCount topP 0 sorted), x ∈ indexed probs) ∧
      (keepTopPPrefix probs sorted topP).length = probs.length ∧
      ∀ i p, probs[i]? = some p → (keepTopPPrefix probs sorted topP)[i]? =
        some (if (i, p) ∈ sorted.take (keepCount topP 0 sorted) then
          p / mass (sorted.take (keepCount topP 0 sorted)) else 0) := by
  have hfront : ∀ x ∈ sorted.take (keepCount topP 0 sorted), x ∈ indexed probs := fun x hx =>
    hsub x (hperm.mem_iff.1 (List.mem_of_mem_take hx))
  have hkeys : ((sorted.take (keepCount topP 0 sorted)).map (·.1)).Nodup :=
    ((hperm.map _).nodup_iff.2 hnodup).sublist ((List.take_sublist _ _).map _)
  exact ⟨hfront, renormalize_front hfront hkeys hnn⟩

theorem applyTopP_narrows (s : SortDesc) {probs : List ℚ} (hnn : ∀ p ∈ probs, 0 ≤ p) (hpos : ∃ p ∈ probs, 0 < p)
    (topP : ℚ) : Narrows probs (applyTopP s probs topP) := by
  obtain ⟨hmax, hmem⟩ := foldl_max_pos hpos
  obtain ⟨i, hi⟩ := List.getElem?_of_mem hmem
  have hlargest : (i, probs.foldl max 0) ∈ candidates probs := by
    refine List.mem_filter.2 ⟨mem_indexed.2 hi, decide_eq_true ?_⟩
    exact mul_le_of_le_one_right hmax.le (by norm_num)
  obtain ⟨chosen, hsub, hnodup, hin, hout⟩ := applyTopP_chosen s probs topP
  have hperm := s.perm chosen
  obtain ⟨hfront, hlen, hentry⟩ := keepTopPPrefix_entries hnn hsub hnodup hperm topP
  rw [hout]
  have hhead := keepCount_head topP (s.desc chosen) (hperm.mem_iff.2 (hin _ hlargest)) hmax
  exact narrows_front hnn hfront hhead hlen hentry

theorem filtered_narrows (env : Sampler) (params : SamplingParams) (hminP : params.minP ≤ 1) (step : UInt64)
    {probs : List ℚ} (hnn : ∀ p ∈ probs, 0 ≤ p) (hpos : ∃ p ∈ probs, 0 < p) :
    Narrows probs (filtered env params step probs) := by
  have hm : ∃ mid, (if 0 < params.minP then applyMinP probs params.minP else probs) = mid ∧ Narrows probs mid := by
    refine ⟨_, rfl, ?_⟩
    split
    · exact applyMinP_narrows hnn hpos hminP
    · exact narrows_refl hnn hpos
  obtain ⟨mid, hmid, hnarrow⟩ := hm
  have hk : ∃ top, (if 0 < params.topK then applyTopK mid params.topK env.threadRand params.seed step else mid) = top ∧
      Narrows mid top := by
    refine ⟨_, rfl, ?_⟩
    split
    · rename_i hk
      exact applyTopK_narrows hnarrow.nonneg hnarrow.left hk _ _ _
    · exact narrows_refl hnarrow.nonneg hnarrow.left
  obtain ⟨top, htop, hnarrow'⟩ := hk
  unfold filtered
  dsimp only
  rw [hmid, htop]
  refine hnarrow.trans (hnarrow'.trans ?_)
  split
  · exact applyTopP_narrows env.sort hnarrow'.nonneg hnarrow'.left params.topP
  · exact narrows_refl hnarrow'.nonneg hnarrow'.left

/-! ## The draw -/

/-- Where the draw is passed for the first time, something was added. -/
theorem firstPast_spec {r cumulative : ℚ} (h : cumulative ≤ r) {i j : Nat} {probs : List ℚ}
    (hj : firstPast r cumulative i probs = some j) : ∃ n p, j = i + n ∧ probs[n]? = some p ∧ 0 < p := by
  induction probs generalizing cumulative i with
  | nil => cases hj
  | cons p rest ih =>
      rw [firstPast] at hj
      split at hj
      · rename_i hpast
        cases hj
        exact ⟨0, p, rfl, rfl, by linarith⟩
      · rename_i hnot
        obtain ⟨n, q, rfl, hq, hpos⟩ := ih (not_lt.1 hnot) hj
        exact ⟨n + 1, q, by omega, hq, hpos⟩

theorem lastPositive_spec {probs : List ℚ} (hpos : ∃ p ∈ probs, 0 < p) :
    ∃ i p, lastPositive probs = some i ∧ probs[i]? = some p ∧ 0 < p := by
  obtain ⟨p, hp, hp0⟩ := hpos
  obtain ⟨i, hi⟩ := List.getElem?_of_mem hp
  have hsome : (probs.zipIdx.reverse.find? fun x => 0 < x.1).isSome := by
    rw [List.find?_isSome]
    exact ⟨(p, i), List.mem_reverse.2 (List.mem_zipIdx_iff_getElem?.2 hi), decide_eq_true hp0⟩
  obtain ⟨⟨q, j⟩, hj⟩ := Option.isSome_iff_exists.1 hsome
  have hq := List.find?_some hj
  refine ⟨j, q, by rw [lastPositive, hj]; rfl, ?_, of_decide_eq_true hq⟩
  exact List.mem_zipIdx_iff_getElem?.1 (List.mem_reverse.1 (List.mem_of_find?_eq_some hj))

/-- A draw from probabilities of which one is positive has a positive one. -/
theorem categoricalSample_spec {probs : List ℚ} (hpos : ∃ p ∈ probs, 0 < p) {r : ℚ} (hr : 0 ≤ r) :
    ∃ i p, categoricalSample probs r = .ok i ∧ probs[i]? = some p ∧ 0 < p := by
  unfold categoricalSample
  cases hfirst : firstPast r 0 0 probs with
  | some i =>
      obtain ⟨n, p, rfl, hp, hp0⟩ := firstPast_spec hr hfirst
      exact ⟨0 + n, p, rfl, by rwa [Nat.zero_add], hp0⟩
  | none =>
      obtain ⟨i, p, hlast, hp, hp0⟩ := lastPositive_spec hpos
      exact ⟨i, p, by rw [hlast], hp, hp0⟩

theorem firstPast_zeros {r : ℚ} (hr : 0 ≤ r) (i : Nat) {probs : List ℚ} (h : ∀ p ∈ probs, p = 0) :
    firstPast r 0 i probs = none := by
  induction probs generalizing i with
  | nil => rfl
  | cons p rest ih =>
      obtain rfl := h p List.mem_cons_self
      rw [firstPast, zero_add, if_neg (not_lt.2 hr)]
      exact ih (i + 1) fun q hq => h q (List.mem_cons_of_mem _ hq)

/-- Nothing is drawn where nothing is positive. -/
theorem categoricalSample_zeros {probs : List ℚ} (h : ∀ p ∈ probs, p = 0) {r : ℚ} (hr : 0 ≤ r) :
    categoricalSample probs r = .error emptyDistribution := by
  have hlast : lastPositive probs = none := by
    unfold lastPositive
    rw [Option.map_eq_none_iff, List.find?_eq_none]
    intro x hx
    have hzero := h x.1 (List.mem_of_getElem? (List.mem_zipIdx_iff_getElem?.1 (List.mem_reverse.1 hx)))
    simp [hzero]
  unfold categoricalSample
  rw [firstPast_zeros hr 0 h, hlast]

/-! ## The four paths -/

/-- The row `sample` adjusts. -/
def masked (logits : List Logit) (allowed : Option (List Bool)) : List Logit :=
  match allowed with
  | none => logits
  | some mask => maskLogits logits mask

/-- The row the distribution is of. -/
def finalLogits (params : SamplingParams) (prevTokens : List Token) (tokenCounts : Option (List (Token × Nat)))
    (logits : List Logit) (allowed : Option (List Bool)) : List Logit :=
  adjusted params prevTokens tokenCounts (masked logits allowed)

theorem finite_masked {logits : List Logit} {allowed : Option (List Bool)}
    (h : ∀ mask, allowed = some mask → mask.length = logits.length) {i : Nat} :
    (finite (masked logits allowed))[i]? = some true ↔ Permitted allowed i ∧ (finite logits)[i]? = some true := by
  cases allowed with
  | none =>
      have hpermitted : Permitted none i := fun mask hmask => absurd hmask (Option.some_ne_none mask).symm
      exact ⟨fun hi => ⟨hpermitted, hi⟩, fun hi => hi.2⟩
  | some mask =>
      refine (finite_maskLogits (h mask rfl)).trans (and_congr_left fun _ => ⟨?_, fun hi => hi mask rfl⟩)
      rintro hi mask' heq
      cases heq
      exact hi

/-- A token of a row with a finite logit is finite there where it is a maximum. -/
theorem lastMax_finite {row : List Logit} (h : true ∈ finite row) : (finite row)[lastMax row]? = some true := by
  have hne : row ≠ [] := by
    rintro rfl
    cases h
  obtain ⟨l, hl, hall⟩ := lastMax_spec hne
  exact finite_of_max h hl hall

theorem argmax_finite (env : Sampler) {row : List Logit} (h : true ∈ finite row) :
    (finite row)[env.argmax row]? = some true := by
  have hne : row ≠ [] := by
    rintro rfl
    cases h
  obtain ⟨l, hl, hall⟩ := env.argmax_spec row hne
  exact finite_of_max h hl hall

theorem softmaxProbs_some (env : Sampler) {row : List Logit} (h : true ∈ finite row) (temperature : ℚ) :
    ∃ p ∈ softmaxProbs env row temperature, 0 < p := by
  rw [← softmaxProbs_positive env h temperature, List.mem_map] at h
  obtain ⟨p, hp, hpos⟩ := h
  exact ⟨p, hp, of_decide_eq_true hpos⟩

theorem finite_of_softmax (env : Sampler) {row : List Logit} (h : true ∈ finite row) {temperature : ℚ} {i : Nat}
    {p : ℚ} (hp : (softmaxProbs env row temperature)[i]? = some p) (hpos : 0 < p) : (finite row)[i]? = some true := by
  rw [← softmaxProbs_positive env h temperature, List.getElem?_map, hp, Option.map_some, decide_eq_true hpos]

/-- A token the final row has finite; where it was drawn, its probability after the filters is positive. -/
def Drawn (env : Sampler) (params : SamplingParams) (step : UInt64) (row : List Logit) (token : Token) : Prop :=
  (finite row)[token]? = some true ∧
    (params.temperature ≠ 0 →
      ∃ p, (filtered env params step (softmaxProbs env row params.temperature))[token]? = some p ∧ 0 < p)

theorem sampleAdjusted_drawn (env : Sampler) (params : SamplingParams)
    (hparams : params.temperature = 0 ∨ params.minP ≤ 1) (step : UInt64) {row : List Logit} (h : true ∈ finite row) :
    ∃ out, sampleAdjusted env params step row = .ok out ∧ Drawn env params step row out.token := by
  by_cases htemp : params.temperature = 0
  · unfold sampleAdjusted
    rw [if_pos htemp]
    dsimp only
    split
    · exact ⟨_, rfl, lastMax_finite h, fun hne => absurd htemp hne⟩
    · exact ⟨_, rfl, lastMax_finite h, fun hne => absurd htemp hne⟩
  · have hminP := hparams.resolve_left htemp
    have hnarrow := filtered_narrows env params hminP step (softmaxProbs_nonneg env row params.temperature)
      (softmaxProbs_some env h params.temperature)
    obtain ⟨token, q, htoken, hq, hq0⟩ := categoricalSample_spec hnarrow.left (env.draw_mem params.seed step).1
    obtain ⟨p, hp, hp0⟩ := hnarrow.was hq hq0
    have hfinite := finite_of_softmax env h hp hp0
    unfold sampleAdjusted
    rw [if_neg htemp]
    dsimp only
    rw [htoken]
    change ∃ out, (if 0 < params.topLogprobsK then _ else _) = Except.ok out ∧ _
    split
    · exact ⟨_, rfl, hfinite, fun _ => ⟨q, hq, hq0⟩⟩
    · exact ⟨_, rfl, hfinite, fun _ => ⟨q, hq, hq0⟩⟩

/-! ## The threshold above every probability -/

/-- `min_p` above one puts the threshold above the largest probability. -/
theorem applyMinP_zeros {probs : List ℚ} (hpos : ∃ p ∈ probs, 0 < p) {minP : ℚ} (hminP : 1 < minP) :
    ∀ p ∈ applyMinP probs minP, p = 0 := by
  obtain ⟨hmax, -⟩ := foldl_max_pos hpos
  have hkept : ∀ p ∈ kept (fun _ p => decide (minP * probs.foldl max 0 ≤ p)) 0 probs, p = 0 := by
    intro p hp
    obtain ⟨i, hi⟩ := List.getElem?_of_mem hp
    rw [kept_getElem?, Option.map_eq_some_iff] at hi
    obtain ⟨q, hq, rfl⟩ := hi
    have hle := (le_foldl_max 0 probs).2 q (List.mem_of_getElem? hq)
    exact if_neg (by simpa using hle.trans_lt (lt_mul_of_one_lt_left hmax hminP))
  unfold applyMinP
  dsimp only
  rw [keepWhere_eq _ 0 0, zero_add]
  have hsum : (kept (fun _ p => decide (minP * probs.foldl max 0 ≤ p)) 0 probs).sum = 0 := List.sum_eq_zero hkept
  rw [hsum, renormalizeInPlace, if_neg (lt_irrefl 0)]
  exact hkept

theorem applyTopK_zeros {probs : List ℚ} (h : ∀ p ∈ probs, p = 0) (k : Nat) (threadRand : UInt64)
    (seed : Option UInt64) (step : UInt64) : ∀ p ∈ applyTopK probs k threadRand seed step, p = 0 := by
  rcases Nat.lt_or_ge k probs.length with hlt | hge
  · obtain ⟨keep, -, hout⟩ := applyTopK_kept (fun p hp => (h p hp).ge) hlt threadRand seed step
    rw [hout]
    intro p hp
    obtain ⟨q, hq, rfl⟩ := List.mem_map.1 hp
    obtain ⟨i, hi⟩ := List.getElem?_of_mem hq
    rw [kept_getElem?, Option.map_eq_some_iff] at hi
    obtain ⟨r, hr, rfl⟩ := hi
    rw [h r (List.mem_of_getElem? hr), ite_self, zero_div]
  · rw [applyTopK, if_pos hge]
    exact h

theorem applyTopP_zeros (s : SortDesc) {probs : List ℚ} (h : ∀ p ∈ probs, p = 0) (topP : ℚ) :
    ∀ p ∈ applyTopP s probs topP, p = 0 := by
  obtain ⟨chosen, hsub, hnodup, -, hout⟩ := applyTopP_chosen s probs topP
  obtain ⟨-, hlen, hentry⟩ := keepTopPPrefix_entries (fun p hp => (h p hp).ge) hsub hnodup (s.perm chosen) topP
  rw [hout]
  intro p hp
  obtain ⟨i, hi⟩ := List.getElem?_of_mem hp
  have hlt : i < probs.length := hlen ▸ (List.getElem?_eq_some_iff.1 hi).1
  have hzero := h probs[i] (List.getElem_mem hlt)
  rw [hentry i probs[i] (List.getElem?_eq_getElem hlt), hzero, zero_div, ite_self] at hi
  exact (Option.some.inj hi).symm

/-- Nothing is left for the other filters, and nothing for the draw. -/
theorem sampleAdjusted_empty (env : Sampler) (params : SamplingParams) (htemp : params.temperature ≠ 0)
    (hminP : 1 < params.minP) (step : UInt64) {row : List Logit} (h : true ∈ finite row) :
    sampleAdjusted env params step row = .error emptyDistribution := by
  have hzeros : ∀ p ∈ filtered env params step (softmaxProbs env row params.temperature), p = 0 := by
    have hmin := applyMinP_zeros (softmaxProbs_some env h params.temperature) hminP
    unfold filtered
    dsimp only
    rw [if_pos (one_pos.trans hminP)]
    split
    · split
      · exact applyTopP_zeros env.sort (applyTopK_zeros hmin _ _ _ _) _
      · exact applyTopP_zeros env.sort hmin _
    · split
      · exact applyTopK_zeros hmin _ _ _ _
      · exact hmin
  unfold sampleAdjusted
  rw [if_neg htemp]
  dsimp only
  rw [categoricalSample_zeros hzeros (env.draw_mem params.seed step).1]
  rfl

/-! ## A token for every row -/

theorem sample_eq (env : Sampler) (logits : List Logit) {params : SamplingParams} (hgreedy : params.isPlainGreedy = false)
    (prevTokens : List Token) (tokenCounts : Option (List (Token × Nat))) (allowed : Option (List Bool)) :
    sample env logits params prevTokens tokenCounts allowed =
      sampleAdjusted env params (stepOf prevTokens) (finalLogits params prevTokens tokenCounts logits allowed) := by
  unfold sample
  cases allowed <;> rw [hgreedy] <;> rfl

theorem temperature_of_greedy {params : SamplingParams} (h : params.isPlainGreedy = true) : params.temperature = 0 := by
  unfold SamplingParams.isPlainGreedy at h
  simp only [Bool.and_eq_true, decide_eq_true_eq] at h
  exact h.1.1.1.1.1

/-- For every row with an allowed finite logit: `sample` returns an allowed token whose final logit is finite, and
whose probability after the filters is positive where the token is drawn; unless a temperature that is not zero meets
a `min_p` above one, where the distribution is empty. -/
theorem sample_drawn (env : Sampler) (logits : List Logit) (params : SamplingParams) (prevTokens : List Token)
    (tokenCounts : Option (List (Token × Nat))) (allowed : Option (List Bool))
    (hmask : ∀ mask, allowed = some mask → mask.length = logits.length)
    (hfinite : ∃ i, Permitted allowed i ∧ ∃ q : ℚ, logits[i]? = some (q : Logit)) :
    (params.temperature = 0 ∨ params.minP ≤ 1 →
      ∃ out, sample env logits params prevTokens tokenCounts allowed = .ok out ∧ Permitted allowed out.token ∧
        Drawn env params (stepOf prevTokens) (finalLogits params prevTokens tokenCounts logits allowed) out.token) ∧
      (params.temperature ≠ 0 → 1 < params.minP →
        sample env logits params prevTokens tokenCounts allowed = .error emptyDistribution) := by
  have hsame : finite (finalLogits params prevTokens tokenCounts logits allowed) = finite (masked logits allowed) :=
    adjusted_finite params prevTokens tokenCounts _
  obtain ⟨i, hi, q, hq⟩ := hfinite
  have hsome : true ∈ finite (masked logits allowed) :=
    List.mem_of_getElem? ((finite_masked hmask).2 ⟨hi, finite_getElem?.2 ⟨q, hq⟩⟩)
  have hsome' : true ∈ finite (finalLogits params prevTokens tokenCounts logits allowed) := hsame ▸ hsome
  cases hgreedy : params.isPlainGreedy with
  | true =>
      have htemp := temperature_of_greedy hgreedy
      refine ⟨fun _ => ?_, fun hne => absurd htemp hne⟩
      obtain ⟨token, hout, htoken⟩ : ∃ token, sample env logits params prevTokens tokenCounts allowed =
          .ok ⟨token, none, []⟩ ∧ (finite (masked logits allowed))[token]? = some true := by
        cases allowed with
        | none => exact ⟨env.argmax logits, by rw [sample, hgreedy]; rfl, argmax_finite env hsome⟩
        | some mask => exact ⟨lastMax (maskLogits logits mask), by rw [sample, hgreedy]; rfl, lastMax_finite hsome⟩
      exact ⟨_, hout, ((finite_masked hmask).1 htoken).1, hsame ▸ htoken, fun hne => absurd htemp hne⟩
  | false =>
      rw [sample_eq env logits hgreedy]
      refine ⟨fun hparams => ?_, fun htemp hminP => sampleAdjusted_empty env params htemp hminP _ hsome'⟩
      obtain ⟨out, hout, hdrawn⟩ := sampleAdjusted_drawn env params hparams (stepOf prevTokens) hsome'
      exact ⟨out, hout, ((finite_masked hmask).1 (hsame ▸ hdrawn.1)).1, hdrawn⟩

/-! ## A sampler -/

/-- Positive and increasing, in place of the exponential. -/
def steep (x : ℚ) : ℚ := if x < 0 then 1 / (1 - x) else 1 + x

theorem steep_pos (x : ℚ) : 0 < steep x := by
  unfold steep
  split
  · rename_i hx
    exact one_div_pos.2 (by linarith)
  · rename_i hx
    linarith

theorem steep_increasing : StrictMono steep := by
  intro x y hxy
  unfold steep
  by_cases hx : x < 0
  · by_cases hy : y < 0
    · rw [if_pos hx, if_pos hy]
      exact one_div_lt_one_div_of_lt (by linarith) (by linarith)
    · rw [if_pos hx, if_neg hy]
      have hless : 1 / (1 - x) < 1 := (div_lt_one (by linarith)).2 (by linarith)
      linarith
  · have hy : ¬ y < 0 := by linarith
    rw [if_neg hx, if_neg hy]
    linarith

/-- A sampler whose thread draws zero. -/
def plainSampler : Sampler where
  exp := steep
  exp_pos := steep_pos
  exp_increasing := steep_increasing
  ln p := if p = 0 then ⊥ else ((p - 1 : ℚ) : Logit)
  argmax := lastMax
  argmax_spec _ hne := lastMax_spec hne
  sort := stableSort
  sortLogprobs l := l.mergeSort fun a b => b.2 ≤ a.2
  threadRand := 0
  draw := seededDraw 0
  draw_mem := seededDraw_mem ⟨le_refl 0, one_pos⟩

/-- All filters and adjustments at once. -/
def everything : SamplingParams :=
  ⟨1, 2, 1 / 2, 1 / 10, 3 / 2, 0, 1, 1, some 7, some [(2, -1)], 0, by norm_num⟩

theorem sample_drawn_everything :
    (everything.temperature = 0 ∨ everything.minP ≤ 1 →
      ∃ out, sample plainSampler [some 1, some 3, some 2] everything [1, 1] (some [(1, 2)]) (some [true, false, true]) =
          .ok out ∧ Permitted (some [true, false, true]) out.token ∧
        Drawn plainSampler everything (stepOf [1, 1])
          (finalLogits everything [1, 1] (some [(1, 2)]) [some 1, some 3, some 2] (some [true, false, true])) out.token) ∧
      (everything.temperature ≠ 0 → 1 < everything.minP →
        sample plainSampler [some 1, some 3, some 2] everything [1, 1] (some [(1, 2)]) (some [true, false, true]) =
          .error emptyDistribution) :=
  sample_drawn plainSampler [some 1, some 3, some 2] everything [1, 1] (some [(1, 2)]) (some [true, false, true])
    (fun _ h => by cases h; rfl) ⟨0, fun _ h => by cases h; rfl, 1, rfl⟩

/-- Temperature one and a `min_p` of two. -/
def minPTwo : SamplingParams := { SamplingParams.default with temperature := 1, minP := 2 }

/-- One allowed finite logit, and no token. -/
theorem min_p_two_empty :
    Permitted (some [true]) 0 ∧ sample plainSampler [some 0] minPTwo [] none (some [true]) = .error emptyDistribution := by
  refine ⟨fun _ h => by cases h; rfl, ?_⟩
  rw [sample_eq plainSampler [some 0] (by decide +kernel) [] none (some [true])]
  exact sampleAdjusted_empty plainSampler minPTwo one_ne_zero (by norm_num [minPTwo]) _ (by decide)

end Oxydllm.Sampling
