/-
# Oxydllm.Sampling.Penalty — the penalties on the logits of tokens already seen.

A logit is a rational, or minus infinity where a mask was put on it; the penalties of the model are for a
positive `repetition_penalty` and leave minus infinity as it is.

The repetition penalty has two paths: one walks over the history and asks for the sign at every occurrence, the
other walks over a map of counts and scales once by a power. A positive penalty keeps the sign, so they agree
(`withCounts_eq_cpu`), and the counts a sequence carries are those of its tokens in every run
(`SampledReach.counts`).
-/
import Mathlib.Algebra.Order.Field.Rat
import Mathlib.Algebra.Order.Field.Basic
import Mathlib.Algebra.Order.Monoid.WithTop
import Mathlib.Logic.Function.Iterate
import Oxydllm.Kv.SpecExact
import Oxydllm.Lib.Tally

namespace Oxydllm.Sampling

open Kv (Token SequenceStatus SequencePhase)
open Kv.Exact (FinishReason StopRules)
open Counting (Tally)

/-! ## The penalties -/

/-- A logit after the mask. -/
abbrev Logit := WithBot ℚ

/-- `if l > 0.0 { l / factor } else { l * factor }`. -/
def penalized (factor : ℚ) (l : Logit) : Logit := if 0 < l then l.map (· / factor) else l.map (· * factor)

/-- `apply_repetition_penalty_cpu`; `modify` leaves a list alone at an index it does not have. -/
def applyRepetitionPenaltyCpu (logits : List Logit) (prevTokens : List Token) (penalty : ℚ) : List Logit :=
  prevTokens.foldl (fun logits tok => logits.modify tok (penalized penalty)) logits

/-- `apply_repetition_penalty_with_counts` over the entries of the map, in the order it gives them. -/
def applyRepetitionPenaltyWithCounts (logits : List Logit) (tokenCounts : List (Token × Nat)) (penalty : ℚ) :
    List Logit :=
  tokenCounts.foldl (fun logits entry => logits.modify entry.1 (penalized (penalty ^ entry.2))) logits

/-- `repetition_window_slice`. -/
def repetitionWindowSlice (prevTokens : List Token) (repetitionWindow : Nat) : List Token :=
  if repetitionWindow = 0 ∨ prevTokens.length ≤ repetitionWindow then prevTokens
  else prevTokens.drop (prevTokens.length - repetitionWindow)

/-- The repetition penalty of `sample`. -/
def repetitionPenalty (logits : List Logit) (penalty : ℚ) (repetitionWindow : Nat) (prevTokens : List Token)
    (tokenCounts : Option (List (Token × Nat))) : List Logit :=
  if penalty ≠ 1 then
    let repetitionTokens := repetitionWindowSlice prevTokens repetitionWindow
    if repetitionTokens.length = prevTokens.length then
      match tokenCounts with
      | some counts => applyRepetitionPenaltyWithCounts logits counts penalty
      | none => applyRepetitionPenaltyCpu logits repetitionTokens penalty
    else applyRepetitionPenaltyCpu logits repetitionTokens penalty
  else logits

/-- `apply_frequency_presence_penalty_with_counts`. -/
def applyFrequencyPresencePenaltyWithCounts (logits : List Logit) (counts : List (Token × Nat))
    (frequencyPenalty presencePenalty : ℚ) : List Logit :=
  counts.foldl (fun logits entry =>
    logits.modify entry.1 (WithBot.map fun l => l - (frequencyPenalty * entry.2 + presencePenalty))) logits

/-- The counts of a history, built token by token. -/
def countTokens (tokens : List Token) : Tally Token := tokens.foldl Tally.addOne Tally.empty

/-- The frequency and presence penalties of `sample`; without a map one is built from the history. -/
def frequencyPresencePenalty (logits : List Logit) (frequencyPenalty presencePenalty : ℚ) (prevTokens : List Token)
    (tokenCounts : Option (List (Token × Nat))) : List Logit :=
  if frequencyPenalty ≠ 0 ∨ presencePenalty ≠ 0 then
    applyFrequencyPresencePenaltyWithCounts logits (tokenCounts.getD (countTokens prevTokens).entries) frequencyPenalty
      presencePenalty
  else logits

/-! ## The two paths of the repetition penalty -/

section Paths

variable {penalty factor : ℚ}

@[simp] theorem penalized_bot (factor : ℚ) : penalized factor ⊥ = ⊥ := by
  unfold penalized
  split <;> rfl

theorem penalized_coe (factor l : ℚ) :
    penalized factor (l : Logit) = ((if 0 < l then l / factor else l * factor : ℚ) : Logit) := by
  unfold penalized
  have hpos : (0 : Logit) < (l : Logit) ↔ 0 < l := WithBot.coe_lt_coe
  by_cases hl : 0 < l
  · rw [if_pos (hpos.2 hl), if_pos hl, WithBot.map_coe]
  · rw [if_neg (mt hpos.1 hl), if_neg hl, WithBot.map_coe]

/-- A positive factor keeps the sign, so the next factor goes the same way. -/
theorem penalized_penalized (hfactor : 0 < factor) (penalty : ℚ) (l : Logit) :
    penalized penalty (penalized factor l) = penalized (factor * penalty) l := by
  induction l using WithBot.recBotCoe with
  | bot => simp
  | coe l =>
      rw [penalized_coe, penalized_coe, penalized_coe]
      -- the sign is asked for again after the first factor, and the answer is the same
      by_cases hl : 0 < l
      · rw [if_pos hl, if_pos (div_pos hl hfactor), if_pos hl, div_div]
      · have hneg : ¬ 0 < l * factor := not_lt.2 (mul_nonpos_of_nonpos_of_nonneg (not_lt.1 hl) hfactor.le)
        rw [if_neg hl, if_neg hneg, if_neg hl, mul_assoc]

theorem penalized_one (l : Logit) : penalized 1 l = l := by
  induction l using WithBot.recBotCoe with
  | bot => rfl
  | coe l => rw [penalized_coe, div_one, mul_one, ite_self]

/-- As often as a token was seen, or once by the power. -/
theorem penalized_iterate (hpenalty : 0 < penalty) (n : Nat) (l : Logit) :
    (penalized penalty)^[n] l = penalized (penalty ^ n) l := by
  induction n with
  | zero => rw [Function.iterate_zero, id, pow_zero, penalized_one]
  | succ n ih => rw [Function.iterate_succ_apply', ih, penalized_penalized (pow_pos hpenalty n), pow_succ]

theorem cpu_getElem? (logits : List Logit) (prevTokens : List Token) (penalty : ℚ) (i : Nat) :
    (applyRepetitionPenaltyCpu logits prevTokens penalty)[i]? =
      logits[i]?.map (penalized penalty)^[prevTokens.count i] := by
  unfold applyRepetitionPenaltyCpu
  rw [Counting.foldl_modify (fun tok => tok) (fun _ => penalized penalty)]
  congr 1
  funext l
  rw [List.foldl_const, List.count_eq_length_filter]
  rfl

theorem withCounts_getElem? {logits : List Logit} {counts : Tally Token} {tokens : List Token}
    (hcounts : counts.Counts tokens) {order : List (Token × Nat)} (horder : order.Perm counts.entries) (penalty : ℚ)
    (i : Nat) :
    (applyRepetitionPenaltyWithCounts logits order penalty)[i]? =
      logits[i]?.map (penalized (penalty ^ tokens.count i)) := by
  unfold applyRepetitionPenaltyWithCounts
  rw [Counting.foldl_modify Prod.fst fun entry : Token × Nat => penalized (penalty ^ entry.2)]
  have hnodup : (order.map Prod.fst).Nodup := (horder.map Prod.fst).nodup_iff.2 counts.nodup
  by_cases hi : i ∈ tokens
  · have hentry : (i, tokens.count i) ∈ order :=
      horder.mem_iff.2 ((hcounts i _).2 ⟨rfl, List.count_pos_iff.2 hi⟩)
    rw [Counting.filter_key hnodup hentry]
    rfl
  -- a token that was not seen has no entry, and the power of no occurrences is one
  · have hnone : i ∉ order.map Prod.fst := fun h =>
      hi (hcounts.key_mem.1 ((horder.map Prod.fst).mem_iff.1 h))
    rw [Counting.filter_no_key hnone, List.count_eq_zero_of_not_mem hi, pow_zero]
    cases logits[i]? with
    | none => rfl
    | some l => rw [Option.map_some, Option.map_some, penalized_one, List.foldl_nil]

/-- Both paths, for any order of the map and of the history. -/
theorem withCounts_eq_cpu (hpenalty : 0 < penalty) (logits : List Logit) {counts : Tally Token}
    {tokens history : List Token} (hcounts : counts.Counts tokens) {order : List (Token × Nat)}
    (horder : order.Perm counts.entries) (hhistory : history.Perm tokens) :
    applyRepetitionPenaltyWithCounts logits order penalty = applyRepetitionPenaltyCpu logits history penalty := by
  refine List.ext_getElem? fun i => ?_
  rw [withCounts_getElem? hcounts horder, cpu_getElem?, hhistory.count_eq]
  congr 1
  funext l
  exact (penalized_iterate hpenalty _ l).symm

theorem slice_of_length {prevTokens : List Token} {window : Nat}
    (h : (repetitionWindowSlice prevTokens window).length = prevTokens.length) :
    repetitionWindowSlice prevTokens window = prevTokens := by
  unfold repetitionWindowSlice at h ⊢
  split
  · rfl
  · rename_i hshort
    rw [if_neg hshort, List.length_drop] at h
    omega

/-- The map is taken only where it counts what the other path would walk over. -/
theorem repetitionPenalty_counts (hpenalty : 0 < penalty) (logits : List Logit) (window : Nat) {counts : Tally Token}
    {prevTokens : List Token} (hcounts : counts.Counts prevTokens) {order : List (Token × Nat)}
    (horder : order.Perm counts.entries) :
    repetitionPenalty logits penalty window prevTokens (some order) =
      repetitionPenalty logits penalty window prevTokens none := by
  unfold repetitionPenalty
  by_cases hwhole : (repetitionWindowSlice prevTokens window).length = prevTokens.length
  · simp only [slice_of_length hwhole]
    rw [withCounts_eq_cpu hpenalty logits hcounts horder (List.Perm.refl prevTokens)]
  -- a window that cuts the history is walked over, map or not
  · simp only [if_neg hwhole]

end Paths

/-! ## The counts a sequence carries -/

/-- What a sampled sequence reads and writes, without its caches. -/
structure SampledSequence where
  numGenerated : Nat
  allTokens : List Token
  tokenCounts : Tally Token
  status : SequenceStatus
  phase : SequencePhase
  numProcessedTokens : Nat
  maxTokens : Nat
  finishReason : Option FinishReason

namespace SampledSequence

/-- The sequence `add_request_full` queues. -/
def new (promptTokens : List Token) (maxTokens : Nat) : SampledSequence :=
  ⟨0, promptTokens, countTokens promptTokens, .waiting, .prefill, 0, maxTokens, none⟩

/-- `schedule` takes a waiting sequence. -/
def schedule (s : SampledSequence) : SampledSequence := { s with status := .running, phase := .prefill }

/-- `schedule` finds no block for a running sequence. -/
def preempt (s : SampledSequence) : SampledSequence :=
  { s with numProcessedTokens := 0, phase := .prefill, status := .waiting }

/-- `append_token`. -/
def appendToken (s : SampledSequence) (token : Token) : SampledSequence :=
  { s with allTokens := s.allTokens ++ [token], tokenCounts := s.tokenCounts.addOne token }

/-- `apply_token`; the flag says whether the token is sent. -/
def applyToken (s : SampledSequence) (isStop : Bool) : SampledSequence × Bool :=
  if isStop then ({ s with status := .finished, finishReason := some .stop }, false)
  else if s.numGenerated + 1 ≥ s.maxTokens then
    ({ s with
      numGenerated := s.numGenerated + 1, status := .finished, finishReason := some .length }, true)
  else ({ s with numGenerated := s.numGenerated + 1 }, true)

/-- A token appended and applied. -/
def takeToken (stop : StopRules) (token : Token) (s : SampledSequence) : SampledSequence × Bool :=
  let s := s.appendToken token
  ({ s with numProcessedTokens := s.allTokens.length - 1 }).applyToken (stop.found token s.allTokens)

/-- What `sample_prefill_outputs` does with the sampled token. -/
def prefillToken (stop : StopRules) (token : Token) (s : SampledSequence) : SampledSequence :=
  (takeToken stop token { s with phase := .decode }).1

/-- What `sample_decode_outputs` does with the sampled token. -/
def decodeToken (stop : StopRules) (token : Token) (s : SampledSequence) : SampledSequence :=
  (takeToken stop token s).1

/-- The loop of `run_speculative_decode` over the accepted tokens. -/
def acceptTokens (stop : StopRules) : List Token → SampledSequence → SampledSequence
  | [], s => s
  | token :: accepted, s =>
      let r := takeToken stop token s
      if r.2 then acceptTokens stop accepted r.1 else r.1

end SampledSequence

/-- The states of a sequence, whatever is sampled and whatever the draft and the target agree on. -/
inductive SampledReach (stop : StopRules) (promptTokens : List Token) (maxTokens : Nat) :
    SampledSequence → Prop
  | new : SampledReach stop promptTokens maxTokens (.new promptTokens maxTokens)
  | schedule {s : SampledSequence} (h : SampledReach stop promptTokens maxTokens s) (hs : s.status = .waiting) :
      SampledReach stop promptTokens maxTokens s.schedule
  | preempt {s : SampledSequence} (h : SampledReach stop promptTokens maxTokens s) (hs : s.status = .running) :
      SampledReach stop promptTokens maxTokens s.preempt
  | prefill {s : SampledSequence} (h : SampledReach stop promptTokens maxTokens s) (hs : s.status = .running)
      (token : Token) : SampledReach stop promptTokens maxTokens (s.prefillToken stop token)
  | decode {s : SampledSequence} (h : SampledReach stop promptTokens maxTokens s) (hs : s.status = .running)
      (token : Token) : SampledReach stop promptTokens maxTokens (s.decodeToken stop token)
  | speculate {s : SampledSequence} (h : SampledReach stop promptTokens maxTokens s) (hs : s.status = .running)
      (accepted : List Token) : SampledReach stop promptTokens maxTokens (s.acceptTokens stop accepted)

namespace SampledSequence

/-- The counts are those of the tokens. -/
def Counted (s : SampledSequence) : Prop := s.tokenCounts.Counts s.allTokens

variable {stop : StopRules}

theorem foldl_addOne_counts {counts : Tally Token} {seen : List Token} (h : counts.Counts seen) (tokens : List Token) :
    (tokens.foldl Tally.addOne counts).Counts (seen ++ tokens) := by
  induction tokens generalizing counts seen with
  | nil => rwa [List.append_nil]
  | cons token rest ih =>
      rw [List.foldl_cons, ← List.singleton_append, ← List.append_assoc]
      exact ih (h.addOne token)

theorem countTokens_counts (tokens : List Token) : (countTokens tokens).Counts tokens :=
  foldl_addOne_counts Tally.Counts.empty tokens

theorem applyToken_counted {s : SampledSequence} (h : s.Counted) (isStop : Bool) : (s.applyToken isStop).1.Counted := by
  unfold applyToken
  split
  · exact h
  · split <;> exact h

/-- The step lemma: every token is appended together with its count. -/
theorem takeToken_counted {s : SampledSequence} (h : s.Counted) (token : Token) :
    (takeToken stop token s).1.Counted := by
  have happended : (s.appendToken token).Counted := Tally.Counts.addOne h token
  have hprocessed : SampledSequence.Counted
      { s.appendToken token with numProcessedTokens := (s.appendToken token).allTokens.length - 1 } := happended
  exact applyToken_counted hprocessed _

theorem acceptTokens_counted {s : SampledSequence} (h : s.Counted) (accepted : List Token) :
    (acceptTokens stop accepted s).Counted := by
  induction accepted generalizing s with
  | nil => exact h
  | cons token accepted ih =>
      unfold acceptTokens
      dsimp only
      split
      · exact ih (takeToken_counted h token)
      · exact takeToken_counted h token

end SampledSequence

theorem SampledReach.counts {stop : StopRules} {promptTokens : List Token} {maxTokens : Nat}
    {s : SampledSequence} (h : SampledReach stop promptTokens maxTokens s) : s.Counted := by
  induction h with
  | new => exact SampledSequence.countTokens_counts promptTokens
  | schedule _ _ ih => exact ih
  | preempt _ _ ih => exact ih
  | @prefill s _ _ token ih =>
      have hs : SampledSequence.Counted { s with phase := .decode } := ih
      exact SampledSequence.takeToken_counted hs token
  | decode _ _ token ih => exact SampledSequence.takeToken_counted ih token
  | speculate _ _ accepted ih => exact SampledSequence.acceptTokens_counted ih accepted

/-- The two paths agree for a history and its counts, each in any order; and in every run the counts of a sequence
are those of its tokens, so the path over the counts may be taken for the other. -/
theorem penalty_paths_agree {penalty : ℚ} (hpenalty : 0 < penalty) (logits : List Logit) {counts : Tally Token}
    {tokens history : List Token} (hcounts : counts.Counts tokens) {order : List (Token × Nat)}
    (horder : order.Perm counts.entries) (hhistory : history.Perm tokens) {stop : StopRules}
    {promptTokens : List Token} {maxTokens : Nat} {s : SampledSequence}
    (hs : SampledReach stop promptTokens maxTokens s) :
    applyRepetitionPenaltyWithCounts logits order penalty = applyRepetitionPenaltyCpu logits history penalty ∧
      s.tokenCounts.Counts s.allTokens ∧
      ∀ carried : List (Token × Nat), carried.Perm s.tokenCounts.entries → ∀ window,
        repetitionPenalty logits penalty window s.allTokens (some carried) =
          repetitionPenalty logits penalty window s.allTokens none :=
  ⟨withCounts_eq_cpu hpenalty logits hcounts horder hhistory, hs.counts,
    fun _ hcarried window => repetitionPenalty_counts hpenalty logits window hs.counts hcarried⟩

/-- A sequence admitted, given a token, preempted, admitted again and given three tokens at once. -/
def resumed : SampledSequence :=
  SampledSequence.acceptTokens ⟨[7], []⟩ [2, 1, 2]
    ((SampledSequence.prefillToken ⟨[7], []⟩ 1 (SampledSequence.new [1, 0] 9).schedule).preempt.schedule)

theorem resumed_reach : SampledReach ⟨[7], []⟩ [1, 0] 9 resumed :=
  .speculate (.schedule (.preempt (.prefill (.schedule .new rfl) rfl 1) rfl) rfl) rfl [2, 1, 2]

theorem penalty_paths_resumed :
    applyRepetitionPenaltyWithCounts [some 3, some (-1), ⊥] [(2, 2), (1, 3), (0, 1)] (3 / 2) =
        applyRepetitionPenaltyCpu [some 3, some (-1), ⊥] [2, 2, 1, 1, 1, 0] (3 / 2) ∧
      resumed.tokenCounts.Counts resumed.allTokens ∧
      ∀ carried : List (Token × Nat), carried.Perm resumed.tokenCounts.entries → ∀ window,
        repetitionPenalty [some 3, some (-1), ⊥] (3 / 2) window resumed.allTokens (some carried) =
          repetitionPenalty [some 3, some (-1), ⊥] (3 / 2) window resumed.allTokens none :=
  penalty_paths_agree (by norm_num) [some 3, some (-1), ⊥] resumed_reach.counts (by decide) (by decide) resumed_reach

end Oxydllm.Sampling
