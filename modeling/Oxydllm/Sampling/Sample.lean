/-
# Oxydllm.Sampling.Sample — one token from a row of logits (`sample`).

Four paths return a token: plain greedy without and with a mask, zero temperature, and a draw from the
distribution the filters leave. The arithmetic is exact, so no logit is NaN. A `Sampler` is what is not the
program's own: the exponential, the logarithm, the device's argmax, the unstable sorts and the random draws.
-/
import Mathlib.Algebra.Order.Monoid.WithTop
import Mathlib.Order.Monotone.Basic
import Oxydllm.Sampling.Penalty
import Oxydllm.Sampling.TopP

namespace Oxydllm.Sampling

open Kv (Token)

/-! ## The parameters -/

/-- The sampling configuration of a request, its repetition penalty positive. -/
structure SamplingParams where
  temperature : ℚ
  topK : Nat
  topP : ℚ
  minP : ℚ
  repetitionPenalty : ℚ
  repetitionWindow : Nat
  frequencyPenalty : ℚ
  presencePenalty : ℚ
  seed : Option UInt64
  logitBias : Option (List (Token × ℚ))
  topLogprobsK : Nat
  penalty_pos : 0 < repetitionPenalty

/-- `SamplingParams::default`. -/
def SamplingParams.default : SamplingParams := ⟨0, 0, 1, 0, 1, 0, 0, 0, none, none, 0, one_pos⟩

def SamplingParams.isPlainGreedy (params : SamplingParams) : Bool :=
  params.temperature = 0 && params.topLogprobsK = 0 && params.repetitionPenalty = 1 && params.frequencyPenalty = 0 &&
    params.presencePenalty = 0 && params.logitBias.isNone

structure SampleOutput where
  token : Token
  logprob : Option Logit
  topLogprobs : List (Token × Logit)
deriving DecidableEq

/-- What sampling calls of the outside. -/
structure Sampler where
  exp : ℚ → ℚ
  exp_pos : ∀ x, 0 < exp x
  exp_increasing : StrictMono exp
  ln : ℚ → Logit
  argmax : List Logit → Nat
  argmax_spec : ∀ row, row ≠ [] → ∃ l, row[argmax row]? = some l ∧ ∀ l' ∈ row, l' ≤ l
  sort : SortDesc
  sortLogprobs : List (Token × Logit) → List (Token × Logit)
  threadRand : UInt64
  draw : Option UInt64 → UInt64 → ℚ
  draw_mem : ∀ seed step, 0 ≤ draw seed step ∧ draw seed step < 1

/-! ## The stages -/

/-- The mask on the logits, as far as it goes. -/
def maskLogits : List Logit → List Bool → List Logit
  | l :: logits, ok :: allowed => (if ok then l else ⊥) :: maskLogits logits allowed
  | logits, _ => logits

/-- The step of `Iterator::max_by`: of equals the last stays. -/
def laterMax (best : Option (Logit × Nat)) (x : Logit × Nat) : Option (Logit × Nat) :=
  match best with
  | none => some x
  | some b => if x.1 < b.1 then some b else some x

/-- `max_by(..).map(|(i, _)| i as u32).unwrap_or(0)`. -/
def lastMax (row : List Logit) : Nat := ((row.zipIdx.foldl laterMax none).map Prod.snd).getD 0

/-- The logit bias of `sample`. -/
def addBias (logits : List Logit) (bias : List (Token × ℚ)) : List Logit :=
  bias.foldl (fun logits entry => logits.modify entry.1 (WithBot.map fun l => l + entry.2)) logits

/-- Penalties and bias. -/
def adjusted (params : SamplingParams) (prevTokens : List Token) (tokenCounts : Option (List (Token × Nat)))
    (logits : List Logit) : List Logit :=
  let logits := repetitionPenalty logits params.repetitionPenalty params.repetitionWindow prevTokens tokenCounts
  let logits := frequencyPresencePenalty logits params.frequencyPenalty params.presencePenalty prevTokens tokenCounts
  match params.logitBias with
  | some bias => addBias logits bias
  | none => logits

/-- `(l - max_logit) / temp`. A row without a finite logit, where this is NaN, is outside the model. -/
def shifted (maxLogit : Logit) (temp : ℚ) (l : Logit) : Logit :=
  match maxLogit with
  | none => ⊥
  | some m => l.map fun x => (x - m) / temp

def Sampler.expLogit (env : Sampler) : Logit → ℚ
  | none => 0
  | some x => env.exp x

/-- `softmax_probs`. -/
def softmaxProbs (env : Sampler) (logits : List Logit) (temperature : ℚ) : List ℚ :=
  let temp := max temperature (1 / 100000000)
  let maxLogit := logits.foldl max ⊥
  let probs := logits.map fun l => env.expLogit (shifted maxLogit temp l)
  let sum := probs.sum
  probs.map fun p => p * (1 / max sum (1 / 10000000000))

/-- `log_probs_from`. -/
def logProbsFrom (env : Sampler) (probs : List ℚ) : List Logit := probs.map fun p => max (env.ln p) ((-100 : ℚ) : Logit)

/-- `top_k_by_logprob`. -/
def topKByLogprob (env : Sampler) (logProbs : List Logit) (k : Nat) : List (Token × Logit) :=
  if k = 0 then [] else (env.sortLogprobs (logProbs.zipIdx.map fun x => (x.2, x.1))).take k

/-- A token with its logprobs. -/
def withLogprobs (env : Sampler) (logProbs : List Logit) (k : Nat) (token : Token) : SampleOutput :=
  ⟨token, some (logProbs[token]?.getD ⊥), topKByLogprob env logProbs k⟩

/-- `apply_min_p`. -/
def applyMinP (probs : List ℚ) (minP : ℚ) : List ℚ :=
  let threshold := minP * probs.foldl max 0
  let r := keepWhere (fun p => threshold ≤ p) 0 probs
  renormalizeInPlace r.1 r.2

/-- The filters of `sample`, each where it is asked for. -/
def filtered (env : Sampler) (params : SamplingParams) (step : UInt64) (probs : List ℚ) : List ℚ :=
  let probs := if 0 < params.minP then applyMinP probs params.minP else probs
  let probs := if 0 < params.topK then applyTopK probs params.topK env.threadRand params.seed step else probs
  if params.topP < 1 then applyTopP env.sort probs params.topP else probs

/-- The first index whose cumulative probability passes the draw. -/
def firstPast (r cumulative : ℚ) (i : Nat) : List ℚ → Option Nat
  | [] => none
  | p :: rest => if r < cumulative + p then some i else firstPast r (cumulative + p) (i + 1) rest

/-- The last index with a positive probability. -/
def lastPositive (probs : List ℚ) : Option Nat := (probs.zipIdx.reverse.find? fun x => 0 < x.1).map Prod.snd

def emptyDistribution : String := "sampling distribution is empty after filtering (all probs zero)"

/-- `categorical_sample` with the draw `r`. -/
def categoricalSample (probs : List ℚ) (r : ℚ) : Except String Nat :=
  match firstPast r 0 0 probs with
  | some i => .ok i
  | none =>
      match lastPositive probs with
      | some i => .ok i
      | none => .error emptyDistribution

/-- The end of `sample`: a maximum at temperature zero, a draw otherwise. -/
def sampleAdjusted (env : Sampler) (params : SamplingParams) (step : UInt64) (logits : List Logit) :
    Except String SampleOutput :=
  if params.temperature = 0 then
    let token := lastMax logits
    if 0 < params.topLogprobsK then
      .ok (withLogprobs env (logProbsFrom env (softmaxProbs env logits 1)) params.topLogprobsK token)
    else .ok ⟨token, none, []⟩
  else do
    let probs := softmaxProbs env logits params.temperature
    let token ← categoricalSample (filtered env params step probs) (env.draw params.seed step)
    -- the logprobs are of the distribution before the filters
    if 0 < params.topLogprobsK then return withLogprobs env (logProbsFrom env probs) params.topLogprobsK token
    else return ⟨token, none, []⟩

/-- The step of a seeded request. -/
def stepOf (prevTokens : List Token) : UInt64 := UInt64.ofNat prevTokens.length

def sample (env : Sampler) (logits : List Logit) (params : SamplingParams) (prevTokens : List Token)
    (tokenCounts : Option (List (Token × Nat))) (allowed : Option (List Bool)) : Except String SampleOutput :=
  match allowed with
  | none =>
      if params.isPlainGreedy then .ok ⟨env.argmax logits, none, []⟩
      else sampleAdjusted env params (stepOf prevTokens) (adjusted params prevTokens tokenCounts logits)
  | some mask =>
      let logits := maskLogits logits mask
      if params.isPlainGreedy then .ok ⟨lastMax logits, none, []⟩
      else sampleAdjusted env params (stepOf prevTokens) (adjusted params prevTokens tokenCounts logits)

/-! ## The draws of the program -/

/-- `splitmix64_f32`. -/
def splitmix64F32 (x : UInt64) : ℚ := ((splitmix64 x >>> 40).toNat : ℚ) / 2 ^ 24

theorem splitmix64F32_mem (x : UInt64) : 0 ≤ splitmix64F32 x ∧ splitmix64F32 x < 1 := by
  have hlt : (splitmix64 x >>> 40).toNat < 2 ^ 24 := by
    rw [UInt64.toNat_shiftRight]
    have := (splitmix64 x).toNat_lt
    rw [show (40 : UInt64).toNat % 64 = 40 from rfl, Nat.shiftRight_eq_div_pow]
    omega
  constructor
  · exact div_nonneg (Nat.cast_nonneg _) (by norm_num)
  · rw [splitmix64F32, div_lt_one (by norm_num)]
    exact_mod_cast hlt

/-- The draw of `categorical_sample`; `threadDraw` is what `thread_rand_f32` returns. -/
def seededDraw (threadDraw : ℚ) (seed : Option UInt64) (step : UInt64) : ℚ :=
  match seed with
  | some s => splitmix64F32 (s + step)
  | none => threadDraw

theorem seededDraw_mem {threadDraw : ℚ} (h : 0 ≤ threadDraw ∧ threadDraw < 1) (seed : Option UInt64) (step : UInt64) :
    0 ≤ seededDraw threadDraw seed step ∧ seededDraw threadDraw seed step < 1 := by
  cases seed with
  | none => exact h
  | some s => exact splitmix64F32_mem (s + step)

end Oxydllm.Sampling
