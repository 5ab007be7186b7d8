/-
# Oxydllm.Kv.SpecExact — speculative decoding against decoding one token at a time.

Here a model is the token it finds most likely after a prefix, and a cache is the tokens whose rows it
holds; a forward answers for the tokens of the cache followed by those it is fed. Both decodes are run from
the same state until the sequence is finished.

The accepted tokens of a cycle are greedy ones, so the two agree, except that the loop over them asks
`apply_token` whether to go on, and `apply_token` says so also for the token that reaches `max_tokens`.
-/
import Oxydllm.Kv.Speculative

namespace Oxydllm.Kv.Exact

/-! ## The sequence -/

inductive FinishReason where
  | stop
  | length
deriving DecidableEq

structure StopRules where
  tokenIds : List Token
  sequences : List (List Token)

def hasMatchingStopSequence (tokens : List Token) (stopSequences : List (List Token)) : Bool :=
  stopSequences.any fun seq =>
    0 < seq.length && seq.length ≤ tokens.length && tokens.drop (tokens.length - seq.length) == seq

/-- `StopRules::matches`. -/
def StopRules.found (stop : StopRules) (token : Token) (allTokens : List Token) : Bool :=
  stop.tokenIds.contains token || hasMatchingStopSequence allTokens stop.sequences

/-- What the decodes read and write of a plain-greedy sequence, with the tokens sent to the client. -/
structure GreedySequence where
  allTokens : List Token
  numGenerated : Nat
  maxTokens : Nat
  numProcessedTokens : Nat
  status : SequenceStatus
  finishReason : Option FinishReason
  cache : List Token
  draftCache : List Token
  newTokens : List Token
deriving DecidableEq

def GreedySequence.new (prompt : List Token) (maxTokens : Nat) : GreedySequence :=
  ⟨prompt, 0, maxTokens, 0, .running, none, [], [], []⟩

/-- `apply_token`; the flag says whether the token is sent. -/
def applyToken (s : GreedySequence) (isStop : Bool) : GreedySequence × Bool :=
  if isStop then ({ s with status := .finished, finishReason := some .stop }, false)
  else if s.numGenerated + 1 ≥ s.maxTokens then
    ({ s with
      numGenerated := s.numGenerated + 1, status := .finished, finishReason := some .length }, true)
  else ({ s with numGenerated := s.numGenerated + 1 }, true)

/-- A token appended, applied and sent. -/
def takeToken (stop : StopRules) (token : Token) (s : GreedySequence) : GreedySequence × Bool :=
  let all := s.allTokens ++ [token]
  let r := applyToken { s with allTokens := all, numProcessedTokens := all.length - 1 }
    (stop.found token all)
  (if r.2 then { r.1 with newTokens := r.1.newTokens ++ [token] } else r.1, r.2)

/-! ## The forwards -/

/-- A forward from a cache. A token fed at a position that is not its own is outside the model. -/
def greedyForward (f : List Token → Token) :
    List Token → List Token → List Nat → Option (List Token × List Token)
  | cache, [], [] => some ([], cache)
  | cache, tok :: toks, pos :: positions =>
      if pos = cache.length then
        (greedyForward f (cache ++ [tok]) toks positions).map fun r => (f (cache ++ [tok]) :: r.1, r.2)
      else none
  | _, _, _ => none

/-- The next `k` tokens of the draft, each fed back. -/
def draftTokens (draft : List Token → Token) :
    Nat → Token → Nat → List Token → Option (List Token × List Token)
  | 0, _, _, cache => some ([], cache)
  | k + 1, cur, pos, cache =>
      (greedyForward draft cache [cur] [pos]).bind fun (out, cache) =>
        out[0]?.bind fun next =>
          (draftTokens draft k next (pos + 1) cache).map fun r => (next :: r.1, r.2)

/-- The draft's cache catches up with the confirmed tokens. -/
def fillGap (draft : List Token → Token) (s : GreedySequence) : Option (List Token) :=
  let targetHave := s.allTokens.length - 1
  let draftHave := s.draftCache.length
  if draftHave < targetHave then
    (greedyForward draft s.draftCache ((s.allTokens.drop draftHave).take (targetHave - draftHave))
      (List.range' draftHave (targetHave - draftHave))).map Prod.snd
  else some s.draftCache

/-! ## The decodes -/

/-- The loop over the accepted tokens. -/
def acceptTokens (stop : StopRules) : List Token → GreedySequence → GreedySequence
  | [], s => s
  | tok :: toks, s =>
      let r := takeToken stop tok s
      if r.2 then acceptTokens stop toks r.1 else r.1

/-- One turn of the loop of `run_speculative_decode`. -/
def speculativeDecode (target draft : List Token → Token) (stop : StopRules) (s : GreedySequence) :
    Option GreedySequence :=
  let l := s.allTokens.length
  (fillGap draft s).bind fun draftCache =>
    s.allTokens[l - 1]?.bind fun last =>
      (draftTokens draft specDraftK last (l - 1) draftCache).bind fun (drafts, draftCache) =>
        (greedyForward target s.cache (last :: drafts) (List.range' (l - 1) (specDraftK + 1))).bind
          fun (targetAm, cache) =>
            let m := matchLen drafts targetAm
            targetAm[m]?.map fun correction =>
              let s := acceptTokens stop (drafts.take m ++ [correction]) s
              let keep := s.allTokens.length - 1
              { s with cache := cache.take keep, draftCache := draftCache.take keep }

/-- `sample_decode_outputs` for one sequence, with its row of the batch. -/
def sampleDecode (target : List Token → Token) (stop : StopRules) (s : GreedySequence) :
    Option GreedySequence :=
  s.allTokens[s.allTokens.length - 1]?.bind fun last =>
    (greedyForward target s.cache [last] [s.numProcessedTokens]).bind fun (out, cache) =>
      out[0]?.map fun token => { (takeToken stop token s).1 with cache }

/-- `sample_prefill_outputs` for one sequence, `cached` of its tokens found in the prefix cache. -/
def samplePrefill (target : List Token → Token) (stop : StopRules) (cached : Nat) (s : GreedySequence) :
    Option GreedySequence :=
  (greedyForward target (s.allTokens.take cached) (s.allTokens.drop cached)
    (List.range' cached (s.allTokens.length - cached))).bind fun (out, cache) =>
      out.getLast?.map fun token => { (takeToken stop token s).1 with cache }

/-- A preempted sequence gives its caches up. -/
def preempted (s : GreedySequence) : GreedySequence :=
  { s with cache := [], draftCache := [], numProcessedTokens := 0 }

/-- The states of a plain-greedy sequence between two steps, from its first prefill on. -/
inductive GreedyReach (target draft : List Token → Token) (stop : StopRules) (prompt : List Token)
    (maxTokens : Nat) : GreedySequence → Prop
  | prefill (cached : Nat) (hcached : cached < prompt.length) {s : GreedySequence}
      (hs : samplePrefill target stop cached (.new prompt maxTokens) = some s) :
      GreedyReach target draft stop prompt maxTokens s
  | cycle {s s' : GreedySequence} (h : GreedyReach target draft stop prompt maxTokens s)
      (hlive : s.status ≠ .finished) (hs : speculativeDecode target draft stop s = some s') :
      GreedyReach target draft stop prompt maxTokens s'
  | preempt (cached : Nat) {s s' : GreedySequence} (h : GreedyReach target draft stop prompt maxTokens s)
      (hlive : s.status ≠ .finished) (hcached : cached < s.allTokens.length)
      (hs : samplePrefill target stop cached (preempted s) = some s') :
      GreedyReach target draft stop prompt maxTokens s'

/-- A step taken until the sequence is finished, at most `n` times. -/
def runUntil (step : GreedySequence → Option GreedySequence) : Nat → GreedySequence → Option GreedySequence
  | 0, s => some s
  | n + 1, s => if s.status = .finished then some s else (step s).bind (runUntil step n)

/-! ## What the forwards answer -/

/-- The answers of a forward. -/
def answers (f : List Token → Token) : List Token → List Token → List Token
  | _, [] => []
  | cache, tok :: toks => f (cache ++ [tok]) :: answers f (cache ++ [tok]) toks

theorem greedyForward_eq (f : List Token → Token) (cache toks : List Token) :
    greedyForward f cache toks (List.range' cache.length toks.length) =
      some (answers f cache toks, cache ++ toks) := by
  induction toks generalizing cache with
  | nil => simp [greedyForward, answers]
  | cons tok toks ih =>
      have hrest := ih (cache ++ [tok])
      rw [List.length_append, List.length_singleton] at hrest
      rw [List.length_cons, List.range'_succ, greedyForward, if_pos rfl, hrest]
      simp [answers]

/-- The tokens the draft proposes behind a prefix. -/
def proposals (draft : List Token → Token) : Nat → List Token → List Token
  | 0, _ => []
  | k + 1, all => draft all :: proposals draft k (all ++ [draft all])

theorem proposals_length (draft : List Token → Token) (k : Nat) (all : List Token) :
    (proposals draft k all).length = k := by
  induction k generalizing all with
  | zero => rfl
  | succ k ih => exact congrArg (· + 1) (ih _)

/-- The draft is not fed its last proposal. -/
theorem draftTokens_eq (draft : List Token → Token) (k : Nat) (cur : Token) (cache : List Token) :
    draftTokens draft k cur cache.length cache =
      some (proposals draft k (cache ++ [cur]),
        (cache ++ cur :: proposals draft k (cache ++ [cur])).dropLast) := by
  induction k generalizing cur cache with
  | zero => simp [draftTokens, proposals]
  | succ k ih =>
      have hone := greedyForward_eq draft cache [cur]
      have hrest := ih (draft (cache ++ [cur])) (cache ++ [cur])
      rw [List.length_append, List.length_singleton] at hrest
      rw [List.length_singleton] at hone
      unfold draftTokens
      show (greedyForward draft cache [cur] (List.range' cache.length 1)).bind _ = _
      rw [hone]
      simp only [Option.bind_some, answers, List.getElem?_cons_zero, hrest, Option.map_some, proposals]
      rw [List.append_cons cache cur (draft (cache ++ [cur]) :: _)]

/-- The drafts the target confirms, and the target's own token behind them. -/
def accepted (target : List Token → Token) : List Token → List Token → List Token
  | all, [] => [target all]
  | all, d :: ds => if target all = d then d :: accepted target (all ++ [d]) ds else [target all]

/-- Tokens each of which is the target's choice behind those before it. -/
def GreedyFrom (target : List Token → Token) : List Token → List Token → Prop
  | _, [] => True
  | all, tok :: toks => tok = target all ∧ GreedyFrom target (all ++ [tok]) toks

theorem accepted_greedy (target : List Token → Token) (all drafts : List Token) :
    GreedyFrom target all (accepted target all drafts) := by
  induction drafts generalizing all with
  | nil => exact ⟨rfl, trivial⟩
  | cons d ds ih =>
      unfold accepted
      split
      next heq => exact ⟨heq.symm, ih _⟩
      · exact ⟨rfl, trivial⟩

theorem accepted_ne_nil (target : List Token → Token) (all drafts : List Token) :
    accepted target all drafts ≠ [] := by
  cases drafts with
  | nil => exact List.cons_ne_nil _ _
  | cons d ds =>
      unfold accepted
      split <;> exact List.cons_ne_nil _ _

/-- All but the last of the accepted tokens are drafts. -/
theorem accepted_drafts (target : List Token → Token) (all drafts : List Token) {k : Nat}
    (hk : k < (accepted target all drafts).length) :
    (accepted target all drafts).take k = drafts.take k := by
  induction drafts generalizing all k with
  | nil =>
      have : k = 0 := Nat.lt_one_iff.1 hk
      rw [this]
      rfl
  | cons d ds ih =>
      unfold accepted at hk ⊢
      split at hk
      next heq =>
        rw [if_pos heq]
        cases k with
        | zero => rfl
        | succ k => rw [List.take_succ_cons, List.take_succ_cons, ih _ (Nat.lt_of_succ_lt_succ hk)]
      next hne =>
        have : k = 0 := Nat.lt_one_iff.1 hk
        rw [this]
        rfl

theorem accepted_length_le (target : List Token → Token) (all drafts : List Token) :
    (accepted target all drafts).length ≤ drafts.length + 1 := by
  induction drafts generalizing all with
  | nil => exact le_rfl
  | cons d ds ih =>
      unfold accepted
      split
      · exact Nat.succ_le_succ (ih _)
      · exact Nat.succ_le_succ (Nat.zero_le _)

/-- The comparison of drafts and verification. -/
theorem verify_accepted (target : List Token → Token) (cache : List Token) (last : Token)
    (drafts : List Token) :
    let targetAm := answers target cache (last :: drafts)
    ∃ correction, targetAm[matchLen drafts targetAm]? = some correction ∧
      drafts.take (matchLen drafts targetAm) ++ [correction] =
        accepted target (cache ++ [last]) drafts := by
  induction drafts generalizing cache last with
  | nil => exact ⟨_, rfl, rfl⟩
  | cons d ds ih =>
      obtain ⟨correction, hget, heq⟩ := ih (cache ++ [last]) d
      simp only [answers] at hget heq ⊢
      unfold matchLen accepted
      by_cases hd : target (cache ++ [last]) = d
      · rw [if_pos hd, if_pos hd]
        exact ⟨correction, by simpa using hget, by rw [List.take_succ_cons, List.cons_append, heq]⟩
      · rw [if_neg hd, if_neg hd]
        exact ⟨_, rfl, rfl⟩

/-! ## What a step leaves -/

/-- A token stops the sequence, reaches its cap, or neither. -/
theorem takeToken_cases (stop : StopRules) (tok : Token) (s : GreedySequence) :
    (takeToken stop tok s = ({ s with
      allTokens := s.allTokens ++ [tok], numProcessedTokens := s.allTokens.length
      status := .finished, finishReason := some .stop }, false)) ∨
    (s.maxTokens ≤ s.numGenerated + 1 ∧ takeToken stop tok s = ({ s with
      allTokens := s.allTokens ++ [tok], numProcessedTokens := s.allTokens.length
      numGenerated := s.numGenerated + 1, status := .finished, finishReason := some .length
      newTokens := s.newTokens ++ [tok] }, true)) ∨
    (s.numGenerated + 1 < s.maxTokens ∧ takeToken stop tok s = ({ s with
      allTokens := s.allTokens ++ [tok], numProcessedTokens := s.allTokens.length
      numGenerated := s.numGenerated + 1, newTokens := s.newTokens ++ [tok] }, true)) := by
  have hlen : (s.allTokens ++ [tok]).length - 1 = s.allTokens.length := by simp
  unfold takeToken applyToken
  simp only [hlen]
  by_cases hstop : stop.found tok (s.allTokens ++ [tok]) = true
  · exact .inl (by simp [hstop])
  · by_cases hcap : s.numGenerated + 1 ≥ s.maxTokens
    · exact .inr (.inl ⟨hcap, by simp [hstop, hcap]⟩)
    · exact .inr (.inr ⟨Nat.lt_of_not_le hcap, by simp [hstop, hcap]⟩)

@[simp] theorem takeToken_allTokens (stop : StopRules) (tok : Token) (s : GreedySequence) :
    (takeToken stop tok s).1.allTokens = s.allTokens ++ [tok] := by
  rcases takeToken_cases stop tok s with h | ⟨-, h⟩ | ⟨-, h⟩ <;> rw [h]

theorem takeToken_frame (stop : StopRules) (tok : Token) (s : GreedySequence) :
    (takeToken stop tok s).1.cache = s.cache ∧ (takeToken stop tok s).1.draftCache = s.draftCache ∧
      (takeToken stop tok s).1.maxTokens = s.maxTokens ∧
      (takeToken stop tok s).1.numProcessedTokens = s.allTokens.length := by
  rcases takeToken_cases stop tok s with h | ⟨-, h⟩ | ⟨-, h⟩ <;> rw [h] <;> exact ⟨rfl, rfl, rfl, rfl⟩

/-- A token sent counts; one that is not ends the sequence; one that leaves it running has not reached
the cap. -/
theorem takeToken_counts (stop : StopRules) (tok : Token) (s : GreedySequence) :
    ((takeToken stop tok s).2 = true → (takeToken stop tok s).1.numGenerated = s.numGenerated + 1) ∧
      ((takeToken stop tok s).2 = false → (takeToken stop tok s).1.status = .finished) ∧
      ((takeToken stop tok s).1.status ≠ .finished →
        (takeToken stop tok s).1.numGenerated < s.maxTokens ∧
          (takeToken stop tok s).1.numGenerated = s.numGenerated + 1) := by
  rcases takeToken_cases stop tok s with h | ⟨-, h⟩ | ⟨hcap, h⟩ <;> rw [h]
  · exact ⟨nofun, fun _ => rfl, fun hc => absurd rfl hc⟩
  · exact ⟨fun _ => rfl, nofun, fun hc => absurd rfl hc⟩
  · exact ⟨fun _ => rfl, nofun, fun _ => ⟨hcap, rfl⟩⟩

/-- A sequence between two steps: its caches hold all of its tokens but the last, the draft's perhaps
fewer. -/
structure Ready (s : GreedySequence) : Prop where
  nonempty : s.allTokens ≠ []
  cache : s.cache = s.allTokens.dropLast
  draft : s.draftCache <+: s.allTokens.dropLast
  processed : s.numProcessedTokens = s.allTokens.length - 1
  room : s.status ≠ .finished → s.numGenerated < s.maxTokens

theorem last_eq {all : List Token} (h : all ≠ []) :
    ∃ last, all[all.length - 1]? = some last ∧ all.dropLast ++ [last] = all := by
  refine ⟨all.getLast h, ?_, List.dropLast_append_getLast h⟩
  rw [← List.getLast?_eq_getElem?, List.getLast?_eq_some_getLast h]

/-- The loop takes some of the accepted tokens, in order. -/
theorem acceptTokens_takes (stop : StopRules) {toks : List Token} (htoks : toks ≠ []) (s : GreedySequence) :
    ∃ k, k < toks.length ∧
      (acceptTokens stop toks s).allTokens = s.allTokens ++ toks.take (k + 1) ∧
      (acceptTokens stop toks s).maxTokens = s.maxTokens ∧
      (acceptTokens stop toks s).numProcessedTokens = (acceptTokens stop toks s).allTokens.length - 1 ∧
      ((acceptTokens stop toks s).status ≠ .finished →
        (acceptTokens stop toks s).numGenerated < s.maxTokens ∧
          s.numGenerated < (acceptTokens stop toks s).numGenerated) := by
  induction toks generalizing s with
  | nil => exact absurd rfl htoks
  | cons tok toks ih =>
      obtain ⟨-, -, hmax, hproc⟩ := takeToken_frame stop tok s
      obtain ⟨-, -, hcount⟩ := takeToken_counts stop tok s
      have hlast : (takeToken stop tok s).1.numProcessedTokens =
          (takeToken stop tok s).1.allTokens.length - 1 := by
        rw [hproc, takeToken_allTokens, List.length_append, List.length_singleton, Nat.add_sub_cancel]
      have hlive : (takeToken stop tok s).1.status ≠ .finished →
          (takeToken stop tok s).1.numGenerated < s.maxTokens ∧
            s.numGenerated < (takeToken stop tok s).1.numGenerated := fun hst => by
        have := hcount hst
        omega
      unfold acceptTokens
      simp only
      split
      next hsent =>
        cases toks with
        | nil => exact ⟨0, Nat.one_pos, takeToken_allTokens stop tok s, hmax, hlast, hlive⟩
        | cons tok' toks =>
            obtain ⟨k, hk, hall, hmax', hproc', hlive'⟩ := ih (List.cons_ne_nil _ _) (takeToken stop tok s).1
            refine ⟨k + 1, Nat.succ_lt_succ hk, ?_, hmax'.trans hmax, hproc', fun hst => ?_⟩
            · rw [hall, takeToken_allTokens, List.append_assoc]
              rfl
            · obtain ⟨h1, h2⟩ := hlive' hst
              have := (takeToken_counts stop tok s).1 hsent
              rw [hmax] at h1
              omega
      next => exact ⟨0, Nat.succ_pos _, takeToken_allTokens stop tok s, hmax, hlast, hlive⟩

theorem fillGap_eq (draft : List Token → Token) {s : GreedySequence} (h : Ready s) :
    fillGap draft s = some s.allTokens.dropLast := by
  obtain ⟨rest, hrest⟩ := h.draft
  have hlen : s.draftCache.length + rest.length = s.allTokens.length - 1 := by
    rw [← List.length_append, hrest, List.length_dropLast]
  unfold fillGap
  simp only
  split
  next hlag =>
    have hgap : (s.allTokens.drop s.draftCache.length).take (s.allTokens.length - 1 - s.draftCache.length) =
        rest := by
      have h1 : (s.allTokens.take (s.allTokens.length - 1)).drop s.draftCache.length = rest := by
        rw [← List.dropLast_eq_take, ← hrest, List.drop_left]
      rw [← h1, List.drop_take]
    have hn : s.allTokens.length - 1 - s.draftCache.length = rest.length := by omega
    rw [hgap, hn, greedyForward_eq, Option.map_some, hrest]
  next hnone =>
    have hnil : rest = [] := List.length_eq_zero_iff.1 (by omega)
    rw [hnil, List.append_nil] at hrest
    rw [hrest]

/-- The drafts of a cycle, and the tokens it accepts. -/
def cycleTokens (target draft : List Token → Token) (s : GreedySequence) : List Token :=
  accepted target s.allTokens (proposals draft specDraftK s.allTokens)

/-- A cycle from a sequence between two steps. -/
theorem speculativeDecode_eq (target draft : List Token → Token) (stop : StopRules) {s : GreedySequence}
    (h : Ready s) :
    let t := acceptTokens stop (cycleTokens target draft s) s
    let keep := t.allTokens.length - 1
    speculativeDecode target draft stop s = some { t with
      cache := (s.allTokens ++ proposals draft specDraftK s.allTokens).take keep
      draftCache := (s.allTokens ++ proposals draft specDraftK s.allTokens).dropLast.take keep } := by
  obtain ⟨last, hget, hall⟩ := last_eq h.nonempty
  have hlen : s.allTokens.length - 1 = s.allTokens.dropLast.length := List.length_dropLast.symm
  have hdraft := draftTokens_eq draft specDraftK last s.allTokens.dropLast
  rw [hall, List.append_cons, hall] at hdraft
  have hverify := greedyForward_eq target s.allTokens.dropLast
    (last :: proposals draft specDraftK s.allTokens)
  rw [List.length_cons, proposals_length, List.append_cons, hall] at hverify
  obtain ⟨correction, hcorrection, haccepted⟩ := verify_accepted target s.allTokens.dropLast last
    (proposals draft specDraftK s.allTokens)
  rw [hall] at haccepted
  unfold speculativeDecode
  simp only
  rw [fillGap_eq draft h, Option.bind_some, hget, Option.bind_some, hlen, hdraft, Option.bind_some, h.cache,
    hverify, Option.bind_some, hcorrection, Option.map_some, haccepted]
  rfl

/-- What a cycle leaves of a sequence and of its caches. -/
structure CycleStep (s t : GreedySequence) : Prop where
  ready : Ready t
  maxTokens : t.maxTokens = s.maxTokens
  grows : t.status ≠ .finished → s.numGenerated < t.numGenerated
  cache : t.cache.length + 1 = t.allTokens.length
  draftCache : t.draftCache.length + 1 = t.allTokens.length ∨
    t.allTokens.length = s.allTokens.length + specDraftK + 1 ∧
      t.draftCache.length + 2 = t.allTokens.length

theorem cycle_step {target draft : List Token → Token} {stop : StopRules} {s t : GreedySequence}
    (h : Ready s) (hs : speculativeDecode target draft stop s = some t) : CycleStep s t := by
  rw [speculativeDecode_eq target draft stop h] at hs
  cases hs
  obtain ⟨k, hk, hall, hmax, hproc, hlive⟩ :=
    acceptTokens_takes stop (accepted_ne_nil target s.allTokens (proposals draft specDraftK s.allTokens)) s
  have hle : k ≤ specDraftK := by
    have := accepted_length_le target s.allTokens (proposals draft specDraftK s.allTokens)
    rw [proposals_length] at this
    omega
  have hpos : 0 < s.allTokens.length := List.length_pos_iff.2 h.nonempty
  -- the tokens kept in the caches are the old ones and `k` drafts
  have hkept : (acceptTokens stop (cycleTokens target draft s) s).allTokens.dropLast =
      s.allTokens ++ (proposals draft specDraftK s.allTokens).take k := by
    show (acceptTokens stop (accepted _ _ _) s).allTokens.dropLast = _
    rw [hall, List.take_add_one, List.getElem?_eq_getElem hk, Option.toList_some, ← List.append_assoc,
      List.dropLast_concat, accepted_drafts target _ _ hk]
  have hlen : (acceptTokens stop (cycleTokens target draft s) s).allTokens.length =
      s.allTokens.length + k + 1 := by
    show (acceptTokens stop (accepted _ _ _) s).allTokens.length = _
    rw [hall, List.length_append, List.length_take, Nat.min_eq_left hk]
    rfl
  have hkeep : (acceptTokens stop (cycleTokens target draft s) s).allTokens.length - 1 =
      s.allTokens.length + k := by
    rw [hlen, Nat.add_sub_cancel]
  have htake : (s.allTokens ++ proposals draft specDraftK s.allTokens).take (s.allTokens.length + k) =
      s.allTokens ++ (proposals draft specDraftK s.allTokens).take k :=
    List.take_length_add_append k
  refine ⟨⟨?_, ?_, ?_, hproc, fun hst => ?_⟩, hmax, fun hst => (hlive hst).2, ?_, ?_⟩
  · exact List.ne_nil_of_length_pos (by rw [hlen]; exact Nat.succ_pos _)
  · rw [hkeep, htake]
    exact hkept.symm
  · rw [hkeep]
    refine ((List.dropLast_prefix _).take _).trans ?_
    rw [htake]
    exact (List.prefix_rfl).trans (by rw [hkept])
  · exact (hlive hst).1.trans_eq hmax.symm
  · show ((s.allTokens ++ proposals draft specDraftK s.allTokens).take _).length + 1 = _
    rw [hkeep, hlen, List.length_take, List.length_append, proposals_length]
    omega
  · show ((s.allTokens ++ proposals draft specDraftK s.allTokens).dropLast.take _).length + 1 = _ ∨
      _ ∧ ((s.allTokens ++ proposals draft specDraftK s.allTokens).dropLast.take _).length + 2 = _
    rw [hkeep, hlen, List.length_take, List.length_dropLast, List.length_append, proposals_length]
    omega

theorem takeToken_room (stop : StopRules) (tok : Token) (s : GreedySequence)
    (hst : (takeToken stop tok s).1.status ≠ .finished) :
    (takeToken stop tok s).1.numGenerated < (takeToken stop tok s).1.maxTokens := by
  rw [(takeToken_frame stop tok s).2.2.1]
  exact ((takeToken_counts stop tok s).2.2 hst).1

/-- A token taken with the cache brought up to what was there before. -/
theorem takeToken_ready (stop : StopRules) (tok : Token) {s : GreedySequence}
    (hdraft : s.draftCache <+: s.allTokens) :
    Ready { (takeToken stop tok s).1 with cache := s.allTokens } := by
  obtain ⟨-, hd, -, hproc⟩ := takeToken_frame stop tok s
  have hall := takeToken_allTokens stop tok s
  refine ⟨?_, ?_, ?_, ?_, takeToken_room stop tok s⟩
  · rw [hall]
    exact List.append_ne_nil_of_right_ne_nil _ (List.cons_ne_nil _ _)
  · rw [hall, List.dropLast_concat]
  · rw [hall, List.dropLast_concat, hd]
    exact hdraft
  · rw [hall, hproc, List.length_append, List.length_singleton, Nat.add_sub_cancel]

theorem samplePrefill_ready {target : List Token → Token} {stop : StopRules} {cached : Nat}
    {s t : GreedySequence} (hcached : cached < s.allTokens.length) (hdraft : s.draftCache = [])
    (hs : samplePrefill target stop cached s = some t) : Ready t := by
  have hforward := greedyForward_eq target (s.allTokens.take cached) (s.allTokens.drop cached)
  rw [List.length_take, Nat.min_eq_left hcached.le, List.length_drop, List.take_append_drop] at hforward
  unfold samplePrefill at hs
  rw [hforward, Option.bind_some] at hs
  obtain ⟨tok, -, rfl⟩ := Option.map_eq_some_iff.1 hs
  exact takeToken_ready stop tok (by rw [hdraft]; exact List.nil_prefix)

/-- Between two steps every sequence is ready. -/
theorem GreedyReach.ready {target draft : List Token → Token} {stop : StopRules} {prompt : List Token}
    {maxTokens : Nat} {s : GreedySequence} (h : GreedyReach target draft stop prompt maxTokens s) :
    Ready s := by
  induction h with
  | prefill cached hcached hs => exact samplePrefill_ready hcached rfl hs
  | cycle _ _ hs ih => exact (cycle_step ih hs).ready
  | preempt cached _ _ hcached hs _ => exact @samplePrefill_ready _ _ _ (preempted _) _ hcached rfl hs

/-! ## One token at a time -/

theorem sampleDecode_eq (target : List Token → Token) (stop : StopRules) {s : GreedySequence} (h : Ready s) :
    sampleDecode target stop s =
      some { (takeToken stop (target s.allTokens) s).1 with cache := s.allTokens } := by
  obtain ⟨last, hget, hall⟩ := last_eq h.nonempty
  have hforward := greedyForward_eq target s.allTokens.dropLast [last]
  rw [hall] at hforward
  have hpos : [s.numProcessedTokens] = List.range' s.allTokens.dropLast.length [last].length := by
    rw [h.processed, List.length_dropLast]
    rfl
  unfold sampleDecode
  rw [hget, Option.bind_some, h.cache, hpos, hforward]
  simp only [Option.bind_some, answers, hall, List.getElem?_cons_zero, Option.map_some]

theorem sampleDecode_ready {target : List Token → Token} {stop : StopRules} {s : GreedySequence}
    (h : Ready s) : Ready { (takeToken stop (target s.allTokens) s).1 with cache := s.allTokens } :=
  takeToken_ready stop _ (h.draft.trans (List.dropLast_prefix _))

/-- What a client and the sampler see of a sequence. -/
def visible (s : GreedySequence) : GreedySequence := { s with cache := [], draftCache := [] }

theorem takeToken_visible (stop : StopRules) (tok : Token) {s u : GreedySequence}
    (h : visible s = visible u) :
    visible (takeToken stop tok s).1 = visible (takeToken stop tok u).1 ∧
      (takeToken stop tok s).2 = (takeToken stop tok u).2 := by
  obtain ⟨⟩ := s
  obtain ⟨⟩ := u
  simp only [visible, GreedySequence.mk.injEq] at h
  obtain ⟨rfl, rfl, rfl, rfl, rfl, rfl, -, -, rfl⟩ := h
  unfold takeToken applyToken
  simp only
  split
  · exact ⟨rfl, rfl⟩
  · split <;> exact ⟨rfl, rfl⟩

/-- The loop takes a token with the sequence finished. -/
def runsOn (stop : StopRules) : List Token → GreedySequence → Prop
  | [], _ => False
  | tok :: toks, s =>
      s.status = .finished ∨ ((takeToken stop tok s).2 = true ∧ runsOn stop toks (takeToken stop tok s).1)

/-- Greedy tokens taken in a row are as many steps of one token each. -/
theorem acceptTokens_sampled {target : List Token → Token} {stop : StopRules} {toks : List Token}
    (htoks : toks ≠ []) {s u : GreedySequence} (hgreedy : GreedyFrom target s.allTokens toks)
    (hclean : ¬ runsOn stop toks s) (hu : Ready u) (hvis : visible s = visible u) :
    ∃ k v, runUntil (sampleDecode target stop) k u = some v ∧ Ready v ∧
      visible (acceptTokens stop toks s) = visible v := by
  induction toks generalizing s u with
  | nil => exact absurd rfl htoks
  | cons tok toks ih =>
      obtain ⟨htok, hrest⟩ := hgreedy
      have hstatus : (visible s).status = (visible u).status := by rw [hvis]
      have hlive : ¬ u.status = .finished := fun hfin => hclean (.inl (hstatus.trans hfin))
      have hall : (visible s).allTokens = (visible u).allTokens := by rw [hvis]
      change s.allTokens = u.allTokens at hall
      obtain ⟨hnext, hsent⟩ := takeToken_visible stop tok hvis
      have hready := @sampleDecode_ready target stop u hu
      have hstep : ∀ k, runUntil (sampleDecode target stop) (k + 1) u =
          runUntil (sampleDecode target stop) k
            { (takeToken stop (target u.allTokens) u).1 with cache := u.allTokens } := by
        intro k
        rw [runUntil, if_neg hlive, sampleDecode_eq target stop hu, Option.bind_some]
      rw [← hall, ← htok] at hready hstep
      unfold acceptTokens
      simp only
      split
      next hgoes =>
        cases toks with
        | nil => exact ⟨1, _, hstep 0, hready, hnext⟩
        | cons tok' toks =>
            obtain ⟨k, v, hrun, hv, heq⟩ := ih (List.cons_ne_nil _ _)
              (by rwa [takeToken_allTokens]) (fun hc => hclean (.inr ⟨hgoes, hc⟩)) hready hnext
            exact ⟨k + 1, v, (hstep k).trans hrun, hv, heq⟩
      next => exact ⟨1, _, hstep 0, hready, hnext⟩

/-! ## Runs -/

section

variable {step : GreedySequence → Option GreedySequence}

theorem runUntil_finished {s : GreedySequence} (h : s.status = .finished) (n : Nat) :
    runUntil step n s = some s := by
  cases n with
  | zero => rfl
  | succ n => exact if_pos h

theorem runUntil_add (m n : Nat) (s : GreedySequence) :
    runUntil step (m + n) s = (runUntil step m s).bind (runUntil step n) := by
  induction m generalizing s with
  | zero => rw [Nat.zero_add, runUntil, Option.bind_some]
  | succ m ih =>
      rw [Nat.succ_add, runUntil, runUntil]
      split
      next hfin => rw [Option.bind_some, runUntil_finished hfin]
      · rw [Option.bind_assoc]
        exact congrArg _ (funext ih)

/-- A run that finishes has one end. -/
theorem runUntil_unique {s a b : GreedySequence} {m n : Nat} (hm : runUntil step m s = some a)
    (ha : a.status = .finished) (hn : runUntil step n s = some b) (hb : b.status = .finished) : a = b := by
  have hlater : ∀ {m n : Nat} {a b : GreedySequence}, m ≤ n → runUntil step m s = some a →
      a.status = .finished → runUntil step n s = some b → a = b := by
    intro m n a b hle hm ha hn
    rw [← Nat.add_sub_cancel' hle, runUntil_add, hm, Option.bind_some, runUntil_finished ha] at hn
    exact Option.some.inj hn
  rcases Nat.le_total m n with hle | hle
  · exact hlater hle hm ha hn
  · exact (hlater hle hn hb hm).symm

/-- A step that always goes through and counts, until the sequence is finished. -/
def Progresses (step : GreedySequence → Option GreedySequence) : Prop :=
  ∀ s, Ready s → s.status ≠ .finished → ∃ t, step s = some t ∧ Ready t ∧ t.maxTokens = s.maxTokens ∧
    (t.status ≠ .finished → s.numGenerated < t.numGenerated)

theorem runUntil_finishes (h : Progresses step) {n : Nat} {s : GreedySequence} (hs : Ready s)
    (hn : s.maxTokens - s.numGenerated ≤ n) : ∃ t, runUntil step n s = some t ∧ t.status = .finished := by
  induction n generalizing s with
  | zero =>
      refine ⟨s, rfl, ?_⟩
      by_contra hlive
      have := hs.room hlive
      omega
  | succ n ih =>
      by_cases hfin : s.status = .finished
      · exact ⟨s, runUntil_finished hfin _, hfin⟩
      · obtain ⟨t, hstep, ht, hmax, hgrows⟩ := h s hs hfin
        rw [runUntil, if_neg hfin, hstep, Option.bind_some]
        by_cases hdone : t.status = .finished
        · exact ⟨t, runUntil_finished hdone _, hdone⟩
        · have := hgrows hdone
          exact ih ht (by omega)

end

section

variable (target draft : List Token → Token) (stop : StopRules)

theorem speculative_progresses : Progresses (speculativeDecode target draft stop) := by
  intro s hs _
  have heq := speculativeDecode_eq target draft stop hs
  have hstep := cycle_step hs heq
  exact ⟨_, heq, hstep.ready, hstep.maxTokens, hstep.grows⟩

theorem sample_progresses : Progresses (sampleDecode target stop) := by
  intro s hs _
  refine ⟨_, sampleDecode_eq target stop hs, sampleDecode_ready hs, ?_, fun hst => ?_⟩
  · exact (takeToken_frame stop (target s.allTokens) s).2.2.1
  · have := (takeToken_counts stop (target s.allTokens) s).2.2 hst
    show s.numGenerated < (takeToken stop (target s.allTokens) s).1.numGenerated
    omega

/-- No cycle of a run takes a token after the one that reached the cap. -/
def Clean (n : Nat) (s : GreedySequence) : Prop :=
  ∀ k < n, ∀ t, runUntil (speculativeDecode target draft stop) k s = some t → t.status ≠ .finished →
    ¬ runsOn stop (cycleTokens target draft t) t

/-- A clean run of cycles is a run of single steps. -/
theorem speculative_sampled {n : Nat} {s t u : GreedySequence} (hs : Ready s) (hu : Ready u)
    (hvis : visible s = visible u) (hclean : Clean target draft stop n s)
    (hrun : runUntil (speculativeDecode target draft stop) n s = some t) :
    ∃ k v, runUntil (sampleDecode target stop) k u = some v ∧ visible t = visible v := by
  induction n generalizing s u with
  | zero =>
      cases hrun
      exact ⟨0, u, rfl, hvis⟩
  | succ n ih =>
      by_cases hfin : s.status = .finished
      · rw [runUntil_finished hfin] at hrun
        cases hrun
        exact ⟨0, u, rfl, hvis⟩
      · have hcycle := speculativeDecode_eq target draft stop hs
        have hready := (cycle_step hs hcycle).ready
        obtain ⟨k, v, hk, hv, heq⟩ := acceptTokens_sampled
          (accepted_ne_nil target s.allTokens (proposals draft specDraftK s.allTokens))
          (accepted_greedy target s.allTokens _) (hclean 0 (Nat.succ_pos n) s rfl hfin) hu hvis
        have hstep : ∀ m, runUntil (speculativeDecode target draft stop) (m + 1) s =
            (speculativeDecode target draft stop s).bind
              (runUntil (speculativeDecode target draft stop) m) := fun m => if_neg hfin
        rw [hstep, hcycle, Option.bind_some] at hrun
        obtain ⟨k', v', hk', heq'⟩ := ih hready hv heq
          (fun m hm t ht => hclean (m + 1) (Nat.succ_lt_succ hm) t (by rw [hstep, hcycle]; exact ht)) hrun
        exact ⟨k + k', v', by rw [runUntil_add, hk, Option.bind_some, hk'], heq'⟩

/-- From every state of a sequence: a cycle leaves the target's cache one token behind and the draft's one,
or two when every draft was taken; cycles and single steps both finish; and short of an overrun they end
with the same tokens, count and reason. -/
theorem speculative_exact {prompt : List Token} {maxTokens : Nat} {s : GreedySequence}
    (h : GreedyReach target draft stop prompt maxTokens s) :
    (s.status ≠ .finished → ∃ t, speculativeDecode target draft stop s = some t ∧
      t.cache.length + 1 = t.allTokens.length ∧
      (t.draftCache.length + 1 = t.allTokens.length ∨
        t.allTokens.length = s.allTokens.length + specDraftK + 1 ∧
          t.draftCache.length + 2 = t.allTokens.length)) ∧
    ∀ n, s.maxTokens - s.numGenerated ≤ n → ∃ t u,
      runUntil (speculativeDecode target draft stop) n s = some t ∧
      runUntil (sampleDecode target stop) n s = some u ∧
      t.status = .finished ∧ u.status = .finished ∧
      (Clean target draft stop n s → visible t = visible u) := by
  have hs := h.ready
  constructor
  · intro _
    have hstep := cycle_step hs (speculativeDecode_eq target draft stop hs)
    exact ⟨_, speculativeDecode_eq target draft stop hs, hstep.cache, hstep.draftCache⟩
  · intro n hn
    obtain ⟨t, ht, htfin⟩ := runUntil_finishes (speculative_progresses target draft stop) hs hn
    obtain ⟨u, hu, hufin⟩ := runUntil_finishes (sample_progresses target stop) hs hn
    refine ⟨t, u, ht, hu, htfin, hufin, fun hclean => ?_⟩
    obtain ⟨k, v, hk, heq⟩ := speculative_sampled target draft stop hs hs rfl hclean ht
    have hstatus : (visible t).status = (visible v).status := by rw [heq]
    have hvfin : v.status = .finished := hstatus.symm.trans htfin
    rw [runUntil_unique hu hufin hk hvfin]
    exact heq

end

/-! ## A run

Both models always say 7; the prompt is one token. -/

def sevens : List Token → Token := fun _ => 7

/-- The prompt is prefilled and the first token sampled. -/
def sevensReady (maxTokens : Nat) : GreedySequence :=
  ⟨[1, 7], 1, maxTokens, 1, .running, none, [1], [], [7]⟩

theorem sevens_reach {maxTokens : Nat} (h : 1 < maxTokens) :
    GreedyReach sevens sevens ⟨[], []⟩ [1] maxTokens (sevensReady maxTokens) := by
  refine .prefill 0 (by decide) ?_
  have hcap : ¬ 0 + 1 ≥ maxTokens := by omega
  simp [samplePrefill, GreedySequence.new, greedyForward, takeToken, applyToken, StopRules.found,
    hasMatchingStopSequence, sevens, sevensReady, hcap]

/-- With six tokens to generate, one cycle reaches the cap with its last token. -/
theorem speculative_exact_sevens :
    ∃ t u, runUntil (speculativeDecode sevens sevens ⟨[], []⟩) 5 (sevensReady 6) = some t ∧
      runUntil (sampleDecode sevens ⟨[], []⟩) 5 (sevensReady 6) = some u ∧ visible t = visible u ∧
      t.newTokens = [7, 7, 7, 7, 7, 7] := by
  obtain ⟨t, u, ht, hu, -, -, heq⟩ :=
    (speculative_exact sevens sevens ⟨[], []⟩ (@sevens_reach 6 (by decide))).2 5 (by decide)
  have hdone : (runUntil (speculativeDecode sevens sevens ⟨[], []⟩) 5 (sevensReady 6)).map (·.newTokens) =
      some [7, 7, 7, 7, 7, 7] := by decide
  rw [ht] at hdone
  refine ⟨t, u, ht, hu, heq fun k hk x hx hlive => ?_, Option.some.inj hdone⟩
  -- only the first cycle finds the sequence running
  have hrun : ∀ k < 5, ∀ x, runUntil (speculativeDecode sevens sevens ⟨[], []⟩) k (sevensReady 6) = some x →
      x = sevensReady 6 ∨ x.status = .finished := by
    intro k hk x hx
    cases k with
    | zero => exact .inl (Option.some.inj hx).symm
    | succ k =>
        have hone : (runUntil (speculativeDecode sevens sevens ⟨[], []⟩) 1 (sevensReady 6)).map (·.status) =
            some .finished := by decide
        obtain ⟨y, hy, hfin⟩ := Option.map_eq_some_iff.1 hone
        rw [Nat.add_comm, runUntil_add, hy, Option.bind_some, runUntil_finished hfin] at hx
        exact .inr (by rw [← Option.some.inj hx]; exact hfin)
  rcases hrun k hk x hx with rfl | hfin
  · simp [cycleTokens, accepted, proposals, specDraftK, sevens, sevensReady, runsOn, takeToken, applyToken,
      StopRules.found, hasMatchingStopSequence]
  · exact absurd hfin hlive

/-- After a cycle that takes every draft the draft's cache is two tokens behind; with three tokens to
generate, a cycle sends six. -/
theorem speculative_differs :
    (¬ ∀ s, GreedyReach sevens sevens ⟨[], []⟩ [1] 100 s → s.status ≠ .finished → ∀ t,
      speculativeDecode sevens sevens ⟨[], []⟩ s = some t →
        t.draftCache.length = t.allTokens.length - 1) ∧
    ¬ ∀ s, GreedyReach sevens sevens ⟨[], []⟩ [1] 3 s → ∀ n t u,
      runUntil (speculativeDecode sevens sevens ⟨[], []⟩) n s = some t →
      runUntil (sampleDecode sevens ⟨[], []⟩) n s = some u → t.status = .finished →
      u.status = .finished → t.newTokens = u.newTokens := by
  constructor
  · intro h
    have hrun : (speculativeDecode sevens sevens ⟨[], []⟩ (sevensReady 100)).map
        (fun t => (t.draftCache.length, t.allTokens.length)) = some (5, 7) := by decide
    obtain ⟨t, ht, heq⟩ := Option.map_eq_some_iff.1 hrun
    obtain ⟨hdraft, hall⟩ := Prod.mk.inj heq
    have := h _ (sevens_reach (by decide)) (by decide) t ht
    omega
  · intro h
    have hspec : (runUntil (speculativeDecode sevens sevens ⟨[], []⟩) 2 (sevensReady 3)).map
        (fun t => (t.status, t.newTokens.length)) = some (.finished, 6) := by decide
    have hplain : (runUntil (sampleDecode sevens ⟨[], []⟩) 2 (sevensReady 3)).map
        (fun u => (u.status, u.newTokens.length)) = some (.finished, 3) := by decide
    obtain ⟨t, ht, hteq⟩ := Option.map_eq_some_iff.1 hspec
    obtain ⟨u, hu, hueq⟩ := Option.map_eq_some_iff.1 hplain
    obtain ⟨htfin, htlen⟩ := Prod.mk.inj hteq
    obtain ⟨hufin, hulen⟩ := Prod.mk.inj hueq
    have := congrArg List.length (h _ (sevens_reach (by decide)) 2 t u ht hu htfin hufin)
    omega

end Oxydllm.Kv.Exact
