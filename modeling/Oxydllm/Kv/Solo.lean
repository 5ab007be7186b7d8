/-
# Oxydllm.Kv.Solo — a request alone, one token at a time.

The loop a request asks for: the logits behind all of its tokens, read from an empty cache; a token sampled
from them; the stop rules and the limit. What reading does is put together here (`read_append`), since the
engine reads a prompt in pieces, some of them from the prefix cache.
-/
import Oxydllm.Kv.EngineStep

namespace Oxydllm.Kv.Batched

open Exact (FinishReason StopRules)

variable {ρ Λ σ γ ω : Type}

/-! ## Reading tokens -/

namespace CausalModel

variable (m : CausalModel ρ Λ)

/-- Tokens read behind a cache, each at the position of its row. -/
def read (cache : List ρ) (tokens : List Token) : Slot ρ Λ :=
  (tokens.zip (List.range' cache.length tokens.length)).foldl m.feed ⟨cache, none⟩

/-- The rows of some tokens, and the logits behind them. -/
def rowsOf (tokens : List Token) : List ρ := (m.read [] tokens).cache

def answer (tokens : List Token) : Option Λ := (m.read [] tokens).last

theorem foldl_feed_cache (s : Slot ρ Λ) (xs : List (Token × Nat)) :
    ∃ new, (xs.foldl m.feed s).cache = s.cache ++ new ∧ new.length = xs.length := by
  induction xs generalizing s with
  | nil => exact ⟨[], (List.append_nil _).symm, rfl⟩
  | cons x xs ih =>
      obtain ⟨new, hnew, hlen⟩ := ih (m.feed s x)
      refine ⟨m.row s.cache x.1 x.2 :: new, ?_, congrArg Nat.succ hlen⟩
      rw [List.foldl_cons, hnew]
      show s.cache ++ [_] ++ new = _
      rw [List.append_assoc, List.singleton_append]

theorem read_cache (cache : List ρ) (tokens : List Token) :
    ∃ new, (m.read cache tokens).cache = cache ++ new ∧ new.length = tokens.length := by
  obtain ⟨new, hnew, hlen⟩ :=
    m.foldl_feed_cache ⟨cache, none⟩ (tokens.zip (List.range' cache.length tokens.length))
  refine ⟨new, hnew, ?_⟩
  rw [hlen, List.length_zip, List.length_range', min_self]

theorem rowsOf_length (tokens : List Token) : (m.rowsOf tokens).length = tokens.length := by
  obtain ⟨new, hnew, hlen⟩ := m.read_cache [] tokens
  unfold rowsOf
  rw [hnew, List.nil_append, hlen]

/-- Tokens read in two pieces. -/
theorem read_append (before : List Token) {after : List Token} (h : after ≠ []) :
    m.read [] (before ++ after) = m.read (m.rowsOf before) after := by
  have hne : after.zip (List.range' before.length after.length) ≠ [] := by
    apply List.ne_nil_of_length_pos
    rw [List.length_zip, List.length_range', min_self]
    exact List.length_pos_of_ne_nil h
  have hsplit : (before ++ after).zip (List.range' 0 (before ++ after).length) =
      before.zip (List.range' 0 before.length) ++ after.zip (List.range' before.length after.length) := by
    rw [List.length_append, ← List.range'_append_1, Nat.zero_add]
    exact List.zip_append List.length_range'.symm
  show ((before ++ after).zip (List.range' 0 (before ++ after).length)).foldl m.feed _ = _
  rw [hsplit, List.foldl_append, feed_blank m _ hne]
  unfold read
  rw [m.rowsOf_length]
  rfl

theorem rowsOf_append (before after : List Token) :
    ∃ new, m.rowsOf (before ++ after) = m.rowsOf before ++ new ∧ new.length = after.length := by
  by_cases h : after = []
  · subst h
    exact ⟨[], by rw [List.append_nil, List.append_nil], rfl⟩
  · unfold rowsOf
    rw [m.read_append before h]
    exact m.read_cache _ _

theorem rowsOf_take (tokens : List Token) (n : Nat) : m.rowsOf (tokens.take n) = (m.rowsOf tokens).take n := by
  obtain ⟨new, hnew, -⟩ := m.rowsOf_append (tokens.take n) (tokens.drop n)
  rw [List.take_append_drop] at hnew
  rcases Nat.le_total n tokens.length with h | h
  · have hlen : (m.rowsOf (tokens.take n)).length = n := by
      rw [rowsOf_length, List.length_take, min_eq_left h]
    rw [hnew, List.take_left' hlen]
  · rw [List.take_of_length_le h, List.take_of_length_le (by rwa [rowsOf_length])]

theorem answer_some {tokens : List Token} (h : tokens ≠ []) : ∃ logits, m.answer tokens = some logits := by
  have hne : tokens.zip (List.range' 0 tokens.length) ≠ [] := by
    apply List.ne_nil_of_length_pos
    rw [List.length_zip, List.length_range', min_self]
    exact List.length_pos_of_ne_nil h
  obtain ⟨logits, hlast⟩ := feed_last m ⟨[], none⟩ hne
  exact ⟨logits, congrArg Slot.last hlast⟩

end CausalModel

/-! ## The loop of one request -/

/-- A request on its own: its tokens, what of them was sent and how it ended. -/
structure Solo (γ : Type) where
  allTokens : List Token
  numGenerated : Nat
  constraint : Option γ
  sent : List Token
  finishReason : Option FinishReason

namespace Solo

def start (req : Request σ γ) : Solo γ := ⟨req.prompt, 0, req.constraint, [], none⟩

/-- One token more. A request that has ended stays. -/
def turn (parts : Parts ρ Λ σ γ ω) (req : Request σ γ) (s : Solo γ) (draw : ω) : Solo γ :=
  match s.finishReason, parts.model.answer s.allTokens with
  | none, some logits =>
      let token := parts.sample draw logits req.samplingParams s.allTokens (fun t => s.allTokens.count t) s.constraint
      let all := s.allTokens ++ [token]
      let constraint := s.constraint.map (parts.advance · token)
      if parts.stop.found token all then ⟨all, s.numGenerated, constraint, s.sent, some .stop⟩
      else
        ⟨all, s.numGenerated + 1, constraint, s.sent ++ [token],
          if s.numGenerated + 1 ≥ req.maxTokens then some .length else none⟩
  | _, _ => s

/-- As many tokens as there are draws. -/
def run (parts : Parts ρ Λ σ γ ω) (req : Request σ γ) (draws : List ω) : Solo γ :=
  draws.foldl (turn parts req) (start req)

theorem run_concat (parts : Parts ρ Λ σ γ ω) (req : Request σ γ) (draws : List ω) (draw : ω) :
    run parts req (draws ++ [draw]) = turn parts req (run parts req draws) draw :=
  List.foldl_concat _ _ _ _

theorem turn_finished (parts : Parts ρ Λ σ γ ω) (req : Request σ γ) {s : Solo γ} (h : s.finishReason.isSome)
    (draw : ω) : turn parts req s draw = s := by
  obtain ⟨reason, hreason⟩ := Option.isSome_iff_exists.1 h
  unfold turn
  rw [hreason]

theorem foldl_finished (parts : Parts ρ Λ σ γ ω) (req : Request σ γ) {s : Solo γ} (h : s.finishReason.isSome)
    (draws : List ω) : draws.foldl (turn parts req) s = s := by
  induction draws with
  | nil => rfl
  | cons draw draws ih => rw [List.foldl_cons, turn_finished parts req h, ih]

/-- What was sent stays sent. -/
theorem turn_sent (parts : Parts ρ Λ σ γ ω) (req : Request σ γ) (s : Solo γ) (draw : ω) :
    s.sent <+: (turn parts req s draw).sent := by
  unfold turn
  split
  next =>
    dsimp only
    split
    · exact List.prefix_refl _
    · exact List.prefix_append _ _
  · exact List.prefix_refl _

theorem foldl_sent (parts : Parts ρ Λ σ γ ω) (req : Request σ γ) (s : Solo γ) (draws : List ω) :
    s.sent <+: (draws.foldl (turn parts req) s).sent := by
  induction draws generalizing s with
  | nil => exact List.prefix_refl _
  | cons draw draws ih => exact (turn_sent parts req s draw).trans (ih _)

/-- Where the draws do not matter, a loop with more of them goes on from where the other is. -/
theorem run_longer {parts : Parts ρ Λ σ γ ω} (hdraw : ∀ w w', parts.sample w = parts.sample w') (req : Request σ γ)
    {draws draws' : List ω} (hle : draws.length ≤ draws'.length) :
    ∃ more : List ω, run parts req draws' = more.foldl (turn parts req) (run parts req draws) := by
  have hturn : ∀ (s : Solo γ) (w w' : ω), turn parts req s w = turn parts req s w' := by
    intro s w w'
    unfold turn
    rw [hdraw w w']
  have hsame : ∀ (xs ys : List ω) (s : Solo γ), xs.length = ys.length →
      xs.foldl (turn parts req) s = ys.foldl (turn parts req) s := by
    intro xs
    induction xs with
    | nil =>
        intro ys s hlen
        rw [List.eq_nil_of_length_eq_zero hlen.symm]
    | cons x xs ih =>
        intro ys s hlen
        obtain ⟨y, ys, rfl⟩ := List.exists_cons_of_length_eq_add_one hlen.symm
        rw [List.foldl_cons, List.foldl_cons, hturn s x y]
        exact ih ys _ (Nat.succ_injective hlen)
  refine ⟨draws'.drop draws.length, ?_⟩
  unfold run
  rw [hsame draws (draws'.take draws.length) _ (by rw [List.length_take, min_eq_left hle]), ← List.foldl_append,
    List.take_append_drop]

end Solo

/-! ## A sequence that follows its request's loop -/

/-- The tokens sent to a request. -/
def sentTo (sent : List (SequenceId × Token)) (id : SequenceId) : List Token :=
  (sent.filter (·.1 = id)).map Prod.snd

theorem sentTo_append (sent more : List (SequenceId × Token)) (id : SequenceId) :
    sentTo (sent ++ more) id = sentTo sent id ++ sentTo more id := by
  unfold sentTo
  rw [List.filter_append, List.map_append]

theorem sentTo_self (id : SequenceId) (token : Token) : sentTo [(id, token)] id = [token] := by
  simp [sentTo]

theorem sentTo_other {id id' : SequenceId} (h : id' ≠ id) (token : Token) : sentTo [(id', token)] id = [] := by
  simp [sentTo, h]

/-- The sequence is where its request's loop is after some draws, and its client has what the loop sent. -/
structure Follows (parts : Parts ρ Λ σ γ ω) (requests : List (Request σ γ)) (sent : List (SequenceId × Token))
    (s : Sequence ρ σ γ) : Prop where
  loop : ∃ req draws, requests[s.id]? = some req ∧ s.samplingParams = req.samplingParams ∧
    s.maxTokens = req.maxTokens ∧ Solo.run parts req draws =
      ⟨s.allTokens, s.numGenerated, s.constraint, sentTo sent s.id, s.finishReason⟩
  counts : s.tokenCounts = fun t => s.allTokens.count t
  finished : s.status = .finished ↔ s.finishReason.isSome
  nonempty : s.allTokens ≠ []

theorem countToken_count (tokens : List Token) (token : Token) :
    countToken (fun t => tokens.count t) token = fun t => (tokens ++ [token]).count t := by
  funext t
  unfold countToken
  rw [List.count_append, List.count_singleton]
  by_cases h : t = token
  · rw [if_pos h, h, beq_self_eq_true, if_pos rfl]
  · have hne : (token == t) = false := beq_false_of_ne (Ne.symm h)
    rw [if_neg h, hne]
    rfl

theorem foldl_countToken (tokens : List Token) :
    (tokens.foldl countToken fun _ => 0) = fun t => tokens.count t := by
  induction tokens using List.reverseRecOn with
  | nil => rfl
  | append_singleton tokens token ih => rw [List.foldl_concat, ih, countToken_count]

theorem Follows.new (parts : Parts ρ Λ σ γ ω) {requests : List (Request σ γ)} {sent : List (SequenceId × Token)}
    {id : SequenceId} {req : Request σ γ} (hreq : requests[id]? = some req) (hsent : sentTo sent id = [])
    (hprompt : req.prompt ≠ []) : Follows parts requests sent (.new id req : Sequence ρ σ γ) := by
  refine ⟨⟨req, [], hreq, rfl, rfl, ?_⟩, foldl_countToken _, ?_, hprompt⟩
  · show Solo.start req = ⟨req.prompt, 0, req.constraint, sentTo sent id, none⟩
    rw [hsent]
    rfl
  · constructor <;> intro h <;> cases h

/-- Nothing of what is followed is about the cache, the phase or the place of the sequence. -/
theorem Follows.moved {parts : Parts ρ Λ σ γ ω} {requests : List (Request σ γ)} {sent : List (SequenceId × Token)}
    {s s' : Sequence ρ σ γ} (h : Follows parts requests sent s) (hrunning : s.status ≠ .finished)
    (hrunning' : s'.status ≠ .finished) (hid : s'.id = s.id) (hgen : s'.numGenerated = s.numGenerated)
    (hall : s'.allTokens = s.allTokens) (hcounts : s'.tokenCounts = s.tokenCounts)
    (hparams : s'.samplingParams = s.samplingParams) (hmax : s'.maxTokens = s.maxTokens)
    (hreason : s'.finishReason = s.finishReason) (hconstraint : s'.constraint = s.constraint) :
    Follows parts requests sent s' := by
  obtain ⟨req, draws, hreq, hp, hm, hrun⟩ := h.loop
  refine ⟨⟨req, draws, hid ▸ hreq, hparams.trans hp, hmax.trans hm, ?_⟩, ?_, ?_, ?_⟩
  · rw [hall, hgen, hconstraint, hid, hreason]
    exact hrun
  · rw [hcounts, hall]
    exact h.counts
  · rw [hreason]
    exact ⟨fun hfin => absurd hfin hrunning', fun hsome => absurd (h.finished.2 hsome) hrunning⟩
  · rw [hall]
    exact h.nonempty

/-- A token sampled from the logits behind all the tokens is the loop's next one. -/
theorem Follows.sampled {parts : Parts ρ Λ σ γ ω} {requests : List (Request σ γ)}
    {sent : List (SequenceId × Token)} {s : Sequence ρ σ γ} (h : Follows parts requests sent s)
    (hlive : s.finishReason = none) {logits : Λ} (hlogits : parts.model.answer s.allTokens = some logits)
    (draw : ω) {token : Token} {s' : Sequence ρ σ γ} {emit : Bool}
    (hs : sampleToken parts draw logits s = (token, s', emit)) :
    Follows parts requests (if emit then sent ++ [(s.id, token)] else sent) s' ∧ s'.id = s.id ∧
      s'.cache = s.cache ∧ s'.allTokens = s.allTokens ++ [token] ∧
      s'.numProcessedTokens = s'.allTokens.length - 1 := by
  obtain ⟨req, draws, hreq, hp, hm, hrun⟩ := h.loop
  have hcounts : countToken s.tokenCounts token = fun t => (s.allTokens ++ [token]).count t := by
    rw [h.counts, countToken_count]
  have hnext := Solo.run_concat parts req draws draw
  rw [hrun] at hnext
  unfold Solo.turn at hnext
  rw [hlive, hlogits] at hnext
  dsimp only at hnext
  rw [← hp, ← h.counts] at hnext
  unfold sampleToken at hs
  dsimp only [Sequence.appendToken] at hs
  obtain ⟨htoken, hs⟩ := Prod.mk.inj hs
  rw [htoken] at hs hnext
  have hstatus : s.status ≠ .finished := fun hfin => by
    have := h.finished.1 hfin
    rw [hlive] at this
    cases this
  unfold Sequence.applyToken at hs
  dsimp only at hs
  split at hs
  next hstop =>
    obtain ⟨rfl, rfl⟩ := Prod.mk.inj hs
    rw [if_pos hstop] at hnext
    refine ⟨⟨⟨req, draws ++ [draw], hreq, hp, hm, ?_⟩, ?_, ?_, ?_⟩, rfl, rfl, rfl, rfl⟩
    · exact hnext
    · exact hcounts
    · exact ⟨fun _ => rfl, fun _ => rfl⟩
    · exact List.append_ne_nil_of_right_ne_nil _ (List.cons_ne_nil _ _)
  next hstop =>
    rw [if_neg hstop] at hnext
    split at hs
    next hmax =>
      obtain ⟨rfl, rfl⟩ := Prod.mk.inj hs
      refine ⟨⟨⟨req, draws ++ [draw], hreq, hp, hm, ?_⟩, ?_, ?_, ?_⟩, rfl, rfl, rfl, rfl⟩
      · rw [hnext, if_pos rfl, sentTo_append, sentTo_self, if_pos (hm ▸ hmax)]
      · exact hcounts
      · exact ⟨fun _ => rfl, fun _ => rfl⟩
      · exact List.append_ne_nil_of_right_ne_nil _ (List.cons_ne_nil _ _)
    next hmax =>
      obtain ⟨rfl, rfl⟩ := Prod.mk.inj hs
      refine ⟨⟨⟨req, draws ++ [draw], hreq, hp, hm, ?_⟩, ?_, ?_, ?_⟩, rfl, rfl, rfl, rfl⟩
      · rw [hnext, if_pos rfl, sentTo_append, sentTo_self, if_neg (hm ▸ hmax)]
        show _ = (⟨_, _, _, _, s.finishReason⟩ : Solo γ)
        rw [hlive]
      · exact hcounts
      · show s.status = .finished ↔ s.finishReason.isSome
        exact h.finished
      · exact List.append_ne_nil_of_right_ne_nil _ (List.cons_ne_nil _ _)

/-- What is sent to others is nothing to a sequence. -/
theorem Follows.other {parts : Parts ρ Λ σ γ ω} {requests : List (Request σ γ)}
    {sent more : List (SequenceId × Token)} {s : Sequence ρ σ γ} (h : Follows parts requests sent s)
    (hmore : sentTo more s.id = []) : Follows parts requests (sent ++ more) s := by
  refine ⟨?_, h.counts, h.finished, h.nonempty⟩
  rw [sentTo_append, hmore, List.append_nil]
  exact h.loop

end Oxydllm.Kv.Batched
