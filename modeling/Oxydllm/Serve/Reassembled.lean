/-
# Oxydllm.Serve.Reassembled — a streamed answer put together again.

A client that appends the deltas of a choice to each other (`assemble`) has what the collector of that sequence has
(`Matches`), whatever the order in which the events of the sequences came (`assemble_matches`). When every sequence
closes its stream, the task sees the end of each (`StreamReach.taken_all`, `StreamReach.not_hungUp`).
-/
import Mathlib.Data.List.GetD
import Oxydllm.Serve.StreamRun

namespace Oxydllm.Serve.Chat

open FanIn (ofSource ofSource_nil ofSource_self ofSource_ne)

variable {F : Type} {env : Envelope} {req : Request}

/-! ## A client -/

/-- What a client has put together of one choice. -/
structure Assembled (F : Type) where
  content : String
  reasoningContent : String
  finishReason : Option String
  logprobs : List (TokenLogprob F)
  calls : List Call

def Assembled.start : Assembled F := ⟨"", "", none, [], []⟩

/-- The first delta of a call makes it, any other appends to its arguments. -/
def addDelta (calls : List Call) (d : ToolCallDelta) : List Call :=
  if d.index < calls.length then
    calls.modify d.index fun c => { c with arguments := c.arguments ++ d.function.arguments }
  else calls ++ [⟨d.id.getD [], d.callType.getD [], d.function.name.getD [], d.function.arguments⟩]

def Assembled.read (a : Assembled F) (c : ChunkChoice F) : Assembled F where
  content := a.content ++ c.delta.content.getD ""
  reasoningContent := a.reasoningContent ++ c.delta.reasoningContent.getD ""
  finishReason := c.finishReason.or a.finishReason
  logprobs := a.logprobs ++ (c.logprobs.map (·.content)).getD []
  calls := (c.delta.toolCalls.getD []).foldl addDelta a.calls

/-- The deltas of choice `i`. -/
def Sse.choicesOf (i : Nat) : Sse F → List (ChunkChoice F)
  | .chunk c => c.choices.filter (·.index == i)
  | .error _ => []
  | .done => []

def assemble (i : Nat) (log : List (Sse F)) : Assembled F :=
  (log.flatMap (Sse.choicesOf i)).foldl Assembled.read .start

def Sse.usage : Sse F → Option Usage
  | .chunk c => c.usage
  | .error _ => none
  | .done => none

def usagesOf (log : List (Sse F)) : List Usage := log.filterMap Sse.usage

def Sse.isChunk : Sse F → Bool
  | .chunk _ => true
  | .error _ => false
  | .done => false

/-- The choice of a response, from what was streamed of it. -/
def readChoice (out : Outside) (req : Request) (log : List (Sse F)) (i : Nat) : Choice F :=
  let a := assemble i log
  let message := responseMessage out req a.content a.reasoningContent (a.finishReason.getD "stop")
  ⟨i, message.1, message.2, if req.wantsLogprobs then some ⟨a.logprobs, none⟩ else none⟩

/-! ## The deltas of a stream -/

theorem choicesOf_choiceChunk (i : Nat) (c : ChunkChoice F) :
    (choiceChunk env c).choicesOf i = if c.index = i then [c] else [] := by
  show [c].filter (·.index == i) = _
  rcases eq_or_ne c.index i with heq | hne
  · rw [if_pos heq]
    exact List.filter_cons_of_pos (by simpa using heq)
  · rw [if_neg hne]
    exact List.filter_cons_of_neg (by simpa using hne)

theorem choicesOf_chunks {i j : Nat} {cs : List (ChunkChoice F)} (h : ∀ c ∈ cs, c.index = j) :
    (cs.map (choiceChunk env)).flatMap (Sse.choicesOf i) = if j = i then cs else [] := by
  induction cs with
  | nil => simp
  | cons c cs ih =>
      rw [List.map_cons, List.flatMap_cons, choicesOf_choiceChunk, h c List.mem_cons_self,
        ih fun c hc => h c (List.mem_cons_of_mem _ hc)]
      split <;> rfl

theorem index_eventChunks {i : Nat} {e : EngineEvent F} : ∀ c ∈ eventChunks req i e, c.index = i := by
  intro c hc
  rcases e with ⟨text, entries⟩ | text | ⟨finishReason, completionTokens⟩ | _ | msg
  · simp only [eventChunks] at hc
    split at hc
    · exact absurd hc List.not_mem_nil
    · rw [List.mem_singleton.1 hc]
      rfl
  · rw [List.mem_singleton.1 hc]
    rfl
  · rw [List.mem_singleton.1 hc]
    rfl
  · exact absurd hc List.not_mem_nil
  · exact absurd hc List.not_mem_nil

theorem choicesOf_finishUsage (i : Nat) (e : EngineEvent F) : (finishUsage env req e).flatMap (Sse.choicesOf i) = [] := by
  rcases e with ⟨text, entries⟩ | text | ⟨finishReason, completionTokens⟩ | _ | msg
  case finish =>
    show List.flatMap _ (if req.n = 1 ∧ req.includeUsage = true then _ else _) = _
    split <;> rfl
  all_goals rfl

/-- The chunks of an event carry its sequence's index. -/
theorem eventMessages_eq {p : Nat × EngineEvent F} (h : p.1 < req.n) :
    eventMessages env req p = (eventChunks req p.1 p.2).map (choiceChunk env) ++ finishUsage env req p.2 := by
  have hindex : (if req.n = 1 then 0 else p.1) = p.1 := by split <;> omega
  rw [eventMessages, hindex]

theorem choicesOf_events {i : Nat} {taken : List (Nat × EngineEvent F)} (h : ∀ p ∈ taken, p.1 < req.n) :
    (taken.flatMap (eventMessages env req)).flatMap (Sse.choicesOf i) =
      (ofSource i taken).flatMap (eventChunks req i) := by
  induction taken with
  | nil => rfl
  | cons p taken ih =>
      obtain ⟨j, e⟩ := p
      rw [List.flatMap_cons, List.flatMap_append, ih fun p hp => h p (List.mem_cons_of_mem _ hp),
        eventMessages_eq (h _ List.mem_cons_self), List.flatMap_append, choicesOf_finishUsage, List.append_nil,
        choicesOf_chunks index_eventChunks]
      rcases eq_or_ne j i with rfl | hne
      · rw [if_pos rfl, ofSource_self, List.flatMap_cons]
      · rw [if_neg hne, ofSource_ne hne, List.nil_append]

/-- A role says nothing that is put together. -/
theorem read_role (a : Assembled F) (i : Nat) : a.read (roleChunk i) = a := by
  simp [Assembled.read, roleChunk, Delta.empty]

theorem read_roles (i : Nat) (a : Assembled F) (is : List Nat) :
    ((is.map fun j => choiceChunk env (roleChunk j)).flatMap (Sse.choicesOf i)).foldl Assembled.read a = a := by
  induction is generalizing a with
  | nil => rfl
  | cons j is ih =>
      rw [List.map_cons, List.flatMap_cons, List.foldl_append, choicesOf_choiceChunk]
      split
      · rw [List.foldl_cons, read_role, List.foldl_nil, ih]
      · exact ih a

theorem assemble_transcript {i : Nat} {taken : List (Nat × EngineEvent F)} (h : ∀ p ∈ taken, p.1 < req.n)
    {tail : List (Sse F)} (htail : tail.flatMap (Sse.choicesOf i) = []) :
    assemble i (transcript env req taken ++ tail) =
      ((ofSource i taken).flatMap (eventChunks req i)).foldl Assembled.read .start := by
  rw [assemble, transcript, List.flatMap_append, htail, List.append_nil, List.flatMap_append, List.foldl_append,
    roleMessages, read_roles, choicesOf_events h]

/-! ## Client and collector -/

/-- A client has put together what was collected. -/
structure Matches (req : Request) (data : CompletionData F) (a : Assembled F) : Prop where
  content : a.content = data.content
  reasoning : a.reasoningContent = data.reasoningContent
  finish : a.finishReason.getD "stop" = data.finishReason
  logprobs : a.logprobs =
    if req.wantsLogprobs then (buildLogprobsContent data.logprobEntries req.reqTopN).content else []

theorem Matches.start : Matches req (.start : CompletionData F) .start :=
  ⟨rfl, rfl, rfl, by split <;> rfl⟩

/-- The logprobs of a token's chunk are those of its entries. -/
theorem chunkLogprobs_content (entries : List (EngineLogprobEntry F)) :
    ((chunkLogprobs req entries).map (·.content)).getD [] =
      if req.wantsLogprobs then (buildLogprobsContent entries req.reqTopN).content else [] := by
  unfold chunkLogprobs
  rcases hwants : req.wantsLogprobs with _ | _
  · rfl
  · rcases entries with _ | ⟨e, entries⟩
    · rfl
    · rfl

/-- One event of the sequence, streamed on the one hand and collected on the other. -/
theorem Matches.event {data : CompletionData F} {a : Assembled F} (h : Matches req data a) (i : Nat)
    (e : EngineEvent F) : Matches req (data.absorb e) ((eventChunks req i e).foldl Assembled.read a) := by
  rcases e with ⟨text, entries⟩ | text | ⟨finishReason, completionTokens⟩ | _ | msg
  · simp only [eventChunks]
    split
    next hskip =>
      -- a token without text and without entries adds nothing
      obtain ⟨htext, hentries⟩ := Bool.and_eq_true_iff.1 hskip
      have hnone : data.absorb (.token text entries) = data := by
        rw [CompletionData.absorb, String.isEmpty_iff.1 htext, List.isEmpty_iff.1 hentries, String.append_empty,
          List.append_nil]
      rw [hnone]
      exact h
    next =>
      refine ⟨?_, ?_, h.finish, ?_⟩
      · show a.content ++ text = data.content ++ text
        rw [h.content]
      · show a.reasoningContent ++ "" = data.reasoningContent
        rw [h.reasoning, String.append_empty]
      · show a.logprobs ++ ((chunkLogprobs req entries).map (·.content)).getD [] =
          if req.wantsLogprobs then (buildLogprobsContent (data.logprobEntries ++ entries) req.reqTopN).content else []
        rw [h.logprobs, chunkLogprobs_content]
        split
        · exact List.map_append.symm
        · rfl
  · refine ⟨?_, ?_, h.finish, ?_⟩
    · show a.content ++ "" = data.content
      rw [h.content, String.append_empty]
    · show a.reasoningContent ++ text = data.reasoningContent ++ text
      rw [h.reasoning]
    · show a.logprobs ++ [] = _
      rw [List.append_nil]
      exact h.logprobs
  · refine ⟨?_, ?_, rfl, ?_⟩
    · show a.content ++ "" = data.content
      rw [h.content, String.append_empty]
    · show a.reasoningContent ++ "" = data.reasoningContent
      rw [h.reasoning, String.append_empty]
    · show a.logprobs ++ [] = _
      rw [List.append_nil]
      exact h.logprobs
  · exact h
  · exact h

theorem Matches.events {data : CompletionData F} {a : Assembled F} (h : Matches req data a) (i : Nat)
    (es : List (EngineEvent F)) :
    Matches req (es.foldl CompletionData.absorb data) ((es.flatMap (eventChunks req i)).foldl Assembled.read a) := by
  induction es generalizing data a with
  | nil => exact h
  | cons e es ih =>
      rw [List.flatMap_cons, List.foldl_append, List.foldl_cons]
      exact ih (h.event i e)

/-- A stream up to any event is put together as its sequences were collected. -/
theorem assemble_matches (i : Nat) {taken : List (Nat × EngineEvent F)} (h : ∀ p ∈ taken, p.1 < req.n)
    {tail : List (Sse F)} (htail : tail.flatMap (Sse.choicesOf i) = []) :
    Matches req ((ofSource i taken).foldl CompletionData.absorb .start)
      (assemble i (transcript env req taken ++ tail)) := by
  rw [assemble_transcript h htail]
  exact Matches.start.events i _

/-! ## How streams end -/

/-- The end of the stream comes once, last. -/
def Closes (es : List (EngineEvent F)) : Prop :=
  ∃ front last, es = front ++ [last, .streamEnd] ∧ ∀ e ∈ front ++ [last], e.ends = 0

theorem ends_of_texts {texts : List (EngineEvent F)} (h : Texts (texts.map EngineEvent.plain)) :
    ∀ e ∈ texts, e.ends = 0 ∧ e.isError = false ∧ e.tokens = 0 := by
  intro e he
  have htext := h _ (List.mem_map_of_mem he)
  rcases e with ⟨text, entries⟩ | text | ⟨finishReason, completionTokens⟩ | _ | msg
  · exact ⟨rfl, rfl, rfl⟩
  · exact ⟨rfl, rfl, rfl⟩
  · exact absurd htext Bool.false_ne_true
  · exact absurd htext Bool.false_ne_true
  · exact absurd htext Bool.false_ne_true

theorem Finished.closes {es texts : List (EngineEvent F)} {finishReason : String} {completionTokens : Nat}
    (h : Finished es texts finishReason completionTokens) : Closes es := by
  refine ⟨texts, .finish finishReason completionTokens, h.eq, ?_⟩
  intro e he
  rcases List.mem_append.1 he with htext | hlast
  · exact (ends_of_texts h.plain e htext).1
  · rw [List.mem_singleton.1 hlast]
    rfl

theorem Failed.closes {es texts : List (EngineEvent F)} {msg : String} (h : Failed es texts msg) : Closes es := by
  refine ⟨texts, .error msg, h.eq, ?_⟩
  intro e he
  rcases List.mem_append.1 he with htext | hlast
  · exact (ends_of_texts h.plain e htext).1
  · rw [List.mem_singleton.1 hlast]
    rfl

theorem Finished.calm {es texts : List (EngineEvent F)} {finishReason : String} {completionTokens : Nat}
    (h : Finished es texts finishReason completionTokens) : ∀ e ∈ es, e.isError = false := by
  intro e he
  rw [h.eq] at he
  rcases List.mem_append.1 he with htext | hlast
  · exact (ends_of_texts h.plain e htext).2.1
  · rcases List.mem_cons.1 hlast with rfl | hend
    · rfl
    · rw [List.mem_singleton.1 hend]
      rfl

theorem sum_ends_zero {es : List (EngineEvent F)} (h : ∀ e ∈ es, e.ends = 0) : (es.map EngineEvent.ends).sum = 0 := by
  apply List.sum_eq_zero
  intro x hx
  obtain ⟨e, he, rfl⟩ := List.mem_map.1 hx
  exact h e he

/-- A beginning of a stream that closes has its end only when it is all of it. -/
theorem Closes.prefix_ends {es taken : List (EngineEvent F)} (h : Closes es) (hfront : taken <+: es) :
    (taken = es ∧ (taken.map EngineEvent.ends).sum = 1) ∨ (taken.map EngineEvent.ends).sum = 0 := by
  obtain ⟨front, last, rfl, hzero⟩ := h
  have hlist : front ++ [last, .streamEnd] = (front ++ [last]) ++ [.streamEnd] := by
    rw [List.append_assoc]
    rfl
  rw [hlist] at hfront ⊢
  rcases List.prefix_concat_iff.1 hfront with rfl | hshort
  · refine .inl ⟨rfl, ?_⟩
    rw [List.map_append, List.sum_append, sum_ends_zero hzero]
    rfl
  · exact .inr (sum_ends_zero fun e he => hzero e (hshort.subset he))

section Run

variable {streams : List (List (EngineEvent F))} {leavesAfter : Option Nat} {s : StreamState F}

theorem sourcesOf_nil (h : streams.length = req.n) : ∀ i, req.n ≤ i → sourcesOf streams i = [] := by
  intro i hi
  exact List.getD_eq_default _ _ (by omega)

theorem sourcesOf_mem (h : streams.length = req.n) {i : Nat} (hi : i < req.n) : sourcesOf streams i ∈ streams := by
  have hlt : i < streams.length := by omega
  rw [sourcesOf, List.getD_eq_getElem _ _ hlt]
  exact List.getElem_mem hlt

theorem StreamReach.taken_lt (h : StreamReach env req streams leavesAfter s) (hlen : streams.length = req.n) :
    ∀ p ∈ s.net.taken, p.1 < req.n := h.conserves.taken_lt (sourcesOf_nil hlen)

/-- Every sequence's end was counted once, so all of every sequence was taken. -/
theorem StreamReach.taken_all (h : StreamReach env req streams leavesAfter s) (hlen : streams.length = req.n)
    (hcloses : ∀ es ∈ streams, Closes es) (hends : endsOf s.net.taken = req.n) :
    ∀ i < req.n, ofSource i s.net.taken = sourcesOf streams i := by
  have hsum := FanIn.sum_ofSource EngineEvent.ends (h.taken_lt hlen)
  have hends' : ∑ i ∈ Finset.range req.n, ((ofSource i s.net.taken).map EngineEvent.ends).sum =
      ∑ _i ∈ Finset.range req.n, 1 := by
    rw [← hsum, Finset.sum_const, Finset.card_range, smul_eq_mul, mul_one]
    exact hends
  have hle : ∀ i ∈ Finset.range req.n, ((ofSource i s.net.taken).map EngineEvent.ends).sum ≤ 1 := by
    intro i hi
    rcases (hcloses _ (sourcesOf_mem hlen (Finset.mem_range.1 hi))).prefix_ends (h.conserves.taken_prefix i) with
      ⟨-, hone⟩ | hzero
    · exact Nat.le_of_eq hone
    · rw [hzero]
      exact Nat.zero_le 1
  intro i hi
  have hone := (Finset.sum_eq_sum_iff_of_le hle).1 hends' i (Finset.mem_range.2 hi)
  rcases (hcloses _ (sourcesOf_mem hlen hi)).prefix_ends (h.conserves.taken_prefix i) with ⟨hall, -⟩ | hzero
  · exact hall
  · exact absurd (hzero.symm.trans hone) Nat.zero_ne_one

/-- A task does not see its senders gone before it has seen the end of every sequence. -/
theorem StreamReach.not_hungUp (h : StreamReach env req streams leavesAfter s) (hlen : streams.length = req.n)
    (hcloses : ∀ es ∈ streams, Closes es) (hqueue : s.net.queue = [])
    (hgone : ∀ i < req.n, s.net.sources i = []) : endsOf s.net.taken = req.n := by
  have hsum := FanIn.sum_ofSource EngineEvent.ends (h.taken_lt hlen)
  have hone : ∀ i ∈ Finset.range req.n, ((ofSource i s.net.taken).map EngineEvent.ends).sum = 1 := by
    intro i hi
    have hlt := Finset.mem_range.1 hi
    rw [h.conserves.taken_all hqueue (hgone i hlt)]
    obtain ⟨front, last, heq, hzero⟩ := hcloses _ (sourcesOf_mem hlen hlt)
    rw [heq, ← List.singleton_append, ← List.append_assoc, List.map_append, List.sum_append, sum_ends_zero hzero]
    rfl
  rw [Finset.sum_congr rfl hone, Finset.sum_const, Finset.card_range, smul_eq_mul, mul_one] at hsum
  exact hsum

end Run

end Oxydllm.Serve.Chat
