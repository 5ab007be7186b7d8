/-
# Oxydllm.Serve.StreamCut — a streamed answer that is cut off.

A client may leave, the time may be up, and an engine may fail or fall silent. At any time the client has chunks, then
at most one end, and of each choice a beginning of what is collected (`streamed_beginning`).
-/
import Oxydllm.Serve.StreamedAnswer

namespace Oxydllm.Serve.Chat

variable {F : Type} {env : Envelope} {req : Request}

/-! ## The stream that is cut off -/

/-- A client has a beginning of what is collected. -/
structure BeginningOf (req : Request) (data : CompletionData F) (a : Assembled F) : Prop where
  content : ∃ rest, data.content = a.content ++ rest
  reasoning : ∃ rest, data.reasoningContent = a.reasoningContent ++ rest
  logprobs : a.logprobs <+:
    if req.wantsLogprobs then (buildLogprobsContent data.logprobEntries req.reqTopN).content else []

theorem Matches.beginning {data : CompletionData F} {a : Assembled F} (h : Matches req data a) : BeginningOf req data a :=
  ⟨⟨"", by rw [h.content, String.append_empty]⟩, ⟨"", by rw [h.reasoning, String.append_empty]⟩,
    h.logprobs ▸ List.prefix_rfl⟩

/-- Reading on only adds. -/
theorem BeginningOf.read {data : CompletionData F} {a : Assembled F} {c : ChunkChoice F}
    (h : BeginningOf req data (a.read c)) : BeginningOf req data a := by
  obtain ⟨⟨t, ht⟩, ⟨u, hu⟩, hl⟩ := h
  refine ⟨⟨c.delta.content.getD "" ++ t, ?_⟩, ⟨c.delta.reasoningContent.getD "" ++ u, ?_⟩, ?_⟩
  · rw [ht, Assembled.read, String.append_assoc]
  · rw [hu, Assembled.read, String.append_assoc]
  · exact (List.prefix_append _ _).trans hl

theorem BeginningOf.reads {data : CompletionData F} {a : Assembled F} {cs : List (ChunkChoice F)}
    (h : BeginningOf req data (cs.foldl Assembled.read a)) : BeginningOf req data a := by
  induction cs generalizing a with
  | nil => exact h
  | cons c cs ih => exact (ih h).read

theorem BeginningOf.of_front {data : CompletionData F} {i : Nat} {log whole : List (Sse F)} (hbegin : log <+: whole)
    (h : BeginningOf req data (assemble i whole)) : BeginningOf req data (assemble i log) := by
  obtain ⟨rest, rfl⟩ := hbegin
  rw [assemble, List.flatMap_append, List.foldl_append] at h
  exact h.reads

/-- Collecting on only adds. -/
theorem BeginningOf.absorb {data : CompletionData F} {a : Assembled F} (h : BeginningOf req data a)
    (e : EngineEvent F) : BeginningOf req (data.absorb e) a := by
  obtain ⟨⟨t, ht⟩, ⟨u, hu⟩, hl⟩ := h
  rcases e with ⟨text, entries⟩ | text | ⟨finishReason, completionTokens⟩ | _ | msg
  · refine ⟨⟨t ++ text, ?_⟩, ⟨u, hu⟩, ?_⟩
    · show data.content ++ text = _
      rw [ht, String.append_assoc]
    · refine hl.trans ?_
      show _ <+: if req.wantsLogprobs then (buildLogprobsContent (data.logprobEntries ++ entries) req.reqTopN).content else []
      split
      · rw [buildLogprobsContent, buildLogprobsContent, List.map_append]
        exact List.prefix_append _ _
      · exact List.prefix_rfl
  · refine ⟨⟨t, ht⟩, ⟨u ++ text, ?_⟩, hl⟩
    show data.reasoningContent ++ text = _
    rw [hu, String.append_assoc]
  · exact ⟨⟨t, ht⟩, ⟨u, hu⟩, hl⟩
  · exact ⟨⟨t, ht⟩, ⟨u, hu⟩, hl⟩
  · exact ⟨⟨t, ht⟩, ⟨u, hu⟩, hl⟩

theorem BeginningOf.absorbs {data : CompletionData F} {a : Assembled F} (h : BeginningOf req data a)
    (es : List (EngineEvent F)) : BeginningOf req (es.foldl CompletionData.absorb data) a := by
  induction es generalizing data with
  | nil => exact h
  | cons e es ih => exact ih (h.absorb e)

/-- The messages a stream may end with. -/
def IsTail (tail : List (Sse F)) : Prop := tail = [.done] ∨ ∃ e, tail <+: [.error e, .done]

theorem IsTail.of_front {tail tail' : List (Sse F)} (h : IsTail tail) (hbegin : tail' <+: tail) : IsTail tail' := by
  rcases h with rfl | ⟨e, he⟩
  · rcases List.prefix_concat_iff.1 (show tail' <+: [] ++ [.done] from hbegin) with rfl | hnil
    · exact .inl rfl
    · exact .inr ⟨⟨"", "", none, none⟩, hnil.trans (List.nil_prefix)⟩
  · exact .inr ⟨e, hbegin.trans he⟩

/-- What is sent is a beginning of chunks and a tail. -/
structure Whole (req : Request) (streams : List (List (EngineEvent F))) (front tail : List (Sse F)) : Prop where
  chunks : ∀ m ∈ front, m.isChunk = true
  isTail : IsTail tail
  beginning : ∀ i, BeginningOf req (absorbAll (sourcesOf streams i)) (assemble i (front ++ tail))

theorem prefix_append_cases {α : Type} {log front tail : List α} (h : log <+: front ++ tail) :
    ∃ front' tail', log = front' ++ tail' ∧ front' <+: front ∧ tail' <+: tail := by
  obtain ⟨rest, hrest⟩ := h
  rcases List.append_eq_append_iff.1 hrest with ⟨mid, hfront, -⟩ | ⟨mid, hlog, htail⟩
  · exact ⟨log, [], (List.append_nil _).symm, ⟨mid, hfront.symm⟩, List.nil_prefix⟩
  · exact ⟨front, mid, hlog, List.prefix_rfl, ⟨rest, htail.symm⟩⟩

section CutOff

variable {streams : List (List (EngineEvent F))} {leavesAfter : Option Nat} {s : StreamState F}

/-- What was taken is a beginning of what is collected. -/
theorem StreamReach.beginning (h : StreamReach env req streams leavesAfter s) (hlen : streams.length = req.n)
    {tail : List (Sse F)} (htail : ∀ i, tail.flatMap (Sse.choicesOf i) = []) (i : Nat) :
    BeginningOf req (absorbAll (sourcesOf streams i)) (assemble i (transcript env req s.net.taken ++ tail)) := by
  obtain ⟨rest, hrest⟩ := h.conserves.taken_prefix i
  rw [absorbAll, ← hrest, List.foldl_append]
  exact (assemble_matches i (h.taken_lt hlen) (htail i)).beginning.absorbs rest

theorem StreamReach.whole (h : StreamReach env req streams leavesAfter s) (hn : 0 < req.n)
    (hlen : streams.length = req.n) :
    ∃ front tail, Whole req streams front tail ∧ s.task.tx.log <+: front ++ tail := by
  have hnil : IsTail ([] : List (Sse F)) := .inr ⟨⟨"", "", none, none⟩, List.nil_prefix⟩
  have htranscript : Whole req streams (transcript env req s.net.taken) [] :=
    ⟨isChunk_transcript _, hnil, h.beginning hlen fun _ => rfl⟩
  have hempty : ∀ i, BeginningOf req (absorbAll (sourcesOf streams i)) (.start : Assembled F) :=
    fun i => Matches.start.beginning.absorbs _
  rcases h.inv hn with ⟨hlog, -, -, -, -⟩ | hopen | ⟨hclosing, hlog, -⟩
  · refine ⟨[], [], ⟨fun _ hm => absurd hm List.not_mem_nil, hnil, hempty⟩, ?_⟩
    rw [hlog]
    exact List.nil_prefix
  · refine ⟨_, _, htranscript, ?_⟩
    rw [hopen.log]
    exact List.prefix_append _ _
  · have hbegin := hlog ▸ visible_prefix s.task.tx.leavesAfter _
    rcases hclosing with ⟨hcalm, hends⟩ | @⟨i, msg, hmem⟩ | @⟨t, ht, front, hfront⟩ | ⟨hends, hqueue, hgone⟩ | hgone
    · refine ⟨_, _, ⟨isChunk_closed _, .inl rfl, ?_⟩, hbegin⟩
      intro i
      rw [List.append_assoc]
      exact h.beginning hlen (fun i => choicesOf_closing i _) i
    · exact ⟨_, _, ⟨isChunk_transcript _, .inr ⟨_, List.prefix_rfl⟩, h.beginning hlen fun _ => rfl⟩, hbegin⟩
    · rcases hfront with rfl | rfl
      · exact ⟨[], _, ⟨fun _ hm => absurd hm List.not_mem_nil, .inr ⟨_, List.prefix_rfl⟩, hempty⟩, hbegin⟩
      · exact ⟨_, _, ⟨isChunk_transcript _, .inr ⟨_, List.prefix_rfl⟩, h.beginning hlen fun _ => rfl⟩, hbegin⟩
    · exact ⟨_, _, htranscript, hbegin.trans (List.prefix_append _ _)⟩
    · exact ⟨_, _, htranscript, hbegin.trans (List.prefix_append _ _)⟩

/-- At any time of any run, whatever the engine sends, whenever the client leaves or the time is up: chunks, then at
most one end, which is `[DONE]` or an error with it; and each choice is a beginning of what is collected of it. -/
theorem streamed_beginning (hn : 0 < req.n) (hlen : streams.length = req.n)
    (h : StreamReach env req streams leavesAfter s) :
    (∃ front tail, s.task.tx.log = front ++ tail ∧ (∀ m ∈ front, m.isChunk = true) ∧ IsTail tail) ∧
      ∀ i, BeginningOf req (absorbAll (sourcesOf streams i)) (assemble i s.task.tx.log) := by
  obtain ⟨front, tail, hwhole, hbegin⟩ := h.whole hn hlen
  refine ⟨?_, fun i => .of_front hbegin (hwhole.beginning i)⟩
  obtain ⟨front', tail', hlog, hfront, htail⟩ := prefix_append_cases hbegin
  exact ⟨front', tail', hlog, fun m hm => hwhole.chunks m (hfront.subset hm), hwhole.isTail.of_front htail⟩

/-- A client that leaves behind three messages, of a request with a timeout. -/
theorem streamed_beginning_pair :
    ∃ s : StreamState Nat, StreamReach pairEnvelope (pairRequest (some 60)) pairStreams (some 3) s ∧
      s.task.phase = .ended ∧
      (∃ front tail, s.task.tx.log = front ++ tail ∧ (∀ m ∈ front, m.isChunk = true) ∧ IsTail tail) ∧
        ∀ i, BeginningOf (pairRequest (some 60)) (absorbAll (sourcesOf pairStreams i)) (assemble i s.task.tx.log) := by
  obtain ⟨s, hreach, hended⟩ := exists_ended pairEnvelope (pairRequest (some 60)) pairStreams (some 3) (by decide) rfl
  exact ⟨s, hreach, hended, streamed_beginning (by decide) rfl hreach⟩

end CutOff

end Oxydllm.Serve.Chat
