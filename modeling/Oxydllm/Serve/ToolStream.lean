/-
# Oxydllm.Serve.ToolStream — a streamed answer that may hold tool calls.

With tools an answer is collected before it is streamed. A client that puts the deltas of the calls together has the
calls of the response, each of type `function` (`tool_stream_as_collected`); the thoughts and the logprobs the response
holds are not streamed.
-/
import Oxydllm.Serve.ForcedCall
import Oxydllm.Serve.StreamedAnswer

namespace Oxydllm.Serve.Chat

variable {F : Type} {env : Envelope} {req : Request} {out : Outside}

/-! ## The deltas of the calls -/

/-- A call as a stream says it. -/
def asFunction (c : Call) : Call := { c with callType := "function".toList }

/-- A call before its arguments. -/
def announced (c : Call) : Call := { asFunction c with arguments := [] }

theorem announced_of_empty {c : Call} (h : c.arguments.isEmpty = true) : announced c = asFunction c := by
  rw [announced, asFunction, List.isEmpty_iff.1 h]

theorem addDelta_header (acc : List Call) (c : Call) : addDelta acc (headerDelta c acc.length) = acc ++ [announced c] :=
  if_neg (Nat.lt_irrefl _)

/-- The header chunk announces every call. -/
theorem addDelta_headers (calls acc : List Call) :
    ((calls.zipIdx acc.length).map fun p => headerDelta p.1 p.2).foldl addDelta acc = acc ++ calls.map announced := by
  induction calls generalizing acc with
  | nil => exact (List.append_nil _).symm
  | cons c calls ih =>
      have hlen : acc.length + 1 = (acc ++ [announced c]).length := by rw [List.length_append, List.length_singleton]
      rw [List.zipIdx_cons, List.map_cons, List.foldl_cons, addDelta_header, hlen, ih, List.map_cons, List.append_assoc]
      rfl

theorem modify_at {α : Type} (front : List α) (x : α) (back : List α) (f : α → α) :
    (front ++ x :: back).modify front.length f = front ++ f x :: back := by
  induction front with
  | nil => rfl
  | cons y front ih => exact congrArg (y :: ·) ih

theorem addDelta_arguments (front : List Call) (c : Call) (back : List Call) :
    addDelta (front ++ announced c :: back) (argumentsDelta c front.length) = front ++ asFunction c :: back := by
  have hlt : front.length < (front ++ announced c :: back).length := by
    rw [List.length_append, List.length_cons]
    omega
  have hadd : addDelta (front ++ announced c :: back) (argumentsDelta c front.length) =
      (front ++ announced c :: back).modify front.length fun c' => { c' with arguments := c'.arguments ++ c.arguments } :=
    if_pos hlt
  rw [hadd, modify_at]
  rfl

/-- The chunks of the arguments, those left out that are empty. -/
def argumentChunks (i : Nat) (calls : List (Call × Nat)) : List (ChunkChoice F) :=
  (calls.filter fun p => !p.1.arguments.isEmpty).map fun p => toolChunk i [argumentsDelta p.1 p.2]

theorem read_argumentChunks (i : Nat) (calls front : List Call) (a : Assembled F)
    (h : a.calls = front ++ calls.map announced) :
    (argumentChunks i (calls.zipIdx front.length)).foldl Assembled.read a =
      { a with calls := front ++ calls.map asFunction } := by
  induction calls generalizing front a with
  | nil =>
      show a = { a with calls := front ++ [] }
      have hcalls : a.calls = front ++ [] := h
      rw [← hcalls]
  | cons c calls ih =>
      have hlen : front.length + 1 = (front ++ [asFunction c]).length := by
        rw [List.length_append, List.length_singleton]
      have hlist : front ++ (c :: calls).map asFunction = front ++ [asFunction c] ++ calls.map asFunction := by
        rw [List.map_cons, List.append_assoc, List.singleton_append]
      rw [argumentChunks, List.zipIdx_cons, hlist]
      rcases hempty : c.arguments.isEmpty with _ | _
      · -- a chunk of its own
        have hread : a.read (toolChunk i [argumentsDelta c front.length]) =
            { a with calls := front ++ asFunction c :: calls.map announced } := by
          rw [Assembled.read, h, List.map_cons]
          simp [toolChunk, Delta.empty, addDelta_arguments]
        rw [List.filter_cons_of_pos (by simp [hempty]), List.map_cons, List.foldl_cons, hread, hlen]
        rw [← argumentChunks, ih (front ++ [asFunction c]) _ (by rw [List.append_assoc]; rfl)]
      · rw [List.filter_cons_of_neg (by simp [hempty]), hlen, ← argumentChunks]
        apply ih
        rw [h, List.map_cons, announced_of_empty hempty, List.append_assoc]
        rfl

theorem completionChunks_calls (i : Nat) {data : CompletionData F} {calls : List Call}
    (h : callsOf out req data.content = some calls) :
    completionChunks out req i data = [toolChunk i (calls.zipIdx.map fun p => headerDelta p.1 p.2)] ++
      argumentChunks i calls.zipIdx ++ [finishChunk i "tool_calls"] := by
  unfold completionChunks
  rw [h]
  rfl

theorem completionChunks_text (i : Nat) {data : CompletionData F} (h : callsOf out req data.content = none) :
    completionChunks out req i data =
      (if data.content.isEmpty then [] else [contentChunk i data.content none]) ++ [finishChunk i data.finishReason] := by
  unfold completionChunks
  rw [h]

/-- What a client puts together of a collected completion. -/
theorem read_completionChunks (i : Nat) (data : CompletionData F) :
    (completionChunks out req i data).foldl Assembled.read .start =
      match callsOf out req data.content with
      | some calls => ⟨"", "", some "tool_calls", [], calls.map asFunction⟩
      | none => ⟨data.content, "", some data.finishReason, [], []⟩ := by
  rcases hcalls : callsOf out req data.content with _ | calls
  · rw [completionChunks_text i hcalls]
    rcases hempty : data.content.isEmpty with _ | _
    · simp [Assembled.read, Assembled.start, contentChunk, finishChunk, Delta.empty]
    · have hnil : data.content = "" := String.isEmpty_iff.1 hempty
      simp [Assembled.read, Assembled.start, finishChunk, Delta.empty, hnil]
  · rw [completionChunks_calls i hcalls]
    have hheader : [(toolChunk i (calls.zipIdx.map fun p => headerDelta p.1 p.2) : ChunkChoice F)].foldl Assembled.read
        .start = { Assembled.start with calls := calls.map announced } := by
      have hcalls := addDelta_headers calls []
      rw [List.length_nil, List.nil_append] at hcalls
      rw [List.foldl_cons, List.foldl_nil, Assembled.read]
      simp [toolChunk, Delta.empty, Assembled.start, hcalls]
    have hargs := read_argumentChunks i calls [] { (Assembled.start : Assembled F) with calls := calls.map announced } rfl
    rw [List.length_nil] at hargs
    rw [List.foldl_append, List.foldl_append, hheader, hargs]
    simp [Assembled.read, Assembled.start, finishChunk, Delta.empty]

/-! ## The whole stream -/

theorem index_completionChunks (i : Nat) (data : CompletionData F) :
    ∀ c ∈ completionChunks out req i data, c.index = i := by
  intro c hc
  rcases hcalls : callsOf out req data.content with _ | calls
  · rw [completionChunks_text i hcalls] at hc
    rcases List.mem_append.1 hc with hcontent | hfinish
    · split at hcontent
      · exact absurd hcontent List.not_mem_nil
      · rw [List.mem_singleton.1 hcontent]
        rfl
    · rw [List.mem_singleton.1 hfinish]
      rfl
  · rw [completionChunks_calls i hcalls] at hc
    rcases List.mem_append.1 hc with hfront | hfinish
    · rcases List.mem_append.1 hfront with hheader | hargs
      · rw [List.mem_singleton.1 hheader]
        rfl
      · obtain ⟨p, -, rfl⟩ := List.mem_map.1 hargs
        rfl
    · rw [List.mem_singleton.1 hfinish]
      rfl

/-- The messages of one completion. -/
def completionMessages (out : Outside) (env : Envelope) (req : Request) (p : CompletionData F × Nat) : List (Sse F) :=
  (roleChunk p.2 :: completionChunks out req p.2 p.1).map (choiceChunk env)

theorem choicesOf_completion (i : Nat) (p : CompletionData F × Nat) :
    (completionMessages out env req p).flatMap (Sse.choicesOf i) =
      if p.2 = i then roleChunk p.2 :: completionChunks out req p.2 p.1 else [] := by
  apply choicesOf_chunks
  intro c hc
  rcases List.mem_cons.1 hc with rfl | hc
  · rfl
  · exact index_completionChunks _ _ c hc

/-- Of pieces with a place each, the one at a place. -/
theorem flatMap_at {α β : Type} {xs : List α} {i k : Nat} {x : α} (g : α × Nat → List β) (h : xs[i]? = some x) :
    ((xs.zipIdx k).flatMap fun p => if p.2 = k + i then g p else []) = g (x, k + i) := by
  induction xs generalizing i k with
  | nil => exact absurd h (by simp)
  | cons y xs ih =>
      rw [List.zipIdx_cons, List.flatMap_cons]
      rcases i with _ | i
      · obtain rfl : y = x := by simpa using h
        have hrest : ((xs.zipIdx (k + 1)).flatMap fun p => if p.2 = k + 0 then g p else []) = [] := by
          rw [List.flatMap_eq_nil_iff]
          intro p hp
          have hle := List.le_snd_of_mem_zipIdx hp
          rw [if_neg (by omega)]
        rw [hrest, List.append_nil]
        exact if_pos rfl
      · have hplace : k + 1 + i = k + (i + 1) := by omega
        have hrest := ih (k := k + 1) (i := i) (by simpa using h)
        rw [hplace] at hrest
        have hne : ¬ k = k + (i + 1) := by omega
        show (if k = k + (i + 1) then g (y, k) else []) ++ _ = _
        rw [if_neg hne, List.nil_append, hrest]

theorem assemble_toolMessages {completions : List (CompletionData F)} {i : Nat} {data : CompletionData F}
    (h : completions[i]? = some data) :
    assemble i (toolMessages out env req completions) =
      (completionChunks out req i data).foldl Assembled.read .start := by
  have htail : ((if req.includeUsage then [usageChunk env req (completions.map CompletionData.completionTokens).sum]
      else []) ++ [(Sse.done : Sse F)]).flatMap (Sse.choicesOf i) = [] := by
    split <;> rfl
  have hpieces : ∀ xs : List (CompletionData F × Nat),
      (xs.flatMap (completionMessages out env req)).flatMap (Sse.choicesOf i) =
        xs.flatMap fun p => if p.2 = i then roleChunk p.2 :: completionChunks out req p.2 p.1 else [] := by
    intro xs
    rw [List.flatMap_assoc]
    exact List.flatMap_congr fun p _ => choicesOf_completion i p
  have hone := flatMap_at (k := 0) (fun p => roleChunk p.2 :: completionChunks out req p.2 p.1) h
  rw [Nat.zero_add] at hone
  have hmessages : toolMessages out env req completions = completions.zipIdx.flatMap (completionMessages out env req) ++
      ((if req.includeUsage then [usageChunk env req (completions.map CompletionData.completionTokens).sum] else []) ++
        [(Sse.done : Sse F)]) := List.append_assoc _ _ _
  rw [assemble, hmessages, List.flatMap_append, htail, List.append_nil, hpieces, hone, List.foldl_cons, read_role]

/-- The choice of a response, from what a stream with tools says of it. -/
def readToolChoice (log : List (Sse F)) (i : Nat) : Choice F :=
  let a := assemble i log
  ⟨i, ⟨"assistant", if a.calls.isEmpty then some a.content else none, none,
    if a.calls.isEmpty then none else some a.calls⟩, a.finishReason.getD "stop", none⟩

/-- What of a choice is streamed with tools. -/
def Choice.told (c : Choice F) : Choice F :=
  { c with
    message := { c.message with reasoningContent := none, toolCalls := c.message.toolCalls.map (·.map asFunction) }
    logprobs := none }

theorem callsOf_ne_nil {content : String} {calls : List Call} (h : callsOf out req content = some calls) : calls ≠ [] := by
  obtain ⟨parsed, hparsed, rfl⟩ := Option.map_eq_some_iff.1 h
  obtain ⟨-, -, -, hne⟩ := ToolCalls.tryParseToolCalls_limited out.serde hparsed
  intro hnil
  rw [withIds] at hnil
  exact hne (by simpa using hnil)

/-- One choice, streamed on the one hand and answered on the other. -/
theorem readToolChoice_eq (htools : req.hasTools = true) {log : List (Sse F)} {i : Nat} {data : CompletionData F}
    (h : assemble i log = (completionChunks out req i data).foldl Assembled.read .start) :
    readToolChoice log i = (choiceOf out req i data).told := by
  rw [read_completionChunks] at h
  rw [readToolChoice, h, choiceOf, responseMessage, if_pos htools]
  rcases hcalls : callsOf out req data.content with _ | calls
  · rfl
  · obtain ⟨c, rest, rfl⟩ := List.exists_cons_of_ne_nil (callsOf_ne_nil hcalls)
    rfl

theorem isChunk_completions (completions : List (CompletionData F × Nat)) :
    ∀ m ∈ completions.flatMap (completionMessages out env req), m.isChunk = true := by
  intro m hm
  obtain ⟨p, -, hp⟩ := List.mem_flatMap.1 hm
  obtain ⟨c, -, rfl⟩ := List.mem_map.1 hp
  rfl

theorem usagesOf_completions (completions : List (CompletionData F × Nat)) :
    usagesOf (completions.flatMap (completionMessages out env req)) = [] := by
  induction completions with
  | nil => rfl
  | cons p completions ih =>
      rw [List.flatMap_cons, usagesOf_append, ih, completionMessages, usagesOf_choices]
      rfl

/-- A stream with tools holds the calls and the texts of the response, and its usage; it fails when the response does.
A client that leaves has a beginning of it. -/
theorem tool_stream_as_collected (out : Outside) (env : Envelope) (joined : List (Joined F)) (leavesAfter : Option Nat)
    (htools : req.hasTools = true) :
    (∀ response, chatResponse out env req joined = .ok response →
      ∃ front, (∀ m ∈ front, m.isChunk = true) ∧
        (toolStream out env req joined leavesAfter).tx.log = visible leavesAfter (front ++ [.done]) ∧
        (List.range response.choices.length).map (readToolChoice (front ++ [.done])) =
          response.choices.map Choice.told ∧
        usagesOf (front ++ [.done]) =
          (if req.includeUsage then [{ response.usage with completionTokensDetails := none }] else [])) ∧
      ∀ e, chatResponse out env req joined = .error e →
        (toolStream out env req joined leavesAfter).tx.log = visible leavesAfter [.error e.2, .done] := by
  have hfits : Fits leavesAfter ([] : List (Sse F)) := fun k _ => Nat.zero_le k
  unfold chatResponse toolStream
  rcases collectAllCompletions joined with e | completions
  · refine ⟨fun response h => absurd h (by simp [Except.map]), ?_⟩
    rintro e' ⟨⟩
    have hnil : ([] : List (Sse F)) = visible leavesAfter [] := hfits.visible.symm
    exact congrArg (·.tx.log) (Task.fail_eq (t := ⟨⟨[], leavesAfter⟩, 0, 0, .running⟩) hnil e.2)
  · refine ⟨?_, fun e h => absurd h (by simp [Except.map])⟩
    rintro response ⟨⟩
    refine ⟨completions.zipIdx.flatMap (completionMessages out env req) ++
      (if req.includeUsage then [usageChunk env req (completions.map CompletionData.completionTokens).sum] else []),
      ?_, ?_, ?_, ?_⟩
    · intro m hm
      rcases List.mem_append.1 hm with hcompletion | husage
      · exact isChunk_completions _ m hcompletion
      · split at husage
        · rw [List.mem_singleton.1 husage]
          rfl
        · exact absurd husage List.not_mem_nil
    · show (Task.sendAll _ _ (toolMessages out env req completions)).tx.log =
        visible leavesAfter (toolMessages out env req completions)
      rcases Task.sendAll_cases (t := ⟨⟨[], leavesAfter⟩, 0, 0, .running⟩) hfits Task.stop
        (toolMessages out env req completions) with ⟨heq, hroom⟩ | ⟨heq, -⟩
      · rw [heq]
        exact hroom.visible.symm
      · rw [heq]
        rfl
    · apply List.ext_getElem
      · simp [responseOf]
      · intro i hi _
        rw [List.length_map, List.length_range] at hi
        have hlen : i < completions.length := by simpa [responseOf] using hi
        have hget : (responseOf out env req completions).choices[i] = choiceOf out req i completions[i] := by
          simp [responseOf]
        rw [List.getElem_map, List.getElem_range, List.getElem_map, hget]
        exact readToolChoice_eq htools (assemble_toolMessages (List.getElem?_eq_getElem hlen))
    · rw [usagesOf_append, usagesOf_append, usagesOf_completions, List.nil_append]
      rcases husage : req.includeUsage with _ | _
      · rfl
      · rfl

/-- A request with a tool. -/
def toolRequest : Request := ⟨2, 5, true, false, 0, ⟨[⟨"f".toList, none⟩], .auto, true⟩, false, none, none⟩

theorem tool_stream_as_collected_pair :
    (∀ response, chatResponse plainOutside pairEnvelope toolRequest
        (collectors toolRequest (fun _ => false) pairStreams) = .ok response →
      ∃ front, (∀ m ∈ front, m.isChunk = true) ∧
        (toolStream plainOutside pairEnvelope toolRequest (collectors toolRequest (fun _ => false) pairStreams)
          (some 3)).tx.log = visible (some 3) (front ++ [.done]) ∧
        (List.range response.choices.length).map (readToolChoice (front ++ [.done])) =
          response.choices.map Choice.told ∧
        usagesOf (front ++ [.done]) = [{ response.usage with completionTokensDetails := none }]) ∧
      ∀ e, chatResponse plainOutside pairEnvelope toolRequest
          (collectors toolRequest (fun _ => false) pairStreams) = .error e →
        (toolStream plainOutside pairEnvelope toolRequest (collectors toolRequest (fun _ => false) pairStreams)
          (some 3)).tx.log = visible (some 3) [.error e.2, .done] :=
  tool_stream_as_collected plainOutside pairEnvelope _ (some 3) rfl

end Oxydllm.Serve.Chat
