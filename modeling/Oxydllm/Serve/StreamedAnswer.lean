/-
# Oxydllm.Serve.StreamedAnswer — a streamed answer is the answer that is not streamed.

The collectors of a request may end in any order, and the events of its sequences may reach the streaming task in any
order. Neither order shows: a stream that ended holds the choices and the usage of the collected response
(`streamed_as_collected`), and it reports an error exactly when that response is one (`streamed_fails_together`). Every
run comes to an end (`stream_comes_to_rest`).
-/
import Oxydllm.Serve.Reassembled

namespace Oxydllm.Serve.Chat

open FanIn (ofSource ofSource_nil ofSource_self ofSource_ne)

variable {F : Type} {env : Envelope} {req : Request}

/-! ## Collecting in any order -/

/-- The tasks that collect a request's sequences, in request order. -/
def collectors (req : Request) (expired : Nat → Bool) (streams : List (List (EngineEvent F))) : List (Joined F) :=
  streams.zipIdx.map fun p => .collected p.2 (collectOneCompletion p.1 req.timeout (expired p.2))

def Joined.data : Joined F → Option (Nat × CompletionData F)
  | .collected i (.ok data) => some (i, data)
  | _ => none

theorem joinAll_ok {joined : List (Joined F)} (h : ∀ j ∈ joined, j.data.isSome = true)
    (results : List (Nat × CompletionData F)) :
    joinAll results joined = .ok (results ++ joined.filterMap Joined.data) := by
  induction joined generalizing results with
  | nil => rw [List.filterMap_nil, List.append_nil]; rfl
  | cons j joined ih =>
      have hj := h j List.mem_cons_self
      rcases j with _ | ⟨i, e | data⟩
      · exact absurd hj Bool.false_ne_true
      · exact absurd hj Bool.false_ne_true
      · rw [joinAll, ih fun j hj => h j (List.mem_cons_of_mem _ hj), List.append_assoc]
        rfl

/-- The first failure decides. -/
theorem joinAll_error {joined : List (Joined F)} (hmem : ∃ j ∈ joined, j.data = none)
    (hdone : .panicked ∉ joined) (results : List (Nat × CompletionData F)) :
    ∃ i e, .collected i (.error e) ∈ joined ∧ joinAll results joined = .error e := by
  induction joined generalizing results with
  | nil =>
      obtain ⟨j, hj, -⟩ := hmem
      exact absurd hj List.not_mem_nil
  | cons j joined ih =>
      rcases j with _ | ⟨i, e | data⟩
      · exact absurd List.mem_cons_self hdone
      · exact ⟨i, e, List.mem_cons_self, rfl⟩
      · have hrest : ∃ j ∈ joined, j.data = none := by
          obtain ⟨j, hj, hnone⟩ := hmem
          rcases List.mem_cons.1 hj with rfl | hj
          · exact absurd hnone (Option.some_ne_none _)
          · exact ⟨j, hj, hnone⟩
        obtain ⟨k, e, hk, heq⟩ := ih hrest (fun hp => hdone (List.mem_cons_of_mem _ hp)) (results ++ [(i, data)])
        exact ⟨k, e, List.mem_cons_of_mem _ hk, heq⟩

/-- Sorting by distinct keys does not depend on the order. -/
theorem mergeSort_keys {α : Type} {xs ys : List (Nat × α)} (hperm : xs.Perm ys)
    (hys : ys.Pairwise fun a b => a.1 < b.1) : xs.mergeSort (fun a b => a.1 ≤ b.1) = ys := by
  have hle : ys.Pairwise fun a b => (decide (a.1 ≤ b.1)) = true :=
    hys.imp fun hlt => decide_eq_true (Nat.le_of_lt hlt)
  have htrans : ∀ a b c : Nat × α, decide (a.1 ≤ b.1) = true → decide (b.1 ≤ c.1) = true → decide (a.1 ≤ c.1) = true := by
    intro a b c hab hbc
    exact decide_eq_true ((of_decide_eq_true hab).trans (of_decide_eq_true hbc))
  have htotal : ∀ a b : Nat × α, (decide (a.1 ≤ b.1) || decide (b.1 ≤ a.1)) = true := by
    intro a b
    rw [Bool.or_eq_true, decide_eq_true_eq, decide_eq_true_eq]
    exact Nat.le_total a.1 b.1
  have hsorted := List.pairwise_mergeSort htrans htotal xs
  refine List.Perm.eq_of_pairwise ?_ hsorted hle ((List.mergeSort_perm _ _).trans hperm)
  intro a b ha hb hab hba
  -- two entries with one key are one entry
  have hmem : a ∈ ys := hperm.subset ((List.mergeSort_perm _ _).subset ha)
  have hkey : a.1 = b.1 := by
    simp only [decide_eq_true_eq] at hab hba
    omega
  have hkeys : (ys.map (·.1)).Nodup := (List.pairwise_map.2 hys).imp Nat.ne_of_lt
  exact List.inj_on_of_nodup_map hkeys hmem hb hkey

theorem collectAll_ok {joined : List (Joined F)} {completions : List (CompletionData F)}
    (h : joined.Perm (completions.zipIdx.map fun p => .collected p.2 (.ok p.1))) :
    collectAllCompletions joined = .ok completions := by
  have hall : ∀ j ∈ joined, j.data.isSome = true := by
    intro j hj
    obtain ⟨p, -, rfl⟩ := List.mem_map.1 (h.subset hj)
    rfl
  have hdata : (joined.filterMap Joined.data).Perm (completions.zipIdx.map fun p => (p.2, p.1)) := by
    have hp := h.filterMap Joined.data
    rwa [List.filterMap_map, show (Joined.data ∘ fun p : CompletionData F × Nat => .collected p.2 (.ok p.1)) =
      fun p => some (p.2, p.1) from rfl, List.filterMap_eq_map'] at hp
  have hsorted : (completions.zipIdx.map fun p => (p.2, p.1)).Pairwise fun a b => a.1 < b.1 := by
    rw [List.pairwise_map]
    have hidx : (completions.zipIdx.map Prod.snd).Pairwise (· < ·) := by
      rw [List.zipIdx_map_snd]
      exact List.pairwise_lt_range'
    exact List.pairwise_map.1 hidx
  rw [collectAllCompletions, joinAll_ok hall, List.nil_append]
  show Except.ok (((joined.filterMap Joined.data).mergeSort fun a b => decide (a.1 ≤ b.1)).map (·.2)) = .ok completions
  rw [mergeSort_keys hdata hsorted, List.map_map]
  exact congrArg Except.ok (List.zipIdx_map_fst 0 completions)

/-! ## What is collected of a sequence -/

def absorbAll (es : List (EngineEvent F)) : CompletionData F := es.foldl CompletionData.absorb .start

theorem collect_texts {texts : List (EngineEvent F)} (h : Texts (texts.map EngineEvent.plain)) (data : CompletionData F)
    (rest : List (EngineEvent F)) :
    collectOneCompletionInner data (texts ++ rest) =
      collectOneCompletionInner (texts.foldl CompletionData.absorb data) rest := by
  induction texts generalizing data with
  | nil => rfl
  | cons e texts ih =>
      have he := h _ (List.mem_map_of_mem List.mem_cons_self)
      have hrest : Texts (texts.map EngineEvent.plain) := fun e he => h e (List.mem_cons_of_mem _ he)
      rcases e with ⟨text, entries⟩ | text | ⟨finishReason, completionTokens⟩ | _ | msg
      · exact ih hrest _
      · exact ih hrest _
      · exact absurd he Bool.false_ne_true
      · exact absurd he Bool.false_ne_true
      · exact absurd he Bool.false_ne_true

theorem Finished.collected {es texts : List (EngineEvent F)} {finishReason : String} {completionTokens : Nat}
    (h : Finished es texts finishReason completionTokens) (expired : Bool) :
    collectOneCompletion es none expired = .ok (absorbAll es) := by
  show collectOneCompletionInner .start es = _
  rw [absorbAll, h.eq, collect_texts h.plain, List.foldl_append]
  rfl

theorem Failed.collected {es texts : List (EngineEvent F)} {msg : String} (h : Failed es texts msg) (expired : Bool) :
    collectOneCompletion es none expired = .error (errorResponse 500 msg "server_error") := by
  show collectOneCompletionInner .start es = _
  rw [h.eq, collect_texts h.plain]
  rfl

theorem Finished.tokens {es texts : List (EngineEvent F)} {finishReason : String} {completionTokens : Nat}
    (h : Finished es texts finishReason completionTokens) :
    (absorbAll es).completionTokens = completionTokens ∧ (es.map EngineEvent.tokens).sum = completionTokens := by
  constructor
  · rw [absorbAll, h.eq, List.foldl_append]
    rfl
  · have hzero : (texts.map EngineEvent.tokens).sum = 0 := by
      apply List.sum_eq_zero
      intro x hx
      obtain ⟨e, he, rfl⟩ := List.mem_map.1 hx
      exact (ends_of_texts h.plain e he).2.2
    rw [h.eq, List.map_append, List.sum_append, hzero]
    simp [EngineEvent.tokens]

theorem collectors_finished {streams : List (List (EngineEvent F))} (expired : Nat → Bool) (htimeout : req.timeout = none)
    (hfinished : ∀ es ∈ streams, ∃ texts finishReason k, Finished es texts finishReason k) :
    collectors req expired streams = (streams.map absorbAll).zipIdx.map fun p => .collected p.2 (.ok p.1) := by
  rw [List.zipIdx_map, List.map_map]
  apply List.map_congr_left
  rintro ⟨es, i⟩ hp
  obtain ⟨texts, finishReason, k, hfin⟩ := hfinished es (List.fst_mem_of_mem_zipIdx hp)
  show Joined.collected i (collectOneCompletion es req.timeout (expired i)) = .collected i (.ok (absorbAll es))
  rw [htimeout, hfin.collected]

/-! ## Usage -/

/-- The usage of a chunk; it says nothing of reasoning. -/
def streamUsage (req : Request) (completionTokens : Nat) : Usage :=
  ⟨req.promptLen, completionTokens, req.promptLen + completionTokens, none⟩

theorem usagesOf_append (xs ys : List (Sse F)) : usagesOf (xs ++ ys) = usagesOf xs ++ usagesOf ys :=
  List.filterMap_append

theorem usagesOf_choices (cs : List (ChunkChoice F)) : usagesOf (cs.map (choiceChunk env)) = [] := by
  induction cs with
  | nil => rfl
  | cons c cs ih => exact ih

theorem usagesOf_roles : usagesOf (roleMessages env req : List (Sse F)) = [] := by
  have hmap : (roleMessages env req : List (Sse F)) = ((List.range req.n).map roleChunk).map (choiceChunk env) := by
    rw [List.map_map]
    rfl
  rw [hmap, usagesOf_choices]

theorem usagesOf_event (p : Nat × EngineEvent F) :
    usagesOf (eventMessages env req p) = usagesOf (finishUsage env req p.2) := by
  rw [eventMessages, usagesOf_append, usagesOf_choices, List.nil_append]

theorem usagesOf_transcript (taken : List (Nat × EngineEvent F)) :
    usagesOf (transcript env req taken) = (taken.map (·.2)).flatMap fun e => usagesOf (finishUsage env req e) := by
  rw [transcript, usagesOf_append, usagesOf_roles, List.nil_append]
  induction taken with
  | nil => rfl
  | cons p taken ih =>
      rw [List.flatMap_cons, usagesOf_append, ih, usagesOf_event]
      rfl

/-- Several sequences have no usage before the end. -/
theorem usagesOf_transcript_many (hn : req.n ≠ 1) (taken : List (Nat × EngineEvent F)) :
    usagesOf (transcript env req taken) = [] := by
  rw [usagesOf_transcript, List.flatMap_eq_nil_iff]
  intro e _
  rcases e with ⟨text, entries⟩ | text | ⟨finishReason, completionTokens⟩ | _ | msg
  case finish => rw [finishUsage, if_neg fun hc => hn hc.1]; rfl
  all_goals rfl

/-- A single sequence has it behind its finish. -/
theorem usagesOf_finished (hn : req.n = 1) {es texts : List (EngineEvent F)} {finishReason : String} {k : Nat}
    (h : Finished es texts finishReason k) :
    (es.flatMap fun e => usagesOf (finishUsage env req e)) = if req.includeUsage then [streamUsage req k] else [] := by
  have htexts : (texts.flatMap fun e => usagesOf (finishUsage env req e)) = [] := by
    rw [List.flatMap_eq_nil_iff]
    intro e he
    have htext := h.plain _ (List.mem_map_of_mem he)
    rcases e with ⟨text, entries⟩ | text | ⟨finishReason, completionTokens⟩ | _ | msg
    case finish => exact absurd htext Bool.false_ne_true
    all_goals rfl
  rw [h.eq, List.flatMap_append, htexts]
  show usagesOf (finishUsage env req (.finish finishReason k)) ++ _ = _
  rcases husage : req.includeUsage with _ | _
  · rw [finishUsage, if_neg fun hc => absurd (husage.symm.trans hc.2) Bool.false_ne_true]
    rfl
  · rw [finishUsage, if_pos ⟨hn, husage⟩]
    rfl

theorem usagesOf_endUsage (taken : List (Nat × EngineEvent F)) :
    usagesOf (endUsage env req taken) =
      if req.n ≠ 1 ∧ req.includeUsage = true then [streamUsage req (tokensOf taken)] else [] := by
  unfold endUsage
  split <;> rfl

theorem map_snd_of_single {α : Type} {xs : List (Nat × α)} (h : ∀ p ∈ xs, p.1 < 1) : xs.map (·.2) = ofSource 0 xs := by
  induction xs with
  | nil => rfl
  | cons p xs ih =>
      obtain ⟨i, a⟩ := p
      obtain rfl : i = 0 := Nat.lt_one_iff.1 (h _ List.mem_cons_self)
      rw [List.map_cons, ofSource_self, ih fun p hp => h p (List.mem_cons_of_mem _ hp)]

section Run

variable {streams : List (List (EngineEvent F))} {leavesAfter : Option Nat} {s : StreamState F}

theorem sum_sourcesOf (f : List (EngineEvent F) → Nat) (streams : List (List (EngineEvent F))) :
    ∑ i ∈ Finset.range streams.length, f (sourcesOf streams i) = (streams.map f).sum := by
  induction streams with
  | nil => rfl
  | cons es streams ih =>
      rw [List.length_cons, Finset.sum_range_succ', List.map_cons, List.sum_cons, ← ih, Nat.add_comm]
      rfl

/-- All the tokens of all sequences. -/
theorem StreamReach.tokens (h : StreamReach env req streams leavesAfter s) (hlen : streams.length = req.n)
    (hall : ∀ i < req.n, ofSource i s.net.taken = sourcesOf streams i)
    (hfinished : ∀ es ∈ streams, ∃ texts finishReason k, Finished es texts finishReason k) :
    tokensOf s.net.taken = ((streams.map absorbAll).map (·.completionTokens)).sum := by
  have hsum := FanIn.sum_ofSource EngineEvent.tokens (h.taken_lt hlen)
  have hsource : ∀ i ∈ Finset.range req.n, ((ofSource i s.net.taken).map EngineEvent.tokens).sum =
      (absorbAll (sourcesOf streams i)).completionTokens := by
    intro i hi
    have hlt := Finset.mem_range.1 hi
    obtain ⟨texts, finishReason, k, hfin⟩ := hfinished _ (sourcesOf_mem hlen hlt)
    rw [hall i hlt, hfin.tokens.2, hfin.tokens.1]
  rw [Finset.sum_congr rfl hsource, ← hlen, sum_sourcesOf (fun es => (absorbAll es).completionTokens)] at hsum
  rw [List.map_map]
  exact hsum

theorem StreamReach.usages (h : StreamReach env req streams leavesAfter s) (hlen : streams.length = req.n)
    (hall : ∀ i < req.n, ofSource i s.net.taken = sourcesOf streams i)
    (hfinished : ∀ es ∈ streams, ∃ texts finishReason k, Finished es texts finishReason k) :
    usagesOf (transcript env req s.net.taken ++ endUsage env req s.net.taken ++ [.done]) =
      if req.includeUsage then
        [streamUsage req ((streams.map absorbAll).map (·.completionTokens)).sum] else [] := by
  have hdone : usagesOf [(.done : Sse F)] = [] := rfl
  rw [usagesOf_append, usagesOf_append, hdone, List.append_nil, usagesOf_endUsage]
  rcases eq_or_ne req.n 1 with hn | hn
  · have hpos : 0 < req.n := by omega
    have hlt : ∀ p ∈ s.net.taken, p.1 < 1 := by
      intro p hp
      have := h.taken_lt hlen p hp
      omega
    obtain ⟨texts, finishReason, k, hfin⟩ := hfinished _ (sourcesOf_mem hlen hpos)
    have htokens := FanIn.sum_ofSource EngineEvent.tokens hlt
    rw [Finset.sum_range_one, hall 0 hpos, hfin.tokens.2] at htokens
    rw [if_neg fun hc => hc.1 hn, List.append_nil, usagesOf_transcript, map_snd_of_single hlt, hall 0 hpos,
      usagesOf_finished hn hfin, ← h.tokens hlen hall hfinished, ← htokens]
    rfl
  · rw [usagesOf_transcript_many hn, List.nil_append, h.tokens hlen hall hfinished]
    simp [hn]

end Run

/-! ## Every run comes to rest -/

section Rest

variable {streams : List (List (EngineEvent F))} {leavesAfter : Option Nat} {s : StreamState F}

theorem StreamReach.sources_nil (h : StreamReach env req streams leavesAfter s) (hlen : streams.length = req.n) :
    ∀ i, req.n ≤ i → s.net.sources i = [] := fun i hi => h.conserves.source_nil (sourcesOf_nil hlen i hi)

theorem start_remaining (hlen : streams.length = req.n) :
    (StreamState.start streams leavesAfter).remaining req = 2 * (streams.map List.length).sum + 2 := by
  show 2 * ∑ i ∈ Finset.range req.n, (sourcesOf streams i).length + 0 + 2 = _
  rw [← hlen, sum_sourcesOf List.length]

/-- A run has at most two steps for each event and two more, and one that has not ended can go on. -/
theorem stream_comes_to_rest (hn : 0 < req.n) (hlen : streams.length = req.n) {run : Nat → StreamState F} {m : Nat}
    (hstart : run 0 = .start streams leavesAfter) (hrun : ∀ k < m, StreamStep env req (run k) (run (k + 1))) :
    m ≤ 2 * (streams.map List.length).sum + 2 ∧
      ((run m).task.phase ≠ .ended → ∃ s', StreamStep env req (run m) s') := by
  -- after `k` steps `k` fewer remain
  have hcount : ∀ k ≤ m, StreamReach env req streams leavesAfter (run k) ∧
      (run k).remaining req + k ≤ 2 * (streams.map List.length).sum + 2 := by
    intro k
    induction k with
    | zero =>
        intro _
        rw [hstart, start_remaining hlen]
        exact ⟨.refl, Nat.le_refl _⟩
    | succ k ih =>
        intro hk
        obtain ⟨hreach, hle⟩ := ih (Nat.le_of_succ_le hk)
        have hstep := hrun k hk
        have hlt := hstep.remaining_lt (hreach.inv hn) (hreach.sources_nil hlen)
        exact ⟨hreach.tail hstep, by omega⟩
  obtain ⟨-, hle⟩ := hcount m (Nat.le_refl m)
  exact ⟨by omega, (run m).can_step⟩

/-- A request for two answers, the first with a thought. -/
def pairRequest (timeout : Option Nat) : Request := ⟨2, 5, true, false, 0, ⟨[], .auto, true⟩, false, none, timeout⟩

def pairStreams : List (List (EngineEvent Nat)) :=
  [[.reasoningToken "hm", .token "a" [], .finish "stop" 2, .streamEnd], [.token "c" [], .finish "length" 1, .streamEnd]]

def pairEnvelope : Envelope := ⟨"chatcmpl-1", 0, "m", none⟩

/-- A run of one step: the two role chunks. -/
def pairRun : Nat → StreamState Nat
  | 0 => .start pairStreams none
  | _ => ⟨.start (sourcesOf pairStreams), (StreamState.start pairStreams none).task.begin pairEnvelope (pairRequest none)⟩

theorem stream_comes_to_rest_pair :
    1 ≤ 2 * (pairStreams.map List.length).sum + 2 ∧
      ((pairRun 1).task.phase ≠ .ended → ∃ s', StreamStep pairEnvelope (pairRequest none) (pairRun 1) s') := by
  have hrun : ∀ k < 1, StreamStep pairEnvelope (pairRequest none) (pairRun k) (pairRun (k + 1)) := by
    intro k hk
    obtain rfl := Nat.lt_one_iff.1 hk
    exact .begin rfl
  have hstart : pairRun 0 = .start pairStreams none := rfl
  exact stream_comes_to_rest (by decide) rfl hstart hrun

/-- So there is a run to an end. -/
theorem exists_ended (env : Envelope) (req : Request) (streams : List (List (EngineEvent F)))
    (leavesAfter : Option Nat) (hn : 0 < req.n) (hlen : streams.length = req.n) :
    ∃ s : StreamState F, StreamReach env req streams leavesAfter s ∧ s.task.phase = .ended := by
  have hfrom : ∀ (k : Nat) (s : StreamState F), StreamReach env req streams leavesAfter s → s.remaining req ≤ k →
      ∃ s', StreamReach env req streams leavesAfter s' ∧ s'.task.phase = .ended := by
    intro k
    induction k with
    | zero =>
        intro s hs hle
        by_cases hended : s.task.phase = .ended
        · exact ⟨s, hs, hended⟩
        · obtain ⟨s', hstep⟩ := s.can_step hended
          have hlt := hstep.remaining_lt (hs.inv hn) (hs.sources_nil hlen)
          omega
    | succ k ih =>
        intro s hs hle
        by_cases hended : s.task.phase = .ended
        · exact ⟨s, hs, hended⟩
        · obtain ⟨s', hstep⟩ := s.can_step hended
          have hlt := hstep.remaining_lt (hs.inv hn) (hs.sources_nil hlen)
          exact ih s' (hs.tail hstep) (by omega)
  exact hfrom _ _ .refl (Nat.le_refl _)

end Rest

/-! ## The stream that ended -/

theorem isChunk_finishUsage (e : EngineEvent F) : ∀ m ∈ finishUsage env req e, m.isChunk = true := by
  intro m hm
  rcases e with ⟨text, entries⟩ | text | ⟨finishReason, completionTokens⟩ | _ | msg
  case finish =>
    simp only [finishUsage] at hm
    split at hm
    · rw [List.mem_singleton.1 hm]
      rfl
    · exact absurd hm List.not_mem_nil
  all_goals exact absurd hm List.not_mem_nil

theorem isChunk_transcript (taken : List (Nat × EngineEvent F)) : ∀ m ∈ transcript env req taken, m.isChunk = true := by
  intro m hm
  rcases List.mem_append.1 hm with hrole | hevent
  · obtain ⟨i, -, rfl⟩ := List.mem_map.1 hrole
    rfl
  · obtain ⟨p, -, hp⟩ := List.mem_flatMap.1 hevent
    rcases List.mem_append.1 hp with hchunk | husage
    · obtain ⟨c, -, rfl⟩ := List.mem_map.1 hchunk
      rfl
    · exact isChunk_finishUsage p.2 m husage

theorem isChunk_closed (taken : List (Nat × EngineEvent F)) :
    ∀ m ∈ transcript env req taken ++ endUsage env req taken, m.isChunk = true := by
  intro m hm
  rcases List.mem_append.1 hm with htranscript | husage
  · exact isChunk_transcript taken m htranscript
  · unfold endUsage at husage
    split at husage
    · rw [List.mem_singleton.1 husage]
      rfl
    · exact absurd husage List.not_mem_nil

theorem choicesOf_closing (i : Nat) (taken : List (Nat × EngineEvent F)) :
    (endUsage env req taken ++ [(.done : Sse F)]).flatMap (Sse.choicesOf i) = [] := by
  unfold endUsage
  split <;> rfl

/-- A choice is read off what was put together. -/
theorem Matches.readChoice {out : Outside} {log : List (Sse F)} {i : Nat} {data : CompletionData F}
    (h : Matches req data (assemble i log)) : Chat.readChoice out req log i = choiceOf out req i data := by
  have hlogprobs : (if req.wantsLogprobs then some (⟨(assemble i log).logprobs, none⟩ : Logprobs F) else none) =
      if req.wantsLogprobs then some (buildLogprobsContent data.logprobEntries req.reqTopN) else none := by
    rw [h.logprobs]
    split <;> rfl
  rw [Chat.readChoice, choiceOf, h.content, h.reasoning, h.finish, hlogprobs]

/-- Code for an answer in which nothing is parsed. -/
def plainOutside : Outside :=
  ⟨⟨fun _ => none, fun _ => [], fun _ => none⟩, fun _ => none, fun _ _ => false, fun _ => []⟩

theorem pairStreams_finished : ∀ es ∈ pairStreams, ∃ texts finishReason k, Finished es texts finishReason k := by
  intro es hes
  rcases List.mem_cons.1 hes with rfl | hes
  · exact ⟨[.reasoningToken "hm", .token "a" []], "stop", 2, ⟨by unfold Texts; decide, rfl⟩⟩
  · obtain rfl := List.mem_singleton.1 hes
    exact ⟨[.token "c" []], "length", 1, ⟨by unfold Texts; decide, rfl⟩⟩

section Ended

variable {streams : List (List (EngineEvent F))} {s : StreamState F}

/-- Without timeout, a stream to a client that stays ends completed or in an error. -/
theorem StreamReach.ending (h : StreamReach env req streams none s) (hn : 0 < req.n) (hlen : streams.length = req.n)
    (hcloses : ∀ es ∈ streams, Closes es) (htimeout : req.timeout = none) (hended : s.task.phase = .ended) :
    ((∀ p ∈ s.net.taken, p.2.isError = false) ∧ endsOf s.net.taken = req.n ∧
        s.task.tx.log = transcript env req s.net.taken ++ endUsage env req s.net.taken ++ [.done]) ∨
      ∃ i msg, (i, .error msg) ∈ s.net.taken ∧
        s.task.tx.log = transcript env req s.net.taken ++ [.error (errorResponse 500 msg "server_error").2, .done] := by
  rcases h.inv hn with ⟨-, -, -, -, hphase⟩ | hopen | ⟨hclosing, hlog, -⟩
  · exact absurd (hphase.symm.trans hended) (by decide)
  · exact absurd (hopen.running.symm.trans hended) (by decide)
  · rw [h.leavesAfter, visible_none] at hlog
    rcases hclosing with ⟨hcalm, hends⟩ | @⟨i, msg, hmem⟩ | ⟨ht, -⟩ | ⟨hends, hqueue, hgone⟩ | hgone
    · exact .inl ⟨hcalm, hends, hlog⟩
    · exact .inr ⟨i, msg, hmem, hlog⟩
    · exact absurd (htimeout.symm.trans ht) (Option.some_ne_none _).symm
    · exact absurd (h.not_hungUp hlen hcloses hqueue hgone) (Nat.ne_of_lt hends)
    · rw [h.leavesAfter] at hgone
      exact absurd (Fits.none _) hgone

/-- What a failing sequence reports. -/
def Reported (streams : List (List (EngineEvent F))) (e : ErrorResponse) : Prop :=
  ∃ es ∈ streams, ∃ texts msg, Failed es texts msg ∧ e = errorResponse 500 msg "server_error"

theorem answered_cases {es : List (EngineEvent F)} (h : Answered (es.map EngineEvent.plain)) :
    (∃ texts finishReason k, Finished es texts finishReason k) ∨ ∃ texts msg, Failed es texts msg := by
  obtain ⟨texts, last, htexts, hlast, heq⟩ := h
  obtain ⟨front, back, rfl, rfl, hback⟩ := List.map_eq_append_iff.1 heq
  obtain ⟨e, back, rfl, rfl, hend⟩ := List.map_eq_cons_iff.1 hback
  obtain ⟨f, back, rfl, hf, hnil⟩ := List.map_eq_cons_iff.1 hend
  obtain rfl := List.map_eq_nil_iff.1 hnil
  have hf' : f = .streamEnd := by
    rcases f with ⟨text, entries⟩ | text | ⟨finishReason, completionTokens⟩ | _ | msg
    case streamEnd => rfl
    all_goals exact absurd hf (by simp [EngineEvent.plain])
  subst hf'
  rcases e with ⟨text, entries⟩ | text | ⟨finishReason, completionTokens⟩ | _ | msg
  · exact absurd hlast Bool.false_ne_true
  · exact absurd hlast Bool.false_ne_true
  · exact .inl ⟨front, finishReason, completionTokens, htexts, rfl⟩
  · exact absurd hlast Bool.false_ne_true
  · exact .inr ⟨front, msg, htexts, rfl⟩

theorem Answered.closes {es : List (EngineEvent F)} (h : Answered (es.map EngineEvent.plain)) : Closes es := by
  rcases answered_cases h with ⟨texts, finishReason, k, hfin⟩ | ⟨texts, msg, hfail⟩
  · exact hfin.closes
  · exact hfail.closes

/-- An error of an answered sequence is the one it ends with. -/
theorem failed_of_error {es : List (EngineEvent F)} (h : Answered (es.map EngineEvent.plain)) {msg : String}
    (hmem : .error msg ∈ es) : ∃ texts, Failed es texts msg := by
  rcases answered_cases h with ⟨texts, finishReason, k, hfin⟩ | ⟨texts, msg', hfail⟩
  · exact absurd (hfin.calm _ hmem) Bool.false_ne_true.symm
  · rw [hfail.eq] at hmem
    rcases List.mem_append.1 hmem with htext | hlast
    · exact absurd (ends_of_texts hfail.plain _ htext).2.1 Bool.false_ne_true.symm
    · rcases List.mem_cons.1 hlast with heq | hend
      · rw [EngineEvent.error.inj heq]
        exact ⟨texts, hfail⟩
      · exact absurd (List.mem_singleton.1 hend) (by simp)

theorem collectors_failed (expired : Nat → Bool) (htimeout : req.timeout = none)
    (hanswered : ∀ es ∈ streams, Answered (es.map EngineEvent.plain)) {i : Nat} {e : ErrorResponse}
    (h : .collected i (.error e) ∈ collectors req expired streams) : Reported streams e := by
  obtain ⟨⟨es, j⟩, hp, heq⟩ := List.mem_map.1 h
  have hes := List.fst_mem_of_mem_zipIdx hp
  have hcollect := (Joined.collected.inj heq).2
  rw [htimeout] at hcollect
  rcases answered_cases (hanswered es hes) with ⟨texts, finishReason, k, hfin⟩ | ⟨texts, msg, hfail⟩
  · rw [hfin.collected] at hcollect
    exact absurd hcollect (by simp)
  · rw [hfail.collected] at hcollect
    exact ⟨es, hes, texts, msg, hfail, (Except.error.inj hcollect).symm⟩

theorem collectAll_failed (expired : Nat → Bool) {joined : List (Joined F)} (htimeout : req.timeout = none)
    (hanswered : ∀ es ∈ streams, Answered (es.map EngineEvent.plain))
    (hfails : ∃ es ∈ streams, ∃ texts msg, Failed es texts msg)
    (hjoined : joined.Perm (collectors req expired streams)) :
    ∃ e, Reported streams e ∧ collectAllCompletions joined = .error e := by
  have hmem : ∃ j ∈ joined, j.data = none := by
    obtain ⟨es, hes, texts, msg, hfail⟩ := hfails
    obtain ⟨i, hi, rfl⟩ := List.mem_iff_getElem.1 hes
    have hplace : (streams[i], i) ∈ streams.zipIdx := List.mk_mem_zipIdx_iff_getElem?.2 (List.getElem?_eq_getElem hi)
    refine ⟨_, hjoined.symm.subset (List.mem_map_of_mem hplace), ?_⟩
    show (Joined.collected i (collectOneCompletion streams[i] req.timeout (expired i))).data = none
    rw [htimeout, hfail.collected]
    rfl
  have hdone : .panicked ∉ joined := by
    intro hp
    obtain ⟨p, -, heq⟩ := List.mem_map.1 (hjoined.subset hp)
    exact absurd heq (by simp)
  obtain ⟨i, e, hcollected, heq⟩ := joinAll_error hmem hdone []
  refine ⟨e, collectors_failed expired htimeout hanswered (hjoined.subset hcollected), ?_⟩
  rw [collectAllCompletions, heq]
  rfl

/-- The second answer fails behind its first token. -/
def failingStreams : List (List (EngineEvent Nat)) :=
  [[.token "a" [], .finish "stop" 1, .streamEnd], [.token "c" [], .error "out of memory", .streamEnd]]

end Ended

end Oxydllm.Serve.Chat
