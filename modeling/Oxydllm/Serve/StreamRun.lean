/-
# Oxydllm.Serve.StreamRun — what a streamed answer holds at any time.

Up to an event that closes it, the stream is the role chunks and then the messages of each event taken, in the order in
which the task took them (`transcript`). A stream that has ended is that, closed in one of four ways (`Closing`), and
cut off where the client left. `StreamInv` says so of a state; every step keeps it (`StreamStep.inv`).
-/
import Oxydllm.Serve.Streamed

namespace Oxydllm.Serve.Chat

variable {F : Type} {env : Envelope} {req : Request}

/-! ## Sending to a client that may leave -/

/-- The client is still there after these. -/
def Fits (leavesAfter : Option Nat) (log : List (Sse F)) : Prop := ∀ k, leavesAfter = some k → log.length ≤ k

/-- What of these the client is sent. -/
def visible (leavesAfter : Option Nat) (log : List (Sse F)) : List (Sse F) :=
  match leavesAfter with
  | none => log
  | some k => log.take k

theorem visible_none (log : List (Sse F)) : visible none log = log := rfl

theorem visible_prefix (leavesAfter : Option Nat) (log : List (Sse F)) : visible leavesAfter log <+: log := by
  rcases leavesAfter with _ | k
  · exact List.prefix_rfl
  · exact List.take_prefix k log

theorem Fits.visible {leavesAfter : Option Nat} {log : List (Sse F)} (h : Fits leavesAfter log) :
    visible leavesAfter log = log := by
  rcases leavesAfter with _ | k
  · rfl
  · exact List.take_of_length_le (h k rfl)

theorem Fits.none (log : List (Sse F)) : Fits none log := fun _ h => nomatch h

/-- A full stream takes nothing more. -/
theorem visible_of_full {k : Nat} {log : List (Sse F)} (h : log.length = k) (ms : List (Sse F)) :
    Chat.visible (some k) (log ++ ms) = log := by
  show (log ++ ms).take k = log
  rw [List.take_append_of_le_length (Nat.le_of_eq h.symm), List.take_of_length_le (Nat.le_of_eq h)]

theorem Fits.append_left {leavesAfter : Option Nat} {log ms : List (Sse F)} (h : Fits leavesAfter (log ++ ms)) :
    Fits leavesAfter log := by
  intro k hk
  have hle := h k hk
  rw [List.length_append] at hle
  omega

/-- A send succeeds, or the client has just what came before it. -/
theorem SseTx.send_cases {tx : SseTx F} (h : Fits tx.leavesAfter tx.log) (m : Sse F) :
    (tx.send m = some { tx with log := tx.log ++ [m] } ∧ Fits tx.leavesAfter (tx.log ++ [m])) ∨
      (tx.send m = none ∧ tx.leavesAfter = some tx.log.length) := by
  rcases eq_or_ne tx.leavesAfter (some tx.log.length) with hfull | hroom
  · exact .inr ⟨if_pos hfull, hfull⟩
  · refine .inl ⟨if_neg hroom, ?_⟩
    intro k hk
    have hle := h k hk
    have hne : k ≠ tx.log.length := by
      rintro rfl
      exact hroom hk
    rw [List.length_append, List.length_singleton]
    omega

/-- A task that has sent these. -/
def Task.withLog (t : Task F) (log : List (Sse F)) : Task F := { t with tx := { t.tx with log := log } }

/-- All of the messages are sent, or the client left before the last of them. -/
theorem Task.sendAll_cases {t : Task F} (h : Fits t.tx.leavesAfter t.tx.log) (next : Task F → Task F)
    (ms : List (Sse F)) :
    (t.sendAll next ms = next (t.withLog (t.tx.log ++ ms)) ∧ Fits t.tx.leavesAfter (t.tx.log ++ ms)) ∨
      (t.sendAll next ms = (t.withLog (visible t.tx.leavesAfter (t.tx.log ++ ms))).stop ∧
        ¬ Fits t.tx.leavesAfter (t.tx.log ++ ms)) := by
  induction ms generalizing t with
  | nil =>
      refine .inl ⟨?_, by rwa [List.append_nil]⟩
      rw [List.append_nil]
      rfl
  | cons m ms ih =>
      have hlist : t.tx.log ++ m :: ms = t.tx.log ++ [m] ++ ms := by rw [List.append_assoc, List.singleton_append]
      rcases SseTx.send_cases h m with ⟨hsend, hfits⟩ | ⟨hsend, hfull⟩
      · have hstep : t.sendAll next (m :: ms) =
            (t.withLog (t.tx.log ++ [m])).sendAll next ms := by
          rw [Task.sendAll, Task.sendOr, hsend]
          rfl
        rw [hstep, hlist]
        exact ih (t := t.withLog (t.tx.log ++ [m])) hfits
      · refine .inr ⟨?_, ?_⟩
        · rw [Task.sendAll, Task.sendOr, hsend, hfull, visible_of_full rfl]
          rfl
        · intro hfits
          have hle := hfits _ hfull
          rw [List.length_append, List.length_cons] at hle
          omega

theorem SseTx.trySend_eq {tx : SseTx F} {log : List (Sse F)} (h : tx.log = visible tx.leavesAfter log) (m : Sse F) :
    tx.trySend m = { tx with log := visible tx.leavesAfter (log ++ [m]) } := by
  obtain ⟨sent, leavesAfter⟩ := tx
  obtain rfl : sent = visible leavesAfter log := h
  rcases leavesAfter with _ | k
  · rfl
  · rcases Nat.lt_or_ge log.length k with hlt | hge
    · have htake : log.take k = log := List.take_of_length_le (Nat.le_of_lt hlt)
      have hall : (log ++ [m]).take k = log ++ [m] := by
        apply List.take_of_length_le
        rw [List.length_append, List.length_singleton]
        exact hlt
      have hne : (some k : Option Nat) ≠ some log.length := by
        rw [ne_eq, Option.some.injEq]
        omega
      show (SseTx.send ⟨log.take k, some k⟩ m).getD _ = ⟨(log ++ [m]).take k, some k⟩
      rw [hall, htake, SseTx.send, if_neg hne]
      rfl
    · have hlen : (log.take k).length = k := by
        rw [List.length_take]
        omega
      show (SseTx.send ⟨log.take k, some k⟩ m).getD _ = ⟨(log ++ [m]).take k, some k⟩
      rw [List.take_append_of_le_length hge, SseTx.send, if_pos (by rw [hlen])]
      rfl

theorem Task.fail_eq {t : Task F} {log : List (Sse F)} (h : t.tx.log = visible t.tx.leavesAfter log) (e : ErrorBody) :
    t.fail e = (t.withLog (visible t.tx.leavesAfter (log ++ [.error e, .done]))).stop := by
  have herror : (⟨visible t.tx.leavesAfter (log ++ [.error e]), t.tx.leavesAfter⟩ : SseTx F).log =
      visible t.tx.leavesAfter (log ++ [.error e]) := rfl
  rw [Task.fail, SseTx.trySend_eq h, SseTx.trySend_eq herror, List.append_assoc]
  rfl

/-! ## The messages of an event -/

/-- The chunks an event of sequence `i` makes. -/
def eventChunks (req : Request) (i : Nat) : EngineEvent F → List (ChunkChoice F)
  | .token text entries =>
      if text.isEmpty && entries.isEmpty then [] else [contentChunk i text (chunkLogprobs req entries)]
  | .reasoningToken text => [reasoningChunk i text]
  | .finish finishReason _ => [finishChunk i finishReason]
  | .streamEnd => []
  | .error _ => []

/-- The usage behind the only sequence's finish. -/
def finishUsage (env : Envelope) (req : Request) : EngineEvent F → List (Sse F)
  | .finish _ completionTokens => if req.n = 1 ∧ req.includeUsage = true then [usageChunk env req completionTokens] else []
  | _ => []

def eventMessages (env : Envelope) (req : Request) (p : Nat × EngineEvent F) : List (Sse F) :=
  (eventChunks req (if req.n = 1 then 0 else p.1) p.2).map (choiceChunk env) ++ finishUsage env req p.2

def roleMessages (env : Envelope) (req : Request) : List (Sse F) :=
  (List.range req.n).map fun i => choiceChunk env (roleChunk i)

/-- The stream up to where it is closed. -/
def transcript (env : Envelope) (req : Request) (taken : List (Nat × EngineEvent F)) : List (Sse F) :=
  roleMessages env req ++ taken.flatMap (eventMessages env req)

theorem transcript_snoc (taken : List (Nat × EngineEvent F)) (p : Nat × EngineEvent F) :
    transcript env req (taken ++ [p]) = transcript env req taken ++ eventMessages env req p := by
  rw [transcript, transcript, List.flatMap_append, List.flatMap_singleton, List.append_assoc]

/-! ## Counting -/

def EngineEvent.ends : EngineEvent F → Nat
  | .streamEnd => 1
  | _ => 0

def EngineEvent.tokens : EngineEvent F → Nat
  | .finish _ completionTokens => completionTokens
  | _ => 0

def EngineEvent.isError : EngineEvent F → Bool
  | .error _ => true
  | _ => false

def endsOf (taken : List (Nat × EngineEvent F)) : Nat := (taken.map fun p => p.2.ends).sum

def tokensOf (taken : List (Nat × EngineEvent F)) : Nat := (taken.map fun p => p.2.tokens).sum

theorem endsOf_snoc (taken : List (Nat × EngineEvent F)) (p : Nat × EngineEvent F) :
    endsOf (taken ++ [p]) = endsOf taken + p.2.ends := by
  simp [endsOf]

theorem tokensOf_snoc (taken : List (Nat × EngineEvent F)) (p : Nat × EngineEvent F) :
    tokensOf (taken ++ [p]) = tokensOf taken + p.2.tokens := by
  simp [tokensOf]

/-! ## The invariant -/

/-- The usage at the end of several sequences. -/
def endUsage (env : Envelope) (req : Request) (taken : List (Nat × EngineEvent F)) : List (Sse F) :=
  if req.n ≠ 1 ∧ req.includeUsage = true then [usageChunk env req (tokensOf taken)] else []

/-- A task that reads on. -/
structure Open (env : Envelope) (req : Request) (taken : List (Nat × EngineEvent F)) (t : Task F) : Prop where
  log : t.tx.log = transcript env req taken
  fits : Fits t.tx.leavesAfter (transcript env req taken)
  calm : ∀ p ∈ taken, p.2.isError = false
  few : endsOf taken < req.n
  ends : req.n ≠ 1 → t.streamEnds = endsOf taken
  tokens : req.n ≠ 1 → t.totalCompletionTokens = tokensOf taken
  running : t.phase = .running

/-- How a stream ended, and all that a client which stays is sent. -/
inductive Closing (env : Envelope) (req : Request) (s : StreamState F) : List (Sse F) → Prop
  | completed (hcalm : ∀ p ∈ s.net.taken, p.2.isError = false) (hends : endsOf s.net.taken = req.n) :
      Closing env req s (transcript env req s.net.taken ++ endUsage env req s.net.taken ++ [.done])
  | errored {i : Nat} {msg : String} (hmem : (i, .error msg) ∈ s.net.taken) :
      Closing env req s
        (transcript env req s.net.taken ++ [.error (errorResponse 500 msg "server_error").2, .done])
  | expired {t : Nat} (ht : req.timeout = some t) {front : List (Sse F)}
      (hfront : front = [] ∨ front = transcript env req s.net.taken) :
      Closing env req s (front ++ [.error (errorResponse 408 (timeoutMessage t) "request_timeout").2, .done])
  | hungUp (hends : endsOf s.net.taken < req.n) (hqueue : s.net.queue = []) (hgone : ∀ i < req.n, s.net.sources i = []) :
      Closing env req s (transcript env req s.net.taken)
  | left (hgone : ¬ Fits s.task.tx.leavesAfter (transcript env req s.net.taken)) :
      Closing env req s (transcript env req s.net.taken)

inductive StreamInv (env : Envelope) (req : Request) (s : StreamState F) : Prop
  | starting (hlog : s.task.tx.log = []) (hends : s.task.streamEnds = 0) (htokens : s.task.totalCompletionTokens = 0)
      (htaken : s.net.taken = []) (hphase : s.task.phase = .starting)
  | running (h : Open env req s.net.taken s.task)
  | ended {log : List (Sse F)} (hclosing : Closing env req s log)
      (hlog : s.task.tx.log = visible s.task.tx.leavesAfter log) (hphase : s.task.phase = .ended)

/-! ## What a step does -/

/-- The counts behind an event; a single sequence has none. -/
def Task.counted (req : Request) (t : Task F) (e : EngineEvent F) : Task F :=
  if req.n = 1 then t
  else { t with streamEnds := t.streamEnds + e.ends, totalCompletionTokens := t.totalCompletionTokens + e.tokens }

theorem Task.counted_tx (t : Task F) (e : EngineEvent F) : (t.counted req e).tx = t.tx := by
  unfold Task.counted
  split <;> rfl

theorem Task.counted_phase (t : Task F) (e : EngineEvent F) : (t.counted req e).phase = t.phase := by
  unfold Task.counted
  split <;> rfl

/-- Neither the end of the stream nor an error. -/
def EngineEvent.IsMessage (e : EngineEvent F) : Prop := e.ends = 0 ∧ e.isError = false

theorem Task.onEvent_message (hn : req.n = 1) (t : Task F) {e : EngineEvent F} (h : e.IsMessage) :
    t.onEvent env req e = t.sendAll id (eventMessages env req (0, e)) := by
  rw [eventMessages, if_pos hn]
  rcases e with ⟨text, entries⟩ | text | ⟨finishReason, completionTokens⟩ | _ | msg
  · rcases hskip : text.isEmpty && entries.isEmpty with _ | _
    · simp only [Task.onEvent, eventChunks, hskip]
      rfl
    · simp only [Task.onEvent, eventChunks, hskip]
      rfl
  · rfl
  · rcases husage : req.includeUsage with _ | _
    · simp [Task.onEvent, eventChunks, finishUsage, Task.sendAll, husage]
    · simp [Task.onEvent, eventChunks, finishUsage, Task.sendAll, hn, husage]
      rfl
  · exact absurd h.1 (Nat.succ_ne_zero 0)
  · exact absurd h.2 Bool.true_eq_false_eq_False

theorem Task.onMerged_message (hn : req.n ≠ 1) (t : Task F) (i : Nat) {e : EngineEvent F} (h : e.IsMessage) :
    t.onMerged env req i e = (t.counted req e).sendAll id (eventMessages env req (i, e)) := by
  rw [eventMessages, if_neg hn, Task.counted, if_neg hn]
  rcases e with ⟨text, entries⟩ | text | ⟨finishReason, completionTokens⟩ | _ | msg
  · rcases hskip : text.isEmpty && entries.isEmpty with _ | _
    · simp only [Task.onMerged, eventChunks, hskip]
      rfl
    · simp only [Task.onMerged, eventChunks, hskip]
      rfl
  · rfl
  · simp [Task.onMerged, eventChunks, finishUsage, Task.sendAll, hn]
    rfl
  · exact absurd h.1 (Nat.succ_ne_zero 0)
  · exact absurd h.2 Bool.true_eq_false_eq_False

/-- A text or a finish is sent on. -/
theorem Task.handle_message (t : Task F) (i : Nat) {e : EngineEvent F} (h : e.IsMessage) :
    t.handle env req (i, e) = (t.counted req e).sendAll id (eventMessages env req (i, e)) := by
  rcases eq_or_ne req.n 1 with hn | hn
  · have hzero : eventMessages env req (i, e) = eventMessages env req (0, e) := by
      rw [eventMessages, eventMessages, if_pos hn, if_pos hn]
    rw [Task.handle, if_pos hn, Task.onEvent_message hn t h, hzero, Task.counted, if_pos hn]
  · rw [Task.handle, if_neg hn, Task.onMerged_message hn t i h]

/-- The last end closes the stream, any other is counted. -/
theorem Task.handle_streamEnd {taken : List (Nat × EngineEvent F)} {t : Task F} (h : Open env req taken t) (i : Nat) :
    (endsOf taken + 1 = req.n ∧ t.handle env req (i, .streamEnd) =
        (t.counted req .streamEnd).sendAll Task.stop (endUsage env req taken ++ [.done])) ∨
      (endsOf taken + 1 < req.n ∧ t.handle env req (i, .streamEnd) = t.counted req .streamEnd) := by
  have hfew := h.few
  rcases eq_or_ne req.n 1 with hn | hn
  · refine .inl ⟨by omega, ?_⟩
    rw [Task.handle, if_pos hn, Task.counted, if_pos hn, endUsage, if_neg (fun hc => hc.1 hn)]
    rfl
  · rw [Task.handle, if_neg hn, Task.counted, if_neg hn, endUsage]
    rcases eq_or_ne (endsOf taken + 1) req.n with hlast | hmore
    · refine .inl ⟨hlast, ?_⟩
      have hcount : t.streamEnds + 1 = req.n := by rw [h.ends hn, hlast]
      rcases husage : req.includeUsage with _ | _
      · simp [Task.onMerged, hcount, husage, EngineEvent.ends, EngineEvent.tokens, Task.sendAll]
      · simp [Task.onMerged, hcount, husage, hn, h.tokens hn, EngineEvent.ends, EngineEvent.tokens, Task.sendAll]
    · refine .inr ⟨by omega, ?_⟩
      have hcount : t.streamEnds + 1 ≠ req.n := by rwa [h.ends hn]
      simp [Task.onMerged, hcount, EngineEvent.ends, EngineEvent.tokens]

theorem Task.handle_error (t : Task F) (i : Nat) (msg : String) :
    t.handle env req (i, .error msg) = t.fail (errorResponse 500 msg "server_error").2 := by
  unfold Task.handle
  split <;> rfl

/-! ## The invariant is kept -/

theorem transcript_silent {taken : List (Nat × EngineEvent F)} {i : Nat} {e : EngineEvent F}
    (h : e.ends = 1 ∨ e.isError = true) : transcript env req (taken ++ [(i, e)]) = transcript env req taken := by
  have hnone : eventMessages env req (i, e) = [] := by
    rcases e with ⟨text, entries⟩ | text | ⟨finishReason, completionTokens⟩ | _ | msg
    · simp [EngineEvent.ends, EngineEvent.isError] at h
    · simp [EngineEvent.ends, EngineEvent.isError] at h
    · simp [EngineEvent.ends, EngineEvent.isError] at h
    · rfl
    · rfl
  rw [transcript_snoc, hnone, List.append_nil]

theorem endUsage_streamEnd (taken : List (Nat × EngineEvent F)) (i : Nat) :
    endUsage env req (taken ++ [(i, .streamEnd)]) = endUsage env req taken := by
  rw [endUsage, endUsage, tokensOf_snoc]
  rfl

/-- An event that is counted and closes nothing. -/
theorem Open.snoc {taken : List (Nat × EngineEvent F)} {t : Task F} (h : Open env req taken t) {i : Nat}
    {e : EngineEvent F} (hcalm : e.isError = false) (hfew : endsOf taken + e.ends < req.n)
    (hfits : Fits t.tx.leavesAfter (transcript env req (taken ++ [(i, e)]))) :
    Open env req (taken ++ [(i, e)])
      ((t.counted req e).withLog (transcript env req (taken ++ [(i, e)]))) where
  log := rfl
  fits := by
    show Fits (t.counted req e).tx.leavesAfter _
    rwa [Task.counted_tx]
  calm := by
    intro p hp
    rcases List.mem_append.1 hp with hold | hnew
    · exact h.calm p hold
    · rw [List.mem_singleton.1 hnew]
      exact hcalm
  few := by rwa [endsOf_snoc]
  ends := by
    intro hn
    rw [endsOf_snoc, ← h.ends hn, Task.counted, if_neg hn]
    rfl
  tokens := by
    intro hn
    rw [tokensOf_snoc, ← h.tokens hn, Task.counted, if_neg hn]
    rfl
  running := by
    show (t.counted req e).phase = .running
    rw [Task.counted_phase, h.running]

theorem EngineEvent.kinds (e : EngineEvent F) : e.IsMessage ∨ e = .streamEnd ∨ ∃ msg, e = .error msg := by
  rcases e with ⟨text, entries⟩ | text | ⟨finishReason, completionTokens⟩ | _ | msg
  · exact .inl ⟨rfl, rfl⟩
  · exact .inl ⟨rfl, rfl⟩
  · exact .inl ⟨rfl, rfl⟩
  · exact .inr (.inl rfl)
  · exact .inr (.inr ⟨msg, rfl⟩)

/-- One event taken from the queue. -/
theorem Open.handle {net : FanIn (EngineEvent F)} {t : Task F} (h : Open env req net.taken t)
    (p : Nat × EngineEvent F) (rest : List (Nat × EngineEvent F)) :
    StreamInv env req ⟨net.take p rest, t.handle env req p⟩ := by
  obtain ⟨i, e⟩ := p
  rcases e.kinds with hmessage | rfl | ⟨msg, rfl⟩
  · -- a message is sent, or the client has left
    rw [Task.handle_message t i hmessage]
    have hfits : Fits (t.counted req e).tx.leavesAfter (t.counted req e).tx.log := by
      rw [Task.counted_tx, h.log]
      exact h.fits
    have hlog : (t.counted req e).tx.log ++ eventMessages env req (i, e) =
        transcript env req (net.taken ++ [(i, e)]) := by
      rw [Task.counted_tx, h.log, transcript_snoc]
    rcases Task.sendAll_cases hfits id (eventMessages env req (i, e)) with ⟨heq, hroom⟩ | ⟨heq, hgone⟩
    · rw [heq, hlog]
      rw [hlog, Task.counted_tx] at hroom
      apply StreamInv.running
      apply h.snoc hmessage.2 _ hroom
      rw [hmessage.1]
      exact h.few
    · rw [heq, hlog]
      rw [hlog] at hgone
      exact .ended (.left hgone) rfl rfl
  · -- the end of a sequence
    have hsilent : transcript env req (net.taken ++ [(i, .streamEnd)]) = transcript env req net.taken :=
      transcript_silent (.inl rfl)
    have hcalm : ∀ p ∈ net.taken ++ [(i, .streamEnd)], p.2.isError = false := by
      intro p hp
      rcases List.mem_append.1 hp with hold | hnew
      · exact h.calm p hold
      · rw [List.mem_singleton.1 hnew]
        rfl
    rcases Task.handle_streamEnd h i with ⟨hlast, heq⟩ | ⟨hmore, heq⟩
    · have hends : endsOf (net.taken ++ [(i, .streamEnd)]) = req.n := by rw [endsOf_snoc, ← hlast]; rfl
      have hfits : Fits (t.counted req .streamEnd).tx.leavesAfter (t.counted req .streamEnd).tx.log := by
        rw [Task.counted_tx, h.log]
        exact h.fits
      have hlog : (t.counted req .streamEnd).tx.log ++ (endUsage env req net.taken ++ [.done]) =
          transcript env req (net.taken ++ [(i, .streamEnd)]) ++
            endUsage env req (net.taken ++ [(i, .streamEnd)]) ++ [.done] := by
        rw [Task.counted_tx, h.log, hsilent, endUsage_streamEnd, List.append_assoc]
      rw [heq]
      rcases Task.sendAll_cases hfits Task.stop (endUsage env req net.taken ++ [.done]) with ⟨hsent, hroom⟩ | ⟨hsent, -⟩
      · rw [hsent]
        rw [hlog] at hroom ⊢
        exact .ended (.completed hcalm hends) hroom.visible.symm rfl
      · rw [hsent, hlog]
        exact .ended (.completed hcalm hends) rfl rfl
    · have hopen := h.snoc (i := i) (e := .streamEnd) rfl hmore (hsilent ▸ h.fits)
      have hsame : (t.counted req .streamEnd).withLog (transcript env req (net.taken ++ [(i, .streamEnd)])) =
          t.counted req .streamEnd := by
        have htx : (t.counted req .streamEnd).tx = t.tx := Task.counted_tx t .streamEnd
        rw [hsilent, ← h.log, Task.withLog, ← htx]
      rw [heq, ← hsame]
      exact .running hopen
  · -- an error
    have hlog : t.tx.log = visible t.tx.leavesAfter (transcript env req (net.taken ++ [(i, .error msg)])) := by
      rw [transcript_silent (.inr rfl), h.log, h.fits.visible]
    rw [Task.handle_error, Task.fail_eq hlog]
    exact .ended (.errored (List.mem_append_right _ List.mem_cons_self)) rfl rfl

theorem Task.begin_eq (t : Task F) :
    t.begin env req = t.sendAll (fun t => { t with phase := .running }) (roleMessages env req) := rfl

/-- Every step keeps it. -/
theorem StreamStep.inv {s s' : StreamState F} (hstep : StreamStep env req s s') (hn : 0 < req.n)
    (h : StreamInv env req s) : StreamInv env req s' := by
  rcases hstep with hp | @⟨hp, i, e, rest, hsource⟩ | @⟨hp, p, rest, hqueue⟩ | ⟨hp, hqueue, hgone⟩ | @⟨hp, t, ht⟩
  · -- the role chunks
    rcases h with ⟨hlog, hends, htokens, htaken, hphase⟩ | hopen | ⟨-, -, hphase⟩
    · have hfits : Fits s.task.tx.leavesAfter s.task.tx.log := by
        intro k _
        rw [hlog]
        exact Nat.zero_le k
      have hroles : s.task.tx.log ++ roleMessages env req = transcript env req s.net.taken := by
        rw [hlog, htaken]
        exact (List.append_nil _).symm
      show StreamInv env req ⟨s.net, s.task.begin env req⟩
      rw [Task.begin_eq]
      rcases Task.sendAll_cases hfits (fun t => { t with phase := .running }) (roleMessages env req) with
        ⟨heq, hroom⟩ | ⟨heq, hleft⟩
      · rw [heq, hroles]
        rw [hroles] at hroom
        refine .running ⟨rfl, hroom, ?_, ?_, ?_, ?_, rfl⟩
        · intro p hmem
          have hmem' : p ∈ s.net.taken := hmem
          rw [htaken] at hmem'
          exact absurd hmem' List.not_mem_nil
        · show endsOf s.net.taken < req.n
          rw [htaken]
          exact hn
        · intro _
          show s.task.streamEnds = endsOf s.net.taken
          rw [htaken, hends]
          rfl
        · intro _
          show s.task.totalCompletionTokens = tokensOf s.net.taken
          rw [htaken, htokens]
          rfl
      · rw [heq, hroles]
        rw [hroles] at hleft
        exact .ended (.left hleft) rfl rfl
    · exact absurd (hopen.running.symm.trans hp) (by decide)
    · exact absurd (hphase.symm.trans hp) (by decide)
  · -- an event on its way
    rcases h with ⟨hlog, hends, htokens, htaken, hphase⟩ | hopen | ⟨-, -, hphase⟩
    · exact .starting hlog hends htokens htaken hphase
    · exact .running hopen
    · exact absurd hphase hp
  · -- an event taken
    rcases h with ⟨-, -, -, -, hphase⟩ | hopen | ⟨-, -, hphase⟩
    · exact absurd (hphase.symm.trans hp) (by decide)
    · exact hopen.handle p rest
    · exact absurd (hphase.symm.trans hp) (by decide)
  · -- nobody sends any more
    rcases h with ⟨-, -, -, -, hphase⟩ | hopen | ⟨-, -, hphase⟩
    · exact absurd (hphase.symm.trans hp) (by decide)
    · exact .ended (.hungUp hopen.few hqueue hgone) (hopen.log.trans hopen.fits.visible.symm) rfl
    · exact absurd (hphase.symm.trans hp) (by decide)
  · -- the time is up
    rcases h with ⟨hlog, -, -, -, -⟩ | hopen | ⟨-, -, hphase⟩
    · have hnone : s.task.tx.log = visible s.task.tx.leavesAfter [] := by
        rw [hlog]
        rcases s.task.tx.leavesAfter with _ | k
        · rfl
        · exact List.take_nil.symm
      rw [Task.fail_eq hnone]
      exact .ended (.expired ht (.inl rfl)) rfl rfl
    · rw [Task.fail_eq (hopen.log.trans hopen.fits.visible.symm)]
      exact .ended (.expired ht (.inr rfl)) rfl rfl
    · exact absurd hphase hp

/-! ## What no step changes -/

/-- A continuation that does not change when the client leaves. -/
def KeepsClient (next : Task F → Task F) : Prop := ∀ t, (next t).tx.leavesAfter = t.tx.leavesAfter

theorem Task.sendOr_keeps {next : Task F → Task F} (hnext : KeepsClient next) (m : Sse F) :
    KeepsClient fun t => t.sendOr m next := by
  intro t
  show (t.sendOr m next).tx.leavesAfter = _
  unfold Task.sendOr
  rcases hsend : t.tx.send m with _ | tx
  · rfl
  · unfold SseTx.send at hsend
    split at hsend
    · exact absurd hsend (by simp)
    · rw [← Option.some.inj hsend]
      exact hnext _

theorem Task.sendAll_keeps {next : Task F → Task F} (hnext : KeepsClient next) (ms : List (Sse F)) :
    KeepsClient fun t => t.sendAll next ms := by
  induction ms with
  | nil => exact hnext
  | cons m ms ih => exact Task.sendOr_keeps ih m

theorem SseTx.trySend_leavesAfter (tx : SseTx F) (m : Sse F) : (tx.trySend m).leavesAfter = tx.leavesAfter := by
  unfold SseTx.trySend SseTx.send
  split <;> rfl

theorem Task.fail_keeps (e : ErrorBody) : KeepsClient fun t : Task F => t.fail e := by
  intro t
  show ((t.tx.trySend _).trySend _).leavesAfter = _
  rw [SseTx.trySend_leavesAfter, SseTx.trySend_leavesAfter]

theorem Task.counted_keeps (e : EngineEvent F) : KeepsClient fun t : Task F => t.counted req e := by
  intro t
  show (t.counted req e).tx.leavesAfter = _
  rw [Task.counted_tx]

theorem Task.handle_keeps (p : Nat × EngineEvent F) : KeepsClient fun t => t.handle env req p := by
  intro t
  obtain ⟨i, e⟩ := p
  have hid : KeepsClient (id : Task F → Task F) := fun _ => rfl
  have hstop : KeepsClient (Task.stop : Task F → Task F) := fun _ => rfl
  rcases e.kinds with hmessage | rfl | ⟨msg, rfl⟩
  · show (t.handle env req (i, e)).tx.leavesAfter = _
    rw [Task.handle_message t i hmessage]
    exact (Task.sendAll_keeps hid _ _).trans (Task.counted_keeps e t)
  · show (t.handle env req (i, .streamEnd)).tx.leavesAfter = _
    unfold Task.handle
    split
    · exact Task.sendOr_keeps hstop _ t
    · show (Task.onMerged env req t i .streamEnd).tx.leavesAfter = _
      simp only [Task.onMerged]
      split
      · split
        · exact Task.sendOr_keeps (Task.sendOr_keeps hstop _) _ _
        · exact Task.sendOr_keeps hstop _ _
      · rfl
  · show (t.handle env req (i, .error msg)).tx.leavesAfter = _
    rw [Task.handle_error]
    exact Task.fail_keeps _ t

theorem StreamStep.leavesAfter {s s' : StreamState F} (hstep : StreamStep env req s s') :
    s'.task.tx.leavesAfter = s.task.tx.leavesAfter := by
  rcases hstep with _ | _ | @⟨_, p, _, _⟩ | _ | _
  · have hgo : KeepsClient fun t : Task F => { t with phase := .running } := fun _ => rfl
    exact Task.sendAll_keeps hgo _ _
  · rfl
  · exact Task.handle_keeps p _
  · rfl
  · exact Task.fail_keeps _ _

theorem StreamReach.leavesAfter {streams : List (List (EngineEvent F))} {leavesAfter : Option Nat} {s : StreamState F}
    (h : StreamReach env req streams leavesAfter s) : s.task.tx.leavesAfter = leavesAfter := by
  induction h with
  | refl => rfl
  | tail _ hstep ih => rw [hstep.leavesAfter, ih]

/-- The network is stepped or left alone. -/
theorem StreamStep.net_step {s s' : StreamState F} (hstep : StreamStep env req s s') :
    s'.net = s.net ∨ FanIn.Step s.net s'.net := by
  rcases hstep with _ | @⟨_, _, _, _, hsource⟩ | @⟨_, _, _, hqueue⟩ | _ | _
  · exact .inl rfl
  · exact .inr (.forward hsource)
  · exact .inr (.take hqueue)
  · exact .inl rfl
  · exact .inl rfl

theorem StreamReach.conserves {streams : List (List (EngineEvent F))} {leavesAfter : Option Nat} {s : StreamState F}
    (h : StreamReach env req streams leavesAfter s) : s.net.Conserves (sourcesOf streams) := by
  induction h with
  | refl => exact FanIn.start_conserves _
  | tail _ hstep ih =>
      rcases hstep.net_step with hsame | hnet
      · rwa [hsame]
      · exact hnet.conserves ih

/-- The invariant of every run. -/
theorem StreamReach.inv {streams : List (List (EngineEvent F))} {leavesAfter : Option Nat} {s : StreamState F}
    (h : StreamReach env req streams leavesAfter s) (hn : 0 < req.n) : StreamInv env req s := by
  induction h with
  | refl => exact .starting rfl rfl rfl rfl rfl
  | tail _ hstep ih => exact hstep.inv hn ih

/-! ## A run comes to rest -/

def Phase.weight : Phase → Nat
  | .starting => 2
  | .running => 1
  | .ended => 0

/-- Steps still to come, at most. -/
def StreamState.remaining (req : Request) (s : StreamState F) : Nat := s.net.remaining req.n + s.task.phase.weight

theorem Task.begin_phase {t : Task F} (h : t.tx.log = []) : (t.begin env req).phase.weight ≤ 1 := by
  have hfits : Fits t.tx.leavesAfter t.tx.log := by
    intro k _
    rw [h]
    exact Nat.zero_le k
  rw [Task.begin_eq]
  rcases Task.sendAll_cases hfits (fun t => { t with phase := .running }) (roleMessages env req) with
    ⟨heq, -⟩ | ⟨heq, -⟩
  · rw [heq]
    exact Nat.le_refl 1
  · rw [heq]
    exact Nat.zero_le 1

theorem Open.handle_phase {taken : List (Nat × EngineEvent F)} {t : Task F} (h : Open env req taken t)
    (p : Nat × EngineEvent F) : (t.handle env req p).phase.weight ≤ 1 := by
  have hnet : Open env req (FanIn.mk (fun _ => []) [] taken).taken t := h
  rcases hnet.handle p [] with ⟨-, -, -, htaken, -⟩ | hopen | ⟨-, -, hphase⟩
  · exact absurd htaken (by simp [FanIn.take])
  · rw [hopen.running]
    exact Nat.le_refl 1
  · rw [hphase]
    exact Nat.zero_le 1

theorem StreamStep.remaining_lt {s s' : StreamState F} (hstep : StreamStep env req s s')
    (h : StreamInv env req s) (hsources : ∀ i, req.n ≤ i → s.net.sources i = []) :
    s'.remaining req < s.remaining req := by
  have hweight : ∀ {phase : Phase}, phase ≠ .ended → 0 < phase.weight := by
    intro phase hne
    rcases phase with _ | _ | _
    · exact Nat.two_pos
    · exact Nat.one_pos
    · exact absurd rfl hne
  rcases hstep with hp | @⟨hp, i, e, rest, hsource⟩ | @⟨hp, p, rest, hqueue⟩ | ⟨hp, -, -⟩ | @⟨hp, t, ht⟩
  · rcases h with ⟨hlog, -, -, -, hphase⟩ | hopen | ⟨-, -, hphase⟩
    · have hle : (s.task.begin env req).phase.weight ≤ 1 := Task.begin_phase hlog
      show s.net.remaining req.n + (s.task.begin env req).phase.weight < s.net.remaining req.n + s.task.phase.weight
      rw [hp, Phase.weight]
      omega
    · exact absurd (hopen.running.symm.trans hp) (by decide)
    · exact absurd (hphase.symm.trans hp) (by decide)
  · exact Nat.add_lt_add_right ((FanIn.Step.forward hsource).remaining_lt hsources) _
  · rcases h with ⟨-, -, -, -, hphase⟩ | hopen | ⟨-, -, hphase⟩
    · exact absurd (hphase.symm.trans hp) (by decide)
    · have hle := hopen.handle_phase p
      have hlt := (FanIn.Step.take hqueue).remaining_lt hsources
      show (s.net.take p rest).remaining req.n + (s.task.handle env req p).phase.weight <
        s.net.remaining req.n + s.task.phase.weight
      rw [hp]
      exact Nat.add_lt_add_of_lt_of_le hlt hle
    · exact absurd (hphase.symm.trans hp) (by decide)
  · exact Nat.add_lt_add_left (hweight (by rw [hp]; decide)) _
  · exact Nat.add_lt_add_left (hweight hp) _

/-- Until it has ended, it can go on. -/
theorem StreamState.can_step (s : StreamState F) (h : s.task.phase ≠ .ended) : ∃ s', StreamStep env req s s' := by
  rcases hphase : s.task.phase with _ | _ | _
  · exact ⟨_, .begin hphase⟩
  · rcases hqueue : s.net.queue with _ | ⟨p, rest⟩
    · by_cases hgone : ∀ i < req.n, s.net.sources i = []
      · exact ⟨_, .hangUp hphase hqueue hgone⟩
      · push Not at hgone
        obtain ⟨i, -, hsource⟩ := hgone
        obtain ⟨e, rest, hcons⟩ := List.exists_cons_of_ne_nil hsource
        exact ⟨_, .forward h hcons⟩
    · exact ⟨_, .recv hphase hqueue⟩
  · exact absurd hphase h

end Oxydllm.Serve.Chat
