/-
# Oxydllm.Serve.Streamed — the answer of a chat request that is streamed.

One task turns the events of a request into the chunks of a server-sent event stream. For one sequence it reads the
response channel itself; for several a forwarder per channel puts the events into one merged channel, and the task
reads that. In both cases the events come through a `FanIn`: of its sources, the events the engine sends, into its
queue, the channel the task reads. With tools the whole completions are collected first (`toolStream`).

The client may go at any time: `leavesAfter` is how many events it has been sent when it does. A timeout may come at any
time that the task waits.
-/
import Oxydllm.Lib.FanIn
import Oxydllm.Serve.Completion

namespace Oxydllm.Serve.Chat

open ToolCalls (trim stripJsonFences)

variable {F : Type}

/-! ## Chunks -/

structure ToolCallFunctionDelta where
  name : Option (List Char)
  arguments : List Char
deriving DecidableEq

structure ToolCallDelta where
  index : Nat
  id : Option (List Char)
  callType : Option (List Char)
  function : ToolCallFunctionDelta
deriving DecidableEq

structure Delta where
  role : Option String
  content : Option String
  reasoningContent : Option String
  toolCalls : Option (List ToolCallDelta)
deriving DecidableEq

def Delta.empty : Delta := ⟨none, none, none, none⟩

structure ChunkChoice (F : Type) where
  index : Nat
  delta : Delta
  finishReason : Option String
  logprobs : Option (Logprobs F)

structure ChatCompletionChunk (F : Type) where
  envelope : Envelope
  object : String
  choices : List (ChunkChoice F)
  usage : Option Usage

/-- What is sent to the client. -/
inductive Sse (F : Type) where
  | chunk (c : ChatCompletionChunk F)
  | error (e : ErrorBody)
  | done

def choiceChunk (env : Envelope) (c : ChunkChoice F) : Sse F := .chunk ⟨env, "chat.completion.chunk", [c], none⟩

def roleChunk (i : Nat) : ChunkChoice F := ⟨i, { Delta.empty with role := some "assistant" }, none, none⟩

def contentChunk (i : Nat) (text : String) (logprobs : Option (Logprobs F)) : ChunkChoice F :=
  ⟨i, { Delta.empty with content := some text }, none, logprobs⟩

def reasoningChunk (i : Nat) (text : String) : ChunkChoice F :=
  ⟨i, { Delta.empty with reasoningContent := some text }, none, none⟩

def finishChunk (i : Nat) (finishReason : String) : ChunkChoice F := ⟨i, Delta.empty, some finishReason, none⟩

def toolChunk (i : Nat) (deltas : List ToolCallDelta) : ChunkChoice F :=
  ⟨i, { Delta.empty with toolCalls := some deltas }, none, none⟩

def usageChunk (env : Envelope) (req : Request) (completionTokens : Nat) : Sse F :=
  .chunk ⟨env, "chat.completion.chunk", [],
    some ⟨req.promptLen, completionTokens, req.promptLen + completionTokens, none⟩⟩

/-- The logprobs of a token's chunk. -/
def chunkLogprobs (req : Request) (entries : List (EngineLogprobEntry F)) : Option (Logprobs F) :=
  if req.wantsLogprobs && !entries.isEmpty then some (buildLogprobsContent entries req.reqTopN)
  else if req.wantsLogprobs then some ⟨[], none⟩
  else none

/-! ## The stream to the client -/

structure SseTx (F : Type) where
  log : List (Sse F)
  leavesAfter : Option Nat

/-- Fails when the client has gone. -/
def SseTx.send (tx : SseTx F) (m : Sse F) : Option (SseTx F) :=
  if tx.leavesAfter = some tx.log.length then none else some { tx with log := tx.log ++ [m] }

/-- `let _ = tx.send(m)`. -/
def SseTx.trySend (tx : SseTx F) (m : Sse F) : SseTx F := (tx.send m).getD tx

/-! ## The task -/

inductive Phase where
  | starting
  | running
  | ended
deriving DecidableEq

structure Task (F : Type) where
  tx : SseTx F
  streamEnds : Nat
  totalCompletionTokens : Nat
  phase : Phase

namespace Task

def stop (t : Task F) : Task F := { t with phase := .ended }

/-- `if tx.send(m).is_err() { break; }`, and what comes behind it. -/
def sendOr (t : Task F) (m : Sse F) (next : Task F → Task F) : Task F :=
  match t.tx.send m with
  | some tx => next { t with tx := tx }
  | none => t.stop

def sendAll (t : Task F) (next : Task F → Task F) : List (Sse F) → Task F
  | [] => next t
  | m :: ms => t.sendOr m fun t => t.sendAll next ms

/-- An error and the end of the stream, whether or not the client hears them. -/
def fail (t : Task F) (e : ErrorBody) : Task F := { t with tx := (t.tx.trySend (.error e)).trySend .done, phase := .ended }

variable (env : Envelope) (req : Request)

/-- The role chunks, one for each sequence. -/
def begin (t : Task F) : Task F :=
  t.sendAll (fun t => { t with phase := .running })
    ((List.range req.n).map fun i => choiceChunk env (roleChunk i))

/-- An event of the only sequence. -/
def onEvent (t : Task F) : EngineEvent F → Task F
  | .token text entries =>
      if text.isEmpty && entries.isEmpty then t
      else t.sendOr (choiceChunk env (contentChunk 0 text (chunkLogprobs req entries))) id
  | .reasoningToken text => t.sendOr (choiceChunk env (reasoningChunk 0 text)) id
  | .finish finishReason completionTokens =>
      t.sendOr (choiceChunk env (finishChunk 0 finishReason)) fun t =>
        if req.includeUsage then t.sendOr (usageChunk env req completionTokens) id else t
  | .streamEnd => t.sendOr .done stop
  | .error msg => t.fail (errorResponse 500 msg "server_error").2

/-- An event of one of several sequences. -/
def onMerged (t : Task F) (idx : Nat) : EngineEvent F → Task F
  | .token text entries =>
      if text.isEmpty && entries.isEmpty then t
      else t.sendOr (choiceChunk env (contentChunk idx text (chunkLogprobs req entries))) id
  | .reasoningToken text => t.sendOr (choiceChunk env (reasoningChunk idx text)) id
  | .finish finishReason completionTokens =>
      { t with totalCompletionTokens := t.totalCompletionTokens + completionTokens }.sendOr
        (choiceChunk env (finishChunk idx finishReason)) id
  | .streamEnd =>
      let t := { t with streamEnds := t.streamEnds + 1 }
      if t.streamEnds = req.n then
        if req.includeUsage then
          t.sendOr (usageChunk env req t.totalCompletionTokens) fun t => t.sendOr .done stop
        else t.sendOr .done stop
      else t
  | .error msg => t.fail (errorResponse 500 msg "server_error").2

/-- The arm of the handler is chosen by `n`. -/
def handle (t : Task F) (p : Nat × EngineEvent F) : Task F :=
  if req.n = 1 then t.onEvent env req p.2 else t.onMerged env req p.1 p.2

end Task

/-! ## Its steps -/

structure StreamState (F : Type) where
  net : FanIn (EngineEvent F)
  task : Task F

inductive StreamStep (env : Envelope) (req : Request) (s : StreamState F) : StreamState F → Prop
  | begin (hp : s.task.phase = .starting) : StreamStep env req s { s with task := s.task.begin env req }
  -- the engine, and with several sequences a forwarder
  | forward (hp : s.task.phase ≠ .ended) {i : Nat} {e : EngineEvent F} {rest : List (EngineEvent F)}
      (h : s.net.sources i = e :: rest) : StreamStep env req s { s with net := s.net.forward i e rest }
  | recv (hp : s.task.phase = .running) {p : Nat × EngineEvent F} {rest : List (Nat × EngineEvent F)}
      (h : s.net.queue = p :: rest) :
      StreamStep env req s ⟨s.net.take p rest, s.task.handle env req p⟩
  -- every sender is gone
  | hangUp (hp : s.task.phase = .running) (hqueue : s.net.queue = []) (hgone : ∀ i < req.n, s.net.sources i = []) :
      StreamStep env req s { s with task := s.task.stop }
  | timeout (hp : s.task.phase ≠ .ended) {t : Nat} (ht : req.timeout = some t) :
      StreamStep env req s { s with task := s.task.fail (errorResponse 408 (timeoutMessage t) "request_timeout").2 }

/-- The events the engine sends for each sequence. -/
def sourcesOf (streams : List (List (EngineEvent F))) (i : Nat) : List (EngineEvent F) := streams.getD i []

def StreamState.start (streams : List (List (EngineEvent F))) (leavesAfter : Option Nat) : StreamState F :=
  ⟨.start (sourcesOf streams), ⟨⟨[], leavesAfter⟩, 0, 0, .starting⟩⟩

def StreamReach (env : Envelope) (req : Request) (streams : List (List (EngineEvent F))) (leavesAfter : Option Nat)
    (s : StreamState F) : Prop :=
  Relation.ReflTransGen (StreamStep env req) (.start streams leavesAfter) s

/-! ## With tools -/

/-- The first delta of a call, all but its arguments. -/
def headerDelta (call : Call) (toolIdx : Nat) : ToolCallDelta :=
  ⟨toolIdx, some call.id, some "function".toList, some call.name, []⟩

def argumentsDelta (call : Call) (toolIdx : Nat) : ToolCallDelta := ⟨toolIdx, none, none, none, call.arguments⟩

/-- The chunks behind the role chunk of a collected completion. -/
def completionChunks (out : Outside) (req : Request) (i : Nat) (data : CompletionData F) : List (ChunkChoice F) :=
  match callsOf out req data.content with
  | some toolCalls =>
      [toolChunk i (toolCalls.zipIdx.map fun p => headerDelta p.1 p.2)] ++
        (toolCalls.zipIdx.filter fun p => !p.1.arguments.isEmpty).map
          (fun p => toolChunk i [argumentsDelta p.1 p.2]) ++ [finishChunk i "tool_calls"]
  | none =>
      (if data.content.isEmpty then [] else [contentChunk i data.content none]) ++ [finishChunk i data.finishReason]

/-- The messages of a buffered stream. -/
def toolMessages (out : Outside) (env : Envelope) (req : Request) (completions : List (CompletionData F)) :
    List (Sse F) :=
  completions.zipIdx.flatMap (fun p =>
      choiceChunk env (roleChunk p.2) :: (completionChunks out req p.2 p.1).map (choiceChunk env)) ++
    (if req.includeUsage then [usageChunk env req (completions.map (·.completionTokens)).sum] else []) ++ [.done]

/-- A buffered stream. -/
def toolStream (out : Outside) (env : Envelope) (req : Request) (joined : List (Joined F))
    (leavesAfter : Option Nat) : Task F :=
  let t : Task F := ⟨⟨[], leavesAfter⟩, 0, 0, .running⟩
  match collectAllCompletions joined with
  | .ok completions => t.sendAll Task.stop (toolMessages out env req completions)
  | .error e => t.fail e.2

end Oxydllm.Serve.Chat
