/-
# Oxydllm.Serve.Completion — the answer of a chat request that is not streamed (`chat_completions`).

Each of the `n` sequences of a request has a channel of engine events. A collector per channel accumulates them
until the stream ends; the collectors finish in any order, and the first to fail decides the answer. What was
collected becomes the choices and the usage of the response.

The request's id, time, model and fingerprint are one `Envelope`. A logprob is of any type; `serde_json` and its
equality of numbers are parameters, as is what `make_tool_call_id` returns for the calls of an answer.
-/
import Oxydllm.Constrain.Validate
import Oxydllm.Serve.Answered
import Oxydllm.Serve.ToolCalls

namespace Oxydllm.Serve.Chat

open Constrain (validateAgainstSchema)
open ToolCalls (Serde ToolConfig ToolCall trim stripJsonFences tryParseToolCalls)

variable {F : Type}

/-! ## What the engine sends -/

structure EngineLogprobEntry (F : Type) where
  tokenStr : String
  logprob : F
  bytes : List UInt8
  topLogprobs : List (String × F × List UInt8)

inductive EngineEvent (F : Type) where
  | token (text : String) (logprobEntries : List (EngineLogprobEntry F))
  | reasoningToken (text : String)
  | finish (finishReason : String) (completionTokens : Nat)
  | streamEnd
  | error (message : String)

/-- An event without its logprobs, as the loop of the engine is modelled. -/
def EngineEvent.plain : EngineEvent F → Serve.EngineEvent
  | .token text _ => .token text
  | .reasoningToken text => .reasoningToken text
  | .finish finishReason completionTokens => .finish finishReason completionTokens
  | .streamEnd => .streamEnd
  | .error message => .error message

/-! ## Errors -/

/-- The `error` object of a response. -/
structure ErrorBody where
  message : String
  errorType : String
  param : Option String
  code : Option String
deriving DecidableEq

abbrev ErrorResponse := Nat × ErrorBody

def errorResponse (status : Nat) (message errorType : String) : ErrorResponse :=
  (status, ⟨message, errorType, none, none⟩)

def timeoutMessage (t : Nat) : String := s!"request exceeded timeout of {t}s"

/-! ## Logprobs -/

structure TopLogprobItem (F : Type) where
  token : String
  logprob : F
  bytes : Option (List UInt8)

structure TokenLogprob (F : Type) where
  token : String
  logprob : F
  bytes : Option (List UInt8)
  topLogprobs : List (TopLogprobItem F)

structure Logprobs (F : Type) where
  content : List (TokenLogprob F)
  refusal : Option String

def tokenLogprob (reqTopN : Nat) (e : EngineLogprobEntry F) : TokenLogprob F :=
  ⟨e.tokenStr, e.logprob, some e.bytes,
    (e.topLogprobs.take reqTopN).map fun alt => ⟨alt.1, alt.2.1, some alt.2.2⟩⟩

def buildLogprobsContent (entries : List (EngineLogprobEntry F)) (reqTopN : Nat) : Logprobs F :=
  ⟨entries.map (tokenLogprob reqTopN), none⟩

/-! ## Collecting -/

structure CompletionData (F : Type) where
  content : String
  reasoningContent : String
  reasoningTokens : Nat
  finishReason : String
  completionTokens : Nat
  logprobEntries : List (EngineLogprobEntry F)

/-- Before the first event. -/
def CompletionData.start : CompletionData F := ⟨"", "", 0, "stop", 0, []⟩

/-- What an event adds. -/
def CompletionData.absorb (data : CompletionData F) : EngineEvent F → CompletionData F
  | .token text entries =>
      { data with content := data.content ++ text, logprobEntries := data.logprobEntries ++ entries }
  | .reasoningToken text =>
      { data with
        reasoningContent := data.reasoningContent ++ text
        reasoningTokens := data.reasoningTokens + 1 }
  | .finish finishReason completionTokens =>
      { data with finishReason := finishReason, completionTokens := completionTokens }
  | .streamEnd => data
  | .error _ => data

/-- The events of a channel until it is closed. -/
def collectOneCompletionInner (data : CompletionData F) :
    List (EngineEvent F) → Except ErrorResponse (CompletionData F)
  | [] => .ok data
  | .streamEnd :: _ => .ok data
  | .error msg :: _ => .error (errorResponse 500 msg "server_error")
  | event :: rest => collectOneCompletionInner (data.absorb event) rest

/-- `expired` says whether the time is up before the stream ends. -/
def collectOneCompletion (rx : List (EngineEvent F)) (timeout : Option Nat) (expired : Bool) :
    Except ErrorResponse (CompletionData F) :=
  match timeout, expired with
  | some t, true => .error (errorResponse 408 (timeoutMessage t) "request_timeout")
  | _, _ => collectOneCompletionInner .start rx

/-- How a collector's task ended. -/
inductive Joined (F : Type) where
  | panicked
  | collected (i : Nat) (result : Except ErrorResponse (CompletionData F))

/-- The tasks in the order in which they end. -/
def joinAll (results : List (Nat × CompletionData F)) :
    List (Joined F) → Except ErrorResponse (List (Nat × CompletionData F))
  | [] => .ok results
  | .panicked :: _ => .error (errorResponse 500 "Task panic" "server_error")
  | .collected _ (.error e) :: _ => .error e
  | .collected i (.ok data) :: rest => joinAll (results ++ [(i, data)]) rest

def collectAllCompletions (joined : List (Joined F)) : Except ErrorResponse (List (CompletionData F)) :=
  (joinAll [] joined).map fun results => (results.mergeSort fun a b => a.1 ≤ b.1).map (·.2)

/-! ## The request -/

structure JsonSchemaSpec where
  schema : Option Json
  strict : Option Bool

/-- What of a request shapes its answer. -/
structure Request where
  n : Nat
  promptLen : Nat
  includeUsage : Bool
  wantsLogprobs : Bool
  reqTopN : Nat
  toolConfig : ToolConfig
  jsonMode : Bool
  jsonSchema : Option JsonSchemaSpec
  timeout : Option Nat

def Request.hasTools (req : Request) : Bool := !req.toolConfig.tools.isEmpty

structure Envelope where
  id : String
  created : Nat
  model : String
  systemFingerprint : Option String

/-- The code an answer's shape rests on. -/
structure Outside where
  serde : Serde
  fromStr : List Char → Option Json
  numEq : JsonText.Number → JsonText.Number → Bool
  makeToolCallId : Nat → List Char

/-! ## The response -/

/-- A call with its id. -/
structure Call where
  id : List Char
  callType : List Char
  name : List Char
  arguments : List Char
deriving DecidableEq

/-- The calls with ids made for those that have none. -/
def withIds (makeToolCallId : Nat → List Char) (calls : List ToolCall) : List Call :=
  calls.zipIdx.map fun p => ⟨p.1.id.getD (makeToolCallId p.2), p.1.callType, p.1.name, p.1.arguments⟩

/-- The calls an answer's text holds. -/
def callsOf (out : Outside) (req : Request) (content : String) : Option (List Call) :=
  (tryParseToolCalls out.serde (stripJsonFences (trim content.toList)) req.toolConfig).map
    (withIds out.makeToolCallId)

structure ResponseMessage where
  role : String
  content : Option String
  reasoningContent : Option String
  toolCalls : Option (List Call)
deriving DecidableEq

structure Choice (F : Type) where
  index : Nat
  message : ResponseMessage
  finishReason : String
  logprobs : Option (Logprobs F)

structure CompletionTokensDetails where
  reasoningTokens : Nat
deriving DecidableEq

structure Usage where
  promptTokens : Nat
  completionTokens : Nat
  totalTokens : Nat
  completionTokensDetails : Option CompletionTokensDetails
deriving DecidableEq

structure ChatCompletionResponse (F : Type) where
  envelope : Envelope
  object : String
  choices : List (Choice F)
  usage : Usage

def schemaFail (out : Outside) (req : Request) (raw : List Char) : Bool :=
  match req.jsonSchema.bind (·.schema) with
  | none => false
  | some spec =>
      match out.fromStr raw with
      | some val => !validateAgainstSchema out.numEq val spec
      | none => true

/-- The message and the finish reason of a choice. -/
def responseMessage (out : Outside) (req : Request) (content reasoning finishReason : String) :
    ResponseMessage × String :=
  let reasoningOpt := if reasoning.isEmpty then none else some reasoning
  if req.hasTools then
    match callsOf out req content with
    | some toolCalls => (⟨"assistant", none, reasoningOpt, some toolCalls⟩, "tool_calls")
    | none => (⟨"assistant", some content, reasoningOpt, none⟩, finishReason)
  else if req.jsonMode then
    let raw := stripJsonFences (trim content.toList)
    let answer :=
      if schemaFail out req raw then
        if (req.jsonSchema.bind (·.strict)).getD false then (none, "content_filter")
        else (some (String.ofList raw), finishReason)
      else (some (String.ofList raw), finishReason)
    (⟨"assistant", answer.1, reasoningOpt, none⟩, answer.2)
  else (⟨"assistant", some content, reasoningOpt, none⟩, finishReason)

def choiceOf (out : Outside) (req : Request) (i : Nat) (data : CompletionData F) : Choice F :=
  let message := responseMessage out req data.content data.reasoningContent data.finishReason
  ⟨i, message.1, message.2,
    if req.wantsLogprobs then some (buildLogprobsContent data.logprobEntries req.reqTopN) else none⟩

def usageOf (req : Request) (completionTokens reasoningTokens : Nat) : Usage :=
  ⟨req.promptLen, completionTokens, req.promptLen + completionTokens,
    if reasoningTokens > 0 then some ⟨reasoningTokens⟩ else none⟩

def responseOf (out : Outside) (env : Envelope) (req : Request) (completions : List (CompletionData F)) :
    ChatCompletionResponse F :=
  ⟨env, "chat.completion", completions.zipIdx.map fun p => choiceOf out req p.2 p.1,
    usageOf req (completions.map (·.completionTokens)).sum (completions.map (·.reasoningTokens)).sum⟩

/-- The answer that is not streamed. -/
def chatResponse (out : Outside) (env : Envelope) (req : Request) (joined : List (Joined F)) :
    Except ErrorResponse (ChatCompletionResponse F) :=
  (collectAllCompletions joined).map (responseOf out env req)

/-! ## Streams that end -/

/-- The events a request gets when it is answered: texts, an end with a reason, the end of the stream. -/
structure Finished (es : List (EngineEvent F)) (texts : List (EngineEvent F)) (finishReason : String)
    (completionTokens : Nat) : Prop where
  plain : Texts (texts.map EngineEvent.plain)
  eq : es = texts ++ [.finish finishReason completionTokens, .streamEnd]

/-- The events of a request that failed. -/
structure Failed (es : List (EngineEvent F)) (texts : List (EngineEvent F)) (message : String) : Prop where
  plain : Texts (texts.map EngineEvent.plain)
  eq : es = texts ++ [.error message, .streamEnd]

end Oxydllm.Serve.Chat
