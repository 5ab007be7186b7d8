/-
# Oxydllm.Serve.Formatters — the prompts made of messages without a template.

A tokenizer that brings no template has its messages put between the tokens it knows: turns, instructions, or plain
names. A message is what the formatters read of one; its role is a text, of which `Kind` is the one it is matched as.
-/
import Oxydllm.Serve.ToolCalls

namespace Oxydllm.Serve.Formatters

open ToolCalls (trim)

abbrev Text := List Char

/-! ## Messages -/

/-- A call of a tool, with the fields of its function. -/
structure ToolCall where
  id : Text
  callType : Text
  name : Text
  arguments : Text
  deriving DecidableEq

structure ChatMessage where
  role : Text
  content : Option Text
  toolCalls : Option (List ToolCall)
  toolCallId : Option Text
  deriving DecidableEq

/-- What a role is matched as. -/
inductive Kind where
  | system
  | developer
  | assistant
  | tool
  | other
  deriving DecidableEq

def kindOf (role : Text) : Kind :=
  if role = "system".toList then .system
  else if role = "developer".toList then .developer
  else if role = "assistant".toList then .assistant
  else if role = "tool".toList then .tool
  else .other

namespace ChatMessage

variable (m : ChatMessage)

def kind : Kind := kindOf m.role

def text : Text := m.content.getD []

def callId : Text := m.toolCallId.getD []

end ChatMessage

/-! ## JSON -/

def hexDigit (n : Nat) : Char := if n < 10 then Char.ofNat (48 + n) else Char.ofNat (87 + n)

/-- A character inside a JSON string, as `serde_json` writes it. -/
def escapeChar (c : Char) : Text :=
  if c = '"' then ['\\', '"']
  else if c = '\\' then ['\\', '\\']
  else if c.toNat = 8 then ['\\', 'b']
  else if c.toNat = 9 then ['\\', 't']
  else if c.toNat = 10 then ['\\', 'n']
  else if c.toNat = 12 then ['\\', 'f']
  else if c.toNat = 13 then ['\\', 'r']
  else if c.toNat < 32 then ['\\', 'u', '0', '0', hexDigit (c.toNat / 16), hexDigit (c.toNat % 16)]
  else [c]

def jsonString (s : Text) : Text := '"' :: (s.flatMap escapeChar ++ ['"'])

def ToolCall.toJson (c : ToolCall) : Text :=
  "\x7b\"id\":".toList ++ jsonString c.id ++ ",\"type\":".toList ++ jsonString c.callType ++
    ",\"function\":\x7b\"name\":".toList ++ jsonString c.name ++ ",\"arguments\":".toList ++ jsonString c.arguments ++
      "\x7d\x7d".toList

/-- `serde_json::to_string` of the calls of a message. -/
def toJson (calls : List ToolCall) : Text := '[' :: ([','].intercalate (calls.map ToolCall.toJson) ++ [']'])

/-! ## Plain names -/

def plainTurn (m : ChatMessage) : Text :=
  match m.kind with
  | .system => "System: ".toList ++ m.text ++ ['\n']
  | .assistant =>
      match m.toolCalls with
      | some calls => "Assistant (tool call): ".toList ++ toJson calls ++ ['\n']
      | none => "Assistant: ".toList ++ m.text ++ ['\n']
  | .tool => "Tool result [".toList ++ m.callId ++ "]: ".toList ++ m.text ++ ['\n']
  | _ => "User: ".toList ++ m.text ++ ['\n']

def formatPlainChat (messages : List ChatMessage) : Text := messages.flatMap plainTurn ++ "Assistant: ".toList

/-! ## Turns -/

/-- What `format_turn_chat` is given beside the messages. -/
structure TurnOptions where
  bosToken : Option Text
  startTurnToken : Text
  endTurnToken : Text
  addGenerationPrompt : Bool
  enableThinking : Bool

def turnRole (m : ChatMessage) : Text :=
  match m.kind with
  | .assistant => "model".toList
  | .tool => "tool".toList
  | _ => m.role

def turnBody (m : ChatMessage) : Text :=
  match m.kind with
  | .assistant =>
      match m.toolCalls with
      | some calls => toJson calls
      | none => trim m.text
  | .tool => ['['] ++ m.callId ++ "]: ".toList ++ m.text
  | _ => trim m.text

def turn (o : TurnOptions) (m : ChatMessage) : Text :=
  o.startTurnToken ++ turnRole m ++ ['\n'] ++ turnBody m ++ o.endTurnToken ++ ['\n']

/-- A system turn, or one of the developer. -/
def opensSystem (m : ChatMessage) : Bool := m.kind = .system || m.kind = .developer

/-- The turn in front of the others. -/
def systemTurn (o : TurnOptions) (first : Option ChatMessage) : Text :=
  if o.enableThinking || first.isSome then
    o.startTurnToken ++ "system\n".toList ++ (if o.enableThinking then "<|think|>".toList else []) ++
      (first.map fun m => trim m.text).getD [] ++ o.endTurnToken ++ ['\n']
  else []

def formatTurnChat (messages : List ChatMessage) (o : TurnOptions) : Text :=
  let first := messages.head?.filter opensSystem
  let startIdx := if first.isSome then 1 else 0
  o.bosToken.getD [] ++ systemTurn o first ++ (messages.drop startIdx).flatMap (turn o) ++
    if o.addGenerationPrompt then o.startTurnToken ++ "model\n".toList else []

/-! ## Instructions -/

section Instructions

variable (eosToken : Option Text) (hasSystemPromptToken : Bool)

/-- What an answer or a result of a tool adds. -/
def aside (m : ChatMessage) : Text :=
  match m.kind with
  | .assistant =>
      (match m.toolCalls with
        | some calls => "[TOOL_CALLS] ".toList ++ toJson calls
        | none => ' ' :: trim m.text) ++ eosToken.getD []
  | _ => "[TOOL_RESULTS] ".toList ++ trim m.text ++ "[/TOOL_RESULTS]".toList

/-- The messages from one on; `pendingSystem` is the system prompt that waits for an instruction. -/
def instFrom (pendingSystem : Option Text) : List ChatMessage → Text
  | [] => []
  | m :: messages =>
      let content := trim m.text
      match m.kind with
      | .system | .developer =>
          if hasSystemPromptToken then
            "[SYSTEM_PROMPT] ".toList ++ content ++ "[/SYSTEM_PROMPT]".toList ++ instFrom pendingSystem messages
          else instFrom (some content) messages
      | .assistant | .tool => aside eosToken m ++ instFrom pendingSystem messages
      | .other =>
          "[INST] ".toList ++ (pendingSystem.map (· ++ ['\n', '\n'])).getD [] ++ content ++ "[/INST]".toList ++
            instFrom none messages

def formatMistralInstChat (bosToken : Option Text) (messages : List ChatMessage) : Text :=
  bosToken.getD [] ++ instFrom eosToken hasSystemPromptToken none messages

end Instructions

end Oxydllm.Serve.Formatters
