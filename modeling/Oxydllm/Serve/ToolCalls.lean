/-
# Oxydllm.Serve.ToolCalls — the tool calls of an answer (`try_parse_tool_calls`).

`<tool_call>` blocks are looked for first, then Mistral's and Gemma's calls, then bare JSON. A block ends
at the first closing tag behind its opening one, wherever that stands, and is XML when `<function=` stands
in it.

`serde_json` is a parameter. An index into a text counts its characters. The loops take as fuel the length
of the text that each of their rounds shortens.
-/
import Oxydllm.Serve.Harmony

namespace Oxydllm.Serve.ToolCalls

open Occurrence
open Harmony (isWhitespace)

/-! ## Values -/

/-- `serde_json::Value`; a number is kept as it is written. -/
inductive Value where
  | null
  | bool (b : Bool)
  | number (text : List Char)
  | string (s : List Char)
  | array (xs : List Value)
  | object (members : List (List Char × Value))

def Value.get (v : Value) (key : List Char) : Option Value :=
  match v with
  | .object members => members.lookup key
  | _ => none

def Value.asStr : Value → Option (List Char)
  | .string s => some s
  | _ => none

def Value.asArray : Value → Option (List Value)
  | .array xs => some xs
  | _ => none

def Value.asObject : Value → Option (List (List Char × Value))
  | .object members => some members
  | _ => none

/-- `Map::insert`, in the place the key has or at the end. -/
def insertMember (members : List (List Char × Value)) (key : List Char) (value : Value) :
    List (List Char × Value) :=
  if members.any (·.1 == key) then members.map fun p => if p.1 = key then (key, value) else p
  else members ++ [(key, value)]

/-- What is used of `serde_json`: `from_str`, `to_string`, and the first value of a `StreamDeserializer`
with the offset behind it. -/
structure Serde where
  fromStr : List Char → Option Value
  toString : Value → List Char
  firstValue : List Char → Option (Value × Nat)

/-! ## Texts -/

def trimStart (s : List Char) : List Char := s.dropWhile isWhitespace

def trim (s : List Char) : List Char := (trimStart s).rdropWhile isWhitespace

def stripPrefix (pat s : List Char) : Option (List Char) :=
  if pat.isPrefixOf s then some (s.drop pat.length) else none

def stripSuffix (pat s : List Char) : Option (List Char) :=
  if pat.isSuffixOf s then some (s.take (s.length - pat.length)) else none

/-- `s.replace(pat, new)`. -/
def replace (pat new : List Char) : Nat → List Char → List Char
  | 0, s => s
  | fuel + 1, s =>
      match find pat s with
      | some i => s.take i ++ new ++ replace pat new fuel (s.drop (i + pat.length))
      | none => s

def stripJsonFences (s : List Char) : List Char :=
  let s := trim s
  let inner := ((((stripPrefix "```json".toList s).or (stripPrefix "```JSON".toList s)).or
    (stripPrefix "```".toList s)).bind fun t => stripSuffix "```".toList (t.dropWhile (· == '\n'))).map
      fun t => trim (t.rdropWhile (· == '\n'))
  inner.getD s

/-! ## Calls -/

structure ToolDefinition where
  name : List Char
  parameters : Option Value

inductive ToolChoiceMode where
  | none | auto | required
  | forcedFunction (name : List Char)

structure ToolConfig where
  tools : List ToolDefinition
  choiceMode : ToolChoiceMode
  parallelToolCalls : Bool

/-- A call; without an `id` one is generated for it. -/
structure ToolCall where
  id : Option (List Char)
  callType : List Char
  name : List Char
  arguments : List Char
  deriving DecidableEq

def functionCall (name arguments : List Char) : ToolCall := ⟨none, "function".toList, name, arguments⟩

def toolExists (tools : List ToolDefinition) (name : List Char) : Bool := tools.any (·.name == name)

/-- `is_valid_function_name`. -/
def isValidFunctionName (name : List Char) : Bool :=
  !name.isEmpty && byteLen name ≤ 64 && name.all fun ch => ch.isAlphanum || ch == '_' || ch == '-'

variable (serde : Serde)

def parseToolCallEntry (call : Value) : Option ToolCall := do
  let members ← call.asObject
  let function := members.lookup "function".toList
  let name ← (function.bind fun f => ((f.get "name".toList).bind Value.asStr).or f.asStr).or
    ((members.lookup "name".toList).bind Value.asStr)
  let args ← ((function.bind fun f => (f.get "arguments".toList).or (f.get "parameters".toList)).or
    (members.lookup "arguments".toList)).or (members.lookup "parameters".toList)
  let arguments := match args with
    | .string s => s
    | other => serde.toString other
  pure ⟨(members.lookup "id".toList).bind Value.asStr,
    ((members.lookup "type".toList).bind Value.asStr).getD "function".toList, name, arguments⟩

def parseJsonBlock (block : List Char) : Option Value :=
  let text := stripJsonFences (trim block)
  (serde.fromStr text).or <| (stripPrefix ['\x7b'] text).bind fun inner =>
    let inner := trimStart inner
    if inner.head? = some '\x7b' then (serde.firstValue inner).map (·.1) else none

/-! ## Blocks -/

/-- The parameters of an XML payload. -/
def xmlArguments : Nat → List Char → List (List Char × Value) → List (List Char × Value)
  | 0, _, args => args
  | fuel + 1, rest, args =>
      match find "<parameter=".toList rest with
      | none => args
      | some start =>
          let pr := rest.drop (start + "<parameter=".toList.length)
          match find ">".toList pr with
          | none => args
          | some close =>
              let vrest := pr.drop (close + 1)
              match find "</parameter>".toList vrest with
              | none => args
              | some vend =>
                  -- one newline on each side is framing
                  let raw := (stripPrefix ['\n'] (vrest.take vend)).getD (vrest.take vend)
                  let raw := (stripSuffix ['\n'] raw).getD raw
                  let value := (serde.fromStr (trim raw)).getD (.string raw)
                  xmlArguments fuel (vrest.drop (vend + "</parameter>".toList.length))
                    (insertMember args (trim (pr.take close)) value)

/-- The call of an XML payload, from behind `<function=`. -/
def parseXmlCall (rest : List Char) : Option ToolCall :=
  (find ">".toList rest).map fun close =>
    let body := rest.drop (close + 1)
    let body := body.take ((find "</function>".toList body).getD body.length)
    functionCall (trim (rest.take close))
      (serde.toString (.object (xmlArguments serde (body.length + 1) body [])))

/-- The calls of one block. -/
def parseBlock (block : List Char) : List ToolCall :=
  match find "<function=".toList block with
  | some start => (parseXmlCall serde (block.drop (start + "<function=".toList.length))).toList
  | none =>
      match parseJsonBlock serde block with
      | none => []
      | some value =>
          match (value.get "tool_calls".toList).bind Value.asArray with
          | some nested => nested.filterMap (parseToolCallEntry serde)
          | none => (parseToolCallEntry serde value).toList

/-- A block left open runs to the end of the text. -/
def tagBlocks : Nat → List Char → List ToolCall
  | 0, _ => []
  | fuel + 1, rest =>
      match find "<tool_call>".toList rest with
      | none => []
      | some start =>
          let after := rest.drop (start + "<tool_call>".toList.length)
          match find "</tool_call>".toList after with
          | some close =>
              parseBlock serde (after.take close) ++
                tagBlocks fuel (after.drop (close + "</tool_call>".toList.length))
          | none => parseBlock serde after

def someCalls (calls : List ToolCall) : Option (List ToolCall) := if calls.isEmpty then none else some calls

def parseToolCallTagBlocks (raw : List Char) : Option (List ToolCall) :=
  someCalls (tagBlocks serde (raw.length + 1) raw)

/-! ## The calls of other models -/

/-- `parse_name_brace_calls`. -/
def nameBraceCalls (tools : List ToolDefinition) : Nat → List Char → Option (List ToolCall)
  | 0, _ => none
  | fuel + 1, rest =>
      if rest.isEmpty then some []
      else do
        let tool ← tools.find? fun t =>
          (stripPrefix t.name rest).any fun after => (trimStart after).head? == some '\x7b'
        let after := trimStart (rest.drop tool.name.length)
        let (args, offset) ← serde.firstValue after
        let _ ← args.asObject
        let calls ← nameBraceCalls tools fuel (trimStart (after.drop offset))
        pure (functionCall tool.name (serde.toString args) :: calls)

def parseNameBraceCalls (raw : List Char) (tools : List ToolDefinition) : Option (List ToolCall) :=
  (nameBraceCalls serde tools (raw.length + 1) (trim raw)).bind someCalls

/-- The index of the brace that closes the first. -/
def matchingBrace : List Char → (i depth : Nat) → (quoted escaped : Bool) → Option Nat
  | [], _, _, _, _ => none
  | c :: rest, i, depth, quoted, escaped =>
      if escaped then matchingBrace rest (i + 1) depth quoted false
      else if c = '\x5c' ∧ quoted then matchingBrace rest (i + 1) depth quoted true
      else if c = '\x22' then matchingBrace rest (i + 1) depth (!quoted) false
      else if (c = '\x7b' ∨ c = '\x5b') ∧ !quoted then matchingBrace rest (i + 1) (depth + 1) quoted false
      else if (c = '\x7d' ∨ c = '\x5d') ∧ !quoted then
        if depth - 1 = 0 then some i else matchingBrace rest (i + 1) (depth - 1) quoted false
      else matchingBrace rest (i + 1) depth quoted false

/-- The end of a quoted string, from behind its quote. -/
def quoteEnd : List Char → (i : Nat) → (escaped : Bool) → Option Nat
  | [], _, _ => none
  | c :: rest, i, escaped =>
      if escaped then quoteEnd rest (i + 1) false
      else if c = '\x5c' then quoteEnd rest (i + 1) true
      else if c = '\x22' then some (i + 1)
      else quoteEnd rest (i + 1) false

/-- The first comma from `start` on that a parameter's name and a colon follow. -/
def argumentComma (text : List Char) (names : List (List Char)) : Nat → Nat → Option Nat
  | 0, _ => none
  | fuel + 1, start =>
      (find ",".toList (text.drop start)).bind fun i =>
        let comma := start + i
        let next := trimStart (text.drop (comma + 1))
        if names.any fun n => (stripPrefix n next).any fun after => (trimStart after).head? == some ':' then
          some comma
        else argumentComma text names fuel (comma + 1)

def gemmaValueEnd (text : List Char) (names : List (List Char)) : Nat :=
  match text.head? with
  | some '\x22' => (quoteEnd (text.drop 1) 1 false).getD text.length
  | some '\x7b' | some '\x5b' => ((matchingBrace text 0 0 false false).map (· + 1)).getD text.length
  | _ => (argumentComma text names (text.length + 1) 0).getD text.length

def gemmaMembers (names : List (List Char)) :
    Nat → List Char → List (List Char × Value) → List (List Char × Value)
  | 0, _, args => args
  | fuel + 1, rest, args =>
      match find ":".toList rest with
      | none => args
      | some colon =>
          let key := ((trim (rest.take colon)).dropWhile (· == '\x22')).rdropWhile (· == '\x22')
          let valueText := trimStart (rest.drop (colon + 1))
          let valueEnd := gemmaValueEnd valueText names
          let value := trim (valueText.take valueEnd)
          gemmaMembers names fuel ((trimStart (valueText.drop valueEnd)).dropWhile (· == ','))
            (insertMember args key ((serde.fromStr value).getD (.string value)))

/-- `gemma_arguments`. -/
def gemmaArguments (text : List Char) (names : List (List Char)) : Value :=
  .object (gemmaMembers serde names (text.length + 1) (trim text) [])

def gemmaCalls (tools : List ToolDefinition) : Nat → List Char → List ToolCall
  | 0, _ => []
  | fuel + 1, rest =>
      match find "call:".toList rest with
      | none => []
      | some start =>
          let after := rest.drop (start + "call:".toList.length)
          match find ['\x7b'] after with
          | none => []
          | some opening =>
              match matchingBrace (after.drop opening) 0 0 false false with
              | none => []
              | some i =>
                  let close := opening + i
                  let calls := match tools.find? fun t => t.name == trim (after.take opening) with
                    | some tool =>
                        let names := ((tool.parameters.bind fun p => p.get "properties".toList).bind
                          Value.asObject).getD [] |>.map (·.1)
                        [functionCall (trim (after.take opening)) (serde.toString
                          (gemmaArguments serde ((after.take close).drop (opening + 1)) names))]
                    | none => []
                  calls ++ gemmaCalls tools fuel (after.drop (close + 1))

def parseGemmaCalls (raw : List Char) (tools : List ToolDefinition) : Option (List ToolCall) :=
  let text := replace "<|\"|>".toList ['\x22'] (raw.length + 1) raw
  let text := replace "<|tool_call>".toList [] (raw.length + 1) text
  let text := replace "<tool_call|>".toList [] (raw.length + 1) text
  someCalls (gemmaCalls serde tools (text.length + 1) text)

/-! ## An answer -/

/-- The calls that `parallel_tool_calls` and a forced function leave. -/
def limitCalls (config : ToolConfig) (calls : List ToolCall) : List ToolCall :=
  let calls := if !config.parallelToolCalls && 1 < calls.length then calls.take 1 else calls
  match config.choiceMode with
  | .forcedFunction name => (calls.filter (·.name == name)).take 1
  | _ => calls

/-- The calls of an answer that is bare JSON. -/
def bareCalls (raw : List Char) (config : ToolConfig) : Option (List ToolCall) := do
  let stripped := stripJsonFences (trim raw)
  let value ← serde.fromStr stripped
  let calls ← match ((value.get "tool_calls".toList).bind Value.asArray).or value.asArray with
    | some calls => calls.mapM (parseToolCallEntry serde)
    | none =>
        match parseToolCallEntry serde value, config.choiceMode, config.tools with
        | some single, _, _ => some [single]
        | none, .forcedFunction name, _ => some [functionCall name stripped]
        | none, .required, [tool] => some [functionCall tool.name stripped]
        | none, _, _ => none
  someCalls (limitCalls config (calls.filter fun call =>
    call.callType == "function".toList && toolExists config.tools call.name))

def tryParseToolCalls (raw : List Char) (config : ToolConfig) : Option (List ToolCall) :=
  let tagged := ((parseToolCallTagBlocks serde raw).or (parseNameBraceCalls serde raw config.tools)).or
    (parseGemmaCalls serde raw config.tools)
  let calls := tagged.bind fun calls =>
    someCalls (limitCalls config (calls.filter fun call => toolExists config.tools call.name))
  calls.or (bareCalls serde raw config)

/-! ## Reading blocks back -/

/-- A call as it is written: what stands in front of its block, its name, its arguments and their text. -/
structure Written where
  front : List Char
  name : List Char
  args : List (List Char × Value)
  text : List Char

namespace Written

variable (c : Written)

/-- The JSON of a block. -/
def entry : List Char :=
  "\x7b\"name\": \"".toList ++ c.name ++ "\", \"arguments\": ".toList ++ c.text ++ ['\x7d']

/-- What stands between the tags. -/
def inner : List Char := '\n' :: (c.entry ++ ['\n'])

/-- A block, as the harmony writer and the chat templates write it. -/
def block : List Char :=
  (Harmony.Sent.opener c.name).render ++ c.text ++ (Harmony.Sent.closer []).render

def value : Value := .object [("name".toList, .string c.name), ("arguments".toList, .object c.args)]

/-- The text of several calls. -/
def texts (calls : List Written) : List Char := calls.flatMap fun c => c.front ++ c.block

/-- Arguments in which neither `</tool_call>` nor `<function=` occurs. -/
def Plain : Prop := Free ["</tool_call>".toList, "<function=".toList] c.text

/-- A call of a tool, with JSON that is read and written as it should be, behind a text without an
opening tag. -/
structure Readable (tools : List ToolDefinition) : Prop where
  front : Free ["<tool_call>".toList] c.front
  valid : isValidFunctionName c.name = true
  declared : toolExists tools c.name = true
  reads : serde.fromStr c.entry = some c.value
  writes : serde.fromStr (serde.toString (.object c.args)) = some (.object c.args)

theorem block_eq : c.block = "<tool_call>".toList ++ (c.inner ++ "</tool_call>".toList) := by
  unfold block inner entry Harmony.Sent.render
  have hopen : "<tool_call>\n\x7b\"name\": \"".toList =
      "<tool_call>".toList ++ '\n' :: "\x7b\"name\": \"".toList := by decide
  have hclose : "\x7d\n</tool_call>".toList = ['\x7d'] ++ (['\n'] ++ "</tool_call>".toList) := by decide
  rw [hopen, hclose]
  simp only [List.append_assoc, List.cons_append, List.nil_append]

theorem entry_head : c.entry = '\x7b' :: c.entry.tail := by
  unfold entry
  rfl

theorem entry_last : ∃ v, c.entry = v ++ ['\x7d'] := ⟨_, rfl⟩

/-- Spaces are taken from the ends of a text that begins and ends with something else. -/
theorem trim_framed {t : List Char} {x y : Char} {u v : List Char} (hhead : t = x :: u) (hlast : t = v ++ [y])
    (hx : isWhitespace x = false) (hy : isWhitespace y = false) :
    trim t = t ∧ trim ('\n' :: (t ++ ['\n'])) = t := by
  have hstart : trimStart t = t := by
    unfold trimStart
    rw [hhead, List.dropWhile_cons, hx]
    rfl
  have hend : t.rdropWhile isWhitespace = t := by
    rw [hlast, List.rdropWhile_concat_neg _ _ _ (by rw [hy]; exact Bool.false_ne_true)]
  have hframe : trimStart ('\n' :: (t ++ ['\n'])) = t ++ ['\n'] := by
    unfold trimStart
    rw [List.dropWhile_cons, if_pos (by decide), hhead, List.cons_append, List.dropWhile_cons, hx]
    rfl
  constructor
  · unfold trim
    rw [hstart, hend]
  · unfold trim
    rw [hframe, List.rdropWhile_concat_pos _ _ _ (by decide), hend]

theorem trim_entry : trim c.entry = c.entry ∧ trim c.inner = c.entry := by
  obtain ⟨v, hv⟩ := c.entry_last
  exact trim_framed c.entry_head hv (by decide) (by decide)

theorem stripJsonFences_entry : stripJsonFences c.entry = c.entry := by
  unfold stripJsonFences
  rw [c.trim_entry.1, c.entry_head]
  rfl

/-- What occurs in none of the arguments and begins with `<` occurs nowhere in the block. -/
theorem inner_free {p : List Char} (hname : isValidFunctionName c.name = true) (hp : p = '<' :: p.tail)
    (hbrace : '\x7d' ∉ p) (hline : '\n' ∉ p) (h : ∀ i, ¬ OccursAt p c.text i) (i : Nat) :
    ¬ OccursAt p c.inner i := by
  have hinner : c.inner = ('\n' :: ("\x7b\"name\": \"".toList ++ c.name ++
      "\", \"arguments\": ".toList)) ++ (c.text ++ ['\x7d', '\n']) := by
    unfold inner entry
    simp only [List.append_assoc, List.cons_append, List.nil_append]
  rw [hinner]
  refine not_occursAt_between hp ?_ (List.forall_mem_cons.2 ⟨hbrace, List.forall_mem_singleton.2 hline⟩) h i
  have hvalid : '<' ∉ c.name := by
    intro hmem
    unfold isValidFunctionName at hname
    rw [Bool.and_eq_true, List.all_eq_true] at hname
    exact absurd (hname.2 '<' hmem) (by decide)
  intro hmem
  simp only [List.mem_cons, List.mem_append] at hmem
  rcases hmem with hc | (hc | hc) | hc
  · exact absurd hc (by decide)
  · exact absurd hc (by decide)
  · exact hvalid hc
  · exact absurd hc (by decide)

/-- The call that a block is read as. -/
def call : ToolCall := functionCall c.name (serde.toString (.object c.args))

theorem parseBlock_inner {tools : List ToolDefinition} (h : c.Readable serde tools) (hplain : c.Plain) :
    parseBlock serde c.inner = [c.call serde] := by
  have hxml : find "<function=".toList c.inner = none :=
    find_eq_none (c.inner_free h.valid (by decide) (by decide) (by decide)
      (hplain _ (List.mem_cons_of_mem _ List.mem_cons_self)))
  have hjson : parseJsonBlock serde c.inner = some c.value := by
    unfold parseJsonBlock
    rw [c.trim_entry.2, c.stripJsonFences_entry]
    show (serde.fromStr c.entry).or _ = _
    rw [h.reads]
    rfl
  unfold parseBlock
  rw [hxml, hjson]
  rfl

/-- Each block is found where it begins and closed where it ends. -/
theorem tagBlocks_texts {tools : List ToolDefinition} {calls : List Written}
    (h : ∀ c ∈ calls, c.Readable serde tools ∧ c.Plain) {fuel : Nat} (hfuel : calls.length < fuel) :
    tagBlocks serde fuel (texts calls) = calls.map (·.call serde) := by
  induction calls generalizing fuel with
  | nil =>
      obtain ⟨fuel, rfl⟩ := Nat.exists_eq_succ_of_ne_zero (Nat.ne_zero_of_lt hfuel)
      rfl
  | cons c calls ih =>
      obtain ⟨fuel, rfl⟩ := Nat.exists_eq_succ_of_ne_zero (Nat.ne_zero_of_lt hfuel)
      obtain ⟨hread, hplain⟩ := h c List.mem_cons_self
      have htext : texts (c :: calls) =
          c.front ++ ("<tool_call>".toList ++ (c.inner ++ ("</tool_call>".toList ++ texts calls))) := by
        unfold texts
        rw [List.flatMap_cons, block_eq]
        simp only [List.append_assoc]
      have hopen : find "<tool_call>".toList (texts (c :: calls)) = some c.front.length := by
        rw [htext]
        exact @find_behind _ _ '<' _ _ _ (by decide) (by decide) (hread.front _ List.mem_cons_self)
      have hclose : find "</tool_call>".toList (c.inner ++ ("</tool_call>".toList ++ texts calls)) =
          some c.inner.length :=
        @find_behind _ _ '<' _ _ _ (by decide) (by decide)
          (c.inner_free hread.valid (by decide) (by decide) (by decide) (hplain _ List.mem_cons_self))
      have hafter : (texts (c :: calls)).drop (c.front.length + "<tool_call>".toList.length) =
          c.inner ++ ("</tool_call>".toList ++ texts calls) := by
        rw [htext, ← List.drop_drop, List.drop_left, List.drop_left]
      have hnext : (c.inner ++ ("</tool_call>".toList ++ texts calls)).drop
          (c.inner.length + "</tool_call>".toList.length) = texts calls := by
        rw [← List.drop_drop, List.drop_left, List.drop_left]
      unfold tagBlocks
      rw [hopen]
      simp only
      rw [hafter, hclose]
      simp only
      rw [List.take_left, hnext, c.parseBlock_inner serde hread hplain,
        ih (fun d hd => h d (List.mem_cons_of_mem c hd)) (Nat.lt_of_succ_lt_succ hfuel)]
      rfl

theorem length_texts (calls : List Written) : calls.length ≤ (texts calls).length := by
  induction calls with
  | nil => exact le_rfl
  | cons c calls ih =>
      unfold texts at ih ⊢
      rw [List.flatMap_cons, List.length_append, List.length_append, block_eq, List.length_append,
        List.length_cons]
      have : 0 < "<tool_call>".toList.length := by decide
      omega

/-- Calls in whose arguments neither marker occurs are read back, with their names in order and arguments
that are the same objects. -/
theorem calls_round_trip {config : ToolConfig} (hauto : config.choiceMode = .auto)
    (hparallel : config.parallelToolCalls = true) {calls : List Written} (hne : calls ≠ [])
    (hread : ∀ c ∈ calls, c.Readable serde config.tools) (hplain : ∀ c ∈ calls, c.Plain) :
    ∃ result, tryParseToolCalls serde (texts calls) config = some result ∧
      result.map (·.name) = calls.map (·.name) ∧
      result.map (fun r => serde.fromStr r.arguments) = calls.map fun c => some (.object c.args) := by
  have htags := tagBlocks_texts serde (fun c hc => ⟨hread c hc, hplain c hc⟩)
    (Nat.lt_succ_of_le (length_texts calls))
  have hsome : ∀ {calls : List ToolCall}, calls ≠ [] → someCalls calls = some calls := by
    intro calls hne
    unfold someCalls
    rw [List.isEmpty_eq_false_iff.2 hne]
    rfl
  have hmap : calls.map (·.call serde) ≠ [] := fun hc => hne (List.map_eq_nil_iff.1 hc)
  have hkeep : (calls.map (·.call serde)).filter (fun call => toolExists config.tools call.name) =
      calls.map (·.call serde) := by
    refine List.filter_eq_self.2 fun call hcall => ?_
    obtain ⟨c, hc, rfl⟩ := List.mem_map.1 hcall
    exact (hread c hc).declared
  have hlimit : limitCalls config (calls.map (·.call serde)) = calls.map (·.call serde) := by
    unfold limitCalls
    rw [hauto, hparallel]
    rfl
  refine ⟨calls.map (·.call serde), ?_, ?_, ?_⟩
  · unfold tryParseToolCalls parseToolCallTagBlocks
    rw [htags, hsome hmap]
    simp only [Option.some_or, Option.bind_some]
    rw [hkeep, hlimit, hsome hmap]
    rfl
  · rw [List.map_map]
    rfl
  · rw [List.map_map]
    exact List.map_congr_left fun c hc => (hread c hc).writes

/-- `serde_json` on one call: its entry and the compact text of its arguments. -/
def serdeOf (c : Written) (compact : List Char) : Serde where
  fromStr text :=
    if text = c.entry then some c.value else if text = compact then some (.object c.args) else none
  toString _ := compact
  firstValue _ := none

/-- The tool `f`. -/
def oneTool : ToolConfig := ⟨[⟨"f".toList, none⟩], .auto, true⟩

/-- A call of `f` whose argument `x` is `s`. -/
def callOf (s : List Char) : Written where
  front := "Let me see.\n".toList
  name := "f".toList
  args := [("x".toList, .string s)]
  text := "\x7b\"x\": \"".toList ++ s ++ "\"\x7d".toList

def compactOf (s : List Char) : List Char := "\x7b\"x\":\"".toList ++ s ++ "\"\x7d".toList

theorem callOf_readable {s : List Char} (h : compactOf s ≠ (callOf s).entry) :
    (callOf s).Readable (serdeOf (callOf s) (compactOf s)) oneTool.tools := by
  refine ⟨earliest_none_iff.1 ?_, ?_, ?_, if_pos rfl, ?_⟩
  · show earliest ["<tool_call>".toList] "Let me see.\n".toList = none
    decide
  · show isValidFunctionName "f".toList = true
    decide
  · show toolExists oneTool.tools "f".toList = true
    decide
  · show (if compactOf s = (callOf s).entry then some (callOf s).value
      else if compactOf s = compactOf s then some (.object (callOf s).args) else none) = _
    rw [if_neg h, if_pos rfl]

theorem calls_round_trip_rome :
    ∃ result, tryParseToolCalls (serdeOf (callOf "Rome".toList) (compactOf "Rome".toList))
        (texts [callOf "Rome".toList]) oneTool = some result ∧
      result.map (·.name) = ["f".toList] ∧
      result.map (fun r => (serdeOf (callOf "Rome".toList) (compactOf "Rome".toList)).fromStr r.arguments) =
        [some (.object [("x".toList, .string "Rome".toList)])] := by
  refine calls_round_trip _ rfl rfl (List.cons_ne_nil _ _) (fun c hc => ?_) (fun c hc => ?_)
  · rw [List.mem_singleton.1 hc]
    exact callOf_readable (by decide)
  · rw [List.mem_singleton.1 hc]
    exact earliest_none_iff.1 (by decide)

/-- An argument that contains the closing tag ends its block, and the call is lost. -/
theorem calls_lost :
    ¬ ∀ (serde : Serde) (calls : List Written), calls ≠ [] →
      (∀ c ∈ calls, c.Readable serde oneTool.tools) →
        ∃ result, tryParseToolCalls serde (texts calls) oneTool = some result ∧
          result.map (·.name) = calls.map (·.name) ∧
          result.map (fun r => serde.fromStr r.arguments) = calls.map fun c => some (.object c.args) := by
  intro h
  obtain ⟨result, hresult, -⟩ := h (serdeOf (callOf "</tool_call>".toList) (compactOf "</tool_call>".toList))
    [callOf "</tool_call>".toList] (List.cons_ne_nil _ _) (fun c hc => by
      rw [List.mem_singleton.1 hc]
      exact callOf_readable (by decide))
  have hnone : (tryParseToolCalls
      (serdeOf (callOf "</tool_call>".toList) (compactOf "</tool_call>".toList))
      (texts [callOf "</tool_call>".toList]) oneTool).isNone = true := by
    decide +kernel
  rw [hresult] at hnone
  cases hnone

end Written

end Oxydllm.Serve.ToolCalls
