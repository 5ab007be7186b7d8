/-
# Oxydllm.Serve.ForcedCall — what an answer's filters leave of its calls.

The calls of undeclared tools are dropped, the serial mode keeps the first of the others, and only then is
the forced function looked for. What can hide it: a declared call in front of it in the serial mode, a format
that is read earlier, and an entry of the bare JSON that is no call.
-/
import Oxydllm.Lib.Traverse
import Oxydllm.Serve.ToolCalls

namespace Oxydllm.Serve.ToolCalls

section

variable (serde : Serde)

/-! ## The formats -/

/-- The JSON that an answer is when it is bare. -/
def bareValue (raw : List Char) : Option Value := serde.fromStr (stripJsonFences (trim raw))

/-- The list that a bare value holds or is. -/
def listed (value : Value) : Option (List Value) :=
  ((value.get "tool_calls".toList).bind Value.asArray).or value.asArray

/-- The calls of bare JSON, of those of its entries that are calls. -/
def bareFormat (raw : List Char) : List ToolCall :=
  (((bareValue serde raw).map fun value => ((listed value).getD [value]).filterMap (parseToolCallEntry serde)).getD
    []).filter (·.callType == "function".toList)

/-- The calls that each of the formats reads in an answer. -/
def formats (raw : List Char) (config : ToolConfig) : List (List ToolCall) :=
  [(parseToolCallTagBlocks serde raw).getD [], (parseNameBraceCalls serde raw config.tools).getD [],
    (parseGemmaCalls serde raw config.tools).getD [], bareFormat serde raw]

/-- What a client may rely on: declared calls, one in the serial mode or under a forced function, and the first
call of the forced function that a format reads. -/
structure Honoured (raw : List Char) (config : ToolConfig) (result : Option (List ToolCall)) : Prop where
  nonempty : result ≠ some []
  declared : ∀ calls, result = some calls → ∀ c ∈ calls, toolExists config.tools c.name = true
  serial : ∀ calls, result = some calls → config.parallelToolCalls = false → calls.length ≤ 1
  single : ∀ calls g, result = some calls → config.choiceMode = .forcedFunction g →
    calls.length ≤ 1 ∧ ∀ c ∈ calls, c.name = g
  found : ∀ g, config.choiceMode = .forcedFunction g →
    (∃ calls ∈ formats serde raw config, ∃ c ∈ calls, c.name = g) →
      ∃ calls ∈ formats serde raw config, ∃ c, calls.find? (·.name == g) = some c ∧ result = some [c]

/-! ## The filters -/

/-- The declared calls that the serial mode leaves. -/
def cut (config : ToolConfig) (calls : List ToolCall) : List ToolCall :=
  let declared := calls.filter fun call => toolExists config.tools call.name
  if config.parallelToolCalls then declared else declared.take 1

/-- The calls of the first tagged format that reads any. -/
def tagged (raw : List Char) (config : ToolConfig) : List ToolCall :=
  (((parseToolCallTagBlocks serde raw).or (parseNameBraceCalls serde raw config.tools)).or
    (parseGemmaCalls serde raw config.tools)).getD []

/-- The calls of bare JSON all of whose entries are calls. -/
def whole (raw : List Char) : List ToolCall :=
  (((bareValue serde raw).bind fun value => ((listed value).getD [value]).mapM (parseToolCallEntry serde)).getD
    []).filter (·.callType == "function".toList)

/-- Bare JSON that is no call is the arguments of the forced function. -/
def wrapped (raw : List Char) (config : ToolConfig) (g : List Char) : Option ToolCall :=
  (bareValue serde raw).bind fun value =>
    if (listed value).isNone ∧ (parseToolCallEntry serde value).isNone ∧ toolExists config.tools g = true then
      some (functionCall g (stripJsonFences (trim raw)))
    else none

/-- A call of the forced function reaches the client: no format reads one, or the first tagged format that reads
any call has one that the serial mode leaves, or bare JSON of nothing but calls has, or the answer wrapped as its
arguments is the call that some format reads. -/
def Reaches (raw : List Char) (config : ToolConfig) (g : List Char) : Prop :=
  (∀ calls ∈ formats serde raw config, ∀ c ∈ calls, c.name ≠ g) ∨
    (∃ c ∈ cut config (tagged serde raw config), c.name = g) ∨ (∃ c ∈ cut config (whole serde raw), c.name = g) ∨
      ∃ calls ∈ formats serde raw config, ∃ c, calls.find? (·.name == g) = some c ∧ wrapped serde raw config g = some c

theorem someCalls_eq {calls result : List ToolCall} : someCalls calls = some result ↔ result = calls ∧ calls ≠ [] := by
  unfold someCalls
  cases calls with
  | nil => simp
  | cons c calls => simp [eq_comm]

theorem someCalls_toList (c : Option ToolCall) : someCalls c.toList = c.map ([·]) := by
  cases c with
  | none => rfl
  | some c => rfl

theorem limitCalls_mem (config : ToolConfig) {calls : List ToolCall} {c : ToolCall} (h : c ∈ limitCalls config calls) :
    c ∈ calls := by
  have hserial : ∀ c ∈ if !config.parallelToolCalls && 1 < calls.length then calls.take 1 else calls, c ∈ calls := by
    intro c hc
    split at hc
    · exact List.mem_of_mem_take hc
    · exact hc
  unfold limitCalls at h
  generalize (if !config.parallelToolCalls && 1 < calls.length then calls.take 1 else calls) = left at h hserial
  dsimp only at h
  split at h
  · exact hserial c (List.mem_of_mem_filter (List.mem_of_mem_take h))
  · exact hserial c h

theorem limitCalls_serial {config : ToolConfig} (h : config.parallelToolCalls = false) (calls : List ToolCall) :
    (limitCalls config calls).length ≤ 1 := by
  have hserial : (if !config.parallelToolCalls && 1 < calls.length then calls.take 1 else calls).length ≤ 1 := by
    rw [h]
    split
    · exact List.length_take_le _ _
    · rename_i hlen
      simpa using hlen
  unfold limitCalls
  generalize (if !config.parallelToolCalls && 1 < calls.length then calls.take 1 else calls) = left at hserial
  dsimp only
  split
  · exact List.length_take_le _ _
  · exact hserial

/-- Under a forced function the limits leave the first call of it that the serial mode does. -/
theorem limitCalls_forced {config : ToolConfig} {g : List Char} (h : config.choiceMode = .forcedFunction g)
    (calls : List ToolCall) :
    limitCalls config (calls.filter fun call => toolExists config.tools call.name) =
      ((cut config calls).find? (·.name == g)).toList := by
  have hserial : ∀ declared : List ToolCall,
      (if !config.parallelToolCalls && 1 < declared.length then declared.take 1 else declared) =
        if config.parallelToolCalls then declared else declared.take 1 := by
    intro declared
    cases config.parallelToolCalls with
    | true => rfl
    | false =>
        by_cases hlen : 1 < declared.length
        · simp [hlen]
        · rw [List.take_of_length_le (Nat.not_lt.1 hlen)]
          simp
  unfold limitCalls cut
  rw [h]
  dsimp only
  rw [hserial, List.take_one, List.head?_filter]

theorem someCalls_forced {config : ToolConfig} {g : List Char} (h : config.choiceMode = .forcedFunction g)
    (calls : List ToolCall) :
    someCalls (limitCalls config (calls.filter fun call => toolExists config.tools call.name)) =
      ((cut config calls).find? (·.name == g)).map ([·]) := by
  rw [limitCalls_forced h, someCalls_toList]

@[simp] theorem cut_nil (config : ToolConfig) : cut config [] = [] := by
  unfold cut
  dsimp only
  split <;> rfl

/-- The first call of a function that the filters leave is the first there is. -/
theorem find_cut {config : ToolConfig} {g : List Char} {calls : List ToolCall} {c : ToolCall}
    (h : (cut config calls).find? (·.name == g) = some c) : calls.find? (·.name == g) = some c := by
  have hdeclared : (calls.filter fun call => toolExists config.tools call.name).find? (·.name == g) = some c := by
    unfold cut at h
    dsimp only at h
    split at h
    · exact h
    · exact (List.take_prefix 1 _).find?_eq_some h
  have hname : c.name = g := by simpa using List.find?_some hdeclared
  have hexists : toolExists config.tools g = true := by
    have hmem := List.mem_of_find?_eq_some hdeclared
    rw [List.mem_filter, hname] at hmem
    exact hmem.2
  rw [List.find?_filter] at hdeclared
  rw [← hdeclared]
  congr 1
  funext call
  by_cases hcall : call.name = g
  · simp [hcall, hexists]
  · simp [hcall]

theorem mem_cut_iff {config : ToolConfig} {g : List Char} {calls : List ToolCall} :
    (∃ c ∈ cut config calls, c.name = g) ↔ ∃ c, (cut config calls).find? (·.name == g) = some c := by
  rw [← Option.isSome_iff_exists, List.find?_isSome]
  simp

/-! ## An answer -/

/-- The calls that a bare value is read as. -/
def bareRead (raw : List Char) (config : ToolConfig) (value : Value) : Option (List ToolCall) :=
  match listed value with
  | some entries => entries.mapM (parseToolCallEntry serde)
  | none =>
      match parseToolCallEntry serde value, config.choiceMode, config.tools with
      | some single, _, _ => some [single]
      | none, .forcedFunction name, _ => some [functionCall name (stripJsonFences (trim raw))]
      | none, .required, [tool] => some [functionCall tool.name (stripJsonFences (trim raw))]
      | none, _, _ => none

theorem bareCalls_eq (raw : List Char) (config : ToolConfig) :
    bareCalls serde raw config = (bareValue serde raw).bind fun value =>
      (bareRead serde raw config value).bind fun calls => someCalls (limitCalls config ((calls.filter
        (·.callType == "function".toList)).filter fun call => toolExists config.tools call.name)) := by
  have hfilter : ∀ calls : List ToolCall,
      calls.filter (fun call => call.callType == "function".toList && toolExists config.tools call.name) =
        (calls.filter (·.callType == "function".toList)).filter fun call => toolExists config.tools call.name := by
    intro calls
    rw [List.filter_filter]
    exact List.filter_congr fun call _ => Bool.and_comm _ _
  unfold bareCalls
  refine Option.bind_congr fun value _ => ?_
  simp only [hfilter]
  unfold bareRead listed
  cases ((value.get "tool_calls".toList).bind Value.asArray).or value.asArray with
  | some entries => rfl
  | none =>
      cases parseToolCallEntry serde value with
      | some single => rfl
      | none =>
          cases config.choiceMode with
          | none => rfl
          | auto => rfl
          | forcedFunction name => rfl
          | required =>
              cases config.tools with
              | nil => rfl
              | cons tool tools =>
                  cases tools with
                  | nil => rfl
                  | cons other tools => rfl

/-- Every answer's calls are what the limits leave of declared calls. -/
theorem tryParseToolCalls_limited {raw : List Char} {config : ToolConfig} {result : List ToolCall}
    (h : tryParseToolCalls serde raw config = some result) :
    ∃ calls, (∀ c ∈ calls, toolExists config.tools c.name = true) ∧ result = limitCalls config calls ∧ result ≠ [] := by
  have hsome : ∀ {calls : List ToolCall}, someCalls (limitCalls config (calls.filter fun call => toolExists config.tools call.name)) =
      some result → ∃ calls, (∀ c ∈ calls, toolExists config.tools c.name = true) ∧ result = limitCalls config calls ∧
        result ≠ [] := by
    intro calls hlimit
    obtain ⟨hresult, hne⟩ := someCalls_eq.1 hlimit
    exact ⟨_, fun c hc => (List.mem_filter.1 hc).2, hresult, by rw [hresult]; exact hne⟩
  rcases Option.or_eq_some_iff.1 h with htagged | ⟨-, hbare⟩
  · obtain ⟨calls, -, hlimit⟩ := Option.bind_eq_some_iff.1 htagged
    exact hsome hlimit
  · rw [bareCalls_eq] at hbare
    obtain ⟨value, -, hbare⟩ := Option.bind_eq_some_iff.1 hbare
    obtain ⟨calls, -, hlimit⟩ := Option.bind_eq_some_iff.1 hbare
    exact hsome hlimit

theorem bareCalls_forced (raw : List Char) {config : ToolConfig} {g : List Char}
    (h : config.choiceMode = .forcedFunction g) :
    bareCalls serde raw config =
      (((cut config (whole serde raw)).find? (·.name == g)).or (wrapped serde raw config g)).map ([·]) := by
  rw [bareCalls_eq]
  unfold whole wrapped
  cases bareValue serde raw with
  | none => simp
  | some value =>
      simp only [Option.bind_some]
      cases hlist : listed value with
      | some entries =>
          simp only [Option.isNone_some, Bool.false_eq_true, false_and, if_false, Option.or_none, Option.getD_some]
          unfold bareRead
          rw [hlist]
          dsimp only
          cases entries.mapM (parseToolCallEntry serde) with
          | none => simp
          | some calls => rw [Option.bind_some, Option.getD_some, someCalls_forced h]
      | none =>
          unfold bareRead
          rw [hlist]
          dsimp only
          cases hparse : parseToolCallEntry serde value with
          | some single =>
              have hcalls : [value].mapM (parseToolCallEntry serde) = some [single] := by simp [hparse]
              simp only [Option.isNone_some, Option.isNone_none, Bool.false_eq_true, false_and, and_false, if_false,
                Option.or_none, Option.getD_none]
              rw [hcalls, Option.bind_some, Option.getD_some, someCalls_forced h]
          | none =>
              have hcalls : [value].mapM (parseToolCallEntry serde) = none := by simp [hparse]
              rw [h]
              simp only [Option.isNone_none, true_and, Option.getD_none]
              rw [hcalls, Option.getD_none, List.filter_nil, cut_nil, List.find?_nil, Option.none_or, Option.bind_some,
                someCalls_forced h]
              congr 1
              unfold cut
              by_cases hexists : toolExists config.tools g = true
              · rw [if_pos hexists]
                simp [functionCall, hexists]
              · rw [if_neg hexists]
                simp [functionCall, hexists]

/-- The first call of the forced function that the filters leave, wherever it comes from. -/
def firstLeft (raw : List Char) (config : ToolConfig) (g : List Char) : Option ToolCall :=
  (((cut config (tagged serde raw config)).find? (·.name == g)).or
    ((cut config (whole serde raw)).find? (·.name == g))).or (wrapped serde raw config g)

theorem tryParseToolCalls_forced (raw : List Char) {config : ToolConfig} {g : List Char}
    (h : config.choiceMode = .forcedFunction g) :
    tryParseToolCalls serde raw config = (firstLeft serde raw config g).map ([·]) := by
  unfold tryParseToolCalls firstLeft tagged
  dsimp only
  generalize ((parseToolCallTagBlocks serde raw).or (parseNameBraceCalls serde raw config.tools)).or
    (parseGemmaCalls serde raw config.tools) = found
  rw [bareCalls_forced serde raw h, Option.or_assoc]
  cases found with
  | none =>
      rw [Option.getD_none, cut_nil, List.find?_nil, Option.none_or]
      rfl
  | some calls => rw [Option.bind_some, Option.getD_some, someCalls_forced h, Option.map_or, Option.map_or, Option.map_or]

theorem tagged_mem (raw : List Char) (config : ToolConfig) :
    tagged serde raw config ∈ formats serde raw config ∨ tagged serde raw config = [] := by
  unfold tagged formats
  cases parseToolCallTagBlocks serde raw with
  | some calls => simp
  | none =>
      cases parseNameBraceCalls serde raw config.tools with
      | some calls => simp
      | none => simp

theorem whole_eq (raw : List Char) : whole serde raw = bareFormat serde raw ∨ whole serde raw = [] := by
  unfold whole bareFormat
  cases bareValue serde raw with
  | none => exact .inr rfl
  | some value =>
      simp only [Option.bind_some, Option.map_some, Option.getD_some]
      cases hcalls : ((listed value).getD [value]).mapM (parseToolCallEntry serde) with
      | none => exact .inr rfl
      | some calls =>
          refine .inl ?_
          rw [Option.getD_some, Traverse.filterMap_of_mapM hcalls]

theorem firstLeft_name {raw : List Char} {config : ToolConfig} {g : List Char} {c : ToolCall}
    (h : firstLeft serde raw config g = some c) : c.name = g := by
  rcases Option.or_eq_some_iff.1 h with hleft | ⟨-, hwrapped⟩
  · rcases Option.or_eq_some_iff.1 hleft with hfind | ⟨-, hfind⟩
    · simpa using List.find?_some hfind
    · simpa using List.find?_some hfind
  · obtain ⟨value, -, hif⟩ := Option.bind_eq_some_iff.1 hwrapped
    split at hif
    · cases hif
      rfl
    · cases hif

/-- A call of the forced function that reaches the client is the first of it that a format reads. -/
theorem firstLeft_found {raw : List Char} {config : ToolConfig} {g : List Char} (h : Reaches serde raw config g)
    (hread : ∃ calls ∈ formats serde raw config, ∃ c ∈ calls, c.name = g) :
    ∃ calls ∈ formats serde raw config, ∃ c, calls.find? (·.name == g) = some c ∧ firstLeft serde raw config g = some c := by
  unfold firstLeft
  cases htagged : (cut config (tagged serde raw config)).find? (·.name == g) with
  | some c =>
      have hfind := find_cut htagged
      rcases tagged_mem serde raw config with hmem | hnil
      · exact ⟨_, hmem, c, hfind, rfl⟩
      · rw [hnil] at hfind
        cases hfind
  | none =>
      cases hwhole : (cut config (whole serde raw)).find? (·.name == g) with
      | some c =>
          have hfind := find_cut hwhole
          rcases whole_eq serde raw with heq | hnil
          · rw [heq] at hfind
            exact ⟨bareFormat serde raw, by simp [formats], c, hfind, rfl⟩
          · rw [hnil] at hfind
            cases hfind
      | none =>
          -- nothing was left of what was read, so only the wrapped answer can be meant
          rcases h with hnone | hleft | hleft | hwrapped
          · obtain ⟨calls, hcalls, c, hc, hname⟩ := hread
            exact absurd hname (hnone calls hcalls c hc)
          · obtain ⟨c, hc⟩ := mem_cut_iff.1 hleft
            rw [htagged] at hc
            cases hc
          · obtain ⟨c, hc⟩ := mem_cut_iff.1 hleft
            rw [hwhole] at hc
            cases hc
          · exact hwrapped

/-- An answer's calls are what a client may rely on exactly when a call of the forced function reaches it. -/
theorem tryParseToolCalls_honoured_iff (raw : List Char) (config : ToolConfig) :
    Honoured serde raw config (tryParseToolCalls serde raw config) ↔
      ∀ g, config.choiceMode = .forcedFunction g → Reaches serde raw config g := by
  constructor
  · intro h g hmode
    by_cases hread : ∃ calls ∈ formats serde raw config, ∃ c ∈ calls, c.name = g
    · obtain ⟨calls, hcalls, c, hfind, hresult⟩ := h.found g hmode hread
      rw [tryParseToolCalls_forced serde raw hmode] at hresult
      obtain ⟨c', hfirst, hc'⟩ := Option.map_eq_some_iff.1 hresult
      cases hc'
      rcases Option.or_eq_some_iff.1 hfirst with hleft | ⟨-, hwrapped⟩
      · rcases Option.or_eq_some_iff.1 hleft with htagged | ⟨-, hwhole⟩
        · exact .inr (.inl (mem_cut_iff.2 ⟨c, htagged⟩))
        · exact .inr (.inr (.inl (mem_cut_iff.2 ⟨c, hwhole⟩)))
      · exact .inr (.inr (.inr ⟨calls, hcalls, c, hfind, hwrapped⟩))
    · exact .inl fun calls hcalls c hc hname => hread ⟨calls, hcalls, c, hc, hname⟩
  · intro h
    refine ⟨fun hnil => ?_, fun calls hcalls c hc => ?_, fun calls hcalls hserial => ?_, fun calls g hcalls hmode => ?_,
      fun g hmode hread => ?_⟩
    · obtain ⟨_, -, -, hne⟩ := tryParseToolCalls_limited serde hnil
      exact hne rfl
    · obtain ⟨left, hleft, rfl, -⟩ := tryParseToolCalls_limited serde hcalls
      exact hleft c (limitCalls_mem config hc)
    · obtain ⟨left, -, rfl, -⟩ := tryParseToolCalls_limited serde hcalls
      exact limitCalls_serial hserial left
    · rw [tryParseToolCalls_forced serde raw hmode] at hcalls
      obtain ⟨c, hfirst, rfl⟩ := Option.map_eq_some_iff.1 hcalls
      exact ⟨le_rfl, fun c' hc' => by rw [List.mem_singleton.1 hc', firstLeft_name serde hfirst]⟩
    · obtain ⟨calls, hcalls, c, hfind, hfirst⟩ := firstLeft_found serde (h g hmode) hread
      refine ⟨calls, hcalls, c, hfind, ?_⟩
      rw [tryParseToolCalls_forced serde raw hmode]
      exact congrArg (Option.map ([·])) hfirst

/-! ## Calls that are lost -/

def tool (name : List Char) : ToolDefinition := ⟨name, none⟩

/-- The function `g` is forced. -/
def forcing (tools : List ToolDefinition) : ToolConfig := ⟨tools, .forcedFunction "g".toList, false⟩

/-- A call of `f`, then one of `g`. -/
def twoBlocks : List Char :=
  "<tool_call><function=f></function></tool_call><tool_call><function=g></function></tool_call>".toList

/-- A call of `g`, then an entry without arguments. -/
def twoEntries : List Char := "[\x7b\"name\":\"g\",\"arguments\":\x7b\x7d\x7d,\x7b\"name\":\"f\"\x7d]".toList

def twoEntriesValue : Value :=
  .array [.object [("name".toList, .string "g".toList), ("arguments".toList, .object [])],
    .object [("name".toList, .string "f".toList)]]

/-- What `serde_json` does on the two answers. -/
def answersSerde : Serde where
  fromStr text := if text = twoEntries then some twoEntriesValue else none
  toString _ := "\x7b\x7d".toList
  firstValue _ := none

theorem not_honoured {serde : Serde} {raw : List Char} {tools : List ToolDefinition}
    (hread : (formats serde raw (forcing tools)).any (·.any (·.name == "g".toList)) = true)
    (hnone : tryParseToolCalls serde raw (forcing tools) = none) :
    ¬ Honoured serde raw (forcing tools) (tryParseToolCalls serde raw (forcing tools)) := by
  intro h
  obtain ⟨calls, -, c, -, hresult⟩ := h.found "g".toList rfl (by simpa using hread)
  rw [hnone] at hresult
  cases hresult

/-- A call of `f` in front of it hides the call of `g`, and so does, where only `g` is declared, an entry of bare
JSON that is no call. -/
theorem tryParseToolCalls_loses_forced :
    ¬ Honoured answersSerde twoBlocks (forcing [tool "f".toList, tool "g".toList])
        (tryParseToolCalls answersSerde twoBlocks (forcing [tool "f".toList, tool "g".toList])) ∧
      ¬ Honoured answersSerde twoEntries (forcing [tool "g".toList])
        (tryParseToolCalls answersSerde twoEntries (forcing [tool "g".toList])) :=
  ⟨not_honoured (by decide +kernel) (by decide +kernel), not_honoured (by decide +kernel) (by decide +kernel)⟩

end

end Oxydllm.Serve.ToolCalls
