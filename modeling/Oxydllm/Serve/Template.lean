/-
# Oxydllm.Serve.Template — the prompt of a conversation, through the template of the model.

A model's template is a program of its own, and it may refuse a conversation: for its system message, for its turns of
a tool, for calls whose ids are not nine characters. `applyChatTemplate` then tries again with less: without the system
messages, and with the turns of a tool folded into the text of the user and the assistant (`foldToolTurns`). What it
tries are the `candidates`, and whichever of them the template takes, no message but a system one is lost
(`candidates_carry`).
-/
import Oxydllm.Lib.InOrder
import Oxydllm.Lib.Runs
import Oxydllm.Serve.Formatters

namespace Oxydllm.Serve.Template

open Formatters (ChatMessage)
open ToolCalls (Value Serde)
open Occurrence (find)

abbrev Text := List Char

/-! ## Messages -/

structure Message extends ChatMessage where
  reasoningContent : Option Text
  name : Option Text
  deriving DecidableEq

def base36 : Text := "0123456789abcdefghijklmnopqrstuvwxyz".toList

/-- The last digits of a number, the last of them first. -/
def lastDigits : Nat → Nat → Text
  | 0, _ => []
  | k + 1, n => base36.getD (n % 36) '0' :: lastDigits k (n / 36)

section Ids

variable (hash : Text → UInt64)

def nineCharId (id : Text) : Text :=
  if byteLen id = 9 ∧ id.all Char.isAlphanum then id else lastDigits 9 (hash id).toNat

def Message.withNineCharIds (m : Message) : Message :=
  { m with
    toolCalls := m.toolCalls.map fun calls => calls.map fun c => { c with id := nineCharId hash c.id }
    toolCallId := m.toolCallId.map (nineCharId hash) }

def messagesForTemplate (template : Text) (messages : List Message) : List Message :=
  if (find "|length != 9".toList template).isSome then messages.map (Message.withNineCharIds hash) else messages

end Ids

/-! ## Folding -/

def foldRole (m : Message) : Text := if m.role = "tool".toList then "user".toList else m.role

def foldText (m : Message) : Text :=
  if m.role = "tool".toList then
    "Result of tool call ".toList ++ m.toolCallId.getD ['?'] ++ [':', ' '] ++ m.content.getD []
  else
    match m.toolCalls with
    | some calls =>
        if m.role = "assistant".toList then
          match m.content with
          | some c => if c = [] then Formatters.toJson calls else c ++ '\n' :: Formatters.toJson calls
          | none => Formatters.toJson calls
        else m.content.getD []
    | none => m.content.getD []

def folded (role text : Text) : Message where
  role
  content := some text
  toolCalls := none
  toolCallId := none
  reasoningContent := none
  name := none

def openTurn (m : Message) : Message := folded (foldRole m) (foldText m)

def joinTurn (last m : Message) : Message := { last with content := some (last.content.getD [] ++ '\n' :: foldText m) }

def foldToolTurns (messages : List Message) : Option (List Message) :=
  if messages.any fun m => m.role == "tool".toList || m.toolCalls.isSome then
    some (messages.foldl (Runs.mergeInto foldRole (fun m : Message => m.role) openTurn joinTurn) [])
  else none

section Folded

variable {messages turns : List Message} {m : Message}

theorem foldRole_ne_tool (m : Message) : foldRole m ≠ "tool".toList := by
  unfold foldRole
  by_cases h : m.role = "tool".toList
  · rw [if_pos h]
    decide
  · rwa [if_neg h]

theorem keyed_turns : Runs.Keyed foldRole (fun m : Message => m.role) openTurn joinTurn :=
  ⟨fun _ => rfl, fun _ _ => rfl⟩

theorem intercalate_joined (a b : Text) (ts : List Text) :
    ['\n'].intercalate ((a ++ '\n' :: b) :: ts) = ['\n'].intercalate (a :: b :: ts) := by
  rw [List.intercalate_cons_cons]
  rcases ts with - | ⟨t, ts⟩
  · rw [List.intercalate_singleton, List.intercalate_singleton, List.append_assoc, List.singleton_append]
  · rw [List.intercalate_cons_cons, List.intercalate_cons_cons]
    simp only [List.append_assoc, List.cons_append, List.nil_append]

/-- The texts of a stretch, a line apart. -/
theorem foldl_joinTurn (role text : Text) (run : List Message) :
    run.foldl joinTurn (folded role text) = folded role (['\n'].intercalate (text :: run.map foldText)) := by
  induction run generalizing text with
  | nil => rw [List.map_nil, List.intercalate_singleton]; rfl
  | cons m run ih =>
      have hstep : joinTurn (folded role text) m = folded role (text ++ '\n' :: foldText m) := rfl
      rw [List.foldl_cons, hstep, ih, intercalate_joined, List.map_cons]

/-- The turn that a stretch of messages becomes. -/
structure OfRun (run : List Message) (m : Message) : Prop where
  inhabited : run ≠ []
  role : ∀ x ∈ run, foldRole x = m.role
  text : m = folded m.role (['\n'].intercalate (run.map foldText))

theorem OfRun.not_tool {run : List Message} (h : OfRun run m) : m.role ≠ "tool".toList := by
  obtain ⟨x, hx⟩ := List.exists_mem_of_ne_nil _ h.inhabited
  rw [← h.role x hx]
  exact foldRole_ne_tool x

theorem ofRun_gathered {x : Message} {xs : List Message} (h : ∀ y ∈ xs, foldRole y = foldRole x) :
    OfRun (x :: xs) (xs.foldl joinTurn (openTurn x)) := by
  have hturn : xs.foldl joinTurn (openTurn x) =
      folded (foldRole x) (['\n'].intercalate (foldText x :: xs.map foldText)) := foldl_joinTurn _ _ xs
  rw [hturn]
  refine ⟨List.cons_ne_nil _ _, ?_, rfl⟩
  intro y hy
  rcases List.mem_cons.1 hy with rfl | hy
  · rfl
  · exact h y hy

theorem forall₂_gathered {rs : List (List Message)} (h : Runs.Cut foldRole rs) :
    List.Forall₂ OfRun rs (rs.filterMap (Runs.gathered openTurn joinTurn)) := by
  induction rs with
  | nil => exact List.Forall₂.nil
  | cons r rs ih =>
      rcases r with - | ⟨x, xs⟩
      · exact absurd List.mem_cons_self h.1
      · rw [Runs.filterMap_gathered_cons]
        exact List.Forall₂.cons (ofRun_gathered (Runs.key_of_run (h.2.1 _ List.mem_cons_self))) (ih h.tail)

theorem foldToolTurns_eq_none : foldToolTurns messages = none ↔
    ∀ m ∈ messages, m.role ≠ "tool".toList ∧ m.toolCalls = none := by
  have hany : (messages.any fun m => m.role == "tool".toList || m.toolCalls.isSome) = true ↔
      ∃ m ∈ messages, m.role = "tool".toList ∨ m.toolCalls.isSome = true := by
    simp only [List.any_eq_true, Bool.or_eq_true, beq_iff_eq]
  unfold foldToolTurns
  by_cases h : (messages.any fun m => m.role == "tool".toList || m.toolCalls.isSome) = true
  · obtain ⟨m, hm, hfold⟩ := hany.1 h
    rw [if_pos h]
    refine ⟨fun hnone => absurd hnone (Option.some_ne_none _), fun hplain => ?_⟩
    rcases hfold with hrole | hcalls
    · exact absurd hrole (hplain m hm).1
    · rw [(hplain m hm).2] at hcalls
      exact absurd hcalls Bool.false_ne_true
  · rw [if_neg h]
    refine ⟨fun _ m hm => ⟨fun hrole => h (hany.2 ⟨m, hm, .inl hrole⟩), ?_⟩, fun _ => rfl⟩
    rcases hcalls : m.toolCalls with - | calls
    · rfl
    · exact absurd (hany.2 ⟨m, hm, .inr (hcalls ▸ rfl)⟩) h

/-- The conversation cut into stretches of one speaker, each of them one turn. -/
theorem foldToolTurns_runs (h : foldToolTurns messages = some turns) :
    ∃ rs, rs.flatten = messages ∧ List.Forall₂ OfRun rs turns ∧ turns.IsChain fun a b => a.role ≠ b.role := by
  unfold foldToolTurns at h
  by_cases hany : (messages.any fun m => m.role == "tool".toList || m.toolCalls.isSome) = true
  · rw [if_pos hany, Runs.foldl_mergeInto keyed_turns] at h
    obtain rfl := Option.some.inj h
    exact ⟨Runs.runs foldRole messages, List.flatten_splitBy _ _, forall₂_gathered (Runs.cut_runs messages),
      Runs.gathered_alternate keyed_turns messages⟩
  · rw [if_neg hany] at h
    exact absurd h (Option.some_ne_none _).symm

theorem exists_run_of_mem {rs : List (List Message)} (h : List.Forall₂ OfRun rs turns) (hm : m ∈ turns) :
    ∃ run ∈ rs, OfRun run m := by
  induction h with
  | nil => exact absurd hm List.not_mem_nil
  | cons hrun _ ih =>
      rcases List.mem_cons.1 hm with rfl | hm
      · exact ⟨_, List.mem_cons_self, hrun⟩
      · obtain ⟨run, hmem, hrun⟩ := ih hm
        exact ⟨run, List.mem_cons_of_mem _ hmem, hrun⟩

/-- What is folded is the turns of a tool and the calls; the outcome has neither of them, it says every message in its
turn, and no two turns of one role stand next to each other. -/
theorem foldToolTurns_turns (messages : List Message) :
    (foldToolTurns messages = none ↔ ∀ m ∈ messages, m.role ≠ "tool".toList ∧ m.toolCalls = none) ∧
      ∀ turns, foldToolTurns messages = some turns →
        (∃ rs, rs.flatten = messages ∧ List.Forall₂ OfRun rs turns) ∧
          (turns.IsChain fun a b => a.role ≠ b.role) ∧
          ∀ m ∈ turns, m.role ≠ "tool".toList ∧ m.toolCalls = none ∧ m.toolCallId = none := by
  refine ⟨foldToolTurns_eq_none, fun turns h => ?_⟩
  obtain ⟨rs, hflat, hturns, hchain⟩ := foldToolTurns_runs h
  refine ⟨⟨rs, hflat, hturns⟩, hchain, fun m hm => ?_⟩
  obtain ⟨run, -, hrun⟩ := exists_run_of_mem hturns hm
  refine ⟨hrun.not_tool, ?_, ?_⟩
  · rw [hrun.text]; rfl
  · rw [hrun.text]; rfl

/-- A question, a call and its result, and a further question. -/
def roundTrip : List Message :=
  [folded "user".toList "q".toList,
    { folded "assistant".toList [] with toolCalls := some [⟨"c1".toList, "function".toList, "f".toList, []⟩] },
    { folded "tool".toList "r".toList with toolCallId := some "c1".toList },
    folded "user".toList "and".toList]

theorem foldToolTurns_turns_round_trip : ∃ turns, foldToolTurns roundTrip = some turns ∧ turns.length = 3 ∧
    ∀ m ∈ turns, m.role ≠ "tool".toList ∧ m.toolCalls = none ∧ m.toolCallId = none := by
  obtain ⟨turns, hturns⟩ : ∃ turns, foldToolTurns roundTrip = some turns := ⟨_, rfl⟩
  refine ⟨turns, hturns, ?_, ((foldToolTurns_turns roundTrip).2 turns hturns).2.2⟩
  obtain rfl := Option.some.inj hturns
  decide

end Folded

/-! ## Rendering -/

structure TemplateOptions where
  bosToken : Option Text
  eosToken : Option Text
  addGenerationPrompt : Bool
  enableThinking : Bool
  reasoningEffort : Option Text
  tools : Option Value

/-- A call as the template sees it: arguments that are JSON are given parsed. -/
structure TemplateCall where
  id : Text
  callType : Text
  name : Text
  arguments : Value

structure TemplateMessage where
  role : Text
  content : Text
  toolCalls : Option (List TemplateCall)
  toolCallId : Option Text
  name : Option Text

structure TemplateContext where
  messages : List TemplateMessage
  bosToken : Text
  eosToken : Text
  addGenerationPrompt : Bool
  enableThinking : Bool
  reasoningEffort : Option Text
  tools : Option Value

section Render

variable {E : Type} (serde : Serde) (engine : Text → TemplateContext → Except E Text)

def parseArgumentsForTemplate (c : Formatters.ToolCall) : TemplateCall where
  id := c.id
  callType := c.callType
  name := c.name
  arguments := (serde.fromStr c.arguments).getD (.string c.arguments)

def Message.forTemplate (m : Message) : TemplateMessage where
  role := m.role
  content := m.content.getD []
  toolCalls := m.toolCalls.map fun calls => calls.map (parseArgumentsForTemplate serde)
  toolCallId := m.toolCallId
  name := m.name

def preprocessTemplate (template : Text) : Text :=
  ToolCalls.replace "[::-1]".toList "|reverse".toList template.length template

/-- `chat_template::apply_chat_template`; `engine` compiles and renders a template. -/
def renderTemplate (template : Text) (messages : List Message) (opts : TemplateOptions) : Except E Text :=
  engine (preprocessTemplate template)
    { messages := messages.map (Message.forTemplate serde)
      bosToken := opts.bosToken.getD []
      eosToken := opts.eosToken.getD []
      addGenerationPrompt := opts.addGenerationPrompt
      enableThinking := opts.enableThinking
      reasoningEffort := opts.reasoningEffort
      tools := opts.tools }

end Render

/-! ## Prompts -/

structure Tokenizer where
  chatTemplate : Option Text
  specialTokenId : Text → Option Nat
  bosToken : Option Text
  eosToken : Option Text

def Tokenizer.has (t : Tokenizer) (token : String) : Bool := (t.specialTokenId token.toList).isSome

/-- The prompt of a tokenizer without a template. -/
def withoutTemplate (t : Tokenizer) (messages : List ChatMessage) (enableThinking : Bool) : Text :=
  if t.has "<|turn>" && t.has "<turn|>" then
    Formatters.formatTurnChat messages ⟨t.bosToken, "<|turn>".toList, "<turn|>".toList, true, enableThinking⟩
  else if t.has "<start_of_turn>" && t.has "<end_of_turn>" then
    Formatters.formatTurnChat messages
      ⟨t.bosToken, "<start_of_turn>".toList, "<end_of_turn>".toList, true, enableThinking⟩
  else if t.has "[INST]" && t.has "[/INST]" then
    Formatters.formatMistralInstChat t.eosToken (t.has "[SYSTEM_PROMPT]") t.bosToken messages
  else Formatters.formatPlainChat messages

def notSystem (m : Message) : Bool := m.role != "system".toList

section Apply

variable {E : Type} (serde : Serde) (engine : Text → TemplateContext → Except E Text) (hash : Text → UInt64)
  (tokenizer : Tokenizer) (enableThinking : Bool) (reasoningEffort : Option Text)

def tryRender (template : Text) (messages : List Message) (tools : Option Value) : Except E Text :=
  renderTemplate serde engine template messages
    ⟨tokenizer.bosToken, tokenizer.eosToken, true, enableThinking, reasoningEffort, tools⟩

/-- The first of the folded forms that renders. -/
def foldedPrompt (render : List Message → Option Value → Except E Text) (e : E) (messages : List Message) :
    Except E Text :=
  match foldToolTurns messages with
  | none => .error e
  | some turns =>
      match render turns none with
      | .ok prompt => .ok prompt
      | .error _ =>
          match render (turns.filter notSystem) none with
          | .ok prompt => .ok prompt
          | .error _ => .error e

/-- The retries of a conversation that was refused with `e`. -/
def retry (render : List Message → Option Value → Except E Text) (e : E) (messages : List Message)
    (tools : Option Value) : Except E Text :=
  if (messages.filter notSystem).length < messages.length then
    match render (messages.filter notSystem) tools with
    | .ok prompt => .ok prompt
    | .error _ => foldedPrompt render e messages
  else foldedPrompt render e messages

def applyChatTemplate (messages : List Message) (tools : Option Value) : Except E Text :=
  match tokenizer.chatTemplate with
  | none => .ok (withoutTemplate tokenizer (messages.map (·.toChatMessage)) enableThinking)
  | some template =>
      let messages := messagesForTemplate hash template messages
      let render := tryRender serde engine tokenizer enableThinking reasoningEffort template
      match render messages tools with
      | .ok prompt => .ok prompt
      | .error e => retry render e messages tools

end Apply

/-! ## What a prompt is made of -/

/-- What may be rendered of a conversation, the fuller forms in front. -/
def candidates (messages : List Message) (tools : Option Value) : List (List Message × Option Value) :=
  (messages, tools) ::
    ((if (messages.filter notSystem).length < messages.length then [(messages.filter notSystem, tools)] else []) ++
      ((foldToolTurns messages).map fun turns => [(turns, none), (turns.filter notSystem, none)]).getD [])

section First

variable {E : Type} {render : List Message → Option Value → Except E Text} {e : E} {prompt : Text}
  {messages : List Message} {tools : Option Value} {cs : List (List Message × Option Value)}

def tryAll (render : List Message → Option Value → Except E Text) (e : E) :
    List (List Message × Option Value) → Except E Text
  | [] => .error e
  | c :: cs =>
      match render c.1 c.2 with
      | .ok prompt => .ok prompt
      | .error _ => tryAll render e cs

theorem foldedPrompt_eq : foldedPrompt render e messages =
    tryAll render e (((foldToolTurns messages).map fun turns => [(turns, none), (turns.filter notSystem, none)]).getD []) := by
  unfold foldedPrompt
  rcases foldToolTurns messages with - | turns
  · rfl
  · show _ = tryAll render e [(turns, none), (turns.filter notSystem, none)]
    dsimp only [tryAll]

theorem retry_eq : retry render e messages tools = tryAll render e (candidates messages tools).tail := by
  unfold retry candidates
  by_cases h : (messages.filter notSystem).length < messages.length
  · rw [if_pos h, if_pos h, foldedPrompt_eq]
    rfl
  · rw [if_neg h, if_neg h, foldedPrompt_eq]
    rfl

/-- The template refuses it. -/
def Refused (render : List Message → Option Value → Except E Text) (c : List Message × Option Value) : Prop :=
  ∃ e, render c.1 c.2 = .error e

theorem Refused.ne_ok {c : List Message × Option Value} (h : Refused render c) : render c.1 c.2 ≠ .ok prompt := by
  obtain ⟨e', he'⟩ := h
  rw [he']
  exact nofun

/-- The first form that is not refused gives the prompt. -/
def FirstRendered (render : List Message → Option Value → Except E Text) (cs : List (List Message × Option Value))
    (prompt : Text) : Prop :=
  ∃ front c back, cs = front ++ c :: back ∧ (∀ b ∈ front, Refused render b) ∧ render c.1 c.2 = .ok prompt

theorem not_firstRendered_nil : ¬ FirstRendered render [] prompt := by
  rintro ⟨front, c, back, h, -⟩
  exact List.append_ne_nil_of_right_ne_nil _ (List.cons_ne_nil _ _) h.symm

theorem firstRendered_cons {c : List Message × Option Value} : FirstRendered render (c :: cs) prompt ↔
    render c.1 c.2 = .ok prompt ∨ Refused render c ∧ FirstRendered render cs prompt := by
  constructor
  · rintro ⟨- | ⟨b, front⟩, c', back, hcs, hfront, hok⟩
    · obtain ⟨rfl, -⟩ := List.cons.inj hcs
      exact .inl hok
    · obtain ⟨rfl, rfl⟩ := List.cons.inj hcs
      obtain ⟨hb, hfront⟩ := List.forall_mem_cons.1 hfront
      exact .inr ⟨hb, front, c', back, rfl, hfront, hok⟩
  · rintro (hok | ⟨hc, front, c', back, rfl, hfront, hok⟩)
    · exact ⟨[], c, cs, rfl, fun _ hb => absurd hb List.not_mem_nil, hok⟩
    · exact ⟨c :: front, c', back, rfl, List.forall_mem_cons.2 ⟨hc, hfront⟩, hok⟩

theorem firstRendered_of_refused {c : List Message × Option Value} (h : Refused render c) :
    FirstRendered render (c :: cs) prompt ↔ FirstRendered render cs prompt :=
  firstRendered_cons.trans ⟨fun hor => hor.elim (fun hok => absurd hok h.ne_ok) And.right, fun hrest => .inr ⟨h, hrest⟩⟩

theorem firstRendered_of_ok {c : List Message × Option Value} {p : Text} (h : render c.1 c.2 = .ok p) :
    FirstRendered render (c :: cs) prompt ↔ p = prompt := by
  rw [firstRendered_cons, h, Except.ok.injEq]
  exact ⟨fun hor => hor.elim id fun hc => absurd h hc.1.ne_ok, .inl⟩

theorem tryAll_ok : tryAll render e cs = .ok prompt ↔ FirstRendered render cs prompt := by
  induction cs with
  | nil => exact ⟨fun h => (nomatch h), fun h => absurd h not_firstRendered_nil⟩
  | cons c cs ih =>
      unfold tryAll
      rcases hc : render c.1 c.2 with e' | p
      · exact ih.trans (firstRendered_of_refused ⟨e', hc⟩).symm
      · rw [firstRendered_of_ok hc, Except.ok.injEq]

theorem tryAll_error {e' : E} : tryAll render e cs = .error e' ↔ e = e' ∧ ∀ c ∈ cs, Refused render c := by
  induction cs with
  | nil => exact ⟨fun h => ⟨Except.error.inj h, fun _ hc => absurd hc List.not_mem_nil⟩, fun h => congrArg _ h.1⟩
  | cons c cs ih =>
      unfold tryAll
      rcases hc : render c.1 c.2 with e'' | p
      · exact ih.trans ⟨fun h => ⟨h.1, List.forall_mem_cons.2 ⟨⟨e'', hc⟩, h.2⟩⟩,
          fun h => ⟨h.1, (List.forall_mem_cons.1 h.2).2⟩⟩
      · exact ⟨fun h => (nomatch h), fun h => absurd hc (h.2 c List.mem_cons_self).ne_ok⟩

end First

section Carried

variable {messages ms turns : List Message} {tools : Option Value} {c : List Message × Option Value}

theorem notSystem_iff {m : Message} : notSystem m = true ↔ foldRole m ≠ "system".toList := by
  unfold notSystem foldRole
  rw [bne_iff_ne]
  by_cases h : m.role = "tool".toList
  · rw [if_pos h, h]
    decide
  · rw [if_neg h]

/-- What a message says stays in its folded text. -/
theorem text_infix_foldText (m : Message) : m.text <:+: foldText m := by
  unfold foldText ChatMessage.text
  by_cases htool : m.role = "tool".toList
  · rw [if_pos htool]
    exact (List.suffix_append _ _).isInfix
  · rw [if_neg htool]
    rcases m.toolCalls with - | calls
    · exact List.infix_rfl
    · show _ <:+: if m.role = "assistant".toList then _ else _
      by_cases hassistant : m.role = "assistant".toList
      · rw [if_pos hassistant]
        rcases m.content with - | said
        · exact List.nil_infix
        · show said <:+: if said = [] then _ else _
          by_cases hempty : said = []
          · rw [hempty]
            exact List.nil_infix
          · rw [if_neg hempty]
            exact (List.prefix_append _ _).isInfix
      · rw [if_neg hassistant]

theorem inOrder_intercalate {said : Message → Text} (sep : Text) (h : ∀ m, said m <:+: foldText m) (run : List Message) :
    InOrder (run.map said) (sep.intercalate (run.map foldText)) := by
  induction run with
  | nil => trivial
  | cons m run ih =>
      have hhead : InOrder [said m] (foldText m) := InOrder.singleton (h m)
      rcases run with - | ⟨m', run⟩
      · rw [List.map_singleton, List.map_singleton, List.intercalate_singleton]
        exact hhead
      · have hjoin : sep.intercalate ((m :: m' :: run).map foldText) =
            foldText m ++ (sep ++ sep.intercalate ((m' :: run).map foldText)) := by
          rw [List.map_cons, List.map_cons, List.intercalate_cons_cons, List.append_assoc]
        rw [hjoin]
        exact hhead.append (ih.after sep)

/-- A stretch is of system messages as a whole, or of none. -/
theorem OfRun.filter_notSystem {run : List Message} {m : Message} (h : OfRun run m) :
    run.filter notSystem = if notSystem m then run else [] := by
  by_cases hm : notSystem m = true
  · rw [if_pos hm, List.filter_eq_self]
    intro x hx
    rw [notSystem_iff, h.role x hx]
    exact bne_iff_ne.1 hm
  · rw [if_neg hm, List.filter_eq_nil_iff]
    intro x hx hsystem
    rw [notSystem_iff, h.role x hx] at hsystem
    exact hm (bne_iff_ne.2 hsystem)

theorem OfRun.inOrder {said : Message → Text} (hsaid : ∀ m, said m <:+: foldText m) {run : List Message} {m : Message}
    (h : OfRun run m) : InOrder (run.map said) m.text := by
  rw [h.text]
  exact inOrder_intercalate _ hsaid run

theorem turns_carry {said : Message → Text} (hsaid : ∀ m, said m <:+: foldText m) {rs : List (List Message)}
    (h : List.Forall₂ OfRun rs turns) :
    InOrder ((rs.flatten.filter notSystem).map said) (turns.flatMap (·.text)) ∧
      InOrder ((rs.flatten.filter notSystem).map said) ((turns.filter notSystem).flatMap (·.text)) := by
  induction h with
  | nil => exact ⟨trivial, trivial⟩
  | @cons run m rs turns hrun _ ih =>
      rw [List.flatten_cons, List.filter_append, List.map_append, hrun.filter_notSystem, List.flatMap_cons,
        List.filter_cons]
      by_cases hm : notSystem m = true
      · rw [if_pos hm, if_pos hm, List.flatMap_cons]
        exact ⟨(hrun.inOrder hsaid).append ih.1, (hrun.inOrder hsaid).append ih.2⟩
      · rw [if_neg hm, if_neg hm]
        exact ⟨ih.1.after _, ih.2⟩

theorem inOrder_text (ms : List Message) : InOrder ((ms.filter notSystem).map (·.text)) (ms.flatMap (·.text)) := by
  induction ms with
  | nil => trivial
  | cons m ms ih =>
      rw [List.filter_cons, List.flatMap_cons]
      by_cases hm : notSystem m = true
      · rw [if_pos hm, List.map_cons]
        exact (InOrder.singleton List.infix_rfl).append ih
      · rw [if_neg hm]
        exact ih.after _

/-- A form of the conversation that says all of it but the system messages, in its order: the messages with the tools
they may call, or the folded turns. -/
structure Carries (messages : List Message) (tools : Option Value) (c : List Message × Option Value) : Prop where
  texts : InOrder ((messages.filter notSystem).map (·.text)) (c.1.flatMap (·.text))
  whole : (c.1.filter notSystem = messages.filter notSystem ∧ c.2 = tools) ∨
    (InOrder ((messages.filter notSystem).map foldText) (c.1.flatMap (·.text)) ∧ c.2 = none)

theorem carries_of_fold (h : foldToolTurns messages = some turns) :
    Carries messages tools (turns, none) ∧ Carries messages tools (turns.filter notSystem, none) := by
  obtain ⟨rs, rfl, hturns, -⟩ := foldToolTurns_runs h
  have htexts := turns_carry text_infix_foldText hturns
  have hfolds := turns_carry (fun m => @List.infix_rfl Char (foldText m)) hturns
  exact ⟨⟨htexts.1, .inr ⟨hfolds.1, rfl⟩⟩, ⟨htexts.2, .inr ⟨hfolds.2, rfl⟩⟩⟩

theorem candidates_carry (hc : c ∈ candidates messages tools) : Carries messages tools c := by
  unfold candidates at hc
  rcases List.mem_cons.1 hc with rfl | hc
  · exact ⟨inOrder_text messages, .inl ⟨rfl, rfl⟩⟩
  rcases List.mem_append.1 hc with hc | hc
  · by_cases hlt : (messages.filter notSystem).length < messages.length
    · rw [if_pos hlt, List.mem_singleton] at hc
      subst hc
      have hself : (messages.filter notSystem).filter notSystem = messages.filter notSystem := by
        rw [List.filter_eq_self]
        exact fun m hm => List.of_mem_filter hm
      refine ⟨?_, .inl ⟨hself, rfl⟩⟩
      have hin := inOrder_text (messages.filter notSystem)
      rwa [hself] at hin
    · rw [if_neg hlt] at hc
      exact absurd hc List.not_mem_nil
  · rcases hfold : foldToolTurns messages with - | turns
    · rw [hfold] at hc
      exact absurd hc List.not_mem_nil
    · rw [hfold] at hc
      have hboth : c ∈ [(turns, (none : Option Value)), (turns.filter notSystem, none)] := hc
      rcases List.mem_cons.1 hboth with rfl | hc
      · exact (carries_of_fold hfold).1
      · rw [List.mem_singleton] at hc
        subst hc
        exact (carries_of_fold hfold).2

section Ids

variable {hash : Text → UInt64} {template : Text}

theorem withNineCharIds_text (m : Message) : (m.withNineCharIds hash).text = m.text := rfl

theorem withNineCharIds_notSystem (m : Message) : notSystem (m.withNineCharIds hash) = notSystem m := rfl

/-- Other ids, and the same texts. -/
theorem texts_messagesForTemplate (messages : List Message) :
    ((messagesForTemplate hash template messages).filter notSystem).map (·.text) =
      (messages.filter notSystem).map (·.text) := by
  unfold messagesForTemplate
  by_cases h : (find "|length != 9".toList template).isSome = true
  · rw [if_pos h, List.filter_map, List.map_map]
    rfl
  · rw [if_neg h]

end Ids

end Carried

section Prompts

variable {E : Type} {serde : Serde} {engine : Text → TemplateContext → Except E Text} {hash : Text → UInt64}
  {tokenizer : Tokenizer} {enableThinking : Bool} {reasoningEffort : Option Text} {template : Text}
  {messages : List Message} {tools : Option Value}

theorem applyChatTemplate_eq (h : tokenizer.chatTemplate = some template) :
    applyChatTemplate serde engine hash tokenizer enableThinking reasoningEffort messages tools =
      match tryRender serde engine tokenizer enableThinking reasoningEffort template
        (messagesForTemplate hash template messages) tools with
      | .ok prompt => .ok prompt
      | .error e => tryAll (tryRender serde engine tokenizer enableThinking reasoningEffort template) e
          (candidates (messagesForTemplate hash template messages) tools).tail := by
  unfold applyChatTemplate
  rw [h]
  dsimp only
  rcases tryRender serde engine tokenizer enableThinking reasoningEffort template
      (messagesForTemplate hash template messages) tools with e | prompt
  · exact retry_eq
  · rfl

/-- The prompt is that of the first form the template takes, and where it takes none the error is that of the whole
conversation; no form loses what a message says, a system one apart. -/
theorem applyChatTemplate_candidates (h : tokenizer.chatTemplate = some template) :
    (∀ prompt, applyChatTemplate serde engine hash tokenizer enableThinking reasoningEffort messages tools = .ok prompt ↔
      FirstRendered (tryRender serde engine tokenizer enableThinking reasoningEffort template)
        (candidates (messagesForTemplate hash template messages) tools) prompt) ∧
    (∀ e, applyChatTemplate serde engine hash tokenizer enableThinking reasoningEffort messages tools = .error e ↔
      tryRender serde engine tokenizer enableThinking reasoningEffort template
          (messagesForTemplate hash template messages) tools = .error e ∧
        ∀ c ∈ candidates (messagesForTemplate hash template messages) tools,
          Refused (tryRender serde engine tokenizer enableThinking reasoningEffort template) c) ∧
    ∀ c ∈ candidates (messagesForTemplate hash template messages) tools,
      Carries (messagesForTemplate hash template messages) tools c ∧
        InOrder ((messages.filter notSystem).map (·.text)) (c.1.flatMap (·.text)) := by
  refine ⟨fun prompt => ?_, fun e => ?_, fun c hc => ?_⟩
  · rw [applyChatTemplate_eq h]
    rcases hwhole : tryRender serde engine tokenizer enableThinking reasoningEffort template
        (messagesForTemplate hash template messages) tools with e | p
    · exact tryAll_ok.trans (firstRendered_of_refused ⟨e, hwhole⟩).symm
    · rw [Except.ok.injEq]
      exact (firstRendered_of_ok hwhole).symm
  · rw [applyChatTemplate_eq h]
    rcases hwhole : tryRender serde engine tokenizer enableThinking reasoningEffort template
        (messagesForTemplate hash template messages) tools with e' | p
    · have hall : (∀ c ∈ candidates (messagesForTemplate hash template messages) tools,
          Refused (tryRender serde engine tokenizer enableThinking reasoningEffort template) c) ↔
            ∀ c ∈ (candidates (messagesForTemplate hash template messages) tools).tail,
              Refused (tryRender serde engine tokenizer enableThinking reasoningEffort template) c :=
        List.forall_mem_cons.trans (and_iff_right ⟨e', hwhole⟩)
      rw [hall, Except.error.injEq]
      exact tryAll_error
    · exact ⟨fun h => (nomatch h), fun h => (nomatch h.1)⟩
  · have hcarry := candidates_carry hc
    refine ⟨hcarry, ?_⟩
    have htexts := hcarry.texts
    rwa [texts_messagesForTemplate] at htexts

/-- A template that takes no turns of a tool. -/
def noToolTurns (_ : Text) (ctx : TemplateContext) : Except Unit Text :=
  if ctx.messages.any fun m => m.role == "tool".toList then .error () else .ok (ctx.messages.flatMap (·.content))

def readNothing : Serde := ⟨fun _ => none, fun _ => [], fun _ => none⟩

/-- The round trip is taken once it is folded. -/
theorem applyChatTemplate_candidates_round_trip :
    ∃ c ∈ candidates roundTrip none, c.2 = none ∧
      applyChatTemplate readNothing noToolTurns (fun _ => 0) ⟨some [], fun _ => none, none, none⟩ false none
        roundTrip none = .ok (c.1.flatMap (·.text)) ∧
      InOrder ((roundTrip.filter notSystem).map (·.text)) (c.1.flatMap (·.text)) := by
  have hall := @applyChatTemplate_candidates Unit readNothing noToolTurns (fun _ => 0)
    ⟨some [], fun _ => none, none, none⟩ false none [] roundTrip none rfl
  obtain ⟨turns, hturns⟩ : ∃ turns, foldToolTurns roundTrip = some turns := ⟨_, rfl⟩
  have hmem : (turns, none) ∈ candidates roundTrip none := by
    unfold candidates
    rw [hturns]
    exact List.mem_cons_of_mem _ (List.mem_append_right _ List.mem_cons_self)
  refine ⟨(turns, none), hmem, rfl, ?_, (hall.2.2 _ hmem).2⟩
  obtain rfl := Option.some.inj hturns
  rfl

end Prompts

end Oxydllm.Serve.Template
