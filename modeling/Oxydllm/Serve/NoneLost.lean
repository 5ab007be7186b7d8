/-
# Oxydllm.Serve.NoneLost — which messages a prompt keeps the texts of.

A formatter writes of an answer its calls or its content, and of any other message only the content (`Shown`). Without a
token of its own a system prompt waits for the next instruction: one that comes before it overwrites it, an answer with
a text gets in front of it, and at the end it is lost (`Answered`). Where none of it happens all texts are there in
order (`mistral_inOrder`).
-/
import Oxydllm.Lib.InOrder
import Oxydllm.Serve.Formatters

namespace Oxydllm.Serve.Formatters

open ToolCalls (trim)

/-! ## The texts of a message -/

/-- The content of a message, and its calls where it has some. -/
def texts (m : ChatMessage) : List Text := trim m.text :: (m.toolCalls.map toJson).toList

theorem trim_occurs (s : Text) : trim s <:+: s :=
  (List.rdropWhile_prefix _ _).isInfix.trans (List.dropWhile_suffix _).isInfix

theorem trim_run (n : Nat) : trim (List.replicate n 'z') = List.replicate n 'z' := by
  cases n with
  | zero => rfl
  | succ n =>
      have hstart : ToolCalls.trimStart (List.replicate (n + 1) 'z') = List.replicate (n + 1) 'z' := by
        rw [ToolCalls.trimStart, List.replicate_succ, List.dropWhile_cons_of_neg (by decide)]
      rw [trim, hstart, List.replicate_succ', List.rdropWhile_concat_neg _ _ _ (by decide)]

theorem texts_of_none {m : ChatMessage} (h : m.toolCalls = none) : texts m = [trim m.text] := by
  rw [texts, h]
  rfl

theorem texts_of_some {m : ChatMessage} {calls : List ToolCall} (h : m.toolCalls = some calls) :
    texts m = [trim m.text, toJson calls] := by
  rw [texts, h]
  rfl

/-- What a formatter writes of the message is all of it. -/
def Shown (m : ChatMessage) : Prop :=
  (m.kind = .assistant ∧ (m.toolCalls.isSome = true → trim m.text = [])) ∨ (m.kind ≠ .assistant ∧ m.toolCalls = none)

theorem Shown.none_of_ne {m : ChatMessage} (h : Shown m) (hkind : m.kind ≠ .assistant) : m.toolCalls = none :=
  h.elim (fun ha => absurd ha.1 hkind) fun ho => ho.2

theorem Shown.blank {m : ChatMessage} (h : Shown m) {calls : List ToolCall} (hcalls : m.toolCalls = some calls) :
    trim m.text = [] := by
  rcases h with ⟨-, hblank⟩ | ⟨-, hnone⟩
  · exact hblank (by rw [hcalls]; rfl)
  · exact absurd (hcalls.symm.trans hnone) (Option.some_ne_none _)

/-! ## Plain names and turns -/

section Kept

variable {m : ChatMessage} {messages : List ChatMessage}

theorem texts_inOrder_none {out : Text} (hnone : m.toolCalls = none) (h : trim m.text <:+: out) :
    InOrder (texts m) out := by
  rw [texts_of_none hnone]
  exact .singleton h

theorem texts_inOrder_some {out : Text} {calls : List ToolCall} (hshown : Shown m) (hcalls : m.toolCalls = some calls)
    (h : toJson calls <:+: out) : InOrder (texts m) out := by
  rw [texts_of_some hcalls, hshown.blank hcalls]
  exact .nil_cons (.singleton h)

theorem plainTurn_inOrder (h : Shown m) : InOrder (texts m) (plainTurn m) := by
  have htext : ∀ before after : Text, trim m.text <:+: before ++ m.text ++ after :=
    fun before after => (trim_occurs m.text).trans (List.infix_append ..)
  rw [plainTurn]
  cases hkind : m.kind with
  | assistant =>
      cases hcalls : m.toolCalls with
      | some calls => exact texts_inOrder_some h hcalls (List.infix_append ..)
      | none => exact texts_inOrder_none hcalls (htext ..)
  | system | developer | tool | other => exact texts_inOrder_none (h.none_of_ne (by rw [hkind]; decide)) (htext ..)

theorem plain_inOrder (h : ∀ m ∈ messages, Shown m) : InOrder (messages.flatMap texts) (formatPlainChat messages) :=
  (InOrder.flatMap fun m hm => plainTurn_inOrder (h m hm)).then_any _

theorem turnBody_inOrder (h : Shown m) : InOrder (texts m) (turnBody m) := by
  rw [turnBody]
  cases hkind : m.kind with
  | assistant =>
      cases hcalls : m.toolCalls with
      | some calls => exact texts_inOrder_some h hcalls List.infix_rfl
      | none => exact texts_inOrder_none hcalls List.infix_rfl
  | system | developer | other => exact texts_inOrder_none (h.none_of_ne (by rw [hkind]; decide)) List.infix_rfl
  | tool =>
      exact texts_inOrder_none (h.none_of_ne (by rw [hkind]; decide))
        ((trim_occurs m.text).trans (List.suffix_append _ _).isInfix)

theorem turn_inOrder (o : TurnOptions) (h : Shown m) : InOrder (texts m) (turn o m) :=
  (((turnBody_inOrder h).after _).then_any _).then_any _

theorem not_assistant_of_opens (h : opensSystem m = true) : m.kind ≠ .assistant := by
  intro hkind
  rw [opensSystem, hkind] at h
  exact absurd h (by decide)

theorem turnChat_inOrder (o : TurnOptions) (h : ∀ m ∈ messages, Shown m) :
    InOrder (messages.flatMap texts) (formatTurnChat messages o) := by
  cases messages with
  | nil => trivial
  | cons m messages =>
      have hrest := InOrder.flatMap fun m hm => turn_inOrder o (h m (List.mem_cons_of_mem _ hm))
      rw [formatTurnChat, List.flatMap_cons]
      cases hopens : opensSystem m with
      | true =>
          -- the first message is in the turn in front
          have hfirst : (m :: messages).head?.filter opensSystem = some m := Option.filter_eq_some_iff.2 ⟨rfl, hopens⟩
          have hnone := (h m List.mem_cons_self).none_of_ne (not_assistant_of_opens hopens)
          have hsystem : InOrder (texts m) (systemTurn o (some m)) := by
            rw [systemTurn, if_pos (by rw [Option.isSome_some, Bool.or_true])]
            refine texts_inOrder_none hnone ?_
            simp only [List.append_assoc]
            exact ((List.prefix_append _ _).isInfix.trans (List.suffix_append _ _).isInfix).trans
              ((List.suffix_append _ _).isInfix.trans (List.suffix_append _ _).isInfix)
          simp only [hfirst]
          exact ((hsystem.after _).append hrest).then_any _
      | false =>
          have hfirst : (m :: messages).head?.filter opensSystem = none := by
            rw [List.head?_cons, Option.filter_some, if_neg (by rw [hopens]; exact Bool.false_ne_true)]
          simp only [hfirst]
          exact ((((turn_inOrder o (h m List.mem_cons_self)).append hrest).after _).then_any _)

end Kept

/-! ## Instructions -/

/-- An answer, or the result of a tool. -/
def IsAside (m : ChatMessage) : Prop := m.kind = .assistant ∨ m.kind = .tool

/-- A system prompt, or one of the developer. -/
def IsSystem (m : ChatMessage) : Prop := m.kind = .system ∨ m.kind = .developer

instance (m : ChatMessage) : Decidable (IsAside m) := inferInstanceAs (Decidable (_ ∨ _))

instance (m : ChatMessage) : Decidable (IsSystem m) := inferInstanceAs (Decidable (_ ∨ _))

/-- Nothing to show. -/
def Blank (m : ChatMessage) : Prop := trim m.text = [] ∧ m.toolCalls = none

/-- An instruction comes next, with at most blank answers and results before it. -/
def Answered (messages : List ChatMessage) : Prop :=
  ∃ asides u rest, messages = asides ++ u :: rest ∧ (∀ m ∈ asides, IsAside m ∧ Blank m) ∧ u.kind = .other

/-- Every system prompt that is not blank is answered. -/
def SystemsAnswered (messages : List ChatMessage) : Prop :=
  ∀ front m back, messages = front ++ m :: back → IsSystem m → trim m.text ≠ [] → Answered back

section Instructions

variable {m : ChatMessage} {messages : List ChatMessage} {eosToken bosToken : Option Text}
  {hasSystemPromptToken : Bool}

theorem Answered.of_cons (h : Answered (m :: messages)) :
    m.kind = .other ∨ (IsAside m ∧ Blank m ∧ Answered messages) := by
  obtain ⟨asides, u, rest, heq, hasides, hu⟩ := h
  cases asides with
  | nil =>
      obtain ⟨rfl, -⟩ := List.cons.inj heq
      exact .inl hu
  | cons a asides =>
      obtain ⟨rfl, rfl⟩ := List.cons.inj heq
      obtain ⟨haside, hblank⟩ := hasides m List.mem_cons_self
      exact .inr ⟨haside, hblank, asides, u, rest, rfl, fun a ha => hasides a (List.mem_cons_of_mem _ ha), hu⟩

theorem Answered.of_other (h : m.kind = .other) : Answered (m :: messages) :=
  ⟨[], m, messages, rfl, fun _ ha => absurd ha List.not_mem_nil, h⟩

theorem Answered.of_blank (haside : IsAside m) (hblank : Blank m) (h : Answered messages) : Answered (m :: messages) := by
  obtain ⟨asides, u, rest, rfl, hasides, hu⟩ := h
  exact ⟨m :: asides, u, rest, rfl, List.forall_mem_cons.2 ⟨⟨haside, hblank⟩, hasides⟩, hu⟩

theorem not_answered_nil : ¬ Answered [] := by
  rintro ⟨asides, u, rest, heq, -⟩
  exact absurd heq.symm (List.append_ne_nil_of_right_ne_nil _ (List.cons_ne_nil _ _))

theorem SystemsAnswered.tail (h : SystemsAnswered (m :: messages)) : SystemsAnswered messages :=
  fun front s back heq => h (m :: front) s back (congrArg (m :: ·) heq)

theorem SystemsAnswered.cons (hm : IsSystem m → trim m.text ≠ [] → Answered messages)
    (hrest : SystemsAnswered messages) : SystemsAnswered (m :: messages) := by
  intro front s back heq
  cases front with
  | nil =>
      obtain ⟨rfl, rfl⟩ := List.cons.inj heq
      exact hm
  | cons a front => exact hrest front s back (List.cons.inj heq).2

theorem aside_inOrder (haside : IsAside m) (h : Shown m) : InOrder (texts m) (aside eosToken m) := by
  rw [aside]
  rcases haside with hkind | hkind
  · rw [hkind]
    cases hcalls : m.toolCalls with
    | some calls =>
        exact (texts_inOrder_some h hcalls (List.suffix_append _ _).isInfix).then_any _
    | none => exact (texts_inOrder_none hcalls (List.suffix_cons _ _).isInfix).then_any _
  · rw [hkind]
    exact texts_inOrder_none (h.none_of_ne (by rw [hkind]; decide)) (List.infix_append ..)

theorem instFrom_aside (haside : IsAside m) (pending : Option Text) :
    instFrom eosToken hasSystemPromptToken pending (m :: messages) =
      aside eosToken m ++ instFrom eosToken hasSystemPromptToken pending messages := by
  rw [instFrom]
  rcases haside with hkind | hkind
  · rw [hkind]
  · rw [hkind]

theorem instFrom_system (hsystem : IsSystem m) (pending : Option Text) :
    instFrom eosToken hasSystemPromptToken pending (m :: messages) =
      if hasSystemPromptToken then "[SYSTEM_PROMPT] ".toList ++ trim m.text ++ "[/SYSTEM_PROMPT]".toList ++
        instFrom eosToken hasSystemPromptToken pending messages
      else instFrom eosToken hasSystemPromptToken (some (trim m.text)) messages := by
  rw [instFrom]
  rcases hsystem with hkind | hkind
  · rw [hkind]
  · rw [hkind]

theorem instFrom_other (hother : m.kind = .other) (pending : Option Text) :
    instFrom eosToken hasSystemPromptToken pending (m :: messages) =
      "[INST] ".toList ++ (pending.map (· ++ ['\n', '\n'])).getD [] ++ trim m.text ++ "[/INST]".toList ++
        instFrom eosToken hasSystemPromptToken none messages := by
  rw [instFrom, hother]

theorem kind_cases (m : ChatMessage) : IsSystem m ∨ IsAside m ∨ m.kind = .other := by
  rw [IsSystem, IsAside]
  cases m.kind with
  | system => exact .inl (.inl rfl)
  | developer => exact .inl (.inr rfl)
  | assistant => exact .inr (.inl (.inl rfl))
  | tool => exact .inr (.inl (.inr rfl))
  | other => exact .inr (.inr rfl)

theorem not_answered_of_system (hsystem : IsSystem m) : ¬ Answered (m :: messages) := by
  intro h
  rcases h.of_cons with hother | ⟨haside, -⟩
  · rcases hsystem with hkind | hkind <;> rw [hkind] at hother <;> cases hother
  · rcases hsystem with hkind | hkind <;> rcases haside with hkind' | hkind' <;> rw [hkind] at hkind' <;> cases hkind'

theorem Answered.behind_aside (haside : IsAside m) (h : Answered (m :: messages)) : Blank m ∧ Answered messages := by
  rcases h.of_cons with hother | ⟨-, hblank⟩
  · rcases haside with hkind | hkind <;> rw [hkind] at hother <;> cases hother
  · exact hblank

theorem IsSystem.none_of_shown (hsystem : IsSystem m) (h : Shown m) : m.toolCalls = none :=
  h.none_of_ne (by rcases hsystem with hkind | hkind <;> rw [hkind] <;> decide)

/-- An instruction with the system prompt that waits for it. -/
theorem instruction_inOrder (hother : m.kind = .other) (h : Shown m) (pending : Option Text) :
    InOrder (pending.getD [] :: texts m)
      ("[INST] ".toList ++ (pending.map (· ++ ['\n', '\n'])).getD [] ++ trim m.text ++ "[/INST]".toList) := by
  have hprompt : InOrder [pending.getD []] ("[INST] ".toList ++ (pending.map (· ++ ['\n', '\n'])).getD []) := by
    cases pending with
    | none => exact .nil_cons trivial
    | some p => exact .after (.singleton (List.prefix_append _ _).isInfix) _
  have hcontent : InOrder [trim m.text] (trim m.text) := .singleton List.infix_rfl
  rw [texts_of_none (h.none_of_ne (by rw [hother]; decide))]
  exact (hprompt.append hcontent).then_any _

/-- The waiting system prompt and all texts behind it. -/
theorem inst_inOrder (hshown : ∀ m ∈ messages, Shown m)
    (hsystems : hasSystemPromptToken = false → SystemsAnswered messages) (pending : Option Text)
    (hpending : pending.getD [] = [] ∨ Answered messages) :
    InOrder (pending.getD [] :: messages.flatMap texts) (instFrom eosToken hasSystemPromptToken pending messages) := by
  induction messages generalizing pending with
  | nil =>
      rw [hpending.resolve_right not_answered_nil]
      exact .nil_cons trivial
  | cons m messages ih =>
      obtain ⟨hm, hrest⟩ := List.forall_mem_cons.1 hshown
      have hbehind := ih hrest fun htoken => (hsystems htoken).tail
      rw [List.flatMap_cons]
      rcases kind_cases m with hsystem | haside | hother
      · have hblank := hpending.resolve_right (not_answered_of_system hsystem)
        have hnone := hsystem.none_of_shown hm
        rw [instFrom_system hsystem, hblank]
        cases htoken : hasSystemPromptToken with
        | true =>
            rw [if_pos rfl]
            have hchunk : InOrder (texts m) ("[SYSTEM_PROMPT] ".toList ++ trim m.text ++ "[/SYSTEM_PROMPT]".toList) :=
              texts_inOrder_none hnone (List.infix_append ..)
            rw [htoken] at hbehind
            exact .nil_cons (hchunk.append (hbehind pending (.inl hblank)).tail)
        | false =>
            rw [if_neg Bool.false_ne_true, texts_of_none hnone]
            rw [htoken] at hbehind hsystems
            refine .nil_cons (hbehind (some (trim m.text)) ?_)
            rcases eq_or_ne (trim m.text) [] with hempty | hne
            · exact .inl hempty
            · exact .inr (hsystems rfl [] m messages rfl hsystem hne)
      · rw [instFrom_aside haside]
        rcases hpending with hblank | hanswered
        · rw [hblank]
          exact .nil_cons ((aside_inOrder haside hm).append (hbehind pending (.inl hblank)).tail)
        · -- the prompt goes on waiting behind a blank message
          obtain ⟨⟨hempty, hnone⟩, hanswered⟩ := hanswered.behind_aside haside
          rw [texts_of_none hnone, hempty]
          exact ((hbehind pending (.inr hanswered)).cons_nil_cons).after _
      · rw [instFrom_other hother, ← List.cons_append]
        exact (instruction_inOrder hother hm pending).append (hbehind none (.inl rfl)).tail

theorem mistral_inOrder (hshown : ∀ m ∈ messages, Shown m)
    (hsystems : hasSystemPromptToken = false → SystemsAnswered messages) :
    InOrder (messages.flatMap texts) (formatMistralInstChat eosToken hasSystemPromptToken bosToken messages) :=
  (inst_inOrder hshown hsystems none (.inl rfl)).tail.after _

end Instructions

end Oxydllm.Serve.Formatters
