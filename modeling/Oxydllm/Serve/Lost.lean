/-
# Oxydllm.Serve.Lost — the prompts that lose a text.

Messages are alike when they differ in what their texts say only. A text that no formatter reads can be made longer
than the prompt is (`shown_of_kept`). A system prompt that no instruction answers is dropped, or has a text in front of
it that comes after it in the messages (`Behind`); that text can be made longer than all behind the prompt, and the
prompt longer than all in front of it. So exactly the makes of messages that keep all texts are the ones of
`Serve.NoneLost` (`formatters_keep_iff`).
-/
import Oxydllm.Serve.NoneLost

namespace Oxydllm.Serve.Formatters

open ToolCalls (trim)

/-! ## Messages that are alike -/

/-- The two differ in what the content says, where it says something, and in what the calls are, where there are some. -/
structure Alike (m m' : ChatMessage) : Prop where
  role : m'.role = m.role
  callId : m'.toolCallId = m.toolCallId
  blank : trim m'.text = [] ↔ trim m.text = []
  calls : m'.toolCalls.isSome = m.toolCalls.isSome

section Alike

variable {m m' : ChatMessage} {messages messages' : List ChatMessage}

theorem Alike.rfl : Alike m m := ⟨Eq.refl _, Eq.refl _, Iff.rfl, Eq.refl _⟩

theorem Alike.kind (h : Alike m m') : m'.kind = m.kind := congrArg kindOf h.role

theorem Alike.none_iff (h : Alike m m') : m'.toolCalls = none ↔ m.toolCalls = none := by
  rw [← Option.not_isSome_iff_eq_none, ← Option.not_isSome_iff_eq_none, h.calls]

theorem Alike.shown (h : Alike m m') (hm : Shown m) : Shown m' := by
  rw [Shown, h.kind, h.calls, h.blank, h.none_iff]
  exact hm

theorem Alike.isAside (h : Alike m m') (hm : IsAside m) : IsAside m' := by
  rw [IsAside, h.kind]
  exact hm

theorem Alike.isSystem (h : Alike m m') (hm : IsSystem m') : IsSystem m := by
  rw [IsSystem, h.kind] at hm
  exact hm

theorem Alike.isBlank (h : Alike m m') (hm : Blank m) : Blank m' := ⟨h.blank.2 hm.1, h.none_iff.2 hm.2⟩

theorem shown_of_alike (h : List.Forall₂ Alike messages messages') (hshown : ∀ m ∈ messages, Shown m) :
    ∀ m ∈ messages', Shown m := by
  induction h with
  | nil => exact hshown
  | cons hm _ ih =>
      rw [List.forall_mem_cons] at hshown ⊢
      exact ⟨hm.shown hshown.1, ih hshown.2⟩

theorem answered_of_alike (h : List.Forall₂ Alike messages messages') (hanswered : Answered messages) :
    Answered messages' := by
  induction h with
  | nil => exact hanswered
  | cons hm _ ih =>
      rcases hanswered.of_cons with hother | ⟨haside, hblank, hanswered⟩
      · exact .of_other (hm.kind.trans hother)
      · exact .of_blank (hm.isAside haside) (hm.isBlank hblank) (ih hanswered)

theorem systemsAnswered_of_alike (h : List.Forall₂ Alike messages messages') (hsystems : SystemsAnswered messages) :
    SystemsAnswered messages' := by
  induction h with
  | nil => exact hsystems
  | cons hm hrest ih =>
      refine .cons (fun hsystem hne => answered_of_alike hrest ?_) (ih hsystems.tail)
      exact hsystems [] _ _ rfl (hm.isSystem hsystem) fun hempty => hne (hm.blank.2 hempty)

/-- One message in another's place. -/
theorem alike_at (h : Alike m m') (front : List ChatMessage) (hrest : List.Forall₂ Alike messages messages') :
    List.Forall₂ Alike (front ++ m :: messages) (front ++ m' :: messages') := by
  induction front with
  | nil => exact .cons h hrest
  | cons a front ih => exact .cons .rfl ih

theorem alike_rfl : List.Forall₂ Alike messages messages := List.forall₂_same.2 fun _ _ => .rfl

end Alike

/-! ## Long texts -/

def withText (m : ChatMessage) (n : Nat) : ChatMessage := { m with content := some (List.replicate n 'z') }

def withArguments (m : ChatMessage) (n : Nat) : ChatMessage :=
  { m with toolCalls := some [⟨[], [], [], List.replicate n 'z'⟩] }

section Long

variable {m : ChatMessage} {n : Nat}

theorem trim_withText : trim (withText m n).text = List.replicate n 'z' := trim_run n

theorem withText_alike (hne : trim m.text ≠ []) : Alike m (withText m (n + 1)) where
  role := rfl
  callId := rfl
  blank := by
    rw [trim_withText]
    exact ⟨fun h => absurd h (List.cons_ne_nil _ _), fun h => absurd h hne⟩
  calls := rfl

theorem withArguments_alike (hcalls : m.toolCalls ≠ none) : Alike m (withArguments m n) where
  role := rfl
  callId := rfl
  blank := Iff.rfl
  calls := (Option.isSome_iff_ne_none.2 hcalls).symm

theorem withText_long : ∃ q ∈ texts (withText m (n + 1)), n < q.length :=
  ⟨_, List.mem_cons_self, by rw [trim_withText, List.length_replicate]; exact Nat.lt_succ_self n⟩

theorem escape_run (n : Nat) : (List.replicate n 'z').flatMap escapeChar = List.replicate n 'z' := by
  induction n with
  | zero => rfl
  | succ n ih =>
      rw [List.replicate_succ, List.flatMap_cons, ih]
      rfl

theorem arguments_occur (c : ToolCall) : jsonString c.arguments <:+: toJson [c] := by
  have hone : toJson [c] = '[' :: (c.toJson ++ [']']) := by
    rw [toJson, List.map_singleton, List.intercalate_singleton]
  have hcall : jsonString c.arguments <:+: c.toJson := List.infix_append ..
  rw [hone]
  exact (hcall.trans (List.prefix_append _ _).isInfix).trans (List.suffix_cons _ _).isInfix

theorem withArguments_long : ∃ q ∈ texts (withArguments m n), n < q.length := by
  refine ⟨toJson [⟨[], [], [], List.replicate n 'z'⟩], List.mem_cons_of_mem _ List.mem_cons_self, ?_⟩
  have harguments : (jsonString (List.replicate n 'z')).length = n + 2 := by
    rw [jsonString, escape_run, List.length_cons, List.length_append, List.length_replicate]
    rfl
  have hcall := (arguments_occur ⟨[], [], [], List.replicate n 'z'⟩).length_le
  rw [harguments] at hcall
  exact Nat.lt_of_lt_of_le (by omega) hcall

/-- A message with something to say can say as much as one likes. -/
theorem alike_long (h : ¬ Blank m) (n : Nat) : ∃ m', Alike m m' ∧ ∃ q ∈ texts m', n < q.length := by
  by_cases hempty : trim m.text = []
  · exact ⟨withArguments m n, withArguments_alike fun hnone => h ⟨hempty, hnone⟩, withArguments_long⟩
  · exact ⟨withText m (n + 1), withText_alike hempty, withText_long⟩

end Long
/-! ## What is not read -/

/-- What is read of a message: of an answer with calls not the content, of all others not the calls. -/
def readOf (m : ChatMessage) : ChatMessage :=
  if m.kind ≠ .assistant then { m with toolCalls := none }
  else if m.toolCalls = none then m
  else { m with content := none }

section Read

variable {m m' : ChatMessage} {messages : List ChatMessage}

theorem readOf_of_ne (h : m.kind ≠ .assistant) : readOf m = { m with toolCalls := none } := if_pos h

theorem readOf_answer (h : m.kind = .assistant) (hnone : m.toolCalls = none) : readOf m = m := by
  rw [readOf, if_neg (not_not.2 h), if_pos hnone]

theorem readOf_calls (h : m.kind = .assistant) {calls : List ToolCall} (hcalls : m.toolCalls = some calls) :
    readOf m = { m with content := none } := by
  rw [readOf, if_neg (not_not.2 h), if_neg (by rw [hcalls]; exact Option.some_ne_none _)]

theorem readOf_role : (readOf m).role = m.role := by
  rw [readOf]
  split_ifs <;> rfl

theorem readOf_kind : (readOf m).kind = m.kind := congrArg kindOf readOf_role

theorem readOf_callId : (readOf m).callId = m.callId := by
  rw [readOf]
  split_ifs <;> rfl

theorem readOf_text (h : m.kind ≠ .assistant) : (readOf m).text = m.text := by
  rw [readOf_of_ne h]
  rfl

/-- For an answer the calls, and the content where there are none. -/
theorem readOf_assistant (h : m.kind = .assistant) :
    (readOf m).toolCalls = m.toolCalls ∧ (m.toolCalls = none → (readOf m).text = m.text) := by
  cases hcalls : m.toolCalls with
  | none => rw [readOf_answer h hcalls]; exact ⟨hcalls, fun _ => rfl⟩
  | some calls => rw [readOf_calls h hcalls]; exact ⟨hcalls, fun hnone => absurd hnone (Option.some_ne_none _)⟩

/-- Of a message that is not shown whole, an alike one is read the same that says more. -/
theorem unread_long (h : ¬ Shown m) (n : Nat) :
    ∃ m', Alike m m' ∧ readOf m' = readOf m ∧ ∃ q ∈ texts m', n < q.length := by
  rw [Shown, not_or, not_and, not_and] at h
  by_cases hkind : m.kind = .assistant
  · obtain ⟨hcalls, hne⟩ := Classical.not_imp.1 (h.1 hkind)
    obtain ⟨calls, hcalls⟩ := Option.isSome_iff_exists.1 hcalls
    refine ⟨withText m (n + 1), withText_alike hne, ?_, withText_long⟩
    rw [readOf_calls hkind hcalls, readOf_calls (m := withText m (n + 1)) hkind hcalls]
    rfl
  · refine ⟨withArguments m n, withArguments_alike (h.2 hkind), ?_, withArguments_long⟩
    rw [readOf_of_ne hkind, readOf_of_ne (m := withArguments m n) hkind]
    rfl

/-- A formatter that keeps all texts reads all of them. -/
theorem shown_of_kept {format : List ChatMessage → Text} (hreads : ∀ ms, format (ms.map readOf) = format ms)
    (hkept : ∀ ms, List.Forall₂ Alike messages ms → InOrder (ms.flatMap texts) (format ms)) :
    ∀ m ∈ messages, Shown m := by
  intro m hm
  by_contra hnot
  obtain ⟨front, back, rfl⟩ := List.append_of_mem hm
  obtain ⟨m', halike, hread, q, hq, hlong⟩ := unread_long hnot (format (front ++ m :: back)).length
  have hsame : format (front ++ m' :: back) = format (front ++ m :: back) := by
    rw [← hreads, ← hreads (front ++ m :: back), List.map_append, List.map_append, List.map_cons, List.map_cons, hread]
  rw [← hsame] at hlong
  have hmem : q ∈ (front ++ m' :: back).flatMap texts :=
    List.mem_flatMap.2 ⟨m', List.mem_append_right _ List.mem_cons_self, hq⟩
  exact InOrder.not_of_longer hmem hlong (hkept _ (alike_at halike front alike_rfl))

/-! ## The formatters read no more -/

theorem plainTurn_read : plainTurn (readOf m) = plainTurn m := by
  rw [plainTurn, plainTurn, readOf_kind]
  cases hkind : m.kind with
  | assistant =>
      obtain ⟨hcalls, htext⟩ := readOf_assistant hkind
      rw [hcalls]
      cases hnone : m.toolCalls with
      | none => simp only [htext hnone]
      | some calls => rfl
  | tool => simp only [readOf_text (m := m) (by rw [hkind]; decide), readOf_callId]
  | system | developer | other => simp only [readOf_text (m := m) (by rw [hkind]; decide)]

theorem plain_read : formatPlainChat (messages.map readOf) = formatPlainChat messages := by
  simp only [formatPlainChat, List.flatMap_map, plainTurn_read]

theorem turn_read (o : TurnOptions) : turn o (readOf m) = turn o m := by
  rw [turn, turn, turnRole, turnRole, turnBody, turnBody, readOf_kind, readOf_role]
  cases hkind : m.kind with
  | assistant =>
      obtain ⟨hcalls, htext⟩ := readOf_assistant hkind
      rw [hcalls]
      cases hnone : m.toolCalls with
      | none => simp only [htext hnone]
      | some calls => rfl
  | tool => simp only [readOf_text (m := m) (by rw [hkind]; decide), readOf_callId]
  | system | developer | other => simp only [readOf_text (m := m) (by rw [hkind]; decide)]

theorem opensSystem_read : opensSystem (readOf m) = opensSystem m := by
  rw [opensSystem, opensSystem, readOf_kind]

theorem turnChat_read (o : TurnOptions) : formatTurnChat (messages.map readOf) o = formatTurnChat messages o := by
  cases messages with
  | nil => rfl
  | cons m messages =>
      simp only [formatTurnChat, List.map_cons, List.head?_cons, Option.filter_some, opensSystem_read]
      by_cases hopens : opensSystem m = true
      · have htext := readOf_text (not_assistant_of_opens hopens)
        simp only [if_pos hopens, systemTurn, Option.isSome_some, Option.map_some, htext, if_true, List.drop_succ_cons,
          List.drop_zero, List.flatMap_map, turn_read]
      · simp only [if_neg hopens, List.drop_zero, Option.isSome_none, Bool.false_eq_true, if_false, List.flatMap_cons,
          List.flatMap_map, turn_read]

theorem aside_read (eosToken : Option Text) : aside eosToken (readOf m) = aside eosToken m := by
  rw [aside, aside, readOf_kind]
  cases hkind : m.kind with
  | assistant =>
      obtain ⟨hcalls, htext⟩ := readOf_assistant hkind
      rw [hcalls]
      cases hnone : m.toolCalls with
      | none => simp only [htext hnone]
      | some calls => rfl
  | system | developer | tool | other => simp only [readOf_text (m := m) (by rw [hkind]; decide)]

theorem instFrom_read (eosToken : Option Text) (hasSystemPromptToken : Bool) (pending : Option Text) :
    instFrom eosToken hasSystemPromptToken pending (messages.map readOf) =
      instFrom eosToken hasSystemPromptToken pending messages := by
  induction messages generalizing pending with
  | nil => rfl
  | cons m messages ih =>
      rw [List.map_cons]
      rcases kind_cases m with hsystem | haside | hother
      · have htext := readOf_text (m := m) (by rcases hsystem with hkind | hkind <;> rw [hkind] <;> decide)
        have hread : IsSystem (readOf m) := by rwa [IsSystem, readOf_kind]
        rw [instFrom_system hread, instFrom_system hsystem, htext, ih, ih]
      · have hread : IsAside (readOf m) := by rwa [IsAside, readOf_kind]
        rw [instFrom_aside hread, instFrom_aside haside, aside_read, ih]
      · rw [instFrom_other (readOf_kind.trans hother), instFrom_other hother,
          readOf_text (m := m) (by rw [hother]; decide), ih]

end Read

/-! ## A prompt that waits -/

section Waits

variable {messages : List ChatMessage} {eosToken bosToken : Option Text}

/-- The messages in front decide what waits. -/
theorem instFrom_front (eosToken : Option Text) (hasSystemPromptToken : Bool) (front : List ChatMessage) (pending : Option Text) :
    ∃ before pending', ∀ tail, instFrom eosToken hasSystemPromptToken pending (front ++ tail) =
      before ++ instFrom eosToken hasSystemPromptToken pending' tail := by
  induction front generalizing pending with
  | nil => exact ⟨[], pending, fun _ => rfl⟩
  | cons m front ih =>
      rcases kind_cases m with hsystem | haside | hother
      · cases htoken : hasSystemPromptToken with
        | true =>
            rw [htoken] at ih
            obtain ⟨before, pending', htail⟩ := ih pending
            refine ⟨"[SYSTEM_PROMPT] ".toList ++ trim m.text ++ "[/SYSTEM_PROMPT]".toList ++ before, pending', ?_⟩
            intro tail
            rw [List.cons_append, instFrom_system hsystem, if_pos rfl, htail, List.append_assoc _ before]
        | false =>
            rw [htoken] at ih
            obtain ⟨before, pending', htail⟩ := ih (some (trim m.text))
            refine ⟨before, pending', fun tail => ?_⟩
            rw [List.cons_append, instFrom_system hsystem, if_neg Bool.false_ne_true, htail]
      · obtain ⟨before, pending', htail⟩ := ih pending
        refine ⟨aside eosToken m ++ before, pending', fun tail => ?_⟩
        rw [List.cons_append, instFrom_aside haside, htail, List.append_assoc]
      · obtain ⟨before, pending', htail⟩ := ih none
        refine ⟨"[INST] ".toList ++ (pending.map (· ++ ['\n', '\n'])).getD [] ++ trim m.text ++ "[/INST]".toList ++ before,
          pending', fun tail => ?_⟩
        rw [List.cons_append, instFrom_other hother, htail, List.append_assoc _ before]

/-- An answered prompt is behind a blank. -/
theorem Answered.written (eosToken : Option Text) (h : Answered messages) :
    ∃ before behind, ∀ p, instFrom eosToken false (some p) messages = before ++ ' ' :: (p ++ behind) := by
  induction messages with
  | nil => exact absurd h not_answered_nil
  | cons m messages ih =>
      rcases h.of_cons with hother | ⟨haside, -, hanswered⟩
      · refine ⟨"[INST]".toList, ['\n', '\n'] ++ trim m.text ++ "[/INST]".toList ++ instFrom eosToken false none messages,
          fun p => ?_⟩
        rw [instFrom_other hother, Option.map_some, Option.getD_some]
        simp only [List.append_assoc]
        rfl
      · obtain ⟨before, behind, hp⟩ := ih hanswered
        refine ⟨aside eosToken m ++ before, behind, fun p => ?_⟩
        rw [instFrom_aside haside, hp, List.append_assoc]

/-- Between the prompt and the instruction that answers it stands the message `b`, which is not blank. -/
def Behind (eosToken : Option Text) (messages : List ChatMessage) : Prop :=
  ∃ mid b rest, messages = mid ++ b :: rest ∧ ¬ Blank b ∧
    ∃ behind, ∀ b', Alike b b' → ∃ before, ∀ p,
      instFrom eosToken false (some p) (mid ++ b' :: rest) = before ++ ' ' :: (p ++ behind)

theorem Behind.cons {a : ChatMessage} (haside : IsAside a) (h : Behind eosToken messages) :
    Behind eosToken (a :: messages) := by
  obtain ⟨mid, b, rest, rfl, hb, behind, hwritten⟩ := h
  refine ⟨a :: mid, b, rest, rfl, hb, behind, fun b' halike => ?_⟩
  obtain ⟨before, hp⟩ := hwritten b' halike
  refine ⟨aside eosToken a ++ before, fun p => ?_⟩
  rw [List.cons_append, instFrom_aside haside, hp, List.append_assoc]

/-- A prompt that is not answered is not written, or written behind a later message. -/
theorem dropped_or_behind (eosToken : Option Text) (h : ¬ Answered messages) :
    (∀ p p', instFrom eosToken false (some p) messages = instFrom eosToken false (some p') messages) ∨
      Behind eosToken messages := by
  induction messages with
  | nil => exact .inl fun _ _ => rfl
  | cons m messages ih =>
      rcases kind_cases m with hsystem | haside | hother
      · refine .inl fun p p' => ?_
        rw [instFrom_system hsystem, instFrom_system hsystem, if_neg Bool.false_ne_true, if_neg Bool.false_ne_true]
      · by_cases hanswered : Answered messages
        · have hm : ¬ Blank m := fun hblank => h (.of_blank haside hblank hanswered)
          obtain ⟨before, behind, hp⟩ := hanswered.written eosToken
          refine .inr ⟨[], m, messages, rfl, hm, behind, fun m' halike => ?_⟩
          refine ⟨aside eosToken m' ++ before, fun p => ?_⟩
          rw [List.nil_append, instFrom_aside (halike.isAside haside), hp, List.append_assoc]
        · rcases ih hanswered with hdropped | hbehind
          · refine .inl fun p p' => ?_
            rw [instFrom_aside haside, instFrom_aside haside, hdropped p p']
          · exact .inr (hbehind.cons haside)
      · exact absurd (.of_other hother) h

/-- A run of letters behind a blank is not in front of a text longer than what follows it. -/
theorem run_not_in_front {before behind q : Text} {between later : List Text} {n : Nat}
    (hlong : behind.length < q.length) (hn : before.length < n) (hq : q ∈ later) :
    ¬ InOrder (between ++ List.replicate n 'z' :: later) (before ++ ' ' :: (List.replicate n 'z' ++ behind)) := by
  intro h
  obtain ⟨a, b, c, heq⟩ := h.two_of hq
  have hlen := congrArg List.length heq
  simp only [List.length_append, List.length_cons, List.length_replicate] at hlen
  rcases Nat.lt_or_ge before.length a.length with hbehind | hfront
  · omega
  · rw [List.append_assoc, List.append_assoc _ b, ← List.append_assoc b] at heq
    have hrun := run_not_over (by decide) heq hfront
    omega

/-- An instruction format that keeps all texts has all its system prompts answered. -/
theorem systemsAnswered_of_kept
    (hkept : ∀ ms, List.Forall₂ Alike messages ms →
      InOrder (ms.flatMap texts) (formatMistralInstChat eosToken false bosToken ms)) :
    SystemsAnswered messages := by
  rintro front m back rfl hsystem hne
  by_contra hnot
  obtain ⟨before, pending, hfront⟩ := instFrom_front eosToken false front none
  have hout : ∀ n tail, formatMistralInstChat eosToken false bosToken (front ++ withText m n :: tail) =
      bosToken.getD [] ++ before ++ instFrom eosToken false (some (List.replicate n 'z')) tail := by
    intro n tail
    rw [formatMistralInstChat, hfront, instFrom_system (m := withText m n) hsystem, if_neg Bool.false_ne_true,
      trim_withText, List.append_assoc]
  rcases dropped_or_behind eosToken hnot with hdropped | ⟨mid, b, rest, rfl, hb, behind, hwritten⟩
  · let n := (bosToken.getD [] ++ before ++ instFrom eosToken false (some []) back).length
    have hlong : (formatMistralInstChat eosToken false bosToken (front ++ withText m (n + 1) :: back)).length <
        (List.replicate (n + 1) 'z').length := by
      rw [hout, hdropped _ [], List.length_replicate]
      exact Nat.lt_succ_self n
    have hmem : List.replicate (n + 1) 'z' ∈ (front ++ withText m (n + 1) :: back).flatMap texts :=
      List.mem_flatMap.2 ⟨_, List.mem_append_right _ List.mem_cons_self, trim_withText ▸ List.mem_cons_self⟩
    exact InOrder.not_of_longer hmem hlong (hkept _ (alike_at (withText_alike hne) front alike_rfl))
  · obtain ⟨b', halike, q, hq, hlong⟩ := alike_long hb behind.length
    obtain ⟨between, hp⟩ := hwritten b' halike
    let n := (bosToken.getD [] ++ before ++ between).length
    have hin := hkept _ (alike_at (withText_alike (n := n) hne) front (alike_at halike mid alike_rfl))
    rw [hout, hp, ← List.append_assoc, List.flatMap_append, List.flatMap_cons, texts, trim_withText] at hin
    refine run_not_in_front hlong (Nat.lt_succ_self n) ?_ hin
    exact List.mem_append_right _ (List.mem_flatMap.2 ⟨b', List.mem_append_right _ List.mem_cons_self, hq⟩)

end Waits

/-! ## Exactly these -/

/-- The messages all of whose texts each formatter keeps, whatever the texts are. -/
theorem formatters_keep_iff (messages : List ChatMessage) :
    ((∀ ms, List.Forall₂ Alike messages ms → InOrder (ms.flatMap texts) (formatPlainChat ms)) ↔
        ∀ m ∈ messages, Shown m) ∧
      (∀ o, (∀ ms, List.Forall₂ Alike messages ms → InOrder (ms.flatMap texts) (formatTurnChat ms o)) ↔
        ∀ m ∈ messages, Shown m) ∧
      ∀ bosToken eosToken hasSystemPromptToken,
        (∀ ms, List.Forall₂ Alike messages ms →
            InOrder (ms.flatMap texts) (formatMistralInstChat eosToken hasSystemPromptToken bosToken ms)) ↔
          (∀ m ∈ messages, Shown m) ∧ (hasSystemPromptToken = false → SystemsAnswered messages) := by
  refine ⟨⟨shown_of_kept fun ms => plain_read, ?_⟩, fun o => ⟨shown_of_kept fun ms => turnChat_read o, ?_⟩, ?_⟩
  · exact fun h ms halike => plain_inOrder (shown_of_alike halike h)
  · exact fun h ms halike => turnChat_inOrder o (shown_of_alike halike h)
  · intro bosToken eosToken hasSystemPromptToken
    constructor
    · intro hkept
      refine ⟨shown_of_kept (fun ms => ?_) hkept, fun htoken => ?_⟩
      · rw [formatMistralInstChat, formatMistralInstChat, instFrom_read]
      · rw [htoken] at hkept
        exact systemsAnswered_of_kept hkept
    · rintro ⟨hshown, hsystems⟩ ms halike
      exact mistral_inOrder (shown_of_alike halike hshown) fun htoken => systemsAnswered_of_alike halike (hsystems htoken)

theorem not_inOrder_of_not_mem {ps : List Text} {out : Text} {c : Char} (hp : [c] ∈ ps) (hc : c ∉ out) :
    ¬ InOrder ps out :=
  fun h => hc ((h.infix_of_mem hp).subset List.mem_cons_self)

/-- The content of an answer with a call, the system prompt behind the last instruction, and the first of two. -/
theorem umbrella_lost :
    (¬ InOrder (texts ⟨"assistant".toList, some ['☂'], some [⟨['1'], ['f'], ['g'], ['x']⟩], none⟩)
        (formatPlainChat [⟨"assistant".toList, some ['☂'], some [⟨['1'], ['f'], ['g'], ['x']⟩], none⟩]) ∧
      ¬ InOrder (texts ⟨"assistant".toList, some ['☂'], some [⟨['1'], ['f'], ['g'], ['x']⟩], none⟩)
        (formatTurnChat [⟨"assistant".toList, some ['☂'], some [⟨['1'], ['f'], ['g'], ['x']⟩], none⟩]
          ⟨none, ['<'], ['>'], true, false⟩) ∧
      ¬ InOrder (texts ⟨"assistant".toList, some ['☂'], some [⟨['1'], ['f'], ['g'], ['x']⟩], none⟩)
        (formatMistralInstChat none true none
          [⟨"assistant".toList, some ['☂'], some [⟨['1'], ['f'], ['g'], ['x']⟩], none⟩])) ∧
    (¬ InOrder ([⟨"user".toList, some ['u'], none, none⟩, ⟨"system".toList, some ['☂'], none, none⟩].flatMap texts)
        (formatMistralInstChat none false none
          [⟨"user".toList, some ['u'], none, none⟩, ⟨"system".toList, some ['☂'], none, none⟩]) ∧
      ¬ InOrder ([⟨"system".toList, some ['☂'], none, none⟩, ⟨"system".toList, some ['s'], none, none⟩,
          ⟨"user".toList, some ['u'], none, none⟩].flatMap texts)
        (formatMistralInstChat none false none [⟨"system".toList, some ['☂'], none, none⟩,
          ⟨"system".toList, some ['s'], none, none⟩, ⟨"user".toList, some ['u'], none, none⟩])) := by
  refine ⟨⟨?_, ?_, ?_⟩, ?_, ?_⟩ <;> exact not_inOrder_of_not_mem (c := '☂') (by decide) (by decide)

end Oxydllm.Serve.Formatters
