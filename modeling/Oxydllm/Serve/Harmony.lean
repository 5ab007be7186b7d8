/-
# Oxydllm.Serve.Harmony — the harmony channels of a stream of tokens (`engine_loop`, `harmony_route`).

A harmony model writes `<|channel|>NAME<|message|>BODY<|end|>`. The body of the final channel is content,
that of a header addressed to a function is a call's arguments, written to the client between an opener
and a closer; any other body is reasoning. A stop string matched in the content ends the request.

The client keeps its receiver. Log probabilities are left out: they are sent beside the text.
-/
import Oxydllm.Lib.Pairing
import Oxydllm.Serve.StopScan
import Oxydllm.Serve.IncrementalDecode

namespace Oxydllm.Serve.Harmony

open Kv (Token)
open Occurrence (find)

/-! ## The header of a channel -/

/-- `char::is_whitespace`. -/
def isWhitespace (c : Char) : Bool :=
  let n := c.toNat
  (0x9 ≤ n && n ≤ 0xD) || n == 0x20 || n == 0x85 || n == 0xA0 || n == 0x1680 ||
    (0x2000 ≤ n && n ≤ 0x200A) || n == 0x2028 || n == 0x2029 || n == 0x202F || n == 0x205F || n == 0x3000

/-- `s.split(sep).nth(1)`. -/
def splitSecond (sep s : List Char) : Option (List Char) :=
  (find sep s).map fun start =>
    let rest := s.drop (start + sep.length)
    rest.take ((find sep rest).getD rest.length)

/-- `s.split_whitespace().next()`. -/
def firstWord (s : List Char) : Option (List Char) :=
  let word := (s.dropWhile isWhitespace).takeWhile (!isWhitespace ·)
  if word.isEmpty then none else some word

/-- `s.trim_start_matches(pat)`, `fuel` matches at most. -/
def trimStartMatches (pat : List Char) : Nat → List Char → List Char
  | 0, s => s
  | fuel + 1, s => if pat.isPrefixOf s then trimStartMatches pat fuel (s.drop pat.length) else s

/-- The function a header is addressed to. -/
def recipient (name : List Char) : Option (List Char) :=
  ((splitSecond "to=".toList name).bind firstWord).map fun r =>
    trimStartMatches "functions.".toList r.length r

/-! ## The channels -/

inductive HarmonyState where
  | markers | role | header
  | body (finalChannel tool : Bool)
  deriving DecidableEq

structure HarmonyIds where
  channel : Token
  message : Token
  end_ : Option Token
  start : Option Token

inductive HarmonyRoute where
  | framing | reasoning | content
  | toolCall (function : List Char)
  | toolCallEnd

section

variable (decode : List Token → List Char) (neutral : NeutralPrefix) (ids : HarmonyIds)

/-- What a token means, and the state and the header behind it. -/
def harmonyRoute (state : HarmonyState) (headerIds : List Token) (tok : Token) :
    HarmonyRoute × HarmonyState × List Token :=
  let isEnd := ids.end_ = some tok ∨ ids.start = some tok
  match state with
  | .markers =>
      if tok = ids.channel then (.framing, .header, [])
      else if ids.start = some tok then (.framing, .role, headerIds)
      else if ids.end_ = some tok then (.framing, .markers, headerIds)
      else if tok = ids.message then (.framing, .body true false, headerIds)
      else (.content, .body true false, headerIds)
  | .role =>
      if tok = ids.channel then (.framing, .header, [])
      else if tok = ids.message then (.framing, .body true false, headerIds)
      else if ids.end_ = some tok then (.framing, .markers, headerIds)
      else (.framing, .role, headerIds)
  | .header =>
      if tok = ids.message then
        let name := decode headerIds
        let recipient := recipient name
        let body := HarmonyState.body (find "final".toList name).isSome recipient.isSome
        match recipient with
        | some function => (.toolCall function, body, headerIds)
        | none => (.framing, body, headerIds)
      else if isEnd then (.framing, .markers, headerIds)
      else (.framing, .header, headerIds ++ [tok])
  | .body finalChannel tool =>
      if isEnd ∨ tok = ids.channel then
        let route := if tool then HarmonyRoute.toolCallEnd else .framing
        if tok = ids.channel then (route, .header, []) else (route, .markers, headerIds)
      else if tool || finalChannel then (.content, .body finalChannel tool, headerIds)
      else (.reasoning, .body finalChannel tool, headerIds)

/-! ## The events of a request -/

/-- The text of a `Token` event, by where the loop sends it from. -/
inductive Sent where
  | opener (function : List Char)
  | closer (held : List Char)
  | text (text : List Char)

def Sent.render : Sent → List Char
  | .opener function => "<tool_call>\n\x7b\"name\": \"".toList ++ function ++ "\", \"arguments\": ".toList
  | .closer held => held ++ "\x7d\n</tool_call>".toList
  | .text t => t

inductive EngineEvent where
  | token (sent : Sent)
  | reasoningToken (text : List Char)
  | finish (finishReason : String)
  | streamEnd

structure SeqTracker where
  outputIds : List Token
  thinkingIds : List Token
  output : IncrementalDecoder
  thinking : IncrementalDecoder
  stops : StopScanner
  harmonyState : HarmonyState
  harmonyHeaderIds : List Token
  harmonyToolOpen : Bool
  wantsReasoning : Bool

namespace SeqTracker

def new (stops : List (List Char)) (wantsReasoning : Bool) : SeqTracker :=
  ⟨[], [], .new, .new, .new stops, .markers, [], false, wantsReasoning⟩

/-- `close_harmony_tool_call`. -/
def closeHarmonyToolCall (tk : SeqTracker) : List EngineEvent × SeqTracker :=
  if !tk.harmonyToolOpen then ([], tk)
  else
    let r := tk.output.finish decode tk.outputIds
    ([.token (.closer (r.1.getD []))], { tk with harmonyToolOpen := false, output := r.2 })

/-- Text that goes through the stop scanner is sent unless it is empty. -/
def sendText (text : List Char) : List EngineEvent := if text.isEmpty then [] else [.token (.text text)]

structure Step where
  events : List EngineEvent
  stopped : Bool
  tracker : SeqTracker

/-- A token of the content. -/
def content (tk : SeqTracker) (tok : Token) : Step :=
  let outputIds := tk.outputIds ++ [tok]
  let r := tk.output.push decode neutral outputIds
  let tk := { tk with outputIds, output := r.2 }
  match r.1 with
  | none => ⟨[], false, tk⟩
  | some text =>
      match tk.stops.push text with
      | (.text text, stops) => ⟨sendText text, false, { tk with stops }⟩
      | (.stopped text, stops) => ⟨sendText text, true, { tk with stops }⟩

/-- One token of the sequence. -/
def step (tk : SeqTracker) (tok : Token) : Step :=
  let r := harmonyRoute decode ids tk.harmonyState tk.harmonyHeaderIds tok
  let tk := { tk with harmonyState := r.2.1, harmonyHeaderIds := r.2.2 }
  match r.1 with
  | .framing => ⟨[], false, tk⟩
  | .reasoning =>
      if !tk.wantsReasoning then ⟨[], false, tk⟩
      else
        let thinkingIds := tk.thinkingIds ++ [tok]
        let r := tk.thinking.push decode neutral thinkingIds
        ⟨r.1.toList.map .reasoningToken, false, { tk with thinkingIds, thinking := r.2 }⟩
  | .content => tk.content decode neutral tok
  | .toolCall function => ⟨[.token (.opener function)], false, { tk with harmonyToolOpen := true }⟩
  | .toolCallEnd =>
      let r := tk.closeHarmonyToolCall decode
      ⟨r.1, false, r.2⟩

def finishTracker (tk : SeqTracker) (finishReason : String) : List EngineEvent :=
  (tk.thinking.finish decode tk.thinkingIds).1.toList.map .reasoningToken ++
    [.finish finishReason, .streamEnd]

/-- A sequence the engine completed. -/
def complete (tk : SeqTracker) (finishReason : Option String) : List EngineEvent :=
  let r := tk.output.finish decode tk.outputIds
  let tk := { tk with output := r.2 }
  match tk.stops.finish (r.1.getD []) with
  | (.text text, stops) =>
      let c := { tk with stops }.closeHarmonyToolCall decode
      sendText text ++ c.1 ++ c.2.finishTracker decode (finishReason.getD "stop")
  | (.stopped text, stops) =>
      let c := { tk with stops }.closeHarmonyToolCall decode
      sendText text ++ c.1 ++ c.2.finishTracker decode "stop"

/-- All events of a request whose sequence yields these tokens and then completes, unless a stop string
ends it before. -/
def respond (tk : SeqTracker) (finishReason : Option String) : List Token → List EngineEvent
  | [] => tk.complete decode finishReason
  | tok :: rest =>
      let s := tk.step decode neutral ids tok
      s.events ++ if s.stopped then s.tracker.finishTracker decode "stop"
        else s.tracker.respond finishReason rest

end SeqTracker

/-! ## Calls are opened and closed in turn -/

def HarmonyState.inCall : HarmonyState → Bool
  | .body _ tool => tool
  | _ => false

/-- A call is opened outside of one and closed inside; nothing else enters or leaves one. -/
def HarmonyRoute.Moves (state state' : HarmonyState) : HarmonyRoute → Prop
  | .toolCall _ => state.inCall = false ∧ state'.inCall = true
  | .toolCallEnd => state.inCall = true ∧ state'.inCall = false
  | _ => state'.inCall = state.inCall

theorem harmonyRoute_moves (state : HarmonyState) (headerIds : List Token) (tok : Token) :
    (harmonyRoute decode ids state headerIds tok).1.Moves state
      (harmonyRoute decode ids state headerIds tok).2.1 := by
  cases state with
  | markers =>
      simp only [harmonyRoute]
      split_ifs <;> rfl
  | role =>
      simp only [harmonyRoute]
      split_ifs <;> rfl
  | header =>
      simp only [harmonyRoute]
      split_ifs
      · cases hname : recipient (decode headerIds) with
        | some function => exact ⟨rfl, rfl⟩
        | none => rfl
      · rfl
      · rfl
  | body finalChannel tool =>
      simp only [harmonyRoute]
      cases tool with
      | true => split_ifs <;> first | contradiction | exact ⟨rfl, rfl⟩ | rfl
      | false => split_ifs <;> first | contradiction | rfl

def EngineEvent.isOpener : EngineEvent → Bool
  | .token (.opener _) => true
  | _ => false

def EngineEvent.isCloser : EngineEvent → Bool
  | .token (.closer _) => true
  | _ => false

open Pairing Harmony.EngineEvent

/-- Openers and closers in turn, the first `held` openers sent before. -/
abbrev CallsInTurn (held : Nat) (events : List EngineEvent) : Prop := InTurn isOpener isCloser held events

namespace SeqTracker

/-- The flag says what the state does. -/
def Flagged (tk : SeqTracker) : Prop := tk.harmonyToolOpen = tk.harmonyState.inCall

/-- Events between which the owed closers go from `held` to `held'`. -/
structure Turns (held held' : Nat) (events : List EngineEvent) : Prop where
  inTurn : CallsInTurn held events
  counts : held + events.countP isOpener = held' + events.countP isCloser

theorem Turns.append {m n k : Nat} {u v : List EngineEvent} (hu : Turns m n u) (hv : Turns n k v) :
    Turns m k (u ++ v) := by
  refine ⟨hu.inTurn.append hu.counts hv.inTurn, ?_⟩
  have h₁ := hu.counts
  have h₂ := hv.counts
  rw [List.countP_append, List.countP_append]
  omega

/-- Events that are neither openers nor closers. -/
theorem Turns.idle {n : Nat} (hn : n ≤ 1) {u : List EngineEvent}
    (h : ∀ e ∈ u, isOpener e = false ∧ isCloser e = false) : Turns n n u := by
  have hopens : u.countP isOpener = 0 := List.countP_eq_zero.2 fun e he => by simp [(h e he).1]
  have hcloses : u.countP isCloser = 0 := List.countP_eq_zero.2 fun e he => by simp [(h e he).2]
  exact ⟨.idle hn hopens hcloses, by rw [hopens, hcloses]⟩

theorem Turns.none {n : Nat} (hn : n ≤ 1) : Turns n n [] := .idle hn fun _ he => by cases he

theorem sendText_turns {n : Nat} (hn : n ≤ 1) (text : List Char) : Turns n n (sendText text) := by
  refine .idle hn fun e he => ?_
  unfold sendText at he
  split at he
  · cases he
  · rw [List.mem_singleton.1 he]
    exact ⟨rfl, rfl⟩

theorem reasoning_turns {n : Nat} (hn : n ≤ 1) (text : Option (List Char)) :
    Turns n n (text.toList.map EngineEvent.reasoningToken) := by
  refine .idle hn fun e he => ?_
  obtain ⟨_, -, rfl⟩ := List.mem_map.1 he
  exact ⟨rfl, rfl⟩

theorem closeHarmonyToolCall_turns (tk : SeqTracker) :
    Turns tk.harmonyToolOpen.toNat 0 (tk.closeHarmonyToolCall decode).1 ∧
      (tk.closeHarmonyToolCall decode).2.harmonyToolOpen = false := by
  unfold closeHarmonyToolCall
  cases hopen : tk.harmonyToolOpen with
  | false => exact ⟨.none (Nat.zero_le _), hopen⟩
  | true => exact ⟨⟨.closer rfl rfl, rfl⟩, rfl⟩

/-- A content token neither opens nor closes a call. -/
theorem content_turns (tk : SeqTracker) (tok : Token) {n : Nat} (hn : n ≤ 1) :
    Turns n n (tk.content decode neutral tok).events ∧
      (tk.content decode neutral tok).tracker.harmonyToolOpen = tk.harmonyToolOpen ∧
      (tk.content decode neutral tok).tracker.harmonyState = tk.harmonyState := by
  unfold content
  simp only
  split
  · exact ⟨.none hn, rfl, rfl⟩
  · split
    · exact ⟨sendText_turns hn _, rfl, rfl⟩
    · exact ⟨sendText_turns hn _, rfl, rfl⟩

theorem step_turns {tk : SeqTracker} (h : Flagged tk) (tok : Token) :
    Turns tk.harmonyToolOpen.toNat (tk.step decode neutral ids tok).tracker.harmonyToolOpen.toNat
        (tk.step decode neutral ids tok).events ∧
      Flagged (tk.step decode neutral ids tok).tracker := by
  have hmoves := harmonyRoute_moves decode ids tk.harmonyState tk.harmonyHeaderIds tok
  unfold Flagged at h ⊢
  unfold step
  generalize harmonyRoute decode ids tk.harmonyState tk.harmonyHeaderIds tok = r at hmoves ⊢
  obtain ⟨route, state, headerIds⟩ := r
  cases route with
  | framing => exact ⟨.none (Bool.toNat_le tk.harmonyToolOpen), h.trans hmoves.symm⟩
  | reasoning =>
      simp only
      split
      · exact ⟨.none (Bool.toNat_le tk.harmonyToolOpen), h.trans hmoves.symm⟩
      · exact ⟨reasoning_turns (Bool.toNat_le tk.harmonyToolOpen) _, h.trans hmoves.symm⟩
  | content =>
      obtain ⟨hturns, hopen, hstate⟩ := content_turns decode neutral
        { tk with harmonyState := state, harmonyHeaderIds := headerIds } tok (Bool.toNat_le tk.harmonyToolOpen)
      refine ⟨?_, ?_⟩
      · simp only [hopen]
        exact hturns
      · simp only [hopen, hstate]
        exact h.trans hmoves.symm
  | toolCall function =>
      have howed : tk.harmonyToolOpen.toNat = 0 := by
        rw [h, hmoves.1]
        rfl
      rw [howed]
      exact ⟨⟨.opener rfl rfl, rfl⟩, hmoves.2.symm⟩
  | toolCallEnd =>
      obtain ⟨hturns, hopen⟩ := closeHarmonyToolCall_turns decode
        { tk with harmonyState := state, harmonyHeaderIds := headerIds }
      have hstate : ({ tk with harmonyState := state, harmonyHeaderIds := headerIds }
          |>.closeHarmonyToolCall decode).2.harmonyState = state := by
        unfold closeHarmonyToolCall
        split <;> rfl
      refine ⟨?_, ?_⟩
      · simp only [hopen]
        exact hturns
      · simp only [hopen, hstate]
        exact hmoves.2.symm

theorem finishTracker_turns (tk : SeqTracker) (finishReason : String) {n : Nat} (hn : n ≤ 1) :
    Turns n n (tk.finishTracker decode finishReason) := by
  refine (reasoning_turns hn _).append (.idle hn fun e he => ?_)
  rcases List.mem_cons.1 he with rfl | he
  · exact ⟨rfl, rfl⟩
  · rw [List.mem_singleton.1 he]
    exact ⟨rfl, rfl⟩

/-- A completed sequence closes its call. -/
theorem complete_turns (tk : SeqTracker) (finishReason : Option String) :
    Turns tk.harmonyToolOpen.toNat 0 (tk.complete decode finishReason) := by
  unfold complete
  simp only
  split
  next stops _ =>
    have hfinish := fun tk reason => finishTracker_turns decode tk reason (Nat.zero_le 1)
    refine ((sendText_turns (Bool.toNat_le _) _).append ?_).append (hfinish _ _)
    exact (closeHarmonyToolCall_turns decode
      { tk with output := (tk.output.finish decode tk.outputIds).2, stops }).1
  next stops _ =>
    have hfinish := fun tk reason => finishTracker_turns decode tk reason (Nat.zero_le 1)
    refine ((sendText_turns (Bool.toNat_le _) _).append ?_).append (hfinish _ _)
    exact (closeHarmonyToolCall_turns decode
      { tk with output := (tk.output.finish decode tk.outputIds).2, stops }).1

/-- A stop string is matched while a call's arguments are being written. -/
def StopsInCall (tk : SeqTracker) : List Token → Prop
  | [] => False
  | tok :: rest =>
      let s := tk.step decode neutral ids tok
      if s.stopped then tk.harmonyState.inCall = true else s.tracker.StopsInCall rest

/-- Only a content token stops a request, which keeps the state in or out of a call. -/
theorem inCall_of_stopped {tk : SeqTracker} {tok : Token}
    (hstop : (tk.step decode neutral ids tok).stopped = true) :
    (tk.step decode neutral ids tok).tracker.harmonyState.inCall = tk.harmonyState.inCall := by
  have hmoves := harmonyRoute_moves decode ids tk.harmonyState tk.harmonyHeaderIds tok
  unfold step at hstop ⊢
  generalize harmonyRoute decode ids tk.harmonyState tk.harmonyHeaderIds tok = r at hmoves hstop ⊢
  obtain ⟨route, state, headerIds⟩ := r
  cases route with
  | content =>
      simp only
      rw [(content_turns decode neutral _ tok (Nat.zero_le 1)).2.2]
      exact hmoves
  | reasoning =>
      simp only at hstop
      split at hstop <;> cases hstop
  | framing => cases hstop
  | toolCall function => cases hstop
  | toolCallEnd => cases hstop

theorem respond_turns {tk : SeqTracker} (h : Flagged tk) (finishReason : Option String)
    (tokens : List Token) :
    ∃ n ≤ 1, Turns tk.harmonyToolOpen.toNat n (tk.respond decode neutral ids finishReason tokens) ∧
      (n = 0 ↔ ¬ StopsInCall decode neutral ids tk tokens) := by
  induction tokens generalizing tk with
  | nil => exact ⟨0, Nat.zero_le _, complete_turns decode tk finishReason, by simp [StopsInCall]⟩
  | cons tok rest ih =>
      obtain ⟨hturns, hflagged⟩ := step_turns decode neutral ids h tok
      rw [respond, StopsInCall]
      split
      next hstop =>
        refine ⟨_, Bool.toNat_le _, hturns.append (finishTracker_turns decode _ _ (Bool.toNat_le _)), ?_⟩
        rw [← inCall_of_stopped decode neutral ids hstop, ← hflagged]
        simp
      next =>
        obtain ⟨n, hn, hrest, hiff⟩ := ih hflagged
        exact ⟨n, hn, hturns.append hrest, hiff⟩

/-- Every call the loop opens is closed before the next is opened and before the request ends, exactly
when no stop string is matched while a call's arguments are being written. -/
theorem calls_closed_iff (stops : List (List Char)) (wantsReasoning : Bool) (finishReason : Option String)
    (tokens : List Token) :
    (CallsInTurn 0 ((new stops wantsReasoning).respond decode neutral ids finishReason tokens) ∧
        ((new stops wantsReasoning).respond decode neutral ids finishReason tokens).countP isOpener =
          ((new stops wantsReasoning).respond decode neutral ids finishReason tokens).countP isCloser) ↔
      ¬ StopsInCall decode neutral ids (new stops wantsReasoning) tokens := by
  obtain ⟨n, -, hturns, hiff⟩ := @respond_turns decode neutral ids (new stops wantsReasoning) rfl
    finishReason tokens
  have hcounts : 0 + _ = n + _ := hturns.counts
  rw [← hiff]
  constructor
  · rintro ⟨-, heq⟩
    omega
  · intro hn
    exact ⟨hturns.inTurn, by omega⟩

/-! ## A stop string in a call's arguments -/

/-- A harmony vocabulary of single bytes and the four markers. -/
def byteIds : HarmonyIds := ⟨0x100, 0x101, some 0x102, some 0x103⟩

/-- `<|channel|>to=f<|message|>{`. -/
def brace : List Token := [0x100, 0x74, 0x6F, 0x3D, 0x66, 0x101, 0x7B]

/-- The stop string `{` ends the request, and the call stays open. -/
theorem calls_left_open :
    ¬ ∀ (t : LossyTokenizer) (ids : HarmonyIds) (stops : List (List Char)) (tokens : List Token),
      CallsInTurn 0 ((new stops false).respond t.decode t.neutralPrefix ids none tokens) ∧
        ((new stops false).respond t.decode t.neutralPrefix ids none tokens).countP isOpener =
          ((new stops false).respond t.decode t.neutralPrefix ids none tokens).countP isCloser := by
  intro h
  exact absurd (h IncrementalDecoder.byteTokenizer byteIds ["\x7b".toList] brace).2 (by decide)

end SeqTracker

end

end Oxydllm.Serve.Harmony
