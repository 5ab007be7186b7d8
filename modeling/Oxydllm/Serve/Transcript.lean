/-
# Oxydllm.Serve.Transcript — what a client reads of a harmony request.

Openers and closers are sent at once, while the text of the content goes through a decoder and a stop
scanner, which may hold some of it back. The transcript of a sequence says what should be read: the bodies
in order, those of calls between their opener and their closer. It is read whenever nothing is held back
where an opener is sent, and the scanner holds nothing where a closer is.
-/
import Oxydllm.Serve.Harmony

namespace Oxydllm.Serve.Harmony

open Kv (Token)
open Occurrence
open IncrementalDecoder (Clean Shown)

/-! ## Transcripts -/

inductive Mark where
  | opener (function : List Char)
  | closer
  deriving DecidableEq

/-- The texts in front of each opener and closer, and the last one. -/
abbrev Transcript := List (List Char × Mark) × List Char

/-- A text, an opener or a closer, and what comes behind. -/
def Transcript.mark (text : List Char) (m : Mark) (r : Transcript) : Transcript := ((text, m) :: r.1, r.2)

/-- What is read of the events, behind the text read before. -/
def gather (text : List Char) : List EngineEvent → Transcript
  | [] => ([], text)
  | .token (.text t) :: events => gather (text ++ t) events
  | .token (.opener function) :: events => .mark text (.opener function) (gather [] events)
  | .token (.closer held) :: events => .mark (text ++ held) .closer (gather [] events)
  | .reasoningToken _ :: events => gather text events
  | .finish _ :: events => gather text events
  | .streamEnd :: events => gather text events

/-- The text of the `Token` events. -/
def texts : List EngineEvent → List Char
  | [] => []
  | .token sent :: events => sent.render ++ texts events
  | _ :: events => texts events

def Mark.render : Mark → List Char
  | .opener function => (Sent.opener function).render
  | .closer => "\x7d\n</tool_call>".toList

/-- A transcript, written out. -/
def Transcript.render (r : Transcript) : List Char := r.1.flatMap (fun p => p.1 ++ p.2.render) ++ r.2

theorem Transcript.render_mark (text : List Char) (m : Mark) (r : Transcript) :
    (Transcript.mark text m r).render = text ++ (m.render ++ r.render) := by
  unfold Transcript.render Transcript.mark
  rw [List.flatMap_cons, List.append_assoc, List.append_assoc]

/-- What is read is the text of the events. -/
theorem texts_gather (text : List Char) (events : List EngineEvent) :
    text ++ texts events = (gather text events).render := by
  induction events generalizing text with
  | nil => exact List.append_nil text
  | cons e events ih =>
      have hrest : texts events = (gather [] events).render := ih []
      cases e with
      | token sent =>
          cases sent with
          | text t =>
              rw [texts, gather, ← ih, List.append_assoc]
              rfl
          | opener function =>
              rw [texts, gather, Transcript.render_mark, hrest]
              rfl
          | closer held =>
              rw [texts, gather, Transcript.render_mark, hrest, List.append_assoc]
              show text ++ ((held ++ Mark.closer.render) ++ _) = _
              rw [List.append_assoc]
      | reasoningToken t => exact ih text
      | finish reason => exact ih text
      | streamEnd => exact ih text

section

variable (t : LossyTokenizer) (ids : HarmonyIds)

/-- The tokens of the content. -/
def contentIds (state : HarmonyState) (headerIds : List Token) : List Token → List Token
  | [] => []
  | tok :: rest =>
      let r := harmonyRoute t.decode ids state headerIds tok
      match r.1 with
      | .content => tok :: contentIds r.2.1 r.2.2 rest
      | _ => contentIds r.2.1 r.2.2 rest

/-- What should be read of a sequence, behind a body begun before. -/
def transcript (state : HarmonyState) (headerIds body : List Token) : List Token → Transcript
  | [] => if state.inCall then .mark (t.decode body) .closer ([], []) else ([], t.decode body)
  | tok :: rest =>
      let r := harmonyRoute t.decode ids state headerIds tok
      match r.1 with
      | .content => transcript r.2.1 r.2.2 (body ++ [tok]) rest
      | .toolCall function => .mark (t.decode body) (.opener function) (transcript r.2.1 r.2.2 [] rest)
      | .toolCallEnd => .mark (t.decode body) .closer (transcript r.2.1 r.2.2 [] rest)
      | _ => transcript r.2.1 r.2.2 body rest

def HarmonyRoute.isMark : HarmonyRoute → Bool
  | .toolCall _ | .toolCallEnd => true
  | _ => false

namespace SeqTracker

/-- No text is cut inside a character: not where the decoder freezes it, nor where an opener or a closer
is sent. -/
def CutsClean (all : List Token) (tk : SeqTracker) : List Token → Prop
  | [] => True
  | tok :: rest =>
      let s := tk.step t.decode t.neutralPrefix ids tok
      Clean t all s.tracker.output.stableEnd ∧
        ((harmonyRoute t.decode ids tk.harmonyState tk.harmonyHeaderIds tok).1.isMark = true →
          Clean t all tk.outputIds.length) ∧
        CutsClean all s.tracker rest

/-- Nothing is held back that an opener or a closer would overtake. -/
def Settles (tk : SeqTracker) : HarmonyRoute → Prop
  | .toolCall _ => tk.stops.held = [] ∧ tk.output.decodedLen = byteLen (t.decode tk.outputIds)
  | .toolCallEnd => tk.stops.held = []
  | _ => True

def Settled (tk : SeqTracker) : List Token → Prop
  | [] => True
  | tok :: rest =>
      tk.Settles t (harmonyRoute t.decode ids tk.harmonyState tk.harmonyHeaderIds tok).1 ∧
        Settled (tk.step t.decode t.neutralPrefix ids tok).tracker rest

instance (all : List Token) : (tk : SeqTracker) → (tokens : List Token) →
    Decidable (CutsClean t ids all tk tokens)
  | _, [] => .isTrue trivial
  | tk, tok :: rest =>
      have : Decidable (CutsClean t ids all (tk.step t.decode t.neutralPrefix ids tok).tracker rest) :=
        instDecidableCutsClean all _ rest
      have (e : Nat) : Decidable (Clean t all e) := inferInstanceAs (Decidable (¬ _))
      inferInstanceAs (Decidable (_ ∧ (_ → _) ∧ _))

instance (tk : SeqTracker) : (route : HarmonyRoute) → Decidable (tk.Settles t route)
  | .toolCall _ => inferInstanceAs (Decidable (_ ∧ _))
  | .toolCallEnd => inferInstanceAs (Decidable (_ = _))
  | .framing | .reasoning | .content => .isTrue trivial

instance : (tk : SeqTracker) → (tokens : List Token) → Decidable (Settled t ids tk tokens)
  | _, [] => .isTrue trivial
  | tk, tok :: rest =>
      have : Decidable (Settled t ids (tk.step t.decode t.neutralPrefix ids tok).tracker rest) :=
        instDecidableSettled _ rest
      inferInstanceAs (Decidable (_ ∧ _))

end SeqTracker

/-! ## Following a sequence -/

/-- A decoder and a scanner in the middle of a sequence: `done` are the content tokens up to the last mark,
`body` those since, and `cur` is what was read since. -/
structure Following (all rest : List Token) (d : IncrementalDecoder) (stops : StopScanner)
    (done body : List Token) (cur : List Char) : Prop where
  all_eq : all = done ++ body ++ rest
  shown : Shown t all d (done ++ body) (t.decode done ++ (cur ++ stops.held))
  stable : Clean t all d.stableEnd
  mark : Clean t all done.length
  idle : stops.Idle
  free : Free stops.stops (t.decode all)

namespace Following

variable {t} {all rest done body : List Token} {d : IncrementalDecoder} {stops : StopScanner}
  {cur : List Char}

theorem initial {stops : List (List Char)} (hfree : Free stops (t.decode all)) :
    Following t all all .new (.new stops) [] [] [] :=
  ⟨rfl, IncrementalDecoder.shown_new t all, IncrementalDecoder.clean_zero t all,
    IncrementalDecoder.clean_zero t all, fun _ => rfl, hfree⟩

theorem decode_eq (h : Following t all rest d stops done body cur) :
    t.decode (done ++ body) = t.decode done ++ t.decode body := by
  have := h.mark.decode_append h.all_eq (n := (done ++ body).length) (by simp) le_rfl
  rw [List.take_length, List.take_left, List.drop_left] at this
  exact this.symm

/-- What is not yet read of the body is held by the scanner or the decoder. -/
theorem finish_eq (h : Following t all rest d stops done body cur) :
    cur ++ (stops.held ++ (d.finish t.decode (done ++ body)).1.getD []) = t.decode body := by
  have := h.shown.finish ⟨rest, h.all_eq.symm⟩
  rw [h.decode_eq, List.append_assoc, List.append_assoc] at this
  exact List.append_cancel_left this

/-- All of the body is read exactly when neither holds anything. -/
theorem read_iff (h : Following t all rest d stops done body cur) :
    cur = t.decode body ↔ stops.held = [] ∧ d.decodedLen = byteLen (t.decode (done ++ body)) := by
  have hlen := h.shown.len
  have hfinish := h.finish_eq
  constructor
  · intro hcur
    rw [← hcur] at hfinish
    have hheld : stops.held = [] := by
      have := List.append_right_eq_self.1 hfinish
      exact (List.append_eq_nil_iff.1 this).1
    rw [hheld, List.append_nil, hcur, ← h.decode_eq] at hlen
    exact ⟨hheld, hlen⟩
  · rintro ⟨hheld, hshown⟩
    obtain ⟨q, hq⟩ := h.shown.ahead [] ⟨rest, by rw [List.append_nil, h.all_eq]⟩
    rw [List.append_nil] at hq
    have hzero : byteLen q = 0 := by
      rw [← hq, byteLen_append] at hshown
      omega
    rw [byteLen_eq_zero hzero, hheld, List.append_nil, List.append_nil, h.decode_eq] at hq
    exact List.append_cancel_left hq

/-- With what the decoder holds, all of the body is read exactly when the scanner holds nothing. -/
theorem read_finish_iff (h : Following t all rest d stops done body cur) :
    cur ++ (d.finish t.decode (done ++ body)).1.getD [] = t.decode body ↔ stops.held = [] := by
  rw [← h.finish_eq, List.append_cancel_left_eq]
  constructor
  · intro heq
    exact (List.append_left_eq_self.1 heq.symm)
  · intro hheld
    rw [hheld, List.nil_append]

/-- Behind an opener a body begins. -/
theorem opened (h : Following t all rest d stops done body cur)
    (hclean : Clean t all (done ++ body).length) (hread : cur = t.decode body) :
    Following t all rest d stops (done ++ body) [] [] := by
  have hheld := (h.read_iff.1 hread).1
  refine ⟨by rw [List.append_nil, h.all_eq], ?_, h.stable, hclean, h.idle, h.free⟩
  have hshown := h.shown
  rw [hheld, List.append_nil, hread, ← h.decode_eq] at hshown
  rw [List.append_nil, hheld, List.append_nil, List.append_nil]
  exact hshown

/-- Behind a closer as well, the decoder being finished. -/
theorem closed (h : Following t all rest d stops done body cur)
    (hclean : Clean t all (done ++ body).length) (hheld : stops.held = []) :
    Following t all rest (d.finish t.decode (done ++ body)).2 stops (done ++ body) [] [] := by
  have hstable : (d.finish t.decode (done ++ body)).2.stableEnd = d.stableEnd := by
    unfold IncrementalDecoder.finish
    split <;> rfl
  refine ⟨by rw [List.append_nil, h.all_eq], ?_, hstable ▸ h.stable, hclean, h.idle, h.free⟩
  rw [List.append_nil, hheld, List.append_nil, List.append_nil]
  exact h.shown.finished h.all_eq hclean

/-- What the scanner holds and what it is given next lie in the text of the content. -/
theorem quiet (h : Following t all rest d stops done body cur) {delta : List Char}
    (hdelta : (t.decode done ++ (cur ++ stops.held)) ++ delta <+: t.decode all) :
    Free stops.stops (stops.held ++ delta) := by
  obtain ⟨w, hw⟩ := hdelta
  refine Free.stretch (u := t.decode done ++ cur) (w := w) ?_
  rw [← List.append_assoc, List.append_assoc (t.decode done) cur, hw]
  exact h.free

end Following

theorem gather_sendText (cur text : List Char) (events : List EngineEvent) :
    gather cur (SeqTracker.sendText text ++ events) = gather (cur ++ text) events := by
  unfold SeqTracker.sendText
  split
  next hempty =>
    rw [List.isEmpty_iff.1 hempty, List.append_nil]
    rfl
  next => rfl

theorem gather_reasoning (cur : List Char) (text : Option (List Char)) (events : List EngineEvent) :
    gather cur (text.toList.map .reasoningToken ++ events) = gather cur events := by
  cases text with
  | none => rfl
  | some text => rfl

namespace SeqTracker

theorem content_output (tk : SeqTracker) (tok : Token) :
    (tk.content t.decode t.neutralPrefix tok).tracker.output =
      (tk.output.push t.decode t.neutralPrefix (tk.outputIds ++ [tok])).2 := by
  unfold content
  simp only
  split
  · rfl
  · split <;> rfl

/-- A content token, none of whose text ends a stop string. -/
theorem content_following {all rest done body : List Token} {cur : List Char} {tk : SeqTracker} {tok : Token}
    (hout : tk.outputIds = done ++ body)
    (h : Following t all (tok :: rest) tk.output tk.stops done body cur)
    (hclean : Clean t all (tk.content t.decode t.neutralPrefix tok).tracker.output.stableEnd) :
    ∃ text output stops, tk.content t.decode t.neutralPrefix tok =
        ⟨sendText text, false, { tk with outputIds := done ++ (body ++ [tok]), output, stops }⟩ ∧
      Following t all rest output stops done (body ++ [tok]) (cur ++ text) := by
  have hids : all = done ++ body ++ [tok] ++ rest := by
    rw [h.all_eq, List.append_assoc (done ++ body), List.singleton_append]
  have hids' : all = done ++ (body ++ [tok]) ++ rest := by rw [hids, List.append_assoc done]
  rw [content_output, hout] at hclean
  have hshown := h.shown.push h.stable hids hclean
  unfold content
  simp only [hout]
  generalize tk.output.push t.decode t.neutralPrefix (done ++ body ++ [tok]) = r at hclean hshown ⊢
  obtain ⟨delta, output⟩ := r
  rw [List.append_assoc done] at hshown ⊢
  cases delta with
  | none =>
      refine ⟨[], output, tk.stops, rfl, hids', ?_, hclean, h.mark, h.idle, h.free⟩
      rw [List.append_nil]
      simpa using hshown
  | some delta =>
      have hprefix : t.decode done ++ (cur ++ tk.stops.held) ++ delta <+: t.decode all := by
        rw [hids']
        exact hshown.ahead rest ⟨[], by rw [List.append_nil, hids']⟩
      obtain ⟨text, held, hpush, hsplit, hidle⟩ := StopScanner.push_quiet h.idle (h.quiet hprefix)
      simp only [hpush]
      refine ⟨text, output, { tk.stops with held }, rfl, hids', ?_, hclean, h.mark, hidle, h.free⟩
      show Shown t all output (done ++ (body ++ [tok])) (t.decode done ++ (cur ++ text ++ held))
      rw [List.append_assoc cur, hsplit]
      simpa using hshown

theorem gather_finishTracker (cur : List Char) (tk : SeqTracker) (finishReason : String) :
    gather cur (tk.finishTracker t.decode finishReason) = ([], cur) := by
  unfold finishTracker
  rw [gather_reasoning]
  rfl

/-- The end of a sequence hands out what is left, and closes an open call behind it. -/
theorem gather_complete {all done body : List Token} {cur : List Char} {tk : SeqTracker}
    (hflag : Flagged tk) (hout : tk.outputIds = done ++ body)
    (h : Following t all [] tk.output tk.stops done body cur) (finishReason : Option String) :
    gather cur (tk.complete t.decode finishReason) =
      transcript t ids tk.harmonyState tk.harmonyHeaderIds body [] := by
  have hbody := h.finish_eq
  have hall : t.decode done ++ (cur ++ tk.stops.held) ++
      (tk.output.finish t.decode (done ++ body)).1.getD [] <+: t.decode all := by
    rw [h.shown.finish ⟨[], h.all_eq.symm⟩, h.all_eq, List.append_nil]
  have hagain :
      ((tk.output.finish t.decode (done ++ body)).2.finish t.decode (done ++ body)).1.getD [] = [] := by
    have := @Shown.finished t _ all _ [] _ h.shown h.all_eq (by
      rw [Clean, h.all_eq, List.append_nil, List.drop_length]
      rintro ⟨-, b, hb, -⟩
      cases hb)
    exact List.append_right_eq_self.1 (this.finish ⟨[], h.all_eq.symm⟩)
  have hquiet := StopScanner.finish_quiet h.idle (h.quiet hall)
  unfold complete
  simp only [hout]
  generalize tk.output.finish t.decode (done ++ body) = r at hbody hagain hquiet ⊢
  generalize tk.stops.finish (r.1.getD []) = scan at hquiet ⊢
  obtain ⟨scan, stops⟩ := scan
  subst hquiet
  simp only [List.append_assoc]
  rw [gather_sendText, hbody]
  unfold transcript closeHarmonyToolCall
  rw [← hflag]
  cases tk.harmonyToolOpen with
  | false => exact gather_finishTracker t _ _ _
  | true =>
      show Transcript.mark (t.decode body ++ (r.2.finish t.decode (done ++ body)).1.getD []) .closer
        (gather [] (finishTracker t.decode _ _)) = .mark (t.decode body) .closer ([], [])
      rw [gather_finishTracker, hagain, List.append_nil]

theorem mark_inj {text text' : List Char} {m : Mark} {r r' : Transcript} :
    Transcript.mark text m r = Transcript.mark text' m r' ↔ text = text' ∧ r = r' := by
  obtain ⟨marks, last⟩ := r
  obtain ⟨marks', last'⟩ := r'
  unfold Transcript.mark
  simp only [Prod.mk.injEq, List.cons.injEq, and_true, and_assoc]

/-- From any point of a sequence, the transcript is read exactly when nothing is overtaken from there on. -/
theorem gather_respond {all : List Token} (finishReason : Option String) (tokens : List Token)
    {done body : List Token} {cur : List Char} {tk : SeqTracker} (hflag : Flagged tk)
    (hout : tk.outputIds = done ++ body)
    (h : Following t all (contentIds t ids tk.harmonyState tk.harmonyHeaderIds tokens) tk.output tk.stops
      done body cur)
    (hclean : CutsClean t ids all tk tokens) :
    gather cur (tk.respond t.decode t.neutralPrefix ids finishReason tokens) =
        transcript t ids tk.harmonyState tk.harmonyHeaderIds body tokens ↔ Settled t ids tk tokens := by
  induction tokens generalizing done body cur tk with
  | nil => exact iff_of_true (gather_complete t ids hflag hout h finishReason) trivial
  | cons tok rest ih =>
      have hflag' := (step_turns t.decode t.neutralPrefix ids hflag tok).2
      have hmoves := harmonyRoute_moves t.decode ids tk.harmonyState tk.harmonyHeaderIds tok
      simp only [CutsClean] at hclean
      obtain ⟨hstable, hmark, hclean⟩ := hclean
      rw [hout] at hmark
      rw [contentIds] at h
      rw [respond, transcript, Settled]
      simp only [step] at hflag' hstable hclean ⊢
      generalize harmonyRoute t.decode ids tk.harmonyState tk.harmonyHeaderIds tok = r at *
      obtain ⟨route, state, headerIds⟩ := r
      cases route with
      | framing => exact (ih hflag' hout h hclean).trans (and_iff_right trivial).symm
      | reasoning =>
          refine Iff.trans ?_ (and_iff_right trivial).symm
          cases hwants : tk.wantsReasoning with
          | false =>
              simp only [hwants, Bool.not_false, if_true] at hflag' hclean ⊢
              exact ih hflag' hout h hclean
          | true =>
              simp only [hwants, Bool.not_true, Bool.false_eq_true, if_false] at hflag' hclean ⊢
              rw [gather_reasoning]
              exact ih hflag' hout h hclean
      | content =>
          refine Iff.trans ?_ (and_iff_right trivial).symm
          obtain ⟨text, output, stops, hcontent, hfollowing⟩ := @content_following t _ _ _ _ _
            { tk with harmonyState := state, harmonyHeaderIds := headerIds } tok hout h hstable
          simp only [hcontent, Bool.false_eq_true, if_false] at hflag' hclean ⊢
          rw [gather_sendText]
          exact ih hflag' rfl hfollowing hclean
      | toolCall function =>
          have hread : cur = t.decode body ↔ tk.Settles t (.toolCall function) := by
            unfold Settles
            rw [hout]
            exact h.read_iff
          show Transcript.mark cur _ _ = .mark _ _ _ ↔ _
          rw [mark_inj, ← hread]
          exact and_congr_right fun hcur =>
            @ih _ _ _ { tk with harmonyState := state, harmonyHeaderIds := headerIds, harmonyToolOpen := true }
              hflag' (hout.trans (List.append_nil _).symm) (h.opened (hmark rfl) hcur) hclean
      | toolCallEnd =>
          have hopen : tk.harmonyToolOpen = true := hflag.trans hmoves.1
          simp only [closeHarmonyToolCall, hopen, hout, Bool.not_true, Bool.false_eq_true, if_false]
            at hflag' hclean ⊢
          show Transcript.mark _ _ _ = .mark _ _ _ ↔ tk.stops.held = [] ∧ _
          rw [mark_inj, h.read_finish_iff]
          exact and_congr_right fun hheld =>
            ih hflag' (List.append_nil _).symm (h.closed (hmark rfl) hheld) hclean

/-! ## Without stop strings -/

def withoutStops (tk : SeqTracker) : SeqTracker := { tk with stops := .new [] }

/-- Stop strings change nothing but the scanner. -/
theorem step_withoutStops (tk : SeqTracker) (tok : Token) :
    (tk.withoutStops.step t.decode t.neutralPrefix ids tok).tracker =
      (tk.step t.decode t.neutralPrefix ids tok).tracker.withoutStops := by
  obtain ⟨outputIds, thinkingIds, output, thinking, stops, before, headerBefore, toolOpen, wants⟩ := tk
  unfold step
  simp only [withoutStops]
  generalize harmonyRoute t.decode ids before headerBefore tok = r
  obtain ⟨route, state, headerIds⟩ := r
  cases route with
  | framing => rfl
  | reasoning => cases wants <;> rfl
  | content =>
      unfold content
      simp only
      generalize output.push t.decode t.neutralPrefix (outputIds ++ [tok]) = r
      obtain ⟨delta, output⟩ := r
      cases delta with
      | none => rfl
      | some delta =>
          simp only
          generalize stops.push delta = scan
          obtain ⟨scan, stops⟩ := scan
          cases scan with
          | text text => rfl
          | stopped text => rfl
  | toolCall function => rfl
  | toolCallEnd => cases toolOpen <;> rfl

theorem CutsClean.withoutStops {all : List Token} {tk : SeqTracker} {tokens : List Token}
    (h : CutsClean t ids all tk tokens) : CutsClean t ids all tk.withoutStops tokens := by
  induction tokens generalizing tk with
  | nil => trivial
  | cons tok rest ih =>
      unfold CutsClean at h ⊢
      simp only at h ⊢
      rw [step_withoutStops]
      exact ⟨h.1, h.2.1, ih h.2.2⟩

theorem Settled.withoutStops {tk : SeqTracker} {tokens : List Token} (h : Settled t ids tk tokens) :
    Settled t ids tk.withoutStops tokens := by
  induction tokens generalizing tk with
  | nil => trivial
  | cons tok rest ih =>
      unfold Settled at h ⊢
      rw [step_withoutStops]
      refine ⟨?_, ih h.2⟩
      have hsettles := h.1
      show Settles t tk.withoutStops (harmonyRoute t.decode ids tk.harmonyState tk.harmonyHeaderIds tok).1
      generalize (harmonyRoute t.decode ids tk.harmonyState tk.harmonyHeaderIds tok).1 = route at hsettles ⊢
      cases route with
      | toolCall function => exact ⟨rfl, hsettles.2⟩
      | toolCallEnd => exact rfl
      | framing => trivial
      | reasoning => trivial
      | content => trivial

/-- With stop strings that do not occur in the content, and no text cut inside a character, the client
reads what it would without them, and that is the transcript, exactly when nothing is held back where an
opener is sent and the scanner holds nothing where a closer is. -/
theorem transparent_iff {stops : List (List Char)} {wantsReasoning : Bool} {finishReason : Option String}
    {tokens : List Token} (hfree : Free stops (t.decode (contentIds t ids .markers [] tokens)))
    (hclean : CutsClean t ids (contentIds t ids .markers [] tokens) (new stops wantsReasoning) tokens) :
    (texts ((new stops wantsReasoning).respond t.decode t.neutralPrefix ids finishReason tokens) =
          texts ((new [] wantsReasoning).respond t.decode t.neutralPrefix ids finishReason tokens) ∧
        gather [] ((new stops wantsReasoning).respond t.decode t.neutralPrefix ids finishReason tokens) =
          transcript t ids .markers [] [] tokens) ↔
      Settled t ids (new stops wantsReasoning) tokens := by
  have hnone : Free [] (t.decode (contentIds t ids .markers [] tokens)) := fun _ hp => by cases hp
  have hread := @gather_respond t ids _ finishReason tokens [] [] [] (new stops wantsReasoning) rfl rfl
    (Following.initial hfree) hclean
  have hread' := @gather_respond t ids _ finishReason tokens [] [] [] (new [] wantsReasoning) rfl rfl
    (Following.initial hnone) hclean.withoutStops
  constructor
  · exact fun h => hread.1 h.2
  · intro hsettled
    have htranscript := hread.2 hsettled
    refine ⟨?_, htranscript⟩
    have htexts := texts_gather [] ((new stops wantsReasoning).respond t.decode t.neutralPrefix ids
      finishReason tokens)
    have htexts' := texts_gather [] ((new [] wantsReasoning).respond t.decode t.neutralPrefix ids
      finishReason tokens)
    rw [List.nil_append] at htexts htexts'
    have htranscript' := hread'.2 hsettled.withoutStops
    rw [htexts, htexts', htranscript]
    exact congrArg Transcript.render htranscript'.symm

/-- `<|channel|>to=f<|message|>{}<|end|>`. -/
def emptyCall : List Token := [0x100, 0x74, 0x6F, 0x3D, 0x66, 0x101, 0x7B, 0x7D, 0x102]

/-- A call's arguments are read between its opener and its closer. -/
theorem transparent_emptyCall :
    gather [] ((new ["x".toList] false).respond IncrementalDecoder.byteTokenizer.decode
        IncrementalDecoder.byteTokenizer.neutralPrefix byteIds none emptyCall) =
      ([([], .opener "f".toList), ("\x7b\x7d".toList, .closer)], []) := by
  have hids : contentIds IncrementalDecoder.byteTokenizer byteIds .markers [] emptyCall = [0x7B, 0x7D] := by
    decide
  refine ((transparent_iff IncrementalDecoder.byteTokenizer byteIds ?_ ?_).2 ?_).2.trans (by decide)
  · rw [hids, ← earliest_none_iff]
    decide
  · rw [hids]
    decide
  · decide

/-- `a<<|channel|>to=f<|message|>{}<|end|>`. -/
def lessCall : List Token := [0x61, 0x3C] ++ emptyCall

/-- With the stop string `<s`, the `<` of the content is read behind the opener. -/
theorem opener_overtakes :
    ¬ ∀ (t : LossyTokenizer) (ids : HarmonyIds) (stops : List (List Char)) (tokens : List Token),
      Free stops (t.decode (contentIds t ids .markers [] tokens)) →
        texts ((new stops false).respond t.decode t.neutralPrefix ids none tokens) =
          texts ((new [] false).respond t.decode t.neutralPrefix ids none tokens) := by
  intro h
  have hids : contentIds IncrementalDecoder.byteTokenizer byteIds .markers [] lessCall =
      [0x61, 0x3C, 0x7B, 0x7D] := by decide
  refine absurd (h IncrementalDecoder.byteTokenizer byteIds ["<s".toList] lessCall ?_) (by decide)
  rw [hids, ← earliest_none_iff]
  decide

end SeqTracker

end

end Oxydllm.Serve.Harmony
