/-
# Oxydllm.Constrain.Trace — reading a text piece by piece.

A run of the automaton leaves a trace: each byte with the events it caused and whether it met a
number in progress, which is all the schema guidance sees. `Piece` says of a byte string, from one
view, exactly when the automaton reads it, with what trace and to what view. Pieces compose
(`Piece.append`), so a text is read as its tree is built: a byte, a gap, a string, a number, then by
recursion on the tree a whole value.
-/
import Oxydllm.Constrain.Sound

namespace Oxydllm.Constrain

open JsonText

/-! ## Traces -/

/-- One accepted byte as the guidance sees it: the arguments of `on_byte`. -/
structure Obs where
  byte : UInt8
  ev : Events
  wasNum : Bool

/-- `step_ev` through every byte of `w`, with what each reported. -/
def JsonMachine.trace (mode : JsonMode) : JsonMachine → List UInt8 → Option (List Obs × JsonMachine)
  | m, [] => some ([], m)
  | m, b :: w => (m.stepEv b mode).bind fun p =>
      (JsonMachine.trace mode p.1 w).map fun q => (⟨b, p.2, m.inNumber⟩ :: q.1, q.2)

namespace JsonMachine

theorem run_eq_trace (mode : JsonMode) (m : JsonMachine) (w : List UInt8) :
    m.run mode w = (m.trace mode w).map Prod.snd := by
  induction w generalizing m with
  | nil => rfl
  | cons b w ih =>
      have hrun : m.run mode (b :: w) = (m.step b mode).bind fun m' => m'.run mode w := by
        simp [run, Option.bind_eq_bind]
      rw [hrun, step, trace]
      cases m.stepEv b mode with
      | none => rfl
      | some p => simp [ih, Function.comp_def]

theorem trace_append (mode : JsonMode) (m : JsonMachine) (w₁ w₂ : List UInt8) :
    m.trace mode (w₁ ++ w₂) = (m.trace mode w₁).bind fun p =>
      (p.2.trace mode w₂).map fun q => (p.1 ++ q.1, q.2) := by
  induction w₁ generalizing m with
  | nil => simp [trace]
  | cons b w₁ ih =>
      simp only [List.cons_append, trace]
      cases m.stepEv b mode with
      | none => rfl
      | some p =>
          simp only [Option.bind_some, ih]
          cases p.1.trace mode w₁ with
          | none => rfl
          | some q => simp [Function.comp_def]

end JsonMachine

/-! ## Pieces -/

/-- From view `v` the automaton reads `w` exactly when `C` holds, leaving trace `τ` and view
`v'`. -/
structure Piece (mode : JsonMode) (v : View) (w : List UInt8) (C : Prop) (τ : List Obs)
    (v' : View) : Prop where
  reads : C → ∀ m : JsonMachine, m.view = v → ∃ m', m.trace mode w = some (τ, m') ∧ m'.view = v'
  needs : ∀ (m : JsonMachine) (p : List Obs × JsonMachine), m.view = v → m.trace mode w = some p → C

section Algebra

variable {mode : JsonMode} {v v₁ v' : View} {w w₁ w₂ : List UInt8} {C C₁ C₂ : Prop}
  {τ τ₁ τ₂ : List Obs}

theorem Piece.congr (h : Piece mode v w C₁ τ v') (hC : C₁ ↔ C₂) : Piece mode v w C₂ τ v' :=
  ⟨fun hc => h.reads (hC.2 hc), fun m p hm ht => hC.1 (h.needs m p hm ht)⟩

theorem Piece.nil : Piece mode v [] True [] v :=
  ⟨fun _ m hm => ⟨m, rfl, hm⟩, fun _ _ _ _ => trivial⟩

theorem Piece.append (h₁ : Piece mode v w₁ C₁ τ₁ v₁) (h₂ : Piece mode v₁ w₂ C₂ τ₂ v') :
    Piece mode v (w₁ ++ w₂) (C₁ ∧ C₂) (τ₁ ++ τ₂) v' := by
  constructor
  · rintro ⟨hc₁, hc₂⟩ m hm
    obtain ⟨m₁, ht₁, hm₁⟩ := h₁.reads hc₁ m hm
    obtain ⟨m₂, ht₂, hm₂⟩ := h₂.reads hc₂ m₁ hm₁
    exact ⟨m₂, by simp [JsonMachine.trace_append, ht₁, ht₂], hm₂⟩
  · intro m p hm ht
    rw [JsonMachine.trace_append] at ht
    obtain ⟨p₁, ht₁, ht₂⟩ := Option.bind_eq_some_iff.1 ht
    obtain ⟨p₂, ht₂, -⟩ := Option.map_eq_some_iff.1 ht₂
    have hc₁ := h₁.needs m p₁ hm ht₁
    obtain ⟨m₁, ht₁', hm₁⟩ := h₁.reads hc₁ m hm
    rw [ht₁'] at ht₁
    cases ht₁
    exact ⟨hc₁, h₂.needs m₁ p₂ hm₁ ht₂⟩

/-- A piece that is never read past some prefix. -/
theorem Piece.never (h : ∀ (m : JsonMachine) (p : List Obs × JsonMachine), m.view = v →
    m.trace mode w ≠ some p) : Piece mode v w False τ v' :=
  ⟨False.elim, fun m p hm ht => h m p hm ht⟩

/-- One byte, read when `C` allows its move. -/
theorem Piece.byte {b : UInt8} {ev : Events} (hstep : C → Step mode v b v' ev)
    (hneed : ∀ v'' ev', Step mode v b v'' ev' → C) :
    Piece mode v [b] C [⟨b, ev, v.state.isNum⟩] v' := by
  constructor
  · intro hc m hm
    subst hm
    obtain ⟨m', hev, hm'⟩ := JsonMachine.stepEv_of_step (hstep hc)
    exact ⟨m', by simp [JsonMachine.trace, hev, JsonMachine.inNumber, JsonMachine.view], hm'⟩
  · intro m p hm ht
    subst hm
    simp only [JsonMachine.trace] at ht
    obtain ⟨⟨m₁, ev'⟩, hev, -⟩ := Option.bind_eq_some_iff.1 ht
    exact hneed _ _ (JsonMachine.step_of_stepEv hev)

/-- One byte with a move that nothing blocks. -/
theorem Piece.move {b : UInt8} {ev : Events} (hstep : Step mode v b v' ev) :
    Piece mode v [b] True [⟨b, ev, v.state.isNum⟩] v' :=
  .byte (fun _ => hstep) fun _ _ _ => trivial

end Algebra

/-! ## Gaps -/

/-- A byte that causes no event. -/
def content (b : UInt8) : Obs := ⟨b, {}, false⟩

/-- The trace of a gap; the first byte after a number ends it. -/
def gapTrace : Bool → List UInt8 → List Obs
  | _, [] => []
  | num, b :: w => ⟨b, { scalarEnd := num }, num⟩ :: gapTrace false w

theorem S.gap_value : S.value.gap := rfl

theorem S.gap_colon : S.colon.gap := rfl

theorem S.gap_objFirst : S.objFirst.gap := rfl

theorem gap_isNum {st : S} (h : st.gap) : st.isNum = false := by
  cases st <;> first | rfl | cases h

theorem after_gap (fs : List Bool) : (after fs).gap := by
  rcases fs with _ | ⟨_ | _, _⟩ <;> rfl

/-- One byte of whitespace and the rest of its run. -/
theorem run_fits_cons (r : Nat) (b : UInt8) (bs : List UInt8) :
    (r < maxWhitespaceRun ∧ (bs ≠ [] → r + 1 + bs.length ≤ maxWhitespaceRun)) ↔
      (b :: bs ≠ [] → r + (b :: bs).length ≤ maxWhitespaceRun) := by
  simp only [List.length_cons, ne_eq, reduceCtorEq, not_false_eq_true, forall_const]
  cases bs with
  | nil => simp
  | cons c bs => simp only [List.length_cons, reduceCtorEq, not_false_eq_true, forall_const]; omega

/-- Whitespace where it is skipped in place. -/
theorem gap_piece (mode : JsonMode) (fs : List Bool) {st : S} (hst : st.gap) (r : Nat)
    (bs : List UInt8) (hws : ∀ b ∈ bs, isSpace b) :
    Piece mode ⟨fs, st, r⟩ bs (bs ≠ [] → r + bs.length ≤ maxWhitespaceRun) (gapTrace false bs)
      ⟨fs, st, r + bs.length⟩ := by
  induction bs generalizing r with
  | nil => exact Piece.nil.congr (by simp)
  | cons b bs ih =>
      have hb : isWs b := hws b (by simp)
      have hbyte : Piece mode ⟨fs, st, r⟩ [b] (r < maxWhitespaceRun) [⟨b, {}, st.isNum⟩]
          ⟨fs, st, r + 1⟩ :=
        .byte (.gap hst hb) fun v'' ev' h => JsonMachine.wsRun_lt_of_step h hb
      rw [gap_isNum hst] at hbyte
      have h := hbyte.append (ih (r + 1) fun c hc => hws c (by simp [hc]))
      have h := h.congr (run_fits_cons r b bs)
      rwa [show r + 1 + bs.length = r + (b :: bs).length by simp only [List.length_cons]; omega] at h

/-- Whitespace in front of a value: after `[` it moves the automaton on to `Value`. -/
theorem valueGap_piece (mode : JsonMode) (fs : List Bool) {st : S}
    (hst : st = .value ∨ st = .arrFirst) (r : Nat) (g : Gap) :
    Piece mode ⟨fs, st, r⟩ g.bytes (g.bytes ≠ [] → r + g.bytes.length ≤ maxWhitespaceRun)
      (gapTrace false g.bytes) ⟨fs, if g.bytes = [] then st else .value, r + g.bytes.length⟩ := by
  obtain ⟨bs, hws⟩ := g
  rcases hst with rfl | rfl
  · simpa using gap_piece mode fs S.gap_value r bs hws
  · cases bs with
    | nil => exact Piece.nil.congr (by simp)
    | cons b bs =>
        have hb : isWs b := hws b (by simp)
        have hbyte : Piece mode ⟨fs, .arrFirst, r⟩ [b] (r < maxWhitespaceRun) [content b]
            ⟨fs, .value, r + 1⟩ :=
          .byte (.arrGap hb) fun v'' ev' h => JsonMachine.wsRun_lt_of_step h hb
        have h := hbyte.append (gap_piece mode fs S.gap_value (r + 1) bs fun c hc => hws c (by simp [hc]))
        have h := h.congr (run_fits_cons r b bs)
        rwa [show r + 1 + bs.length = r + (b :: bs).length by simp only [List.length_cons]; omega] at h

/-- What a gap adds to the whitespace run: its bytes, and the first one twice after a number. -/
def gapCost (num : Bool) (g : Gap) : Nat :=
  g.bytes.length + if num = true ∧ g.bytes ≠ [] then 1 else 0

/-- Whitespace after a complete number. -/
theorem numGap_piece (mode : JsonMode) (fs : List Bool) {n : NumS} (hn : n.complete) (g : Gap)
    (hg : g.bytes ≠ []) :
    Piece mode ⟨fs, .num n, 0⟩ g.bytes (gapCost true g ≤ maxWhitespaceRun) (gapTrace true g.bytes)
      ⟨fs, after fs, gapCost true g⟩ := by
  obtain ⟨bs, hws⟩ := g
  cases bs with
  | nil => exact absurd rfl hg
  | cons b bs =>
      have hb : isWs b := hws b (by simp)
      have hbyte : Piece mode ⟨fs, .num n, 0⟩ [b] True [⟨b, { scalarEnd := true }, true⟩]
          ⟨fs, after fs, 2⟩ := .move (.numGap hn hb (by decide))
      have h := hbyte.append (gap_piece mode fs (after_gap fs) 2 bs fun c hc => hws c (by simp [hc]))
      have hcost : gapCost true ⟨b :: bs, hws⟩ = 0 + 2 + bs.length := by
        simp [gapCost]; omega
      rw [hcost]
      refine h.congr ?_
      cases bs with
      | nil => simp [maxWhitespaceRun]
      | cons c bs => simp

/-! ## Strings -/

/-- No run of spaces exceeds the cap, counting from a run of `r`. -/
def SpacesFit : Nat → List UInt8 → Prop
  | _, [] => True
  | r, b :: w => (b = 0x20 → r < maxWhitespaceRun) ∧ SpacesFit (if b = 0x20 then r + 1 else 0) w

/-- The run of spaces at the end. -/
def spaceRun : Nat → List UInt8 → Nat
  | r, [] => r
  | r, b :: w => spaceRun (if b = 0x20 then r + 1 else 0) w

theorem isHex_ne_space {b : UInt8} (h : isHex b) : b ≠ 0x20 := by
  rintro rfl
  cases h

theorem isSimpleEscape_ne_space {b : UInt8} (h : isSimpleEscape b) : b ≠ 0x20 := by
  rintro rfl
  cases h

/-- One character of a string. -/
theorem char_piece (mode : JsonMode) (fs : List Bool) (key : Bool) (r : Nat) (c : JsonText.Char) :
    Piece mode ⟨fs, .str false 0 key, r⟩ c.print (SpacesFit r c.print) (c.print.map content)
      ⟨fs, .str false 0 key, spaceRun r c.print⟩ := by
  cases c with
  | plain b h =>
      simp only [isUnescaped, Bool.and_eq_true, decide_eq_true_eq, bne_iff_ne, ne_eq] at h
      obtain ⟨⟨h20, hq⟩, hbs⟩ := h
      have hbyte : Piece mode ⟨fs, .str false 0 key, r⟩ [b] (b = 0x20 → r < maxWhitespaceRun)
          [content b] ⟨fs, .str false 0 key, if b = 0x20 then r + 1 else 0⟩ :=
        .byte (.strByte h20 hq hbs) fun v'' ev' hstep hb =>
          JsonMachine.wsRun_lt_of_step hstep (by rw [hb]; rfl)
      exact hbyte.congr (by simp [JsonText.Char.print, SpacesFit])
  | esc b h =>
      have h1 : Piece mode ⟨fs, .str false 0 key, r⟩ [0x5C] True [content 0x5C]
          ⟨fs, .str true 0 key, 0⟩ := .move .strEsc
      have h2 : Piece mode ⟨fs, .str true 0 key, 0⟩ [b] True [content b] ⟨fs, .str false 0 key, 0⟩ :=
        .move (.escSimple h)
      have hne := isSimpleEscape_ne_space h
      have := h1.append h2
      simpa [JsonText.Char.print, SpacesFit, spaceRun, hne] using this
  | unicode a b c d h =>
      obtain ⟨ha, hb, hc, hd⟩ := h
      have h1 : Piece mode ⟨fs, .str false 0 key, r⟩ [0x5C] True [content 0x5C]
          ⟨fs, .str true 0 key, 0⟩ := .move .strEsc
      have h2 : Piece mode ⟨fs, .str true 0 key, 0⟩ [0x75] True [content 0x75]
          ⟨fs, .str false 4 key, 0⟩ := .move .escUnicode
      have hhex : ∀ {u : Nat} {x : UInt8}, isHex x →
          Piece mode ⟨fs, .str false (u + 1) key, 0⟩ [x] True [content x] ⟨fs, .str false u key, 0⟩ :=
        fun hx => Piece.move (.hex hx)
      have := h1.append (h2.append ((hhex ha).append ((hhex hb).append ((hhex hc).append (hhex hd)))))
      have hne := And.intro (isHex_ne_space ha) (And.intro (isHex_ne_space hb)
        (And.intro (isHex_ne_space hc) (isHex_ne_space hd)))
      simpa [JsonText.Char.print, SpacesFit, spaceRun, hne] using this

theorem spacesFit_append (r : Nat) (w₁ w₂ : List UInt8) :
    SpacesFit r (w₁ ++ w₂) ↔ SpacesFit r w₁ ∧ SpacesFit (spaceRun r w₁) w₂ := by
  induction w₁ generalizing r with
  | nil => simp [SpacesFit, spaceRun]
  | cons b w₁ ih => simp [SpacesFit, spaceRun, ih, and_assoc]

theorem spaceRun_append (r : Nat) (w₁ w₂ : List UInt8) :
    spaceRun r (w₁ ++ w₂) = spaceRun (spaceRun r w₁) w₂ := by
  induction w₁ generalizing r with
  | nil => rfl
  | cons b w₁ ih => simp [spaceRun, ih]

theorem body_piece (mode : JsonMode) (fs : List Bool) (key : Bool) (r : Nat) (s : Str) :
    Piece mode ⟨fs, .str false 0 key, r⟩ (Str.body s) (SpacesFit r (Str.body s))
      ((Str.body s).map content) ⟨fs, .str false 0 key, spaceRun r (Str.body s)⟩ := by
  induction s generalizing r with
  | nil => exact Piece.nil.congr (by simp [Str.body, SpacesFit])
  | cons c s ih =>
      have h := (char_piece mode fs key r c).append (ih (spaceRun r c.print))
      rw [← List.map_append, ← spaceRun_append] at h
      exact h.congr (spacesFit_append _ _ _).symm

/-- The trace of a string value. -/
def strTrace (s : Str) : List Obs :=
  ⟨0x22, { valueStart := true }, false⟩ ::
    ((Str.body s).map content ++ [⟨0x22, { scalarEnd := true }, false⟩])

/-- The trace of a key. -/
def keyTrace (s : Str) : List Obs :=
  ⟨0x22, { keyStart := true }, false⟩ ::
    ((Str.body s).map content ++ [⟨0x22, { keyEnd := true }, false⟩])

/-- Where a value may start. -/
abbrev S.Open (st : S) : Prop := st = .value ∨ st = .arrFirst

theorem open_isNum {st : S} (h : st.Open) : st.isNum = false := by
  rcases h with rfl | rfl <;> rfl

theorem str_piece {mode : JsonMode} {fs : List Bool} {st : S} (hst : st.Open)
    (htop : TopOk mode fs) (r : Nat) (s : Str) :
    Piece mode ⟨fs, st, r⟩ (Str.print s) (SpacesFit 0 (Str.body s)) (strTrace s)
      ⟨fs, after fs, 0⟩ := by
  have h₁ := Piece.move (Step.strOpen (r := r) hst htop)
  have h₃ : Piece mode ⟨fs, .str false 0 false, spaceRun 0 (Str.body s)⟩ [0x22] True
      [⟨0x22, { scalarEnd := true }, false⟩] ⟨fs, after fs, 0⟩ := .move .strClose
  have := h₁.append ((body_piece mode fs false 0 s).append h₃)
  rw [open_isNum hst] at this
  exact this.congr (by simp)

theorem key_piece {mode : JsonMode} {fs : List Bool} {st : S}
    (hst : st = .objFirst ∨ st = .objComma) (r : Nat) (s : Str) :
    Piece mode ⟨fs, st, r⟩ (Str.print s) (SpacesFit 0 (Str.body s)) (keyTrace s)
      ⟨fs, .colon, 0⟩ := by
  have h₁ : Piece mode ⟨fs, st, r⟩ [0x22] True [⟨0x22, { keyStart := true }, false⟩]
      ⟨fs, .str false 0 true, 0⟩ := by
    rcases hst with rfl | rfl <;> exact .move (.keyOpen (by simp))
  have h₃ : Piece mode ⟨fs, .str false 0 true, spaceRun 0 (Str.body s)⟩ [0x22] True
      [⟨0x22, { keyEnd := true }, false⟩] ⟨fs, .colon, 0⟩ := .move .keyClose
  have := h₁.append ((body_piece mode fs true 0 s).append h₃)
  exact this.congr (by simp)

/-! ## Literals -/

def litTrace : Literal → List Obs
  | .true => [⟨0x74, { valueStart := true }, false⟩, content 0x72, content 0x75,
      ⟨0x65, { scalarEnd := true }, false⟩]
  | .false => [⟨0x66, { valueStart := true }, false⟩, content 0x61, content 0x6C, content 0x73,
      ⟨0x65, { scalarEnd := true }, false⟩]
  | .null => [⟨0x6E, { valueStart := true }, false⟩, content 0x75, content 0x6C,
      ⟨0x6C, { scalarEnd := true }, false⟩]

theorem lit_piece {mode : JsonMode} {fs : List Bool} {st : S} (hst : st.Open)
    (htop : TopOk mode fs) (r : Nat) (l : Literal) :
    Piece mode ⟨fs, st, r⟩ l.print True (litTrace l) ⟨fs, after fs, 0⟩ := by
  have hopen : ∀ {b : UInt8} {k : Nat}, litStart b = some k →
      Piece mode ⟨fs, st, r⟩ [b] True [⟨b, { valueStart := true }, false⟩] ⟨fs, .lit k 1, 0⟩ := by
    intro b k hb
    have := Piece.move (Step.litOpen (r := r) hst htop hb)
    rwa [open_isNum hst] at this
  have hnext : ∀ {k p : Nat} {b : UInt8}, (literals k)[p]? = some b → p + 1 ≠ (literals k).length →
      Piece mode ⟨fs, .lit k p, 0⟩ [b] True [content b] ⟨fs, .lit k (p + 1), 0⟩ :=
    fun hb hp => Piece.move (.litNext hb hp)
  have hend : ∀ {k p : Nat} {b : UInt8}, (literals k)[p]? = some b → p + 1 = (literals k).length →
      Piece mode ⟨fs, .lit k p, 0⟩ [b] True [⟨b, { scalarEnd := true }, false⟩] ⟨fs, after fs, 0⟩ :=
    fun hb hp => Piece.move (.litEnd hb hp)
  cases l with
  | true =>
      exact ((hopen rfl).append ((hnext rfl (by decide)).append ((hnext rfl (by decide)).append
        (hend rfl rfl)))).congr (by simp)
  | false =>
      exact ((hopen rfl).append ((hnext rfl (by decide)).append ((hnext rfl (by decide)).append
        ((hnext rfl (by decide)).append (hend rfl rfl))))).congr (by simp)
  | null =>
      exact ((hopen rfl).append ((hnext rfl (by decide)).append ((hnext rfl (by decide)).append
        (hend rfl rfl)))).congr (by simp)

/-! ## Numbers -/

/-- The number state after the bytes of `w`. -/
def NumS.run : NumS → List UInt8 → Option NumS
  | n, [] => some n
  | n, b :: w => (n.next b).bind fun n' => NumS.run n' w

theorem NumS.run_append (n : NumS) (w₁ w₂ : List UInt8) :
    n.run (w₁ ++ w₂) = (n.run w₁).bind fun n' => n'.run w₂ := by
  induction w₁ generalizing n with
  | nil => rfl
  | cons b w₁ ih =>
      simp only [List.cons_append, NumS.run]
      cases n.next b with
      | none => rfl
      | some n' => simp [ih]

/-- The state in which a number ends. -/
def endNum (n : Number) : NumS :=
  match n.exp, n.frac, n.int with
  | some _, _, _ => .expDigits
  | none, some _, _ => .frac
  | none, none, .lead _ _ _ _ => .int
  | none, none, .zero => .zero

theorem endNum_complete (n : Number) : (endNum n).complete := by
  unfold endNum
  split <;> rfl

theorem next_digit {s : NumS} (hs : s = .int ∨ s = .frac ∨ s = .expDigits) {b : UInt8}
    (hb : isDigit b) : s.next b = some s := by
  have hb' : 0x30 ≤ b ∧ b ≤ 0x39 := by simpa [isDigit] using hb
  rcases hs with rfl | rfl | rfl <;> simp [NumS.next, hb']

theorem run_digits {s : NumS} (hs : s = .int ∨ s = .frac ∨ s = .expDigits) (w : List UInt8)
    (hw : ∀ b ∈ w, isDigit b) : s.run w = some s := by
  induction w with
  | nil => rfl
  | cons b w ih =>
      rw [NumS.run, next_digit hs (hw b (by simp)), Option.bind_some]
      exact ih fun c hc => hw c (by simp [hc])

/-- The digits that must follow a point, or an exponent mark and its sign. -/
theorem run_digits_start {s s' : NumS} (hs : ∀ b, isDigit b → s.next b = some s')
    (hs' : s' = .int ∨ s' = .frac ∨ s' = .expDigits) (d : Digits) : s.run d.print = some s' := by
  rw [Digits.print, NumS.run, hs _ d.first_digit, Option.bind_some]
  exact run_digits hs' _ d.rest_digit

theorem run_exp (s : NumS) (hs : s = .zero ∨ s = .int ∨ s = .frac) (e : Exponent) :
    s.run e.print = some .expDigits := by
  have hdig : ∀ b, isDigit b → NumS.next .exp b = some .expDigits := by
    intro b hb
    have hb' : 0x30 ≤ b ∧ b ≤ 0x39 := by simpa [isDigit] using hb
    have hsign : ¬ (b = 0x2B ∨ b = 0x2D) := by grind
    simp [NumS.next, hb', hsign]
  have hdig' : ∀ b, isDigit b → NumS.next .expSign b = some .expDigits := by
    intro b hb
    have hb' : 0x30 ≤ b ∧ b ≤ 0x39 := by simpa [isDigit] using hb
    simp [NumS.next, hb']
  have hmark : s.next e.marker = some .exp := by
    rcases e.marker_ok with h | h <;> rw [h] <;> rcases hs with rfl | rfl | rfl <;> rfl
  rw [Exponent.print, NumS.run, hmark, Option.bind_some, NumS.run_append]
  rcases e.sign_ok with h | h | h
  · rw [h]; exact run_digits_start hdig (by simp) _
  · rw [h]; exact run_digits_start hdig' (by simp) _
  · rw [h]; exact run_digits_start hdig' (by simp) _

theorem run_frac (s : NumS) (hs : s = .zero ∨ s = .int) (d : Digits) :
    s.run (Number.printFrac (some d)) = some .frac := by
  have hdot : s.next 0x2E = some .dot := by rcases hs with rfl | rfl <;> rfl
  rw [Number.printFrac, NumS.run, hdot, Option.bind_some]
  refine run_digits_start (fun b hb => ?_) (by simp) d
  have hb' : 0x30 ≤ b ∧ b ≤ 0x39 := by simpa [isDigit] using hb
  simp [NumS.next, hb']

/-- The state after the integer part. -/
def IntPart.endNum : IntPart → NumS
  | .zero => .zero
  | .lead _ _ _ _ => .int

/-- The integer part's first byte starts the number, and the rest runs on from it. -/
theorem run_int (neg : Bool) (int : IntPart) :
    ∃ b w n, Number.printInt neg int = b :: w ∧ numStart b = some n ∧
      n.run w = some (IntPart.endNum int) := by
  cases neg with
  | true =>
      cases int with
      | zero => exact ⟨0x2D, [0x30], .minus, rfl, rfl, rfl⟩
      | lead d rest hd hrest =>
          refine ⟨0x2D, d :: rest, .minus, rfl, rfl, ?_⟩
          have hd' : 0x31 ≤ d ∧ d ≤ 0x39 := by simpa [isDigit19] using hd
          have h0 : d ≠ 0x30 ∧ 0x30 ≤ d := by grind
          rw [NumS.run, show NumS.next .minus d = some .int by simp [NumS.next, hd', h0]]
          exact run_digits (.inl rfl) rest hrest
  | false =>
      cases int with
      | zero => exact ⟨0x30, [], .zero, rfl, rfl, rfl⟩
      | lead d rest hd hrest =>
          refine ⟨d, rest, .int, rfl, ?_, run_digits (.inl rfl) rest hrest⟩
          have hd' : 0x31 ≤ d ∧ d ≤ 0x39 := by simpa [isDigit19] using hd
          have h0 : d ≠ 0x2D ∧ d ≠ 0x30 := by grind
          simp [numStart, hd', h0]

theorem run_number (n : Number) :
    ∃ b w s, n.print = b :: w ∧ numStart b = some s ∧ s.run w = some (endNum n) := by
  obtain ⟨neg, int, frac, exp⟩ := n
  obtain ⟨b, w, s, hprint, hs, hrun⟩ := run_int neg int
  refine ⟨b, w ++ (Number.printFrac frac ++ Number.printExp exp), s, ?_, hs, ?_⟩
  · simp [Number.print, hprint]
  · have hint : IntPart.endNum int = .zero ∨ IntPart.endNum int = .int := by cases int <;> simp [IntPart.endNum]
    rw [NumS.run_append, hrun, Option.bind_some, NumS.run_append]
    cases frac with
    | none =>
        cases exp with
        | none => cases int <;> rfl
        | some e => exact run_exp _ (by rcases hint with h | h <;> simp [h]) e
    | some d =>
        rw [run_frac _ hint d, Option.bind_some]
        cases exp with
        | none => rfl
        | some e => exact run_exp _ (by simp) e

def numTrace : List UInt8 → List Obs
  | [] => []
  | b :: w => ⟨b, { valueStart := true }, false⟩ :: w.map fun b => ⟨b, {}, true⟩

theorem numRest_piece {mode : JsonMode} {fs : List Bool} (n n' : NumS) (w : List UInt8)
    (h : n.run w = some n') :
    Piece mode ⟨fs, .num n, 0⟩ w True (w.map fun b => ⟨b, {}, true⟩) ⟨fs, .num n', 0⟩ := by
  induction w generalizing n with
  | nil =>
      cases h
      exact .nil
  | cons b w ih =>
      obtain ⟨n₁, hb, hrun⟩ := Option.bind_eq_some_iff.1 h
      exact ((Piece.move (.numNext (r := 0) hb)).append (ih n₁ hrun)).congr (by simp)

theorem num_piece {mode : JsonMode} {fs : List Bool} {st : S} (hst : st.Open)
    (htop : TopOk mode fs) (r : Nat) (n : Number) :
    Piece mode ⟨fs, st, r⟩ n.print True (numTrace n.print) ⟨fs, .num (endNum n), 0⟩ := by
  obtain ⟨b, w, s, hprint, hs, hrun⟩ := run_number n
  have h₁ := Piece.move (Step.numOpen (r := r) hst htop hs)
  rw [open_isNum hst] at h₁
  rw [hprint]
  exact (h₁.append (numRest_piece s _ w hrun)).congr (by simp)

/-! ## Trees -/

/-- The state right after a value: a number is still open. -/
def endState (fs : List Bool) : Value → S
  | .num n => .num (endNum n)
  | _ => after fs

/-- The view after a value and the gap behind it. -/
def tailView (fs : List Bool) (v : Value) (g : Gap) : View :=
  ⟨fs, if g.bytes = [] then endState fs v else after fs, gapCost v.isNum g⟩

/-- Whether a number is still open behind a value and its gap. -/
def pending (v : Value) (g : Gap) : Bool := v.isNum && g.bytes.isEmpty

/-- A delimiter's observation; it ends a number still open. -/
def mark (num : Bool) (b : UInt8) (ev : Events) : Obs := ⟨b, { ev with scalarEnd := num }, num⟩

def itemsTail (fs : List Bool) : Items → View
  | .one _ v g₂ => tailView fs v g₂
  | .snoc _ _ v g₂ => tailView fs v g₂

def itemsPending : Items → Bool
  | .one _ v g₂ => pending v g₂
  | .snoc _ _ v g₂ => pending v g₂

def membersTail (fs : List Bool) : Members → View
  | .one _ _ _ _ v g₄ => tailView fs v g₄
  | .snoc _ _ _ _ _ v g₄ => tailView fs v g₄

def membersPending : Members → Bool
  | .one _ _ _ _ v g₄ => pending v g₄
  | .snoc _ _ _ _ _ v g₄ => pending v g₄

mutual

/-- The trace of a value; the event that ends a number belongs to the byte after it. -/
def valueTrace : Value → List Obs
  | .lit l => litTrace l
  | .num n => numTrace n.print
  | .str s => strTrace s
  | .emptyArr _ => [⟨0x5B, { valueStart := true, arrOpen := true }, false⟩, mark false 0x5D { arrClose := true }]
  | .arr items =>
      ⟨0x5B, { valueStart := true, arrOpen := true }, false⟩ ::
        (itemsTrace items ++ [mark (itemsPending items) 0x5D { arrClose := true }])
  | .emptyObj g =>
      ⟨0x7B, { valueStart := true, objOpen := true }, false⟩ ::
        (gapTrace false g.bytes ++ [mark false 0x7D { objClose := true }])
  | .obj members =>
      ⟨0x7B, { valueStart := true, objOpen := true }, false⟩ ::
        (membersTrace members ++ [mark (membersPending members) 0x7D { objClose := true }])

def itemsTrace : Items → List Obs
  | .one g₁ v g₂ => gapTrace false g₁.bytes ++ (valueTrace v ++ gapTrace v.isNum g₂.bytes)
  | .snoc init g₁ v g₂ =>
      itemsTrace init ++ mark (itemsPending init) 0x2C {} ::
        (gapTrace false g₁.bytes ++ (valueTrace v ++ gapTrace v.isNum g₂.bytes))

def membersTrace : Members → List Obs
  | .one g₁ key g₂ g₃ v g₄ =>
      gapTrace false g₁.bytes ++ (keyTrace key ++ (gapTrace false g₂.bytes ++ content 0x3A ::
        (gapTrace false g₃.bytes ++ (valueTrace v ++ gapTrace v.isNum g₄.bytes))))
  | .snoc init g₁ key g₂ g₃ v g₄ =>
      membersTrace init ++ mark (membersPending init) 0x2C { objComma := true } ::
        (gapTrace false g₁.bytes ++ (keyTrace key ++ (gapTrace false g₂.bytes ++ content 0x3A ::
          (gapTrace false g₃.bytes ++ (valueTrace v ++ gapTrace v.isNum g₄.bytes)))))

end

/-- What the automaton requires of the free parts of a text. -/
def readable : Layout where
  gap num g := gapCost num g ≤ maxWhitespaceRun
  hole g := g.bytes = []
  str s := SpacesFit 0 (Str.body s)
  num _ := True

theorem gap_empty (num : Bool) : readable.gap num .empty := by simp [readable, gapCost, Gap.empty]

theorem gapCost_false (g : Gap) :
    (g.bytes ≠ [] → 0 + g.bytes.length ≤ maxWhitespaceRun) ↔ readable.gap false g := by
  show _ ↔ gapCost false g ≤ _
  cases h : g.bytes with
  | nil => simp [gapCost, h]
  | cons b bs => simp [gapCost, h]

theorem tailGap_piece {mode : JsonMode} {fs : List Bool} (v : Value) (g : Gap) :
    Piece mode ⟨fs, endState fs v, 0⟩ g.bytes (readable.gap v.isNum g) (gapTrace v.isNum g.bytes)
      (tailView fs v g) := by
  by_cases hg : g.bytes = []
  · have hC : readable.gap v.isNum g := by simp [readable, gapCost, hg]
    have : Piece mode ⟨fs, endState fs v, 0⟩ [] (readable.gap v.isNum g) [] ⟨fs, endState fs v, 0⟩ :=
      Piece.nil.congr (iff_of_true trivial hC)
    simpa [tailView, gapCost, hg, gapTrace] using this
  · have hplain : v.isNum = false → Piece mode ⟨fs, after fs, 0⟩ g.bytes (readable.gap false g)
        (gapTrace false g.bytes) ⟨fs, after fs, gapCost false g⟩ := by
      intro _
      simpa [gapCost] using (gap_piece mode fs (after_gap fs) 0 g.bytes g.space).congr (gapCost_false g)
    have hview : tailView fs v g = ⟨fs, after fs, gapCost v.isNum g⟩ := by simp [tailView, hg]
    rw [hview]
    cases v with
    | num n => exact numGap_piece mode fs (endNum_complete n) g hg
    | _ => exact hplain rfl

/-- Behind a value and its gap either a number is still open or the container's next state is
reached. -/
theorem tailView_cases (fs : List Bool) (v : Value) (g : Gap) :
    (∃ n, n.complete ∧ tailView fs v g = ⟨fs, .num n, 0⟩ ∧ pending v g = true) ∨
      (∃ r, tailView fs v g = ⟨fs, after fs, r⟩ ∧ pending v g = false) := by
  by_cases hg : g.bytes = []
  · cases v with
    | num n => exact .inl ⟨endNum n, endNum_complete n, by simp [tailView, hg, endState, gapCost],
        by simp [pending, hg, Value.isNum]⟩
    | _ => exact .inr ⟨0, by simp [tailView, hg, endState, gapCost], rfl⟩
  · exact .inr ⟨_, by simp [tailView, hg]; rfl, by simp [pending, hg]⟩

theorem tail_arrComma {mode : JsonMode} {fs : List Bool} (v : Value) (g : Gap) :
    Piece mode (tailView (true :: fs) v g) [0x2C] True [mark (pending v g) 0x2C {}]
      ⟨true :: fs, .value, 0⟩ := by
  rcases tailView_cases (true :: fs) v g with ⟨n, hn, hv, hp⟩ | ⟨r, hv, hp⟩
  · rw [hv, hp]; exact Piece.move (.numArrComma hn)
  · rw [hv, hp]; exact Piece.move .arrComma

theorem tail_objComma {mode : JsonMode} {fs : List Bool} (v : Value) (g : Gap) :
    Piece mode (tailView (false :: fs) v g) [0x2C] True
      [mark (pending v g) 0x2C { objComma := true }] ⟨false :: fs, .objComma, 0⟩ := by
  rcases tailView_cases (false :: fs) v g with ⟨n, hn, hv, hp⟩ | ⟨r, hv, hp⟩
  · rw [hv, hp]; exact Piece.move (.numObjComma hn)
  · rw [hv, hp]; exact Piece.move .objComma

theorem tail_arrClose {mode : JsonMode} {fs : List Bool} (v : Value) (g : Gap) :
    Piece mode (tailView (true :: fs) v g) [0x5D] True
      [mark (pending v g) 0x5D { arrClose := true }] ⟨fs, after fs, 0⟩ := by
  rcases tailView_cases (true :: fs) v g with ⟨n, hn, hv, hp⟩ | ⟨r, hv, hp⟩
  · rw [hv, hp]; exact Piece.move (.numArrClose hn)
  · rw [hv, hp]; exact Piece.move (.arrClose (.inr rfl))

theorem tail_objClose {mode : JsonMode} {fs : List Bool} (v : Value) (g : Gap) :
    Piece mode (tailView (false :: fs) v g) [0x7D] True
      [mark (pending v g) 0x7D { objClose := true }] ⟨fs, after fs, 0⟩ := by
  rcases tailView_cases (false :: fs) v g with ⟨n, hn, hv, hp⟩ | ⟨r, hv, hp⟩
  · rw [hv, hp]; exact Piece.move (.numObjClose hn)
  · rw [hv, hp]; exact Piece.move (.objClose (.inr rfl))

/-- A byte that cannot be read stops everything behind it. -/
theorem Piece.stuck {mode : JsonMode} {v v₁ v' : View} {w₁ : List UInt8} {C₁ : Prop}
    {τ₁ τ : List Obs} (h : Piece mode v w₁ C₁ τ₁ v₁) (hC : ¬ C₁) (w₂ : List UInt8) :
    Piece mode v (w₁ ++ w₂) False τ v' := by
  refine .never fun m p hm ht => ?_
  rw [JsonMachine.trace_append] at ht
  obtain ⟨p₁, ht₁, -⟩ := Option.bind_eq_some_iff.1 ht
  exact hC (h.needs m p₁ hm ht₁)

/-- Where a value may start, only `{` passes the top of an `Object` document. -/
theorem topOk_of_step {mode : JsonMode} {fs : List Bool} {st : S} (hst : st.Open) {r : Nat}
    {b : UInt8} {v : View} {ev : Events} (hws : isWs b = false) (hobj : b ≠ 0x7B) (harr : b ≠ 0x5D)
    (h : Step mode ⟨fs, st, r⟩ b v ev) : TopOk mode fs := by
  cases h with
  | gap _ hws' => simp [hws] at hws'
  | arrGap hws' => simp [hws] at hws'
  | arrOpen _ _ htop => exact htop
  | strOpen _ htop => exact htop
  | numOpen _ htop => exact htop
  | litOpen _ htop => exact htop
  | keyOpen hst' => rcases hst with rfl | rfl <;> simp at hst'
  | objClose => exact topOk_cons _ _ _
  | _ => first | contradiction | simp [S.Open] at hst

/-- The first byte of a value. -/
theorem print_head (v : Value) : v.isObject ∨ ∃ b w, v.print = b :: w ∧ isWs b = false ∧
    b ≠ 0x7B ∧ b ≠ 0x5D := by
  cases v with
  | lit l => cases l <;> exact .inr ⟨_, _, rfl, by decide⟩
  | num n =>
      obtain ⟨b, w, s, hprint, hs, -⟩ := run_number n
      refine .inr ⟨b, w, hprint, ?_⟩
      rcases JsonMachine.numStart_byte hs with ⟨rfl, -⟩ | ⟨rfl, -⟩ | ⟨hb, -⟩
      · decide
      · decide
      · simp only [isWs, Bool.or_eq_false_iff, beq_eq_false_iff_ne]; grind
  | str s => exact .inr ⟨_, _, rfl, by decide⟩
  | emptyArr g => exact .inr ⟨_, _, rfl, by decide⟩
  | arr items => exact .inr ⟨_, _, rfl, by decide⟩
  | emptyObj g => exact .inl rfl
  | obj members => exact .inl rfl

/-- The root rule blocks every value but an object at its first byte. -/
theorem rootOk_piece {mode : JsonMode} {fs : List Bool} {st : S} (hst : st.Open) {r : Nat} {v : Value}
    (hroot : ¬ RootOk mode fs v) {τ : List Obs} {v' : View} :
    Piece mode ⟨fs, st, r⟩ v.print False τ v' := by
  rcases print_head v with hobj | ⟨b, w, hprint, hws, hbo, hba⟩
  · exact absurd (fun _ _ => hobj) hroot
  · rw [hprint]
    refine .never fun m p hm ht => hroot (.of_topOk ?_ v)
    obtain ⟨⟨m₁, ev⟩, hev, -⟩ := Option.bind_eq_some_iff.1 ht
    have hstep := JsonMachine.step_of_stepEv hev
    rw [hm] at hstep
    exact topOk_of_step hst hws hbo hba hstep

/-- An opening brace is read below the depth cap. -/
theorem objOpen_piece (mode : JsonMode) (fs : List Bool) {st : S} (hst : st.Open) (r : Nat) :
    Piece mode ⟨fs, st, r⟩ [0x7B] (fs.length < maxDepth)
      [⟨0x7B, { valueStart := true, objOpen := true }, false⟩] ⟨false :: fs, .objFirst, 0⟩ := by
  have hneed : ∀ v'' ev', Step mode ⟨fs, st, r⟩ 0x7B v'' ev' → fs.length < maxDepth := by
    intro v'' ev' h
    cases h with
    | objOpen _ hd => exact hd
    | numOpen _ _ hb => cases hb
    | litOpen _ _ hb => cases hb
    | gap _ hws => cases hws
    | arrGap hws => cases hws
    | _ => simp [S.Open] at hst
  have := Piece.byte (Step.objOpen hst) hneed
  rwa [open_isNum hst] at this

theorem arrOpen_piece {mode : JsonMode} {fs : List Bool} {st : S} (hst : st.Open) (r : Nat)
    (htop : TopOk mode fs) :
    Piece mode ⟨fs, st, r⟩ [0x5B] (fs.length < maxDepth)
      [⟨0x5B, { valueStart := true, arrOpen := true }, false⟩] ⟨true :: fs, .arrFirst, 0⟩ := by
  have hneed : ∀ v'' ev', Step mode ⟨fs, st, r⟩ 0x5B v'' ev' → fs.length < maxDepth := by
    intro v'' ev' h
    cases h with
    | arrOpen _ hd => exact hd
    | numOpen _ _ hb => cases hb
    | litOpen _ _ hb => cases hb
    | gap _ hws => cases hws
    | arrGap hws => cases hws
    | _ => simp [S.Open] at hst
  have := Piece.byte (fun hd => Step.arrOpen hst hd htop) hneed
  rwa [open_isNum hst] at this

/-- The closing bracket of an empty array is read only right behind the opening one: whitespace
between them moves the automaton to `Value`. -/
theorem hole_piece {mode : JsonMode} {fs : List Bool} (g : Gap) :
    Piece mode ⟨true :: fs, .arrFirst, 0⟩ (g.bytes ++ [0x5D]) (readable.hole g)
      [mark false 0x5D { arrClose := true }] ⟨fs, after fs, 0⟩ := by
  by_cases hg : g.bytes = []
  · have : Piece mode ⟨true :: fs, .arrFirst, 0⟩ [0x5D] True [mark false 0x5D { arrClose := true }]
        ⟨fs, after fs, 0⟩ := .move (.arrClose (.inl rfl))
    rw [hg]
    exact this.congr (by simp [readable, hg])
  · have hno : Piece mode ⟨true :: fs, .value, 0 + g.bytes.length⟩ [0x5D] False
        [mark false 0x5D { arrClose := true }] ⟨fs, after fs, 0⟩ := by
      refine .byte False.elim fun v'' ev' h => ?_
      cases h with
      | gap _ hws => cases hws
      | numOpen _ _ hb => cases hb
      | litOpen _ _ hb => cases hb
      | arrClose hst => simp at hst
    have hgap := valueGap_piece mode (true :: fs) (.inr rfl : S.Open .arrFirst) 0 g
    rw [if_neg hg] at hgap
    refine ⟨fun h => absurd h hg, fun m p hm ht => ?_⟩
    exact ((hgap.append hno).needs m p hm ht).2.elim

theorem items_close {mode : JsonMode} {fs : List Bool} (items : Items) :
    Piece mode (itemsTail (true :: fs) items) [0x5D] True
      [mark (itemsPending items) 0x5D { arrClose := true }] ⟨fs, after fs, 0⟩ := by
  cases items <;> exact tail_arrClose _ _

theorem items_comma {mode : JsonMode} {fs : List Bool} (items : Items) :
    Piece mode (itemsTail (true :: fs) items) [0x2C] True [mark (itemsPending items) 0x2C {}]
      ⟨true :: fs, .value, 0⟩ := by
  cases items <;> exact tail_arrComma _ _

theorem members_close {mode : JsonMode} {fs : List Bool} (members : Members) :
    Piece mode (membersTail (false :: fs) members) [0x7D] True
      [mark (membersPending members) 0x7D { objClose := true }] ⟨fs, after fs, 0⟩ := by
  cases members <;> exact tail_objClose _ _

theorem members_comma {mode : JsonMode} {fs : List Bool} (members : Members) :
    Piece mode (membersTail (false :: fs) members) [0x2C] True
      [mark (membersPending members) 0x2C { objComma := true }] ⟨false :: fs, .objComma, 0⟩ := by
  cases members <;> exact tail_objComma _ _

theorem topOk_of_rootOk {mode : JsonMode} {fs : List Bool} {v : Value} (h : RootOk mode fs v)
    (hv : v.isObject = false) : TopOk mode fs := by
  intro hm hfs
  have hobj := h hm hfs
  rw [hv] at hobj
  cases hobj

/-- Beyond the depth cap an opening bracket stops the automaton. -/
theorem nested_piece {mode : JsonMode} {v₀ v₁ v' : View} {w₁ w₂ : List UInt8} {τ₁ τ₂ : List Obs}
    {n d : Nat} {A : Prop} (hopen : Piece mode v₀ w₁ (n < maxDepth) τ₁ v₁)
    (hrest : n + 1 ≤ maxDepth → Piece mode v₁ w₂ (A ∧ d + (n + 1) ≤ maxDepth) τ₂ v') :
    Piece mode v₀ (w₁ ++ w₂) (A ∧ d + 1 + n ≤ maxDepth) (τ₁ ++ τ₂) v' := by
  by_cases hn : n < maxDepth
  · refine (hopen.append (hrest hn)).congr ?_
    have : d + 1 + n = d + (n + 1) := by omega
    simp [hn, this]
  · refine (hopen.stuck hn w₂).congr ?_
    have : ¬ d + 1 + n ≤ maxDepth := by omega
    simp [this]

theorem rootOk_cons (mode : JsonMode) (k : Bool) (fs : List Bool) (v : Value) :
    RootOk mode (k :: fs) v :=
  .of_topOk (topOk_cons mode k fs) v

theorem valueGap_open {st : S} (hst : st.Open) (g : Gap) :
    S.Open (if g.bytes = [] then st else .value) := by
  split
  · exact hst
  · exact .inl rfl

theorem obj_closeEmpty {mode : JsonMode} {fs : List Bool} {r : Nat} :
    Piece mode ⟨false :: fs, .objFirst, r⟩ [0x7D] True [mark false 0x7D { objClose := true }]
      ⟨fs, after fs, 0⟩ :=
  .move (.objClose (.inl rfl))

/-- The reading of a value, as `value_piece` states it. -/
def ValuePiece (mode : JsonMode) (v : Value) : Prop :=
  ∀ (fs : List Bool) (st : S), st.Open → fs.length ≤ maxDepth → ∀ r : Nat, RootOk mode fs v →
    Piece mode ⟨fs, st, r⟩ v.print (v.All readable ∧ v.depth + fs.length ≤ maxDepth)
      (valueTrace v) ⟨fs, endState fs v, 0⟩

/-- A value between its two gaps. -/
theorem spaced_piece {mode : JsonMode} (k : Bool) {fs : List Bool} {st : S} (hst : st.Open)
    (hlen : fs.length + 1 ≤ maxDepth) {v : Value} (hv : ValuePiece mode v) (g₁ g₂ : Gap) :
    Piece mode ⟨k :: fs, st, 0⟩ (g₁.bytes ++ v.print ++ g₂.bytes)
      ((readable.gap false g₁ ∧ v.All readable ∧ readable.gap v.isNum g₂) ∧
        v.depth + (fs.length + 1) ≤ maxDepth)
      (gapTrace false g₁.bytes ++ (valueTrace v ++ gapTrace v.isNum g₂.bytes))
      (tailView (k :: fs) v g₂) := by
  have hgap := (valueGap_piece mode (k :: fs) hst 0 g₁).congr (gapCost_false g₁)
  have hval := hv (k :: fs) _ (valueGap_open hst g₁) hlen (0 + g₁.bytes.length)
    (rootOk_cons mode k fs v)
  have := hgap.append (hval.append (tailGap_piece v g₂))
  rw [List.append_assoc]
  refine this.congr ?_
  simp only [List.length_cons]
  tauto

/-- A key and its colon, with the gaps around the key. -/
theorem keyed_piece {mode : JsonMode} {fs : List Bool} {st : S} (hst : st = .objFirst ∨ st = .objComma)
    (g₁ : Gap) (key : Str) (g₂ : Gap) :
    Piece mode ⟨fs, st, 0⟩ (g₁.bytes ++ Str.print key ++ g₂.bytes ++ [0x3A])
      (readable.gap false g₁ ∧ readable.str key ∧ readable.gap false g₂)
      (gapTrace false g₁.bytes ++ (keyTrace key ++ (gapTrace false g₂.bytes ++ [content 0x3A])))
      ⟨fs, .value, 0⟩ := by
  have hgap : st.gap := by rcases hst with rfl | rfl <;> rfl
  have h₁ := (gap_piece mode fs hgap 0 g₁.bytes g₁.space).congr (gapCost_false g₁)
  have h₃ := (gap_piece mode fs S.gap_colon 0 g₂.bytes g₂.space).congr (gapCost_false g₂)
  have := h₁.append ((key_piece hst _ key).append (h₃.append (.move .colon)))
  simp only [List.append_assoc]
  exact this.congr (by simp [readable])

/-- A whole member. -/
theorem member_piece {mode : JsonMode} {fs : List Bool} {st : S}
    (hst : st = .objFirst ∨ st = .objComma) (hlen : fs.length + 1 ≤ maxDepth) {v : Value}
    (hv : ValuePiece mode v) (g₁ : Gap) (key : Str) (g₂ g₃ g₄ : Gap) :
    Piece mode ⟨false :: fs, st, 0⟩
      (g₁.bytes ++ Str.print key ++ g₂.bytes ++ 0x3A :: (g₃.bytes ++ v.print ++ g₄.bytes))
      ((readable.gap false g₁ ∧ readable.str key ∧ readable.gap false g₂ ∧ readable.gap false g₃ ∧
        v.All readable ∧ readable.gap v.isNum g₄) ∧ v.depth + (fs.length + 1) ≤ maxDepth)
      (gapTrace false g₁.bytes ++ (keyTrace key ++ (gapTrace false g₂.bytes ++ content 0x3A ::
        (gapTrace false g₃.bytes ++ (valueTrace v ++ gapTrace v.isNum g₄.bytes)))))
      (tailView (false :: fs) v g₄) := by
  have h := (keyed_piece hst g₁ key g₂).append (spaced_piece false (.inl rfl) hlen hv g₃ g₄)
  simp only [List.append_assoc, List.singleton_append] at h ⊢
  exact h.congr (by tauto)

mutual

/-- A value is read exactly when its free parts are readable and it stays within the depth cap, given
that it may stand at the root. -/
theorem value_piece (mode : JsonMode) : ∀ v : Value, ValuePiece mode v
  | .lit l => by
      intro fs st hst hlen r hroot
      exact (lit_piece hst (topOk_of_rootOk hroot rfl) r l).congr
        (by simp [Value.All, Value.depth, hlen])
  | .num n => by
      intro fs st hst hlen r hroot
      exact (num_piece hst (topOk_of_rootOk hroot rfl) r n).congr
        (by simp [Value.All, Value.depth, hlen, readable])
  | .str s => by
      intro fs st hst hlen r hroot
      exact (str_piece hst (topOk_of_rootOk hroot rfl) r s).congr
        (by simp [Value.All, Value.depth, hlen, readable])
  | .emptyArr g => by
      intro fs st hst hlen r hroot
      have := nested_piece (arrOpen_piece hst r (topOk_of_rootOk hroot rfl)) fun hn =>
        (hole_piece g).congr (by simp [hn] : _ ↔ readable.hole g ∧ 0 + (fs.length + 1) ≤ maxDepth)
      simpa [Value.All, Value.depth, Value.print, valueTrace, endState] using this
  | .arr items => by
      intro fs st hst hlen r hroot
      have := nested_piece (arrOpen_piece hst r (topOk_of_rootOk hroot rfl)) fun hn =>
        ((items_piece hn items).append (items_close items)).congr (by rw [and_true])
      simpa [Value.All, Value.depth, Value.print, valueTrace, endState] using this
  | .emptyObj g => by
      intro fs st hst hlen r hroot
      have hgap := (gap_piece mode (false :: fs) S.gap_objFirst 0 g.bytes g.space).congr
        (gapCost_false g)
      have := nested_piece (objOpen_piece mode fs hst r) fun hn =>
        (hgap.append obj_closeEmpty).congr
          (by simp [hn] : _ ↔ readable.gap false g ∧ 0 + (fs.length + 1) ≤ maxDepth)
      simpa [Value.All, Value.depth, Value.print, valueTrace, endState] using this
  | .obj members => by
      intro fs st hst hlen r hroot
      have := nested_piece (objOpen_piece mode fs hst r) fun hn =>
        ((members_piece hn members).append (members_close members)).congr (by rw [and_true])
      simpa [Value.All, Value.depth, Value.print, valueTrace, endState] using this

theorem items_piece {mode : JsonMode} {fs : List Bool} (hlen : fs.length + 1 ≤ maxDepth) :
    ∀ items : Items, Piece mode ⟨true :: fs, .arrFirst, 0⟩ items.print
      (items.All readable ∧ items.depth + (fs.length + 1) ≤ maxDepth) (itemsTrace items)
      (itemsTail (true :: fs) items)
  | .one g₁ v g₂ => spaced_piece true (.inr rfl) hlen (value_piece mode v) g₁ g₂
  | .snoc init g₁ v g₂ => by
      have hspaced := spaced_piece true (.inl rfl) hlen (value_piece mode v) g₁ g₂
      have := (items_piece hlen init).append ((items_comma init).append hspaced)
      refine this.congr ?_
      simp only [Items.All, Items.depth, true_and, ← max_add_add_right, max_le_iff]
      tauto

theorem members_piece {mode : JsonMode} {fs : List Bool} (hlen : fs.length + 1 ≤ maxDepth) :
    ∀ members : Members, Piece mode ⟨false :: fs, .objFirst, 0⟩ members.print
      (members.All readable ∧ members.depth + (fs.length + 1) ≤ maxDepth) (membersTrace members)
      (membersTail (false :: fs) members)
  | .one g₁ key g₂ g₃ v g₄ => member_piece (.inl rfl) hlen (value_piece mode v) g₁ key g₂ g₃ g₄
  | .snoc init g₁ key g₂ g₃ v g₄ => by
      have hmember := member_piece (.inr rfl) hlen (value_piece mode v) g₁ key g₂ g₃ g₄
      have := (members_piece hlen init).append ((members_comma init).append hmember)
      refine this.congr ?_
      simp only [Members.All, Members.depth, true_and, ← max_add_add_right, max_le_iff]
      tauto

end

end Oxydllm.Constrain
