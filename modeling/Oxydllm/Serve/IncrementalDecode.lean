/-
# Oxydllm.Serve.IncrementalDecode — text deltas of a growing sequence of tokens (`IncrementalDecoder`).

The decoder freezes the text of all tokens but the last four and decodes these anew at every step. A
boundary behind which the text would end in a replacement character is moved back by up to three tokens;
when none of them is clean, the text is frozen where the window ends, whatever is there.

A tokenizer decodes the bytes of its tokens, and the neutral token is ASCII.
-/
import Oxydllm.Lib.Utf8Lossy
import Oxydllm.Kv.PrefixCache

namespace Oxydllm.Serve

open Kv (Token)
open Utf8Lossy

/-! ## Texts and their bytes -/

/-- `str::len`. -/
def byteLen (s : List Char) : Nat := (s.map Char.utf8Size).sum

/-- Clamps down to the nearest character boundary. -/
def clampToCharBoundary : List Char → Nat → Nat
  | [], _ => 0
  | c :: s, idx => if c.utf8Size ≤ idx then c.utf8Size + clampToCharBoundary s (idx - c.utf8Size) else 0

/-- `&s[start..]`, at a boundary. -/
def sliceFrom : List Char → Nat → List Char
  | [], _ => []
  | c :: s, start => if start = 0 then c :: s else sliceFrom s (start - c.utf8Size)

/-- The suffix not yet sent, but for replacement characters at its end; and the length decoded then. -/
def emitSuffix (full : List Char) (decodedLen : Nat) : Option (List Char) × Nat :=
  let start := clampToCharBoundary full decodedLen
  let emit := settled (sliceFrom full start)
  if emit.isEmpty then (none, start) else (some emit, start + byteLen emit)

/-! ## The decoder -/

def decodeStableLookback : Nat := 4

def splitCharBackoff : Nat := 3

structure NeutralPrefix where
  id : Token
  text : List Char

structure IncrementalDecoder where
  decodedLen : Nat
  stableEnd : Nat
  stableText : List Char

namespace IncrementalDecoder

def new : IncrementalDecoder := ⟨0, 0, []⟩

section

variable (decode : List Token → List Char) (neutral : NeutralPrefix)

/-- The text without what a neutral token in front of it adds. -/
def decodeWithNeutralPrefix (ids : List Token) : List Char :=
  if ids.isEmpty then []
  else
    let withPrefix := decode (neutral.id :: ids)
    if neutral.text.isPrefixOf withPrefix then withPrefix.drop neutral.text.length else decode ids

def endsInReplacement (s : List Char) : Bool := s.getLast? == some replacement

/-- Moves the end of the window back, at most `fuel` tokens. -/
def backOff (decodeDelta : Nat → List Char) (stableEnd target : Nat) : Nat → Nat → Nat
  | 0, e => e
  | fuel + 1, e =>
      if endsInReplacement (decodeDelta e) && e > stableEnd + 1 && e + splitCharBackoff > target then
        backOff decodeDelta stableEnd target fuel (e - 1)
      else e

/-- The text of the tokens between the boundary and a new one. -/
def decodeDelta (d : IncrementalDecoder) (allIds : List Token) (e : Nat) : List Char :=
  if d.stableEnd = 0 then decode (allIds.take e)
  else decodeWithNeutralPrefix decode neutral ((allIds.take e).drop d.stableEnd)

def freeze (d : IncrementalDecoder) (allIds : List Token) (e : Nat) : IncrementalDecoder :=
  let delta := d.decodeDelta decode neutral allIds e
  { d with stableText := if d.stableEnd = 0 then delta else d.stableText ++ delta, stableEnd := e }

def advanceStableWindow (d : IncrementalDecoder) (allIds : List Token) : IncrementalDecoder :=
  let target := allIds.length - decodeStableLookback
  if target ≤ d.stableEnd then d
  else
    let delta := d.decodeDelta decode neutral allIds
    let e := backOff delta d.stableEnd target splitCharBackoff target
    if endsInReplacement (delta e) then
      if e + splitCharBackoff > target then d else d.freeze decode neutral allIds target
    else d.freeze decode neutral allIds e

def push (d : IncrementalDecoder) (allIds : List Token) : Option (List Char) × IncrementalDecoder :=
  let d := d.advanceStableWindow decode neutral allIds
  let windowIds := allIds.drop d.stableEnd
  let windowText :=
    if d.stableEnd = 0 then decode windowIds else decodeWithNeutralPrefix decode neutral windowIds
  let r := emitSuffix (d.stableText ++ windowText) d.decodedLen
  (r.1, { d with decodedLen := r.2 })

def finish (d : IncrementalDecoder) (allIds : List Token) : Option (List Char) × IncrementalDecoder :=
  if allIds.isEmpty then (none, d)
  else
    let full := decode allIds
    let start := clampToCharBoundary full d.decodedLen
    (if start < byteLen full then some (sliceFrom full start) else none,
      { d with decodedLen := byteLen full })

/-- The tokens pushed one by one behind those before. -/
def pushAll (d : IncrementalDecoder) (before : List Token) :
    List Token → List Char × IncrementalDecoder
  | [] => ([], d)
  | t :: rest =>
      let r := d.push decode neutral (before ++ [t])
      let s := pushAll r.2 (before ++ [t]) rest
      (r.1.getD [] ++ s.1, s.2)

/-- All that is handed out for a sequence, its end included. -/
def stream (ids : List Token) : List Char :=
  let r := pushAll decode neutral new [] ids
  r.1 ++ (r.2.finish decode ids).1.getD []

end

end IncrementalDecoder

/-- The decoding of a byte-level vocabulary. -/
structure LossyTokenizer where
  bytes : Token → List UInt8
  neutral : Token
  ascii : ∀ b ∈ bytes neutral, b < 0x80

namespace LossyTokenizer

def bytesOf (t : LossyTokenizer) (ids : List Token) : List UInt8 := ids.flatMap t.bytes

def decode (t : LossyTokenizer) (ids : List Token) : List Char := lossy (t.bytesOf ids)

/-- `NeutralPrefix::new`. -/
def neutralPrefix (t : LossyTokenizer) : NeutralPrefix := ⟨t.neutral, t.decode [t.neutral]⟩

theorem bytesOf_append (t : LossyTokenizer) (u v : List Token) :
    t.bytesOf (u ++ v) = t.bytesOf u ++ t.bytesOf v := List.flatMap_append

/-- The neutral token changes nothing behind it. -/
theorem decodeWithNeutralPrefix_eq (t : LossyTokenizer) (ids : List Token) :
    IncrementalDecoder.decodeWithNeutralPrefix t.decode t.neutralPrefix ids = t.decode ids := by
  unfold IncrementalDecoder.decodeWithNeutralPrefix
  cases ids with
  | nil => rfl
  | cons id ids =>
      have hbytes : t.bytesOf [t.neutral] = t.bytes t.neutral := by
        unfold bytesOf
        rw [List.flatMap_cons, List.flatMap_nil, List.append_nil]
      have hsplit : t.decode (t.neutral :: id :: ids) = t.decode [t.neutral] ++ t.decode (id :: ids) := by
        unfold decode
        rw [← List.singleton_append, bytesOf_append, hbytes]
        exact lossy_ascii_append t.ascii _
      have hprefix : (t.decode [t.neutral]).isPrefixOf (t.decode [t.neutral] ++ t.decode (id :: ids)) = true :=
        List.isPrefixOf_iff_prefix.2 (List.prefix_append _ _)
      rw [List.isEmpty_cons, if_neg Bool.false_ne_true]
      show (if (t.decode [t.neutral]).isPrefixOf (t.decode (t.neutral :: id :: ids)) = true then
        (t.decode (t.neutral :: id :: ids)).drop (t.decode [t.neutral]).length else t.decode (id :: ids)) = _
      rw [hsplit, if_pos hprefix, List.drop_left]

end LossyTokenizer

/-! ## Suffixes -/

theorem byteLen_append (p q : List Char) : byteLen (p ++ q) = byteLen p + byteLen q := by
  unfold byteLen
  rw [List.map_append, List.sum_append]

theorem byteLen_cons (c : Char) (s : List Char) : byteLen (c :: s) = c.utf8Size + byteLen s := by
  unfold byteLen
  rw [List.map_cons, List.sum_cons]

theorem byteLen_eq_zero {s : List Char} (h : byteLen s = 0) : s = [] := by
  cases s with
  | nil => rfl
  | cons c s =>
      rw [byteLen_cons] at h
      have := c.utf8Size_pos
      omega

/-- The length of a prefix is a boundary. -/
theorem clamp_byteLen (p q : List Char) : clampToCharBoundary (p ++ q) (byteLen p) = byteLen p := by
  induction p with
  | nil =>
      cases q with
      | nil => rfl
      | cons c q =>
          have := c.utf8Size_pos
          exact if_neg (by show ¬ c.utf8Size ≤ 0; omega)
  | cons c p ih =>
      rw [byteLen_cons, List.cons_append]
      unfold clampToCharBoundary
      rw [if_pos (Nat.le_add_right _ _), Nat.add_sub_cancel_left, ih]

theorem sliceFrom_byteLen (p q : List Char) : sliceFrom (p ++ q) (byteLen p) = q := by
  induction p with
  | nil => cases q <;> rfl
  | cons c p ih =>
      have := c.utf8Size_pos
      rw [byteLen_cons, List.cons_append]
      unfold sliceFrom
      rw [if_neg (by omega), Nat.add_sub_cancel_left, ih]

theorem settled_append {p q : List Char} (h : settled q ≠ []) : settled (p ++ q) = p ++ settled q := by
  unfold settled List.rdropWhile at h ⊢
  have hne : ((q.reverse.dropWhile (· == replacement)).isEmpty) = false := by
    rw [List.isEmpty_eq_false_iff]
    exact fun hc => h (by rw [hc]; rfl)
  rw [List.reverse_append, List.dropWhile_append, hne]
  simp

/-- What is emitted, behind what was emitted before. -/
theorem emitSuffix_prefix (p q : List Char) :
    (emitSuffix (p ++ q) (byteLen p)).1.getD [] = settled q ∧
      (emitSuffix (p ++ q) (byteLen p)).2 = byteLen (p ++ settled q) := by
  unfold emitSuffix
  simp only [clamp_byteLen, sliceFrom_byteLen]
  rw [byteLen_append]
  split
  next hempty =>
    rw [List.isEmpty_iff.1 hempty]
    exact ⟨rfl, rfl⟩
  next => exact ⟨rfl, rfl⟩

/-! ## The window -/

namespace IncrementalDecoder

/-- The back-off ends between the boundary and the window's end. -/
theorem backOff_bounds (delta : Nat → List Char) (stableEnd target : Nat) (fuel : Nat) {e : Nat}
    (hlo : stableEnd < e) (hhi : e ≤ target) :
    stableEnd < backOff delta stableEnd target fuel e ∧ backOff delta stableEnd target fuel e ≤ target := by
  induction fuel generalizing e with
  | zero => exact ⟨hlo, hhi⟩
  | succ fuel ih =>
      unfold backOff
      split
      next hcond =>
        simp only [Bool.and_eq_true, decide_eq_true_eq] at hcond
        exact ih (by omega) (by omega)
      next => exact ⟨hlo, hhi⟩

variable (t : LossyTokenizer)

/-- A boundary of a sequence that does not lie inside a character, nor inside a beginning of one. -/
def Clean (ids : List Token) (e : Nat) : Prop := ¬ Splits (t.bytesOf (ids.take e)) (t.bytesOf (ids.drop e))

/-- At a clean boundary the text of any prefix falls in two. -/
theorem Clean.decode_append {t : LossyTokenizer} {ids before rest : List Token} {e n : Nat}
    (h : Clean t ids e) (hids : ids = before ++ rest) (he : e ≤ n) (hn : n ≤ before.length) :
    t.decode (before.take e) ++ t.decode ((before.take n).drop e) = t.decode (before.take n) := by
  have htake : (before.take n).take e = before.take e := by rw [List.take_take, Nat.min_eq_left he]
  have hsplit : before.take n = before.take e ++ (before.take n).drop e := by
    conv_lhs => rw [← List.take_append_drop e (before.take n), htake]
  have hids_take : ids.take e = before.take e := by
    rw [hids, List.take_append_of_le_length (he.trans hn)]
  have hids_drop : ids.drop e = (before.take n).drop e ++ (before.drop n ++ rest) := by
    have hbefore : before = before.take n ++ before.drop n := (List.take_append_drop n before).symm
    conv_lhs => rw [hids, hbefore, List.append_assoc]
    rw [List.drop_append_of_le_length]
    rw [List.length_take, Nat.min_eq_left hn]
    exact he
  conv_rhs => rw [hsplit]
  unfold LossyTokenizer.decode
  rw [t.bytesOf_append]
  refine (lossy_append fun hs => h ?_).symm
  rw [hids_take, hids_drop, t.bytesOf_append]
  exact hs.append _

/-- What the decoder has frozen is the text of the tokens up to its boundary. -/
structure Frozen (d : IncrementalDecoder) (before : List Token) : Prop where
  le : d.stableEnd ≤ before.length
  text : d.stableText = t.decode (before.take d.stableEnd)

theorem Frozen.freeze {t : LossyTokenizer} {d : IncrementalDecoder} {ids before rest : List Token}
    (h : Frozen t d before) (hids : ids = before ++ rest) (hclean : Clean t ids d.stableEnd) {e : Nat}
    (hlo : d.stableEnd ≤ e) (hhi : e ≤ before.length) :
    Frozen t (d.freeze t.decode t.neutralPrefix before e) before := by
  refine ⟨hhi, ?_⟩
  show (if d.stableEnd = 0 then d.decodeDelta t.decode t.neutralPrefix before e
    else d.stableText ++ d.decodeDelta t.decode t.neutralPrefix before e) = t.decode (before.take e)
  unfold decodeDelta
  split
  · rfl
  · rw [t.decodeWithNeutralPrefix_eq, h.text]
    exact hclean.decode_append hids hlo hhi

/-- The window moves on, or stays. -/
theorem advance_cases (d : IncrementalDecoder) (before : List Token) :
    d.advanceStableWindow t.decode t.neutralPrefix before = d ∨
      ∃ e, d.stableEnd < e ∧ e ≤ before.length ∧
        d.advanceStableWindow t.decode t.neutralPrefix before = d.freeze t.decode t.neutralPrefix before e := by
  unfold advanceStableWindow
  simp only
  split
  · exact .inl rfl
  next hlt =>
    have htarget : d.stableEnd < before.length - decodeStableLookback := not_le.1 hlt
    obtain ⟨hlo, hhi⟩ := backOff_bounds (d.decodeDelta t.decode t.neutralPrefix before) d.stableEnd
      (before.length - decodeStableLookback) splitCharBackoff htarget le_rfl
    split
    · split
      · exact .inl rfl
      · exact .inr ⟨_, htarget, Nat.sub_le _ _, rfl⟩
    · exact .inr ⟨_, hlo, hhi.trans (Nat.sub_le _ _), rfl⟩

/-! ## The stream -/

/-- What was handed out stays in front of the text as the sequence goes on, and the decoder knows its
length. -/
structure Shown (ids : List Token) (d : IncrementalDecoder) (before : List Token) (out : List Char) :
    Prop where
  frozen : Frozen t d before
  len : d.decodedLen = byteLen out
  ahead : ∀ more, before ++ more <+: ids → out <+: t.decode (before ++ more)

theorem shown_new (ids : List Token) : Shown t ids new [] [] :=
  ⟨⟨le_rfl, rfl⟩, rfl, fun _ _ => List.nil_prefix⟩

theorem Shown.push {t : LossyTokenizer} {d : IncrementalDecoder} {ids before rest : List Token}
    {out : List Char} (h : Shown t ids d before out) (hclean : Clean t ids d.stableEnd) {x : Token}
    (hids : ids = before ++ [x] ++ rest)
    (hclean' : Clean t ids (d.push t.decode t.neutralPrefix (before ++ [x])).2.stableEnd) :
    Shown t ids (d.push t.decode t.neutralPrefix (before ++ [x])).2 (before ++ [x])
      (out ++ (d.push t.decode t.neutralPrefix (before ++ [x])).1.getD []) := by
  have hkeep : Frozen t d (before ++ [x]) := by
    refine ⟨h.frozen.le.trans (by simp), ?_⟩
    rw [List.take_append_of_le_length h.frozen.le]
    exact h.frozen.text
  have hahead : ∀ more, before ++ [x] ++ more <+: ids → out <+: t.decode (before ++ [x] ++ more) := by
    intro more hmore
    rw [List.append_assoc] at hmore ⊢
    exact h.ahead _ hmore
  obtain ⟨d₁, hd₁, hfrozen, hlen⟩ :
      ∃ d₁, d.advanceStableWindow t.decode t.neutralPrefix (before ++ [x]) = d₁ ∧
        Frozen t d₁ (before ++ [x]) ∧ d₁.decodedLen = byteLen out := by
    rcases advance_cases t d (before ++ [x]) with heq | ⟨e, hlo, hhi, heq⟩
    · exact ⟨_, heq, hkeep, h.len⟩
    · exact ⟨_, heq, hkeep.freeze hids hclean hlo.le hhi, h.len⟩
  -- the frozen text and that of the window are the text so far
  have hfull : d₁.stableText ++ (if d₁.stableEnd = 0 then t.decode ((before ++ [x]).drop d₁.stableEnd)
      else decodeWithNeutralPrefix t.decode t.neutralPrefix ((before ++ [x]).drop d₁.stableEnd)) =
        t.decode (before ++ [x]) := by
    have hclean₁ : Clean t ids d₁.stableEnd := by
      rw [← hd₁]
      exact hclean'
    have := hclean₁.decode_append hids (n := (before ++ [x]).length) hfrozen.le le_rfl
    rw [List.take_length] at this
    rw [t.decodeWithNeutralPrefix_eq, ite_self, hfrozen.text]
    exact this
  have hpush : d.push t.decode t.neutralPrefix (before ++ [x]) =
      ((emitSuffix (t.decode (before ++ [x])) (byteLen out)).1,
        { d₁ with decodedLen := (emitSuffix (t.decode (before ++ [x])) (byteLen out)).2 }) := by
    unfold IncrementalDecoder.push
    simp only [hd₁, hfull, hlen]
  obtain ⟨q, hq⟩ := hahead [] ⟨rest, by rw [List.append_nil, hids]⟩
  rw [List.append_nil] at hq
  obtain ⟨hemit, hlen'⟩ := emitSuffix_prefix out q
  rw [hq] at hemit hlen'
  rw [hpush, hemit]
  refine ⟨⟨hfrozen.le, hfrozen.text⟩, hlen', fun more hmore => ?_⟩
  by_cases hsettled : settled q = []
  · rw [hsettled, List.append_nil]
    exact hahead more hmore
  · rw [← settled_append hsettled, hq]
    unfold LossyTokenizer.decode
    rw [t.bytesOf_append (before ++ [x]) more]
    exact settled_lossy_prefix _ _

theorem Shown.finish {t : LossyTokenizer} {d : IncrementalDecoder} {ids before : List Token}
    {out : List Char} (h : Shown t ids d before out) (hbefore : before <+: ids) :
    out ++ (d.finish t.decode before).1.getD [] = t.decode before := by
  obtain ⟨q, hq⟩ := h.ahead [] (by rwa [List.append_nil])
  rw [List.append_nil] at hq
  unfold IncrementalDecoder.finish
  cases before with
  | nil =>
      have hnil : t.decode [] = [] := rfl
      rw [hnil] at hq ⊢
      rw [(List.append_eq_nil_iff.1 hq).1]
      rfl
  | cons id ids =>
      rw [List.isEmpty_cons, if_neg Bool.false_ne_true]
      simp only [h.len, ← hq, clamp_byteLen, sliceFrom_byteLen]
      split
      · rfl
      next hnot =>
        have hzero : byteLen q = 0 := by
          rw [byteLen_append] at hnot
          omega
        rw [byteLen_eq_zero hzero]
        rfl

/-- After the end of a text that does not lie inside a character, the decoder has shown all of it. -/
theorem Shown.finished {t : LossyTokenizer} {d : IncrementalDecoder} {ids before rest : List Token}
    {out : List Char} (h : Shown t ids d before out) (hids : ids = before ++ rest)
    (hclean : Clean t ids before.length) :
    Shown t ids (d.finish t.decode before).2 before (t.decode before) := by
  refine ⟨⟨?_, ?_⟩, ?_, fun more hmore => ?_⟩
  · unfold IncrementalDecoder.finish
    split <;> exact h.frozen.le
  · unfold IncrementalDecoder.finish
    split <;> exact h.frozen.text
  · cases before with
    | nil =>
        obtain ⟨q, hq⟩ := h.ahead [] ⟨rest, hids.symm⟩
        have hnil : t.decode [] = [] := rfl
        show d.decodedLen = _
        rw [h.len, hnil, (List.append_eq_nil_iff.1 (hq.trans hnil)).1]
    | cons id before => rfl
  · obtain ⟨after, hafter⟩ := hmore
    have hsplit := hclean.decode_append hafter.symm (n := (before ++ more).length)
      (by simp) le_rfl
    rw [List.take_length, List.take_left, List.drop_left] at hsplit
    exact ⟨_, hsplit⟩

/-- Every boundary the decoder holds after a push of the tokens that are left is clean. -/
def FrozenClean (ids : List Token) (d : IncrementalDecoder) (before : List Token) : List Token → Prop
  | [] => True
  | x :: rest =>
      Clean t ids (d.push t.decode t.neutralPrefix (before ++ [x])).2.stableEnd ∧
        FrozenClean ids (d.push t.decode t.neutralPrefix (before ++ [x])).2 (before ++ [x]) rest

theorem Shown.pushAll {t : LossyTokenizer} {d : IncrementalDecoder} {ids before rest : List Token}
    {out : List Char} (h : Shown t ids d before out) (hids : ids = before ++ rest)
    (hclean : Clean t ids d.stableEnd) (hfrozen : FrozenClean t ids d before rest) :
    Shown t ids (IncrementalDecoder.pushAll t.decode t.neutralPrefix d before rest).2 ids
      (out ++ (IncrementalDecoder.pushAll t.decode t.neutralPrefix d before rest).1) := by
  induction rest generalizing d before out with
  | nil =>
      rw [List.append_nil] at hids
      subst hids
      rw [IncrementalDecoder.pushAll, List.append_nil]
      exact h
  | cons x rest ih =>
      have hids' : ids = before ++ [x] ++ rest := by rw [hids, List.append_assoc, List.singleton_append]
      rw [IncrementalDecoder.pushAll]
      simp only
      rw [← List.append_assoc]
      exact ih (h.push hclean hids' hfrozen.1) hids' hfrozen.1 hfrozen.2

theorem clean_zero (ids : List Token) : Clean t ids 0 := fun hs => hs.1 rfl

/-- A boundary that the text ends cleanly at is clean. -/
theorem clean_of_last {ids : List Token} {e : Nat}
    (h : endsInReplacement (t.decode (ids.take e)) = false) : Clean t ids e :=
  not_splits_of_last fun hc => by
    unfold endsInReplacement LossyTokenizer.decode at h
    rw [hc] at h
    simp at h

/-! ## A character behind a run of invalid bytes -/

/-- A vocabulary of single bytes. -/
def byteTokenizer : LossyTokenizer where
  bytes t := [.ofNat t]
  neutral := 0x61
  ascii b hb := by
    rw [List.mem_singleton.1 hb]
    decide

/-- Three bytes that are no text, the four of an emoji, and a letter. -/
def smile : List Token := [0xFF, 0xFF, 0xFF, 0xF0, 0x9F, 0x98, 0x80, 0x78]

end IncrementalDecoder

end Oxydllm.Serve
