/-
# Oxydllm.Constrain.Steps — what one byte can do to the automaton.

The bitstack is read off as the list of open containers, innermost first (`frames`), and a machine
as its `View`. `Step` lists every move of the automaton on views, one constructor a move; `stepEv`
makes exactly these moves (`step_of_stepEv`, `stepEv_of_step`), so everything proved about the
automaton is proved by cases on `Step` and never unfolds the machine again.
-/
import Oxydllm.Constrain.Machine
import Mathlib.Tactic

namespace Oxydllm.Constrain

open JsonMachine

/-! ## The bitstack as a stack -/

namespace JsonMachine

/-- The open containers, innermost first: `true` an array, `false` an object. -/
def frames (m : JsonMachine) : List Bool := (List.range m.depth).reverse.map m.stack.getLsbD

@[simp] theorem frames_length (m : JsonMachine) : m.frames.length = m.depth := by simp [frames]

@[simp] theorem frames_state (m : JsonMachine) (s : S) : { m with state := s }.frames = m.frames := rfl

@[simp] theorem frames_wsRun (m : JsonMachine) (r : Nat) : { m with wsRun := r }.frames = m.frames := rfl

theorem frames_eq_nil (m : JsonMachine) : m.frames = [] ↔ m.depth = 0 := by
  rw [← List.length_eq_zero_iff, frames_length]

theorem frames_succ (m : JsonMachine) (d : Nat) (h : m.depth = d + 1) :
    m.frames = m.stack.getLsbD d :: { m with depth := d }.frames := by
  simp [frames, h, List.range_succ]

end JsonMachine

/-- The state after a completed value, from the open containers. -/
def after : List Bool → S
  | [] => .done
  | true :: _ => .arrNext
  | false :: _ => .objNext

@[simp] theorem after_nil : after [] = .done := rfl
@[simp] theorem after_arr (fs : List Bool) : after (true :: fs) = .arrNext := rfl
@[simp] theorem after_obj (fs : List Bool) : after (false :: fs) = .objNext := rfl

@[simp] theorem S.isLit_lit (l p : Nat) : (S.lit l p).isLit = true := rfl
@[simp] theorem S.isNum_lit (l p : Nat) : (S.lit l p).isNum = false := rfl
@[simp] theorem S.isNum_num (n : NumS) : (S.num n).isNum = true := rfl
@[simp] theorem S.isLit_num (n : NumS) : (S.num n).isLit = false := rfl

@[simp] theorem after_isLit (fs : List Bool) : (after fs).isLit = false := by
  rcases fs with _ | ⟨_ | _, _⟩ <;> rfl

@[simp] theorem after_isNum (fs : List Bool) : (after fs).isNum = false := by
  rcases fs with _ | ⟨_ | _, _⟩ <;> rfl

namespace JsonMachine

theorem shiftRight_and_one (s : BitVec 128) (d : Nat) :
    (s >>> d) &&& 1#128 = 1#128 ↔ s.getLsbD d = true := by
  constructor
  · intro h
    have := congrArg (·.getLsbD 0) h
    simpa using this
  · intro h
    apply BitVec.eq_of_getLsbD_eq
    intro i hi
    by_cases hi0 : i = 0
    · subst hi0; simpa using h
    · simp [BitVec.getLsbD_one, hi0]

theorem afterValue_eq (m : JsonMachine) : m.afterValue = after m.frames := by
  unfold afterValue
  cases hd : m.depth with
  | zero => simp [(frames_eq_nil m).2 hd]
  | succ d =>
      rw [frames_succ m d hd]
      simp only [Nat.succ_ne_zero, if_false, Nat.add_sub_cancel, shiftRight_and_one]
      cases m.stack.getLsbD d <;> simp

theorem push_eq_some {m m' : JsonMachine} {k : Bool} :
    m.push k = some m' → m.frames.length < maxDepth ∧ m'.frames = k :: m.frames ∧
      m'.state = m.state ∧ m'.wsRun = m.wsRun := by
  intro h
  unfold push at h
  by_cases hd : m.depth ≥ maxDepth
  · simp [hd] at h
  have hlt : m.depth < 128 := by simp [maxDepth] at hd; omega
  have hbits : ∀ s : BitVec 128, s.getLsbD m.depth = k →
      (∀ i < m.depth, s.getLsbD i = m.stack.getLsbD i) →
      (JsonMachine.mk s (m.depth + 1) m.state m.wsRun).frames = k :: m.frames := by
    intro s hs hlow
    rw [frames_succ _ m.depth rfl, hs]
    simp only [frames, List.map_reverse, List.cons.injEq, true_and]
    congr 1
    exact List.map_congr_left fun i hi => hlow i (List.mem_range.1 hi)
  rw [if_neg hd] at h
  refine ⟨by simpa using hd, ?_⟩
  cases k with
  | true =>
      simp only [if_true, Option.some.injEq] at h
      subst h
      refine ⟨hbits _ (by simp [hlt]) ?_, rfl, rfl⟩
      intro i hi
      simp [hi]
  | false =>
      simp only [Bool.false_eq_true, if_false, Option.some.injEq] at h
      subst h
      refine ⟨hbits _ (by simp [hlt]) ?_, rfl, rfl⟩
      intro i hi
      have : i < 128 := by omega
      simp [hi, this]

theorem push_isSome {m : JsonMachine} (k : Bool) (h : m.frames.length < maxDepth) :
    ∃ m', m.push k = some m' := by
  rw [frames_length] at h
  unfold push
  rw [if_neg (Nat.not_le.2 h)]
  cases k <;> simp

theorem popState_eq_some {m m' : JsonMachine} :
    m.popState = some m' → ∃ k fs, m.frames = k :: fs ∧ m'.frames = fs ∧
      m'.state = after fs ∧ m'.wsRun = m.wsRun := by
  intro h
  unfold popState pop at h
  cases hd : m.depth with
  | zero => simp [hd] at h
  | succ d =>
      simp only [hd, Nat.add_sub_cancel, Nat.succ_ne_zero, if_false, Option.map_some,
        Option.some.injEq] at h
      subst h
      exact ⟨_, _, frames_succ m d hd, rfl, afterValue_eq _, rfl⟩

theorem popState_isSome {m : JsonMachine} {k : Bool} {fs : List Bool} (h : m.frames = k :: fs) :
    ∃ m', m.popState = some m' := by
  have hd : m.depth ≠ 0 := by
    rw [← frames_length, h]; simp
  unfold popState pop
  simp [hd]

end JsonMachine

/-! ## Views and moves -/

/-- What the automaton's next moves depend on. -/
structure View where
  frames : List Bool
  state : S
  wsRun : Nat

def JsonMachine.view (m : JsonMachine) : View := ⟨m.frames, m.state, m.wsRun⟩

/-- The states in which whitespace is skipped in place. -/
def S.gap : S → Bool
  | .value => true
  | .objFirst => true
  | .objComma => true
  | .colon => true
  | .objNext => true
  | .arrNext => true
  | .done => true
  | _ => false

/-- The number state a first byte starts. -/
def numStart (b : UInt8) : Option NumS :=
  if b = 0x2D then some .minus
  else if b = 0x30 then some .zero
  else if 0x31 ≤ b ∧ b ≤ 0x39 then some .int
  else none

/-- The literal a first byte starts. -/
def litStart (b : UInt8) : Option Nat :=
  if b = 0x74 then some 0 else if b = 0x66 then some 1 else if b = 0x6E then some 2 else none

/-- `Object` mode lets only `{` start the top-level value. -/
def TopOk (mode : JsonMode) (fs : List Bool) : Prop := mode = .object → fs ≠ []

/-- The moves of the automaton on one byte, with the events each reports. -/
inductive Step (mode : JsonMode) : View → UInt8 → View → Events → Prop where
  | gap {fs st r b} (hst : st.gap) (hws : isWs b) (hr : r < maxWhitespaceRun) :
      Step mode ⟨fs, st, r⟩ b ⟨fs, st, r + 1⟩ {}
  | arrGap {fs r b} (hws : isWs b) (hr : r < maxWhitespaceRun) :
      Step mode ⟨fs, .arrFirst, r⟩ b ⟨fs, .value, r + 1⟩ {}
  | objOpen {fs st r} (hst : st = .value ∨ st = .arrFirst) (hd : fs.length < maxDepth) :
      Step mode ⟨fs, st, r⟩ 0x7B ⟨false :: fs, .objFirst, 0⟩ { valueStart := true, objOpen := true }
  | arrOpen {fs st r} (hst : st = .value ∨ st = .arrFirst) (hd : fs.length < maxDepth)
      (htop : TopOk mode fs) :
      Step mode ⟨fs, st, r⟩ 0x5B ⟨true :: fs, .arrFirst, 0⟩ { valueStart := true, arrOpen := true }
  | strOpen {fs st r} (hst : st = .value ∨ st = .arrFirst) (htop : TopOk mode fs) :
      Step mode ⟨fs, st, r⟩ 0x22 ⟨fs, .str false 0 false, 0⟩ { valueStart := true }
  | numOpen {fs st r b n} (hst : st = .value ∨ st = .arrFirst) (htop : TopOk mode fs)
      (hb : numStart b = some n) :
      Step mode ⟨fs, st, r⟩ b ⟨fs, .num n, 0⟩ { valueStart := true }
  | litOpen {fs st r b l} (hst : st = .value ∨ st = .arrFirst) (htop : TopOk mode fs)
      (hb : litStart b = some l) :
      Step mode ⟨fs, st, r⟩ b ⟨fs, .lit l 1, 0⟩ { valueStart := true }
  | keyOpen {fs st r} (hst : st = .objFirst ∨ st = .objComma) :
      Step mode ⟨fs, st, r⟩ 0x22 ⟨fs, .str false 0 true, 0⟩ { keyStart := true }
  | objClose {k fs st r} (hst : st = .objFirst ∨ st = .objNext) :
      Step mode ⟨k :: fs, st, r⟩ 0x7D ⟨fs, after fs, 0⟩ { objClose := true }
  | arrClose {k fs st r} (hst : st = .arrFirst ∨ st = .arrNext) :
      Step mode ⟨k :: fs, st, r⟩ 0x5D ⟨fs, after fs, 0⟩ { arrClose := true }
  | strByte {fs key r b} (h20 : 0x20 ≤ b) (hq : b ≠ 0x22) (hbs : b ≠ 0x5C)
      (hr : b = 0x20 → r < maxWhitespaceRun) :
      Step mode ⟨fs, .str false 0 key, r⟩ b ⟨fs, .str false 0 key, if b = 0x20 then r + 1 else 0⟩ {}
  | strEsc {fs key r} : Step mode ⟨fs, .str false 0 key, r⟩ 0x5C ⟨fs, .str true 0 key, 0⟩ {}
  | escSimple {fs key r b} (hb : isSimpleEsc b) :
      Step mode ⟨fs, .str true 0 key, r⟩ b ⟨fs, .str false 0 key, 0⟩ {}
  | escUnicode {fs key r} : Step mode ⟨fs, .str true 0 key, r⟩ 0x75 ⟨fs, .str false 4 key, 0⟩ {}
  | hex {fs esc u key r b} (hb : isAsciiHexdigit b) :
      Step mode ⟨fs, .str esc (u + 1) key, r⟩ b ⟨fs, .str false u key, 0⟩ {}
  | keyClose {fs r} :
      Step mode ⟨fs, .str false 0 true, r⟩ 0x22 ⟨fs, .colon, 0⟩ { keyEnd := true }
  | strClose {fs r} :
      Step mode ⟨fs, .str false 0 false, r⟩ 0x22 ⟨fs, after fs, 0⟩ { scalarEnd := true }
  | colon {fs r} : Step mode ⟨fs, .colon, r⟩ 0x3A ⟨fs, .value, 0⟩ {}
  | numNext {fs n n2 r b} (hb : n.next b = some n2) :
      Step mode ⟨fs, .num n, r⟩ b ⟨fs, .num n2, 0⟩ {}
  /-- Whitespace after a number is counted twice, by the re-step and by the step around it. -/
  | numGap {fs n r b} (hn : n.complete) (hws : isWs b) (hr : r < maxWhitespaceRun) :
      Step mode ⟨fs, .num n, r⟩ b ⟨fs, after fs, r + 2⟩ { scalarEnd := true }
  | numObjComma {fs n r} (hn : n.complete) :
      Step mode ⟨false :: fs, .num n, r⟩ 0x2C ⟨false :: fs, .objComma, 0⟩
        { scalarEnd := true, objComma := true }
  | numArrComma {fs n r} (hn : n.complete) :
      Step mode ⟨true :: fs, .num n, r⟩ 0x2C ⟨true :: fs, .value, 0⟩ { scalarEnd := true }
  | numObjClose {fs n r} (hn : n.complete) :
      Step mode ⟨false :: fs, .num n, r⟩ 0x7D ⟨fs, after fs, 0⟩ { scalarEnd := true, objClose := true }
  | numArrClose {fs n r} (hn : n.complete) :
      Step mode ⟨true :: fs, .num n, r⟩ 0x5D ⟨fs, after fs, 0⟩ { scalarEnd := true, arrClose := true }
  | litNext {fs l p r b} (hb : (literals l)[p]? = some b) (hp : p + 1 ≠ (literals l).length) :
      Step mode ⟨fs, .lit l p, r⟩ b ⟨fs, .lit l (p + 1), 0⟩ {}
  | litEnd {fs l p r b} (hb : (literals l)[p]? = some b) (hp : p + 1 = (literals l).length) :
      Step mode ⟨fs, .lit l p, r⟩ b ⟨fs, after fs, 0⟩ { scalarEnd := true }
  | objComma {fs r} : Step mode ⟨fs, .objNext, r⟩ 0x2C ⟨fs, .objComma, 0⟩ { objComma := true }
  | arrComma {fs r} : Step mode ⟨fs, .arrNext, r⟩ 0x2C ⟨fs, .value, 0⟩ {}

/-! ## `stepEv` makes exactly these moves -/

theorem isWs_cases {b : UInt8} (h : isWs b) : b = 0x20 ∨ b = 0x09 ∨ b = 0x0A ∨ b = 0x0D := by
  simp [isWs] at h
  tauto

theorem isWs_iff_of_ge {b : UInt8} (h : 0x20 ≤ b) : isWs b = true ↔ b = 0x20 := by
  constructor
  · intro hws
    rcases isWs_cases hws with rfl | rfl | rfl | rfl <;> first | rfl | (revert h; decide)
  · rintro rfl
    rfl

theorem simpleEsc_byte {b : UInt8} (h : isSimpleEsc b) : b ≠ 0x2C ∧ isWs b = false := by
  simp only [isSimpleEsc, Bool.or_eq_true, beq_iff_eq] at h
  rcases h with ((((((rfl | rfl) | rfl) | rfl) | rfl) | rfl) | rfl) | rfl <;> decide

theorem hexdigit_not_ws {b : UInt8} (h : isAsciiHexdigit b) : isWs b = false := by
  simp only [isAsciiHexdigit, Bool.or_eq_true, Bool.and_eq_true, decide_eq_true_eq] at h
  simp only [isWs, Bool.or_eq_false_iff, beq_eq_false_iff_ne]
  grind

theorem eventsOf_gap {b : UInt8} (before after : S) (hws : isWs b) (hn : before.isNum = false)
    (hl : before.isLit = false) : eventsOf before after b = {} := by
  rcases isWs_cases hws with rfl | rfl | rfl | rfl <;> simp [eventsOf, hn, hl, hws]

namespace JsonMachine

theorem stepEvWith_eq_some {inner : JsonMachine → UInt8 → JsonMode → Option JsonMachine}
    {m m' : JsonMachine} {b : UInt8} {mode : JsonMode} {ev : Events} :
    stepEvWith inner m b mode = some (m', ev) ↔
      (isWs b → m.wsRun < maxWhitespaceRun) ∧ ∃ m₁, inner m b mode = some m₁ ∧
        m' = { m₁ with wsRun := if isWs b then m₁.wsRun + 1 else 0 } ∧
        ev = eventsOf m.state m₁.state b := by
  unfold stepEvWith
  by_cases hws : isWs b
  · by_cases hr : m.wsRun < maxWhitespaceRun
    · simp [hws, hr, Nat.not_le.2 hr, eq_comm]
    · simp [hws, hr, Nat.not_lt.1 hr]
  · simp [hws, eq_comm]

/-- What `startValue` does to a byte that is not whitespace, as a move. -/
theorem step_of_startValue {m m₁ : JsonMachine} {b : UInt8} {mode : JsonMode} {st : S} {r : Nat}
    (hst : st = .value ∨ st = .arrFirst) (hws : isWs b = false)
    (h : m.startValue b (objectOnly mode) = some m₁) :
    Step mode ⟨m.frames, st, r⟩ b ⟨m₁.frames, m₁.state, 0⟩ (eventsOf st m₁.state b) := by
  have hstart : ∀ b' : UInt8, b' ≠ 0x5D → isWs b' = false →
      ((st = .value || st = .arrFirst) && !isWs b' && b' ≠ 0x5D) = true := by
    intro b' hb' hws'
    rcases hst with rfl | rfl <;> simp [hb', hws']
  unfold startValue at h
  split at h
  · cases h
  next htop =>
  have htop' : b ≠ 0x7B → TopOk mode m.frames := by
    intro hb hmode hnil
    exact htop (by simp [objectOnly, hmode, (frames_eq_nil m).1 hnil, hb, hws])
  rw [if_neg (by simp [hws])] at h
  split at h
  · obtain ⟨m₂, hp, rfl⟩ := Option.map_eq_some_iff.1 h
    obtain ⟨hd, hfr, -, -⟩ := push_eq_some hp
    simp only [frames_state, hfr]
    rcases hst with rfl | rfl <;> exact .objOpen (by simp) hd
  · obtain ⟨m₂, hp, rfl⟩ := Option.map_eq_some_iff.1 h
    obtain ⟨hd, hfr, -, -⟩ := push_eq_some hp
    simp only [frames_state, hfr]
    rcases hst with rfl | rfl <;> exact .arrOpen (by simp) hd (htop' (by simp))
  · cases h
    rcases hst with rfl | rfl <;> exact .strOpen (by simp) (htop' (by simp))
  · cases h
    rcases hst with rfl | rfl <;> exact .numOpen (by simp) (htop' (by simp)) rfl
  · cases h
    rcases hst with rfl | rfl <;> exact .numOpen (by simp) (htop' (by simp)) rfl
  · cases h
    rcases hst with rfl | rfl <;> exact .litOpen (by simp) (htop' (by simp)) rfl
  · cases h
    rcases hst with rfl | rfl <;> exact .litOpen (by simp) (htop' (by simp)) rfl
  · cases h
    rcases hst with rfl | rfl <;> exact .litOpen (by simp) (htop' (by simp)) rfl
  · split at h
    next hdig =>
      cases h
      have hne : b ≠ 0x7B ∧ b ≠ 0x5B ∧ b ≠ 0x22 ∧ b ≠ 0x5D ∧ b ≠ 0x2C ∧ b ≠ 0x7D ∧ b ≠ 0x2D ∧
          b ≠ 0x30 := by grind
      obtain ⟨h1, h2, h3, h4, h5, h6, h7, h8⟩ := hne
      have hev : eventsOf st (.num .int) b = { valueStart := true } := by
        rcases hst with rfl | rfl <;>
          simp [eventsOf, hws, h1, h2, h3, h4, h5, h6, S.isLit, S.isNum]
      rw [hev]
      exact .numOpen hst (htop' h1) (by simp [numStart, h7, h8, hdig])
    · cases h

theorem step_of_stepStr {m m₁ : JsonMachine} {b : UInt8} {mode : JsonMode} {esc key : Bool}
    {uni : Nat} (hs : m.state = .str esc uni key) (hr : isWs b → m.wsRun < maxWhitespaceRun)
    (h : m.stepStr esc uni key b = some m₁) :
    Step mode ⟨m.frames, .str esc uni key, m.wsRun⟩ b
        ⟨m₁.frames, m₁.state, if isWs b then m₁.wsRun + 1 else 0⟩
        (eventsOf (.str esc uni key) m₁.state b) := by
  unfold stepStr at h
  split at h
  next huni =>
    obtain ⟨u, rfl⟩ := Nat.exists_eq_succ_of_ne_zero (Nat.pos_iff_ne_zero.1 huni)
    split at h
    next hhex =>
      cases h
      have hne : b ≠ 0x22 ∧ b ≠ 0x2C ∧ b ≠ 0x7D ∧ b ≠ 0x5D ∧ isWs b = false := by
        simp only [isAsciiHexdigit, Bool.or_eq_true, Bool.and_eq_true, decide_eq_true_eq] at hhex
        simp only [isWs, Bool.or_eq_false_iff, beq_eq_false_iff_ne]
        grind
      obtain ⟨h1, h2, h3, h4, h5⟩ := hne
      have hev : eventsOf (.str esc (u + 1) key) (.str false u key) b = {} := by
        simp [eventsOf, h1, h2, S.isNum, S.isLit]
      simp only [Nat.succ_eq_add_one, Nat.add_sub_cancel, hev, h5, Bool.false_eq_true, if_false]
      exact .hex hhex
    · cases h
  next huni =>
    obtain rfl : uni = 0 := by omega
    split at h
    next hesc =>
      subst hesc
      split at h
      next hb =>
        cases h
        have hne : b ≠ 0x2C ∧ isWs b = false := by
          simp only [isSimpleEsc, Bool.or_eq_true, beq_iff_eq] at hb
          rcases hb with ((((((rfl | rfl) | rfl) | rfl) | rfl) | rfl) | rfl) | rfl <;> decide
        have hev : eventsOf (.str true 0 key) (.str false 0 key) b = {} := by
          simp [eventsOf, S.isNum, S.isLit]
        simp only [hev, hne, Bool.false_eq_true, if_false]
        exact .escSimple hb
      next hb =>
        split at h
        next hu =>
          cases h
          subst hu
          exact .escUnicode
        · cases h
    next hesc =>
      obtain rfl : esc = false := by simpa using hesc
      split at h
      next hq =>
        cases h
        subst hq
        cases key
        · simp only [Bool.false_eq_true, if_false, frames_state, afterValue_eq]
          have : eventsOf (.str false 0 false) (after m.frames) 0x22 = { scalarEnd := true } := by
            simp [eventsOf, S.isNum, S.isLit]
          rw [this]
          exact .strClose
        · exact .keyClose
      next hq =>
      split at h
      next hbs =>
        cases h
        subst hbs
        exact .strEsc
      next hbs =>
        split at h
        · cases h
        next h1f =>
          cases h
          have h20 : 0x20 ≤ b := by grind
          have hws : isWs b = true ↔ b = 0x20 := by
            constructor
            · intro h
              rcases isWs_cases h with rfl | rfl | rfl | rfl <;> first | rfl | (revert h20; decide)
            · rintro rfl; rfl
          have hev : eventsOf (.str false 0 key) (.str false 0 key) b = {} := by
            simp [eventsOf, hq, S.isNum, S.isLit]
          rw [hs, hev]
          simp only [hws]
          exact .strByte h20 hq hbs fun hb => hr (hws.2 hb)

/-- The bytes of the literals are lowercase letters. -/
theorem literals_byte {l p : Nat} {b : UInt8} (h : (literals l)[p]? = some b) :
    isWs b = false ∧ b ≠ 0x22 ∧ b ≠ 0x2C ∧ b ≠ 0x7D ∧ b ≠ 0x5D := by
  have hmem : b ∈ literals l := List.mem_of_getElem? h
  unfold literals at hmem
  split at hmem <;> simp at hmem
  all_goals rcases hmem with rfl | rfl | rfl | rfl | rfl <;> decide

theorem step_of_stepLit (mode : JsonMode) {m m₁ : JsonMachine} {b : UInt8} {l p : Nat}
    (h : m.stepLit l p b = some m₁) :
    Step mode ⟨m.frames, .lit l p, m.wsRun⟩ b ⟨m₁.frames, m₁.state, 0⟩
        (eventsOf (.lit l p) m₁.state b) ∧ isWs b = false := by
  unfold stepLit at h
  split at h
  · next hb =>
    obtain ⟨h5, h1, h2, h3, h4⟩ := literals_byte hb
    refine ⟨?_, h5⟩
    split at h
    · next hp =>
      cases h
      have hev : eventsOf (.lit l p) (after m.frames) b = { scalarEnd := true } := by
        simp [eventsOf, h1, h2]
      simp only [frames_state, afterValue_eq, hev]
      exact .litEnd hb hp
    · next hp =>
      cases h
      have hev : eventsOf (.lit l p) (.lit l (p + 1)) b = {} := by
        simp [eventsOf, h1, h2, S.isNum, S.isLit]
      simp only [frames_state, hev]
      exact .litNext hb hp
  · cases h

theorem startValue_of_isWs {m : JsonMachine} {b : UInt8} (top : Bool) (hws : isWs b) :
    m.startValue b top = some m := by
  simp [startValue, hws]

/-- Every byte `step_inner` accepts outside a number is a move. -/
theorem step_of_stepInner {f : JsonMachine → Option JsonMachine} {m m₁ : JsonMachine} {b : UInt8}
    {mode : JsonMode} (hnum : m.state.isNum = false) (hr : isWs b → m.wsRun < maxWhitespaceRun)
    (h : stepInner f m b mode = some m₁) :
    Step mode m.view b ⟨m₁.frames, m₁.state, if isWs b then m₁.wsRun + 1 else 0⟩
        (eventsOf m.state m₁.state b) := by
  have hgap : m.state.gap → isWs b → m₁ = m →
      Step mode m.view b ⟨m₁.frames, m₁.state, if isWs b then m₁.wsRun + 1 else 0⟩
        (eventsOf m.state m₁.state b) := by
    rintro hst hws rfl
    have hl : m₁.state.isLit = false := by
      cases hs : m₁.state <;> simp [hs, S.gap] at hst ⊢ <;> rfl
    rw [eventsOf_gap _ _ hws hnum hl]
    simp only [hws, if_true]
    exact .gap hst hws (hr hws)
  unfold stepInner at h
  cases hs : m.state with
  | value =>
      simp only [hs] at h hgap
      by_cases hws : isWs b
      · rw [startValue_of_isWs _ hws, Option.some.injEq] at h
        exact hgap rfl hws h.symm
      · simp only [view, hs, hws, Bool.false_eq_true, if_false]
        exact step_of_startValue (by simp) (by simpa using hws) h
  | objFirst =>
      simp only [hs] at h hgap
      split at h
      next hws => exact hgap rfl hws (Option.some.inj h).symm
      next hws =>
        simp only [view, hs, hws, Bool.false_eq_true, if_false]
        split at h
        next hb =>
          cases h
          subst hb
          exact .keyOpen (by simp)
        · split at h
          next hb =>
            subst hb
            obtain ⟨k, fs, hfr, hfr₁, hst₁, -⟩ := popState_eq_some h
            rw [hfr, hfr₁, hst₁]
            exact .objClose (by simp)
          · cases h
  | arrFirst =>
      simp only [hs] at h
      split at h
      next hb =>
        subst hb
        obtain ⟨k, fs, hfr, hfr₁, hst₁, -⟩ := popState_eq_some h
        simp only [view, hs, hfr, hfr₁, hst₁]
        exact .arrClose (by simp)
      next hb =>
        by_cases hws : isWs b
        · rw [startValue_of_isWs _ hws, Option.some.injEq] at h
          subst h
          rw [eventsOf_gap _ _ hws rfl rfl]
          simp only [view, hs, hws, if_true]
          exact .arrGap hws (hr hws)
        · simp only [view, hs, hws, Bool.false_eq_true, if_false]
          exact step_of_startValue (m := { m with state := .value }) (by simp) (by simpa using hws) h
  | objComma =>
      simp only [hs] at h hgap
      split at h
      next hws => exact hgap rfl hws (Option.some.inj h).symm
      next hws =>
        split at h
        next hb =>
          cases h
          subst hb
          simp only [view, hs]
          exact .keyOpen (by simp)
        · cases h
  | str esc uni key =>
      simp only [hs] at h
      simp only [view, hs]
      exact step_of_stepStr hs hr h
  | colon =>
      simp only [hs] at h hgap
      split at h
      next hws => exact hgap rfl hws (Option.some.inj h).symm
      next hws =>
        split at h
        next hb =>
          cases h
          subst hb
          simp only [view, hs]
          exact .colon
        · cases h
  | num n => simp [hs] at hnum
  | lit l p =>
      simp only [hs] at h
      obtain ⟨hstep, hws⟩ := step_of_stepLit mode h
      simpa only [view, hs, hws, Bool.false_eq_true, if_false] using hstep
  | objNext =>
      simp only [hs] at h hgap
      split at h
      next hws => exact hgap rfl hws (Option.some.inj h).symm
      next hws =>
        simp only [view, hs, hws, Bool.false_eq_true, if_false]
        split at h
        next hb =>
          cases h
          subst hb
          exact .objComma
        · split at h
          next hb =>
            subst hb
            obtain ⟨k, fs, hfr, hfr₁, hst₁, -⟩ := popState_eq_some h
            rw [hfr, hfr₁, hst₁]
            exact .objClose (by simp)
          · cases h
  | arrNext =>
      simp only [hs] at h hgap
      split at h
      next hws => exact hgap rfl hws (Option.some.inj h).symm
      next hws =>
        simp only [view, hs, hws, Bool.false_eq_true, if_false]
        split at h
        next hb =>
          cases h
          subst hb
          exact .arrComma
        · split at h
          next hb =>
            subst hb
            obtain ⟨k, fs, hfr, hfr₁, hst₁, -⟩ := popState_eq_some h
            rw [hfr, hfr₁, hst₁]
            exact .arrClose (by simp)
          · cases h
  | done =>
      simp only [hs] at h hgap
      split at h
      next hws => exact hgap rfl hws (Option.some.inj h).symm
      · cases h

/-- A delimiter settles a complete number: it moves as it would after the value, with its own
events and its whitespace counted a second time. -/
theorem step_of_delimiter {fs : List Bool} {n : NumS} {r : Nat} {b : UInt8} {mode : JsonMode}
    {v : View} {ev : Events} (hn : n.complete) (h : Step mode ⟨fs, after fs, r⟩ b v ev) :
    Step mode ⟨fs, .num n, r⟩ b ⟨v.frames, v.state, if isWs b then v.wsRun + 1 else 0⟩
      (eventsOf (.num n) v.state b) := by
  have hgap : isWs b → r < maxWhitespaceRun → v = ⟨fs, after fs, r + 1⟩ →
      Step mode ⟨fs, .num n, r⟩ b ⟨v.frames, v.state, if isWs b then v.wsRun + 1 else 0⟩
        (eventsOf (.num n) v.state b) := by
    rintro hws hr rfl
    have hev : eventsOf (.num n) (after fs) b = { scalarEnd := true } := by
      rcases isWs_cases hws with rfl | rfl | rfl | rfl <;> simp [eventsOf]
    simp only [hws, if_true, hev]
    exact .numGap hn hws hr
  rcases fs with _ | ⟨_ | _, fs⟩
  · rw [after_nil] at h
    cases h with
    | gap hst hws hr => exact hgap hws hr rfl
    | _ => simp_all
  · rw [after_obj] at h
    cases h with
    | gap hst hws hr => exact hgap hws hr rfl
    | objClose => exact .numObjClose hn
    | objComma => exact .numObjComma hn
    | _ => simp_all
  · rw [after_arr] at h
    cases h with
    | gap hst hws hr => exact hgap hws hr rfl
    | arrClose => exact .numArrClose hn
    | arrComma => exact .numArrComma hn
    | _ => simp_all

/-- The bytes that continue a number are no delimiter. -/
theorem NumS.next_byte {n n2 : NumS} {b : UInt8} (h : n.next b = some n2) :
    isWs b = false ∧ b ≠ 0x22 ∧ b ≠ 0x2C ∧ b ≠ 0x7D ∧ b ≠ 0x5D := by
  have hclass : (0x30 ≤ b ∧ b ≤ 0x39) ∨ b = 0x2E ∨ b = 0x65 ∨ b = 0x45 ∨ b = 0x2B ∨ b = 0x2D := by
    cases n <;> simp only [NumS.next] at h <;> grind
  simp only [isWs, Bool.or_eq_false_iff, beq_eq_false_iff_ne]
  rcases hclass with h | rfl | rfl | rfl | rfl | rfl
  · grind
  all_goals decide

/-- Every step of the machine is a move. -/
theorem step_of_stepEv {m m' : JsonMachine} {b : UInt8} {mode : JsonMode} {ev : Events}
    (h : m.stepEv b mode = some (m', ev)) : Step mode m.view b m'.view ev := by
  obtain ⟨hr, m₁, hin, rfl, rfl⟩ := stepEvWith_eq_some.1 h
  by_cases hnum : m.state.isNum
  · cases hs : m.state with
    | num n =>
        unfold stepInner at hin
        simp only [hs] at hin
        split at hin
        next n2 hn2 =>
          cases hin
          obtain ⟨hws, h1, h2, h3, h4⟩ := NumS.next_byte hn2
          have hev : eventsOf (.num n) (.num n2) b = {} := by
            simp [eventsOf, h1, h2, h3, h4]
          simp only [view, hs, hws, hev, Bool.false_eq_true, if_false]
          exact .numNext hn2
        next hnone =>
          split at hin
          next hn =>
            obtain ⟨⟨m₂, ev₂⟩, hre, rfl⟩ := Option.map_eq_some_iff.1 hin
            obtain ⟨hr₂, m₃, hin₂, rfl, rfl⟩ := stepEvWith_eq_some.1 hre
            have := step_of_stepInner (afterValue_not_num m) hr₂ hin₂
            simp only [view, hs, afterValue_eq] at this ⊢
            exact step_of_delimiter hn this
          · cases hin
    | _ => simp [hs, S.isNum] at hnum
  · exact step_of_stepInner (by simpa using hnum) hr hin

/-! ## Every move is a step -/

theorem numStart_byte {b : UInt8} {n : NumS} (h : numStart b = some n) :
    (b = 0x2D ∧ n = .minus) ∨ (b = 0x30 ∧ n = .zero) ∨ ((0x31 ≤ b ∧ b ≤ 0x39) ∧ n = .int) := by
  simp only [numStart] at h
  grind

theorem litStart_byte {b : UInt8} {l : Nat} (h : litStart b = some l) :
    (b = 0x74 ∧ l = 0) ∨ (b = 0x66 ∧ l = 1) ∨ (b = 0x6E ∧ l = 2) := by
  simp only [litStart] at h
  grind

/-- The top-level filter of `startValue` passes every byte it should. -/
theorem startValue_of_topOk {m : JsonMachine} {b : UInt8} {mode : JsonMode}
    (htop : b ≠ 0x7B → TopOk mode m.frames) :
    m.startValue b (objectOnly mode) = m.startValue b false := by
  have hguard : ¬ ((objectOnly mode && decide (m.depth = 0) && decide (b ≠ 0x7B) && !isWs b) = true) := by
    intro h
    simp only [objectOnly, Bool.and_eq_true, decide_eq_true_eq] at h
    exact htop h.1.2 h.1.1.1 ((frames_eq_nil m).2 h.1.1.2)
  simp only [startValue, if_neg hguard, Bool.false_and, Bool.false_eq_true, if_false]

theorem startValue_num {m : JsonMachine} {b : UInt8} {n : NumS} (h : numStart b = some n) :
    m.startValue b false = some { m with state := .num n } := by
  rcases numStart_byte h with ⟨rfl, rfl⟩ | ⟨rfl, rfl⟩ | ⟨hdig, rfl⟩
  · simp [startValue, isWs]
  · simp [startValue, isWs]
  · have hws : isWs b = false := by
      simp only [isWs, Bool.or_eq_false_iff, beq_eq_false_iff_ne]
      grind
    unfold startValue
    simp only [Bool.false_and, Bool.false_eq_true, if_false, hws]
    split <;> first | (exfalso; revert hdig; decide) | simp [hdig]

theorem startValue_lit {m : JsonMachine} {b : UInt8} {l : Nat} (h : litStart b = some l) :
    m.startValue b false = some { m with state := .lit l 1 } := by
  rcases litStart_byte h with ⟨rfl, rfl⟩ | ⟨rfl, rfl⟩ | ⟨rfl, rfl⟩ <;> simp [startValue, isWs]

/-- The state a value starts from is overwritten. -/
theorem startValue_state {m : JsonMachine} {b : UInt8} (st : S) (top : Bool) (hws : isWs b = false) :
    { m with state := st }.startValue b top = m.startValue b top := by
  have hpush : ∀ k : Bool, ∀ st' : S,
      ({ m with state := st }.push k).map (fun m' : JsonMachine => { m' with state := st' }) =
        (m.push k).map (fun m' : JsonMachine => { m' with state := st' }) := by
    intro k st'
    unfold push
    split
    · rfl
    · split <;> rfl
  unfold startValue
  simp only [hws, hpush, Bool.false_eq_true, if_false]

/-- What `step_inner` returns when the byte is the move to `v`. -/
structure Lands (m m₁ : JsonMachine) (b : UInt8) (v : View) (ev : Events) : Prop where
  frames : m₁.frames = v.frames
  state : m₁.state = v.state
  wsRun : (if isWs b then m₁.wsRun + 1 else 0) = v.wsRun
  events : eventsOf m.state m₁.state b = ev

/-- `step_inner` makes every move that is not made by the delimiter of a number. -/
theorem stepInner_of_step {f : JsonMachine → Option JsonMachine} {m : JsonMachine} {b : UInt8}
    {mode : JsonMode} {v : View} {ev : Events} (hnum : m.state.isNum = false)
    (h : Step mode m.view b v ev) : ∃ m₁, stepInner f m b mode = some m₁ ∧ Lands m m₁ b v ev := by
  have hopen : m.state = .value ∨ m.state = .arrFirst → b ≠ 0x5D → isWs b = false →
      (b ≠ 0x7B → TopOk mode m.frames) → stepInner f m b mode = m.startValue b false := by
    rintro (hs | hs) hb hws htop
    · simp only [stepInner, hs, startValue_of_topOk htop]
    · simp only [stepInner, hs, hb, if_false, startValue_state _ _ hws, startValue_of_topOk htop]
  have hpush : ∀ (b' : UInt8) (k : Bool) (st : S) {fs : List Bool},
      m.frames = fs → fs.length < maxDepth → m.startValue b' false = (m.push k).map ({ · with state := st }) →
      isWs b' = false →
      ∃ m₁, m.startValue b' false = some m₁ ∧ m₁.frames = k :: fs ∧ m₁.state = st := by
    intro b' k st fs hfr hd hsv hws
    obtain ⟨m₁, hm₁⟩ := push_isSome (m := m) k (by rw [hfr]; exact hd)
    refine ⟨{ m₁ with state := st }, by rw [hsv, hm₁]; rfl, ?_, rfl⟩
    rw [frames_state, (push_eq_some hm₁).2.1, hfr]
  generalize hv : m.view = v₀ at h
  have hst : m.state = v₀.state := by rw [← hv]; rfl
  have hfr : m.frames = v₀.frames := by rw [← hv]; rfl
  have hr : m.wsRun = v₀.wsRun := by rw [← hv]; rfl
  cases h with
  | gap hgap hws hr =>
      simp only at hst hfr
      rw [← hst] at hgap
      refine ⟨m, ?_, hfr, hst, by simp [hws, hr], ?_⟩
      · cases hs : m.state <;> simp only [hs, S.gap, Bool.false_eq_true] at hgap <;>
          simp [stepInner, hs, hws, startValue_of_isWs]
      · refine eventsOf_gap _ _ hws hnum ?_
        cases hs : m.state <;> simp [hs, S.gap] at hgap ⊢ <;> rfl
  | arrGap hws hr =>
      simp only at hst hfr
      have hb : b ≠ 0x5D := by rintro rfl; cases hws
      refine ⟨{ m with state := .value }, ?_, hfr, rfl, by simp [*], ?_⟩
      · simp [stepInner, hst, hb, startValue_of_isWs _ hws]
      · rw [hst]; exact eventsOf_gap _ _ hws rfl rfl
  | objOpen h hd =>
      simp only at hst hfr
      obtain ⟨m₁, hsv, hfr₁, hst₁⟩ := hpush 0x7B false .objFirst hfr hd
        (by simp [startValue, isWs]) rfl
      refine ⟨m₁, (hopen (hst ▸ h) (by decide) rfl (by simp)).trans hsv, hfr₁, hst₁, rfl, ?_⟩
      rw [hst, hst₁]
      rcases h with rfl | rfl <;> rfl
  | arrOpen h hd htop =>
      simp only at hst hfr
      obtain ⟨m₁, hsv, hfr₁, hst₁⟩ := hpush 0x5B true .arrFirst hfr hd
        (by simp [startValue, isWs]) rfl
      refine ⟨m₁, (hopen (hst ▸ h) (by decide) rfl fun _ => hfr ▸ htop).trans hsv, hfr₁, hst₁, rfl, ?_⟩
      rw [hst, hst₁]
      rcases h with rfl | rfl <;> rfl
  | strOpen h htop =>
      simp only at hst hfr
      refine ⟨{ m with state := .str false 0 false }, ?_, hfr, rfl, rfl, ?_⟩
      · rw [hopen (hst ▸ h) (by decide) rfl fun _ => hfr ▸ htop]
        simp [startValue, isWs]
      · rw [hst]
        rcases h with rfl | rfl <;> rfl
  | @numOpen fs st r b n h htop hb =>
      simp only at hst hfr
      have hne : isWs b = false ∧ b ≠ 0x7B ∧ b ≠ 0x5B ∧ b ≠ 0x22 ∧ b ≠ 0x5D ∧ b ≠ 0x2C ∧ b ≠ 0x7D := by
        simp only [isWs, Bool.or_eq_false_iff, beq_eq_false_iff_ne]
        rcases numStart_byte hb with ⟨rfl, -⟩ | ⟨rfl, -⟩ | ⟨hdig, -⟩
        · decide
        · decide
        · grind
      obtain ⟨hws, h1, h2, h3, h4, h5, h6⟩ := hne
      refine ⟨{ m with state := .num n }, ?_, hfr, rfl, by simp [hws], ?_⟩
      · rw [hopen (hst ▸ h) h4 hws fun _ => hfr ▸ htop, startValue_num hb]
      · rw [hst]
        rcases h with rfl | rfl <;> simp [eventsOf, hws, h1, h2, h3, h4, h5, h6, S.isNum, S.isLit]
  | @litOpen fs st r b l h htop hb =>
      simp only at hst hfr
      have hne : isWs b = false ∧ b ≠ 0x7B ∧ b ≠ 0x5B ∧ b ≠ 0x22 ∧ b ≠ 0x5D ∧ b ≠ 0x2C ∧ b ≠ 0x7D := by
        rcases litStart_byte hb with ⟨rfl, -⟩ | ⟨rfl, -⟩ | ⟨rfl, -⟩ <;> decide
      obtain ⟨hws, h1, h2, h3, h4, h5, h6⟩ := hne
      refine ⟨{ m with state := .lit l 1 }, ?_, hfr, rfl, by simp [hws], ?_⟩
      · rw [hopen (hst ▸ h) h4 hws fun _ => hfr ▸ htop, startValue_lit hb]
      · rw [hst]
        rcases h with rfl | rfl <;> simp [eventsOf, hws, h1, h2, h3, h4, h5, h6, S.isNum, S.isLit]
  | keyOpen h =>
      simp only at hst hfr
      refine ⟨{ m with state := .str false 0 true }, ?_, hfr, rfl, rfl, ?_⟩
      · rcases h with rfl | rfl <;> simp [stepInner, hst, isWs]
      · rw [hst]
        rcases h with rfl | rfl <;> rfl
  | objClose h =>
      simp only at hst
      obtain ⟨m₁, hm₁⟩ := popState_isSome hfr
      obtain ⟨k, fs, hfr', hfr₁, hst₁, -⟩ := popState_eq_some hm₁
      obtain ⟨rfl, rfl⟩ := List.cons.inj (hfr.symm.trans hfr')
      refine ⟨m₁, ?_, hfr₁, hst₁, rfl, ?_⟩
      · rcases h with rfl | rfl <;> simp [stepInner, hst, isWs, hm₁]
      · rw [hst, hst₁]
        rcases h with rfl | rfl <;> rfl
  | arrClose h =>
      simp only at hst
      obtain ⟨m₁, hm₁⟩ := popState_isSome hfr
      obtain ⟨k, fs, hfr', hfr₁, hst₁, -⟩ := popState_eq_some hm₁
      obtain ⟨rfl, rfl⟩ := List.cons.inj (hfr.symm.trans hfr')
      refine ⟨m₁, ?_, hfr₁, hst₁, rfl, ?_⟩
      · rcases h with rfl | rfl <;> simp [stepInner, hst, isWs, hm₁]
      · rw [hst, hst₁]
        rcases h with rfl | rfl <;> rfl
  | @strByte fs key r b h20 hq hbs hlt =>
      simp only at hst hfr
      have h1f : ¬ b ≤ 0x1F := by grind
      refine ⟨m, by simp [stepInner, hst, stepStr, hq, hbs, h1f], hfr, hst, ?_, ?_⟩
      · have hws : isWs b = true ↔ b = 0x20 := isWs_iff_of_ge h20
        simp only [hws, hr]
      · simp [eventsOf, hst, hq, S.isNum, S.isLit]
  | @escSimple fs key r b hb =>
      simp only at hst hfr
      refine ⟨{ m with state := .str false 0 key }, by simp [stepInner, hst, stepStr, hb], hfr, rfl,
        ?_, by simp [eventsOf, hst, S.isNum, S.isLit]⟩
      simp [(simpleEsc_byte hb).2]
  | @hex fs esc u key r b hb =>
      simp only at hst hfr
      refine ⟨{ m with state := .str false u key }, by simp [stepInner, hst, stepStr, hb], hfr, rfl,
        ?_, by simp [eventsOf, hst, S.isNum, S.isLit]⟩
      simp [hexdigit_not_ws hb]
  | @litNext fs l p r b hb hp =>
      simp only at hst hfr
      obtain ⟨h5, h1, h2, h3, h4⟩ := literals_byte hb
      exact ⟨{ m with state := .lit l (p + 1) }, by simp [stepInner, hst, stepLit, hb, hp], hfr, rfl,
        by simp [h5], by simp [eventsOf, hst, h1, h2]⟩
  | @litEnd fs l p r b hb hp =>
      simp only at hst hfr
      obtain ⟨h5, h1, h2, h3, h4⟩ := literals_byte hb
      have hafter : m.afterValue = after fs := by rw [afterValue_eq, hfr]
      exact ⟨{ m with state := m.afterValue }, by simp [stepInner, hst, stepLit, hb, hp], hfr, hafter,
        by simp [h5], by simp [eventsOf, hst, hafter, h1, h2]⟩
  | @strClose fs r =>
      simp only at hst hfr
      have hafter : m.afterValue = after fs := by rw [afterValue_eq, hfr]
      exact ⟨{ m with state := m.afterValue }, by simp [stepInner, hst, stepStr], hfr, hafter, rfl,
        by simp [eventsOf, hst, hafter, S.isNum, S.isLit]⟩
  | @strEsc fs key r =>
      exact ⟨{ m with state := .str true 0 key }, by simp [stepInner, hst, stepStr], hfr, rfl, rfl,
        by rw [hst]; rfl⟩
  | @escUnicode fs key r =>
      exact ⟨{ m with state := .str false 4 key }, by simp [stepInner, hst, stepStr, isSimpleEsc], hfr,
        rfl, rfl, by rw [hst]; rfl⟩
  | keyClose =>
      exact ⟨{ m with state := .colon }, by simp [stepInner, hst, stepStr], hfr, rfl, rfl,
        by rw [hst]; rfl⟩
  | colon =>
      exact ⟨{ m with state := .value }, by simp [stepInner, hst, isWs], hfr, rfl, rfl,
        by rw [hst]; rfl⟩
  | objComma =>
      exact ⟨{ m with state := .objComma }, by simp [stepInner, hst, isWs], hfr, rfl, rfl,
        by rw [hst]; rfl⟩
  | arrComma =>
      exact ⟨{ m with state := .value }, by simp [stepInner, hst, isWs], hfr, rfl, rfl,
        by rw [hst]; rfl⟩
  | numNext | numGap | numObjComma | numArrComma | numObjClose | numArrClose =>
      simp [hst] at hnum

/-- Whitespace moves only below the cap. -/
theorem wsRun_lt_of_step {v v' : View} {b : UInt8} {mode : JsonMode} {ev : Events}
    (h : Step mode v b v' ev) (hws : isWs b) : v.wsRun < maxWhitespaceRun := by
  cases h with
  | gap _ _ hr => exact hr
  | arrGap _ hr => exact hr
  | numGap _ _ hr => exact hr
  | strByte h20 _ _ hr => exact hr ((isWs_iff_of_ge h20).1 hws)
  | numNext hb => simp [(NumS.next_byte hb).1] at hws
  | litNext hb => simp [(literals_byte hb).1] at hws
  | litEnd hb => simp [(literals_byte hb).1] at hws
  | numOpen _ _ hb => rcases isWs_cases hws with rfl | rfl | rfl | rfl <;> cases hb
  | litOpen _ _ hb => rcases isWs_cases hws with rfl | rfl | rfl | rfl <;> cases hb
  | escSimple hb => simp [(simpleEsc_byte hb).2] at hws
  | hex hb => simp [hexdigit_not_ws hb] at hws
  | _ => cases hws

/-- A byte of the number continues it. -/
theorem step_num_next {fs : List Bool} {n n2 : NumS} {r : Nat} {b : UInt8} {mode : JsonMode}
    {v : View} {ev : Events} (hb : n.next b = some n2) (h : Step mode ⟨fs, .num n, r⟩ b v ev) :
    v = ⟨fs, .num n2, 0⟩ ∧ ev = {} := by
  obtain ⟨hws, h1, h2, h3, h4⟩ := NumS.next_byte hb
  cases h with
  | gap hst => cases hst
  | numNext hb' => simp_all
  | _ => simp_all

/-- A byte that settles a number moves as it does from the state after the value. -/
theorem step_after_of_num {fs : List Bool} {n : NumS} {r : Nat} {b : UInt8} {mode : JsonMode}
    {v : View} {ev : Events} (hb : n.next b = none) (h : Step mode ⟨fs, .num n, r⟩ b v ev) :
    n.complete ∧ eventsOf (.num n) v.state b = ev ∧ ∃ r' ev',
      Step mode ⟨fs, after fs, r⟩ b ⟨v.frames, v.state, r'⟩ ev' ∧
        (if isWs b then r' + 1 else 0) = v.wsRun := by
  cases h with
  | gap hst => cases hst
  | numNext hb' => simp [hb] at hb'
  | numGap hn hws hr =>
      refine ⟨hn, ?_, _, _, .gap ?_ hws hr, by simp [hws]⟩
      · rcases isWs_cases hws with rfl | rfl | rfl | rfl <;> simp [eventsOf]
      · rcases fs with _ | ⟨_ | _, _⟩ <;> rfl
  | numObjComma hn => exact ⟨hn, rfl, _, _, .objComma, rfl⟩
  | numArrComma hn => exact ⟨hn, rfl, _, _, .arrComma, rfl⟩
  | numObjClose hn => exact ⟨hn, by simp [eventsOf], _, _, .objClose (by simp), rfl⟩
  | numArrClose hn => exact ⟨hn, by simp [eventsOf], _, _, .arrClose (by simp), rfl⟩
  | _ => simp_all

/-- Every move is a step of the machine. -/
theorem stepEv_of_step {m : JsonMachine} {b : UInt8} {mode : JsonMode} {v : View} {ev : Events}
    (h : Step mode m.view b v ev) : ∃ m', m.stepEv b mode = some (m', ev) ∧ m'.view = v := by
  have hr : isWs b → m.wsRun < maxWhitespaceRun := wsRun_lt_of_step h
  suffices hin : ∃ m₁, stepInner (restep b mode) m b mode = some m₁ ∧ Lands m m₁ b v ev by
    obtain ⟨m₁, hm₁, hl⟩ := hin
    refine ⟨_, stepEvWith_eq_some.2 ⟨hr, m₁, hm₁, rfl, hl.events.symm⟩, ?_⟩
    obtain ⟨hfr, hst, hws, -⟩ := hl
    cases v
    simp only at hfr hst hws
    show View.mk m₁.frames m₁.state _ = _
    rw [hfr, hst, hws]
  by_cases hnum : m.state.isNum
  · cases hs : m.state with
    | num n =>
        simp only [view, hs] at h
        cases hb : n.next b with
        | some n2 =>
            obtain ⟨hws, h1, h2, h3, h4⟩ := NumS.next_byte hb
            obtain ⟨rfl, rfl⟩ := step_num_next hb h
            exact ⟨{ m with state := .num n2 }, by simp [stepInner, hs, hb], rfl, rfl, by simp [hws],
              by simp [eventsOf, hs, h1, h2, h3, h4]⟩
        | none =>
            obtain ⟨hn, hev, r', ev', hafter, hr'⟩ := step_after_of_num hb h
            rw [← afterValue_eq] at hafter
            obtain ⟨m₁, hm₁, hl⟩ := stepInner_of_step (f := fun _ => none)
              (m := { m with state := m.afterValue }) (afterValue_not_num m) hafter
            have hre := stepEvWith_eq_some.2 (⟨hr, m₁, hm₁, rfl, rfl⟩ :
              (isWs b → { m with state := m.afterValue }.wsRun < maxWhitespaceRun) ∧ _)
            refine ⟨{ m₁ with wsRun := r' }, ?_, hl.frames, hl.state, hr', ?_⟩
            · simp [stepInner, hs, hb, hn, restep, hre, hl.wsRun]
            · rw [hs]
              simpa only [hl.state] using hev
    | _ => simp [hs, S.isNum] at hnum
  · exact stepInner_of_step (by simpa using hnum) h

end JsonMachine

end Oxydllm.Constrain
