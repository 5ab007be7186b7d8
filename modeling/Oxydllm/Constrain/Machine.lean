/-
# Oxydllm.Constrain.Machine — the incremental JSON syntax automaton (`constrain.rs`).

`JsonMachine` as the source has it: a bitstack of container kinds, a depth, a state and the
whitespace run. A source method that mutates the machine and returns `bool` is a function to
`Option JsonMachine`; the machine left behind by a `false` is dropped by every caller (`walk` works
on copies), so it is not modelled. The event bitset is the record of its bits.

`step_inner` calls `step` again when a delimiter ends a number. The state it re-steps from follows a
complete value and is never a number, so the recursion is one level deep; `stepEv` unrolls it and
`stepEv_eq` is the recursive equation of the source.
-/
import Mathlib.Data.UInt
import Mathlib.Data.BitVec

namespace Oxydllm.Constrain

/-- Maximum object/array nesting (`MAX_DEPTH`). -/
def maxDepth : Nat := 64

/-- The longest run of whitespace between tokens (`MAX_WHITESPACE_RUN`). -/
def maxWhitespaceRun : Nat := 22

/-- What the top-level JSON value may be. -/
inductive JsonMode where
  | object
  | value
  deriving DecidableEq, Repr

/-! ## States -/

inductive NumS where
  | minus
  | zero
  | int
  | dot
  | frac
  | exp
  | expSign
  | expDigits
  deriving DecidableEq, Repr

def NumS.complete : NumS → Bool
  | .zero => true
  | .int => true
  | .frac => true
  | .expDigits => true
  | _ => false

/-- The automaton's states; `lit` and `pos` of `S.lit` index `literals`. -/
inductive S where
  | value
  | objFirst
  | arrFirst
  | objComma
  | str (esc : Bool) (uni : Nat) (key : Bool)
  | colon
  | num (n : NumS)
  | lit (lit : Nat) (pos : Nat)
  | objNext
  | arrNext
  | done
  deriving DecidableEq, Repr

def S.isNum : S → Bool
  | .num _ => true
  | _ => false

def S.isLit : S → Bool
  | .lit _ _ => true
  | _ => false

/-- The structural events one byte can trigger. -/
structure Events where
  valueStart : Bool := false
  scalarEnd : Bool := false
  objOpen : Bool := false
  objClose : Bool := false
  arrOpen : Bool := false
  arrClose : Bool := false
  keyStart : Bool := false
  keyEnd : Bool := false
  objComma : Bool := false
  deriving DecidableEq, Repr

/-- The machine: one bit of `stack` per nesting level, 0 an object and 1 an array. -/
structure JsonMachine where
  stack : BitVec 128
  depth : Nat
  state : S
  wsRun : Nat
  deriving DecidableEq, Repr

/-- `LITERALS`: `true`, `false`, `null`. -/
def literals : Nat → List UInt8
  | 0 => [0x74, 0x72, 0x75, 0x65]
  | 1 => [0x66, 0x61, 0x6C, 0x73, 0x65]
  | 2 => [0x6E, 0x75, 0x6C, 0x6C]
  | _ => []

def isWs (b : UInt8) : Bool := b == 0x20 || b == 0x09 || b == 0x0A || b == 0x0D

/-- `u8::is_ascii_hexdigit`. -/
def isAsciiHexdigit (b : UInt8) : Bool :=
  (0x30 ≤ b && b ≤ 0x39) || (0x41 ≤ b && b ≤ 0x46) || (0x61 ≤ b && b ≤ 0x66)

/-- The one-letter escapes: `"`, `\`, `/`, `b`, `f`, `n`, `r`, `t`. -/
def isSimpleEsc (b : UInt8) : Bool :=
  b == 0x22 || b == 0x5C || b == 0x2F || b == 0x62 || b == 0x66 || b == 0x6E || b == 0x72 || b == 0x74

namespace JsonMachine

def inNumber (m : JsonMachine) : Bool := m.state.isNum

/-- Both modes start in `Value`; `startValue` filters the top-level byte in `Object` mode. -/
def new (_mode : JsonMode) : JsonMachine := ⟨0, 0, .value, 0⟩

def objectOnly (mode : JsonMode) : Bool := mode = .object

def numberCompletesTop (m : JsonMachine) : Bool :=
  match m.state with
  | .num n => n.complete
  | _ => false

/-- Whether the machine has consumed one complete top-level value. -/
def accepting (m : JsonMachine) : Bool :=
  m.state = .done || (m.depth = 0 && m.numberCompletesTop)

def push (m : JsonMachine) (isArray : Bool) : Option JsonMachine :=
  if m.depth ≥ maxDepth then none
  else if isArray then some { m with stack := m.stack ||| (1#128 <<< m.depth), depth := m.depth + 1 }
  else some { m with stack := m.stack &&& ~~~(1#128 <<< m.depth), depth := m.depth + 1 }

/-- The state that follows a completed value at the current depth. -/
def afterValue (m : JsonMachine) : S :=
  if m.depth = 0 then .done
  else if (m.stack >>> (m.depth - 1)) &&& 1#128 = 1#128 then .arrNext
  else .objNext

def pop (m : JsonMachine) : Option (S × JsonMachine) :=
  if m.depth = 0 then none
  else
    let m' := { m with depth := m.depth - 1 }
    some (m'.afterValue, m')

/-- `pop`, and the state it returns taken: the shape every closing bracket has. -/
def popState (m : JsonMachine) : Option JsonMachine :=
  m.pop.map fun p => { p.2 with state := p.1 }

def startValue (m : JsonMachine) (b : UInt8) (topObjectOnly : Bool) : Option JsonMachine :=
  if topObjectOnly && m.depth = 0 && b ≠ 0x7B && !isWs b then none
  else if isWs b then some m
  else match b with
    | 0x7B => (m.push false).map ({ · with state := .objFirst }) -- `{`
    | 0x5B => (m.push true).map ({ · with state := .arrFirst }) -- `[`
    | 0x22 => some { m with state := .str false 0 false } -- `"`
    | 0x2D => some { m with state := .num .minus } -- `-`
    | 0x30 => some { m with state := .num .zero } -- `0`
    | 0x74 => some { m with state := .lit 0 1 } -- `t`
    | 0x66 => some { m with state := .lit 1 1 } -- `f`
    | 0x6E => some { m with state := .lit 2 1 } -- `n`
    | b => if 0x31 ≤ b ∧ b ≤ 0x39 then some { m with state := .num .int } else none

end JsonMachine

/-- The number state after one more byte of the number. -/
def NumS.next (n : NumS) (b : UInt8) : Option NumS :=
  let digit := decide (0x30 ≤ b ∧ b ≤ 0x39)
  let isE := b == 0x65 || b == 0x45
  match n with
  | .minus => if b = 0x30 then some .zero else if digit then some .int else none
  | .zero => if b = 0x2E then some .dot else if isE then some .exp else none
  | .int =>
      if digit then some .int else if b = 0x2E then some .dot else if isE then some .exp else none
  | .dot => if digit then some .frac else none
  | .frac => if digit then some .frac else if isE then some .exp else none
  | .exp => if b = 0x2B ∨ b = 0x2D then some .expSign else if digit then some .expDigits else none
  | .expSign => if digit then some .expDigits else none
  | .expDigits => if digit then some .expDigits else none

namespace JsonMachine

/-- One byte inside a string. -/
def stepStr (m : JsonMachine) (esc : Bool) (uni : Nat) (key : Bool) (b : UInt8) :
    Option JsonMachine :=
  if uni > 0 then
    if isAsciiHexdigit b then some { m with state := .str false (uni - 1) key } else none
  else if esc then
    if isSimpleEsc b then some { m with state := .str false 0 key }
    else if b = 0x75 then some { m with state := .str false 4 key }
    else none
  else if b = 0x22 then some { m with state := if key then .colon else m.afterValue }
  else if b = 0x5C then some { m with state := .str true 0 key }
  else if b ≤ 0x1F then none
  else some m

/-- One byte inside `true`, `false` or `null`. -/
def stepLit (m : JsonMachine) (lit pos : Nat) (b : UInt8) : Option JsonMachine :=
  if (literals lit)[pos]? = some b then
    if pos + 1 = (literals lit).length then some { m with state := m.afterValue }
    else some { m with state := .lit lit (pos + 1) }
  else none

/-- `step_inner`, with the call of `self.step` that a delimiter after a number makes as a
parameter. -/
def stepInner (step : JsonMachine → Option JsonMachine) (m : JsonMachine) (b : UInt8)
    (mode : JsonMode) : Option JsonMachine :=
  let topOnly := objectOnly mode
  match m.state with
  | .value => m.startValue b topOnly
  | .objFirst =>
      if isWs b then some m
      else if b = 0x22 then some { m with state := .str false 0 true }
      else if b = 0x7D then m.popState
      else none
  | .arrFirst =>
      if b = 0x5D then m.popState
      -- whitespace takes the machine to `Value` as well, where `]` is no longer legal
      else { m with state := .value }.startValue b topOnly
  | .objComma =>
      if isWs b then some m
      else if b = 0x22 then some { m with state := .str false 0 true }
      else none
  | .str esc uni key => m.stepStr esc uni key b
  | .colon =>
      if isWs b then some m
      else if b = 0x3A then some { m with state := .value }
      else none
  | .num n =>
      match n.next b with
      | some n2 => some { m with state := .num n2 }
      | none => if n.complete then step { m with state := m.afterValue } else none
  | .lit lit pos => m.stepLit lit pos b
  | .objNext =>
      if isWs b then some m
      else if b = 0x2C then some { m with state := .objComma }
      else if b = 0x7D then m.popState
      else none
  | .arrNext =>
      if isWs b then some m
      else if b = 0x2C then some { m with state := .value }
      else if b = 0x5D then m.popState
      else none
  | .done => if isWs b then some m else none

/-- The events of one accepted byte, from the states before and after it. -/
def eventsOf (before after : S) (b : UInt8) : Events :=
  let valueStarted := (before = .value || before = .arrFirst) && !isWs b && b ≠ 0x5D
  let keyOpens := before = .objFirst || before = .objComma
  { valueStart := valueStarted
    objOpen := b = 0x7B && valueStarted
    arrOpen := b = 0x5B && valueStarted
    keyStart := b = 0x22 && keyOpens
    keyEnd := b = 0x22 && !keyOpens && before = .str false 0 true
    objComma := b = 0x2C && after = .objComma
    objClose := b = 0x7D && (before = .objFirst || before = .objNext || before.isNum)
    arrClose := b = 0x5D && (before = .arrFirst || before = .arrNext || before.isNum)
    scalarEnd :=
      (b = 0x22 && !keyOpens && before = .str false 0 false) ||
      ((b = 0x7D || b = 0x5D) && before.isNum) ||
      (before.isLit && !after.isLit) ||
      (before.isNum && !after.isNum && b ≠ 0x7D && b ≠ 0x5D) }

/-- `step_ev`, around a given `step_inner`. -/
def stepEvWith (inner : JsonMachine → UInt8 → JsonMode → Option JsonMachine) (m : JsonMachine)
    (b : UInt8) (mode : JsonMode) : Option (JsonMachine × Events) :=
  if isWs b && m.wsRun ≥ maxWhitespaceRun then none
  else (inner m b mode).map fun m' =>
    ({ m' with wsRun := if isWs b then m'.wsRun + 1 else 0 }, eventsOf m.state m'.state b)

/-- The re-step after a number: it starts from a state that follows a value, so the step it would
itself re-enter is never taken. -/
def restep (b : UInt8) (mode : JsonMode) (m : JsonMachine) : Option JsonMachine :=
  (stepEvWith (stepInner fun _ => none) m b mode).map Prod.fst

/-- Advances by one byte, reporting the events it caused; `none` when the byte is illegal here. -/
def stepEv (m : JsonMachine) (b : UInt8) (mode : JsonMode) : Option (JsonMachine × Events) :=
  stepEvWith (stepInner (restep b mode)) m b mode

def step (m : JsonMachine) (b : UInt8) (mode : JsonMode) : Option JsonMachine :=
  (m.stepEv b mode).map Prod.fst

/-- Stepping through every byte of `w`. -/
def run (mode : JsonMode) (m : JsonMachine) (w : List UInt8) : Option JsonMachine :=
  w.foldlM (fun m b => m.step b mode) m

/-! ## The re-step is the source's recursive call -/

theorem afterValue_not_num (m : JsonMachine) : m.afterValue.isNum = false := by
  unfold afterValue
  split
  · rfl
  · split <;> rfl

/-- Outside a number `step_inner` makes no recursive call. -/
theorem stepInner_congr (f g : JsonMachine → Option JsonMachine) (m : JsonMachine) (b : UInt8)
    (mode : JsonMode) (h : m.state.isNum = false) :
    stepInner f m b mode = stepInner g m b mode := by
  unfold stepInner
  cases hs : m.state with
  | num n => simp [hs, S.isNum] at h
  | _ => rfl

/-- The source's definition of `step_ev`, with `step_inner` calling `step` itself. -/
theorem stepEv_eq (m : JsonMachine) (b : UInt8) (mode : JsonMode) :
    m.stepEv b mode = stepEvWith (stepInner fun m => m.step b mode) m b mode := by
  have hre : ∀ m : JsonMachine, m.state.isNum = false → restep b mode m = m.step b mode := by
    intro m hm
    unfold restep step stepEv stepEvWith
    rw [stepInner_congr (fun _ => none) (restep b mode) m b mode hm]
  unfold stepEv stepEvWith
  have hin : stepInner (restep b mode) m b mode = stepInner (fun m => m.step b mode) m b mode := by
    unfold stepInner
    cases m.state with
    | num n => simp only [hre { m with state := m.afterValue } (afterValue_not_num m)]
    | _ => rfl
  rw [hin]

end JsonMachine

end Oxydllm.Constrain
