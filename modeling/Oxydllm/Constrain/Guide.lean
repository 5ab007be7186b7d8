/-
# Oxydllm.Constrain.Guide — the schema walker, the token table and `JsonConstraint`.

`GuideState` is the schema half of the walker. The source keeps eight levels in an array with a depth;
the entries above the depth are never read before they are overwritten, so here the levels in use are
a list, innermost first. `alive`, `emitted` and `required` are `u64` masks, `pos` is a `u16` that wraps.
A source method that returns `bool` after changing `self` is a function to `Option GuideState`.
-/
import Oxydllm.Constrain.Schema
import Oxydllm.Constrain.Trace

namespace Oxydllm.Constrain

open JsonText

/-- One guided nesting level; `curProp` is the property whose value is pending, `NO_PROP` being
`none`. -/
structure Level where
  node : NodeId
  emitted : BitVec 64
  curProp : Option Nat

/-- The constraint on the scalar currently being emitted. -/
inductive ValCtx where
  | free
  | enumScan (node : NodeId) (alive : BitVec 64) (pos : Nat)
  | keyScan (alive : BitVec 64) (pos : Nat) (any : Bool)
  /-- Inside a number under an `integer` schema: `.` and exponents masked. -/
  | intNumber

structure GuideState where
  levels : List Level
  overflow : Nat
  val : ValCtx

/-- `pos + 1` in a `u16`. -/
def nextPos (pos : Nat) : Nat := (pos + 1) % 65536

/-- The alive strings whose byte at `pos` is `b`. -/
def matching (strings : List (List UInt8)) (alive : BitVec 64) (pos : Nat) (b : UInt8) : BitVec 64 :=
  Mask.collect strings fun i s => alive.getLsbD i && s[pos]? == some b

/-- The strings whose first byte is `b`. -/
def starting (strings : List (List UInt8)) (b : UInt8) : BitVec 64 :=
  Mask.collect strings fun _ s => s.head? == some b

namespace GuideState

variable (arena : SchemaArena)

def new : GuideState := ⟨[], 0, .free⟩

/-- The schema node governing the next value at the current position. -/
def expected (root : NodeId) (g : GuideState) : NodeId :=
  if g.overflow > 0 then anyId
  else match g.levels with
    | [] => root
    | level :: _ =>
        match arena.node level.node with
        | .array items => items
        | .object props _ _ =>
            match level.curProp with
            | none => anyId
            | some i => ((props[i]?).map Prod.snd).getD anyId
        | _ => anyId

/-- Whether the current object can accept another key. -/
def hasAvailableKey (g : GuideState) : Bool :=
  if g.overflow > 0 then true
  else match g.levels with
    | [] => true
    | level :: _ =>
        match arena.node level.node with
        | .object props _ additional =>
            additional || (List.range props.length).any fun i => !level.emitted.getLsbD i
        | _ => true

/-- The first byte of a value under `node`: `none` when the type does not allow it, else the scalar
constraint it starts. -/
def startScalar (node : NodeId) (b : UInt8) : Option ValCtx :=
  match arena.node node with
  | .any => some .free
  | .object _ _ _ => if b = 0x7B then some .free else none
  | .array _ => if b = 0x5B then some .free else none
  | .str => if b = 0x22 then some .free else none
  | .number integer =>
      if b = 0x2D ∨ (0x30 ≤ b ∧ b ≤ 0x39) then some (if integer then .intNumber else .free) else none
  | .boolean => if b = 0x74 ∨ b = 0x66 then some .free else none
  | .null => if b = 0x6E then some .free else none
  | .enum literals =>
      let alive := starting literals b
      if alive = 0#64 then none else some (.enumScan node alive 1)

def enterValue (g : GuideState) (node : NodeId) (b : UInt8) : Option GuideState :=
  (startScalar arena node b).map fun val =>
    if b = 0x7B ∨ b = 0x5B then
      if g.overflow > 0 ∨ g.levels.length ≥ guidedDepth then
        -- `saturating_add` on a `u8`
        { g with overflow := min (g.overflow + 1) 255, val := val }
      else
        let levelNode := match arena.node node with
          | .object _ _ _ => node
          | .array _ => node
          | _ => anyId
        { g with levels := ⟨levelNode, 0#64, none⟩ :: g.levels, val := val }
    else { g with val := val }

def startKey (g : GuideState) : GuideState :=
  if g.overflow > 0 then { g with val := .free }
  else match g.levels with
    | [] => { g with val := .free }
    | level :: _ =>
        match arena.node level.node with
        | .object props _ additional =>
            { g with val := .keyScan (Mask.collect props fun i _ => !level.emitted.getLsbD i) 0 additional }
        | _ => { g with val := .free }

/-- A content byte of the current scalar or key. -/
def content (g : GuideState) (b : UInt8) (ev : Events) : Option GuideState :=
  match g.val with
  | .enumScan node alive pos =>
      if ev.keyEnd || ev.scalarEnd || ev.objClose || ev.arrClose then some g
      else
        let alive := match arena.node node with
          | .enum literals => matching literals alive pos b
          | _ => alive
        if alive = 0#64 then none else some { g with val := .enumScan node alive (nextPos pos) }
  | .keyScan alive pos any =>
      if ev.keyEnd then some g
      else
        let alive := match g.levels with
          | level :: _ =>
              match arena.node level.node with
              | .object props _ _ => matching (props.map Prod.fst) alive pos b
              | _ => alive
          | [] => alive
        if alive = 0#64 ∧ any = false then none
        else some { g with val := .keyScan alive (nextPos pos) any }
  | .intNumber => if b = 0x2E ∨ b = 0x65 ∨ b = 0x45 then none else some g
  | .free => some g

/-- Rewrites the innermost level. -/
def mapTop (f : Level → Level) : List Level → List Level
  | [] => []
  | l :: ls => f l :: ls

def finishKey (g : GuideState) : Option GuideState :=
  match g.val with
  | .keyScan alive pos any =>
      match g.levels with
      | [] => some { g with val := .free }
      | level :: rest =>
          match arena.node level.node with
          | .object props _ _ =>
              match (List.range props.length).find? fun i =>
                  alive.getLsbD i && ((props[i]?).map fun p => p.1.length) == some pos with
              | some i =>
                  some { g with
                    levels := { level with emitted := level.emitted ||| (1#64 <<< i), curProp := some i } :: rest
                    val := .free }
              | none =>
                  if any then some { g with levels := { level with curProp := none } :: rest, val := .free }
                  else none
          | _ => some { g with val := .free }
  | _ => some { g with val := .free }

/-- Whether the scalar in progress may end; with `byteIncluded` its last byte is `b`, not yet
consumed. -/
def scalarMayEnd (val : ValCtx) (byteIncluded : Bool) (b : UInt8) : Bool :=
  match val with
  | .enumScan node alive pos =>
      match arena.node node with
      | .enum literals =>
          (literals.zipIdx).any fun x => alive.getLsbD x.2 &&
            if byteIncluded then x.1[pos]? == some b && x.1.length == pos + 1 else x.1.length == pos
      | _ => true
  | _ => true

def finishScalar (g : GuideState) (byteIncluded : Bool) (b : UInt8) : Option GuideState :=
  if scalarMayEnd arena g.val byteIncluded b then
    some { g with
      levels := if g.overflow = 0 then mapTop ({ · with curProp := none }) g.levels else g.levels
      val := .free }
  else none

def closeContainer (g : GuideState) : Option GuideState :=
  if g.overflow > 0 then some { g with overflow := g.overflow - 1 }
  else match g.levels with
    | [] => some g
    | level :: rest =>
        let ok := match arena.node level.node with
          | .object _ required _ => level.emitted &&& required == required
          | _ => true
        if ok then some { g with levels := mapTop ({ · with curProp := none }) rest, val := .free }
        else none

/-- Processes one accepted byte and its machine events; `none` rejects the byte on schema
grounds. -/
def onByte (root : NodeId) (g : GuideState) (b : UInt8) (ev : Events) (wasNum : Bool) :
    Option GuideState :=
  -- a number ending on a delimiter: the delimiter byte is not part of the scalar, so settle it first
  (if ev.scalarEnd && wasNum then g.finishScalar arena false b else some g).bind fun g =>
  if ev.objComma && !g.hasAvailableKey arena then none
  else
    (if ev.valueStart then g.enterValue arena (g.expected arena root) b
      else if ev.keyStart then if g.hasAvailableKey arena then some (g.startKey arena) else none
      else g.content arena b ev).bind fun g =>
    (if ev.scalarEnd && !wasNum then g.finishScalar arena true b else some g).bind fun g =>
    (if ev.keyEnd then g.finishKey arena else some g).bind fun g =>
    if ev.objClose || ev.arrClose then g.closeContainer arena else some g

/-- `on_byte` on every observation of a trace. -/
def observe (root : NodeId) (g : GuideState) (τ : List Obs) : Option GuideState :=
  τ.foldlM (fun g o => g.onByte arena root o.byte o.ev o.wasNum) g

end GuideState

/-! ## The constraint -/

/-- Every vocabulary token's bytes, or `none` for tokens that must never appear inside constrained
output. -/
structure TokenByteTable where
  bytes : List (Option (List UInt8))
  stopIds : List Nat

structure JsonConstraint where
  table : TokenByteTable
  arena : SchemaArena
  root : NodeId
  machine : JsonMachine
  guide : GuideState
  mode : JsonMode

namespace JsonConstraint

def new (table : TokenByteTable) (mode : JsonMode) (arena : SchemaArena) : JsonConstraint :=
  ⟨table, arena, arena.root, .new mode, .new, mode⟩

/-- Steps machine and guide through every byte. -/
def walk (c : JsonConstraint) : JsonMachine → GuideState → List UInt8 → Option (JsonMachine × GuideState)
  | m, g, [] => some (m, g)
  | m, g, b :: w =>
      (m.stepEv b c.mode).bind fun p =>
        (g.onByte c.arena c.root b p.2 m.inNumber).bind fun g' => walk c p.1 g' w

/-- The mask entry a byte string gets. -/
def legal (c : JsonConstraint) (entry : Option (List UInt8)) : Bool :=
  match entry with
  | none => false
  | some w => !w.isEmpty && (c.walk c.machine c.guide w).isSome

/-- Marks every token whose bytes are illegal as `false`; stop tokens are `true` only when the
machine accepts a complete value. -/
def allowed (c : JsonConstraint) (vocabSize : Nat) : List Bool :=
  (List.range vocabSize).map fun id =>
    c.legal (c.table.bytes[id]?).join || (c.machine.accepting && c.table.stopIds.contains id)

/-- Advances with the chosen token. -/
def advance (c : JsonConstraint) (token : Nat) : JsonConstraint :=
  if c.table.stopIds.contains token then c
  else match (c.table.bytes[token]?).join with
    | none => c
    | some w =>
        match c.walk c.machine c.guide w with
        | some (m, g) => { c with machine := m, guide := g }
        | none => c

end JsonConstraint

end Oxydllm.Constrain
