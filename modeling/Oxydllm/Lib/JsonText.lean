/-
# Oxydllm.Lib.JsonText — RFC 8259 JSON texts as concrete syntax trees over bytes.

A value of `Text` is one JSON text together with every byte the grammar leaves free: the
whitespace of each gap between two tokens, the digits of each number, the escapes of each string.
The side conditions of the grammar are fields, so an ill-formed token cannot be built, and
`Text.print` is the byte string the tree stands for. A byte string is a JSON text exactly when it is
the print of a tree.

Lists of elements and members are snoc lists: an incremental reader meets them left to right and
always extends the last one.
-/
import Mathlib.Data.UInt
import Mathlib.Data.List.Basic
import Mathlib.Tactic.Tauto

namespace JsonText

/-! ## Byte classes -/

/-- `ws = *( %x20 / %x09 / %x0A / %x0D )`, one byte of it. -/
def isSpace (b : UInt8) : Bool := b == 0x20 || b == 0x09 || b == 0x0A || b == 0x0D

def isDigit (b : UInt8) : Bool := 0x30 ≤ b && b ≤ 0x39

/-- `digit1-9`. -/
def isDigit19 (b : UInt8) : Bool := 0x31 ≤ b && b ≤ 0x39

def isHex (b : UInt8) : Bool :=
  (0x30 ≤ b && b ≤ 0x39) || (0x41 ≤ b && b ≤ 0x46) || (0x61 ≤ b && b ≤ 0x66)

/-- The bytes that may follow a backslash, `u` apart. -/
def isSimpleEscape (b : UInt8) : Bool :=
  b == 0x22 || b == 0x5C || b == 0x2F || b == 0x62 || b == 0x66 || b == 0x6E || b == 0x72 || b == 0x74

/-- `unescaped`, with every byte of a multi-byte character allowed. -/
def isUnescaped (b : UInt8) : Bool := 0x20 ≤ b && b != 0x22 && b != 0x5C

/-! ## Tokens -/

/-- The whitespace between two tokens. -/
structure Gap where
  bytes : List UInt8
  space : ∀ b ∈ bytes, isSpace b

def Gap.empty : Gap := ⟨[], by simp⟩

/-- `1*DIGIT`. -/
structure Digits where
  first : UInt8
  rest : List UInt8
  first_digit : isDigit first
  rest_digit : ∀ b ∈ rest, isDigit b

def Digits.print (d : Digits) : List UInt8 := d.first :: d.rest

/-- `int = zero / ( digit1-9 *DIGIT )`. -/
inductive IntPart where
  | zero
  | lead (d : UInt8) (rest : List UInt8) (hd : isDigit19 d) (hrest : ∀ b ∈ rest, isDigit b)

def IntPart.print : IntPart → List UInt8
  | .zero => [0x30]
  | .lead d rest _ _ => d :: rest

/-- `exp = e [ minus / plus ] 1*DIGIT`. -/
structure Exponent where
  marker : UInt8
  sign : List UInt8
  digits : Digits
  marker_ok : marker = 0x65 ∨ marker = 0x45
  sign_ok : sign = [] ∨ sign = [0x2B] ∨ sign = [0x2D]

def Exponent.print (e : Exponent) : List UInt8 := e.marker :: (e.sign ++ e.digits.print)

/-- `number = [ minus ] int [ frac ] [ exp ]`. -/
structure Number where
  neg : Bool
  int : IntPart
  frac : Option Digits
  exp : Option Exponent

/-- The sign and integer part of a number. -/
def Number.printInt (neg : Bool) (int : IntPart) : List UInt8 :=
  (if neg then [0x2D] else []) ++ int.print

def Number.printFrac : Option Digits → List UInt8
  | none => []
  | some d => 0x2E :: d.print

def Number.printExp : Option Exponent → List UInt8
  | none => []
  | some e => e.print

def Number.print (n : Number) : List UInt8 :=
  Number.printInt n.neg n.int ++ Number.printFrac n.frac ++ Number.printExp n.exp

/-- No fraction and no exponent: the spelling of an integer. -/
def Number.isIntegral (n : Number) : Bool := n.frac.isNone && n.exp.isNone

/-- One `char` of a string. -/
inductive Char where
  | plain (b : UInt8) (h : isUnescaped b)
  | esc (b : UInt8) (h : isSimpleEscape b)
  | unicode (h₁ h₂ h₃ h₄ : UInt8) (ok : isHex h₁ ∧ isHex h₂ ∧ isHex h₃ ∧ isHex h₄)

def Char.print : Char → List UInt8
  | .plain b _ => [b]
  | .esc b _ => [0x5C, b]
  | .unicode h₁ h₂ h₃ h₄ _ => [0x5C, 0x75, h₁, h₂, h₃, h₄]

/-- The characters between the quotation marks of a string. -/
abbrev Str := List Char

def Str.body (s : Str) : List UInt8 := s.flatMap Char.print

def Str.print (s : Str) : List UInt8 := 0x22 :: (Str.body s ++ [0x22])

inductive Literal where
  | true
  | false
  | null
  deriving DecidableEq

def Literal.print : Literal → List UInt8
  | .true => [0x74, 0x72, 0x75, 0x65]
  | .false => [0x66, 0x61, 0x6C, 0x73, 0x65]
  | .null => [0x6E, 0x75, 0x6C, 0x6C]

/-! ## Values -/

mutual

inductive Value where
  | lit (l : Literal)
  | num (n : Number)
  | str (s : Str)
  | emptyArr (g : Gap)
  | arr (items : Items)
  | emptyObj (g : Gap)
  | obj (members : Members)

/-- One or more array elements, each between its two gaps. -/
inductive Items where
  | one (g₁ : Gap) (v : Value) (g₂ : Gap)
  | snoc (init : Items) (g₁ : Gap) (v : Value) (g₂ : Gap)

/-- One or more object members; the gaps stand before the key, on both sides of the colon and
after the value. -/
inductive Members where
  | one (g₁ : Gap) (key : Str) (g₂ g₃ : Gap) (v : Value) (g₄ : Gap)
  | snoc (init : Members) (g₁ : Gap) (key : Str) (g₂ g₃ : Gap) (v : Value) (g₄ : Gap)

end

mutual

def Value.print : Value → List UInt8
  | .lit l => l.print
  | .num n => n.print
  | .str s => Str.print s
  | .emptyArr g => 0x5B :: (g.bytes ++ [0x5D])
  | .arr items => 0x5B :: (items.print ++ [0x5D])
  | .emptyObj g => 0x7B :: (g.bytes ++ [0x7D])
  | .obj members => 0x7B :: (members.print ++ [0x7D])

def Items.print : Items → List UInt8
  | .one g₁ v g₂ => g₁.bytes ++ v.print ++ g₂.bytes
  | .snoc init g₁ v g₂ => init.print ++ 0x2C :: (g₁.bytes ++ v.print ++ g₂.bytes)

def Members.print : Members → List UInt8
  | .one g₁ key g₂ g₃ v g₄ =>
      g₁.bytes ++ Str.print key ++ g₂.bytes ++ 0x3A :: (g₃.bytes ++ v.print ++ g₄.bytes)
  | .snoc init g₁ key g₂ g₃ v g₄ =>
      init.print ++
        0x2C :: (g₁.bytes ++ Str.print key ++ g₂.bytes ++ 0x3A :: (g₃.bytes ++ v.print ++ g₄.bytes))

end

mutual

/-- How deep arrays and objects nest: 0 for a scalar. -/
def Value.depth : Value → Nat
  | .lit _ => 0
  | .num _ => 0
  | .str _ => 0
  | .emptyArr _ => 1
  | .arr items => items.depth + 1
  | .emptyObj _ => 1
  | .obj members => members.depth + 1

def Items.depth : Items → Nat
  | .one _ v _ => v.depth
  | .snoc init _ v _ => max init.depth v.depth

def Members.depth : Members → Nat
  | .one _ _ _ _ v _ => v.depth
  | .snoc init _ _ _ _ v _ => max init.depth v.depth

end

/-- The keys of an object, as they are spelled. -/
def Members.keys : Members → List Str
  | .one _ key _ _ _ _ => [key]
  | .snoc init _ key _ _ _ _ => init.keys ++ [key]

def Value.isObject : Value → Bool
  | .emptyObj _ => true
  | .obj _ => true
  | _ => false

def Value.isScalar : Value → Bool
  | .lit _ => true
  | .num _ => true
  | .str _ => true
  | _ => false

/-- `JSON-text = ws value ws`. -/
structure Text where
  pre : Gap
  value : Value
  post : Gap

def Text.print (t : Text) : List UInt8 := t.pre.bytes ++ t.value.print ++ t.post.bytes

/-! ## Conditions on the free parts of a text -/

def Value.isNum : Value → Bool
  | .num _ => true
  | _ => false

/-- A condition on what the grammar leaves free: each gap (with whether it directly follows a
number), the whitespace of an empty array, each string, keys included, and each number. -/
structure Layout where
  gap : Bool → Gap → Prop
  hole : Gap → Prop
  str : Str → Prop
  num : Number → Prop

def Layout.and (L L' : Layout) : Layout where
  gap num g := L.gap num g ∧ L'.gap num g
  hole g := L.hole g ∧ L'.hole g
  str s := L.str s ∧ L'.str s
  num n := L.num n ∧ L'.num n

@[simp] theorem Layout.and_gap (L L' : Layout) (num : Bool) (g : Gap) :
    (L.and L').gap num g ↔ L.gap num g ∧ L'.gap num g := Iff.rfl

@[simp] theorem Layout.and_hole (L L' : Layout) (g : Gap) :
    (L.and L').hole g ↔ L.hole g ∧ L'.hole g := Iff.rfl

@[simp] theorem Layout.and_str (L L' : Layout) (s : Str) :
    (L.and L').str s ↔ L.str s ∧ L'.str s := Iff.rfl

@[simp] theorem Layout.and_num (L L' : Layout) (n : Number) :
    (L.and L').num n ↔ L.num n ∧ L'.num n := Iff.rfl

mutual

/-- Every free part of the value meets the condition. -/
def Value.All (L : Layout) : Value → Prop
  | .lit _ => True
  | .num n => L.num n
  | .str s => L.str s
  | .emptyArr g => L.hole g
  | .arr items => items.All L
  | .emptyObj g => L.gap false g
  | .obj members => members.All L

def Items.All (L : Layout) : Items → Prop
  | .one g₁ v g₂ => L.gap false g₁ ∧ v.All L ∧ L.gap v.isNum g₂
  | .snoc init g₁ v g₂ => init.All L ∧ L.gap false g₁ ∧ v.All L ∧ L.gap v.isNum g₂

def Members.All (L : Layout) : Members → Prop
  | .one g₁ key g₂ g₃ v g₄ =>
      L.gap false g₁ ∧ L.str key ∧ L.gap false g₂ ∧ L.gap false g₃ ∧ v.All L ∧ L.gap v.isNum g₄
  | .snoc init g₁ key g₂ g₃ v g₄ =>
      init.All L ∧
        L.gap false g₁ ∧ L.str key ∧ L.gap false g₂ ∧ L.gap false g₃ ∧ v.All L ∧ L.gap v.isNum g₄

end

def Text.All (L : Layout) (t : Text) : Prop :=
  L.gap false t.pre ∧ t.value.All L ∧ L.gap t.value.isNum t.post

mutual

theorem Value.all_and (L L' : Layout) : ∀ v : Value, v.All (L.and L') ↔ v.All L ∧ v.All L'
  | .lit _ => by simp [Value.All]
  | .num n => Iff.rfl
  | .str s => Iff.rfl
  | .emptyArr g => Iff.rfl
  | .arr items => Items.all_and L L' items
  | .emptyObj g => Iff.rfl
  | .obj members => Members.all_and L L' members

theorem Items.all_and (L L' : Layout) :
    ∀ items : Items, items.All (L.and L') ↔ items.All L ∧ items.All L'
  | .one g₁ v g₂ => by
      simp only [Items.All, Layout.and_gap, Value.all_and L L' v]
      tauto
  | .snoc init g₁ v g₂ => by
      simp only [Items.All, Layout.and_gap, Items.all_and L L' init, Value.all_and L L' v]
      tauto

theorem Members.all_and (L L' : Layout) :
    ∀ members : Members, members.All (L.and L') ↔ members.All L ∧ members.All L'
  | .one g₁ key g₂ g₃ v g₄ => by
      simp only [Members.All, Layout.and_gap, Layout.and_str, Value.all_and L L' v]
      tauto
  | .snoc init g₁ key g₂ g₃ v g₄ => by
      simp only [Members.All, Layout.and_gap, Layout.and_str, Members.all_and L L' init, Value.all_and L L' v]
      tauto

end

theorem Text.all_and (L L' : Layout) (t : Text) : t.All (L.and L') ↔ t.All L ∧ t.All L' := by
  simp only [Text.All, Layout.and_gap, Value.all_and L L' t.value]
  tauto

end JsonText
