/-
# Oxydllm.Lib.JsonValue — the value a JSON text denotes, and the compact text of a value.

`Value.decode` reads a concrete syntax tree as a conforming reader does: escapes are resolved (an
unpaired surrogate or an ill-formed byte sequence is an error), the last of two equal keys wins, and
a number the reader cannot represent is an error. A number is kept as it is spelled; `Number.value`
is the rational it denotes. `Json.toValue` is the writer without whitespace.
-/
import Oxydllm.Lib.JsonText
import Mathlib.Data.Rat.Defs
import Mathlib.Tactic

/-- A JSON value. Strings are UTF-8 byte strings; an object lists its members in order. -/
inductive Json where
  | null
  | bool (b : Bool)
  | num (n : JsonText.Number)
  | str (s : List UInt8)
  | arr (xs : List Json)
  | obj (ms : List (List UInt8 × Json))

/-- What a value held in memory is: the keys of every object are distinct, as in a map, and a number is
an integer or a float of 64 bits, which is written in fewer than 32 bytes. -/
inductive Json.Wf : Json → Prop where
  | null : Json.Wf .null
  | bool (b : Bool) : Json.Wf (.bool b)
  | num (n : JsonText.Number) (h : n.print.length < 32) : Json.Wf (.num n)
  | str (s : List UInt8) : Json.Wf (.str s)
  | arr (xs : List Json) (h : ∀ x ∈ xs, Json.Wf x) : Json.Wf (.arr xs)
  | obj (ms : List (List UInt8 × Json)) (hkeys : (ms.map Prod.fst).Nodup)
      (h : ∀ m ∈ ms, Json.Wf m.2) : Json.Wf (.obj ms)

namespace JsonText

/-! ## Strings -/

/-- Well-formed UTF-8. -/
def utf8Ok : List UInt8 → Bool
  | [] => true
  | a :: w =>
      let tail (b : UInt8) : Bool := 0x80 ≤ b && b ≤ 0xBF
      if a < 0x80 then utf8Ok w
      else match w with
        | [] => false
        | b :: w =>
            if 0xC2 ≤ a && a ≤ 0xDF && tail b then utf8Ok w
            else match w with
              | [] => false
              | c :: w =>
                  let second :=
                    if a = 0xE0 then 0xA0 ≤ b && b ≤ 0xBF
                    else if a = 0xED then 0x80 ≤ b && b ≤ 0x9F
                    else tail b
                  if 0xE0 ≤ a && a ≤ 0xEF && second && tail c then utf8Ok w
                  else match w with
                    | [] => false
                    | d :: w =>
                        let second :=
                          if a = 0xF0 then 0x90 ≤ b && b ≤ 0xBF
                          else if a = 0xF4 then 0x80 ≤ b && b ≤ 0x8F
                          else tail b
                        0xF0 ≤ a && a ≤ 0xF4 && second && tail c && tail d && utf8Ok w

/-- The UTF-8 bytes of a code point. -/
def utf8Encode (c : Nat) : List UInt8 :=
  if c < 0x80 then [.ofNat c]
  else if c < 0x800 then [.ofNat (0xC0 + c / 0x40), .ofNat (0x80 + c % 0x40)]
  else if c < 0x10000 then
    [.ofNat (0xE0 + c / 0x1000), .ofNat (0x80 + c / 0x40 % 0x40), .ofNat (0x80 + c % 0x40)]
  else
    [.ofNat (0xF0 + c / 0x40000), .ofNat (0x80 + c / 0x1000 % 0x40), .ofNat (0x80 + c / 0x40 % 0x40),
      .ofNat (0x80 + c % 0x40)]

/-- The byte a one-letter escape stands for. -/
def unescape (b : UInt8) : UInt8 :=
  if b = 0x62 then 0x08 else if b = 0x66 then 0x0C else if b = 0x6E then 0x0A
  else if b = 0x72 then 0x0D else if b = 0x74 then 0x09 else b

def hexValue (b : UInt8) : Nat :=
  if b ≤ 0x39 then b.toNat - 0x30 else if b ≤ 0x46 then b.toNat - 0x37 else b.toNat - 0x57

def codeUnit (h₁ h₂ h₃ h₄ : UInt8) : Nat :=
  ((hexValue h₁ * 16 + hexValue h₂) * 16 + hexValue h₃) * 16 + hexValue h₄

/-- The escapes of a string resolved; `none` at an unpaired surrogate. `high` is the high surrogate
just read. -/
def Str.resolve (high : Option Nat) : Str → Option (List UInt8)
  | [] => if high.isSome then none else some []
  | .plain b _ :: s => if high.isSome then none else (Str.resolve none s).map (b :: ·)
  | .esc b _ :: s => if high.isSome then none else (Str.resolve none s).map (unescape b :: ·)
  | .unicode h₁ h₂ h₃ h₄ _ :: s =>
      let u := codeUnit h₁ h₂ h₃ h₄
      match high with
      | some h =>
          if 0xDC00 ≤ u ∧ u ≤ 0xDFFF then
            (Str.resolve none s).map (utf8Encode (0x10000 + (h - 0xD800) * 0x400 + (u - 0xDC00)) ++ ·)
          else none
      | none =>
          if 0xDC00 ≤ u ∧ u ≤ 0xDFFF then none
          else if 0xD800 ≤ u ∧ u ≤ 0xDBFF then Str.resolve (some u) s
          else (Str.resolve none s).map (utf8Encode u ++ ·)

/-- The bytes a string denotes. -/
def Str.decode (s : Str) : Option (List UInt8) := (Str.resolve none s).filter utf8Ok

/-! ## Numbers -/

def digitsValue (w : List UInt8) : Nat := w.foldl (fun n b => n * 10 + (b.toNat - 0x30)) 0

def exponentValue : Option Exponent → ℤ
  | none => 0
  | some e => (if e.sign = [0x2D] then -1 else 1) * (digitsValue e.digits.print : ℤ)

/-- The rational a number denotes. -/
def Number.value (n : Number) : ℚ :=
  let mantissa : ℚ := digitsValue n.int.print +
    match n.frac with
    | none => 0
    | some d => (digitsValue d.print : ℚ) / 10 ^ d.print.length
  (if n.neg then -1 else 1) * mantissa * (10 : ℚ) ^ exponentValue n.exp

/-- A number spelled without fraction and exponent is an integer. -/
theorem Number.value_isInt {n : Number} (h : n.isIntegral) : ∃ z : ℤ, n.value = z := by
  obtain ⟨neg, int, frac, exp⟩ := n
  simp only [Number.isIntegral, Bool.and_eq_true, Option.isNone_iff_eq_none] at h
  obtain ⟨rfl, rfl⟩ := h
  refine ⟨(if neg then -1 else 1) * digitsValue int.print, ?_⟩
  cases neg <;> simp [Number.value, exponentValue]

end JsonText

namespace Json

open JsonText

/-! ## Objects -/

/-- The value under a key. -/
def get? (ms : List (List UInt8 × Json)) (k : List UInt8) : Option Json :=
  (ms.find? fun m => m.1 == k).map Prod.snd

/-- A map insertion that keeps the order of first insertions. -/
def insert : List (List UInt8 × Json) → List UInt8 → Json → List (List UInt8 × Json)
  | [], k, v => [(k, v)]
  | m :: ms, k, v => if m.1 = k then (k, v) :: ms else m :: insert ms k v

theorem mem_of_get? {ms : List (List UInt8 × Json)} {k : List UInt8} {v : Json}
    (h : get? ms k = some v) : (k, v) ∈ ms := by
  obtain ⟨m, hm, rfl⟩ := Option.map_eq_some_iff.1 h
  have hk : m.1 = k := by simpa using List.find?_some hm
  rw [← hk]
  exact List.mem_of_find?_eq_some hm

theorem get?_cons (m : List UInt8 × Json) (ms : List (List UInt8 × Json)) (k : List UInt8) :
    get? (m :: ms) k = if m.1 = k then some m.2 else get? ms k := by
  by_cases h : m.1 = k
  · simp [get?, h]
  · simp only [get?, List.find?_cons, beq_eq_false_iff_ne.2 h, if_neg h]

theorem get?_insert (ms : List (List UInt8 × Json)) (k k' : List UInt8) (v : Json) :
    get? (insert ms k v) k' = if k = k' then some v else get? ms k' := by
  induction ms with
  | nil => rw [insert, get?_cons]
  | cons m ms ih =>
      rw [insert]
      by_cases hm : m.1 = k
      · rw [if_pos hm, get?_cons, get?_cons, hm]
        by_cases h : k = k' <;> simp [h]
      · rw [if_neg hm, get?_cons, get?_cons, ih]
        by_cases hk : m.1 = k'
        · have hne : k ≠ k' := fun h => hm (hk.trans h.symm)
          simp [hk, hne]
        · simp [hk]

theorem mem_insert {ms : List (List UInt8 × Json)} {k : List UInt8} {v : Json} {m : List UInt8 × Json}
    (h : m ∈ insert ms k v) : m = (k, v) ∨ m ∈ ms := by
  induction ms with
  | nil => exact .inl (List.mem_singleton.1 h)
  | cons m' ms ih =>
      rw [insert] at h
      split at h
      · rcases List.mem_cons.1 h with h | h
        · exact .inl h
        · exact .inr (List.mem_cons_of_mem _ h)
      · rcases List.mem_cons.1 h with h | h
        · exact .inr (h ▸ List.mem_cons_self)
        · exact (ih h).imp_right (List.mem_cons_of_mem _)

end Json

namespace JsonText

/-! ## Reading a tree -/

section Decode

-- the numbers the reader can represent
variable (inRange : Number → Bool)

mutual

def Value.decode : Value → Option Json
  | .lit .true => some (.bool true)
  | .lit .false => some (.bool false)
  | .lit .null => some .null
  | .num n => if inRange n then some (.num n) else none
  | .str s => (Str.decode s).map .str
  | .emptyArr _ => some (.arr [])
  | .arr items => items.decode.map .arr
  | .emptyObj _ => some (.obj [])
  | .obj members => members.decode.map .obj

def Items.decode : Items → Option (List Json)
  | .one _ v _ => v.decode.map fun x => [x]
  | .snoc init _ v _ => init.decode.bind fun xs => v.decode.map fun x => xs ++ [x]

/-- The last of two equal keys wins. -/
def Members.decode : Members → Option (List (List UInt8 × Json))
  | .one _ key _ _ v _ => (Str.decode key).bind fun k => v.decode.map fun x => [(k, x)]
  | .snoc init _ key _ _ v _ => init.decode.bind fun ms => (Str.decode key).bind fun k =>
      v.decode.map fun x => Json.insert ms k x

end

/-- Strings that decode and numbers in range. -/
def legible : Layout where
  gap _ _ := True
  hole _ := True
  str s := (Str.decode s).isSome
  num n := inRange n

variable {inRange}

mutual

/-- A legible value can be read. -/
theorem Value.decode_of_legible : ∀ v : Value, v.All (legible inRange) → ∃ j, v.decode inRange = some j
  | .lit .true, _ => ⟨_, rfl⟩
  | .lit .false, _ => ⟨_, rfl⟩
  | .lit .null, _ => ⟨_, rfl⟩
  | .num n, h => ⟨.num n, if_pos h⟩
  | .str s, h => by
      obtain ⟨w, hw⟩ := Option.isSome_iff_exists.1 h
      exact ⟨.str w, by simp [Value.decode, hw]⟩
  | .emptyArr _, _ => ⟨_, rfl⟩
  | .emptyObj _, _ => ⟨_, rfl⟩
  | .arr items, h => by
      obtain ⟨xs, hxs⟩ := Items.decode_of_legible items h
      exact ⟨.arr xs, by simp [Value.decode, hxs]⟩
  | .obj members, h => by
      obtain ⟨ms, hms⟩ := Members.decode_of_legible members h
      exact ⟨.obj ms, by simp [Value.decode, hms]⟩

theorem Items.decode_of_legible :
    ∀ items : Items, items.All (legible inRange) → ∃ xs, items.decode inRange = some xs
  | .one _ v _, ⟨_, hv, _⟩ => by
      obtain ⟨x, hx⟩ := Value.decode_of_legible v hv
      exact ⟨[x], by simp [Items.decode, hx]⟩
  | .snoc init _ v _, ⟨hinit, _, hv, _⟩ => by
      obtain ⟨xs, hxs⟩ := Items.decode_of_legible init hinit
      obtain ⟨x, hx⟩ := Value.decode_of_legible v hv
      exact ⟨xs ++ [x], by simp [Items.decode, hxs, hx]⟩

theorem Members.decode_of_legible :
    ∀ members : Members, members.All (legible inRange) → ∃ ms, members.decode inRange = some ms
  | .one _ key _ _ v _, ⟨_, hkey, _, _, hv, _⟩ => by
      obtain ⟨k, hk⟩ := Option.isSome_iff_exists.1 hkey
      obtain ⟨x, hx⟩ := Value.decode_of_legible v hv
      exact ⟨[(k, x)], by simp [Members.decode, hk, hx]⟩
  | .snoc init _ key _ _ v _, ⟨hinit, _, hkey, _, _, hv, _⟩ => by
      obtain ⟨ms, hms⟩ := Members.decode_of_legible init hinit
      obtain ⟨k, hk⟩ := Option.isSome_iff_exists.1 hkey
      obtain ⟨x, hx⟩ := Value.decode_of_legible v hv
      exact ⟨Json.insert ms k x, by simp [Members.decode, hms, hk, hx]⟩

end

end Decode

/-! ## Writing a value -/

def hexDigit (n : Nat) : UInt8 := if n < 10 then .ofNat (0x30 + n) else .ofNat (0x61 + (n - 10))

theorem isHex_hexDigit : ∀ n : Fin 16, isHex (hexDigit n) := by decide

/-- A byte of a string as the writer spells it. -/
def escapeByte (b : UInt8) : JsonText.Char :=
  if h : isUnescaped b then .plain b h
  else if b = 0x08 then .esc 0x62 rfl
  else if b = 0x09 then .esc 0x74 rfl
  else if b = 0x0A then .esc 0x6E rfl
  else if b = 0x0C then .esc 0x66 rfl
  else if b = 0x0D then .esc 0x72 rfl
  else if b = 0x22 then .esc 0x22 rfl
  else if b = 0x5C then .esc 0x5C rfl
  else .unicode 0x30 0x30 (hexDigit (Fin.ofNat 16 (b.toNat / 16))) (hexDigit (Fin.ofNat 16 b.toNat))
    ⟨rfl, rfl, isHex_hexDigit _, isHex_hexDigit _⟩

def Str.escape (s : List UInt8) : Str := s.map escapeByte

end JsonText

open JsonText

mutual

/-- The compact text of a value. -/
def Json.toValue : Json → Value
  | .null => .lit .null
  | .bool true => .lit .true
  | .bool false => .lit .false
  | .num n => .num n
  | .str s => .str (Str.escape s)
  | .arr [] => .emptyArr .empty
  | .arr (x :: xs) => .arr (Json.toItems (.one .empty x.toValue .empty) xs)
  | .obj [] => .emptyObj .empty
  | .obj ((k, x) :: ms) =>
      .obj (Json.toMembers (.one .empty (Str.escape k) .empty .empty x.toValue .empty) ms)

def Json.toItems (init : Items) : List Json → Items
  | [] => init
  | x :: xs => Json.toItems (.snoc init .empty x.toValue .empty) xs

def Json.toMembers (init : Members) : List (List UInt8 × Json) → Members
  | [] => init
  | (k, x) :: ms =>
      Json.toMembers (.snoc init .empty (Str.escape k) .empty .empty x.toValue .empty) ms

end

/-- `serde_json::to_vec`. -/
def Json.toVec (j : Json) : List UInt8 := j.toValue.print
