/-
# Oxydllm.Constrain.Sound — what the automaton accepts is a JSON text.

`Shape` says, for every state of the automaton, which unfinished JSON text the bytes consumed so far
spell: the open containers outside in (`Outer`), the elements or members already complete, and the
token in progress. One move extends the shape by its byte (`shape_step`), and the shape of an
accepting state is a complete text.
-/
import Oxydllm.Constrain.Steps
import Oxydllm.Lib.JsonText

namespace Oxydllm.Constrain

open JsonText

/-! ## Extending the last token of a tree -/

/-- One more byte of whitespace. -/
def gapSnoc (g : Gap) (b : UInt8) (h : isWs b) : Gap :=
  ⟨g.bytes ++ [b], by
    intro c hc
    rcases List.mem_append.1 hc with hc | hc
    · exact g.space c hc
    · rw [List.mem_singleton.1 hc]; exact h⟩

@[simp] theorem gapSnoc_bytes (g : Gap) (b : UInt8) (h : isWs b) :
    (gapSnoc g b h).bytes = g.bytes ++ [b] := rfl

@[simp] theorem gap_empty_bytes : Gap.empty.bytes = [] := rfl

theorem digits_snoc {b : UInt8} {rest : List UInt8} (hrest : ∀ c ∈ rest, isDigit c)
    (hb : isDigit b) : ∀ c ∈ rest ++ [b], isDigit c := by
  intro c hc
  rcases List.mem_append.1 hc with hc | hc
  · exact hrest c hc
  · rw [List.mem_singleton.1 hc]; exact hb

def digitsSnoc (d : Digits) (b : UInt8) (h : isDigit b) : Digits :=
  ⟨d.first, d.rest ++ [b], d.first_digit, digits_snoc d.rest_digit h⟩

@[simp] theorem digitsSnoc_print (d : Digits) (b : UInt8) (h : isDigit b) :
    (digitsSnoc d b h).print = d.print ++ [b] := rfl

/-- Whitespace after the last element belongs to its last gap. -/
def itemsGap : Items → (b : UInt8) → isWs b → Items
  | .one g₁ v g₂, b, h => .one g₁ v (gapSnoc g₂ b h)
  | .snoc init g₁ v g₂, b, h => .snoc init g₁ v (gapSnoc g₂ b h)

def membersGap : Members → (b : UInt8) → isWs b → Members
  | .one g₁ key g₂ g₃ v g₄, b, h => .one g₁ key g₂ g₃ v (gapSnoc g₄ b h)
  | .snoc init g₁ key g₂ g₃ v g₄, b, h => .snoc init g₁ key g₂ g₃ v (gapSnoc g₄ b h)

@[simp] theorem itemsGap_print (items : Items) (b : UInt8) (h : isWs b) :
    (itemsGap items b h).print = items.print ++ [b] := by
  cases items <;> simp [itemsGap, Items.print]

@[simp] theorem itemsGap_depth (items : Items) (b : UInt8) (h : isWs b) :
    (itemsGap items b h).depth = items.depth := by
  cases items <;> simp [itemsGap, Items.depth]

@[simp] theorem membersGap_print (members : Members) (b : UInt8) (h : isWs b) :
    (membersGap members b h).print = members.print ++ [b] := by
  cases members <;> simp [membersGap, Members.print]

@[simp] theorem membersGap_depth (members : Members) (b : UInt8) (h : isWs b) :
    (membersGap members b h).depth = members.depth := by
  cases members <;> simp [membersGap, Members.depth]

/-! ## Tokens in progress -/

/-- The bytes of a number that lead to each number state. -/
inductive NumPrefix : NumS → List UInt8 → Prop where
  | minus : NumPrefix .minus [0x2D]
  | zero (neg : Bool) : NumPrefix .zero (Number.printInt neg .zero)
  | int (neg : Bool) (d : UInt8) (rest : List UInt8) (hd : isDigit19 d) (hrest : ∀ b ∈ rest, isDigit b) :
      NumPrefix .int (Number.printInt neg (.lead d rest hd hrest))
  | dot (neg : Bool) (int : IntPart) : NumPrefix .dot (Number.printInt neg int ++ [0x2E])
  | frac (neg : Bool) (int : IntPart) (d : Digits) :
      NumPrefix .frac (Number.printInt neg int ++ Number.printFrac (some d))
  | exp (neg : Bool) (int : IntPart) (f : Option Digits) (e : UInt8) (he : e = 0x65 ∨ e = 0x45) :
      NumPrefix .exp (Number.printInt neg int ++ Number.printFrac f ++ [e])
  | expSign (neg : Bool) (int : IntPart) (f : Option Digits) (e s : UInt8) (he : e = 0x65 ∨ e = 0x45)
      (hs : s = 0x2B ∨ s = 0x2D) :
      NumPrefix .expSign (Number.printInt neg int ++ Number.printFrac f ++ [e, s])
  | expDigits (neg : Bool) (int : IntPart) (f : Option Digits) (e : Exponent) :
      NumPrefix .expDigits (Number.printInt neg int ++ Number.printFrac f ++ e.print)

theorem numPrefix_start {b : UInt8} {n : NumS} (h : numStart b = some n) : NumPrefix n [b] := by
  rcases JsonMachine.numStart_byte h with ⟨rfl, rfl⟩ | ⟨rfl, rfl⟩ | ⟨hdig, rfl⟩
  · exact .minus
  · exact .zero false
  · exact .int false b [] (by simp [isDigit19, hdig]) (by simp)

theorem isDigit_iff {b : UInt8} : isDigit b = true ↔ 0x30 ≤ b ∧ b ≤ 0x39 := by simp [isDigit]

/-- The states a digit only leads on from. -/
theorem next_digit_only {n n2 : NumS} {b : UInt8} (hn : n = .dot ∨ n = .expSign ∨ n = .expDigits)
    (hb : n.next b = some n2) :
    isDigit b ∧ n2 = if n = .dot then .frac else .expDigits := by
  rcases hn with rfl | rfl | rfl <;>
    · simp only [NumS.next, decide_eq_true_eq, Option.ite_none_right_eq_some, Option.some.injEq] at hb
      exact ⟨isDigit_iff.2 hb.1, by simp [← hb.2]⟩

theorem numPrefix_int_end {neg : Bool} (int : IntPart) {n2 : NumS} {b : UInt8}
    (hb : NumS.next .zero b = some n2) : NumPrefix n2 (Number.printInt neg int ++ [b]) := by
  simp only [NumS.next] at hb
  split at hb
  next h => cases hb; subst h; exact .dot neg int
  next h =>
    split at hb
    next he =>
      cases hb
      have := NumPrefix.exp neg int none b (by simpa using he)
      simpa [Number.printFrac] using this
    · cases hb

theorem printInt_snoc (neg : Bool) (d : UInt8) (rest : List UInt8) (hd : isDigit19 d)
    (hrest : ∀ c ∈ rest, isDigit c) (b : UInt8) (hb : isDigit b) :
    Number.printInt neg (.lead d rest hd hrest) ++ [b] =
      Number.printInt neg (.lead d (rest ++ [b]) hd (digits_snoc hrest hb)) := by
  simp [Number.printInt, IntPart.print]

/-- The number states, each with the bytes that lead on from it. -/
theorem numPrefix_next {n n2 : NumS} {b : UInt8} {p : List UInt8} (hb : n.next b = some n2)
    (h : NumPrefix n p) : NumPrefix n2 (p ++ [b]) := by
  cases h with
  | minus =>
      simp only [NumS.next] at hb
      split at hb
      next h0 => cases hb; subst h0; exact .zero true
      next h0 =>
        split at hb
        next hdig =>
          cases hb
          have h19 : isDigit19 b := by simp only [decide_eq_true_eq] at hdig; simp [isDigit19]; grind
          exact .int true b [] h19 (by simp)
        · cases hb
  | zero neg => exact numPrefix_int_end .zero hb
  | int neg d rest hd hrest =>
      by_cases hdig : isDigit b
      · have : n2 = .int := by
          have h' : 0x30 ≤ b ∧ b ≤ 0x39 := by simpa [isDigit] using hdig
          simpa [NumS.next, h'] using hb.symm
        subst this
        rw [printInt_snoc _ _ _ _ _ _ hdig]
        exact .int _ _ _ _ _
      · refine numPrefix_int_end (.lead d rest hd hrest) ?_
        have h' : ¬ (0x30 ≤ b ∧ b ≤ 0x39) := by simpa [isDigit] using hdig
        simpa [NumS.next, h'] using hb
  | dot neg int =>
      obtain ⟨hdig, rfl⟩ := next_digit_only (.inl rfl) hb
      have := NumPrefix.frac neg int ⟨b, [], hdig, by simp⟩
      simpa [Number.printFrac, Digits.print] using this
  | frac neg int d =>
      by_cases hdig : isDigit b
      · have : n2 = .frac := by simpa [NumS.next, isDigit_iff.1 hdig] using hb.symm
        subst this
        simpa [Number.printFrac] using NumPrefix.frac neg int (digitsSnoc d b hdig)
      · rw [NumS.next, decide_eq_false (mt isDigit_iff.2 hdig)] at hb
        simp only [Bool.false_eq_true, if_false] at hb
        split at hb
        next he =>
          cases hb
          exact .exp neg int (some d) b (by simpa using he)
        · cases hb
  | exp neg int f e he =>
      simp only [NumS.next] at hb
      split at hb
      next hs =>
        cases hb
        simpa using NumPrefix.expSign neg int f e b he hs
      next hs =>
        split at hb
        next hdig =>
          cases hb
          have hdig' : isDigit b := isDigit_iff.2 (by simpa using hdig)
          simpa [Exponent.print, Digits.print] using
            NumPrefix.expDigits neg int f ⟨e, [], ⟨b, [], hdig', by simp⟩, he, .inl rfl⟩
        · cases hb
  | expSign neg int f e s he hs =>
      obtain ⟨hdig, rfl⟩ := next_digit_only (.inr (.inl rfl)) hb
      simpa [Exponent.print, Digits.print] using
        NumPrefix.expDigits neg int f ⟨e, [s], ⟨b, [], hdig, by simp⟩, he, .inr (by simpa using hs)⟩
  | expDigits neg int f e =>
      obtain ⟨hdig, rfl⟩ := next_digit_only (.inr (.inr rfl)) hb
      simpa [Exponent.print] using
        NumPrefix.expDigits neg int f { e with digits := digitsSnoc e.digits b hdig }

theorem numPrefix_complete {n : NumS} {p : List UInt8} (hn : n.complete) (h : NumPrefix n p) :
    ∃ num : Number, num.print = p := by
  cases h with
  | zero neg => exact ⟨⟨neg, .zero, none, none⟩, by simp [Number.print, Number.printFrac, Number.printExp]⟩
  | int neg d rest hd hrest =>
      exact ⟨⟨neg, .lead d rest hd hrest, none, none⟩,
        by simp [Number.print, Number.printFrac, Number.printExp]⟩
  | frac neg int d => exact ⟨⟨neg, int, some d, none⟩, by simp [Number.print, Number.printExp]⟩
  | expDigits neg int f e => exact ⟨⟨neg, int, f, some e⟩, rfl⟩
  | _ => cases hn

/-- What an open escape sequence has spelled. -/
inductive StrTail : Bool → Nat → List UInt8 → Prop where
  | plain : StrTail false 0 []
  | esc : StrTail true 0 [0x5C]
  | unicode (u : Nat) (hs : List UInt8) (hhex : ∀ b ∈ hs, isHex b) (hlen : hs.length + (u + 1) = 4) :
      StrTail false (u + 1) (0x5C :: 0x75 :: hs)

@[simp] theorem body_nil : Str.body [] = [] := rfl

theorem body_snoc (s : Str) (c : JsonText.Char) : Str.body (s ++ [c]) = Str.body s ++ c.print := by
  simp [Str.body]

/-- A hex digit extends the escape, and the fourth completes it. -/
theorem strTail_hex {esc : Bool} {u : Nat} {t : List UInt8} {b : UInt8} (s : Str) (hb : isHex b)
    (h : StrTail esc (u + 1) t) :
    ∃ s' t', StrTail false u t' ∧ Str.body s' ++ t' = Str.body s ++ t ++ [b] := by
  cases h with
  | unicode u hs hhex hlen =>
      cases u with
      | succ u =>
          refine ⟨s, 0x5C :: 0x75 :: (hs ++ [b]), .unicode u (hs ++ [b]) ?_ ?_, by simp⟩
          · intro c hc
            rcases List.mem_append.1 hc with hc | hc
            · exact hhex c hc
            · rw [List.mem_singleton.1 hc]; exact hb
          · simp only [List.length_append, List.length_singleton]; omega
      | zero =>
          obtain ⟨h₁, h₂, h₃, rfl⟩ := List.length_eq_three.1 (by omega : hs.length = 3)
          have hok : isHex h₁ ∧ isHex h₂ ∧ isHex h₃ ∧ isHex b :=
            ⟨hhex _ (by simp), hhex _ (by simp), hhex _ (by simp), hb⟩
          exact ⟨s ++ [.unicode h₁ h₂ h₃ b hok], [], .plain, by simp [body_snoc, Char.print]⟩

/-! ## Documents in progress -/

/-- Object mode's promise about a value at the top. -/
def RootOk (mode : JsonMode) (fs : List Bool) (v : Value) : Prop :=
  mode = .object → fs = [] → v.isObject

theorem RootOk.of_topOk {mode : JsonMode} {fs : List Bool} (h : TopOk mode fs) (v : Value) :
    RootOk mode fs v :=
  fun hm hfs => absurd hfs (h hm)

theorem topOk_cons (mode : JsonMode) (k : Bool) (fs : List Bool) : TopOk mode (k :: fs) :=
  fun _ h => by cases h

/-- What stands between an opening bracket and an element: nothing, or the elements before it and
a comma. `n` bounds their depth. -/
inductive ItemPrefix (n : Nat) : List UInt8 → Prop where
  | nil : ItemPrefix n []
  | comma (items : Items) (hd : items.depth + n ≤ maxDepth) : ItemPrefix n (items.print ++ [0x2C])

inductive MemberPrefix (n : Nat) : List UInt8 → Prop where
  | nil : MemberPrefix n []
  | comma (members : Members) (hd : members.depth + n ≤ maxDepth) :
      MemberPrefix n (members.print ++ [0x2C])

/-- The bytes before a value, the gap in front of it included, from the open containers inside
out. -/
inductive Outer (mode : JsonMode) : List Bool → List UInt8 → Prop where
  | top (g : Gap) : Outer mode [] g.bytes
  | arr {fs w p} (h : Outer mode fs w) (htop : TopOk mode fs) (hd : fs.length < maxDepth)
      (hp : ItemPrefix (fs.length + 1) p) (g : Gap) :
      Outer mode (true :: fs) (w ++ 0x5B :: (p ++ g.bytes))
  | obj {fs w p} (h : Outer mode fs w) (hd : fs.length < maxDepth)
      (hp : MemberPrefix (fs.length + 1) p) (g₁ : Gap) (key : Str) (g₂ g₃ : Gap) :
      Outer mode (false :: fs)
        (w ++ 0x7B :: (p ++ (g₁.bytes ++ Str.print key ++ g₂.bytes ++ 0x3A :: g₃.bytes)))

/-- The document in progress, by the automaton's state. -/
inductive Shape (mode : JsonMode) : List Bool → S → List UInt8 → Prop where
  | value {fs w} (h : Outer mode fs w) : Shape mode fs .value w
  | objFirst {fs w} (h : Outer mode fs w) (hd : fs.length < maxDepth) (g : Gap) :
      Shape mode (false :: fs) .objFirst (w ++ 0x7B :: g.bytes)
  | arrFirst {fs w} (h : Outer mode fs w) (htop : TopOk mode fs) (hd : fs.length < maxDepth) :
      Shape mode (true :: fs) .arrFirst (w ++ [0x5B])
  | objComma {fs w} (h : Outer mode fs w) (hlen : fs.length < maxDepth) (members : Members)
      (hd : members.depth + (fs.length + 1) ≤ maxDepth) (g : Gap) :
      Shape mode (false :: fs) .objComma (w ++ 0x7B :: (members.print ++ 0x2C :: g.bytes))
  | key {fs w p esc u t} (h : Outer mode fs w) (hd : fs.length < maxDepth)
      (hp : MemberPrefix (fs.length + 1) p) (g : Gap) (s : Str) (ht : StrTail esc u t) :
      Shape mode (false :: fs) (.str esc u true)
        (w ++ 0x7B :: (p ++ (g.bytes ++ 0x22 :: (Str.body s ++ t))))
  | colon {fs w p} (h : Outer mode fs w) (hd : fs.length < maxDepth)
      (hp : MemberPrefix (fs.length + 1) p) (g₁ : Gap) (s : Str) (g₂ : Gap) :
      Shape mode (false :: fs) .colon
        (w ++ 0x7B :: (p ++ (g₁.bytes ++ Str.print s ++ g₂.bytes)))
  | str {fs w esc u t} (h : Outer mode fs w) (htop : TopOk mode fs) (s : Str) (ht : StrTail esc u t) :
      Shape mode fs (.str esc u false) (w ++ 0x22 :: (Str.body s ++ t))
  | num {fs w n p} (h : Outer mode fs w) (htop : TopOk mode fs) (hp : NumPrefix n p) :
      Shape mode fs (.num n) (w ++ p)
  | lit {fs w l p} (h : Outer mode fs w) (htop : TopOk mode fs) (hl : l < 3) :
      Shape mode fs (.lit l p) (w ++ (literals l).take p)
  | objNext {fs w} (h : Outer mode fs w) (hlen : fs.length < maxDepth) (members : Members)
      (hd : members.depth + (fs.length + 1) ≤ maxDepth) :
      Shape mode (false :: fs) .objNext (w ++ 0x7B :: members.print)
  | arrNext {fs w} (h : Outer mode fs w) (htop : TopOk mode fs) (hlen : fs.length < maxDepth)
      (items : Items) (hd : items.depth + (fs.length + 1) ≤ maxDepth) :
      Shape mode (true :: fs) .arrNext (w ++ 0x5B :: items.print)
  | done (t : Text) (hd : t.value.depth ≤ maxDepth) (hroot : mode = .object → t.value.isObject) :
      Shape mode [] .done t.print

/-- A completed value takes its place in the container around it. -/
theorem shape_after {mode : JsonMode} {fs : List Bool} {w : List UInt8} (h : Outer mode fs w)
    (v : Value) (hd : v.depth + fs.length ≤ maxDepth) (hroot : RootOk mode fs v) :
    Shape mode fs (after fs) (w ++ v.print) := by
  cases h with
  | top g =>
      have : Shape mode [] .done (Text.print ⟨g, v, .empty⟩) :=
        .done _ (by simpa using hd) fun hm => hroot hm rfl
      simpa [Text.print] using this
  | @arr fs w p h htop hlen hp g =>
      simp only [List.length_cons] at hd
      cases hp with
      | nil =>
          simpa [Items.print] using Shape.arrNext h htop hlen (.one g v .empty) (by simpa [Items.depth])
      | comma items hi =>
          have := Shape.arrNext h htop hlen (.snoc items g v .empty) (by simp only [Items.depth]; omega)
          simpa [Items.print] using this
  | @obj fs w p h hlen hp g₁ key g₂ g₃ =>
      simp only [List.length_cons] at hd
      cases hp with
      | nil =>
          have := Shape.objNext h hlen (.one g₁ key g₂ g₃ v .empty) (by simpa [Members.depth])
          simpa [Members.print] using this
      | comma members hi =>
          have := Shape.objNext h hlen (.snoc members g₁ key g₂ g₃ v .empty)
            (by simp only [Members.depth]; omega)
          simpa [Members.print] using this

/-- Whitespace in place extends the last gap. -/
theorem shape_gap {mode : JsonMode} {fs : List Bool} {st : S} {w : List UInt8} {b : UInt8}
    (hst : st.gap) (hws : isWs b) (h : Shape mode fs st w) : Shape mode fs st (w ++ [b]) := by
  cases h with
  | value h =>
      cases h with
      | top g => exact .value (.top (gapSnoc g b hws))
      | arr h htop hd hp g => simpa using Shape.value (.arr h htop hd hp (gapSnoc g b hws))
      | obj h hd hp g₁ key g₂ g₃ =>
          simpa using Shape.value (.obj h hd hp g₁ key g₂ (gapSnoc g₃ b hws))
  | objFirst h hd g => simpa using Shape.objFirst h hd (gapSnoc g b hws)
  | objComma h hlen members hd g => simpa using Shape.objComma h hlen members hd (gapSnoc g b hws)
  | colon h hd hp g₁ s g₂ => simpa using Shape.colon h hd hp g₁ s (gapSnoc g₂ b hws)
  | objNext h hlen members hd =>
      simpa using Shape.objNext h hlen (membersGap members b hws) (by simpa using hd)
  | arrNext h htop hlen items hd =>
      simpa using Shape.arrNext h htop hlen (itemsGap items b hws) (by simpa using hd)
  | done t hd hroot =>
      simpa [Text.print] using Shape.done ⟨t.pre, t.value, gapSnoc t.post b hws⟩ hd hroot
  | _ => cases hst

theorem outer_length {mode : JsonMode} {fs : List Bool} {w : List UInt8} (h : Outer mode fs w) :
    fs.length ≤ maxDepth := by
  cases h with
  | top g => simp
  | arr h htop hd hp g => simp only [List.length_cons]; omega
  | obj h hd hp g₁ key g₂ g₃ => simp only [List.length_cons]; omega

/-- A number that a delimiter follows is a complete value. -/
theorem shape_num {mode : JsonMode} {fs : List Bool} {n : NumS} {w : List UInt8} (hn : n.complete)
    (h : Shape mode fs (.num n) w) : Shape mode fs (after fs) w := by
  cases h with
  | num h htop hp =>
      obtain ⟨num, rfl⟩ := numPrefix_complete hn hp
      simpa [Value.print] using
        shape_after h (.num num) (by simpa [Value.depth] using outer_length h) (.of_topOk htop _)

theorem take_succ_of_getElem? {p : Nat} {l : List UInt8} {b : UInt8} (h : l[p]? = some b) :
    l.take (p + 1) = l.take p ++ [b] := by
  rw [List.take_add_one, h, Option.toList_some]

theorem shape_lit {mode : JsonMode} {fs : List Bool} {l p : Nat} {w : List UInt8} {b : UInt8}
    (hb : (literals l)[p]? = some b) (hp : p + 1 = (literals l).length)
    (h : Shape mode fs (.lit l p) w) : Shape mode fs (after fs) (w ++ [b]) := by
  cases h with
  | @lit fs w l p h htop hl =>
      have hprint : ∃ v : Literal, v.print = literals l := by
        rcases (by omega : l = 0 ∨ l = 1 ∨ l = 2) with rfl | rfl | rfl
        · exact ⟨.true, rfl⟩
        · exact ⟨.false, rfl⟩
        · exact ⟨.null, rfl⟩
      obtain ⟨v, hv⟩ := hprint
      have hbytes : (literals l).take p ++ [b] = v.print := by
        rw [hv, ← take_succ_of_getElem? hb, hp, List.take_length]
      have := shape_after h (.lit v) (by simpa [Value.depth] using outer_length h) (.of_topOk htop _)
      simpa [Value.print, ← hbytes] using this

theorem shape_objClose {mode : JsonMode} {k : Bool} {fs : List Bool} {st : S} {w : List UInt8}
    (hst : st = .objFirst ∨ st = .objNext) (h : Shape mode (k :: fs) st w) :
    Shape mode fs (after fs) (w ++ [0x7D]) := by
  cases h with
  | objFirst h hd g =>
      have := shape_after h (.emptyObj g) (by simp only [Value.depth]; omega) fun _ _ => rfl
      simpa [Value.print] using this
  | objNext h hlen members hd =>
      have := shape_after h (.obj members) (by simp only [Value.depth]; omega) fun _ _ => rfl
      simpa [Value.print] using this
  | _ => simp at hst

theorem shape_arrClose {mode : JsonMode} {k : Bool} {fs : List Bool} {st : S} {w : List UInt8}
    (hst : st = .arrFirst ∨ st = .arrNext) (h : Shape mode (k :: fs) st w) :
    Shape mode fs (after fs) (w ++ [0x5D]) := by
  cases h with
  | arrFirst h htop hd =>
      have := shape_after h (.emptyArr .empty) (by simp only [Value.depth]; omega) (.of_topOk htop _)
      simpa [Value.print] using this
  | arrNext h htop hlen items hd =>
      have := shape_after h (.arr items) (by simp only [Value.depth]; omega) (.of_topOk htop _)
      simpa [Value.print] using this
  | _ => simp at hst

theorem shape_objComma {mode : JsonMode} {fs : List Bool} {w : List UInt8}
    (h : Shape mode fs .objNext w) : Shape mode fs .objComma (w ++ [0x2C]) := by
  cases h with
  | objNext h hlen members hd => simpa using Shape.objComma h hlen members hd .empty

theorem shape_arrComma {mode : JsonMode} {fs : List Bool} {w : List UInt8}
    (h : Shape mode fs .arrNext w) : Shape mode fs .value (w ++ [0x2C]) := by
  cases h with
  | arrNext h htop hlen items hd =>
      simpa using Shape.value (.arr h htop hlen (.comma items hd) .empty)

theorem shape_outer {mode : JsonMode} {fs : List Bool} {st : S} {w : List UInt8}
    (hst : st = .value ∨ st = .arrFirst) (h : Shape mode fs st w) : Outer mode fs w := by
  cases h with
  | value h => exact h
  | arrFirst h htop hd => simpa using Outer.arr h htop hd .nil .empty
  | _ => simp at hst

/-- A character or a part of an escape sequence extends the string in progress. -/
theorem shape_strByte {mode : JsonMode} {fs : List Bool} {esc esc' key : Bool} {u u' : Nat}
    {w : List UInt8} {b : UInt8}
    (hstep : ∀ (s : Str) (t : List UInt8), StrTail esc u t →
      ∃ s' t', StrTail esc' u' t' ∧ Str.body s' ++ t' = Str.body s ++ t ++ [b])
    (h : Shape mode fs (.str esc u key) w) : Shape mode fs (.str esc' u' key) (w ++ [b]) := by
  cases h with
  | key h hd hp g s ht =>
      obtain ⟨s', t', ht', heq⟩ := hstep s _ ht
      have := Shape.key h hd hp g s' ht'
      simpa [heq] using this
  | str h htop s ht =>
      obtain ⟨s', t', ht', heq⟩ := hstep s _ ht
      have := Shape.str h htop s' ht'
      simpa [heq] using this

/-- One move extends the document by its byte. -/
theorem shape_step {mode : JsonMode} {v v' : View} {b : UInt8} {ev : Events} {w : List UInt8}
    (h : Step mode v b v' ev) (hs : Shape mode v.frames v.state w) :
    Shape mode v'.frames v'.state (w ++ [b]) := by
  cases h with
  | gap hst hws hr => exact shape_gap hst hws hs
  | arrGap hws hr => exact shape_gap rfl hws (.value (shape_outer (.inr rfl) hs))
  | objOpen hst hd => simpa using Shape.objFirst (shape_outer hst hs) hd .empty
  | arrOpen hst hd htop => exact .arrFirst (shape_outer hst hs) htop hd
  | strOpen hst htop => simpa using Shape.str (shape_outer hst hs) htop [] .plain
  | numOpen hst htop hb => exact .num (shape_outer hst hs) htop (numPrefix_start hb)
  | litOpen hst htop hb =>
      rcases JsonMachine.litStart_byte hb with ⟨rfl, rfl⟩ | ⟨rfl, rfl⟩ | ⟨rfl, rfl⟩ <;>
        exact Shape.lit (p := 1) (shape_outer hst hs) htop (by omega)
  | keyOpen hst =>
      cases hs with
      | objFirst h hd g => simpa using Shape.key h hd .nil g [] .plain
      | objComma h hlen members hd g => simpa using Shape.key h hlen (.comma members hd) g [] .plain
      | _ => simp at hst
  | objClose hst => exact shape_objClose hst hs
  | arrClose hst => exact shape_arrClose hst hs
  | @strByte fs key r b h20 hq hbs hr =>
      refine shape_strByte (fun s t ht => ?_) hs
      cases ht with
      | plain =>
          have hb : isUnescaped b := by simp [isUnescaped, h20, hq, hbs]
          exact ⟨s ++ [.plain b hb], [], .plain, by simp [body_snoc, Char.print]⟩
  | strEsc =>
      refine shape_strByte (fun s t ht => ?_) hs
      cases ht with
      | plain => exact ⟨s, [0x5C], .esc, by simp⟩
  | escSimple hb =>
      refine shape_strByte (fun s t ht => ?_) hs
      cases ht with
      | esc => exact ⟨s ++ [.esc _ hb], [], .plain, by simp [body_snoc, Char.print]⟩
  | escUnicode =>
      refine shape_strByte (fun s t ht => ?_) hs
      cases ht with
      | esc => exact ⟨s, [0x5C, 0x75], .unicode 3 [] (by simp) rfl, by simp⟩
  | hex hb => exact shape_strByte (fun s t ht => strTail_hex s hb ht) hs
  | keyClose =>
      cases hs with
      | key h hd hp g s ht =>
          cases ht with
          | plain => simpa [Str.print] using Shape.colon h hd hp g s .empty
  | strClose =>
      cases hs with
      | str h htop s ht =>
          cases ht with
          | plain =>
              have := shape_after h (.str s) (by simpa [Value.depth] using outer_length h)
                (.of_topOk htop _)
              simpa [Value.print, Str.print] using this
  | colon =>
      cases hs with
      | colon h hd hp g₁ s g₂ => simpa using Shape.value (.obj h hd hp g₁ s g₂ .empty)
  | numNext hb =>
      cases hs with
      | num h htop hp => simpa using Shape.num h htop (numPrefix_next hb hp)
  | @numGap fs n r b hn hws hr =>
      have hgap : (after fs).gap := by rcases fs with _ | ⟨_ | _, _⟩ <;> rfl
      exact shape_gap hgap hws (shape_num hn hs)
  | numObjComma hn => exact shape_objComma (shape_num hn hs)
  | numArrComma hn => exact shape_arrComma (shape_num hn hs)
  | numObjClose hn => exact shape_objClose (.inr rfl) (shape_num hn hs)
  | numArrClose hn => exact shape_arrClose (.inr rfl) (shape_num hn hs)
  | @litNext fs l p r b hb hp =>
      cases hs with
      | lit h htop hl =>
          have := Shape.lit (p := p + 1) h htop hl
          rw [take_succ_of_getElem? hb] at this
          simpa using this
  | litEnd hb hp => exact shape_lit hb hp hs
  | objComma => exact shape_objComma hs
  | arrComma => exact shape_arrComma hs

/-! ## Runs -/

/-- A run that succeeds keeps whatever every move keeps. -/
theorem run_induct {mode : JsonMode} {P : View → List UInt8 → Prop}
    (hstep : ∀ v b v' ev w, Step mode v b v' ev → P v w → P v' (w ++ [b]))
    {m m' : JsonMachine} {w₀ w : List UInt8} (h₀ : P m.view w₀) (hrun : m.run mode w = some m') :
    P m'.view (w₀ ++ w) := by
  induction w generalizing m w₀ with
  | nil =>
      cases hrun
      simpa using h₀
  | cons b w ih =>
      simp only [JsonMachine.run, List.foldlM_cons, Option.bind_eq_bind] at hrun
      obtain ⟨m₁, hm₁, hrest⟩ := Option.bind_eq_some_iff.1 hrun
      obtain ⟨⟨m₁', ev⟩, hev, rfl⟩ := Option.map_eq_some_iff.1 hm₁
      have := ih (hstep _ _ _ _ _ (JsonMachine.step_of_stepEv hev) h₀) hrest
      simpa using this

theorem shape_run {mode : JsonMode} {m : JsonMachine} {w : List UInt8}
    (hrun : (JsonMachine.new mode).run mode w = some m) : Shape mode m.frames m.state w := by
  have h₀ : Shape mode (JsonMachine.new mode).view.frames (JsonMachine.new mode).view.state [] :=
    .value (.top .empty)
  simpa [JsonMachine.view] using run_induct (P := fun v w => Shape mode v.frames v.state w)
    (fun v b v' ev w hst hs => shape_step hst hs) h₀ hrun

theorem shape_accepting {mode : JsonMode} {w : List UInt8} {m : JsonMachine}
    (hs : Shape mode m.frames m.state w) (hacc : m.accepting) :
    ∃ t : Text, t.print = w ∧ t.value.depth ≤ maxDepth ∧ (mode = .object → t.value.isObject) := by
  have hdone : Shape mode [] .done w := by
    simp only [JsonMachine.accepting, Bool.or_eq_true, Bool.and_eq_true, decide_eq_true_eq] at hacc
    rcases hacc with hacc | ⟨hdepth, hnum⟩
    · rw [hacc] at hs
      generalize m.frames = fs at hs
      cases hs with
      | done t hd hroot => exact .done t hd hroot
    · have hnil := (JsonMachine.frames_eq_nil m).2 hdepth
      unfold JsonMachine.numberCompletesTop at hnum
      cases hst : m.state with
      | num n =>
          simp only [hst] at hnum
          rw [hst, hnil] at hs
          exact shape_num hnum hs
      | _ => simp [hst] at hnum
  cases hdone with
  | done t hd hroot => exact ⟨t, rfl, hd, hroot⟩

/-- The automaton is sound: a byte string it runs through to acceptance is a JSON text, nested no
deeper than the cap, and an object at the root in `Object` mode. -/
theorem accepting_isText (mode : JsonMode) (w : List UInt8) (m : JsonMachine)
    (hrun : (JsonMachine.new mode).run mode w = some m) (hacc : m.accepting) :
    ∃ t : Text, t.print = w ∧ t.value.depth ≤ maxDepth ∧ (mode = .object → t.value.isObject) :=
  shape_accepting (shape_run hrun) hacc

/-- `[{"a":-1e2}]` runs through in `Value` mode. -/
theorem accepting_isText_array : ∃ t : Text, t.print =
    [0x5B, 0x7B, 0x22, 0x61, 0x22, 0x3A, 0x2D, 0x31, 0x65, 0x32, 0x7D, 0x5D] ∧
      t.value.depth ≤ maxDepth ∧ (JsonMode.value = .object → t.value.isObject) :=
  accepting_isText .value _ ⟨1, 0, .done, 0⟩ (by decide) rfl

end Oxydllm.Constrain
