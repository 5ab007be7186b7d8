/-
# Oxydllm.Lib.Utf8Lossy — decoding bytes that may not be UTF-8 (`String::from_utf8_lossy`).

A decoder reads one byte at a time and holds the bytes of a character that is not complete. A byte that
cannot continue them turns what is held into one replacement character and is read afresh; so does the
end of the input.
-/
import Mathlib.Data.List.DropRight
import Mathlib.Tactic

namespace Oxydllm.Utf8Lossy

/-- `U+FFFD`. -/
def replacement : Char := '\uFFFD'

/-- What a sequence of bytes is. -/
inductive Seq where
  | char (c : Char)
  -- the beginning of a character
  | incomplete
  | invalid
  deriving DecidableEq

def isTail (b : UInt8) : Bool := 0x80 ≤ b && b ≤ 0xBF

/-- The second bytes that may follow the first of a sequence of three or four. -/
def isSecond (a b : UInt8) : Bool :=
  if a = 0xE0 then 0xA0 ≤ b && b ≤ 0xBF
  else if a = 0xED then 0x80 ≤ b && b ≤ 0x9F
  else if a = 0xF0 then 0x90 ≤ b && b ≤ 0xBF
  else if a = 0xF4 then 0x80 ≤ b && b ≤ 0x8F
  else isTail b

/-- The low bits of a byte. -/
def bits (b : UInt8) (n : Nat) : Nat := b.toNat % n

def classify : List UInt8 → Seq
  | [a] =>
      if a < 0x80 then .char (.ofNat a.toNat)
      else if 0xC2 ≤ a && a ≤ 0xF4 then .incomplete
      else .invalid
  | [a, b] =>
      if a ≤ 0xDF then
        if isTail b then .char (.ofNat (bits a 0x20 * 0x40 + bits b 0x40)) else .invalid
      else if isSecond a b then .incomplete
      else .invalid
  | [a, b, c] =>
      if !isTail c then .invalid
      else if a ≤ 0xEF then .char (.ofNat ((bits a 0x10 * 0x40 + bits b 0x40) * 0x40 + bits c 0x40))
      else .incomplete
  | [a, b, c, d] =>
      if isTail d then
        .char (.ofNat (((bits a 8 * 0x40 + bits b 0x40) * 0x40 + bits c 0x40) * 0x40 + bits d 0x40))
      else .invalid
  | _ => .invalid

/-- A byte with nothing held: what is given out, and what is held then. -/
def feedFresh (b : UInt8) : List Char × List UInt8 :=
  match classify [b] with
  | .char c => ([c], [])
  | .incomplete => ([], [b])
  | .invalid => ([replacement], [])

def feed (held : List UInt8) (b : UInt8) : List Char × List UInt8 :=
  match held with
  | [] => feedFresh b
  | _ :: _ =>
      match classify (held ++ [b]) with
      | .char c => ([c], [])
      | .incomplete => ([], held ++ [b])
      | .invalid => (replacement :: (feedFresh b).1, (feedFresh b).2)

def run (held : List UInt8) : List UInt8 → List Char × List UInt8
  | [] => ([], held)
  | b :: w => ((feed held b).1 ++ (run (feed held b).2 w).1, (run (feed held b).2 w).2)

/-- What is still held becomes one replacement character. -/
def flush : List UInt8 → List Char
  | [] => []
  | _ :: _ => [replacement]

/-- `String::from_utf8_lossy`. -/
def lossy (w : List UInt8) : List Char := (run [] w).1 ++ flush (run [] w).2

/-- The next byte continues what the decoder holds after `u`. -/
def Splits (u v : List UInt8) : Prop :=
  (run [] u).2 ≠ [] ∧ ∃ b ∈ v.head?, classify ((run [] u).2 ++ [b]) ≠ .invalid

instance (u v : List UInt8) : Decidable (Splits u v) := inferInstanceAs (Decidable (_ ∧ _))

/-! ## Reading in parts -/

theorem run_append (held u v : List UInt8) :
    run held (u ++ v) = ((run held u).1 ++ (run (run held u).2 v).1, (run (run held u).2 v).2) := by
  induction u generalizing held with
  | nil => rfl
  | cons b u ih =>
      rw [List.cons_append, run, ih, run]
      simp only [List.append_assoc]

/-- What was given out stays. -/
theorem run_extends (u v : List UInt8) : (run [] u).1 <+: lossy (u ++ v) := by
  unfold lossy
  rw [run_append, List.append_assoc]
  exact List.prefix_append _ _

/-- Two parts that split no character are decoded one after the other. -/
theorem lossy_append {u v : List UInt8} (h : ¬ Splits u v) : lossy (u ++ v) = lossy u ++ lossy v := by
  unfold lossy
  rw [run_append]
  cases hheld : (run [] u).2 with
  | nil => simp only [flush, List.append_nil, List.append_assoc]
  | cons a held =>
      cases v with
      | nil => simp [run, flush]
      | cons b v =>
          have hinvalid : classify ((a :: held) ++ [b]) = .invalid := by
            by_contra hc
            refine h ⟨by rw [hheld]; exact List.cons_ne_nil _ _, b, rfl, ?_⟩
            rw [hheld]
            exact hc
          -- the byte ends what is held and is read afresh
          have hfeed : feed (a :: held) b = (replacement :: (feed [] b).1, (feed [] b).2) := by
            unfold feed
            simp only [hinvalid]
          rw [run, hfeed]
          simp only [run, flush, List.append_assoc, List.cons_append, List.nil_append]

/-- Text that ends in a character is the end of all that was held. -/
theorem held_nil_of_last {u : List UInt8} (h : (lossy u).getLast? ≠ some replacement) :
    (run [] u).2 = [] := by
  cases hheld : (run [] u).2 with
  | nil => rfl
  | cons a held =>
      refine absurd ?_ h
      unfold lossy
      rw [hheld]
      exact List.getLast?_concat

theorem not_splits_of_last {u v : List UInt8} (h : (lossy u).getLast? ≠ some replacement) :
    ¬ Splits u v := fun hs => hs.1 (held_nil_of_last h)

/-- Only the next byte counts. -/
theorem Splits.append {u v : List UInt8} (h : Splits u v) (w : List UInt8) : Splits u (v ++ w) := by
  obtain ⟨hheld, b, hb, hnext⟩ := h
  cases v with
  | nil => cases hb
  | cons b' v => exact ⟨hheld, b, hb, hnext⟩

/-! ## ASCII -/

theorem run_ascii {u : List UInt8} (h : ∀ b ∈ u, b < 0x80) : (run [] u).2 = [] := by
  induction u with
  | nil => rfl
  | cons b u ih =>
      have hb : b < 0x80 := h b List.mem_cons_self
      have hfeed : (feed [] b).2 = [] := by
        simp only [feed, feedFresh, classify, if_pos hb]
      rw [run, hfeed]
      exact ih fun x hx => h x (List.mem_cons_of_mem _ hx)

/-- Behind ASCII everything is decoded as it is by itself. -/
theorem lossy_ascii_append {u : List UInt8} (h : ∀ b ∈ u, b < 0x80) (v : List UInt8) :
    lossy (u ++ v) = lossy u ++ lossy v :=
  lossy_append fun hs => hs.1 (run_ascii h)

/-! ## Text in UTF-8 -/

/-- `str::as_bytes`. -/
def utf8 (s : List Char) : List UInt8 := s.flatMap String.utf8EncodeChar

theorem byte_lt {n : Nat} {b : UInt8} (hn : n < 256) : UInt8.ofNat n < b ↔ n < b.toNat := by
  rw [UInt8.lt_iff_toNat_lt, UInt8.toNat_ofNat', Nat.mod_eq_of_lt hn]

theorem byte_le {n : Nat} {b : UInt8} (hn : n < 256) : UInt8.ofNat n ≤ b ↔ n ≤ b.toNat := by
  rw [UInt8.le_iff_toNat_le, UInt8.toNat_ofNat', Nat.mod_eq_of_lt hn]

theorem le_byte {n : Nat} {b : UInt8} (hn : n < 256) : b ≤ UInt8.ofNat n ↔ b.toNat ≤ n := by
  rw [UInt8.le_iff_toNat_le, UInt8.toNat_ofNat', Nat.mod_eq_of_lt hn]

theorem isTail_ofNat {n : Nat} (hn : n < 0x40) : isTail (.ofNat (n + 0x80)) = true := by
  unfold isTail
  rw [Bool.and_eq_true, decide_eq_true_eq, decide_eq_true_eq, le_byte (by omega), byte_le (by omega)]
  exact ⟨by show 128 ≤ _; omega, by show _ ≤ 191; omega⟩

theorem bits_ofNat {n m : Nat} (hn : n < 256) : bits (.ofNat n) m = n % m := by
  unfold bits
  rw [UInt8.toNat_ofNat', Nat.mod_eq_of_lt hn]

theorem feed_char {held : List UInt8} {b : UInt8} {c : Char} (h : classify (held ++ [b]) = .char c) :
    feed held b = ([c], []) := by
  cases held with
  | nil =>
      unfold feed feedFresh
      rw [List.nil_append] at h
      simp only [h]
  | cons a held =>
      unfold feed
      simp only [h]

theorem feed_incomplete {held : List UInt8} {b : UInt8} (h : classify (held ++ [b]) = .incomplete) :
    feed held b = ([], held ++ [b]) := by
  cases held with
  | nil =>
      unfold feed feedFresh
      rw [List.nil_append] at h
      simp only [h]
      rfl
  | cons a held =>
      unfold feed
      simp only [h]

theorem run_char {held : List UInt8} {b : UInt8} {c : Char} (h : classify (held ++ [b]) = .char c)
    (w : List UInt8) : run held (b :: w) = (c :: (run [] w).1, (run [] w).2) := by
  rw [run, feed_char h]
  rfl

theorem run_incomplete {held : List UInt8} {b : UInt8} (h : classify (held ++ [b]) = .incomplete)
    (w : List UInt8) : run held (b :: w) = run (held ++ [b]) w := by
  rw [run, feed_incomplete h]
  rfl

/-- The first byte of a character of several. -/
theorem classify_lead {n : Nat} (hlo : 0xC2 ≤ n) (hhi : n ≤ 0xF4) : classify [.ofNat n] = .incomplete := by
  rw [classify]
  rw [if_neg (by rw [byte_lt (by omega)]; show ¬ n < 128; omega), if_pos]
  rw [Bool.and_eq_true, decide_eq_true_eq, decide_eq_true_eq, le_byte (by omega), byte_le (by omega)]
  exact ⟨hlo, hhi⟩

theorem classify_two {n m : Nat} (hn : n < 0x20) (hm : m < 0x40) :
    classify [.ofNat (n + 0xC0), .ofNat (m + 0x80)] = .char (.ofNat (n * 0x40 + m)) := by
  rw [classify]
  rw [if_pos (by rw [byte_le (by omega)]; show _ ≤ 223; omega), isTail_ofNat hm, if_pos rfl,
    bits_ofNat (by omega), bits_ofNat (by omega)]
  have h₁ : (n + 0xC0) % 0x20 = n := by omega
  have h₂ : (m + 0x80) % 0x40 = m := by omega
  rw [h₁, h₂]

theorem classify_three {n m k : Nat} (hn : n < 0x10) (hm : m < 0x40) (hk : k < 0x40) :
    classify [.ofNat (n + 0xE0), .ofNat (m + 0x80), .ofNat (k + 0x80)] =
      .char (.ofNat ((n * 0x40 + m) * 0x40 + k)) := by
  rw [classify]
  rw [isTail_ofNat hk, Bool.not_true, if_neg Bool.false_ne_true,
    if_pos (by rw [byte_le (by omega)]; show _ ≤ 239; omega), bits_ofNat (by omega), bits_ofNat (by omega),
    bits_ofNat (by omega)]
  have h₁ : (n + 0xE0) % 0x10 = n := by omega
  have h₂ : (m + 0x80) % 0x40 = m := by omega
  have h₃ : (k + 0x80) % 0x40 = k := by omega
  rw [h₁, h₂, h₃]

theorem classify_four {n m k l : Nat} (hn : n < 8) (hm : m < 0x40) (hk : k < 0x40) (hl : l < 0x40) :
    classify [.ofNat (n + 0xF0), .ofNat (m + 0x80), .ofNat (k + 0x80), .ofNat (l + 0x80)] =
      .char (.ofNat (((n * 0x40 + m) * 0x40 + k) * 0x40 + l)) := by
  rw [classify]
  rw [isTail_ofNat hl, if_pos rfl, bits_ofNat (by omega), bits_ofNat (by omega), bits_ofNat (by omega),
    bits_ofNat (by omega)]
  have h₁ : (n + 0xF0) % 8 = n := by omega
  have h₂ : (m + 0x80) % 0x40 = m := by omega
  have h₃ : (k + 0x80) % 0x40 = k := by omega
  have h₄ : (l + 0x80) % 0x40 = l := by omega
  rw [h₁, h₂, h₃, h₄]

/-- The first two bytes of a character of three or four: neither too low for so many, nor a surrogate, nor
too high. -/
theorem classify_second {n m : Nat} (hn : 0xE0 ≤ n) (hn' : n ≤ 0xF4) (hm : m < 0x40)
    (h₃ : n = 0xE0 → 0x20 ≤ m) (hs : n = 0xED → m < 0x20) (h₄ : n = 0xF0 → 0x10 ≤ m)
    (hmax : n = 0xF4 → m < 0x10) :
    classify [.ofNat n, .ofNat (m + 0x80)] = .incomplete := by
  rw [classify]
  rw [if_neg (by rw [byte_le (by omega)]; show ¬ n ≤ 223; omega), if_pos]
  have heq : ∀ k < 256, (UInt8.ofNat n = UInt8.ofNat k ↔ n = k) := by
    intro k hk
    rw [← UInt8.toNat_inj, UInt8.toNat_ofNat', UInt8.toNat_ofNat', Nat.mod_eq_of_lt hk,
      Nat.mod_eq_of_lt (by omega)]
  unfold isSecond
  split_ifs with hE0 hED hF0 hF4
  · have := h₃ ((heq 0xE0 (by omega)).1 hE0)
    rw [Bool.and_eq_true, decide_eq_true_eq, decide_eq_true_eq, le_byte (by omega), byte_le (by omega)]
    exact ⟨by show 160 ≤ _; omega, by show _ ≤ 191; omega⟩
  · have := hs ((heq 0xED (by omega)).1 hED)
    rw [Bool.and_eq_true, decide_eq_true_eq, decide_eq_true_eq, le_byte (by omega), byte_le (by omega)]
    exact ⟨by show 128 ≤ _; omega, by show _ ≤ 159; omega⟩
  · have := h₄ ((heq 0xF0 (by omega)).1 hF0)
    rw [Bool.and_eq_true, decide_eq_true_eq, decide_eq_true_eq, le_byte (by omega), byte_le (by omega)]
    exact ⟨by show 144 ≤ _; omega, by show _ ≤ 191; omega⟩
  · have := hmax ((heq 0xF4 (by omega)).1 hF4)
    rw [Bool.and_eq_true, decide_eq_true_eq, decide_eq_true_eq, le_byte (by omega), byte_le (by omega)]
    exact ⟨by show 128 ≤ _; omega, by show _ ≤ 143; omega⟩
  · exact isTail_ofNat hm

theorem classify_third {n : Nat} (a : UInt8) {m : Nat} (hn : 0xF0 ≤ n) (hn' : n ≤ 0xF4) (hm : m < 0x40) :
    classify [.ofNat n, a, .ofNat (m + 0x80)] = .incomplete := by
  rw [classify]
  rw [isTail_ofNat hm, Bool.not_true, if_neg Bool.false_ne_true, if_neg]
  rw [byte_le (by omega)]
  show ¬ n ≤ 239
  omega

/-- Bytes that make a character of what is held, the last of them at once. -/
inductive Completes (c : Char) : List UInt8 → List UInt8 → Prop where
  | last {held : List UInt8} {b : UInt8} : classify (held ++ [b]) = .char c → Completes c held [b]
  | more {held bs : List UInt8} {b : UInt8} : classify (held ++ [b]) = .incomplete →
      Completes c (held ++ [b]) bs → Completes c held (b :: bs)

theorem run_completes {c : Char} {held bs : List UInt8} (h : Completes c held bs) (w : List UInt8) :
    run held (bs ++ w) = (c :: (run [] w).1, (run [] w).2) := by
  induction h with
  | last hchar => exact run_char hchar w
  | more hincomplete _ ih => exact (run_incomplete hincomplete _).trans ih

theorem completes_encode (c : Char) : Completes c [] (String.utf8EncodeChar c) := by
  have hvalid : c.val.toNat < 0xD800 ∨ 0xDFFF < c.val.toNat ∧ c.val.toNat < 0x110000 := c.valid
  have hc : Char.ofNat c.val.toNat = c := Char.ofNat_toNat c
  unfold String.utf8EncodeChar
  simp only
  generalize c.val.toNat = v at hvalid hc ⊢
  split_ifs with h₁ h₂ h₃
  · refine .last ?_
    rw [List.nil_append, classify, if_pos (by rw [byte_lt (by omega)]; show v < 128; omega), UInt8.toNat_ofNat',
      Nat.mod_eq_of_lt (by omega), hc]
  · have hlead : classify [.ofNat (v / 64 % 0x20 + 0xC0)] = .incomplete :=
      classify_lead (by omega) (by omega)
    have hlast := @classify_two (v / 64 % 0x20) (v % 0x40) (by omega) (by omega)
    have hv : v / 64 % 0x20 * 0x40 + v % 0x40 = v := by omega
    rw [hv, hc] at hlast
    exact .more hlead (.last hlast)
  · have hlead : classify [.ofNat (v / 4096 % 0x10 + 0xE0)] = .incomplete :=
      classify_lead (by omega) (by omega)
    have hsecond : classify [.ofNat (v / 4096 % 0x10 + 0xE0), .ofNat (v / 64 % 0x40 + 0x80)] = .incomplete :=
      classify_second (by omega) (by omega) (by omega) (by omega) (by omega) (by omega) (by omega)
    have hlast := @classify_three (v / 4096 % 0x10) (v / 64 % 0x40) (v % 0x40) (by omega) (by omega) (by omega)
    have hv : (v / 4096 % 0x10 * 0x40 + v / 64 % 0x40) * 0x40 + v % 0x40 = v := by omega
    rw [hv, hc] at hlast
    exact .more hlead (.more hsecond (.last hlast))
  · have hlead : classify [.ofNat (v / 262144 % 8 + 0xF0)] = .incomplete :=
      classify_lead (by omega) (by omega)
    have hsecond : classify [.ofNat (v / 262144 % 8 + 0xF0), .ofNat (v / 4096 % 0x40 + 0x80)] = .incomplete :=
      classify_second (by omega) (by omega) (by omega) (by omega) (by omega) (by omega) (by omega)
    have hthird := @classify_third (v / 262144 % 8 + 0xF0) (.ofNat (v / 4096 % 0x40 + 0x80)) (v / 64 % 0x40)
      (by omega) (by omega) (by omega)
    have hlast := @classify_four (v / 262144 % 8) (v / 4096 % 0x40) (v / 64 % 0x40) (v % 0x40)
      (by omega) (by omega) (by omega) (by omega)
    have hv : ((v / 262144 % 8 * 0x40 + v / 4096 % 0x40) * 0x40 + v / 64 % 0x40) * 0x40 + v % 0x40 = v := by
      omega
    rw [hv, hc] at hlast
    exact .more hlead (.more hsecond (.more hthird (.last hlast)))

/-- A character's bytes are read as it. -/
theorem run_encode (c : Char) (w : List UInt8) :
    run [] (String.utf8EncodeChar c ++ w) = (c :: (run [] w).1, (run [] w).2) := run_completes (completes_encode c) w

theorem lossy_utf8 (s : List Char) : lossy (utf8 s) = s := by
  have hrun : run [] (utf8 s) = (s, []) := by
    induction s with
    | nil => rfl
    | cons c s ih =>
        show run [] (String.utf8EncodeChar c ++ utf8 s) = _
        rw [run_encode, ih]
  unfold lossy
  rw [hrun]
  exact List.append_nil s

/-! ## The settled part -/

/-- The text without the replacement characters at its end. -/
def settled (text : List Char) : List Char := text.rdropWhile (· == replacement)

theorem settled_prefix (text : List Char) : settled text <+: text := List.rdropWhile_prefix _ _

theorem settled_append_replacement (text : List Char) : settled (text ++ [replacement]) = settled text := by
  unfold settled
  exact List.rdropWhile_concat_pos _ _ _ (beq_self_eq_true _)

/-- However the bytes go on, the settled part of what was decoded stays. -/
theorem settled_lossy_prefix (u v : List UInt8) : settled (lossy u) <+: lossy (u ++ v) := by
  refine List.IsPrefix.trans ?_ (run_extends u v)
  unfold lossy
  cases (run [] u).2 with
  | nil =>
      rw [flush, List.append_nil]
      exact settled_prefix _
  | cons a held =>
      rw [flush, settled_append_replacement]
      exact settled_prefix _

end Oxydllm.Utf8Lossy
